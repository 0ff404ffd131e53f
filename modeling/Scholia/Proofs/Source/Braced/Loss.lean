import Scholia.Proofs.Source.Braced.Annotations
import Scholia.Proofs.Source.Braced.Extent
import Scholia.Proofs.Source.Lexemes
import Scholia.Proofs.Source.Loss
/-!
# The loss of a blank in a brace language

The outline of a text that has lost a blank before a line feed has the places of the whole text, each
of them moved. Only comments, text blocks and verbatim strings run over the blank; a string in quotes
ends on its line.

The state remembers where headers and comments began, which is never at a blank, so that what it cuts
out of the text is worn at most.
-/

namespace Scholia.Source.Braced

open Layout (Loss IsStart IsStop IsEnd)
open Text (isBlank isLayout Worn)

variable {dialect : Dialect} {e : Loss}

/-! ## The front of a text -/

/-- A verbatim string may run over the blank. -/
theorem scans_verbatim : e.Scans verbatim := by
  have hplain {c : Char} (hc : isLayout c = true) :=
    verbatim_cons (Text.ne_of_isLayout hc (d := '"') (by decide))
  have hnewline : isLayout '\n' = true := by decide
  intro u hu
  clear hu
  induction hlen : u.length using Nat.strongRecOn generalizing u with
  | ind n ih =>
    cases u with
    | nil =>
      intro inner r h
      rw [List.nil_append, hplain e.layout, Loss.rest, hplain hnewline] at h
      obtain ⟨⟨i, r'⟩, hi, he⟩ := Option.map_eq_some_iff.1 h
      obtain ⟨⟨j, r''⟩, hj, he'⟩ := Option.map_eq_some_iff.1 hi
      cases he'
      cases he
      refine .inr ⟨'\n' :: j, rfl, ?_, ?_⟩
      · rw [Loss.rest, List.cons_append, eq_of_verbatim hj]
      · rw [List.nil_append, Loss.rest, hplain hnewline, hj]
        rfl
    | cons c u =>
      by_cases hc : c = '"'
      · subst hc
        by_cases hd : u.head? = some '"'
        · -- two quotes stand for one
          obtain ⟨u, rfl⟩ := List.head?_eq_some_iff.1 hd
          exact (ih u.length (by simp at hlen; omega) u rfl).take ['"', '"']
            fun w _ => by simp [verbatim]
        · have hends : ∀ w : Text, w.head? ≠ some '"' →
              verbatim ('"' :: (u ++ w)) = some (['"'], u ++ w) := by
            intro w hw
            refine verbatim_quote ?_
            cases u with
            | nil => exact hw
            | cons d u => exact hd
          have hblank : (e.blank :: e.rest).head? ≠ some '"' := fun he =>
            Text.ne_of_isLayout e.layout (d := '"') (by decide) (Option.some.inj he)
          intro inner r h
          rw [List.cons_append, hends _ hblank] at h
          cases h
          exact .inl ⟨u, rfl, rfl, hends _ (by simp [Loss.rest])⟩
      · exact (ih u.length (by simp at hlen; omega) u rfl).take [c] fun w _ => by
          rw [List.singleton_append, verbatim_cons hc]
          rfl

/-- A mark without layout is found with and without the blank. -/
theorem exists_first_passes {opening mark u inner rest : Text} (kind : Kind)
    (hopening : opening ≠ []) (hne : mark ≠ []) (hmark : ∀ c ∈ mark, isLayout c = false)
    (hu : opening ++ u <:+ e.front) (hfirst : Text.IsFirst mark inner)
    (hs : inner ++ (mark ++ rest) = u ++ e.blank :: e.rest) :
    ∃ inner' rest', u ++ e.rest = inner' ++ (mark ++ rest') ∧ Text.IsFirst mark inner' ∧
      e.Found ⟨kind, opening ++ (inner ++ mark)⟩ rest ⟨kind, opening ++ (inner' ++ mark)⟩ rest' := by
  have hcut := Text.cutAt?_eq_some_iff.2 ⟨hs.symm, hfirst⟩
  obtain ⟨_, rest', hleft, hfound⟩ := (Loss.scans_cut hmark hne).found kind opening hopening hu
    (Option.map_eq_some_iff.2 ⟨(inner, rest), hcut, rfl⟩)
  obtain ⟨⟨inner', _⟩, hcut', he⟩ := Option.map_eq_some_iff.1 hleft
  cases he
  obtain ⟨hs', hfirst'⟩ := Text.cutAt?_eq_some_iff.1 hcut'
  exact ⟨inner', rest', hs', hfirst', hfound⟩

/-- The inside of a literal in quotes is found with and without the blank. -/
theorem exists_body_passes {q : Char} {u body rest : Text} (hq : isLayout q = false)
    (hback : q ≠ '\\') (hu : [q] ++ u <:+ e.front) (hbody : QuotedBody q body)
    (hs : body ++ q :: rest = u ++ e.blank :: e.rest) :
    ∃ body' rest', u ++ e.rest = body' ++ q :: rest' ∧ QuotedBody q body' ∧
      e.Found ⟨Kind.literal, q :: (body ++ [q])⟩ rest ⟨Kind.literal, q :: (body' ++ [q])⟩ rest' := by
  have hnewline : q ≠ '\n' := by
    rintro rfl
    exact absurd hq (by decide)
  obtain ⟨inner, rest', hquoted, hfound⟩ := (Loss.scans_quoted hq).found Kind.literal [q] (by simp) hu
    ((quoted_eq_some_iff hback hnewline).2 ⟨body, hbody, rfl, hs.symm⟩)
  obtain ⟨body', hbody', rfl, hs'⟩ := (quoted_eq_some_iff hback hnewline).1 hquoted
  exact ⟨body', rest', hs', hbody', hfound⟩

/-- What is left begins with no comment and no literal that did not begin before. -/
theorem IsOpening.of_rest {u : Text} (h : IsOpening dialect (u ++ e.rest)) :
    IsOpening dialect (u ++ e.blank :: e.rest) := by
  have hbegins : ∀ {p : Text}, p.all (fun c => !isLayout c) = true → p <+: u ++ e.rest →
      p <+: u ++ e.blank :: e.rest := fun hp =>
    Loss.prefix_of_prefix_rest (Text.not_isLayout_of_all hp)
  exact h.imp (hbegins rfl) <| .imp (hbegins rfl) <| .imp (hbegins rfl) <| .imp (hbegins rfl) <|
    .imp id <| .imp (hbegins rfl) (hbegins rfl)

/-- What a text begins with before the blank, it begins with without it. -/
theorem Begins.passes {s u rest : Text} {l : Lexeme Kind} (hu : u <:+ e.front) (hne : u ≠ [])
    (h : Begins dialect s l rest) (hs : u ++ e.blank :: e.rest = s) :
    ∃ l' rest', Begins dialect (u ++ e.rest) l' rest' ∧ e.Found l rest l' rest' := by
  cases h with
  | @lineComment line _ hline hrest =>
    obtain ⟨u, rfl, ht⟩ := Loss.eq_append_of_append (p := ['/', '/']) (by decide) hs
    obtain ⟨htake, hdrop⟩ := Layout.takeWhile_line hline hrest
    rw [show line ++ rest = _ from ht] at htake hdrop
    obtain ⟨line', rest', hleft, hfound⟩ := Loss.scans_line.found Kind.lineComment
      ['/', '/'] (by simp) hu (congrArg some (Prod.ext htake hdrop))
    obtain ⟨rfl, rfl⟩ := Prod.mk.inj (Option.some.inj hleft)
    exact ⟨_, _, begins_line _, hfound⟩
  | @blockComment inner _ hfirst =>
    obtain ⟨u, rfl, ht⟩ := Loss.eq_append_of_append (p := ['/', '*']) (by decide) hs
    obtain ⟨inner', rest', hs', hfirst', hfound⟩ :=
      exists_first_passes Kind.blockComment (by simp) (by simp) (by decide) hu hfirst ht
    rw [List.append_assoc, hs']
    exact ⟨_, rest', .blockComment hfirst', hfound⟩
  | @textBlock inner _ hfirst =>
    obtain ⟨u, rfl, ht⟩ := Loss.eq_append_of_append (p := tripleQuote) (by decide) hs
    obtain ⟨inner', rest', hs', hfirst', hfound⟩ :=
      exists_first_passes Kind.literal (by simp [tripleQuote]) (by simp [tripleQuote]) (by decide)
        hu hfirst ht
    rw [List.append_assoc, hs']
    exact ⟨_, rest', .textBlock hfirst', hfound⟩
  | @string body _ hbody hblock =>
    obtain ⟨u, rfl, ht⟩ := Loss.eq_append_of_append (p := ['"']) (by decide) hs
    obtain ⟨body', rest', hs', hbody', hfound⟩ :=
      exists_body_passes (by decide) (by decide) hu hbody ht
    have hblock' : ¬ tripleQuote <+: ['"'] ++ u ++ e.rest := fun htriple =>
      hblock (hs ▸ Loss.prefix_of_prefix_rest (by decide) htriple)
    rw [List.append_assoc, hs'] at hblock' ⊢
    exact ⟨_, rest', .string hbody' hblock', hfound⟩
  | @character body _ hbody =>
    obtain ⟨u, rfl, ht⟩ := Loss.eq_append_of_append (p := ['\'']) (by decide) hs
    obtain ⟨body', rest', hs', hbody', hfound⟩ :=
      exists_body_passes (by decide) (by decide) hu hbody ht
    rw [List.append_assoc, hs']
    exact ⟨_, rest', .character hbody', hfound⟩
  | @verbatim sign body _ hdialect hsign hbody hbehind =>
    have hcode : sign ≠ [] ∧ ∀ c ∈ sign, isLayout c = false := by
      rcases hsign with rfl | rfl <;> decide
    obtain ⟨u, rfl, ht⟩ := Loss.eq_append_of_append hcode.2 hs
    obtain ⟨inner, rest', hverbatim, hfound⟩ := scans_verbatim.found Kind.literal sign hcode.1 hu
      (verbatim_eq_some_iff.2 ⟨body, hbody, hbehind, rfl, ht.symm⟩)
    obtain ⟨body', hbody', hbehind', rfl, hs'⟩ := verbatim_eq_some_iff.1 hverbatim
    rw [List.append_assoc, hs']
    exact ⟨_, rest', .verbatim hdialect hsign hbody' hbehind', hfound⟩
  | char hopen =>
    obtain ⟨c, u, rfl⟩ := List.exists_cons_of_ne_nil hne
    obtain ⟨rfl, rfl⟩ := List.cons.inj hs
    have hopen' : ¬ IsOpening dialect (c :: u ++ e.rest) := mt IsOpening.of_rest hopen
    exact ⟨_, _, .char hopen', .before _ ((List.suffix_cons c u).trans hu)⟩

/-- **What is found before the blank is found without it**. -/
theorem front_passes {c : Char} {u rest : Text} {l : Lexeme Kind} (hu : c :: u <:+ e.front)
    (h : front dialect c (u ++ e.blank :: e.rest) = .found l rest) :
    ∃ l' rest', front dialect c (u ++ e.rest) = .found l' rest' ∧ e.Found l rest l' rest' := by
  obtain ⟨l', rest', hbegins, hfound⟩ := (begins_of_front h).passes hu (List.cons_ne_nil c u) rfl
  obtain ⟨_, _, he, hfront⟩ := front_of_begins hbegins
  cases he
  exact ⟨l', rest', hfront, hfound⟩

/-! ## Moved states -/

def BraceKind.moved (f : Nat → Nat) : BraceKind → BraceKind
  | inline header parens => inline (header.map f) parens
  | kind => kind

def OpenBrace.moved (f : Nat → Nat) (b : OpenBrace) : OpenBrace :=
  ⟨b.kind.moved f, f b.start, f b.brace⟩

/-- A state whose places have moved. -/
def State.moved (f : Nat → Nat) (s : State) : State :=
  { header := s.header.map f
    parens := s.parens
    braces := s.braces.map (OpenBrace.moved f)
    nodes := s.nodes.map (Node.moved f)
    run := s.run.map (Span.moved f) }

theorem BraceKind.holdsDeclarations_moved (f : Nat → Nat) (kind : BraceKind) :
    (kind.moved f).holdsDeclarations = kind.holdsDeclarations := by
  cases kind <;> rfl

theorem State.mark_moved (f : Nat → Nat) (s : State) (offset : Nat) :
    (s.moved f).mark (f offset) = (s.mark offset).moved f := by
  obtain ⟨header, parens, braces, nodes, run⟩ := s
  cases header <;> rfl

theorem State.flushRun_moved (f : Nat → Nat) (s : State) :
    (s.moved f).flushRun = s.flushRun.moved f := by
  obtain ⟨header, parens, braces, nodes, run⟩ := s
  cases run <;> rfl

/-- A brace closes at the same place, and what it closes ends behind it. -/
theorem State.closeBrace?_moved {f : Nat → Nat} {s : State} {offset : Nat}
    (hf : f (offset + 1) = f offset + 1) :
    (s.moved f).closeBrace? (f offset) = (s.closeBrace? offset).map (State.moved f) := by
  obtain ⟨header, parens, braces, nodes, run⟩ := s
  cases braces with
  | nil => rfl
  | cons inner outer =>
    obtain ⟨kind, start, brace⟩ := inner
    cases kind <;>
      simp [closeBrace?, moved, OpenBrace.moved, BraceKind.moved, Node.moved, NodeKind.moved,
        Node.typeDecl, Node.routine, Span.moved, hf]

/-! ## What a state remembers -/

/-- A run of comment lines starts and stops with them. It does not run over a lost line feed. -/
structure IsRun (e : Loss) (pos : Nat) (run : Span) : Prop where
  start : IsStart e.whole run.start
  stop : IsStop e.whole run.stop
  ordered : run.start ≤ run.stop
  le : run.stop ≤ pos
  line : e.blank = '\n' → run.stop ≤ Text.width e.front ∨ Text.width e.front < run.start

/-- A header that has begun. -/
def IsHeader (e : Loss) (pos : Nat) (header : Option Nat) : Prop :=
  ∀ h, header = some h → h ≤ pos ∧ IsStart e.whole h

/-- What a state remembers at a byte. -/
structure State.Marked (e : Loss) (language : Language) (pos : Nat) (s : State) : Prop where
  header : IsHeader e pos s.header
  starts : ∀ b ∈ s.braces, IsStart e.whole b.start
  inlines : ∀ b ∈ s.braces, ∀ header parens, b.kind = .inline header parens → IsHeader e pos header
  nodes : ∀ n ∈ s.nodes, n.Marked e language
  run : ∀ r, s.run = some r → language = .cSharp ∧ IsRun e pos r

theorem IsRun.mono {pos pos' : Nat} {run : Span} (h : IsRun e pos run) (hpos : pos ≤ pos') :
    IsRun e pos' run :=
  { h with le := Nat.le_trans h.le hpos }

theorem IsHeader.mono {pos pos' : Nat} {header : Option Nat} (h : IsHeader e pos header)
    (hpos : pos ≤ pos') : IsHeader e pos' header :=
  fun b hb => ⟨Nat.le_trans (h b hb).1 hpos, (h b hb).2⟩

/-- A run of comment lines says the same without the blank. -/
theorem IsRun.reads {pos : Nat} {run : Span} (h : IsRun e pos run) : Reads e .cSharp run where
  isEmpty := Loss.isEmpty_slice h.start h.stop.isCut h.ordered
  read := by
    have hread : Comment.XmlDoc.read (run.of e.whole) =
        Comment.XmlDoc.read ((run.moved e.place).of e.left) :=
      Comment.XmlDoc.read_of_lineTexts (Loss.lineTexts_slice h.start h.stop h.ordered h.line)
        (Loss.holds_slice (Text.not_isLayout_of_all rfl) (by simp) h.start.isCut
          h.stop.isCut h.ordered)
    have hblank : Text.allBlank (run.of e.whole) =
        Text.allBlank ((run.moved e.place).of e.left) :=
      Loss.allBlank_slice h.start.isCut h.stop.isCut h.ordered
    unfold Comment.read
    rw [hblank]
    simp only [hread]

theorem attachment_ne (dialect : Dialect) : dialect.language.attachment ≠ .firstStatement := by
  cases dialect <;> decide

/-- A declaration is marked by its start. -/
theorem marked_of_declaration {n : Node} (hstart : IsStart e.whole n.span.start)
    (hkind : n.kind ≠ .doc) : n.Marked e dialect.language where
  start := hstart
  doc := fun hdoc => absurd hdoc hkind
  body := fun ha => absurd ha (attachment_ne dialect)

namespace State.Marked

variable {s : State} {pos pos' : Nat}

theorem initial (pos : Nat) : State.initial.Marked e dialect.language pos where
  header := fun _ h => by cases h
  starts := fun _ h => by cases h
  inlines := fun _ h => by cases h
  nodes := fun _ h => by cases h
  run := fun _ h => by cases h

theorem mono (h : s.Marked e dialect.language pos) (hpos : pos ≤ pos') :
    s.Marked e dialect.language pos' where
  header := h.header.mono hpos
  starts := h.starts
  inlines := fun b hb header parens hk => (h.inlines b hb header parens hk).mono hpos
  nodes := h.nodes
  run := fun r hr => ⟨(h.run r hr).1, (h.run r hr).2.mono hpos⟩

theorem mark (h : s.Marked e dialect.language pos) (hpos : IsStart e.whole pos) :
    (s.mark pos).Marked e dialect.language pos :=
  { h with
    header := fun b hb => by
      cases hs : s.header with
      | none =>
        simp only [State.mark, hs, Option.getD_none, Option.some.injEq] at hb
        exact hb ▸ ⟨Nat.le_refl _, hpos⟩
      | some b' =>
        simp only [State.mark, hs, Option.getD_some, Option.some.injEq] at hb
        exact hb ▸ h.header b' hs }

theorem flushRun (h : s.Marked e dialect.language pos) :
    s.flushRun.Marked e dialect.language pos ∧ s.flushRun.run = none := by
  unfold State.flushRun
  cases hr : s.run with
  | none => exact ⟨h, hr⟩
  | some run =>
    obtain ⟨hl, hrun⟩ := h.run run hr
    refine ⟨{ h with nodes := fun n hn => ?_, run := fun _ hr => by cases hr }, rfl⟩
    rcases List.mem_cons.1 hn with rfl | hn
    · refine ⟨hrun.start, fun _ => ⟨hrun.stop, hl ▸ hrun.reads⟩, fun ha => ?_⟩
      exact absurd ha (attachment_ne dialect)
    · exact h.nodes n hn

end State.Marked

/-! ## Runs of comment lines -/

/-- A gap that has lost its third line feed still has two. -/
theorem isRunGap_worn {s t : Text} (h : Worn s t) : State.isRunGap s = State.isRunGap t := by
  unfold State.isRunGap
  rw [h.allBlank]
  cases h with
  | same => rfl
  | @lost u x v hx hu =>
    by_cases hn : x = '\n'
    · subst hn
      obtain ⟨init, rfl⟩ := List.getLast?_eq_some_iff.1 (hu rfl)
      congr 1
      simp only [Text.tally, List.count_append, List.count_cons_self, List.count_nil]
      exact decide_eq_decide.2 (by omega)
    · simp [Text.tally, hn]

/-- A line of a comment is a run. -/
theorem IsRun.of_line {p t r : Text} {c : Char} (hwhole : e.whole = p ++ (c :: t ++ r))
    (hc : isBlank c = false) (hline : ∀ d ∈ c :: t, d ≠ '\n') :
    IsRun e (Text.width p + Text.width (c :: t))
      ⟨Text.width p, Text.width p + Text.width (c :: t)⟩ := by
  have hstart : IsStart e.whole (Text.width p) := ⟨p, c, t ++ r, hwhole, rfl, hc⟩
  have hstop : IsStop e.whole (Text.width p + Text.width (c :: t)) :=
    ⟨p, c, t, r, hwhole, by rw [Text.width_append], hc,
      fun hn => hline _ (List.mem_cons_of_mem _ hn) rfl⟩
  refine ⟨hstart, hstop, Nat.le_add_right _ _, Nat.le_refl _, fun hx => ?_⟩
  by_contra hnot
  obtain ⟨u, v, hs, -⟩ := Loss.slice_over hstart.isCut hstop.isCut
    (Nat.le_of_not_lt fun h => hnot (.inr h)) (Nat.lt_of_not_le fun h => hnot (.inl h))
  rw [hwhole, Text.slice_middle] at hs
  exact hline '\n' (by rw [hs, hx]; simp) rfl

/-- Two runs with a gap between them are a run: a gap with a lost line feed is too long. -/
theorem IsRun.extend {pos pos' : Nat} {run line : Span} (hrun : IsRun e pos run)
    (hline : IsRun e pos' line) (hle : run.stop ≤ line.start)
    (hgap : State.isRunGap (Text.slice run.stop line.start e.whole) = true) :
    IsRun e pos' ⟨run.start, line.stop⟩ where
  start := hrun.start
  stop := hline.stop
  ordered := Nat.le_trans hrun.ordered (Nat.le_trans hle hline.ordered)
  le := hline.le
  line := fun hx => by
    rcases hrun.line hx with hfront | hback
    · rcases hline.line hx with hfront' | hback'
      · exact .inl hfront'
      · obtain ⟨u, v, hs, -, hu, hv, hfw, hbw⟩ :=
          Loss.slice_over hrun.stop.isCut hline.start.isCut hfront hback'
        have hune : u ≠ [] := by
          rintro rfl
          exact Loss.ne_of_isStop hrun.stop hx hfw.symm
        have hlast := Loss.getLast?_of_suffix hu hune
        rw [e.emptyLine hx] at hlast
        obtain ⟨u, rfl⟩ := List.getLast?_eq_some_iff.1 hlast
        rw [hs, hx] at hgap
        simp [State.isRunGap, Text.tally] at hgap
        omega
    · exact .inr hback

/-- **A comment line joins the same run**. -/
theorem State.Marked.extendRun {s : State} (line : Span) (hd : dialect = .cSharp)
    (h : s.Marked e dialect.language line.start) (hline : IsRun e line.stop line) :
    (s.moved e.place).extendRun e.left (line.moved e.place) =
        (s.extendRun e.whole line).moved e.place ∧
      (s.extendRun e.whole line).Marked e dialect.language line.stop := by
  have hl : dialect.language = .cSharp := by rw [hd]; rfl
  have hstop := h.mono hline.ordered
  unfold State.extendRun
  cases hr : s.run with
  | none =>
    refine ⟨?_, { hstop with run := fun r he => ?_ }⟩
    · simp only [State.moved, hr, Option.map_none, Option.map_some]
    · cases he
      exact ⟨hl, hline⟩
  | some run =>
    obtain ⟨-, hrun⟩ := h.run run hr
    have hgap : State.isRunGap (Text.slice (e.place run.stop) (e.place line.start) e.left) =
        State.isRunGap (Text.slice run.stop line.start e.whole) :=
      (isRunGap_worn (Loss.worn_slice (.inr hrun.stop) hline.start hrun.le)).symm
    have hmoved : (s.moved e.place).run = some (run.moved e.place) := by
      simp only [State.moved, hr, Option.map_some]
    simp only [hmoved]
    rw [show (run.moved e.place).stop = e.place run.stop from rfl,
      show (line.moved e.place).start = e.place line.start from rfl, hgap]
    split
    · next hg =>
      refine ⟨rfl, { hstop with run := fun r he => ?_ }⟩
      cases he
      exact ⟨hl, hrun.extend hline hrun.le hg⟩
    · rw [State.flushRun_moved]
      refine ⟨rfl, { hstop.flushRun.1 with run := fun r he => ?_ }⟩
      cases he
      exact ⟨hl, hline⟩

/-! ## One lexeme -/

theorem State.Marked.push {s : State} {pos : Nat} (h : s.Marked e dialect.language pos)
    {b : OpenBrace} (hstart : IsStart e.whole b.start)
    (hinline : ∀ header parens, b.kind = .inline header parens → IsHeader e pos header)
    (parens : Nat) :
    State.Marked e dialect.language pos
      { s with header := none, parens, braces := b :: s.braces } where
  header := fun _ he => by cases he
  starts := fun b' hb => by
    rcases List.mem_cons.1 hb with rfl | hb
    · exact hstart
    · exact h.starts b' hb
  inlines := fun b' hb => by
    rcases List.mem_cons.1 hb with rfl | hb
    · exact hinline
    · exact h.inlines b' hb
  nodes := h.nodes
  run := h.run

/-- **A brace opens the same scope**. -/
theorem State.Marked.openBrace {s : State} {pos : Nat} (h : s.Marked e dialect.language pos)
    (hpos : IsStart e.whole pos) :
    (s.moved e.place).openBrace dialect e.left (e.place pos) =
        (s.openBrace dialect e.whole pos).moved e.place ∧
      (s.openBrace dialect e.whole pos).Marked e dialect.language pos := by
  have hparens : (s.moved e.place).parens = s.parens := rfl
  unfold State.openBrace
  rw [hparens]
  split
  · refine ⟨rfl, h.push hpos (fun header parens hk => ?_) 0⟩
    cases hk
    exact h.header
  · have hstart : s.header.getD pos ≤ pos ∧ IsStart e.whole (s.header.getD pos) := by
      cases hs : s.header with
      | none => exact ⟨Nat.le_refl _, hpos⟩
      | some b => exact h.header b hs
    have hplace : (s.moved e.place).header.getD (e.place pos) = e.place (s.header.getD pos) := by
      cases hs : s.header <;> simp [State.moved, hs]
    have hallowed : ((s.moved e.place).braces.head?.map (·.kind.holdsDeclarations)).getD true =
        (s.braces.head?.map (·.kind.holdsDeclarations)).getD true := by
      cases hs : s.braces with
      | nil => simp [State.moved, hs]
      | cons b outer =>
        simp only [State.moved, hs, List.map_cons, List.head?_cons, Option.map_some,
          Option.getD_some]
        exact BraceKind.holdsDeclarations_moved e.place b.kind
    have hheader : Header.ofText (dialect == .cSharp)
          (Text.slice (e.place (s.header.getD pos)) (e.place pos) e.left) =
        Header.ofText (dialect == .cSharp) (Text.slice (s.header.getD pos) pos e.whole) :=
      (ofText_worn (Loss.worn_slice (.inl hstart.2) hpos hstart.1) _).symm
    simp only [hplace, hallowed, hheader]
    generalize hk : (if (s.braces.head?.map (·.kind.holdsDeclarations)).getD true then _ else
      BraceKind.block) = kind
    have hinline : kind.moved e.place = kind ∧ ∀ header parens, kind ≠ .inline header parens := by
      rw [← hk]
      split
      · split <;> exact ⟨rfl, fun _ _ he => by cases he⟩
      · exact ⟨rfl, fun _ _ he => by cases he⟩
    refine ⟨?_, h.push hstart.2 (fun header parens hk => absurd hk (hinline.2 header parens)) _⟩
    simp only [State.moved, OpenBrace.moved, List.map_cons, hinline.1, Option.map_none]

theorem State.Marked.closeBrace {s s' : State} {pos : Nat} (h : s.Marked e dialect.language pos)
    (hs : s.closeBrace? pos = some s') : s'.Marked e dialect.language pos := by
  unfold State.closeBrace? at hs
  cases hb : s.braces with
  | nil =>
    rw [hb] at hs
    cases hs
  | cons inner outer =>
    have hmem : ∀ b ∈ outer, b ∈ s.braces := fun b hmem => hb ▸ List.mem_cons_of_mem _ hmem
    have hinner : inner ∈ s.braces := hb ▸ List.mem_cons_self
    -- a declaration that ends here is one more node
    have hclosed : ∀ nodes parens, (∀ n ∈ nodes, n.Marked e dialect.language) →
        State.Marked e dialect.language pos ⟨none, parens, outer, nodes, s.run⟩ :=
      fun nodes parens hnodes =>
        { header := fun _ he => by cases he
          starts := fun b hb' => h.starts b (hmem b hb')
          inlines := fun b hb' => h.inlines b (hmem b hb')
          nodes := hnodes
          run := h.run }
    have hnode : ∀ n : Node, n.span.start = inner.start → n.kind ≠ .doc →
        ∀ m ∈ n :: s.nodes, m.Marked e dialect.language := by
      intro n hstart hkind m hm
      rcases List.mem_cons.1 hm with rfl | hm
      · exact marked_of_declaration (hstart ▸ h.starts inner hinner) hkind
      · exact h.nodes m hm
    simp only [hb] at hs
    cases hk : inner.kind with
    | «inline» header parens =>
      simp only [hk] at hs
      cases hs
      exact { hclosed s.nodes parens h.nodes with header := h.inlines inner hinner header parens hk }
    | typeDecl name signature =>
      simp only [hk] at hs
      cases hs
      exact hclosed _ _ (hnode _ rfl (by simp [Node.typeDecl]))
    | routine name signature =>
      simp only [hk] at hs
      cases hs
      exact hclosed _ _ (hnode _ rfl (by simp [Node.routine]))
    | package =>
      simp only [hk] at hs
      cases hs
      exact hclosed _ _ h.nodes
    | block =>
      simp only [hk] at hs
      cases hs
      exact hclosed _ _ h.nodes

/-- A block comment begins and ends with a slash and a star. -/
theorem blockComment_of_front {c : Char} {r rest : Text} {l : Lexeme Kind}
    (h : front dialect c r = .found l rest) (hk : l.kind = .blockComment) :
    ∃ inner, l.text = '/' :: '*' :: (inner ++ ['*', '/']) := by
  have hbegins := begins_of_front h
  generalize c :: r = s at hbegins
  cases hbegins with
  | blockComment => exact ⟨_, rfl⟩
  | @char d => exact absurd hk (Kind.ofChar_plain d).2.1
  | _ => cases hk

/-- A block comment that has lost a blank is a doc comment if it was one: it still has a line. -/
theorem isDocBlock_moves {p : Text} {l l' : Lexeme Kind} (hm : e.Moves p l l') {inner : Text}
    (ht : l.text = '/' :: '*' :: (inner ++ ['*', '/'])) :
    State.isDocBlock l'.text = State.isDocBlock l.text := by
  unfold State.isDocBlock
  rw [hm.isPrefixOf (Text.not_isLayout_of_all rfl)]
  cases hm with
  | before => rfl
  | behind => rfl
  | @inside kind u v r _ _ hv =>
    cases hpre : ['/', '*', '*'].isPrefixOf (u ++ e.blank :: v) with
    | false => rfl
    | true =>
      -- two stars stand before the blank, a line feed and a slash behind it
      have hu : 3 ≤ u.length := by
        have hblank : e.blank ∉ ['/', '*', '*'] := fun hmem => by
          have := e.layout
          rw [Text.not_isLayout_of_all rfl _ hmem] at this
          cases this
        rw [Text.isPrefixOf_append hblank] at hpre
        exact (List.isPrefixOf_iff_prefix.1 hpre).length_le
      have hv : 2 ≤ v.length := by
        have hlast : (u ++ e.blank :: v).getLast? = some '/' := by
          have hend : u ++ e.blank :: v = ('/' :: '*' :: (inner ++ ['*'])) ++ ['/'] := by
            rw [show u ++ e.blank :: v = '/' :: '*' :: (inner ++ ['*', '/']) from ht]
            simp
          rw [hend, List.getLast?_concat]
        cases v with
        | nil =>
          rw [List.getLast?_concat] at hlast
          exact absurd (Option.some.inj hlast) (Text.ne_of_isLayout e.layout (by decide))
        | cons c v =>
          obtain ⟨rfl, -⟩ := List.cons.inj hv
          cases v with
          | nil =>
            simp at hlast
          | cons d v => simp
      simp only [List.length_append, List.length_cons, Bool.true_and]
      exact decide_eq_decide.2 (by omega)

/-- **A block comment that is a doc comment says the same**. -/
theorem blockComment_marked {p q inner : Text} (hd : dialect = .java)
    (hwhole : e.whole = p ++ ('/' :: '*' :: (inner ++ ['*', '/']) ++ q)) :
    (Node.doc ⟨Text.width p,
      Text.width p + Text.width ('/' :: '*' :: (inner ++ ['*', '/']))⟩).Marked e
        dialect.language := by
  have hl : dialect.language = .java := by rw [hd]; rfl
  have hstart : IsStart e.whole (Text.width p) :=
    ⟨p, '/', '*' :: (inner ++ ['*', '/']) ++ q, hwhole, rfl, by decide⟩
  have hlast : e.whole = (p ++ '/' :: '*' :: (inner ++ ['*'])) ++ '/' :: q := by
    rw [hwhole]
    simp
  have hend : IsEnd e.whole (Text.width p + Text.width ('/' :: '*' :: (inner ++ ['*', '/']))) := by
    refine ⟨p ++ '/' :: '*' :: (inner ++ ['*']), '/', q, hlast, ?_, by decide⟩
    simp only [Text.width_append, Text.width_cons, Text.width_nil]
    omega
  have hle := Nat.le_add_right (Text.width p) (Text.width ('/' :: '*' :: (inner ++ ['*', '/'])))
  refine ⟨hstart, fun _ => ⟨hend.isStop, Loss.isEmpty_slice hstart hend.isCut hle, ?_⟩,
    fun ha => absurd ha (attachment_ne dialect)⟩
  rw [hl]
  exact Comment.read_worn (by decide) (Loss.worn_slice_end hstart hend hle)

/-- **A lexeme moves the state with it**. -/
theorem State.step_moved (hplain : ∀ c ∈ e.whole, isBlank c = true → isLayout c = true)
    {p r q : Text} {c : Char} {l l' : Lexeme Kind} {s s₁ : State} (hwhole : e.whole = p ++ c :: r)
    (hfound : front dialect c r = .found l q) (hm : e.Moves p l l')
    (hs : s.Marked e dialect.language (Text.width p))
    (hstep : s.step dialect e.whole (Text.width p) l = .ok s₁) :
    (s.moved e.place).step dialect e.left (e.place (Text.width p)) l' =
        .ok (s₁.moved e.place) ∧
      s₁.Marked e dialect.language (Text.width p + Text.width l.text) := by
  have hmono {t : State} (ht : t.Marked e dialect.language (Text.width p)) :
      t.Marked e dialect.language (Text.width p + Text.width l.text) :=
    ht.mono (Nat.le_add_right _ _)
  have hkeeps := (front_keeps dialect c r l q hfound).1
  have hstart : l.kind ≠ .blank → IsStart e.whole (Text.width p) := by
    intro hk
    refine ⟨p, c, r, hwhole, rfl, ?_⟩
    obtain ⟨-, -, hc⟩ := first_not_blank hfound hk
    cases hb : isBlank c with
    | false => rfl
    | true =>
      have hlayout := hplain c (by rw [hwhole]; simp) hb
      rcases Text.isLayout_iff.1 hlayout with rfl | rfl | rfl | rfl <;> cases hc
  have hspan : (⟨e.place (Text.width p), e.place (Text.width p) + Text.width l'.text⟩ : Span) =
      Span.moved e.place ⟨Text.width p, Text.width p + Text.width l.text⟩ := by
    rw [Span.moved, hm.stop]
  unfold State.step at hstep ⊢
  rw [hm.kind_eq]
  cases hk : l.kind with
  | lineComment =>
    have hslashes : State.isDocLine l'.text = State.isDocLine l.text := by
      unfold State.isDocLine
      rw [hm.isPrefixOf (Text.not_isLayout_of_all rfl),
        hm.isPrefixOf (Text.not_isLayout_of_all rfl)]
    simp only [hk, hslashes, hspan] at hstep ⊢
    split at hstep
    · next hd =>
      rw [if_pos hd]
      cases hstep
      obtain ⟨x, rfl, rfl, hx, -⟩ := lineComment_of_front hfound hk
      have hline := IsRun.of_line (e := e) (p := p) (t := '/' :: x) (r := q)
        (by rw [hwhole, ← hkeeps]) (by decide)
        fun d hd => by
          rcases List.mem_cons.1 hd with rfl | hd
          · decide
          rcases List.mem_cons.1 hd with rfl | hd
          · decide
          · exact hx d hd
      obtain ⟨he, hmarked⟩ := State.Marked.extendRun
        ⟨Text.width p, Text.width p + Text.width ('/' :: '/' :: x)⟩ (by simp at hd; exact hd.1) hs hline
      exact ⟨congrArg Except.ok he, hmarked⟩
    · next hd =>
      rw [if_neg hd]
      cases hstep
      exact ⟨rfl, hmono hs⟩
  | blockComment =>
    obtain ⟨inner, ht⟩ := blockComment_of_front hfound hk
    simp only [hk, isDocBlock_moves hm ht, hspan] at hstep ⊢
    split at hstep
    · next hd =>
      rw [if_pos hd]
      cases hstep
      refine ⟨rfl, { hmono hs with nodes := fun n hn => ?_ }⟩
      rcases List.mem_cons.1 hn with rfl | hn
      · rw [ht]
        refine blockComment_marked (q := q) (by simp at hd; exact hd.1) ?_
        rw [hwhole, ← hkeeps, ht]
      · exact hs.nodes n hn
    · next hd =>
      rw [if_neg hd]
      cases hstep
      exact ⟨rfl, hmono hs⟩
  | literal =>
    simp only [hk] at hstep ⊢
    cases hstep
    exact ⟨congrArg Except.ok (State.mark_moved _ s _), hmono (hs.mark (hstart (by simp [hk])))⟩
  | openBrace =>
    simp only [hk] at hstep ⊢
    cases hstep
    obtain ⟨he, hmarked⟩ := hs.openBrace (hstart (by simp [hk]))
    exact ⟨congrArg Except.ok he, hmono hmarked⟩
  | closeBrace =>
    have hne := Loss.ne_of_isStart (hstart (by simp [hk]))
    simp only [hk, State.closeBrace?_moved (Loss.place_add_one hne)] at hstep ⊢
    cases hc : s.closeBrace? (Text.width p) with
    | none =>
      simp only [hc] at hstep
      cases hstep
    | some s' =>
      simp only [hc] at hstep
      cases hstep
      exact ⟨rfl, hmono (hs.closeBrace hc)⟩
  | openParen =>
    simp only [hk] at hstep ⊢
    cases hstep
    have hmark := hmono (hs.mark (hstart (by simp [hk])))
    rw [State.mark_moved]
    exact ⟨rfl, { hmark with }⟩
  | closeParen =>
    simp only [hk] at hstep ⊢
    cases hstep
    exact ⟨rfl, { hmono hs with }⟩
  | semicolon =>
    simp only [hk] at hstep ⊢
    cases hstep
    have hparens : (s.moved e.place).parens = s.parens := rfl
    rw [hparens]
    split
    · exact ⟨rfl, { hmono hs with header := fun _ he => by cases he }⟩
    · exact ⟨rfl, hmono hs⟩
  | blank =>
    simp only [hk] at hstep ⊢
    cases hstep
    exact ⟨rfl, hmono hs⟩
  | code =>
    simp only [hk] at hstep ⊢
    cases hstep
    exact ⟨congrArg Except.ok (State.mark_moved _ s _), hmono (hs.mark (hstart (by simp [hk])))⟩

/-! ## The outline -/

/-- **A brace language keeps track of the blank**. -/
theorem tracks (hplain : ∀ c ∈ e.whole, isBlank c = true → isLayout c = true) :
    e.Tracks (rule dialect) (State.step dialect e.whole) (State.step dialect e.left)
      (State.moved e.place) fun pos s => s.Marked e dialect.language pos where
  passes := fun _ _ _ _ hu h => front_passes hu h
  alone := by
    have hblank : Text.isPlainBlank e.blank = true := by
      rcases Text.isLayout_iff.1 e.layout with hb | hb | hb | hb <;> rw [hb] <;> decide
    have hnewline : front dialect '\n' e.behind = .found ⟨.blank, ['\n']⟩ e.behind :=
      front_blank (by decide) e.behind
    refine ⟨.blank, .blank, front_blank hblank e.rest, hnewline, fun s s₁ s₂ hs h₁ h₂ => ?_⟩
    cases h₁
    cases h₂
    exact ⟨rfl, hs.mono (by omega)⟩
  step := fun hwhole hfound hm hs hstep => State.step_moved hplain hwhole hfound hm hs hstep

/-- **The outline moves with the text**. -/
theorem outline_left (hplain : ∀ c ∈ e.whole, isBlank c = true → isLayout c = true) {o : Outline}
    (h : outline dialect e.whole = .ok o) :
    ∃ nodes, o = .ofNodes e.whole nodes ∧
      outline dialect e.left = .ok (.ofNodes e.left (nodes.map (Node.moved e.place))) ∧
      ∀ n ∈ nodes, n.Marked e dialect.language := by
  obtain ⟨lexemes, s, hr, hbraces, rfl, -⟩ := outline_reached h
  obtain ⟨lexemes', hd', hrun', hmarked⟩ := (tracks hplain).run (p := []) hr.divides rfl rfl
    (State.Marked.initial _) hr.runs
  have hreach : (rule dialect).Reaches (State.step dialect e.left) .initial e.left lexemes' []
      (s.moved e.place) := ⟨hd', hrun'⟩
  have hfinish : (s.moved e.place).finish dialect =
      .ok (s.flushRun.nodes.reverse.map (Node.moved e.place)) := by
    unfold State.finish
    rw [show (s.moved e.place).braces = [] by simp [State.moved, hbraces], State.flushRun_moved]
    simp only [State.moved, List.map_reverse]
  refine ⟨s.flushRun.nodes.reverse, rfl, ?_, fun n hn => ?_⟩
  · unfold outline
    simp only [hreach.run_eq, hfinish, bind, Except.bind, pure, Except.pure]
  · exact hmarked.flushRun.1.nodes n (List.mem_reverse.1 hn)

end Scholia.Source.Braced
