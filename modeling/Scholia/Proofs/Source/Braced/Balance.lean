import Mathlib.Data.List.Induction
import Scholia.Proofs.Layout.Dedent
import Scholia.Proofs.Source.Braced.Grammar
import Scholia.Proofs.Source.Braced.Order
/-!
# Braces in pairs

A text of a brace language has an outline exactly if its comments and literals end and its braces
come in pairs. The invariant is that between two open braces, and behind the last one, everything
that has been opened has been closed (`Opened`): so a brace that closes belongs to the innermost one
that is open, and the places found stand apart or one inside the other.
-/

namespace Scholia.Source

/-! ## Ranges -/

/-- Two ranges do not meet. -/
def Span.Apart (s t : Span) : Prop :=
  s.stop ≤ t.start ∨ t.stop ≤ s.start

/-- A range lies inside another one. -/
def Span.Inside (inner outer : Span) : Prop :=
  outer.start ≤ inner.start ∧ inner.stop ≤ outer.stop

/-- Two declarations are apart or one lies inside the other, which is no routine. -/
def Node.Nest (m n : Node) : Prop :=
  (m.span.Apart n.span ∨ m.span.Inside n.span ∨ n.span.Inside m.span) ∧
    (m.isRoutine = true → ¬ n.span.Inside m.span) ∧ (n.isRoutine = true → ¬ m.span.Inside n.span)

theorem Node.Nest.symm {m n : Node} (h : m.Nest n) : n.Nest m :=
  ⟨h.1.imp Or.symm Or.symm, h.2.2, h.2.1⟩

/-- What has ended lies before what ends later, or inside it. -/
theorem Node.Ends.nest {later earlier : Node} (h : later.Ends earlier)
    (_ : later.span.start < later.span.stop) (_ : earlier.span.start < earlier.span.stop)
    (hstop : earlier.span.stop < later.span.stop) : later.Nest earlier := by
  unfold Node.Nest Span.Apart Span.Inside
  rcases h with hle | ⟨htype, hlt⟩
  · exact ⟨.inl (.inr hle), fun _ => by omega, fun _ => by omega⟩
  · refine ⟨.inr (.inr ⟨by omega, by omega⟩), fun hr => ?_, fun _ => by omega⟩
    rw [htype] at hr
    cases hr

namespace Braced

/-! ## Pairs of braces -/

/-- How many braces open among lexemes. -/
def opens (lexemes : List (Lexeme Kind)) : Nat := lexemes.countP (·.kind == .openBrace)

/-- How many braces close among lexemes. -/
def closes (lexemes : List (Lexeme Kind)) : Nat := lexemes.countP (·.kind == .closeBrace)

/-- Braces are paired: no part from the front closes more than it opens, and none is left open. -/
structure Matched (lexemes : List (Lexeme Kind)) : Prop where
  before : ∀ front, front <+: lexemes → closes front ≤ opens front
  whole : closes lexemes = opens lexemes

@[simp] theorem opens_nil : opens [] = 0 := rfl

@[simp] theorem closes_nil : closes [] = 0 := rfl

@[simp] theorem opens_append (ls ms : List (Lexeme Kind)) :
    opens (ls ++ ms) = opens ls + opens ms :=
  List.countP_append

@[simp] theorem closes_append (ls ms : List (Lexeme Kind)) :
    closes (ls ++ ms) = closes ls + closes ms :=
  List.countP_append

@[simp] theorem opens_cons (l : Lexeme Kind) (ls : List (Lexeme Kind)) :
    opens (l :: ls) = opens ls + if l.kind = .openBrace then 1 else 0 := by
  simp [opens, List.countP_cons]

@[simp] theorem closes_cons (l : Lexeme Kind) (ls : List (Lexeme Kind)) :
    closes (l :: ls) = closes ls + if l.kind = .closeBrace then 1 else 0 := by
  simp [closes, List.countP_cons]

/-- The lexeme of a brace that opens. -/
def openLexeme : Lexeme Kind := ⟨.openBrace, ['{']⟩

/-- The lexeme of a brace that closes. -/
def closeLexeme : Lexeme Kind := ⟨.closeBrace, ['}']⟩

namespace Matched

variable {ls ms : List (Lexeme Kind)}

theorem nil : Matched [] :=
  ⟨fun front h => by rw [List.prefix_nil.1 h]; exact Nat.le_refl _, rfl⟩

theorem append (h : Matched ls) (h' : Matched ms) : Matched (ls ++ ms) where
  before := by
    intro front hfront
    rcases List.prefix_or_prefix_of_prefix hfront (List.prefix_append ls ms) with hp | ⟨more, rfl⟩
    · exact h.before front hp
    · have hmore := h'.before more ((List.prefix_append_right_inj ls).1 hfront)
      rw [opens_append, closes_append, h.whole]
      omega
  whole := by rw [opens_append, closes_append, h.whole, h'.whole]

/-- A lexeme that is no brace. -/
theorem plain {l : Lexeme Kind} (h : l.kind.isBrace = false) : Matched [l] := by
  have hopen : l.kind ≠ .openBrace := fun he => by simp [he, Kind.isBrace] at h
  have hclose : l.kind ≠ .closeBrace := fun he => by simp [he, Kind.isBrace] at h
  refine ⟨fun front hfront => ?_, by simp [hopen, hclose]⟩
  rcases List.prefix_cons_iff.1 hfront with rfl | ⟨more, rfl, hmore⟩
  · exact Nat.le_refl _
  · rw [List.prefix_nil.1 hmore]
    simp [hclose]

/-- A brace, what is paired, and the brace that closes it. -/
theorem group (h : Matched ls) : Matched (openLexeme :: (ls ++ [closeLexeme])) := by
  refine ⟨fun front hfront => ?_, by simp [h.whole, openLexeme, closeLexeme]⟩
  rcases List.prefix_cons_iff.1 hfront with rfl | ⟨more, rfl, hmore⟩
  · exact Nat.le_refl _
  · rcases List.prefix_concat_iff.1 hmore with rfl | hmore
    · simp [h.whole, openLexeme, closeLexeme]
    · have := h.before more hmore
      simp [openLexeme]
      omega

end Matched

/-- The brace that opens at a byte is closed by the one at another byte: what stands between them is
paired. -/
def ClosedBy (lexemes : List (Lexeme Kind)) (opening closing : Nat) : Prop :=
  ∃ before inner after, lexemes = before ++ openLexeme :: (inner ++ closeLexeme :: after) ∧
    opening = Text.width (Lexeme.textOf before) ∧
    closing = Text.width (Lexeme.textOf (before ++ openLexeme :: inner)) ∧ Matched inner

theorem ClosedBy.more {lexemes : List (Lexeme Kind)} {opening closing : Nat}
    (h : ClosedBy lexemes opening closing) (lexeme : Lexeme Kind) :
    ClosedBy (lexemes ++ [lexeme]) opening closing := by
  obtain ⟨before, inner, after, rfl, h⟩ := h
  exact ⟨before, inner, after ++ [lexeme], by simp, h⟩

/-! ## Open braces -/

/-- Behind every open brace the lexemes are paired, up to the next one. -/
def Opened (lexemes : List (Lexeme Kind)) : List OpenBrace → Prop
  | [] => Matched lexemes
  | b :: outer => ∃ before inner, lexemes = before ++ openLexeme :: inner ∧
    b.brace = Text.width (Lexeme.textOf before) ∧ Matched inner ∧ Opened before outer

namespace Opened

variable {lexemes inner : List (Lexeme Kind)} {braces : List OpenBrace}

theorem append (h : Opened lexemes braces) (h' : Matched inner) :
    Opened (lexemes ++ inner) braces := by
  cases braces with
  | nil => exact Matched.append h h'
  | cons b outer =>
    obtain ⟨before, behind, rfl, hb, hbehind, houter⟩ := h
    exact ⟨before, behind ++ inner, by simp, hb, hbehind.append h', houter⟩

theorem opening (h : Opened lexemes braces) {b : OpenBrace}
    (hb : b.brace = Text.width (Lexeme.textOf lexemes)) :
    Opened (lexemes ++ [openLexeme]) (b :: braces) :=
  ⟨lexemes, [], rfl, hb, .nil, h⟩

/-- **A brace that closes belongs to the innermost one that is open**. -/
theorem closing {b : OpenBrace} (h : Opened lexemes (b :: braces)) :
    Opened (lexemes ++ [closeLexeme]) braces ∧
      ClosedBy (lexemes ++ [closeLexeme]) b.brace (Text.width (Lexeme.textOf lexemes)) := by
  obtain ⟨before, behind, rfl, hb, hbehind, houter⟩ := h
  refine ⟨?_, before, behind, [], by simp, hb, rfl, hbehind⟩
  have := houter.append hbehind.group
  rwa [List.append_assoc, List.cons_append]

/-- Of the braces that have opened, the open ones have not closed. -/
theorem closes_add (h : Opened lexemes braces) : closes lexemes + braces.length = opens lexemes := by
  induction braces generalizing lexemes with
  | nil => exact h.whole
  | cons b outer ih =>
    obtain ⟨before, behind, rfl, -, hbehind, houter⟩ := h
    have := ih houter
    have hwhole := hbehind.whole
    simp [openLexeme]
    omega

end Opened

/-! ## What every lexeme keeps -/

variable {dialect : Dialect} {source rest : Text} {lexemes : List (Lexeme Kind)} {s s' : State}
  {lexeme : Lexeme Kind} {offset : Nat}

theorem eq_of_ofChar_openBrace {c : Char} (h : Kind.ofChar c = .openBrace) : c = '{' := by
  unfold Kind.ofChar at h
  repeat' split at h
  all_goals first | assumption | cases h

/-- A brace is one character. -/
theorem eq_of_front_brace {c : Char} {r : Text} (h : front dialect c r = .found lexeme rest) :
    (lexeme.kind = .openBrace → lexeme = openLexeme) ∧
      (lexeme.kind = .closeBrace → lexeme = closeLexeme) := by
  rcases front_cases h with hk | ⟨rfl, -⟩
  · constructor <;> intro he <;> simp [he] at hk
  · refine ⟨fun hk => ?_, fun hk => ?_⟩
    · rw [eq_of_ofChar_openBrace hk]
      rfl
    · rw [eq_of_ofChar_closeBrace hk]
      rfl

/-- Every lexeme is taken, but for a brace that closes where none is open. -/
theorem State.exists_step (h : lexeme.kind = .closeBrace → s.braces ≠ []) :
    ∃ s', s.step dialect source offset lexeme = .ok s' := by
  unfold State.step
  cases hk : lexeme.kind with
  | closeBrace =>
    obtain ⟨b, outer, hb⟩ := List.exists_cons_of_ne_nil (h hk)
    simp only [State.closeBrace?, hb]
    cases b.kind <;> exact ⟨_, rfl⟩
  | lineComment | blockComment =>
    simp only
    split <;> exact ⟨_, rfl⟩
  | literal | openBrace | openParen | closeParen | semicolon | blank | code => exact ⟨_, rfl⟩

/-- A brace that closes may end a declaration, at that brace. -/
theorem State.closeBrace?_found (h : s.closeBrace? offset = some s') :
    ∃ b, s.braces = b :: s'.braces ∧
      (s'.found = s.found ∨ ∃ n, s'.found = n :: s.found ∧ n.span.stop = offset + 1 ∧
        ∀ name body, n.kind = .routine name body → body = b.brace) := by
  unfold State.closeBrace? at h
  split at h
  · cases h
  next b outer hb =>
  refine ⟨b, ?_⟩
  cases hk : b.kind with
  | typeDecl name signature =>
    simp only [hk] at h
    cases h
    exact ⟨hb, .inr ⟨_, List.filter_cons_of_pos rfl, rfl, nofun⟩⟩
  | routine name signature =>
    simp only [hk] at h
    cases h
    refine ⟨hb, .inr ⟨_, List.filter_cons_of_pos rfl, rfl, fun _ _ hn => ?_⟩⟩
    exact (NodeKind.routine.inj hn).2.symm
  | package | block | inline =>
    simp only [hk] at h
    cases h
    exact ⟨hb, .inl rfl⟩

/-- How the places that the state remembers enclose each other. -/
structure State.Enclosed (lexemes : List (Lexeme Kind)) (s : State) : Prop where
  braces : Opened lexemes s.braces
  routines : ∀ n ∈ s.found, ∀ name body, n.kind = .routine name body →
    ClosedBy lexemes body (n.span.stop - 1)
  stops : s.found.Pairwise fun later earlier => earlier.span.stop < later.span.stop

namespace State.Enclosed

theorem initial : State.Enclosed [] .initial :=
  ⟨.nil, nofun, .nil⟩

/-- A brace that closes ends what the innermost open one began. -/
theorem closeBrace (h : s.Enclosed lexemes) (hr : Reached dialect source lexemes rest s)
    (hs : s.closeBrace? (Text.width (Lexeme.textOf lexemes)) = some s') :
    s'.Enclosed (lexemes ++ [closeLexeme]) := by
  obtain ⟨b, hb, hfound⟩ := State.closeBrace?_found hs
  obtain ⟨hbraces, hclosed⟩ := Opened.closing (hb ▸ h.braces)
  have hmore : ∀ n ∈ s.found, ∀ name body, n.kind = .routine name body →
      ClosedBy (lexemes ++ [closeLexeme]) body (n.span.stop - 1) := fun n hn name body hk =>
    (h.routines n hn name body hk).more closeLexeme
  rcases hfound with hsame | ⟨n, hnew, hstop, hbody⟩
  · exact ⟨hbraces, hsame ▸ hmore, hsame ▸ h.stops⟩
  · refine ⟨hbraces, hnew ▸ List.forall_mem_cons.2 ⟨fun name body hk => ?_, hmore⟩,
      hnew ▸ List.pairwise_cons.2 ⟨fun m hm => ?_, h.stops⟩⟩
    · rw [hbody name body hk, hstop]
      exact hclosed
    · have := found_stop_le hr hm
      omega

/-- **Every lexeme keeps what encloses what**. -/
theorem next {c : Char} {r : Text} (h : s.Enclosed lexemes)
    (hr : Reached dialect source lexemes (c :: r) s)
    (hf : (rule dialect).front c r = .found lexeme rest)
    (hs : s.step dialect source (Text.width (Lexeme.textOf lexemes)) lexeme = .ok s') :
    s'.Enclosed (lexemes ++ [lexeme]) := by
  obtain ⟨hopening, hclosing⟩ := eq_of_front_brace hf
  by_cases hclose : lexeme.kind = .closeBrace
  · simp only [State.step, hclose] at hs
    split at hs
    · next t ht =>
      cases hs
      rw [hclosing hclose]
      exact h.closeBrace hr ht
    · cases hs
  · have hfound := State.step_found hs hclose
    refine ⟨?_, hfound ▸ fun n hn name body hk => (h.routines n hn name body hk).more lexeme,
      hfound ▸ h.stops⟩
    by_cases hopen : lexeme.kind = .openBrace
    · simp only [State.step, hopen] at hs
      cases hs
      rw [hopening hopen]
      unfold State.openBrace
      split <;> exact h.braces.opening rfl
    · have hplain : lexeme.kind.isBrace = false := by
        cases hk : lexeme.kind <;> simp_all [Kind.isBrace]
      rw [(State.step_frame hs hplain).1]
      exact h.braces.append (.plain hplain)

theorem of_reached (h : Reached dialect source lexemes rest s) : s.Enclosed lexemes :=
  h.induct (I := fun lexemes _ s => s.Enclosed lexemes) .initial
    (fun _ _ _ _ _ _ _ hr hI hf hs => hI.next hr hf hs)

end State.Enclosed

/-! ## What has an outline -/

/-- Lexemes that never close more than they open are read. -/
theorem exists_reached (h : (rule dialect).Divides source lexemes rest)
    (hbefore : ∀ front, front <+: lexemes → closes front ≤ opens front) :
    ∃ s, Reached dialect source lexemes rest s := by
  induction lexemes using List.reverseRecOn generalizing rest with
  | nil =>
    cases h
    exact ⟨_, .start⟩
  | append_singleton lexemes lexeme ih =>
    obtain ⟨mid, hd, hlast⟩ := h.split
    obtain ⟨s, hr⟩ := ih hd fun front hfront => hbefore front (hfront.trans (List.prefix_append _ _))
    cases hlast with
    | take found more =>
      cases more
      have hopen : lexeme.kind = .closeBrace → s.braces ≠ [] := by
        intro hk hnone
        have hbraces := (State.Enclosed.of_reached hr).braces
        rw [hnone] at hbraces
        have hwhole : closes lexemes = opens lexemes := hbraces.closes_add
        have hmore : closes lexemes + 1 ≤ opens lexemes := by
          simpa [hk] using hbefore _ (List.prefix_refl _)
        omega
      obtain ⟨s', hs⟩ := State.exists_step hopen
      exact ⟨s', hr.next found hs⟩

/-- **A text has an outline exactly if it is divided to its end into paired braces**. -/
theorem exists_outline_iff : (∃ o, outline dialect source = .ok o) ↔
    ∃ lexemes, Scans dialect source lexemes [] ∧ Matched lexemes := by
  constructor
  · rintro ⟨o, ho⟩
    obtain ⟨lexemes, s, hr, hnone, -, -⟩ := outline_reached ho
    have hbraces := (State.Enclosed.of_reached hr).braces
    rw [hnone] at hbraces
    exact ⟨lexemes, scans_iff.2 hr.divides, hbraces⟩
  · rintro ⟨lexemes, hscans, hmatched⟩
    obtain ⟨s, hr⟩ := exists_reached (scans_iff.1 hscans) hmatched.before
    have hnone : s.braces = [] := by
      have := (State.Enclosed.of_reached hr).braces.closes_add
      rw [hmatched.whole] at this
      exact List.length_eq_zero_iff.1 (by omega)
    refine ⟨.ofNodes source s.flushRun.nodes.reverse, ?_⟩
    simp only [outline, hr.run_eq, State.finish, bind, Except.bind, hnone]
    rfl

/-- A text is divided in one way only. -/
theorem Scans.unique {more : List (Lexeme Kind)} (h : Scans dialect source lexemes [])
    (h' : Scans dialect source more []) : lexemes = more := by
  obtain ⟨behind, rfl, hbehind⟩ := (scans_iff.1 h).append_of_nil (scans_iff.1 h')
  cases hbehind
  exact (List.append_nil _).symm

/-- The characters that two braces are. -/
theorem ClosedBy.chars {opening closing : Nat} (h : ClosedBy lexemes opening closing)
    (hs : Scans dialect source lexemes rest) :
    Span.of ⟨opening, opening + 1⟩ source = ['{'] ∧
      Span.of ⟨closing, closing + 1⟩ source = ['}'] := by
  have hchar (before after : Text) (c : Char) (hc : Text.width [c] = 1) :
      Span.of ⟨Text.width before, Text.width before + 1⟩ (before ++ (c :: after)) = [c] := by
    have := Text.slice_middle before [c] after
    rwa [hc] at this
  obtain ⟨before, inner, after, rfl, rfl, rfl, -⟩ := h
  rw [(scans_iff.1 hs).text]
  constructor
  · simpa [openLexeme] using hchar (Lexeme.textOf before)
      (Lexeme.textOf (inner ++ closeLexeme :: after) ++ rest) '{' rfl
  · simpa [openLexeme, closeLexeme] using hchar (Lexeme.textOf (before ++ openLexeme :: inner))
      (Lexeme.textOf after ++ rest) '}' rfl

/-- **What an outline says encloses each other as its braces do**. -/
theorem outline_encloses {o : Outline} (h : outline dialect source = .ok o) :
    ∃ lexemes, Scans dialect source lexemes [] ∧
      (∀ n ∈ o.nodes, ∀ name body, n.kind = .routine name body →
        n.span.start < n.span.stop ∧ ClosedBy lexemes body (n.span.stop - 1)) ∧
      o.nodes.Pairwise fun m n => m.declares = true → n.declares = true → m.Nest n := by
  obtain ⟨lexemes, s, hr, -, rfl, -⟩ := outline_reached h
  have henclosed := State.Enclosed.of_reached hr
  have hordered := State.Ordered.of_reached hr
  have hperm : (Outline.ofNodes source s.flushRun.nodes.reverse).nodes.Perm s.flushRun.nodes :=
    (List.mergeSort_perm _ _).trans (List.reverse_perm _)
  refine ⟨lexemes, scans_iff.2 hr.divides, fun n hn name body hk => ?_, ?_⟩
  · have hfound : n ∈ s.found := by
      rw [← s.found_flushRun]
      exact List.mem_filter.2 ⟨hperm.mem_iff.1 hn, by rw [Node.declares, hk]⟩
    exact ⟨hordered.pos n hfound, henclosed.routines n hfound name body hk⟩
  · have hall : s.found.Pairwise Node.Nest := by
      refine (List.Pairwise.and_mem.1 (henclosed.stops.and hordered.ends)).imp ?_
      rintro later earlier ⟨hlater, hearlier, hstop, hends⟩
      exact hends.nest (hordered.pos _ hlater) (hordered.pos _ hearlier) hstop
    rw [← s.found_flushRun] at hall
    refine hperm.symm.pairwise ?_ fun hnest hn hm => (hnest hm hn).symm
    exact (List.pairwise_filter.1 hall).imp fun hnest hm hn => hnest hm hn

/-- **A brace language accepts the texts whose literals and comments end and whose braces come in
pairs, and what it finds there is nested**: a routine goes from its declaration to the brace that
closes its body, two declarations are apart or one is inside the other, and none is inside a
routine. -/
theorem outline_balanced (dialect : Dialect) (source : Text) :
    ((∃ o, dialect.language.outline source = .ok o) ↔
      Terminated dialect source ∧ ∀ lexemes, Scans dialect source lexemes [] → Matched lexemes) ∧
    ∀ o, dialect.language.outline source = .ok o →
      ∃ lexemes, Scans dialect source lexemes [] ∧
        (∀ n ∈ o.nodes, ∀ name body, n.kind = .routine name body →
          Span.of ⟨body, body + 1⟩ source = ['{'] ∧
          Span.of ⟨n.span.stop - 1, n.span.stop⟩ source = ['}'] ∧
          ClosedBy lexemes body (n.span.stop - 1)) ∧
        o.nodes.Pairwise fun m n => m.declares = true → n.declares = true → m.Nest n := by
  rw [Language.outline_dialect]
  refine ⟨?_, fun o ho => ?_⟩
  · rw [exists_outline_iff, terminated_iff]
    constructor
    · rintro ⟨lexemes, hscans, hmatched⟩
      exact ⟨⟨lexemes, hscans⟩, fun more hmore => hscans.unique hmore ▸ hmatched⟩
    · rintro ⟨⟨lexemes, hscans⟩, hmatched⟩
      exact ⟨lexemes, hscans, hmatched lexemes hscans⟩
  · obtain ⟨lexemes, hscans, hbodies, hnest⟩ := outline_encloses ho
    refine ⟨lexemes, hscans, fun n hn name body hk => ?_, hnest⟩
    obtain ⟨hpos, hclosed⟩ := hbodies n hn name body hk
    obtain ⟨hopening, hclosing⟩ := hclosed.chars hscans
    rw [Nat.sub_add_cancel (by omega)] at hclosing
    exact ⟨hopening, hclosing, hclosed⟩

end Braced

end Scholia.Source
