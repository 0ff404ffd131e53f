import Mathlib.Data.List.Chain
import Scholia.Proofs.Source.Braced.History
import Scholia.Proofs.Evaluation
/-!
# Runs of comment lines

A doc comment in C# is a run of lines that begin with three slashes. Here is which lines make a run.
The lines are those among the lexemes, two of them *adjoin* if only blanks with at most one line feed
stand between, and the lines are *gathered* when they are cut into groups wherever two successive
ones do not adjoin. The scanner holds the last group back; the others it has recorded
(`State.Gathers`).

Code, braces and other comments between two lines matter only by what they put there, so nothing is
said of them.
-/

namespace Scholia.Source

/-- Nothing of the second range stands before the end of the first one. -/
def Span.Before (a b : Span) : Prop :=
  a.stop ≤ b.start

/-- A range as part of another one. -/
def Span.PartOf (inner outer : Span) : Prop :=
  outer.start ≤ inner.start ∧ inner.stop ≤ outer.stop

namespace Span.PartOf

variable {a b l : Span}

theorem pos (h : l.PartOf a) (hpos : l.start < l.stop) : a.start < a.stop :=
  Nat.lt_of_le_of_lt h.1 (Nat.lt_of_lt_of_le hpos h.2)

/-- What is part of two ranges, one of which stands before the other, is empty. -/
theorem not_before (ha : l.PartOf a) (hb : l.PartOf b) (hpos : l.start < l.stop) :
    ¬ a.Before b := by
  intro hab
  have := Nat.le_trans ha.2 (Nat.le_trans hab hb.1)
  omega

/-- Of ranges that stand one behind the other, only one holds a range that is not empty. -/
theorem unique {runs : List Span} (hruns : runs.Pairwise Span.Before) (ha : a ∈ runs)
    (hb : b ∈ runs) (hla : l.PartOf a) (hlb : l.PartOf b) (hpos : l.start < l.stop) : a = b := by
  refine Decidable.byContradiction fun hne => ?_
  have hsymm : Std.Symm fun a b : Span => a.Before b ∨ b.Before a := ⟨fun _ _ h => h.symm⟩
  have hapart : runs.Pairwise fun a b => a.Before b ∨ b.Before a := hruns.imp Or.inl
  rcases hapart.forall ha hb hne with hab | hba
  · exact hla.not_before hlb hpos hab
  · exact hlb.not_before hla hpos hba

end Span.PartOf

namespace Braced

/-- A text that begins with three slashes and does not go on with a fourth. -/
def ThreeSlashes (text : Text) : Prop :=
  ∃ rest, text = '/' :: '/' :: '/' :: rest ∧ rest.head? ≠ some '/'

theorem isDocLine_iff {text : Text} : State.isDocLine text = true ↔ ThreeSlashes text := by
  have h₃ : "///".toList = ['/', '/', '/'] := rfl
  have h₄ : "////".toList = ['/', '/', '/', '/'] := rfl
  simp only [State.isDocLine, h₃, h₄, Bool.and_eq_true, Bool.not_eq_true', List.isPrefixOf_iff_prefix,
    ← Bool.not_eq_true]
  constructor
  · rintro ⟨⟨rest, rfl⟩, hno⟩
    refine ⟨rest, rfl, fun hhead => hno ?_⟩
    obtain ⟨more, rfl⟩ := List.head?_eq_some_iff.1 hhead
    exact ⟨more, rfl⟩
  · rintro ⟨rest, rfl, hhead⟩
    refine ⟨⟨rest, rfl⟩, ?_⟩
    rintro ⟨more, hmore⟩
    simp only [List.cons_append, List.nil_append, List.cons.injEq, true_and] at hmore
    exact hhead (hmore ▸ rfl)

/-- A lexeme that is a line of a doc comment. -/
def IsDocLine (lexeme : Lexeme Kind) : Prop :=
  lexeme.kind = .lineComment ∧ ThreeSlashes lexeme.text

instance (lexeme : Lexeme Kind) : Decidable (IsDocLine lexeme) :=
  decidable_of_iff (lexeme.kind = .lineComment ∧ State.isDocLine lexeme.text = true)
    (and_congr_right fun _ => isDocLine_iff)

/-- The doc lines among lexemes, the first of which starts at `offset`. -/
def docLinesFrom : Nat → List (Lexeme Kind) → List Span
  | _, [] => []
  | offset, lexeme :: rest =>
    let stop := offset + Text.width lexeme.text
    let more := docLinesFrom stop rest
    if IsDocLine lexeme then ⟨offset, stop⟩ :: more else more

/-- The doc lines of a text. -/
def docLines (source : Text) : List Span :=
  docLinesFrom 0 ((rule .cSharp).lex source).lexemes

/-- The doc comments among places. -/
def docsOf (nodes : List Node) : List Span :=
  (nodes.filter (·.kind = .doc)).map Node.span

/-- Only blanks with at most one line feed stand between two ranges. -/
def Adjoin (source : Text) (a b : Span) : Prop :=
  (∀ c ∈ Text.slice a.stop b.start source, Text.isBlank c = true) ∧
    (Text.slice a.stop b.start source).count '\n' ≤ 1

theorem isRunGap_iff {source : Text} {a b : Span} :
    State.isRunGap (Text.slice a.stop b.start source) = true ↔ Adjoin source a b := by
  rw [State.isRunGap, Bool.and_eq_true, decide_eq_true_iff, Text.allBlank, List.all_eq_true]
  exact Iff.rfl

section Lines

variable {offset : Nat} {lexemes more : List (Lexeme Kind)}

theorem docLinesFrom_append : docLinesFrom offset (lexemes ++ more) =
    docLinesFrom offset lexemes ++
      docLinesFrom (offset + Text.width (Lexeme.textOf lexemes)) more := by
  induction lexemes generalizing offset with
  | nil => rfl
  | cons lexeme lexemes ih =>
    simp only [List.cons_append, docLinesFrom, ih, Lexeme.textOf_cons, Text.width_append,
      Nat.add_assoc]
    split <;> rfl

theorem docLinesFrom_le {l : Span} (h : l ∈ docLinesFrom offset lexemes) : offset ≤ l.start := by
  induction lexemes generalizing offset with
  | nil => cases h
  | cons lexeme lexemes ih =>
    simp only [docLinesFrom] at h
    split at h
    · rcases List.mem_cons.1 h with rfl | h
      · exact Nat.le_refl _
      · exact Nat.le_trans (Nat.le_add_right _ _) (ih h)
    · exact Nat.le_trans (Nat.le_add_right _ _) (ih h)

theorem docLinesFrom_before : (docLinesFrom offset lexemes).Pairwise Span.Before := by
  induction lexemes generalizing offset with
  | nil => exact .nil
  | cons lexeme lexemes ih =>
    simp only [docLinesFrom]
    split
    · exact List.pairwise_cons.2 ⟨fun _ hm => docLinesFrom_le hm, ih⟩
    · exact ih

theorem docLinesFrom_pos (hpos : ∀ l ∈ lexemes, 0 < Text.width l.text) {l : Span}
    (h : l ∈ docLinesFrom offset lexemes) : l.start < l.stop := by
  induction lexemes generalizing offset with
  | nil => cases h
  | cons lexeme lexemes ih =>
    have hmore (hl : l ∈ docLinesFrom (offset + Text.width lexeme.text) lexemes) : l.start < l.stop :=
      ih (fun l hl => hpos l (List.mem_cons_of_mem _ hl)) hl
    simp only [docLinesFrom] at h
    split at h
    · rcases List.mem_cons.1 h with rfl | h
      · have := hpos lexeme List.mem_cons_self
        simp only
        omega
      · exact hmore h
    · exact hmore h

end Lines

/-! ## Groups of lines -/

/-- The range from the start of the first line to the end of the last one. -/
def cover (group : List Span) : Span :=
  ⟨(group.head?.map Span.start).getD 0, (group.getLast?.map Span.stop).getD 0⟩

theorem cover_append_singleton {group : List Span} (hne : group ≠ []) (line : Span) :
    cover (group ++ [line]) = ⟨(cover group).start, line.stop⟩ := by
  obtain ⟨first, rest, rfl⟩ := List.exists_cons_of_ne_nil hne
  simp only [cover, List.getLast?_concat]
  rfl

/-- Lines cut into groups wherever two successive ones do not adjoin. -/
structure Gathered (source : Text) (lines : List Span) (groups : List (List Span)) : Prop where
  flatten : groups.flatten = lines
  nonempty : [] ∉ groups
  inside : ∀ group ∈ groups, group.IsChain (Adjoin source)
  apart : groups.IsChain fun g h => ∀ a ∈ g.getLast?, ∀ b ∈ h.head?, ¬ Adjoin source a b

namespace Gathered

variable {source : Text} {lines : List Span} {groups : List (List Span)} {line : Span}

theorem mem (h : Gathered source lines groups) {group : List Span} (hgroup : group ∈ groups)
    {l : Span} (hl : l ∈ group) : l ∈ lines :=
  h.flatten ▸ List.mem_flatten.2 ⟨group, hgroup, hl⟩

theorem nil : Gathered source [] [] :=
  ⟨rfl, List.not_mem_nil, (fun _ h => by cases h), .nil⟩

/-- A line that does not adjoin the last one begins a group. -/
theorem begin (h : Gathered source lines groups)
    (hline : ∀ g ∈ groups.getLast?, ∀ a ∈ g.getLast?, ¬ Adjoin source a line) :
    Gathered source (lines ++ [line]) (groups ++ [[line]]) where
  flatten := by rw [List.flatten_append, h.flatten, List.flatten_singleton]
  nonempty := by simpa using h.nonempty
  inside := by
    intro group hmem
    rcases List.mem_append.1 hmem with hmem | hmem
    · exact h.inside group hmem
    · exact List.mem_singleton.1 hmem ▸ .singleton line
  apart := by
    refine h.apart.append (.singleton _) fun g hg k hk a ha b hb => ?_
    cases hk
    cases hb
    exact hline g hg a ha

/-- A line that adjoins the last one belongs to its group. -/
theorem grow {group : List Span} (h : Gathered source lines (groups ++ [group]))
    (hline : ∀ a ∈ group.getLast?, Adjoin source a line) :
    Gathered source (lines ++ [line]) (groups ++ [group ++ [line]]) where
  flatten := by
    rw [← h.flatten]
    simp
  nonempty := by
    have := h.nonempty
    simp only [List.mem_append, List.mem_singleton, not_or] at this ⊢
    exact ⟨this.1, by simp⟩
  inside := by
    intro g hmem
    rcases List.mem_append.1 hmem with hmem | hmem
    · exact h.inside g (List.mem_append_left _ hmem)
    · cases List.mem_singleton.1 hmem
      refine (h.inside group (by simp)).append (.singleton line) fun a ha b hb => ?_
      cases hb
      exact hline a ha
  apart := by
    have hne : group ≠ [] := fun he => h.nonempty (by simp [he])
    obtain ⟨first, rest, rfl⟩ := List.exists_cons_of_ne_nil hne
    -- the first line of the group stays what it was
    obtain ⟨hbefore, -, hlast⟩ := List.isChain_append.1 h.apart
    refine hbefore.append (.singleton _) fun g hg k hk a ha b hb => ?_
    cases hk
    exact hlast g hg _ rfl a ha b hb

end Gathered

section Ordered

variable {source : Text} {group lines : List Span} {groups : List (List Span)} {a b l : Span}

/-- A group covers its lines, from the start of one to the end of one. -/
structure Covers (group : List Span) (run : Span) : Prop where
  start : ∃ l ∈ group, l.PartOf run ∧ run.start = l.start
  stop : ∃ l ∈ group, l.PartOf run ∧ run.stop = l.stop
  part : ∀ l ∈ group, l.PartOf run

theorem covers_cover (hne : group ≠ []) (hbefore : group.Pairwise Span.Before)
    (hpos : ∀ l ∈ group, l.start < l.stop) : Covers group (cover group) := by
  have hlast : (cover group).stop = (group.getLast hne).stop := by
    simp only [cover, List.getLast?_eq_some_getLast hne, Option.map_some, Option.getD_some]
  have hfirst : (cover group).start = (group.head hne).start := by
    simp only [cover, List.head?_eq_some_head hne, Option.map_some, Option.getD_some]
  have hpart : ∀ l ∈ group, l.PartOf (cover group) := by
    intro l hl
    constructor
    · rw [hfirst]
      obtain ⟨first, rest, rfl⟩ := List.exists_cons_of_ne_nil hne
      rcases List.mem_cons.1 hl with rfl | hrest
      · exact Nat.le_refl _
      · have hle : first.stop ≤ l.start := (List.pairwise_cons.1 hbefore).1 l hrest
        exact Nat.le_trans (Nat.le_of_lt (hpos first List.mem_cons_self)) hle
    · rw [hlast]
      have hsplit := List.dropLast_concat_getLast hne
      rw [← hsplit] at hl
      rcases List.mem_append.1 hl with hinit | hl
      · have hle : l.stop ≤ (group.getLast hne).start :=
          (List.pairwise_append.1 (hsplit ▸ hbefore)).2.2 l hinit _ (List.mem_singleton_self _)
        exact Nat.le_trans hle (Nat.le_of_lt (hpos _ (List.getLast_mem hne)))
      · rw [List.mem_singleton.1 hl]
  exact ⟨⟨_, List.head_mem hne, hpart _ (List.head_mem hne), hfirst⟩,
    ⟨_, List.getLast_mem hne, hpart _ (List.getLast_mem hne), hlast⟩, hpart⟩

/-- How ranges lie over lines: every line is in one of them, they are apart and reach from line to
line, and two successive lines are in one of them exactly if they adjoin. -/
structure AreRuns (source : Text) (lines runs : List Span) : Prop where
  held : ∀ l ∈ lines, ∃! run, run ∈ runs ∧ l.PartOf run
  apart : runs.Pairwise Span.Before
  start : ∀ run ∈ runs, ∃ l ∈ lines, l.PartOf run ∧ run.start = l.start
  stop : ∀ run ∈ runs, ∃ l ∈ lines, l.PartOf run ∧ run.stop = l.stop
  joined : ∀ before l m after, lines = before ++ l :: m :: after →
    ((∃ run ∈ runs, l.PartOf run ∧ m.PartOf run) ↔ Adjoin source l m)

namespace Gathered

/-- The groups of lines that stand one behind the other stand so too. -/
theorem before (h : Gathered source lines groups) (hlines : lines.Pairwise Span.Before)
    (hpos : ∀ l ∈ lines, l.start < l.stop) :
    (∀ g ∈ groups, Covers g (cover g)) ∧ (groups.map cover).Pairwise Span.Before := by
  rw [← h.flatten] at hlines hpos
  obtain ⟨hinner, houter⟩ := List.pairwise_flatten.1 hlines
  have hcovers : ∀ g ∈ groups, Covers g (cover g) := fun g hg =>
    covers_cover (fun he => h.nonempty (he ▸ hg)) (hinner g hg)
      fun l hl => hpos l (List.mem_flatten.2 ⟨g, hg, hl⟩)
  refine ⟨hcovers, List.pairwise_map.2 (houter.imp_of_mem fun {g k} hg hk hgk => ?_)⟩
  obtain ⟨l, hl, -, hstop⟩ := (hcovers g hg).stop
  obtain ⟨m, hm, -, hstart⟩ := (hcovers k hk).start
  have : l.stop ≤ m.start := hgk l hl m hm
  rw [Span.Before]
  omega

/-- Two successive lines lie in one run exactly if they adjoin: in a group both sides hold, between
two groups neither does. -/
theorem isChain_adjoin (h : Gathered source lines groups) (hlines : lines.Pairwise Span.Before)
    (hpos : ∀ l ∈ lines, l.start < l.stop) :
    lines.IsChain fun l m =>
      (∃ run ∈ groups.map cover, l.PartOf run ∧ m.PartOf run) ↔ Adjoin source l m := by
  obtain ⟨hcovers, hruns⟩ := h.before hlines hpos
  rw [← h.flatten, List.isChain_flatten h.nonempty]
  constructor
  · intro g hg
    refine (h.inside g hg).imp_of_mem_imp fun l m hl hm hadjoin => ?_
    exact iff_of_true ⟨_, List.mem_map_of_mem hg, (hcovers g hg).part l hl,
      (hcovers g hg).part m hm⟩ hadjoin
  · refine List.isChain_iff_forall_rel_of_append_cons_cons.2 fun g k before after he l hl m hm => ?_
    have hg : g ∈ groups := by simp [he]
    have hk : k ∈ groups := by simp [he]
    have hlg := List.mem_of_getLast? hl
    have hmk := List.mem_of_head? hm
    refine iff_of_false ?_
      (List.isChain_iff_forall_rel_of_append_cons_cons.1 h.apart he l hl m hm)
    rintro ⟨run, hrun, hlrun, hmrun⟩
    have hrg := Span.PartOf.unique hruns hrun (List.mem_map_of_mem hg) hlrun
      ((hcovers g hg).part l hlg) (hpos l (h.mem hg hlg))
    have hgk : (cover g).Before (cover k) := by
      rw [he, List.map_append, List.map_cons, List.map_cons] at hruns
      exact (List.pairwise_cons.1 (List.pairwise_append.1 hruns).2.1).1 _ List.mem_cons_self
    rw [hrg] at hmrun
    exact hmrun.not_before ((hcovers k hk).part m hmk) (hpos m (h.mem hk hmk)) hgk

/-- **Lines that are cut wherever two do not adjoin lie in runs**. -/
theorem areRuns (h : Gathered source lines groups) (hlines : lines.Pairwise Span.Before)
    (hpos : ∀ l ∈ lines, l.start < l.stop) : AreRuns source lines (groups.map cover) := by
  obtain ⟨hcovers, hruns⟩ := h.before hlines hpos
  refine {
    held := ?held
    apart := hruns
    start := ?start
    stop := ?stop
    joined := fun before l m after he =>
      List.isChain_iff_forall_rel_of_append_cons_cons.1 (h.isChain_adjoin hlines hpos) he }
  case held =>
    intro l hl
    obtain ⟨g, hg, hlg⟩ := List.mem_flatten.1 (h.flatten ▸ hl)
    refine ⟨cover g, ⟨List.mem_map_of_mem hg, (hcovers g hg).part l hlg⟩, ?_⟩
    rintro run ⟨hrun, hlrun⟩
    exact Span.PartOf.unique hruns hrun (List.mem_map_of_mem hg) hlrun
      ((hcovers g hg).part l hlg) (hpos l hl)
  case start =>
    intro run hrun
    obtain ⟨g, hg, rfl⟩ := List.mem_map.1 hrun
    obtain ⟨l, hl, hstart⟩ := (hcovers g hg).start
    exact ⟨l, h.mem hg hl, hstart⟩
  case stop =>
    intro run hrun
    obtain ⟨g, hg, rfl⟩ := List.mem_map.1 hrun
    obtain ⟨l, hl, hstop⟩ := (hcovers g hg).stop
    exact ⟨l, h.mem hg hl, hstop⟩

end Gathered

end Ordered

/-! ## What the scanner has recorded -/

theorem docsOf_cons (n : Node) (nodes : List Node) :
    docsOf (n :: nodes) = if n.kind = .doc then n.span :: docsOf nodes else docsOf nodes := by
  by_cases hn : n.kind = .doc <;> simp [docsOf, hn]

theorem docsOf_reverse (nodes : List Node) : docsOf nodes.reverse = (docsOf nodes).reverse := by
  rw [docsOf, List.filter_reverse, List.map_reverse, docsOf]

/-- The groups of the lines so far are the recorded comments and the run that may still grow. -/
structure State.Gathers (source : Text) (lexemes : List (Lexeme Kind)) (s : State) : Prop where
  groups : ∃ groups, Gathered source (docLinesFrom 0 lexemes) groups ∧
    groups.map cover = (docsOf s.nodes).reverse ++ s.run.toList
  run : s.run = none → docLinesFrom 0 lexemes = []

namespace State

variable {source : Text} {lexemes : List (Lexeme Kind)} {lexeme : Lexeme Kind} {s s' : State}
  {offset : Nat}

theorem closeBrace?_docs (h : s.closeBrace? offset = some s') :
    docsOf s'.nodes = docsOf s.nodes ∧ s'.run = s.run := by
  unfold closeBrace? at h
  split at h
  · cases h
  next inner outer hbraces =>
  cases hk : inner.kind <;> simp only [hk] at h <;> cases h
  case typeDecl => exact ⟨docsOf_cons _ _, rfl⟩
  case routine => exact ⟨docsOf_cons _ _, rfl⟩
  all_goals exact ⟨rfl, rfl⟩

theorem openBrace_docs (dialect : Dialect) :
    docsOf (s.openBrace dialect source offset).nodes = docsOf s.nodes ∧
      (s.openBrace dialect source offset).run = s.run := by
  unfold openBrace
  split <;> exact ⟨rfl, rfl⟩

/-- Nothing but a doc line changes the doc comments. -/
theorem step_docs (h : s.step .cSharp source offset lexeme = .ok s') (hl : ¬ IsDocLine lexeme) :
    docsOf s'.nodes = docsOf s.nodes ∧ s'.run = s.run := by
  cases hk : lexeme.kind <;> simp only [step, hk] at h
  case lineComment =>
    have hno : State.isDocLine lexeme.text = false := by
      simpa only [IsDocLine, hk, true_and, ← isDocLine_iff, Bool.not_eq_true] using hl
    rw [hno, Bool.and_false, if_neg Bool.false_ne_true] at h
    cases h
    exact ⟨rfl, rfl⟩
  case blockComment =>
    rw [decide_eq_false (by decide), Bool.false_and, if_neg Bool.false_ne_true] at h
    cases h
    exact ⟨rfl, rfl⟩
  case openBrace =>
    cases h
    exact openBrace_docs .cSharp
  case closeBrace =>
    split at h
    · next hclose =>
      cases h
      exact closeBrace?_docs hclose
    · cases h
  case semicolon =>
    cases h
    split <;> exact ⟨rfl, rfl⟩
  all_goals
    cases h
    exact ⟨rfl, rfl⟩

namespace Gathers

theorem initial (source : Text) : State.Gathers source [] .initial :=
  ⟨⟨[], .nil, rfl⟩, fun _ => rfl⟩

/-- A doc line grows the run or ends it. -/
theorem extendRun (h : s.Gathers source lexemes) (hl : IsDocLine lexeme) :
    (s.extendRun source ⟨Text.width (Lexeme.textOf lexemes),
      Text.width (Lexeme.textOf lexemes) + Text.width lexeme.text⟩).Gathers source
        (lexemes ++ [lexeme]) := by
  obtain ⟨⟨groups, hg, hcover⟩, hnone⟩ := h
  have hlines : docLinesFrom 0 (lexemes ++ [lexeme]) = docLinesFrom 0 lexemes ++
      [⟨Text.width (Lexeme.textOf lexemes),
        Text.width (Lexeme.textOf lexemes) + Text.width lexeme.text⟩] := by
    rw [docLinesFrom_append, Nat.zero_add]
    simp only [docLinesFrom, if_pos hl]
  generalize (⟨_, _⟩ : Span) = line at hlines ⊢
  unfold State.extendRun
  cases hrun : s.run with
  | none =>
    refine ⟨⟨groups ++ [[line]], hlines ▸ hg.begin fun g hlast a ha => ?_, ?_⟩, nofun⟩
    · have hmem := hg.mem (List.mem_of_getLast? hlast) (List.mem_of_getLast? ha)
      rw [hnone hrun] at hmem
      cases hmem
    · rw [List.map_append, hcover, hrun, Option.toList_none, List.append_nil]
      rfl
  | some run =>
    rw [hrun, Option.toList_some] at hcover
    obtain ⟨before, lastGroup, rfl, hbefore, hlast⟩ := List.map_eq_append_iff.1 hcover
    obtain ⟨group, rfl⟩ := List.length_eq_one_iff.1 (by simpa using congrArg List.length hlast)
    simp only [List.map_cons, List.map_nil, List.cons.injEq, and_true] at hlast
    have hne : group ≠ [] := fun he => hg.nonempty (by simp [he])
    -- the run stops where the last line of its group does
    have hstop : ∀ a ∈ group.getLast?, Adjoin source a line ↔ Adjoin source run line := by
      intro a ha
      rw [← hlast, Adjoin, Adjoin, cover, ha]
      exact Iff.rfl
    simp only
    split
    · next hgap =>
      have hgrow := hg.grow fun a ha => (hstop a ha).2 (isRunGap_iff.1 hgap)
      refine ⟨⟨_, hlines ▸ hgrow, ?_⟩, nofun⟩
      rw [List.map_append, hbefore, List.map_singleton, cover_append_singleton hne, hlast]
      rfl
    · next hgap =>
      have hno : ∀ g ∈ (before ++ [group]).getLast?, ∀ a ∈ g.getLast?, ¬ Adjoin source a line := by
        intro g hg a ha
        rw [List.getLast?_concat] at hg
        cases hg
        exact fun hadjoin => hgap (isRunGap_iff.2 ((hstop a ha).1 hadjoin))
      refine ⟨⟨_, hlines ▸ hg.begin hno, ?_⟩, nofun⟩
      rw [List.map_append, List.map_append, hbefore, List.map_singleton, hlast]
      simp [State.flushRun, hrun, docsOf_cons, Node.doc, cover]

theorem next (h : s.Gathers source lexemes)
    (hs : s.step .cSharp source (Text.width (Lexeme.textOf lexemes)) lexeme = .ok s') :
    s'.Gathers source (lexemes ++ [lexeme]) := by
  by_cases hl : IsDocLine lexeme
  · simp only [step, hl.1, isDocLine_iff.2 hl.2, decide_true, Bool.and_self, if_pos] at hs
    cases hs
    exact h.extendRun hl
  · obtain ⟨hdocs, hrun⟩ := step_docs hs hl
    have hlines : docLinesFrom 0 (lexemes ++ [lexeme]) = docLinesFrom 0 lexemes := by
      rw [docLinesFrom_append]
      simp only [docLinesFrom, if_neg hl, List.append_nil]
    exact ⟨by rw [hlines, hdocs, hrun]; exact h.groups, by rw [hlines, hrun]; exact h.run⟩

theorem of_reached {rest : Text} (h : Reached .cSharp source lexemes rest s) :
    s.Gathers source lexemes :=
  h.induct (I := fun lexemes _ s => s.Gathers source lexemes) (.initial source)
    (fun _ _ _ _ _ _ _ _ hI _ hs => hI.next hs)

/-- When the run has ended, every group is recorded. -/
theorem flushRun (h : s.Gathers source lexemes) :
    ∃ groups, Gathered source (docLinesFrom 0 lexemes) groups ∧
      groups.map cover = docsOf s.flushRun.nodes.reverse := by
  obtain ⟨⟨groups, hg, hcover⟩, -⟩ := h
  refine ⟨groups, hg, ?_⟩
  rw [hcover, docsOf_reverse, State.flushRun]
  cases hrun : s.run with
  | none => simp
  | some run => simp [docsOf_cons, Node.doc]

end Gathers

end State

/-- Sorting keeps doc comments that stand one behind the other in place. -/
theorem docsOf_ofNodes {source : Text} {nodes : List Node}
    (h : (docsOf nodes).Pairwise fun a b => a.start ≤ b.start) :
    docsOf (Outline.ofNodes source nodes).nodes = docsOf nodes := by
  have hsub : List.Sublist (nodes.filter (·.kind = .doc))
      ((Outline.ofNodes source nodes).nodes.filter (·.kind = .doc)) := by
    have hsorted := List.sublist_mergeSort (le_key_trans fun n : Node => n.span.start)
      (le_key_total fun n : Node => n.span.start)
      ((List.pairwise_map.1 h).imp fun hle => decide_eq_true hle) List.filter_sublist
    simpa only [List.filter_filter, Bool.and_self, Outline.ofNodes] using
      hsorted.filter (·.kind = .doc)
  rw [docsOf, docsOf, hsub.eq_of_length ((List.mergeSort_perm nodes _).filter _).length_eq.symm]

/-- **The doc comments of C# are the runs of its doc lines**. Every line that begins with exactly
three slashes is in exactly one of them; they are apart and reach from line to line; two successive
lines are in the same one exactly if only blanks with at most one line feed stand between them. -/
theorem outline_docs_areRuns {source : Text} {o : Outline} (h : outline .cSharp source = .ok o) :
    AreRuns source (docLines source) (docsOf o.nodes) := by
  obtain ⟨lexemes, s, hr, -, rfl, -⟩ := outline_reached h
  have hlines : docLines source = docLinesFrom 0 lexemes := by
    rw [docLines, Rule.lex, hr.divides.lexFrom_eq]
  obtain ⟨groups, hg, hcover⟩ := (State.Gathers.of_reached hr).flushRun
  have hpos : ∀ l ∈ docLinesFrom 0 lexemes, l.start < l.stop := fun l hl =>
    docLinesFrom_pos (fun _ hl => hr.divides.width_pos hl) hl
  have hruns := hg.areRuns docLinesFrom_before hpos
  rw [hcover] at hruns
  rw [hlines, docsOf_ofNodes]
  · exact hruns
  · refine hruns.apart.imp_of_mem fun {a b} ha _ hab => ?_
    obtain ⟨l, hl, hpart, -⟩ := hruns.start a ha
    exact Nat.le_trans (Nat.le_of_lt (hpart.pos (hpos l hl))) hab

/-- Two doc lines, a type, a third line and a comment with four slashes. -/
def runsText : Text :=
  "/// a\n  /// b\nclass A \x7b \x7d\n/// c\n//// d\n".toList

/-- The lines before the type of `runsText` are one doc comment, the one behind it another. -/
theorem outline_docs_runsText : ∃ o, outline .cSharp runsText = .ok o ∧
    docsOf o.nodes = [⟨0, 13⟩, ⟨26, 31⟩] ∧
      AreRuns runsText [⟨0, 5⟩, ⟨8, 13⟩, ⟨26, 31⟩] [⟨0, 13⟩, ⟨26, 31⟩] := by
  have hplaces : Language.places .cSharp runsText =
      .ok [.typeDecl ['A'] "class A".toList ⟨14, 25⟩, .doc ⟨0, 13⟩, .doc ⟨26, 31⟩] := by
    decide +kernel
  have ho : outline .cSharp runsText = .ok (.ofNodes runsText
      [.typeDecl ['A'] "class A".toList ⟨14, 25⟩, .doc ⟨0, 13⟩, .doc ⟨26, 31⟩]) := by
    show Language.cSharp.outline runsText = _
    rw [Language.outline_eq, hplaces]
    rfl
  have hdocs : docsOf (Outline.ofNodes runsText
      [.typeDecl ['A'] "class A".toList ⟨14, 25⟩, .doc ⟨0, 13⟩, .doc ⟨26, 31⟩]).nodes =
        [⟨0, 13⟩, ⟨26, 31⟩] := by
    rw [docsOf_ofNodes (by decide)]
    decide
  have hlines : docLines runsText = [⟨0, 5⟩, ⟨8, 13⟩, ⟨26, 31⟩] := by
    rw [docLines, Rule.lex_eq_lexWithin]
    decide +kernel
  exact ⟨_, ho, hdocs, hdocs ▸ hlines ▸ outline_docs_areRuns ho⟩

end Braced

end Scholia.Source
