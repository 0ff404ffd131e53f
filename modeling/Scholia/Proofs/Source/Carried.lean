import Scholia.Proofs.Source.Enclosed
import Scholia.Proofs.Source.Placement
/-!
# Comments that routines carry

Which comment a routine carries is told by the nodes alone. A comment before it must be the last
thing that starts outside routines before the routine does. A literal inside it must stand in the
routine and in no declaration of it, and be the first one of those that the end of the header leads
to. So **a comment belongs to one routine at most**.

A comment stands where it starts; where it stops matters for the gap behind it only.
-/

namespace Scholia.Source

open Text (allBlank isBlank lines splitWhere)

/-! ## What stands between a comment and its routine -/

/-- Each line of a gap is blank, or begins with the mark of an annotation behind its blanks. -/
def IsGap (gap : Text) : Prop :=
  ∀ line ∈ lines gap, allBlank line = true ∨
    ∃ lead c rest, line = lead ++ c :: rest ∧ allBlank lead = true ∧ isMark c = true

theorem isGapLine_iff {line : Text} :
    isGapLine line = true ↔ allBlank line = true ∨
      ∃ lead c rest, line = lead ++ c :: rest ∧ allBlank lead = true ∧ isMark c = true := by
  have hsplit := List.takeWhile_append_dropWhile (p := isBlank) (l := line)
  have hlead : allBlank (line.takeWhile isBlank) = true := List.all_takeWhile
  constructor
  · intro h
    cases hrest : line.dropWhile isBlank with
    | nil =>
      rw [hrest, List.append_nil] at hsplit
      exact .inl (hsplit ▸ hlead)
    | cons c rest =>
      rw [hrest] at hsplit
      have hc : isBlank c = false := Text.not_isBlank_of_trimStart hrest
      obtain ⟨rest', he⟩ := Text.trim_append_cons hc hlead rest
      rw [hsplit] at he
      rw [isGapLine, he] at h
      exact .inr ⟨_, c, rest, hsplit.symm, hlead, h⟩
  · rintro (hall | ⟨lead, c, rest, rfl, hlead, hmark⟩)
    · rw [isGapLine, Text.trim, Text.trimStart_of_allBlank hall]
      rfl
    · have hc : isBlank c = false := by
        simp only [isMark, Bool.or_eq_true, beq_iff_eq] at hmark
        rcases hmark with (rfl | rfl) | rfl <;> decide
      obtain ⟨rest', he⟩ := Text.trim_append_cons hc hlead rest
      rw [isGapLine, he]
      exact hmark

theorem isAdjacent_iff {source : Text} {i j : Nat} :
    isAdjacent source i j = true ↔ i ≤ j ∧ IsGap (Text.slice i j source) := by
  simp only [isAdjacent, Bool.and_eq_true, decide_eq_true_eq, List.all_eq_true, isGapLine_iff, IsGap]

/-- A line with only blanks and colons before its first number sign. -/
def IsPlain (line : Text) : Prop :=
  ∀ c ∈ line.takeWhile (· != '#'), isBlank c = true ∨ c = ':'

/-- Lines that the end of a header may take up: blanks, colons, and comments behind a number
sign. -/
def IsLead (lead : Text) : Prop :=
  ∀ line ∈ splitWhere (· == '\n') lead, IsPlain line

theorem isPlain_cons {c : Char} {line : Text} :
    IsPlain (c :: line) ↔ c = '#' ∨ (isBlank c = true ∨ c = ':') ∧ IsPlain line := by
  unfold IsPlain
  by_cases hc : c = '#'
  · simp [hc]
  · have hne : (c != '#') = true := by simp [hc]
    simp [hne, hc]

/-- Inside a comment, the rest of the first line does not matter. -/
theorem onlyHeaderEnd_iff {inComment : Bool} {s : Text} :
    onlyHeaderEnd inComment s = true ↔ ∀ first rest, splitWhere (· == '\n') s = first :: rest →
      (inComment = true ∨ IsPlain first) ∧ ∀ line ∈ rest, IsPlain line := by
  have hcons : ∀ {c : Char} {r : Text}, c ≠ '\n' → ∃ part parts,
      splitWhere (· == '\n') r = part :: parts ∧
        splitWhere (· == '\n') (c :: r) = (c :: part) :: parts := by
    intro c r hc
    cases hr : splitWhere (· == '\n') r with
    | nil => exact absurd hr (Text.splitWhere_ne_nil _ _)
    | cons part parts => exact ⟨part, parts, rfl, by simp [splitWhere, hc, hr]⟩
  fun_induction onlyHeaderEnd inComment s with
  | case1 => simp [splitWhere, IsPlain]
  | case2 inComment r ih =>
    refine ih.trans ?_
    cases hr : splitWhere (· == '\n') r with
    | nil => exact absurd hr (Text.splitWhere_ne_nil _ _)
    | cons part parts => simp [splitWhere, hr, IsPlain]
  | case3 c r hc ih =>
    obtain ⟨part, parts, hr, hs⟩ := hcons (r := r) hc
    simp [ih, hr, hs]
  | case4 inComment c r hc hin hsharp ih =>
    obtain ⟨part, parts, hr, hs⟩ := hcons (r := r) hc
    obtain rfl : c = '#' := beq_iff_eq.1 hsharp
    simp [ih, hr, hs, isPlain_cons]
  | case5 inComment c r hc hin hsharp ih =>
    obtain ⟨part, parts, hr, hs⟩ := hcons (r := r) hc
    have hne : c ≠ '#' := fun he => hsharp (beq_iff_eq.2 he)
    simp [ih, hr, hs, isPlain_cons, hne, hin, and_assoc]

theorem isFirstStatement_iff {source : Text} {i j : Nat} :
    isFirstStatement source i j = true ↔ i ≤ j ∧ IsLead (Text.slice i j source) := by
  rw [isFirstStatement, Bool.and_eq_true, decide_eq_true_eq, onlyHeaderEnd_iff]
  refine and_congr_right fun _ => ?_
  unfold IsLead
  cases hs : splitWhere (· == '\n') (Text.slice i j source) with
  | nil => exact absurd hs (Text.splitWhere_ne_nil _ _)
  | cons part parts => simp

/-! ## What the nodes tell -/

namespace Node

/-- A byte lies in the range of a node. -/
def Around (m : Node) (byte : Nat) : Prop :=
  m.span.start ≤ byte ∧ byte < m.span.stop

instance (m : Node) (byte : Nat) : Decidable (m.Around byte) :=
  inferInstanceAs (Decidable (_ ∧ _))

/-- The byte at which the body of a routine starts. -/
def bodyStart (n : Node) : Nat :=
  match n.kind with
  | .routine _ b => b
  | _ => n.span.stop

/-- A routine among some nodes is around a byte. -/
def InRoutine (nodes : List Node) (byte : Nat) : Prop :=
  ∃ m ∈ nodes, m.isRoutine = true ∧ m.Around byte

/-- A comment stands before a routine, outside of all routines. In the gap behind it are only blank
lines and annotations, and up to the routine nothing starts but comments inside routines. -/
structure Precedes (source : Text) (nodes : List Node) (d f : Node) : Prop where
  doc : d.kind = .doc
  outside : ¬ InRoutine nodes d.span.start
  before : d.span.stop ≤ f.span.start
  last : ∀ n ∈ nodes, d.span.start < n.span.start → n.span.start < f.span.start →
    n.declares = false ∧ InRoutine nodes n.span.start
  gap : IsGap (Text.slice d.span.stop f.span.start source)

/-- A literal stands in a routine and in no declaration inside it, and from the start of the body
only the end of the header leads to it. -/
structure Introduces (source : Text) (nodes : List Node) (d f : Node) : Prop where
  doc : d.kind = .doc
  inside : f.Around d.span.start
  innermost : ∀ m ∈ nodes, m.declares = true → m.Around d.span.start → m.span.start ≤ f.span.start
  body : f.bodyStart ≤ d.span.start
  lead : IsLead (Text.slice f.bodyStart d.span.start source)

/-- The comment that belongs to a routine: the one before it, or the first literal that introduces
it. -/
def Carries (attachment : Attachment) (source : Text) (nodes : List Node) (f d : Node) : Prop :=
  match attachment with
  | .preceding => d.Precedes source nodes f
  | .firstStatement => d.Introduces source nodes f ∧
      ∀ e ∈ nodes, e.Introduces source nodes f → d.span.start ≤ e.span.start

variable {attachment : Attachment} {source : Text} {nodes more : List Node} {d e f n : Node}

theorem declares_eq_false : n.declares = false ↔ n.kind = .doc := by
  unfold declares
  cases n.kind <;> simp

theorem InRoutine.of_perm {byte : Nat} (h : InRoutine nodes byte) (hperm : nodes.Perm more) :
    InRoutine more byte := by
  obtain ⟨m, hm, hr, haround⟩ := h
  exact ⟨m, hperm.mem_iff.1 hm, hr, haround⟩

/-- Only which nodes there are matters, not their order. -/
theorem Precedes.of_perm (h : d.Precedes source nodes f) (hperm : nodes.Perm more) :
    d.Precedes source more f where
  doc := h.doc
  outside := fun hin => h.outside (hin.of_perm hperm.symm)
  before := h.before
  last := fun n hn hl hr => (h.last n (hperm.mem_iff.2 hn) hl hr).imp_right fun hin =>
    hin.of_perm hperm
  gap := h.gap

theorem Introduces.of_perm (h : d.Introduces source nodes f) (hperm : nodes.Perm more) :
    d.Introduces source more f :=
  ⟨h.doc, h.inside, fun m hm => h.innermost m (hperm.mem_iff.2 hm), h.body, h.lead⟩

theorem carries_perm (hperm : nodes.Perm more) :
    f.Carries attachment source nodes d ↔ f.Carries attachment source more d := by
  cases attachment with
  | preceding => exact ⟨fun h => h.of_perm hperm, fun h => h.of_perm hperm.symm⟩
  | firstStatement =>
    constructor
    · rintro ⟨h, hfirst⟩
      exact ⟨h.of_perm hperm, fun e he hi => hfirst e (hperm.mem_iff.2 he) (hi.of_perm hperm.symm)⟩
    · rintro ⟨h, hfirst⟩
      exact ⟨h.of_perm hperm.symm, fun e he hi => hfirst e (hperm.mem_iff.1 he) (hi.of_perm hperm)⟩

theorem Carries.doc (h : f.Carries attachment source nodes d) : d.kind = .doc := by
  cases attachment with
  | preceding => exact Precedes.doc h
  | firstStatement => exact h.1.doc

end Node

/-- Without crossing, a comment is covered if a routine is around its start. -/
theorem WellNested.covered_iff_inRoutine {nodes : List Node} (h : WellNested nodes)
    (hle : ∀ n ∈ nodes, n.span.start ≤ n.span.stop) {n : Node} (hn : n ∈ nodes)
    (hd : n.declares = false) : Covered nodes n ↔ Node.InRoutine nodes n.span.start := by
  constructor
  · intro hc
    obtain ⟨m, hm, hr, hstart, hstop⟩ := h.exists_routine hle hc
    exact ⟨m, hm, hr, Nat.le_of_lt hstart, hstop⟩
  · rintro ⟨m, hm, hr, hstart, hstop⟩
    refine .routine hm hr ⟨Nat.lt_of_le_of_ne hstart fun he => ?_, hstop⟩
    rw [← h.eq_of_start hm hn he, Node.declares_of_isRoutine hr] at hd
    cases hd

/-- **A comment belongs to one routine at most**: a second one would stand between the first and the
comment, or inside the first and around the comment. -/
theorem WellNested.eq_of_carries {attachment : Attachment} {source : Text} {nodes : List Node}
    (h : WellNested nodes) {d f g : Node} (hd : d ∈ nodes) (hle : d.span.start ≤ d.span.stop)
    (hf : f ∈ nodes) (hfr : f.isRoutine = true) (hfd : f.Carries attachment source nodes d)
    (hg : g ∈ nodes) (hgr : g.isRoutine = true) (hgd : g.Carries attachment source nodes d) :
    f = g := by
  have hne : ∀ m ∈ nodes, m.isRoutine = true → d.span.start ≠ m.span.start := by
    intro m hm hr he
    have hdoc := Node.declares_eq_false.2 hfd.doc
    rw [h.eq_of_start hd hm he, Node.declares_of_isRoutine hr] at hdoc
    cases hdoc
  refine h.eq_of_start hf hg ?_
  cases attachment with
  | preceding =>
    have hfstart := Nat.lt_of_le_of_ne (Nat.le_trans hle hfd.before) (hne f hf hfr)
    have hgstart := Nat.lt_of_le_of_ne (Nat.le_trans hle hgd.before) (hne g hg hgr)
    rcases Nat.lt_trichotomy f.span.start g.span.start with hlt | heq | hlt
    · have := (hgd.last f hf hfstart hlt).1
      rw [Node.declares_of_isRoutine hfr] at this
      cases this
    · exact heq
    · have := (hfd.last g hg hgstart hlt).1
      rw [Node.declares_of_isRoutine hgr] at this
      cases this
  | firstStatement =>
    have hge := hfd.1.innermost g hg (Node.declares_of_isRoutine hgr) hgd.1.inside
    have hle := hgd.1.innermost f hf (Node.declares_of_isRoutine hfr) hfd.1.inside
    exact Nat.le_antisymm hle hge

/-! ## The comment that a routine gets -/

/-- What stands first in a list that is in order, among what has some property. -/
theorem head?_filter_eq_some {α : Type} {R : α → α → Prop} (hasymm : ∀ a b, R a b → ¬ R b a)
    {l : List α} (h : l.Pairwise R) {p : α → Bool} {d : α} :
    (l.filter p).head? = some d ↔ d ∈ l ∧ p d = true ∧ ∀ e ∈ l, p e = true → ¬ R e d := by
  induction l with
  | nil => simp
  | cons n l ih =>
    obtain ⟨hn, hl⟩ := List.pairwise_cons.1 h
    cases hp : p n with
    | true =>
      rw [List.filter_cons_of_pos hp, List.head?_cons, Option.some_inj]
      constructor
      · rintro rfl
        refine ⟨List.mem_cons_self, hp, fun e he _ hlt => ?_⟩
        rcases List.mem_cons.1 he with rfl | he
        · exact hasymm _ _ hlt hlt
        · exact hasymm _ _ hlt (hn e he)
      · rintro ⟨hd, -, hfirst⟩
        rcases List.mem_cons.1 hd with rfl | hd
        · rfl
        · exact absurd (hn d hd) (hfirst n List.mem_cons_self hp)
    | false =>
      have hne : ∀ e ∈ n :: l, p e = true → e ∈ l := by
        intro e hmem he
        rcases List.mem_cons.1 hmem with rfl | hmem
        · rw [hp] at he
          cases he
        · exact hmem
      rw [List.filter_cons_of_neg (by rw [hp]; exact Bool.false_ne_true), ih hl]
      constructor
      · rintro ⟨hd, hpd, hfirst⟩
        exact ⟨List.mem_cons_of_mem _ hd, hpd, fun e he hpe => hfirst e (hne e he hpe) hpe⟩
      · rintro ⟨hd, hpd, hfirst⟩
        exact ⟨hne d hd hpd, hpd, fun e he => hfirst e (List.mem_cons_of_mem _ he)⟩

/-- The range of a comment. -/
def Node.comment? (n : Node) : Option Span :=
  if n.declares then none else some n.span

open Classical in
/-- The comment that waits behind some nodes: the last of them that is not covered, or that declares
something, if it is a comment. -/
noncomputable def waiting (nodes : List Node) : Option Span :=
  (nodes.filter fun n => n.declares || !decide (Covered nodes n)).getLast?.bind Node.comment?

/-- What waits behind some nodes, if comments precede their routines. -/
noncomputable def awaited (attachment : Attachment) (nodes : List Node) : Option Span :=
  match attachment with
  | .preceding => waiting nodes
  | .firstStatement => none

open Classical in
/-- The first literal that introduces a routine. -/
noncomputable def introduction (source : Text) (nodes : List Node) (f : Node) : Option Span :=
  (nodes.filter fun d => decide (d.Introduces source nodes f)).head?.map Node.span

/-- The comment that a routine among some nodes gets. -/
noncomputable def commentOf (attachment : Attachment) (source : Text) (nodes : List Node)
    (f : Node) : Option Span :=
  match attachment with
  | .preceding => (waiting (nodes.filter fun n => n.span.start < f.span.start)).filter fun c =>
      isAdjacent source c.stop f.span.start
  | .firstStatement => introduction source nodes f

section

variable {attachment : Attachment} {source : Text} {nodes : List Node} {c : Span} {d f : Node}

theorem waiting_eq_some (h : nodes.Pairwise fun m n => m.span.start < n.span.start) :
    waiting nodes = some c ↔ ∃ d ∈ nodes, d.span = c ∧ d.declares = false ∧ ¬ Covered nodes d ∧
      ∀ n ∈ nodes, d.span.start < n.span.start → n.declares = false ∧ Covered nodes n := by
  have hrev := List.pairwise_reverse.2 h
  unfold waiting
  simp only [Option.bind_eq_some_iff, ← List.head?_reverse, ← List.filter_reverse,
    head?_filter_eq_some (fun a b => Nat.lt_asymm) hrev, List.mem_reverse]
  refine exists_congr fun d => ?_
  simp only [Node.comment?, Bool.or_eq_true, Bool.not_eq_true', decide_eq_false_iff_not]
  constructor
  · rintro ⟨⟨hd, hp, hlast⟩, hc⟩
    cases hdec : d.declares with
    | true => simp [hdec] at hc
    | false =>
      rw [hdec] at hc hp
      refine ⟨hd, Option.some_inj.1 hc, rfl, hp.resolve_left Bool.false_ne_true, fun n hn hlt => ?_⟩
      have hnot := mt (hlast n hn) (not_not.2 hlt)
      rw [not_or, not_not, Bool.not_eq_true] at hnot
      exact hnot
  · rintro ⟨hd, rfl, hdec, hfree, hlast⟩
    refine ⟨⟨hd, .inr hfree, fun n hn hp hlt => ?_⟩, by simp [hdec]⟩
    obtain ⟨hndec, hcov⟩ := hlast n hn hlt
    rcases hp with hp | hp
    · rw [hndec] at hp
      cases hp
    · exact hp hcov

theorem introduction_eq_some (h : nodes.Pairwise fun m n => m.span.start < n.span.start) :
    introduction source nodes f = some c ↔ ∃ d ∈ nodes, d.span = c ∧ d.Introduces source nodes f ∧
      ∀ e ∈ nodes, e.Introduces source nodes f → d.span.start ≤ e.span.start := by
  unfold introduction
  simp only [Option.map_eq_some_iff, head?_filter_eq_some (fun a b => Nat.lt_asymm) h,
    decide_eq_true_eq, Nat.not_lt]
  exact exists_congr fun d => ⟨fun ⟨⟨hd, hp, hfirst⟩, hc⟩ => ⟨hd, hc, hp, hfirst⟩,
    fun ⟨hd, hc, hp, hfirst⟩ => ⟨⟨hd, hp, hfirst⟩, hc⟩⟩

/-- Whether a node is covered is told by what starts before some byte behind its start. -/
theorem covered_filter_lt {n : Node} {byte : Nat} (h : n.span.start ≤ byte) :
    Covered (nodes.filter fun m => m.span.start < byte) n ↔ Covered nodes n := by
  refine ⟨fun hc => hc.mono fun m hm => (List.mem_filter.1 hm).1, fun hc => ?_⟩
  have hparts : ∀ m ∈ nodes, m ∈ (nodes.filter fun m => m.span.start < byte) ++
      nodes.filter fun m => byte ≤ m.span.start := by
    intro m hm
    simp only [List.mem_append, List.mem_filter, decide_eq_true_eq]
    exact (Nat.lt_or_ge m.span.start byte).imp (fun hlt => ⟨hm, hlt⟩) fun hge => ⟨hm, hge⟩
  refine (covered_append fun l hl => ?_).1 (hc.mono hparts)
  exact Nat.le_trans h (of_decide_eq_true (List.mem_filter.1 hl).2)

/-- **A routine gets the comment that it carries**. -/
theorem commentOf_eq_some (h : WellNested nodes)
    (hsorted : nodes.Pairwise fun m n => m.span.start < n.span.start)
    (hle : ∀ n ∈ nodes, n.span.start ≤ n.span.stop) (hf : f ∈ nodes) (hr : f.isRoutine = true) :
    commentOf attachment source nodes f = some c ↔
      ∃ d ∈ nodes, d.span = c ∧ f.Carries attachment source nodes d := by
  cases attachment with
  | firstStatement => exact introduction_eq_some hsorted
  | preceding =>
    have hcov : ∀ n ∈ nodes, n.declares = false → n.span.start < f.span.start →
        (Covered (nodes.filter fun m => m.span.start < f.span.start) n ↔
          Node.InRoutine nodes n.span.start) := fun n hn hd hlt =>
      (covered_filter_lt (Nat.le_of_lt hlt)).trans (h.covered_iff_inRoutine hle hn hd)
    simp only [commentOf, Option.filter_eq_some_iff,
      waiting_eq_some (hsorted.sublist List.filter_sublist), List.mem_filter, decide_eq_true_eq]
    constructor
    · rintro ⟨⟨d, ⟨hd, hlt⟩, rfl, hdoc, hfree, hlast⟩, hgap⟩
      obtain ⟨hstop, hgap⟩ := isAdjacent_iff.1 hgap
      refine ⟨d, hd, rfl, Node.declares_eq_false.1 hdoc, fun hin => ?_, hstop,
        fun n hn hdn hnf => ?_, hgap⟩
      · exact hfree ((hcov d hd hdoc hlt).2 hin)
      · obtain ⟨hndoc, hncov⟩ := hlast n ⟨hn, hnf⟩ hdn
        exact ⟨hndoc, (hcov n hn hndoc hnf).1 hncov⟩
    · rintro ⟨d, hd, rfl, hcarries⟩
      have hdoc := Node.declares_eq_false.2 hcarries.doc
      have hne : d.span.start ≠ f.span.start := fun he => by
        rw [h.eq_of_start hd hf he, Node.declares_of_isRoutine hr] at hdoc
        cases hdoc
      have hlt : d.span.start < f.span.start :=
        Nat.lt_of_le_of_ne (Nat.le_trans (hle d hd) hcarries.before) hne
      refine ⟨⟨d, ⟨hd, hlt⟩, rfl, hdoc, fun hc => ?_, fun n hn hdn => ?_⟩,
        isAdjacent_iff.2 ⟨hcarries.before, hcarries.gap⟩⟩
      · exact hcarries.outside ((hcov d hd hdoc hlt).1 hc)
      · obtain ⟨hndoc, hin⟩ := hcarries.last n hn.1 hdn hn.2
        exact ⟨hndoc, (hcov n hn.1 hndoc hn.2).2 hin⟩

end

end Scholia.Source
