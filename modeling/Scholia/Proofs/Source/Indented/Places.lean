import Mathlib.Data.List.Chain
import Scholia.Proofs.Source.Enclosed
import Scholia.Proofs.Source.Indented.Nest
/-!
# Places among lines

What a header declares is told by its place: the lines before it, from the nearest on, and the lines
after it. Its block starts with the run of annotations directly before it and holds the lines after
it that are indented deeper. A line belongs to a routine if the header of one stands before it,
indented less, and all lines between are indented deeper than that header.

**The routines of an outline that lie in no other one are the headers that belong to no routine**, if
annotations are indented like what they annotate. An annotation that is not can stand in a body that
its header has left.
-/

namespace Scholia.Source.Indented

/-- A logical line with the lines around it. -/
abbrev LinePlace := Site LogicalLine

/-- The places of some logical lines behind others. -/
abbrev linePlaces (before lines : List LogicalLine) : List LinePlace :=
  sites before lines

/-- Whether a line is the header of a routine. -/
def BareLine.isRoutine (l : BareLine) : Bool :=
  l.header?.any Header.isRoutine

/-- Annotations are indented like the lines after them. -/
def Aligned (source : Text) (lines : List LogicalLine) : Prop :=
  lines.IsChain fun l m => (l.bare source).isNote = true → l.indent = m.indent

instance (source : Text) (lines : List LogicalLine) : Decidable (Aligned source lines) :=
  inferInstanceAs (Decidable (lines.IsChain _))

/-- The byte at which the annotations directly before a line start. -/
def noteStart (source : Text) (before : List LogicalLine) : Option Nat :=
  (before.takeWhile fun l => (l.bare source).isNote).getLast?.map LogicalLine.start

/-- A line at this indentation belongs to a routine: among the lines before it, the nearest first,
is a header indented less, and all lines between are indented deeper than that header. -/
def Enclosed (source : Text) (before : List LogicalLine) (indent : Nat) : Prop :=
  ∃ between header rest, before = between ++ header :: rest ∧
    (header.bare source).isRoutine = true ∧ header.indent < indent ∧
      ∀ l ∈ between, header.indent < l.indent

namespace LinePlace

/-- The byte at which the block of a header starts: at the annotations directly before it. -/
def start (source : Text) (p : LinePlace) : Nat :=
  (noteStart source p.before).getD p.line.start

/-- What a line declares, if it is a header. -/
def node? (source : Text) (p : LinePlace) : Option Node :=
  (p.line.bare source).header?.map fun header =>
    ((header.block source p.line (p.start source)).grown p.after).close

end LinePlace

variable {source : Text} {lines before rest : List LogicalLine} {line : LogicalLine} {indent : Nat}

theorem noteStart_cons : noteStart source (line :: before) =
    if (line.bare source).isNote then some ((noteStart source before).getD line.start) else none := by
  unfold noteStart
  cases hnote : (line.bare source).isNote with
  | true =>
    simp only [List.takeWhile_cons, hnote, if_true, List.getLast?_cons]
    cases (before.takeWhile fun l => (l.bare source).isNote).getLast? <;> rfl
  | false => simp [hnote]

/-- **What is declared, place by place**. -/
theorem headed_eq (before lines : List LogicalLine) :
    headed source (noteStart source before) lines =
      (linePlaces before lines).filterMap (LinePlace.node? source) := by
  induction lines generalizing before with
  | nil => rfl
  | cons line rest ih =>
    have hrest := ih (line :: before)
    rw [noteStart_cons] at hrest
    rw [headed, linePlaces, sites]
    by_cases hnote : (line.bare source).isNote = true
    · have hnone : LinePlace.node? source ⟨before, line, rest⟩ = none := by
        rw [LinePlace.node?, BareLine.header?_of_note hnote]
        rfl
      rw [if_pos hnote] at hrest
      rw [if_pos hnote, hrest, List.filterMap_cons_none hnone]
    · rw [if_neg hnote] at hrest
      rw [if_neg hnote, hrest, List.filterMap_cons]
      cases hnode : LinePlace.node? source ⟨before, line, rest⟩ <;>
        simp only [LinePlace.node?, LinePlace.start] at hnode <;> rw [hnode] <;> rfl

theorem headed_none (lines : List LogicalLine) : headed source none lines =
    (linePlaces [] lines).filterMap (LinePlace.node? source) :=
  headed_eq [] lines

/-! ## Lines that belong to a routine -/

theorem not_enclosed_nil : ¬ Enclosed source [] indent := by
  rintro ⟨between, header, rest, he, -⟩
  cases between <;> cases he

/-- Behind one more line: its block holds what is indented deeper, and it ends all blocks that are
not left of it. -/
theorem enclosed_cons : Enclosed source (line :: before) indent ↔
    (line.bare source).isRoutine = true ∧ line.indent < indent ∨
      Enclosed source before (min line.indent indent) := by
  constructor
  · rintro ⟨between, header, rest, he, hroutine, hlt, hbetween⟩
    cases between with
    | nil =>
      cases he
      exact .inl ⟨hroutine, hlt⟩
    | cons l between =>
      cases he
      have hl := hbetween line List.mem_cons_self
      exact .inr ⟨between, header, rest, rfl, hroutine, Nat.lt_min.2 ⟨hl, hlt⟩,
        fun l hl => hbetween l (List.mem_cons_of_mem _ hl)⟩
  · rintro (⟨hroutine, hlt⟩ | ⟨between, header, rest, rfl, hroutine, hlt, hbetween⟩)
    · exact ⟨[], line, before, rfl, hroutine, hlt, by simp⟩
    · obtain ⟨hl, hlt⟩ := Nat.lt_min.1 hlt
      exact ⟨line :: between, header, rest, rfl, hroutine, hlt, List.forall_mem_cons.2 ⟨hl, hbetween⟩⟩

instance decidableEnclosed (source : Text) :
    (before : List LogicalLine) → (indent : Nat) → Decidable (Enclosed source before indent)
  | [], _ => isFalse not_enclosed_nil
  | _ :: before, _ =>
    have := decidableEnclosed source before
    decidable_of_iff _ enclosed_cons.symm

/-- The places of the headers of routines that belong to no routine, in order. -/
def outermostPlaces (source : Text) (lines : List LogicalLine) : List LinePlace :=
  (linePlaces [] lines).filter fun p =>
    (p.line.bare source).isRoutine && !decide (Enclosed source p.before p.line.indent)

/-- What is known of the bodies around the lines to come says which of them belong to a routine. -/
structure Nest.Follows (source : Text) (before : List LogicalLine) (n : Nest) : Prop where
  body : ∀ indent, (n.within indent).isSome = true ↔ Enclosed source before indent
  note : ∀ b, n.note = some b → ∃ l, before.head? = some l ∧ (l.bare source).isNote = true ∧
    b = (n.within l.indent).isSome

namespace Nest.Follows

variable {n : Nest}

theorem initial (source : Text) : Nest.initial.Follows source [] where
  body := fun _ => iff_of_false (by simp [Nest.initial, Nest.within]) not_enclosed_nil
  note := fun _ hb => by cases hb

/-- A line that is indented like the annotations before it belongs to what they belong to. -/
theorem inner_iff (h : n.Follows source before)
    (haligned : ∀ l, before.head? = some l → (l.bare source).isNote = true →
      l.indent = line.indent) :
    n.inner (line.bare source) = (n.within line.indent).isSome := by
  unfold inner
  cases hnote : n.note with
  | none => rfl
  | some b =>
    obtain ⟨l, hl, hn, rfl⟩ := h.note b hnote
    rw [haligned l hl hn]
    rfl

theorem isSome_within (n : Nest) (i : Nat) :
    (n.within i).isSome = true ↔ ∃ column, n.body = some column ∧ column < i := by
  simp [within, Option.isSome_filter, Option.any_eq_true]

/-- A header goes on with the body that it stands in, or begins one. -/
theorem isSome_or (n : Nest) (routine : Bool) (i j : Nat) :
    (((n.within i).or (if routine then some i else none)).filter (· < j)).isSome = true ↔
      routine = true ∧ i < j ∨ (n.within (min i j)).isSome = true := by
  simp only [isSome_within]
  cases hw : n.within i with
  | some column =>
    obtain ⟨hbody, hlt⟩ := Option.filter_eq_some_iff.1 hw
    have hlt : column < i := of_decide_eq_true hlt
    simp only [Option.some_or, Option.isSome_filter, Option.any_some, decide_eq_true_eq, hbody,
      Option.some_inj, exists_eq_left', Nat.lt_min]
    exact ⟨fun h => .inr ⟨hlt, h⟩, fun h => h.elim (fun h => Nat.lt_trans hlt h.2) And.right⟩
  | none =>
    have hnone : ¬ ∃ column, n.body = some column ∧ column < min i j := by
      rintro ⟨column, hbody, hlt⟩
      have := (isSome_within n i).2 ⟨column, hbody, (Nat.lt_min.1 hlt).1⟩
      rw [hw] at this
      cases this
    rw [or_iff_left hnone]
    cases routine <;> simp

/-- **Every line keeps what is known of the routines that the next ones belong to**. -/
theorem next (h : n.Follows source before)
    (haligned : ∀ l, before.head? = some l → (l.bare source).isNote = true →
      l.indent = line.indent) :
    (n.next (line.bare source)).Follows source (line :: before) := by
  have hinner := h.inner_iff haligned
  have hbody : ∀ routine : Bool, (line.bare source).isRoutine = routine → ∀ indent,
      (((n.within line.indent).or (if routine then some line.indent else none)).filter
        (· < indent)).isSome = true ↔ Enclosed source (line :: before) indent := by
    intro routine hroutine indent
    rw [isSome_or, enclosed_cons, hroutine, h.body]
  have hplain : (line.bare source).isRoutine = false → ∀ indent,
      ((n.within line.indent).filter (· < indent)).isSome = true ↔
        Enclosed source (line :: before) indent := by
    intro hroutine indent
    have := hbody false hroutine indent
    rwa [if_neg Bool.false_ne_true, Option.or_none] at this
  by_cases hnote : (line.bare source).isNote = true
  · have hroutine : (line.bare source).isRoutine = false := by
      rw [BareLine.isRoutine, BareLine.header?_of_note hnote]
      rfl
    rw [next_note hnote, hinner]
    refine ⟨hplain hroutine, fun b hb => ?_⟩
    cases hb
    refine ⟨line, rfl, hnote, ?_⟩
    have hsame := hplain hroutine line.indent
    rw [enclosed_cons, hroutine, Nat.min_self, ← h.body, or_iff_right (by simp)] at hsame
    exact Bool.eq_iff_iff.2 hsame.symm
  · cases hheader : (line.bare source).header? with
    | none =>
      have hroutine : (line.bare source).isRoutine = false := by
        rw [BareLine.isRoutine, hheader]
        rfl
      rw [next_plain hnote hheader]
      exact ⟨hplain hroutine, fun b hb => by cases hb⟩
    | some header =>
      have hroutine : (line.bare source).isRoutine = header.isRoutine := by
        rw [BareLine.isRoutine, hheader]
        rfl
      rw [next_header hheader, hinner]
      refine ⟨fun indent => ?_, fun b hb => by cases hb⟩
      rw [← hbody _ hroutine]
      have hor : (n.within line.indent).or (if header.isRoutine || (n.within line.indent).isSome
          then some line.indent else none) =
          (n.within line.indent).or (if header.isRoutine then some line.indent else none) := by
        cases n.within line.indent <;> simp
      exact iff_of_eq (congrArg (fun body : Option Nat => (body.filter _).isSome = true) hor)

end Nest.Follows

/-- The node of a place. -/
theorem LinePlace.node?_eq_some {p : LinePlace} {m : Node} (h : p.node? source = some m) :
    m.isRoutine = (p.line.bare source).isRoutine ∧ p.line.start < p.line.stop ∧
      m.span = ⟨p.start source, reach p.line.indent p.line.stop p.after⟩ := by
  obtain ⟨header, hheader, rfl⟩ := Option.map_eq_some_iff.1 h
  refine ⟨?_, lt_of_header hheader, OpenBlock.close_span _⟩
  rw [OpenBlock.isRoutine_close, BareLine.isRoutine, hheader]
  rfl

/-- **What a header declares is covered if the header belongs to a routine**. -/
theorem covered_node_iff {all : List Node} {pos : Nat} {found : List (Nat × Node)} {n : Nest}
    (h : n.Tells source all pos found (noteStart source before) lines)
    (hn : n.Follows source before) (haligned : Aligned source (before.reverse ++ lines)) :
    ∀ p ∈ linePlaces before lines, ∀ m, p.node? source = some m →
      (Covered all m ↔ Enclosed source p.before p.line.indent) := by
  induction lines generalizing before pos found n with
  | nil => exact fun p hp => by cases hp
  | cons line rest ih =>
    have hsame : ∀ l, before.head? = some l → (l.bare source).isNote = true →
        l.indent = line.indent := by
      intro l hl
      obtain ⟨more, rfl⟩ := List.head?_eq_some_iff.1 hl
      rw [Aligned, List.reverse_cons, List.append_assoc] at haligned
      exact (List.isChain_append_cons_cons.1 haligned).2.1
    intro p hp m hm
    rcases List.mem_cons.1 hp with rfl | hp
    · obtain ⟨-, hlt, hspan⟩ := LinePlace.node?_eq_some hm
      rw [coveredAt_iff, hspan, ← hn.body, ← hn.inner_iff hsame]
      exact (h.inner_iff hlt).symm
    · obtain ⟨found', hnext⟩ := h.next
      rw [← noteStart_cons] at hnext
      refine ih hnext (hn.next hsame) ?_ p hp m hm
      rwa [List.reverse_cons, List.append_assoc]

/-! ## Blocks do not cross -/

/-- A block deeper than another one ends no later. -/
theorem reach_le {i j stop : Nat} (hij : i ≤ j) (h : Follow stop lines) :
    reach j stop lines ≤ reach i stop lines := by
  induction lines generalizing stop with
  | nil => exact Nat.le_refl _
  | cons line rest ih =>
    by_cases hj : j < line.indent
    · rw [reach_deeper hj, reach_deeper (Nat.lt_of_le_of_lt hij hj)]
      exact ih h.tail
    · rw [reach_left (Nat.not_lt.1 hj)]
      exact le_reach h

/-- What is declared behind a header lies in its block, or behind it. Annotations that wait are
indented like the next line, so that they lie where that does. -/
theorem headed_uncrossed {pos column : Nat} {note : Option Nat} (h : Follow pos lines)
    (haligned : Aligned source lines)
    (hnote : ∀ a, note = some a → ∀ l, lines.head? = some l → column < l.indent) :
    ∀ m ∈ headed source note lines,
      reach column pos lines ≤ m.span.start ∨ m.span.stop ≤ reach column pos lines := by
  induction lines generalizing note pos with
  | nil => exact fun m hm => by cases hm
  | cons line rest ih =>
    have hrest : Aligned source rest := (List.isChain_cons.1 haligned).2
    by_cases hlt : column < line.indent
    · rw [reach_deeper hlt, headed]
      split
      · next hn =>
        refine ih h.tail hrest fun a _ l hl => ?_
        rw [← (List.isChain_cons.1 haligned).1 l hl hn]
        exact hlt
      · intro m hm
        rcases List.mem_append.1 hm with hm | hm
        · obtain ⟨header, -, rfl⟩ := Option.map_eq_some_iff.1 (Option.mem_toList.1 hm)
          rw [OpenBlock.close_span]
          exact .inr (reach_le (Nat.le_of_lt hlt) h.tail)
        · exact ih h.tail hrest (fun a ha => by cases ha) m hm
    · have hnone : note = none := by
        cases note with
        | none => rfl
        | some a => exact absurd (hnote a rfl line rfl) hlt
      rw [reach_left (Nat.not_lt.1 hlt)]
      exact fun m hm => .inl (le_of_mem_headed h (Nat.le_refl _) (fun a ha => by
        rw [hnone] at ha
        cases ha) m hm)

/-- **Blocks do not cross** if annotations are indented like what they annotate. -/
theorem pairwise_uncrossed {pos : Nat} {note : Option Nat} (h : Follow pos lines)
    (haligned : Aligned source lines) (hnote : ∀ a, note = some a → a < pos) :
    (headed source note lines).Pairwise Node.Uncrossed := by
  induction lines generalizing note pos with
  | nil => exact .nil
  | cons line rest ih =>
    have hrest : Aligned source rest := (List.isChain_cons.1 haligned).2
    have hapart : (headed source note (line :: rest)).Pairwise _ := headed_pairwise h hnote
    rw [headed] at hapart ⊢
    split
    · next hn =>
      refine ih h.tail hrest fun a ha => ?_
      cases ha
      have hlt := lt_of_note hn
      cases note with
      | none => exact hlt
      | some a => exact Nat.lt_trans (Nat.lt_of_lt_of_le (hnote a rfl) h.head.1) hlt
    · next hn =>
      rw [if_neg hn] at hapart
      refine List.pairwise_append.2 ⟨?_, ih h.tail hrest (fun a ha => by cases ha),
        fun m hm n hn => ?_⟩
      · cases (line.bare source).header? with
        | none => exact .nil
        | some header => exact List.pairwise_singleton _ _
      · have hlt := (List.pairwise_append.1 hapart).2.2 m hm n hn
        obtain ⟨header, -, rfl⟩ := Option.map_eq_some_iff.1 (Option.mem_toList.1 hm)
        have hblock : reach line.indent line.stop rest ≤ n.span.start ∨
            n.span.stop ≤ reach line.indent line.stop rest :=
          headed_uncrossed h.tail hrest (fun a ha => by cases ha) n hn
        have hstop : (((header.block source line (note.getD line.start)).grown rest).close).span.stop =
            reach line.indent line.stop rest := by
          rw [OpenBlock.close_span]
          rfl
        rw [← hstop] at hblock
        rcases Nat.lt_or_ge n.span.start
          (((header.block source line (note.getD line.start)).grown rest).close).span.stop with hin | hout
        · exact .inr (.inr (.inl ⟨Nat.le_of_lt hlt, hin, hblock.resolve_left (Nat.not_le.2 hin)⟩))
        · exact .inl hout

/-! ## The routines of an outline -/

/-- Places declare one after the other. -/
theorem nodes_pairwise (hlines : logicalLines source = .ok lines) :
    ((linePlaces [] lines).filterMap (LinePlace.node? source)).Pairwise
      fun m n => m.span.start < n.span.start := by
  rw [← headed_none]
  exact headed_pairwise (Follow.of_row (logicalLines_fit hlines).2) fun a ha => by cases ha

/-- **What an outline declares is what its places declare**, in order. -/
theorem outline_declares {o : Outline} (h : outline source = .ok o)
    (hlines : logicalLines source = .ok lines) :
    o.nodes.filter Node.declares = (linePlaces [] lines).filterMap (LinePlace.node? source) := by
  have hperm := outline_headed h hlines
  have hdeclared : (o.nodes.filter Node.declares).Pairwise fun m n => m.span.start < n.span.start := by
    refine List.pairwise_filter.2 ((outline_distinct h).imp fun {m n} h hm hn => h hm hn)
  rw [headed_none] at hperm
  refine List.Perm.eq_of_pairwise (fun m n _ _ hmn hnm => ?_) hdeclared (nodes_pairwise hlines) hperm
  exact absurd hmn (Nat.lt_asymm hnm)

/-- **The routines of an outline that lie in no other one** are declared by the headers of routines
that belong to none. -/
theorem outermost_places {o : Outline} (h : outline source = .ok o)
    (hlines : logicalLines source = .ok lines) (haligned : Aligned source lines) :
    outermost o.nodes = (outermostPlaces source lines).filterMap (LinePlace.node? source) := by
  classical
  have hdeclares := outline_declares h hlines
  have hcovered : ∀ m, Covered o.nodes m ↔ Covered (headed source none lines) m := fun m => by
    rw [covered_filter, hdeclares, ← headed_none]
  have htells : Nest.initial.Tells source (headed source none lines) 0 [] (noteStart source []) lines :=
    .initial (logicalLines_fit hlines).2
  have hiff := covered_node_iff htells (.initial source) haligned
  have houtermost : outermost o.nodes = (o.nodes.filter Node.declares).filter fun m =>
      m.isRoutine && !decide (Covered o.nodes m) := by
    rw [outermost, List.filter_filter]
    refine List.filter_congr fun m _ => ?_
    cases hr : m.isRoutine with
    | false => rfl
    | true =>
      rw [Node.declares_of_isRoutine hr, Bool.and_true]
  rw [houtermost, hdeclares, outermostPlaces, List.filter_filterMap, List.filterMap_filter]
  refine List.filterMap_congr fun p hp => ?_
  cases hm : p.node? source with
  | none =>
    rw [Option.filter_none, ite_self]
  | some m =>
    have hsame : decide (Covered o.nodes m) = decide (Enclosed source p.before p.line.indent) :=
      decide_eq_decide.2 ((hcovered m).trans (hiff p hp m hm))
    rw [Option.filter_some, (LinePlace.node?_eq_some hm).1, hsame]

end Scholia.Source.Indented
