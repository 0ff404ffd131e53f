import Mathlib.Data.List.Forall2
import Mathlib.Data.List.Pairwise
import Scholia.Proofs.Evaluation
import Scholia.Proofs.Source.Slices
/-!
# Declarations inside routines

If no two declarations cross, what is covered is what lies inside a routine. So the survey finds the
routines that lie inside no other one, and the types that lie inside none, each with what its node
says of it.

Ranges that cross are no obstacle to the order: a routine is opened only when none is open, so **the
routines that are found never overlap**.
-/

namespace Scholia.Source

/-! ## Ranges without crossing -/

namespace Node

/-- Whether a node is a type. -/
def isType (n : Node) : Bool :=
  match n.kind with
  | .typeDecl _ => true
  | _ => false

theorem declares_eq (n : Node) : n.declares = (n.isRoutine || n.isType) := by
  unfold declares isRoutine isType
  cases n.kind <;> rfl

/-- One node lies inside another one. An empty range that begins where another one ends lies behind
that one. -/
def Encloses (m n : Node) : Prop :=
  m.span.start ≤ n.span.start ∧ n.span.start < m.span.stop ∧ n.span.stop ≤ m.span.stop

instance (m n : Node) : Decidable (m.Encloses n) :=
  inferInstanceAs (Decidable (_ ∧ _ ∧ _))

/-- One node ends before the other begins, or lies inside it. -/
def Uncrossed (m n : Node) : Prop :=
  m.span.stop ≤ n.span.start ∨ n.span.stop ≤ m.span.start ∨ m.Encloses n ∨ n.Encloses m

instance (m n : Node) : Decidable (m.Uncrossed n) :=
  inferInstanceAs (Decidable (_ ∨ _ ∨ _ ∨ _))

theorem Uncrossed.symm {m n : Node} (h : m.Uncrossed n) : n.Uncrossed m := by
  rcases h with h | h | h | h
  · exact .inr (.inl h)
  · exact .inl h
  · exact .inr (.inr (.inr h))
  · exact .inr (.inr (.inl h))

/-- What starts inside a node that it does not cross lies inside it. -/
theorem Uncrossed.encloses {m n : Node} (h : m.Uncrossed n) (hn : n.span.start ≤ n.span.stop)
    (hholds : m.Holds n) : m.Encloses n := by
  obtain ⟨hstart, hstop⟩ := hholds
  rcases h with h | h | h | h
  · omega
  · omega
  · exact h
  · have := h.1
    omega

/-- Whether a node lies inside a routine among some nodes, other than itself. -/
def isInner (nodes : List Node) (n : Node) : Bool :=
  nodes.any fun m => m.isRoutine && decide (m ≠ n) && decide (m.Encloses n)

theorem isInner_iff {nodes : List Node} {n : Node} :
    n.isInner nodes = true ↔ ∃ m ∈ nodes, m.isRoutine = true ∧ m ≠ n ∧ m.Encloses n := by
  simp [isInner, and_assoc]

end Node

/-- Nodes of which no two start at one byte, and no two declarations cross. -/
structure WellNested (nodes : List Node) : Prop where
  distinct : nodes.Pairwise fun m n => m.span.start ≠ n.span.start
  uncrossed : nodes.Pairwise fun m n => m.declares = true → n.declares = true → m.Uncrossed n

namespace WellNested

variable {nodes : List Node} {m n : Node}

theorem perm (h : WellNested nodes) {more : List Node} (hperm : nodes.Perm more) :
    WellNested more where
  distinct := hperm.pairwise h.distinct fun h => h.symm
  uncrossed := hperm.pairwise h.uncrossed fun h hn hm => (h hm hn).symm

/-- A node is known by the byte at which it starts. -/
theorem eq_of_start (h : WellNested nodes) (hm : m ∈ nodes) (hn : n ∈ nodes)
    (he : m.span.start = n.span.start) : m = n := by
  have : Std.Symm fun m n : Node => m.span.start ≠ n.span.start := ⟨fun _ _ h => h.symm⟩
  by_contra hne
  exact h.distinct.forall hm hn hne he

theorem uncrossed_of_mem (h : WellNested nodes) (hm : m ∈ nodes) (hn : n ∈ nodes) (hne : m ≠ n)
    (hdm : m.declares = true) (hdn : n.declares = true) : m.Uncrossed n := by
  have : Std.Symm fun m n : Node => m.declares = true → n.declares = true → m.Uncrossed n :=
    ⟨fun _ _ h hn hm => (h hm hn).symm⟩
  exact h.uncrossed.forall hm hn hne hdm hdn

/-- In the order of their starts, the nodes start one after the other. -/
theorem ascending (h : WellNested nodes)
    (hsorted : nodes.Pairwise fun m n => m.span.start ≤ n.span.start) :
    nodes.Pairwise fun m n => m.span.start < n.span.start :=
  (hsorted.and h.distinct).imp fun h => Nat.lt_of_le_of_ne h.1 h.2

/-- What starts inside a routine, or inside what lies inside one, starts inside the outer one. -/
theorem exists_routine (h : WellNested nodes)
    (hle : ∀ n ∈ nodes, n.span.start ≤ n.span.stop) (hc : Covered nodes n) :
    ∃ m ∈ nodes, m.isRoutine = true ∧ m.Holds n := by
  induction hc with
  | @routine m n hm hr hholds => exact ⟨m, hm, hr, hholds⟩
  | @inner m n hm hd _ hholds ih =>
    obtain ⟨k, hk, hr, hkm⟩ := ih
    have hne : k ≠ m := by
      rintro rfl
      exact Nat.lt_irrefl _ hkm.1
    have hencloses := (h.uncrossed_of_mem hk hm hne (Node.declares_of_isRoutine hr) hd).encloses
      (hle m hm) hkm
    refine ⟨k, hk, hr, Nat.lt_trans hkm.1 hholds.1, ?_⟩
    exact Nat.lt_of_lt_of_le hholds.2 hencloses.2.2

/-- **Without crossing, what is covered lies inside a routine**. -/
theorem covered_iff_isInner (h : WellNested nodes)
    (hle : ∀ n ∈ nodes, n.span.start ≤ n.span.stop) (hn : n ∈ nodes) (hd : n.declares = true) :
    Covered nodes n ↔ n.isInner nodes = true := by
  rw [Node.isInner_iff]
  constructor
  · intro hc
    obtain ⟨m, hm, hr, hholds⟩ := h.exists_routine hle hc
    have hne : m ≠ n := by
      rintro rfl
      exact Nat.lt_irrefl _ hholds.1
    exact ⟨m, hm, hr, hne, (h.uncrossed_of_mem hm hn hne (Node.declares_of_isRoutine hr) hd).encloses
      (hle n hn) hholds⟩
  · rintro ⟨m, hm, hr, hne, hstart, hstop, -⟩
    refine .routine hm hr ⟨Nat.lt_of_le_of_ne hstart fun he => hne ?_, hstop⟩
    exact h.eq_of_start hm hn he

end WellNested

/-! ## Types outside routines -/

/-- The type that a node declares. -/
def Node.asType (n : Node) : TypeDecl :=
  ⟨n.name, n.signature⟩

open Classical in
/-- The types among some nodes that are not covered by them. -/
noncomputable def outermostTypes (nodes : List Node) : List Node :=
  nodes.filter fun n => n.isType && !decide (Covered nodes n)

namespace Walk.Traces

variable {source : Text} {before : List Node} {pos : Nat} {w : Walk} {node : Node}

open Classical in
/-- One place adds the type that it declares, unless it is covered. -/
theorem types_step (h : w.Traces source before pos) (attachment : Attachment)
    (hle : ∀ m ∈ before, m.span.start ≤ node.span.start)
    (hlt : ∀ m ∈ before, m.declares = true → node.declares = true →
      m.span.start < node.span.start)
    (hpos : pos ≤ node.span.start) (htypes : w.types = (outermostTypes before).map Node.asType) :
    (w.step source attachment node).types =
      (outermostTypes (before ++ [node])).map Node.asType := by
  have hclosed : (w.close source fun scope => scope.stop ≤ node.span.start).types = w.types := rfl
  have hin : node.declares = true →
      (Scope.inBody (w.close source fun scope => scope.stop ≤ node.span.start).scopes = true ↔
        Covered before node) := fun hd =>
    h.inBody_iff (fun m hm hdm => hlt m hm hdm hd) hpos
  rw [outermostTypes, filter_uncovered_append hle, List.map_append]
  refine Eq.trans ?_ (congrArg (· ++ _) htypes)
  rw [← hclosed, Walk.step]
  generalize (w.close source fun scope => scope.stop ≤ node.span.start) = w' at hin
  have hplain : node.isType = false → w'.types = w'.types ++
      ([node].filter fun m => m.isType && !decide (Covered before m)).map Node.asType := by
    intro htype
    simp [htype]
  obtain ⟨kind, signature, span⟩ := node
  cases kind with
  | doc =>
    refine Eq.trans ?_ (hplain rfl)
    cases attachment with
    | preceding =>
      simp only [Walk.enter]
      split <;> rfl
    | firstStatement =>
      simp only [Walk.enter]
      split <;> rfl
  | routine name b =>
    refine Eq.trans ?_ (hplain rfl)
    simp only [Walk.enter]
    split <;> rfl
  | typeDecl name =>
    cases hb : Scope.inBody w'.scopes with
    | true =>
      have hc := (hin rfl).1 hb
      simp [Walk.enter, hb, hc]
    | false =>
      have hc : ¬ Covered before ⟨.typeDecl name, signature, span⟩ := fun hc => by
        rw [(hin rfl).2 hc] at hb
        cases hb
      simp [Walk.enter, hb, hc, Node.isType, Node.asType, Node.name]

theorem types_foldl (h : w.Traces source before pos) (attachment : Attachment) (nodes : List Node)
    (hsorted : (before ++ nodes).Pairwise fun m n => m.span.start ≤ n.span.start)
    (hdistinct : (before ++ nodes).Pairwise fun m n => m.declares = true → n.declares = true →
      m.span.start < n.span.start)
    (hpos : ∀ n ∈ nodes, pos ≤ n.span.start)
    (htypes : w.types = (outermostTypes before).map Node.asType) :
    (nodes.foldl (Walk.step source attachment) w).types =
      (outermostTypes (before ++ nodes)).map Node.asType := by
  induction nodes generalizing w pos before with
  | nil => rwa [List.append_nil]
  | cons node nodes ih =>
    have hle := (List.pairwise_append.1 hsorted).2.2
    have hlt := (List.pairwise_append.1 hdistinct).2.2
    have hstep := h.step attachment (fun m hm => hle m hm node List.mem_cons_self)
      (fun m hm => hlt m hm node List.mem_cons_self) (hpos node List.mem_cons_self)
    have hmore := h.types_step attachment (fun m hm => hle m hm node List.mem_cons_self)
      (fun m hm => hlt m hm node List.mem_cons_self) (hpos node List.mem_cons_self) htypes
    have hnext := (List.pairwise_cons.1 (List.pairwise_append.1 hsorted).2.1).1
    rw [List.append_cons] at hsorted hdistinct ⊢
    exact ih hstep hsorted hdistinct hnext hmore

end Walk.Traces

/-- **The survey finds the types that are not covered**, each once and in order. -/
theorem Outline.Fits.survey_outermostTypes {o : Outline} (h : o.Fits)
    (hdistinct : o.nodes.Pairwise fun m n => m.declares = true → n.declares = true →
      m.span.start < n.span.start) (attachment : Attachment) :
    (o.survey attachment).2 = (outermostTypes o.nodes).map Node.asType :=
  (Walk.Traces.initial o.source).types_foldl attachment o.nodes h.sorted hdistinct
    (fun _ _ => Nat.zero_le _) rfl

/-- **In a flat outline the survey finds every type**, in order. -/
theorem Outline.Flat.survey_all_types {o : Outline} (h : o.Flat) (hfits : o.Fits)
    (attachment : Attachment) :
    (o.survey attachment).2 = (o.nodes.filter Node.isType).map Node.asType := by
  rw [hfits.survey_outermostTypes h.distinct]
  refine congrArg _ (List.filter_congr fun n hn => ?_)
  cases ht : n.isType with
  | false => rfl
  | true =>
    have hd : n.declares = true := by rw [Node.declares_eq, ht, Bool.or_true]
    simp [h.not_covered n hn hd]

/-- The name and the signature of a routine. -/
def Routine.title (r : Routine) : Text × Text :=
  (r.name, r.signature)

/-- What a node declares, and the byte at which it starts. -/
def Node.entry (n : Node) : Option Declared × Nat :=
  (n.declared?, n.span.start)

/-- The declarations of an outline, in order. -/
def Outline.entries (o : Outline) : List (Option Declared × Nat) :=
  (o.nodes.filter Node.declares).map Node.entry

/-- The declarations of an outline are those among the places that it is made of. -/
theorem Outline.entries_ofNodes (source : Text) (nodes : List Node) :
    (Outline.ofNodes source nodes.reverse).entries.Perm
      ((nodes.filter Node.declares).map Node.entry) :=
  (((List.mergeSort_perm _ _).trans (List.reverse_perm _)).filter _).map _

/-- The title of a routine that is declared. -/
def Declared.title? (d : Declared) : Option (Text × Text) :=
  if d.isRoutine then some (d.name, d.signature) else none

/-- The type that is declared. -/
def Declared.asType? (d : Declared) : Option TypeDecl :=
  if d.isRoutine then none else some ⟨d.name, d.signature⟩

/-- A flat outline is surveyed by its declarations. -/
theorem Outline.Flat.survey_entries {o : Outline} (h : o.Flat) (hfits : o.Fits)
    (attachment : Attachment) :
    (o.survey attachment).1.map Routine.title =
        o.entries.filterMap (fun e => e.1.bind Declared.title?) ∧
      (o.survey attachment).2 = o.entries.filterMap (fun e => e.1.bind Declared.asType?) := by
  have hnodes : ∀ nodes : List Node,
      (nodes.filter Node.isRoutine).map (fun n => (n.name, n.signature)) =
        ((nodes.filter Node.declares).map Node.entry).filterMap
          (fun e => e.1.bind Declared.title?) ∧
      (nodes.filter Node.isType).map Node.asType =
        ((nodes.filter Node.declares).map Node.entry).filterMap
          (fun e => e.1.bind Declared.asType?) := by
    intro nodes
    induction nodes with
    | nil => exact ⟨rfl, rfl⟩
    | cons n nodes ih =>
      obtain ⟨kind, signature, span⟩ := n
      cases kind with
      | doc => exact ih
      | typeDecl name => exact ⟨ih.1, congrArg (_ :: ·) ih.2⟩
      | routine name b => exact ⟨congrArg (_ :: ·) ih.1, ih.2⟩
  refine ⟨?_, (h.survey_all_types hfits attachment).trans (hnodes o.nodes).2⟩
  have hkeys := congrArg (List.map fun key : Text × Text × Span => (key.1, key.2.1))
    (h.survey_all hfits attachment)
  rw [List.map_map, List.map_map] at hkeys
  exact hkeys.trans (hnodes o.nodes).1

/-- **Flat outlines with the same declarations are surveyed alike**. -/
theorem Outline.Flat.survey_congr {o o' : Outline} (h : o.Flat) (hfits : o.Fits) (h' : o'.Flat)
    (hfits' : o'.Fits) (hsame : o.entries.Perm o'.entries) (attachment : Attachment) :
    (o.survey attachment).1.map Routine.title = (o'.survey attachment).1.map Routine.title ∧
      (o.survey attachment).2 = (o'.survey attachment).2 := by
  have hsorted : ∀ {o : Outline}, o.Flat → o.entries.Pairwise fun e f => e.2 < f.2 := by
    intro o h
    refine List.pairwise_map.2 (List.pairwise_filter.2 (h.distinct.imp ?_))
    exact fun {m n} hlt hm hn => hlt hm hn
  have heq : o.entries = o'.entries :=
    hsame.eq_of_pairwise (fun e f _ _ hef hfe => absurd hef (Nat.lt_asymm hfe)) (hsorted h)
      (hsorted h')
  obtain ⟨hroutines, htypes⟩ := h.survey_entries hfits attachment
  obtain ⟨hroutines', htypes'⟩ := h'.survey_entries hfits' attachment
  rw [hroutines, hroutines', htypes, htypes', heq]
  exact ⟨rfl, rfl⟩

/-- Lists that show the same correspond, element by element. -/
theorem forall₂_of_map_eq_filterMap {α β γ : Type} {f : α → γ} {g : β → Option γ}
    {R : α → β → Prop} {l : List α} {u : List β} (h : l.map f = u.filterMap g)
    (hg : ∀ b ∈ u, (g b).isSome = true)
    (hR : ∀ a ∈ l, ∀ b ∈ u, g b = some (f a) → R a b) : List.Forall₂ R l u := by
  induction u generalizing l with
  | nil =>
    rw [List.map_eq_nil_iff.1 h]
    exact .nil
  | cons b u ih =>
    obtain ⟨c, hc⟩ := Option.isSome_iff_exists.1 (hg b List.mem_cons_self)
    rw [List.filterMap_cons_some hc] at h
    obtain ⟨a, l, rfl, rfl, hl⟩ := List.map_eq_cons_iff.1 h
    exact .cons (hR a List.mem_cons_self b List.mem_cons_self hc)
      (ih hl (fun b hb => hg b (List.mem_cons_of_mem _ hb))
        fun a ha b hb => hR a (List.mem_cons_of_mem _ ha) b (List.mem_cons_of_mem _ hb))

/-! ## Surveys of nodes that do not cross -/

namespace WellNested

variable {o : Outline}

/-- **Without crossing, the survey finds the routines inside no other one**. -/
theorem survey_routines (h : WellNested o.nodes) (hfits : o.Fits) (attachment : Attachment) :
    (o.survey attachment).1.map Routine.key =
      (o.nodes.filter fun n => n.isRoutine && !n.isInner o.nodes).map Node.key := by
  have hle := fun n hn => (hfits.nodes n hn).span.ordered
  rw [hfits.survey_outermost ((h.ascending hfits.sorted).imp fun h _ _ => h)]
  refine congrArg _ (List.filter_congr fun n hn => ?_)
  cases hr : n.isRoutine with
  | false => rfl
  | true =>
    have hiff := h.covered_iff_isInner hle hn (Node.declares_of_isRoutine hr)
    rw [Bool.true_and, Bool.true_and, Bool.eq_iff_iff]
    simp [hiff]

/-- **Without crossing, the survey finds the types outside routines**. -/
theorem survey_types (h : WellNested o.nodes) (hfits : o.Fits) (attachment : Attachment) :
    (o.survey attachment).2 =
      (o.nodes.filter fun n => n.isType && !n.isInner o.nodes).map Node.asType := by
  have hle := fun n hn => (hfits.nodes n hn).span.ordered
  rw [hfits.survey_outermostTypes ((h.ascending hfits.sorted).imp fun h _ _ => h)]
  refine congrArg _ (List.filter_congr fun n hn => ?_)
  cases ht : n.isType with
  | false => rfl
  | true =>
    have hd : n.declares = true := by rw [Node.declares_eq, ht, Bool.or_true]
    have hiff := h.covered_iff_isInner hle hn hd
    rw [Bool.true_and, Bool.true_and, Bool.eq_iff_iff]
    simp [hiff]

end WellNested

/-- **What a survey finds among any nodes of a text**. It cuts out no more than parts of the text,
and the routines that it finds never overlap, even if ranges cross. If none do, it finds the
routines that lie inside no other routine, and the types that lie inside no routine: each once, in
the order of the nodes, and as its node says. -/
theorem Outline.survey_outside_routines {source : Text} {nodes : List Node}
    (hnodes : ∀ n ∈ nodes, n.Fits source) (attachment : Attachment) :
    let o := Outline.ofNodes source nodes
    let routines := (o.survey attachment).1
    let types := (o.survey attachment).2
    (∀ span ∈ Walk.slicesOver source attachment ⟨[], none, [], []⟩ o.nodes, span.Fits source) ∧
      (∀ r ∈ routines, r.Fits source) ∧
      (routines.Pairwise fun r s => r.span.stop ≤ s.span.start) ∧
      (WellNested nodes →
        o.nodes.Perm nodes ∧ (o.nodes.Pairwise fun m n => m.span.start < n.span.start) ∧
          routines.map Routine.key =
            (o.nodes.filter fun n => n.isRoutine && !n.isInner nodes).map Node.key ∧
          types = (o.nodes.filter fun n => n.isType && !n.isInner nodes).map Node.asType) := by
  intro o routines types
  have hfits : o.Fits := Outline.ofNodes_fits hnodes
  have hperm : o.nodes.Perm nodes := List.mergeSort_perm _ _
  refine ⟨hfits.slices_fit attachment, fun r hr => ?_, ?_, fun hnested => ?_⟩
  · exact (hfits.survey_stands attachment r hr).fits hfits.nodes
  · refine (hfits.survey_apart attachment).imp fun {r s} hbefore => ?_
    rw [Routine.Before, Routine.Fits.extent_stop] at hbefore
    exact Nat.le_trans hbefore (Routine.Fits.extent_start_le s)
  · have hsorted : WellNested o.nodes := hnested.perm hperm.symm
    have hinner : ∀ n : Node, n.isInner o.nodes = n.isInner nodes := fun n => hperm.any_eq
    simp only [← hinner]
    exact ⟨hperm, hsorted.ascending hfits.sorted, hsorted.survey_routines hfits attachment,
      hsorted.survey_types hfits attachment⟩

/-- A class with a method that declares another class, and a method behind it. -/
def nestedText : Text :=
  ("class A:\n    def f(x):\n        class B:\n            def g(y): pass\n        return B\n\n" ++
    "    def h(): pass\n").toList

/-- The nodes of `nestedText`, in the order in which they end. -/
def nestedNodes : List Node :=
  [.routine "g".toList "def g(y)".toList ⟨52, 66⟩ 61,
    .typeDecl "B".toList "class B".toList ⟨31, 66⟩,
    .routine "f".toList "def f(x)".toList ⟨13, 83⟩ 22,
    .routine "h".toList "def h()".toList ⟨89, 102⟩ 97,
    .typeDecl "A".toList "class A".toList ⟨0, 102⟩]

/-- In `nestedText` the inner class and its method belong to `f`. -/
theorem survey_outside_routines_nestedNodes :
    (∀ n ∈ nestedNodes, n.Fits nestedText) ∧ WellNested nestedNodes ∧
      ((Outline.ofNodes nestedText nestedNodes).survey .firstStatement).1.map Routine.key =
        [("f".toList, "def f(x)".toList, ⟨13, 83⟩), ("h".toList, "def h()".toList, ⟨89, 102⟩)] ∧
      ((Outline.ofNodes nestedText nestedNodes).survey .firstStatement).2 =
        [⟨"A".toList, "class A".toList⟩] := by
  have hfits : ∀ n ∈ nestedNodes, n.Fits nestedText := by decide +kernel
  have hnested : WellNested nestedNodes := ⟨by decide, by decide⟩
  have hnodes : (Outline.ofNodes nestedText nestedNodes).nodes =
      sortBy (·.span.start) nestedNodes := mergeSort_eq_sortBy nestedNodes
  obtain ⟨-, -, -, h⟩ := Outline.survey_outside_routines hfits .firstStatement
  obtain ⟨-, -, hroutines, htypes⟩ := h hnested
  rw [hnodes] at hroutines htypes
  exact ⟨hfits, hnested, hroutines.trans (by decide), htypes.trans (by decide)⟩

end Scholia.Source
