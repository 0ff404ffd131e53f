import Scholia.Proofs.Source.Walk
import Scholia.Source.Fault
/-!
# Routines inside bodies

A node is *covered* if it starts inside a routine, or inside a declaration that is covered itself.
The survey finds exactly the routines that are not covered, each once and in the order of their
starts.

Nothing is asked of the ranges but that no two declarations start at the same byte. In particular
they may cross: what starts inside a routine and goes on behind it covers what it holds there.
-/

namespace Scholia.Source

/-- What is declared, and whether it is a routine. -/
structure Declared where
  isRoutine : Bool
  name : Text
  signature : Text
  deriving Repr, DecidableEq

namespace Node

/-- Whether a node is a routine. -/
def isRoutine (n : Node) : Bool :=
  match n.kind with
  | .routine .. => true
  | _ => false

/-- Whether a node declares something. -/
def declares (n : Node) : Bool :=
  match n.kind with
  | .doc => false
  | _ => true

/-- The name of what is declared. -/
def name (n : Node) : Text :=
  match n.kind with
  | .typeDecl name => name
  | .routine name _ => name
  | .doc => []

theorem declares_of_isRoutine {n : Node} (h : n.isRoutine = true) : n.declares = true := by
  unfold isRoutine at h
  unfold declares
  split at h
  · next hk => rw [hk]
  · cases h

/-- What a node declares. -/
def declared? (n : Node) : Option Declared :=
  match n.kind with
  | .typeDecl name => some ⟨false, name, n.signature⟩
  | .routine name _ => some ⟨true, name, n.signature⟩
  | .doc => none

theorem countP_declared? (nodes : List Node) :
    (nodes.filterMap declared?).countP Declared.isRoutine = nodes.countP isRoutine := by
  have hnode : ∀ n : Node, (n.declared?.map Declared.isRoutine).getD false = n.isRoutine := by
    intro n
    unfold declared? isRoutine
    cases n.kind <;> rfl
  rw [List.countP_filterMap]
  exact List.countP_congr fun n _ => by rw [hnode]

/-- One node starts inside another one. -/
def Holds (m n : Node) : Prop :=
  m.span.start < n.span.start ∧ n.span.start < m.span.stop

/-- What a node says of a routine. -/
def key (n : Node) : Text × Text × Span :=
  (n.name, n.signature, n.span)

end Node

/-- What a routine has of its node. -/
def Routine.key (r : Routine) : Text × Text × Span :=
  (r.name, r.signature, r.span)

/-- A node starts inside a body. -/
inductive Covered (nodes : List Node) : Node → Prop
  | routine {m n : Node} (hm : m ∈ nodes) (hr : m.isRoutine = true) (h : m.Holds n) :
    Covered nodes n
  | inner {m n : Node} (hm : m ∈ nodes) (hd : m.declares = true) (hc : Covered nodes m)
    (h : m.Holds n) : Covered nodes n

/-- What starts inside a node is covered. -/
def IsBody (nodes : List Node) (m : Node) : Prop :=
  m.isRoutine = true ∨ Covered nodes m

theorem covered_iff {nodes : List Node} {n : Node} :
    Covered nodes n ↔ ∃ m ∈ nodes, m.declares = true ∧ IsBody nodes m ∧ m.Holds n := by
  constructor
  · intro h
    cases h with
    | routine hm hr h => exact ⟨_, hm, Node.declares_of_isRoutine hr, .inl hr, h⟩
    | inner hm hd hc h => exact ⟨_, hm, hd, .inr hc, h⟩
  · rintro ⟨m, hm, hd, hr | hc, h⟩
    · exact .routine hm hr h
    · exact .inner hm hd hc h

theorem Covered.mono {nodes more : List Node} {n : Node} (h : Covered nodes n)
    (hsub : ∀ m ∈ nodes, m ∈ more) : Covered more n := by
  induction h with
  | routine hm hr h => exact .routine (hsub _ hm) hr h
  | inner hm hd _ h ih => exact .inner (hsub _ hm) hd ih h

/-- Whether a node is covered is told by what starts before it. -/
theorem covered_append {nodes later : List Node} {n : Node}
    (h : ∀ l ∈ later, n.span.start ≤ l.span.start) :
    Covered (nodes ++ later) n ↔ Covered nodes n := by
  refine ⟨fun hc => ?_, fun hc => hc.mono fun m hm => List.mem_append_left _ hm⟩
  have hmem : ∀ m n : Node, m ∈ nodes ++ later → (∀ l ∈ later, n.span.start ≤ l.span.start) →
      m.Holds n → m ∈ nodes := by
    intro m n hm hn hholds
    rcases List.mem_append.1 hm with hm | hm
    · exact hm
    · have := hn m hm
      have := hholds.1
      omega
  induction hc with
  | @routine m n hm hr hholds => exact .routine (hmem m n hm h hholds) hr hholds
  | @inner m n hm hd _ hholds ih =>
    refine .inner (hmem m n hm h hholds) hd (ih fun l hl => ?_) hholds
    have := h l hl
    have := hholds.1
    omega

theorem isBody_append {nodes later : List Node} {n : Node}
    (h : ∀ l ∈ later, n.span.start ≤ l.span.start) :
    IsBody (nodes ++ later) n ↔ IsBody nodes n :=
  or_congr Iff.rfl (covered_append h)

/-! ## The walk -/

open Classical in
/-- The routines among some nodes that are not covered by them. -/
noncomputable def outermost (nodes : List Node) : List Node :=
  nodes.filter fun n => n.isRoutine && !decide (Covered nodes n)

open Classical in
/-- A node behind some others covers none of them. -/
theorem filter_uncovered_append {nodes : List Node} {n : Node}
    (h : ∀ m ∈ nodes, m.span.start ≤ n.span.start) (p : Node → Bool) :
    ((nodes ++ [n]).filter fun m => p m && !decide (Covered (nodes ++ [n]) m)) =
      (nodes.filter fun m => p m && !decide (Covered nodes m)) ++
        [n].filter fun m => p m && !decide (Covered nodes m) := by
  have hold : ∀ m ∈ nodes ++ [n], Covered (nodes ++ [n]) m ↔ Covered nodes m := by
    intro m hm
    refine covered_append fun l hl => ?_
    rw [List.mem_singleton.1 hl]
    rcases List.mem_append.1 hm with hm | hm
    · exact h m hm
    · exact List.mem_singleton.1 hm ▸ Nat.le_refl _
  rw [← List.filter_append]
  refine List.filter_congr fun m hm => ?_
  rw [decide_eq_decide.2 (hold m hm)]

open Classical in
theorem outermost_append_singleton {nodes : List Node} {n : Node}
    (h : ∀ m ∈ nodes, m.span.start ≤ n.span.start) :
    (¬ (n.isRoutine = true ∧ ¬ Covered nodes n) → outermost (nodes ++ [n]) = outermost nodes) ∧
      (n.isRoutine = true → ¬ Covered nodes n →
        outermost (nodes ++ [n]) = outermost nodes ++ [n]) := by
  have hsame : outermost (nodes ++ [n]) =
      outermost nodes ++ [n].filter fun n => n.isRoutine && !decide (Covered nodes n) :=
    filter_uncovered_append h Node.isRoutine
  constructor
  · intro hn
    rw [hsame, List.filter_cons_of_neg, List.filter_nil, List.append_nil]
    simpa using hn
  · intro hr hc
    rw [hsame, List.filter_cons_of_pos, List.filter_nil]
    simpa using ⟨hr, hc⟩

/-- What the walk has made of the nodes before a byte. -/
structure Walk.Traces (source : Text) (before : List Node) (pos : Nat) (w : Walk) : Prop where
  nested : Scope.Nested w.scopes
  scopes : ∀ s ∈ w.scopes, ∃ m ∈ before, m.declares = true ∧ s.stop = m.span.stop ∧
    (s.isBody = true ↔ IsBody before m)
  opened : ∀ m ∈ before, m.declares = true → pos < m.span.stop →
    ∃ s ∈ w.scopes, s.stop = m.span.stop ∧ (s.isBody = true ↔ IsBody before m)
  found : (w.found source).map Routine.key = (outermost before).map Node.key

/-- If some scope is a body, the innermost one is. -/
theorem Scope.Nested.isBody_head {scope : Scope} {outer : List Scope}
    (h : Nested (scope :: outer)) (hb : inBody (scope :: outer) = true) : scope.isBody = true := by
  cases scope with
  | typeDecl stop =>
    have hb : inBody outer = true := hb
    rw [h.1] at hb
    cases hb
  | inner stop => rfl
  | routine name signature span b comment => rfl

namespace Walk.Traces

variable {source : Text} {before : List Node} {pos : Nat} {w : Walk} {node : Node}

theorem initial (source : Text) : Walk.Traces source [] 0 ⟨[], none, [], []⟩ where
  nested := trivial
  scopes := by simp
  opened := by simp
  found := by simp [Walk.found, outermost]

/-- Closing what ends before a byte loses nothing that goes on. -/
theorem close (h : w.Traces source before pos) {next : Nat} (hpos : pos ≤ next) :
    (w.close source fun scope => scope.stop ≤ next).Traces source before next := by
  have hscopes : (w.close source fun scope => scope.stop ≤ next).scopes =
      w.scopes.dropWhile fun scope => decide (scope.stop ≤ next) := by
    simp only [Walk.close, Walk.closeWhile_eq]
  constructor
  · rw [hscopes]
    exact h.nested.dropWhile _
  · rw [hscopes]
    exact fun s hs => h.scopes s ((List.dropWhile_suffix _).subset hs)
  · rw [hscopes]
    intro m hm hd hlt
    obtain ⟨s, hs, hstop, hbody⟩ := h.opened m hm hd (Nat.lt_of_le_of_lt hpos hlt)
    refine ⟨s, ?_, hstop, hbody⟩
    rw [← List.takeWhile_append_dropWhile (p := fun scope : Scope => decide (scope.stop ≤ next))
      (l := w.scopes), List.mem_append] at hs
    rcases hs with hs | hs
    · have := List.all_eq_true.1 List.all_takeWhile s hs
      simp only [decide_eq_true_eq] at this
      omega
    · exact hs
  · rw [Walk.found_close]
    exact h.found

/-- **A body is open exactly where a node is covered**. -/
theorem inBody_iff (h : w.Traces source before pos)
    (hstart : ∀ m ∈ before, m.declares = true → m.span.start < node.span.start)
    (hpos : pos ≤ node.span.start) :
    Scope.inBody (w.close source fun scope => scope.stop ≤ node.span.start).scopes = true ↔
      Covered before node := by
  have hscopes : (w.close source fun scope => scope.stop ≤ node.span.start).scopes =
      w.scopes.dropWhile fun scope => decide (scope.stop ≤ node.span.start) := by
    simp only [Walk.close, Walk.closeWhile_eq]
  have hc := h.close hpos
  rw [covered_iff]
  constructor
  · intro hb
    cases hs : (w.close source fun scope => scope.stop ≤ node.span.start).scopes with
    | nil =>
      rw [hs] at hb
      cases hb
    | cons scope outer =>
      have hbody : scope.isBody = true := by
        have hnested := hc.nested
        rw [hs] at hb hnested
        exact hnested.isBody_head hb
      obtain ⟨m, hm, hd, hstop, hiff⟩ := hc.scopes scope (hs ▸ List.mem_cons_self)
      have hlt : ¬ scope.stop ≤ node.span.start := by
        have := List.head?_dropWhile_not (fun scope : Scope => decide (scope.stop ≤ node.span.start))
          w.scopes
        rw [← hscopes, hs] at this
        simpa using this
      exact ⟨m, hm, hd, hiff.1 hbody, hstart m hm hd, by omega⟩
  · rintro ⟨m, hm, hd, hbody, hholds⟩
    obtain ⟨s, hs, -, hiff⟩ := hc.opened m hm hd hholds.2
    exact List.any_eq_true.2 ⟨s, hs, hiff.2 hbody⟩

/-- A node that opens nothing. -/
theorem skip (h : w.Traces source before pos) (hdoc : node.declares = false)
    (hstart : ∀ m ∈ before, m.span.start ≤ node.span.start) :
    w.Traces source (before ++ [node]) pos := by
  have hbody : ∀ m ∈ before, IsBody (before ++ [node]) m ↔ IsBody before m := fun m hm =>
    isBody_append fun l hl => List.mem_singleton.1 hl ▸ hstart m hm
  have hnot : ¬ (node.isRoutine = true ∧ ¬ Covered before node) := by
    rintro ⟨hr, -⟩
    rw [Node.declares_of_isRoutine hr] at hdoc
    cases hdoc
  refine ⟨h.nested, fun s hs => ?_, fun m hm hd hlt => ?_, ?_⟩
  · obtain ⟨m, hm, hd, hstop, hiff⟩ := h.scopes s hs
    exact ⟨m, List.mem_append_left _ hm, hd, hstop, hiff.trans (hbody m hm).symm⟩
  · rcases List.mem_append.1 hm with hm | hm
    · obtain ⟨s, hs, hstop, hiff⟩ := h.opened m hm hd hlt
      exact ⟨s, hs, hstop, hiff.trans (hbody m hm).symm⟩
    · rw [List.mem_singleton.1 hm, hdoc] at hd
      cases hd
  · rw [(outermost_append_singleton hstart).1 hnot]
    exact h.found

/-- A node that opens a scope. -/
theorem push (h : w.Traces source before pos) {scope : Scope} {w' : Walk}
    (hstart : ∀ m ∈ before, m.span.start ≤ node.span.start) (hd : node.declares = true)
    (hw' : w'.scopes = scope :: w.scopes) (hnested : Scope.Nested (scope :: w.scopes))
    (hstop : scope.stop = node.span.stop) (hbody : scope.isBody = true ↔ IsBody before node)
    (hfound : (w'.found source).map Routine.key = (outermost (before ++ [node])).map Node.key) :
    w'.Traces source (before ++ [node]) pos := by
  have hsame : ∀ m ∈ before ++ [node], IsBody (before ++ [node]) m ↔ IsBody before m := by
    intro m hm
    refine isBody_append fun l hl => ?_
    rw [List.mem_singleton.1 hl]
    rcases List.mem_append.1 hm with hm | hm
    · exact hstart m hm
    · exact List.mem_singleton.1 hm ▸ Nat.le_refl _
  have hnode : node ∈ before ++ [node] := List.mem_append_right _ (List.mem_singleton_self node)
  refine ⟨hw' ▸ hnested, fun s hs => ?_, fun m hm hdm hlt => ?_, hfound⟩
  · rw [hw'] at hs
    rcases List.mem_cons.1 hs with rfl | hs
    · exact ⟨node, hnode, hd, hstop, hbody.trans (hsame node hnode).symm⟩
    · obtain ⟨m, hm, hdm, hstop, hiff⟩ := h.scopes s hs
      have hm' := List.mem_append_left [node] hm
      exact ⟨m, hm', hdm, hstop, hiff.trans (hsame m hm').symm⟩
  · rw [hw']
    rcases List.mem_append.1 hm with hm' | hm'
    · obtain ⟨s, hs, hstop, hiff⟩ := h.opened m hm' hdm hlt
      exact ⟨s, List.mem_cons_of_mem _ hs, hstop, hiff.trans (hsame m hm).symm⟩
    · rw [List.mem_singleton.1 hm']
      exact ⟨scope, List.mem_cons_self, hstop, hbody.trans (hsame node hnode).symm⟩

/-- A literal at the head of a body changes nothing but the comment there. -/
theorem takeLiteral (h : w.Traces source before pos) {scope : Scope} {outer : List Scope}
    (hscopes : w.scopes = scope :: outer) (span : Span) :
    Walk.Traces source before pos
      { w with scopes := scope.withLiteral source span :: outer } := by
  have hsame : (scope.withLiteral source span).stop = scope.stop ∧
      (scope.withLiteral source span).isBody = scope.isBody ∧
      ((scope.withLiteral source span).closed? source).map Routine.key =
        (scope.closed? source).map Routine.key ∧
      (Scope.Nested (scope :: outer) → Scope.Nested (scope.withLiteral source span :: outer)) := by
    unfold Scope.withLiteral
    split
    · exact ⟨rfl, rfl, rfl, id⟩
    · exact ⟨rfl, rfl, rfl, id⟩
  obtain ⟨hstop, hbody, hclosed, hnest⟩ := hsame
  have hcons : ∀ s : Scope, ((s :: outer).filterMap (Scope.closed? source)).map Routine.key =
      ((s.closed? source).map Routine.key).toList ++
        (outer.filterMap (Scope.closed? source)).map Routine.key := by
    intro s
    rw [List.filterMap_cons]
    cases s.closed? source <;> rfl
  refine ⟨hnest (hscopes ▸ h.nested), fun s hmem => ?_, fun m hm hd hlt => ?_, ?_⟩
  · rcases List.mem_cons.1 hmem with rfl | hmem
    · rw [hstop, hbody]
      exact h.scopes scope (hscopes ▸ List.mem_cons_self)
    · exact h.scopes s (hscopes ▸ List.mem_cons_of_mem _ hmem)
  · obtain ⟨s, hmem, hsstop, hiff⟩ := h.opened m hm hd hlt
    rw [hscopes] at hmem
    rcases List.mem_cons.1 hmem with rfl | hmem
    · exact ⟨_, List.mem_cons_self, hstop.trans hsstop, hbody ▸ hiff⟩
    · exact ⟨s, List.mem_cons_of_mem _ hmem, hsstop, hiff⟩
  · rw [← h.found]
    simp only [Walk.found, hscopes, List.map_append, hcons, hclosed]

/-- **One place keeps what the walk has made of the nodes**. -/
theorem step (h : w.Traces source before pos) (attachment : Attachment)
    (hle : ∀ m ∈ before, m.span.start ≤ node.span.start)
    (hlt : ∀ m ∈ before, m.declares = true → node.declares = true →
      m.span.start < node.span.start)
    (hpos : pos ≤ node.span.start) :
    (w.step source attachment node).Traces source (before ++ [node]) node.span.start := by
  have hc := h.close hpos
  have hin : node.declares = true →
      (Scope.inBody (w.close source fun scope => scope.stop ≤ node.span.start).scopes = true ↔
        Covered before node) := fun hd =>
    h.inBody_iff (fun m hm hdm => hlt m hm hdm hd) hpos
  unfold Walk.step
  generalize (w.close source fun scope => scope.stop ≤ node.span.start) = w' at hc hin
  obtain ⟨kind, signature, span⟩ := node
  have hinner (hd : Node.declares ⟨kind, signature, span⟩ = true)
      (hb : Scope.inBody w'.scopes = true) :
      Walk.Traces source (before ++ [⟨kind, signature, span⟩]) span.start
        { w' with pending := none, scopes := .inner span.stop :: w'.scopes } := by
    have hcov := (hin hd).1 hb
    refine hc.push hle hd rfl ⟨hb, hc.nested⟩ rfl (iff_of_true rfl (.inr hcov)) ?_
    rw [(outermost_append_singleton hle).1 fun hn => hn.2 hcov]
    exact hc.found
  cases kind with
  | doc =>
    have hs : w'.Traces source (before ++ [⟨.doc, signature, span⟩]) span.start := hc.skip rfl hle
    cases attachment with
    | preceding =>
      simp only [Walk.enter]
      split
      · exact hs
      · exact ⟨hs.nested, hs.scopes, hs.opened, hs.found⟩
    | firstStatement =>
      cases hscopes : w'.scopes with
      | nil =>
        simp only [Walk.enter, hscopes]
        exact hs
      | cons scope outer =>
        simp only [Walk.enter, hscopes]
        exact hs.takeLiteral hscopes span
  | typeDecl name =>
    cases hb : Scope.inBody w'.scopes with
    | true =>
      simp only [Walk.enter, hb, if_true]
      exact hinner rfl hb
    | false =>
      simp only [Walk.enter, hb, if_false, Bool.false_eq_true]
      have hcov : ¬ Covered before ⟨.typeDecl name, signature, span⟩ := fun hcov => by
        rw [(hin rfl).2 hcov] at hb
        cases hb
      have hnested : Scope.Nested (.typeDecl span.stop :: w'.scopes) := ⟨hb, hc.nested⟩
      refine hc.push hle rfl rfl hnested rfl ?_ ?_
      · refine iff_of_false (by simp [Scope.isBody]) ?_
        rintro (hr | hcov')
        · cases hr
        · exact hcov hcov'
      · rw [(outermost_append_singleton hle).1 (by simp [Node.isRoutine])]
        exact hc.found
  | routine name b =>
    cases hb : Scope.inBody w'.scopes with
    | true =>
      simp only [Walk.enter, hb, if_true]
      exact hinner rfl hb
    | false =>
      simp only [Walk.enter, hb, if_false, Bool.false_eq_true]
      have hcov : ¬ Covered before ⟨.routine name b, signature, span⟩ := fun hcov => by
        rw [(hin rfl).2 hcov] at hb
        cases hb
      have hnone : w'.scopes.filterMap (Scope.closed? source) = [] :=
        Scope.filterMap_closed?_of_not_inBody hb
      refine hc.push hle rfl rfl ⟨hb, hc.nested⟩ rfl (iff_of_true rfl (.inl rfl)) ?_
      have hfound := hc.found
      rw [Walk.found, hnone, List.append_nil] at hfound
      rw [(outermost_append_singleton hle).2 rfl hcov, List.map_append, ← hfound]
      simp only [Walk.found, List.filterMap_cons, hnone, Scope.closed?, List.map_append]
      rfl

theorem foldl (h : w.Traces source before pos) (attachment : Attachment) (nodes : List Node)
    (hsorted : (before ++ nodes).Pairwise fun m n => m.span.start ≤ n.span.start)
    (hdistinct : (before ++ nodes).Pairwise fun m n => m.declares = true → n.declares = true →
      m.span.start < n.span.start)
    (hpos : ∀ n ∈ nodes, pos ≤ n.span.start) :
    ∃ last, (nodes.foldl (Walk.step source attachment) w).Traces source (before ++ nodes) last := by
  induction nodes generalizing w pos before with
  | nil =>
    rw [List.append_nil]
    exact ⟨pos, h⟩
  | cons node nodes ih =>
    have hle := (List.pairwise_append.1 hsorted).2.2
    have hlt := (List.pairwise_append.1 hdistinct).2.2
    have hstep := h.step attachment (fun m hm => hle m hm node List.mem_cons_self)
      (fun m hm => hlt m hm node List.mem_cons_self) (hpos node List.mem_cons_self)
    rw [List.append_cons] at hsorted hdistinct ⊢
    refine ih hstep hsorted hdistinct ?_
    rw [← List.append_cons] at hsorted
    exact (List.pairwise_cons.1 (List.pairwise_append.1 hsorted).2.1).1

end Walk.Traces

/-- **The survey finds the routines that are not covered**, each once and in order. -/
theorem Outline.Fits.survey_outermost {o : Outline} (h : o.Fits)
    (hdistinct : o.nodes.Pairwise fun m n => m.declares = true → n.declares = true →
      m.span.start < n.span.start) (attachment : Attachment) :
    (o.survey attachment).1.map Routine.key = (outermost o.nodes).map Node.key := by
  obtain ⟨last, htraces⟩ := (Walk.Traces.initial o.source).foldl attachment o.nodes h.sorted
    hdistinct (fun _ _ => Nat.zero_le _)
  obtain ⟨-, w, -, hw, he⟩ := h.survey_last attachment
  rw [he, hw]
  exact htraces.found

/-! ## Where no routine holds a declaration -/

/-- An outline in which no declaration starts inside a routine, and no two start at one byte. -/
structure Outline.Flat (o : Outline) : Prop where
  distinct : o.nodes.Pairwise fun m n => m.declares = true → n.declares = true →
    m.span.start < n.span.start
  flat : ∀ m ∈ o.nodes, m.isRoutine = true → ∀ n ∈ o.nodes, n.declares = true → ¬ m.Holds n

/-- In a flat outline no declaration is covered. -/
theorem Outline.Flat.not_covered {o : Outline} (h : o.Flat) (n : Node) (hn : n ∈ o.nodes)
    (hd : n.declares = true) : ¬ Covered o.nodes n := by
  intro hc
  induction hc with
  | routine hm hr hholds => exact h.flat _ hm hr _ hn hd hholds
  | inner hm hd' _ _ ih => exact ih hm hd'

/-- **In a flat outline the survey finds every routine**, in order. -/
theorem Outline.Flat.survey_all {o : Outline} (h : o.Flat) (hfits : o.Fits)
    (attachment : Attachment) :
    (o.survey attachment).1.map Routine.key = (o.nodes.filter Node.isRoutine).map Node.key := by
  have hall : outermost o.nodes = o.nodes.filter Node.isRoutine := by
    unfold outermost
    refine List.filter_congr fun n hn => ?_
    cases hr : n.isRoutine with
    | false => rfl
    | true => simp [h.not_covered n hn (Node.declares_of_isRoutine hr)]
  rw [hfits.survey_outermost h.distinct attachment, hall]

theorem Outline.Flat.length_survey {o : Outline} (h : o.Flat) (hfits : o.Fits)
    (attachment : Attachment) : (o.survey attachment).1.length = o.nodes.countP Node.isRoutine := by
  have hkeys := congrArg List.length (h.survey_all hfits attachment)
  rw [List.length_map, List.length_map] at hkeys
  rw [hkeys, List.countP_eq_length_filter]

/-- The number of routines that are found in a text with this outline, none if it has none. -/
def surveyed (attachment : Attachment) : Except Fault Outline → Nat
  | .ok o => (o.survey attachment).1.length
  | .error _ => 0

/-- A declaration that has ended lies before a later one, or inside a type that ends later. -/
def Node.Ends (later earlier : Node) : Prop :=
  earlier.span.stop ≤ later.span.start ∨
    later.isRoutine = false ∧ later.span.start < earlier.span.start

/-- Declarations that end one after the other make a flat outline. -/
theorem Outline.ofNodes_flat {source : Text} {nodes : List Node}
    (hpos : ∀ n ∈ nodes.filter Node.declares, n.span.start < n.span.stop)
    (hends : (nodes.filter Node.declares).Pairwise Node.Ends) (hfits : ∀ n ∈ nodes, n.Fits source) :
    (Outline.ofNodes source nodes.reverse).Flat := by
  let apart (m n : Node) : Prop := m.declares = true → n.declares = true →
    m.span.start ≠ n.span.start ∧ (m.isRoutine = true → ¬ m.Holds n) ∧
      (n.isRoutine = true → ¬ n.Holds m)
  have hsymm : ∀ {m n : Node}, apart m n → apart n m := fun h hn hm =>
    ⟨(h hm hn).1.symm, (h hm hn).2.2, (h hm hn).2.1⟩
  have hfound : nodes.Pairwise apart := by
    have hmem := List.Pairwise.and_mem.1 hends
    refine (List.pairwise_filter.1 hmem).imp fun {later earlier} h hl he => ?_
    obtain ⟨hlater, hearlier, hends⟩ := h hl he
    have hl := hpos later hlater
    have he := hpos earlier hearlier
    unfold Node.Holds
    rcases hends with hle | ⟨htype, hlt⟩
    · exact ⟨by omega, fun _ h => by omega, fun _ h => by omega⟩
    · refine ⟨by omega, fun hr => ?_, fun _ h => by omega⟩
      rw [htype] at hr
      cases hr
  have hperm : (Outline.ofNodes source nodes.reverse).nodes.Perm nodes :=
    (List.mergeSort_perm _ _).trans nodes.reverse_perm
  have hall : (Outline.ofNodes source nodes.reverse).nodes.Pairwise apart :=
    hperm.symm.pairwise hfound hsymm
  have hofNodes : (Outline.ofNodes source nodes.reverse).Fits :=
    Outline.ofNodes_fits fun n hn => hfits n (List.mem_reverse.1 hn)
  have hsorted := hofNodes.sorted
  refine ⟨(hall.and hsorted).imp fun {m n} h hm hn => ?_, fun m hm hr n hn hd => ?_⟩
  · exact Nat.lt_of_le_of_ne h.2 (h.1 hm hn).1
  · have hself : ∀ l ∈ (Outline.ofNodes source nodes.reverse).nodes,
        l.isRoutine = true → l.declares = true → ¬ l.Holds l :=
      fun l _ _ _ h => Nat.lt_irrefl _ h.1
    have hone := hall.imp fun {m n} h (hr : m.isRoutine = true) (hd : n.declares = true) =>
      (h (Node.declares_of_isRoutine hr) hd).2.1 hr
    have hother := hall.imp fun {m n} h (hr : n.isRoutine = true) (hd : m.declares = true) =>
      (h hd (Node.declares_of_isRoutine hr)).2.2 hr
    exact List.Pairwise.forall_of_forall_of_flip hself hone hother hm hn hr hd

end Scholia.Source

/-!
## Comments and what follows them

A comment that precedes a routine waits for it: no declaration starts between the two. So what
stands there is no more than comments and what is no declaration.
-/

namespace Scholia.Source

variable {source : Text} {before : List Node} {w : Walk} {node : Node}

/-- Behind a comment among some nodes nothing is declared. -/
def Waits (nodes : List Node) (c : Span) : Prop :=
  ∃ pre d post, nodes = pre ++ d :: post ∧ d.kind = .doc ∧ d.span = c ∧
    ∀ n ∈ post, n.declares = false

theorem Waits.more {c : Span} (h : Waits before c) (hd : node.declares = false) :
    Waits (before ++ [node]) c := by
  obtain ⟨pre, d, post, rfl, hk, hspan, hpost⟩ := h
  refine ⟨pre, d, post ++ [node], by simp only [List.append_assoc, List.cons_append], hk, hspan,
    fun n hn => ?_⟩
  rcases List.mem_append.1 hn with hn | hn
  · exact hpost n hn
  · exact List.mem_singleton.1 hn ▸ hd

/-- A comment that waited among some nodes until the node of a routine. -/
def Awaited (nodes : List Node) (c routine : Span) : Prop :=
  ∃ pre m post, nodes = pre ++ m :: post ∧ m.span = routine ∧ Waits pre c

theorem Awaited.more {c routine : Span} (h : Awaited before c routine) :
    Awaited (before ++ [node]) c routine := by
  obtain ⟨pre, m, post, rfl, hspan, hw⟩ := h
  exact ⟨pre, m, post ++ [node], by simp only [List.append_assoc, List.cons_append], hspan, hw⟩

/-- How the walk has come to the comments that it keeps. -/
structure Walk.Attaches (source : Text) (before : List Node) (w : Walk) : Prop where
  pending : ∀ c, w.pending = some c → Waits before c
  found : ∀ r ∈ w.found source, ∀ c, r.commentSpan = some c → Awaited before c r.span

namespace Walk.Attaches

theorem initial (source : Text) : Walk.Attaches source [] ⟨[], none, [], []⟩ where
  pending := fun _ h => by cases h
  found := by simp [Walk.found]

theorem close (h : w.Attaches source before) (ended : Scope → Bool) :
    (w.close source ended).Attaches source before where
  pending := h.pending
  found := by
    rw [Walk.found_close]
    exact h.found

/-- A scope that yields no routine ends the wait. -/
theorem push (h : w.Attaches source before) {scope : Scope} (hc : scope.closed? source = none)
    (types : List TypeDecl) :
    Walk.Attaches source (before ++ [node])
      { w with pending := none, scopes := scope :: w.scopes, types } := by
  refine ⟨(fun _ he => by cases he), fun r hr c hcomment => ?_⟩
  have hfound : Walk.found source { w with pending := none, scopes := scope :: w.scopes, types } =
      w.found source := by
    simp only [Walk.found, List.filterMap_cons_none hc]
  rw [hfound] at hr
  exact (h.found r hr c hcomment).more

theorem enter (h : w.Attaches source before) :
    (w.enter source .preceding node).Attaches source (before ++ [node]) := by
  have hmore : ∀ r ∈ w.found source, ∀ c, r.commentSpan = some c →
      Awaited (before ++ [node]) c r.span := fun r hr c hc => (h.found r hr c hc).more
  unfold Walk.enter
  cases hk : node.kind with
  | doc =>
    have hd : node.declares = false := by
      unfold Node.declares
      rw [hk]
    simp only
    split
    · exact ⟨fun c hc => (h.pending c hc).more hd, hmore⟩
    · refine ⟨fun c hc => ?_, hmore⟩
      cases hc
      exact ⟨before, node, [], rfl, hk, rfl, by simp⟩
  | typeDecl name =>
    simp only
    split
    · exact h.push rfl _
    · exact h.push rfl _
  | routine name b =>
    simp only
    split
    · exact h.push rfl _
    · refine ⟨(fun _ he => by cases he), fun r hr c hc => ?_⟩
      simp only [Walk.found, List.filterMap_cons, Scope.closed?] at hr
      rcases List.mem_append.1 hr with hr | hr
      · exact hmore r (List.mem_append_left _ hr) c hc
      rcases List.mem_cons.1 hr with rfl | hr
      · refine ⟨before, node, [], rfl, rfl, h.pending c ?_⟩
        exact (Option.filter_eq_some_iff.1 hc).1
      · exact hmore r (List.mem_append_right _ hr) c hc

theorem foldl (h : w.Attaches source before) (nodes : List Node) :
    (nodes.foldl (Walk.step source .preceding) w).Attaches source (before ++ nodes) := by
  induction nodes generalizing w before with
  | nil => rwa [List.append_nil]
  | cons node nodes ih =>
    have hstep : (w.step source .preceding node).Attaches source (before ++ [node]) :=
      (h.close _).enter
    have hrest := ih hstep
    rwa [List.append_assoc] at hrest

end Walk.Attaches

/-- **Between a comment and its routine nothing is declared**: every declaration starts no later
than the comment, or no earlier than the routine. -/
theorem Outline.Fits.survey_awaited {o : Outline} (h : o.Fits) {r : Routine}
    (hr : r ∈ (o.survey .preceding).1) {c : Span} (hc : r.commentSpan = some c) {n : Node}
    (hn : n ∈ o.nodes) (hd : n.declares = true) :
    n.span.start ≤ c.start ∨ r.span.start ≤ n.span.start := by
  obtain ⟨-, w, -, hw, he⟩ := h.survey_last .preceding
  have hattaches := (Walk.Attaches.initial o.source).foldl o.nodes
  rw [← hw, List.nil_append] at hattaches
  rw [he] at hr
  obtain ⟨pre, m, post, hnodes, hspan, pre', d, between, rfl, -, rfl, hbetween⟩ :=
    hattaches.found r hr c hc
  have hsorted := h.sorted
  rw [hnodes] at hsorted hn
  obtain ⟨hpre, hpost, hcross⟩ := List.pairwise_append.1 hsorted
  rcases List.mem_append.1 hn with hn | hn
  · rcases List.mem_append.1 hn with hn | hn
    · exact .inl ((List.pairwise_append.1 hpre).2.2 n hn d List.mem_cons_self)
    · rcases List.mem_cons.1 hn with rfl | hn
      · exact .inl (Nat.le_refl _)
      · rw [hbetween n hn] at hd
        cases hd
  · rw [← hspan]
    rcases List.mem_cons.1 hn with rfl | hn
    · exact .inr (Nat.le_refl _)
    · exact .inr ((List.pairwise_cons.1 hpost).1 n hn)

end Scholia.Source
