import Scholia.Proofs.Source.Placement
/-!
# The walk over an outline

What the walk keeps at every place of an outline whose nodes are in the order of their starts and
fit its text. The routines met so far, closed or still open, are looked at as one list (`found`):
closing a scope moves a routine from one part of that list to the other and changes nothing else.

Main statement (`survey_stands`, `survey_apart`): every routine of a survey stands for a node of the
outline, and **the extents of the routines follow each other without overlap**, comments included.
It holds of crossing ranges as well, since a routine is opened only when none is open and a comment
is kept only when it was met outside every body.
-/

namespace Scholia.Source

/-! ## Closing scopes -/

theorem Walk.closeWhile_eq (source : Text) (ended : Scope → Bool) (scopes : List Scope) :
    Walk.closeWhile source ended scopes =
      (scopes.dropWhile ended, (scopes.takeWhile ended).filterMap (Scope.closed? source)) := by
  induction scopes with
  | nil => rfl
  | cons scope outer ih =>
    cases he : ended scope with
    | true =>
      simp only [Walk.closeWhile, he, if_true, ih, List.dropWhile_cons, List.takeWhile_cons,
        List.filterMap_cons]
      cases scope.closed? source <;> rfl
    | false => simp [Walk.closeWhile, he]

/-- The routines met so far, the closed ones first. -/
def Walk.found (source : Text) (w : Walk) : List Routine :=
  w.routines ++ w.scopes.filterMap (Scope.closed? source)

theorem Walk.found_close (source : Text) (ended : Scope → Bool) (w : Walk) :
    (w.close source ended).found source = w.found source := by
  simp only [Walk.found, Walk.close, Walk.closeWhile_eq]
  rw [List.append_assoc, ← List.filterMap_append, List.takeWhile_append_dropWhile]

theorem Scope.closed?_eq_some {source : Text} {s : Scope} {r : Routine}
    (h : s.closed? source = some r) : s.isBody = true ∧ s.stop = r.span.stop := by
  cases s with
  | typeDecl stop => cases h
  | inner stop => cases h
  | routine name signature span bodyStart comment =>
    cases h
    exact ⟨rfl, rfl⟩

/-! ## How scopes are nested -/

/-- Whether some scope of a stack is a body. -/
abbrev Scope.inBody (scopes : List Scope) : Bool :=
  scopes.any Scope.isBody

/-- Types and routines are opened outside bodies, inner scopes within one. -/
def Scope.Nested : List Scope → Prop
  | [] => True
  | .inner _ :: outer => Scope.inBody outer = true ∧ Nested outer
  | .routine .. :: outer => Scope.inBody outer = false ∧ Nested outer
  | .typeDecl _ :: outer => Scope.inBody outer = false ∧ Nested outer

theorem Scope.Nested.tail {scope : Scope} {outer : List Scope} (h : Nested (scope :: outer)) :
    Nested outer := by
  cases scope <;> exact h.2

theorem Scope.Nested.dropWhile {scopes : List Scope} (h : Nested scopes) (p : Scope → Bool) :
    Nested (scopes.dropWhile p) := by
  induction scopes with
  | nil => exact h
  | cons scope outer ih =>
    rw [List.dropWhile_cons]
    split
    · exact ih h.tail
    · exact h

theorem Scope.inBody_dropWhile {scopes : List Scope} (h : inBody scopes = false)
    (p : Scope → Bool) : inBody (scopes.dropWhile p) = false := by
  rw [List.any_eq_false] at h ⊢
  intro s hs
  exact h s ((List.dropWhile_suffix p).subset hs)

theorem Scope.filterMap_closed?_of_not_inBody {source : Text} {scopes : List Scope}
    (h : inBody scopes = false) : scopes.filterMap (Scope.closed? source) = [] := by
  rw [List.filterMap_eq_nil_iff]
  intro s hs
  cases hc : s.closed? source with
  | none => rfl
  | some r => exact absurd (closed?_eq_some hc).1 (List.any_eq_false.1 h s hs)

/-- **One routine is open at a time**. -/
theorem Scope.Nested.filterMap_closed? {scopes : List Scope} (source : Text)
    (h : Nested scopes) (hb : inBody scopes = true) :
    ∃ r, scopes.filterMap (Scope.closed? source) = [r] := by
  induction scopes with
  | nil => cases hb
  | cons scope outer ih =>
    cases scope with
    | inner stop => exact ih h.2 h.1
    | typeDecl stop =>
      have : inBody outer = true := hb
      rw [h.1] at this
      cases this
    | routine name signature span bodyStart comment =>
      have hc : ∃ r, (Scope.routine name signature span bodyStart comment).closed? source = some r :=
        ⟨_, rfl⟩
      obtain ⟨r, hc⟩ := hc
      rw [List.filterMap_cons_some hc, filterMap_closed?_of_not_inBody h.1]
      exact ⟨r, rfl⟩

/-! ## What the walk keeps -/

/-- That one routine is left behind before another begins. -/
abbrev Routine.Before (r s : Routine) : Prop :=
  r.extent.stop ≤ s.extent.start

/-- What holds of the walk when it has come to a byte. -/
structure Walk.Sound (o : Outline) (attachment : Attachment) (pos : Nat) (w : Walk) : Prop where
  nested : Scope.Nested w.scopes
  /-- An open routine is a node of the outline. -/
  opened : ∀ name signature span b c, .routine name signature span b c ∈ w.scopes →
    ⟨.routine name b, signature, span⟩ ∈ o.nodes
  stands : ∀ r ∈ w.found o.source, r.Stands o attachment
  apart : (w.found o.source).Pairwise Routine.Before
  /-- Outside bodies all routines are left behind. -/
  behind : Scope.inBody w.scopes = false → ∀ r ∈ w.found o.source, r.extent.stop ≤ pos
  /-- A comment waits only outside bodies, and behind all routines. -/
  pending : ∀ c, w.pending = some c → Scope.inBody w.scopes = false ∧
    (∃ d ∈ o.nodes, d.kind = .doc ∧ d.span = c) ∧ ∀ r ∈ w.found o.source, r.extent.stop ≤ c.start

namespace Walk.Sound

variable {o : Outline} {attachment : Attachment} {pos : Nat} {w : Walk}

theorem initial (o : Outline) (attachment : Attachment) :
    Walk.Sound o attachment 0 ⟨[], none, [], []⟩ where
  nested := trivial
  opened := by simp
  stands := by simp [Walk.found]
  apart := by simp [Walk.found]
  behind := by simp [Walk.found]
  pending := by simp

/-- Closing what ends before a byte brings the walk to that byte. -/
theorem close (h : w.Sound o attachment pos) (hn : ∀ n ∈ o.nodes, n.Fits o.source) {next : Nat}
    (hpos : pos ≤ next) :
    (w.close o.source fun scope => scope.stop ≤ next).Sound o attachment next := by
  have hscopes : (w.close o.source fun scope => scope.stop ≤ next).scopes =
      w.scopes.dropWhile fun scope => scope.stop ≤ next := by
    simp only [Walk.close, Walk.closeWhile_eq]
  constructor
  · rw [hscopes]
    exact h.nested.dropWhile _
  · rw [hscopes]
    intro name signature span b c hmem
    exact h.opened name signature span b c ((List.dropWhile_suffix _).subset hmem)
  · rw [Walk.found_close]
    exact h.stands
  · rw [Walk.found_close]
    exact h.apart
  · rw [Walk.found_close, hscopes]
    intro hout r hr
    cases hb : Scope.inBody w.scopes with
    | false => exact Nat.le_trans (h.behind hb r hr) hpos
    | true =>
      -- the routine that was open has been closed, so it ends before `next`, and all others lie
      -- before it
      obtain ⟨q, hq⟩ := h.nested.filterMap_closed? o.source hb
      have hqmem : q ∈ w.scopes.filterMap (Scope.closed? o.source) := by
        rw [hq]
        exact List.mem_singleton_self q
      obtain ⟨s, hs, hsq⟩ := List.mem_filterMap.1 hqmem
      obtain ⟨hbody, hstop⟩ := Scope.closed?_eq_some hsq
      have hended : s.stop ≤ next := by
        rw [← List.takeWhile_append_dropWhile (p := fun scope : Scope => decide (scope.stop ≤ next))
          (l := w.scopes), List.mem_append] at hs
        rcases hs with hs | hs
        · simpa using List.all_eq_true.1 List.all_takeWhile s hs
        · exact absurd hbody (List.any_eq_false.1 hout s hs)
      have hqend : q.extent.stop ≤ next := by
        rw [Routine.Fits.extent_stop]
        exact hstop ▸ hended
      have hqfits := (h.stands q (List.mem_append_right _ hqmem)).fits hn
      rcases List.mem_append.1 hr with hr | hr
      · have := (List.pairwise_append.1 h.apart).2.2 r hr q hqmem
        exact Nat.le_trans (Nat.le_trans this hqfits.extent.ordered) hqend
      · rw [hq, List.mem_singleton] at hr
        exact hr ▸ hqend
  · rw [Walk.found_close, hscopes]
    intro c hc
    obtain ⟨hout, hd, hr⟩ := h.pending c hc
    exact ⟨Scope.inBody_dropWhile hout _, hd, hr⟩

/-- A scope that yields no routine may be opened, and ends the wait of a comment. -/
theorem push (h : w.Sound o attachment pos) {scope : Scope} (types : List TypeDecl)
    (hc : scope.closed? o.source = none) (hnest : Scope.Nested (scope :: w.scopes)) :
    Walk.Sound o attachment pos { w with pending := none, scopes := scope :: w.scopes, types } := by
  have hfound : Walk.found o.source { w with pending := none, scopes := scope :: w.scopes, types } =
      w.found o.source := by
    simp only [Walk.found, List.filterMap_cons_none hc]
  refine ⟨hnest, ?_, hfound ▸ h.stands, hfound ▸ h.apart, ?_, ?_⟩
  · intro name signature span b c hmem
    rcases List.mem_cons.1 hmem with rfl | hmem
    · cases hc
    · exact h.opened name signature span b c hmem
  · intro hout
    rw [hfound]
    have hout : (scope.isBody || Scope.inBody w.scopes) = false := hout
    exact h.behind (Bool.or_eq_false_iff.1 hout).2
  · intro c hp
    cases hp

/-- Outside bodies a routine may be opened, with a comment that has been waiting. -/
theorem openRoutine (h : w.Sound o attachment pos) (hout : Scope.inBody w.scopes = false)
    {name signature : Text} {span : Span} {b : Nat}
    (hnode : ⟨.routine name b, signature, span⟩ ∈ o.nodes) (hpos : pos ≤ span.start)
    {comment : Option Span} (hcomment : ∀ c, comment = some c →
      w.pending = some c ∧ attachment.Joins o.source c span.start b) :
    Walk.Sound o attachment pos
      { w with
        pending := none
        scopes := .routine name signature span b comment :: w.scopes } := by
  have hnone : w.scopes.filterMap (Scope.closed? o.source) = [] :=
    Scope.filterMap_closed?_of_not_inBody hout
  have hbefore : w.found o.source = w.routines := by
    rw [Walk.found, hnone, List.append_nil]
  obtain ⟨q, hq⟩ : ∃ q, (Scope.routine name signature span b comment).closed? o.source = some q :=
    ⟨_, rfl⟩
  have hfound : Walk.found o.source
      { w with pending := none, scopes := .routine name signature span b comment :: w.scopes } =
      w.routines ++ [q] := by
    simp only [Walk.found, List.filterMap_cons_some hq, hnone]
  have hstands : q.Stands o attachment := by
    cases hq
    refine ⟨⟨b, hnode, rfl, fun c hc => ?_⟩, rfl⟩
    obtain ⟨hp, hjoin⟩ := hcomment c hc
    exact ⟨(h.pending c hp).2.1, hjoin⟩
  have hstart : ∀ r ∈ w.routines, r.extent.stop ≤ q.extent.start := by
    intro r hr
    have hpass := h.behind hout r (hbefore ▸ hr)
    rcases Routine.Fits.extent_start q with he | ⟨c, hc, he⟩
    · rw [he]
      cases hq
      exact Nat.le_trans hpass hpos
    · rw [he]
      cases hq
      exact (h.pending c (hcomment c hc).1).2.2 r (hbefore ▸ hr)
  refine ⟨⟨hout, h.nested⟩, ?_, ?_, ?_, ?_, ?_⟩
  · intro name' signature' span' b' c' hmem
    rcases List.mem_cons.1 hmem with heq | hmem
    · cases heq
      exact hnode
    · exact h.opened _ _ _ _ _ hmem
  · rw [hfound]
    intro r hr
    rcases List.mem_append.1 hr with hr | hr
    · exact h.stands r (hbefore ▸ hr)
    · exact List.mem_singleton.1 hr ▸ hstands
  · rw [hfound, List.pairwise_append]
    refine ⟨hbefore ▸ h.apart, List.pairwise_singleton _ _, fun r hr s hs => ?_⟩
    exact List.mem_singleton.1 hs ▸ hstart r hr
  · intro hin
    cases hin
  · intro c hp
    cases hp

/-- The innermost routine takes the literal with which its body begins. Its extent stays. -/
theorem takeLiteral (h : w.Sound o attachment pos) (hattach : attachment = .firstStatement)
    {name signature : Text} {span : Span} {b : Nat} {outer : List Scope}
    (hscopes : w.scopes = .routine name signature span b none :: outer) {d : Node}
    (hd : d ∈ o.nodes) (hdoc : d.kind = .doc) (hn : ∀ n ∈ o.nodes, n.Fits o.source)
    (hfirst : isFirstStatement o.source b d.span.start = true) :
    Walk.Sound o attachment pos
      { w with scopes := .routine name signature span b (some d.span) :: outer } := by
  have hnode := h.opened name signature span b none (hscopes ▸ List.mem_cons_self)
  have hnest : Scope.inBody outer = false ∧ Scope.Nested outer := by
    have := h.nested
    rwa [hscopes] at this
  have hnone : outer.filterMap (Scope.closed? o.source) = [] :=
    Scope.filterMap_closed?_of_not_inBody hnest.1
  obtain ⟨q, hq⟩ : ∃ q, (Scope.routine name signature span b none).closed? o.source = some q :=
    ⟨_, rfl⟩
  obtain ⟨q', hq'⟩ : ∃ q',
      (Scope.routine name signature span b (some d.span)).closed? o.source = some q' := ⟨_, rfl⟩
  have hold : w.found o.source = w.routines ++ [q] := by
    simp only [Walk.found, hscopes, List.filterMap_cons_some hq, hnone]
  have hnew : Walk.found o.source
      { w with scopes := .routine name signature span b (some d.span) :: outer } =
      w.routines ++ [q'] := by
    simp only [Walk.found, List.filterMap_cons_some hq', hnone]
  have hextent : q'.extent.start = q.extent.start := by
    have hle : span.start ≤ d.span.start :=
      Nat.le_trans ((hn _ hnode).body _ _ rfl).1 (isFirstStatement_le hfirst)
    cases hq
    cases hq'
    simp only [Routine.extent, if_neg (Nat.not_lt.2 hle)]
  have hstands : q'.Stands o attachment := by
    cases hq'
    refine ⟨⟨b, hnode, rfl, fun c hc => ?_⟩, rfl⟩
    cases hc
    subst hattach
    exact ⟨⟨d, hd, hdoc, rfl⟩, hfirst⟩
  refine ⟨hnest, ?_, ?_, ?_, ?_, ?_⟩
  · intro name' signature' span' b' c' hmem
    rcases List.mem_cons.1 hmem with heq | hmem
    · cases heq
      exact hnode
    · exact h.opened _ _ _ _ _ (hscopes ▸ List.mem_cons_of_mem _ hmem)
  · rw [hnew]
    intro r hr
    rcases List.mem_append.1 hr with hr | hr
    · exact h.stands r (hold ▸ List.mem_append_left _ hr)
    · exact List.mem_singleton.1 hr ▸ hstands
  · have hapart := h.apart
    rw [hold, List.pairwise_append] at hapart
    rw [hnew, List.pairwise_append]
    refine ⟨hapart.1, List.pairwise_singleton _ _, fun r hr s hs => ?_⟩
    rw [List.mem_singleton.1 hs, Routine.Before, hextent]
    exact hapart.2.2 r hr q (List.mem_singleton_self q)
  · intro hin
    cases hin
  · intro c hp
    have hin := (h.pending c hp).1
    rw [hscopes] at hin
    cases hin

/-- A literal may become the comment of the routine whose body it begins. -/
theorem withLiteral (h : w.Sound o attachment pos) (hattach : attachment = .firstStatement)
    {scope : Scope} {outer : List Scope} (hscopes : w.scopes = scope :: outer) {d : Node}
    (hd : d ∈ o.nodes) (hdoc : d.kind = .doc) (hn : ∀ n ∈ o.nodes, n.Fits o.source) :
    Walk.Sound o attachment pos
      { w with scopes := scope.withLiteral o.source d.span :: outer } := by
  have hsame : scope.withLiteral o.source d.span = scope →
      Walk.Sound o attachment pos
        { w with scopes := scope.withLiteral o.source d.span :: outer } := by
    intro he
    rw [he, ← hscopes]
    exact h
  cases scope with
  | typeDecl stop => exact hsame rfl
  | inner stop => exact hsame rfl
  | routine name signature span b comment =>
    cases comment with
    | some c => exact hsame rfl
    | none =>
      by_cases hfirst : isFirstStatement o.source b d.span.start = true
      · simp only [Scope.withLiteral, hfirst, if_true]
        exact h.takeLiteral hattach hscopes hd hdoc hn hfirst
      · exact hsame (by simp only [Scope.withLiteral, hfirst, if_false, Bool.false_eq_true])

/-- **One place keeps what the walk keeps**. -/
theorem step (h : w.Sound o attachment pos) (hn : ∀ n ∈ o.nodes, n.Fits o.source) {node : Node}
    (hnode : node ∈ o.nodes) (hpos : pos ≤ node.span.start) :
    (w.step o.source attachment node).Sound o attachment node.span.start := by
  have hc := h.close hn hpos
  unfold Walk.step
  generalize (w.close o.source fun scope => scope.stop ≤ node.span.start) = w' at hc
  obtain ⟨kind, signature, span⟩ := node
  cases kind with
  | doc =>
    cases attachment with
    | preceding =>
      cases hb : Scope.inBody w'.scopes with
      | true =>
        simp only [Walk.enter, hb, if_true]
        exact hc
      | false =>
        simp only [Walk.enter, hb, if_false, Bool.false_eq_true]
        refine ⟨hc.nested, hc.opened, hc.stands, hc.apart, hc.behind, ?_⟩
        intro c hp
        cases hp
        exact ⟨hb, ⟨_, hnode, rfl, rfl⟩, hc.behind hb⟩
    | firstStatement =>
      cases hs : w'.scopes with
      | nil =>
        simp only [Walk.enter, hs]
        exact hc
      | cons scope outer =>
        simp only [Walk.enter, hs]
        exact hc.withLiteral rfl hs hnode rfl hn
  | typeDecl name =>
    cases hb : Scope.inBody w'.scopes with
    | true =>
      simp only [Walk.enter, hb, if_true]
      exact hc.push _ rfl ⟨hb, hc.nested⟩
    | false =>
      simp only [Walk.enter, hb, if_false, Bool.false_eq_true]
      exact hc.push _ rfl ⟨hb, hc.nested⟩
  | routine name b =>
    cases hb : Scope.inBody w'.scopes with
    | true =>
      simp only [Walk.enter, hb, if_true]
      exact hc.push _ rfl ⟨hb, hc.nested⟩
    | false =>
      simp only [Walk.enter, hb, if_false, Bool.false_eq_true]
      refine hc.openRoutine hb hnode (Nat.le_refl _) fun c hcomment => ?_
      cases attachment with
      | firstStatement => cases hcomment
      | preceding =>
        obtain ⟨hp, hadj⟩ := Option.filter_eq_some_iff.1 hcomment
        exact ⟨hp, hadj⟩

theorem foldl (hn : ∀ n ∈ o.nodes, n.Fits o.source) (nodes : List Node)
    (hsub : ∀ n ∈ nodes, n ∈ o.nodes)
    (hsorted : nodes.Pairwise fun m n => m.span.start ≤ n.span.start)
    (hpos : ∀ n ∈ nodes, pos ≤ n.span.start) (h : w.Sound o attachment pos) :
    ∃ last, (nodes.foldl (Walk.step o.source attachment) w).Sound o attachment last := by
  induction nodes generalizing w pos with
  | nil => exact ⟨pos, h⟩
  | cons node nodes ih =>
    have hstep := h.step hn (hsub node List.mem_cons_self) (hpos node List.mem_cons_self)
    rw [List.pairwise_cons] at hsorted
    exact ih (fun n hmem => hsub n (List.mem_cons_of_mem _ hmem)) hsorted.2 hsorted.1 hstep

end Walk.Sound

/-! ## The survey -/

/-- The walk finds no type at a place but the one that is declared there. -/
theorem Walk.types_enter (source : Text) (attachment : Attachment) (w : Walk) (node : Node) :
    ∀ t ∈ (w.enter source attachment node).types,
      t ∈ w.types ∨ node.kind = .typeDecl t.name ∧ node.signature = t.signature := by
  intro t ht
  cases hk : node.kind with
  | doc =>
    cases attachment with
    | preceding =>
      simp only [enter, hk] at ht
      split at ht <;> exact .inl ht
    | firstStatement =>
      simp only [enter, hk] at ht
      split at ht <;> exact .inl ht
  | typeDecl name =>
    simp only [enter, hk] at ht
    split at ht
    · exact .inl ht
    · rcases List.mem_append.1 ht with ht | ht
      · exact .inl ht
      · rw [List.mem_singleton.1 ht]
        exact .inr ⟨rfl, rfl⟩
  | routine name bodyStart =>
    simp only [enter, hk] at ht
    split at ht <;> exact .inl ht

/-- An outline whose nodes are parts of its text, in the order of their starts. -/
structure Outline.Fits (o : Outline) : Prop where
  nodes : ∀ n ∈ o.nodes, n.Fits o.source
  sorted : o.nodes.Pairwise fun m n => m.span.start ≤ n.span.start

theorem Outline.ofNodes_fits {source : Text} {nodes : List Node}
    (h : ∀ n ∈ nodes, n.Fits source) : (Outline.ofNodes source nodes).Fits := by
  refine ⟨fun n hn => h n (List.mem_mergeSort.1 hn), ?_⟩
  have htrans : ∀ l m n : Node, decide (l.span.start ≤ m.span.start) = true →
      decide (m.span.start ≤ n.span.start) = true → decide (l.span.start ≤ n.span.start) = true := by
    intro l m n hlm hmn
    simp only [decide_eq_true_eq] at *
    omega
  have htotal : ∀ m n : Node,
      (decide (m.span.start ≤ n.span.start) || decide (n.span.start ≤ m.span.start)) = true := by
    intro m n
    simp only [Bool.or_eq_true, decide_eq_true_eq]
    omega
  have := List.pairwise_mergeSort htrans htotal nodes
  exact this.imp fun h => by simpa using h

/-- **The survey keeps the order in which the walk finds routines**: they start one after the
other. -/
theorem Outline.Fits.survey_last {o : Outline} (h : o.Fits) (attachment : Attachment) :
    ∃ (last : Nat) (w : Walk), w.Sound o attachment last ∧
      w = o.nodes.foldl (Walk.step o.source attachment) ⟨[], none, [], []⟩ ∧
      (o.survey attachment).1 = w.found o.source := by
  obtain ⟨last, hw⟩ := Walk.Sound.foldl h.nodes o.nodes (fun _ hn => hn) h.sorted
    (fun _ _ => Nat.zero_le _) (Walk.Sound.initial o attachment)
  refine ⟨last, _, hw, rfl, ?_⟩
  have hclosed : (o.survey attachment).1 = (Walk.found o.source
      (o.nodes.foldl (Walk.step o.source attachment) ⟨[], none, [], []⟩)).mergeSort
        fun r s => r.span.start ≤ s.span.start := by
    generalize hend : o.nodes.foldl (Walk.step o.source attachment) ⟨[], none, [], []⟩ = w
    have hnone : w.scopes.dropWhile (fun _ => true) = [] := by
      induction w.scopes with
      | nil => rfl
      | cons scope outer ih => exact ih
    have hfound := Walk.found_close o.source (fun _ => true) w
    simp only [Walk.found, Walk.close, Walk.closeWhile_eq, hnone, List.filterMap_nil,
      List.append_nil] at hfound
    simp only [Outline.survey, hend, Walk.found, Walk.close, Walk.closeWhile_eq, hfound]
  refine hclosed.trans (List.mergeSort_of_pairwise ?_)
  refine (List.Pairwise.and_mem.1 hw.apart).imp ?_
  intro r s hrs
  obtain ⟨hr, hs, hbefore⟩ := hrs
  have hle := ((hw.stands r hr).fits h.nodes).span.ordered
  have hstart := Routine.Fits.extent_start_le s
  rw [Routine.Before, Routine.Fits.extent_stop] at hbefore
  exact decide_eq_true (by omega)

/-- Every routine of a survey comes from the outline. -/
theorem Outline.Fits.survey_stands {o : Outline} (h : o.Fits) (attachment : Attachment) :
    ∀ r ∈ (o.survey attachment).1, r.Stands o attachment := by
  obtain ⟨last, w, hw, -, he⟩ := h.survey_last attachment
  exact he ▸ hw.stands

/-- Every type of a survey comes from the outline. -/
theorem Outline.survey_types (o : Outline) (attachment : Attachment) :
    ∀ t ∈ (o.survey attachment).2,
      ∃ n ∈ o.nodes, n.kind = .typeDecl t.name ∧ n.signature = t.signature := by
  have key : ∀ (nodes : List Node) (w : Walk),
      ∀ t ∈ (nodes.foldl (Walk.step o.source attachment) w).types,
        t ∈ w.types ∨ ∃ n ∈ nodes, n.kind = .typeDecl t.name ∧ n.signature = t.signature := by
    intro nodes
    induction nodes with
    | nil => exact fun w t ht => .inl ht
    | cons node nodes ih =>
      intro w t ht
      rcases ih _ t ht with ht | ⟨n, hn, ht⟩
      · rcases Walk.types_enter o.source attachment _ node t ht with ht | ht
        · exact .inl ht
        · exact .inr ⟨node, List.mem_cons_self, ht⟩
      · exact .inr ⟨n, List.mem_cons_of_mem _ hn, ht⟩
  intro t ht
  rcases key o.nodes _ t ht with ht | h
  · cases ht
  · exact h

/-- **Routines, with the comments before them, follow each other without overlap**. -/
theorem Outline.Fits.survey_apart {o : Outline} (h : o.Fits) (attachment : Attachment) :
    (o.survey attachment).1.Pairwise Routine.Before := by
  obtain ⟨last, w, hw, -, he⟩ := h.survey_last attachment
  exact he ▸ hw.apart

end Scholia.Source
