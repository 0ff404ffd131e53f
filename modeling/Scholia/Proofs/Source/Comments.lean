import Scholia.Proofs.Source.Carried
/-!
# The walk and its comments

The walk keeps one comment that waits, and one place for a literal in each open routine. It is shown
to hold what the nodes tell (`Walk.Opens`), by one lemma for each way to change the open scopes:
they close from the innermost outward, a declaration is opened, a comment passes or begins to wait,
a literal goes to the innermost one. So **a routine carries the comment that the nodes say it
carries**, and a comment belongs to one routine at most.
-/

namespace Scholia.Source

/-! ## What a declaration opens -/

open Classical in
/-- The scope that a declaration opens. -/
noncomputable def Scope.of (attachment : Attachment) (source : Text) (nodes : List Node)
    (m : Node) : Scope :=
  if Covered nodes m then .inner m.span.stop
  else
    match m.kind with
    | .routine name b =>
      .routine name m.signature m.span b (commentOf attachment source nodes m)
    | _ => .typeDecl m.span.stop

section Append

variable {attachment : Attachment} {source : Text} {before : List Node} {m d f node : Node}

theorem Scope.stop_of (nodes : List Node) : (Scope.of attachment source nodes m).stop = m.span.stop := by
  unfold Scope.of
  split
  · rfl
  · split
    · rfl
    · rfl

theorem introduces_append (h : d.span.start < node.span.start) :
    d.Introduces source (before ++ [node]) f ↔ d.Introduces source before f := by
  constructor
  · exact fun hi => ⟨hi.doc, hi.inside,
      fun n hn => hi.innermost n (List.mem_append_left _ hn), hi.body, hi.lead⟩
  · refine fun hi => ⟨hi.doc, hi.inside, fun n hn hd haround => ?_, hi.body, hi.lead⟩
    rcases List.mem_append.1 hn with hn | hn
    · exact hi.innermost n hn hd haround
    · rw [List.mem_singleton.1 hn] at haround
      exact absurd haround.1 (Nat.not_le.2 h)

open Classical in
/-- One more node is the introduction of a routine that has none, if it introduces it. -/
theorem introduction_append (hlt : ∀ m ∈ before, m.span.start < node.span.start) :
    introduction source (before ++ [node]) f = (introduction source before f).or
      (if node.Introduces source (before ++ [node]) f then some node.span else none) := by
  have hold : before.filter (fun d => decide (d.Introduces source (before ++ [node]) f)) =
      before.filter fun d => decide (d.Introduces source before f) :=
    List.filter_congr fun d hd => decide_eq_decide.2 (introduces_append (hlt d hd))
  rw [introduction, introduction, List.filter_append, hold, List.head?_append, Option.map_or]
  refine congrArg _ ?_
  split
  · next hi => simp [hi]
  · next hi => simp [hi]

/-- A node behind a declaration changes what that opens only if it introduces it. -/
theorem Scope.of_append (hlt : ∀ m ∈ before, m.span.start < node.span.start) (hm : m ∈ before)
    (hi : attachment = .firstStatement → ¬ node.Introduces source (before ++ [node]) m) :
    Scope.of attachment source (before ++ [node]) m = Scope.of attachment source before m := by
  have hcov : Covered (before ++ [node]) m ↔ Covered before m :=
    covered_append fun l hl => List.mem_singleton.1 hl ▸ Nat.le_of_lt (hlt m hm)
  have hcomment : commentOf attachment source (before ++ [node]) m =
      commentOf attachment source before m := by
    cases attachment with
    | preceding =>
      have hnot : ¬ node.span.start < m.span.start := Nat.lt_asymm (hlt m hm)
      simp [commentOf, List.filter_append, hnot]
    | firstStatement =>
      rw [commentOf, commentOf, introduction_append hlt, if_neg (hi rfl), Option.or_none]
  by_cases hc : Covered before m
  · rw [Scope.of, Scope.of, if_pos hc, if_pos (hcov.2 hc)]
  · rw [Scope.of, Scope.of, if_neg hc, if_neg (mt hcov.1 hc), hcomment]

/-- A scope that meets a literal takes it if that introduces its routine. -/
theorem Scope.of_withLiteral (hlt : ∀ m ∈ before, m.span.start < node.span.start) (hm : m ∈ before)
    (hi : node.Introduces source (before ++ [node]) m ↔
      isFirstStatement source m.bodyStart node.span.start = true) :
    (Scope.of .firstStatement source before m).withLiteral source node.span =
      Scope.of .firstStatement source (before ++ [node]) m := by
  have hcov : Covered (before ++ [node]) m ↔ Covered before m :=
    covered_append fun l hl => List.mem_singleton.1 hl ▸ Nat.le_of_lt (hlt m hm)
  have hcomment : commentOf .firstStatement source (before ++ [node]) m =
      (commentOf .firstStatement source before m).or
        (if isFirstStatement source m.bodyStart node.span.start then some node.span else none) := by
    rw [commentOf, introduction_append hlt]
    simp only [hi]
    rfl
  by_cases hc : Covered before m
  · rw [Scope.of, Scope.of, if_pos hc, if_pos (hcov.2 hc)]
    rfl
  · rw [Scope.of, Scope.of, if_neg hc, if_neg (mt hcov.1 hc), hcomment]
    cases hk : m.kind with
    | doc => rfl
    | typeDecl name => rfl
    | routine name b =>
      have hb : m.bodyStart = b := by rw [Node.bodyStart, hk]
      cases commentOf .firstStatement source before m with
      | none => rw [hb]; rfl
      | some c => rfl

open Classical in
/-- What waits behind one more node. -/
theorem waiting_append (hlt : ∀ m ∈ before, m.span.start < node.span.start) :
    (node.declares = true → waiting (before ++ [node]) = none) ∧
      (node.declares = false → Covered before node → waiting (before ++ [node]) = waiting before) ∧
      (node.declares = false → ¬ Covered before node →
        waiting (before ++ [node]) = some node.span) := by
  have hold : ∀ m ∈ before ++ [node], Covered (before ++ [node]) m ↔ Covered before m := by
    intro m hm
    refine covered_append fun l hl => List.mem_singleton.1 hl ▸ ?_
    rcases List.mem_append.1 hm with hm | hm
    · exact Nat.le_of_lt (hlt m hm)
    · exact List.mem_singleton.1 hm ▸ Nat.le_refl _
  have happ : (before ++ [node]).filter
      (fun n => n.declares || !decide (Covered (before ++ [node]) n)) =
        before.filter (fun n => n.declares || !decide (Covered before n)) ++
          [node].filter fun n => n.declares || !decide (Covered before n) := by
    rw [← List.filter_append]
    refine List.filter_congr fun n hn => ?_
    rw [decide_eq_decide.2 (hold n hn)]
  unfold waiting
  rw [happ, List.getLast?_append]
  refine ⟨fun hd => ?_, fun hd hc => ?_, fun hd hc => ?_⟩
  · simp [hd, Node.comment?]
  · simp [hd, hc]
  · simp [hd, hc, Node.comment?]

end Append

/-! ## The walk -/

/-- How the walk has come to what it keeps: `opens` are the declarations that are open, innermost
first. -/
structure Walk.Opens (attachment : Attachment) (source : Text) (before : List Node) (pos : Nat)
    (w : Walk) (opens : List Node) : Prop where
  scopes : w.scopes = opens.map (Scope.of attachment source before)
  nested : opens.Pairwise fun inner outer =>
    outer.span.start < inner.span.start ∧ inner.span.stop ≤ outer.span.stop
  opened : ∀ m ∈ opens, m ∈ before ∧ m.declares = true
  complete : ∀ m ∈ before, m.declares = true → pos < m.span.stop → m ∈ opens
  closed : ∀ r ∈ w.routines, ∃ f ∈ before, f.span.stop ≤ pos ∧
    (Scope.of attachment source before f).closed? source = some r
  pending : w.pending = awaited attachment before

namespace Walk.Opens

variable {attachment : Attachment} {source : Text} {before opens : List Node} {pos : Nat} {w : Walk}
  {node : Node}

theorem initial (attachment : Attachment) (source : Text) :
    Walk.Opens attachment source [] 0 ⟨[], none, [], []⟩ [] where
  scopes := rfl
  nested := .nil
  opened := by simp
  complete := by simp
  closed := by simp
  pending := by cases attachment <;> simp [awaited, waiting]

/-- What ends before a byte is no longer open there. -/
theorem close (h : w.Opens attachment source before pos opens) {next : Nat} (hpos : pos ≤ next) :
    (w.close source fun scope => scope.stop ≤ next).Opens attachment source before next
      (opens.dropWhile fun m => m.span.stop ≤ next) := by
  have hsub := List.dropWhile_sublist (fun m : Node => decide (m.span.stop ≤ next)) (l := opens)
  have hended : (fun scope : Scope => decide (scope.stop ≤ next)) ∘
      Scope.of attachment source before = fun m => decide (m.span.stop ≤ next) := by
    funext m
    simp only [Function.comp, Scope.stop_of]
  simp only [Walk.close, Walk.closeWhile_eq]
  refine ⟨?_, h.nested.sublist hsub, fun m hm => h.opened m (hsub.subset hm),
    fun m hm hd hlt => ?_, fun r hr => ?_, h.pending⟩
  · rw [h.scopes, List.dropWhile_map, hended]
  · have hmem := h.complete m hm hd (Nat.lt_of_le_of_lt hpos hlt)
    rw [← List.takeWhile_append_dropWhile (p := fun m : Node => decide (m.span.stop ≤ next))
      (l := opens), List.mem_append] at hmem
    refine hmem.resolve_left fun htaken => ?_
    have := List.all_eq_true.1 List.all_takeWhile m htaken
    exact absurd (of_decide_eq_true this) (Nat.not_le.2 hlt)
  · rcases List.mem_append.1 hr with hr | hr
    · obtain ⟨f, hf, hstop, hclosed⟩ := h.closed r hr
      exact ⟨f, hf, Nat.le_trans hstop hpos, hclosed⟩
    · rw [h.scopes, List.takeWhile_map, hended, List.filterMap_map] at hr
      obtain ⟨f, hf, hclosed⟩ := List.mem_filterMap.1 hr
      refine ⟨f, (h.opened f ((List.takeWhile_sublist _).subset hf)).1, ?_, hclosed⟩
      exact of_decide_eq_true (List.all_eq_true.1 List.all_takeWhile f hf)

/-- What is open once all that ends before a byte has been closed goes on behind it. -/
theorem lt_stop (h : opens.Pairwise fun inner outer =>
      outer.span.start < inner.span.start ∧ inner.span.stop ≤ outer.span.stop) {next : Nat} :
    ∀ m ∈ opens.dropWhile fun m => m.span.stop ≤ next, next < m.span.stop := by
  have hrest := h.sublist (List.dropWhile_sublist fun m : Node => decide (m.span.stop ≤ next))
  have hhead := List.head?_dropWhile_not (fun m : Node => decide (m.span.stop ≤ next)) opens
  intro m hm
  cases hd : opens.dropWhile fun m => decide (m.span.stop ≤ next) with
  | nil =>
    rw [hd] at hm
    cases hm
  | cons first outer =>
    rw [hd] at hm hrest hhead
    have hfirst : next < first.span.stop := by simpa using hhead
    rcases List.mem_cons.1 hm with rfl | hm
    · exact hfirst
    · exact Nat.lt_of_lt_of_le hfirst ((List.pairwise_cons.1 hrest).1 m hm).2

/-- A node that changes no open scope. -/
theorem pass (h : w.Opens attachment source before node.span.start opens)
    (hd : node.declares = false) {scopes : List Scope} {pending : Option Span}
    (hscopes : scopes = opens.map (Scope.of attachment source (before ++ [node])))
    (hno : ∀ m ∈ before, m.span.stop ≤ node.span.start →
      Scope.of attachment source (before ++ [node]) m = Scope.of attachment source before m)
    (hpending : pending = awaited attachment (before ++ [node])) :
    Walk.Opens attachment source (before ++ [node]) node.span.start
      { w with scopes, pending } opens where
  scopes := hscopes
  nested := h.nested
  opened := fun m hm => (h.opened m hm).imp_left (List.mem_append_left _)
  complete := by
    intro m hm hdm hgo
    rcases List.mem_append.1 hm with hm | hm
    · exact h.complete m hm hdm hgo
    · rw [List.mem_singleton.1 hm, hd] at hdm
      cases hdm
  closed := by
    intro r hr
    obtain ⟨f, hf, hstop, hclosed⟩ := h.closed r hr
    exact ⟨f, List.mem_append_left _ hf, hstop, hno f hf hstop ▸ hclosed⟩
  pending := hpending

section Enter

variable (hlt : ∀ m ∈ before, m.span.start < node.span.start)

include hlt

/-- A declaration is opened inside what goes on behind its start. -/
theorem push (h : w.Opens attachment source before node.span.start opens)
    (hgoes : ∀ m ∈ opens, node.span.start < m.span.stop)
    (hnest : ∀ m ∈ before, m.declares = true → m.Uncrossed node)
    (hnode : node.span.start ≤ node.span.stop) (hd : node.declares = true) (types : List TypeDecl) :
    Walk.Opens attachment source (before ++ [node]) node.span.start
      { w with
        pending := none
        scopes := Scope.of attachment source (before ++ [node]) node :: w.scopes
        types } (node :: opens) := by
  have hno : ∀ m, ¬ node.Introduces source (before ++ [node]) m := fun m hi => by
    rw [Node.declares_eq_false.2 hi.doc] at hd
    cases hd
  have hsame : ∀ m ∈ before, Scope.of attachment source (before ++ [node]) m =
      Scope.of attachment source before m := fun m hm => Scope.of_append hlt hm fun _ => hno m
  constructor
  · rw [List.map_cons, h.scopes]
    refine congrArg _ (List.map_congr_left fun m hm => ?_)
    rw [hsame m (h.opened m hm).1]
  · refine List.pairwise_cons.2 ⟨fun m hm => ?_, h.nested⟩
    obtain ⟨hmem, hdm⟩ := h.opened m hm
    have hencloses := (hnest m hmem hdm).encloses hnode ⟨hlt m hmem, hgoes m hm⟩
    exact ⟨hlt m hmem, hencloses.2.2⟩
  · intro m hm
    rcases List.mem_cons.1 hm with rfl | hm
    · exact ⟨List.mem_append_right _ (List.mem_singleton_self m), hd⟩
    · exact (h.opened m hm).imp_left (List.mem_append_left _)
  · intro m hm hdm hgo
    rcases List.mem_append.1 hm with hm | hm
    · exact List.mem_cons_of_mem _ (h.complete m hm hdm hgo)
    · exact List.mem_singleton.1 hm ▸ List.mem_cons_self
  · intro r hr
    obtain ⟨f, hf, hstop, hclosed⟩ := h.closed r hr
    exact ⟨f, List.mem_append_left _ hf, hstop, hsame f hf ▸ hclosed⟩
  · cases attachment with
    | preceding => exact ((waiting_append hlt).1 hd).symm
    | firstStatement => rfl

/-- **The innermost open declaration decides about a literal**: it stands in no other one. -/
theorem introduces_iff {first : Node} {outer : List Node}
    (h : w.Opens .firstStatement source before node.span.start (first :: outer))
    (hgoes : ∀ m ∈ first :: outer, node.span.start < m.span.stop) (hdoc : node.kind = .doc)
    {m : Node} (hm : m ∈ first :: outer) :
    node.Introduces source (before ++ [node]) m ↔
      m = first ∧ isFirstStatement source m.bodyStart node.span.start = true := by
  have haround : ∀ k ∈ first :: outer, k.Around node.span.start := fun k hk =>
    ⟨Nat.le_of_lt (hlt k (h.opened k hk).1), hgoes k hk⟩
  have hinner := (List.pairwise_cons.1 h.nested).1
  rw [isFirstStatement_iff]
  constructor
  · intro hi
    obtain ⟨hfirst, hd⟩ := h.opened first List.mem_cons_self
    have hle := hi.innermost first (List.mem_append_left _ hfirst) hd
      (haround first List.mem_cons_self)
    refine ⟨?_, hi.body, hi.lead⟩
    rcases List.mem_cons.1 hm with rfl | hm
    · rfl
    · exact absurd (hinner m hm).1 (Nat.not_lt.2 hle)
  · rintro ⟨rfl, hbody, hlead⟩
    refine ⟨hdoc, haround m hm, fun k hk hd hk' => ?_, hbody, hlead⟩
    have hmem : k ∈ before := by
      refine (List.mem_append.1 hk).resolve_right fun hk => ?_
      rw [List.mem_singleton.1 hk, Node.declares_eq_false.2 hdoc] at hd
      cases hd
    rcases List.mem_cons.1 (h.complete k hmem hd hk'.2) with rfl | hk
    · exact Nat.le_refl _
    · exact Nat.le_of_lt (hinner k hk).1

/-- A literal goes to the innermost open declaration. -/
theorem literal (h : w.Opens .firstStatement source before node.span.start opens)
    (hgoes : ∀ m ∈ opens, node.span.start < m.span.stop) (hdoc : node.kind = .doc) :
    (w.enter source .firstStatement node).Opens .firstStatement source (before ++ [node])
      node.span.start opens := by
  have hd := Node.declares_eq_false.2 hdoc
  have hended : ∀ m ∈ before, m.span.stop ≤ node.span.start →
      Scope.of .firstStatement source (before ++ [node]) m =
        Scope.of .firstStatement source before m := fun m hm hstop =>
    Scope.of_append hlt hm fun _ hi => Nat.not_lt.2 hstop hi.inside.2
  cases opens with
  | nil =>
    have hscopes : w.scopes = [] := h.scopes
    simp only [Walk.enter, hdoc, hscopes]
    exact h.pass hd h.scopes hended h.pending
  | cons first outer =>
    have hscopes : w.scopes = Scope.of .firstStatement source before first ::
        outer.map (Scope.of .firstStatement source before) := h.scopes
    have hiff := fun m hm => h.introduces_iff hlt hgoes hdoc (m := m) hm
    have hmem := fun m hm => (h.opened m hm).1
    simp only [Walk.enter, hdoc, hscopes]
    refine h.pass hd ?_ hended h.pending
    rw [List.map_cons, Scope.of_withLiteral hlt (hmem first List.mem_cons_self)
      ((hiff first List.mem_cons_self).trans (and_iff_right rfl))]
    refine congrArg _ (List.map_congr_left fun m hm => ?_)
    have hm' := List.mem_cons_of_mem first hm
    refine (Scope.of_append hlt (hmem m hm') fun _ hi => ?_).symm
    have hstart := ((List.pairwise_cons.1 h.nested).1 m hm).1
    rw [((hiff m hm').1 hi).1] at hstart
    exact Nat.lt_irrefl _ hstart

/-- The comment of a routine behind some nodes is the one that waits. -/
theorem commentOf_last (h : w.Opens attachment source before node.span.start opens)
    (hd : node.declares = true) :
    commentOf attachment source (before ++ [node]) node =
      match attachment with
      | .preceding => w.pending.filter fun c => isAdjacent source c.stop node.span.start
      | .firstStatement => none := by
  cases attachment with
  | preceding =>
    have hbefore : (before ++ [node]).filter (fun n => n.span.start < node.span.start) = before := by
      rw [List.filter_append, List.filter_eq_self.2 fun m hm => decide_eq_true (hlt m hm)]
      simp
    simp only [commentOf, hbefore, h.pending, awaited]
  | firstStatement =>
    simp only [commentOf, introduction, Option.map_eq_none_iff, List.head?_eq_none_iff,
      List.filter_eq_nil_iff, decide_eq_true_eq]
    intro d hmem hi
    rcases List.mem_append.1 hmem with hmem | hmem
    · exact Nat.not_lt.2 hi.inside.1 (hlt d hmem)
    · rw [List.mem_singleton.1 hmem] at hi
      rw [Node.declares_eq_false.2 hi.doc] at hd
      cases hd

/-- A comment that stands before what it documents waits, unless it stands in a routine. -/
theorem waits (h : w.Opens .preceding source before node.span.start opens)
    (hin : Scope.inBody w.scopes = true ↔ Covered before node) (hdoc : node.kind = .doc) :
    (w.enter source .preceding node).Opens .preceding source (before ++ [node]) node.span.start
      opens := by
  have hd := Node.declares_eq_false.2 hdoc
  have hsame : ∀ m ∈ before, Scope.of .preceding source (before ++ [node]) m =
      Scope.of .preceding source before m := fun m hm => Scope.of_append hlt hm fun he => by cases he
  have hscopes : w.scopes = opens.map (Scope.of .preceding source (before ++ [node])) := by
    rw [h.scopes]
    exact List.map_congr_left fun m hm => (hsame m (h.opened m hm).1).symm
  simp only [Walk.enter, hdoc]
  split
  · next hb =>
    have hwait := (waiting_append hlt).2.1 hd (hin.1 hb)
    exact h.pass hd hscopes (fun m hm _ => hsame m hm) (h.pending.trans hwait.symm)
  · next hb =>
    have hwait := (waiting_append hlt).2.2 hd (mt hin.2 hb)
    exact h.pass hd hscopes (fun m hm _ => hsame m hm) hwait.symm

/-- A declaration opens its scope: one without a comment if it stands in a routine. -/
theorem declare (h : w.Opens attachment source before node.span.start opens)
    (hin : Scope.inBody w.scopes = true ↔ Covered before node)
    (hgoes : ∀ m ∈ opens, node.span.start < m.span.stop)
    (hnest : ∀ m ∈ before, m.declares = true → m.Uncrossed node)
    (hnode : node.span.start ≤ node.span.stop) (hd : node.declares = true) :
    (w.enter source attachment node).Opens attachment source (before ++ [node]) node.span.start
      (node :: opens) := by
  have hp := h.push hlt hgoes hnest hnode hd
  have hcov : Covered (before ++ [node]) node ↔ Covered before node :=
    covered_append fun l hl => List.mem_singleton.1 hl ▸ Nat.le_refl _
  cases hb : Scope.inBody w.scopes with
  | true =>
    have hp := hp w.types
    rw [Scope.of, if_pos (hcov.2 (hin.1 hb))] at hp
    cases hk : node.kind with
    | doc =>
      rw [Node.declares_eq_false.2 hk] at hd
      cases hd
    | typeDecl name =>
      simp only [Walk.enter, hk, hb, if_true]
      exact hp
    | routine name b =>
      simp only [Walk.enter, hk, hb, if_true]
      exact hp
  | false =>
    have hfree : ¬ Covered (before ++ [node]) node := by
      rw [hcov, ← hin, hb]
      exact Bool.false_ne_true
    cases hk : node.kind with
    | doc =>
      rw [Node.declares_eq_false.2 hk] at hd
      cases hd
    | typeDecl name =>
      have hp := hp (w.types ++ [⟨name, node.signature⟩])
      simp only [Scope.of, if_neg hfree, hk] at hp
      simp only [Walk.enter, hk, hb, if_false, Bool.false_eq_true]
      exact hp
    | routine name b =>
      have hp := hp w.types
      simp only [Scope.of, if_neg hfree, hk, h.commentOf_last hlt hd] at hp
      simp only [Walk.enter, hk, hb, if_false, Bool.false_eq_true]
      cases attachment with
      | preceding => exact hp
      | firstStatement => exact hp

end Enter

/-- **One place keeps what the walk has come to**. -/
theorem step (h : w.Opens attachment source before pos opens) (ht : w.Traces source before pos)
    (hlt : ∀ m ∈ before, m.span.start < node.span.start) (hpos : pos ≤ node.span.start)
    (hnest : ∀ m ∈ before, m.declares = true → node.declares = true → m.Uncrossed node)
    (hnode : node.span.start ≤ node.span.stop) :
    ∃ more, (w.step source attachment node).Opens attachment source (before ++ [node])
      node.span.start more := by
  have hc := h.close hpos
  have hgoes : ∀ m ∈ opens.dropWhile fun m => m.span.stop ≤ node.span.start,
      node.span.start < m.span.stop := lt_stop h.nested
  have hin := ht.inBody_iff (fun m hm _ => hlt m hm) hpos
  cases hd : node.declares with
  | true => exact ⟨_, hc.declare hlt hin hgoes (fun m hm hdm => hnest m hm hdm hd) hnode hd⟩
  | false =>
    have hdoc := Node.declares_eq_false.1 hd
    cases attachment with
    | preceding => exact ⟨_, hc.waits hlt hin hdoc⟩
    | firstStatement => exact ⟨_, hc.literal hlt hgoes hdoc⟩

theorem foldl (h : w.Opens attachment source before pos opens) (ht : w.Traces source before pos)
    (nodes : List Node)
    (hsorted : (before ++ nodes).Pairwise fun m n => m.span.start < n.span.start)
    (hnest : WellNested (before ++ nodes))
    (hle : ∀ n ∈ nodes, n.span.start ≤ n.span.stop) (hpos : ∀ n ∈ nodes, pos ≤ n.span.start) :
    ∃ last more, (nodes.foldl (Walk.step source attachment) w).Opens attachment source
      (before ++ nodes) last more := by
  induction nodes generalizing w pos before opens with
  | nil =>
    rw [List.append_nil]
    exact ⟨pos, opens, h⟩
  | cons node nodes ih =>
    have hmem : node ∈ node :: nodes := List.mem_cons_self
    have hlt : ∀ m ∈ before, m.span.start < node.span.start := fun m hm =>
      (List.pairwise_append.1 hsorted).2.2 m hm node hmem
    have hcross : ∀ m ∈ before, m.declares = true → node.declares = true → m.Uncrossed node :=
      fun m hm => (List.pairwise_append.1 hnest.uncrossed).2.2 m hm node hmem
    obtain ⟨more, hstep⟩ := h.step ht hlt (hpos node hmem) hcross (hle node hmem)
    have htrace := ht.step attachment (fun m hm => Nat.le_of_lt (hlt m hm))
      (fun m hm _ _ => hlt m hm) (hpos node hmem)
    have hnext := (List.pairwise_cons.1 (List.pairwise_append.1 hsorted).2.1).1
    rw [List.append_cons] at hsorted hnest ⊢
    exact ih hstep htrace hsorted hnest (fun n hn => hle n (List.mem_cons_of_mem _ hn))
      fun n hn => Nat.le_of_lt (hnext n hn)

end Walk.Opens

/-! ## Surveys -/

/-- What closes a scope that a node has opened. -/
theorem Scope.closed?_of {attachment : Attachment} {source : Text} {nodes : List Node} {f : Node}
    {r : Routine} (h : (Scope.of attachment source nodes f).closed? source = some r) :
    f.isRoutine = true ∧ f.key = r.key ∧ r.commentSpan = commentOf attachment source nodes f := by
  unfold Scope.of at h
  split at h
  · cases h
  · split at h
    · next name b hk =>
      cases h
      exact ⟨by rw [Node.isRoutine, hk], by rw [Node.key, Node.name, hk]; rfl, rfl⟩
    · cases h

/-- **A routine of a survey stands for a node, and carries what that carries**. -/
theorem WellNested.survey_comment {o : Outline} (h : WellNested o.nodes) (hfits : o.Fits)
    {attachment : Attachment} {r : Routine} (hr : r ∈ (o.survey attachment).1) :
    ∃ f ∈ o.nodes, f.isRoutine = true ∧ f.key = r.key ∧ ∀ c, r.commentSpan = some c ↔
      ∃ d ∈ o.nodes, d.span = c ∧ f.Carries attachment o.source o.nodes d := by
  have hle := fun n hn => (hfits.nodes n hn).span.ordered
  have hsorted := h.ascending hfits.sorted
  obtain ⟨last, opens, hw⟩ := (Walk.Opens.initial attachment o.source).foldl
    (Walk.Traces.initial o.source) o.nodes hsorted h hle fun _ _ => Nat.zero_le _
  obtain ⟨-, w, -, he, hsurvey⟩ := hfits.survey_last attachment
  rw [← he, List.nil_append] at hw
  rw [hsurvey] at hr
  obtain ⟨f, hf, hclosed⟩ : ∃ f ∈ o.nodes,
      (Scope.of attachment o.source o.nodes f).closed? o.source = some r := by
    rcases List.mem_append.1 hr with hr | hr
    · obtain ⟨f, hf, -, hclosed⟩ := hw.closed r hr
      exact ⟨f, hf, hclosed⟩
    · rw [hw.scopes, List.filterMap_map] at hr
      obtain ⟨f, hf, hclosed⟩ := List.mem_filterMap.1 hr
      exact ⟨f, (hw.opened f hf).1, hclosed⟩
  obtain ⟨hroutine, hkey, hcomment⟩ := Scope.closed?_of hclosed
  refine ⟨f, hf, hroutine, hkey, fun c => ?_⟩
  rw [hcomment, commentOf_eq_some h hsorted hle hf hroutine]

/-- The routines of a survey start one after the other. -/
theorem WellNested.survey_ascending {o : Outline} (h : WellNested o.nodes) (hfits : o.Fits)
    (attachment : Attachment) :
    (o.survey attachment).1.Pairwise fun r s => r.span.start < s.span.start := by
  have hkeys : ((o.survey attachment).1.map Routine.key).Pairwise fun r s =>
      r.2.2.start < s.2.2.start := by
    rw [h.survey_routines hfits attachment]
    exact List.pairwise_map.2 ((h.ascending hfits.sorted).sublist List.filter_sublist)
  rwa [List.pairwise_map] at hkeys

/-- **Which comments are attached among nodes that do not cross**. A routine of a survey carries a
comment if and only if the nodes say so, it has the text of that comment and nothing else for a
comment, and no two routines carry the same one. -/
theorem Outline.survey_comments {source : Text} {nodes : List Node}
    (hnodes : ∀ n ∈ nodes, n.Fits source) (hnested : WellNested nodes) (attachment : Attachment) :
    let routines := ((Outline.ofNodes source nodes).survey attachment).1
    (∀ r ∈ routines, r.comment = (r.commentSpan.map (·.of source)).getD [] ∧
      ∃ f ∈ nodes, f.isRoutine = true ∧ f.key = r.key ∧
        (∀ c, r.commentSpan = some c → ∃ d ∈ nodes, d.span = c) ∧
        ∀ d ∈ nodes, r.commentSpan = some d.span ↔ f.Carries attachment source nodes d) ∧
      routines.Pairwise fun r s => ∀ c, r.commentSpan = some c → s.commentSpan ≠ some c := by
  intro routines
  have hfits : (Outline.ofNodes source nodes).Fits := Outline.ofNodes_fits hnodes
  have hperm : (Outline.ofNodes source nodes).nodes.Perm nodes := List.mergeSort_perm _ _
  have hsorted : WellNested (Outline.ofNodes source nodes).nodes := hnested.perm hperm.symm
  have hcomment : ∀ r ∈ routines, ∃ f ∈ nodes, f.isRoutine = true ∧ f.key = r.key ∧
      ∀ c, r.commentSpan = some c ↔ ∃ d ∈ nodes, d.span = c ∧
        f.Carries attachment source nodes d := by
    intro r hr
    obtain ⟨f, hf, hroutine, hkey, hiff⟩ := hsorted.survey_comment hfits hr
    refine ⟨f, hperm.mem_iff.1 hf, hroutine, hkey, fun c => (hiff c).trans ?_⟩
    simp only [hperm.mem_iff, Node.carries_perm hperm]
    rfl
  refine ⟨fun r hr => ⟨(hfits.survey_stands attachment r hr).comment, ?_⟩, ?_⟩
  · obtain ⟨f, hf, hroutine, hkey, hiff⟩ := hcomment r hr
    refine ⟨f, hf, hroutine, hkey, fun c hc => ?_, fun d hd => ⟨fun hc => ?_, fun hc => ?_⟩⟩
    · obtain ⟨d, hd, hspan, -⟩ := (hiff c).1 hc
      exact ⟨d, hd, hspan⟩
    · obtain ⟨e, he, hspan, hcarries⟩ := (hiff d.span).1 hc
      rwa [hnested.eq_of_start he hd (congrArg Span.start hspan)] at hcarries
    · exact (hiff d.span).2 ⟨d, hd, rfl, hc⟩
  · refine (List.Pairwise.and_mem.1 (hsorted.survey_ascending hfits attachment)).imp ?_
    rintro r s ⟨hr, hs, hlt⟩ c hrc hsc
    obtain ⟨f, hf, hfr, hfkey, hfiff⟩ := hcomment r hr
    obtain ⟨g, hg, hgr, hgkey, hgiff⟩ := hcomment s hs
    obtain ⟨d, hd, hspan, hfd⟩ := (hfiff c).1 hrc
    obtain ⟨e, he, rfl, hge⟩ := (hgiff c).1 hsc
    obtain rfl : d = e := hnested.eq_of_start hd he (congrArg Span.start hspan)
    have hsame := hnested.eq_of_carries hd (hnodes d hd).span.ordered hf hfr hfd hg hgr hge
    have hkeys : r.key = s.key := by rw [← hfkey, ← hgkey, hsame]
    have hspans : r.span = s.span := congrArg (fun key => key.2.2) hkeys
    rw [hspans] at hlt
    exact Nat.lt_irrefl _ hlt

/-- Two routines with comments before them, and a field between the second comment and its
routine. -/
def fieldText : Text :=
  "/** a */\nvoid a() {}\n/** b */\nint x;\nvoid b() {}\n".toList

/-- The nodes of `fieldText`. -/
def fieldNodes : List Node :=
  [.doc ⟨0, 8⟩, .routine "a".toList "void a()".toList ⟨9, 20⟩ 18,
    .doc ⟨21, 29⟩, .routine "b".toList "void b()".toList ⟨37, 48⟩ 46]

/-- In `fieldText` the first routine carries the first comment, and the field keeps the second
routine from the second one. -/
theorem survey_comments_fieldNodes :
    (∀ n ∈ fieldNodes, n.Fits fieldText) ∧ WellNested fieldNodes ∧
      (Node.routine "a".toList "void a()".toList ⟨9, 20⟩ 18).Carries .preceding fieldText fieldNodes
        (.doc ⟨0, 8⟩) ∧
      ¬ (Node.routine "b".toList "void b()".toList ⟨37, 48⟩ 46).Carries .preceding fieldText
        fieldNodes (.doc ⟨21, 29⟩) := by
  have hfits : ∀ n ∈ fieldNodes, n.Fits fieldText := by decide +kernel
  have hnested : WellNested fieldNodes := ⟨by decide, by decide⟩
  have hsurvey : ((Outline.ofNodes fieldText fieldNodes).survey .preceding).1 =
      [⟨"a".toList, "void a()".toList, "{}".toList, ⟨9, 20⟩, "/** a */".toList, some ⟨0, 8⟩⟩,
        ⟨"b".toList, "void b()".toList, "{}".toList, ⟨37, 48⟩, [], none⟩] := by
    have hnodes : Outline.ofNodes fieldText fieldNodes =
        ⟨fieldText, sortBy (·.span.start) fieldNodes⟩ :=
      congrArg (Outline.mk fieldText) (mergeSort_eq_sortBy fieldNodes)
    rw [hnodes]
    exact (mergeSort_eq_sortBy _).trans (by decide +kernel)
  obtain ⟨hcomments, -⟩ := Outline.survey_comments hfits hnested .preceding
  rw [hsurvey] at hcomments
  obtain ⟨-, f, hf, -, hfkey, -, hfiff⟩ := hcomments _ List.mem_cons_self
  obtain ⟨-, g, hg, -, hgkey, -, hgiff⟩ :=
    hcomments _ (List.mem_cons_of_mem _ List.mem_cons_self)
  have hfirst : ∀ m ∈ fieldNodes, m.span = ⟨9, 20⟩ →
      m = .routine "a".toList "void a()".toList ⟨9, 20⟩ 18 := by decide
  have hsecond : ∀ m ∈ fieldNodes, m.span = ⟨37, 48⟩ →
      m = .routine "b".toList "void b()".toList ⟨37, 48⟩ 46 := by decide
  rw [hfirst f hf (congrArg (fun key => key.2.2) hfkey)] at hfiff
  rw [hsecond g hg (congrArg (fun key => key.2.2) hgkey)] at hgiff
  refine ⟨hfits, hnested, (hfiff (.doc ⟨0, 8⟩) (by decide)).1 rfl, fun hc => ?_⟩
  cases (hgiff (.doc ⟨21, 29⟩) (by decide)).2 hc

end Scholia.Source
