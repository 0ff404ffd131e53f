import Scholia.Proofs.Evaluation
import Scholia.Proofs.Source.Procedural.Interfaces
/-!
# Procedures by their headers

**No procedure is lost and none is made up**: what is found are the headers of procedures, in order,
but for those that go on with an earlier header, that have no body, and that stand in an interface.
Each procedure ends with a line that ends one of its kind.

While the lines are read, a procedure that has begun is owed: behind it no other one begins before a
line has ended it. So what the lines to come find is the procedure that is open, if there is one, and
then one for each of their headers.
-/

namespace Scholia.Source.Procedural

variable {source : Text} {before after lines : List PhysicalLine} {line : PhysicalLine}
  {s s' t : State} {o : Outline}

/-! ## Lines that go on with a header -/

/-- The next line goes on with a header: among the lines before it, the nearest first, is one, and
all from that on go on. -/
def Continues (before : List PhysicalLine) : Prop :=
  ∃ between header rest, before = between ++ header :: rest ∧ header.header?.isSome = true ∧
    ∀ l ∈ header :: between, State.isContinued l.text = true

theorem not_continues_nil : ¬ Continues [] := by
  rintro ⟨between, header, rest, he, -⟩
  cases between <;> cases he

theorem continues_cons : Continues (line :: before) ↔
    State.isContinued line.text = true ∧ (line.header?.isSome = true ∨ Continues before) := by
  constructor
  · rintro ⟨between, header, rest, he, hheader, hall⟩
    cases between with
    | nil =>
      cases he
      exact ⟨hall _ List.mem_cons_self, .inl hheader⟩
    | cons l between =>
      cases he
      refine ⟨hall line (by simp), .inr ⟨between, header, rest, rfl, hheader, fun l hl => ?_⟩⟩
      exact hall l (List.cons_subset_cons _ (List.subset_cons_self _ _) hl)
  · rintro ⟨hline, hheader | ⟨between, header, rest, rfl, hheader, hall⟩⟩
    · exact ⟨[], line, before, rfl, hheader, by simpa using hline⟩
    · refine ⟨line :: between, header, rest, rfl, hheader, ?_⟩
      obtain ⟨hfirst, hbetween⟩ := List.forall_mem_cons.1 hall
      exact List.forall_mem_cons.2 ⟨hfirst, List.forall_mem_cons.2 ⟨hline, hbetween⟩⟩

instance decidableContinues : (before : List PhysicalLine) → Decidable (Continues before)
  | [] => isFalse not_continues_nil
  | _ :: before =>
    have := decidableContinues before
    decidable_of_iff _ continues_cons.symm

/-- **A state goes on with a header if the next line does**. -/
theorem Reads.continued_iff (h : Reads before.reverse s) : s.continued ≠ .no ↔ Continues before := by
  induction before generalizing s with
  | nil =>
    cases h
    exact iff_of_false (by decide) not_continues_nil
  | cons line before ih =>
    rw [Reads, List.reverse_cons, List.foldlM_append] at h
    obtain ⟨s₀, hs₀, hstep⟩ := bind_eq_ok.1 h
    rw [List.foldlM_cons] at hstep
    obtain ⟨t, hstep, ht⟩ := bind_eq_ok.1 hstep
    cases ht
    refine Iff.trans (step_moves hstep).2 ?_
    rw [ih hs₀, continues_cons, or_comm]

/-! ## Procedures that are owed -/

/-- The procedure that has begun is found with one of the lines to come: that ends its kind. -/
structure Begun.Ends (b : Begun) (after : List PhysicalLine) (name : Text) (span : Span) : Prop where
  name : name = b.name
  start : span.start = b.start
  stop : ∃ line ∈ after, ∃ keyword, ending? procedureWords line.text = some keyword ∧
    Text.sameLetters b.keyword keyword = true ∧ span.stop = line.stop

theorem Begun.Ends.cons {b : Begun} {name : Text} {span : Span} (h : b.Ends after name span)
    (line : PhysicalLine) : b.Ends (line :: after) name span where
  name := h.name
  start := h.start
  stop := h.stop.imp fun _ hl => hl.imp_left (List.mem_cons_of_mem _)

/-- What is found at a header: it begins there, and has its name. -/
def Declares (p : Site PhysicalLine) (name : Text) (span : Span) : Prop :=
  ∃ d, p.line.header? = some d ∧ (d.begun p.line).Ends p.after name span

/-- The procedures that have been found, the last one first. -/
def State.routines (s : State) : List Node :=
  s.found.filter Node.isRoutine

/-- What some lines find: the procedures that were owed, and those that are declared at the headers
among them. -/
def Finds (before lines : List PhysicalLine) (opening : Site PhysicalLine → Bool) (s s' : State) :
    Prop :=
  ∃ owed declared, s'.routines = (owed ++ declared).reverse ++ s.routines ∧
    List.Forall₂ (fun n b => Begun.Ends b lines n.name n.span) owed s.begun.toList ∧
    List.Forall₂ (fun n p => Declares p n.name n.span) declared
      ((sites before lines).filter opening)

namespace Finds

variable {opening : Site PhysicalLine → Bool}

/-- A line before the others that declares nothing. -/
theorem stay (h : Finds (line :: before) lines opening t s')
    (hquiet : opening ⟨before, line, lines⟩ = false) (hbegun : t.begun = s.begun)
    (hroutines : t.routines = s.routines) : Finds before (line :: lines) opening s s' := by
  obtain ⟨owed, declared, hfound, howed, hdeclared⟩ := h
  refine ⟨owed, declared, hroutines ▸ hfound, ?_, ?_⟩
  · rw [← hbegun]
    exact howed.imp fun _ _ hends => hends.cons line
  · rw [sites, List.filter_cons_of_neg (by rw [hquiet]; decide)]
    exact hdeclared

/-- A header before the other lines: what it begins is owed by them. -/
theorem opens {d : Declarator} (h : Finds (line :: before) lines opening t s')
    (hopening : opening ⟨before, line, lines⟩ = true) (hheader : line.header? = some d)
    (hnone : s.begun = none) (hbegun : t.begun = some (d.begun line))
    (hroutines : t.routines = s.routines) : Finds before (line :: lines) opening s s' := by
  obtain ⟨owed, declared, hfound, howed, hdeclared⟩ := h
  rw [hbegun] at howed
  obtain ⟨n, rest, hends, hrest, rfl⟩ := List.forall₂_cons_right_iff.1 howed
  obtain rfl := List.forall₂_nil_right_iff.1 hrest
  refine ⟨[], n :: declared, hroutines ▸ hfound, ?_, ?_⟩
  · rw [hnone]
    exact .nil
  · rw [sites, List.filter_cons_of_pos hopening]
    exact .cons ⟨d, hheader, hends⟩ hdeclared

/-- An end before the other lines: it ends what was owed. -/
theorem closes {b : Begun} {n : Node} (h : Finds (line :: before) lines opening t s')
    (hquiet : opening ⟨before, line, lines⟩ = false) (hbegun : s.begun = some b)
    (hnone : t.begun = none) (hends : b.Ends [line] n.name n.span)
    (hroutines : t.routines = n :: s.routines) : Finds before (line :: lines) opening s s' := by
  obtain ⟨owed, declared, hfound, howed, hdeclared⟩ := h
  rw [hnone] at howed
  obtain rfl := List.forall₂_nil_right_iff.1 howed
  refine ⟨[n], declared, ?_, ?_, ?_⟩
  · rw [hfound, hroutines, List.nil_append, List.reverse_append, List.append_assoc]
    rfl
  · rw [hbegun]
    obtain ⟨l, hl, hfacts⟩ := hends.stop
    obtain rfl := List.mem_singleton.1 hl
    exact .cons ⟨hends.name, hends.start, l, List.mem_cons_self, hfacts⟩ .nil
  · rw [sites, List.filter_cons_of_neg (by rw [hquiet]; decide)]
    exact hdeclared

end Finds

/-- **What some lines find** is owed or declared by them. -/
theorem finds_of_foldlM {opening : Site PhysicalLine → Bool} (hr : Reads before.reverse s)
    (h : lines.foldlM State.step s = .ok s') (hnone : s'.begun = none)
    (hopening : ∀ p ∈ sites before lines, ∀ s, Reads p.before.reverse s →
      (opening p = true ↔ ∃ d, s.Opens p.line d)) : Finds before lines opening s s' := by
  induction lines generalizing before s with
  | nil =>
    cases h
    refine ⟨[], [], rfl, ?_, .nil⟩
    rw [hnone]
    exact .nil
  | cons line rest ih =>
    rw [List.foldlM_cons] at h
    obtain ⟨t, hstep, hrest⟩ := bind_eq_ok.1 h
    -- What the rest finds is owed by the state behind this line, and declared by the sites behind it.
    have hnext : Finds (line :: before) rest opening t s' := by
      refine ih ?_ hrest fun p hp => hopening p (List.mem_cons_of_mem _ hp)
      rw [List.reverse_cons]
      exact hr.next hstep
    have hsite := hopening ⟨before, line, rest⟩ List.mem_cons_self s hr
    have hquiet (hno : ∀ d, ¬ s.Opens line d) : opening ⟨before, line, rest⟩ = false :=
      Bool.eq_false_iff.2 fun ho => (hsite.1 ho).elim hno
    cases (step_moves hstep).1 with
    | stay hno hbegun _ hfound =>
      exact hnext.stay (hquiet hno) hbegun (congrArg (List.filter Node.isRoutine) hfound)
    | opens d hopens hbefore hbegun _ hfound =>
      exact hnext.opens (hsite.2 ⟨d, hopens⟩) hopens.header hbefore hbegun
        (congrArg (List.filter Node.isRoutine) hfound)
    | closes b keyword signature bodyStart hheader hbegun hending hsame hended _ hfound =>
      refine hnext.closes (n := .routine b.name signature ⟨b.start, line.stop⟩ bodyStart)
        (hquiet (State.not_opens hheader)) hbegun hended ⟨rfl, rfl, line, by simp, keyword, hending,
          hsame, rfl⟩ ?_
      rw [State.routines, hfound]
      rfl
    | opensType _ _ hheader _ _ _ hbegun _ hfound =>
      exact hnext.stay (hquiet (State.not_opens hheader)) hbegun
        (congrArg (List.filter Node.isRoutine) hfound)
    | closesType _ hheader hbegun _ hfound =>
      refine hnext.stay (hquiet (State.not_opens hheader)) hbegun ?_
      rw [State.routines, hfound]
      rfl

/-! ## The procedures of an outline -/

/-- Only which types there are matters. -/
theorem InInterface.congr {nodes more : List Node} {byte : Nat}
    (h : ∀ n : Node, n.isType = true → (n ∈ nodes ↔ n ∈ more)) :
    InInterface lines nodes byte ↔ InInterface lines more byte := by
  have hof {nodes more : List Node} (h : ∀ n : Node, n.isType = true → (n ∈ nodes ↔ n ∈ more)) :
      InInterface lines nodes byte → InInterface lines more byte := by
    rintro ⟨n, hn, haround, hinner, hline⟩
    exact ⟨n, (h n haround.1).1 hn, haround, fun m hm hmaround =>
      hinner m ((h m hmaround.1).2 hm) hmaround, hline⟩
  exact ⟨hof h, hof fun n hn => (h n hn).symm⟩

/-- The headers of procedures with a body: they go on with no other header, and do not stand in an
interface. -/
def procedureSites (source : Text) (nodes : List Node) : List (Site PhysicalLine) :=
  (sites [] (physicalLines source)).filter fun p =>
    p.line.header?.any (fun d => !d.isAbstract) && !decide (Continues p.before) &&
      !decide (InInterface (physicalLines source) nodes p.line.start)

/-- A header opens a procedure where it is read if it does so by its site. -/
theorem opens_iff {nodes : List Node} {last : State} {p : Site PhysicalLine}
    (hp : p ∈ sites [] (physicalLines source)) (hr : Reads p.before.reverse s)
    (hlast : Reads (physicalLines source) last) (htypes : last.types = [])
    (hnodes : ∀ n : Node, n.isType = true → (n ∈ last.found ↔ n ∈ nodes)) :
    (p.line.header?.any (fun d => !d.isAbstract) && !decide (Continues p.before) &&
      !decide (InInterface (physicalLines source) nodes p.line.start)) = true ↔
        ∃ d, s.Opens p.line d := by
  obtain ⟨pre, -, hlines, hbefore, -⟩ := exists_of_mem_sites hp
  have hpre : p.before.reverse = pre := by rw [hbefore, List.append_nil, List.reverse_reverse]
  have hinterface (hheader : p.line.header?.isSome = true) := (inInterface_iff hlines (hpre ▸ hr)
    hlast htypes hheader).trans (InInterface.congr hnodes)
  simp only [Bool.and_eq_true, Option.any_eq_true, Bool.not_eq_true', decide_eq_false_iff_not]
  constructor
  · rintro ⟨⟨⟨d, hd, hconcrete⟩, hno⟩, houtside⟩
    refine ⟨d, ?_, hd, hconcrete, ?_⟩
    · exact Decidable.byContradiction fun hc => hno (hr.continued_iff.1 hc)
    · rw [← hinterface (by rw [hd]; rfl)] at houtside
      exact Bool.eq_false_iff.2 houtside
  · rintro ⟨d, hopens⟩
    refine ⟨⟨⟨d, hopens.header, hopens.concrete⟩, fun hc => ?_⟩, ?_⟩
    · exact hr.continued_iff.2 hc hopens.continued
    · rw [← hinterface (by rw [hopens.header]; rfl), hopens.outside]
      decide

/-- The routines of an outline are those that have been found, in order. -/
theorem outline_routines (h : outline source = .ok o) {last : State}
    (ho : o = .ofNodes source last.nodes.reverse) (hordered : last.Ordered (physicalLines source)) :
    o.nodes.filter Node.isRoutine = last.routines.reverse := by
  have hperm : (o.nodes.filter Node.isRoutine).Perm last.routines.reverse := by
    have hsame : last.routines = last.nodes.filter Node.isRoutine := by
      rw [State.routines, State.found, List.filter_filter]
      refine List.filter_congr fun n _ => ?_
      cases hn : n.isRoutine with
      | false => rfl
      | true => rw [Node.declares_of_isRoutine hn, Bool.and_true]
    rw [hsame, ← List.filter_reverse, ho]
    exact (List.mergeSort_perm _ _).filter _
  have hsorted : (o.nodes.filter Node.isRoutine).Pairwise fun m n => m.span.start < n.span.start := by
    refine List.pairwise_filter.2 ((outline_flat h).distinct.imp fun {m n} hlt hm hn => ?_)
    exact hlt (Node.declares_of_isRoutine hm) (Node.declares_of_isRoutine hn)
  -- A procedure that ends later starts behind the ones before: it lies in none of them.
  have hfound : last.routines.reverse.Pairwise fun m n => m.span.start < n.span.start := by
    rw [List.pairwise_reverse]
    refine List.pairwise_filter.2 ((List.Pairwise.and_mem.1 hordered.ends).imp
      fun {later earlier} hends hlater hearlier => ?_)
    obtain ⟨-, hmem, hends⟩ := hends
    rcases hends with hle | ⟨hno, -⟩
    · exact Nat.lt_of_lt_of_le (hordered.pos earlier hmem) hle
    · rw [hno] at hlater
      cases hlater
  refine List.Perm.eq_of_pairwise (fun m n _ _ hmn hnm => ?_) hsorted hfound hperm
  exact absurd hmn (Nat.lt_asymm hnm)

/-- **No procedure is lost and none is made up.** A text that has an outline is surveyed, and its
routines are, in order and each once, the procedures whose headers have a body, go on with no other
header and do not stand in an interface. Each starts with the code of its header and ends with a line
that ends one of its kind, before the next one starts. -/
theorem survey_procedures (h : Language.visualBasic.outline source = .ok o) :
    ∃ routines types, Language.visualBasic.survey source = .ok (routines, types) ∧
      List.Forall₂ (fun r p => Declares p r.name r.span) routines (procedureSites source o.nodes) ∧
      routines.Pairwise fun r r' => r.span.stop ≤ r'.span.start := by
  have hsurvey : Language.visualBasic.survey source = .ok (o.survey .preceding) :=
    bind_eq_ok.2 ⟨o, h, rfl⟩
  have h : outline source = .ok o := h
  have hfits := (outline_fits h).2
  refine ⟨_, _, hsurvey, ?_, ?_⟩
  · obtain ⟨last, hlast, hprocedure, htypes, ho, -, hordered⟩ := outline_reads h
    have hnodes : ∀ n : Node, n.isType = true → (n ∈ last.found ↔ n ∈ o.nodes) := fun n hn => by
      have hdeclares : n.declares = true := by rw [Node.declares_eq, hn, Bool.or_true]
      simp [State.found, ho, Outline.ofNodes, hdeclares]
    have hinitial : Reads ([] : List PhysicalLine).reverse .initial := rfl
    obtain ⟨owed, declared, hfound, howed, hdeclared⟩ := finds_of_foldlM hinitial hlast
      (by rw [State.begun, hprocedure]; rfl) fun p hp s hr => opens_iff hp hr hlast htypes hnodes
    obtain rfl := List.forall₂_nil_right_iff.1 howed
    have hkeys := (outline_flat h).survey_all hfits .preceding
    have hall : last.routines.reverse = declared := by
      rw [hfound, List.nil_append]
      exact (congrArg List.reverse (List.append_nil _)).trans (List.reverse_reverse _)
    rw [outline_routines h ho hordered, hall] at hkeys
    have hkeyed : List.Forall₂ (fun key p => Declares p key.1 key.2.2) (declared.map Node.key)
        (procedureSites source o.nodes) := List.forall₂_map_left_iff.2 hdeclared
    rw [← hkeys] at hkeyed
    exact List.forall₂_map_left_iff.1 hkeyed
  · refine (hfits.survey_apart .preceding).imp fun {r r'} hbefore => ?_
    rw [Routine.Before, Routine.Fits.extent_stop] at hbefore
    exact Nat.le_trans hbefore (Routine.Fits.extent_start_le r')

/-- A member of an interface, a member without a body, and a procedure whose header has two lines, in
which a lambda ends. -/
def shapeText : Text :=
  ("Interface I\n  Sub Draw()\nEnd Interface\nClass C\n  MustOverride Sub Hide()\n" ++
    "  Function Scale(x, _\n      y)\n    f = Function(z)\n    End Function\n  End Function\n" ++
    "End Class\n").toList

/-- The nodes of `shapeText`, in the order in which they end. -/
def shapeNodes : List Node :=
  [.typeDecl "I".toList "Interface I".toList ⟨0, 38⟩,
    .routine "Scale".toList "Function Scale(x, y)".toList ⟨75, 155⟩ 103,
    .typeDecl "C".toList "Class C".toList ⟨39, 165⟩]

/-- In `shapeText` only the procedure is found. -/
theorem survey_procedures_shapeText :
    ∃ o scale types, Language.visualBasic.outline shapeText = .ok o ∧
      Language.visualBasic.survey shapeText = .ok ([scale], types) ∧
      scale.name = "Scale".toList ∧ scale.span.start = 75 := by
  have hplaces : Language.places .visualBasic shapeText = .ok shapeNodes := by decide +kernel
  have ho : Language.visualBasic.outline shapeText =
      .ok ⟨shapeText, sortBy (·.span.start) shapeNodes⟩ := by
    rw [Language.outline_eq, hplaces]
    exact congrArg Except.ok (congrArg (Outline.mk shapeText) (mergeSort_eq_sortBy shapeNodes))
  have hheaders : (procedureSites shapeText (sortBy (·.span.start) shapeNodes)).map (fun p =>
      (p.line.header?.map Declarator.name, p.line.start)) = [(some "Scale".toList, 75)] := by
    decide +kernel
  obtain ⟨routines, types, hsurvey, hfound, -⟩ := survey_procedures ho
  obtain ⟨p, ps, hps, hp, hnil⟩ := List.map_eq_cons_iff.1 hheaders
  rw [hps, List.map_eq_nil_iff.1 hnil] at hfound
  obtain ⟨scale, rest, hscale, hrest, rfl⟩ := List.forall₂_cons_right_iff.1 hfound
  obtain rfl := List.forall₂_nil_right_iff.1 hrest
  obtain ⟨d, hd, hends⟩ := hscale
  obtain ⟨hname, hstart⟩ := Prod.mk.inj hp
  rw [hd] at hname
  exact ⟨_, scale, types, ho, hsurvey, hends.name.trans (Option.some_inj.1 hname),
    hends.start.trans hstart⟩

end Scholia.Source.Procedural
