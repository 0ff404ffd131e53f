import Scholia.Proofs.Evaluation
import Scholia.Proofs.Source.Procedural.Headers
import Scholia.Proofs.Source.Procedural.Replace
/-!
# Lambdas that are left open

A procedure may end while lambdas are open in it: its end need not be written as the end of a lambda,
or be of another kind. What it leaves open stays open behind it, below the lambdas of the procedures
that follow. Only one line can tell the difference, the end of such a procedure: if no lambda of its
own is open there, the end is matched against those left from before. If it ends one of them, the
procedure goes on to the end of the text.
-/

namespace Scholia.Source.Procedural

open Text (isWhole lineTexts)

variable {source text a b : Text} {s t u : State} {line : PhysicalLine} {keyword : Text}
  {below : List Text} {ds : List Declared} {p : OpenProcedure} {o : Outline} {r q : Routine}

/-! ## Ends -/

/-- The keyword of a line that ends a procedure or a lambda: it is no comment, and not blank. -/
def PhysicalLine.ending? (line : PhysicalLine) : Option Text :=
  if isComment line.text || Text.allBlank line.text then none
  else Procedural.ending? procedureWords line.text

/-- Whether an end with this keyword ends the innermost of some lambdas. -/
def endsLambda (keyword : Text) (lambdas : List Text) : Bool :=
  (lambdas.head?.map (Text.sameLetters keyword)).getD false

theorem PhysicalLine.not_allBlank_of_ending (h : line.ending? = some keyword) :
    Text.allBlank line.text = false := by
  unfold PhysicalLine.ending? at h
  split at h
  · cases h
  · next hquiet =>
    rw [Bool.or_eq_true, not_or, Bool.not_eq_true, Bool.not_eq_true] at hquiet
    exact hquiet.2

theorem step_of_ending (hs : s.continued = .no) (h : line.ending? = some keyword) :
    s.step line = State.endProcedure { s with banner := none } line keyword := by
  unfold PhysicalLine.ending? at h
  split at h
  · cases h
  next hcode => simp only [State.step_eq_code ⟨hs, Bool.eq_false_iff.2 hcode⟩, State.code, h]

/-- A line ends the open procedure, and none of the lambdas that are open. -/
structure State.Closes (s : State) (line : PhysicalLine) (p : OpenProcedure) (keyword : Text)
    (t : State) : Prop where
  continued : s.continued = .no
  ending : line.ending? = some keyword
  procedure : s.procedure = some p
  same : Text.sameLetters p.keyword keyword = true
  noLambda : endsLambda keyword s.lambdas = false
  result : t = { s with
    banner := none
    procedure := none
    nodes := .routine p.name (signature p.header) ⟨p.start, line.stop⟩ p.bodyStart :: s.nodes }

/-- **A procedure is found with the line that ends it**. -/
theorem closes_of_step (h : s.step line = .ok t) (hne : t.routines ≠ s.routines) :
    ∃ p keyword, s.Closes line p keyword t := by
  cases State.step_eq_ok_iff.1 h with
  | @endProcedure keyword p hcode hending hlambda hopen hsame =>
    have hkeyword : line.ending? = some keyword :=
      (if_neg (Bool.eq_false_iff.1 hcode.code)).trans hending
    exact ⟨p, keyword, hcode.continued, hkeyword, hopen, hsame, hlambda, rfl⟩
  | _ => exact absurd rfl hne

/-! ## Lambdas below -/

namespace State

theorem endProcedure_lambda (line : PhysicalLine) (h : endsLambda keyword s.lambdas = true) :
    s.endProcedure line keyword = .ok { s with lambdas := s.lambdas.tail } :=
  if_pos h

/-- A state with more lambdas open below its own. -/
def onto (s : State) (below : List Text) : State :=
  { s with lambdas := s.lambdas ++ below }

/-- What stands around a line of code does not tell that it is one. -/
theorem AtCode.onto (below : List Text) (h : s.AtCode line) : (s.onto below).AtCode line :=
  ⟨h.continued, h.code⟩

theorem AtPlain.onto (below : List Text) (h : s.AtPlain line) : (s.onto below).AtPlain line :=
  ⟨h.toAtCode.onto below, h.ending, h.header⟩

/-- **A line that finds no procedure does the same with lambdas below**. -/
theorem step_onto (below : List Text) (h : s.step line = .ok t) (hfound : t.routines = s.routines) :
    (s.onto below).step line = .ok (t.onto below) := by
  rw [step_eq_ok_iff] at h ⊢
  cases h with
  | passed hc => exact .passed hc
  | header hc => exact .header hc
  | openBanner hc hbanner hnone => exact .openBanner hc hbanner hnone
  | closeBanner hc hbanner hopen => exact .closeBanner hc hbanner hopen
  | skip hc hbanner hskip => exact .skip hc hbanner hskip
  | endLambda hcode hending hlambda =>
    -- the lambda is one of its own
    obtain ⟨continued, procedure, lambdas, types, banner, nodes⟩ := s
    cases lambdas with
    | nil => cases hlambda
    | cons first rest => exact .endLambda (hcode.onto below) hending hlambda
  | endProcedure => exact absurd (congrArg List.length hfound) (Nat.succ_ne_self _)
  | member hcode hending hheader hbodiless =>
    exact .member (hcode.onto below) hending hheader hbodiless
  | beginProcedure hcode hending hheader hbody hnone =>
    exact .beginProcedure (hcode.onto below) hending hheader hbody hnone
  | inside hplain hopen =>
    have hstep := Steps.inside (hplain.onto below) hopen
    simp only [State.onto, ← List.append_assoc] at hstep
    exact hstep
  | beginType hplain hnone htype => exact .beginType (hplain.onto below) hnone htype
  | endType hplain hnone htype hending hopen =>
    exact .endType (hplain.onto below) hnone htype hending hopen
  | outside hplain hnone htype hending => exact .outside (hplain.onto below) hnone htype hending

/-- Where no procedure has been declared, none has been found. -/
theorem routines_eq_nil (h : ∀ d ∈ s.declared, d.isRoutine = false) : s.routines = [] := by
  have hcount : s.found.countP Node.isRoutine = 0 := by
    rw [← countP_declared, List.countP_eq_zero]
    exact fun d hd => Bool.eq_false_iff.1 (h d hd)
  exact List.filter_eq_nil_iff.2 (List.countP_eq_zero.1 hcount)

theorem pass_onto (below : List Text) (h : s.pass text = some (t, ds))
    (hds : ∀ d ∈ ds, d.isRoutine = false) : (s.onto below).pass text = some (t.onto below, ds) := by
  unfold pass at h ⊢
  cases hs : s.step (.bare text) with
  | error fault =>
    rw [hs] at h
    cases h
  | ok v =>
    rw [hs] at h
    cases h
    have hnone := routines_eq_nil hds
    have hbefore : s.routines = [] := by
      have hsuffix : s.routines <:+ v.routines := (goes_step hs).found.filter _
      rw [hnone] at hsuffix
      exact List.suffix_nil.1 hsuffix
    rw [step_onto below hs (hnone.trans hbefore.symm)]
    rfl

/-- **Lines that declare no procedure do the same with lambdas below**. -/
theorem run_onto {texts : List Text} (below : List Text) (h : s.run texts = some (t, ds))
    (hds : ∀ d ∈ ds, d.isRoutine = false) : (s.onto below).run texts = some (t.onto below, ds) := by
  induction texts generalizing s ds with
  | nil =>
    cases h
    rfl
  | cons text rest ih =>
    obtain ⟨u, first, more, hpass, hrun, rfl⟩ := run_cons.1 h
    refine run_cons.2 ⟨u.onto below, first, more, ?_, ?_, rfl⟩
    · exact pass_onto below hpass fun d hd => hds d (List.mem_append_right _ hd)
    · exact ih hrun fun d hd => hds d (List.mem_append_left _ hd)

/-- A comment or blank line leaves a state between headers as it is, but for its banner. -/
theorem step_quiet (hc : s.continued = .no)
    (hquiet : (isComment line.text || Text.allBlank line.text) = true) :
    ∃ t, s.step line = .ok t ∧ t.bare = s.bare ∧ t.declared = s.declared := by
  obtain ⟨banner, nodes, hstep, hnodes⟩ := exists_step_of_skip hc hquiet
  refine ⟨_, hstep, rfl, ?_⟩
  rcases hnodes with rfl | ⟨span, rfl⟩
  · rfl
  · rfl

theorem run_quiet {texts : List Text} (hc : s.continued = .no) (hs : s.bare = s)
    (hquiet : ∀ text ∈ texts, (isComment text || Text.allBlank text) = true) :
    s.run texts = some (s, []) := by
  induction texts with
  | nil => rfl
  | cons text rest ih =>
    obtain ⟨htext, hrest⟩ := List.forall_mem_cons.1 hquiet
    obtain ⟨v, hv, hbare, hdeclared⟩ := @step_quiet _ (.bare text) hc htext
    refine run_cons.2 ⟨s, [], [], ?_, ih hrest, rfl⟩
    have hnone : s.declared = [] := by
      rw [← hs]
      rfl
    rw [pass, hv]
    show some (v.bare, v.declared) = _
    rw [hbare, hs, hdeclared, hnone]

theorem of_run_quiet {lines : List PhysicalLine} (h : lines.foldlM step s = .ok t)
    (hc : s.continued = .no)
    (hquiet : ∀ l ∈ lines, (isComment l.text || Text.allBlank l.text) = true) :
    t.bare = s.bare ∧ t.declared = s.declared := by
  obtain ⟨ds, hrun, hds⟩ := run_bare.1 t h
  have hbare : s.bare.bare = s.bare := by
    simp only [bare, OpenProcedure.map_bare, OpenType.map_bare]
  rw [run_quiet (s := s.bare) hc hbare (List.forall_mem_map.2 hquiet)] at hrun
  obtain ⟨hsame, rfl⟩ := Prod.mk.inj (Option.some.inj hrun)
  exact ⟨hsame.symm, hds⟩

/-- The end of a procedure where no lambda below is ended. -/
theorem Closes.run_onto (h : s.Closes line p keyword t)
    (hbelow : endsLambda keyword (s.lambdas ++ below) = false) :
    (s.bare.onto below).pass line.text =
      some (t.bare.onto below, [⟨true, p.name, signature p.header⟩]) := by
  have hstep := @step_of_ending (s.bare.onto below) (.bare line.text) _ h.continued h.ending
  rw [pass, hstep, endProcedure]
  have hprocedure : (s.bare.onto below).procedure = some p.bare := by
    show s.procedure.map OpenProcedure.bare = _
    rw [h.procedure]
    rfl
  have hlambda : ¬ ((s.bare.onto below).lambdas.head?.map (Text.sameLetters keyword)).getD false =
      true := Bool.eq_false_iff.1 hbelow
  rw [if_neg hlambda]
  simp only [hprocedure]
  rw [if_pos (show Text.sameLetters p.bare.keyword keyword = true from h.same), h.result]
  simp only [Except.toOption, Option.map_some, bare, onto, OpenType.map_bare, Option.map_none]
  rfl

/-- The end of a procedure where a lambda below is ended instead: the procedure goes on. -/
theorem Closes.run_swallowed (h : s.Closes line p keyword t)
    (hbelow : endsLambda keyword (s.lambdas ++ below) = true) :
    (s.bare.onto below).pass line.text =
      some ({ s.bare with lambdas := (s.lambdas ++ below).tail }, []) := by
  have hstep := @step_of_ending (s.bare.onto below) (.bare line.text) _ h.continued h.ending
  rw [pass, hstep, endProcedure_lambda _ hbelow]
  simp only [Except.toOption, Option.map_some, bare, onto, OpenType.map_bare,
    OpenProcedure.map_bare]
  rfl

end State

/-! ## The line that ends a procedure -/

/-- Lines that find a procedure have one that ends the first. -/
theorem exists_closes {lines : List PhysicalLine} (h : lines.foldlM State.step s = .ok t)
    (hne : t.routines ≠ s.routines) :
    ∃ pre line post u v p keyword, lines = pre ++ line :: post ∧ pre.foldlM State.step s = .ok u ∧
      u.routines = s.routines ∧ u.step line = .ok v ∧ u.Closes line p keyword v ∧
      post.foldlM State.step v = .ok t := by
  induction lines generalizing s with
  | nil =>
    cases h
    exact absurd rfl hne
  | cons line rest ih =>
    rw [List.foldlM_cons] at h
    obtain ⟨u, hstep, hrest⟩ := bind_eq_ok.1 h
    by_cases hsame : u.routines = s.routines
    · obtain ⟨pre, l, post, v, w, p, keyword, rfl, hpre, hv, hl, hcloses, hpost⟩ :=
        ih hrest (hsame ▸ hne)
      refine ⟨line :: pre, l, post, v, w, p, keyword, rfl, ?_, hv.trans hsame, hl, hcloses, hpost⟩
      rw [List.foldlM_cons]
      exact bind_eq_ok.2 ⟨u, hstep, hpre⟩
    · obtain ⟨p, keyword, hcloses⟩ := closes_of_step hstep hsame
      exact ⟨[], line, rest, s, u, p, keyword, rfl, rfl, rfl, hstep, hcloses, hrest⟩

/-! ## Surveys -/

/-- What a routine declares. -/
def declaredOf (r : Routine) : Declared :=
  ⟨true, r.name, r.signature⟩

theorem filter_declared (nodes : List Node) :
    (nodes.filterMap Node.declared?).filter Declared.isRoutine =
      (nodes.filter Node.isRoutine).map fun n => ⟨true, n.name, n.signature⟩ := by
  induction nodes with
  | nil => rfl
  | cons n nodes ih =>
    obtain ⟨kind, signature, span⟩ := n
    cases kind with
    | doc => exact ih
    | typeDecl name => exact ih
    | routine name bodyStart => exact congrArg (_ :: ·) ih

/-- Nothing but routines has been declared where no type has been found. -/
theorem forall_isRoutine_iff (nodes : List Node) :
    (∀ d ∈ nodes.filterMap Node.declared?, d.isRoutine = true) ↔ nodes.filter Node.isType = [] := by
  induction nodes with
  | nil => simp
  | cons n nodes ih =>
    obtain ⟨kind, signature, span⟩ := n
    cases kind with
    | doc => exact ih
    | typeDecl name => simp [Node.declared?, Node.isType]
    | routine name bodyStart => simpa [Node.declared?, Node.isType] using ih

/-- **What is surveyed is what has been declared**. -/
theorem survey_declared (h : outline source = .ok o) (hs : Reads (physicalLines source) s) :
    (o.survey .preceding).1.map declaredOf = (s.declared.filter Declared.isRoutine).reverse ∧
      ((o.survey .preceding).2 = [] ↔ ∀ d ∈ s.declared, d.isRoutine = true) := by
  have hfits := (outline_fits h).2
  obtain ⟨last, hlast, -, -, ho, -, hordered⟩ := outline_reads h
  cases Except.ok.inj (hlast.symm.trans hs)
  constructor
  · have hkeys := (outline_flat h).survey_all hfits .preceding
    rw [outline_routines h ho hordered] at hkeys
    have hdeclared := congrArg (List.map fun key : Text × Text × Span =>
      (⟨true, key.1, key.2.1⟩ : Declared)) hkeys
    rw [List.map_map, List.map_map] at hdeclared
    rw [State.declared, filter_declared, ← List.map_reverse]
    refine hdeclared.trans ?_
    have hroutines : s.routines = s.nodes.filter Node.isRoutine := by
      rw [State.routines, State.found, List.filter_filter]
      refine List.filter_congr fun n _ => ?_
      cases hn : n.isRoutine with
      | false => rfl
      | true => rw [Node.declares_of_isRoutine hn, Bool.and_true]
    rw [hroutines]
    rfl
  · have hperm : (o.nodes.filter Node.isType).Perm (s.nodes.filter Node.isType) := by
      rw [ho]
      exact ((List.mergeSort_perm _ _).trans s.nodes.reverse_perm).filter _
    rw [(outline_flat h).survey_all_types hfits, List.map_eq_nil_iff, State.declared,
      forall_isRoutine_iff]
    exact ⟨fun hnil => List.nil_perm.1 (hnil ▸ hperm), fun hnil => List.perm_nil.1 (hnil ▸ hperm)⟩

/-! ## Procedures -/

/-- A text that consists of one procedure: nothing but comments and blank lines stands around it. -/
structure IsProcedure (text : Text) (r : Routine) : Prop where
  whole : isWhole text
  survey : Language.visualBasic.survey text = .ok ([r], [])
  alone : ∀ line ∈ physicalLines text, line.stop ≤ r.span.start ∨ r.span.stop ≤ line.start →
    (isComment line.text || Text.allBlank line.text) = true

/-- The lambdas that a text leaves open, innermost first. -/
def lambdasBehind (text : Text) : List Text :=
  match (physicalLines text).foldlM State.step .initial with
  | .ok s => s.lambdas
  | .error _ => []

/-- The keyword of the line that ends a routine. -/
def endKeyword? (source : Text) (r : Routine) : Option Text :=
  (physicalLines source).findSome? fun line =>
    if line.stop = r.span.stop then line.ending? else none

/-- The end of a procedure is swallowed: no lambda is open in the procedure, and it ends one of the
lambdas below. -/
def Swallowed (below : List Text) (text : Text) (r : Routine) : Prop :=
  lambdasBehind text = [] ∧ ∃ keyword ∈ endKeyword? text r, endsLambda keyword below = true

/-- What is known of the one procedure of a text where it ends. -/
structure Ending (text : Text) (r : Routine) (pre : List PhysicalLine) (line : PhysicalLine)
    (post : List PhysicalLine) (u v : State) (p : OpenProcedure) (keyword : Text) : Prop where
  lines : physicalLines text = pre ++ line :: post
  reads : Reads pre u
  declared : u.declared = []
  closes : u.Closes line p keyword v
  step : u.step line = .ok v
  types : u.types = []
  quiet : ∀ l ∈ post, (isComment l.text || Text.allBlank l.text) = true
  declares : (⟨true, p.name, signature p.header⟩ : Declared) = declaredOf r
  keyword : endKeyword? text r = some keyword
  lambdas : lambdasBehind text = u.lambdas

theorem IsProcedure.ending (h : IsProcedure text r) :
    ∃ pre line post u v p keyword, Ending text r pre line post u v p keyword := by
  obtain ⟨o, ho, hsurvey⟩ := bind_eq_ok.1 h.survey
  have ho : outline text = .ok o := ho
  have hsurvey : o.survey .preceding = ([r], []) := Except.ok.inj hsurvey
  obtain ⟨last, hlast, hprocedure, htypes, he, -, hordered⟩ := outline_reads ho
  have hkeys := (outline_flat ho).survey_all (outline_fits ho).2 .preceding
  rw [outline_routines ho he hordered, hsurvey, List.map_singleton] at hkeys
  obtain ⟨n, hn, hkey⟩ := List.map_eq_singleton_iff.1 hkeys.symm
  have hroutines : last.routines = [n] := by
    rw [← List.reverse_reverse last.routines, hn, List.reverse_singleton]
  obtain ⟨pre, line, post, u, v, p, keyword, hlines, hpre, hnone, hstep, hcloses, hpost⟩ :=
    exists_closes hlast (by rw [hroutines]; exact List.cons_ne_nil _ _)
  -- the procedure that ends here is the one of the text
  have hv : v.routines =
      [.routine p.name (signature p.header) ⟨p.start, line.stop⟩ p.bodyStart] := by
    rw [hcloses.result]
    exact congrArg (_ :: ·) hnone
  have hsame : n = .routine p.name (signature p.header) ⟨p.start, line.stop⟩ p.bodyStart := by
    have hsuffix : v.routines <:+ last.routines := (goes_of_foldlM hpost).found.filter _
    rw [hv, hroutines] at hsuffix
    exact (List.singleton_inj.1 (hsuffix.eq_of_length rfl)).symm
  rw [hsame] at hkey
  obtain ⟨hname, hkey⟩ := Prod.mk.inj hkey
  obtain ⟨hsignature, hspan⟩ := Prod.mk.inj hkey
  have hstop : line.stop = r.span.stop := congrArg Span.stop hspan
  -- so nothing but comments and blank lines follows
  have hrow := List.pairwise_map.1 (physicalLines_row text).apart
  rw [hlines] at hrow
  obtain ⟨-, hafter, hbefore⟩ := List.pairwise_append.1 hrow
  have hquiet : ∀ l ∈ post, (isComment l.text || Text.allBlank l.text) = true := fun l hl =>
    h.alone l (hlines ▸ List.mem_append_right _ (List.mem_cons_of_mem _ hl))
      (.inr (hstop ▸ (List.pairwise_cons.1 hafter).1 l hl))
  have hvno : v.continued = .no := by rw [hcloses.result]; exact hcloses.continued
  obtain ⟨hbare, hdeclared⟩ := State.of_run_quiet hpost hvno hquiet
  have hlambdas : last.lambdas = u.lambdas := by
    refine (congrArg State.lambdas hbare).trans ?_
    rw [hcloses.result]
    rfl
  have hutypes : u.types = [] := by
    have hbaretypes : u.types.map OpenType.bare = last.types.map OpenType.bare := by
      rw [hcloses.result] at hbare
      exact (congrArg State.types hbare).symm
    rw [htypes] at hbaretypes
    exact List.map_eq_nil_iff.1 hbaretypes
  have hudeclared : u.declared = [] := by
    refine List.eq_nil_iff_forall_not_mem.2 fun d hd => ?_
    have hmem : d ∈ last.declared := by
      rw [hdeclared, hcloses.result]
      exact List.mem_cons_of_mem _ hd
    have hroutine := ((survey_declared ho hlast).2.1 (by rw [hsurvey])) d hmem
    have hcount := List.countP_pos_iff.2 ⟨d, hd, hroutine⟩
    rw [State.countP_declared, List.countP_eq_length_filter] at hcount
    rw [show u.found.filter Node.isRoutine = [] from hnone] at hcount
    exact Nat.lt_irrefl _ hcount
  have hkeyword : endKeyword? text r = some keyword := by
    have hquietpre : pre.findSome? (fun l => if l.stop = r.span.stop then l.ending? else none) =
        none := by
      refine List.findSome?_eq_none_iff.2 fun l hl => if_neg fun hls => ?_
      have hle : l.stop ≤ line.start := hbefore l hl line List.mem_cons_self
      have hmem : line ∈ physicalLines text := hlines ▸ List.mem_append_right _ List.mem_cons_self
      have htext : line.start < line.stop :=
        placeLines_hasText hmem (PhysicalLine.not_allBlank_of_ending hcloses.ending)
      omega
    rw [endKeyword?, hlines, List.findSome?_append, hquietpre, Option.none_or, List.findSome?_cons,
      if_pos hstop, hcloses.ending]
  refine ⟨pre, line, post, u, v, p, keyword, hlines, hpre, hudeclared, hcloses, hstep, hutypes, hquiet,
    ?_, hkeyword, ?_⟩
  · exact Declared.mk.injEq _ _ _ _ _ _ ▸ ⟨rfl, hname, hsignature⟩
  · rw [lambdasBehind, show (physicalLines text).foldlM State.step .initial = .ok last from hlast]
    exact hlambdas

/-- **A procedure above lambdas that were left open** is read as it is alone, and its lambdas stay
open with them; or its end is swallowed, and it stays open itself. -/
theorem IsProcedure.run_onto (h : IsProcedure text r) (below : List Text) :
    (¬ Swallowed below text r → (State.initial.onto below).run (lineTexts text) =
        some (State.initial.onto (lambdasBehind text ++ below), [declaredOf r])) ∧
      (Swallowed below text r → ∃ t ds, (State.initial.onto below).run (lineTexts text) =
        some (t, ds) ∧ t.procedure.isSome = true) := by
  obtain ⟨pre, line, post, u, v, p, keyword, e⟩ := h.ending
  obtain ⟨ds, hpre, hds⟩ := State.run_bare.1 u e.reads
  have hnone : ds = [] := (List.append_eq_nil_iff.1 (hds.symm.trans e.declared)).1
  subst hnone
  have hlines : lineTexts text =
      pre.map PhysicalLine.text ++ line.text :: post.map PhysicalLine.text := by
    rw [← physicalLines_text, e.lines, List.map_append, List.map_cons]
  have hquiet : ∀ t ∈ post.map PhysicalLine.text, (isComment t || Text.allBlank t) = true :=
    List.forall_mem_map.2 e.quiet
  have hpre : (State.initial.onto below).run (pre.map PhysicalLine.text) =
      some (u.bare.onto below, []) := State.run_onto below hpre (by simp)
  have hends : endsLambda keyword (u.lambdas ++ below) = true ↔ Swallowed below text r := by
    simp only [Swallowed, e.keyword, Option.mem_some_iff, exists_eq_left', e.lambdas]
    cases hu : u.lambdas with
    | nil => simp
    | cons first rest =>
      have hown := e.closes.noLambda
      rw [hu] at hown
      exact iff_of_false (Bool.eq_false_iff.1 hown) (by simp)
  rw [hlines]
  constructor
  · intro hno
    have hpass := e.closes.run_onto (Bool.eq_false_iff.2 (mt hends.1 hno))
    have hbehind : v.bare.onto below = State.initial.onto (lambdasBehind text ++ below) := by
      rw [e.lambdas, e.closes.result, State.bare, State.onto, State.onto, e.types,
        e.closes.continued]
      rfl
    rw [hbehind, e.declares] at hpass
    refine State.run_append.2 ⟨_, [], [declaredOf r], hpre, ?_, rfl⟩
    exact State.run_cons.2 ⟨_, [declaredOf r], [], hpass, State.run_quiet rfl rfl hquiet, rfl⟩
  · intro hswallowed
    have hpass := e.closes.run_swallowed (hends.2 hswallowed)
    have hquietrun := State.run_quiet (s := { u.bare with lambdas := (u.lambdas ++ below).tail })
      e.closes.continued (by simp only [State.bare, OpenProcedure.map_bare, OpenType.map_bare]) hquiet
    refine ⟨_, [], State.run_append.2 ⟨_, [], [], hpre, State.run_cons.2 ⟨_, [], [], hpass, hquietrun,
      rfl⟩, rfl⟩, ?_⟩
    show (u.procedure.map OpenProcedure.bare).isSome = true
    rw [e.closes.procedure]
    rfl

/-- A text whose lines leave a procedure open has no outline. -/
theorem not_outline_of_run (h : State.initial.run (lineTexts source) = some (t, ds))
    (hopen : t.procedure.isSome = true) : outline source ≠ .ok o := by
  intro ho
  obtain ⟨s, hs, hbare, -⟩ := reads_of_run h
  obtain ⟨last, hlast, hprocedure, -⟩ := outline_reads ho
  cases Except.ok.inj (hlast.symm.trans hs)
  rw [← hbare, State.bare, hprocedure] at hopen
  cases hopen

/-- **Two procedures, one behind the other, are both found unless the end of the second is swallowed**:
unless the first one has left open a lambda that this end can end, and the second one none. What each
leaves open adds up. -/
theorem survey_append_iff (ha : IsProcedure a r) (hb : IsProcedure b q) :
    ((∃ r' q', Language.visualBasic.survey (a ++ b) = .ok ([r', q'], []) ∧
        r'.name = r.name ∧ r'.signature = r.signature ∧
        q'.name = q.name ∧ q'.signature = q.signature) ↔ ¬ Swallowed (lambdasBehind a) b q) ∧
      (¬ Swallowed (lambdasBehind a) b q →
        lambdasBehind (a ++ b) = lambdasBehind b ++ lambdasBehind a) := by
  have hfirst : State.initial.run (lineTexts a) =
      some (State.initial.onto (lambdasBehind a), [declaredOf r]) := by
    have hrun := (ha.run_onto []).1 fun hs => by
      obtain ⟨-, keyword, -, hends⟩ := hs
      cases hends
    rwa [List.append_nil] at hrun
  have hlines : lineTexts (a ++ b) = lineTexts a ++ lineTexts b := Text.lineTexts_append ha.whole b
  obtain ⟨hkept, hswallowed⟩ := hb.run_onto (lambdasBehind a)
  have hboth (hno : ¬ Swallowed (lambdasBehind a) b q) :
      ∃ s, Reads (physicalLines (a ++ b)) s ∧
        s.bare = State.initial.onto (lambdasBehind b ++ lambdasBehind a) ∧
        s.declared = [declaredOf q, declaredOf r] := by
    refine reads_of_run ?_
    rw [hlines]
    exact State.run_append.2 ⟨_, _, _, hfirst, hkept hno, rfl⟩
  refine ⟨⟨?_, fun hno => ?_⟩, fun hno => ?_⟩
  · rintro ⟨r', q', hsurvey, -⟩ hs
    obtain ⟨t, ds, hrun, hopen⟩ := hswallowed hs
    obtain ⟨o, ho, -⟩ := bind_eq_ok.1 hsurvey
    have hall : State.initial.run (lineTexts (a ++ b)) = some (t, ds ++ [declaredOf r]) := by
      rw [hlines]
      exact State.run_append.2 ⟨_, _, _, hfirst, hrun, rfl⟩
    exact not_outline_of_run hall hopen ho
  · obtain ⟨s, hs, hbare, hdeclared⟩ := hboth hno
    have hprocedure : s.procedure = none :=
      Option.map_eq_none_iff.1 (congrArg State.procedure hbare)
    have htypes : s.types = [] := List.map_eq_nil_iff.1 (congrArg State.types hbare)
    have ho := outline_of_reads hs hprocedure htypes
    obtain ⟨hroutines, hnone⟩ := survey_declared ho hs
    rw [hdeclared] at hroutines hnone
    obtain ⟨r', rest, hr, hr', hrest⟩ := List.map_eq_cons_iff.1 hroutines
    obtain ⟨q', rfl, hq'⟩ := List.map_eq_singleton_iff.1 hrest
    obtain ⟨-, hname, hsignature⟩ := Declared.mk.inj hr'
    obtain ⟨-, hname', hsignature'⟩ := Declared.mk.inj hq'
    refine ⟨r', q', bind_eq_ok.2 ⟨_, ho, ?_⟩, hname, hsignature, hname', hsignature'⟩
    exact congrArg Except.ok (Prod.ext hr (hnone.2 (by simp [declaredOf])))
  · obtain ⟨s, hs, hbare, -⟩ := hboth hno
    rw [lambdasBehind, show (physicalLines (a ++ b)).foldlM State.step .initial = .ok s from hs]
    exact congrArg State.lambdas hbare

/-- A procedure that leaves a lambda open: the end of the lambda has no line to itself. -/
def openLambda : Text :=
  "Sub Start()\n  f = Function()\n    Return 1 : End Function\nEnd Sub\n".toList

def openLambdaRoutine : Routine where
  name := "Start".toList
  signature := "Sub Start()".toList
  body := "\n  f = Function()\n    Return 1 : End Function\nEnd Sub".toList
  span := ⟨0, 64⟩
  comment := []
  commentSpan := none

theorem isProcedure_openLambda : IsProcedure openLambda openLambdaRoutine where
  whole := .inr ⟨openLambda.dropLast, rfl⟩
  survey := by
    rw [Language.survey_eq_computeSurvey]
    decide +kernel
  alone := by decide

theorem lambdasBehind_openLambda : lambdasBehind openLambda = ["Function".toList] := by
  decide +kernel

/-- The end of a `Sub` cannot end the lambda that `openLambda` leaves. -/
theorem survey_append_iff_sub :
    ∃ q r' q', IsProcedure openLambda openLambdaRoutine ∧
      IsProcedure "Sub Next()\nEnd Sub\n".toList q ∧
      Language.visualBasic.survey (openLambda ++ "Sub Next()\nEnd Sub\n".toList) =
        .ok ([r', q'], []) ∧ r'.name = "Start".toList ∧ q'.name = "Next".toList := by
  let q : Routine := ⟨"Next".toList, "Sub Next()".toList, "\nEnd Sub".toList, ⟨0, 18⟩, [], none⟩
  have hb : IsProcedure "Sub Next()\nEnd Sub\n".toList q :=
    { whole := .inr ⟨"Sub Next()\nEnd Sub".toList, by decide⟩
      survey := by
        rw [Language.survey_eq_computeSurvey]
        decide +kernel
      alone := by decide +kernel }
  have hno : ¬ Swallowed (lambdasBehind openLambda) "Sub Next()\nEnd Sub\n".toList q := by
    rintro ⟨-, keyword, hkeyword, hends⟩
    have hsub : endKeyword? "Sub Next()\nEnd Sub\n".toList q = some "Sub".toList := by
      decide +kernel
    rw [hsub] at hkeyword
    cases hkeyword
    rw [lambdasBehind_openLambda] at hends
    exact absurd hends (by decide)
  obtain ⟨r', q', hsurvey, hr, -, hq, -⟩ :=
    (survey_append_iff isProcedure_openLambda hb).1.2 hno
  exact ⟨q, r', q', isProcedure_openLambda, hb, hsurvey, hr, hq⟩

/-- The end of a `Function` ends the lambda that `openLambda` leaves, and its procedure never ends. -/
theorem survey_append_function :
    ∃ q, IsProcedure openLambda openLambdaRoutine ∧
      IsProcedure "Function Next()\nEnd Function\n".toList q ∧
      lambdasBehind openLambda = ["Function".toList] ∧
      Language.visualBasic.survey (openLambda ++ "Function Next()\nEnd Function\n".toList) =
        .error (.misfit .visualBasic (.endlessProcedure "Function".toList "Next".toList) 5) := by
  refine ⟨⟨"Next".toList, "Function Next()".toList, "\nEnd Function".toList, ⟨0, 28⟩, [], none⟩,
    isProcedure_openLambda, ⟨.inr ⟨"Function Next()\nEnd Function".toList, by decide⟩, ?_, ?_⟩,
    lambdasBehind_openLambda, ?_⟩
  · rw [Language.survey_eq_computeSurvey]
    decide +kernel
  · decide +kernel
  · rw [Language.survey_eq_computeSurvey]
    decide +kernel

end Scholia.Source.Procedural
