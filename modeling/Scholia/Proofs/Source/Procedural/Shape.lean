import Scholia.Proofs.Source.Covered
import Scholia.Proofs.Source.Procedural.Procedures
/-!
# Shapes

A *bare* state has forgotten all places and everything that it has found. What a line does to a
state shows in the bare one, and depends on the text of the line alone: so texts with the same lines
are read alike, wherever these stand.
-/

namespace Scholia.Source.Procedural

variable {s s' t u : State} {line : PhysicalLine} {text : Text} {ds : List Declared}

/-- A procedure without its place. -/
def OpenProcedure.bare (p : OpenProcedure) : OpenProcedure :=
  { p with line := 0, start := 0, bodyStart := 0 }

/-- A type without its place. -/
def OpenType.bare (t : OpenType) : OpenType :=
  { t with line := 0, start := 0 }

@[simp] theorem OpenProcedure.map_bare (p : Option OpenProcedure) :
    (p.map OpenProcedure.bare).map OpenProcedure.bare = p.map OpenProcedure.bare := by
  rw [Option.map_map]
  rfl

@[simp] theorem OpenType.map_bare (ts : List OpenType) :
    (ts.map OpenType.bare).map OpenType.bare = ts.map OpenType.bare := by
  rw [List.map_map]
  rfl

/-- A line without its place. -/
def PhysicalLine.bare (text : Text) : PhysicalLine :=
  ⟨0, 0, 0, text⟩

namespace State

/-- A state without places, and without what it has found. -/
def bare (s : State) : State where
  continued := s.continued
  procedure := s.procedure.map OpenProcedure.bare
  lambdas := s.lambdas
  types := s.types.map OpenType.bare
  banner := none
  nodes := []

/-- What has been declared, the last one first. -/
def declared (s : State) : List Declared :=
  s.nodes.filterMap Node.declared?

/-- A line of this text, and what it ends. -/
def pass (s : State) (text : Text) : Option (State × List Declared) :=
  (s.step (.bare text)).toOption.map fun t => (t.bare, t.declared)

/-- Lines of these texts, and what they end, the last one first. -/
def run : State → List Text → Option (State × List Declared)
  | s, [] => some (s, [])
  | s, text :: rest => do
    let (s, declared) ← s.pass text
    let (s, more) ← s.run rest
    return (s, more ++ declared)

/-! ## Runs -/

theorem run_cons {rest : List Text} :
    s.run (text :: rest) = some (t, ds) ↔
      ∃ u first more, s.pass text = some (u, first) ∧ u.run rest = some (t, more) ∧
        ds = more ++ first := by
  simp only [run, Option.bind_eq_bind, Option.bind_eq_some_iff, Prod.exists, Option.pure_def,
    Option.some.injEq, Prod.mk.injEq]
  constructor
  · rintro ⟨u, first, hs, v, more, hr, rfl, rfl⟩
    exact ⟨u, first, more, hs, hr, rfl⟩
  · rintro ⟨u, first, more, hs, hr, rfl⟩
    exact ⟨u, first, hs, t, more, hr, rfl, rfl⟩

theorem run_append {texts more : List Text} :
    s.run (texts ++ more) = some (t, ds) ↔
      ∃ u first second, s.run texts = some (u, first) ∧ u.run more = some (t, second) ∧
        ds = second ++ first := by
  induction texts generalizing s ds with
  | nil =>
    constructor
    · intro h
      exact ⟨s, [], ds, rfl, h, (List.append_nil _).symm⟩
    · rintro ⟨u, first, second, hs, hr, rfl⟩
      cases hs
      rwa [List.append_nil]
  | cons text rest ih =>
    rw [List.cons_append, run_cons]
    constructor
    · rintro ⟨u, first, second, hs, hr, rfl⟩
      obtain ⟨v, third, fourth, hv, ht, rfl⟩ := ih.1 hr
      exact ⟨v, third ++ first, fourth, run_cons.2 ⟨u, first, third, hs, hv, rfl⟩, ht,
        List.append_assoc _ _ _⟩
    · rintro ⟨v, first, second, hv, ht, rfl⟩
      obtain ⟨u, third, fourth, hs, hr, rfl⟩ := run_cons.1 hv
      exact ⟨u, third, second ++ fourth, hs, ih.2 ⟨v, fourth, second, hr, ht, rfl⟩,
        (List.append_assoc _ _ _).symm⟩

/-! ## What a line does to the bare state -/

/-- What a step answers shows in the bare states, and declares the same. -/
def Shows (s : State) (answer bareAnswer : Except Fault State) : Prop :=
  (∀ t, answer = .ok t → ∃ u, bareAnswer = .ok u ∧ t.bare = u.bare ∧
      t.declared = u.declared ++ s.declared) ∧
    ∀ fault, answer = .error fault → ∃ fault', bareAnswer = .error fault'

theorem Shows.ok (hbare : t.bare = u.bare) (hdeclared : t.declared = u.declared ++ s.declared) :
    s.Shows (.ok t) (.ok u) :=
  ⟨fun t' ht => by cases ht; exact ⟨u, rfl, hbare, hdeclared⟩, fun _ hf => by cases hf⟩

theorem Shows.error (fault fault' : Fault) : s.Shows (.error fault) (.error fault') :=
  ⟨(fun _ ht => by cases ht), fun _ _ => ⟨fault', rfl⟩⟩

theorem shows_endProcedure (s : State) (line : PhysicalLine) (keyword : Text) :
    s.Shows (s.endProcedure line keyword) (s.bare.endProcedure (.bare line.text) keyword) := by
  unfold endProcedure
  by_cases hl : (s.lambdas.head?.map (Text.sameLetters keyword)).getD false = true
  · rw [if_pos hl, if_pos (show (s.bare.lambdas.head?.map _).getD false = true from hl)]
    exact .ok (by simp only [bare, OpenProcedure.map_bare, OpenType.map_bare]) rfl
  · rw [if_neg hl, if_neg (show ¬ (s.bare.lambdas.head?.map _).getD false = true from hl)]
    cases hp : s.procedure with
    | none =>
      simp only [bare, hp, Option.map_none]
      exact .error _ _
    | some p =>
      simp only [bare, hp, Option.map_some]
      by_cases hk : Text.sameLetters p.keyword keyword = true
      · rw [if_pos hk, if_pos (show Text.sameLetters p.bare.keyword keyword = true from hk)]
        exact .ok (by simp only [bare, OpenType.map_bare]) rfl
      · rw [if_neg hk, if_neg (show ¬ Text.sameLetters p.bare.keyword keyword = true from hk)]
        exact .error _ _

theorem shows_beginProcedure (s : State) (line : PhysicalLine) (d : Declarator) :
    s.Shows (s.beginProcedure line d) (s.bare.beginProcedure (.bare line.text) d) := by
  have hinterface : (s.bare.types.head?.map OpenType.isInterface).getD false =
      (s.types.head?.map OpenType.isInterface).getD false := by
    cases ht : s.types <;> simp [bare, ht, OpenType.bare]
  have htext : (PhysicalLine.bare line.text).text = line.text := rfl
  simp only [beginProcedure, hinterface, htext]
  split
  · exact .ok (by simp only [bare, OpenProcedure.map_bare, OpenType.map_bare]) rfl
  · cases hp : s.procedure with
    | none =>
      simp only [bare, hp, Option.map_none]
      refine .ok ?_ rfl
      simp only [bare, OpenType.map_bare, Option.map_some]
      rfl
    | some p =>
      simp only [bare, hp, Option.map_some]
      exact .error _ _

theorem shows_declaration (s : State) (line : PhysicalLine) :
    s.Shows (s.declaration line) (s.bare.declaration (.bare line.text)) := by
  have htext : (PhysicalLine.bare line.text).text = line.text := rfl
  simp only [declaration, htext]
  split
  · next d _ =>
    refine .ok ?_ rfl
    simp only [bare, List.map_cons, OpenType.map_bare, OpenProcedure.map_bare]
    rfl
  · split
    · exact .ok (by simp only [bare, OpenProcedure.map_bare, OpenType.map_bare]) rfl
    · cases ht : s.types with
      | nil =>
        simp only [bare, ht, List.map_nil]
        exact .error _ _
      | cons first outer =>
        simp only [bare, ht, List.map_cons]
        exact .ok (by simp only [bare, OpenProcedure.map_bare, OpenType.map_bare]) rfl

theorem shows_code (s : State) (line : PhysicalLine) :
    s.Shows (s.code line) (s.bare.code (.bare line.text)) := by
  have htext : (PhysicalLine.bare line.text).text = line.text := rfl
  unfold code
  rw [htext]
  cases ending? procedureWords line.text with
  | some keyword => exact shows_endProcedure s line keyword
  | none =>
    cases declarator? procedureWords line.text with
    | some d => exact shows_beginProcedure s line d
    | none =>
      have hopen : s.bare.procedure.isSome = s.procedure.isSome := Option.isSome_map
      simp only [hopen]
      split
      · exact .ok (by simp only [bare, OpenProcedure.map_bare, OpenType.map_bare]) rfl
      · exact shows_declaration s line

/-- **What a line does shows in the bare state**. -/
theorem shows_step (s : State) (line : PhysicalLine) :
    s.Shows (s.step line) (s.bare.step (.bare line.text)) := by
  have htext : (PhysicalLine.bare line.text).text = line.text := rfl
  obtain ⟨continued, procedure, lambdas, types, banner, nodes⟩ := s
  unfold step
  rw [htext]
  cases continued with
  | passed => exact .ok (by simp only [bare, OpenProcedure.map_bare, OpenType.map_bare]) rfl
  | header =>
    refine .ok ?_ rfl
    cases procedure with
    | none => simp only [bare, Option.map_none, OpenType.map_bare]
    | some p =>
      simp only [bare, Option.map_some, OpenType.map_bare]
      rfl
  | no =>
    simp only
    by_cases hbanner : isBanner line.text = true
    · rw [if_pos hbanner, if_pos hbanner]
      cases banner with
      | none => exact .ok (by simp only [bare, OpenProcedure.map_bare, OpenType.map_bare]) rfl
      | some start => exact .ok (by simp only [bare, OpenProcedure.map_bare, OpenType.map_bare]) rfl
    · rw [if_neg hbanner, if_neg hbanner]
      split
      · exact .ok (by simp only [bare, OpenProcedure.map_bare, OpenType.map_bare]) rfl
      · exact shows_code ⟨.no, procedure, lambdas, types, none, nodes⟩ line

/-- The bare states run along with the states, and fail where these do. -/
theorem run_bare {lines : List PhysicalLine} :
    (∀ t, lines.foldlM step s = .ok t → ∃ ds, s.bare.run (lines.map PhysicalLine.text) =
        some (t.bare, ds) ∧ t.declared = ds ++ s.declared) ∧
      ∀ fault, lines.foldlM step s = .error fault →
        s.bare.run (lines.map PhysicalLine.text) = none := by
  induction lines generalizing s with
  | nil =>
    refine ⟨fun t ht => ?_, fun _ hf => by cases hf⟩
    cases ht
    exact ⟨[], rfl, rfl⟩
  | cons line rest ih =>
    obtain ⟨hok, herror⟩ := shows_step s line
    rw [List.foldlM_cons, List.map_cons]
    cases hs : s.step line with
    | error fault =>
      obtain ⟨fault', hf⟩ := herror fault hs
      refine ⟨(fun _ ht => by cases ht), fun _ _ => ?_⟩
      rw [run, pass, hf]
      rfl
    | ok u =>
      obtain ⟨v, hv, hbare, hdeclared⟩ := hok u hs
      have hpass : s.bare.pass line.text = some (u.bare, v.declared) := by
        rw [pass, hv, hbare]
        rfl
      obtain ⟨ihok, iherror⟩ := ih
      refine ⟨fun t ht => ?_, fun fault hf => ?_⟩
      · obtain ⟨ds, hrun, hds⟩ := ihok t ht
        refine ⟨ds ++ v.declared, run_cons.2 ⟨_, v.declared, ds, hpass, hrun, rfl⟩, ?_⟩
        rw [hds, hdeclared, List.append_assoc]
      · rw [run, hpass]
        exact congrArg (· >>= _) (iherror fault hf)

/-! ## Types below -/

/-- A state with more types open around it. -/
def atop (s : State) (base : List OpenType) : State :=
  { s with types := s.types ++ base }

theorem bare_atop (base : List OpenType) :
    (s.atop base).bare = s.bare.atop (base.map OpenType.bare) := by
  simp only [atop, bare, List.map_append]

/-- Whether members without a body stand here. -/
def inInterface (types : List OpenType) : Bool :=
  (types.head?.map OpenType.isInterface).getD false

theorem inInterface_append {types base : List OpenType} (hb : inInterface base = false) :
    inInterface (types ++ base) = inInterface types := by
  cases types with
  | nil => exact hb
  | cons t outer => rfl

variable {base : List OpenType}

/-- **What is open around a text makes no difference to it**, unless that is an interface. -/
theorem step_atop (hb : inInterface base = false) (h : s.step line = .ok t) :
    (s.atop base).step line = .ok (t.atop base) := by
  have hinterface : ((s.atop base).types.head?.map OpenType.isInterface).getD false =
      (s.types.head?.map OpenType.isInterface).getD false := inInterface_append hb
  have hcoded (hcode : s.AtCode line) : (s.atop base).AtCode line := ⟨hcode.continued, hcode.code⟩
  have hplained (hplain : s.AtPlain line) : (s.atop base).AtPlain line :=
    ⟨hcoded hplain.toAtCode, hplain.ending, hplain.header⟩
  rw [step_eq_ok_iff] at h ⊢
  cases h with
  | passed hc => exact .passed hc
  | header hc => exact .header hc
  | openBanner hc hbanner hnone => exact .openBanner hc hbanner hnone
  | closeBanner hc hbanner hopen => exact .closeBanner hc hbanner hopen
  | skip hc hbanner hskip => exact .skip hc hbanner hskip
  | endLambda hcode hending hlambda => exact .endLambda (hcoded hcode) hending hlambda
  | endProcedure hcode hending hlambda hopen hsame =>
    exact .endProcedure (hcoded hcode) hending hlambda hopen hsame
  | member hcode hending hheader hbodiless =>
    exact .member (hcoded hcode) hending hheader (hinterface ▸ hbodiless)
  | beginProcedure hcode hending hheader hbody hnone =>
    exact .beginProcedure (hcoded hcode) hending hheader (hinterface ▸ hbody) hnone
  | inside hplain hopen => exact .inside (hplained hplain) hopen
  | beginType hplain hnone htype => exact .beginType (hplained hplain) hnone htype
  | endType hplain hnone htype hending hopen =>
    exact .endType (hplained hplain) hnone htype hending (congrArg (· ++ base) hopen)
  | outside hplain hnone htype hending => exact .outside (hplained hplain) hnone htype hending

theorem run_atop {texts : List Text} (hb : inInterface base = false)
    (hbare : base.map OpenType.bare = base) (h : s.run texts = some (t, ds)) :
    (s.atop base).run texts = some (t.atop base, ds) := by
  induction texts generalizing s ds with
  | nil =>
    cases h
    rfl
  | cons text rest ih =>
    obtain ⟨u, first, more, hpass, hrun, rfl⟩ := run_cons.1 h
    refine run_cons.2 ⟨u.atop base, first, more, ?_, ih hrun, rfl⟩
    unfold pass at hpass ⊢
    cases hs : s.step (.bare text) with
    | error fault =>
      rw [hs] at hpass
      cases hpass
    | ok v =>
      rw [hs] at hpass
      cases hpass
      rw [step_atop hb hs]
      show some ((v.atop base).bare, (v.atop base).declared) = some (v.bare.atop base, v.declared)
      have hatop : (v.atop base).bare = v.bare.atop base := by
        simp only [atop, bare, List.map_append, hbare]
      rw [hatop]
      rfl

end State

end Scholia.Source.Procedural
