import Scholia.Proofs.Comment.Heading
import Scholia.Proofs.Evaluation
import Scholia.Proofs.Text.Table
/-!
# What a harvest says

A harvest goes through the routines of a text and counts, collects and keeps a table at the same time.
Each of these is what it would be on its own (`Harvest.foldl_add`), so the harvest says of every routine
whether it is documented, and of an undocumented one why, unless another of its signature follows
(`Language.harvest_covers`).
-/

namespace Scholia

open Source (Routine)

/-- Whether a routine is documented. -/
def Source.Routine.isDocumented (language : Language) (r : Routine) : Bool :=
  match r.document language with
  | .ok _ => true
  | .error _ => false

/-- The lines of a routine's documentation; none if it has none. -/
def Source.Routine.documentLines (language : Language) (r : Routine) : List Doc.Line :=
  match r.document language with
  | .ok lines => lines
  | .error _ => []

/-- The entry of an undocumented routine among the errors. -/
def Source.Routine.fault? (language : Language) (r : Routine) : Option (Text × Text) :=
  match r.document language with
  | .ok _ => none
  | .error reason => some (r.signature, reason.message)

variable {language : Language} {routines : List Routine}

theorem Source.Routine.fault?_eq_some_iff {r : Routine} {signature message : Text} :
    r.fault? language = some (signature, message) ↔
      ∃ reason, r.document language = .error reason ∧ r.signature = signature ∧
        reason.message = message := by
  unfold fault?
  cases r.document language with
  | ok lines => simp
  | error reason => simp

/-- The documentation of a routine begins with its heading. -/
theorem Source.Routine.document_headed {r : Routine} {lines : List Doc.Line}
    (h : r.document language = .ok lines) :
    ∃ body, lines = .subheader ("Function: ".toList ++ r.signature) :: body := by
  unfold document at h
  split at h
  · cases h
  split at h
  · cases h
  · cases h
  · cases h
    exact ⟨_, rfl⟩

/-- A routine is documented or has an entry among the errors. -/
theorem Source.Routine.fault?_isSome (r : Routine) :
    (r.fault? language).isSome = !r.isDocumented language := by
  unfold fault? isDocumented
  cases r.document language <;> rfl

/-- Only the undocumented routines have entries. -/
theorem Source.Routine.filterMap_fault? (routines : List Routine) :
    (routines.filterMap (fault? language)).map (·.1) =
      (routines.filter (!·.isDocumented language)).map signature := by
  induction routines with
  | nil => rfl
  | cons r routines ih =>
    unfold fault? isDocumented at ih ⊢
    cases hdocument : r.document language <;> simp [hdocument, ih]

/-- **A harvest keeps its accounts one beside the other**. -/
theorem Harvest.foldl_add (h : Harvest) (routines : List Routine) :
    routines.foldl (Harvest.add language) h =
      ⟨h.lines ++ routines.flatMap (·.documentLines language),
        h.errors.putAll (routines.filterMap (·.fault? language)),
        h.total + routines.length,
        h.documented + (routines.filter (·.isDocumented language)).length⟩ := by
  induction routines generalizing h with
  | nil =>
    rw [List.flatMap_nil, List.append_nil]
    rfl
  | cons r routines ih =>
    rw [List.foldl_cons, ih]
    unfold Harvest.add
    cases hdocument : r.document language with
    | ok lines =>
      simp [hdocument, Routine.documentLines, Routine.fault?, Routine.isDocumented]
      omega
    | error reason =>
      simp [hdocument, Routine.documentLines, Routine.fault?, Routine.isDocumented, Text.Table.putAll]
      omega

/-- What a harvest says of the routines of a text. -/
structure Harvest.Covers (language : Language) (routines : List Routine) (h : Harvest) : Prop where
  total : h.total = routines.length
  documented : h.documented = (routines.filter (·.isDocumented language)).length
  lines : h.lines = routines.flatMap (·.documentLines language)
  /-- The documentation of a routine begins with its heading. -/
  headed : ∀ r ∈ routines, r.isDocumented language = true →
    ∃ body, r.documentLines language = .subheader ("Function: ".toList ++ r.signature) :: body
  /-- The errors are those of the routines behind which no undocumented one has the same signature. -/
  errors : ∀ signature message, (signature, message) ∈ h.errors ↔
    ∃ before r after reason, routines = before ++ r :: after ∧
      r.document language = .error reason ∧ r.signature = signature ∧ reason.message = message ∧
      ∀ q ∈ after, q.signature = signature → q.isDocumented language = true
  /-- Each signature has one error at most. -/
  single : (h.errors.map (·.1)).Nodup
  signatures : ∀ signature, signature ∈ h.errors.map (·.1) ↔
    ∃ r ∈ routines, r.isDocumented language = false ∧ r.signature = signature
  le : h.documented + h.errors.length ≤ h.total
  eq_iff : h.documented + h.errors.length = h.total ↔
    ((routines.filter (!·.isDocumented language)).map Routine.signature).Nodup

theorem Harvest.covers_foldl (language : Language) (routines : List Routine) :
    (routines.foldl (Harvest.add language) .empty).Covers language routines := by
  have hcount : (routines.filter (·.isDocumented language)).length +
      (routines.filterMap (·.fault? language)).length = routines.length := by
    have hfaults : (routines.filterMap (·.fault? language)).length =
        (routines.filter (!·.isDocumented language)).length :=
      (List.length_map _).symm.trans
        ((congrArg List.length (Routine.filterMap_fault? routines)).trans (List.length_map _))
    rw [hfaults, ← List.length_eq_length_filter_add]
  have herrors : (routines.foldl (Harvest.add language) .empty).errors =
      .putAll [] (routines.filterMap (·.fault? language)) := by
    rw [Harvest.foldl_add]
    rfl
  have hdocumented : ∀ {q : Routine}, q.fault? language = none ↔ q.isDocumented language = true := by
    intro q
    rw [← Option.not_isSome_iff_eq_none, Routine.fault?_isSome]
    simp
  have hnone : (routines.foldl (Harvest.add language) .empty).documented =
      (routines.filter (·.isDocumented language)).length := by
    rw [Harvest.foldl_add]
    exact Nat.zero_add _
  have htotal : (routines.foldl (Harvest.add language) .empty).total = routines.length := by
    rw [Harvest.foldl_add]
    exact Nat.zero_add _
  refine ⟨htotal, hnone, ?_, fun r _ hr => ?_, fun signature message => ?_, ?_, fun signature => ?_,
    ?_, ?_⟩
  · rw [Harvest.foldl_add]
    rfl
  · unfold Routine.isDocumented at hr
    unfold Routine.documentLines
    cases hdocument : r.document language with
    | error reason =>
      rw [hdocument] at hr
      cases hr
    | ok lines => exact Routine.document_headed hdocument
  · rw [herrors, Text.Table.mem_putAll_iff]
    constructor
    · rintro ⟨front, back, he, hback⟩
      obtain ⟨before, rest, rfl, -, hrest⟩ := List.filterMap_eq_append_iff.1 he
      obtain ⟨skipped, r, after, rfl, hskipped, hr, rfl⟩ := List.filterMap_eq_cons_iff.1 hrest
      obtain ⟨reason, hreason, hsignature, hmessage⟩ := Routine.fault?_eq_some_iff.1 hr
      refine ⟨before ++ skipped, r, after, reason, by simp, hreason, hsignature, hmessage,
        fun q hq hsame => ?_⟩
      rw [← hdocumented]
      cases hfault : q.fault? language with
      | none => rfl
      | some e =>
        obtain ⟨-, -, hkey, -⟩ := Routine.fault?_eq_some_iff.1 hfault
        exact absurd (hkey.symm.trans hsame) (hback e (List.mem_filterMap.2 ⟨q, hq, hfault⟩))
    · rintro ⟨before, r, after, reason, rfl, hreason, hsignature, hmessage, hafter⟩
      refine ⟨before.filterMap (·.fault? language), after.filterMap (·.fault? language), ?_, ?_⟩
      · rw [List.filterMap_append, List.filterMap_cons,
          Routine.fault?_eq_some_iff.2 ⟨reason, hreason, hsignature, hmessage⟩]
      · rintro ⟨key, value⟩ he rfl
        obtain ⟨q, hq, hfault⟩ := List.mem_filterMap.1 he
        obtain ⟨-, -, hkey, -⟩ := Routine.fault?_eq_some_iff.1 hfault
        rw [hdocumented.2 (hafter q hq hkey)] at hfault
        cases hfault
  · rw [herrors]
    exact (Text.Table.Ascending.putAll List.Pairwise.nil _).nodup
  · rw [herrors, Text.Table.mem_keys_putAll, Routine.filterMap_fault?]
    simp [List.mem_map, and_assoc]
  · rw [hnone, herrors, htotal, ← hcount]
    exact Nat.add_le_add_left (Text.Table.length_putAll_le _) _
  · rw [hnone, herrors, htotal, ← hcount, Nat.add_left_cancel_iff, Text.Table.length_putAll_eq_iff,
      Routine.filterMap_fault?]

/-- **A harvest accounts for every routine** of a text that is read. -/
theorem Language.harvest_covers {source : Text} {o : Source.Outline}
    (h : language.outline source = .ok o) :
    ∃ routines harvest, language.routines source = .ok routines ∧
      language.harvest source = .ok harvest ∧ harvest.Covers language routines := by
  have hroutines : language.routines source = .ok (o.survey language.attachment).1 := by
    unfold routines survey
    rw [h]
    rfl
  refine ⟨_, _, hroutines, ?_, Harvest.covers_foldl language _⟩
  unfold harvest
  rw [hroutines]
  rfl

/-- A documented function between two undocumented ones of one signature. -/
def overloadText : Text :=
  "def f():\n    pass\ndef g():\n    \"\"\"Doc.\"\"\"\ndef f():\n    pass\n".toList

/-- Of the three functions of `overloadText` two share an error. -/
theorem Language.harvest_covers_overloadText :
    ∃ harvest, python.harvest overloadText = .ok harvest ∧ harvest.total = 3 ∧
      harvest.documented + harvest.errors.length < harvest.total := by
  have hplaces : python.places overloadText =
      .ok [.routine "f".toList "def f()".toList ⟨0, 17⟩ 8, .doc ⟨31, 41⟩,
        .routine "g".toList "def g()".toList ⟨18, 41⟩ 26,
        .routine "f".toList "def f()".toList ⟨42, 59⟩ 50] := by
    decide +kernel
  have houtline := outline_eq python overloadText
  rw [hplaces] at houtline
  obtain ⟨routines, harvest, hroutines, hharvest, hcovers⟩ := harvest_covers houtline
  have hfound : (python.routines overloadText).map (fun routines => (routines.length,
      (routines.filter (!·.isDocumented python)).map Routine.signature)) =
      .ok (3, ["def f()".toList, "def f()".toList]) := by
    rw [routines_eq_compute]
    decide +kernel
  rw [hroutines] at hfound
  obtain ⟨hlength, hsignatures⟩ := Prod.mk.inj (Except.ok.inj hfound)
  refine ⟨harvest, hharvest, hcovers.total.trans hlength, Nat.lt_of_le_of_ne hcovers.le fun he => ?_⟩
  have hnodup := hcovers.eq_iff.1 he
  rw [hsignatures] at hnodup
  exact absurd hnodup (by decide)

end Scholia
