import Scholia.Proofs.Source.Division
import Scholia.Source.Survey
/-!
# Evaluation

Lexing recurs on what a rule leaves, and sorting on halves, so neither unfolds by itself. Here are
equal functions that recur on a number and on a list: `Language.routines_eq_compute` is what a fixed
source text is evaluated with.

The scanner of the procedural language is left as it is.
-/

namespace Scholia

open Source

namespace Source

/-- Divides a text in at most so many lexemes. -/
def Rule.lexWithin {κ : Type} (rule : Rule κ) : Nat → Nat → Text → Lexing κ
  | 0, _, _ => ⟨[], none⟩
  | _ + 1, _, [] => ⟨[], none⟩
  | fuel + 1, offset, c :: r =>
    match rule.front c r with
    | .unterminated what ahead => ⟨[], some (what, offset + ahead)⟩
    | .found lexeme rest =>
      let tail := rule.lexWithin fuel (offset + Text.width lexeme.text) rest
      ⟨lexeme :: tail.lexemes, tail.open?⟩

/-- A text has no more lexemes than characters. -/
theorem Rule.lexWithin_eq {κ : Type} (rule : Rule κ) {fuel offset : Nat} {s : Text}
    (h : s.length ≤ fuel) : rule.lexWithin fuel offset s = rule.lexFrom offset s := by
  induction fuel generalizing offset s with
  | zero =>
    have hs : s = [] := List.length_eq_zero_iff.1 (Nat.le_zero.1 h)
    rw [hs, Rule.lexFrom, Rule.lexWithin]
  | succ fuel ih =>
    cases s with
    | nil => rw [Rule.lexFrom, Rule.lexWithin]
    | cons c r =>
      rw [Rule.lexFrom, Rule.lexWithin]
      split
      · next hf =>
        split
        · next hf' => rw [hf] at hf'; cases hf'; rfl
        · next hf' => rw [hf] at hf'; cases hf'
      · next lexeme rest hf =>
        split
        · next hf' => rw [hf] at hf'; cases hf'
        · next hf' =>
          rw [hf] at hf'
          cases hf'
          have := rule.rest_shorter hf
          simp only [List.length_cons] at this h
          simp only [ih (s := rest) (by omega)]

theorem Rule.lex_eq_lexWithin {κ : Type} (rule : Rule κ) (s : Text) :
    rule.lex s = rule.lexWithin s.length 0 s :=
  (rule.lexWithin_eq (Nat.le_refl _)).symm

end Source

/-! ## Sorting by a number -/

section Sorting

variable {α : Type} (key : α → Nat)

theorem le_key_trans (a b c : α) (hab : decide (key a ≤ key b) = true)
    (hbc : decide (key b ≤ key c) = true) : decide (key a ≤ key c) = true := by
  simp only [decide_eq_true_eq] at *
  omega

theorem le_key_total (a b : α) : (decide (key a ≤ key b) || decide (key b ≤ key a)) = true := by
  simp only [Bool.or_eq_true, decide_eq_true_eq]
  omega

/-- An element before the first one whose number is not smaller. -/
def insertBy (a : α) : List α → List α
  | [] => [a]
  | b :: l => if key a ≤ key b then a :: b :: l else b :: insertBy a l

/-- The elements in the order of their numbers; those with the same number keep their order. -/
def sortBy (l : List α) : List α :=
  l.foldr (insertBy key) []

variable {key}

theorem insertBy_append {a : α} {l₁ l₂ : List α} (h₁ : ∀ b ∈ l₁, key b < key a)
    (h₂ : ∀ b ∈ l₂, key a ≤ key b) : insertBy key a (l₁ ++ l₂) = l₁ ++ a :: l₂ := by
  induction l₁ with
  | nil =>
    cases l₂ with
    | nil => rfl
    | cons b l => exact if_pos (h₂ b List.mem_cons_self)
  | cons b l₁ ih =>
    have hb := h₁ b List.mem_cons_self
    simp only [List.cons_append, insertBy, if_neg (Nat.not_le.2 hb)]
    rw [ih fun c hc => h₁ c (List.mem_cons_of_mem _ hc)]

/-- **Sorting by insertion is sorting**. -/
theorem mergeSort_eq_sortBy (l : List α) :
    l.mergeSort (fun a b => key a ≤ key b) = sortBy key l := by
  induction l with
  | nil => exact List.mergeSort_nil
  | cons a l ih =>
    obtain ⟨l₁, l₂, hcons, hl, hbefore⟩ :=
      List.mergeSort_cons (le_key_trans key) (le_key_total key) a l
    have hsorted := List.pairwise_mergeSort (le_key_trans key) (le_key_total key) (a :: l)
    rw [hcons, List.pairwise_append] at hsorted
    have hafter := (List.pairwise_cons.1 hsorted.2.1).1
    rw [hcons, sortBy, List.foldr_cons, ← sortBy, ← ih, hl]
    symm
    refine insertBy_append (fun b hb => ?_) (fun b hb => ?_)
    · have := hbefore b hb
      simpa using this
    · simpa using hafter b hb

end Sorting

/-! ## Routines -/

/-- Results are the same if they end alike, with the same. -/
instance decidableEqExcept {ε α : Type} [DecidableEq ε] [DecidableEq α] :
    DecidableEq (Except ε α)
  | .error a, .error b => decidable_of_iff (a = b) ⟨congrArg Except.error, fun h => by cases h; rfl⟩
  | .ok a, .ok b => decidable_of_iff (a = b) ⟨congrArg Except.ok, fun h => by cases h; rfl⟩
  | .error _, .ok _ => isFalse nofun
  | .ok _, .error _ => isFalse nofun

/-- The places that a scanner finds. -/
def Language.places : Language → Text → Except Fault (List Node)
  | python, source => do
    let lexing := Indented.rule.lexWithin source.length 0 source
    let lines ← (← lexing.run .python Indented.LineState.step .initial).finish
    Indented.blockNodes source lines
  | java, source => do
    let lexing := (Braced.rule .java).lexWithin source.length 0 source
    (← lexing.run .java (Braced.State.step .java source) .initial).finish .java
  | cSharp, source => do
    let lexing := (Braced.rule .cSharp).lexWithin source.length 0 source
    (← lexing.run .cSharp (Braced.State.step .cSharp source) .initial).finish .cSharp
  | visualBasic, source => do
    (← (Procedural.physicalLines source).foldlM Procedural.State.step .initial).finish

theorem Language.outline_eq (language : Language) (source : Text) :
    language.outline source = (do return .ofNodes source (← language.places source)) := by
  cases language with
  | python =>
    simp only [Language.outline, Language.places, Indented.outline, Indented.logicalLines,
      ← Rule.lex_eq_lexWithin, bind_assoc]
  | java =>
    simp only [Language.outline, Language.places, Braced.outline, Braced.Dialect.language,
      ← Rule.lex_eq_lexWithin, bind_assoc]
  | cSharp =>
    simp only [Language.outline, Language.places, Braced.outline, Braced.Dialect.language,
      ← Rule.lex_eq_lexWithin, bind_assoc]
  | visualBasic =>
    simp only [Language.outline, Language.places, Procedural.outline, bind_assoc]

/-- The routines of a text, with the places sorted by insertion. -/
def Language.compute (language : Language) (source : Text) : Except Fault (List Routine) := do
  let nodes := sortBy (·.span.start) (← language.places source)
  let w := nodes.foldl (Walk.step source language.attachment) ⟨[], none, [], []⟩
  return sortBy (·.span.start) (w.close source fun _ => true).routines

/-- **The routines of a fixed text can be evaluated**. -/
theorem Language.routines_eq_compute (language : Language) (source : Text) :
    language.routines source = language.compute source := by
  rw [Language.routines, Language.survey, Language.outline_eq, Language.compute]
  cases language.places source with
  | error fault => rfl
  | ok nodes =>
    have hnodes : Outline.ofNodes source nodes = ⟨source, sortBy (·.span.start) nodes⟩ :=
      congrArg (Outline.mk source) (mergeSort_eq_sortBy nodes)
    simp only [bind, Except.bind, pure, Except.pure, hnodes, Outline.survey]
    exact congrArg Except.ok (mergeSort_eq_sortBy _)

/-- The survey of a text, with the places and the routines sorted by insertion. -/
def Language.computeSurvey (language : Language) (source : Text) :
    Except Fault (List Routine × List TypeDecl) := do
  let nodes := sortBy (·.span.start) (← language.places source)
  let w := nodes.foldl (Walk.step source language.attachment) ⟨[], none, [], []⟩
  let w := w.close source fun _ => true
  return (sortBy (·.span.start) w.routines, w.types)

/-- **The survey of a fixed text can be evaluated**. -/
theorem Language.survey_eq_computeSurvey (language : Language) (source : Text) :
    language.survey source = language.computeSurvey source := by
  rw [Language.survey, Language.outline_eq, Language.computeSurvey]
  cases language.places source with
  | error fault => rfl
  | ok nodes =>
    have hnodes : Outline.ofNodes source nodes = ⟨source, sortBy (·.span.start) nodes⟩ :=
      congrArg (Outline.mk source) (mergeSort_eq_sortBy nodes)
    simp only [bind, Except.bind, pure, Except.pure, hnodes, Outline.survey]
    exact congrArg (fun routines => Except.ok (routines, _)) (mergeSort_eq_sortBy _)

end Scholia
