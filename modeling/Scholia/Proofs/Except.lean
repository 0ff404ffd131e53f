/-!
# Computations that may fail

A computation answers only if each part of it does. The lemmas take an answer apart into the
answers of the parts, so that no later proof has to unfold a `do`.
-/

namespace Scholia

variable {ε α β γ : Type}

/-- An answer of a composition comes from answers of both parts. -/
theorem bind_eq_ok {x : Except ε α} {f : α → Except ε β} {b : β} :
    x >>= f = .ok b ↔ ∃ a, x = .ok a ∧ f a = .ok b := by
  cases x with
  | error e =>
    constructor
    · intro h
      cases h
    · intro h
      obtain ⟨a, ha, -⟩ := h
      cases ha
  | ok a =>
    refine ⟨fun h => ⟨a, rfl, h⟩, fun h => ?_⟩
    obtain ⟨a', ha, hf⟩ := h
    cases ha
    exact hf

/-- A fault of a composition is one of its parts. -/
theorem bind_eq_error {x : Except ε α} {f : α → Except ε β} {e : ε} :
    x >>= f = .error e ↔ x = .error e ∨ ∃ a, x = .ok a ∧ f a = .error e := by
  cases x with
  | error e' =>
    refine ⟨fun h => .inl (by cases h; rfl), ?_⟩
    rintro (h | ⟨a, ha, -⟩)
    · cases h
      rfl
    · cases ha
  | ok a =>
    refine ⟨fun h => .inr ⟨a, rfl, h⟩, ?_⟩
    rintro (h | ⟨a', ha, hf⟩)
    · cases h
    · cases ha
      exact hf

/-- A change of faults leaves answers alone. -/
theorem mapError_eq_ok {δ : Type} {f : ε → δ} {x : Except ε α} {a : α} :
    x.mapError f = .ok a ↔ x = .ok a := by
  cases x with
  | error e => exact ⟨nofun, nofun⟩
  | ok b => exact ⟨fun h => by cases h; rfl, fun h => by cases h; rfl⟩

/-- What is made of the answer in the end. -/
theorem map_bind_ok {x : Except ε α} {f : α → Except ε β} (g : β → γ) :
    (x >>= fun a => f a >>= fun b => .ok (g b)) = (x >>= f).map g := by
  cases x with
  | error fault => rfl
  | ok a =>
    show (f a >>= fun b => .ok (g b)) = (f a).map g
    cases f a <;> rfl

theorem toOption_eq_some {x : Except ε α} {a : α} (h : x.toOption = some a) : x = .ok a := by
  cases x with
  | error fault => cases h
  | ok b =>
    cases h
    rfl

theorem toOption_bind_ok (x : Except ε α) (f : α → β) :
    (x >>= fun a => .ok (f a)).toOption = x.toOption.map f := by
  cases x <;> rfl

/-- **What every element keeps, a fold keeps**, together with the elements folded so far. -/
theorem foldlM_keeps {f : β → α → Except ε β} {I : List α → β → Prop} {elements : List α}
    {first last : β} (hfirst : I [] first)
    (hstep : ∀ before a after b b', elements = before ++ a :: after → I before b →
      f b a = .ok b' → I (before ++ [a]) b')
    (h : elements.foldlM f first = .ok last) : I elements last := by
  have key : ∀ after before b, elements = before ++ after → I before b →
      after.foldlM f b = .ok last → I elements last := by
    intro after
    induction after with
    | nil =>
      intro before b he hb hl
      cases hl
      rw [he, List.append_nil]
      exact hb
    | cons a after ih =>
      intro before b he hb hl
      rw [List.foldlM_cons] at hl
      obtain ⟨b', hb', hl⟩ := bind_eq_ok.1 hl
      exact ih (before ++ [a]) b' (by rw [he, List.append_assoc]; rfl)
        (hstep before a after b b' he hb hb') hl
  exact key elements [] first rfl hfirst h

end Scholia
