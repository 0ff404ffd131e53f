import Mathlib.Data.List.Infix
import Scholia.Proofs.Text.Join
/-!
# A pattern replaced

A text is gone through once: where the pattern begins its value is written, and what is written is
not looked at again. A pattern that is no part of a text leaves it as it is, and a text that begins
with none of the pattern's characters is replaced apart from what stands before it.

**The law** (`replaceAll_eq_self_iff`): a text stays what it was exactly if the pattern is no part of
it, or is replaced by itself.
-/

namespace Scholia.Text

variable {p v s t : Text}

/-- A text is read by a pattern: an occurrence at its front is passed over as a whole, and where
there is none a character. -/
@[elab_as_elim]
theorem pattern_induction {motive : Text → Prop} (p : Text) (hp : p ≠ []) (nil : motive [])
    (found : ∀ t, motive t → motive (p ++ t))
    (step : ∀ c r, ¬ p <+: c :: r → motive r → motive (c :: r)) (s : Text) : motive s := by
  induction hn : s.length using Nat.strongRecOn generalizing s with
  | ind n ih =>
    by_cases hlead : p <+: s
    · obtain ⟨t, rfl⟩ := hlead
      refine found t (ih t.length ?_ t rfl)
      have := List.length_pos_of_ne_nil hp
      rw [← hn, List.length_append]
      omega
    · cases s with
      | nil => exact nil
      | cons c r => exact step c r hlead (ih r.length (by rw [← hn]; exact Nat.lt_succ_self _) r rfl)

theorem replaceFrom_eq_drop (p v : Text) (skip : Nat) (s : Text) :
    replaceFrom p v skip s = replaceAll p v (s.drop skip) := by
  induction skip generalizing s with
  | zero => rfl
  | succ skip ih =>
    cases s with
    | nil => simp [replaceFrom, replaceAll]
    | cons c r => exact ih r

@[simp] theorem replaceAll_nil (p v : Text) : replaceAll p v [] = [] := rfl

/-- An occurrence at the front is replaced. -/
theorem replaceAll_found (hp : p ≠ []) (v t : Text) :
    replaceAll p v (p ++ t) = v ++ replaceAll p v t := by
  obtain ⟨c, r, rfl⟩ := List.exists_cons_of_ne_nil hp
  have hlead : (c :: r).isPrefixOf (c :: (r ++ t)) = true :=
    List.isPrefixOf_iff_prefix.2 (List.prefix_append (c :: r) t)
  rw [List.cons_append, replaceAll, replaceFrom, if_pos hlead, replaceFrom_eq_drop,
    List.length_cons, Nat.add_sub_cancel, List.drop_left]

/-- A character at which no occurrence begins is kept. -/
theorem replaceAll_kept {c : Char} {r : Text} (h : ¬ p <+: c :: r) (v : Text) :
    replaceAll p v (c :: r) = c :: replaceAll p v r := by
  rw [replaceAll, replaceFrom, if_neg (mt List.isPrefixOf_iff_prefix.1 h)]
  rfl

/-- What replaces holds characters of the text and of what it puts in. -/
theorem mem_replaceAll (hp : p ≠ []) {d : Char} (h : d ∈ replaceAll p v s) : d ∈ v ∨ d ∈ s := by
  induction s using pattern_induction p hp with
  | nil => cases h
  | found t ih =>
    rw [replaceAll_found hp, List.mem_append] at h
    rcases h with h | h
    · exact .inl h
    · exact (ih h).imp_right (List.mem_append_right p)
  | step c r hlead ih =>
    rw [replaceAll_kept hlead] at h
    rcases List.mem_cons.1 h with rfl | h
    · exact .inr List.mem_cons_self
    · exact (ih h).imp_right (List.mem_cons_of_mem c)

/-- **A text without the pattern stays as it is**. -/
theorem replaceAll_of_not_isInfix (h : ¬ p <:+: s) (v : Text) : replaceAll p v s = s := by
  induction s with
  | nil => rfl
  | cons c r ih =>
    rw [List.infix_cons_iff, not_or] at h
    rw [replaceAll_kept h.1, ih h.2]

/-- A text without the first character of the pattern stays before anything. -/
theorem replaceAll_lead {d : Char} (hs : d ∉ s) (p v t : Text) :
    replaceAll (d :: p) v (s ++ t) = s ++ replaceAll (d :: p) v t := by
  induction s with
  | nil => rfl
  | cons c s ih =>
    obtain ⟨hc, hs⟩ := not_or.1 (mt List.mem_cons.2 hs)
    have hlead : ¬ d :: p <+: c :: (s ++ t) := fun h => hc (List.cons_prefix_cons.1 h).1
    rw [List.cons_append, replaceAll_kept hlead, ih hs, List.cons_append]

/-- An occurrence does not go on behind a character that the pattern has not. -/
theorem prefix_of_prefix_append (ht : ∀ c, t.head? = some c → c ∉ p) (h : p <+: s ++ t) :
    p <+: s := by
  cases t with
  | nil => rwa [List.append_nil] at h
  | cons c t =>
    rw [← List.isPrefixOf_iff_prefix, isPrefixOf_append (ht c rfl), List.isPrefixOf_iff_prefix] at h
    exact h

/-- **Two texts are replaced apart** if the second begins with no character of the pattern. -/
theorem replaceAll_append (hp : p ≠ []) (ht : ∀ c, t.head? = some c → c ∉ p) (v s : Text) :
    replaceAll p v (s ++ t) = replaceAll p v s ++ replaceAll p v t := by
  induction s using pattern_induction p hp with
  | nil => rfl
  | found s ih => rw [List.append_assoc, replaceAll_found hp, ih, replaceAll_found hp,
      List.append_assoc]
  | step c r hlead ih =>
    have hlead' : ¬ p <+: c :: (r ++ t) := mt (prefix_of_prefix_append (s := c :: r) ht) hlead
    rw [List.cons_append, replaceAll_kept hlead', ih, replaceAll_kept hlead, List.cons_append]

/-- Longer values make no text shorter, and shorter ones none longer. -/
theorem length_replaceAll (hp : p ≠ []) (v s : Text) :
    (p.length ≤ v.length → s.length ≤ (replaceAll p v s).length) ∧
      (v.length ≤ p.length → (replaceAll p v s).length ≤ s.length) := by
  induction s using pattern_induction p hp with
  | nil => exact ⟨fun _ => Nat.le_refl 0, fun _ => Nat.le_refl 0⟩
  | found t ih =>
    rw [replaceAll_found hp, List.length_append, List.length_append]
    omega
  | step c r hlead ih =>
    rw [replaceAll_kept hlead, List.length_cons, List.length_cons]
    omega

/-- **A text stays what it was exactly if** the pattern is no part of it, or is replaced by itself. -/
theorem replaceAll_eq_self_iff (hp : p ≠ []) :
    replaceAll p v s = s ↔ ¬ p <:+: s ∨ v = p := by
  constructor
  · intro h
    refine or_iff_not_imp_left.2 fun hpart => ?_
    rw [not_not] at hpart
    induction s using pattern_induction p hp with
    | nil => exact absurd (List.eq_nil_of_infix_nil hpart) hp
    | found t ih =>
      rw [replaceAll_found hp] at h
      have hlength := congrArg List.length h
      have hrest := length_replaceAll hp v t
      rw [List.length_append, List.length_append] at hlength
      exact (List.append_inj h (by omega)).1
    | step c r hlead ih =>
      rw [replaceAll_kept hlead] at h
      exact ih (List.cons.inj h).2 ((List.infix_cons_iff.1 hpart).resolve_left hlead)
  · rintro (h | rfl)
    · exact replaceAll_of_not_isInfix h v
    · induction s using pattern_induction v hp with
      | nil => rfl
      | found t ih => rw [replaceAll_found hp, ih]
      | step c r hlead ih => rw [replaceAll_kept hlead, ih]

end Scholia.Text
