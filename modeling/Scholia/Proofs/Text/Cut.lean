import Scholia.Text.Basic
/-!
# Cuts of a text

A *cut* is a byte of a text that no character lies across: the width of a leading part. Slices are
exact at cuts: two cuts in order divide a text into three parts of which the slice is the middle
one, and adjoining slices make up the slice over both.

`slice` itself is total, so a slice that is not taken between cuts goes unnoticed. What is said here
of cuts is what makes a slice the part of the text that its two bytes name.
-/

namespace Scholia.Text

/-- A byte of a text at which no character is divided. -/
def IsCut (s : Text) (n : Nat) : Prop :=
  ∃ a b, s = a ++ b ∧ n = width a

theorem IsCut.of_append (a b : Text) : IsCut (a ++ b) (width a) :=
  ⟨a, b, rfl, rfl⟩

theorem IsCut.zero (s : Text) : IsCut s 0 :=
  ⟨[], s, rfl, rfl⟩

theorem IsCut.full (s : Text) : IsCut s (width s) :=
  ⟨s, [], (List.append_nil s).symm, rfl⟩

theorem IsCut.append_right {s : Text} {n : Nat} (h : IsCut s n) (t : Text) :
    IsCut (s ++ t) n := by
  obtain ⟨a, b, rfl, rfl⟩ := h
  exact ⟨a, b ++ t, List.append_assoc a b t, rfl⟩

theorem IsCut.le_width {s : Text} {n : Nat} (h : IsCut s n) : n ≤ width s := by
  obtain ⟨a, b, rfl, rfl⟩ := h
  rw [width_append]
  exact Nat.le_add_right _ _

theorem eq_nil_of_width_eq_zero {s : Text} (h : width s = 0) : s = [] := by
  cases s with
  | nil => rfl
  | cons c s =>
    have := c.utf8Size_pos
    simp only [width_cons] at h
    omega

/-- A text has one leading part of a given width. -/
theorem eq_of_append_of_width {a b a' b' : Text} (h : a ++ b = a' ++ b')
    (hw : width a = width a') : a = a' ∧ b = b' := by
  have ha : a = a' := by
    rw [← takeBytes_width_append a b, ← takeBytes_width_append a' b', h, hw]
  subst ha
  exact ⟨rfl, List.append_cancel_left h⟩

theorem takeBytes_takeBytes {m n : Nat} (h : m ≤ n) (s : Text) :
    takeBytes m (takeBytes n s) = takeBytes m s := by
  induction s generalizing m n with
  | nil => rfl
  | cons c s ih =>
    by_cases hm : c.utf8Size ≤ m
    · have hn : c.utf8Size ≤ n := Nat.le_trans hm h
      simp only [takeBytes, if_pos hm, if_pos hn]
      rw [ih (by omega)]
    · by_cases hn : c.utf8Size ≤ n
      · simp only [takeBytes, if_pos hn, if_neg hm]
      · simp only [takeBytes, if_neg hn, if_neg hm]

/-- **Cuts in order divide a text**: the later one leaves the leading part of the earlier one. -/
theorem IsCut.split {s : Text} {m n : Nat} (hm : IsCut s m) (hn : IsCut s n) (h : m ≤ n) :
    ∃ a b c, s = a ++ (b ++ c) ∧ m = width a ∧ n = width a + width b := by
  obtain ⟨a, r, hs, rfl⟩ := hm
  obtain ⟨p, c, hs', rfl⟩ := hn
  have ha : takeBytes (width a) p = a := calc
    takeBytes (width a) p = takeBytes (width a) (takeBytes (width p) (p ++ c)) := by
      rw [takeBytes_width_append]
    _ = takeBytes (width a) (p ++ c) := takeBytes_takeBytes h _
    _ = a := by rw [← hs', hs, takeBytes_width_append]
  have hp : a ++ dropBytes (width a) p = p := by
    have := takeBytes_append_dropBytes (width a) p
    rwa [ha] at this
  refine ⟨a, dropBytes (width a) p, c, ?_, rfl, ?_⟩
  · rw [← List.append_assoc, hp, hs']
  · rw [← width_append, hp]

theorem IsCut.width_takeBytes {s : Text} {n : Nat} (h : IsCut s n) : width (takeBytes n s) = n := by
  obtain ⟨a, b, rfl, rfl⟩ := h
  rw [takeBytes_width_append]

theorem isCut_iff {s : Text} {n : Nat} : IsCut s n ↔ width (takeBytes n s) = n :=
  ⟨IsCut.width_takeBytes, fun h => ⟨_, _, (takeBytes_append_dropBytes n s).symm, h.symm⟩⟩

instance (s : Text) (n : Nat) : Decidable (IsCut s n) :=
  decidable_of_iff _ isCut_iff.symm

/-! ## Slices between cuts -/

@[simp] theorem slice_middle (a b c : Text) :
    slice (width a) (width a + width b) (a ++ (b ++ c)) = b := by
  simp [slice]

theorem dropBytes_add (a b : Text) (n : Nat) :
    dropBytes (width a + n) (a ++ b) = dropBytes n b := by
  induction a with
  | nil => rw [width_nil, Nat.zero_add, List.nil_append]
  | cons c a ih =>
    rw [width_cons, List.cons_append, dropBytes, if_pos (by omega),
      show c.utf8Size + width a + n - c.utf8Size = width a + n by omega, ih]

theorem dropBytes_dropBytes {s : Text} {m n : Nat} (hm : IsCut s m) (hn : IsCut s n) (h : m ≤ n) :
    dropBytes (n - m) (dropBytes m s) = dropBytes n s := by
  obtain ⟨a, b, c, rfl, rfl, rfl⟩ := hm.split hn h
  rw [dropBytes_width_append, Nat.add_sub_cancel_left, dropBytes_width_append, ← width_append,
    ← List.append_assoc, dropBytes_width_append]

/-- A slice and what follows it make up what follows its start. -/
theorem slice_append_dropBytes {s : Text} {m n : Nat} (hm : IsCut s m) (hn : IsCut s n)
    (h : m ≤ n) : slice m n s ++ dropBytes n s = dropBytes m s := by
  rw [← dropBytes_dropBytes hm hn h]
  exact takeBytes_append_dropBytes _ _

/-- **Adjoining slices make up the slice over both**. -/
theorem slice_append_slice {s : Text} {i j k : Nat} (hi : IsCut s i) (hj : IsCut s j)
    (hk : IsCut s k) (hij : i ≤ j) (hjk : j ≤ k) : slice i j s ++ slice j k s = slice i k s := by
  have hik := Nat.le_trans hij hjk
  refine List.append_cancel_right (?_ : _ ++ dropBytes k s = _ ++ dropBytes k s)
  rw [List.append_assoc, slice_append_dropBytes hj hk hjk, slice_append_dropBytes hi hj hij,
    slice_append_dropBytes hi hk hik]

theorem width_slice {s : Text} {m n : Nat} (hm : IsCut s m) (hn : IsCut s n) (h : m ≤ n) :
    width (slice m n s) = n - m := by
  obtain ⟨a, b, c, rfl, rfl, rfl⟩ := hm.split hn h
  rw [slice_middle, Nat.add_sub_cancel_left]

theorem slice_self {s : Text} {n : Nat} (h : IsCut s n) : slice n n s = [] :=
  eq_nil_of_width_eq_zero (by rw [width_slice h h (Nat.le_refl n), Nat.sub_self])

theorem slice_zero (n : Nat) (s : Text) : slice 0 n s = takeBytes n s := by
  have : dropBytes 0 s = s := dropBytes_width_append [] s
  rw [slice, this, Nat.sub_zero]

/-! ## Trimming -/

/-- Trimming an end leaves off a part at the end. -/
theorem trimEndWhere_append (p : Char → Bool) (s : Text) :
    ∃ tail, s = trimEndWhere p s ++ tail ∧ tail.all p = true := by
  refine ⟨(s.reverse.takeWhile p).reverse, ?_, ?_⟩
  · rw [trimEndWhere, ← List.reverse_append, List.takeWhile_append_dropWhile, List.reverse_reverse]
  · rw [List.all_reverse]
    exact List.all_takeWhile

/-- Trimming a start leaves off a part at the start. -/
theorem append_trimStartWhere (p : Char → Bool) (s : Text) :
    ∃ lead, s = lead ++ trimStartWhere p s ∧ lead.all p = true :=
  ⟨s.takeWhile p, List.takeWhile_append_dropWhile.symm, List.all_takeWhile⟩

end Scholia.Text
