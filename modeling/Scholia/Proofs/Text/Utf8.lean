import Scholia.Text.Utf8
/-!
# Bytes read in parts

A lenient reader that gets a byte sequence in parts, and reads each part by itself, may take the two
halves of a divided character for two malformed parts. `overhang` says how far a unit reaches over
the end of a part; `Spares` says of a division that no unit reaches over any end.

**The laws**: a division that spares the units of a byte sequence is read part by part as the
sequence is read whole (`decodeLenient_flatten`), and the bytes of a text are read as the text
(`decodeLenient_encode`).
-/

namespace Scholia.Text.Utf8

namespace Unit

/-- The number of bytes it takes. -/
def size : Unit → Nat
  | char _ n => n
  | malformed n => n

/-- The character it stands for; a malformed part stands for none. -/
def read : Unit → Option Char
  | char c _ => some c
  | malformed _ => none

end Unit

theorem unitsFrom_cons (b : Nat) (r : List Nat) :
    unitsFrom 0 (b :: r) = (unitAt b r).read :: unitsFrom ((unitAt b r).size - 1) r := by
  rw [unitsFrom]
  cases unitAt b r <;> rfl

/-- How many bytes behind `a`, before `b`, belong to a unit that begins in `a`, when `skip` bytes of
a unit begun earlier are still to pass. -/
def overhang : Nat → List Nat → List Nat → Nat
  | skip, [], _ => skip
  | skip + 1, _ :: a, b => overhang skip a b
  | 0, x :: a, b => overhang ((unitAt x (a ++ b)).size - 1) a b

/-- A unit that is passed within `a` does not reach over its end. -/
theorem le_length_of_overhang {skip : Nat} {a b : List Nat} (h : overhang skip a b = 0) :
    skip ≤ a.length := by
  induction a generalizing skip with
  | nil => exact Nat.le_of_eq h
  | cons x a ih =>
    cases skip with
    | zero => exact Nat.zero_le _
    | succ skip => exact Nat.succ_le_succ (ih h)

/-- **A unit that ends within `a` is found without what follows `a`**. -/
theorem unitAt_append {x : Nat} {a b : List Nat} (h : (unitAt x (a ++ b)).size ≤ a.length + 1) :
    unitAt x (a ++ b) = unitAt x a := by
  -- a byte that decides where the unit ends and does not stand in `a` would be part of it
  match a with
  | [] => grind [unitAt, within, Unit.size]
  | [_] => grind [unitAt, within, Unit.size]
  | [_, _] => grind [unitAt, within, Unit.size]
  | _ :: _ :: _ :: _ => rfl

/-- **What ends with a unit is read before anything as it is read alone**. -/
theorem unitsFrom_append {skip : Nat} {a b : List Nat} (h : overhang skip a b = 0) :
    unitsFrom skip (a ++ b) = unitsFrom skip a ++ unitsFrom 0 b := by
  induction a generalizing skip with
  | nil =>
    obtain rfl : skip = 0 := h
    rfl
  | cons x a ih =>
    cases skip with
    | succ skip => exact ih h
    | zero =>
      have hsize : (unitAt x (a ++ b)).size ≤ a.length + 1 :=
        Nat.sub_le_iff_le_add.1 (le_length_of_overhang h)
      rw [List.cons_append, unitsFrom_cons, unitsFrom_cons, ih h, unitAt_append hsize,
        List.cons_append]

/-- A unit consists of bytes that are there. -/
theorem size_unitAt_le (x : Nat) (r : List Nat) : (unitAt x r).size ≤ r.length + 1 := by
  match r with
  | [] => grind [unitAt, within, Unit.size]
  | [_] => grind [unitAt, within, Unit.size]
  | [_, _] => grind [unitAt, within, Unit.size]
  | _ :: _ :: _ :: _ => grind [unitAt, Unit.size]

/-- No unit reaches over the end of the sequence. -/
theorem overhang_nil {skip : Nat} {a : List Nat} (h : skip ≤ a.length) : overhang skip a [] = 0 := by
  induction a generalizing skip with
  | nil => exact Nat.le_zero.1 h
  | cons x a ih =>
    cases skip with
    | succ skip => exact ih (Nat.le_of_succ_le_succ h)
    | zero =>
      rw [overhang, List.append_nil]
      exact ih (Nat.sub_le_of_le_add (size_unitAt_le x a))

/-- No part ends inside a unit of the sequence that the parts make up. -/
def Spares : List (List UInt8) → Prop
  | [] => True
  | part :: rest =>
    overhang 0 (part.map UInt8.toNat) (rest.flatten.map UInt8.toNat) = 0 ∧ Spares rest

/-- Whether the units are spared is found from the first part on. -/
def decideSpares : (parts : List (List UInt8)) → Decidable (Spares parts)
  | [] => .isTrue trivial
  | part :: rest =>
    have := decideSpares rest
    inferInstanceAs (Decidable
      (overhang 0 (part.map UInt8.toNat) (rest.flatten.map UInt8.toNat) = 0 ∧ Spares rest))

instance : DecidablePred Spares := decideSpares

/-- A sequence in one part is divided nowhere. -/
theorem spares_singleton (bytes : List UInt8) : Spares [bytes] :=
  ⟨overhang_nil (Nat.zero_le _), trivial⟩

theorem units_append {a b : List UInt8}
    (h : overhang 0 (a.map UInt8.toNat) (b.map UInt8.toNat) = 0) :
    units (a ++ b) = units a ++ units b := by
  rw [units, List.map_append, unitsFrom_append h]
  rfl

/-- **A division that spares the units is read part by part**. -/
theorem decodeLenient_flatten {parts : List (List UInt8)} (h : Spares parts) :
    decodeLenient parts.flatten = parts.flatMap decodeLenient := by
  induction parts with
  | nil => rfl
  | cons part rest ih =>
    rw [List.flatten_cons, List.flatMap_cons, ← ih h.2, decodeLenient, units_append h.1,
      List.map_append]
    rfl

/-! ## The bytes of a text -/

/-- The bytes of a text. -/
def encode (s : Text) : List UInt8 :=
  s.flatMap String.utf8EncodeChar

theorem ofNat_eq {c : Char} {n : Nat} (h : n = c.toNat) : Char.ofNat n = c := by
  rw [h, Char.ofNat_toNat]

theorem unitAt_one {c : Char} (h : c.toNat ≤ 0x7f) (r : List Nat) :
    unitAt c.toNat r = .char c 1 := by
  rw [unitAt, if_pos (by omega), ofNat_eq rfl]

theorem unitAt_two {c : Char} (h : 0x7f < c.toNat) (h' : c.toNat ≤ 0x7ff) (r : List Nat) :
    unitAt (c.toNat / 64 % 0x20 + 0xc0) ((c.toNat % 0x40 + 0x80) :: r) = .char c 2 := by
  have hc : Char.ofNat ((c.toNat / 64 % 0x20 + 0xc0 - 0xC0) * 0x40 + (c.toNat % 0x40 + 0x80 - 0x80)) = c :=
    ofNat_eq (by omega)
  grind [unitAt, within]

theorem unitAt_three {c : Char} (h : 0x7ff < c.toNat) (h' : c.toNat ≤ 0xffff) (r : List Nat) :
    unitAt (c.toNat / 4096 % 0x10 + 0xe0)
      ((c.toNat / 64 % 0x40 + 0x80) :: (c.toNat % 0x40 + 0x80) :: r) = .char c 3 := by
  have hrange : c.toNat < 0xD800 ∨ 0xDFFF < c.toNat ∧ c.toNat < 0x110000 := c.valid
  have hc : Char.ofNat ((c.toNat / 4096 % 0x10 + 0xe0 - 0xE0) * 0x1000 +
      (c.toNat / 64 % 0x40 + 0x80 - 0x80) * 0x40 + (c.toNat % 0x40 + 0x80 - 0x80)) = c :=
    ofNat_eq (by omega)
  grind [unitAt, within, secondRange]

theorem unitAt_four {c : Char} (h : 0xffff < c.toNat) (r : List Nat) :
    unitAt (c.toNat / 262144 % 0x08 + 0xf0)
      ((c.toNat / 4096 % 0x40 + 0x80) :: (c.toNat / 64 % 0x40 + 0x80) :: (c.toNat % 0x40 + 0x80) :: r) =
        .char c 4 := by
  have hrange : c.toNat < 0xD800 ∨ 0xDFFF < c.toNat ∧ c.toNat < 0x110000 := c.valid
  have hc : Char.ofNat ((c.toNat / 262144 % 0x08 + 0xf0 - 0xF0) * 0x40000 +
      (c.toNat / 4096 % 0x40 + 0x80 - 0x80) * 0x1000 +
      (c.toNat / 64 % 0x40 + 0x80 - 0x80) * 0x40 + (c.toNat % 0x40 + 0x80 - 0x80)) = c :=
    ofNat_eq (by omega)
  grind [unitAt, within, secondRange]

/-- **The bytes of a character are one unit**, whatever follows them. -/
theorem unitAt_encodeChar (c : Char) (r : List Nat) :
    ∃ b bs, (String.utf8EncodeChar c).map UInt8.toNat = b :: bs ∧
      unitAt b (bs ++ r) = .char c (bs.length + 1) := by
  have hrange : c.toNat < 0xD800 ∨ 0xDFFF < c.toNat ∧ c.toNat < 0x110000 := c.valid
  have hbyte : ∀ {n : Nat}, n < 256 → (UInt8.ofNat n).toNat = n := fun h => by
    rw [UInt8.toNat_ofNat', Nat.mod_eq_of_lt h]
  rw [String.utf8EncodeChar, show c.val.toNat = c.toNat from rfl]
  split
  · next h =>
    refine ⟨_, _, rfl, ?_⟩
    rw [hbyte (by omega)]
    exact unitAt_one h r
  split
  · next h h' =>
    refine ⟨_, _, rfl, ?_⟩
    simp only [List.map_cons, List.map_nil]
    rw [hbyte (by omega), hbyte (by omega)]
    exact unitAt_two (by omega) h' r
  split
  · next h h' =>
    refine ⟨_, _, rfl, ?_⟩
    simp only [List.map_cons, List.map_nil]
    rw [hbyte (by omega), hbyte (by omega), hbyte (by omega)]
    exact unitAt_three (by omega) h' r
  · next h =>
    refine ⟨_, _, rfl, ?_⟩
    simp only [List.map_cons, List.map_nil]
    rw [hbyte (by omega), hbyte (by omega), hbyte (by omega), hbyte (by omega)]
    exact unitAt_four (by omega) r

/-- Bytes of a unit that are still to pass. -/
theorem unitsFrom_skip (bs r : List Nat) : unitsFrom bs.length (bs ++ r) = unitsFrom 0 r := by
  induction bs with
  | nil => rfl
  | cons b bs ih => exact ih

/-- **The bytes of a text have no malformed part**. -/
theorem units_encode (s : Text) : units (encode s) = s.map some := by
  induction s with
  | nil => rfl
  | cons c s ih =>
    obtain ⟨b, bs, hbytes, hunit⟩ := unitAt_encodeChar c ((encode s).map UInt8.toNat)
    rw [units, encode, List.flatMap_cons, List.map_append, hbytes, List.cons_append,
      show s.flatMap String.utf8EncodeChar = encode s from rfl, unitsFrom_cons, hunit]
    show some c :: unitsFrom bs.length _ = _
    rw [unitsFrom_skip]
    exact congrArg (some c :: ·) ih

/-- **The bytes of a text are read as the text**. -/
theorem decodeLenient_encode (s : Text) : decodeLenient (encode s) = s := by
  rw [decodeLenient, units_encode, List.map_map]
  exact List.map_id s

end Scholia.Text.Utf8
