/-!
# Text

A text is the list of its characters. Positions in a text are counted in bytes of its UTF-8 form,
so that they can be compared with what editors and other programs report; `takeBytes` and
`dropBytes` cut at a byte and never inside a character.

What is decided here: byte widths, byte slices, search for a fixed pattern, splitting and joining,
matching parentheses, digits. Character classes are not: `splitWhere`, `trimEndWhere` and the like take
the class as an argument.
-/

namespace Scholia

/-- A text as its characters, in order. -/
abbrev Text := List Char

instance : Coe String Text := ⟨String.toList⟩

namespace Text

/-- What holds of all characters of a text is decided going from one to the next, and not by going
through all characters there are. -/
instance (priority := high) decidableForallMem (s : Text) (p : Char → Prop) [DecidablePred p] :
    Decidable (∀ c ∈ s, p c) :=
  List.decidableBAll p s

/-! ## Bytes -/

/-- The number of bytes of the UTF-8 form. -/
def width : Text → Nat
  | [] => 0
  | c :: r => c.utf8Size + width r

/-- The longest leading part of at most `n` bytes. -/
def takeBytes : Nat → Text → Text
  | _, [] => []
  | n, c :: r => if c.utf8Size ≤ n then c :: takeBytes (n - c.utf8Size) r else []

/-- What `takeBytes` leaves. -/
def dropBytes : Nat → Text → Text
  | _, [] => []
  | n, c :: r => if c.utf8Size ≤ n then dropBytes (n - c.utf8Size) r else c :: r

/-- The part from byte `start` up to byte `stop`. -/
def slice (start stop : Nat) (s : Text) : Text :=
  takeBytes (stop - start) (dropBytes start s)

@[simp] theorem width_nil : width [] = 0 := rfl

@[simp] theorem width_cons (c : Char) (s : Text) : width (c :: s) = c.utf8Size + width s := rfl

@[simp] theorem width_append (s t : Text) : width (s ++ t) = width s + width t := by
  induction s with
  | nil => simp
  | cons c s ih => simp [ih, Nat.add_assoc]

/-- **A cut loses nothing**: the two parts at a byte make up the text. -/
@[simp] theorem takeBytes_append_dropBytes (n : Nat) (s : Text) :
    takeBytes n s ++ dropBytes n s = s := by
  induction s generalizing n with
  | nil => rfl
  | cons c s ih =>
    by_cases h : c.utf8Size ≤ n
    · simp [takeBytes, dropBytes, h, ih]
    · simp [takeBytes, dropBytes, h]

/-- **A cut at a boundary is exact**. -/
@[simp] theorem takeBytes_width_append (s t : Text) : takeBytes (width s) (s ++ t) = s := by
  induction s with
  | nil =>
    cases t with
    | nil => rfl
    | cons c t => simp [takeBytes, Nat.not_le.2 c.utf8Size_pos]
  | cons c s ih => simp [takeBytes, ih]

@[simp] theorem dropBytes_width_append (s t : Text) : dropBytes (width s) (s ++ t) = t := by
  induction s with
  | nil =>
    cases t with
    | nil => rfl
    | cons c t => simp [dropBytes, Nat.not_le.2 c.utf8Size_pos]
  | cons c s ih => simp [dropBytes, ih]

/-! ## Patterns -/

/-- The rest of a text after the leading `pattern`, if it leads. -/
def dropLead? : Text → Text → Option Text
  | [], s => some s
  | _ :: _, [] => none
  | p :: ps, c :: r => if p = c then dropLead? ps r else none

/-- The parts before and after the first occurrence of `pattern`. -/
def cutAt? (pattern : Text) : Text → Option (Text × Text)
  | [] => (dropLead? pattern []).map ([], ·)
  | c :: r =>
    match dropLead? pattern (c :: r) with
    | some rest => some ([], rest)
    | none => (cutAt? pattern r).map fun (before, rest) => (c :: before, rest)

/-- The parts before and after the last occurrence of `pattern`. -/
def cutAtLast? (pattern : Text) : Text → Option (Text × Text)
  | [] => (dropLead? pattern []).map ([], ·)
  | c :: r =>
    match cutAtLast? pattern r with
    | some (before, rest) => some (c :: before, rest)
    | none => (dropLead? pattern (c :: r)).map ([], ·)

/-- Whether `pattern` occurs. -/
def holds (pattern s : Text) : Bool :=
  (cutAt? pattern s).isSome

/-- Replacement from left to right, when `skip` characters of an occurrence are still to pass. -/
def replaceFrom (pattern value : Text) : Nat → Text → Text
  | _, [] => []
  | skip + 1, _ :: r => replaceFrom pattern value skip r
  | 0, c :: r =>
    if pattern.isPrefixOf (c :: r) then
      value ++ replaceFrom pattern value (pattern.length - 1) r
    else c :: replaceFrom pattern value 0 r

/-- Every occurrence of `pattern`, found from left to right, replaced by `value`. -/
def replaceAll (pattern value s : Text) : Text :=
  replaceFrom pattern value 0 s

/-- The number of occurrences of a character. -/
def tally (c : Char) (s : Text) : Nat :=
  s.count c

theorem dropLead?_eq_some_iff {p s r : Text} : dropLead? p s = some r ↔ s = p ++ r := by
  induction p generalizing s with
  | nil => simp [dropLead?, eq_comm]
  | cons c p ih =>
    cases s with
    | nil => simp [dropLead?]
    | cons d s =>
      by_cases h : c = d
      · simp [dropLead?, h, ih]
      · simp [dropLead?, h, Ne.symm h]

/-- **The parts of a cut and the pattern make up the text**. -/
theorem eq_of_cutAt? {p s a b : Text} (h : cutAt? p s = some (a, b)) : s = a ++ p ++ b := by
  induction s generalizing a with
  | nil =>
    simp only [cutAt?, Option.map_eq_some_iff, dropLead?_eq_some_iff] at h
    obtain ⟨r, hr, he⟩ := h
    simp_all
  | cons c s ih =>
    simp only [cutAt?] at h
    split at h
    · next rest hr =>
      rw [dropLead?_eq_some_iff] at hr
      simp_all
    · simp only [Option.map_eq_some_iff, Prod.exists, Prod.mk.injEq] at h
      obtain ⟨a', b', h', rfl, rfl⟩ := h
      simp [ih h']

/-! ## Splitting and joining -/

/-- The parts between the characters of a class: one part more than there are such characters. -/
def splitWhere (p : Char → Bool) : Text → List Text
  | [] => [[]]
  | c :: r =>
    if p c then [] :: splitWhere p r
    else
      match splitWhere p r with
      | [] => [[c]]
      | part :: parts => (c :: part) :: parts

/-- Texts with `separator` between each two. -/
def join (separator : Text) (parts : List Text) : Text :=
  List.intercalate separator parts

/-- The text without the leading characters of a class. -/
def trimStartWhere (p : Char → Bool) (s : Text) : Text :=
  s.dropWhile p

/-- The text without the trailing characters of a class. -/
def trimEndWhere (p : Char → Bool) (s : Text) : Text :=
  (s.reverse.dropWhile p).reverse

/-- The text without the leading and the trailing characters of a class. -/
def trimWhere (p : Char → Bool) (s : Text) : Text :=
  trimEndWhere p (trimStartWhere p s)

/-- A number in decimal digits. -/
def ofNat (n : Nat) : Text :=
  Nat.toDigits 10 n

theorem isDigit_of_mem_ofNat {n : Nat} {c : Char} (h : c ∈ ofNat n) : c.isDigit = true :=
  Nat.isDigit_of_mem_toDigits (by decide) (by decide) h

theorem splitWhere_ne_nil (p : Char → Bool) (s : Text) : splitWhere p s ≠ [] := by
  cases s with
  | nil => simp [splitWhere]
  | cons c s =>
    simp only [splitWhere]
    split
    · simp
    · split <;> simp

/-- No part holds a separator. -/
theorem not_mem_of_mem_splitWhere {d : Char} {s part : Text} (h : part ∈ splitWhere (· == d) s) :
    d ∉ part := by
  induction s generalizing part with
  | nil => simp_all [splitWhere]
  | cons c s ih =>
    simp only [splitWhere] at h
    split at h
    · rcases List.mem_cons.1 h with rfl | h
      · simp
      · exact ih h
    · next hc =>
      split at h
      · next he => exact absurd he (splitWhere_ne_nil _ _)
      · next first parts he =>
        rcases List.mem_cons.1 h with rfl | h
        · have : _ ∉ first := ih (by simp [he])
          have hne : d ≠ c := fun he => hc (by simp [← he])
          simp [hne, this]
        · exact ih (by simp [he, h])

/-! ## Case of the first 128 characters -/

/-- Latin capitals made small, all else kept. -/
def lowered (s : Text) : Text :=
  s.map Char.toLower

/-- Equality up to the case of Latin letters. -/
def sameLetters (s t : Text) : Bool :=
  lowered s == lowered t

/-! ## Matching parentheses

The text after the parenthesis that closes the first open one. Only parentheses are counted. -/

/-- What follows the parenthesis that closes the first open one, inside `depth` of them. -/
def afterParen? : Nat → Text → Option Text
  | _, [] => none
  | depth, c :: r =>
    if c = '(' then afterParen? (depth + 1) r
    else if c = ')' then if depth ≤ 1 then some r else afterParen? (depth - 1) r
    else afterParen? depth r

theorem afterParen?_open (depth : Nat) (r : Text) :
    afterParen? depth ('(' :: r) = afterParen? (depth + 1) r :=
  rfl

theorem afterParen?_last {depth : Nat} (h : depth ≤ 1) (r : Text) :
    afterParen? depth (')' :: r) = some r :=
  if_pos h

theorem afterParen?_close {depth : Nat} (h : 1 < depth) (r : Text) :
    afterParen? depth (')' :: r) = afterParen? (depth - 1) r :=
  if_neg (Nat.not_le.2 h)

theorem afterParen?_plain {c : Char} (hopen : c ≠ '(') (hclose : c ≠ ')') (depth : Nat) (r : Text) :
    afterParen? depth (c :: r) = afterParen? depth r := by
  rw [afterParen?, if_neg hopen, if_neg hclose]

/-! ## Digits of base sixteen

A digit is read in either case and written with a small letter, and what is written is read back. -/

/-- The value of a digit of base sixteen. -/
def hexDigit? (c : Char) : Option Nat :=
  if '0' ≤ c && c ≤ '9' then some (c.toNat - '0'.toNat)
  else if 'a' ≤ c && c ≤ 'f' then some (c.toNat - 'a'.toNat + 10)
  else if 'A' ≤ c && c ≤ 'F' then some (c.toNat - 'A'.toNat + 10)
  else none

/-- The digit of a number below sixteen. -/
def hexLetter (n : Nat) : Char :=
  if n < 10 then Char.ofNat ('0'.toNat + n) else Char.ofNat ('a'.toNat + (n - 10))

/-- **A digit is read back**. -/
theorem hexDigit?_hexLetter {n : Nat} (h : n < 16) : hexDigit? (hexLetter n) = some n := by
  have all : ∀ m ∈ List.range 16, hexDigit? (hexLetter m) = some m := by decide
  exact all n (List.mem_range.mpr h)

end Text

end Scholia
