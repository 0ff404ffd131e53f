import Scholia.Text.Basic
import Scholia.Text.WordRanges
/-!
# Letters, digits and words

Three classes of characters, decided by comparison for the first 128 code points and by the tables
of `Scholia.Text.WordRanges` beyond them. A *word* is a run of word characters: letters, marks,
decimal digits, connecting punctuation such as `_`, and the two join controls. Words follow an older
edition of Unicode than letters and numbers do, so the newest letters are no word characters.

`sameFold` is equality without regard to case as far as Latin letters go. Besides the other case,
two characters fold to a Latin letter: the long s (U+017F) to s and the Kelvin sign (U+212A) to k.
-/

namespace Scholia.Text

/-- Whether a code point lies in one of the ranges. -/
def inRanges (ranges : List (Nat × Nat)) (n : Nat) : Bool :=
  ranges.any fun (low, high) => low ≤ n && n ≤ high

/-- The property Alphabetic. -/
def isAlphabetic (c : Char) : Bool :=
  if c.toNat < 128 then c.isAlpha else inRanges alphabeticRanges c.toNat

/-- Alphabetic or of the general category Number. -/
def isAlphanumeric (c : Char) : Bool :=
  if c.toNat < 128 then c.isAlphanum
  else inRanges alphabeticRanges c.toNat || inRanges numericRanges c.toNat

/-- A character that words are made of. -/
def isWordChar (c : Char) : Bool :=
  if c.toNat < 128 then c.isAlphanum || c == '_'
  else inRanges wordRanges c.toNat

/-- The longest leading word and what follows it. -/
def spanWord (s : Text) : Text × Text :=
  (s.takeWhile isWordChar, s.dropWhile isWordChar)

/-- Whether `s` starts at the end of a word: with no word character. -/
def atWordEnd (s : Text) : Bool :=
  match s with
  | [] => true
  | c :: _ => !isWordChar c

/-- The small Latin letter that a character folds to, and the character itself otherwise. -/
def foldLatin (c : Char) : Char :=
  if c == '\u017f' then 's' else if c == '\u212a' then 'k' else c.toLower

/-- Equality of characters up to case, for the letters of keywords. -/
def sameFold (c d : Char) : Bool :=
  foldLatin c == foldLatin d

/-- The leading keyword as it is written, and the rest, if the text starts with it in any case. -/
def dropKeyword? : Text → Text → Option (Text × Text)
  | [], s => some ([], s)
  | _ :: _, [] => none
  | k :: ks, c :: r =>
    if sameFold k c then (dropKeyword? ks r).map fun (word, rest) => (c :: word, rest) else none

/-- **A keyword and the rest make up the text**. -/
theorem eq_of_dropKeyword? {k s w r : Text} (h : dropKeyword? k s = some (w, r)) : s = w ++ r := by
  induction k generalizing s w with
  | nil => simp_all [dropKeyword?]
  | cons c k ih =>
    cases s with
    | nil => simp [dropKeyword?] at h
    | cons d s =>
      simp only [dropKeyword?] at h
      split at h
      · simp only [Option.map_eq_some_iff, Prod.exists, Prod.mk.injEq] at h
        obtain ⟨w', r', h', rfl, rfl⟩ := h
        simp [ih h']
      · simp at h

end Scholia.Text
