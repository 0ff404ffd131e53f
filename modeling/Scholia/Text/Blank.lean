import Scholia.Text.Basic
/-!
# Blank characters

Two classes: `isBlank` is the property White_Space, twenty-five characters of which six are beyond
the first 256; `isPlainBlank` is the five that source layout is written with. Main statements:
trimming leaves no blank at an end, and the words of a text hold none.
-/

namespace Scholia.Text

/-- The property White_Space. -/
def isBlank (c : Char) : Bool :=
  let n := c.toNat
  (9 ≤ n && n ≤ 13) || n == 0x20 || n == 0x85 || n == 0xA0 || n == 0x1680 ||
    (0x2000 ≤ n && n ≤ 0x200A) || n == 0x2028 || n == 0x2029 || n == 0x202F || n == 0x205F ||
    n == 0x3000

/-- Space, tab, line feed, form feed and carriage return. -/
def isPlainBlank (c : Char) : Bool :=
  c == ' ' || c == '\t' || c == '\n' || c == '\x0c' || c == '\r'

/-- Space and tab. -/
def isIndent (c : Char) : Bool :=
  c == ' ' || c == '\t'

/-- Line feed and carriage return. -/
def isLineEnd (c : Char) : Bool :=
  c == '\n' || c == '\r'

/-- The text without blanks at its start. -/
def trimStart (s : Text) : Text := trimStartWhere isBlank s

/-- The text without blanks at its end. -/
def trimEnd (s : Text) : Text := trimEndWhere isBlank s

/-- The text without blanks at either end. -/
def trim (s : Text) : Text := trimEnd (trimStart s)

/-- The maximal parts without blanks, in order. -/
def words (s : Text) : List Text :=
  (splitWhere isBlank s).filter (!·.isEmpty)

/-- The words with one space between each two. -/
def collapse (s : Text) : Text :=
  join [' '] (words s)

/-- Whether a text has nothing but blanks. -/
def allBlank (s : Text) : Bool :=
  s.all isBlank

/-- The first word and the trimmed rest; without a blank the rest is empty. -/
def firstWord (s : Text) : Text × Text :=
  (s.takeWhile (!isBlank ·), trim (s.dropWhile (!isBlank ·)))

theorem isBlank_of_isPlainBlank {c : Char} (h : isPlainBlank c = true) : isBlank c = true := by
  simp only [isPlainBlank, Bool.or_eq_true, beq_iff_eq] at h
  rcases h with (((rfl | rfl) | rfl) | rfl) | rfl <;> decide

/-- **A trimmed end is not blank**. -/
theorem trimEnd_getLast? {s : Text} {c : Char} (h : (trimEnd s).getLast? = some c) :
    isBlank c = false := by
  simp only [trimEnd, trimEndWhere, List.getLast?_reverse] at h
  have := List.head?_dropWhile_not isBlank s.reverse
  simp_all

/-- **No word holds a blank**. -/
theorem not_isBlank_of_mem_words {s w : Text} (hw : w ∈ words s) : ∀ c ∈ w, isBlank c = false := by
  have key : ∀ t : Text, ∀ v ∈ splitWhere isBlank t, ∀ c ∈ v, isBlank c = false := by
    intro t
    induction t with
    | nil => simp [splitWhere]
    | cons d t ih =>
      simp only [splitWhere]
      split
      · intro v hv
        rcases List.mem_cons.1 hv with rfl | hv
        · simp
        · exact ih v hv
      · next hd =>
        split
        · simp_all
        · next part parts he =>
          intro v hv c hc
          rcases List.mem_cons.1 hv with rfl | hv
          · rcases List.mem_cons.1 hc with rfl | hc
            · simpa using hd
            · exact ih part (by simp [he]) c hc
          · exact ih v (by simp [he, hv]) c hc
  exact key s w (List.mem_filter.1 hw).1

end Scholia.Text
