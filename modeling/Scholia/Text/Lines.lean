import Scholia.Text.Blank
/-!
# Lines

A line ends at a line feed, and a carriage return before that line feed belongs to the end. Text
after the last line feed is a line of its own, unless it is empty; a carriage return at its end is
text. Main statement: no line holds a line feed.
-/

namespace Scholia.Text

/-- The text without one carriage return at its end. -/
def dropReturn (s : Text) : Text :=
  if s.getLast? = some '\r' then s.dropLast else s

/-- Lines from the parts between line feeds, of which only the last is not ended by one. -/
def closeLines : List Text → List Text
  | [] => []
  | [last] => if last.isEmpty then [] else [last]
  | part :: parts => dropReturn part :: closeLines parts

/-- The lines of a text, without their ends. -/
def lines (s : Text) : List Text :=
  closeLines (splitWhere (· == '\n') s)

/-- The lines of a text with their line feeds: they make up the text. -/
def rawLines : Text → List Text
  | [] => []
  | '\n' :: r => ['\n'] :: rawLines r
  | c :: r =>
    match rawLines r with
    | [] => [[c]]
    | line :: rest => (c :: line) :: rest

/-- The number of the line that holds a byte, counted from 1. -/
def lineAt (s : Text) (offset : Nat) : Nat :=
  tally '\n' (takeBytes offset s) + 1

/-- **Raw lines make up the text**. -/
theorem flatten_rawLines (s : Text) : (rawLines s).flatten = s := by
  fun_induction rawLines s with
  | case1 => rfl
  | case2 r ih => simp [ih]
  | case3 c r h he ih => simp_all
  | case4 c r h line rest he ih => simp_all

theorem mem_dropReturn {s : Text} {c : Char} (h : c ∈ dropReturn s) : c ∈ s := by
  unfold dropReturn at h
  split at h
  · exact (List.dropLast_sublist s).subset h
  · exact h

/-- **No line holds a line feed**. -/
theorem not_newline_of_mem_lines {s line : Text} (h : line ∈ lines s) : '\n' ∉ line := by
  have key : ∀ parts : List Text, (∀ part ∈ parts, '\n' ∉ part) →
      ∀ line ∈ closeLines parts, '\n' ∉ line := by
    intro parts
    fun_induction closeLines parts with
    | case1 => simp
    | case2 last hl => simp
    | case3 last hl => simp
    | case4 part parts hne ih =>
      intro hp line hl hn
      rcases List.mem_cons.1 hl with rfl | hl
      · exact hp part (by simp) (mem_dropReturn hn)
      · exact ih (fun q hq => hp q (by simp [hq])) line hl hn
  exact key _ (fun _ hp => not_mem_of_mem_splitWhere hp) line h

end Scholia.Text
