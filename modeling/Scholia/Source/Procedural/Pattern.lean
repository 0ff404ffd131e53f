import Scholia.Text.Blank
import Scholia.Text.Basic
import Scholia.Text.Word
/-!
# Lines of the procedural language

What a line of Visual Basic is: the header of a procedure or a type, the end of one, a comment, a
banner, or a statement that opens a lambda of several lines. Keywords are read in any case.
-/

namespace Scholia.Source.Procedural

/-! ## Headers and ends -/

/-- Words that may stand before the keyword of a declaration. -/
def modifierWords : List Text :=
  ["Public", "Private", "Protected", "Friend", "Shared", "Overrides", "Overridable", "Overloads",
    "Async", "Static", "Shadows", "NotOverridable", "Partial", "Iterator", "MustOverride",
    "MustInherit", "NotInheritable"].map String.toList

def procedureWords : List Text :=
  ["Function", "Sub"].map String.toList

def typeWords : List Text :=
  ["Class", "Module", "Structure", "Interface"].map String.toList

/-- What follows an attribute `<...>` and the blanks after it. -/
def afterAttribute? : Text → Option Text
  | '<' :: r => (Text.cutAt? ['>'] r).map fun (_, rest) => Text.trimStart rest
  | _ => none

theorem afterAttribute?_shorter {s r : Text} (h : afterAttribute? s = some r) :
    r.length < s.length := by
  unfold afterAttribute? at h
  split at h
  · next s' =>
    simp only [Option.map_eq_some_iff, Prod.exists] at h
    obtain ⟨a, b, hc, rfl⟩ := h
    have hs := congrArg List.length (Text.eq_of_cutAt? hc)
    have hb : (Text.trimStart b).length ≤ b.length := (List.dropWhile_sublist _).length_le
    simp only [List.length_append, List.length_cons, List.length_nil] at hs ⊢
    omega
  · simp at h

/-- A text without the attributes at its start. -/
def dropAttributes (s : Text) : Text :=
  match _h : afterAttribute? s with
  | some rest => dropAttributes rest
  | none => s
termination_by s.length
decreasing_by exact afterAttribute?_shorter _h

/-- One of the words at the front of a text, as it is written, with a blank after it; and what
follows the blanks. -/
def leadingWord? (words : List Text) (s : Text) : Option (Text × Text) :=
  words.findSome? fun word => do
    let (written, rest) ← Text.dropKeyword? word s
    if (rest.head?.map Text.isBlank).getD false then some (written, Text.trimStart rest) else none

theorem leadingWord?_shorter {words : List Text} {s written rest : Text}
    (h : leadingWord? words s = some (written, rest)) : rest.length < s.length := by
  unfold leadingWord? at h
  obtain ⟨word, _, hw⟩ := List.exists_of_findSome?_eq_some h
  simp only [Option.bind_eq_bind, Option.bind_eq_some_iff, Prod.exists] at hw
  obtain ⟨w, r, hd, hr⟩ := hw
  have hs := congrArg List.length (Text.eq_of_dropKeyword? hd)
  have hg : (r.head?.map Text.isBlank).getD false = true := by
    cases hg : (r.head?.map Text.isBlank).getD false with
    | true => rfl
    | false => simp [hg] at hr
  simp only [hg, if_true, Option.some.injEq, Prod.mk.injEq] at hr
  obtain ⟨rfl, rfl⟩ := hr
  cases r with
  | nil => simp at hg
  | cons c r =>
    have hc : Text.isBlank c = true := by simpa using hg
    have hb : (Text.trimStart (c :: r)).length ≤ r.length := by
      simp only [Text.trimStart, Text.trimStartWhere, List.dropWhile_cons, hc, if_true]
      exact (List.dropWhile_sublist _).length_le
    simp only [List.length_append, List.length_cons] at hs
    omega

/-- The modifiers at the front of a text, as they are written, and what follows them. -/
def spanModifiers (s : Text) : List Text × Text :=
  match _h : leadingWord? modifierWords s with
  | some (written, rest) =>
    let (more, rest) := spanModifiers rest
    (written :: more, rest)
  | none => ([], s)
termination_by s.length
decreasing_by exact leadingWord?_shorter _h

/-- The header of a declaration: its modifiers, its keyword and its name, as they are written. -/
structure Declarator where
  modifiers : List Text
  keyword : Text
  name : Text
  deriving Repr, DecidableEq

/-- The header that a line is, if it declares something with one of the keywords. -/
def declarator? (keywords : List Text) (line : Text) : Option Declarator := do
  let (modifiers, rest) := spanModifiers (dropAttributes (Text.trimStart line))
  let (keyword, rest) ← leadingWord? keywords rest
  let (name, _) := Text.spanWord rest
  guard (!name.isEmpty)
  return { modifiers, keyword, name }

/-- The keyword, as it is written, of a line that is the end of a declaration. -/
def ending? (keywords : List Text) (line : Text) : Option Text := do
  let (_, rest) ← leadingWord? ["End".toList] (Text.trimStart line)
  keywords.findSome? fun keyword => do
    let (written, rest) ← Text.dropKeyword? keyword rest
    guard (Text.atWordEnd rest)
    return written

/-- A declaration on one line, without its attributes. -/
def signature (header : Text) : Text :=
  Text.collapse (dropAttributes (Text.trimStart header))

/-! ## Comments -/

/-- Whether a line is a banner: a quote and at least ten equals signs. -/
def isBanner (line : Text) : Bool :=
  match Text.trim line with
  | '\'' :: rest =>
    let rest := Text.trim rest
    rest.length ≥ 10 && rest.all (· == '=')
  | _ => false

/-- Whether a line is a comment: it starts with a quote or with the word `Rem`. -/
def isComment (line : Text) : Bool :=
  (Text.trimStart line).head? == some '\'' ||
    match Text.words line with
    | word :: _ => Text.sameLetters word "rem".toList
    | [] => false

/-- A line without the comment at its end; a quote inside a string starts none. -/
def codePart (inString : Bool) : Text → Text
  | [] => []
  | c :: r =>
    if c = '"' then c :: codePart (!inString) r
    else if c = '\'' && !inString then []
    else c :: codePart inString r

/-! ## Lambdas -/

/-- Whether a text can follow the parameters of a lambda of several lines: nothing, or a type. -/
def isLambdaTail (s : Text) : Bool :=
  let s := Text.trimStart s
  s.isEmpty ||
    match leadingWord? ["As".toList] s with
    | none => false
    | some (_, rest) =>
      let isTypeChar (c : Char) := Text.isWordChar c || c == '.'
      let argument := Text.trimStart (rest.dropWhile isTypeChar)
      !(rest.takeWhile isTypeChar).isEmpty &&
        match argument with
        | [] => true
        | '(' :: inner =>
          match leadingWord? ["Of".toList] (Text.trimStart inner) with
          | none => false
          | some (_, inner) =>
            match Text.cutAt? [')'] inner with
            | some (_, rest) => Text.allBlank rest
            | none => false
        | _ => false

/-- The keyword of a lambda of several lines at the front of a text. -/
def lambdaAt? (s : Text) : Option Text :=
  procedureWords.findSome? fun word => do
    let (written, rest) ← Text.dropKeyword? word s
    let rest := Text.trimStart rest
    guard (rest.head? == some '(')
    guard (isLambdaTail (← Text.afterParen? 0 rest))
    return written

/-- The keyword of the first lambda of several lines in a text; `inWord` tells whether a word
character stands before it. -/
def firstLambda? (inWord : Bool) : Text → Option Text
  | [] => none
  | c :: r =>
    match if inWord then none else lambdaAt? (c :: r) with
    | some keyword => some keyword
    | none => firstLambda? (Text.isWordChar c) r

/-- The keyword of the lambda of several lines that a line opens. -/
def lambda? (line : Text) : Option Text :=
  firstLambda? false (codePart false line)

end Scholia.Source.Procedural
