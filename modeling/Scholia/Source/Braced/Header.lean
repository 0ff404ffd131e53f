import Scholia.Text.Blank
import Scholia.Text.Basic
import Scholia.Text.Word
/-!
# Declaration headers

What opens at a brace is told from the text before it, the *header*: a namespace, a type, a routine
or a plain block. Annotations (`@Name(...)`) and, where the language has them, attributes
(`[Name(...)]`) are no part of the declaration and are blanked first; the signature is what remains,
on one line.

The reading is by words and brackets, not by a grammar of types: a routine is a name directly before
a balanced parenthesis after which at most a clause follows.
-/

namespace Scholia.Source.Braced

/-- What a header declares. -/
inductive Header where
  | package
  | typeDecl (name signature : Text)
  | routine (name signature : Text)
  | block
  deriving Repr, DecidableEq

/-- Words that declare a type. -/
def typeWords : List Text :=
  ["class", "interface", "@interface", "enum", "struct", "record"].map String.toList

/-- Words that a parenthesis may follow and that name no routine. -/
def controlWords : List Text :=
  ["if", "else", "for", "foreach", "while", "do", "switch", "catch", "try", "finally",
    "synchronized", "using", "lock", "fixed", "return", "throw", "new", "when", "await", "yield",
    "typeof", "sizeof", "nameof", "checked", "unchecked", "default"].map String.toList

/-- A character of an identifier. -/
def isNameChar (c : Char) : Bool :=
  Text.isAlphanumeric c || c == '_' || c == '$'

/-- A character of the name of an annotation, dots included. -/
def isAnnotationChar (c : Char) : Bool :=
  Text.isAlphanumeric c || c == '_' || c == '.'

/-- The number of characters up to the bracket that closes the first one, itself included, inside
`depth` brackets; all characters if there is none. -/
def balancedLength (opening closing : Char) : Nat → Text → Nat
  | _, [] => 0
  | depth, c :: r =>
    if c = opening then 1 + balancedLength opening closing (depth + 1) r
    else if c = closing then
      if depth ≤ 1 then 1 else 1 + balancedLength opening closing (depth - 1) r
    else 1 + balancedLength opening closing depth r

/-- Whether an attribute may stand after what has been written, given backwards: at the start, or
after the start or a comma of a parameter list. -/
def attributeFits (written : Text) : Bool :=
  match written.dropWhile Text.isBlank with
  | [] => true
  | c :: _ => c == '(' || c == ','

/-- Blanks annotations and, if `attributes` exist, attributes. `written` is what has been written,
backwards, and `skip` the number of characters of an annotation still to pass. -/
def stripFrom (attributes : Bool) : Nat → Text → Text → Text
  | _, written, [] => written.reverse
  | skip + 1, written, _ :: r => stripFrom attributes skip written r
  | 0, written, c :: r =>
    if c = '@' && (r.head?.map Text.isAlphabetic).getD false then
      let name := r.takeWhile isAnnotationChar
      if name = "interface".toList then
        stripFrom attributes name.length (name.reverse ++ '@' :: written) r
      else
        let gap := (r.drop name.length).takeWhile Text.isBlank
        let arguments := r.drop (name.length + gap.length)
        let taken :=
          match arguments with
          | '(' :: _ => gap.length + balancedLength '(' ')' 0 arguments
          | _ => 0
        stripFrom attributes (name.length + taken) (' ' :: written) r
    else if attributes && c = '[' && attributeFits written then
      stripFrom attributes (balancedLength '[' ']' 0 (c :: r) - 1) (' ' :: written) r
    else stripFrom attributes 0 (c :: written) r

/-- A header without annotations and attributes. -/
def stripAnnotations (attributes : Bool) (header : Text) : Text :=
  stripFrom attributes 0 [] header

/-- Whether `tail` may follow the parameters of a routine. -/
def isRoutineTail (tail : Text) : Bool :=
  tail.isEmpty || "throws".toList.isPrefixOf tail || "where".toList.isPrefixOf tail ||
    [':'].isPrefixOf tail

/-- The part after the last dot. -/
def afterLastDot (s : Text) : Text :=
  ((Text.cutAtLast? ['.'] s).map (·.2)).getD s

/-- The name in the last word of a declarator, without type parameters and qualifiers. -/
def declaredName (word : Text) : Text :=
  afterLastDot (word.takeWhile (· != '<'))

/-- Whether a text can name a routine. -/
def isRoutineName (name : Text) : Bool :=
  !name.isEmpty && name.all isNameChar && !(name.head?.map Char.isDigit).getD false &&
    !controlWords.contains name

/-- The name of the routine that a signature declares: `modifiers type name(parameters) clause`. -/
def routineName? (signature : Text) : Option Text := do
  let before := signature.takeWhile (· != '(')
  let tail ← Text.afterParen? 0 (signature.drop before.length)
  guard (isRoutineTail (Text.trim tail))
  guard (!before.contains '=' && !Text.holds ['-', '>'] before)
  let words := Text.words before
  guard (!words.contains "new".toList)
  let name := declaredName (← words.getLast?)
  guard (isRoutineName name)
  some name

/-- The name after the first type word: the next word that is none, as far as it is a name. -/
def typeName? (words : List Text) : Option Text := do
  let word ← ((words.dropWhile (!typeWords.contains ·)).drop 1).find? (!typeWords.contains ·)
  let name := word.takeWhile isNameChar
  guard (!name.isEmpty)
  some name

/-- What a header declares, where `attributes` tells whether the language has them. -/
def Header.ofText (attributes : Bool) (header : Text) : Header :=
  let signature := Text.collapse (stripAnnotations attributes header)
  if signature.isEmpty then .block
  else
    let words := Text.words (signature.takeWhile (· != '('))
    match typeName? words with
    | some name => .typeDecl name signature
    | none =>
      if words.contains "namespace".toList then .package
      else
        match routineName? signature with
        | some name => .routine name signature
        | none => .block

end Scholia.Source.Braced
