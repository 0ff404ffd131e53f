import Scholia.Text.Basic
import Scholia.Text.Blank
import Scholia.Text.Capitals
import Scholia.Text.Utf8
import Scholia.Url.Punycode
/-!
# Names of hosts

A name is a list of labels between dots, in ASCII and in small letters. A label with other
characters is encoded, and a label that is encoded already has to stand for such a label.

Of the forms that only look different, those of full width alone are made plain. Marks are not
combined with their letters, no joiner is let through, and nothing is asked of letters that are
written from right to left.
-/

/-!
## Percent encoding

In an address, a percent sign and two digits of base sixteen stand for a byte. A character that
cannot stand in its part of the address is written as the bytes of its UTF-8 form; which characters
can stand depends on the part, and none beyond ASCII does.
-/

namespace Scholia.Url.Percent

/-- A byte, with capital letters for digits. -/
def encodeByte (b : UInt8) : Text :=
  ['%', (Text.hexLetter (b.toNat / 16)).toUpper, (Text.hexLetter (b.toNat % 16)).toUpper]

/-- A text in which the characters that cannot stand are encoded. -/
def encode (stands : Char → Bool) (s : Text) : Text :=
  s.flatMap fun c => if stands c then [c] else (String.utf8EncodeChar c).flatMap encodeByte

/-- The bytes that a text stands for. A percent sign without two digits stands for itself. -/
def decode : Text → List UInt8
  | [] => []
  | '%' :: a :: b :: r =>
    match Text.hexDigit? a, Text.hexDigit? b with
    | some high, some low => (high * 16 + low).toUInt8 :: decode r
    | _, _ => 0x25 :: decode (a :: b :: r)
  | c :: r => String.utf8EncodeChar c ++ decode r

/-- A character of ASCII with a shape, apart from these. -/
def isVisibleExcept (others : String) (c : Char) : Bool :=
  0x20 < c.toNat && c.toNat < 0x7F && !others.toList.contains c

/-- What can stand in a path. -/
def standsInPath : Char → Bool := isVisibleExcept "\"<>`#?\x7b\x7d"

/-- What can stand in a query. -/
def standsInQuery : Char → Bool := isVisibleExcept "\"<>#'"

/-- What can stand in a fragment. -/
def standsInFragment : Char → Bool := isVisibleExcept "\"<>`"

end Scholia.Url.Percent

namespace Scholia.Url.Name

/-! ## Characters -/

/-- A hyphen, a space or a variation without a shape: it is no part of a name. -/
def isShapeless (c : Char) : Bool :=
  let n := c.toNat
  n = 0xAD || n = 0x200B || n = 0x2060 || n = 0x2064 || n = 0xFEFF ||
    (0x180B ≤ n && n ≤ 0x180F) || (0xFE00 ≤ n && n ≤ 0xFE0F)

/-- What a character is in a name. Forms of full width are those of ASCII, an ideographic full stop
is a dot, and a capital I with a dot keeps it. -/
def plain (c : Char) : Text :=
  let n := c.toNat
  if isShapeless c then []
  else if 0xFF01 ≤ n && n ≤ 0xFF5E then [Text.small (Char.ofNat (n - 0xFEE0))]
  else if n = 0x3002 || n = 0xFF61 then ['.']
  else if n = 0x130 then ['i', '\u0307']
  else [Text.small c]

/-- A character that no name has: a blank, a control, a joiner, a character for private use or in the
place of an unknown one, or one of these of ASCII. -/
def isForbidden (c : Char) : Bool :=
  let n := c.toNat
  n ≤ 0x20 || (0x7F ≤ n && n ≤ 0x9F) || Text.isBlank c || n = 0x200C || n = 0x200D ||
    (0xE000 ≤ n && n ≤ 0xF8FF) || n = 0xFFFD || "%#/:<>?@[\\]^|".toList.contains c

/-! ## Labels -/

/-- The mark of an encoded label. -/
def encodedMark : Text := "xn--".toList

/-- The most characters of a label that is encoded. -/
def maxEncoded : Nat := 1000

/-- Whether a label has to be encoded. -/
def isEncodable (label : Text) : Bool :=
  !label.all Punycode.isBasic && label.length ≤ maxEncoded

/-- Whether what follows the mark stands for a label that has to be encoded, as it is in a name. -/
def isEncoded (s : Text) : Bool :=
  (Punycode.decode? s).any fun label =>
    isEncodable label && label.flatMap plain == label && !label.any isForbidden

/-- A label in ASCII. -/
def asciiLabel? (label : Text) : Option Text :=
  if encodedMark.isPrefixOf label then
    if isEncoded (label.drop encodedMark.length) then some label else none
  else if label.all Punycode.isBasic then some label
  else if isEncodable label then some (encodedMark ++ Punycode.encode label)
  else none

/-- The name that a text with percent encoding writes. -/
def ofText? (s : Text) : Option Text := do
  let name := (← Text.Utf8.decode? (Percent.decode s)).flatMap plain
  guard (!name.isEmpty && !name.any isForbidden)
  return Text.join ['.'] (← (Text.splitWhere (· == '.') name).mapM asciiLabel?)

end Scholia.Url.Name
