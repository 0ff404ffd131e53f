import Scholia.Comment.Basic
/-!
# Documentation elements

The grammar of `///` comments: after the slashes have been taken off, the first `<summary>` element
is the description, and what is outside it is searched for `<param>`, `<returns>` and `<exception>`
elements. An element runs to the first end tag of its name; elements are not nested.
-/

namespace Scholia.Comment.XmlDoc

open Scholia.Doc (Line entry)

/-- A line without the slashes that lead it. -/
def content (line : Text) : Text :=
  let line := Text.trim line
  Text.trim ((Text.dropLead? ['/', '/', '/'] line).getD line)

/-- A start tag without attributes: no value, and what follows the tag. -/
def plainTag (name : Text) (s : Text) : Option (Text × Text) :=
  (Text.dropLead? ('<' :: name ++ ['>']) s).map ([], ·)

/-- A start tag with one attribute: its value, and what follows the tag. -/
def attributeTag (name key : Text) (s : Text) : Option (Text × Text) := do
  let s ← Text.dropLead? ('<' :: name) s
  guard ((s.head?.map Text.isBlank).getD false)
  let s ← Text.dropLead? key (Text.trimStart s)
  let s ← Text.dropLead? ['='] (Text.trimStart s)
  let s ← Text.dropLead? ['"'] (Text.trimStart s)
  let (value, s) ← Text.cutAt? ['"'] s
  let s ← Text.dropLead? ['>'] (Text.trimStart s)
  return (value, s)

/-- The elements of a text with such a start tag, each with its attribute value and its content,
when `skip` characters of the last one are still to pass. -/
def elementsFrom (start : Text → Option (Text × Text)) (endTag : Text) :
    Nat → Text → List (Text × Text)
  | _, [] => []
  | skip + 1, _ :: r => elementsFrom start endTag skip r
  | 0, c :: r =>
    let element? := do
      let (value, s) ← start (c :: r)
      let (inner, rest) ← Text.cutAt? endTag s
      return ((value, inner), r.length - rest.length)
    match element? with
    | some (element, skip) => element :: elementsFrom start endTag skip r
    | none => elementsFrom start endTag 0 r

/-- The elements of a text with such a start tag, from front to back. -/
def elements (start : Text → Option (Text × Text)) (endTag : Text) (s : Text) :
    List (Text × Text) :=
  elementsFrom start endTag 0 s

/-- The content of the first `<summary>` element and the text without this element. -/
def summary? (s : Text) : Option (Text × Text) := do
  let (before, s) ← Text.cutAt? "<summary>".toList s
  let (inner, rest) ← Text.cutAt? "</summary>".toList s
  return (inner, before ++ rest)

/-- A point for an element: what its attribute names and what it says, on one line. -/
def point (element : Text × Text) : Line :=
  .bullet (entry (Text.trim element.1) (Text.collapse element.2))

/-- The documentation in a comment; a comment of another form has none. -/
def read (raw : Text) : Except Fault (List Line) :=
  if !Text.holds ['/', '/', '/'] raw then .ok []
  else
    let text := Text.join ['\n'] ((Text.lines raw).map content)
    if Text.holds "<summary>".toList text && !Text.holds "</summary>".toList text then
      .error .openSummary
    else
      let (summary, rest) := (summary? text).getD ([], text)
      let description := ((Text.lines summary).map Text.trim).filter (!·.isEmpty)
      let params := elements (attributeTag "param".toList "name".toList) "</param>".toList rest
      let returns := elements (plainTag "returns".toList) "</returns>".toList rest
      let exceptions :=
        elements (attributeTag "exception".toList "cref".toList) "</exception>".toList rest
      .ok <| sections
        [ ("Description:".toList, descriptionLines description),
          ("Arguments:".toList, params.map point),
          ("Return:".toList,
            ((returns.map (Text.collapse ·.2)).filter (!·.isEmpty)).map .bullet),
          ("Exceptions:".toList, exceptions.map point) ]

end Scholia.Comment.XmlDoc
