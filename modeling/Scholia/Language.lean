import Scholia.Text.Blank
/-!
# Languages

The languages whose comments have a grammar, with the marks by which their doc comments are
recognised and the example of each comment style that a model is shown.
-/

namespace Scholia

/-- A language whose doc comments are understood. -/
inductive Language where
  | python
  | java
  | cSharp
  | visualBasic
  deriving Repr, DecidableEq

/-- Where a doc comment stands with respect to what it documents. -/
inductive Attachment where
  /-- Directly before the declaration. -/
  | preceding
  /-- As the first statement of the body. -/
  | firstStatement
  deriving Repr, DecidableEq

namespace Language

/-- The languages in the order in which an extension is looked up. -/
def all : List Language := [python, java, cSharp, visualBasic]

def name : Language → Text
  | python => "Python".toList
  | java => "Java".toList
  | cSharp => "C#".toList
  | visualBasic => "Visual Basic".toList

/-- File extensions, without the dot. -/
def extensions : Language → List Text
  | python => ["py".toList]
  | java => ["java".toList]
  | cSharp => ["cs".toList]
  | visualBasic => ["vb".toList]

/-- The text that shows that a doc comment begins. -/
def marker : Language → Text
  | python => "\"\"\"".toList
  | java => "/**".toList
  | cSharp => "///".toList
  | visualBasic => "'===============================================".toList

/-- The lines of an example of the comment style. -/
def styleLines : Language → List String
  | python =>
    ["\"\"\"Brief description of what the function does.",
     "",
     "Args:",
     "    name (type): Description of the parameter.",
     "",
     "Returns:",
     "    type: Description of the returned value.",
     "",
     "Raises:",
     "    ExceptionType: When the exception is raised.",
     "\"\"\""]
  | java =>
    ["/**",
     " * Brief description of what the method does.",
     " *",
     " * @param name Description of the parameter.",
     " * @return Description of the returned value.",
     " * @throws ExceptionType When the exception is thrown.",
     " */"]
  | cSharp =>
    ["/// <summary>",
     "/// Brief description of what the method does.",
     "/// </summary>",
     "/// <param name=\"name\">Description of the parameter.</param>",
     "/// <returns>Description of the returned value.</returns>",
     "/// <exception cref=\"ExceptionType\">When the exception is thrown.</exception>"]
  | visualBasic =>
    ["'===============================================",
     "' Description: Brief description of what the procedure does.",
     "' Parameters:",
     "'   name - Description of the parameter (Type)",
     "' Returns: Type - Description of the returned value.",
     "' Error Handling:",
     "'   How errors are handled, or None.",
     "'==============================================="]

/-- An example of the comment style, as a model is shown it. -/
def docStyle (language : Language) : Text :=
  Text.join ['\n'] (language.styleLines.map String.toList)

def attachment : Language → Attachment
  | python => .firstStatement
  | _ => .preceding

/-- The language of a file extension, leading dots and case aside. -/
def ofExtension? (extension : Text) : Option Language :=
  let bare := Text.lowered (Text.trimStartWhere (· == '.') extension)
  all.find? fun language => language.extensions.contains bare

end Language

end Scholia
