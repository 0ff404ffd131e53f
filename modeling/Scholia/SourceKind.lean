import Scholia.Language
import Scholia.Path
import Scholia.Source.Procedural.Pattern
import Scholia.Text.Lines
/-!
# Kinds of source files

A source file is known by its extension. For some languages the doc comments are understood
(`Language`); for the others (`PlainLanguage`) only the mark and an example of the comment style are
known, so that a file can be handed on as a whole.
-/

namespace Scholia

/-- A language whose doc comments are recognised but not read. -/
structure PlainLanguage where
  name : Text
  extensions : List Text
  marker : Text
  docStyle : Text
  deriving Repr, DecidableEq

namespace PlainLanguage

/-- A plain language from string literals, the style given by its lines. -/
def of (name : String) (extensions : List String) (marker : String) (style : List String) :
    PlainLanguage :=
  ⟨name.toList, extensions.map String.toList, marker.toList,
    Text.join ['\n'] (style.map String.toList)⟩

def scriptStyle : List String :=
  ["/**",
   " * Brief description of what the function does.",
   " *",
   " * @param \x7bType\x7d name - Description of the parameter.",
   " * @returns \x7bType\x7d Description of the returned value.",
   " * @throws \x7bErrorName\x7d When the error is thrown.",
   " */"]

def systemStyle : List String :=
  ["/**",
   " * @brief Brief description of what the function does.",
   " * @param name Description of the parameter.",
   " * @return Description of the returned value.",
   " */"]

/-- The plain languages in the order in which an extension is looked up. -/
def all : List PlainLanguage :=
  [ of "JavaScript" ["js", "jsx", "mjs"] "/**" scriptStyle,
    of "TypeScript" ["ts", "tsx"] "/**" scriptStyle,
    of "C" ["c", "h"] "/**" systemStyle,
    of "C++" ["cpp", "cc", "cxx", "hpp"] "/**" systemStyle,
    of "PHP" ["php"] "/**"
      ["/**",
       " * Brief description of what the function does.",
       " *",
       " * @param Type $name Description of the parameter.",
       " * @return Type Description of the returned value.",
       " * @throws ExceptionType When the exception is thrown.",
       " */"],
    of "Go" ["go"] "//"
      ["// Name does something; the comment starts with the function name.",
       "// Parameters and results are described in full sentences."],
    of "Ruby" ["rb"] "#"
      ["# Brief description of what the method does.",
       "#",
       "# @param name [Type] Description of the parameter.",
       "# @return [Type] Description of the returned value."],
    of "Swift" ["swift"] "///"
      ["/// Brief description of what the function does.",
       "///",
       "/// - Parameter name: Description of the parameter.",
       "/// - Returns: Description of the returned value.",
       "/// - Throws: When an error is thrown."],
    of "Lua" ["lua"] "---"
      ["--- Brief description of what the function does.",
       "-- @param name Description of the parameter.",
       "-- @return Description of the returned value."],
    of "Shell" ["sh"] "#"
      ["# Brief description of what the function does.",
       "# Arguments:",
       "#   $1 - Description of the argument.",
       "# Outputs:",
       "#   Description of what is printed."] ]

end PlainLanguage

/-- The kind of a source file. -/
inductive SourceKind where
  | grammar (language : Language)
  | plain (language : PlainLanguage)
  deriving Repr, DecidableEq

/-- Whether a code text shows the mark of a doc comment. The length of a Visual Basic banner is not
fixed, so any banner line is a mark. -/
def Language.hasMarker (language : Language) (code : Text) : Bool :=
  match language with
  | .visualBasic => (Text.lines code).any Source.Procedural.isBanner
  | _ => Text.holds language.marker code

namespace SourceKind

/-- The kind of the file at a path, by its extension in any case. -/
def ofPath? (path : Path) : Option SourceKind := do
  let extension := Text.lowered (← path.extension?)
  match Language.ofExtension? extension with
  | some language => some (.grammar language)
  | none => (PlainLanguage.all.find? (·.extensions.contains extension)).map .plain

def language? : SourceKind → Option Language
  | grammar language => some language
  | plain _ => none

def name : SourceKind → Text
  | grammar language => language.name
  | plain language => language.name

def marker : SourceKind → Text
  | grammar language => language.marker
  | plain language => language.marker

def docStyle : SourceKind → Text
  | grammar language => language.docStyle
  | plain language => language.docStyle

/-- Whether a code text shows the mark of a doc comment. -/
def hasMarker (kind : SourceKind) (code : Text) : Bool :=
  match kind with
  | grammar language => language.hasMarker code
  | plain language => Text.holds language.marker code

end SourceKind

end Scholia
