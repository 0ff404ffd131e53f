import Scholia.Source.Braced.Nesting
import Scholia.Source.Indented.Blocks
import Scholia.Source.Procedural.Procedures
/-!
# Surveys by language

The outline of a source text in each language, and the routines and types that it contains.
-/

namespace Scholia

/-- The outline of a source text. -/
def Language.outline : Language → Text → Except Source.Fault Source.Outline
  | python => Source.Indented.outline
  | java => Source.Braced.outline .java
  | cSharp => Source.Braced.outline .cSharp
  | visualBasic => Source.Procedural.outline

/-- The outermost routines and the types of a source text. -/
def Language.survey (language : Language) (source : Text) :
    Except Source.Fault (List Source.Routine × List Source.TypeDecl) := do
  return (← language.outline source).survey language.attachment

/-- The outermost routines of a source text. -/
def Language.routines (language : Language) (source : Text) :
    Except Source.Fault (List Source.Routine) := do
  return (← language.survey source).1

end Scholia
