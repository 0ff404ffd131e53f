import Scholia.Language
/-!
# Faults of source text

Why a source text has no outline. A fault concerns the whole text; it names the language and the
place, in bytes where a literal or a bracket is at fault and in lines where a block is.
-/

namespace Scholia.Source

/-- What was begun and not ended. -/
inductive Literal where
  | string
  | textBlock
  | character
  | verbatim
  | tripleQuoted
  | blockComment
  deriving Repr, DecidableEq

def Literal.describe : Literal → Text
  | string => "string literal".toList
  | textBlock => "text block".toList
  | character => "character literal".toList
  | verbatim => "verbatim string".toList
  | tripleQuoted => "triple-quoted string".toList
  | blockComment => "block comment".toList

/-- How blocks fail to fit together. -/
inductive Misfit where
  /-- A header without its colon. -/
  | missingColon (name : Text)
  /-- An end of something that is not open. -/
  | strayEnd (kind : Text)
  /-- An end of another kind than what is open. -/
  | wrongEnd (found kind name : Text)
  /-- A declaration where none may stand. -/
  | innerDeclaration (name kind outer : Text)
  /-- A procedure that does not end. -/
  | endlessProcedure (kind name : Text)
  /-- A type that does not end. -/
  | endlessType (name : Text)
  deriving Repr, DecidableEq

def Misfit.message : Misfit → Text
  | missingColon name => "missing `:` after `".toList ++ name ++ "`".toList
  | strayEnd kind => "stray `End ".toList ++ kind ++ "`".toList
  | wrongEnd found kind name =>
    "`End ".toList ++ found ++ "` closes `".toList ++ kind ++ " ".toList ++ name ++ "`".toList
  | innerDeclaration name kind outer =>
    "`".toList ++ name ++ "` declared inside `".toList ++ kind ++ " ".toList ++ outer ++ "`".toList
  | endlessProcedure kind name =>
    "`".toList ++ kind ++ " ".toList ++ name ++ "` has no `End ".toList ++ kind ++ "`".toList
  | endlessType name => "`".toList ++ name ++ "` is never closed".toList

/-- Why a source text has no outline. -/
inductive Fault where
  /-- A literal or comment that runs to the end of the text or line. -/
  | unterminated (language : Language) (what : Literal) (offset : Nat)
  /-- A bracket without its partner. -/
  | unbalanced (language : Language) (token : Char) (offset : Nat)
  /-- Blocks that do not fit together, at a line counted from 1. -/
  | misfit (language : Language) (why : Misfit) (line : Nat)
  deriving Repr, DecidableEq

def Fault.message : Fault → Text
  | unterminated language what offset =>
    language.name ++ ": unterminated ".toList ++ what.describe ++ " starting at byte ".toList ++
      Text.ofNat offset
  | unbalanced language token offset =>
    language.name ++ ": unbalanced `".toList ++ [token] ++ "` at byte ".toList ++ Text.ofNat offset
  | misfit language why line =>
    language.name ++ ": ".toList ++ why.message ++ " (line ".toList ++ Text.ofNat line ++ ")".toList

end Scholia.Source
