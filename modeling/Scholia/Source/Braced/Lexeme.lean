import Scholia.Source.Lexeme
/-!
# Lexemes of the brace languages

Comments, literals, braces, parentheses and semicolons, with every other character on its own. The
two dialects differ in one literal: a verbatim string, which runs over lines and writes a quote
twice, exists in C# alone.

A `$` before a quote is a character of its own, so an interpolated string is an ordinary one here.
-/

namespace Scholia.Source.Braced

/-- A brace language. -/
inductive Dialect where
  | java
  | cSharp
  deriving Repr, DecidableEq

def Dialect.language : Dialect → Language
  | java => .java
  | cSharp => .cSharp

/-- The kind of a lexeme. -/
inductive Kind where
  | lineComment
  | blockComment
  | literal
  | openBrace
  | closeBrace
  | openParen
  | closeParen
  | semicolon
  | blank
  /-- Any other character. -/
  | code
  deriving Repr, DecidableEq

/-- The rest of a verbatim string after its opening quote, and what follows it. -/
def verbatim : Text → Option (Text × Text)
  | [] => none
  | '"' :: '"' :: r => (verbatim r).map fun (inner, rest) => ('"' :: '"' :: inner, rest)
  | '"' :: r => some (['"'], r)
  | c :: r => (verbatim r).map fun (inner, rest) => (c :: inner, rest)

/-- A literal that opens with `opening`, of which `ended` are the rest and what follows. -/
def literal (opening : Text) (what : Literal) (ahead : Nat) :
    Option (Text × Text) → Front Kind
  | some (inner, rest) => .found ⟨.literal, opening ++ inner⟩ rest
  | none => .unterminated what ahead

/-- The kind of a character that is a lexeme of its own. -/
def Kind.ofChar (c : Char) : Kind :=
  if c = '{' then .openBrace
  else if c = '}' then .closeBrace
  else if c = ';' then .semicolon
  else if c = '(' then .openParen
  else if c = ')' then .closeParen
  else if Text.isPlainBlank c then .blank
  else .code

/-- What stands at the front of a text. -/
def front (dialect : Dialect) (c : Char) (r : Text) : Front Kind :=
  match c, r with
  | '/', '/' :: _ => .found ⟨.lineComment, (c :: r).takeWhile (· != '\n')⟩ (r.dropWhile (· != '\n'))
  | '/', '*' :: body =>
    match Text.cutAt? ['*', '/'] body with
    | some (inner, rest) => .found ⟨.blockComment, '/' :: '*' :: inner ++ ['*', '/']⟩ rest
    | none => .unterminated .blockComment 0
  | '"', '"' :: '"' :: body =>
    match Text.cutAt? ['"', '"', '"'] body with
    | some (inner, rest) => .found ⟨.literal, '"' :: '"' :: '"' :: inner ++ ['"', '"', '"']⟩ rest
    | none => .unterminated .textBlock 0
  | '"', _ => literal ['"'] .string 0 (quoted '"' r)
  | '\'', _ => literal ['\''] .character 0 (quoted '\'' r)
  | '@', '"' :: body =>
    if dialect = .cSharp then literal ['@', '"'] .verbatim 1 (verbatim body)
    else .found ⟨.code, ['@']⟩ r
  | '@', '$' :: '"' :: body =>
    if dialect = .cSharp then literal ['@', '$', '"'] .verbatim 2 (verbatim body)
    else .found ⟨.code, ['@']⟩ r
  | _, _ => .found ⟨Kind.ofChar c, [c]⟩ r

theorem eq_of_verbatim {s a b : Text} (h : verbatim s = some (a, b)) : a ++ b = s := by
  fun_induction verbatim s generalizing a with
  | case1 => simp at h
  | case2 r ih =>
    simp only [Option.map_eq_some_iff, Prod.exists, Prod.mk.injEq] at h
    obtain ⟨a', b', h', rfl, rfl⟩ := h
    simp [ih h']
  | case3 r _ =>
    simp only [Option.some.injEq, Prod.mk.injEq] at h
    obtain ⟨rfl, rfl⟩ := h
    rfl
  | case4 c r _ _ ih =>
    simp only [Option.map_eq_some_iff, Prod.exists, Prod.mk.injEq] at h
    obtain ⟨a', b', h', rfl, rfl⟩ := h
    simp [ih h']

theorem literal_eq_found {opening : Text} {what : Literal} {ahead : Nat}
    {ended : Option (Text × Text)} {lexeme : Lexeme Kind} {rest : Text}
    (h : literal opening what ahead ended = .found lexeme rest) :
    ∃ inner, ended = some (inner, rest) ∧ lexeme = ⟨.literal, opening ++ inner⟩ := by
  unfold literal at h
  split at h
  · next inner rest' =>
    simp only [Front.found.injEq] at h
    exact ⟨inner, by rw [h.2], h.1.symm⟩
  · simp at h

/-- **A brace language's rule keeps what it takes**. -/
theorem front_keeps (dialect : Dialect) (c : Char) (r : Text) (lexeme : Lexeme Kind) (rest : Text)
    (h : front dialect c r = .found lexeme rest) :
    lexeme.text ++ rest = c :: r ∧ lexeme.text ≠ [] := by
  unfold front at h
  split at h
  · simp only [Front.found.injEq] at h
    obtain ⟨rfl, rfl⟩ := h
    simp [List.takeWhile_append_dropWhile]
  · split at h
    · next inner _ hc =>
      simp only [Front.found.injEq] at h
      obtain ⟨rfl, rfl⟩ := h
      simp [Text.eq_of_cutAt? hc]
    · simp at h
  · split at h
    · next inner _ hc =>
      simp only [Front.found.injEq] at h
      obtain ⟨rfl, rfl⟩ := h
      simp [Text.eq_of_cutAt? hc]
    · simp at h
  · obtain ⟨inner, hq, rfl⟩ := literal_eq_found h
    simp [eq_of_quoted hq]
  · obtain ⟨inner, hq, rfl⟩ := literal_eq_found h
    simp [eq_of_quoted hq]
  · split at h
    · obtain ⟨inner, hq, rfl⟩ := literal_eq_found h
      simp [eq_of_verbatim hq]
    · simp only [Front.found.injEq] at h
      obtain ⟨rfl, rfl⟩ := h
      simp
  · split at h
    · obtain ⟨inner, hq, rfl⟩ := literal_eq_found h
      simp [eq_of_verbatim hq]
    · simp only [Front.found.injEq] at h
      obtain ⟨rfl, rfl⟩ := h
      simp
  · simp only [Front.found.injEq] at h
    obtain ⟨rfl, rfl⟩ := h
    simp

/-- The rule by which a dialect is divided. -/
def rule (dialect : Dialect) : Rule Kind where
  front := front dialect
  keeps c r lexeme rest h := (front_keeps dialect c r lexeme rest h).1
  takes c r lexeme rest h := (front_keeps dialect c r lexeme rest h).2

end Scholia.Source.Braced
