import Scholia.Source.Lexeme
/-!
# Lexemes of the indented language

Comments, strings, line ends, brackets and colons, with every other character on its own. The
letters before a string that change its reading (`r`, `b`, `u`, `f`) are characters of their own.
-/

namespace Scholia.Source.Indented

/-- The kind of a lexeme. -/
inductive Kind where
  | newline
  /-- A backslash at the end of a line, with the line end. -/
  | continuation
  | comment
  | string
  | opener (bracket : Char)
  | closer (bracket : Char)
  | colon
  | blank
  /-- Any other character. -/
  | code (c : Char)
  deriving Repr, DecidableEq

/-- The rest of a triple-quoted string after its opening quotes, and what follows it. A backslash
covers the character after it. -/
def tripleQuoted (quote : Char) : Text → Option (Text × Text)
  | [] => none
  | '\\' :: [] => none
  | '\\' :: c :: r =>
    (tripleQuoted quote r).map fun (inner, rest) => ('\\' :: c :: inner, rest)
  | c :: r =>
    match Text.dropLead? [quote, quote, quote] (c :: r) with
    | some rest => some ([quote, quote, quote], rest)
    | none => (tripleQuoted quote r).map fun (inner, rest) => (c :: inner, rest)

/-- The kind of a character that is a lexeme of its own. -/
def Kind.ofChar (c : Char) : Kind :=
  if c = '\n' then .newline
  else if c = '(' || c = '[' || c = '{' then .opener c
  else if c = ')' || c = ']' || c = '}' then .closer c
  else if c = ':' then .colon
  else if Text.isPlainBlank c then .blank
  else .code c

/-- A string that opens with `opening`, of which `ended` are the rest and what follows. -/
def string (opening : Text) (what : Literal) : Option (Text × Text) → Front Kind
  | some (inner, rest) => .found ⟨.string, opening ++ inner⟩ rest
  | none => .unterminated what 0

/-- The characters up to and with the first line feed, and what follows them. -/
def throughNewline : Text → Text × Text
  | [] => ([], [])
  | '\n' :: r => (['\n'], r)
  | c :: r =>
    let (line, rest) := throughNewline r
    (c :: line, rest)

/-- Whether a text starts with a line end. -/
def startsLineEnd : Text → Bool
  | c :: _ => Text.isLineEnd c
  | [] => false

/-- What stands at the front of a text. -/
def front (c : Char) (r : Text) : Front Kind :=
  if c = '#' then
    .found ⟨.comment, c :: r.takeWhile (· != '\n')⟩ (r.dropWhile (· != '\n'))
  else if c = '\\' && startsLineEnd r then
    .found ⟨.continuation, c :: (throughNewline r).1⟩ (throughNewline r).2
  else if c = '"' || c = '\'' then
    match Text.dropLead? [c, c] r with
    | some body => string [c, c, c] .tripleQuoted (tripleQuoted c body)
    | none => string [c] .string (quoted c r)
  else .found ⟨Kind.ofChar c, [c]⟩ r

theorem eq_of_tripleQuoted {q : Char} {s a b : Text} (h : tripleQuoted q s = some (a, b)) :
    a ++ b = s := by
  fun_induction tripleQuoted q s generalizing a with
  | case1 => simp at h
  | case2 => simp at h
  | case3 c r ih =>
    simp only [Option.map_eq_some_iff, Prod.exists, Prod.mk.injEq] at h
    obtain ⟨a', b', h', rfl, rfl⟩ := h
    simp [ih h']
  | case4 c r _ _ rest hr =>
    simp only [Option.some.injEq, Prod.mk.injEq] at h
    obtain ⟨rfl, rfl⟩ := h
    exact (Text.dropLead?_eq_some_iff.1 hr).symm
  | case5 c r _ _ _ ih =>
    simp only [Option.map_eq_some_iff, Prod.exists, Prod.mk.injEq] at h
    obtain ⟨a', b', h', rfl, rfl⟩ := h
    simp [ih h']

theorem throughNewline_append (s : Text) : (throughNewline s).1 ++ (throughNewline s).2 = s := by
  fun_induction throughNewline s with
  | case1 => rfl
  | case2 => rfl
  | case3 c r _ line rest hl ih => simp_all

theorem string_eq_found {opening : Text} {what : Literal} {ended : Option (Text × Text)}
    {lexeme : Lexeme Kind} {rest : Text} (h : string opening what ended = .found lexeme rest) :
    ∃ inner, ended = some (inner, rest) ∧ lexeme = ⟨.string, opening ++ inner⟩ := by
  unfold string at h
  split at h
  · next inner rest' =>
    simp only [Front.found.injEq] at h
    exact ⟨inner, by rw [h.2], h.1.symm⟩
  · simp at h

/-- **The rule keeps what it takes**. -/
theorem front_keeps (c : Char) (r : Text) (lexeme : Lexeme Kind) (rest : Text)
    (h : front c r = .found lexeme rest) : lexeme.text ++ rest = c :: r ∧ lexeme.text ≠ [] := by
  unfold front at h
  split at h
  · simp only [Front.found.injEq] at h
    obtain ⟨rfl, rfl⟩ := h
    simp [List.takeWhile_append_dropWhile]
  split at h
  · simp only [Front.found.injEq] at h
    obtain ⟨rfl, rfl⟩ := h
    simp [throughNewline_append]
  split at h
  · split at h
    · next body hb =>
      obtain ⟨inner, hq, rfl⟩ := string_eq_found h
      simp [eq_of_tripleQuoted hq, Text.dropLead?_eq_some_iff.1 hb]
    · obtain ⟨inner, hq, rfl⟩ := string_eq_found h
      simp [eq_of_quoted hq]
  · simp only [Front.found.injEq] at h
    obtain ⟨rfl, rfl⟩ := h
    simp

/-- The rule by which the language is divided. -/
def rule : Rule Kind where
  front := front
  keeps c r lexeme rest h := (front_keeps c r lexeme rest h).1
  takes c r lexeme rest h := (front_keeps c r lexeme rest h).2

end Scholia.Source.Indented
