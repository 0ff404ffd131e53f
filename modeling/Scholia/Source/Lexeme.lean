import Scholia.Source.Fault
import Scholia.Text.Word
/-!
# Lexemes

A source text is divided from front to back into lexemes by a *rule*, which says what stands at the
front of a text. A rule takes at least one character each time and keeps every character it takes,
so that **the lexemes of a text make it up** (`lex_text`), less what follows a literal that does
not end.

`Lexing.run` carries a state over the lexemes and tells it where each one starts. A fault of the
state comes before an unended literal that lies behind it.
-/

namespace Scholia.Source

/-- A part of a source text, with its kind. -/
structure Lexeme (κ : Type) where
  kind : κ
  text : Text
  deriving Repr, DecidableEq

/-- What a rule finds at the front of a text. -/
inductive Front (κ : Type) where
  /-- A lexeme and what follows it. -/
  | found (lexeme : Lexeme κ) (rest : Text)
  /-- A literal that does not end; it is reported `ahead` bytes further on. -/
  | unterminated (what : Literal) (ahead : Nat)
  deriving Repr, DecidableEq

/-- A way of dividing text: it answers for a text with the first character `c` and the rest `r`. -/
structure Rule (κ : Type) where
  front : Char → Text → Front κ
  keeps : ∀ c r lexeme rest, front c r = .found lexeme rest → lexeme.text ++ rest = c :: r
  takes : ∀ c r lexeme rest, front c r = .found lexeme rest → lexeme.text ≠ []

/-- The lexemes of a text, and the literal that does not end, with its byte, if one stands after
them. -/
structure Lexing (κ : Type) where
  lexemes : List (Lexeme κ)
  open? : Option (Literal × Nat)
  deriving Repr, DecidableEq

theorem Rule.rest_shorter {κ : Type} (rule : Rule κ) {c : Char} {r : Text} {lexeme : Lexeme κ}
    {rest : Text} (h : rule.front c r = .found lexeme rest) : rest.length < (c :: r).length := by
  have hk := congrArg List.length (rule.keeps c r lexeme rest h)
  have ht := List.length_pos_iff.2 (rule.takes c r lexeme rest h)
  simp only [List.length_append] at hk
  omega

/-- Divides a text that starts at a byte. -/
def Rule.lexFrom {κ : Type} (rule : Rule κ) (offset : Nat) : Text → Lexing κ
  | [] => ⟨[], none⟩
  | c :: r =>
    match _h : rule.front c r with
    | .unterminated what ahead => ⟨[], some (what, offset + ahead)⟩
    | .found lexeme rest =>
      let tail := rule.lexFrom (offset + Text.width lexeme.text) rest
      ⟨lexeme :: tail.lexemes, tail.open?⟩
termination_by s => s.length
decreasing_by exact rule.rest_shorter _h

/-- Divides a text. -/
def Rule.lex {κ : Type} (rule : Rule κ) (s : Text) : Lexing κ :=
  rule.lexFrom 0 s

/-- Carries a state over lexemes, the first of which starts at `offset`. -/
def runLexemes {κ σ : Type} (step : σ → Nat → Lexeme κ → Except Fault σ) :
    Nat → σ → List (Lexeme κ) → Except Fault σ
  | _, state, [] => .ok state
  | offset, state, lexeme :: rest => do
    runLexemes step (offset + Text.width lexeme.text) (← step state offset lexeme) rest

/-- Carries a state over all lexemes, and reports the literal that does not end after them. -/
def Lexing.run {κ σ : Type} (language : Language) (step : σ → Nat → Lexeme κ → Except Fault σ)
    (state : σ) (lexing : Lexing κ) : Except Fault σ := do
  let state ← runLexemes step 0 state lexing.lexemes
  match lexing.open? with
  | some (what, offset) => .error (.unterminated language what offset)
  | none => .ok state

/-- **The lexemes of a text make it up** if every literal in it ends. -/
theorem Rule.lexFrom_text {κ : Type} (rule : Rule κ) (offset : Nat) (s : Text)
    (h : (rule.lexFrom offset s).open? = none) :
    ((rule.lexFrom offset s).lexemes.map Lexeme.text).flatten = s := by
  fun_induction rule.lexFrom offset s with
  | case1 => rfl
  | case2 => simp at h
  | case3 offset c r lexeme rest hf tail ih =>
    simp only [List.map_cons, List.flatten_cons]
    rw [ih h]
    exact rule.keeps c r lexeme rest hf

theorem Rule.lex_text {κ : Type} (rule : Rule κ) {s : Text} (h : (rule.lex s).open? = none) :
    ((rule.lex s).lexemes.map Lexeme.text).flatten = s :=
  rule.lexFrom_text 0 s h

/-! ## Quoted literals -/

/-- The rest of a literal after its opening quote, up to the quote that closes it, and what follows
it. A backslash covers the character after it, and the literal may not pass the end of the line. -/
def quoted (quote : Char) : Text → Option (Text × Text)
  | [] => none
  | '\\' :: [] => none
  | '\\' :: c :: r => (quoted quote r).map fun (inner, rest) => ('\\' :: c :: inner, rest)
  | c :: r =>
    if c = '\n' then none
    else if c = quote then some ([c], r)
    else (quoted quote r).map fun (inner, rest) => (c :: inner, rest)

theorem eq_of_quoted {q : Char} {s a b : Text} (h : quoted q s = some (a, b)) : a ++ b = s := by
  fun_induction quoted q s generalizing a with
  | case1 => simp at h
  | case2 => simp at h
  | case3 c r ih =>
    simp only [Option.map_eq_some_iff, Prod.exists, Prod.mk.injEq] at h
    obtain ⟨a', b', h', rfl, rfl⟩ := h
    simp [ih h']
  | case4 => simp at h
  | case5 =>
    simp only [Option.some.injEq, Prod.mk.injEq] at h
    obtain ⟨rfl, rfl⟩ := h
    rfl
  | case6 c r _ _ _ _ ih =>
    simp only [Option.map_eq_some_iff, Prod.exists, Prod.mk.injEq] at h
    obtain ⟨a', b', h', rfl, rfl⟩ := h
    simp [ih h']

end Scholia.Source
