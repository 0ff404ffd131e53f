import Scholia.Proofs.Source.Braced.History
import Scholia.Proofs.Source.Placement
/-!
# The gap before a routine

Between a comment and the routine that it belongs to may stand annotations, but an annotation begins
the header of what follows it: the routine's own annotations are part of the routine. So if nothing
but blanks and annotations stand in the gap, then only blanks do, and this is so exactly if no
semicolon and no brace stands there.

The converse matters: a gap with a semicolon holds a declaration, and it is replaced with the
routine.
-/

namespace Scholia.Source.Braced

open Text (IsCut)

variable {dialect : Dialect} {source : Text} {s s' : State} {offset : Nat}
  {lexeme : Lexeme Kind} {lexemes : List (Lexeme Kind)}

/-! ## What a lexeme does to header, parentheses and braces -/

/-- A brace, open or closed. -/
def Kind.isBrace : Kind → Bool
  | openBrace => true
  | closeBrace => true
  | _ => false

/-- A lexeme with which a header begins, if none is under way. -/
def Kind.isCode : Kind → Bool
  | literal => true
  | openParen => true
  | code => true
  | _ => false

/-- A semicolon or a brace: what can end a header. -/
def Kind.isReset : Kind → Bool
  | semicolon => true
  | openBrace => true
  | closeBrace => true
  | _ => false

@[simp] theorem State.flushRun_header (s : State) : s.flushRun.header = s.header := by
  unfold State.flushRun
  split <;> rfl

@[simp] theorem State.flushRun_parens (s : State) : s.flushRun.parens = s.parens := by
  unfold State.flushRun
  split <;> rfl

@[simp] theorem State.flushRun_braces (s : State) : s.flushRun.braces = s.braces := by
  unfold State.flushRun
  split <;> rfl

@[simp] theorem State.extendRun_header (s : State) (line : Span) :
    (s.extendRun source line).header = s.header := by
  unfold State.extendRun
  split
  · split
    · rfl
    · exact s.flushRun_header
  · rfl

@[simp] theorem State.extendRun_parens (s : State) (line : Span) :
    (s.extendRun source line).parens = s.parens := by
  unfold State.extendRun
  split
  · split
    · rfl
    · exact s.flushRun_parens
  · rfl

@[simp] theorem State.extendRun_braces (s : State) (line : Span) :
    (s.extendRun source line).braces = s.braces := by
  unfold State.extendRun
  split
  · split
    · rfl
    · exact s.flushRun_braces
  · rfl

/-- A lexeme that is no brace leaves the braces, and a header unless it is a semicolon outside
parentheses. -/
theorem State.step_frame (h : s.step dialect source offset lexeme = .ok s')
    (hk : lexeme.kind.isBrace = false) :
    s'.braces = s.braces ∧
      (∀ b, s.header = some b → (lexeme.kind = .semicolon → 0 < s.parens) → s'.header = some b) ∧
      (lexeme.kind.isCode = true → s'.header ≠ none) ∧
      s'.parens = (match lexeme.kind with
        | .openParen => s.parens + 1
        | .closeParen => s.parens - 1
        | _ => s.parens) := by
  cases hl : lexeme.kind with
  | openBrace => simp [hl, Kind.isBrace] at hk
  | closeBrace => simp [hl, Kind.isBrace] at hk
  | lineComment =>
    simp only [State.step, hl] at h
    split at h <;> cases h
    · exact ⟨by simp, fun b hb _ => by simp [hb], by simp [Kind.isCode], by simp⟩
    · exact ⟨rfl, fun b hb _ => hb, by simp [Kind.isCode], rfl⟩
  | blockComment =>
    simp only [State.step, hl] at h
    split at h <;> cases h <;> exact ⟨rfl, fun b hb _ => hb, by simp [Kind.isCode], rfl⟩
  | semicolon =>
    simp only [State.step, hl] at h
    split at h
    · next hp =>
      cases h
      refine ⟨rfl, fun b _ hpos => ?_, by simp [Kind.isCode], rfl⟩
      have := hpos rfl
      omega
    · cases h
      exact ⟨rfl, fun b hb _ => hb, by simp [Kind.isCode], rfl⟩
  | blank =>
    simp only [State.step, hl] at h
    cases h
    exact ⟨rfl, fun b hb _ => hb, by simp [Kind.isCode], rfl⟩
  | closeParen =>
    simp only [State.step, hl] at h
    cases h
    exact ⟨rfl, fun b hb _ => hb, by simp [Kind.isCode], rfl⟩
  | literal =>
    simp only [State.step, hl] at h
    cases h
    exact ⟨rfl, fun b hb _ => by simp [State.mark, hb], by simp [State.mark], rfl⟩
  | openParen =>
    simp only [State.step, hl] at h
    cases h
    exact ⟨rfl, fun b hb _ => by simp [State.mark, hb], by simp [State.mark], rfl⟩
  | code =>
    simp only [State.step, hl] at h
    cases h
    exact ⟨rfl, fun b hb _ => by simp [State.mark, hb], by simp [State.mark], rfl⟩

/-- A brace that opens is put on the others; inside parentheses it keeps the header. -/
theorem State.step_openBrace (h : s.step dialect source offset lexeme = .ok s')
    (hk : lexeme.kind = .openBrace) :
    ∃ b, s'.braces = b :: s.braces ∧ (0 < s.parens → b.kind = .inline s.header s.parens) := by
  simp only [State.step, hk] at h
  cases h
  unfold State.openBrace
  split
  · exact ⟨_, rfl, fun _ => rfl⟩
  · next hp => exact ⟨_, rfl, fun hpos => absurd hpos hp⟩

/-- A brace that closes is taken off; one inside parentheses gives the header back. -/
theorem State.step_closeBrace (h : s.step dialect source offset lexeme = .ok s')
    (hk : lexeme.kind = .closeBrace) :
    ∃ b, s.braces = b :: s'.braces ∧
      ∀ header parens, b.kind = .inline header parens → s'.header = header ∧ s'.parens = parens := by
  simp only [State.step, hk] at h
  split at h
  · next t ht =>
    cases h
    unfold State.closeBrace? at ht
    split at ht
    · cases ht
    · next b outer hb =>
      refine ⟨b, ?_, ?_⟩
      · rw [hb]
        cases hkind : b.kind <;> simp only [hkind] at ht <;> cases ht <;> rfl
      · intro header parens hinline
        simp only [hinline] at ht
        cases ht
        exact ⟨rfl, rfl⟩
  · cases h

/-! ## Runs without a reset -/

/-- Without semicolons and braces a header stays under way. -/
theorem run_keeps_header (hrun : runLexemes (State.step dialect source) offset s lexemes = .ok s')
    (hreset : ∀ l ∈ lexemes, l.kind.isReset = false) (hs : s.header ≠ none) :
    s'.header ≠ none := by
  induction lexemes generalizing s offset with
  | nil =>
    cases hrun
    exact hs
  | cons l ls ih =>
    obtain ⟨t, hstep, hrun⟩ := runLexemes_cons_ok hrun
    have hl := hreset l List.mem_cons_self
    refine ih hrun (fun l hl => hreset l (List.mem_cons_of_mem _ hl)) ?_
    cases hh : s.header with
    | none => exact absurd hh hs
    | some b =>
      have hbrace : l.kind.isBrace = false := by
        cases hk : l.kind <;> simp_all [Kind.isReset, Kind.isBrace]
      have hkeep := (State.step_frame hstep hbrace).2.1 b hh fun he => by
        simp [he, Kind.isReset] at hl
      simp [hkeep]

/-- If no header is under way behind lexemes without semicolons and braces, there was no code among
them. -/
theorem not_isCode_of_run (hrun : runLexemes (State.step dialect source) offset s lexemes = .ok s')
    (hreset : ∀ l ∈ lexemes, l.kind.isReset = false) (hs : s'.header = none) :
    ∀ l ∈ lexemes, l.kind.isCode = false := by
  induction lexemes generalizing s offset with
  | nil => simp
  | cons l ls ih =>
    obtain ⟨t, hstep, hrun⟩ := runLexemes_cons_ok hrun
    have hmore : ∀ l ∈ ls, l.kind.isReset = false := fun l hl =>
      hreset l (List.mem_cons_of_mem _ hl)
    have hl := hreset l List.mem_cons_self
    intro m hm
    rcases List.mem_cons.1 hm with rfl | hm
    · cases hcode : m.kind.isCode with
      | false => rfl
      | true =>
        have hbrace : m.kind.isBrace = false := by
          cases hk : m.kind <;> simp_all [Kind.isReset, Kind.isBrace]
        have hmarked := (State.step_frame hstep hbrace).2.2.1 hcode
        exact absurd hs (run_keeps_header hrun hmore hmarked)
    · exact ih hrun hmore m hm

/-! ## Annotations -/

/-- A lexeme of one character. -/
def IsChar (lexeme : Lexeme Kind) (c : Char) : Prop :=
  lexeme = ⟨Kind.ofChar c, [c]⟩

/-- A parenthesis, brace or bracket that opens, and the one that closes it. -/
def Pairs (opening closing : Lexeme Kind) : Prop :=
  IsChar opening '(' ∧ IsChar closing ')' ∨ IsChar opening '{' ∧ IsChar closing '}' ∨
    IsChar opening '[' ∧ IsChar closing ']'

/-- Whether a lexeme is a parenthesis, brace or bracket. -/
def isBracket (lexeme : Lexeme Kind) : Bool :=
  lexeme.kind.isBrace || lexeme.kind == .openParen || lexeme.kind == .closeParen ||
    lexeme.text == ['['] || lexeme.text == [']']

/-- A character that is blank. -/
def IsFiller (lexeme : Lexeme Kind) : Prop :=
  ∃ c, IsChar lexeme c ∧ Text.isBlank c = true

/-- Lexemes among which all parentheses, braces and brackets are paired. -/
inductive Balanced : List (Lexeme Kind) → Prop
  | nil : Balanced []
  | plain {l : Lexeme Kind} {ls : List (Lexeme Kind)} (hl : isBracket l = false)
    (more : Balanced ls) : Balanced (l :: ls)
  | group {o c : Lexeme Kind} {inner ls : List (Lexeme Kind)} (pairs : Pairs o c)
    (body : Balanced inner) (more : Balanced ls) : Balanced (o :: (inner ++ c :: ls))

/-- The inside of an attribute: what is paired, with semicolons and braces in parentheses only. -/
inductive AttributeBody : List (Lexeme Kind) → Prop
  | nil : AttributeBody []
  | plain {l : Lexeme Kind} {ls : List (Lexeme Kind)} (hl : isBracket l = false)
    (hr : l.kind.isReset = false) (more : AttributeBody ls) : AttributeBody (l :: ls)
  | arguments {o c : Lexeme Kind} {inner ls : List (Lexeme Kind)} (ho : IsChar o '(')
    (hc : IsChar c ')') (body : Balanced inner) (more : AttributeBody ls) :
    AttributeBody (o :: (inner ++ c :: ls))
  | brackets {o c : Lexeme Kind} {inner ls : List (Lexeme Kind)} (ho : IsChar o '[')
    (hc : IsChar c ']') (body : AttributeBody inner) (more : AttributeBody ls) :
    AttributeBody (o :: (inner ++ c :: ls))

/-- The arguments of an annotation, if it has any. -/
inductive Arguments : List (Lexeme Kind) → Prop
  | none : Arguments []
  | some {gap inner : List (Lexeme Kind)} {o c : Lexeme Kind}
    (hgap : ∀ l ∈ gap, IsFiller l) (ho : IsChar o '(') (hc : IsChar c ')')
    (body : Balanced inner) : Arguments (gap ++ o :: (inner ++ [c]))

/-- Nothing but blanks, complete annotations and, where the language has them, complete
attributes. -/
inductive OnlyAnnotations (dialect : Dialect) : List (Lexeme Kind) → Prop
  | nil : OnlyAnnotations dialect []
  | blank {l : Lexeme Kind} {ls : List (Lexeme Kind)} (hl : IsFiller l)
    (more : OnlyAnnotations dialect ls) : OnlyAnnotations dialect (l :: ls)
  | annotation {a : Lexeme Kind} {name arguments ls : List (Lexeme Kind)} (ha : IsChar a '@')
    (hne : name ≠ []) (hname : ∀ l ∈ name, ∃ c, IsChar l c ∧ isAnnotationChar c = true)
    (hargs : Arguments arguments) (more : OnlyAnnotations dialect ls) :
    OnlyAnnotations dialect (a :: (name ++ (arguments ++ ls)))
  | bracketed {o c : Lexeme Kind} {inner ls : List (Lexeme Kind)} (hd : dialect = .cSharp)
    (ho : IsChar o '[') (hc : IsChar c ']') (body : AttributeBody inner)
    (more : OnlyAnnotations dialect ls) : OnlyAnnotations dialect (o :: (inner ++ c :: ls))

/-! ## What annotations do to a header -/

theorem ofChar_of_isBlank {c : Char} (h : Text.isBlank c = true) :
    Kind.ofChar c = .blank ∨ Kind.ofChar c = .code := by
  have hne : ∀ d : Char, Text.isBlank d = false → c ≠ d := by
    intro d hd he
    rw [he, hd] at h
    cases h
  unfold Kind.ofChar
  rw [if_neg (hne '{' rfl), if_neg (hne '}' rfl), if_neg (hne ';' rfl), if_neg (hne '(' rfl),
    if_neg (hne ')' rfl)]
  split
  · exact .inl rfl
  · exact .inr rfl

theorem ofChar_of_isAnnotationChar {c : Char} (h : isAnnotationChar c = true) :
    Kind.ofChar c = .code := by
  have hne : ∀ d : Char, isAnnotationChar d = false → c ≠ d := by
    intro d hd he
    rw [he, hd] at h
    cases h
  have hblank : Text.isPlainBlank c = false := by
    simp only [Text.isPlainBlank, Bool.or_eq_false_iff, beq_eq_false_iff_ne]
    exact ⟨⟨⟨⟨hne ' ' rfl, hne '\t' rfl⟩, hne '\n' rfl⟩, hne '\x0c' rfl⟩, hne '\r' rfl⟩
  unfold Kind.ofChar
  rw [if_neg (hne '{' rfl), if_neg (hne '}' rfl), if_neg (hne ';' rfl), if_neg (hne '(' rfl),
    if_neg (hne ')' rfl), hblank]
  rfl

theorem IsFiller.plain {l : Lexeme Kind} (h : IsFiller l) :
    l.kind.isReset = false ∧ l.kind ≠ .openParen ∧ l.kind ≠ .closeParen := by
  obtain ⟨c, rfl, hc⟩ := h
  rcases ofChar_of_isBlank hc with hk | hk
  all_goals simp [hk, Kind.isReset]

theorem isBrace_of_isReset {k : Kind} (h : k.isReset = false) : k.isBrace = false := by
  cases k <;> first | rfl | cases h

/-- A header under way at a byte, inside so many parentheses. -/
def State.UnderWay (s : State) (b parens : Nat) : Prop :=
  s.header = some b ∧ s.parens = parens

/-- A character that is code is neither a reset nor a parenthesis. -/
theorem IsChar.plain {l : Lexeme Kind} {c : Char} (hl : IsChar l c) (hc : Kind.ofChar c = .code) :
    l.kind.isReset = false ∧ l.kind ≠ .openParen ∧ l.kind ≠ .closeParen := by
  subst hl
  simp [hc, Kind.isReset]

namespace State.UnderWay

variable {b parens : Nat}

/-- A lexeme that is no reset and no parenthesis leaves a header under way. -/
theorem step (h : s.UnderWay b parens) (hs : s.step dialect source offset lexeme = .ok s')
    (hreset : lexeme.kind.isReset = false) (hopen : lexeme.kind ≠ .openParen)
    (hclose : lexeme.kind ≠ .closeParen) : s'.UnderWay b parens := by
  obtain ⟨-, hkeep, -, hparens⟩ := State.step_frame hs (isBrace_of_isReset hreset)
  refine ⟨hkeep b h.1 fun he => ?_, ?_⟩
  · rw [he] at hreset
    cases hreset
  · rw [hparens, ← h.2]
    split
    · exact absurd ‹_› hopen
    · exact absurd ‹_› hclose
    · rfl

/-- Inside parentheses the same holds of a semicolon. -/
theorem step_inside (h : s.UnderWay b parens) (hpos : 0 < parens)
    (hs : s.step dialect source offset lexeme = .ok s') (hbrace : lexeme.kind.isBrace = false)
    (hopen : lexeme.kind ≠ .openParen) (hclose : lexeme.kind ≠ .closeParen) :
    s'.UnderWay b parens := by
  obtain ⟨-, hkeep, -, hparens⟩ := State.step_frame hs hbrace
  refine ⟨hkeep b h.1 fun _ => h.2 ▸ hpos, ?_⟩
  rw [hparens, ← h.2]
  split
  · exact absurd ‹_› hopen
  · exact absurd ‹_› hclose
  · rfl

theorem openParen (h : s.UnderWay b parens) (hs : s.step dialect source offset lexeme = .ok s')
    (hl : IsChar lexeme '(') : s'.UnderWay b (parens + 1) := by
  subst hl
  obtain ⟨-, hkeep, -, hparens⟩ := State.step_frame hs rfl
  exact ⟨hkeep b h.1 fun he => (by cases he), hparens.trans (congrArg (· + 1) h.2)⟩

theorem closeParen (h : s.UnderWay b (parens + 1))
    (hs : s.step dialect source offset lexeme = .ok s') (hl : IsChar lexeme ')') :
    s'.UnderWay b parens := by
  subst hl
  obtain ⟨-, hkeep, -, hparens⟩ := State.step_frame hs rfl
  exact ⟨hkeep b h.1 fun he => (by cases he), hparens.trans (congrArg (· - 1) h.2)⟩

/-- A character that is neither a reset nor a parenthesis. -/
theorem char (h : s.UnderWay b parens) (hs : s.step dialect source offset lexeme = .ok s')
    {c : Char} (hl : IsChar lexeme c) (hc : Kind.ofChar c = .code) : s'.UnderWay b parens := by
  obtain ⟨hr, ho, hclose⟩ := hl.plain hc
  exact h.step hs hr ho hclose

end State.UnderWay

theorem not_paren_of_isBracket {l : Lexeme Kind} (h : isBracket l = false) :
    l.kind.isBrace = false ∧ l.kind ≠ .openParen ∧ l.kind ≠ .closeParen := by
  simp only [isBracket, Bool.or_eq_false_iff, beq_eq_false_iff_ne] at h
  exact ⟨h.1.1.1.1, h.1.1.1.2, h.1.1.2⟩

/-- Paired lexemes close the braces that they open. -/
theorem Balanced.run_braces (h : Balanced lexemes)
    (hrun : runLexemes (State.step dialect source) offset s lexemes = .ok s') :
    s'.braces = s.braces := by
  induction h generalizing s s' offset with
  | nil =>
    cases hrun
    rfl
  | plain hl _ ih =>
    obtain ⟨t, hstep, hrun⟩ := runLexemes_cons_ok hrun
    rw [ih hrun, (State.step_frame hstep (not_paren_of_isBracket hl).1).1]
  | group pairs _ _ ihb ihm =>
    obtain ⟨t, hopen, hrun⟩ := runLexemes_cons_ok hrun
    obtain ⟨u, hinner, hrun⟩ := runLexemes_append_ok hrun
    obtain ⟨v, hclose, hrun⟩ := runLexemes_cons_ok hrun
    rw [ihm hrun]
    have hu := ihb hinner
    rcases pairs with ⟨rfl, rfl⟩ | ⟨rfl, rfl⟩ | ⟨rfl, rfl⟩
    · rw [(State.step_frame hclose rfl).1, hu, (State.step_frame hopen rfl).1]
    · obtain ⟨b, hb, -⟩ := State.step_openBrace hopen rfl
      obtain ⟨b', hb', -⟩ := State.step_closeBrace hclose rfl
      rw [hu, hb] at hb'
      exact (List.cons.inj hb').2.symm
    · rw [(State.step_frame hclose rfl).1, hu, (State.step_frame hopen rfl).1]

/-- **Inside parentheses, paired lexemes leave a header under way**. -/
theorem Balanced.run_underWay {b parens : Nat} (h : Balanced lexemes)
    (hrun : runLexemes (State.step dialect source) offset s lexemes = .ok s')
    (hs : s.UnderWay b parens) (hpos : 0 < parens) : s'.UnderWay b parens := by
  induction h generalizing s s' offset parens with
  | nil =>
    cases hrun
    exact hs
  | plain hl _ ih =>
    obtain ⟨t, hstep, hrun⟩ := runLexemes_cons_ok hrun
    obtain ⟨hbrace, hopen, hclose⟩ := not_paren_of_isBracket hl
    exact ih hrun (hs.step_inside hpos hstep hbrace hopen hclose) hpos
  | group pairs body _ ihb ihm =>
    obtain ⟨t, hopen, hrun⟩ := runLexemes_cons_ok hrun
    obtain ⟨u, hinner, hrun⟩ := runLexemes_append_ok hrun
    obtain ⟨v, hclose, hrun⟩ := runLexemes_cons_ok hrun
    refine ihm hrun ?_ hpos
    rcases pairs with ⟨ho, hc⟩ | ⟨rfl, rfl⟩ | ⟨ho, hc⟩
    · exact (ihb hinner (hs.openParen hopen ho) (Nat.succ_pos _)).closeParen hclose hc
    · -- the brace takes the header away and gives it back
      obtain ⟨brace, hb, hkind⟩ := State.step_openBrace hopen rfl
      obtain ⟨brace', hb', hback⟩ := State.step_closeBrace hclose rfl
      rw [body.run_braces hinner, hb] at hb'
      obtain ⟨rfl, -⟩ := List.cons.inj hb'
      obtain ⟨hheader, hparens⟩ := hback _ _ (hkind (hs.2 ▸ hpos))
      exact ⟨hheader.trans hs.1, hparens.trans hs.2⟩
    · exact (ihb hinner (hs.char hopen ho rfl) hpos).char hclose hc rfl

theorem AttributeBody.run_underWay {b parens : Nat} (h : AttributeBody lexemes)
    (hrun : runLexemes (State.step dialect source) offset s lexemes = .ok s')
    (hs : s.UnderWay b parens) : s'.UnderWay b parens := by
  induction h generalizing s s' offset with
  | nil =>
    cases hrun
    exact hs
  | plain hl hr _ ih =>
    obtain ⟨t, hstep, hrun⟩ := runLexemes_cons_ok hrun
    obtain ⟨-, hopen, hclose⟩ := not_paren_of_isBracket hl
    exact ih hrun (hs.step hstep hr hopen hclose)
  | arguments ho hc body _ ihm =>
    obtain ⟨t, hopen, hrun⟩ := runLexemes_cons_ok hrun
    obtain ⟨u, hinner, hrun⟩ := runLexemes_append_ok hrun
    obtain ⟨v, hclose, hrun⟩ := runLexemes_cons_ok hrun
    have hu := body.run_underWay hinner (hs.openParen hopen ho) (Nat.succ_pos _)
    exact ihm hrun (hu.closeParen hclose hc)
  | brackets ho hc _ _ ihb ihm =>
    obtain ⟨t, hopen, hrun⟩ := runLexemes_cons_ok hrun
    obtain ⟨u, hinner, hrun⟩ := runLexemes_append_ok hrun
    obtain ⟨v, hclose, hrun⟩ := runLexemes_cons_ok hrun
    exact ihm hrun ((ihb hinner (hs.char hopen ho rfl)).char hclose hc rfl)

/-- Characters that are no resets and no parentheses leave a header under way. -/
theorem run_underWay_of_chars {b parens : Nat}
    (hchars : ∀ l ∈ lexemes, l.kind.isReset = false ∧ l.kind ≠ .openParen ∧ l.kind ≠ .closeParen)
    (hrun : runLexemes (State.step dialect source) offset s lexemes = .ok s')
    (hs : s.UnderWay b parens) : s'.UnderWay b parens := by
  induction lexemes generalizing s offset with
  | nil =>
    cases hrun
    exact hs
  | cons l ls ih =>
    obtain ⟨t, hstep, hrun⟩ := runLexemes_cons_ok hrun
    obtain ⟨hr, ho, hc⟩ := hchars l List.mem_cons_self
    exact ih (fun l hl => hchars l (List.mem_cons_of_mem _ hl)) hrun (hs.step hstep hr ho hc)

/-- The characters of the name of an annotation are code. -/
theorem plain_of_name {name : List (Lexeme Kind)}
    (h : ∀ l ∈ name, ∃ c, IsChar l c ∧ isAnnotationChar c = true) :
    ∀ l ∈ name, l.kind.isReset = false ∧ l.kind ≠ .openParen ∧ l.kind ≠ .closeParen := by
  intro l hl
  obtain ⟨c, hchar, hc⟩ := h l hl
  exact hchar.plain (ofChar_of_isAnnotationChar hc)

theorem Arguments.run_underWay {b parens : Nat} (h : Arguments lexemes)
    (hrun : runLexemes (State.step dialect source) offset s lexemes = .ok s')
    (hs : s.UnderWay b parens) : s'.UnderWay b parens := by
  cases h with
  | none =>
    cases hrun
    exact hs
  | some hgap ho hc body =>
    obtain ⟨t, hrunGap, hrun⟩ := runLexemes_append_ok hrun
    obtain ⟨u, hopen, hrun⟩ := runLexemes_cons_ok hrun
    obtain ⟨v, hinner, hrun⟩ := runLexemes_append_ok hrun
    obtain ⟨w, hclose, hrun⟩ := runLexemes_cons_ok hrun
    cases hrun
    have ht := run_underWay_of_chars (fun l hl => (hgap l hl).plain) hrunGap hs
    have hv := body.run_underWay hinner (ht.openParen hopen ho) (Nat.succ_pos _)
    exact hv.closeParen hclose hc

/-- Annotations leave a header under way. -/
theorem OnlyAnnotations.run_underWay {b parens : Nat} (h : OnlyAnnotations dialect lexemes)
    (hrun : runLexemes (State.step dialect source) offset s lexemes = .ok s')
    (hs : s.UnderWay b parens) : s'.UnderWay b parens := by
  induction h generalizing s s' offset with
  | nil =>
    cases hrun
    exact hs
  | blank hl _ ih =>
    obtain ⟨t, hstep, hrun⟩ := runLexemes_cons_ok hrun
    obtain ⟨hr, ho, hc⟩ := hl.plain
    exact ih hrun (hs.step hstep hr ho hc)
  | annotation ha hne hname hargs _ ih =>
    obtain ⟨t, hstep, hrun⟩ := runLexemes_cons_ok hrun
    obtain ⟨u, hrunName, hrun⟩ := runLexemes_append_ok hrun
    obtain ⟨v, hrunArgs, hrun⟩ := runLexemes_append_ok hrun
    refine ih hrun (hargs.run_underWay hrunArgs ?_)
    exact run_underWay_of_chars (plain_of_name hname) hrunName (hs.char hstep ha rfl)
  | bracketed hd ho hc body _ ih =>
    obtain ⟨t, hopen, hrun⟩ := runLexemes_cons_ok hrun
    obtain ⟨u, hinner, hrun⟩ := runLexemes_append_ok hrun
    obtain ⟨v, hclose, hrun⟩ := runLexemes_cons_ok hrun
    exact ih hrun ((body.run_underWay hinner (hs.char hopen ho rfl)).char hclose hc rfl)

/-- The mark of an annotation puts a header under way. -/
theorem State.underWay_of_code {c : Char} (hs : s.step dialect source offset lexeme = .ok s')
    (hl : IsChar lexeme c) (hc : Kind.ofChar c = .code) : ∃ b, s'.UnderWay b s'.parens := by
  subst hl
  have hmarked := (State.step_frame hs (by rw [hc]; rfl)).2.2.1 (by rw [hc]; rfl)
  cases hh : s'.header with
  | none => exact absurd hh hmarked
  | some b => exact ⟨b, hh, rfl⟩

/-- **Where no header is under way behind annotations, there were only blanks**. -/
theorem OnlyAnnotations.isFiller (h : OnlyAnnotations dialect lexemes)
    (hrun : runLexemes (State.step dialect source) offset s lexemes = .ok s')
    (hs : s'.header = none) : ∀ l ∈ lexemes, IsFiller l := by
  induction h generalizing s s' offset with
  | nil => simp
  | blank hl _ ih =>
    obtain ⟨t, hstep, hrun⟩ := runLexemes_cons_ok hrun
    intro m hm
    rcases List.mem_cons.1 hm with rfl | hm
    · exact hl
    · exact ih hrun hs m hm
  | annotation ha hne hname hargs more _ =>
    obtain ⟨t, hstep, hrun⟩ := runLexemes_cons_ok hrun
    obtain ⟨b, ht⟩ := State.underWay_of_code hstep ha rfl
    obtain ⟨u, hrunName, hrun⟩ := runLexemes_append_ok hrun
    obtain ⟨v, hrunArgs, hrun⟩ := runLexemes_append_ok hrun
    have hu := run_underWay_of_chars (plain_of_name hname) hrunName ht
    have hend := more.run_underWay hrun (hargs.run_underWay hrunArgs hu)
    have := hs.symm.trans hend.1
    cases this
  | bracketed hd ho hc body more _ =>
    obtain ⟨t, hopen, hrun⟩ := runLexemes_cons_ok hrun
    obtain ⟨b, ht⟩ := State.underWay_of_code hopen ho rfl
    obtain ⟨u, hinner, hrun⟩ := runLexemes_append_ok hrun
    obtain ⟨v, hclose, hrun⟩ := runLexemes_cons_ok hrun
    have hend := more.run_underWay hrun ((body.run_underWay hinner ht).char hclose hc rfl)
    have := hs.symm.trans hend.1
    cases this

/-! ## What stands first -/

/-- A lexeme that is neither code nor a reset begins with a slash or a parenthesis, or is blank. -/
theorem cases_of_not_isCode {c : Char} {r rest : Text} (h : front dialect c r = .found lexeme rest)
    (hcode : lexeme.kind.isCode = false) (hreset : lexeme.kind.isReset = false) :
    c = '/' ∨ c = ')' ∨ IsFiller lexeme := by
  rcases front_cases h with (hk | hk | hk) | ⟨rfl, -⟩
  · exact .inl (eq_of_front_comment h (.inl hk))
  · exact .inl (eq_of_front_comment h (.inr hk))
  · rw [hk] at hcode
    cases hcode
  · simp only [Kind.ofChar] at hcode hreset
    split at hreset
    · cases hreset
    split at hreset
    · cases hreset
    split at hreset
    · cases hreset
    split at hreset
    · simp_all [Kind.isCode]
    split at hreset
    · exact .inr (.inl ‹_›)
    split at hreset
    · exact .inr (.inr ⟨c, rfl, Text.isBlank_of_isPlainBlank ‹_›⟩)
    · simp_all [Kind.isCode]

/-- In a gap whose first character is a mark, lexemes that are neither code nor resets are blank. -/
theorem isFiller_of_not_isCode {s t : Text} (hd : (rule dialect).Divides s lexemes t)
    (hcode : ∀ l ∈ lexemes, l.kind.isCode = false) (hreset : ∀ l ∈ lexemes, l.kind.isReset = false)
    (hfirst : ∀ lead c rest, Lexeme.textOf lexemes = lead ++ c :: rest →
      Text.allBlank lead = true → Text.isBlank c = false → isMark c = true) :
    ∀ l ∈ lexemes, IsFiller l := by
  induction hd with
  | stop s => simp
  | @take c r l rest ls _ found _ ih =>
    have hkeeps := (rule dialect).keeps c r l rest found
    obtain ⟨tail, htail⟩ : ∃ tail, l.text = c :: tail := by
      cases hl : l.text with
      | nil => exact absurd hl ((rule dialect).takes c r l rest found)
      | cons d tail =>
        rw [hl] at hkeeps
        exact ⟨tail, congrArg (· :: tail) (List.cons.inj hkeeps).1⟩
    have hnot : ∀ d : Char, Text.isBlank d = false → isMark d = false → c ≠ d := by
      intro d hblank hmark he
      have := hfirst [] c (tail ++ Lexeme.textOf ls) (by rw [Lexeme.textOf_cons, htail]; rfl) rfl
        (he ▸ hblank)
      rw [he, hmark] at this
      cases this
    have hfiller : IsFiller l := by
      rcases cases_of_not_isCode found (hcode l List.mem_cons_self) (hreset l List.mem_cons_self)
        with he | he | hl
      · exact absurd he (hnot '/' rfl rfl)
      · exact absurd he (hnot ')' rfl rfl)
      · exact hl
    intro m hm
    rcases List.mem_cons.1 hm with rfl | hm
    · exact hfiller
    · refine ih (fun l hl => hcode l (List.mem_cons_of_mem _ hl))
        (fun l hl => hreset l (List.mem_cons_of_mem _ hl)) ?_ m hm
      intro lead d rest he hlead hd
      obtain ⟨b, rfl, hb⟩ := hfiller
      refine hfirst (b :: lead) d rest ?_ ?_ hd
      · rw [Lexeme.textOf_cons, he]
        rfl
      · rw [Text.allBlank, List.all_cons, hb]
        exact hlead

/-! ## The gap of a routine -/

/-- The lexemes of a text that start inside a range. -/
def lexemesIn (dialect : Dialect) (source : Text) (span : Span) : List (Lexeme Kind) :=
  Lexeme.between span.start span.stop 0 ((rule dialect).lex source).lexemes

/-- **The gap before a routine lies between two places**; at the second one no header is under
way. -/
theorem gap_places {o : Outline} (h : outline dialect source = .ok o) {r : Routine}
    (hr : r.Stands o .preceding) {c : Span} (hc : r.commentSpan = some c) :
    c.stop ≤ r.span.start ∧ ∃ before gap rest t u,
      Reached dialect source before (Lexeme.textOf gap ++ rest) t ∧
        Reached dialect source (before ++ gap) rest u ∧ u.Idle ∧
        c.stop = Text.width (Lexeme.textOf before) ∧
        r.span.start = Text.width (Lexeme.textOf (before ++ gap)) ∧
        lexemesIn dialect source ⟨c.stop, r.span.start⟩ = gap := by
  obtain ⟨lexemes, last, hreach, -, ho, hrec⟩ := outline_reached h
  obtain ⟨b, hmem, -, hcomment⟩ := hr.node
  obtain ⟨⟨d, hd, hdoc, rfl⟩, hjoin⟩ := hcomment c hc
  have hle : d.span.stop ≤ r.span.start := isAdjacent_le hjoin
  refine ⟨hle, ?_⟩
  obtain ⟨-, -, -, -, u, u', hframed⟩ := hrec _ hmem
  obtain ⟨first, hstart, -⟩ := hframed.start
  obtain ⟨head, after, rest, hlex, hu, hstart⟩ := hstart.place
  have hrecd := (hrec d hd).2
  rw [hdoc] at hrecd
  obtain ⟨before, comment, after', hlex', -, hstop, -⟩ := hrecd
  rw [← List.append_assoc] at hlex'
  have hpos : ∀ l ∈ lexemes, 0 < Text.width l.text := fun l hl => hreach.divides.width_pos hl
  have hpos' : ∀ l ∈ before ++ comment, 0 < Text.width l.text := fun l hl =>
    hpos l (hlex' ▸ List.mem_append_left _ hl)
  obtain ⟨gap, rfl⟩ := Lexeme.append_of_width_le (hlex'.symm.trans hlex) hpos'
    (by rw [← hstop, ← hstart]; exact hle)
  obtain ⟨mid, t, ht, hgap, -⟩ := hu.split
  refine ⟨before ++ comment, gap, rest, t, u, ?_, hu, hframed.idle, hstop, hstart, ?_⟩
  · rw [← hgap.text]
    exact ht
  · have hall : ((rule dialect).lex source).lexemes = lexemes := by
      rw [Rule.lex, hreach.divides.lexFrom_eq]
    rw [List.append_assoc] at hlex
    rw [lexemesIn, hall, hstop, hstart, hlex]
    exact Lexeme.between_places (hlex ▸ hpos)

/-- **In a brace language the gap of a routine holds nothing but blanks and annotations exactly if no
semicolon and no brace stands in it**, and then it is blank. -/
theorem onlyAnnotations_gap_iff {o : Outline} (h : outline dialect source = .ok o) {r : Routine}
    (hr : r.Stands o .preceding) {c : Span} (hc : r.commentSpan = some c) :
    (OnlyAnnotations dialect (lexemesIn dialect source ⟨c.stop, r.span.start⟩) ↔
        ∀ l ∈ lexemesIn dialect source ⟨c.stop, r.span.start⟩, l.kind.isReset = false) ∧
      ((∀ l ∈ lexemesIn dialect source ⟨c.stop, r.span.start⟩, l.kind.isReset = false) →
        Text.allBlank (Text.slice c.stop r.span.start source) = true) := by
  have ho := (outline_fits h).1
  obtain ⟨-, before, gap, rest, t, u, ht, hu, hidle, hstop, hstart, hgap⟩ := gap_places h hr hc
  obtain ⟨b, -, -, hcomment⟩ := hr.node
  have hjoin := (hcomment c hc).2
  rw [ho] at hjoin
  have hslice : Text.slice c.stop r.span.start source = Lexeme.textOf gap := by
    rw [hstop, hstart, ht.text, Lexeme.textOf_append, Text.width_append, Text.slice_middle]
  obtain ⟨mid, t', ht', hdivides, hrun⟩ := hu.split
  rw [hgap]
  have hfiller : (∀ l ∈ gap, l.kind.isReset = false) → ∀ l ∈ gap, IsFiller l := by
    intro hreset
    refine isFiller_of_not_isCode hdivides (not_isCode_of_run hrun hreset hidle.1) hreset ?_
    intro lead c' rest' he hlead hblank
    have hgap' : Text.slice c.stop r.span.start source = [] ++ (lead ++ c' :: rest') :=
      hslice.trans he
    exact isMark_of_isAdjacent hjoin hgap' (.inl rfl) hlead hblank
  refine ⟨⟨fun hann l hl => ?_, fun hreset => ?_⟩, fun hreset => ?_⟩
  · exact (hann.isFiller hrun hidle.1 l hl).plain.1
  · have hblank := hfiller hreset
    clear hgap hrun hdivides hslice hstart ht hu hfiller hreset
    induction gap with
    | nil => exact .nil
    | cons l ls ih =>
      exact .blank (hblank l List.mem_cons_self)
        (ih fun l hl => hblank l (List.mem_cons_of_mem _ hl))
  · rw [hslice, Text.allBlank, List.all_eq_true]
    intro d hd
    obtain ⟨text, htext, hd⟩ := List.mem_flatten.1 hd
    obtain ⟨l, hl, rfl⟩ := List.mem_map.1 htext
    obtain ⟨d', rfl, hblank⟩ := hfiller hreset l hl
    rw [List.mem_singleton.1 hd]
    exact hblank

end Scholia.Source.Braced
