import Scholia.Proofs.Source.Braced.Alike
import Scholia.Proofs.Source.Braced.Grammar
import Scholia.Proofs.Source.Braced.Order
import Scholia.Proofs.Source.Enclosed
import Scholia.Proofs.Text.Worn
/-!
# Remarks in the brace languages

A *remark* is a comment that is no doc comment. Blanked out, it becomes blanks in the same place, and
all other lexemes stay what they are. The states then run along with each other, header by header: a
header is the one text in which a remark can be seen, since it is cut out of the source as a whole.
So **a source without its remarks declares the same, as far as its headers read the same**.
-/

namespace Scholia.Source.Braced

open Layout (endsLine)

variable {dialect : Dialect} {source text s rest rest' : Text} {lexeme : Lexeme Kind}
  {lexemes : List (Lexeme Kind)} {offset : Nat}

/-! ## Sources without remarks -/

/-- Whether a lexeme is a comment that is no doc comment. -/
def isRemark (dialect : Dialect) (lexeme : Lexeme Kind) : Bool :=
  match lexeme.kind with
  | .lineComment => !(decide (dialect = .cSharp) && State.isDocLine lexeme.text)
  | .blockComment => !(decide (dialect = .java) && State.isDocBlock lexeme.text)
  | _ => false

/-- The text of a lexeme, blanked out if it is a remark. -/
def unremarked (dialect : Dialect) (lexeme : Lexeme Kind) : Text :=
  if isRemark dialect lexeme then Text.blanked lexeme.text else lexeme.text

/-- A source with its remarks blanked out. -/
def withoutRemarks (dialect : Dialect) (source : Text) : Text :=
  ((rule dialect).lex source).lexemes.flatMap (unremarked dialect)

/-- What a lexeme becomes. -/
def plain (dialect : Dialect) (lexeme : Lexeme Kind) : List (Lexeme Kind) :=
  if isRemark dialect lexeme then Shape.blanks (Text.blanked lexeme.text) else [lexeme]

/-- The header that a brace ends where declarations may stand. -/
def State.judged? (s : State) (offset : Nat) (lexeme : Lexeme Kind) : Option Span :=
  if lexeme.kind = .openBrace ∧ s.parens = 0 ∧ holdDeclarations s.braces = true then
    some ⟨s.header.getD offset, offset⟩
  else none

/-- The headers that are read from a state on. -/
def headersFrom (dialect : Dialect) (source : Text) :
    Nat → State → List (Lexeme Kind) → List Span
  | _, _, [] => []
  | offset, s, lexeme :: rest =>
    (s.judged? offset lexeme).toList ++
      match s.step dialect source offset lexeme with
      | .ok t => headersFrom dialect source (offset + Text.width lexeme.text) t rest
      | .error _ => []

/-- The headers of a source: what is told from them is what stands in its outline. -/
def headers (dialect : Dialect) (source : Text) : List Span :=
  headersFrom dialect source 0 .initial ((rule dialect).lex source).lexemes

/-- Two headers declare the same. -/
def ReadsSame (dialect : Dialect) (header header' : Text) : Prop :=
  Header.ofText (dialect == .cSharp) header = Header.ofText (dialect == .cSharp) header'

instance (dialect : Dialect) (header header' : Text) :
    Decidable (ReadsSame dialect header header') :=
  inferInstanceAs (Decidable (_ = _))

/-! ## Lexemes -/

/-- A remark begins with a slash, and is blanked out to layout that begins with a space. -/
theorem blanked_remark {c : Char} {r : Text} (h : front dialect c r = .found lexeme rest)
    (hl : isRemark dialect lexeme = true) :
    c = '/' ∧ ∃ more, Text.blanked lexeme.text = ' ' :: more := by
  have hk : lexeme.kind = .lineComment ∨ lexeme.kind = .blockComment := by
    unfold isRemark at hl
    split at hl
    · next hk => exact .inl hk
    · next hk => exact .inr hk
    · cases hl
  have hc := eq_of_front_comment h hk
  obtain ⟨hkeeps, hne⟩ := front_keeps dialect c r lexeme rest h
  obtain ⟨d, x, ht⟩ := List.exists_cons_of_ne_nil hne
  rw [ht] at hkeeps ⊢
  obtain ⟨rfl, -⟩ := List.cons.inj hkeeps
  subst hc
  exact ⟨rfl, Text.blanked_head (by decide) x⟩

/-- Only the character itself begins with a dollar sign. -/
theorem text_dollar {r x : Text} (h : front dialect '$' r = .found lexeme rest)
    (ht : lexeme.text = '$' :: x) : x = [] := by
  rw [front_other (fun h => absurd h (by decide)) (by decide) (by decide)
    fun h => absurd h (by decide)] at h
  cases h
  exact (List.cons.inj ht).2.symm

/-- Text without remarks stands behind a lexeme as the text with them does. -/
theorem behind_of_divides (h : (rule dialect).Divides s lexemes []) :
    Behind s (lexemes.flatMap (unremarked dialect)) := by
  generalize hrest : ([] : Text) = last at h
  induction h with
  | stop s =>
    subst hrest
    exact ⟨fun _ => rfl, (fun _ _ he => by cases he), fun _ he => by cases he⟩
  | @take c r lexeme mid lexemes _ found _ ih =>
    obtain ⟨hkeeps, hne⟩ := front_keeps dialect c r lexeme mid found
    have ih := ih hrest
    rw [List.flatMap_cons, unremarked]
    cases hl : isRemark dialect lexeme with
    | true =>
      obtain ⟨rfl, more, hmore⟩ := blanked_remark found hl
      rw [if_pos rfl, hmore]
      refine ⟨(fun he => by cases he), fun c r' he hc => ?_, fun r' he => ?_⟩
      · exact absurd (List.cons.inj he).1.symm hc
      · exact absurd (List.cons.inj he).1 (by decide)
    | false =>
      obtain ⟨d, x, ht⟩ := List.exists_cons_of_ne_nil hne
      rw [if_neg (by decide), ht, List.cons_append]
      rw [ht, List.cons_append] at hkeeps
      obtain ⟨rfl, rfl⟩ := List.cons.inj hkeeps
      refine ⟨id, fun c r' he _ => congrArg some (List.cons.inj he).1, fun r' he => ?_⟩
      obtain ⟨rfl, htail⟩ := List.cons.inj he
      have hfront : front dialect '$' (x ++ mid) = .found lexeme mid := found
      obtain rfl := text_dollar hfront ht
      obtain ⟨r, rfl⟩ := ih.cons htail.symm (by decide)
      exact ⟨r, rfl⟩

/-- **A source without remarks is divided alike**, with blanks for every remark. -/
theorem divides_withoutRemarks (h : (rule dialect).Divides s lexemes []) :
    (rule dialect).Divides (lexemes.flatMap (unremarked dialect)) (lexemes.flatMap (plain dialect))
      [] := by
  generalize hrest : ([] : Text) = last at h
  induction h with
  | stop s =>
    subst hrest
    exact .stop []
  | @take c r lexeme mid lexemes _ found more ih =>
    rw [List.flatMap_cons, List.flatMap_cons, unremarked, plain]
    cases hl : isRemark dialect lexeme with
    | true => exact divides_blanks (fun c hc => Text.isLayout_of_mem_blanked hc) (ih hrest)
    | false =>
      subst hrest
      obtain ⟨d, x, he, hfront⟩ :=
        front_of_begins ((begins_of_front found).behind (.inr (.inr (behind_of_divides more))))
      simp only [Bool.false_eq_true, if_false, he]
      exact .take hfront (ih rfl)

/-! ## States -/

/-- Two states agree in everything but the doc comments that have been found. -/
structure State.Agrees (s t : State) : Prop where
  header : t.header = s.header
  parens : t.parens = s.parens
  braces : t.braces = s.braces
  found : t.found = s.found

namespace State

variable {s s' t : State}

theorem Agrees.refl (s : State) : s.Agrees s := ⟨rfl, rfl, rfl, rfl⟩

theorem Agrees.mark (h : s.Agrees t) (offset : Nat) : (s.mark offset).Agrees (t.mark offset) :=
  ⟨congrArg (fun header : Option Nat => some (header.getD offset)) h.header, h.parens, h.braces,
    h.found⟩

theorem Agrees.extendRun (h : s.Agrees t) (line : Span) :
    (s.extendRun source line).Agrees (t.extendRun text line) :=
  ⟨by simp [h.header], by simp [h.parens], by simp [h.braces],
    by rw [found_extendRun, found_extendRun, h.found]⟩

theorem Agrees.doc (h : s.Agrees t) (span : Span) :
    Agrees { s with nodes := .doc span :: s.nodes } { t with nodes := .doc span :: t.nodes } :=
  ⟨h.header, h.parens, h.braces, h.found⟩

theorem Agrees.openBrace (h : s.Agrees t) (hk : lexeme.kind = .openBrace)
    (hreads : ∀ header ∈ s.judged? offset lexeme,
      ReadsSame dialect (header.of text) (header.of source)) :
    (s.openBrace dialect source offset).Agrees (t.openBrace dialect text offset) := by
  obtain ⟨header, parens, braces, nodes, run⟩ := s
  obtain ⟨header', parens', braces', nodes', run'⟩ := t
  obtain ⟨rfl, rfl, rfl, hfound⟩ := h
  unfold State.openBrace
  by_cases hp : parens' > 0
  · simp only [if_pos hp]
    exact ⟨rfl, rfl, rfl, hfound⟩
  · simp only [if_neg hp]
    refine ⟨rfl, rfl, ?_, hfound⟩
    by_cases hd : (braces'.head?.map (·.kind.holdsDeclarations)).getD true = true
    · have hsame : ReadsSame dialect (Text.slice (header'.getD offset) offset text)
          (Text.slice (header'.getD offset) offset source) :=
        hreads ⟨header'.getD offset, offset⟩ (if_pos ⟨hk, Nat.eq_zero_of_not_pos hp, hd⟩)
      simp only [if_pos hd, show Header.ofText _ _ = Header.ofText _ _ from hsame]
    · simp only [if_neg hd]

theorem Agrees.closeBrace? (h : s.Agrees t) (hs : s.closeBrace? offset = some s') :
    ∃ t', t.closeBrace? offset = some t' ∧ s'.Agrees t' := by
  obtain ⟨header, parens, braces, nodes, run⟩ := s
  obtain ⟨header', parens', braces', nodes', run'⟩ := t
  obtain ⟨rfl, rfl, rfl, hfound⟩ := h
  have hfound : nodes'.filter Node.declares = nodes.filter Node.declares := hfound
  cases braces' with
  | nil => cases hs
  | cons b outer =>
    obtain ⟨kind, start, brace⟩ := b
    cases kind with
    | inline header parens =>
      cases hs
      exact ⟨_, rfl, rfl, rfl, rfl, hfound⟩
    | package | block =>
      cases hs
      exact ⟨_, rfl, rfl, rfl, rfl, hfound⟩
    | typeDecl name signature | routine name signature =>
      cases hs
      exact ⟨_, rfl, rfl, rfl, rfl, congrArg (_ :: ·) hfound⟩

/-- **A lexeme is taken alike**, if the header that it may end reads the same. -/
theorem Agrees.step (h : s.Agrees t) (hs : s.step dialect source offset lexeme = .ok s')
    (hreads : ∀ header ∈ s.judged? offset lexeme,
      ReadsSame dialect (header.of text) (header.of source)) :
    ∃ t', t.step dialect text offset lexeme = .ok t' ∧ s'.Agrees t' := by
  unfold State.step at hs ⊢
  cases hk : lexeme.kind with
  | lineComment =>
    simp only [hk] at hs ⊢
    split at hs
    · next hdoc =>
      cases hs
      exact ⟨_, if_pos hdoc, h.extendRun _⟩
    · next hdoc =>
      cases hs
      exact ⟨_, if_neg hdoc, h⟩
  | blockComment =>
    simp only [hk] at hs ⊢
    split at hs
    · next hdoc =>
      cases hs
      exact ⟨_, if_pos hdoc, h.doc _⟩
    · next hdoc =>
      cases hs
      exact ⟨_, if_neg hdoc, h⟩
  | blank =>
    simp only [hk] at hs ⊢
    cases hs
    exact ⟨_, rfl, h⟩
  | literal | code =>
    simp only [hk] at hs ⊢
    cases hs
    exact ⟨_, rfl, h.mark offset⟩
  | openParen =>
    simp only [hk] at hs ⊢
    cases hs
    exact ⟨_, rfl, (h.mark offset).header, congrArg (· + 1) h.parens, h.braces, h.found⟩
  | closeParen =>
    simp only [hk] at hs ⊢
    cases hs
    exact ⟨_, rfl, h.header, congrArg (· - 1) h.parens, h.braces, h.found⟩
  | semicolon =>
    simp only [hk] at hs ⊢
    cases hs
    refine ⟨_, rfl, ?_⟩
    by_cases hp : s.parens = 0
    · rw [if_pos hp, if_pos (h.parens.trans hp)]
      exact ⟨rfl, h.parens, h.braces, h.found⟩
    · rw [if_neg hp, if_neg fun he => hp (h.parens.symm.trans he)]
      exact h
  | openBrace =>
    simp only [hk] at hs ⊢
    cases hs
    exact ⟨_, rfl, h.openBrace hk hreads⟩
  | closeBrace =>
    simp only [hk] at hs ⊢
    split at hs
    · next s₁ hclose =>
      cases hs
      obtain ⟨t₁, ht₁, hagrees⟩ := h.closeBrace? hclose
      rw [ht₁]
      exact ⟨t₁, rfl, hagrees⟩
    · cases hs

/-- A remark is nothing to a state. -/
theorem step_remark (hl : isRemark dialect lexeme = true) :
    s.step dialect source offset lexeme = .ok s := by
  unfold isRemark at hl
  unfold State.step
  split at hl
  · next hk =>
    simp only [hk]
    rw [Bool.not_eq_true'] at hl
    rw [if_neg (by rw [hl]; decide)]
  · next hk =>
    simp only [hk]
    rw [Bool.not_eq_true'] at hl
    rw [if_neg (by rw [hl]; decide)]
  · cases hl

/-- Blanks are nothing to a state. -/
theorem run_blanks (u : Text) :
    runLexemes (State.step dialect source) offset s (Shape.blanks u) = .ok s := by
  induction u generalizing offset with
  | nil => rfl
  | cons c u ih => exact ih

end State

/-- **States run along with each other** if one of them reads no remarks, and headers read the
same. -/
theorem run_plain {s s' t : State} (h : s.Agrees t)
    (hrun : runLexemes (State.step dialect source) offset s lexemes = .ok s')
    (hreads : ∀ header ∈ headersFrom dialect source offset s lexemes,
      ReadsSame dialect (header.of text) (header.of source)) :
    ∃ t', runLexemes (State.step dialect text) offset t (lexemes.flatMap (plain dialect)) = .ok t' ∧
      s'.Agrees t' := by
  induction lexemes generalizing offset s t with
  | nil =>
    cases hrun
    exact ⟨t, rfl, h⟩
  | cons lexeme rest ih =>
    obtain ⟨s₁, hstep, hrest⟩ := runLexemes_cons_ok hrun
    rw [headersFrom, hstep] at hreads
    have hmore := fun header hh => hreads header (List.mem_append_right _ hh)
    rw [List.flatMap_cons, plain, runLexemes_append]
    cases hl : isRemark dialect lexeme with
    | true =>
      rw [State.step_remark hl] at hstep
      cases hstep
      obtain ⟨t', ht', hagrees⟩ := ih h hrest hmore
      have hwidth : Text.width (Lexeme.textOf (Shape.blanks (Text.blanked lexeme.text))) =
          Text.width lexeme.text := by
        rw [← Text.width_blanked lexeme.text]
        generalize Text.blanked lexeme.text = u
        induction u with
        | nil => rfl
        | cons c u ih => exact congrArg (c.utf8Size + ·) ih
      rw [if_pos rfl, State.run_blanks, hwidth]
      exact ⟨t', ht', hagrees⟩
    | false =>
      obtain ⟨t₁, ht₁, hagrees₁⟩ := h.step hstep fun header hh =>
        hreads header (List.mem_append_left _ (Option.mem_toList.2 hh))
      obtain ⟨t', ht', hagrees⟩ := ih hagrees₁ hrest hmore
      refine ⟨t', ?_, hagrees⟩
      rw [if_neg (by decide), runLexemes, ht₁, Lexeme.textOf_cons, Lexeme.textOf_nil,
        List.append_nil]
      exact ht'

/-! ## Outlines -/

/-- **Remarks outside headers do not influence the outline**: a source without its remarks has one as
well, with the same declarations in the same places. -/
theorem outline_withoutRemarks {o : Outline} (h : outline dialect source = .ok o)
    (hreads : ∀ header ∈ headers dialect source,
      ReadsSame dialect (header.of (withoutRemarks dialect source)) (header.of source)) :
    ∃ o', outline dialect (withoutRemarks dialect source) = .ok o' ∧ o.entries.Perm o'.entries := by
  obtain ⟨lexemes, s, hr, hbraces, rfl, -⟩ := outline_reached h
  have hlex : ((rule dialect).lex source).lexemes = lexemes := by
    rw [Rule.lex, hr.divides.lexFrom_eq]
  rw [headers, hlex] at hreads
  have hdivides := divides_withoutRemarks hr.divides
  rw [← hlex, ← withoutRemarks, hlex] at hdivides
  obtain ⟨t, ht, hagrees⟩ := run_plain (.refl .initial) hr.runs hreads
  have hr' : Reached dialect (withoutRemarks dialect source) _ [] t := ⟨hdivides, ht⟩
  have hfinish : t.finish dialect = .ok t.flushRun.nodes.reverse := by
    unfold State.finish
    rw [hagrees.braces, hbraces]
  refine ⟨.ofNodes (withoutRemarks dialect source) t.flushRun.nodes.reverse, ?_, ?_⟩
  · rw [outline, hr'.run_eq]
    exact bind_eq_ok.2 ⟨t, rfl, bind_eq_ok.2 ⟨_, hfinish, rfl⟩⟩
  · have hfound : t.flushRun.found = s.flushRun.found := by
      rw [State.found_flushRun, State.found_flushRun, hagrees.found]
    refine (Outline.entries_ofNodes _ _).trans ?_
    rw [← State.found, ← hfound]
    exact (Outline.entries_ofNodes _ _).symm

end Scholia.Source.Braced
