import Scholia.Source.Indented.Lexeme
/-!
# Where literals end

The end of a literal is found without a look at what follows it.
-/

namespace Scholia

namespace Text

/-- A pattern stands behind a text and nowhere before. -/
def IsFirst (p a : Text) : Prop :=
  ∀ before after, a ++ p = before ++ (p ++ after) → after = []

theorem isFirst_nil (p : Text) : IsFirst p [] := by
  intro before after h
  have := congrArg List.length h
  simp only [List.length_append, List.length_nil] at this
  exact List.eq_nil_of_length_eq_zero (by omega)

/-- One character more before a pattern: it does not stand there already. -/
theorem isFirst_cons {p a : Text} {c : Char} :
    IsFirst p (c :: a) ↔ ¬ p <+: c :: (a ++ p) ∧ IsFirst p a := by
  constructor
  · intro h
    refine ⟨?_, fun before after he => h (c :: before) after ?_⟩
    · rintro ⟨after, hafter⟩
      have hnil := h [] after hafter.symm
      have := congrArg List.length hafter
      simp only [hnil, List.length_append, List.length_cons, List.length_nil] at this
      omega
    · rw [List.cons_append, he, List.cons_append]
  · rintro ⟨hnot, h⟩ before after he
    cases before with
    | nil => exact absurd ⟨after, he.symm⟩ hnot
    | cons d before => exact h before after (List.cons.inj he).2

/-- **A text is cut at the first occurrence of a pattern**. -/
theorem cutAt?_eq_some_iff {p s a b : Text} :
    cutAt? p s = some (a, b) ↔ s = a ++ (p ++ b) ∧ IsFirst p a := by
  induction s generalizing a b with
  | nil =>
    constructor
    · intro h
      have hs := eq_of_cutAt? h
      simp only [List.nil_eq, List.append_eq_nil_iff] at hs
      obtain ⟨⟨rfl, rfl⟩, rfl⟩ := hs
      exact ⟨rfl, isFirst_nil []⟩
    · rintro ⟨hs, -⟩
      simp only [List.nil_eq, List.append_eq_nil_iff] at hs
      obtain ⟨rfl, rfl, rfl⟩ := hs
      rfl
  | cons c s ih =>
    rw [cutAt?]
    split
    · next rest hlead =>
      rw [dropLead?_eq_some_iff] at hlead
      constructor
      · rintro ⟨⟩
        exact ⟨hlead, isFirst_nil p⟩
      · rintro ⟨hs, hfirst⟩
        cases a with
        | nil => rw [List.append_cancel_left (hlead.symm.trans hs)]
        | cons d a =>
          -- the pattern stands at the front already
          have hp : p <+: (d :: a) ++ p := by
            refine List.prefix_of_prefix_length_le (show p <+: c :: s from ⟨rest, hlead.symm⟩) ?_ ?_
            · exact ⟨b, by rw [hs, List.append_assoc]⟩
            · rw [List.length_append]
              omega
          exact absurd hp (isFirst_cons.1 hfirst).1
    · next hnone =>
      have hnot : ∀ rest, c :: s ≠ p ++ rest := fun rest he => by
        rw [dropLead?_eq_some_iff.2 he] at hnone
        cases hnone
      simp only [Option.map_eq_some_iff, Prod.exists, Prod.mk.injEq, ih]
      constructor
      · rintro ⟨a', b', ⟨hs, hfirst⟩, rfl, rfl⟩
        refine ⟨by rw [hs, List.cons_append], isFirst_cons.2 ⟨?_, hfirst⟩⟩
        rintro ⟨after, hafter⟩
        refine hnot (after ++ b') ?_
        rw [hs, ← List.append_assoc, ← List.append_assoc, hafter, List.cons_append]
      · rintro ⟨hs, hfirst⟩
        cases a with
        | nil => exact absurd hs (hnot b)
        | cons d a =>
          obtain ⟨rfl, htail⟩ := List.cons.inj hs
          exact ⟨a, b, ⟨htail, (isFirst_cons.1 hfirst).2⟩, rfl, rfl⟩

end Text

namespace Source

/-- A character that is read on its own, before an end of text and before any other character. -/
theorem ne_backslash {c : Char} {r : Text} (hnil : c = '\\' → r = [] → False)
    (hcons : ∀ d t, c = '\\' → r = d :: t → False) : c ≠ '\\' := by
  intro he
  cases r with
  | nil => exact hnil he rfl
  | cons d t => exact hcons d t he rfl

theorem quoted_cons {q c : Char} (hc : c ≠ '\\') (r : Text) :
    quoted q (c :: r) =
      if c = '\n' then none
      else if c = q then some ([c], r)
      else (quoted q r).map fun (inner, rest) => (c :: inner, rest) := by
  rw [quoted]
  · exact fun h => absurd h hc
  · exact fun _ _ h => absurd h hc

/-- The inside of a literal in quotes: characters of one line that are no quotes, and backslashes
that each cover the character behind them. -/
inductive QuotedBody (quote : Char) : Text → Prop
  | nil : QuotedBody quote []
  | escape (c : Char) {body : Text} (more : QuotedBody quote body) :
    QuotedBody quote ('\\' :: c :: body)
  | plain {c : Char} {body : Text} (hc : c ≠ quote ∧ c ≠ '\\' ∧ c ≠ '\n')
    (more : QuotedBody quote body) : QuotedBody quote (c :: body)

/-- What is read as a quoted literal. -/
theorem quotedBody_of_quoted {q : Char} {s a b : Text} (h : quoted q s = some (a, b)) :
    q ≠ '\\' ∧ q ≠ '\n' ∧ ∃ body, QuotedBody q body ∧ a = body ++ [q] ∧ s = body ++ q :: b := by
  fun_induction quoted q s generalizing a with
  | case1 => cases h
  | case2 => cases h
  | case3 c r ih =>
    obtain ⟨⟨a', b'⟩, hr, he⟩ := Option.map_eq_some_iff.1 h
    cases he
    obtain ⟨hescape, hline, body, hbody, rfl, rfl⟩ := ih hr
    exact ⟨hescape, hline, _, .escape c hbody, rfl, rfl⟩
  | case4 => cases h
  | case5 r hbackslash hmore hline =>
    cases h
    refine ⟨?_, hline, [], .nil, rfl, rfl⟩
    rintro rfl
    cases b with
    | nil => exact hbackslash rfl rfl
    | cons d r => exact hmore d r rfl rfl
  | case6 c r hbackslash hmore hnewline hquote ih =>
    obtain ⟨⟨a', b'⟩, hr, he⟩ := Option.map_eq_some_iff.1 h
    cases he
    obtain ⟨hescape, hline, body, hbody, rfl, rfl⟩ := ih hr
    refine ⟨hescape, hline, _, .plain ⟨hquote, ?_, hnewline⟩ hbody, rfl, rfl⟩
    rintro rfl
    cases hr' : body ++ q :: b with
    | nil => exact hbackslash rfl hr'
    | cons d r => exact hmore d r rfl hr'

/-- **A quoted literal is read up to its quote**. -/
theorem quoted_eq_some_iff {q : Char} (hescape : q ≠ '\\') (hline : q ≠ '\n') {s a b : Text} :
    quoted q s = some (a, b) ↔ ∃ body, QuotedBody q body ∧ a = body ++ [q] ∧ s = body ++ q :: b := by
  refine ⟨fun h => (quotedBody_of_quoted h).2.2, ?_⟩
  rintro ⟨body, hbody, rfl, rfl⟩
  induction hbody with
  | nil =>
    rw [List.nil_append, quoted_cons hescape, if_neg hline, if_pos rfl]
    rfl
  | escape c _ ih =>
    rw [List.cons_append, List.cons_append, quoted, ih]
    rfl
  | plain hc _ ih =>
    rw [List.cons_append, quoted_cons hc.2.1, if_neg hc.2.2, if_neg hc.1, ih]
    rfl

/-- A quoted literal ends at its quote, whatever follows it. -/
theorem quoted_behind {q : Char} {s a b : Text} (h : quoted q s = some (a, b)) (b' : Text) :
    quoted q (a ++ b') = some (a, b') := by
  obtain ⟨hescape, hline, body, hbody, rfl, -⟩ := quotedBody_of_quoted h
  refine (quoted_eq_some_iff hescape hline).2 ⟨body, hbody, rfl, ?_⟩
  rw [List.append_assoc, List.singleton_append]

namespace Indented

theorem tripleQuoted_cons {q c : Char} (hc : c ≠ '\\') (r : Text) :
    tripleQuoted q (c :: r) =
      match Text.dropLead? [q, q, q] (c :: r) with
      | some rest => some ([q, q, q], rest)
      | none => (tripleQuoted q r).map fun (inner, rest) => (c :: inner, rest) := by
  rewrite [tripleQuoted]
  · rfl
  · exact fun h _ => hc h
  · exact fun _ _ h _ => hc h

end Indented

end Source

end Scholia
