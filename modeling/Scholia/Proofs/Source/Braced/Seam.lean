import Scholia.Proofs.Source.Braced.Grammar
/-!
# Seams

What is found at the front of a text does not depend on what stands far behind it. Most lexemes are
*sealed*: they end where they end. A line comment goes on to the end of its line, and code or a
literal may join with the next character, a quote or a slash; behind `@` a dollar sign hides one
more. So lexemes that end sealed can be cut out of a text and put before another rest.
-/

namespace Scholia.Source.Braced

open Layout (endsLine takeWhile_line endsLine_dropWhile)

variable {dialect : Dialect} {lexeme : Lexeme Kind} {lexemes : List (Lexeme Kind)} {s rest rest' : Text}

/-- Whether a lexeme ends where it ends, whatever follows it. -/
def Kind.isSealed : Kind → Bool
  | lineComment => false
  | literal => false
  | code => false
  | _ => true

/-- What a lexeme can see of the text behind it. -/
def ahead : Text → Text
  | [] => []
  | '$' :: c :: _ => ['$', c]
  | c :: _ => [c]

theorem head?_of_ahead {a b : Text} (h : ahead a = ahead b) : a.head? = b.head? := by
  have hhead : ∀ t : Text, (ahead t).head? = t.head? := by
    intro t
    unfold ahead
    split <;> rfl
  rw [← hhead a, ← hhead b, h]

theorem ahead_dollar {a : Text} {c : Char} {b : Text} (h : ahead a = ahead ('$' :: c :: b)) :
    ∃ b', a = '$' :: c :: b' := by
  rw [show ahead ('$' :: c :: b) = ['$', c] from rfl] at h
  unfold ahead at h
  split at h
  · cases h
  · cases h
    exact ⟨_, rfl⟩
  · cases h

/-! ## The front of a text -/

/-- What may stand behind a lexeme in place of something else: a character that could join with it stood
there before. A space joins with nothing. -/
structure Behind (rest rest' : Text) : Prop where
  ends : endsLine rest = true → endsLine rest' = true
  head : ∀ c r', rest' = c :: r' → c ≠ ' ' → rest.head? = some c
  signed : ∀ r', rest' = '$' :: '"' :: r' → ∃ r, rest = '$' :: '"' :: r

namespace Behind

theorem cons (h : Behind rest rest') {c : Char} {r : Text} (hr : c :: r = rest') (hc : c ≠ ' ') :
    ∃ r, rest = c :: r :=
  List.head?_eq_some_iff.1 (h.head c r hr.symm hc)

theorem of_ahead (h : ahead rest = ahead rest') : Behind rest rest' where
  ends hends := by
    have hhead := head?_of_ahead h
    cases rest' with
    | nil => rfl
    | cons d r' =>
      obtain ⟨r, rfl⟩ := List.head?_eq_some_iff.1 hhead
      exact hends
  head c r' hr _ := by
    rw [head?_of_ahead h, hr, List.head?_cons]
  signed r' hr := by
    subst hr
    exact ahead_dollar h

end Behind

/-- What opens a comment or a literal is no lexeme that is sealed. -/
theorem IsOpening.kind_eq {c : Char} {r : Text} (h : IsOpening dialect (c :: r)) :
    Kind.ofChar c = .code := by
  rcases h with ⟨t, ht⟩ | ⟨t, ht⟩ | ⟨t, ht⟩ | ⟨t, ht⟩ | ⟨-, ⟨t, ht⟩ | ⟨t, ht⟩⟩ <;>
    obtain ⟨rfl, -⟩ := List.cons.inj ht <;> decide

/-- No comment and no literal begins with a character with which none began before. -/
theorem IsOpening.of_behind {c : Char} {r r' : Text} (hb : Behind r r')
    (h : IsOpening dialect (c :: r')) : IsOpening dialect (c :: r) := by
  rcases h with ⟨t, ht⟩ | ⟨t, ht⟩ | ⟨t, ht⟩ | ⟨t, ht⟩ | ⟨hdialect, ⟨t, ht⟩ | ⟨t, ht⟩⟩ <;>
    obtain ⟨rfl, hr⟩ := List.cons.inj ht
  · obtain ⟨t', rfl⟩ := hb.cons hr (by decide)
    exact .inl ⟨t', rfl⟩
  · obtain ⟨t', rfl⟩ := hb.cons hr (by decide)
    exact .inr (.inl ⟨t', rfl⟩)
  · exact .inr (.inr (.inl ⟨r, rfl⟩))
  · exact .inr (.inr (.inr (.inl ⟨r, rfl⟩)))
  · obtain ⟨t', rfl⟩ := hb.cons hr (by decide)
    exact .inr (.inr (.inr (.inr ⟨hdialect, .inl ⟨t', rfl⟩⟩)))
  · obtain ⟨t', rfl⟩ := hb.signed t hr.symm
    exact .inr (.inr (.inr (.inr ⟨hdialect, .inr ⟨t', rfl⟩⟩)))

/-- Only an empty string can be taken for the begin of a text block, by the quote behind it. -/
theorem tripleQuote_prefix_iff {body : Text} (hbody : QuotedBody '"' body) :
    tripleQuote <+: '"' :: (body ++ '"' :: rest) ↔ body = [] ∧ rest.head? = some '"' := by
  rw [tripleQuote, List.cons_prefix_cons, and_iff_right rfl]
  cases hbody with
  | nil =>
    rw [List.nil_append, List.cons_prefix_cons, and_iff_right rfl, and_iff_right rfl]
    cases rest with
    | nil => simp
    | cons c rest => simp [eq_comm]
  | escape c more => simp
  | plain hc more => simp [Ne.symm hc.1]

/-- **What a text begins with it begins with before another rest**, if it is sealed, or a line comment
at the end of its line, or cannot join with what stands there now. -/
theorem Begins.behind (h : Begins dialect s lexeme rest)
    (hb : lexeme.kind.isSealed = true ∨ lexeme.kind = .lineComment ∧ endsLine rest' = true ∨
      Behind rest rest') :
    Begins dialect (lexeme.text ++ rest') lexeme rest' := by
  have hliteral : lexeme.kind = .literal → rest.head? ≠ some '"' → rest'.head? ≠ some '"' := by
    intro hk hrest hquote
    rw [hk] at hb
    rcases hb with hb | ⟨hb, -⟩ | hb
    · cases hb
    · cases hb
    · obtain ⟨r', rfl⟩ := List.head?_eq_some_iff.1 hquote
      exact hrest (hb.head _ r' rfl (by decide))
  cases h with
  | @lineComment line _ hline hrest =>
    refine .lineComment hline ?_
    rcases hb with hb | ⟨-, hb⟩ | hb
    · cases hb
    · exact hb
    · exact hb.ends hrest
  | @blockComment inner _ hfirst =>
    have hbegins : Begins dialect ('/' :: '*' :: (inner ++ (['*', '/'] ++ rest'))) _ rest' :=
      .blockComment hfirst
    simpa using hbegins
  | @textBlock inner _ hfirst =>
    have hbegins : Begins dialect (tripleQuote ++ (inner ++ (tripleQuote ++ rest'))) _ rest' :=
      .textBlock hfirst
    simpa using hbegins
  | @string body _ hbody hblock =>
    have hbegins : Begins dialect ('"' :: (body ++ '"' :: rest'))
        ⟨.literal, '"' :: (body ++ ['"'])⟩ rest' := by
      refine .string hbody fun htriple => ?_
      rw [tripleQuote_prefix_iff hbody] at htriple hblock
      exact hliteral rfl (fun hquote => hblock ⟨htriple.1, hquote⟩) htriple.2
    simpa using hbegins
  | @character body _ hbody =>
    have hbegins : Begins dialect ('\'' :: (body ++ '\'' :: rest')) _ rest' := .character hbody
    simpa using hbegins
  | @verbatim sign body _ hdialect hsign hbody hrest =>
    have hbegins : Begins dialect (sign ++ (body ++ '"' :: rest')) _ rest' :=
      .verbatim hdialect hsign hbody (hliteral rfl hrest)
    simpa using hbegins
  | @char c _ hopen =>
    refine .char fun ho => hopen ?_
    rcases hb with hb | ⟨hb, -⟩ | hb
    · rw [show (⟨Kind.ofChar c, [c]⟩ : Lexeme Kind).kind = .code from ho.kind_eq] at hb
      cases hb
    · rw [show (⟨Kind.ofChar c, [c]⟩ : Lexeme Kind).kind = .code from ho.kind_eq] at hb
      cases hb
    · exact ho.of_behind hb

/-! ## Lexemes behind lexemes -/

theorem ahead_of_ne {c : Char} (hc : c ≠ '$') (b : Text) : ahead (c :: b) = [c] := by
  unfold ahead
  split
  · next he => cases he
  · next he => exact absurd (List.cons.inj he).1 hc
  · next he => rw [(List.cons.inj he).1]

/-- What is ahead ends after two characters, so only behind a lone dollar sign the rest is seen. -/
theorem ahead_append {text a b : Text} (hne : text ≠ []) (h : text = ['$'] → ahead a = ahead b) :
    ahead (text ++ a) = ahead (text ++ b) := by
  obtain ⟨c, more, rfl⟩ := List.exists_cons_of_ne_nil hne
  by_cases hc : c = '$'
  · subst hc
    cases more with
    | cons d more => rfl
    | nil =>
      have hhead := head?_of_ahead (h rfl)
      cases a with
      | nil =>
        cases b with
        | nil => rfl
        | cons d b => cases hhead
      | cons d a =>
        cases b with
        | nil => cases hhead
        | cons d' b =>
          cases hhead
          rfl
  · rw [List.cons_append, List.cons_append, ahead_of_ne hc, ahead_of_ne hc]

/-- A dollar sign on its own is no comment and not sealed. -/
theorem kind_of_dollar {c : Char} {r : Text} (h : front dialect c r = .found lexeme rest)
    (ht : lexeme.text = ['$']) : lexeme.kind = .code ∨ lexeme.kind = .literal := by
  have hkeeps := (front_keeps dialect c r lexeme rest h).1
  rw [ht] at hkeeps
  obtain ⟨rfl, -⟩ := List.cons.inj hkeeps
  rcases front_cases h with (hk | hk | hk) | ⟨rfl, -⟩
  · exact absurd (eq_of_front_comment h (.inl hk)) (by decide)
  · exact absurd (eq_of_front_comment h (.inr hk)) (by decide)
  · exact .inr hk
  · exact .inl (show Kind.ofChar '$' = .code by decide)

/-- What may follow lexemes in place of `rest`: anything behind a sealed one, a line end behind a
line comment, and whatever looks the same. -/
def Seam (lexemes : List (Lexeme Kind)) (rest rest' : Text) : Prop :=
  ∀ l, lexemes.getLast? = some l →
    l.kind.isSealed = true ∨ l.kind = .lineComment ∧ endsLine rest' = true ∨
      ahead rest = ahead rest'

/-- What may follow lexemes with the text of a dollar sign sees what follows them. -/
theorem Seam.of_dollar (hseam : Seam lexemes rest rest')
    (h : (rule dialect).Divides s lexemes rest) (ht : Lexeme.textOf lexemes = ['$']) :
    ahead rest = ahead rest' := by
  cases h with
  | stop => cases ht
  | @take c r l mid ls _ found more =>
    rw [Lexeme.textOf_cons] at ht
    have hlength := congrArg List.length ht
    rw [List.length_append, List.length_singleton] at hlength
    have hpos : 0 < l.text.length := List.length_pos_iff.2 ((rule dialect).takes c r l mid found)
    have hls : Lexeme.textOf ls = [] := List.eq_nil_of_length_eq_zero (by omega)
    obtain rfl : ls = [] := by
      cases ls with
      | nil => rfl
      | cons l' ls' =>
        have hwidth := more.width_pos List.mem_cons_self
        rw [Lexeme.textOf_cons, List.append_eq_nil_iff] at hls
        rw [hls.1] at hwidth
        exact absurd hwidth (Nat.lt_irrefl _)
    rw [hls, List.append_nil] at ht
    have hkind := kind_of_dollar found ht
    rcases hseam l rfl with hs | ⟨hk, -⟩ | hs
    · rcases hkind with hk | hk <;> rw [hk] at hs <;> cases hs
    · rcases hkind with hk' | hk' <;> rw [hk'] at hk <;> cases hk
    · exact hs

/-- **Lexemes that end at a seam can be put before another rest**. -/
theorem divides_behind (h : (rule dialect).Divides s lexemes rest)
    (hseam : Seam lexemes rest rest') :
    (rule dialect).Divides (Lexeme.textOf lexemes ++ rest') lexemes rest' := by
  induction h with
  | stop s => exact .stop rest'
  | @take c r l mid ls t found more ih =>
    have hseam' : Seam ls t rest' := by
      intro last hlast
      cases ls with
      | nil => cases hlast
      | cons l' ls' => exact hseam last hlast
    have hfront : l.kind.isSealed = true ∨
        l.kind = .lineComment ∧ endsLine (Lexeme.textOf ls ++ rest') = true ∨
        Behind mid (Lexeme.textOf ls ++ rest') := by
      cases hls : ls with
      | nil =>
        subst hls
        cases more
        exact (hseam l rfl).imp_right (.imp_right .of_ahead)
      | cons l' ls' =>
        refine .inr (.inr (.of_ahead ?_))
        rw [more.text, ← hls]
        refine ahead_append (fun he => ?_) (hseam'.of_dollar more)
        have hwidth := more.width_pos (hls ▸ List.mem_cons_self : l' ∈ ls)
        rw [hls, Lexeme.textOf_cons, List.append_eq_nil_iff] at he
        rw [he.1] at hwidth
        exact absurd hwidth (Nat.lt_irrefl _)
    obtain ⟨c', r', he, hfound⟩ := front_of_begins ((begins_of_front found).behind hfront)
    rw [Lexeme.textOf_cons, List.append_assoc, he]
    exact .take hfound (ih hseam')

end Scholia.Source.Braced
