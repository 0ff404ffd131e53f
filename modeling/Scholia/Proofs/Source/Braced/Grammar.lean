import Scholia.Proofs.Source.Division
import Scholia.Proofs.Source.Literal
import Scholia.Proofs.Text.Lines
import Scholia.Source.Braced.Nesting
/-!
# The lexical grammar of the brace languages

What comments and literals are, said without a scanner: `Begins` tells what a text begins with and
what follows it. The rule of a dialect finds exactly this (`scans_iff`), so the scan comes to the end
of a text exactly if every comment and literal that it meets has an end (`terminated_iff`).
-/

namespace Scholia.Source.Braced

open Layout (endsLine takeWhile_line endsLine_dropWhile)
open Text (IsFirst)

/-- The inside of a verbatim literal, in which quotes stand twice. -/
inductive VerbatimBody : Text → Prop
  | nil : VerbatimBody []
  | quote {body : Text} (more : VerbatimBody body) : VerbatimBody ('"' :: '"' :: body)
  | plain {c : Char} {body : Text} (hc : c ≠ '"') (more : VerbatimBody body) :
    VerbatimBody (c :: body)

/-- Three quotes, with which a text block begins and ends. -/
def tripleQuote : Text := ['"', '"', '"']

/-- A text begins with a comment or a literal, whether or not it ends. -/
def IsOpening (dialect : Dialect) (s : Text) : Prop :=
  ['/', '/'] <+: s ∨ ['/', '*'] <+: s ∨ ['"'] <+: s ∨ ['\''] <+: s ∨
    dialect = .cSharp ∧ (['@', '"'] <+: s ∨ ['@', '$', '"'] <+: s)

/-- What a text begins with, and what follows it. -/
inductive Begins (dialect : Dialect) : Text → Lexeme Kind → Text → Prop
  /-- A line comment goes to the end of its line. -/
  | lineComment {line rest : Text} (hline : ∀ c ∈ line, c ≠ '\n') (hrest : endsLine rest = true) :
    Begins dialect ('/' :: '/' :: (line ++ rest)) ⟨.lineComment, '/' :: '/' :: line⟩ rest
  /-- A block comment goes to the first mark of its end. -/
  | blockComment {inner rest : Text} (hfirst : IsFirst ['*', '/'] inner) :
    Begins dialect ('/' :: '*' :: (inner ++ (['*', '/'] ++ rest)))
      ⟨.blockComment, '/' :: '*' :: inner ++ ['*', '/']⟩ rest
  /-- A text block goes to the next three quotes. -/
  | textBlock {inner rest : Text} (hfirst : IsFirst tripleQuote inner) :
    Begins dialect (tripleQuote ++ (inner ++ (tripleQuote ++ rest)))
      ⟨.literal, tripleQuote ++ inner ++ tripleQuote⟩ rest
  | string {body rest : Text} (hbody : QuotedBody '"' body)
    (hblock : ¬ tripleQuote <+: '"' :: (body ++ '"' :: rest)) :
    Begins dialect ('"' :: (body ++ '"' :: rest)) ⟨.literal, '"' :: (body ++ ['"'])⟩ rest
  | character {body rest : Text} (hbody : QuotedBody '\'' body) :
    Begins dialect ('\'' :: (body ++ '\'' :: rest)) ⟨.literal, '\'' :: (body ++ ['\''])⟩ rest
  /-- A verbatim literal is known in C# alone. -/
  | verbatim {sign body rest : Text} (hdialect : dialect = .cSharp)
    (hsign : sign = ['@', '"'] ∨ sign = ['@', '$', '"']) (hbody : VerbatimBody body)
    (hrest : rest.head? ≠ some '"') :
    Begins dialect (sign ++ (body ++ '"' :: rest)) ⟨.literal, sign ++ (body ++ ['"'])⟩ rest
  /-- Every other character stands for itself. -/
  | char {c : Char} {rest : Text} (hopen : ¬ IsOpening dialect (c :: rest)) :
    Begins dialect (c :: rest) ⟨Kind.ofChar c, [c]⟩ rest

/-! ## Verbatim literals -/

theorem verbatim_cons {c : Char} (hc : c ≠ '"') (r : Text) :
    verbatim (c :: r) = (verbatim r).map fun (inner, rest) => (c :: inner, rest) := by
  rw [verbatim]
  · exact fun _ h => absurd h hc
  · exact fun h => absurd h hc

theorem verbatim_quote {r : Text} (h : r.head? ≠ some '"') :
    verbatim ('"' :: r) = some (['"'], r) := by
  rw [verbatim]
  rintro x rfl
  exact h rfl

/-- **A verbatim literal is read up to a quote that stands alone**. -/
theorem verbatim_eq_some_iff {s a b : Text} :
    verbatim s = some (a, b) ↔
      ∃ body, VerbatimBody body ∧ b.head? ≠ some '"' ∧ a = body ++ ['"'] ∧ s = body ++ '"' :: b := by
  constructor
  · intro h
    fun_induction verbatim s generalizing a with
    | case1 => cases h
    | case2 r ih =>
      obtain ⟨⟨a', b'⟩, hr, he⟩ := Option.map_eq_some_iff.1 h
      cases he
      obtain ⟨body, hbody, hb, rfl, rfl⟩ := ih hr
      exact ⟨_, .quote hbody, hb, rfl, rfl⟩
    | case3 r hmore =>
      cases h
      refine ⟨[], .nil, fun hb => ?_, rfl, rfl⟩
      obtain ⟨r, rfl⟩ := List.head?_eq_some_iff.1 hb
      exact hmore r rfl
    | case4 c r _ hquote ih =>
      obtain ⟨⟨a', b'⟩, hr, he⟩ := Option.map_eq_some_iff.1 h
      cases he
      obtain ⟨body, hbody, hb, rfl, rfl⟩ := ih hr
      exact ⟨_, .plain hquote hbody, hb, rfl, rfl⟩
  · rintro ⟨body, hbody, hb, rfl, rfl⟩
    induction hbody with
    | nil => exact verbatim_quote hb
    | quote _ ih =>
      rw [List.cons_append, List.cons_append, verbatim, ih]
      rfl
    | plain hc _ ih =>
      rw [List.cons_append, verbatim_cons hc, ih]
      rfl

/-! ## The front of a text -/

theorem front_other {c : Char} {r : Text}
    (hslash : c = '/' → r.head? ≠ some '/' ∧ r.head? ≠ some '*') (hquote : c ≠ '"')
    (hsingle : c ≠ '\'')
    (hat : c = '@' → r.head? ≠ some '"' ∧ ∀ x, r ≠ '$' :: '"' :: x) :
    front dialect c r = .found ⟨Kind.ofChar c, [c]⟩ r := by
  unfold front
  split
  · exact absurd rfl (hslash rfl).1
  · exact absurd rfl (hslash rfl).2
  · exact absurd rfl hquote
  · exact absurd rfl hquote
  · exact absurd rfl hsingle
  · exact absurd rfl (hat rfl).1
  · exact absurd rfl ((hat rfl).2 _)
  · rfl

theorem front_string {r : Text} (h : ∀ body, r ≠ '"' :: '"' :: body) :
    front dialect '"' r = literal ['"'] .string 0 (quoted '"' r) := by
  rewrite [front]
  all_goals
    first
    | rfl
    | exact fun body hbody => h body hbody

/-- A line comment may be given any text of its line. -/
theorem front_lineComment {x rest : Text} (hx : ∀ c ∈ x, c ≠ '\n') (hrest : endsLine rest = true) :
    front dialect '/' ('/' :: (x ++ rest)) = .found ⟨.lineComment, '/' :: '/' :: x⟩ rest := by
  obtain ⟨htake, hdrop⟩ := takeWhile_line hx hrest
  unfold front
  simp only [List.takeWhile_cons, List.dropWhile_cons, htake, hdrop]
  rfl

/-! ## The rule -/

/-- A text whose first character opens nothing. -/
theorem not_isOpening {dialect : Dialect} {c : Char} {r : Text}
    (hslash : ∀ r', c = '/' → r = '/' :: r' → False)
    (hstar : ∀ r', c = '/' → r = '*' :: r' → False) (hquote : c ≠ '"') (hcharacter : c ≠ '\'')
    (hverbatim : dialect = .cSharp → ∀ r', c = '@' → r = '"' :: r' → False)
    (hsigned : dialect = .cSharp → ∀ r', c = '@' → r = '$' :: '"' :: r' → False) :
    ¬ IsOpening dialect (c :: r) := by
  rintro (⟨r', h⟩ | ⟨r', h⟩ | ⟨r', h⟩ | ⟨r', h⟩ | ⟨hdialect, ⟨r', h⟩ | ⟨r', h⟩⟩) <;>
    obtain ⟨rfl, rfl⟩ := List.cons.inj h
  · exact hslash r' rfl rfl
  · exact hstar r' rfl rfl
  · exact hquote rfl
  · exact hcharacter rfl
  · exact hverbatim hdialect r' rfl rfl
  · exact hsigned hdialect r' rfl rfl

/-- Without verbatim literals the sign of one is a character of its own. -/
theorem begins_sign {dialect : Dialect} (h : dialect ≠ .cSharp) (r : Text) :
    Begins dialect ('@' :: r) ⟨.code, ['@']⟩ r :=
  .char (not_isOpening (fun _ hc => absurd hc (by decide)) (fun _ hc => absurd hc (by decide))
    (by decide) (by decide) (fun hd => absurd hd h) fun hd => absurd hd h)

/-- Two slashes begin a comment, whatever stands on their line. -/
theorem begins_line {dialect : Dialect} (r : Text) :
    Begins dialect ('/' :: '/' :: r) ⟨.lineComment, '/' :: '/' :: r.takeWhile (· != '\n')⟩
      (r.dropWhile (· != '\n')) := by
  have hbegins : Begins dialect
      ('/' :: '/' :: (r.takeWhile (· != '\n') ++ r.dropWhile (· != '\n'))) _ _ :=
    .lineComment (fun _ => Layout.ne_newline_of_mem_line) (endsLine_dropWhile r)
  rwa [List.takeWhile_append_dropWhile] at hbegins

/-- **What the rule finds is what the text begins with**. -/
theorem begins_of_front {dialect : Dialect} {c : Char} {r rest : Text} {lexeme : Lexeme Kind}
    (h : front dialect c r = .found lexeme rest) : Begins dialect (c :: r) lexeme rest := by
  unfold front at h
  split at h
  · next r' =>
    cases h
    exact begins_line r'
  · next body =>
    split at h
    · next inner rest' hcut =>
      cases h
      obtain ⟨rfl, hfirst⟩ := Text.cutAt?_eq_some_iff.1 hcut
      exact .blockComment hfirst
    · cases h
  · next body =>
    split at h
    · next inner rest' hcut =>
      cases h
      obtain ⟨rfl, hfirst⟩ := Text.cutAt?_eq_some_iff.1 hcut
      exact .textBlock hfirst
    · cases h
  · next hblock =>
    obtain ⟨inner, hquoted, rfl⟩ := literal_eq_found h
    obtain ⟨body, hbody, rfl, rfl⟩ := (quoted_eq_some_iff (by decide) (by decide)).1 hquoted
    refine .string hbody fun ⟨r', hr'⟩ => hblock r' ?_
    exact (List.cons.inj hr').2.symm
  · obtain ⟨inner, hquoted, rfl⟩ := literal_eq_found h
    obtain ⟨body, hbody, rfl, rfl⟩ := (quoted_eq_some_iff (by decide) (by decide)).1 hquoted
    exact .character hbody
  · next body =>
    split at h
    · next hdialect =>
      obtain ⟨inner, hverbatim, rfl⟩ := literal_eq_found h
      obtain ⟨body, hbody, hrest, rfl, rfl⟩ := verbatim_eq_some_iff.1 hverbatim
      exact .verbatim hdialect (.inl rfl) hbody hrest
    · next hdialect =>
      cases h
      exact begins_sign hdialect _
  · next body =>
    split at h
    · next hdialect =>
      obtain ⟨inner, hverbatim, rfl⟩ := literal_eq_found h
      obtain ⟨body, hbody, hrest, rfl, rfl⟩ := verbatim_eq_some_iff.1 hverbatim
      exact .verbatim hdialect (.inr rfl) hbody hrest
    · next hdialect =>
      cases h
      exact begins_sign hdialect _
  · next hquote hcharacter hslash hstar _ hverbatim hsigned =>
    cases h
    exact .char (not_isOpening hslash hstar hquote hcharacter (fun _ => hverbatim) fun _ => hsigned)

/-- A character that is a lexeme of its own is neither a comment nor a literal. -/
theorem Kind.ofChar_plain (c : Char) :
    ofChar c ≠ .lineComment ∧ ofChar c ≠ .blockComment ∧ ofChar c ≠ .literal := by
  unfold ofChar
  repeat' split
  all_goals simp

/-- A lexeme is a comment, a literal, or one character. -/
theorem front_cases {dialect : Dialect} {c : Char} {r : Text} {lexeme : Lexeme Kind} {rest : Text}
    (h : front dialect c r = .found lexeme rest) :
    (lexeme.kind = .lineComment ∨ lexeme.kind = .blockComment ∨ lexeme.kind = .literal) ∨
      lexeme = ⟨Kind.ofChar c, [c]⟩ ∧ rest = r := by
  have hbegins := begins_of_front h
  generalize hs : c :: r = s at hbegins
  cases hbegins with
  | lineComment => exact .inl (.inl rfl)
  | blockComment => exact .inl (.inr (.inl rfl))
  | char =>
    cases hs
    exact .inr ⟨rfl, rfl⟩
  | _ => exact .inl (.inr (.inr rfl))

theorem eq_of_front_comment {dialect : Dialect} {c : Char} {r rest : Text}
    {lexeme : Lexeme Kind} (h : front dialect c r = .found lexeme rest)
    (hk : lexeme.kind = .lineComment ∨ lexeme.kind = .blockComment) : c = '/' := by
  have hbegins := begins_of_front h
  generalize hs : c :: r = s at hbegins
  cases hbegins with
  | lineComment => exact (List.cons.inj hs).1
  | blockComment => exact (List.cons.inj hs).1
  | @char d =>
    obtain ⟨hline, hblock, -⟩ := Kind.ofChar_plain d
    rcases hk with hk | hk
    · exact absurd hk hline
    · exact absurd hk hblock
  | _ => rcases hk with hk | hk <;> cases hk

/-- A line comment is two slashes and the rest of its line. -/
theorem lineComment_of_front {dialect : Dialect} {c : Char} {r rest : Text} {lexeme : Lexeme Kind}
    (h : front dialect c r = .found lexeme rest) (hk : lexeme.kind = .lineComment) :
    ∃ x, c = '/' ∧ lexeme = ⟨.lineComment, '/' :: '/' :: x⟩ ∧ (∀ d ∈ x, d ≠ '\n') ∧
      endsLine rest = true := by
  have hbegins := begins_of_front h
  generalize hs : c :: r = s at hbegins
  cases hbegins with
  | @lineComment line _ hline hrest =>
    cases hs
    exact ⟨line, rfl, rfl, hline, hrest⟩
  | @char d => exact absurd hk (Kind.ofChar_plain d).1
  | _ => cases hk

/-- **What a text begins with is found by the rule**. -/
theorem front_of_begins {dialect : Dialect} {s rest : Text} {lexeme : Lexeme Kind}
    (h : Begins dialect s lexeme rest) :
    ∃ c r, s = c :: r ∧ front dialect c r = .found lexeme rest := by
  cases h with
  | @lineComment line _ hline hrest =>
    exact ⟨_, _, rfl, front_lineComment hline hrest⟩
  | @blockComment inner _ hfirst =>
    refine ⟨_, _, rfl, ?_⟩
    have hcut : Text.cutAt? ['*', '/'] (inner ++ (['*', '/'] ++ rest)) = some (inner, rest) :=
      Text.cutAt?_eq_some_iff.2 ⟨rfl, hfirst⟩
    simp only [front, hcut]
  | @textBlock inner _ hfirst =>
    refine ⟨'"', '"' :: '"' :: (inner ++ (['"', '"', '"'] ++ rest)), rfl, ?_⟩
    have hcut : Text.cutAt? ['"', '"', '"'] (inner ++ (['"', '"', '"'] ++ rest)) =
        some (inner, rest) := Text.cutAt?_eq_some_iff.2 ⟨rfl, hfirst⟩
    simp only [front, hcut]
    rfl
  | @string body _ hbody hblock =>
    refine ⟨_, _, rfl, ?_⟩
    have hquoted : quoted '"' (body ++ '"' :: rest) = some (body ++ ['"'], rest) :=
      (quoted_eq_some_iff (by decide) (by decide)).2 ⟨_, hbody, rfl, rfl⟩
    rw [front_string fun r hr => hblock ⟨r, by rw [hr]; rfl⟩, hquoted]
    rfl
  | @character body _ hbody =>
    refine ⟨_, _, rfl, ?_⟩
    have hquoted : quoted '\'' (body ++ '\'' :: rest) = some (body ++ ['\''], rest) :=
      (quoted_eq_some_iff (by decide) (by decide)).2 ⟨_, hbody, rfl, rfl⟩
    simp only [front, hquoted]
    rfl
  | @verbatim sign body _ hdialect hsign hbody hrest =>
    subst hdialect
    have hverbatim : verbatim (body ++ '"' :: rest) = some (body ++ ['"'], rest) :=
      verbatim_eq_some_iff.2 ⟨_, hbody, hrest, rfl, rfl⟩
    rcases hsign with rfl | rfl
    · refine ⟨'@', '"' :: (body ++ '"' :: rest), rfl, ?_⟩
      simp only [front, hverbatim]
      rfl
    · refine ⟨'@', '$' :: '"' :: (body ++ '"' :: rest), rfl, ?_⟩
      simp only [front, hverbatim]
      rfl
  | char hopen =>
    refine ⟨_, _, rfl, ?_⟩
    unfold front
    split
    · exact absurd (.inl ⟨_, rfl⟩) hopen
    · exact absurd (.inr (.inl ⟨_, rfl⟩)) hopen
    · exact absurd (.inr (.inr (.inl ⟨_, rfl⟩))) hopen
    · exact absurd (.inr (.inr (.inl ⟨_, rfl⟩))) hopen
    · exact absurd (.inr (.inr (.inr (.inl ⟨_, rfl⟩)))) hopen
    · rw [if_neg fun hd => hopen (.inr (.inr (.inr (.inr ⟨hd, .inl ⟨_, rfl⟩⟩))))]
      rfl
    · rw [if_neg fun hd => hopen (.inr (.inr (.inr (.inr ⟨hd, .inr ⟨_, rfl⟩⟩))))]
      rfl
    · rfl

/-! ## The scan -/

/-- From left to right these lexemes are taken, and the rest is left. -/
inductive Scans (dialect : Dialect) : Text → List (Lexeme Kind) → Text → Prop
  | stop (s : Text) : Scans dialect s [] s
  | take {s rest last : Text} {lexeme : Lexeme Kind} {lexemes : List (Lexeme Kind)}
    (begins : Begins dialect s lexeme rest) (more : Scans dialect rest lexemes last) :
    Scans dialect s (lexeme :: lexemes) last

variable {dialect : Dialect} {source rest : Text} {lexemes : List (Lexeme Kind)}

/-- **The scan is the division by the rule**. -/
theorem scans_iff : Scans dialect source lexemes rest ↔ (rule dialect).Divides source lexemes rest := by
  constructor
  · intro h
    induction h with
    | stop s => exact .stop s
    | take begins _ ih =>
      obtain ⟨c, r, rfl, hfront⟩ := front_of_begins begins
      exact .take hfront ih
  · intro h
    induction h with
    | stop s => exact .stop s
    | take found _ ih => exact .take (begins_of_front found) ih

/-- Every comment and every literal that the scan meets has an end. -/
def Terminated (dialect : Dialect) (source : Text) : Prop :=
  ∀ lexemes rest, Scans dialect source lexemes rest → IsOpening dialect rest →
    ∃ lexeme rest', Begins dialect rest lexeme rest'

/-- **The scan comes to the end of the text exactly if all comments and literals end**. -/
theorem terminated_iff : Terminated dialect source ↔ ∃ lexemes, Scans dialect source lexemes [] := by
  constructor
  · intro h
    induction hn : source.length using Nat.strongRecOn generalizing source with
    | ind n ih =>
      cases source with
      | nil => exact ⟨[], .stop []⟩
      | cons c r =>
        obtain ⟨lexeme, rest, hbegins⟩ : ∃ lexeme rest, Begins dialect (c :: r) lexeme rest := by
          by_cases hopen : IsOpening dialect (c :: r)
          · exact h [] (c :: r) (.stop _) hopen
          · exact ⟨_, _, .char hopen⟩
        obtain ⟨_, _, heq, hfront⟩ := front_of_begins hbegins
        have hshorter : rest.length < n := by
          have := (rule dialect).rest_shorter hfront
          rwa [← heq, hn] at this
        obtain ⟨lexemes, hscans⟩ := ih _ hshorter
          (fun lexemes last hlast => h _ last (.take hbegins hlast)) rfl
        exact ⟨_, .take hbegins hscans⟩
  · rintro ⟨whole, hwhole⟩ lexemes rest hscans hopen
    obtain ⟨behind, -, hbehind⟩ := (scans_iff.1 hscans).append_of_nil (scans_iff.1 hwhole)
    cases hbehind with
    | stop => simp [IsOpening] at hopen
    | take found _ => exact ⟨_, _, begins_of_front found⟩

end Scholia.Source.Braced
