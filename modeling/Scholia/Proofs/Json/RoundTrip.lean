import Mathlib.Data.Option.Basic
import Scholia.Json.Decode
import Scholia.Json.Render
import Scholia.Proofs.Text.Join
/-!
# JSON text read back

What `render` writes of a value is read as that value. Of numbers a value has literals, so it is
asked of them that they are numbers of JSON (`Spelled`); a natural number in digits is one, and is
read as itself (`asNat_ofNat`).

**The law** (`parse?_render`): a value without other numbers is read back.
-/

namespace Scholia.Json

/-! ## Strings -/

/-- Whether a character is written as its number. -/
def isNumbered (c : Char) : Bool :=
  c.toNat < 0x20 && !(c == '\n' || c == '\r' || c == '\t' || c == '\x08' || c == '\x0c')

/-- What a character of a string is read as, before units are joined. -/
def unitOf (c : Char) : Char ⊕ Nat :=
  if isNumbered c then .inr c.toNat else .inl c

/-- **An escaped character is read as one unit**. -/
theorem stringUnits_escape (c : Char) (s : Text) :
    stringUnits (escape c ++ s) =
      (stringUnits s).map fun read => (unitOf c :: read.1, read.2) := by
  have hshort : ∀ d e : Char, d ≠ 'u' → shortEscape? d = some e → unitOf e = .inl e →
      stringUnits ('\\' :: d :: s) = (stringUnits s).map fun read => (unitOf e :: read.1, read.2) := by
    intro d e hd he hunit
    rw [stringUnits, he, hunit]
    · cases stringUnits s <;> rfl
    · intro a b c d' r h
      exact absurd h hd
  unfold escape
  split
  · next h => exact h ▸ hshort '"' '"' (by decide) rfl rfl
  split
  · next h => exact h ▸ hshort '\\' '\\' (by decide) rfl rfl
  split
  · next h => exact h ▸ hshort 'n' '\n' (by decide) rfl rfl
  split
  · next h => exact h ▸ hshort 'r' '\r' (by decide) rfl rfl
  split
  · next h => exact h ▸ hshort 't' '\t' (by decide) rfl rfl
  split
  · next h => exact h ▸ hshort 'b' '\x08' (by decide) rfl rfl
  split
  · next h => exact h ▸ hshort 'f' '\x0c' (by decide) rfl rfl
  split
  · next hn hr ht hb hf h =>
    have hhex : hexUnit? '0' '0' (Text.hexLetter (c.toNat / 16)) (Text.hexLetter (c.toNat % 16)) =
        some c.toNat := by
      rw [hexUnit?, Text.hexDigit?_hexLetter (show c.toNat / 16 < 16 by omega),
        Text.hexDigit?_hexLetter (show c.toNat % 16 < 16 by omega)]
      show some _ = some _
      congr 1
      show 0 * 0x1000 + 0 * 0x100 + c.toNat / 16 * 0x10 + c.toNat % 16 = c.toNat
      omega
    have hunit : unitOf c = .inr c.toNat := if_pos (by simp [isNumbered, h, hn, hr, ht, hb, hf])
    show stringUnits ('\\' :: 'u' :: '0' :: '0' :: _ :: _ :: s) = _
    rw [stringUnits, hhex, hunit]
    cases stringUnits s <;> rfl
  · next hquote hslash _ _ _ _ _ h =>
    have hunit : unitOf c = .inl c := if_neg (by simp [isNumbered, h])
    have hplain : (decide (c.toNat ≥ 0x20) && c != '\\') = true := by simp [hslash]; omega
    rw [List.singleton_append, stringUnits, hunit, hplain]
    · cases stringUnits s <;> rfl
    all_goals grind

/-- **A string is read up to its closing quote**. -/
theorem stringUnits_quoted (s rest : Text) :
    stringUnits (s.flatMap escape ++ '"' :: rest) = some (s.map unitOf, rest) := by
  induction s with
  | nil => rfl
  | cons c s ih =>
    rw [List.flatMap_cons, List.append_assoc, stringUnits_escape, ih]
    rfl

/-- **The units of a text make it up**. -/
theorem textOfUnits?_map (s : Text) : textOfUnits? (s.map unitOf) = some s := by
  induction s with
  | nil => rfl
  | cons c s ih =>
    rw [List.map_cons]
    cases hc : isNumbered c with
    | false =>
      rw [show unitOf c = .inl c from if_neg (by simp [hc]), textOfUnits?, ih]
      rfl
    | true =>
      have hsmall : c.toNat < 0x20 := by
        have hnumbered := hc
        rw [isNumbered, Bool.and_eq_true, decide_eq_true_iff] at hnumbered
        exact hnumbered.1
      have hread : (textOfUnits? (s.map unitOf)).map (Char.ofNat c.toNat :: ·) = some (c :: s) := by
        rw [ih, Char.ofNat_toNat]
        rfl
      rw [show unitOf c = .inr c.toNat from if_pos hc]
      -- a number below the surrogates joins no other
      cases htail : s.map unitOf with
      | nil =>
        rw [htail] at hread
        rw [textOfUnits?, if_neg (by simp; omega), hread]
        exact nofun
      | cons unit units =>
        rw [htail] at hread
        cases unit with
        | inl d =>
          rw [textOfUnits?, if_neg (by simp; omega), hread]
          exact nofun
        | inr n => rw [textOfUnits?, if_neg (by simp; omega), if_neg (by simp; omega), hread]

/-- No line ends inside a string. -/
theorem not_newline_quote (t : Text) : '\n' ∉ quote t := by
  have hdigit : ∀ {n : Nat}, n < 16 → '\n' ≠ Text.hexLetter n := by
    intro n hn he
    have hread := Text.hexDigit?_hexLetter hn
    rw [← he] at hread
    cases hread
  have hescape : ∀ c, '\n' ∉ escape c := by
    intro c
    unfold escape
    split_ifs with _ _ hline <;> simp only [List.mem_cons, List.not_mem_nil]
    all_goals grind
  simp [quote, hescape]

/-! ## Numbers -/

/-- What may stand behind a value. -/
def Closes (rest : Text) : Prop :=
  rest = [] ∨ ∃ c w, rest = c :: w ∧ (c = ',' ∨ c = ']' ∨ c = '}')

variable {s f r rest : Text} {c : Char}

theorem digits?_append (hc : c.isDigit = false) (w : Text) (h : digits? s = some (f, r)) :
    digits? (s ++ c :: w) = some (f, r ++ c :: w) := by
  rw [digits?] at h ⊢
  rw [Text.takeWhile_stop hc, Text.dropWhile_stop hc]
  split at h
  · cases h
  · cases h
    rfl

theorem wholeDigits?_append (hc : c.isDigit = false) (w : Text) (h : wholeDigits? s = some (f, r)) :
    wholeDigits? (s ++ c :: w) = some (f, r ++ c :: w) := by
  match s with
  | [] => cases h
  | d :: s =>
    by_cases hd : d = '0'
    · subst hd
      rw [wholeDigits?] at h
      rw [List.cons_append, wholeDigits?]
      cases s with
      | nil =>
        cases h
        exact if_neg (by simp [hc])
      | cons e s =>
        rw [List.head?_cons] at h
        rw [List.cons_append, List.head?_cons]
        split at h
        · cases h
        · next hnot =>
          cases h
          exact if_neg hnot
    · rw [wholeDigits?] at h
      · rw [List.cons_append, wholeDigits?]
        · exact digits?_append hc w h
        · exact fun _ he => hd (List.cons.inj he).1
      · exact fun _ he => hd (List.cons.inj he).1

theorem fraction?_append (hc : c.isDigit = false) (hdot : c ≠ '.') (w : Text)
    (h : fraction? s = some (f, r)) : fraction? (s ++ c :: w) = some (f, r ++ c :: w) := by
  have hnone : ∀ t : Text, (∀ u, t = '.' :: u → False) → fraction? t = some ([], t) := by
    intro t ht
    rw [fraction?]
    exact ht
  match s with
  | [] =>
    cases h
    exact hnone _ fun _ he => hdot (List.cons.inj he).1
  | d :: s =>
    by_cases hd : d = '.'
    · subst hd
      obtain ⟨⟨found, rest⟩, hdigits, he⟩ := Option.map_eq_some_iff.1 h
      cases he
      exact Option.map_eq_some_iff.2 ⟨_, digits?_append hc w hdigits, rfl⟩
    · rw [hnone _ fun _ he => hd (List.cons.inj he).1] at h
      cases h
      exact hnone _ fun _ he => hd (List.cons.inj he).1

/-- The digits of an exponent, with what stands before them. -/
theorem map_digits?_append (hc : c.isDigit = false) (w lead : Text)
    (h : (digits? s).map (fun (found, rest) => (lead ++ found, rest)) = some (f, r)) :
    (digits? (s ++ c :: w)).map (fun (found, rest) => (lead ++ found, rest)) =
      some (f, r ++ c :: w) := by
  obtain ⟨⟨found, rest⟩, hdigits, he⟩ := Option.map_eq_some_iff.1 h
  cases he
  exact Option.map_eq_some_iff.2 ⟨_, digits?_append hc w hdigits, rfl⟩

theorem exponent?_append (hc : c.isDigit = false) (hexp : (c = 'e' || c = 'E') = false) (w : Text)
    (h : exponent? s = some (f, r)) : exponent? (s ++ c :: w) = some (f, r ++ c :: w) := by
  have hnone : ∀ (e : Char) (t : Text), (e = 'e' || e = 'E') = false →
      exponent? (e :: t) = some ([], e :: t) := by
    intro e t he
    unfold exponent?
    exact if_neg (by simpa using he)
  match s with
  | [] =>
    cases h
    exact hnone c w hexp
  | e :: s =>
    cases he : (e = 'e' || e = 'E') with
    | false =>
      rw [hnone e s he] at h
      cases h
      exact hnone e (s ++ c :: w) he
    | true =>
      unfold exponent? at h
      rw [List.cons_append]
      unfold exponent?
      dsimp only at h ⊢
      rw [if_pos he] at h ⊢
      match s with
      | [] => cases h
      | d :: s =>
        by_cases hplus : d = '+'
        · subst hplus
          exact map_digits?_append hc w [e, '+'] h
        by_cases hminus : d = '-'
        · subst hminus
          exact map_digits?_append hc w [e, '-'] h
        rw [List.cons_append]
        split at h
        · next heq => exact absurd (List.cons.inj heq).1 hplus
        · next heq => exact absurd (List.cons.inj heq).1 hminus
        split
        · next heq => exact absurd (List.cons.inj heq).1 hplus
        · next heq => exact absurd (List.cons.inj heq).1 hminus
        exact map_digits?_append hc w [e] h

/-- **A number is read as it is read alone**, before what may stand behind a value. -/
theorem number?_append (hrest : Closes rest) (h : number? s = some (f, r)) :
    number? (s ++ rest) = some (f, r ++ rest) := by
  rcases hrest with rfl | ⟨c, w, rfl, hclose⟩
  · rw [List.append_nil, List.append_nil]
    exact h
  have hc : c.isDigit = false := by rcases hclose with rfl | rfl | rfl <;> rfl
  have hdot : c ≠ '.' := by rcases hclose with rfl | rfl | rfl <;> decide
  have hexp : (c = 'e' || c = 'E') = false := by rcases hclose with rfl | rfl | rfl <;> rfl
  -- the sign is taken off on both sides
  have key : ∀ sign t, s = sign ++ t → s.take (if s.head? = some '-' then 1 else 0) = sign →
      (s ++ c :: w).take (if (s ++ c :: w).head? = some '-' then 1 else 0) = sign →
      number? (s ++ c :: w) = some (f, r ++ c :: w) := by
    rintro sign t rfl hsign hsign'
    rw [number?, hsign, List.drop_left] at h
    rw [number?, hsign', List.append_assoc, List.drop_left]
    obtain ⟨⟨whole, s₁⟩, hwhole, h⟩ := Option.bind_eq_some_iff.1 h
    obtain ⟨⟨fraction, s₂⟩, hfraction, h⟩ := Option.bind_eq_some_iff.1 h
    obtain ⟨⟨exponent, s₃⟩, hexponent, h⟩ := Option.bind_eq_some_iff.1 h
    cases h
    refine Option.bind_eq_some_iff.2 ⟨_, wholeDigits?_append hc w hwhole, ?_⟩
    refine Option.bind_eq_some_iff.2 ⟨_, fraction?_append hc hdot w hfraction, ?_⟩
    exact Option.bind_eq_some_iff.2 ⟨_, exponent?_append hc hexp w hexponent, rfl⟩
  match s with
  | [] => cases h
  | d :: t =>
    by_cases hd : d = '-'
    · subst hd
      exact key ['-'] t rfl rfl rfl
    · exact key [] (d :: t) rfl (by simp [hd]) (by simp [hd])

/-- A number begins with a sign or a digit. -/
theorem head_of_number? (h : number? s = some (f, r)) :
    ∃ d t, s = d :: t ∧ (d = '-' ∨ d.isDigit = true) := by
  match s with
  | [] => cases h
  | d :: t =>
    refine ⟨d, t, rfl, ?_⟩
    by_cases hd : d = '-'
    · exact .inl hd
    right
    rw [number?, List.head?_cons, if_neg (mt Option.some.inj hd), List.take_zero] at h
    obtain ⟨⟨whole, s₁⟩, hwhole, -⟩ := Option.bind_eq_some_iff.1 h
    by_cases hzero : d = '0'
    · rw [hzero]
      rfl
    · have hdigits : digits? (d :: t) = some (whole, s₁) := by
        rw [← hwhole]
        show _ = wholeDigits? (d :: t)
        rw [wholeDigits?]
        exact fun _ he => hzero (List.cons.inj he).1
      by_contra hnot
      rw [digits?, List.takeWhile_cons_of_neg hnot] at hdigits
      cases hdigits

/-! ## Numbers in digits -/

/-- No zero stands in front of another digit. -/
theorem head_ofNat {n : Nat} (hn : n ≠ 0) : (Text.ofNat n).head? ≠ some '0' := by
  induction n using Nat.strongRecOn with
  | ind n ih =>
    rw [Text.ofNat, Nat.toDigits_eq_if (by decide)]
    split
    · next hlt =>
      have hdigit : ∀ d < 10, d ≠ 0 → some (Nat.digitChar d) ≠ some '0' := by decide
      exact hdigit n hlt hn
    · next hle =>
      have hlead := ih (n / 10) (Nat.div_lt_self (Nat.pos_of_ne_zero hn) (by decide)) (by omega)
      obtain ⟨c, r, hcons⟩ := List.exists_cons_of_ne_nil (@Nat.toDigits_ne_nil (n / 10) 10)
      rw [Text.ofNat, hcons] at hlead
      rw [hcons]
      exact hlead

theorem digits?_ofNat (n : Nat) : digits? (Text.ofNat n) = some (Text.ofNat n, []) := by
  have htake := List.takeWhile_eq_self_iff.2 fun _ => @Text.isDigit_of_mem_ofNat n _
  have hdrop := List.dropWhile_eq_nil_iff.2 fun _ => @Text.isDigit_of_mem_ofNat n _
  rw [digits?, htake, hdrop]
  split
  · next hnil => exact absurd hnil Nat.toDigits_ne_nil
  · rfl

theorem wholeDigits?_ofNat (n : Nat) : wholeDigits? (Text.ofNat n) = some (Text.ofNat n, []) := by
  by_cases hn : n = 0
  · rw [hn]
    rfl
  · rw [wholeDigits?, digits?_ofNat]
    intro r hr
    exact head_ofNat hn (congrArg List.head? hr)

/-- A number in digits has no sign. -/
theorem head_ofNat_ne_minus (n : Nat) : (Text.ofNat n).head? ≠ some '-' := fun h =>
  absurd (Text.isDigit_of_mem_ofNat (List.mem_of_head? h)) (by decide)

/-- **A number in digits is a number of JSON**. -/
theorem number?_ofNat (n : Nat) : number? (Text.ofNat n) = some (Text.ofNat n, []) := by
  simp only [number?, if_neg (head_ofNat_ne_minus n), List.take_zero, List.length_nil,
    List.drop_zero, wholeDigits?_ofNat, List.nil_append]
  rw [Option.bind_eq_bind, Option.bind_some]
  exact congrArg (fun whole => some (whole, [])) ((List.append_nil _).trans (List.append_nil _))

theorem natOfDigits_ofNat (n : Nat) : natOfDigits (Text.ofNat n) = n := by
  have hstep : (fun n c => n * 10 + digitValue c) =
      fun n (c : Char) => 10 * n + (c.toNat - '0'.toNat) := by
    funext n c
    rw [digitValue, Nat.mul_comm]
  rw [natOfDigits, hstep]
  exact Nat.ofDigitChars_toDigits (by decide) (by decide)

/-- **A number in digits is read as the number**, if it keeps to the limit. -/
theorem asNat_ofNat {limit n : Nat} (h : n ≤ limit) :
    asNat limit (.number (Text.ofNat n)) = .ok n := by
  have hsign : ((Text.ofNat n).head? == some '-') = false :=
    beq_eq_false_iff_ne.2 (head_ofNat_ne_minus n)
  have htake := List.takeWhile_eq_self_iff.2 fun _ => @Text.isDigit_of_mem_ofNat n _
  have hliteral : Literal.ofText (Text.ofNat n) = ⟨false, Text.ofNat n, none, none⟩ := by
    simp only [Literal.ofText, hsign, Bool.false_eq_true, if_false, htake, List.drop_length,
      Option.elim, List.drop_nil]
  have hread : nat? limit (Text.ofNat n) = some n := by
    simp only [nat?, hliteral, natOfDigits_ofNat]
    exact if_neg (by simpa using h)
  rw [asNat, hread]
  rfl

/-! ## Values -/

mutual

/-- The numbers of a value are numbers of JSON. -/
def Spelled : Json → Prop
  | .number literal => number? literal = some (literal, [])
  | .array items => AllSpelled items
  | .object fields => FieldsSpelled fields
  | .null | .bool _ | .string _ => True

/-- The numbers of all items are numbers of JSON. -/
def AllSpelled : List Json → Prop
  | [] => True
  | item :: items => Spelled item ∧ AllSpelled items

/-- The numbers of all fields are numbers of JSON. -/
def FieldsSpelled : List (Text × Json) → Prop
  | [] => True
  | (_, value) :: fields => Spelled value ∧ FieldsSpelled fields

end

open Written (ofJson ofItems ofFields)

theorem skipSpace_cons (h : isSpace c = false) (s : Text) : skipSpace (c :: s) = c :: s :=
  List.dropWhile_cons_of_neg (by simp [h])

/-- **A string literal is read**, whatever follows it. -/
theorem writtenIn_quote (fuel : Nat) (t rest : Text) :
    writtenIn (fuel + 1) (quote t ++ rest) = (.string (some t), some rest) := by
  have hunits : stringUnits (t.flatMap escape ++ ['"'] ++ rest) = some (t.map unitOf, rest) := by
    rw [List.append_assoc]
    exact stringUnits_quoted t rest
  rw [quote, List.cons_append, List.cons_append, writtenIn, skipSpace_cons (by decide)]
  simp only [hunits, textOfUnits?_map]

/-- **A number is read**, before what may stand behind it. -/
theorem writtenIn_number (fuel : Nat) (h : number? s = some (s, [])) (hrest : Closes rest) :
    writtenIn (fuel + 1) (s ++ rest) = (.number s, some rest) := by
  have hread := number?_append hrest h
  obtain ⟨d, t, rfl, hd⟩ := head_of_number? h
  have hother : ∀ e : Char, e ≠ '-' → e.isDigit = false → d ≠ e := by
    rintro e hminus hdigit rfl
    rcases hd with rfl | hd
    · exact hminus rfl
    · rw [hd] at hdigit
      cases hdigit
  have hspace : isSpace d = false := by
    simp [isSpace, hother]
  rw [List.cons_append] at hread ⊢
  rw [writtenIn, skipSpace_cons hspace]
  split
  · next he => exact absurd (List.cons.inj he).1 (hother _ (by decide) rfl)
  · next he => exact absurd (List.cons.inj he).1 (hother _ (by decide) rfl)
  · next he => exact absurd (List.cons.inj he).1 (hother _ (by decide) rfl)
  · next he => exact absurd (List.cons.inj he).1 (hother _ (by decide) rfl)
  · next he => exact absurd (List.cons.inj he).1 (hother _ (by decide) rfl)
  · next he => exact absurd (List.cons.inj he).1 (hother _ (by decide) rfl)
  · rw [hread]
    rfl

/-- What is written of a value begins with no blank and closes no array. -/
theorem head_render {j : Json} (h : Spelled j) :
    ∃ d t, j.render = d :: t ∧ isSpace d = false ∧ d ≠ ']' := by
  cases j with
  | null => exact ⟨'n', _, rfl, by decide⟩
  | bool b => cases b <;> exact ⟨_, _, rfl, by decide⟩
  | number literal =>
    obtain ⟨d, t, rfl, hd⟩ := head_of_number? h
    refine ⟨d, t, rfl, ?_⟩
    rcases hd with rfl | hd
    · decide
    · constructor
      · by_contra hspace
        simp only [isSpace, Bool.not_eq_false, Bool.or_eq_true, beq_iff_eq] at hspace
        rcases hspace with ((rfl | rfl) | rfl) | rfl <;> cases hd
      · rintro rfl
        cases hd
  | string s => exact ⟨'"', _, rfl, by decide⟩
  | array items => exact ⟨'[', _, rfl, by decide⟩
  | object fields => exact ⟨'{', _, rfl, by decide⟩

/-- What is written of items begins with no blank and closes no array. -/
theorem head_items {item : Json} (h : Spelled item) (items : List Json) :
    ∃ d t, Text.join [','] (renderItems (item :: items)) = d :: t ∧ isSpace d = false ∧ d ≠ ']' := by
  obtain ⟨d, t, hhead, hd⟩ := head_render h
  rw [renderItems, hhead]
  cases items with
  | nil => exact ⟨d, t, Text.join_singleton _ _, hd⟩
  | cons next items => exact ⟨d, _, Text.join_cons (List.cons_ne_nil _ _) _, hd⟩

/-- What is written of fields begins with a quote. -/
theorem head_fields (field : Text × Json) (fields : List (Text × Json)) :
    ∃ t, Text.join [','] (renderFields (field :: fields)) = '"' :: t := by
  cases fields with
  | nil => exact ⟨_, Text.join_singleton _ _⟩
  | cons next fields => exact ⟨_, Text.join_cons (List.cons_ne_nil _ _) _⟩

/-- A bracket in front of items opens an array. -/
theorem writtenIn_bracket {d : Char} {t : Text} (hs : s = d :: t) (hspace : isSpace d = false)
    (hclose : d ≠ ']') (fuel : Nat) :
    writtenIn (fuel + 1) ('[' :: s) = (.array (itemsIn fuel s).1, (itemsIn fuel s).2) := by
  subst hs
  rw [writtenIn, skipSpace_cons (by decide)]
  simp only [skipSpace_cons hspace]
  split
  · next he => exact absurd (List.cons.inj he).1 hclose
  · rfl

/-- A brace in front of a name opens an object. -/
theorem writtenIn_brace {t : Text} (hs : s = '"' :: t) (fuel : Nat) :
    writtenIn (fuel + 1) ('{' :: s) = (.object (fieldsIn fuel s).1, (fieldsIn fuel s).2) := by
  subst hs
  rw [writtenIn, skipSpace_cons (by decide)]
  simp only [skipSpace_cons (show isSpace '"' = false from rfl)]
  rfl

mutual

/-- **A value is read back**, before what may stand behind it. -/
theorem writtenIn_render (j : Json) (hj : Spelled j) (fuel : Nat)
    (hfuel : 2 * j.render.length ≤ fuel) (rest : Text) (hrest : Closes rest) :
    writtenIn fuel (j.render ++ rest) = (ofJson j, some rest) := by
  obtain ⟨d, t, hhead, -⟩ := head_render hj
  obtain ⟨fuel, rfl⟩ : ∃ n, fuel = n + 1 := ⟨fuel - 1, by
    rw [hhead, List.length_cons] at hfuel
    omega⟩
  match j with
  | .null => rfl
  | .bool true => rfl
  | .bool false => rfl
  | .number literal => exact writtenIn_number fuel hj hrest
  | .string s => exact writtenIn_quote fuel s rest
  | .array [] => rfl
  | .object [] => rfl
  | .array (item :: items) =>
    have hitems := itemsIn_render item items hj fuel (by
      simp only [Json.render, List.length_append, List.length_cons, List.length_nil] at hfuel
      omega) rest
    obtain ⟨e, u, hfirst, hspace, hclose⟩ := head_items hj.1 items
    have hopen := writtenIn_bracket (congrArg (· ++ ']' :: rest) hfirst) hspace hclose fuel
    rw [hitems] at hopen
    rw [Json.render, List.append_assoc, List.cons_append]
    exact hopen
  | .object (field :: fields) =>
    have hfields := fieldsIn_render field fields hj fuel (by
      simp only [Json.render, List.length_append, List.length_cons, List.length_nil] at hfuel
      omega) rest
    obtain ⟨u, hfirst⟩ := head_fields field fields
    have hopen := writtenIn_brace (congrArg (· ++ '}' :: rest) hfirst) fuel
    rw [hfields] at hopen
    rw [Json.render, List.append_assoc, List.cons_append]
    exact hopen
termination_by fuel

/-- Items are read up to the bracket. -/
theorem itemsIn_render (item : Json) (items : List Json) (h : AllSpelled (item :: items))
    (fuel : Nat) (hfuel : 2 * (Text.join [','] (renderItems (item :: items))).length + 1 ≤ fuel)
    (rest : Text) :
    itemsIn fuel (Text.join [','] (renderItems (item :: items)) ++ ']' :: rest) =
      (ofItems (item :: items), some rest) := by
  obtain ⟨fuel, rfl⟩ : ∃ n, fuel = n + 1 := ⟨fuel - 1, by omega⟩
  match items with
  | [] =>
    rw [renderItems, renderItems, Text.join_singleton] at hfuel ⊢
    have hitem := writtenIn_render item h.1 fuel (by omega)
      (']' :: rest) (.inr ⟨_, _, rfl, .inr (.inl rfl)⟩)
    rw [itemsIn, hitem]
    simp only [skipSpace_cons (show isSpace ']' = false from rfl)]
    rfl
  | next :: items =>
    have hjoin : Text.join [','] (renderItems (item :: next :: items)) =
        item.render ++ ',' :: Text.join [','] (renderItems (next :: items)) :=
      Text.join_cons (List.cons_ne_nil _ _) _
    rw [hjoin] at hfuel ⊢
    rw [List.length_append, List.length_cons] at hfuel
    have hitem := writtenIn_render item h.1 fuel (by omega)
      (',' :: (Text.join [','] (renderItems (next :: items)) ++ ']' :: rest))
      (.inr ⟨_, _, rfl, .inl rfl⟩)
    have hitems := itemsIn_render next items h.2 fuel (by omega) rest
    rw [List.append_assoc, List.cons_append, itemsIn, hitem]
    simp only [skipSpace_cons (show isSpace ',' = false from rfl), hitems]
    rfl
termination_by fuel

/-- Fields are read up to the brace. -/
theorem fieldsIn_render (field : Text × Json) (fields : List (Text × Json))
    (h : FieldsSpelled (field :: fields)) (fuel : Nat)
    (hfuel : 2 * (Text.join [','] (renderFields (field :: fields))).length + 1 ≤ fuel)
    (rest : Text) :
    fieldsIn fuel (Text.join [','] (renderFields (field :: fields)) ++ '}' :: rest) =
      (ofFields (field :: fields), some rest) := by
  obtain ⟨fuel, rfl⟩ : ∃ n, fuel = n + 1 := ⟨fuel - 1, by omega⟩
  obtain ⟨name, value⟩ := field
  -- the name takes one step less than is left, of which there is at least one
  have hname : ∀ after : Text, 0 < fuel → writtenIn fuel (quote name ++ after) =
      (.string (some name), some after) := by
    intro after hpos
    obtain ⟨fuel, rfl⟩ : ∃ n, fuel = n + 1 := ⟨fuel - 1, by omega⟩
    exact writtenIn_quote fuel name after
  match fields with
  | [] =>
    rw [renderFields, renderFields, Text.join_singleton] at hfuel ⊢
    rw [List.length_append, List.length_cons] at hfuel
    have hvalue := writtenIn_render value h.1 fuel (by omega)
      ('}' :: rest) (.inr ⟨_, _, rfl, .inr (.inr rfl)⟩)
    rw [List.append_assoc, List.cons_append, fieldsIn, hname _ (by omega)]
    simp only [skipSpace_cons (show isSpace ':' = false from rfl), hvalue,
      skipSpace_cons (show isSpace '}' = false from rfl)]
    rfl
  | next :: fields =>
    have hjoin : Text.join [','] (renderFields ((name, value) :: next :: fields)) =
        quote name ++ ':' :: value.render ++
          ',' :: Text.join [','] (renderFields (next :: fields)) :=
      Text.join_cons (List.cons_ne_nil _ _) _
    rw [hjoin] at hfuel ⊢
    rw [List.length_append, List.length_append, List.length_cons, List.length_cons] at hfuel
    have hvalue := writtenIn_render value h.1 fuel (by omega)
      (',' :: (Text.join [','] (renderFields (next :: fields)) ++ '}' :: rest))
      (.inr ⟨_, _, rfl, .inl rfl⟩)
    have hfields := fieldsIn_render next fields h.2 fuel (by omega) rest
    rw [List.append_assoc, List.append_assoc, List.cons_append, List.cons_append, fieldsIn,
      hname _ (by omega)]
    simp only [skipSpace_cons (show isSpace ':' = false from rfl), hvalue,
      skipSpace_cons (show isSpace ',' = false from rfl), hfields]
    rfl
termination_by fuel

end

/-- **A value is read back from what is written of it**, if its numbers are numbers of JSON. -/
theorem parse?_render {j : Json} (h : Spelled j) : parse? j.render = some j := by
  have hread := writtenIn_render j h (2 * j.render.length + 2) (by omega) [] (.inl rfl)
  rw [List.append_nil] at hread
  rw [parse?, written?, front, hread]
  exact Written.value?_ofJson j

end Scholia.Json
