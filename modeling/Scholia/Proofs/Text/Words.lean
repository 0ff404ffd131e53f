import Scholia.Proofs.Text.Reflow
import Scholia.Text.Word
/-!
# Texts with the same words

Such texts differ in blanks only, and not in where there is one. So they have the same other
characters, and each of these cuts them alike: what stands before it has the same words in both, and
so has what stands behind it (`words_cut`). A text on one line is the case in point
(`words_collapse`).
-/

namespace Scholia.Text

variable {c d : Char} {s t u v : Text}

/-- A character that is no blank. -/
def isInk (c : Char) : Bool :=
  !isBlank c

/-- Whether a text begins with a word. -/
def startsWord (s : Text) : Bool :=
  (s.head?.map isInk).getD false

/-! ## The first word -/

/-- A word goes on to the next blank. -/
theorem words_ink (hc : isBlank c = false) (s : Text) :
    words (c :: s) = (c :: s.takeWhile isInk) :: words (s.dropWhile isInk) := by
  have hword : ∀ d ∈ c :: s.takeWhile isInk, isBlank d = false := by
    refine List.forall_mem_cons.2 ⟨hc, fun d hd => ?_⟩
    have hink := List.mem_takeWhile_imp hd
    rwa [isInk, Bool.not_eq_true'] at hink
  have hfirst := words_word (List.cons_ne_nil c (s.takeWhile isInk)) hword
  conv => lhs; rw [← List.takeWhile_append_dropWhile (p := isInk) (l := s)]
  cases hrest : s.dropWhile isInk with
  | nil =>
    rw [List.append_nil, hfirst]
    rfl
  | cons x rest =>
    have hx : isBlank x = true := by
      have hhead := List.head?_dropWhile_not isInk s
      rw [hrest] at hhead
      simpa [isInk] using hhead
    rw [← List.cons_append, words_append hx, hfirst, words_cons hx]
    rfl

/-- The words of a text that may begin with one. -/
theorem words_start (s : Text) : words s =
    if startsWord s then s.takeWhile isInk :: words (s.dropWhile isInk) else words s := by
  cases s with
  | nil => rfl
  | cons c s =>
    cases hc : isBlank c with
    | true => simp [startsWord, isInk, hc]
    | false => simp [startsWord, isInk, hc, words_ink hc]

theorem startsWord_of_words (h : words s = []) (hs : s ≠ []) : startsWord s = false := by
  obtain ⟨c, r, rfl⟩ := List.exists_cons_of_ne_nil hs
  cases hc : isBlank c with
  | true => simp [startsWord, isInk, hc]
  | false =>
    rw [words_ink hc] at h
    cases h

/-- **Two words that begin alike go on alike**. -/
theorem words_ink_inj (hc : isBlank c = false) (hd : isBlank d = false) :
    words (c :: s) = words (d :: t) ↔ c = d ∧ words s = words t ∧ startsWord s = startsWord t := by
  have hstarts : ∀ s : Text, startsWord s = !(s.takeWhile isInk).isEmpty := by
    intro s
    cases s with
    | nil => rfl
    | cons c s => cases hc : isInk c <;> simp [startsWord, hc]
  constructor
  · intro h
    rw [words_ink hc, words_ink hd] at h
    obtain ⟨hfirst, hrest⟩ := List.cons.inj h
    obtain ⟨rfl, htake⟩ := List.cons.inj hfirst
    have hsame : startsWord s = startsWord t := by rw [hstarts, hstarts, htake]
    refine ⟨rfl, ?_, hsame⟩
    cases hs : startsWord s with
    | true => rw [words_start s, words_start t, ← hsame, hs, if_pos rfl, if_pos rfl, htake, hrest]
    | false =>
      have hstay : ∀ {s : Text}, startsWord s = false → s.dropWhile isInk = s := by
        intro s hs
        cases s with
        | nil => rfl
        | cons x s => exact List.dropWhile_cons_of_neg (by simpa [startsWord] using hs)
      rwa [hstay hs, hstay (hsame ▸ hs)] at hrest
  · rintro ⟨rfl, hwords, hsame⟩
    rw [words_ink hc, words_ink hc]
    cases hs : startsWord s with
    | true =>
      rw [words_start s, words_start t, ← hsame, hs, if_pos rfl, if_pos rfl] at hwords
      obtain ⟨htake, hrest⟩ := List.cons.inj hwords
      rw [htake, hrest]
    | false =>
      have hstay : ∀ {s : Text}, startsWord s = false →
          s.takeWhile isInk = [] ∧ s.dropWhile isInk = s := by
        intro s hs
        cases s with
        | nil => exact ⟨rfl, rfl⟩
        | cons x s =>
          have hx : ¬ isInk x = true := by simpa [startsWord] using hs
          exact ⟨List.takeWhile_cons_of_neg hx, List.dropWhile_cons_of_neg hx⟩
      obtain ⟨htake, hdrop⟩ := hstay hs
      obtain ⟨htake', hdrop'⟩ := hstay (hsame ▸ hs)
      rw [htake, hdrop, htake', hdrop', hwords]

/-! ## Cuts -/

/-- **A character that is no blank cuts texts with the same words alike**. -/
theorem words_cut (hc : isBlank c = false) (h : words (u ++ c :: v) = words t) :
    ∃ u' v', t = u' ++ c :: v' ∧ words u' = words u ∧ words v' = words v := by
  induction t generalizing u with
  | nil =>
    exfalso
    cases hx : u.dropWhile isBlank with
    | nil =>
      rw [Reflow.words_front (List.dropWhile_eq_nil_iff.1 hx), words_ink hc] at h
      cases h
    | cons x r =>
      have hxb : isBlank x = false := by
        have hhead := List.head?_dropWhile_not isBlank u
        rw [hx] at hhead
        simpa using hhead
      rw [← List.takeWhile_append_dropWhile (p := isBlank) (l := u), hx, List.append_assoc,
        Reflow.words_front fun d hd => List.mem_takeWhile_imp hd, List.cons_append, words_ink hxb] at h
      cases h
  | cons d t ih =>
    cases hd : isBlank d with
    | true =>
      rw [words_cons hd] at h
      obtain ⟨u', v', rfl, hu, hv⟩ := ih h
      exact ⟨d :: u', v', rfl, (words_cons hd u').trans hu, hv⟩
    | false =>
      -- the blanks before the first word of the other text are passed
      induction u with
      | nil =>
        obtain ⟨rfl, hwords, -⟩ := (words_ink_inj hc hd).1 h
        exact ⟨[], t, rfl, rfl, hwords.symm⟩
      | cons e u ihu =>
        cases he : isBlank e with
        | true =>
          rw [List.cons_append, words_cons he] at h
          obtain ⟨u', v', heq, hu, hv⟩ := ihu h
          exact ⟨u', v', heq, hu.trans (words_cons he u).symm, hv⟩
        | false =>
          obtain ⟨rfl, hwords, hstarts⟩ := (words_ink_inj he hd).1 h
          obtain ⟨u', v', rfl, hu, hv⟩ := ih hwords
          refine ⟨e :: u', v', rfl, (words_ink_inj he he).2 ⟨rfl, hu, ?_⟩, hv⟩
          have hink : ∀ w : Text, startsWord (c :: w) = true := fun w => by simp [startsWord, isInk, hc]
          cases u with
          | nil =>
            cases u' with
            | nil => rfl
            | cons x u' => exact startsWord_of_words hu (List.cons_ne_nil x u')
          | cons y u =>
            cases u' with
            | nil => exact (startsWord_of_words hu.symm (List.cons_ne_nil y u)).symm
            | cons x u' => exact hstarts.symm

/-- What the words of a text are made of. -/
theorem flatten_words (s : Text) : (words s).flatten = s.filter isInk := by
  have hparts : ∀ parts : List Text, (parts.filter (!·.isEmpty)).flatten = parts.flatten := by
    intro parts
    induction parts with
    | nil => rfl
    | cons part parts ih => cases part <;> simp [ih]
  rw [words, hparts]
  induction s with
  | nil => rfl
  | cons c s ih =>
    rw [splitWhere]
    cases hc : isBlank c with
    | true => simp [isInk, hc, ih]
    | false =>
      cases hs : splitWhere isBlank s with
      | nil => exact absurd hs (splitWhere_ne_nil _ _)
      | cons part parts =>
        rw [hs] at ih
        simpa [isInk, hc] using ih

theorem mem_of_words (hc : isBlank c = false) (h : words s = words t) : c ∈ s ↔ c ∈ t := by
  have hink : ∀ s : Text, c ∈ s ↔ c ∈ s.filter isInk := by
    intro s
    simp [isInk, hc]
  rw [hink s, hink t, ← flatten_words, ← flatten_words, h]

/-! ## A text on one line -/

theorem words_join {ws : List Text} (h : ∀ w ∈ ws, w ≠ [] ∧ ∀ c ∈ w, isBlank c = false) :
    words (join [' '] ws) = ws := by
  induction ws with
  | nil => rfl
  | cons w ws ih =>
    obtain ⟨⟨hne, hw⟩, hws⟩ := List.forall_mem_cons.1 h
    cases ws with
    | nil =>
      rw [show join [' '] [w] = w by simp [join]]
      exact words_word hne hw
    | cons w' ws =>
      rw [show join [' '] (w :: w' :: ws) = w ++ ' ' :: join [' '] (w' :: ws) by
        simp [join, List.intercalate], words_append (by decide), words_word hne hw, ih hws]
      rfl

/-- **On one line a text has the words that it had**. -/
theorem words_collapse (s : Text) : words (collapse s) = words s := by
  refine words_join fun w hw => ⟨?_, not_isBlank_of_mem_words hw⟩
  have hne := (List.mem_filter.1 hw).2
  simpa using hne

/-- The only blank in a text on one line is the space. -/
theorem mem_collapse {c : Char} {s : Text} (h : c ∈ collapse s) : c = ' ' ∨ isBlank c = false := by
  rcases mem_join h with hc | ⟨w, hw, hc⟩
  · exact .inl (List.mem_singleton.1 hc)
  · exact .inr (not_isBlank_of_mem_words hw c hc)

/-! ## Parentheses

Which parenthesis closes the first one is told by the parentheses alone, so texts with the same words
go on alike behind it. -/

/-- The parentheses in a text. -/
def parens (s : Text) : Text :=
  s.filter fun c => c == '(' || c == ')'

theorem parens_of_words (h : words s = words t) : parens s = parens t := by
  have hink : ∀ s : Text, parens s = parens (words s).flatten := by
    intro s
    rw [flatten_words, parens, parens, List.filter_filter]
    refine List.filter_congr fun c _ => ?_
    by_cases hopen : c = '('
    · subst hopen
      decide
    by_cases hclose : c = ')'
    · subst hclose
      decide
    simp [hopen, hclose]
  rw [hink s, hink t, h]

/-- What follows the parenthesis that closes the first one follows some text whose parentheses close
all but one. -/
theorem afterParen?_eq_some_iff {depth : Nat} : afterParen? depth s = some t ↔
    ∃ u, s = u ++ ')' :: t ∧ afterParen? depth (parens u ++ [')']) = some [] := by
  induction s generalizing depth with
  | nil =>
    constructor
    · intro h
      cases h
    · rintro ⟨u, h, -⟩
      cases u <;> cases h
  | cons c s ih =>
    -- a first character that is passed
    have hpass : ∀ {depth' : Nat},
        (∀ u : Text, afterParen? depth (parens (c :: u) ++ [')']) =
          afterParen? depth' (parens u ++ [')'])) →
        (c = ')' → afterParen? depth [')'] ≠ some []) →
        (afterParen? depth' s = some t ↔
          ∃ u, c :: s = u ++ ')' :: t ∧ afterParen? depth (parens u ++ [')']) = some []) := by
      intro depth' hsame hfirst
      rw [ih]
      constructor
      · rintro ⟨u, rfl, hu⟩
        exact ⟨c :: u, rfl, (hsame u).trans hu⟩
      · rintro ⟨u, hs, hu⟩
        cases u with
        | nil => exact absurd hu (hfirst (List.cons.inj hs).1)
        | cons d u =>
          obtain ⟨rfl, rfl⟩ := List.cons.inj hs
          exact ⟨u, rfl, (hsame u).symm.trans hu⟩
    by_cases hopen : c = '('
    · subst hopen
      rw [afterParen?_open]
      exact hpass (fun u => rfl) fun he => absurd he (by decide)
    by_cases hclose : c = ')'
    · subst hclose
      have hfirst : ∀ u : Text, parens (')' :: u) ++ [')'] = ')' :: (parens u ++ [')']) := fun u => rfl
      by_cases hdepth : depth ≤ 1
      · rw [afterParen?_last hdepth, Option.some.injEq]
        constructor
        · rintro rfl
          exact ⟨[], rfl, afterParen?_last hdepth []⟩
        · rintro ⟨u, hs, hu⟩
          cases u with
          | nil => exact (List.cons.inj hs).2
          | cons d u =>
            obtain ⟨rfl, rfl⟩ := List.cons.inj hs
            rw [hfirst, afterParen?_last hdepth] at hu
            simp at hu
      · rw [afterParen?_close (by omega)]
        refine hpass (fun u => ?_) fun _ => ?_
        · rw [hfirst, afterParen?_close (by omega)]
        · rw [afterParen?_close (by omega)]
          exact nofun
    · rw [afterParen?_plain hopen hclose]
      refine hpass (fun u => ?_) fun he => absurd he hclose
      rw [parens, List.filter_cons_of_neg (by simp [hopen, hclose])]
      rfl

/-- **Texts with the same words go on with the same words** behind the parenthesis that closes the
first one. -/
theorem exists_afterParen? {depth : Nat} {s' t : Text} (h : words s = words s')
    (hs : afterParen? depth s = some t) :
    ∃ t', afterParen? depth s' = some t' ∧ words t' = words t := by
  obtain ⟨u, rfl, hu⟩ := afterParen?_eq_some_iff.1 hs
  obtain ⟨u', t', rfl, hwords, ht'⟩ := words_cut (c := ')') (by decide) h
  rw [← parens_of_words hwords] at hu
  exact ⟨t', afterParen?_eq_some_iff.2 ⟨u', rfl, hu⟩, ht'⟩

/-! ## Trimmed texts -/

theorem trim_of_words_eq_nil (h : words s = []) : trim s = [] := by
  have hall : allBlank s = true := by
    refine List.all_eq_true.2 fun c hc => ?_
    cases hb : isBlank c with
    | true => rfl
    | false => exact absurd ((mem_of_words hb (t := []) h).1 hc) List.not_mem_nil
  rw [trim, trimStart_of_allBlank hall]
  rfl

/-- A trimmed text begins with its first word. -/
theorem takeWhile_trim_of_words {w : Text} {ws : List Text} (h : words s = w :: ws) :
    (trim s).takeWhile isInk = w := by
  have hsome : allBlank s = false := by
    cases hall : allBlank s with
    | false => rfl
    | true =>
      have hnone := Reflow.words_front (List.all_eq_true.1 hall) []
      rw [List.append_nil, h] at hnone
      cases hnone
  obtain ⟨lead, core, tail, hs, hstart, hend, -, hcore⟩ := trim_parts hsome
  have htrim : trim s = core := by rw [trim, hstart, hcore]
  have hlead : ∀ c ∈ lead, isBlank c = true := by
    obtain ⟨lead', hs', hlead'⟩ := append_trimStartWhere isBlank s
    rw [show trimStartWhere isBlank s = core ++ tail from hstart] at hs'
    rw [List.append_cancel_right (hs.symm.trans hs')]
    exact List.all_eq_true.1 hlead'
  have htail : ∀ c ∈ tail, isBlank c = true := by
    obtain ⟨tail', hs', htail'⟩ := trimEndWhere_append isBlank s
    rw [show trimEndWhere isBlank s = lead ++ core from hend, List.append_assoc] at hs'
    rw [List.append_cancel_left (List.append_cancel_left (hs.symm.trans hs'))]
    exact List.all_eq_true.1 htail'
  have hwords : words core = w :: ws := by
    rw [← h, hs, Reflow.words_front hlead, Reflow.words_back htail]
  rw [htrim]
  cases core with
  | nil => cases hwords
  | cons c core =>
    have hc : isBlank c = false := by
      have hhead := List.head?_dropWhile_not isBlank s
      rw [show s.dropWhile isBlank = (c :: core) ++ tail from hstart] at hhead
      simpa using hhead
    rw [words_ink hc] at hwords
    rw [List.takeWhile_cons_of_pos (by simp [isInk, hc])]
    exact (List.cons.inj hwords).1

/-- What a trimmed text begins with, its first word begins with, if there is no blank in it. -/
theorem prefix_trim_iff {p : Text} (hne : p ≠ []) (hp : ∀ c ∈ p, isBlank c = false) :
    p <+: trim s ↔ ∃ w ws, words s = w :: ws ∧ p <+: w := by
  cases hs : words s with
  | nil => simp [trim_of_words_eq_nil hs, hne]
  | cons w ws =>
    rw [← takeWhile_trim_of_words hs]
    constructor
    · rintro ⟨rest, hrest⟩
      refine ⟨_, ws, rfl, ?_⟩
      rw [← hrest, List.takeWhile_append_of_pos fun c hc => by simp [isInk, hp c hc]]
      exact List.prefix_append _ _
    · rintro ⟨w', ws', he, hprefix⟩
      obtain ⟨rfl, -⟩ := List.cons.inj he
      exact hprefix.trans (List.takeWhile_prefix _)

/-! ## Blanks and letters -/

/-- The code points of the blanks. -/
def blankCodes : List Nat :=
  [9, 10, 11, 12, 13, 0x20, 0x85, 0xA0, 0x1680, 0x2000, 0x2001, 0x2002, 0x2003, 0x2004, 0x2005,
    0x2006, 0x2007, 0x2008, 0x2009, 0x200A, 0x2028, 0x2029, 0x202F, 0x205F, 0x3000]

theorem toNat_of_isBlank (h : isBlank c = true) : c.toNat ∈ blankCodes := by
  simp only [isBlank, Bool.or_eq_true, Bool.and_eq_true, decide_eq_true_eq, beq_iff_eq] at h
  simp only [blankCodes, List.mem_cons, List.not_mem_nil, or_false]
  omega

/-- No blank is a letter or a digit. -/
theorem isAlphanumeric_of_isBlank (h : isBlank c = true) : isAlphanumeric c = false := by
  have hcodes : ∀ n ∈ blankCodes, isAlphanumeric (Char.ofNat n) = false := by decide +kernel
  have := hcodes _ (toNat_of_isBlank h)
  rwa [Char.ofNat_toNat] at this

/-- No blank is a word character. -/
theorem isWordChar_of_isBlank (h : isBlank c = true) : isWordChar c = false := by
  have hcodes : ∀ n ∈ blankCodes, isWordChar (Char.ofNat n) = false := by decide +kernel
  have := hcodes _ (toNat_of_isBlank h)
  rwa [Char.ofNat_toNat] at this

/-- A word ends where the text behind it begins with no word character. -/
theorem spanWord_append {word rest : Text} (hword : ∀ c ∈ word, isWordChar c = true)
    (hrest : ∀ c, rest.head? = some c → isWordChar c = false) :
    spanWord (word ++ rest) = (word, rest) := by
  have hstop : rest.takeWhile isWordChar = [] ∧ rest.dropWhile isWordChar = rest := by
    cases rest with
    | nil => exact ⟨rfl, rfl⟩
    | cons c rest =>
      have hc := hrest c rfl
      exact ⟨List.takeWhile_cons_of_neg (by simp [hc]), List.dropWhile_cons_of_neg (by simp [hc])⟩
  rw [spanWord, List.takeWhile_append_of_pos hword, List.dropWhile_append_of_pos hword, hstop.1,
    hstop.2, List.append_nil]

theorem isAlphanumeric_of_isAlphabetic (h : isAlphabetic c = true) : isAlphanumeric c = true := by
  unfold isAlphabetic at h
  unfold isAlphanumeric
  split at h
  · next hlt => rw [if_pos hlt, Char.isAlphanum, h, Bool.true_or]
  · next hge => rw [if_neg hge, h, Bool.true_or]

end Scholia.Text
