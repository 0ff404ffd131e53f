import Scholia.Proofs.Source.Procedural.Moves
import Scholia.Proofs.Text.Worn
/-!
# What stands behind the code of a line

A line ends a declaration or opens a lambda by its code alone: the comment behind it, and the blanks
before that, do not matter. It declares something by its code alone too, unless the comment takes part
in its attributes; so a line still declares what its code does.

Keywords are written in letters, and a blank or a quote is none. So a keyword is not found across the
end of the code.
-/

namespace Scholia.Source.Procedural

open Text (foldLatin sameFold dropKeyword? trimStart isBlank isWordChar allBlank)

variable {u v w tail x : Text} {words keywords : List Text} {c : Char}

/-! ## Keywords -/

/-- Keywords are written in letters. -/
def Lettered (words : List Text) : Prop :=
  words.all (fun word => !word.isEmpty && word.all fun k => (foldLatin k).isLower) = true

instance (words : List Text) : Decidable (Lettered words) :=
  inferInstanceAs (Decidable (_ = true))

theorem Lettered.word (h : Lettered words) : ∀ word ∈ words, word ≠ [] ∧
    ∀ k ∈ word, (foldLatin k).isLower = true := by
  intro word hword
  have hboth := List.all_eq_true.1 h word hword
  rw [Bool.and_eq_true, Bool.not_eq_true', List.isEmpty_eq_false_iff] at hboth
  exact hboth.imp_right List.all_eq_true.1

theorem lettered_procedureWords : Lettered procedureWords := by decide

theorem lettered_typeWords : Lettered typeWords := by decide

theorem lettered_modifierWords : Lettered modifierWords := by decide

theorem lettered_end : Lettered ["End".toList] := by decide

theorem lettered_as : Lettered ["As".toList] := by decide

theorem lettered_of : Lettered ["Of".toList] := by decide

/-- A character that is in no keyword and in no name. -/
structure IsApart (c : Char) : Prop where
  letter : (foldLatin c).isLower = false
  word : isWordChar c = false

theorem IsApart.quote : IsApart '\'' := ⟨by decide, by decide⟩

/-- The blanks by their code points. -/
def blankPoints : List Nat :=
  [9, 10, 11, 12, 13, 0x20, 0x85, 0xA0, 0x1680, 0x2000, 0x2001, 0x2002, 0x2003, 0x2004, 0x2005,
    0x2006, 0x2007, 0x2008, 0x2009, 0x200A, 0x2028, 0x2029, 0x202F, 0x205F, 0x3000]

theorem mem_blankPoints (h : isBlank c = true) : c.toNat ∈ blankPoints := by
  simp only [isBlank, Bool.or_eq_true, Bool.and_eq_true, decide_eq_true_eq, beq_iff_eq] at h
  simp only [blankPoints, List.mem_cons, List.not_mem_nil, or_false]
  omega

theorem IsApart.blank (h : isBlank c = true) : IsApart c := by
  have hall : ∀ n ∈ blankPoints, (foldLatin (Char.ofNat n)).isLower = false ∧
      isWordChar (Char.ofNat n) = false := by decide +kernel
  obtain ⟨hletter, hword⟩ := hall c.toNat (mem_blankPoints h)
  rw [Char.ofNat_toNat] at hletter hword
  exact ⟨hletter, hword⟩

theorem Lettered.sameFold (hw : Lettered words) (hc : IsApart c) :
    ∀ word ∈ words, ∀ k ∈ word, sameFold k c = false := by
  intro word hword k hk
  rw [Text.sameFold, beq_eq_false_iff_ne]
  intro he
  have hlower := (hw.word word hword).2 k hk
  rw [he, hc.letter] at hlower
  cases hlower

/-- A keyword does not go on behind a character that it does not have. -/
theorem dropKeyword?_append {word : Text} (hc : ∀ k ∈ word, sameFold k c = false) (u w : Text) :
    dropKeyword? word (u ++ c :: w) =
      (dropKeyword? word u).map fun (written, rest) => (written, rest ++ c :: w) := by
  induction word generalizing u with
  | nil => rfl
  | cons k ks ih =>
    obtain ⟨hk, hks⟩ := List.forall_mem_cons.1 hc
    cases u with
    | nil =>
      simp only [List.nil_append, dropKeyword?, hk]
      rfl
    | cons d u =>
      rw [List.cons_append, dropKeyword?, dropKeyword?, ih hks]
      cases sameFold k d with
      | true => cases dropKeyword? ks u <;> rfl
      | false => rfl

theorem allBlank_of_trimStart (h : trimStart u = []) : allBlank u = true := by
  rw [← Text.allBlank_trimStart, h]
  rfl

theorem trimStart_append (h : trimStart u ≠ []) (v : Text) :
    trimStart (u ++ v) = trimStart u ++ v := by
  have hne : (u.dropWhile isBlank).isEmpty = false := by
    simpa [trimStart, Text.trimStartWhere] using h
  rw [trimStart, Text.trimStartWhere, List.dropWhile_append, hne]
  rfl

theorem trimStart_blanks (h : allBlank tail = true) (v : Text) :
    trimStart (tail ++ v) = trimStart v :=
  List.dropWhile_append_of_pos (List.all_eq_true.1 h)

theorem trimStart_quote (w : Text) : trimStart ('\'' :: w) = '\'' :: w := rfl

/-! ## Ends of declarations -/

/-- What may stand behind the code of a line: blanks, and then a comment or nothing. -/
def IsTrailing (v : Text) : Prop :=
  ∃ tail r, v = tail ++ r ∧ allBlank tail = true ∧ (r = [] ∨ ∃ w, r = '\'' :: w)

theorem IsTrailing.blanks (h : allBlank v = true) : IsTrailing v :=
  ⟨v, [], (List.append_nil v).symm, h, .inl rfl⟩

theorem IsTrailing.comment (h : allBlank tail = true) (w : Text) : IsTrailing (tail ++ '\'' :: w) :=
  ⟨tail, _, rfl, h, .inr ⟨w, rfl⟩⟩

theorem IsTrailing.eq_nil_or_cons (h : IsTrailing v) : v = [] ∨ ∃ c w, v = c :: w ∧ IsApart c := by
  obtain ⟨tail, r, rfl, htail, hr⟩ := h
  cases tail with
  | cons c tail =>
    rw [allBlank, List.all_cons, Bool.and_eq_true] at htail
    exact .inr ⟨c, tail ++ r, rfl, .blank htail.1⟩
  | nil =>
    rcases hr with rfl | ⟨w, rfl⟩
    · exact .inl rfl
    · exact .inr ⟨'\'', w, rfl, .quote⟩

theorem IsTrailing.atWordEnd (h : IsTrailing v) : Text.atWordEnd v = true := by
  rcases h.eq_nil_or_cons with rfl | ⟨c, w, rfl, hc⟩
  · rfl
  · rw [Text.atWordEnd, hc.word]
    rfl

/-- Without the blanks before it, what stands behind code is a comment or nothing. -/
theorem IsTrailing.trimStart (h : IsTrailing v) :
    Text.trimStart v = [] ∨ ∃ w, Text.trimStart v = '\'' :: w := by
  obtain ⟨tail, r, rfl, htail, hr⟩ := h
  rw [trimStart_blanks htail]
  rcases hr with rfl | ⟨w, rfl⟩
  · exact .inl rfl
  · exact .inr ⟨w, rfl⟩

theorem IsTrailing.dropKeyword? {word : Text} (h : IsTrailing v)
    (hword : ∀ k ∈ word, (foldLatin k).isLower = true) (u : Text) :
    Text.dropKeyword? word (u ++ v) =
      (Text.dropKeyword? word u).map fun (written, rest) => (written, rest ++ v) := by
  rcases h.eq_nil_or_cons with rfl | ⟨c, w, rfl, hc⟩
  · simp
  · refine dropKeyword?_append (fun k hk => ?_) u w
    rw [sameFold, beq_eq_false_iff_ne]
    intro he
    have hlower := hword k hk
    rw [he, hc.letter] at hlower
    cases hlower

theorem findSome?_congr {α β : Type} {f g : α → Option β} {l : List α} (h : ∀ a ∈ l, f a = g a) :
    l.findSome? f = l.findSome? g := by
  induction l with
  | nil => rfl
  | cons a l ih =>
    obtain ⟨ha, hl⟩ := List.forall_mem_cons.1 h
    rw [List.findSome?_cons, List.findSome?_cons, ha, ih hl]

theorem leadingWord?_singleton (word s : Text) : leadingWord? [word] s =
    (dropKeyword? word s).bind fun (written, rest) =>
      if (rest.head?.map isBlank).getD false then some (written, trimStart rest) else none := by
  rw [leadingWord?, List.findSome?_cons]
  cases dropKeyword? word s with
  | none => rfl
  | some wr =>
    obtain ⟨written, rest⟩ := wr
    cases hr : (rest.head?.map isBlank).getD false <;> simp [hr]

/-- **What is told from the text behind a word does not depend on what stands behind the code**, if
nothing is told from that alone. -/
theorem leadingWord?_trailing {β : Type} {d : β} {f : Text × Text → β} {word : Text}
    (hword : Lettered [word]) (hv : IsTrailing v)
    (hmore : ∀ written r, f (written, r ++ v) = f (written, r))
    (hnil : ∀ written, f (written, []) = d) (hend : ∀ written, f (written, trimStart v) = d)
    (u : Text) : (leadingWord? [word] (u ++ v)).elim d f = (leadingWord? [word] u).elim d f := by
  rw [leadingWord?_singleton, leadingWord?_singleton,
    hv.dropKeyword? (hword.word word List.mem_cons_self).2]
  cases dropKeyword? word u with
  | none => rfl
  | some wr =>
    obtain ⟨written, rest⟩ := wr
    cases rest with
    | nil =>
      simp only [Option.map_some, Option.bind_some, List.nil_append]
      split
      · exact hend written
      · rfl
    | cons c rest =>
      cases hc : isBlank c with
      | false =>
        simp [hc]
      | true =>
        simp only [Option.map_some, Option.bind_some, List.cons_append, List.head?_cons,
          Option.getD_some, hc, if_true, Option.elim_some]
        rw [← List.cons_append]
        by_cases hr : trimStart (c :: rest) = []
        · have hblank : allBlank (c :: rest) = true := allBlank_of_trimStart hr
          rw [trimStart_blanks hblank, hr]
          exact (hend written).trans (hnil written).symm
        · rw [trimStart_append hr]
          exact hmore written _

/-- **A line ends a declaration by its code**. -/
theorem ending?_trailing (hk : Lettered keywords) (hv : IsTrailing v) (u : Text) :
    ending? keywords (u ++ v) = ending? keywords u := by
  let f : Text × Text → Option Text := fun (_, rest) => keywords.findSome? fun keyword => do
    let (written, rest) ← Text.dropKeyword? keyword rest
    guard (Text.atWordEnd rest)
    return written
  have hf (written : Text) {s : Text} (hs : s = [] ∨ ∃ w, s = '\'' :: w) : f (written, s) = none := by
    refine List.findSome?_eq_none_iff.2 fun keyword hkeyword => ?_
    obtain ⟨hne, hletters⟩ := hk.word keyword hkeyword
    obtain ⟨k, ks, rfl⟩ := List.exists_cons_of_ne_nil hne
    have hdrop : dropKeyword? (k :: ks) s = none := by
      rcases hs with rfl | ⟨w, rfl⟩
      · rfl
      · rw [dropKeyword?, hk.sameFold .quote _ hkeyword k List.mem_cons_self]
        rfl
    rw [hdrop]
    rfl
  have hmore (written r : Text) : f (written, r ++ v) = f (written, r) := by
    refine findSome?_congr fun keyword hkeyword => ?_
    rw [hv.dropKeyword? (hk.word keyword hkeyword).2]
    cases dropKeyword? keyword r with
    | none => rfl
    | some wr =>
      obtain ⟨written, rest⟩ := wr
      have hrest : Text.atWordEnd (rest ++ v) = Text.atWordEnd rest := by
        cases rest with
        | nil => exact hv.atWordEnd
        | cons d rest => rfl
      show (guard (Text.atWordEnd (rest ++ v) : Prop) : Option Unit).bind _ =
        (guard (Text.atWordEnd rest : Prop) : Option Unit).bind _
      rw [hrest]
  have hbind (o : Option (Text × Text)) : o.bind f = o.elim none f := by cases o <;> rfl
  show (leadingWord? ["End".toList] (trimStart (u ++ v))).bind f =
    (leadingWord? ["End".toList] (trimStart u)).bind f
  rw [hbind, hbind]
  by_cases hu : trimStart u = []
  · have hblank : allBlank u = true := allBlank_of_trimStart hu
    rw [trimStart_blanks hblank, hu]
    rcases hv.trimStart with hv | ⟨w, hv⟩
    · rw [hv]
    · rw [hv]
      rfl
  · rw [trimStart_append hu]
    exact leadingWord?_trailing lettered_end hv hmore (fun written => hf written (.inl rfl))
      (fun written => hf written hv.trimStart) _

/-! ## Lambdas -/

theorem afterParen?_of_allBlank {s : Text} (h : allBlank s = true) (depth : Nat) :
    Text.afterParen? depth s = none := by
  induction s with
  | nil => rfl
  | cons c s ih =>
    rw [allBlank, List.all_cons, Bool.and_eq_true] at h
    have hopen : c ≠ '(' := fun he => absurd (he ▸ h.1) (by decide)
    have hclose : c ≠ ')' := fun he => absurd (he ▸ h.1) (by decide)
    rw [Text.afterParen?_plain hopen hclose]
    exact ih h.2

theorem afterParen?_blanks (h : allBlank tail = true) (depth : Nat) (u : Text) :
    Text.afterParen? depth (u ++ tail) = (Text.afterParen? depth u).map (· ++ tail) := by
  induction u generalizing depth with
  | nil => exact afterParen?_of_allBlank h depth
  | cons c u ih =>
    simp only [List.cons_append, Text.afterParen?]
    split
    · exact ih _
    split
    · split
      · rfl
      · exact ih _
    · exact ih _

/-- A text is cut at the first character of its kind, in it or behind it. -/
theorem cutAt?_append (d : Char) (u v : Text) : Text.cutAt? [d] (u ++ v) =
    match Text.cutAt? [d] u with
    | some (a, b) => some (a, b ++ v)
    | none => (Text.cutAt? [d] v).map fun (a, b) => (u ++ a, b) := by
  induction u with
  | nil =>
    rw [List.nil_append]
    cases Text.cutAt? [d] v <;> rfl
  | cons c u ih =>
    by_cases hc : d = c
    · simp only [List.cons_append, Text.cutAt?, Text.dropLead?, if_pos hc]
    · simp only [List.cons_append, Text.cutAt?, Text.dropLead?, if_neg hc, ih]
      cases Text.cutAt? [d] u with
      | some ab => rfl
      | none => cases Text.cutAt? [d] v <;> rfl

theorem cutAt?_of_allBlank {d : Char} (hd : isBlank d = false) {s : Text} (h : allBlank s = true) :
    Text.cutAt? [d] s = none := by
  induction s with
  | nil => rfl
  | cons c s ih =>
    rw [allBlank, List.all_cons, Bool.and_eq_true] at h
    have hc : d ≠ c := fun he => by rw [he, h.1] at hd; cases hd
    rw [Text.cutAt?, Text.dropLead?, if_neg hc, ih h.2]
    rfl

section

variable (h : allBlank tail = true)

include h in
theorem trimStart_append_blanks (u : Text) :
    (∃ c x, trimStart u = c :: x ∧ trimStart (u ++ tail) = c :: (x ++ tail)) ∨
      trimStart u = [] ∧ trimStart (u ++ tail) = [] := by
  cases hu : trimStart u with
  | nil =>
    have hblank : allBlank u = true := allBlank_of_trimStart hu
    exact .inr ⟨rfl, by rw [trimStart_blanks hblank, Text.trimStart_of_allBlank h]⟩
  | cons c x =>
    refine .inl ⟨c, x, rfl, ?_⟩
    rw [trimStart_append (by simp [hu]), hu, List.cons_append]

include h in
theorem leadingWord?_blanks {β : Type} {d : β} {f : Text × Text → β} {word : Text}
    (hword : Lettered [word])
    (hmore : ∀ written r, f (written, r ++ tail) = f (written, r))
    (hnil : ∀ written, f (written, []) = d) (u : Text) :
    (leadingWord? [word] (trimStart (u ++ tail))).elim d f =
      (leadingWord? [word] (trimStart u)).elim d f := by
  rcases trimStart_append_blanks h u with ⟨c, x, hu, hu'⟩ | ⟨hu, hu'⟩
  · rw [hu, hu', ← List.cons_append]
    refine leadingWord?_trailing hword (.blanks h) hmore hnil (fun written => ?_) _
    rw [Text.trimStart_of_allBlank h, hnil]
  · rw [hu, hu']

/-- What may stand in parentheses behind a type, and behind them. -/
def isArgument (inner : Text) : Bool :=
  match leadingWord? ["Of".toList] (trimStart inner) with
  | none => false
  | some (_, inner) =>
    match Text.cutAt? [')'] inner with
    | some (_, rest) => allBlank rest
    | none => false

/-- What may stand behind the parameters of a lambda and the word before its type. -/
def isResult (rest : Text) : Bool :=
  let isTypeChar (c : Char) := isWordChar c || c == '.'
  !(rest.takeWhile isTypeChar).isEmpty &&
    match trimStart (rest.dropWhile isTypeChar) with
    | [] => true
    | '(' :: inner => isArgument inner
    | _ => false

theorem isLambdaTail_eq (s : Text) : isLambdaTail s = ((trimStart s).isEmpty ||
    (leadingWord? ["As".toList] (trimStart s)).elim false fun p => isResult p.2) := by
  rw [isLambdaTail]
  cases leadingWord? ["As".toList] (trimStart s) with
  | none => rfl
  | some wr => rfl

theorem isArgument_eq (inner : Text) : isArgument inner =
    (leadingWord? ["Of".toList] (trimStart inner)).elim false fun p =>
      (Text.cutAt? [')'] p.2).elim false fun q => allBlank q.2 := by
  rw [isArgument]
  cases leadingWord? ["Of".toList] (trimStart inner) with
  | none => rfl
  | some wr =>
    obtain ⟨written, inner⟩ := wr
    show (match Text.cutAt? [')'] inner with
      | some (_, rest) => allBlank rest
      | none => false) = _
    rw [Option.elim_some]
    cases Text.cutAt? [')'] inner <;> rfl

include h in
theorem isArgument_blanks (inner : Text) : isArgument (inner ++ tail) = isArgument inner := by
  rw [isArgument_eq, isArgument_eq]
  refine leadingWord?_blanks h lettered_of (fun written r => ?_) (fun _ => rfl) inner
  rw [cutAt?_append, cutAt?_of_allBlank (by decide) h]
  cases Text.cutAt? [')'] r with
  | none => rfl
  | some ab =>
    simp only [Option.elim_some, allBlank, List.all_append, show tail.all isBlank = true from h,
      Bool.and_true]

include h in
theorem takeWhile_blanks {p : Char → Bool} (hp : ∀ c, isBlank c = true → p c = false) (u : Text) :
    (u ++ tail).takeWhile p = u.takeWhile p := by
  cases tail with
  | nil => rw [List.append_nil]
  | cons c tail =>
    rw [allBlank, List.all_cons, Bool.and_eq_true] at h
    exact Text.takeWhile_stop (hp c h.1) u tail

include h in
theorem dropWhile_blanks {p : Char → Bool} (hp : ∀ c, isBlank c = true → p c = false) (u : Text) :
    (u ++ tail).dropWhile p = u.dropWhile p ++ tail := by
  cases tail with
  | nil => rw [List.append_nil, List.append_nil]
  | cons c tail =>
    rw [allBlank, List.all_cons, Bool.and_eq_true] at h
    exact Text.dropWhile_stop (hp c h.1) u tail

include h in
theorem isResult_blanks (rest : Text) : isResult (rest ++ tail) = isResult rest := by
  have htype : ∀ c, isBlank c = true → (isWordChar c || c == '.') = false := fun c hc => by
    rw [(IsApart.blank hc).word, Bool.false_or, beq_eq_false_iff_ne]
    exact fun he => absurd (he ▸ hc) (by decide)
  simp only [isResult, takeWhile_blanks h htype, dropWhile_blanks h htype]
  congr 1
  rcases trimStart_append_blanks h (rest.dropWhile fun c => isWordChar c || c == '.') with
    ⟨c, x, hu, hu'⟩ | ⟨hu, hu'⟩
  · rw [hu, hu']
    by_cases hc : c = '('
    · subst hc
      exact isArgument_blanks h x
    · split
      · next he => cases he
      · next he => exact absurd (List.cons.inj he).1 hc
      · split
        · next he => cases he
        · next he => exact absurd (List.cons.inj he).1 hc
        · rfl
  · rw [hu, hu']

include h in
/-- **What can follow the parameters of a lambda is told without the blanks at the end**. -/
theorem isLambdaTail_blanks (s : Text) : isLambdaTail (s ++ tail) = isLambdaTail s := by
  rw [isLambdaTail_eq, isLambdaTail_eq]
  have hempty : (trimStart (s ++ tail)).isEmpty = (trimStart s).isEmpty := by
    rcases trimStart_append_blanks h s with ⟨c, x, hs, hs'⟩ | ⟨hs, hs'⟩
    · rw [hs, hs', List.isEmpty_cons, List.isEmpty_cons]
    · rw [hs, hs']
  rw [hempty, leadingWord?_blanks h lettered_as (fun written r => isResult_blanks h r)
    fun _ => rfl]

/-- The keyword of a lambda of several lines, if it is one by what follows. -/
def lambdaBefore? (written rest : Text) : Option Text :=
  (guard (rest.head? == some '(') : Option Unit).bind fun _ =>
    (Text.afterParen? 0 rest).bind fun tail =>
      (guard (isLambdaTail tail) : Option Unit).bind fun _ => some written

include h in
theorem lambdaBefore?_blanks (written rest : Text) :
    lambdaBefore? written (trimStart (rest ++ tail)) = lambdaBefore? written (trimStart rest) := by
  rcases trimStart_append_blanks h rest with ⟨c, x, hu, hu'⟩ | ⟨hu, hu'⟩
  · rw [hu, hu', ← List.cons_append, lambdaBefore?, lambdaBefore?, afterParen?_blanks h]
    cases Text.afterParen? 0 (c :: x) with
    | none => rfl
    | some r =>
      rw [Option.map_some, Option.bind_some, Option.bind_some, isLambdaTail_blanks h]
      rfl
  · rw [hu, hu']

include h in
theorem lambdaAt?_blanks (s : Text) : lambdaAt? (s ++ tail) = lambdaAt? s := by
  refine findSome?_congr fun word hword => ?_
  rw [(IsTrailing.blanks h).dropKeyword? (lettered_procedureWords.word word hword).2]
  cases dropKeyword? word s with
  | none => rfl
  | some wr => exact lambdaBefore?_blanks h wr.1 wr.2

/-- **A line opens a lambda by its code**. -/
theorem firstLambda?_blanks (inWord : Bool) (u : Text) (h : allBlank tail = true) :
    firstLambda? inWord (u ++ tail) = firstLambda? inWord u := by
  induction u generalizing inWord with
  | nil =>
    rw [List.nil_append]
    induction tail generalizing inWord with
    | nil => rfl
    | cons c tail ih =>
      have hlambda : lambdaAt? (c :: tail) = none := lambdaAt?_blanks h []
      rw [allBlank, List.all_cons, Bool.and_eq_true] at h
      simp only [firstLambda?, hlambda, ite_self]
      exact ih h.2 _
  | cons c u ih =>
    rw [List.cons_append, firstLambda?, firstLambda?, ← List.cons_append, lambdaAt?_blanks h, ih]

end

/-! ## Declarations -/

/-- A text in which a word is behind another: what is told of the first does not depend on what stands
behind the text. -/
def IsSettled (s : Text) : Prop :=
  ∃ a c z, s = a ++ c :: z ∧ isBlank c = true ∧ trimStart z ≠ []

theorem isSettled_of_leadingWord? {s written rest : Text}
    (h : leadingWord? words s = some (written, rest)) (hrest : rest ≠ []) : IsSettled s := by
  obtain ⟨word, -, hword⟩ := List.exists_of_findSome?_eq_some h
  obtain ⟨⟨a, r⟩, hdrop, hr⟩ := Option.bind_eq_some_iff.1 hword
  have hs := Text.eq_of_dropKeyword? hdrop
  cases r with
  | nil => cases hr
  | cons c z =>
    simp only [List.head?_cons, Option.map_some, Option.getD_some] at hr
    cases hc : isBlank c with
    | false => simp [hc] at hr
    | true =>
      simp only [hc, if_true, Option.some.injEq, Prod.mk.injEq] at hr
      obtain ⟨rfl, rfl⟩ := hr
      have htrim : trimStart (c :: z) = trimStart z := List.dropWhile_cons_of_pos hc
      exact ⟨a, c, z, hs, hc, htrim ▸ hrest⟩

theorem IsSettled.leadingWord? {s : Text} (h : IsSettled s) (hw : Lettered words) (v : Text) :
    leadingWord? words (s ++ v) =
      (Procedural.leadingWord? words s).map fun (written, rest) => (written, rest ++ v) := by
  obtain ⟨a, c, z, rfl, hc, hz⟩ := h
  rw [Procedural.leadingWord?, Procedural.leadingWord?, List.map_findSome?]
  refine findSome?_congr fun word hword => ?_
  have hapart := hw.sameFold (.blank hc) word hword
  rw [Function.comp_apply, List.append_assoc, List.cons_append, dropKeyword?_append hapart,
    dropKeyword?_append hapart]
  cases dropKeyword? word a with
  | none => rfl
  | some wr =>
    obtain ⟨written, rest⟩ := wr
    have hne : trimStart (rest ++ c :: z) ≠ [] := by
      intro he
      have hblank := allBlank_of_trimStart he
      rw [allBlank, List.all_append, List.all_cons, Bool.and_eq_true, Bool.and_eq_true] at hblank
      exact hz (Text.trimStart_of_allBlank hblank.2.2)
    have hhead : ((rest ++ c :: z) ++ v).head? = (rest ++ c :: z).head? := by
      cases rest <;> rfl
    have hassoc : rest ++ c :: (z ++ v) = rest ++ c :: z ++ v := by simp
    simp only [Option.map_some, Option.bind_eq_bind, Option.bind_some, hassoc, hhead,
      trimStart_append hne]
    split <;> rfl

theorem IsSettled.ne_nil {s : Text} (h : IsSettled s) : s ≠ [] := by
  obtain ⟨a, c, z, rfl, -⟩ := h
  simp

theorem leadingWord?_cons_none (hw : Lettered words) {c : Char} (hc : (foldLatin c).isLower = false)
    (r : Text) : leadingWord? words (c :: r) = none := by
  refine leadingWord?_eq_none r fun word hword => ?_
  obtain ⟨hne, hletters⟩ := hw.word word hword
  obtain ⟨k, ks, rfl⟩ := List.exists_cons_of_ne_nil hne
  refine ⟨k, ks, rfl, ?_⟩
  rw [sameFold, beq_eq_false_iff_ne]
  intro he
  have hlower := hletters k List.mem_cons_self
  rw [he, hc] at hlower
  cases hlower

theorem spanModifiers_some {s written rest : Text}
    (h : leadingWord? modifierWords s = some (written, rest)) :
    spanModifiers s = (written :: (spanModifiers rest).1, (spanModifiers rest).2) := by
  rw [spanModifiers]
  split <;> simp_all

theorem spanModifiers_none {s : Text} (h : leadingWord? modifierWords s = none) :
    spanModifiers s = ([], s) := by
  rw [spanModifiers]
  split <;> simp_all

theorem dropAttributes_some {s rest : Text} (h : afterAttribute? s = some rest) :
    dropAttributes s = dropAttributes rest := by
  rw [dropAttributes]
  split <;> simp_all

theorem dropAttributes_none {s : Text} (h : afterAttribute? s = none) : dropAttributes s = s := by
  rw [dropAttributes]
  split <;> simp_all

/-- **The modifiers of a declaration are told without what stands behind it**. -/
theorem spanModifiers_append {s r : Text} {ms : List Text} (h : spanModifiers s = (ms, r))
    (hr : IsSettled r) (v : Text) : IsSettled s ∧ spanModifiers (s ++ v) = (ms, r ++ v) := by
  fun_induction spanModifiers s generalizing ms with
  | case1 s written rest hlead more rest' hmore ih =>
    cases h
    obtain ⟨hsettled, hspan⟩ := ih hmore
    have hs := isSettled_of_leadingWord? hlead hsettled.ne_nil
    refine ⟨hs, ?_⟩
    rw [spanModifiers_some (by rw [hs.leadingWord? lettered_modifierWords, hlead]; rfl), hspan]
  | case2 s hlead =>
    cases h
    refine ⟨hr, spanModifiers_none ?_⟩
    rw [hr.leadingWord? lettered_modifierWords, hlead]
    rfl

/-- So are its attributes, if a word follows them. -/
theorem dropAttributes_append {s x : Text} (h : dropAttributes s = x) (hne : x ≠ [])
    (hx : x.head? ≠ some '<') (v : Text) : s ≠ [] ∧ dropAttributes (s ++ v) = x ++ v := by
  fun_induction dropAttributes s with
  | case1 s rest hattribute ih =>
    obtain ⟨hrest, hdrop⟩ := ih h
    have happend : afterAttribute? (s ++ v) = some (rest ++ v) := by
      unfold afterAttribute? at hattribute
      split at hattribute
      · next r =>
        obtain ⟨⟨a, b⟩, hcut, hb⟩ := Option.map_eq_some_iff.1 hattribute
        rw [List.cons_append, afterAttribute?, cutAt?_append, hcut]
        cases hb
        exact congrArg some (trimStart_append hrest v)
      · cases hattribute
    refine ⟨fun he => ?_, (dropAttributes_some happend).trans hdrop⟩
    rw [he] at hattribute
    cases hattribute
  | case2 s hattribute =>
    subst h
    obtain ⟨c, r, rfl⟩ := List.exists_cons_of_ne_nil hne
    refine ⟨hne, dropAttributes_none ?_⟩
    unfold afterAttribute?
    split
    · next he =>
      cases he
      exact absurd rfl hx
    · rfl

theorem declarator?_eq_some_iff {d : Declarator} : declarator? keywords u = some d ↔
    ∃ r rest, spanModifiers (dropAttributes (trimStart u)) = (d.modifiers, r) ∧
      leadingWord? keywords r = some (d.keyword, rest) ∧ rest.takeWhile isWordChar = d.name ∧
      d.name ≠ [] := by
  have hunfold : declarator? keywords u =
      (leadingWord? keywords (spanModifiers (dropAttributes (trimStart u))).2).bind fun p =>
        if p.2.takeWhile isWordChar = [] then none
        else some ⟨(spanModifiers (dropAttributes (trimStart u))).1, p.1,
          p.2.takeWhile isWordChar⟩ := by
    refine congrArg (Option.bind _) (funext fun p => ?_)
    obtain ⟨keyword, rest⟩ := p
    show (guard (!(rest.takeWhile isWordChar).isEmpty) : Option Unit).bind _ = _
    cases rest.takeWhile isWordChar with
    | nil => rfl
    | cons c name => rfl
  rw [hunfold, Option.bind_eq_some_iff]
  constructor
  · rintro ⟨⟨keyword, rest⟩, hlead, h⟩
    by_cases hne : rest.takeWhile isWordChar = []
    · rw [if_pos hne] at h
      cases h
    · rw [if_neg hne] at h
      cases h
      exact ⟨_, rest, rfl, hlead, rfl, hne⟩
  · rintro ⟨r, rest, hspan, hlead, hname, hne⟩
    refine ⟨(d.keyword, rest), by rw [hspan, hlead], ?_⟩
    rw [if_neg (by rw [hname]; exact hne), hspan, hname]

/-- **A line declares what its code does**. -/
theorem declarator?_append {d : Declarator} (hk : Lettered keywords)
    (h : declarator? keywords u = some d) (hv : Text.atWordEnd v = true) :
    declarator? keywords (u ++ v) = some d := by
  obtain ⟨r, rest, hspan, hlead, hname, hne⟩ := declarator?_eq_some_iff.1 h
  have hrest : rest ≠ [] := fun he => hne (by rw [← hname, he]; rfl)
  have hr := isSettled_of_leadingWord? hlead hrest
  obtain ⟨hx, hspan'⟩ := spanModifiers_append hspan hr v
  have hhead : (dropAttributes (trimStart u)).head? ≠ some '<' := by
    intro he
    obtain ⟨t, ht⟩ := List.head?_eq_some_iff.1 he
    rw [ht, spanModifiers_none (leadingWord?_cons_none lettered_modifierWords (by decide) t)] at hspan
    obtain ⟨-, rfl⟩ := Prod.mk.inj hspan
    rw [leadingWord?_cons_none hk (by decide) t] at hlead
    cases hlead
  obtain ⟨hu, hdrop⟩ := dropAttributes_append rfl hx.ne_nil hhead v
  refine declarator?_eq_some_iff.2 ⟨r ++ v, rest ++ v, ?_, ?_, ?_, hne⟩
  · rw [trimStart_append hu, hdrop, hspan']
  · rw [hr.leadingWord? hk, hlead]
    rfl
  · rw [← hname]
    cases v with
    | nil => rw [List.append_nil]
    | cons c v =>
      refine Text.takeWhile_stop ?_ rest v
      simpa [Text.atWordEnd] using hv

end Scholia.Source.Procedural
