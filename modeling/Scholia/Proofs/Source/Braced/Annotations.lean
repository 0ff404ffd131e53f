import Scholia.Proofs.Text.Brackets
import Scholia.Proofs.Text.Words
import Scholia.Proofs.Text.Worn
import Scholia.Source.Braced.Header
/-!
# Annotations and attributes

Annotations and attributes are blanked before a header is read. Each goes from a name or a bracket to
the bracket that closes it, and which one that is, is counted in the raw text.

So of a text whose parentheses and square brackets are nested, whatever they stand in, what is left is
nested again, and does not depend on what follows (`stripFrom_closesOff`).

And a header that has lost a blank at a line end declares what it declared (`ofText_worn`). Its
signature is on one line anyway, but an annotation may run over the blank. So the count of characters
still to pass is followed through both texts: it is the same, or one more in the text with the blank,
and never ends between the blank and the line feed.
-/

namespace Scholia.Source.Braced

open Text (Bracket BracketShape ClosesOff Worn isBlank isLayout)

/-! ## What is left of a text -/

section Left

variable {s : Text}

/-- The length of the arguments of an annotation, with the blanks before them. -/
def argumentsLength (s : Text) : Nat :=
  let arguments := s.drop (s.takeWhile isBlank).length
  match arguments with
  | '(' :: _ => (s.takeWhile isBlank).length + balancedLength '(' ')' 0 arguments
  | _ => 0

theorem drop_takeWhile (p : Char → Bool) (s : Text) :
    s.drop (s.takeWhile p).length = s.dropWhile p := by
  conv => lhs; arg 2; rw [← List.takeWhile_append_dropWhile (p := p) (l := s)]
  exact List.drop_left

/-- One character with nothing to pass. -/
theorem stripFrom_cons (attributes : Bool) (written : Text) (c : Char) (r : Text) :
    stripFrom attributes 0 written (c :: r) =
      if c = '@' && (r.head?.map Text.isAlphabetic).getD false then
        if r.takeWhile isAnnotationChar = "interface".toList then
          stripFrom attributes (r.takeWhile isAnnotationChar).length
            ((r.takeWhile isAnnotationChar).reverse ++ '@' :: written) r
        else
          stripFrom attributes ((r.takeWhile isAnnotationChar).length +
            argumentsLength (r.drop (r.takeWhile isAnnotationChar).length)) (' ' :: written) r
      else if attributes && c = '[' && attributeFits written then
        stripFrom attributes (balancedLength '[' ']' 0 (c :: r) - 1) (' ' :: written) r
      else stripFrom attributes 0 (c :: written) r := by
  have hdrop := (List.drop_drop (l := r) (j := (r.takeWhile isAnnotationChar).length)
    (i := ((r.drop (r.takeWhile isAnnotationChar).length).takeWhile isBlank).length)).symm
  rewrite [stripFrom]
  dsimp only
  rewrite [hdrop]
  rfl

/-- What is to be passed is passed. -/
theorem stripFrom_skip (attributes : Bool) (written s rest : Text) :
    stripFrom attributes s.length written (s ++ rest) = stripFrom attributes 0 written rest := by
  induction s with
  | nil => rfl
  | cons c s ih => exact ih

/-- What has been written stays in front. -/
theorem exists_stripFrom (attributes : Bool) (skip : Nat) (written s : Text) :
    ∃ left, stripFrom attributes skip written s = written.reverse ++ left := by
  induction s generalizing skip written with
  | nil => exact ⟨[], by cases skip <;> simp [stripFrom]⟩
  | cons c s ih =>
    have hmore : ∀ skip more, ∃ left, stripFrom attributes skip (more ++ written) s =
        written.reverse ++ left := by
      intro skip more
      obtain ⟨left, he⟩ := ih skip (more ++ written)
      exact ⟨more.reverse ++ left, by rw [he, List.reverse_append, List.append_assoc]⟩
    cases skip with
    | succ skip => exact ih skip written
    | zero =>
      rw [stripFrom_cons]
      split
      · split
        · have := hmore (s.takeWhile isAnnotationChar).length
            ((s.takeWhile isAnnotationChar).reverse ++ ['@'])
          rwa [List.append_assoc] at this
        · exact hmore _ [' ']
      split
      · exact hmore _ [' ']
      · exact hmore 0 [c]

/-- A text without annotations and attributes is left as it is. -/
theorem stripFrom_plain {attributes : Bool} {written : Text} (hat : '@' ∉ s)
    (hbracket : ∀ u v, s = u ++ '[' :: v → attributeFits (u.reverse ++ written) = false)
    (rest : Text) :
    stripFrom attributes 0 written (s ++ rest) =
      stripFrom attributes 0 (s.reverse ++ written) rest := by
  induction s generalizing written with
  | nil => rfl
  | cons c s ih =>
    rw [List.mem_cons, not_or] at hat
    have hfits : ¬ (attributes && decide (c = '[') && attributeFits written) = true := by
      by_cases hc : c = '['
      · rw [show attributeFits written = false from hbracket [] s (hc ▸ rfl), Bool.and_false]
        decide
      · simp [hc]
    rw [List.cons_append, stripFrom_cons, if_neg (by simp [Ne.symm hat.1]), if_neg hfits,
      ih hat.2 fun u v he => ?_, List.reverse_cons, List.append_assoc]
    · rfl
    · have := hbracket (c :: u) v (he ▸ rfl)
      rwa [List.reverse_cons, List.append_assoc] at this

/-- All that is left of a text has stood in it, but for blanks in the place of annotations. -/
theorem mem_stripFrom {attributes : Bool} {skip : Nat} {written : Text} {d : Char}
    (h : d ∈ stripFrom attributes skip written s) : d ∈ written ∨ d ∈ s ∨ d = ' ' := by
  induction s generalizing skip written with
  | nil =>
    refine .inl ?_
    cases skip <;> simpa [stripFrom] using h
  | cons c s ih =>
    have hmore : ∀ {skip : Nat} (put : Text),
        d ∈ stripFrom attributes skip (put ++ written) s → (d ∈ put → d ∈ c :: s ∨ d = ' ') →
        d ∈ written ∨ d ∈ c :: s ∨ d = ' ' := by
      intro skip put hd hput
      rcases ih hd with hd | hd | hd
      · exact (List.mem_append.1 hd).elim (fun hd => .inr (hput hd)) .inl
      · exact .inr (.inl (List.mem_cons_of_mem c hd))
      · exact .inr (.inr hd)
    cases skip with
    | succ skip => exact hmore [] h nofun
    | zero =>
      have hblank : d ∈ [' '] → d ∈ c :: s ∨ d = ' ' := fun hd => .inr (List.mem_singleton.1 hd)
      rw [stripFrom_cons] at h
      split at h
      · next hat =>
        have hc : c = '@' := by
          rw [Bool.and_eq_true, decide_eq_true_eq] at hat
          exact hat.1
        split at h
        · refine hmore ((s.takeWhile isAnnotationChar).reverse ++ ['@'])
            (by rwa [List.append_assoc]) fun hd => .inl ?_
          rcases List.mem_append.1 hd with hd | hd
          · exact List.mem_cons_of_mem c ((List.takeWhile_sublist _).subset (List.mem_reverse.1 hd))
          · rw [hc, List.mem_singleton.1 hd]
            exact List.mem_cons_self
        · exact hmore [' '] h hblank
      split at h
      · exact hmore [' '] h hblank
      · refine hmore [c] h fun hd => .inl ?_
        rw [List.mem_singleton.1 hd]
        exact List.mem_cons_self

/-- Behind a character that is no blank it does not matter what has been written before. -/
theorem stripFrom_ink {attributes : Bool} {c : Char} (hc : isBlank c = false) (skip : Nat)
    (more written s : Text) : stripFrom attributes skip (more ++ c :: written) s =
      written.reverse ++ stripFrom attributes skip (more ++ [c]) s := by
  induction s generalizing skip more with
  | nil => cases skip <;> simp [stripFrom]
  | cons d s ih =>
    have hfits : attributeFits (more ++ c :: written) = attributeFits (more ++ [c]) := by
      unfold attributeFits
      rw [Text.dropWhile_stop hc, Text.dropWhile_stop hc]
      cases more.dropWhile isBlank <;> rfl
    cases skip with
    | succ skip => exact ih skip more
    | zero =>
      rw [stripFrom_cons, stripFrom_cons, hfits]
      split
      · split
        · simpa using ih (s.takeWhile isAnnotationChar).length
            ((s.takeWhile isAnnotationChar).reverse ++ '@' :: more)
        · exact ih _ (' ' :: more)
      split
      · exact ih _ (' ' :: more)
      · exact ih 0 (d :: more)

end Left

/-! ## Nested brackets -/

section Nested

variable {open' : List BracketShape} {s rest : Text}

/-- Nested brackets are passed with the one that closes what is open. -/
theorem balancedLength_closesOff {k : BracketShape} (hk : k ≠ .curly) (h : ClosesOff open' s)
    (rest : Text) :
    balancedLength (⟨k, true⟩ : Bracket).char (⟨k, false⟩ : Bracket).char (open'.count k + 1)
      (s ++ (⟨k, false⟩ : Bracket).char :: rest) = s.length + 1 := by
  have hne : (⟨k, false⟩ : Bracket).char ≠ (⟨k, true⟩ : Bracket).char := fun he =>
    absurd (Bracket.char_inj he) (by simp)
  induction s generalizing open' with
  | nil =>
    obtain rfl := Text.closesOff_nil.1 h
    rw [List.nil_append, balancedLength, if_neg hne, if_pos rfl]
    rfl
  | cons c s ih =>
    rw [List.cons_append, balancedLength, List.length_cons]
    rcases h.count hk with ⟨rfl, hs⟩ | ⟨outer, rfl, rfl, hs⟩ | ⟨hopen, hclose, more, hcount, hs⟩
    · have := ih hs
      rw [List.count_cons_self] at this
      rw [if_pos rfl, this, Nat.add_comm]
    · rw [if_neg hne, if_pos rfl, List.count_cons_self, if_neg (by omega), Nat.add_sub_cancel,
        ih hs, Nat.add_comm]
    · rw [if_neg hopen, if_neg hclose, ← hcount, ih hs, Nat.add_comm]

/-- A bracket at the front is passed with what it encloses. -/
theorem balancedLength_group {k : BracketShape} (hk : k ≠ .curly) (h : ClosesOff [] s)
    (rest : Text) :
    balancedLength (⟨k, true⟩ : Bracket).char (⟨k, false⟩ : Bracket).char 0
      ((⟨k, true⟩ : Bracket).char :: (s ++ (⟨k, false⟩ : Bracket).char :: rest)) = s.length + 2 := by
  have := balancedLength_closesOff hk h rest
  rw [balancedLength, if_pos rfl, show (0 : Nat) + 1 = List.count k [] + 1 from rfl, this]
  omega

/-- What may stand behind a text and is no part of an annotation at its end. -/
structure Apart (rest : Text) : Prop where
  name : ∀ c ∈ rest.head?, isAnnotationChar c = false
  arguments : ∀ c ∈ (rest.dropWhile isBlank).head?, c ≠ '('

theorem Apart.nil : Apart [] where
  name := nofun
  arguments := nofun

theorem Apart.closeParen (rest : Text) : Apart (')' :: rest) where
  name := by
    rintro c hc
    cases hc
    decide
  arguments := by
    rw [List.dropWhile_cons_of_neg (by decide)]
    rintro c hc
    cases hc
    decide

/-- The name of an annotation ends in the text. -/
theorem Apart.takeWhile (h : Apart rest) (s : Text) :
    (s ++ rest).takeWhile isAnnotationChar = s.takeWhile isAnnotationChar := by
  cases rest with
  | nil => rw [List.append_nil]
  | cons c rest => exact Text.takeWhile_stop (h.name c rfl) s rest

/-- No annotation begins with the last character of the text. -/
theorem Apart.alphabetic (h : Apart rest) (s : Text) :
    ((s ++ rest).head?.map Text.isAlphabetic).getD false =
      (s.head?.map Text.isAlphabetic).getD false := by
  cases s with
  | cons c s => rfl
  | nil =>
    cases rest with
    | nil => rfl
    | cons c rest =>
      show Text.isAlphabetic c = false
      refine Bool.eq_false_iff.2 fun hc => ?_
      have hname := h.name c rfl
      rw [isAnnotationChar, Text.isAlphanumeric_of_isAlphabetic hc] at hname
      cases hname

/-- Behind the name of an annotation, its arguments are a part of the nested text. -/
theorem argumentsLength_closesOff (h : ClosesOff open' s) :
    ∃ arguments more, s = arguments ++ more ∧ ClosesOff open' more ∧
      ∀ rest, Apart rest → argumentsLength (s ++ rest) = arguments.length := by
  have hsplit := List.takeWhile_append_dropWhile (p := isBlank) (l := s)
  cases hs : s.dropWhile isBlank with
  | nil =>
    refine ⟨[], s, rfl, h, fun rest hrest => ?_⟩
    unfold argumentsLength
    rw [drop_takeWhile, List.dropWhile_append, hs, List.isEmpty_nil, if_pos rfl]
    dsimp only
    split
    · next he => exact absurd rfl (hrest.arguments '(' (by rw [he]; rfl))
    · rfl
  | cons c more =>
    rw [hs] at hsplit
    have hc : isBlank c = false := by
      have hhead := List.head?_dropWhile_not isBlank s
      rw [hs] at hhead
      simpa using hhead
    have hlength : ∀ rest, argumentsLength (s ++ rest) =
        argumentsLength (s.takeWhile isBlank ++ c :: (more ++ rest)) := by
      intro rest
      rw [← List.cons_append, ← List.append_assoc, hsplit]
    have hblanks : ∀ rest, (s.takeWhile isBlank ++ c :: rest).takeWhile isBlank =
        s.takeWhile isBlank := by
      intro rest
      rw [Text.takeWhile_stop hc, List.takeWhile_takeWhile]
      simp
    by_cases hopen : c = '('
    · subst hopen
      have hblank : ∀ c ∈ s.takeWhile isBlank, Bracket.ofListChar? c = none := by
        intro c hc
        cases hb : Bracket.ofListChar? c with
        | none => rfl
        | some b =>
          obtain ⟨rfl, -⟩ := Bracket.ofListChar?_eq_some_iff.1 hb
          have hblank := List.mem_takeWhile_imp hc
          obtain ⟨k, opens⟩ := b
          cases k <;> cases opens <;> exact absurd hblank (by decide)
      rw [← hsplit, Text.closesOff_plain hblank,
        show '(' = (⟨.round, true⟩ : Bracket).char from rfl,
        Text.closesOff_opening (by decide)] at h
      obtain ⟨inner, last, rfl, hinner, hlast⟩ := h.closing
      refine ⟨s.takeWhile isBlank ++ '(' :: (inner ++ [')']), last, ?_, hlast, fun rest _ => ?_⟩
      · rw [List.append_assoc, List.cons_append, List.append_assoc]
        exact hsplit.symm
      · have hgroup := balancedLength_group (by decide : BracketShape.round ≠ .curly) hinner
          (last ++ rest)
        rw [hlength, argumentsLength, hblanks, List.drop_left, List.append_assoc, List.cons_append]
        simp only [List.length_append, List.length_cons, List.length_nil]
        exact congrArg ((s.takeWhile isBlank).length + ·) hgroup
    · refine ⟨[], s, rfl, h, fun rest _ => ?_⟩
      rw [hlength, argumentsLength, hblanks, List.drop_left]
      split
      · next he => exact absurd (List.cons.inj he).1 hopen
      · rfl

/-- The front of a text is passed, with something put in its place, and the rest is still to come. -/
def Puts (written s put more : Text) : Prop :=
  ∀ rest, Apart rest → stripFrom true 0 written (s ++ rest) =
    stripFrom true 0 (put.reverse ++ written) (more ++ rest)

/-- An annotation is passed, and what is put in its place holds no bracket. -/
theorem exists_puts_annotation (h : ClosesOff open' ('@' :: s)) (written : Text)
    (hletter : (s.head?.map Text.isAlphabetic).getD false = true) :
    ∃ put more, Puts written ('@' :: s) put more ∧ more.length ≤ s.length ∧ ClosesOff open' more ∧
      ∀ c ∈ put, Bracket.ofListChar? c = none := by
  have hsplit := (List.takeWhile_append_dropWhile (p := isAnnotationChar) (l := s)).symm
  have hplain : ∀ c ∈ '@' :: s.takeWhile isAnnotationChar, Bracket.ofListChar? c = none := by
    refine List.forall_mem_cons.2 ⟨rfl, fun c hc => ?_⟩
    cases hb : Bracket.ofListChar? c with
    | none => rfl
    | some b =>
      obtain ⟨rfl, -⟩ := Bracket.ofListChar?_eq_some_iff.1 hb
      have hchar := List.mem_takeWhile_imp hc
      obtain ⟨k, opens⟩ := b
      cases k <;> cases opens <;> exact absurd hchar (by decide)
  have hafter : ClosesOff open' (s.dropWhile isAnnotationChar) := by
    rwa [hsplit, ← List.cons_append, Text.closesOff_plain hplain] at h
  by_cases hname : s.takeWhile isAnnotationChar = "interface".toList
  · -- the declaration of an annotation is none
    refine ⟨'@' :: s.takeWhile isAnnotationChar, s.dropWhile isAnnotationChar, fun rest hrest => ?_,
      (List.dropWhile_sublist _).length_le, hafter, hplain⟩
    have hpass := stripFrom_skip true
      ((s.takeWhile isAnnotationChar).reverse ++ '@' :: written) (s.takeWhile isAnnotationChar)
      (s.dropWhile isAnnotationChar ++ rest)
    rw [← List.append_assoc, ← hsplit] at hpass
    rw [List.cons_append, stripFrom_cons, hrest.takeWhile, hrest.alphabetic, hletter,
      if_pos (by simp), if_pos hname, hpass, List.reverse_cons, List.append_assoc]
    rfl
  · obtain ⟨arguments, more, hs, hmore, hlength⟩ := argumentsLength_closesOff hafter
    rw [hs, ← List.append_assoc] at hsplit
    refine ⟨[' '], more, fun rest hrest => ?_, ?_, hmore, by decide⟩
    · have hpass := stripFrom_skip true (' ' :: written) (s.takeWhile isAnnotationChar ++ arguments)
        (more ++ rest)
      rw [← List.append_assoc, ← hsplit, List.length_append] at hpass
      rw [List.cons_append, stripFrom_cons, hrest.takeWhile, hrest.alphabetic, hletter,
        if_pos (by simp), if_neg hname,
        List.drop_append_of_le_length (List.takeWhile_sublist _).length_le, drop_takeWhile,
        hlength rest hrest, hpass]
      rfl
    · have := congrArg List.length hsplit
      rw [List.length_append] at this
      omega

/-- An attribute is passed, and a blank is put in its place. -/
theorem exists_puts_attribute (h : ClosesOff open' ('[' :: s)) {written : Text}
    (hfits : attributeFits written = true) :
    ∃ more, Puts written ('[' :: s) [' '] more ∧ more.length ≤ s.length ∧ ClosesOff open' more := by
  obtain ⟨inner, more, rfl, hinner, hmore⟩ := ClosesOff.closing (k := .square)
    ((Text.closesOff_opening (k := .square) (by decide)).1 h)
  refine ⟨more, fun rest _ => ?_, ?_, hmore⟩
  · have hlength : balancedLength '[' ']' 0 ('[' :: (inner ++ ']' :: (more ++ rest))) =
        inner.length + 2 := balancedLength_group (by decide : BracketShape.square ≠ .curly) hinner _
    have hpass := stripFrom_skip true (' ' :: written) (inner ++ [']']) (more ++ rest)
    rw [List.length_append, List.append_assoc] at hpass
    rw [List.cons_append, stripFrom_cons, if_neg (by simp), if_pos (by simp [hfits]),
      List.append_assoc]
    show stripFrom true (balancedLength '[' ']' 0 ('[' :: (inner ++ ']' :: (more ++ rest))) - 1)
      (' ' :: written) (inner ++ ']' :: (more ++ rest)) = _
    rw [hlength]
    exact hpass
  · rw [List.length_append, List.length_cons]
    omega

/-- Every other character stays. -/
theorem puts_char {c : Char} {written : Text}
    (hat : ¬ (c = '@' ∧ (s.head?.map Text.isAlphabetic).getD false = true))
    (hattribute : ¬ (c = '[' ∧ attributeFits written = true)) : Puts written (c :: s) [c] s := by
  intro rest hrest
  rw [List.cons_append, stripFrom_cons, hrest.alphabetic,
    if_neg (by rw [Bool.and_eq_true, decide_eq_true_eq]; exact hat),
    if_neg (by simpa using hattribute)]
  rfl

/-- **What is left of nested brackets is nested**, whatever follows. -/
theorem stripFrom_closesOff (h : ClosesOff open' s) (written : Text) :
    ∃ left, ClosesOff open' left ∧ Puts written s left [] := by
  induction hn : s.length using Nat.strongRecOn generalizing s open' written with
  | ind n ih =>
    cases s with
    | nil => exact ⟨[], h, fun rest _ => rfl⟩
    | cons c s =>
      rw [List.length_cons] at hn
      -- what is put in the place of a front stands before what is left of the rest
      have hmore : ∀ {open'' : List BracketShape} {put more : Text}, Puts written (c :: s) put more →
          more.length ≤ s.length → ClosesOff open'' more →
          ∃ left, ClosesOff open'' left ∧ Puts written (c :: s) (put ++ left) [] := by
        intro open'' put more hputs hlength hmore
        obtain ⟨left, hleft, hsame⟩ := ih more.length (by omega) hmore (put.reverse ++ written) rfl
        refine ⟨left, hleft, fun rest hrest => ?_⟩
        rw [hputs rest hrest, hsame rest hrest, List.reverse_append, List.append_assoc]
      by_cases hat : c = '@' ∧ (s.head?.map Text.isAlphabetic).getD false = true
      · obtain ⟨rfl, hletter⟩ := hat
        obtain ⟨put, more, hputs, hlength, hclosed, hplain⟩ := exists_puts_annotation h written hletter
        obtain ⟨left, hleft, hsame⟩ := hmore hputs hlength hclosed
        exact ⟨put ++ left, (Text.closesOff_plain hplain).2 hleft, hsame⟩
      by_cases hattribute : c = '[' ∧ attributeFits written = true
      · obtain ⟨rfl, hfits⟩ := hattribute
        obtain ⟨more, hputs, hlength, hclosed⟩ := exists_puts_attribute h hfits
        obtain ⟨left, hleft, hsame⟩ := hmore hputs hlength hclosed
        exact ⟨[' '] ++ left, (Text.closesOff_plain (by decide)).2 hleft, hsame⟩
      · obtain ⟨open'', hstep, hs⟩ := Text.closesOff_cons.1 h
        obtain ⟨left, hleft, hsame⟩ := hmore (puts_char hat hattribute) (Nat.le_refl _) hs
        exact ⟨[c] ++ left, Text.closesOff_cons.2 ⟨open'', hstep, hleft⟩, hsame⟩

/-- So a nested text is stripped by itself. -/
theorem stripFrom_append (h : ClosesOff [] s) (hrest : Apart rest) :
    stripFrom true 0 [] (s ++ rest) = stripFrom true 0 (stripAnnotations true s).reverse rest := by
  obtain ⟨left, -, hsame⟩ := stripFrom_closesOff h []
  have hself := hsame [] .nil
  rw [List.append_nil, List.append_nil] at hself
  rw [hsame rest hrest, List.append_nil, stripAnnotations, hself]
  show stripFrom true 0 left.reverse rest = stripFrom true 0 (left.reverse.reverse).reverse rest
  rw [List.reverse_reverse]

end Nested

/-! ## Worn headers -/

section Worn

variable {x : Char}

/-- Characters to pass in a text with a blank and a line feed behind `u`, and in the text without
the blank. -/
def Passes (u : Text) (n n' : Nat) : Prop :=
  n ≤ u.length ∧ n' = n ∨ u.length + 2 ≤ n ∧ n = n' + 1

theorem balancedLength_lost (opening closing : Char) (hx : x ≠ opening ∧ x ≠ closing)
    (hn : '\n' ≠ opening ∧ '\n' ≠ closing) (depth : Nat) (u v : Text) :
    Passes u (balancedLength opening closing depth (u ++ x :: '\n' :: v))
      (balancedLength opening closing depth (u ++ '\n' :: v)) := by
  have hstep : ∀ {c : Char}, c ≠ opening ∧ c ≠ closing → ∀ depth r,
      balancedLength opening closing depth (c :: r) = 1 + balancedLength opening closing depth r :=
    fun hc depth r => by rw [balancedLength, if_neg hc.1, if_neg hc.2]
  induction u generalizing depth with
  | nil =>
    rw [List.nil_append, List.nil_append, hstep hx, hstep hn]
    exact .inr ⟨by simp only [List.length_nil]; omega, by omega⟩
  | cons c u ih =>
    have hmore : ∀ depth, Passes (c :: u)
        (1 + balancedLength opening closing depth (u ++ x :: '\n' :: v))
        (1 + balancedLength opening closing depth (u ++ '\n' :: v)) := by
      intro depth
      rcases ih depth with ⟨hle, he⟩ | ⟨hle, he⟩
      · exact .inl ⟨by simp only [List.length_cons]; omega, by omega⟩
      · exact .inr ⟨by simp only [List.length_cons]; omega, by omega⟩
    simp only [List.cons_append, balancedLength]
    split
    · exact hmore _
    split
    · split
      · exact .inl ⟨by simp, rfl⟩
      · exact hmore _
    · exact hmore _

theorem argumentsLength_lost (hx : isLayout x = true) (u v : Text) :
    Passes u (argumentsLength (u ++ x :: '\n' :: v)) (argumentsLength (u ++ '\n' :: v)) := by
  have hxb : isBlank x = true := Text.isBlank_of_isLayout hx
  have hnb : isBlank '\n' = true := by decide
  by_cases hall : ∀ c ∈ u, isBlank c = true
  · -- the blank is one of those behind the name
    have htake : (u ++ x :: '\n' :: v).takeWhile isBlank = u ++ x :: '\n' :: v.takeWhile isBlank := by
      rw [List.takeWhile_append_of_pos hall, List.takeWhile_cons_of_pos hxb,
        List.takeWhile_cons_of_pos hnb]
    have htake' : (u ++ '\n' :: v).takeWhile isBlank = u ++ '\n' :: v.takeWhile isBlank := by
      rw [List.takeWhile_append_of_pos hall, List.takeWhile_cons_of_pos hnb]
    have hdrop : (u ++ x :: '\n' :: v).dropWhile isBlank = v.dropWhile isBlank := by
      rw [List.dropWhile_append_of_pos hall, List.dropWhile_cons_of_pos hxb,
        List.dropWhile_cons_of_pos hnb]
    have hdrop' : (u ++ '\n' :: v).dropWhile isBlank = v.dropWhile isBlank := by
      rw [List.dropWhile_append_of_pos hall, List.dropWhile_cons_of_pos hnb]
    unfold argumentsLength
    rw [drop_takeWhile, drop_takeWhile, htake, htake', hdrop, hdrop']
    dsimp only
    split
    · refine .inr ⟨?_, ?_⟩ <;> simp only [List.length_append, List.length_cons] <;> omega
    · exact .inl ⟨Nat.zero_le _, rfl⟩
  · -- the arguments begin, if at all, before the blank
    have hne : (u.dropWhile isBlank).isEmpty = false := by
      rw [List.isEmpty_eq_false_iff]
      exact fun hnil => hall (List.dropWhile_eq_nil_iff.1 hnil)
    have hlen := congrArg List.length (List.takeWhile_append_dropWhile (p := isBlank) (l := u))
    rw [List.length_append] at hlen
    have htake : ∀ w : Text, (u ++ w).takeWhile isBlank = u.takeWhile isBlank := by
      intro w
      rw [List.takeWhile_append, if_neg]
      intro he
      rw [List.isEmpty_eq_false_iff, ← List.length_pos_iff] at hne
      omega
    have hdrop : ∀ w : Text, (u ++ w).dropWhile isBlank = u.dropWhile isBlank ++ w := by
      intro w
      rw [List.dropWhile_append, hne]
      rfl
    unfold argumentsLength
    rw [drop_takeWhile, drop_takeWhile, htake, htake, hdrop, hdrop]
    cases hu : u.dropWhile isBlank with
    | nil =>
      rw [hu] at hne
      cases hne
    | cons c w =>
      rw [hu, List.length_cons] at hlen
      by_cases hc : c = '('
      · subst hc
        have hbal := balancedLength_lost '(' ')'
          ⟨Text.ne_of_isLayout hx (by decide), Text.ne_of_isLayout hx (by decide)⟩ (by decide)
          0 ('(' :: w) v
        simp only [List.cons_append] at hbal ⊢
        rcases hbal with ⟨hle, he⟩ | ⟨hle, he⟩
        · exact .inl ⟨by simp only [List.length_cons] at hle; omega, by omega⟩
        · exact .inr ⟨by simp only [List.length_cons] at hle; omega, by omega⟩
      · have hother : ∀ r : Text, (match c :: r with
            | '(' :: _ => (u.takeWhile isBlank).length + balancedLength '(' ')' 0 (c :: r)
            | _ => 0) = 0 := by
          intro r
          split
          · next he => exact absurd (List.cons.inj he).1 hc
          · rfl
        simp only [List.cons_append]
        rw [hother, hother]
        exact .inl ⟨Nat.zero_le _, rfl⟩

/-- What has been written, backwards: a second blank between two others decides nothing. -/
theorem attributeFits_lost (hx : isBlank x = true) (q w : Text) :
    attributeFits (q ++ '\n' :: x :: w) = attributeFits (q ++ '\n' :: w) := by
  have hn : isBlank '\n' = true := by decide
  unfold attributeFits
  rw [List.dropWhile_append, List.dropWhile_append, List.dropWhile_cons_of_pos hn,
    List.dropWhile_cons_of_pos hx, List.dropWhile_cons_of_pos hn]
  cases hq : q.dropWhile isBlank with
  | nil => rfl
  | cons c q => rfl

/-- The words of what has been written stay, whatever follows it. -/
theorem words_stripFrom_written (hx : isBlank x = true) (attributes : Bool) (n : Nat) (q w r : Text) :
    Text.words (stripFrom attributes n (q ++ '\n' :: x :: w) r) =
      Text.words (stripFrom attributes n (q ++ '\n' :: w) r) := by
  induction r generalizing n q with
  | nil =>
    have hend : ∀ written : Text, stripFrom attributes n written [] = written.reverse := by
      intro written
      cases n <;> rfl
    rw [hend, hend]
    simp only [List.reverse_append, List.reverse_cons, List.append_assoc, List.cons_append,
      List.nil_append]
    rw [Text.words_append hx, Text.words_cons (by decide), Text.words_append (by decide)]
  | cons c r ih =>
    cases n with
    | succ n => exact ih n q
    | zero =>
      rw [stripFrom_cons, stripFrom_cons, attributeFits_lost hx]
      split
      · split
        · have := ih (r.takeWhile isAnnotationChar).length
            ((r.takeWhile isAnnotationChar).reverse ++ '@' :: q)
          simpa only [List.append_assoc, List.cons_append] using this
        · exact ih _ (' ' :: q)
      split
      · exact ih _ (' ' :: q)
      · exact ih 0 (c :: q)

/-- **The words of what is left of a header stay**. -/
theorem words_stripFrom (hx : isLayout x = true) (attributes : Bool) {n n' : Nat} (written : Text)
    {u : Text} (v : Text) (h : Passes u n n') :
    Text.words (stripFrom attributes n written (u ++ x :: '\n' :: v)) =
      Text.words (stripFrom attributes n' written (u ++ '\n' :: v)) := by
  have hxa : isAnnotationChar x = false ∧ Text.isAlphabetic x = false := by
    rcases Text.isLayout_iff.1 hx with rfl | rfl | rfl | rfl <;> decide
  have hna : isAnnotationChar '\n' = false ∧ Text.isAlphabetic '\n' = false := by decide
  induction u generalizing n n' written with
  | nil =>
    rcases h with ⟨hle, he⟩ | ⟨hle, he⟩
    · obtain rfl : n = 0 := Nat.le_zero.1 hle
      subst he
      have hplain : ∀ {c : Char} (_ : c ≠ '@') (_ : c ≠ '[') (written r : Text),
          stripFrom attributes 0 written (c :: r) = stripFrom attributes 0 (c :: written) r := by
        intro c hat hbracket written r
        rw [stripFrom_cons]
        simp [hat, hbracket]
      rw [List.nil_append, List.nil_append,
        hplain (Text.ne_of_isLayout hx (by decide)) (Text.ne_of_isLayout hx (by decide)),
        hplain (by decide) (by decide), hplain (by decide) (by decide)]
      exact words_stripFrom_written (Text.isBlank_of_isLayout hx) attributes 0 [] written v
    · obtain ⟨m, rfl⟩ : ∃ m, n' = m + 1 := ⟨n' - 1, by simp at hle; omega⟩
      subst he
      rfl
  | cons c u ih =>
    cases n with
    | succ n =>
      obtain ⟨m, rfl⟩ : ∃ m, n' = m + 1 := by
        rcases h with ⟨-, he⟩ | ⟨hle, he⟩
        · exact ⟨n, he⟩
        · exact ⟨n' - 1, by simp at hle; omega⟩
      refine ih written ?_
      rcases h with ⟨hle, he⟩ | ⟨hle, he⟩
      · exact .inl ⟨by simp at hle; omega, by omega⟩
      · exact .inr ⟨by simp at hle; omega, by omega⟩
    | zero =>
      have hzero : n' = 0 := by
        rcases h with ⟨-, he⟩ | ⟨hle, -⟩
        · exact he
        · simp at hle
      subst hzero
      have hhead : ((u ++ x :: '\n' :: v).head?.map Text.isAlphabetic).getD false =
          ((u ++ '\n' :: v).head?.map Text.isAlphabetic).getD false := by
        cases u with
        | nil => simp [hxa.2, hna.2]
        | cons d u => rfl
      have hname := Text.takeWhile_stop hxa.1 u ('\n' :: v)
      have hname' := Text.takeWhile_stop hna.1 u v
      have hle : (u.takeWhile isAnnotationChar).length ≤ u.length :=
        (List.takeWhile_sublist _).length_le
      have hbal := balancedLength_lost '[' ']'
        ⟨Text.ne_of_isLayout hx (by decide), Text.ne_of_isLayout hx (by decide)⟩ (by decide)
        0 (c :: u) v
      rw [List.cons_append, List.cons_append, stripFrom_cons, stripFrom_cons, hhead, hname, hname']
      split
      · split
        · exact ih _ (.inl ⟨hle, rfl⟩)
        · refine ih _ ?_
          rw [List.drop_append_of_le_length hle, List.drop_append_of_le_length hle]
          have hargs := argumentsLength_lost hx (u.drop (u.takeWhile isAnnotationChar).length) v
          rw [Passes, List.length_drop] at hargs
          rcases hargs with ⟨hl, he⟩ | ⟨hl, he⟩
          · exact .inl ⟨by omega, by omega⟩
          · exact .inr ⟨by omega, by omega⟩
      split
      · refine ih _ ?_
        simp only [List.cons_append] at hbal
        rcases hbal with ⟨hl, he⟩ | ⟨hl, he⟩
        · exact .inl ⟨by simp at hl; omega, by omega⟩
        · exact .inr ⟨by simp at hl; omega, by omega⟩
      · exact ih _ (.inl ⟨Nat.zero_le _, rfl⟩)

/-- **A worn header declares the same**. -/
theorem ofText_worn {s t : Text} (h : Worn s t) (attributes : Bool) :
    Header.ofText attributes s = Header.ofText attributes t := by
  have hsignature : Text.collapse (stripAnnotations attributes s) =
      Text.collapse (stripAnnotations attributes t) := by
    cases h with
    | same => rfl
    | lost u v hx hu =>
      rw [Text.collapse, stripAnnotations,
        words_stripFrom hx attributes [] v (.inl ⟨Nat.zero_le _, rfl⟩)]
      rfl
  unfold Header.ofText
  rw [hsignature]

end Worn

end Scholia.Source.Braced
