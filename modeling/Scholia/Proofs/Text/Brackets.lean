import Scholia.Text.Basic
/-!
# Brackets

Brackets are *nested* if each opening one is closed by a later one, and whatever stands between the
two is nested as well. Which brackets may close which is left open: with `==` only one of the same
shape may, which makes them properly nested; if any may, they are merely *paired*.

A stack decides it (`nested_iff_pairOff`).
-/

namespace Scholia.Text

inductive BracketShape where
  | round
  | square
  | curly
  deriving Repr, DecidableEq

/-- A bracket: its shape, and whether it opens. -/
structure Bracket where
  shape : BracketShape
  opens : Bool
  deriving Repr, DecidableEq

def Bracket.ofChar? : Char → Option Bracket
  | '(' => some ⟨.round, true⟩
  | ')' => some ⟨.round, false⟩
  | '[' => some ⟨.square, true⟩
  | ']' => some ⟨.square, false⟩
  | '{' => some ⟨.curly, true⟩
  | '\x7d' => some ⟨.curly, false⟩
  | _ => none

/-- The character that a bracket is. -/
def Bracket.char : Bracket → Char
  | ⟨.round, true⟩ => '('
  | ⟨.round, false⟩ => ')'
  | ⟨.square, true⟩ => '['
  | ⟨.square, false⟩ => ']'
  | ⟨.curly, true⟩ => '{'
  | ⟨.curly, false⟩ => '\x7d'

theorem Bracket.ofChar?_eq_some_iff {c : Char} {b : Bracket} : ofChar? c = some b ↔ c = b.char := by
  constructor
  · unfold ofChar?
    split <;> rintro ⟨⟩ <;> rfl
  · rintro rfl
    obtain ⟨shape, opens⟩ := b
    cases shape <;> cases opens <;> rfl

/-- The brackets in a text. -/
def brackets (s : Text) : List Bracket :=
  s.filterMap Bracket.ofChar?

variable {closes : BracketShape → BracketShape → Bool} {k k' : BracketShape}
  {bs inner rest : List Bracket} {open' open'' : List BracketShape}

/-- Brackets that open and close in pairs, one inside the other or one behind the other. -/
inductive Nested (closes : BracketShape → BracketShape → Bool) : List Bracket → Prop
  | nil : Nested closes []
  | group {k k' : BracketShape} {inner rest : List Bracket} (h : closes k k' = true)
    (hinner : Nested closes inner) (hrest : Nested closes rest) :
    Nested closes (⟨k, true⟩ :: (inner ++ ⟨k', false⟩ :: rest))

/-- Balanced and properly nested brackets: each is closed by one of its shape. -/
def IsNested : List Bracket → Prop := Nested (· == ·)

/-- Balanced brackets, whatever their shapes. -/
def IsPaired : List Bracket → Prop := Nested fun _ _ => true

theorem IsNested.isPaired (h : IsNested bs) : IsPaired bs := by
  induction h with
  | nil => exact .nil
  | group _ _ _ ihinner ihrest => exact .group rfl ihinner ihrest

/-! ## The stack -/

/-- The shapes that are open behind some brackets, innermost first, if every bracket that closes can
close the innermost one. -/
def pairOff (closes : BracketShape → BracketShape → Bool) :
    List BracketShape → List Bracket → Option (List BracketShape)
  | open', [] => some open'
  | open', ⟨k, true⟩ :: bs => pairOff closes (k :: open') bs
  | [], ⟨_, false⟩ :: _ => none
  | k :: open', ⟨k', false⟩ :: bs => if closes k k' then pairOff closes open' bs else none

theorem pairOff_append (bs more : List Bracket) : pairOff closes open' (bs ++ more) =
    (pairOff closes open' bs).bind (pairOff closes · more) := by
  induction bs generalizing open' with
  | nil => rfl
  | cons b bs ih =>
    obtain ⟨k', opens⟩ := b
    cases opens with
    | true => exact ih
    | false =>
      cases open' with
      | nil => rfl
      | cons k open' =>
        simp only [List.cons_append, pairOff]
        split
        · exact ih
        · rfl

/-- What is open below plays no part as long as it is not needed. -/
theorem pairOff_below (h : pairOff closes open' bs = some open'') (below : List BracketShape) :
    pairOff closes (open' ++ below) bs = some (open'' ++ below) := by
  induction bs generalizing open' with
  | nil =>
    cases h
    rfl
  | cons b bs ih =>
    obtain ⟨k', opens⟩ := b
    cases opens with
    | true => exact ih h
    | false =>
      cases open' with
      | nil => cases h
      | cons k open' =>
        simp only [pairOff, List.cons_append] at h ⊢
        split at h
        · next hk =>
          rw [if_pos hk]
          exact ih h
        · cases h

/-- Nested brackets leave open what was open. -/
theorem Nested.pairOff (h : Nested closes bs) (open' : List BracketShape) :
    pairOff closes open' bs = some open' := by
  induction h generalizing open' with
  | nil => rfl
  | @group k k' inner rest hk _ _ ihinner ihrest =>
    rw [Text.pairOff, pairOff_append, ihinner, Option.bind_some, Text.pairOff, if_pos hk]
    exact ihrest open'

/-- Brackets that close what is open, one after the other, with nested ones between. -/
def Closing (closes : BracketShape → BracketShape → Bool) : List BracketShape → List Bracket → Prop
  | [], bs => Nested closes bs
  | k :: open', bs => ∃ inner k' rest, bs = inner ++ ⟨k', false⟩ :: rest ∧ closes k k' = true ∧
      Nested closes inner ∧ Closing closes open' rest

theorem Closing.group (h : Closing closes open' rest) (hk : closes k k' = true)
    (hinner : Nested closes inner) :
    Closing closes open' (⟨k, true⟩ :: (inner ++ ⟨k', false⟩ :: rest)) := by
  cases open' with
  | nil => exact .group hk hinner h
  | cons k₀ open' =>
    obtain ⟨first, k₁, behind, rfl, hk₁, hfirst, hbehind⟩ := h
    exact ⟨⟨k, true⟩ :: (inner ++ ⟨k', false⟩ :: first), k₁, behind, by simp, hk₁,
      .group hk hinner hfirst, hbehind⟩

theorem closing_of_pairOff (h : pairOff closes open' bs = some []) : Closing closes open' bs := by
  induction bs generalizing open' with
  | nil =>
    cases h
    exact .nil
  | cons b bs ih =>
    obtain ⟨k, opens⟩ := b
    cases opens with
    | true =>
      obtain ⟨inner, k', rest, rfl, hk, hinner, hrest⟩ := ih h
      exact hrest.group hk hinner
    | false =>
      cases open' with
      | nil => cases h
      | cons k₀ open' =>
        simp only [pairOff] at h
        split at h
        · next hk => exact ⟨[], k, bs, rfl, hk, .nil, ih h⟩
        · cases h

/-- **Brackets are nested if a stack pairs them off**. -/
theorem nested_iff_pairOff : Nested closes bs ↔ pairOff closes [] bs = some [] :=
  ⟨fun h => h.pairOff [], closing_of_pairOff⟩

instance : DecidablePred IsNested := fun _ => decidable_of_iff _ nested_iff_pairOff.symm

instance : DecidablePred IsPaired := fun _ => decidable_of_iff _ nested_iff_pairOff.symm

/-! ## Shapes that agree -/

/-- A bracket and the one that closes it have the same shape: what stands between them is paired. -/
def ShapesAgree (bs : List Bracket) : Prop :=
  ∀ before k inner k' after, bs = before ++ ⟨k, true⟩ :: (inner ++ ⟨k', false⟩ :: after) →
    IsPaired inner → k = k'

/-- What a stack pairs off by shape it pairs off. -/
theorem pairOff_any (h : pairOff (· == ·) open' bs = some open'') :
    pairOff (fun _ _ => true) open' bs = some open'' := by
  induction bs generalizing open' with
  | nil => exact h
  | cons b bs ih =>
    obtain ⟨k', opens⟩ := b
    cases opens with
    | true => exact ih h
    | false =>
      cases open' with
      | nil => cases h
      | cons k open' =>
        simp only [pairOff] at h
        split at h
        · exact ih h
        · cases h

/-- **Brackets are properly nested if they are paired and the shapes of each pair agree**. -/
theorem isNested_iff : IsNested bs ↔ IsPaired bs ∧ ShapesAgree bs := by
  constructor
  · refine fun h => ⟨h.isPaired, ?_⟩
    rintro before k inner k' after rfl hinner
    have hrun := nested_iff_pairOff.1 h
    rw [pairOff_append] at hrun
    obtain ⟨open', -, hrun⟩ := Option.bind_eq_some_iff.1 hrun
    rw [pairOff, pairOff_append] at hrun
    obtain ⟨open'', hopen, hrun⟩ := Option.bind_eq_some_iff.1 hrun
    -- what stands between the two leaves the first one open
    obtain rfl := Option.some.inj ((pairOff_any hopen).symm.trans (hinner.pairOff _))
    simp only [pairOff] at hrun
    split at hrun
    · next hk => exact eq_of_beq hk
    · cases hrun
  · rintro ⟨h, hagree⟩
    induction h with
    | nil => exact .nil
    | @group k k' inner rest _ hinner hrest ihinner ihrest =>
      refine .group (beq_iff_eq.2 (hagree [] k inner k' rest rfl hinner)) (ihinner ?_) (ihrest ?_)
      · rintro before k₁ inner₁ k₁' after rfl
        exact hagree (⟨k, true⟩ :: before) k₁ inner₁ k₁' (after ++ ⟨k', false⟩ :: rest) (by simp)
      · rintro before k₁ inner₁ k₁' after rfl
        exact hagree (⟨k, true⟩ :: (inner ++ ⟨k', false⟩ :: before)) k₁ inner₁ k₁' after (by simp)

/-! ## Brackets of some shapes -/

theorem Nested.append (h : Nested closes bs) (h' : Nested closes rest) : Nested closes (bs ++ rest) := by
  rw [nested_iff_pairOff, pairOff_append, h.pairOff]
  exact h'.pairOff []

/-- Nested brackets of which only some shapes are looked at are nested. -/
theorem IsNested.filter (p : BracketShape → Bool) (h : IsNested bs) :
    IsNested (bs.filter (p ·.shape)) := by
  induction h with
  | nil => exact .nil
  | @group k k' inner rest hk hinner hrest ihinner ihrest =>
    obtain rfl := beq_iff_eq.1 hk
    rw [List.filter_cons, List.filter_append, List.filter_cons]
    split
    · exact .group hk ihinner ihrest
    · exact Nested.append ihinner ihrest

/-- Two stacks, one for some of the brackets and one for the others, are as high as one for all. -/
theorem exists_pairOff_any {p : Bracket → Bool} {u v w u' v' : List BracketShape}
    (hu : pairOff (fun _ _ => true) u (bs.filter p) = some u')
    (hv : pairOff (fun _ _ => true) v (bs.filter (!p ·)) = some v')
    (hw : w.length = u.length + v.length) :
    ∃ w', pairOff (fun _ _ => true) w bs = some w' ∧ w'.length = u'.length + v'.length := by
  induction bs generalizing u v w with
  | nil =>
    cases hu
    cases hv
    exact ⟨w, rfl, hw⟩
  | cons b bs ih =>
    obtain ⟨k, opens⟩ := b
    -- the bracket opens or closes in one of the two stacks
    cases hp : p ⟨k, opens⟩ with
    | true =>
      rw [List.filter_cons_of_pos hp] at hu
      rw [List.filter_cons_of_neg (by simp [hp])] at hv
      cases opens with
      | true => exact ih hu hv (by simp only [List.length_cons, hw]; omega)
      | false =>
        cases u with
        | nil => cases hu
        | cons k' u =>
          obtain ⟨k₀, w, rfl⟩ := List.exists_cons_of_length_pos
            (by rw [hw, List.length_cons]; omega : 0 < w.length)
          exact ih hu hv (by simp only [List.length_cons] at hw; omega)
    | false =>
      rw [List.filter_cons_of_neg (by simp [hp])] at hu
      rw [List.filter_cons_of_pos (by simp [hp])] at hv
      cases opens with
      | true => exact ih hu hv (by simp only [List.length_cons, hw]; omega)
      | false =>
        cases v with
        | nil => cases hv
        | cons k' v =>
          obtain ⟨k₀, w, rfl⟩ := List.exists_cons_of_length_pos
            (by rw [hw, List.length_cons]; omega : 0 < w.length)
          exact ih hu hv (by simp only [List.length_cons] at hw; omega)

/-- Brackets are paired if some of them are and the others are. -/
theorem IsPaired.of_filter {p : Bracket → Bool} (h : IsPaired (bs.filter p))
    (h' : IsPaired (bs.filter (!p ·))) : IsPaired bs := by
  obtain ⟨w, hw, hlength⟩ := exists_pairOff_any (w := []) (Nested.pairOff h []) (Nested.pairOff h' []) rfl
  rw [List.eq_nil_of_length_eq_zero hlength] at hw
  exact nested_iff_pairOff.2 hw

/-! ## Parentheses and square brackets in a text -/

/-- The bracket that a character is, unless it is a brace. -/
def Bracket.ofListChar? (c : Char) : Option Bracket :=
  (Bracket.ofChar? c).filter (·.shape != .curly)

/-- The parentheses and square brackets in a text. -/
def listBrackets (s : Text) : List Bracket :=
  s.filterMap Bracket.ofListChar?

/-- The parentheses and square brackets in a text close what is open, innermost first, and are nested
apart from that. -/
def ClosesOff (open' : List BracketShape) (s : Text) : Prop :=
  pairOff (· == ·) open' (listBrackets s) = some []

variable {c : Char} {b b' : Bracket} {s t : Text}

theorem Bracket.ofListChar?_eq_some_iff :
    ofListChar? c = some b ↔ c = b.char ∧ b.shape ≠ .curly := by
  rw [ofListChar?, Option.filter_eq_some_iff, ofChar?_eq_some_iff, bne_iff_ne]

theorem Bracket.char_inj (h : b.char = b'.char) : b = b' := by
  have hb : ofChar? b.char = some b := ofChar?_eq_some_iff.2 rfl
  rw [h, ofChar?_eq_some_iff.2 rfl] at hb
  exact (Option.some.inj hb).symm

theorem closesOff_nil : ClosesOff open' [] ↔ open' = [] :=
  ⟨fun h => Option.some.inj h, fun h => congrArg some h⟩

/-- What one character does to what is open. -/
theorem closesOff_cons : ClosesOff open' (c :: s) ↔
    ∃ more, pairOff (· == ·) open' (Bracket.ofListChar? c).toList = some more ∧
      ClosesOff more s := by
  have hsplit : listBrackets (c :: s) = (Bracket.ofListChar? c).toList ++ listBrackets s := by
    unfold listBrackets
    cases hb : Bracket.ofListChar? c with
    | none => exact List.filterMap_cons_none hb
    | some b => exact List.filterMap_cons_some hb
  rw [ClosesOff, hsplit, pairOff_append, Option.bind_eq_some_iff]
  rfl

theorem closesOff_plain (ht : ∀ c ∈ t, Bracket.ofListChar? c = none) :
    ClosesOff open' (t ++ s) ↔ ClosesOff open' s := by
  rw [ClosesOff, listBrackets, List.filterMap_append, List.filterMap_eq_nil_iff.2 ht]
  rfl

theorem closesOff_opening (hk : k ≠ .curly) :
    ClosesOff open' ((⟨k, true⟩ : Bracket).char :: s) ↔ ClosesOff (k :: open') s := by
  rw [closesOff_cons, Bracket.ofListChar?_eq_some_iff.2 ⟨rfl, hk⟩]
  exact ⟨fun ⟨_, he, h⟩ => Option.some.inj he ▸ h, fun h => ⟨k :: open', rfl, h⟩⟩

theorem closesOff_closing (hk : k ≠ .curly) :
    ClosesOff open' ((⟨k, false⟩ : Bracket).char :: s) ↔
      ∃ outer, open' = k :: outer ∧ ClosesOff outer s := by
  rw [closesOff_cons, Bracket.ofListChar?_eq_some_iff.2 ⟨rfl, hk⟩]
  constructor
  · rintro ⟨more, he, h⟩
    cases open' with
    | nil => cases he
    | cons k' outer =>
      simp only [Option.toList_some, pairOff] at he
      split at he
      · next heq => exact ⟨outer, by rw [eq_of_beq heq], Option.some.inj he ▸ h⟩
      · cases he
  · rintro ⟨outer, rfl, h⟩
    exact ⟨outer, by simp [pairOff], h⟩

/-- What is open is closed by a bracket of its shape, with nested ones before it. -/
theorem ClosesOff.closing (h : ClosesOff (k :: open') s) :
    ∃ inner rest, s = inner ++ (⟨k, false⟩ : Bracket).char :: rest ∧ ClosesOff [] inner ∧
      ClosesOff open' rest := by
  obtain ⟨bs, k', more, hbs, hshape, hnested, -⟩ := closing_of_pairOff h
  obtain rfl : k = k' := eq_of_beq hshape
  obtain ⟨inner, rest, rfl, rfl, hrest⟩ := List.filterMap_eq_append_iff.1 hbs
  obtain ⟨plain, c, rest, rfl, hplain, hc, rfl⟩ := List.filterMap_eq_cons_iff.1 hrest
  obtain ⟨rfl, -⟩ := Bracket.ofListChar?_eq_some_iff.1 hc
  refine ⟨inner ++ plain, rest, by rw [List.append_assoc], ?_, ?_⟩
  · rw [ClosesOff, listBrackets, List.filterMap_append, List.filterMap_eq_nil_iff.2 hplain,
      List.append_nil]
    exact nested_iff_pairOff.1 hnested
  · rw [ClosesOff, hbs, pairOff_append, hnested.pairOff, Option.bind_some, pairOff,
      if_pos (beq_self_eq_true k)] at h
    exact h

/-- A character opens a bracket of a shape, closes one, or leaves how many of them are open. -/
theorem ClosesOff.count (hk : k ≠ .curly) (h : ClosesOff open' (c :: s)) :
    c = (⟨k, true⟩ : Bracket).char ∧ ClosesOff (k :: open') s ∨
      (∃ outer, c = (⟨k, false⟩ : Bracket).char ∧ open' = k :: outer ∧ ClosesOff outer s) ∨
      (c ≠ (⟨k, true⟩ : Bracket).char ∧ c ≠ (⟨k, false⟩ : Bracket).char ∧
        ∃ more, more.count k = open'.count k ∧ ClosesOff more s) := by
  by_cases hopen : c = (⟨k, true⟩ : Bracket).char
  · exact .inl ⟨hopen, (closesOff_opening hk).1 (hopen ▸ h)⟩
  by_cases hclose : c = (⟨k, false⟩ : Bracket).char
  · obtain ⟨outer, ho, hs⟩ := (closesOff_closing hk).1 (hclose ▸ h)
    exact .inr (.inl ⟨outer, hclose, ho, hs⟩)
  refine .inr (.inr ⟨hopen, hclose, ?_⟩)
  cases hb : Bracket.ofListChar? c with
  | none => exact ⟨open', rfl, (closesOff_plain (t := [c]) (by simpa using hb)).1 h⟩
  | some b =>
    obtain ⟨rfl, hcurly⟩ := Bracket.ofListChar?_eq_some_iff.1 hb
    obtain ⟨k', opens⟩ := b
    cases opens with
    | true =>
      have hne : k' ≠ k := fun he => hopen (he ▸ rfl)
      exact ⟨k' :: open', List.count_cons_of_ne hne, (closesOff_opening hcurly).1 h⟩
    | false =>
      have hne : k' ≠ k := fun he => hclose (he ▸ rfl)
      obtain ⟨outer, rfl, hs⟩ := (closesOff_closing hcurly).1 h
      exact ⟨outer, (List.count_cons_of_ne hne).symm, hs⟩

/-- Where nothing is opened, nothing is closed. -/
theorem ClosesOff.not_mem_closing (hk : k ≠ .curly) (h : ClosesOff open' s) (hopen : k ∉ open')
    (hs : (⟨k, true⟩ : Bracket).char ∉ s) : (⟨k, false⟩ : Bracket).char ∉ s := by
  induction s generalizing open' with
  | nil => exact List.not_mem_nil
  | cons c s ih =>
    rw [List.mem_cons, not_or] at hs ⊢
    rcases h.count hk with ⟨he, -⟩ | ⟨outer, -, rfl, -⟩ | ⟨-, hclose, more, hcount, hmore⟩
    · exact absurd he.symm hs.1
    · exact absurd List.mem_cons_self hopen
    · refine ⟨Ne.symm hclose, ih hmore ?_ hs.2⟩
      rw [← List.count_eq_zero, hcount, List.count_eq_zero]
      exact hopen

/-- A parenthesis is closed by the one behind what is nested. -/
theorem ClosesOff.afterParen? (h : ClosesOff open' s) (rest : Text) :
    Text.afterParen? (open'.count .round + 1) (s ++ ')' :: rest) = some rest := by
  induction s generalizing open' with
  | nil =>
    obtain rfl := closesOff_nil.1 h
    rfl
  | cons c s ih =>
    rw [List.cons_append]
    rcases h.count (by decide : BracketShape.round ≠ .curly) with
      ⟨rfl, hs⟩ | ⟨outer, rfl, rfl, hs⟩ | ⟨hopen, hclose, more, hcount, hs⟩
    · have := ih hs
      rw [List.count_cons_self] at this
      exact (afterParen?_open _ _).trans this
    · rw [List.count_cons_self]
      exact (afterParen?_close (by omega) _).trans (ih hs)
    · have := ih hs
      rw [hcount] at this
      exact (afterParen?_plain hopen hclose _ _).trans this

end Scholia.Text
