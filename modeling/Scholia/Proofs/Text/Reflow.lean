import Scholia.Proofs.Text.Worn
/-!
# Texts with other margins

Code that is moved to another column, and loses the blanks at its line ends, changes next to its line
feeds only. `Reflow s t` says that `t` is `s` without some of the spaces, tabs and carriage returns
that stand before or behind a line feed, with nothing else between. Every line feed stays, so that
words stay apart; and what is found by a pattern without layout is found in both texts.
-/

namespace Scholia.Text

/-- Space, tab and carriage return. -/
def isMargin (c : Char) : Bool :=
  c == ' ' || c == '\t' || c == '\r'

/-- A text of nothing but margin. -/
def Margin (s : Text) : Prop := ∀ c ∈ s, isMargin c = true

/-- The second text is the first one without some of its margins. -/
inductive Reflow : Text → Text → Prop
  | nil : Reflow [] []
  | keep (c : Char) {s t : Text} (h : Reflow s t) : Reflow (c :: s) (c :: t)
  | gap {u v s t : Text} (hu : Margin u) (hv : Margin v) (h : Reflow s t) :
    Reflow (u ++ '\n' :: (v ++ s)) ('\n' :: t)

theorem isLayout_of_isMargin {c : Char} (h : isMargin c = true) : isLayout c = true := by
  rw [isLayout, Bool.or_eq_true]
  exact .inl h

theorem isMargin_of_isLayout {c : Char} (h : isLayout c = true) (hn : c ≠ '\n') :
    isMargin c = true := by
  rw [isLayout, Bool.or_eq_true, beq_iff_eq] at h
  exact h.resolve_right hn

theorem ne_newline_of_isMargin {c : Char} (h : isMargin c = true) : c ≠ '\n' := by
  rintro rfl
  cases h

theorem Margin.nil : Margin [] :=
  fun _ h => absurd h List.not_mem_nil

theorem Margin.layout {u : Text} (h : Margin u) : ∀ c ∈ u, isLayout c = true :=
  fun c hc => isLayout_of_isMargin (h c hc)

theorem Margin.layout_gap {u v : Text} (hu : Margin u) (hv : Margin v) :
    ∀ c ∈ u ++ '\n' :: v, isLayout c = true := by
  intro c hc
  rcases List.mem_append.1 hc with hc | hc
  · exact hu.layout c hc
  rcases List.mem_cons.1 hc with rfl | hc
  · decide
  · exact hv.layout c hc

theorem Margin.reverse {u : Text} (h : Margin u) : Margin u.reverse :=
  fun c hc => h c (List.mem_reverse.1 hc)

theorem Margin.not_newline {u : Text} (h : Margin u) : '\n' ∉ u :=
  fun hn => ne_newline_of_isMargin (h _ hn) rfl

theorem isLayout_newline : ∀ c ∈ ['\n'], isLayout c = true :=
  List.forall_mem_singleton.2 (by decide)

/-- What a gap begins with is layout. -/
theorem Margin.exists_head {u : Text} (h : Margin u) (r : Text) :
    ∃ c r', u ++ '\n' :: r = c :: r' ∧ isLayout c = true := by
  cases u with
  | nil => exact ⟨'\n', r, rfl, by decide⟩
  | cons c u => exact ⟨c, u ++ '\n' :: r, rfl, isLayout_of_isMargin (h c List.mem_cons_self)⟩

namespace Reflow

variable {s t s' t' : Text}

theorem refl (s : Text) : Reflow s s := by
  induction s with
  | nil => exact .nil
  | cons c s ih => exact .keep c ih

theorem append (h : Reflow s t) (h' : Reflow s' t') : Reflow (s ++ s') (t ++ t') := by
  induction h with
  | nil => exact h'
  | keep c _ ih => exact .keep c ih
  | gap hu hv _ ih =>
    rw [List.append_assoc, List.cons_append, List.append_assoc]
    exact .gap hu hv ih

theorem reverse (h : Reflow s t) : Reflow s.reverse t.reverse := by
  induction h with
  | nil => exact .nil
  | keep c _ ih =>
    rw [List.reverse_cons, List.reverse_cons]
    exact ih.append (.refl [c])
  | @gap u v s t hu hv _ ih =>
    have hturned : (u ++ '\n' :: (v ++ s)).reverse =
        s.reverse ++ (v.reverse ++ '\n' :: (u.reverse ++ [])) := by
      simp
    rw [hturned, List.reverse_cons]
    exact ih.append (.gap hv.reverse hu.reverse .nil)

/-- The first character stays, unless it is part of a gap. -/
theorem of_cons {c : Char} (h : Reflow (c :: s) t) :
    (∃ t', t = c :: t' ∧ Reflow s t') ∨
      ∃ u v s' t', Margin u ∧ Margin v ∧ c :: s = u ++ '\n' :: (v ++ s') ∧ t = '\n' :: t' ∧
        Reflow s' t' := by
  generalize hs : c :: s = whole at h
  cases h with
  | nil => cases hs
  | keep d h =>
    cases hs
    exact .inl ⟨_, rfl, h⟩
  | gap hu hv h => exact .inr ⟨_, _, _, _, hu, hv, rfl, rfl, h⟩

/-- A character that is no layout stays. -/
theorem of_code {c : Char} (hc : isLayout c = false) (h : Reflow (c :: s) t) :
    ∃ t', t = c :: t' ∧ Reflow s t' := by
  rcases h.of_cons with h | ⟨u, v, s', t', hu, -, he, -⟩
  · exact h
  · obtain ⟨d, r, hd, hlayout⟩ := hu.exists_head (v ++ s')
    rw [hd] at he
    rw [(List.cons.inj he).1, hlayout] at hc
    cases hc

theorem head?_iff {d : Char} (hd : isLayout d = false) (h : Reflow s t) :
    s.head? = some d ↔ t.head? = some d := by
  cases h with
  | nil => exact Iff.rfl
  | keep c h => exact Iff.rfl
  | @gap u v s t hu hv h =>
    obtain ⟨c, r, he, hc⟩ := hu.exists_head (v ++ s)
    rw [he]
    constructor
    · intro hsome
      exact absurd (Option.some.inj hsome) (ne_of_isLayout hc hd)
    · intro hsome
      exact absurd (Option.some.inj hsome) (ne_of_isLayout (by decide) hd)

/-- What does not tell layout apart is the same of both first characters. -/
theorem head?_map {β : Type} {f : Char → β} {b : β} (hf : ∀ c, isLayout c = true → f c = b)
    (h : Reflow s t) : s.head?.map f = t.head?.map f := by
  cases h with
  | nil => rfl
  | keep c h => rfl
  | @gap u v s t hu hv h =>
    obtain ⟨c, r, he, hc⟩ := hu.exists_head (v ++ s)
    rw [he]
    exact congrArg some ((hf c hc).trans (hf '\n' (by decide)).symm)

/-- A text without layout at the start stays. -/
theorem of_codes {p : Text} (hp : ∀ c ∈ p, isLayout c = false) (h : Reflow (p ++ s) t) :
    ∃ t', t = p ++ t' ∧ Reflow s t' := by
  induction p generalizing t with
  | nil => exact ⟨t, rfl, h⟩
  | cons c p ih =>
    obtain ⟨hc, hp⟩ := List.forall_mem_cons.1 hp
    obtain ⟨t, rfl, htail⟩ := of_code hc h
    obtain ⟨t, rfl, hrest⟩ := ih hp htail
    exact ⟨t, rfl, hrest⟩

/-- Both texts begin with a text without layout, or none does. -/
theorem prefix_iff {p : Text} (hp : ∀ c ∈ p, isLayout c = false) (h : Reflow s t) :
    p <+: s ↔ p <+: t := by
  constructor
  · rintro ⟨r, rfl⟩
    obtain ⟨t, rfl, -⟩ := h.of_codes hp
    exact List.prefix_append p t
  · intro ht
    induction p generalizing s t with
    | nil => exact List.nil_prefix
    | cons c p ih =>
      obtain ⟨hc, hp⟩ := List.forall_mem_cons.1 hp
      obtain ⟨r, rfl⟩ := ht
      obtain ⟨s, rfl⟩ := List.head?_eq_some_iff.1 ((h.head?_iff hc).2 rfl)
      obtain ⟨t, he, htail⟩ := h.of_code hc
      obtain rfl : p ++ r = t := (List.cons.inj he).2
      exact List.cons_prefix_cons.2 ⟨rfl, ih hp htail (List.prefix_append p r)⟩

/-! ## Leading characters -/

/-- Both texts begin with the same characters of a class without layout. -/
theorem takeWhile {p : Char → Bool} (hp : ∀ c, isLayout c = true → p c = false)
    (h : Reflow s t) :
    s.takeWhile p = t.takeWhile p ∧ Reflow (s.dropWhile p) (t.dropWhile p) := by
  induction h with
  | nil => exact ⟨rfl, .nil⟩
  | keep c h ih =>
    rw [List.takeWhile_cons, List.takeWhile_cons, List.dropWhile_cons, List.dropWhile_cons]
    split
    · exact ⟨congrArg _ ih.1, ih.2⟩
    · exact ⟨rfl, .keep c h⟩
  | @gap u v s t hu hv h ih =>
    obtain ⟨c, r, he, hc⟩ := hu.exists_head (v ++ s)
    have hwhole := Reflow.gap hu hv h
    rw [he] at hwhole ⊢
    have hstop : ¬ p c = true := by simp [hp c hc]
    have hnewline : ¬ p '\n' = true := by simp [hp '\n' (by decide)]
    rw [List.takeWhile_cons_of_neg hstop, List.takeWhile_cons_of_neg hnewline,
      List.dropWhile_cons_of_neg hstop, List.dropWhile_cons_of_neg hnewline]
    exact ⟨rfl, hwhole⟩

/-- A class with all layout leaves nothing of a gap. -/
theorem dropWhile_gap {p : Char → Bool} (hp : ∀ c, isLayout c = true → p c = true) {u v : Text}
    (hu : Margin u) (hv : Margin v) (s : Text) :
    (u ++ '\n' :: (v ++ s)).dropWhile p = s.dropWhile p := by
  rw [← List.cons_append, ← List.append_assoc,
    List.dropWhile_append_of_pos fun c hc => hp c (hu.layout_gap hv c hc)]

theorem dropWhile {p : Char → Bool} (hp : ∀ c, isLayout c = true → p c = true)
    (h : Reflow s t) : Reflow (s.dropWhile p) (t.dropWhile p) := by
  induction h with
  | nil => exact .nil
  | keep c h ih =>
    rw [List.dropWhile_cons, List.dropWhile_cons]
    split
    · exact ih
    · exact .keep c h
  | gap hu hv h ih =>
    rw [dropWhile_gap hp hu hv, List.dropWhile_cons_of_pos (hp '\n' (by decide))]
    exact ih

/-! ## Words -/

theorem words_front {u : Text} (hu : ∀ c ∈ u, isBlank c = true) (s : Text) :
    words (u ++ s) = words s := by
  induction u with
  | nil => rfl
  | cons c u ih =>
    rw [List.cons_append, words_cons (hu c List.mem_cons_self)]
    exact ih fun d hd => hu d (List.mem_cons_of_mem _ hd)

theorem words_back {u : Text} (hu : ∀ c ∈ u, isBlank c = true) (s : Text) :
    words (s ++ u) = words s := by
  cases u with
  | nil => rw [List.append_nil]
  | cons c u =>
    have hnone := words_front (fun d hd => hu d (List.mem_cons_of_mem _ hd)) []
    rw [List.append_nil] at hnone
    rw [words_append (hu c List.mem_cons_self), hnone]
    exact List.append_nil _

/-- **Words do not depend on margins**. -/
theorem words (h : Reflow s t) : words s = words t := by
  have key : ∀ front : Text, Text.words (front ++ s) = Text.words (front ++ t) := by
    induction h with
    | nil => exact fun _ => rfl
    | keep c h ih =>
      intro front
      have := ih (front ++ [c])
      rwa [List.append_assoc, List.append_assoc] at this
    | @gap u v s t hu hv h ih =>
      intro front
      have hblank : ∀ w : Text, Margin w → ∀ c ∈ w, isBlank c = true := fun w hw c hc =>
        isBlank_of_isLayout (hw.layout c hc)
      rw [← List.append_assoc, words_append (by decide), words_append (by decide),
        words_back (hblank u hu), words_front (hblank v hv)]
      exact congrArg _ (ih [])
  exact key []

/-! ## Patterns -/

/-- Two texts that have been cut. -/
def Cuts (a b : Text × Text) : Prop :=
  Reflow a.1 b.1 ∧ Reflow a.2 b.2

theorem exists_of_rel {x y : Option (Text × Text)} {a b : Text} (h : Option.Rel Cuts x y)
    (hx : x = some (a, b)) : ∃ a' b', y = some (a', b') ∧ Reflow a a' ∧ Reflow b b' := by
  cases h with
  | none => cases hx
  | some h =>
    cases hx
    exact ⟨_, _, rfl, h.1, h.2⟩

/-- A pattern without layout leads both texts or none. -/
theorem dropLead? {p : Text} (hp : ∀ c ∈ p, isLayout c = false) (h : Reflow s t) :
    Option.Rel Reflow (dropLead? p s) (dropLead? p t) := by
  induction p generalizing s t with
  | nil =>
    rw [Text.dropLead?, Text.dropLead?]
    exact .some h
  | cons d p ih =>
    have hd := hp d List.mem_cons_self
    cases h with
    | nil =>
      rw [Text.dropLead?]
      exact .none
    | keep c h =>
      rw [Text.dropLead?, Text.dropLead?]
      split
      · exact ih (fun c hc => hp c (List.mem_cons_of_mem _ hc)) h
      · exact .none
    | @gap u v s t hu hv h =>
      obtain ⟨c, r, he, hc⟩ := hu.exists_head (v ++ s)
      rw [he, Text.dropLead?, Text.dropLead?, if_neg (ne_of_isLayout hc hd).symm,
        if_neg (ne_of_isLayout (by decide) hd).symm]
      exact .none

theorem cutAt?_cons {p : Text} {c : Char} (hne : p ≠ []) (hp : ∀ d ∈ p, isLayout d = false)
    (hc : isLayout c = true) (s : Text) :
    cutAt? p (c :: s) = (cutAt? p s).map fun (before, rest) => (c :: before, rest) := by
  cases p with
  | nil => exact absurd rfl hne
  | cons d p =>
    rw [cutAt?, Text.dropLead?, if_neg (ne_of_isLayout hc (hp d List.mem_cons_self)).symm]

/-- A text that is scanned to an end, where layout is passed over. -/
theorem scan_layout {scan : Text → Option (Text × Text)}
    (hscan : ∀ c s, isLayout c = true →
      scan (c :: s) = (scan s).map fun (before, rest) => (c :: before, rest))
    {u : Text} (hu : ∀ c ∈ u, isLayout c = true) (s : Text) :
    scan (u ++ s) = (scan s).map fun (before, rest) => (u ++ before, rest) := by
  induction u with
  | nil => exact Option.map_id'.symm
  | cons c u ih =>
    rw [List.cons_append, hscan c _ (hu c List.mem_cons_self),
      ih fun d hd => hu d (List.mem_cons_of_mem _ hd), Option.map_map]
    rfl

/-- **What passes over layout cuts both texts or none** behind a gap, if it does so behind it. -/
theorem scan_gap {scan : Text → Option (Text × Text)}
    (hscan : ∀ c s, isLayout c = true →
      scan (c :: s) = (scan s).map fun (before, rest) => (c :: before, rest))
    {u v : Text} (hu : Margin u) (hv : Margin v) (h : Option.Rel Cuts (scan s) (scan t)) :
    Option.Rel Cuts (scan (u ++ '\n' :: (v ++ s))) (scan ('\n' :: t)) := by
  rw [scan_layout hscan hu.layout, hscan '\n' _ (by decide), scan_layout hscan hv.layout,
    hscan '\n' _ (by decide)]
  revert h
  generalize scan s = a, scan t = b
  rintro (h | _)
  · exact .some ⟨.gap hu hv h.1, h.2⟩
  · exact .none

theorem cutAt? {p : Text} (hne : p ≠ []) (hp : ∀ c ∈ p, isLayout c = false) (h : Reflow s t) :
    Option.Rel Cuts (cutAt? p s) (cutAt? p t) := by
  induction h with
  | nil =>
    rw [Text.cutAt?]
    cases Text.dropLead? p [] with
    | none => exact .none
    | some r => exact .some ⟨.nil, .refl r⟩
  | @keep c s t h ih =>
    rw [Text.cutAt?, Text.cutAt?]
    have hlead := (h.keep c).dropLead? hp
    revert hlead
    generalize Text.dropLead? p (c :: s) = a, Text.dropLead? p (c :: t) = b
    rintro (hrest | _)
    · exact .some ⟨.nil, hrest⟩
    · revert ih
      generalize Text.cutAt? p s = a, Text.cutAt? p t = b
      rintro (hcut | _)
      · exact .some ⟨.keep c hcut.1, hcut.2⟩
      · exact .none
  | gap hu hv h ih => exact scan_gap (fun c s hc => cutAt?_cons hne hp hc s) hu hv ih

/-! ## Lines -/

/-- **The first line of a text**: it is the whole text, or it ends with a gap. -/
theorem line (h : Reflow s t) :
    (s = t ∧ '\n' ∉ s) ∨
      ∃ x u v s' t', '\n' ∉ x ∧ Margin u ∧ Margin v ∧ s = x ++ (u ++ '\n' :: (v ++ s')) ∧
        t = x ++ '\n' :: t' ∧ Reflow s' t' := by
  induction h with
  | nil => exact .inl ⟨rfl, List.not_mem_nil⟩
  | @keep c s t h ih =>
    by_cases hc : c = '\n'
    · subst hc
      exact .inr ⟨[], [], [], s, t, List.not_mem_nil, .nil, .nil, rfl, rfl, h⟩
    · rcases ih with ⟨rfl, hn⟩ | ⟨x, u, v, s', t', hx, hu, hv, rfl, rfl, h'⟩
      · exact .inl ⟨rfl, fun he => (List.mem_cons.1 he).elim (fun he => hc he.symm) hn⟩
      · refine .inr ⟨c :: x, u, v, s', t', fun he => ?_, hu, hv, rfl, rfl, h'⟩
        exact (List.mem_cons.1 he).elim (fun he => hc he.symm) hx
  | gap hu hv h => exact .inr ⟨[], _, _, _, _, List.not_mem_nil, hu, hv, rfl, rfl, h⟩

end Reflow

end Scholia.Text
