import Scholia.Proofs.Text.Worn
/-!
# The loss of one blank

A text with a blank before a line feed, and what is left of it without this blank. Every byte of the
whole text has its place in what is left: a byte behind the blank moves forward by one.

Two sorts of places can be told apart in both texts: where something begins that is no blank, and
where a piece of a line ends that begins with no blank. What stands between two such places is
`Worn` in what is left.
-/

namespace Scholia.Layout

open Text (IsCut Worn isBlank isLayout)

/-- A text with a blank before a line feed. -/
structure Loss where
  front : Text
  blank : Char
  /-- What follows the line feed. -/
  behind : Text
  layout : isLayout blank = true
  /-- A line feed is lost only with an empty line. -/
  emptyLine : blank = '\n' → front.getLast? = some '\n'

/-! ## Places -/

/-- A byte at which something begins that is no blank. -/
def IsStart (s : Text) (n : Nat) : Prop :=
  ∃ u c r, s = u ++ c :: r ∧ n = Text.width u ∧ isBlank c = false

/-- A byte at which something ends that is no blank. -/
def IsEnd (s : Text) (n : Nat) : Prop :=
  ∃ u c r, s = u ++ c :: r ∧ n = Text.width u + c.utf8Size ∧ isBlank c = false

/-- A byte at which a piece of a line ends that begins with no blank. -/
def IsStop (s : Text) (n : Nat) : Prop :=
  ∃ u c t r, s = u ++ (c :: t ++ r) ∧ n = Text.width (u ++ c :: t) ∧ isBlank c = false ∧ '\n' ∉ t

theorem IsStart.isCut {s : Text} {n : Nat} (h : IsStart s n) : IsCut s n := by
  obtain ⟨u, c, r, rfl, rfl, -⟩ := h
  exact .of_append u (c :: r)

theorem IsStop.isCut {s : Text} {n : Nat} (h : IsStop s n) : IsCut s n := by
  obtain ⟨u, c, t, r, rfl, rfl, -⟩ := h
  rw [← List.append_assoc]
  exact .of_append _ r

theorem IsEnd.isStop {s : Text} {n : Nat} (h : IsEnd s n) : IsStop s n := by
  obtain ⟨u, c, r, rfl, rfl, hc⟩ := h
  exact ⟨u, c, [], r, rfl, by simp, hc, by simp⟩

theorem IsEnd.isCut {s : Text} {n : Nat} (h : IsEnd s n) : IsCut s n :=
  h.isStop.isCut

namespace Loss

variable (e : Loss)

/-- The text from the line feed on. -/
def rest : Text :=
  '\n' :: e.behind

/-- The text with the blank. -/
def whole : Text :=
  e.front ++ e.blank :: e.rest

/-- The text without the blank. -/
def left : Text :=
  e.front ++ e.rest

theorem worn : Worn e.whole e.left :=
  .lost e.front e.behind e.layout e.emptyLine

/-- Where a byte of the whole text is in what is left. -/
def place (n : Nat) : Nat :=
  if n ≤ Text.width e.front then n else n - 1

variable {e} {m n : Nat}

theorem place_of_le (h : n ≤ Text.width e.front) : e.place n = n :=
  if_pos h

theorem place_of_lt (h : Text.width e.front < n) : e.place n = n - 1 :=
  if_neg (Nat.not_le.2 h)

/-- The order of places is kept, but for the places on either side of the blank. -/
theorem place_le_iff (h : m ≠ Text.width e.front + 1 ∨ n ≠ Text.width e.front) :
    e.place m ≤ e.place n ↔ m ≤ n := by
  unfold place
  split <;> split <;> omega

theorem place_inj (hm : m ≠ Text.width e.front + 1) (hn : n ≠ Text.width e.front + 1) :
    e.place m = e.place n ↔ m = n := by
  unfold place
  split <;> split <;> omega

theorem place_add_one (hn : n ≠ Text.width e.front) : e.place (n + 1) = e.place n + 1 := by
  unfold place
  split <;> split <;> omega

theorem width_blank : e.blank.utf8Size = 1 :=
  Text.utf8Size_of_isLayout e.layout

theorem isBlank_blank : isBlank e.blank = true :=
  Text.isBlank_of_isLayout e.layout

/-! ## Starts and stops -/

/-- Nothing starts at the blank. -/
theorem ne_of_isStart (h : IsStart e.whole n) : n ≠ Text.width e.front := by
  obtain ⟨u, c, r, hs, rfl, hc⟩ := h
  intro hw
  obtain ⟨rfl, hrest⟩ := Text.eq_of_append_of_width (a := e.front) hs hw.symm
  rw [← (List.cons.inj hrest).1, isBlank_blank] at hc
  cases hc

/-- Nothing starts at the line feed behind the blank. -/
theorem ne_succ_of_isStart (h : IsStart e.whole n) : n ≠ Text.width e.front + 1 := by
  obtain ⟨u, c, r, hs, rfl, hc⟩ := h
  intro hw
  have hwhole : e.whole = (e.front ++ [e.blank]) ++ e.rest := by simp [whole]
  have hw' : Text.width (e.front ++ [e.blank]) = Text.width u := by
    simp [width_blank, hw]
  rw [hwhole] at hs
  obtain ⟨rfl, hrest⟩ := Text.eq_of_append_of_width hs hw'
  rw [← (List.cons.inj hrest).1] at hc
  exact absurd hc (by decide)

/-- Nothing ends between an empty line and the line end before it. -/
theorem ne_of_isStop (h : IsStop e.whole n) (hx : e.blank = '\n') : n ≠ Text.width e.front := by
  obtain ⟨u, c, t, r, hs, rfl, hc, ht⟩ := h
  intro hw
  rw [← List.append_assoc] at hs
  obtain ⟨hfront, -⟩ := Text.eq_of_append_of_width (a := e.front) hs hw.symm
  have hlast := e.emptyLine hx
  rw [hfront, List.getLast?_append] at hlast
  cases htl : t.getLast? with
  | none =>
    rw [List.getLast?_eq_none_iff.1 htl] at hlast
    cases hlast
    exact absurd hc (by decide)
  | some d =>
    rw [List.getLast?_cons, htl] at hlast
    cases hlast
    exact ht (List.mem_of_getLast? htl)

/-- What ends behind the blank is a piece of its line, so that the blank is no line feed. -/
theorem of_isStop_succ (h : IsStop e.whole n) (hn : n = Text.width e.front + 1) :
    e.blank ≠ '\n' ∧ ∃ init d, e.front = init ++ [d] ∧ d ≠ '\n' := by
  obtain ⟨u, c, t, r, hs, rfl, hc, ht⟩ := h
  have hwhole : e.whole = (e.front ++ [e.blank]) ++ e.rest := by simp [whole]
  have hw : Text.width (e.front ++ [e.blank]) = Text.width (u ++ c :: t) := by
    rw [hn, Text.width_append]
    simp [width_blank]
  rw [hwhole, ← List.append_assoc] at hs
  obtain ⟨hfront, -⟩ := Text.eq_of_append_of_width hs hw
  rcases List.eq_nil_or_concat t with rfl | ⟨t, b, rfl⟩
  · obtain ⟨-, hb⟩ := List.append_inj' hfront rfl
    cases hb
    rw [isBlank_blank] at hc
    cases hc
  · rw [List.concat_eq_append, ← List.cons_append, ← List.append_assoc] at hfront
    obtain ⟨hinit, hb⟩ := List.append_inj' hfront rfl
    cases hb
    have hcn : c ≠ '\n' := by
      rintro rfl
      exact absurd hc (by decide)
    refine ⟨fun he => ht (by rw [he]; simp), ?_⟩
    rcases List.eq_nil_or_concat t with rfl | ⟨t, d, rfl⟩
    · exact ⟨u, c, hinit, hcn⟩
    · refine ⟨u ++ c :: t, d, ?_, ?_⟩
      · rw [hinit, List.concat_eq_append, List.append_assoc]
        rfl
      · rintro rfl
        exact ht (by simp)

/-! ## Slices -/

/-- The shorter of two leading parts leads the longer one. -/
theorem append_of_width_le {a b c d : Text} (h : a ++ b = c ++ d)
    (hw : Text.width a ≤ Text.width c) : ∃ mid, c = a ++ mid ∧ b = mid ++ d := by
  rcases List.append_eq_append_iff.1 h with ⟨mid, hc, hb⟩ | ⟨mid, ha, hd⟩
  · exact ⟨mid, hc, hb⟩
  · have hnil : mid = [] := by
      refine Text.eq_nil_of_width_eq_zero ?_
      rw [ha, Text.width_append] at hw
      omega
    subst hnil
    exact ⟨[], by simp [ha], by simp [hd]⟩

/-- What ends before the blank is a part of the front. -/
theorem front_of_le {a b : Text} (h : e.whole = a ++ b) (hw : Text.width a ≤ Text.width e.front) :
    ∃ mid, e.front = a ++ mid ∧ b = mid ++ e.blank :: e.rest ∧ e.left = a ++ (mid ++ e.rest) := by
  obtain ⟨mid, hf, hb⟩ := append_of_width_le h.symm hw
  exact ⟨mid, hf, hb, by rw [left, hf, List.append_assoc]⟩

/-- What ends behind the blank has lost it. -/
theorem rest_of_lt {a b : Text} (h : e.whole = a ++ b) (hw : Text.width e.front < Text.width a) :
    ∃ mid, a = e.front ++ e.blank :: mid ∧ e.rest = mid ++ b ∧ e.left = e.front ++ mid ++ b ∧
      Text.width a = Text.width e.front + 1 + Text.width mid := by
  have hwhole : (e.front ++ [e.blank]) ++ e.rest = a ++ b := by
    rw [← h, whole, List.append_assoc]
    rfl
  have hle : Text.width (e.front ++ [e.blank]) ≤ Text.width a := by
    rw [Text.width_append]
    simp only [Text.width_cons, Text.width_nil, width_blank]
    omega
  obtain ⟨mid, ha, hrest⟩ := append_of_width_le hwhole hle
  refine ⟨mid, by rw [ha]; simp, hrest, by rw [left, hrest, List.append_assoc], ?_⟩
  rw [ha, Text.width_append, Text.width_append, Text.width_cons, Text.width_nil, width_blank]

/-- A range over the blank loses it. -/
theorem slice_over (hm : IsCut e.whole m) (hn : IsCut e.whole n) (hfront : m ≤ Text.width e.front)
    (hback : Text.width e.front < n) :
    ∃ u v, Text.slice m n e.whole = u ++ e.blank :: v ∧
      Text.slice (e.place m) (e.place n) e.left = u ++ v ∧ u <:+ e.front ∧ v <+: e.rest ∧
      Text.width e.front = m + Text.width u ∧ n = Text.width e.front + 1 + Text.width v := by
  obtain ⟨a, b, c, hs, rfl, rfl⟩ := hm.split hn (by omega)
  obtain ⟨u, hu, hb, hleft⟩ := front_of_le hs hfront
  obtain ⟨v, hab, hrest, -, hw⟩ := rest_of_lt (e := e) (a := a ++ b) (b := c)
    (by rw [hs, List.append_assoc]) (by rwa [Text.width_append])
  have hbv : b = u ++ e.blank :: v := by
    rw [hu, List.append_assoc] at hab
    exact List.append_cancel_left hab
  have hfw : Text.width e.front = Text.width a + Text.width u := by
    rw [hu, Text.width_append]
  have hplace : e.place (Text.width a + Text.width b) = Text.width a + Text.width (u ++ v) := by
    rw [Text.width_append] at hw
    rw [place_of_lt hback, hw, hfw, Text.width_append]
    omega
  refine ⟨u, v, ?_, ?_, ⟨a, hu.symm⟩, ⟨c, hrest.symm⟩, hfw, ?_⟩
  · rw [hs, Text.slice_middle, hbv]
  · rw [place_of_le hfront, hplace, hleft, hrest, ← List.append_assoc u v c, Text.slice_middle]
  · rw [← hw, Text.width_append]

/-- What stands between two places keeps its text, or loses the blank. -/
theorem slice_place (hm : IsCut e.whole m) (hn : IsCut e.whole n) (h : m ≤ n) :
    Text.slice (e.place m) (e.place n) e.left = Text.slice m n e.whole ∨
      ∃ u v, Text.slice m n e.whole = u ++ e.blank :: v ∧
        Text.slice (e.place m) (e.place n) e.left = u ++ v ∧ u <:+ e.front ∧ v <+: e.rest ∧
        Text.width e.front = m + Text.width u ∧ n = Text.width e.front + 1 + Text.width v := by
  by_cases hend : n ≤ Text.width e.front
  · -- the range ends before the blank
    obtain ⟨a, b, c, hs, rfl, rfl⟩ := hm.split hn h
    obtain ⟨mid, -, -, hleft⟩ := front_of_le (a := a ++ b) (b := c) (by rw [hs, List.append_assoc])
      (by rwa [Text.width_append])
    refine .inl ?_
    rw [place_of_le hend, place_of_le (by omega), hleft, List.append_assoc, Text.slice_middle, hs,
      Text.slice_middle]
  by_cases hstart : Text.width e.front < m
  · -- the range starts behind the blank
    obtain ⟨a, b, c, hs, rfl, rfl⟩ := hm.split hn h
    obtain ⟨mid, ha, -, hleft, hw⟩ := rest_of_lt hs hstart
    refine .inl ?_
    have hplace : e.place (Text.width a) = Text.width (e.front ++ mid) := by
      rw [place_of_lt hstart, hw, Text.width_append]
      omega
    have hplace' : e.place (Text.width a + Text.width b) =
        Text.width (e.front ++ mid) + Text.width b := by
      rw [place_of_lt (by omega), hw, Text.width_append]
      omega
    rw [hplace, hplace', hleft, Text.slice_middle, hs, Text.slice_middle]
  · exact .inr (slice_over hm hn (by omega) (by omega))

/-- A part of the front that is not empty ends as the front does. -/
theorem getLast?_of_suffix {u : Text} (h : u <:+ e.front) (hne : u ≠ []) :
    u.getLast? = e.front.getLast? := by
  obtain ⟨a, ha⟩ := h
  rw [← ha, List.getLast?_append]
  cases hu : u.getLast? with
  | none => exact absurd (List.getLast?_eq_none_iff.1 hu) hne
  | some c => rfl

/-- **What stands before a start is worn**. -/
theorem worn_slice (hm : IsStart e.whole m ∨ IsStop e.whole m) (hn : IsStart e.whole n)
    (h : m ≤ n) : Worn (Text.slice m n e.whole) (Text.slice (e.place m) (e.place n) e.left) := by
  have hmcut : IsCut e.whole m := hm.elim IsStart.isCut IsStop.isCut
  rcases slice_place hmcut hn.isCut h with he | ⟨u, v, hs, ht, hu, hv, hfront, hback⟩
  · rw [he]
    exact .same _
  · have hne := ne_succ_of_isStart hn
    cases v with
    | nil =>
      rw [Text.width_nil] at hback
      exact absurd hback hne
    | cons c v =>
      obtain ⟨r, hr⟩ := hv
      obtain ⟨rfl, -⟩ := List.cons.inj hr
      rw [hs, ht]
      refine .lost u v e.layout fun hx => ?_
      have hune : u ≠ [] := by
        rintro rfl
        rw [Text.width_nil, Nat.add_zero] at hfront
        rcases hm with hm | hm
        · exact ne_of_isStart hm hfront.symm
        · exact ne_of_isStop hm hx hfront.symm
      rw [getLast?_of_suffix hu hune, e.emptyLine hx]

/-- Nothing that is no blank ends with the blank. -/
theorem ne_of_isEnd (h : IsEnd e.whole n) : n ≠ Text.width e.front + 1 := by
  obtain ⟨u, c, r, hs, rfl, hc⟩ := h
  intro hw
  have hwhole : e.whole = (e.front ++ [e.blank]) ++ e.rest := by simp [whole]
  have hu : e.whole = (u ++ [c]) ++ r := by rw [hs]; simp
  rw [hwhole] at hu
  obtain ⟨hfront, -⟩ := Text.eq_of_append_of_width hu (by simp [width_blank, hw])
  obtain ⟨-, hb⟩ := List.append_inj' hfront rfl
  cases hb
  rw [isBlank_blank] at hc
  cases hc

/-- **What stands between a start and an end is worn**. -/
theorem worn_slice_end (hm : IsStart e.whole m) (hn : IsEnd e.whole n) (h : m ≤ n) :
    Worn (Text.slice m n e.whole) (Text.slice (e.place m) (e.place n) e.left) := by
  rcases slice_place hm.isCut hn.isCut h with he | ⟨u, v, hs, ht, hu, hv, hfront, hback⟩
  · rw [he]
    exact .same _
  · have hune : u ≠ [] := by
      rintro rfl
      exact ne_of_isStart hm hfront.symm
    cases v with
    | nil => exact absurd hback (ne_of_isEnd hn)
    | cons c v =>
      obtain ⟨r, hr⟩ := hv
      obtain ⟨rfl, -⟩ := List.cons.inj hr
      rw [hs, ht]
      exact .lost u v e.layout fun hx => by rw [getLast?_of_suffix hu hune, e.emptyLine hx]

/-- A range from a start to a stop that does not hold a lost line feed keeps its lines, without the
blanks at their ends. -/
theorem lineTexts_slice (hm : IsStart e.whole m) (hn : IsStop e.whole n) (h : m ≤ n)
    (hline : e.blank = '\n' → n ≤ Text.width e.front ∨ Text.width e.front < m) :
    Text.lineTexts (Text.slice m n e.whole) =
      Text.lineTexts (Text.slice (e.place m) (e.place n) e.left) := by
  rcases slice_place hm.isCut hn.isCut h with he | ⟨u, v, hs, ht, hu, hv, hfront, hback⟩
  · rw [he]
  have hx : e.blank ≠ '\n' := by
    intro hx
    have := hline hx
    omega
  have hune : u ≠ [] := by
    rintro rfl
    exact ne_of_isStart hm hfront.symm
  rw [hs, ht]
  cases v with
  | nil =>
    obtain ⟨-, init, d, hinit, hd⟩ := of_isStop_succ hn hback
    have hlast := getLast?_of_suffix hu hune
    rw [hinit, List.getLast?_concat] at hlast
    obtain ⟨u, rfl⟩ := List.getLast?_eq_some_iff.1 hlast
    rw [List.append_nil, Text.lineTexts_concat hd hx (isBlank_blank (e := e))]
  | cons c v =>
    obtain ⟨r, hr⟩ := hv
    obtain ⟨rfl, -⟩ := List.cons.inj hr
    exact Text.lineTexts_lost hx (isBlank_blank (e := e)) u v

/-- A pattern without layout is found in both texts. -/
theorem holds_slice {p : Text} (hp : ∀ c ∈ p, isLayout c = false) (hne : p ≠ [])
    (hm : IsCut e.whole m) (hn : IsCut e.whole n) (h : m ≤ n) :
    Text.holds p (Text.slice m n e.whole) =
      Text.holds p (Text.slice (e.place m) (e.place n) e.left) := by
  have hxp : e.blank ∉ p := fun hmem => by
    have := e.layout
    rw [hp _ hmem] at this
    cases this
  have hnp : '\n' ∉ p := fun hmem => absurd (hp _ hmem) (by decide)
  rcases slice_place hm hn h with he | ⟨u, v, hs, ht, -, hv, -, -⟩
  · rw [he]
  rw [hs, ht, Text.holds_append hxp hne]
  cases v with
  | nil => simp [Text.holds_nil hne]
  | cons c v =>
    obtain ⟨r, hr⟩ := hv
    obtain ⟨rfl, -⟩ := List.cons.inj hr
    rw [Text.holds_append hnp hne, ← List.nil_append ('\n' :: v), Text.holds_append hnp hne,
      Text.holds_nil hne, Bool.false_or]

/-- Only blanks stand in both ranges, or in none. -/
theorem allBlank_slice (hm : IsCut e.whole m) (hn : IsCut e.whole n) (h : m ≤ n) :
    Text.allBlank (Text.slice m n e.whole) =
      Text.allBlank (Text.slice (e.place m) (e.place n) e.left) := by
  rcases slice_place hm hn h with he | ⟨u, v, hs, ht, -⟩
  · rw [he]
  · rw [hs, ht]
    simp [Text.allBlank, isBlank_blank (e := e)]

/-- What begins at a start is empty in both texts or in none. -/
theorem isEmpty_slice (hm : IsStart e.whole m) (hn : IsCut e.whole n) (h : m ≤ n) :
    (Text.slice m n e.whole).isEmpty =
      (Text.slice (e.place m) (e.place n) e.left).isEmpty := by
  rcases slice_place hm.isCut hn h with he | ⟨u, v, hs, ht, -, -, hfront, -⟩
  · rw [he]
  · cases u with
    | nil => exact absurd hfront.symm (ne_of_isStart hm)
    | cons c u => rw [hs, ht]; rfl

end Loss

end Scholia.Layout
