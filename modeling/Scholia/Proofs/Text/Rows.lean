import Scholia.Proofs.Text.Shifted
/-!
# The rows of a text

The rows of a text are what stands between its line feeds, without the blanks around it. A text at
another column has the same rows (`Shifted.rows_eq`), and its lines are indented as far from each
other as before (`Shifted.levels`). Blanks around a text add empty rows at its ends and no others,
so that what passes over empty rows at the ends reads the same of a text that is moved as a whole
(`Moved.lines_eq`).
-/

namespace Scholia.Text

variable {a b : Nat} {s t u w : Text} {c : Char}

def rows (s : Text) : List Text :=
  (splitWhere (· == '\n') s).map trim

/-- A text in its rows, begun by a character within a line. -/
theorem splitWhere_cons (hc : c ≠ '\n') (s : Text) :
    ∃ q ls, splitWhere (· == '\n') s = q :: ls ∧
      splitWhere (· == '\n') (c :: s) = (c :: q) :: ls := by
  rw [splitWhere, if_neg (by simpa using hc)]
  cases hs : splitWhere (· == '\n') s with
  | nil => exact absurd hs (splitWhere_ne_nil _ _)
  | cons q ls => exact ⟨q, ls, rfl, rfl⟩

theorem splitWhere_within (hu : '\n' ∉ u) (s : Text) :
    ∃ q ls, splitWhere (· == '\n') s = q :: ls ∧
      splitWhere (· == '\n') (u ++ s) = (u ++ q) :: ls := by
  induction u with
  | nil =>
    cases hs : splitWhere (· == '\n') s with
    | nil => exact absurd hs (splitWhere_ne_nil _ _)
    | cons q ls => exact ⟨q, ls, rfl, hs⟩
  | cons c u ih =>
    rw [List.mem_cons, not_or] at hu
    obtain ⟨q, ls, hs, hq⟩ := ih hu.2
    obtain ⟨q', ls', hs', hq'⟩ := splitWhere_cons (Ne.symm hu.1) (u ++ s)
    rw [hq] at hs'
    obtain ⟨rfl, rfl⟩ := List.cons.inj hs'
    exact ⟨q, ls, hs, hq'⟩

theorem trim_blanks (hw : allBlank w = true) (s : Text) : trim (w ++ s) = trim s :=
  congrArg trimEnd (List.dropWhile_append_of_pos (List.all_eq_true.1 hw))

theorem trim_trim (s : Text) : trim (trim s) = trim s := by
  obtain ⟨lead, hs, hlead⟩ := append_trimStartWhere isBlank s
  have hstart : trim (trimStart s) = trim s := by
    conv_rhs => rw [hs]
    rw [trim_blanks hlead]
    rfl
  exact (trim_trimEnd (trimStart s)).trans hstart

/-! ## Blanks around a text -/

/-- **Blanks in front of a text add empty rows**. -/
theorem rows_blanks (hw : allBlank w = true) (s : Text) :
    ∃ k, rows (w ++ s) = List.replicate k [] ++ rows s := by
  induction w with
  | nil => exact ⟨0, rfl⟩
  | cons c w ih =>
    rw [allBlank, List.all_cons, Bool.and_eq_true] at hw
    obtain ⟨k, hk⟩ := ih hw.2
    by_cases hc : c = '\n'
    · subst hc
      exact ⟨k + 1, congrArg ([] :: ·) hk⟩
    · obtain ⟨q, ls, hs, hq⟩ := splitWhere_cons hc (w ++ s)
      refine ⟨k, ?_⟩
      rw [← hk, rows, rows, List.cons_append, hs, hq, List.map_cons, List.map_cons,
        show trim (c :: q) = trim q from trim_blanks (w := [c]) (by simp [allBlank, hw.1]) q]

/-- The rows of a blank text are blank. -/
theorem splitWhere_of_allBlank (hw : allBlank w = true) :
    ∃ k, (splitWhere (· == '\n') w).map trimEnd = [] :: List.replicate k [] := by
  induction w with
  | nil => exact ⟨0, rfl⟩
  | cons c w ih =>
    rw [allBlank, List.all_cons, Bool.and_eq_true] at hw
    obtain ⟨k, hk⟩ := ih hw.2
    by_cases hc : c = '\n'
    · subst hc
      exact ⟨k + 1, congrArg ([] :: ·) hk⟩
    · obtain ⟨q, ls, hs, hq⟩ := splitWhere_cons hc w
      rw [hs, List.map_cons] at hk
      obtain ⟨hfirst, hrest⟩ := List.cons.inj hk
      refine ⟨k, ?_⟩
      have hc : trimEnd [c] = [] := trimEnd_of_allBlank (by simp [allBlank, hw.1])
      rw [hq, List.map_cons, hrest, trimEnd_cons, hfirst, hc]

/-- **Blanks behind a text add empty rows**. -/
theorem rows_append_blanks (hw : allBlank w = true) (s : Text) :
    ∃ k, rows (s ++ w) = rows s ++ List.replicate k [] := by
  have key : ∃ k, (splitWhere (· == '\n') (s ++ w)).map trimEnd =
      (splitWhere (· == '\n') s).map trimEnd ++ List.replicate k [] := by
    induction s with
    | nil =>
      obtain ⟨k, hk⟩ := splitWhere_of_allBlank hw
      exact ⟨k, hk⟩
    | cons c s ih =>
      obtain ⟨k, hk⟩ := ih
      refine ⟨k, ?_⟩
      by_cases hc : c = '\n'
      · subst hc
        exact congrArg ([] :: ·) hk
      · obtain ⟨q, ls, hs, hq⟩ := splitWhere_cons hc s
        obtain ⟨q', ls', hs', hq'⟩ := splitWhere_cons hc (s ++ w)
        rw [hs, hs', List.map_cons, List.map_cons] at hk
        obtain ⟨hfirst, hrest⟩ := List.cons.inj hk
        rw [List.cons_append, hq, hq', List.map_cons, List.map_cons, hrest, trimEnd_cons c q',
          hfirst, ← trimEnd_cons]
        rfl
  have hbare : ∀ s : Text, rows s = ((splitWhere (· == '\n') s).map trimEnd).map trim := by
    intro s
    rw [rows, List.map_map]
    exact List.map_congr_left fun l _ => (trim_trimEnd l).symm
  obtain ⟨k, hk⟩ := key
  refine ⟨k, ?_⟩
  rw [hbare, hk, List.map_append, ← hbare, List.map_replicate]
  rfl

/-- **The lines of a text are its rows**, but for an empty one at the end. -/
theorem rows_lines (s : Text) :
    rows s = (lines s).map trim ∨ rows s = (lines s).map trim ++ [[]] := by
  unfold rows lines
  generalize splitWhere (· == '\n') s = parts
  fun_induction closeLines parts with
  | case1 => exact .inl rfl
  | case2 last hlast =>
    rw [List.isEmpty_iff.1 hlast]
    exact .inr rfl
  | case3 last hlast => exact .inl rfl
  | case4 part parts hne ih =>
    have hpart : trim (dropReturn part) = trim part := by
      rw [← trim_trimEnd (dropReturn part), trimEnd_dropReturn, trim_trimEnd]
    rw [List.map_cons, List.map_cons, hpart]
    rcases ih with he | he
    · exact .inl (congrArg (trim part :: ·) he)
    · exact .inr (congrArg (trim part :: ·) he)

/-- A fold over the lines is one over the parts between line feeds, if the blanks at their ends and
a last empty one make no difference. -/
theorem foldl_lines {σ β : Type} {step : σ → Text → σ} {finish : σ → β}
    (htrim : ∀ st line, step st (trimEnd line) = step st line)
    (hempty : ∀ st, finish (step st []) = finish st) (s : Text) (first : σ) :
    finish ((lines s).foldl step first) =
      finish ((splitWhere (· == '\n') s).foldl step first) := by
  unfold lines
  generalize splitWhere (· == '\n') s = parts
  fun_induction closeLines parts generalizing first with
  | case1 => rfl
  | case2 last hlast =>
    rw [List.isEmpty_iff.1 hlast]
    exact (hempty first).symm
  | case3 last hlast => rfl
  | case4 part parts hne ih =>
    rw [List.foldl_cons, List.foldl_cons, ih, ← htrim first (dropReturn part), trimEnd_dropReturn,
      htrim]

/-- What passes over empty rows at both ends. -/
structure PassesEmpty {β : Type} (f : List Text → β) : Prop where
  front : ∀ ls, f ([] :: ls) = f ls
  back : ∀ ls, f (ls ++ [[]]) = f ls

namespace PassesEmpty

variable {β : Type} {f : List Text → β}

theorem replicate_front (h : PassesEmpty f) (k : Nat) (ls : List Text) :
    f (List.replicate k [] ++ ls) = f ls := by
  induction k with
  | zero => rfl
  | succ k ih => exact (h.front _).trans ih

theorem replicate_back (h : PassesEmpty f) (k : Nat) (ls : List Text) :
    f (ls ++ List.replicate k []) = f ls := by
  induction k with
  | zero => rw [List.replicate_zero, List.append_nil]
  | succ k ih => rw [List.replicate_succ', ← List.append_assoc, h.back, ih]

theorem lines (h : PassesEmpty f) (s : Text) : f ((lines s).map trim) = f (rows s) := by
  rcases rows_lines s with he | he
  · rw [he]
  · rw [he, h.back]

end PassesEmpty

/-- A fold that does nothing on an empty row passes over it. -/
theorem passesEmpty_foldl {σ : Type} {step : σ → Text → σ} (hstep : ∀ st, step st [] = st)
    (first : σ) : PassesEmpty fun ls => ls.foldl step first where
  front ls := by rw [List.foldl_cons, hstep]
  back ls := by rw [List.foldl_append, List.foldl_cons, hstep, List.foldl_nil]

/-! ## Columns -/

/-- The bytes before the text of a line. -/
def margin (line : Text) : Nat :=
  width line - width (trimStart line)

theorem margin_append (hu : allBlank u = true) (s : Text) :
    margin (u ++ s) = width u + margin s := by
  have hle : width (trimStart s) ≤ width s := by
    obtain ⟨lead, hs, -⟩ := append_trimStartWhere isBlank s
    have hw := congrArg width hs
    rw [width_append] at hw
    exact Nat.le.intro ((Nat.add_comm _ _).trans hw.symm)
  have hstart : trimStart (u ++ s) = trimStart s :=
    List.dropWhile_append_of_pos (List.all_eq_true.1 hu)
  rw [margin, margin, hstart, width_append]
  omega

theorem margin_trimEnd (h : allBlank s = false) : margin (trimEnd s) = margin s :=
  width_indent_trimEnd h

theorem allBlank_trimEnd (s : Text) : allBlank (trimEnd s) = allBlank s := by
  obtain ⟨tail, hs, htail⟩ := trimEndWhere_append isBlank s
  have happ := congrArg allBlank hs
  rw [allBlank_append, show allBlank tail = true from htail, Bool.and_true] at happ
  exact happ.symm

/-- Nothing is left of the first line. -/
theorem AtLineEnd.splitWhere {q : Text} {ls : List Text} (h : AtLineEnd s)
    (hs : splitWhere (· == '\n') s = q :: ls) : q = [] := by
  cases s with
  | nil => exact (List.cons.inj hs).1.symm
  | cons c s =>
    obtain rfl := h c rfl
    exact (List.cons.inj hs).1.symm

/-- Two lines with one text, at columns that differ by a fixed amount. -/
structure Level (a b : Nat) (q q' : Text) : Prop where
  text : trim q = trim q'
  column : allBlank q = true ∨ margin q + a = margin q' + b

namespace Shifted

/-- **Both texts have the same lines up to their margins**, and all but the first at columns that
differ by one amount. -/
theorem levels (h : Shifted a b s t) :
    ∃ q ls q' ls', splitWhere (· == '\n') s = q :: ls ∧ splitWhere (· == '\n') t = q' :: ls' ∧
      Text.trimEnd q = Text.trimEnd q' ∧ List.Forall₂ (Level a b) ls ls' := by
  induction h with
  | @last v v' hv hv' =>
    refine ⟨v, [], v', [], splitWhere_of_not_mem hv.line, splitWhere_of_not_mem hv'.line, ?_, .nil⟩
    rw [trimEnd_of_allBlank hv.blank, trimEnd_of_allBlank hv'.blank]
  | @keep c s t hc h ih =>
    obtain ⟨q, ls, q', ls', hs, ht, hfirst, hrest⟩ := ih
    obtain ⟨p, ms, hs', hp⟩ := splitWhere_cons hc s
    obtain ⟨p', ms', ht', hp'⟩ := splitWhere_cons hc t
    obtain ⟨rfl, rfl⟩ := List.cons.inj (hs.symm.trans hs')
    obtain ⟨rfl, rfl⟩ := List.cons.inj (ht.symm.trans ht')
    refine ⟨_, _, _, _, hp, hp', ?_, hrest⟩
    rw [trimEnd_cons, hfirst, ← trimEnd_cons]
  | @gap v v' u u' s t hv hv' hu hu' hcol h ih =>
    obtain ⟨q, ls, q', ls', hs, ht, hfirst, hrest⟩ := ih
    obtain ⟨p, ms, hs', hp⟩ := splitWhere_within hu.line s
    obtain ⟨p', ms', ht', hp'⟩ := splitWhere_within hu'.line t
    obtain ⟨rfl, rfl⟩ := List.cons.inj (hs.symm.trans hs')
    obtain ⟨rfl, rfl⟩ := List.cons.inj (ht.symm.trans ht')
    refine ⟨v, (u ++ q) :: ls, v', (u' ++ q') :: ls', ?_, ?_, ?_, .cons ⟨?_, ?_⟩ hrest⟩
    · rw [splitWhere_append rfl, splitWhere_of_not_mem hv.line, hp]
      rfl
    · rw [splitWhere_append rfl, splitWhere_of_not_mem hv'.line, hp']
      rfl
    · rw [trimEnd_of_allBlank hv.blank, trimEnd_of_allBlank hv'.blank]
    · rw [trim_blanks hu.blank, trim_blanks hu'.blank, ← trim_trimEnd q, hfirst, trim_trimEnd]
    · rcases hcol with ⟨hend, -⟩ | hcol
      · refine .inl ?_
        rw [hend.splitWhere hs, List.append_nil]
        exact hu.blank
      · cases hq : Text.allBlank q with
        | true =>
          refine .inl ?_
          rw [allBlank_append, hu.blank, hq]
          rfl
        | false =>
          have hq' : Text.allBlank q' = false := by
            rw [← allBlank_trimEnd, ← hfirst, allBlank_trimEnd, hq]
          refine .inr ?_
          rw [margin_append hu.blank, margin_append hu'.blank, ← margin_trimEnd hq, hfirst,
            margin_trimEnd hq']
          omega

/-- **A text at another column has the same rows**. -/
theorem rows_eq (h : Shifted a b s t) : rows s = rows t := by
  obtain ⟨q, ls, q', ls', hs, ht, hfirst, hrest⟩ := h.levels
  have hmap : ls.map Text.trim = ls'.map Text.trim := by
    clear hs ht
    induction hrest with
    | nil => rfl
    | cons hlevel _ ih => rw [List.map_cons, List.map_cons, hlevel.text, ih]
  rw [rows, rows, hs, ht, List.map_cons, List.map_cons, hmap, ← trim_trimEnd q, hfirst,
    trim_trimEnd]

end Shifted

/-- A row, and one that stands in its place at another column. -/
inductive Realigned (a b : Nat) : Text → Text → Prop
  | intro {u u' x v v' : Text} (hu : IsGap u) (hu' : IsGap u') (hx : '\n' ∉ x) (hv : IsGap v)
    (hv' : IsGap v') (hcol : x ++ v = [] ∧ x ++ v' = [] ∨ width u + a = width u' + b) :
    Realigned a b (u ++ (x ++ v)) (u' ++ (x ++ v'))

theorem atLineEnd_join (ls : List Text) : AtLineEnd (join ['\n'] ([] :: ls)) := by
  intro c hc
  cases ls with
  | nil => cases hc
  | cons l ls =>
    cases hc
    rfl

/-- **Rows that are realigned make up a text at another column**. -/
theorem Shifted.of_rows {x v v' : Text} {ls ls' : List Text} (hx : '\n' ∉ x) (hv : IsGap v)
    (hv' : IsGap v') (h : List.Forall₂ (Realigned a b) ls ls') :
    Shifted a b (join ['\n'] ((x ++ v) :: ls)) (join ['\n'] ((x ++ v') :: ls')) := by
  induction h generalizing x v v' with
  | nil =>
    rw [join_singleton, join_singleton]
    exact (Shifted.last hv hv').append_left hx
  | cons hrow _ ih =>
    cases hrow with
    | @intro u u' y z z' hu hu' hy hz hz' hcol =>
      have hrow : ∀ (p u r : Text) (ls : List Text),
          join ['\n'] (p :: (u ++ r) :: ls) = p ++ '\n' :: (u ++ join ['\n'] (r :: ls)) := by
        intro p u r ls
        rw [join, List.intercalate_cons_cons, ← join, ← append_join, List.append_assoc]
        rfl
      rw [hrow, hrow, List.append_assoc, List.append_assoc]
      refine .append_left hx (.gap hv hv' hu hu' (hcol.imp (fun hnil => ?_) id) (ih hy hz hz'))
      rw [hnil.1, hnil.2]
      exact ⟨atLineEnd_join _, atLineEnd_join _⟩

/-! ## Texts with blanks around them -/

theorem allBlank_nil : allBlank [] = true :=
  rfl

/-- The second text is the first one at another column, and other blanks may stand around it. -/
inductive Moved (a b : Nat) : Text → Text → Prop
  | intro {lead core tail lead' core' tail' : Text} (hlead : allBlank lead = true)
    (htail : allBlank tail = true) (hlead' : allBlank lead' = true) (htail' : allBlank tail' = true)
    (h : Shifted a b core core') : Moved a b (lead ++ (core ++ tail)) (lead' ++ (core' ++ tail'))

namespace Moved

theorem of_shifted (h : Shifted a b s t) : Moved a b s t := by
  have := intro allBlank_nil allBlank_nil allBlank_nil allBlank_nil h
  rwa [List.nil_append, List.nil_append, List.append_nil, List.append_nil] at this

theorem ink (h : Moved a b s t) : s.filter isInk = t.filter isInk := by
  cases h with
  | intro hlead htail hlead' htail' h =>
    rw [List.filter_append, List.filter_append, List.filter_append, List.filter_append, h.ink,
      filter_isInk_eq_nil_iff.2 hlead, filter_isInk_eq_nil_iff.2 htail,
      filter_isInk_eq_nil_iff.2 hlead', filter_isInk_eq_nil_iff.2 htail']

theorem allBlank (h : Moved a b s t) : allBlank s = allBlank t := by
  rw [Bool.eq_iff_iff, ← filter_isInk_eq_nil_iff, ← filter_isInk_eq_nil_iff, h.ink]

theorem trim (h : Moved a b s t) : Shifted a b (trim s) (trim t) := by
  have hcore : ∀ {lead tail : Text}, Text.allBlank lead = true → Text.allBlank tail = true →
      ∀ core, Text.trim (lead ++ (core ++ tail)) = Text.trim core := by
    intro lead tail hlead htail core
    rw [trim_blanks hlead, ← trim_trimEnd, trimEnd_append htail, trim_trimEnd]
  cases h with
  | intro hlead htail hlead' htail' h =>
    rw [hcore hlead htail, hcore hlead' htail']
    exact h.trim

/-- **What passes over empty rows reads the same of both texts**. -/
theorem lines_eq {β : Type} {f : List Text → β} (hf : PassesEmpty f) (h : Moved a b s t) :
    f ((lines s).map Text.trim) = f ((lines t).map Text.trim) := by
  have hcore : ∀ {lead tail : Text}, Text.allBlank lead = true → Text.allBlank tail = true →
      ∀ core, f (rows (lead ++ (core ++ tail))) = f (rows core) := by
    intro lead tail hlead htail core
    obtain ⟨k, hk⟩ := rows_blanks hlead (core ++ tail)
    obtain ⟨n, hn⟩ := rows_append_blanks htail core
    rw [hk, hn, hf.replicate_front, hf.replicate_back]
  cases h with
  | intro hlead htail hlead' htail' h =>
    rw [hf.lines, hf.lines, hcore hlead htail, hcore hlead' htail', h.rows_eq]

/-- **A fold over the lines answers the same** if it does not look at the blanks around them and does
nothing on an empty one. -/
theorem foldl_lines {σ : Type} {step : σ → Text → σ} (h : Moved a b s t)
    (htrim : ∀ st line, step st (Text.trim line) = step st line)
    (hempty : ∀ st, step st [] = st) (first : σ) :
    (lines s).foldl step first = (lines t).foldl step first := by
  have hrows : ∀ text : Text, (lines text).foldl step first =
      ((lines text).map Text.trim).foldl step first := by
    intro text
    rw [List.foldl_map]
    simp only [htrim]
  rw [hrows, hrows]
  exact h.lines_eq (passesEmpty_foldl hempty first)

/-- Blanks around both texts may be any. -/
theorem pad {lead tail lead' tail' : Text} (h : Moved a b s t)
    (hlead : Text.allBlank lead = true) (htail : Text.allBlank tail = true)
    (hlead' : Text.allBlank lead' = true) (htail' : Text.allBlank tail' = true) :
    Moved a b (lead ++ (s ++ tail)) (lead' ++ (t ++ tail')) := by
  have hblank : ∀ {u v : Text}, Text.allBlank u = true → Text.allBlank v = true →
      Text.allBlank (u ++ v) = true := fun hu hv => by rw [allBlank_append, hu, hv]; rfl
  cases h with
  | @intro l core r l' core' r' hl hr hl' hr' h =>
    have := intro (hblank hlead hl) (hblank hr htail) (hblank hlead' hl') (hblank hr' htail') h
    simpa only [List.append_assoc] using this

/-- **Ink that is told by the ink before it divides both texts**: into parts that end with it and
parts that begin with it. -/
theorem split_of_ink {x y x' y' : Text} {c c' : Char} (h : Moved a b (x ++ c :: y) (x' ++ c' :: y'))
    (hc : isBlank c = false) (hc' : isBlank c' = false) (hink : x.filter isInk = x'.filter isInk) :
    Moved a b (x ++ [c]) (x' ++ [c']) ∧ Moved a b (c :: y) (c' :: y') := by
  generalize hs : x ++ c :: y = s at h
  generalize ht : x' ++ c' :: y' = t at h
  cases h with
  | @intro lead core tail lead' core' tail' hlead htail hlead' htail' h =>
    obtain ⟨m, rfl, hm⟩ := exists_of_blanks_append hlead hc hs.symm
    obtain ⟨m', rfl, hm'⟩ := exists_of_blanks_append hlead' hc' ht.symm
    obtain ⟨z, rfl, rfl⟩ := exists_of_append_blanks htail hc hm
    obtain ⟨z', rfl, rfl⟩ := exists_of_append_blanks htail' hc' hm'
    rw [List.filter_append, List.filter_append, filter_isInk_eq_nil_iff.2 hlead,
      filter_isInk_eq_nil_iff.2 hlead', List.nil_append, List.nil_append] at hink
    obtain ⟨rfl, hz, hbefore⟩ := h.split_of_ink hc hc' hink
    have hn : '\n' ∉ [c] := by simpa [eq_comm] using ne_newline_of_ink hc
    refine ⟨?_, ?_⟩
    · have := (of_shifted (hbefore [] [] .nil)).pad hlead allBlank_nil hlead' allBlank_nil
      simpa only [List.append_assoc, List.append_nil] using this
    · exact intro allBlank_nil htail allBlank_nil htail' (hz.append_left hn)

/-- **Parts with the same ink, behind the same ink, are moved as well**. -/
theorem part {x m z x' m' z' : Text} (h : Moved a b (x ++ (m ++ z)) (x' ++ (m' ++ z')))
    (hx : x.filter isInk = x'.filter isInk) (hm : m.filter isInk = m'.filter isInk) :
    Moved a b m m' := by
  cases hblank : Text.allBlank m with
  | true =>
    have hblank' : Text.allBlank m' = true := by
      rw [← filter_isInk_eq_nil_iff, ← hm, filter_isInk_eq_nil_iff, hblank]
    have := intro hblank allBlank_nil hblank' allBlank_nil (Shifted.nil (a := a) (b := b))
    simpa only [List.append_nil] using this
  | false =>
    have hblank' : Text.allBlank m' = false := by
      rw [Bool.eq_false_iff, ne_eq, ← filter_isInk_eq_nil_iff, ← hm, filter_isInk_eq_nil_iff]
      exact ne_true_of_eq_false hblank
    have hnone : ∀ {w : Text}, Text.allBlank w = true → w.filter isInk = [] :=
      filter_isInk_eq_nil_iff.2
    -- from the first ink of the parts on
    obtain ⟨lead, c, r, rfl, hlead, hc⟩ := exists_first_ink hblank
    obtain ⟨lead', c', r', rfl, hlead', hc'⟩ := exists_first_ink hblank'
    rw [List.filter_append, List.filter_append, hnone hlead, hnone hlead', List.nil_append,
      List.nil_append] at hm
    have hfront : Moved a b ((c :: r) ++ z) ((c' :: r') ++ z') := by
      have hsplit : ∀ (x lead : Text) (c : Char) (r z : Text),
          x ++ ((lead ++ c :: r) ++ z) = (x ++ lead) ++ c :: (r ++ z) := by simp
      rw [hsplit, hsplit] at h
      refine (h.split_of_ink hc hc' ?_).2
      rw [List.filter_append, List.filter_append, hx, hnone hlead, hnone hlead']
    -- up to their last
    have hsome : ∀ {c : Char} {r : Text}, isBlank c = false → Text.allBlank (c :: r) = false := by
      intro c r hc
      rw [Text.allBlank, List.all_cons, hc, Bool.false_and]
    obtain ⟨init, d, tail, hend, htail, hd⟩ := exists_last_ink (hsome (r := r) hc)
    obtain ⟨init', d', tail', hend', htail', hd'⟩ := exists_last_ink (hsome (r := r') hc')
    have hlast : ∀ (init : Text) {d : Char} {tail : Text}, isBlank d = false →
        Text.allBlank tail = true →
          (init ++ d :: tail).filter isInk = init.filter isInk ++ [d] := by
      intro init d tail hd htail
      rw [List.filter_append, List.filter_cons_of_pos (by simp [isInk, hd]), hnone htail]
    rw [hend, hend', hlast init hd htail, hlast init' hd' htail'] at hm
    obtain ⟨hinit, -⟩ := List.append_inj' hm rfl
    rw [hend, hend', List.append_assoc, List.append_assoc, List.cons_append,
      List.cons_append] at hfront
    have hcore := (hfront.split_of_ink hd hd' hinit).1.pad hlead htail hlead' htail'
    rw [hend, hend']
    simpa only [List.append_assoc, List.singleton_append] using hcore

end Moved

/-- Two parts of two texts that stand in the same place: they have the same ink, and so has what
stands before them. -/
def SamePlace (whole part whole' part' : Text) : Prop :=
  ∃ before behind before' behind', whole = before ++ (part ++ behind) ∧
    whole' = before' ++ (part' ++ behind') ∧ before.filter isInk = before'.filter isInk ∧
    part.filter isInk = part'.filter isInk

/-- **What stands in the place of a part is that part, moved**. -/
theorem Moved.of_samePlace {m m' : Text} (h : Moved a b s t) (hplace : SamePlace s m t m') :
    Moved a b m m' := by
  obtain ⟨x, z, x', z', rfl, rfl, hx, hm⟩ := hplace
  exact h.part hx hm

/-- Each part has a place in a text with the same ink. -/
theorem exists_samePlace {m : Text} (hm : m <:+: s) (hink : s.filter isInk = t.filter isInk) :
    ∃ m', SamePlace s m t m' := by
  obtain ⟨x, z, rfl⟩ := hm
  rw [List.append_assoc, List.filter_append, List.filter_append] at hink
  obtain ⟨x', r, rfl, hx, hr⟩ := List.filter_eq_append_iff.1 hink.symm
  obtain ⟨m', z', rfl, hm', -⟩ := List.filter_eq_append_iff.1 hr
  exact ⟨m', x, z, x', z', List.append_assoc x m z, rfl, hx.symm, hm'.symm⟩

end Scholia.Text
