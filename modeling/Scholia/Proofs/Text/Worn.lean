import Mathlib.Data.List.TakeWhile
import Scholia.Proofs.Source.Literal
import Scholia.Proofs.Source.Placement
/-!
# Texts that have lost a blank

A blank before a line feed says nothing: `Worn s t` says that `t` is `s`, or `s` without one such
blank. The blank is a space, a tab, a carriage return, or the line feed of an empty line behind
another line end. Words, lines without the blanks at their ends, and what is found by a pattern
without blanks are the same in both texts.

Nothing is said of positions in the two texts.
-/

namespace Scholia.Text

/-- Space, tab, carriage return and line feed. -/
def isLayout (c : Char) : Bool :=
  c == ' ' || c == '\t' || c == '\r' || c == '\n'

theorem isLayout_iff {c : Char} :
    isLayout c = true ↔ c = ' ' ∨ c = '\t' ∨ c = '\r' ∨ c = '\n' := by
  simp only [isLayout, Bool.or_eq_true, beq_iff_eq, or_assoc]

theorem isBlank_of_isLayout {c : Char} (h : isLayout c = true) : isBlank c = true := by
  rcases isLayout_iff.1 h with rfl | rfl | rfl | rfl <;> decide

theorem isWordChar_of_isLayout {c : Char} (h : isLayout c = true) : isWordChar c = false := by
  rcases isLayout_iff.1 h with rfl | rfl | rfl | rfl <;> decide

theorem utf8Size_of_isLayout {c : Char} (h : isLayout c = true) : c.utf8Size = 1 := by
  rcases isLayout_iff.1 h with rfl | rfl | rfl | rfl <;> decide

/-- A layout character is none that is not. -/
theorem ne_of_isLayout {c d : Char} (h : isLayout c = true) (hd : isLayout d = false) : c ≠ d := by
  rintro rfl
  rw [h] at hd
  cases hd

/-- A pattern has no layout when a look at its characters finds none. -/
theorem not_isLayout_of_all {p : Text} (h : p.all (fun c => !isLayout c) = true) :
    ∀ c ∈ p, isLayout c = false := fun c hc => by
  simpa only [Bool.not_eq_true'] using List.all_eq_true.1 h c hc

/-- The second text is the first one, or the first one without one blank before a line feed. -/
inductive Worn : Text → Text → Prop
  | same (s : Text) : Worn s s
  | lost (u : Text) {x : Char} (v : Text) (hx : isLayout x = true)
    (hu : x = '\n' → u.getLast? = some '\n') : Worn (u ++ x :: '\n' :: v) (u ++ '\n' :: v)

variable {s t : Text}

/-- What is worn behind a text is worn as part of it. -/
theorem Worn.append_left (h : Worn s t) (front : Text) : Worn (front ++ s) (front ++ t) := by
  cases h with
  | same => exact .same _
  | lost u v hx hu =>
    rw [← List.append_assoc, ← List.append_assoc]
    refine .lost (front ++ u) v hx fun he => ?_
    rw [List.getLast?_append, hu he]
    rfl

theorem Worn.append_right (h : Worn s t) (back : Text) : Worn (s ++ back) (t ++ back) := by
  cases h with
  | same => exact .same _
  | lost u v hx hu =>
    rw [List.append_assoc, List.append_assoc]
    exact .lost u (v ++ back) hx hu

theorem Worn.allBlank (h : Worn s t) : allBlank s = allBlank t := by
  cases h with
  | same => rfl
  | lost u v hx hu =>
    simp [Text.allBlank, isBlank_of_isLayout hx, show isBlank '\n' = true by decide]

theorem Worn.isEmpty (h : Worn s t) : s.isEmpty = t.isEmpty := by
  cases h with
  | same => rfl
  | lost u v hx hu => cases u <;> rfl

/-- The first character stays, or is a blank in both texts. -/
theorem Worn.head? (h : Worn s t) :
    s.head? = t.head? ∨
      ∃ c d, s.head? = some c ∧ t.head? = some d ∧ isBlank c = true ∧ isBlank d = true := by
  cases h with
  | same => exact .inl rfl
  | lost u v hx hu =>
    cases u with
    | nil => exact .inr ⟨_, '\n', rfl, rfl, isBlank_of_isLayout hx, by decide⟩
    | cons c u => exact .inl rfl

/-! ## Words -/

theorem words_append {c : Char} (hc : isBlank c = true) (u v : Text) :
    words (u ++ c :: v) = words u ++ words v := by
  rw [words, splitWhere_append hc, List.filter_append]
  rfl

theorem words_cons {c : Char} (hc : isBlank c = true) (v : Text) : words (c :: v) = words v :=
  words_append hc [] v

/-- A text without blanks is its only word. -/
theorem words_word {s : Text} (hne : s ≠ []) (h : ∀ c ∈ s, isBlank c = false) : words s = [s] := by
  obtain ⟨c, r, rfl⟩ := List.exists_cons_of_ne_nil hne
  rw [Text.words, splitWhere_eq_singleton h]
  rfl

theorem Worn.words (h : Worn s t) : words s = words t := by
  cases h with
  | same => rfl
  | lost u v hx hu =>
    rw [words_append (isBlank_of_isLayout hx), words_append (by decide), words_cons (by decide)]

theorem Worn.collapse (h : Worn s t) : collapse s = collapse t := by
  rw [Text.collapse, h.words, Text.collapse]

/-! ## Leading characters -/

theorem takeWhile_stop {p : Char → Bool} {c : Char} (hc : p c = false) (u w : Text) :
    (u ++ c :: w).takeWhile p = u.takeWhile p := by
  rw [List.takeWhile_append, List.takeWhile_cons_of_neg (by simp [hc])]
  split
  · next h =>
    rw [List.append_nil]
    have hsplit := List.takeWhile_append_dropWhile (p := p) (l := u)
    have hlen := congrArg List.length hsplit
    rw [List.length_append, h] at hlen
    have hnil : u.dropWhile p = [] := List.eq_nil_of_length_eq_zero (by omega)
    rw [hnil, List.append_nil] at hsplit
    exact hsplit.symm
  · rfl

theorem dropWhile_stop {p : Char → Bool} {c : Char} (hc : p c = false) (u w : Text) :
    (u ++ c :: w).dropWhile p = u.dropWhile p ++ c :: w := by
  induction u with
  | nil => rw [List.nil_append, List.dropWhile_cons_of_neg (by simp [hc])]; rfl
  | cons d u ih =>
    rw [List.cons_append, List.dropWhile_cons, List.dropWhile_cons, ih]
    split <;> rfl

/-- Worn texts begin with the same characters of a class without layout. -/
theorem Worn.takeWhile {p : Char → Bool} (hp : ∀ c, isLayout c = true → p c = false)
    (h : Worn s t) : s.takeWhile p = t.takeWhile p := by
  cases h with
  | same => rfl
  | lost u v hx hu => rw [takeWhile_stop (hp _ hx), takeWhile_stop (hp _ (by decide))]

/-! ## Trimming -/

theorem Worn.dropWhile (h : Worn s t) : Worn (s.dropWhile isBlank) (t.dropWhile isBlank) := by
  cases h with
  | same => exact .same _
  | @lost u x v hx hu =>
    rw [List.dropWhile_append, List.dropWhile_append]
    split
    · rw [List.dropWhile_cons_of_pos (isBlank_of_isLayout hx)]
      exact .same _
    · next hne =>
      refine .lost _ v hx fun he => ?_
      have hlast := hu he
      rw [← List.takeWhile_append_dropWhile (p := isBlank) (l := u), List.getLast?_append] at hlast
      cases hd : (u.dropWhile isBlank).getLast? with
      | none => exact absurd (List.getLast?_eq_none_iff.1 hd) (by simpa using hne)
      | some c =>
        rw [hd] at hlast
        exact hlast

theorem Worn.trimStart (h : Worn s t) : Worn (trimStart s) (trimStart t) :=
  h.dropWhile

theorem trimEnd_lost (u : Text) {x : Char} (hx : isBlank x = true) (v : Text) :
    trimEnd (u ++ x :: v) = if allBlank v then trimEnd u else u ++ x :: trimEnd v := by
  have hrev : (u ++ x :: v).reverse = v.reverse ++ x :: u.reverse := by simp
  have hempty : (v.reverse.dropWhile isBlank).isEmpty = allBlank v := by
    rw [Bool.eq_iff_iff, List.isEmpty_iff, List.dropWhile_eq_nil_iff, allBlank, List.all_eq_true]
    simp
  rw [trimEnd, trimEndWhere, hrev, List.dropWhile_append, hempty]
  split
  · rw [List.dropWhile_cons_of_pos hx]
    rfl
  · simp [trimEnd, trimEndWhere]

theorem Worn.trimEnd (h : Worn s t) : Worn (trimEnd s) (trimEnd t) := by
  cases h with
  | same => exact .same _
  | lost u v hx hu =>
    have hcons : Text.allBlank ('\n' :: v) = Text.allBlank v := by
      simp [Text.allBlank, show isBlank '\n' = true by decide]
    rw [trimEnd_lost u (isBlank_of_isLayout hx), trimEnd_lost u (by decide), hcons]
    split
    · exact .same _
    · next hv =>
      rw [show '\n' :: v = [] ++ '\n' :: v from rfl, trimEnd_lost [] (by decide), if_neg hv]
      exact .lost u _ hx hu

theorem Worn.trim (h : Worn s t) : Worn (trim s) (trim t) :=
  h.trimStart.trimEnd

/-- Leading characters of a class without layout leave worn texts worn. -/
theorem Worn.trimStartWhere {p : Char → Bool} (hp : ∀ c, isLayout c = true → p c = false)
    (h : Worn s t) : Worn (trimStartWhere p s) (trimStartWhere p t) := by
  cases h with
  | same => exact .same _
  | @lost u x v hx hu =>
    have hn : p '\n' = false := hp _ (by decide)
    rw [Text.trimStartWhere, Text.trimStartWhere, List.dropWhile_append, List.dropWhile_append,
      List.dropWhile_cons_of_neg (by simp [hp x hx]), List.dropWhile_cons_of_neg (by simp [hn])]
    split
    · next hall =>
      refine .lost [] v hx fun he => ?_
      have hall : ∀ c ∈ u, p c = true := List.dropWhile_eq_nil_iff.1 (List.isEmpty_iff.1 hall)
      rw [hall _ (List.mem_of_getLast? (hu he))] at hn
      cases hn
    · next hne =>
      refine .lost _ v hx fun he => ?_
      have hlast := hu he
      rw [← List.takeWhile_append_dropWhile (p := p) (l := u), List.getLast?_append] at hlast
      cases hd : (u.dropWhile p).getLast? with
      | none => exact absurd (List.getLast?_eq_none_iff.1 hd) (by simpa using hne)
      | some c =>
        rw [hd] at hlast
        exact hlast

theorem allBlank_trimStart (s : Text) : Text.allBlank (Text.trimStart s) = Text.allBlank s := by
  conv => rhs; rw [← List.takeWhile_append_dropWhile (p := isBlank) (l := s)]
  rw [Text.allBlank, Text.allBlank, List.all_append, List.all_takeWhile, Bool.true_and]
  rfl

theorem trimEnd_trimEnd (s : Text) : Text.trimEnd (Text.trimEnd s) = Text.trimEnd s := by
  obtain ⟨tail, hs, htail⟩ := trimEndWhere_append isBlank s
  calc Text.trimEnd (Text.trimEnd s) = Text.trimEnd (Text.trimEnd s ++ tail) :=
        (trimEnd_append htail).symm
    _ = Text.trimEnd s := congrArg Text.trimEnd hs.symm

/-- A text with a last character that is no blank has nothing to trim at its end. -/
theorem trimEnd_of_getLast? {s : Text} {c : Char} (hlast : s.getLast? = some c)
    (hc : isBlank c = false) : Text.trimEnd s = s := by
  obtain ⟨init, rfl⟩ := List.getLast?_eq_some_iff.1 hlast
  rw [Text.trimEnd, trimEndWhere, List.reverse_append, List.reverse_singleton,
    List.singleton_append, List.dropWhile_cons_of_neg (by simp [hc]), List.reverse_cons,
    List.reverse_reverse]

/-- A character that is no blank stays, and what stands before it. -/
theorem trimEnd_stop {d : Char} (hd : isBlank d = false) (c m : Text) :
    Text.trimEnd (c ++ d :: m) = c ++ d :: Text.trimEnd m := by
  have hrev : (c ++ d :: m).reverse = m.reverse ++ d :: c.reverse := by simp
  rw [Text.trimEnd, trimEndWhere, hrev, dropWhile_stop hd]
  simp [Text.trimEnd, trimEndWhere]

/-- What trimming takes away at either end, and what it leaves. -/
theorem trim_parts {s : Text} (h : Text.allBlank s = false) :
    ∃ lead core tail, s = lead ++ (core ++ tail) ∧ Text.trimStart s = core ++ tail ∧
      Text.trimEnd s = lead ++ core ∧ Text.trimStart (lead ++ core) = core ∧
      Text.trimEnd (core ++ tail) = core := by
  obtain ⟨lead, hs, hlead⟩ := append_trimStartWhere isBlank s
  obtain ⟨tail, ht, htail⟩ := trimEndWhere_append isBlank (Text.trimStart s)
  have hhead := List.head?_dropWhile_not isBlank s
  cases hcore : Text.trimEnd (Text.trimStart s) with
  | nil =>
    have hblank : Text.allBlank (Text.trimStart s) = true := by
      rw [ht, show trimEndWhere isBlank (Text.trimStart s) = [] from hcore]
      exact htail
    rw [allBlank_trimStart, h] at hblank
    cases hblank
  | cons c core =>
    have ht : Text.trimStart s = (c :: core) ++ tail := by
      rw [← hcore]
      exact ht
    have hc : isBlank c = false := by
      rw [show s.dropWhile isBlank = (c :: core) ++ tail from ht] at hhead
      simpa using hhead
    obtain ⟨last, hlast⟩ : ∃ last, (c :: core).getLast? = some last :=
      ⟨_, List.getLast?_eq_some_getLast (List.cons_ne_nil c core)⟩
    have hnb : isBlank last = false := trimEnd_getLast? (hcore ▸ hlast)
    have hs : s = lead ++ ((c :: core) ++ tail) := by
      rw [← ht]
      exact hs
    refine ⟨lead, c :: core, tail, hs, ht, ?_, ?_, ht ▸ hcore⟩
    · conv => lhs; rw [hs, ← List.append_assoc]
      rw [trimEnd_append htail, trimEnd_of_getLast? ?_ hnb]
      rw [List.getLast?_append, hlast]
      rfl
    · rw [Text.trimStart, Text.trimStartWhere,
        List.dropWhile_append_of_pos (List.all_eq_true.1 hlead),
        List.dropWhile_cons_of_neg (by simp [hc])]

theorem trimEnd_of_allBlank {s : Text} (h : Text.allBlank s = true) : Text.trimEnd s = [] :=
  trimEnd_append (s := []) h

/-- Blanks at the end of a line are gone before it is trimmed, or after. -/
theorem trim_trimEnd (s : Text) : Text.trim (Text.trimEnd s) = Text.trim s := by
  cases h : Text.allBlank s with
  | true =>
    rw [trimEnd_of_allBlank h, Text.trim, Text.trim, trimStart_of_allBlank h]
    rfl
  | false =>
    obtain ⟨lead, core, tail, -, hstart, hend, hcore, htrim⟩ := trim_parts h
    have hcore' : Text.trimEnd core = core := by
      rw [← htrim, trimEnd_trimEnd]
    rw [hend, Text.trim, Text.trim, hcore, hstart, htrim, hcore']

/-- Blanks at the end of a line do not count for its indentation. -/
theorem width_indent_trimEnd {s : Text} (h : Text.allBlank s = false) :
    width (Text.trimEnd s) - width (Text.trimStart (Text.trimEnd s)) =
      width s - width (Text.trimStart s) := by
  obtain ⟨lead, core, tail, hs, hstart, hend, hcore, -⟩ := trim_parts h
  rw [hend, hcore, hstart]
  conv => rhs; rw [hs]
  simp only [width_append]
  omega

/-! ## Lines -/

/-- The last line of a text, which may be empty, and the lines before it. -/
theorem exists_line (s : Text) : ∃ p q, s = p ++ q ∧ isWhole p ∧ '\n' ∉ q := by
  induction s with
  | nil => exact ⟨[], [], rfl, .inl rfl, by simp⟩
  | cons c s ih =>
    obtain ⟨p, q, rfl, hp, hq⟩ := ih
    rcases hp with rfl | ⟨p, rfl⟩
    · by_cases hc : c = '\n'
      · exact ⟨[c], q, rfl, .inr ⟨[], by rw [hc]; rfl⟩, hq⟩
      · exact ⟨[], c :: q, rfl, .inl rfl, by simp [hq, Ne.symm hc]⟩
    · exact ⟨c :: (p ++ ['\n']), q, rfl, .inr ⟨c :: p, rfl⟩, hq⟩

theorem rawLines_line {q : Text} (hq : '\n' ∉ q) (v : Text) :
    rawLines (q ++ '\n' :: v) = (q ++ ['\n']) :: rawLines v := by
  induction q with
  | nil => rfl
  | cons c q ih =>
    rw [List.mem_cons, not_or] at hq
    rw [List.cons_append, rawLines_cons (Ne.symm hq.1), ih hq.2]
    rfl

theorem rawLines_last {q : Text} (hq : '\n' ∉ q) (hne : q ≠ []) : rawLines q = [q] := by
  induction q with
  | nil => exact absurd rfl hne
  | cons c q ih =>
    rw [List.mem_cons, not_or] at hq
    rw [rawLines_cons (Ne.symm hq.1)]
    cases q with
    | nil => rfl
    | cons d q => rw [ih hq.2 (by simp)]

theorem trimEnd_dropReturn (q : Text) : trimEnd (dropReturn q) = trimEnd q := by
  unfold dropReturn
  split
  · next h =>
    obtain ⟨init, rfl⟩ := List.getLast?_eq_some_iff.1 h
    rw [List.dropLast_concat, trimEnd_append (by decide)]
  · rfl

theorem lines_line {q : Text} (hq : '\n' ∉ q) (v : Text) :
    lines (q ++ '\n' :: v) = dropReturn q :: lines v := by
  rw [lines, splitWhere_append rfl, splitWhere_of_not_mem hq, List.singleton_append]
  have hne := splitWhere_ne_nil (· == '\n') v
  cases hv : splitWhere (· == '\n') v with
  | nil => exact absurd hv hne
  | cons part parts =>
    rw [closeLines, lines, hv]
    simp

theorem lines_last {q : Text} (hq : '\n' ∉ q) (hne : q ≠ []) : lines q = [q] := by
  rw [lines, splitWhere_of_not_mem hq, closeLines, if_neg (by simpa using hne)]

/-- **Lines and raw lines differ in their ends only**. -/
theorem lines_map_trimEnd (s : Text) : (lines s).map trimEnd = lineTexts s := by
  induction hn : s.length using Nat.strongRecOn generalizing s with
  | ind n ih =>
    by_cases hs : '\n' ∈ s
    · obtain ⟨q, v, rfl, hq⟩ : ∃ q v, s = q ++ '\n' :: v ∧ '\n' ∉ q := by
        obtain ⟨q, v, he, hq⟩ := List.append_of_mem hs |> fun ⟨q, v, he⟩ =>
          List.eq_append_cons_of_mem (he ▸ List.mem_append_right _ List.mem_cons_self)
        exact ⟨q, v, he, hq⟩
      rw [lines_line hq, lineTexts, rawLines_line hq, List.map_cons, List.map_cons,
        trimEnd_dropReturn, trimEnd_append (by decide),
        ih v.length (by rw [← hn]; simp; omega) v rfl]
      rfl
    · by_cases hne : s = []
      · subst hne
        rfl
      · rw [lines_last hs hne, lineTexts, rawLines_last hs hne]

/-- A blank before a line feed is no part of a line without the blanks at its end. -/
theorem lineTexts_lost {x : Char} (hn : x ≠ '\n') (hx : isBlank x = true) (u v : Text) :
    lineTexts (u ++ x :: '\n' :: v) = lineTexts (u ++ '\n' :: v) := by
  obtain ⟨p, q, rfl, hp, hq⟩ := exists_line u
  have hqx : '\n' ∉ q ++ [x] := by simp [hq, Ne.symm hn]
  have hline : lineTexts (q ++ x :: '\n' :: v) = lineTexts (q ++ '\n' :: v) := by
    rw [List.append_cons q x, lineTexts, lineTexts, rawLines_line hqx, rawLines_line hq,
      List.map_cons, List.map_cons, trimEnd_append (by decide),
      trimEnd_append (by simp [allBlank, hx]), trimEnd_append (by decide)]
  rw [List.append_assoc, List.append_assoc, lineTexts_append hp, lineTexts_append hp, hline]

/-- A blank at the end of a line that has begun adds nothing. -/
theorem lineTexts_concat {d x : Char} (hd : d ≠ '\n') (hn : x ≠ '\n') (hx : isBlank x = true)
    (u : Text) : lineTexts ((u ++ [d]) ++ [x]) = lineTexts (u ++ [d]) := by
  obtain ⟨p, q, rfl, hp, hq⟩ := exists_line u
  have hqd : '\n' ∉ q ++ [d] := by simp [hq, Ne.symm hd]
  have hqx : '\n' ∉ (q ++ [d]) ++ [x] := by
    rw [List.mem_append, not_or]
    exact ⟨hqd, by simp [Ne.symm hn]⟩
  have hline : lineTexts ((q ++ [d]) ++ [x]) = lineTexts (q ++ [d]) := by
    rw [lineTexts, lineTexts, rawLines_last hqx (by simp), rawLines_last hqd (by simp),
      List.map_singleton, List.map_singleton, trimEnd_append (by simp [allBlank, hx])]
  rw [List.append_assoc p, List.append_assoc p, lineTexts_append hp, lineTexts_append hp, hline]

/-- **Without the blanks at their ends, the lines are the same**, but for one of two empty ones. -/
theorem Worn.lineTexts (h : Worn s t) :
    lineTexts s = lineTexts t ∨
      ∃ before after, lineTexts s = before ++ [] :: [] :: after ∧
        lineTexts t = before ++ [] :: after := by
  cases h with
  | same => exact .inl rfl
  | @lost u x v hx hu =>
    by_cases hn : x = '\n'
    · subst hn
      obtain ⟨init, rfl⟩ := List.getLast?_eq_some_iff.1 (hu rfl)
      have hwhole : isWhole (init ++ ['\n']) := .inr ⟨init, rfl⟩
      exact .inr ⟨Text.lineTexts (init ++ ['\n']), Text.lineTexts v, lineTexts_append hwhole _,
        lineTexts_append hwhole _⟩
    · exact .inl (lineTexts_lost hn (isBlank_of_isLayout hx) u v)

/-- A fold over lines that does not look at the blanks at their ends, nor at a second one of two
empty lines, answers the same. -/
theorem Worn.foldl_lines {σ : Type} {step : σ → Text → σ} (h : Worn s t)
    (htrim : ∀ state line, step state (Text.trimEnd line) = step state line)
    (hempty : ∀ state, step (step state []) [] = step state []) (first : σ) :
    (lines s).foldl step first = (lines t).foldl step first := by
  have hbare : ∀ text : Text,
      (lines text).foldl step first = (Text.lineTexts text).foldl step first := by
    intro text
    rw [← lines_map_trimEnd, List.foldl_map]
    simp only [htrim]
  rw [hbare, hbare]
  rcases h.lineTexts with he | ⟨before, after, hs, ht⟩
  · rw [he]
  · rw [hs, ht, List.foldl_append, List.foldl_append, List.foldl_cons, List.foldl_cons, hempty,
      List.foldl_cons]

/-- A check of every line that passes empty ones. -/
theorem Worn.all_lines {p : Text → Bool} (h : Worn s t)
    (htrim : ∀ line, p (Text.trimEnd line) = p line) : (lines s).all p = (lines t).all p := by
  have hbare : ∀ text : Text, (lines text).all p = (Text.lineTexts text).all p := by
    intro text
    rw [← lines_map_trimEnd, List.all_map]
    simp only [Function.comp_def, htrim]
  rw [hbare, hbare]
  rcases h.lineTexts with he | ⟨before, after, hs, ht⟩
  · rw [he]
  · rw [hs, ht]
    simp [← Bool.and_assoc]

/-- The number of lines of a kind that empty ones are not of. -/
theorem Worn.length_filter_lines {p : Text → Bool} (h : Worn s t)
    (htrim : ∀ line, p (Text.trimEnd line) = p line) (hempty : p [] = false) :
    ((lines s).filter p).length = ((lines t).filter p).length := by
  have hbare : ∀ text : Text,
      ((lines text).filter p).length = ((Text.lineTexts text).filter p).length := by
    intro text
    rw [← lines_map_trimEnd, List.filter_map, List.length_map,
      show p ∘ Text.trimEnd = p from funext htrim]
  rw [hbare, hbare]
  rcases h.lineTexts with he | ⟨before, after, hs, ht⟩
  · rw [he]
  · rw [hs, ht]
    simp [hempty]

/-! ## Patterns -/

/-- A pattern is found before a character that it does not have, or behind it. -/
theorem dropLead?_append {p : Text} {c : Char} (hc : c ∉ p) (u w : Text) :
    dropLead? p (u ++ c :: w) = (dropLead? p u).map (· ++ c :: w) := by
  induction p generalizing u with
  | nil => rfl
  | cons d p ih =>
    rw [List.mem_cons, not_or] at hc
    cases u with
    | nil => simp [dropLead?, Ne.symm hc.1]
    | cons e u =>
      rw [List.cons_append, dropLead?, dropLead?, ih hc.2]
      split <;> rfl

/-- What follows a pattern without layout at the front of worn texts is worn. -/
theorem Worn.dropLead? {p : Text} (hp : ∀ c ∈ p, isLayout c = false) (h : Worn s t) :
    (dropLead? p s = none ∧ dropLead? p t = none) ∨
      ∃ a b, dropLead? p s = some a ∧ dropLead? p t = some b ∧ Worn a b := by
  cases h with
  | same =>
    cases hs : Text.dropLead? p s with
    | none => exact .inl ⟨rfl, rfl⟩
    | some a => exact .inr ⟨a, a, rfl, rfl, .same a⟩
  | @lost u x v hx hu =>
    have hxp : x ∉ p := fun hmem => by rw [hp x hmem] at hx; cases hx
    have hn : '\n' ∉ p := fun hmem => absurd (hp _ hmem) (by decide)
    rw [dropLead?_append hxp, dropLead?_append hn]
    cases hlead : Text.dropLead? p u with
    | none => exact .inl ⟨rfl, rfl⟩
    | some a =>
      refine .inr ⟨_, _, rfl, rfl, .lost a v hx fun he => ?_⟩
      have hlast := hu he
      rw [dropLead?_eq_some_iff.1 hlead, List.getLast?_append] at hlast
      cases ha : a.getLast? with
      | none =>
        rw [ha] at hlast
        exact absurd (List.mem_of_getLast? hlast) hn
      | some c =>
        rw [ha] at hlast
        exact hlast

theorem cutAt?_append {p : Text} {c : Char} (hc : c ∉ p) (hp : p ≠ []) (u w : Text) :
    cutAt? p (u ++ c :: w) =
      match cutAt? p u with
      | some (a, b) => some (a, b ++ c :: w)
      | none => (cutAt? p w).map fun (a, b) => (u ++ c :: a, b) := by
  have hnil : dropLead? p [] = none := by
    cases p with
    | nil => exact absurd rfl hp
    | cons d p => rfl
  induction u with
  | nil =>
    have hlead := dropLead?_append hc [] w
    rw [List.nil_append] at hlead
    simp only [List.nil_append, cutAt?, hlead, hnil, Option.map_none]
  | cons d u ih =>
    have hlead := dropLead?_append hc (d :: u) w
    rw [List.cons_append] at hlead
    simp only [List.cons_append, cutAt?, hlead, ih]
    cases dropLead? p (d :: u) with
    | some r => rfl
    | none =>
      cases cutAt? p u with
      | some ab => rfl
      | none =>
        cases cutAt? p w with
        | some ab => rfl
        | none => rfl

theorem holds_nil {p : Text} (hp : p ≠ []) : holds p [] = false := by
  cases p with
  | nil => exact absurd rfl hp
  | cons d p => rfl

theorem holds_append {p : Text} {c : Char} (hc : c ∉ p) (hp : p ≠ []) (u w : Text) :
    holds p (u ++ c :: w) = (holds p u || holds p w) := by
  unfold holds
  rw [cutAt?_append hc hp]
  cases cutAt? p u with
  | some ab => rfl
  | none =>
    cases cutAt? p w with
    | some ab => rfl
    | none => rfl

theorem cutAtLast?_append {p : Text} {c : Char} (hc : c ∉ p) (hp : p ≠ []) (u w : Text) :
    cutAtLast? p (u ++ c :: w) =
      match cutAtLast? p w with
      | some (a, b) => some (u ++ c :: a, b)
      | none => (cutAtLast? p u).map fun (a, b) => (a, b ++ c :: w) := by
  have hnil : dropLead? p [] = none := by
    cases p with
    | nil => exact absurd rfl hp
    | cons d p => rfl
  induction u with
  | nil =>
    have hlead := dropLead?_append hc [] w
    rw [List.nil_append] at hlead
    cases hcut : cutAtLast? p w with
    | some ab => simp only [List.nil_append, cutAtLast?, hcut]
    | none => simp only [List.nil_append, cutAtLast?, hcut, hlead, hnil, Option.map_none]
  | cons d u ih =>
    have hlead := dropLead?_append hc (d :: u) w
    rw [List.cons_append] at hlead
    simp only [List.cons_append, cutAtLast?, hlead, ih]
    cases cutAtLast? p w with
    | some ab => rfl
    | none =>
      cases cutAtLast? p u with
      | some ab => rfl
      | none => cases dropLead? p (d :: u) <;> rfl

theorem eq_of_cutAtLast? {p a b : Text} (h : cutAtLast? p s = some (a, b)) : s = a ++ p ++ b := by
  induction s generalizing a with
  | nil =>
    simp only [cutAtLast?, Option.map_eq_some_iff, dropLead?_eq_some_iff, Prod.mk.injEq] at h
    obtain ⟨r, hr, rfl, rfl⟩ := h
    exact hr
  | cons c s ih =>
    simp only [cutAtLast?] at h
    split at h
    · next a' b' hcut =>
      cases h
      simp [ih hcut]
    · simp only [Option.map_eq_some_iff, dropLead?_eq_some_iff, Prod.mk.injEq] at h
      obtain ⟨r, hr, rfl, rfl⟩ := h
      exact hr

/-- A pattern at the end of a text is the last one. -/
theorem cutAtLast?_end {p : Text} (hp : p ≠ []) (u : Text) : cutAtLast? p (u ++ p) = some (u, []) := by
  induction u with
  | nil =>
    obtain ⟨c, r, rfl⟩ := List.exists_cons_of_ne_nil hp
    have hnone : cutAtLast? (c :: r) r = none := by
      cases hcut : cutAtLast? (c :: r) r with
      | none => rfl
      | some ab =>
        have hlen := congrArg List.length (eq_of_cutAtLast? hcut)
        simp only [List.length_append, List.length_cons] at hlen
        omega
    have hlead : dropLead? (c :: r) (c :: r) = some [] :=
      dropLead?_eq_some_iff.2 (List.append_nil _).symm
    rw [List.nil_append, cutAtLast?, hnone, hlead]
    rfl
  | cons d u ih => rw [List.cons_append, cutAtLast?, ih]

/-- What two texts are cut into, of which one part is worn. -/
inductive Worn.Parts : Option (Text × Text) → Option (Text × Text) → Prop
  | nowhere : Parts none none
  | before {a a' : Text} (b : Text) (h : Worn a a') : Parts (some (a, b)) (some (a', b))
  | behind (a : Text) {b b' : Text} (h : Worn b b') : Parts (some (a, b)) (some (a, b'))

/-- What stands behind the first part of a text ends in the same way. -/
theorem getLast?_of_cut {p u a b : Text} (hu : u = a ++ p ++ b) (hp : '\n' ∉ p) (hne : p ≠ [])
    (h : u.getLast? = some '\n') : b.getLast? = some '\n' := by
  rcases List.eq_nil_or_concat b with rfl | ⟨b, c, rfl⟩
  · rcases List.eq_nil_or_concat p with rfl | ⟨p, d, rfl⟩
    · exact absurd rfl hne
    · rw [hu, List.append_nil, List.concat_eq_append, ← List.append_assoc,
        List.getLast?_concat] at h
      cases h
      exact absurd (by simp) hp
  · rw [hu, List.concat_eq_append, ← List.append_assoc, List.getLast?_concat] at h
    rw [List.concat_eq_append, List.getLast?_concat, h]

theorem Worn.cutAt? {p : Text} (hp : ∀ c ∈ p, isLayout c = false) (hne : p ≠ []) (h : Worn s t) :
    Parts (cutAt? p s) (cutAt? p t) := by
  cases h with
  | same =>
    cases Text.cutAt? p s with
    | none => exact .nowhere
    | some ab => exact .before ab.2 (.same ab.1)
  | @lost u x v hx hu =>
    have hxp : x ∉ p := fun hmem => by rw [hp x hmem] at hx; cases hx
    have hn : '\n' ∉ p := fun hmem => absurd (hp _ hmem) (by decide)
    rw [cutAt?_append hxp hne, cutAt?_append hn hne]
    cases hcut : Text.cutAt? p u with
    | some ab =>
      obtain ⟨a, b⟩ := ab
      exact .behind a (.lost b v hx fun he => getLast?_of_cut (eq_of_cutAt? hcut) hn hne (hu he))
    | none =>
      have htail := cutAt?_append hn hne [] v
      have hnil : Text.cutAt? p [] = none := by
        cases p with
        | nil => exact absurd rfl hne
        | cons d p => rfl
      rw [List.nil_append, hnil] at htail
      rw [htail]
      cases Text.cutAt? p v with
      | none => exact .nowhere
      | some ab => exact .before ab.2 (.lost u ab.1 hx hu)

theorem Worn.cutAtLast? {p : Text} (hp : ∀ c ∈ p, isLayout c = false) (hne : p ≠ [])
    (h : Worn s t) : Parts (cutAtLast? p s) (cutAtLast? p t) := by
  cases h with
  | same =>
    cases Text.cutAtLast? p s with
    | none => exact .nowhere
    | some ab => exact .before ab.2 (.same ab.1)
  | @lost u x v hx hu =>
    have hxp : x ∉ p := fun hmem => by rw [hp x hmem] at hx; cases hx
    have hn : '\n' ∉ p := fun hmem => absurd (hp _ hmem) (by decide)
    have hnil : Text.cutAtLast? p [] = none := by
      cases p with
      | nil => exact absurd rfl hne
      | cons d p => rfl
    have htail := cutAtLast?_append hn hne [] v
    rw [List.nil_append, hnil] at htail
    rw [cutAtLast?_append hxp hne, cutAtLast?_append hn hne, htail]
    cases Text.cutAtLast? p v with
    | some ab => exact .before ab.2 (.lost u ab.1 hx hu)
    | none =>
      cases hcut : Text.cutAtLast? p u with
      | none => exact .nowhere
      | some ab =>
        obtain ⟨a, b⟩ := ab
        refine .behind a (.lost b v hx fun he => ?_)
        exact getLast?_of_cut (eq_of_cutAtLast? hcut) hn hne (hu he)

/-- Whether a text begins with a pattern is decided before any character that it does not have. -/
theorem isPrefixOf_append {p : Text} {c : Char} (hc : c ∉ p) (u w : Text) :
    p.isPrefixOf (u ++ c :: w) = p.isPrefixOf u := by
  induction p generalizing u with
  | nil => rfl
  | cons d p ih =>
    rw [List.mem_cons, not_or] at hc
    cases u with
    | nil => simp [List.isPrefixOf, Ne.symm hc.1]
    | cons e u => simp [List.isPrefixOf, ih hc.2]

theorem isSuffixOf_append {p : Text} {c : Char} (hc : c ∉ p) (u w : Text) :
    p.isSuffixOf (u ++ c :: w) = p.isSuffixOf w := by
  have hrev : (u ++ c :: w).reverse = w.reverse ++ c :: u.reverse := by simp
  rw [List.isSuffixOf, hrev, isPrefixOf_append (by simpa using hc)]
  rfl

theorem Worn.isPrefixOf {p : Text} (hp : ∀ c ∈ p, isLayout c = false) (h : Worn s t) :
    p.isPrefixOf s = p.isPrefixOf t := by
  cases h with
  | same => rfl
  | @lost u x v hx hu =>
    have hxp : x ∉ p := fun hmem => by rw [hp x hmem] at hx; cases hx
    have hn : '\n' ∉ p := fun hmem => absurd (hp _ hmem) (by decide)
    rw [isPrefixOf_append hxp, isPrefixOf_append hn]

end Scholia.Text

/-!
## Texts that are blanked out

A part of a text that is to go is overwritten with spaces, one for each byte, and keeps its line
ends. So nothing behind it moves.
-/

namespace Scholia.Text

/-- A text overwritten with spaces, line ends excepted. -/
def blanked (s : Text) : Text :=
  s.flatMap fun c => if isLineEnd c then [c] else List.replicate c.utf8Size ' '

@[simp] theorem blanked_nil : blanked [] = [] := rfl

theorem blanked_cons (c : Char) (s : Text) : blanked (c :: s) =
    (if isLineEnd c then [c] else List.replicate c.utf8Size ' ') ++ blanked s :=
  List.flatMap_cons

theorem blanked_append (s t : Text) : blanked (s ++ t) = blanked s ++ blanked t :=
  List.flatMap_append

theorem width_spaces (n : Nat) : width (List.replicate n ' ') = n := by
  induction n with
  | zero => rfl
  | succ n ih =>
    rw [List.replicate_succ, width_cons, ih, show (' ').utf8Size = 1 by decide, Nat.add_comm]

/-- **A text that is blanked out keeps its bytes**. -/
@[simp] theorem width_blanked (s : Text) : width (blanked s) = width s := by
  induction s with
  | nil => rfl
  | cons c s ih =>
    rw [blanked_cons, width_append, ih, width_cons]
    split
    · rw [width_cons, width_nil, Nat.add_zero]
    · rw [width_spaces]

/-- A text that is blanked out is layout. -/
theorem isLayout_of_mem_blanked {c : Char} {s : Text} (h : c ∈ blanked s) : isLayout c = true := by
  obtain ⟨d, -, hc⟩ := List.mem_flatMap.1 h
  split at hc
  · next hd =>
    rw [List.mem_singleton.1 hc, isLayout_iff]
    rw [isLineEnd, Bool.or_eq_true, beq_iff_eq, beq_iff_eq] at hd
    rcases hd with rfl | rfl
    · exact .inr (.inr (.inr rfl))
    · exact .inr (.inr (.inl rfl))
  · rw [List.eq_of_mem_replicate hc]
    rfl

/-- A text that does not begin with a line end is blanked out to a space and more. -/
theorem blanked_head {c : Char} (hc : isLineEnd c = false) (s : Text) :
    ∃ r, blanked (c :: s) = ' ' :: r := by
  obtain ⟨n, hn⟩ := Nat.exists_eq_add_of_lt c.utf8Size_pos
  rw [Nat.zero_add] at hn
  refine ⟨List.replicate n ' ' ++ blanked s, ?_⟩
  rw [blanked_cons, if_neg (by rw [hc]; decide), hn, List.replicate_succ, List.cons_append]

/-- A text that is blanked out keeps its line feeds. -/
theorem newline_mem_blanked {s : Text} : '\n' ∈ blanked s ↔ '\n' ∈ s := by
  constructor
  · intro h
    obtain ⟨d, hd, hc⟩ := List.mem_flatMap.1 h
    split at hc
    · exact List.mem_singleton.1 hc ▸ hd
    · cases List.eq_of_mem_replicate hc
  · exact fun h => List.mem_flatMap.2 ⟨'\n', h, List.mem_singleton_self '\n'⟩

end Scholia.Text
