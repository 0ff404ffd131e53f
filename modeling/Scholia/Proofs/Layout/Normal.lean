import Mathlib.Data.List.DropRight
import Scholia.Proofs.Layout.RoundTrip
import Scholia.Proofs.Layout.Tidy
import Scholia.Proofs.Text.Rows
/-!
# Tidy texts

A text is tidy if no line ends in a blank, no more than two blank lines follow each other, and it ends
with exactly one line feed (`Layout.IsTidy`). `tidy` is worked out line by line: its lines are those of
the code without the blanks at their ends, without surplus empty ones and without the empty ones at the
end (`Layout.lines_tidy`).

**The law** (`Layout.tidy_eq_self_iff`): tidying leaves exactly the tidy texts as they are. What it
makes is tidy, so tidying twice is tidying once. It takes away nothing but blanks: the lines with text
stay, in order, and so do the blank lines between two of them, up to two (`Layout.tidy_normal`).
-/

namespace Scholia.Layout

open Text (allBlank isBlank lines splitWhere trimEnd trimEndWhere)

variable {ls front rest behind : List Text} {line : Text} {run : Nat}

/-! ## Runs of empty lines -/

/-- Lines of which no more than two empty ones follow each other, when `run` empty lines stand
directly before. -/
structure SpacedFrom (run : Nat) (ls : List Text) : Prop where
  lead : ∀ empty, empty <+: ls → (∀ l ∈ empty, l = []) →
    empty.length + min run maxEmptyLines ≤ maxEmptyLines
  inner : ∀ empty, empty <:+: ls → (∀ l ∈ empty, l = []) → empty.length ≤ maxEmptyLines

theorem limitEmpty_empty (run : Nat) (rest : List Text) :
    limitEmpty run ([] :: rest) =
      if run < maxEmptyLines then [] :: limitEmpty (run + 1) rest else limitEmpty (run + 1) rest :=
  rfl

theorem limitEmpty_text (h : line ≠ []) (run : Nat) (rest : List Text) :
    limitEmpty run (line :: rest) = line :: limitEmpty 0 rest := by
  rw [limitEmpty, if_neg (by simpa using h)]

/-- **What is left has no surplus empty lines**. -/
theorem spacedFrom_limitEmpty (run : Nat) (ls : List Text) : SpacedFrom run (limitEmpty run ls) := by
  induction ls generalizing run with
  | nil =>
    constructor
    · intro empty h _
      rw [List.prefix_nil.1 h, List.length_nil, Nat.zero_add]
      exact Nat.min_le_right _ _
    · intro empty h _
      rw [List.eq_nil_of_infix_nil h]
      exact Nat.zero_le _
  | cons line rest ih =>
    by_cases hline : line = []
    · subst hline
      have hrest := ih (run + 1)
      rw [limitEmpty_empty]
      split
      · next hrun =>
        have hlead : ∀ empty, empty <+: [] :: limitEmpty (run + 1) rest → (∀ l ∈ empty, l = []) →
            empty.length + min run maxEmptyLines ≤ maxEmptyLines := by
          intro empty h hempty
          cases empty with
          | nil =>
            rw [List.length_nil, Nat.zero_add]
            exact Nat.min_le_right _ _
          | cons l empty =>
            have := hrest.lead empty (List.cons_prefix_cons.1 h).2
              fun k hk => hempty k (List.mem_cons_of_mem _ hk)
            rw [List.length_cons]
            omega
        refine ⟨hlead, fun empty h hempty => ?_⟩
        rcases List.infix_cons_iff.1 h with h | h
        · have := hlead empty h hempty
          omega
        · exact hrest.inner empty h hempty
      · next hrun =>
        refine ⟨fun empty h hempty => ?_, hrest.inner⟩
        have := hrest.lead empty h hempty
        omega
    · rw [limitEmpty_text hline]
      have hrest := ih 0
      have hlead : ∀ empty, empty <+: line :: limitEmpty 0 rest → (∀ l ∈ empty, l = []) →
          empty = [] := by
        intro empty h hempty
        cases empty with
        | nil => rfl
        | cons l empty =>
          have hl := hempty l List.mem_cons_self
          rw [(List.cons_prefix_cons.1 h).1] at hl
          exact absurd hl hline
      constructor
      · intro empty h hempty
        rw [hlead empty h hempty, List.length_nil, Nat.zero_add]
        exact Nat.min_le_right _ _
      · intro empty h hempty
        rcases List.infix_cons_iff.1 h with h | h
        · rw [hlead empty h hempty]
          exact Nat.zero_le _
        · exact hrest.inner empty h hempty

theorem SpacedFrom.of_inner (h : ∀ empty, empty <:+: ls → (∀ l ∈ empty, l = []) →
    empty.length ≤ maxEmptyLines) : SpacedFrom 0 ls :=
  ⟨fun empty hlead hempty => by simpa using h empty hlead.isInfix hempty, h⟩

/-- **Where there are no surplus empty lines, none is left out**. -/
theorem SpacedFrom.limitEmpty (h : SpacedFrom run ls) : limitEmpty run ls = ls := by
  induction ls generalizing run with
  | nil => rfl
  | cons line rest ih =>
    by_cases hline : line = []
    · subst hline
      have hone := h.lead [[]] ⟨rest, rfl⟩ (by simp)
      rw [List.length_singleton] at hone
      have hrest : SpacedFrom (run + 1) rest := by
        refine ⟨fun empty hlead hempty => ?_, fun empty hinner => h.inner empty (hinner.trans ?_)⟩
        · have := h.lead ([] :: empty) (List.cons_prefix_cons.2 ⟨rfl, hlead⟩)
            (List.forall_mem_cons.2 ⟨rfl, hempty⟩)
          rw [List.length_cons] at this
          omega
        · exact (List.suffix_cons [] rest).isInfix
      rw [limitEmpty_empty, if_pos (by omega), ih hrest]
    · rw [limitEmpty_text hline, ih (.of_inner fun empty hinner => h.inner empty (hinner.trans ?_))]
      exact (List.suffix_cons line rest).isInfix

/-- Left out are empty lines only. -/
theorem filter_limitEmpty (run : Nat) (ls : List Text) :
    (limitEmpty run ls).filter (!allBlank ·) = ls.filter (!allBlank ·) := by
  induction ls generalizing run with
  | nil => rfl
  | cons line rest ih =>
    by_cases hline : line = []
    · subst hline
      rw [limitEmpty_empty]
      split
      · rw [List.filter_cons_of_neg (by simp [allBlank]), List.filter_cons_of_neg (by simp [allBlank]),
          ih]
      · rw [List.filter_cons_of_neg (by simp [allBlank]), ih]
    · rw [limitEmpty_text hline, List.filter_cons, List.filter_cons, ih]

theorem mem_of_mem_limitEmpty (h : line ∈ limitEmpty run ls) : line ∈ ls := by
  induction ls generalizing run with
  | nil => exact h
  | cons first rest ih =>
    rw [limitEmpty] at h
    split at h
    · split at h
      · rcases List.mem_cons.1 h with rfl | h
        · exact List.mem_cons_self
        · exact List.mem_cons_of_mem _ (ih h)
      · exact List.mem_cons_of_mem _ (ih h)
    · rcases List.mem_cons.1 h with rfl | h
      · exact List.mem_cons_self
      · exact List.mem_cons_of_mem _ (ih h)

/-- Empty lines are counted anew behind a line that is not empty. -/
theorem limitEmpty_append (h : line ≠ []) (run : Nat) (front rest : List Text) :
    limitEmpty run (front ++ line :: rest) = limitEmpty run front ++ line :: limitEmpty 0 rest := by
  induction front generalizing run with
  | nil => exact limitEmpty_text h run rest
  | cons first front ih =>
    rw [List.cons_append]
    by_cases hfirst : first = []
    · subst hfirst
      rw [limitEmpty_empty, limitEmpty_empty, ih]
      split
      · rfl
      · rfl
    · rw [limitEmpty_text hfirst, limitEmpty_text hfirst, ih, List.cons_append]

/-- **Of a run of empty lines two are left**, if there are as many. -/
theorem limitEmpty_replicate (h : line ≠ []) (run k : Nat) (rest : List Text) :
    limitEmpty run (List.replicate k [] ++ line :: rest) =
      List.replicate (min k (maxEmptyLines - run)) [] ++ line :: limitEmpty 0 rest := by
  induction k generalizing run with
  | zero => rw [Nat.zero_min]; exact limitEmpty_text h run rest
  | succ k ih =>
    rw [List.replicate_succ, List.cons_append, limitEmpty_empty, ih]
    split
    · next hrun =>
      rw [show min (k + 1) (maxEmptyLines - run) = min k (maxEmptyLines - (run + 1)) + 1 by omega,
        List.replicate_succ, List.cons_append]
    · next hrun =>
      rw [show min (k + 1) (maxEmptyLines - run) = min k (maxEmptyLines - (run + 1)) by omega]

/-! ## Lines and their text -/

/-- Lines without the empty ones at their end, of which one is left if there is nothing else. -/
def settle (ls : List Text) : List Text :=
  if ls.rdropWhile List.isEmpty = [] then [[]] else ls.rdropWhile List.isEmpty

theorem unlines_append (ls ms : List Text) : unlines (ls ++ ms) = unlines ls ++ unlines ms :=
  List.flatMap_append

theorem unlines_singleton (line : Text) : unlines [line] = line ++ ['\n'] := by
  simp [unlines]

/-- **Line feeds at the end of whole lines are empty lines at their end**. -/
theorem trimEndWhere_unlines (h : ∀ l ∈ ls, '\n' ∉ l) :
    trimEndWhere (· == '\n') (unlines ls) ++ ['\n'] = unlines (settle ls) := by
  induction ls using List.reverseRecOn with
  | nil => rfl
  | append_singleton ls line ih =>
    by_cases hline : line = []
    · subst hline
      have hsettle : settle (ls ++ [[]]) = settle ls := by
        simp only [settle, List.rdropWhile_concat_pos List.isEmpty ls [] rfl]
      rw [hsettle, ← ih fun l hl => h l (List.mem_append_left _ hl), unlines_append,
        unlines_singleton, List.nil_append, trimEndWhere, List.reverse_append]
      rfl
    · have hkept : (ls ++ [line]).rdropWhile List.isEmpty = ls ++ [line] :=
        List.rdropWhile_concat_neg _ _ _ (by simpa using hline)
      have hsettle : settle (ls ++ [line]) = ls ++ [line] := by
        rw [settle, hkept, if_neg (by simp)]
      obtain ⟨init, c, rfl⟩ := List.eq_nil_or_concat' line |>.resolve_left hline
      have hc : c ≠ '\n' := by
        rintro rfl
        exact h _ (List.mem_append_right _ (List.mem_singleton_self _)) (by simp)
      rw [hsettle, unlines_append, unlines_singleton, trimEndWhere]
      simp [hc]

theorem settle_subset {l : Text} (h : l ∈ settle ls) : l = [] ∨ l ∈ ls := by
  unfold settle at h
  split at h
  · exact .inl (List.mem_singleton.1 h)
  · exact .inr ((List.rdropWhile_prefix _ ls).subset h)

theorem Trimmed.settle (h : Trimmed ls) : Trimmed (settle ls) where
  whole := fun l hl => by
    rcases settle_subset hl with rfl | hl
    · simp
    · exact h.whole l hl
  trimmed := fun l hl => by
    rcases settle_subset hl with rfl | hl
    · rfl
    · exact h.trimmed l hl

/-- **Trimmed lines are the lines of their text**. -/
theorem Trimmed.lines_unlines (h : Trimmed ls) : lines (unlines ls) = ls := by
  induction ls with
  | nil => rfl
  | cons line rest ih =>
    rw [unlines_cons, Text.lines_line (h.whole line List.mem_cons_self), ih h.tail, h.dropReturn]

theorem Trimmed.splitWhere_unlines (h : Trimmed ls) :
    splitWhere (· == '\n') (unlines ls) = ls ++ [[]] := by
  induction ls with
  | nil => rfl
  | cons line rest ih =>
    rw [unlines_cons, Text.splitWhere_append rfl,
      Text.splitWhere_of_not_mem (h.whole line List.mem_cons_self), ih h.tail]
    rfl

theorem trimmed_lines (s : Text) : Trimmed ((lines s).map trimEnd) where
  whole := fun l hl hn => by
    obtain ⟨raw, hraw, rfl⟩ := List.mem_map.1 hl
    obtain ⟨tail, htail, -⟩ := Text.trimEndWhere_append isBlank raw
    exact Text.not_newline_of_mem_lines hraw (htail ▸ List.mem_append_left _ hn)
  trimmed := fun l hl => by
    obtain ⟨raw, -, rfl⟩ := List.mem_map.1 hl
    exact Text.trimEnd_trimEnd raw

/-- The lines of a tidy text, worked out from those of the code. -/
def tidyLines (code : Text) : List Text :=
  settle (limitEmpty 0 ((lines code).map trimEnd))

theorem trimmed_tidyLines (code : Text) : Trimmed (tidyLines code) := by
  have h := trimmed_lines code
  refine Trimmed.settle ⟨fun l hl => ?_, fun l hl => ?_⟩
  · exact h.whole l (mem_of_mem_limitEmpty hl)
  · exact h.trimmed l (mem_of_mem_limitEmpty hl)

theorem tidy_eq_unlines (code : Text) : tidy code = unlines (tidyLines code) :=
  trimEndWhere_unlines fun l hl => (trimmed_lines code).whole l (mem_of_mem_limitEmpty hl)

theorem lines_tidy (code : Text) : lines (tidy code) = tidyLines code := by
  rw [tidy_eq_unlines, (trimmed_tidyLines code).lines_unlines]

/-! ## Tidy texts -/

/-- A text is tidy if no line ends in a blank, no more than two blank lines follow each other, and it
ends with exactly one line feed. -/
structure IsTidy (s : Text) : Prop where
  trimmed : ∀ line ∈ splitWhere (· == '\n') s, ∀ c, line.getLast? = some c → isBlank c = false
  spaced : ∀ run, run <:+: lines s → (∀ l ∈ run, allBlank l = true) → run.length ≤ 2
  ended : ∃ body, s = body ++ ['\n'] ∧ body.getLast? ≠ some '\n'

/-- Blank lines that are trimmed are empty. -/
theorem Trimmed.eq_nil (h : Trimmed ls) {l : Text} (hl : l ∈ ls) (hblank : allBlank l = true) :
    l = [] := by
  by_contra hne
  rw [h.not_allBlank hl hne] at hblank
  cases hblank

/-- **What `tidy` makes is tidy**. -/
theorem isTidy_tidy (code : Text) : IsTidy (tidy code) := by
  have htrimmed := trimmed_tidyLines code
  refine ⟨fun line hline c hc => ?_, fun run hrun hblank => ?_, ?_⟩
  · rw [tidy_eq_unlines, htrimmed.splitWhere_unlines] at hline
    rcases List.mem_append.1 hline with hline | hline
    · exact Text.trimEnd_eq_self_iff.1 (htrimmed.trimmed line hline) c hc
    · rw [List.mem_singleton.1 hline] at hc
      cases hc
  · rw [lines_tidy] at hrun
    have hempty : ∀ l ∈ run, l = [] := fun l hl => htrimmed.eq_nil (hrun.subset hl) (hblank l hl)
    unfold tidyLines settle at hrun
    split at hrun
    · exact Nat.le_trans hrun.length_le (by decide)
    · exact (spacedFrom_limitEmpty 0 _).inner run
        (hrun.trans (List.rdropWhile_prefix _ _).isInfix) hempty
  · refine ⟨_, rfl, fun hlast => ?_⟩
    rw [trimEndWhere, List.getLast?_reverse] at hlast
    have hnot := List.head?_dropWhile_not (· == '\n')
      ((limitEmpty 0 ((lines code).map trimEnd)).flatMap (· ++ ['\n'])).reverse
    rw [hlast] at hnot
    cases hnot

/-- A text that ends with a line feed is made of its lines. -/
theorem unlines_splitWhere (body : Text) :
    unlines (splitWhere (· == '\n') body) = body ++ ['\n'] := by
  have hjoin : ∀ ls : List Text, ls ≠ [] → unlines ls = Text.join ['\n'] ls ++ ['\n'] := by
    intro ls
    induction ls with
    | nil => exact fun hne => absurd rfl hne
    | cons line rest ih =>
      intro _
      cases rest with
      | nil => simp [unlines, Text.join]
      | cons next rest =>
        rw [unlines_cons, ih (List.cons_ne_nil _ _), Text.join_cons (List.cons_ne_nil _ _)]
        simp
  rw [hjoin _ (Text.splitWhere_ne_nil _ _), Text.join_splitWhere]

/-- **A tidy text stays as it is**. -/
theorem IsTidy.tidy {s : Text} (h : IsTidy s) : tidy s = s := by
  obtain ⟨body, rfl, hbody⟩ := h.ended
  have htrimmed : Trimmed (splitWhere (· == '\n') body) := by
    refine ⟨fun l hl => Text.not_mem_of_mem_splitWhere hl, fun l hl => ?_⟩
    refine Text.trimEnd_eq_self_iff.2 (h.trimmed l ?_)
    rw [Text.splitWhere_append rfl]
    exact List.mem_append_left _ hl
  have hlines : lines (body ++ ['\n']) = splitWhere (· == '\n') body := by
    rw [← unlines_splitWhere, htrimmed.lines_unlines]
  have hspaced : SpacedFrom 0 (splitWhere (· == '\n') body) := by
    refine .of_inner fun empty hinner hempty => ?_
    exact h.spaced empty (hlines ▸ hinner) fun l hl => by rw [hempty l hl]; rfl
  have hmap : (splitWhere (· == '\n') body).map trimEnd = splitWhere (· == '\n') body :=
    (List.map_congr_left htrimmed.trimmed).trans (List.map_id _)
  have hends : trimEndWhere (· == '\n') (body ++ ['\n']) = body := by
    rcases List.eq_nil_or_concat' body with rfl | ⟨init, c, rfl⟩
    · rfl
    · have hc : c ≠ '\n' := by simpa using hbody
      simp [trimEndWhere, hc]
  calc Layout.tidy (body ++ ['\n'])
    _ = trimEndWhere (· == '\n') (unlines (limitEmpty 0 ((lines (body ++ ['\n'])).map trimEnd))) ++
          ['\n'] := rfl
    _ = trimEndWhere (· == '\n') (body ++ ['\n']) ++ ['\n'] := by
      rw [hlines, hmap, hspaced.limitEmpty, unlines_splitWhere]
    _ = body ++ ['\n'] := by rw [hends]

/-- **Tidying leaves exactly the tidy texts as they are**. -/
theorem tidy_eq_self_iff {s : Text} : tidy s = s ↔ IsTidy s :=
  ⟨fun h => h ▸ isTidy_tidy s, IsTidy.tidy⟩

/-! ## What is kept -/

/-- A line without the blanks at its end has text if it had. -/
theorem filter_map_trimEnd (ls : List Text) :
    (ls.map trimEnd).filter (!allBlank ·) = (ls.filter (!allBlank ·)).map trimEnd := by
  rw [List.filter_map]
  refine congrArg (List.map trimEnd) (List.filter_congr fun l _ => ?_)
  rw [Function.comp_apply, Text.allBlank_trimEnd]

/-- **The lines with text are kept**, in order. -/
theorem filter_lines_tidy (code : Text) :
    (lines (tidy code)).filter (!allBlank ·) = ((lines code).filter (!allBlank ·)).map trimEnd := by
  have hsettle : ∀ ls : List Text, (settle ls).filter (!allBlank ·) = ls.filter (!allBlank ·) := by
    intro ls
    have hkept : (ls.rdropWhile List.isEmpty).filter (!allBlank ·) = ls.filter (!allBlank ·) := by
      conv_rhs => rw [← List.rdropWhile_append_rtakeWhile (p := List.isEmpty) (l := ls)]
      have hnone : (ls.rtakeWhile List.isEmpty).filter (!allBlank ·) = [] := by
        refine List.filter_eq_nil_iff.2 fun l hl => ?_
        rw [List.isEmpty_iff.1 (List.mem_rtakeWhile_imp hl)]
        decide
      rw [List.filter_append, hnone, List.append_nil]
    unfold settle
    split
    · next hnil =>
      rw [← hkept, hnil]
      rfl
    · exact hkept
  rw [lines_tidy, tidyLines, hsettle, filter_limitEmpty, filter_map_trimEnd]

/-- Empty lines at the end are left out behind a line that is not empty. -/
theorem settle_append (h : line ≠ []) (front rest : List Text) :
    settle (front ++ line :: rest) = front ++ line :: rest.rdropWhile List.isEmpty := by
  have hkept : (front ++ line :: rest).rdropWhile List.isEmpty =
      front ++ line :: rest.rdropWhile List.isEmpty := by
    induction rest using List.reverseRecOn with
    | nil => exact List.rdropWhile_concat_neg _ _ _ (by simpa using h)
    | append_singleton rest last ih =>
      by_cases hlast : last = []
      · subst hlast
        rw [← List.cons_append, ← List.append_assoc, List.rdropWhile_concat_pos _ _ _ rfl, ih,
          List.rdropWhile_concat_pos _ _ _ rfl]
      · rw [← List.cons_append, ← List.append_assoc,
          List.rdropWhile_concat_neg _ _ _ (by simpa using hlast),
          List.rdropWhile_concat_neg _ _ _ (by simpa using hlast)]
        simp
  rw [settle, hkept, if_neg (by simp)]

/-- **Of the blank lines between two lines with text two are kept**, if there are as many. -/
theorem lines_tidy_run {code a b : Text} {front run behind : List Text}
    (h : lines code = front ++ a :: (run ++ b :: behind)) (ha : allBlank a = false)
    (hb : allBlank b = false) (hrun : ∀ l ∈ run, allBlank l = true) :
    ∃ front' behind', lines (tidy code) =
        front' ++ trimEnd a :: (List.replicate (min run.length 2) [] ++ trimEnd b :: behind') ∧
      front'.filter (!allBlank ·) = (front.filter (!allBlank ·)).map trimEnd := by
  have htext : ∀ {l : Text}, allBlank l = false → trimEnd l ≠ [] := by
    intro l hl hnil
    rw [← Text.allBlank_trimEnd, hnil] at hl
    cases hl
  have hempty : run.map trimEnd = List.replicate run.length [] := by
    refine List.eq_replicate_iff.2 ⟨List.length_map _, fun l hl => ?_⟩
    obtain ⟨raw, hraw, rfl⟩ := List.mem_map.1 hl
    exact Text.trimEnd_of_allBlank (hrun raw hraw)
  refine ⟨limitEmpty 0 (front.map trimEnd),
    (limitEmpty 0 (behind.map trimEnd)).rdropWhile List.isEmpty, ?_, ?_⟩
  · rw [lines_tidy, tidyLines, h, List.map_append, List.map_cons, List.map_append, List.map_cons,
      hempty, limitEmpty_append (htext ha), limitEmpty_replicate (htext hb), ← List.cons_append,
      ← List.append_assoc, settle_append (htext hb), List.append_assoc]
    rfl
  · rw [filter_limitEmpty, filter_map_trimEnd]

/-- **Tidying is a normal form**. What it makes is tidy: it ends with exactly one line feed, no line
ends in a blank, and no more than two blank lines follow each other. The lines with text are those of
the code without the blanks at their ends, in order; between two of them as many blank lines are left
as stood there, but no more than two. Tidying twice is tidying once. -/
theorem tidy_normal (code : Text) :
    IsTidy (tidy code) ∧
      (lines (tidy code)).filter (!allBlank ·) =
        ((lines code).filter (!allBlank ·)).map trimEnd ∧
      (∀ front a run b behind, lines code = front ++ a :: (run ++ b :: behind) →
        allBlank a = false → allBlank b = false → (∀ l ∈ run, allBlank l = true) →
        ∃ front' behind', lines (tidy code) =
            front' ++ trimEnd a :: (List.replicate (min run.length 2) [] ++ trimEnd b :: behind') ∧
          front'.filter (!allBlank ·) = (front.filter (!allBlank ·)).map trimEnd) ∧
      tidy (tidy code) = tidy code :=
  ⟨isTidy_tidy code, filter_lines_tidy code, fun _ _ _ _ _ h ha hb hrun => lines_tidy_run h ha hb hrun,
    (isTidy_tidy code).tidy⟩

/-- Blank lines of every kind, a lone carriage return, and no line feed at the end. -/
def loosePair : Text :=
  "\n \n\n\na\rb \t\r\n\n\t\n\u2028\n\r\n  c\n\n \r".toList

theorem tidy_normal_loosePair :
    lines loosePair = ([[], [' '], [], []] ++ "a\rb \t".toList ::
        ([[], ['\t'], ['\u2028'], []] ++ "  c".toList :: [[], " \r".toList])) ∧
      tidy loosePair = "\n\na\rb\n\n\n  c\n".toList ∧
      IsTidy (tidy loosePair) ∧ tidy (tidy loosePair) = tidy loosePair ∧
      ∃ front' behind', lines (tidy loosePair) =
          front' ++ "a\rb".toList :: ([[], []] ++ "  c".toList :: behind') ∧
        front'.filter (!allBlank ·) = [] := by
  have hlines : lines loosePair = [[], [' '], [], []] ++ "a\rb \t".toList ::
      ([[], ['\t'], ['\u2028'], []] ++ "  c".toList :: [[], " \r".toList]) := by
    decide +kernel
  obtain ⟨htidy, -, hrun, htwice⟩ := tidy_normal loosePair
  refine ⟨hlines, by decide +kernel, htidy, htwice, ?_⟩
  exact hrun _ _ _ _ _ hlines (by decide) (by decide) (by decide)

end Scholia.Layout
