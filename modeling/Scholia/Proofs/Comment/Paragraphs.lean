import Scholia.Proofs.Comment.Docstring
/-!
# Paragraphs outside the sections

A paragraph behind the first one is taken out of a docstring, and the rest is read again
(`read_paragraph`). Before all headers the reader passes over it, as long as it has no header
itself: it is text outside the sections. But nothing except a header ends a section, so that
a paragraph behind one is taken into the section that is open, whatever its first row is
(`read_note`).

The counting of what has been read shows that nothing makes up for a row that is taken in.
-/

namespace Scholia.Comment.Docstring

open Doc (Line)
open Text (allBlank trim)

/-- A row that an open section takes in. -/
def IsTaken (row : Text) : Prop :=
  allBlank row = false ∧ ¬ IsHeader row ∧ ¬ IsNone row

instance (row : Text) : Decidable (IsTaken row) :=
  inferInstanceAs (Decidable (_ ∧ _))

variable {s t : State} {row : Text} {rows : List Text}

theorem worth_eq_zero_iff : worth row = 0 ↔ ¬ IsTaken row := by
  unfold worth IsTaken
  split
  · next hlost => simpa using fun _ hheader => hlost.resolve_left hheader
  · next hplain =>
    rw [Text.weight_eq_zero_iff, ← Bool.not_eq_false, not_iff_not]
    exact ⟨fun h => ⟨h, not_or.1 hplain⟩, fun h => h.1⟩

theorem sum_worth_eq_zero_iff : (rows.map worth).sum = 0 ↔ ∀ row ∈ rows, ¬ IsTaken row := by
  rw [List.sum_eq_zero_iff, List.forall_mem_map]
  exact forall₂_congr fun _ _ => worth_eq_zero_iff

theorem not_isHeader_of_allBlank (h : allBlank row = true) : ¬ IsHeader row := by
  rintro ⟨part, hpart⟩
  rw [trim_eq_nil_iff.2 h] at hpart
  revert hpart
  cases part <;> decide

/-! ## The section that is open -/

theorem isSome_step_iff (s : State) (row : Text) :
    (s.step row).current.isSome = true ↔ s.current.isSome = true ∨ IsHeader row := by
  rcases s.step_cases row with
    ⟨hblank, hstep⟩ | ⟨part, hpart, hstep⟩ | ⟨-, hheader, ⟨part, hpart, -⟩ | ⟨hnone, hstep⟩⟩
  · simp [hstep, not_isHeader_of_allBlank hblank]
  · exact ⟨fun _ => .inr ⟨part, hpart⟩, fun _ => by rw [hstep]; rfl⟩
  · have hopen : s.current.isSome = true := by rw [hpart]; rfl
    exact ⟨fun _ => .inl hopen, fun _ => State.isSome_step hopen row⟩
  · rw [hstep]
    split <;> simp [hnone, hheader]

/-- **A section is open behind every header**, and behind no other row. -/
theorem isSome_foldl_iff (s : State) (rows : List Text) :
    (rows.foldl State.step s).current.isSome = true ↔
      s.current.isSome = true ∨ ∃ row ∈ rows, IsHeader row := by
  induction rows generalizing s with
  | nil => simp
  | cons row rows ih =>
    rw [List.foldl_cons, ih, isSome_step_iff, or_assoc]
    simp

/-! ## Rows that are not taken in -/

/-- A row that is neither taken in nor a header says nothing. -/
theorem step_untaken (h : s.Settled) (htaken : ¬ IsTaken row) (hheader : ¬ IsHeader row) :
    s.step row = s := by
  rcases Option.eq_none_or_eq_some s.current with hcurrent | ⟨part, hcurrent⟩
  · exact h.step_passed hcurrent hheader
  · cases hblank : allBlank row with
    | true => exact h.step_blank hblank
    | false =>
      have hnone : IsNone row := by
        by_contra hnone
        exact htaken ⟨hblank, hheader, hnone⟩
      rw [State.step_open hcurrent hblank hheader, if_pos hnone]

theorem foldl_untaken (h : s.Settled) (hrows : ∀ row ∈ rows, ¬ IsTaken row ∧ ¬ IsHeader row) :
    rows.foldl State.step s = s := by
  induction rows with
  | nil => rfl
  | cons row rows ih =>
    obtain ⟨⟨htaken, hheader⟩, hrows⟩ := List.forall_mem_cons.1 hrows
    rw [List.foldl_cons, step_untaken h htaken hheader, ih hrows]

/-- Above all headers, no row is taken in. -/
theorem foldl_passed (h : s.Settled) (hcurrent : s.current = none)
    (hrows : ∀ row ∈ rows, ¬ IsHeader row) : rows.foldl State.step s = s := by
  induction rows with
  | nil => rfl
  | cons row rows ih =>
    obtain ⟨hheader, hrows⟩ := List.forall_mem_cons.1 hrows
    rw [List.foldl_cons, h.step_passed hcurrent hheader, ih hrows]

/-- Two states that differ in the section that is open. -/
def State.Alike (s t : State) : Prop :=
  t = { s with current := t.current, indent := t.indent }

theorem State.Alike.finish (h : s.Alike t) : t.finish = s.finish := by
  rw [h]
  rfl

/-- Rows that are not taken in leave nothing but the section that they open. -/
theorem alike_foldl (h : s.Settled) (hrows : ∀ row ∈ rows, ¬ IsTaken row) :
    s.Alike (rows.foldl State.step s) := by
  induction rows generalizing s with
  | nil => exact rfl
  | cons row rows ih =>
    obtain ⟨htaken, hrows⟩ := List.forall_mem_cons.1 hrows
    by_cases hheader : IsHeader row
    · obtain ⟨part, hpart⟩ := hheader
      have hrest := ih (h.step row) hrows
      rw [List.foldl_cons]
      rw [State.step_header s hpart] at hrest ⊢
      exact hrest
    · rw [List.foldl_cons, step_untaken h htaken hheader]
      exact ih h hrows

/-- The next header makes up for the difference. -/
theorem State.Alike.finish_foldl (h : s.Alike t) (hs : s.Settled) (ht : t.Settled)
    (hrows : ∀ row ∈ rows.takeWhile (¬ IsHeader ·), ¬ IsTaken row) :
    (rows.foldl State.step t).finish = (rows.foldl State.step s).finish := by
  induction rows with
  | nil => exact h.finish
  | cons row rows ih =>
    by_cases hheader : IsHeader row
    · obtain ⟨part, hpart⟩ := hheader
      have hsame : ({ t with current := some part, indent := none } : State) =
          { s with current := some part, indent := none } := by
        rw [h]
      rw [List.foldl_cons, List.foldl_cons, State.step_header t hpart, State.step_header s hpart,
        hsame]
    · rw [List.takeWhile_cons_of_pos (by simpa using hheader)] at hrows
      obtain ⟨htaken, hrows⟩ := List.forall_mem_cons.1 hrows
      rw [List.foldl_cons, List.foldl_cons, step_untaken ht htaken hheader,
        step_untaken hs htaken hheader, ih hrows]

/-! ## A paragraph that is taken out -/

variable {s : State} {foreign after : List Text}

theorem State.Settled.foldl (h : s.Settled) (rows : List Text) :
    (rows.foldl State.step s).Settled := by
  induction rows generalizing s with
  | nil => exact h
  | cons row rows ih => exact ih (h.step row)

theorem takeWhile_plain (rows : List Text) :
    ∀ row ∈ rows.takeWhile (¬ IsHeader ·), ¬ IsHeader row := fun row hrow => by
  simpa using List.mem_takeWhile_imp hrow

/-- A paragraph above all headers says nothing if it has no row that is taken in by a header of its
own, and opens no section for rows behind it. -/
theorem finish_closed (h : s.Settled) (hcurrent : s.current = none)
    (hforeign : ∀ row ∈ foreign.dropWhile (¬ IsHeader ·), ¬ IsTaken row)
    (hafter : (∃ row ∈ foreign, IsHeader row) →
      ∀ row ∈ after.takeWhile (¬ IsHeader ·), ¬ IsTaken row) :
    ((foreign ++ after).foldl State.step s).finish = (after.foldl State.step s).finish := by
  rw [List.foldl_append]
  by_cases hheader : ∃ row ∈ foreign, IsHeader row
  · have halike : s.Alike (foreign.foldl State.step s) := by
      rw [← List.takeWhile_append_dropWhile (p := (¬ IsHeader ·)) (l := foreign),
        List.foldl_append, foldl_passed h hcurrent (takeWhile_plain foreign)]
      exact alike_foldl h hforeign
    exact halike.finish_foldl h (h.foldl foreign) (hafter hheader)
  · rw [foldl_passed h hcurrent fun row hrow hrows => hheader ⟨row, hrow, hrows⟩]

/-- A row that is taken in by a header of the paragraph says something. -/
theorem untaken_of_finish_closed (h : s.Settled) (hcurrent : s.current = none)
    (hheader : ∃ row ∈ foreign, IsHeader row)
    (hfinish : ((foreign ++ after).foldl State.step s).finish = (after.foldl State.step s).finish) :
    (∀ row ∈ foreign.dropWhile (¬ IsHeader ·), ¬ IsTaken row) ∧
      ∀ row ∈ after.takeWhile (¬ IsHeader ·), ¬ IsTaken row := by
  have hseen : ∀ rows, s.seen rows = rows.dropWhile (¬ IsHeader ·) := fun rows => by
    rw [State.seen, hcurrent]
    rfl
  have hrest : (foreign ++ after).dropWhile (¬ IsHeader ·) =
      foreign.dropWhile (¬ IsHeader ·) ++ after := by
    rw [List.dropWhile_append, if_neg]
    simpa using hheader
  have hsplit : (after.map worth).sum = ((after.takeWhile (¬ IsHeader ·)).map worth).sum +
      ((after.dropWhile (¬ IsHeader ·)).map worth).sum := by
    rw [← List.sum_append, ← List.map_append, List.takeWhile_append_dropWhile]
  have hweight := congrArg linesWeight hfinish
  rw [linesWeight_finish, linesWeight_finish, weight_foldl_settled h, weight_foldl_settled h,
    hseen, hseen, hrest, List.map_append, List.sum_append] at hweight
  exact ⟨sum_worth_eq_zero_iff.1 (by omega), sum_worth_eq_zero_iff.1 (by omega)⟩

/-- **Above all headers**, a paragraph says nothing exactly if it has no row that is taken in by a
header of its own, and opens no section for rows behind it. -/
theorem finish_closed_iff (h : s.Settled) (hcurrent : s.current = none) :
    ((foreign ++ after).foldl State.step s).finish = (after.foldl State.step s).finish ↔
      (∀ row ∈ foreign.dropWhile (¬ IsHeader ·), ¬ IsTaken row) ∧
        ((∃ row ∈ foreign, IsHeader row) →
          ∀ row ∈ after.takeWhile (¬ IsHeader ·), ¬ IsTaken row) := by
  refine ⟨fun hfinish => ?_, fun ⟨hforeign, hafter⟩ => finish_closed h hcurrent hforeign hafter⟩
  by_cases hheader : ∃ row ∈ foreign, IsHeader row
  · obtain ⟨hforeign, hafter⟩ := untaken_of_finish_closed h hcurrent hheader hfinish
    exact ⟨hforeign, fun _ => hafter⟩
  · have hnil : foreign.dropWhile (¬ IsHeader ·) = [] := by simpa using hheader
    rw [hnil]
    exact ⟨fun _ hrow => absurd hrow List.not_mem_nil, fun hh => absurd hh hheader⟩

/-- **Behind a header**, every row that is taken in says something. -/
theorem untaken_of_finish (hopen : s.current.isSome = true)
    (hfinish : ((foreign ++ after).foldl State.step s).finish = (after.foldl State.step s).finish) :
    ∀ row ∈ foreign, ¬ IsTaken row := by
  have hweight := congrArg linesWeight hfinish
  rw [linesWeight_finish, linesWeight_finish, State.weight_foldl_open hopen,
    State.weight_foldl_open hopen, List.map_append, List.sum_append] at hweight
  exact sum_worth_eq_zero_iff.1 (by omega)

variable {letters quote : Text} {before : List Text}

theorem settled_foldl (hbefore : ∃ init blank, before = init ++ [blank] ∧ allBlank blank = true ∧
    ∃ row ∈ init, allBlank row = false) : (before.foldl State.step .initial).Settled := by
  obtain ⟨init, blank, rfl, hblank, hrow⟩ := hbefore
  rw [List.foldl_append]
  exact (State.begun_foldl hrow).settled hblank

/-- **A paragraph outside the sections**, behind the first one, is taken out of a docstring. Above all
headers, this leaves what the docstring says exactly if no row is read into a section that the
paragraph itself opens. Behind a header it does not, as soon as a row of the paragraph can be taken
in, whatever the paragraph is about; it does if no row can be taken in and none is a header. -/
theorem read_paragraph (hletters : ∀ c ∈ letters, c ∈ "rRuUbBfF".toList) (hquote : quote ∈ quotes)
    (hbefore : ∃ init blank, before = init ++ [blank] ∧ allBlank blank = true ∧
      ∃ row ∈ init, allBlank row = false)
    (hrows : ∀ row ∈ before ++ (foreign ++ after), '\n' ∉ row) :
    ((∀ row ∈ before, ¬ IsHeader row) →
      (Comment.read .python (docstring letters quote (before ++ (foreign ++ after))) =
          Comment.read .python (docstring letters quote (before ++ after)) ↔
        (∀ row ∈ foreign.dropWhile (¬ IsHeader ·), ¬ IsTaken row) ∧
          ((∃ row ∈ foreign, IsHeader row) → ∀ row ∈ after.takeWhile (¬ IsHeader ·), ¬ IsTaken row))) ∧
    ((∃ row ∈ before, IsHeader row) →
      ((∃ row ∈ foreign, IsTaken row) →
        Comment.read .python (docstring letters quote (before ++ (foreign ++ after))) ≠
          Comment.read .python (docstring letters quote (before ++ after))) ∧
      ((∀ row ∈ foreign, ¬ IsTaken row ∧ ¬ IsHeader row) →
        Comment.read .python (docstring letters quote (before ++ (foreign ++ after))) =
          Comment.read .python (docstring letters quote (before ++ after)))) := by
  have hsettled := settled_foldl hbefore
  have hopen := isSome_foldl_iff .initial before
  have hne : before ≠ [] := by
    obtain ⟨init, blank, rfl, -⟩ := hbefore
    simp
  have hwithout : ∀ row ∈ before ++ after, '\n' ∉ row := fun row hrow => hrows row <| by
    rcases List.mem_append.1 hrow with hrow | hrow
    · exact List.mem_append_left _ hrow
    · exact List.mem_append_right _ (List.mem_append_right _ hrow)
  have hbehind : ∀ rows : List Text, (before ++ rows).foldl State.step .initial =
      rows.foldl State.step (before.foldl State.step .initial) := fun _ => List.foldl_append
  rw [read_docstring hletters hquote (by simp [hne]) hrows,
    read_docstring hletters hquote (by simp [hne]) hwithout]
  simp only [hbehind, Except.ok.injEq, ne_eq]
  generalize before.foldl State.step .initial = s at hsettled hopen
  refine ⟨fun hnone => ?_, fun hheader => ⟨fun ⟨row, hrow, htaken⟩ hfinish => ?_, fun hp => ?_⟩⟩
  · refine finish_closed_iff hsettled ?_
    rw [← Option.not_isSome_iff_eq_none, hopen]
    rintro (hinitial | ⟨row, hrow, hheader⟩)
    · cases hinitial
    · exact hnone row hrow hheader
  · exact untaken_of_finish (hopen.2 (.inr hheader)) hfinish row hrow htaken
  · rw [List.foldl_append, foldl_untaken hsettled hp]

/-- The rows of a docstring with one section. -/
def addRows : List Text :=
  ["Adds.", "", "Args:", "    a: One.", ""].map (·.toList)

/-- A paragraph on something else. -/
def noteRows : List Text :=
  ["Note:", "    Fast."].map (·.toList)

/-- Taking the paragraph out is missed. -/
theorem read_paragraph_noteRows :
    (∃ row ∈ noteRows, IsTaken row) ∧
      Comment.read .python (docstring [] ['"', '"', '"'] (addRows ++ (noteRows ++ [[]]))) ≠
        Comment.read .python (docstring [] ['"', '"', '"'] (addRows ++ [[]])) := by
  have htaken : ∃ row ∈ noteRows, IsTaken row := by decide
  have hbefore : ∃ init blank, addRows = init ++ [blank] ∧ allBlank blank = true ∧
      ∃ row ∈ init, allBlank row = false :=
    ⟨["Adds.", "", "Args:", "    a: One."].map (·.toList), [], rfl, rfl, by decide⟩
  exact ⟨htaken, ((read_paragraph (by decide) (by decide) hbefore (by decide)).2 (by decide)).1 htaken⟩

/-- **A paragraph with another heading becomes an entry** of the section before it. -/
theorem read_note :
    Comment.read .python (docstring [] ['"', '"', '"'] (addRows ++ (noteRows ++ [[]]))) =
        .ok [.bold "Description:".toList, .text "Adds.".toList, .bold "Arguments:".toList,
          .bullets ["a. One.".toList, "Note.\nFast.".toList]] ∧
      Comment.read .python (docstring [] ['"', '"', '"'] (addRows ++ [[]])) =
        .ok [.bold "Description:".toList, .text "Adds.".toList, .bold "Arguments:".toList,
          .bullets ["a. One.".toList]] := by
  decide +kernel

end Scholia.Comment.Docstring
