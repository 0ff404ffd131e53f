import Scholia.Proofs.Source.Indented.Nest
/-!
# The lines of a function

A routine that is found stands for the annotations before its header, its header, and the lines
behind it that are indented deeper. No body is open where it begins, it is counted once, and the
line behind it is not deeper than its header.
-/

namespace Scholia.Source.Indented

variable {source : Text} {lines rest : List LogicalLine} {line : LogicalLine} {note : Option Nat}
  {n : Nest} {column : Nat}

/-- A header with annotations before it, behind some other line. -/
theorem mem_headed {m : Node} (h : m ∈ headed source note lines) :
    ∃ pre notes line header rest first, lines = pre ++ (notes ++ line :: rest) ∧
      (∀ l, pre.getLast? = some l → (l.bare source).isNote = false) ∧
      (∀ l ∈ notes, (l.bare source).isNote = true) ∧ (line.bare source).header? = some header ∧
      (notes ++ line :: rest).head? = some first ∧
      m = ((header.block source line (if pre = [] then note.getD first.start else first.start)).grown
        rest).close := by
  induction lines generalizing note with
  | nil => cases h
  | cons line rest ih =>
    rw [headed] at h
    by_cases hnote : (line.bare source).isNote = true
    · rw [if_pos hnote] at h
      obtain ⟨pre, notes, line', header, behind, first, rfl, hpre, hnotes, hheader, hfirst, rfl⟩ := ih h
      cases pre with
      | nil =>
        exact ⟨[], line :: notes, line', header, behind, line, rfl, (fun _ hl => by cases hl),
          List.forall_mem_cons.2 ⟨hnote, hnotes⟩, hheader, rfl, rfl⟩
      | cons p pre =>
        exact ⟨line :: p :: pre, notes, line', header, behind, first, rfl, hpre, hnotes, hheader,
          hfirst, rfl⟩
    · have hplain : (line.bare source).isNote = false := Bool.eq_false_iff.2 hnote
      rw [if_neg hnote] at h
      rcases List.mem_append.1 h with h | h
      · obtain ⟨header, hheader, rfl⟩ := Option.map_eq_some_iff.1 (Option.mem_toList.1 h)
        exact ⟨[], [], line, header, rest, line, rfl, (fun _ hl => by cases hl), by simp, hheader, rfl,
          rfl⟩
      · obtain ⟨pre, notes, line', header, behind, first, rfl, hpre, hnotes, hheader, hfirst, rfl⟩ :=
          ih h
        refine ⟨line :: pre, notes, line', header, behind, first, rfl, fun l hl => ?_, hnotes, hheader,
          hfirst, ?_⟩
        · cases pre with
          | nil =>
            cases hl
            exact hplain
          | cons p pre => exact hpre l hl
        · cases pre <;> rfl

/-! ## What is known inside a function -/

namespace Nest

/-- No body is open at the first of some lines. -/
def IsFree (n : Nest) (lines : List LogicalLine) : Prop :=
  n.note = none ∧ ∀ l ∈ lines.head?, n.within l.indent = none

/-- Behind annotations outside every body none is open either. -/
theorem run_notes {notes : List LogicalLine} (hnotes : ∀ l ∈ notes, (l.bare source).isNote = true)
    (h : n.note = none ∧ (∀ l ∈ (notes ++ line :: rest).head?, n.within l.indent = none) ∨
      n.note = some false ∧ n.body = none) :
    (n.run (notes.map (LogicalLine.bare source))).inner (line.bare source) = false ∧
      (n.run (notes.map (LogicalLine.bare source))).within line.indent = none ∧
      n.count (notes.map (LogicalLine.bare source)) = 0 := by
  induction notes generalizing n with
  | nil =>
    rcases h with ⟨hnote, hbody⟩ | ⟨hnote, hbody⟩
    · have hw : n.within line.indent = none := hbody line rfl
      refine ⟨?_, hw, rfl⟩
      show (n.note.getD (n.within line.indent).isSome) = false
      rw [hnote, hw]
      rfl
    · have hw : n.within line.indent = none := by
        rw [within, hbody]
        rfl
      refine ⟨?_, hw, rfl⟩
      show (n.note.getD (n.within line.indent).isSome) = false
      rw [hnote]
      rfl
  | cons l notes ih =>
    have hl := hnotes l List.mem_cons_self
    have hinner : n.inner (l.bare source) = false ∧ n.within l.indent = none := by
      rcases h with ⟨hnote, hbody⟩ | ⟨hnote, hbody⟩
      · have hw : n.within l.indent = none := hbody l rfl
        refine ⟨?_, hw⟩
        show (n.note.getD (n.within l.indent).isSome) = false
        rw [hnote, hw]
        rfl
      · refine ⟨?_, by rw [within, hbody]; rfl⟩
        show (n.note.getD (n.within l.indent).isSome) = false
        rw [hnote]
        rfl
    have hnext : n.next (l.bare source) = ⟨none, some false⟩ := by
      rw [next_note hl, hinner.1, ← hinner.2]
      rfl
    have hafter : (n.next (l.bare source)).note = some false ∧
        (n.next (l.bare source)).body = none := by
      rw [hnext]
      exact ⟨rfl, rfl⟩
    obtain ⟨hin, hwithin, hcount⟩ := ih (fun l hl => hnotes l (List.mem_cons_of_mem _ hl))
      (.inr hafter)
    refine ⟨hin, hwithin, ?_⟩
    rw [List.map_cons, count, hcount, declares, BareLine.header?_of_note hl]
    rfl

/-- A body goes on with the lines that are indented deeper, and counts nothing. -/
theorem run_body {body : List LogicalLine} (hbody : ∀ l ∈ body, column < l.indent)
    (h : n.body = some column ∧ n.note ≠ some false) :
    (n.run (body.map (LogicalLine.bare source))).body = some column ∧
      n.count (body.map (LogicalLine.bare source)) = 0 := by
  induction body generalizing n with
  | nil => exact ⟨h.1, rfl⟩
  | cons l body ih =>
    have hl := hbody l List.mem_cons_self
    have hwithin : n.within l.indent = some column := by
      rw [within, h.1, Option.filter_some_pos (by simpa using hl)]
    have hinner : n.inner (l.bare source) = true := by
      show (n.note.getD (n.within l.indent).isSome) = true
      rw [hwithin]
      cases hn : n.note with
      | none => rfl
      | some b =>
        cases b with
        | true => rfl
        | false => exact absurd hn h.2
    have hnext : (n.next (l.bare source)).body = some column ∧
        (n.next (l.bare source)).note ≠ some false := by
      by_cases hnote : (l.bare source).isNote = true
      · rw [next_note hnote, hinner]
        exact ⟨hwithin, by simp⟩
      · cases hheader : (l.bare source).header? with
        | none =>
          rw [next_plain hnote hheader]
          exact ⟨hwithin, by simp⟩
        | some header =>
          rw [next_header hheader]
          refine ⟨?_, by simp⟩
          show Option.or (n.within l.indent) _ = _
          rw [hwithin]
          rfl
    obtain ⟨hrun, hcount⟩ := ih (fun l hl => hbody l (List.mem_cons_of_mem _ hl)) hnext
    refine ⟨hrun, ?_⟩
    rw [List.map_cons, count, hcount, declares, hinner]
    simp

end Nest

/-- Lines that make up an outermost routine between others. -/
structure IsRoutine (source : Text) (pre inner post : List LogicalLine) : Prop where
  first : ∀ l ∈ inner.head?, l.start < l.stop
  free : (Nest.initial.run (pre.map (LogicalLine.bare source))).IsFree inner
  count : (Nest.initial.run (pre.map (LogicalLine.bare source))).count
    (inner.map (LogicalLine.bare source)) = 1
  /-- Its body does not go on behind it. -/
  behind : ∀ l ∈ post.head?, ((Nest.initial.run (pre.map (LogicalLine.bare source))).run
    (inner.map (LogicalLine.bare source))).within l.indent = none

/-- A block ends with the last of the lines that are indented deeper. -/
theorem getLast?_reach (line : LogicalLine) (rest : List LogicalLine) :
    ∃ last, (line :: rest.takeWhile (line.indent < ·.indent)).getLast? = some last ∧
      last.stop = reach line.indent line.stop rest := by
  refine ⟨_, List.getLast?_cons, ?_⟩
  rw [reach]
  cases (rest.takeWhile (line.indent < ·.indent)).getLast? <;> rfl

/-- **A function between lines**: its annotations, its header, and what is indented deeper. -/
theorem Nest.Tells.isRoutine {pre notes : List LogicalLine} {header : Header} {all : List Node}
    {pos : Nat} {before : List (Nat × Node)}
    (h : (Nest.initial.run (pre.map (LogicalLine.bare source))).Tells source all pos before none
      (notes ++ line :: rest))
    (hnotes : ∀ l ∈ notes, (l.bare source).isNote = true)
    (hheader : (line.bare source).header? = some header) (hroutine : header.isRoutine = true)
    (hfirst : ∀ first ∈ (notes ++ line :: rest).head?, ¬ CoveredAt all first.start) :
    IsRoutine source pre (notes ++ line :: rest.takeWhile (line.indent < ·.indent))
      (rest.dropWhile (line.indent < ·.indent)) := by
  let n := Nest.initial.run (pre.map (LogicalLine.bare source))
  have hlt : ∀ rest, ∀ l ∈ (notes ++ line :: rest).head?, l.start < l.stop := by
    intro rest l hl
    cases notes with
    | nil =>
      cases hl
      exact lt_of_header hheader
    | cons l' notes =>
      cases hl
      exact lt_of_note (hnotes l List.mem_cons_self)
  have hfree : n.note = none ∧ ∀ l ∈ (notes ++ line :: rest).head?, n.within l.indent = none := by
    refine ⟨h.quiet rfl, fun l hl => ?_⟩
    have hstart := hlt rest l hl
    obtain ⟨more, hmore⟩ := List.head?_eq_some_iff.1 hl
    rw [hmore] at h
    have hcovered := (h.within_iff hstart).not.2 (hfirst l hl)
    exact Option.isNone_iff_eq_none.1 (Option.not_isSome _ ▸ (by simpa using hcovered))
  obtain ⟨hinner, hwithin, hcount⟩ := Nest.run_notes hnotes (.inl hfree)
  have hnext : (n.run (notes.map (LogicalLine.bare source))).next (line.bare source) =
      ⟨some line.indent, none⟩ := by
    rw [Nest.next_header hheader, hroutine]
    show (⟨((n.run (notes.map (LogicalLine.bare source))).within line.indent).or _, none⟩ : Nest) = _
    rw [hwithin]
    rfl
  have hbody : ∀ l ∈ rest.takeWhile (line.indent < ·.indent), line.indent < l.indent := fun l hl => by
    simpa using List.all_eq_true.1 List.all_takeWhile l hl
  have hafter : ((n.run (notes.map (LogicalLine.bare source))).next (line.bare source)).body =
      some line.indent ∧
      ((n.run (notes.map (LogicalLine.bare source))).next (line.bare source)).note ≠ some false := by
    rw [hnext]
    exact ⟨rfl, by simp⟩
  obtain ⟨hrun, hcountBody⟩ := Nest.run_body hbody hafter
  refine ⟨hlt _, ⟨hfree.1, fun l hl => hfree.2 l ?_⟩, ?_, fun l hl => ?_⟩
  · cases notes <;> exact hl
  · rw [List.map_append, Nest.count_append, hcount, List.map_cons, Nest.count, hcountBody,
      Nest.declares, hheader, hinner, Option.any_some, hroutine]
    rfl
  · have hle : l.indent ≤ line.indent := by
      have hhead := List.head?_dropWhile_not (line.indent < ·.indent) rest
      rw [Option.mem_def.1 hl] at hhead
      simpa using hhead
    rw [List.map_append, Nest.run_append, List.map_cons]
    show ((((n.run (notes.map (LogicalLine.bare source))).next (line.bare source)).run _).body.filter
      (· < l.indent)) = none
    rw [hrun, Option.filter_some_neg (by simpa using hle)]

/-- **A routine that is found stands for the lines from its annotations to the end of its body**. -/
theorem survey_lines {o : Outline} (h : outline source = .ok o)
    (hlines : logicalLines source = .ok lines) {attachment : Attachment} {r : Routine}
    (hr : r ∈ (o.survey attachment).1) :
    ∃ pre inner post first last, lines = pre ++ (inner ++ post) ∧ inner.head? = some first ∧
      first.start = r.span.start ∧ inner.getLast? = some last ∧ last.stop = r.span.stop ∧
      IsRoutine source pre inner post := by
  have hkeys := (outline_fits h).2.survey_outermost (outline_distinct h) attachment
  obtain ⟨m, hm, hkey⟩ : ∃ m ∈ outermost o.nodes, m.key = r.key := by
    have hmem : r.key ∈ (o.survey attachment).1.map Routine.key := List.mem_map.2 ⟨r, hr, rfl⟩
    rw [hkeys] at hmem
    exact List.mem_map.1 hmem
  have hspan : m.span = r.span := congrArg (fun k => k.2.2) hkey
  obtain ⟨hmem, hout⟩ := List.mem_filter.1 hm
  rw [Bool.and_eq_true, Bool.not_eq_true', decide_eq_false_iff_not] at hout
  obtain ⟨hroutine, hcovered⟩ := hout
  have hperm := outline_headed h hlines
  have hheaded := hperm.mem_iff.1 (List.mem_filter.2 ⟨hmem, Node.declares_of_isRoutine hroutine⟩)
  obtain ⟨pre, notes, line, header, rest, first, rfl, hpre, hnotes, hheader, hfirst, he⟩ :=
    mem_headed hheaded
  rw [Option.getD_none, ite_self] at he
  have hspan' : r.span = ⟨first.start, reach line.indent line.stop rest⟩ := by
    rw [← hspan, he]
    exact OpenBlock.close_span _
  have hnot : ¬ CoveredAt (headed source none (pre ++ (notes ++ line :: rest))) first.start := by
    intro hc
    rw [show first.start = m.span.start by rw [hspan, hspan'], ← coveredAt_iff] at hc
    exact hcovered (covered_filter.2 (hc.mono fun m hm => hperm.mem_iff.2 hm))
  rw [he, OpenBlock.isRoutine_close] at hroutine
  obtain ⟨pos, before, note, htells, hnil, hlast⟩ :=
    (Nest.Tells.initial (logicalLines_fit hlines).2).run
  have hnote : note = none := by
    cases hl : pre.getLast? with
    | none => exact hnil (List.getLast?_eq_none_iff.1 hl)
    | some l => exact hlast l hl (hpre l hl)
  rw [hnote] at htells
  have hwhole := htells.isRoutine hnotes hheader hroutine fun l hl => by
    cases hfirst.symm.trans hl
    exact hnot
  obtain ⟨last, hend, hstop⟩ := getLast?_reach line rest
  refine ⟨pre, _, _, first, last, ?_, ?_, ?_, ?_, ?_, hwhole⟩
  · rw [List.append_assoc, List.cons_append, List.takeWhile_append_dropWhile]
  · cases notes <;> exact hfirst
  · rw [hspan']
  · rw [List.getLast?_append, hend]
    rfl
  · rw [hspan', hstop]

end Scholia.Source.Indented
