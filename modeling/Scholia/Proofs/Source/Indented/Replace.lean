import Mathlib.Algebra.GroupWithZero.Nat
import Scholia.Proofs.Layout.Kept
import Scholia.Proofs.Source.Indented.Extent
import Scholia.Proofs.Source.Indented.Insertion
/-!
# Replacing functions

A text with a function of its own takes the place of one if its first line is not indented deeper
than that of the old one, and no line of it less than the line that follows: then it is part of the
blocks that the old one was part of, and the line that follows is no part of it. The other lines of
the file are read as before, and the functions of the text are found instead of the old one.
-/

namespace Scholia.Source.Indented

open Layout (Segment RowFrom spliceFrom lineBehind written)
open Text (isWhole)

variable {source text a b tail : Text} {lexemes : List (Lexeme Kind)}
  {pre post : List LogicalLine} {seg : Segment}

/-! ## States that agree -/

namespace Nest

variable {n n' : Nest} {line : BareLine} {more rest : List BareLine}

/-- What is known tells the same of the lines that follow. -/
def Agree (n n' : Nest) (lines : List BareLine) : Prop :=
  n.note = n'.note ∧ ∀ l ∈ lines.head?, n.within l.indent = n'.within l.indent

theorem Agree.inner_eq (h : n.Agree n' (line :: rest)) : n.inner line = n'.inner line := by
  rw [Nest.inner, Nest.inner, h.1, h.2 line rfl]

theorem Agree.next (h : n.Agree n' (line :: rest)) : n.next line = n'.next line := by
  rw [Nest.next, Nest.next, h.inner_eq, h.2 line rfl]

theorem Agree.count (h : n.Agree n' more) : n.count more = n'.count more := by
  cases more with
  | nil => rfl
  | cons line rest => rw [Nest.count, Nest.count, declares, declares, h.inner_eq, h.next]

theorem Agree.run (h : n.Agree n' more) (hne : more ≠ []) : n.run more = n'.run more := by
  cases more with
  | nil => exact absurd rfl hne
  | cons line rest =>
    show (n.next line).run rest = (n'.next line).run rest
    rw [h.next]

theorem Agree.left (h : n.Agree n' (more ++ rest)) : n.Agree n' more := by
  refine ⟨h.1, fun l hl => h.2 l ?_⟩
  rw [List.head?_append, Option.mem_def.1 hl]
  rfl

theorem Agree.run_append (h : n.Agree n' (more ++ rest)) : (n.run more).Agree (n'.run more) rest := by
  cases more with
  | nil => exact h
  | cons line more =>
    have hrun : n.run (line :: more) = n'.run (line :: more) :=
      Agree.run ⟨h.1, h.2⟩ (by simp)
    rw [hrun]
    exact ⟨rfl, fun _ _ => rfl⟩

/-- The body around the place behind some lines was there before, or begins with one of them. -/
theorem body_run {column : Nat} (h : (n.run more).body = some column) :
    n.body = some column ∨ ∃ l ∈ more, l.indent = column := by
  induction more generalizing n with
  | nil => exact .inl h
  | cons line more ih =>
    rcases ih h with hbody | ⟨l, hl, he⟩
    · have hwithin : n.within line.indent = some column → n.body = some column := fun hw =>
        (Option.filter_eq_some_iff.1 hw).1
      rw [Nest.next] at hbody
      split at hbody
      · exact .inl (hwithin hbody)
      split at hbody
      · exact .inl (hwithin hbody)
      · rcases Option.or_eq_some_iff.1 hbody with hw | ⟨-, hw⟩
        · exact .inl (hwithin hw)
        · split at hw
          · cases hw
            exact .inr ⟨line, List.mem_cons_self, rfl⟩
          · cases hw
    · exact .inr ⟨l, List.mem_cons_of_mem _ hl, he⟩

/-- Behind a line that does not annotate nothing is annotated. -/
theorem note_run (hlast : more.getLast? = some line) (hplain : line.isNote = false) :
    (n.run more).note = none := by
  obtain ⟨init, rfl⟩ := List.getLast?_eq_some_iff.1 hlast
  have hnot : ¬ line.isNote = true := Bool.eq_false_iff.1 hplain
  rw [run_append]
  show ((n.run init).next line).note = none
  cases hheader : line.header? with
  | none => rw [next_plain hnot hheader]
  | some header => rw [next_header hheader]

theorem within_eq_none {indent : Nat} :
    n.within indent = none ↔ ∀ column, n.body = some column → indent ≤ column := by
  rw [within, Option.filter_eq_none_iff]
  simp

end Nest

/-! ## New text -/

/-- The number of functions in a text, if it can be read. -/
abbrev functionsIn (text : Text) : Nat :=
  surveyed .firstStatement (outline text)

/-- A text with a function that leaves nothing open. -/
structure IsWhole (text : Text) : Prop where
  routine : 0 < functionsIn text
  /-- No backslash covers the line end that follows. -/
  ended : continues text = false
  /-- Its last line annotates nothing. -/
  plain : ∀ lines, logicalLines text = .ok lines → ∀ l ∈ lines.getLast?, (l.bare text).isNote = false

/-- A segment that puts a whole text in the place of a function, where it is part of the same blocks. -/
structure Seats (source : Text) (seg : Segment) : Prop where
  whole : IsWhole (written source seg)
  /-- Its first line is not indented deeper than that of the range. -/
  first : ∀ lines new, logicalLines source = .ok lines → logicalLines (written source seg) = .ok new →
    ∀ l ∈ lines, l.start = seg.span.start → ∀ m ∈ new.head?, m.indent ≤ l.indent
  /-- None of its lines is indented less than the line behind the range. -/
  behind : ∀ lines new, logicalLines source = .ok lines → logicalLines (written source seg) = .ok new →
    ∀ l ∈ lines.find? (seg.span.stop < ·.start), ∀ m ∈ new, l.indent ≤ m.indent
  /-- The last line of the range annotates nothing. -/
  plain : ∀ lines, logicalLines source = .ok lines →
    ∀ l ∈ lines, l.stop = seg.span.stop → (l.bare source).isNote = false
  /-- Where it ends with a comment or on a new line, no backslash follows in the line of the range. -/
  line : endsInCode (written source seg) = false → '\\' ∉ lineBehind source seg.span.stop

/-- A segment that stands for a function. -/
def Stands (source : Text) (seg : Segment) : Prop :=
  ∃ pre inner post first last, logicalLines source = .ok (pre ++ (inner ++ post)) ∧
    inner.head? = some first ∧ first.start = seg.span.start ∧ inner.getLast? = some last ∧
    last.stop = seg.span.stop ∧ IsRoutine source pre inner post

/-- The lines of a whole text. -/
theorem IsWhole.read (h : IsWhole text) :
    ∃ new, logicalLines text = .ok new ∧ (∀ l ∈ new, (l.bare text).isSound = true) ∧
      Nest.initial.count (new.map (LogicalLine.bare text)) = functionsIn text := by
  cases ho : outline text with
  | error fault =>
    have hnone := h.routine
    rw [functionsIn, ho] at hnone
    exact absurd hnone (Nat.lt_irrefl 0)
  | ok o =>
    obtain ⟨new, hnew, -⟩ := bind_eq_ok.1 ho
    refine ⟨new, hnew, (exists_outline_iff hnew).1 ⟨o, ho⟩, ?_⟩
    rw [functionsIn, ho]
    exact (length_survey ho hnew _).symm

/-- **A whole text in a place where no body is open**: as many functions are counted as on its own, and
it leads to where it leads on its own. -/
theorem IsWhole.run {n : Nest} {column : Nat} (h : IsWhole text) {new : List LogicalLine}
    (hnew : logicalLines text = .ok new) (hnote : n.note = none) (hfree : n.within column = none)
    (hfirst : ∀ l ∈ new.head?, l.indent ≤ column) :
    n.count (new.map (LogicalLine.bare text)) = functionsIn text ∧
      (n.run (new.map (LogicalLine.bare text))).note = none ∧
      ∀ indent, (∀ l ∈ new, indent ≤ l.indent) →
        (n.run (new.map (LogicalLine.bare text))).within indent = none := by
  obtain ⟨new', hnew', -, hcount⟩ := h.read
  cases hnew.symm.trans hnew'
  have hne : new.map (LogicalLine.bare text) ≠ [] := by
    intro he
    have hpos := h.routine
    rw [← hcount, he] at hpos
    exact absurd hpos (Nat.lt_irrefl 0)
  have hagree : n.Agree .initial (new.map (LogicalLine.bare text)) := by
    refine ⟨hnote, fun l hl => ?_⟩
    rw [List.head?_map, Option.mem_def, Option.map_eq_some_iff] at hl
    obtain ⟨l, hl, rfl⟩ := hl
    have hnone : n.within l.indent = none := Nest.within_eq_none.2 fun c hc =>
      Nat.le_trans (hfirst l hl) (Nest.within_eq_none.1 hfree c hc)
    exact hnone
  rw [hagree.count, hagree.run hne]
  refine ⟨hcount, ?_, fun indent hle => Nest.within_eq_none.2 fun c hc => ?_⟩
  · have hne' : new ≠ [] := fun he => hne (by rw [he]; rfl)
    have hlast := List.getLast?_eq_some_getLast hne'
    refine Nest.note_run ?_ (h.plain new hnew _ hlast)
    rw [List.getLast?_map, hlast]
    rfl
  · rcases Nest.body_run hc with hb | ⟨l, hl, rfl⟩
    · cases hb
    · obtain ⟨line, hline, rfl⟩ := List.mem_map.1 hl
      exact hle line hline

/-- What stood behind the last code of a range changes nothing of a text put in its place. -/
theorem IsWhole.before_idle (h : IsWhole text) {new : List LogicalLine}
    (hnew : logicalLines text = .ok new) {idle : List (Lexeme Kind)} (hidle : ∀ l ∈ idle, IsIdle l)
    (hline : endsInCode text = false → '\\' ∉ tail.takeWhile (· != '\n')) :
    (rule.Divides tail (idle ++ [lineEnd]) [] → ∃ lexemes, Ended (text ++ tail) lexemes new) ∧
      (rule.Divides tail idle [] → logicalLines (text ++ tail) = .ok new) := by
  obtain ⟨s, hrun, hfinish⟩ := bind_eq_ok.1 hnew
  have hr : Reached text _ [] s := .of_run hrun
  have hcontinues : ∀ l, (rule.lex text).lexemes.getLast? = some l →
      l.kind ≠ .continuation ∧ l.kind ≠ .code '\\' := by
    intro l hl
    have hended := h.ended
    rw [continues, hl] at hended
    simpa using hended
  have hcode : (∀ l, (rule.lex text).lexemes.getLast? = some l → l.kind.isCode = false) →
      '\\' ∉ tail.takeWhile (· != '\n') := by
    intro hall
    refine hline ?_
    rw [endsInCode]
    cases hl : (rule.lex text).lexemes.getLast? with
    | none => rfl
    | some l => exact hall l hl
  constructor
  · intro htail
    obtain ⟨more, s', hdivides, hruns, hs'⟩ :=
      Reached.before_idle hr hcontinues htail hidle (.inr rfl) hcode
    refine ⟨more ++ [lineEnd], ⟨⟨hdivides, ?_⟩, fun l hl => ?_⟩⟩
    · rw [runLexemes_append, hruns]
      show (do let s ← s'.step _ lineEnd; runLexemes _ _ s []) = _
      rw [step_lineEnd (hs'.trans hfinish)]
      rfl
    · rw [List.getLast?_concat] at hl
      cases hl
      rfl
  · intro htail
    rw [← List.append_nil idle] at htail
    obtain ⟨more, s', hdivides, hruns, hs'⟩ :=
      Reached.before_idle hr hcontinues htail hidle (.inl rfl) hcode
    rw [List.append_nil] at hdivides
    have hr' : Reached (text ++ tail) more [] s' := ⟨hdivides, hruns⟩
    rw [logicalLines, hr'.run_eq]
    exact hs'.trans hfinish

/-! ## Lines without places -/

/-- The lines of a text, without their places. -/
def HasLines (text : Text) (lines : List BareLine) : Prop :=
  ∃ placed, logicalLines text = .ok placed ∧ placed.map (LogicalLine.bare text) = lines

theorem HasLines.unique {lines lines' : List BareLine} (h : HasLines text lines)
    (h' : HasLines text lines') : lines = lines' := by
  obtain ⟨placed, hplaced, rfl⟩ := h
  obtain ⟨placed', hplaced', rfl⟩ := h'
  rw [Except.ok.inj (hplaced.symm.trans hplaced')]

theorem HasLines.nil : HasLines [] [] := by
  refine ⟨[], ?_, rfl⟩
  rw [logicalLines, (Rule.Reaches.start : Reached [] [] [] .initial).run_eq]
  rfl

/-- Behind an ended text a text adds its own lines. -/
theorem Ended.hasLines_append {done : List LogicalLine} {more : List BareLine}
    (h : Ended a lexemes done) (hb : HasLines b more) :
    HasLines (a ++ b) (done.map (LogicalLine.bare a) ++ more) := by
  obtain ⟨placed, hplaced, rfl⟩ := hb
  exact ⟨_, h.logicalLines_iff.2 ⟨placed, hplaced, rfl⟩, h.map_bare⟩

/-- The lines of a text behind an ended one are the lines of the rest. -/
theorem Ended.hasLines_rest {done more : List LogicalLine} (h : Ended a lexemes done)
    (hlines : logicalLines (a ++ b) = .ok (done ++ more)) :
    HasLines b (more.map (LogicalLine.bare (a ++ b))) := by
  obtain ⟨placed, hplaced, he⟩ := h.logicalLines_iff.1 hlines
  refine ⟨placed, hplaced, ?_⟩
  rw [List.append_cancel_left he, List.map_map]
  exact (List.map_congr_left fun l _ => LogicalLine.bare_moved a b l).symm

/-- An ended text ends with a line end. -/
theorem Ended.isWhole {done : List LogicalLine} (h : Ended a lexemes done) : isWhole a := by
  have htext := h.text
  rcases List.eq_nil_or_concat lexemes with rfl | ⟨init, l, rfl⟩
  · exact .inl htext
  · rw [List.concat_eq_append] at h htext
    have hmem : l ∈ init ++ [l] := List.mem_append_right _ (List.mem_singleton_self l)
    obtain ⟨c, r, rest, hfound⟩ := h.reached.divides.found_of_mem hmem
    obtain ⟨-, rfl, -⟩ := eq_lineEnd hfound (h.last l List.getLast?_concat)
    exact .inr ⟨Lexeme.textOf init, by rw [htext, Lexeme.textOf_append]; rfl⟩

/-- What is ended behind an ended text is ended on its own. -/
theorem Ended.rest {g : Text} {more : List (Lexeme Kind)} {done : List LogicalLine}
    (h : Ended a lexemes done) (h' : Ended (a ++ g) more pre) :
    ∃ behind lines, Ended g behind lines ∧
      pre = done ++ lines.map (LogicalLine.moved (Text.width a + ·)) := by
  obtain ⟨behind, s, rfl, hs, he⟩ := h.split h'.reached
  obtain ⟨indent, line, lines⟩ := s
  have hindent : 0 = indent := congrArg LineState.indent he
  have hline : line = none := Option.map_eq_none_iff.1 (congrArg LineState.line he).symm
  have hlines : pre.reverse = lines.map _ ++ done.reverse := congrArg LineState.lines he
  subst hindent hline
  refine ⟨behind, lines.reverse, ⟨by rwa [List.reverse_reverse], fun l hl => ?_⟩, ?_⟩
  · refine h'.last l ?_
    rw [List.getLast?_append, hl]
    rfl
  · have hpre := congrArg List.reverse hlines
    rw [List.reverse_reverse, List.reverse_append, List.reverse_reverse, ← List.map_reverse] at hpre
    exact hpre

/-! ## Files -/

/-- A range that stands for a function, between the lines before it and those behind it. -/
structure Placed (source : Text) (seg : Segment) (pre inner post : List LogicalLine)
    (a lead body tail b : Text) : Prop extends Stretch source pre inner post a lead body tail b where
  lines : logicalLines source = .ok (pre ++ (inner ++ post))
  routine : IsRoutine source pre inner post
  first : ∃ l, inner.head? = some l ∧ l.start = seg.span.start
  last : ∃ l, inner.getLast? = some l ∧ l.stop = seg.span.stop
  start : seg.span.start = Text.width (a ++ lead)
  stop : seg.span.stop = Text.width (a ++ (lead ++ body))

theorem Stands.placed (h : Stands source seg) :
    ∃ pre inner post a lead body tail b, Placed source seg pre inner post a lead body tail b := by
  obtain ⟨pre, inner, post, first, last, hlines, hfirst, hstart, hlast, hstop, hroutine⟩ := h
  obtain ⟨a, lead, body, tail, b, hstretch, hstart', hstop'⟩ := exists_stretch hlines hfirst hlast
  exact ⟨pre, inner, post, a, lead, body, tail, b, hstretch, hlines, hroutine, ⟨first, hfirst, hstart⟩,
    ⟨last, hlast, hstop⟩, hstart ▸ hstart', hstop ▸ hstop'⟩

namespace Placed

variable {inner : List LogicalLine} {lead body : Text}

theorem source_eq (h : Placed source seg pre inner post a lead body tail b) :
    source = (a ++ (lead ++ (body ++ tail))) ++ b := by
  rw [h.text]
  simp only [List.append_assoc]

/-- The lines up to the end of a range end no later. -/
theorem stop_le (h : Placed source seg pre inner post a lead body tail b) :
    ∀ l ∈ pre ++ inner, l.start ≤ l.stop ∧ l.stop ≤ seg.span.stop := by
  obtain ⟨last, hlast, hstop⟩ := h.last
  obtain ⟨init, rfl⟩ := List.getLast?_eq_some_iff.1 hlast
  have hrow := (logicalLines_fit h.lines).2
  have hordered := fun l hl => (hrow.fits _ (List.mem_map.2 ⟨l, hl, rfl⟩)).ordered
  have hapart := List.pairwise_map.1 hrow.apart
  rw [← List.append_assoc, ← List.append_assoc] at hapart
  intro l hmem
  rw [← hstop]
  refine ⟨hordered l (by rw [← List.append_assoc]; exact List.mem_append_left _ hmem), ?_⟩
  rw [← List.append_assoc] at hmem
  rcases List.mem_append.1 hmem with hmem | hmem
  · have hle := (List.pairwise_append.1 (List.pairwise_append.1 hapart).1).2.2 l hmem last
      (List.mem_singleton_self _)
    exact Nat.le_trans hle (hordered last (by simp))
  · exact Nat.le_of_eq (congrArg _ (List.mem_singleton.1 hmem))

/-- The lines behind a range start behind the line end that closes it. -/
theorem post_start (h : Placed source seg pre inner post a lead body tail b) :
    ∀ l ∈ post, Text.width (a ++ (lead ++ (body ++ tail))) ≤ l.start ∧ seg.span.stop < l.start := by
  intro l hl
  obtain ⟨idle, -, ⟨lexemes, hdivides, hended⟩ | ⟨-, -, rfl⟩⟩ := h.behind
  · have hlines := h.lines
    rw [h.source_eq, ← List.append_assoc pre] at hlines
    obtain ⟨more, -, he⟩ := hended.logicalLines_iff.1 hlines
    rw [List.append_cancel_left he] at hl
    obtain ⟨l, -, rfl⟩ := List.mem_map.1 hl
    have hpos : 0 < Text.width tail := by
      rw [hdivides.text, List.append_nil, Lexeme.textOf_append, Text.width_append]
      exact Nat.lt_of_lt_of_le (by decide) (Nat.le_add_left _ _)
    have hle : Text.width (a ++ (lead ++ (body ++ tail))) ≤
        (l.moved (Text.width (a ++ (lead ++ (body ++ tail))) + ·)).start := Nat.le_add_right _ _
    refine ⟨hle, Nat.lt_of_lt_of_le ?_ hle⟩
    rw [h.stop]
    simp only [Text.width_append]
    omega
  · cases hl

/-- The first line behind a range is the first that starts there. -/
theorem find?_behind (h : Placed source seg pre inner post a lead body tail b) :
    (pre ++ (inner ++ post)).find? (seg.span.stop < ·.start) = post.head? := by
  have hbefore : (pre ++ inner).find? (seg.span.stop < ·.start) = none := by
    refine List.find?_eq_none.2 fun l hl => ?_
    have := h.stop_le l hl
    simp only [decide_eq_true_eq, Nat.not_lt]
    omega
  rw [← List.append_assoc, List.find?_append, hbefore, Option.none_or]
  cases hpost : post with
  | nil => rfl
  | cons l post =>
    have hlt := (h.post_start l (by rw [hpost]; exact List.mem_cons_self)).2
    rw [List.find?_cons_of_pos (by simpa using hlt)]
    rfl

/-- The ranges behind a range start behind the line end that closes it. -/
theorem row (h : Placed source seg pre inner post a lead body tail b) {segments : List Segment}
    (hrow : RowFrom source seg.span.stop (segments.map Segment.span))
    (hstands : ∀ seg ∈ segments, Stands source seg) :
    RowFrom source (Text.width (a ++ (lead ++ (body ++ tail)))) (segments.map Segment.span) ∧
      (post = [] → segments = []) := by
  have hstarts : ∀ seg ∈ segments, ∃ l ∈ post, l.start = seg.span.start := by
    intro seg' hseg
    obtain ⟨pre', inner', post', first, last', hlines', hfirst, hstart, -, -, hroutine⟩ :=
      hstands seg' hseg
    have hlt := hroutine.first first hfirst
    have hahead := hrow.ahead _ (List.mem_map.2 ⟨seg', hseg, rfl⟩)
    have hmem : first ∈ pre ++ (inner ++ post) := by
      rw [Except.ok.inj (h.lines.symm.trans hlines')]
      exact List.mem_append_right _ (List.mem_append_left _ (List.mem_of_mem_head? hfirst))
    rw [← List.append_assoc] at hmem
    rcases List.mem_append.1 hmem with hmem | hmem
    · -- the line would have to end before it starts
      have := h.stop_le first hmem
      omega
    · exact ⟨first, hmem, hstart⟩
  refine ⟨⟨hrow.row, ⟨_, b, h.source_eq, rfl⟩, fun m hm => ?_⟩, fun hpost => ?_⟩
  · obtain ⟨seg, hseg, rfl⟩ := List.mem_map.1 hm
    obtain ⟨l, hl, hstart⟩ := hstarts seg hseg
    exact hstart ▸ (h.post_start l hl).1
  · cases segments with
    | nil => rfl
    | cons seg segments =>
      obtain ⟨l, hl, -⟩ := hstarts seg List.mem_cons_self
      rw [hpost] at hl
      cases hl

/-- **What is known of bodies behind new text** tells the same of the lines that follow. -/
theorem agree (h : Placed source seg pre inner post a lead body tail b) (hseats : Seats source seg)
    {n : Nest} {new : List LogicalLine} (hnew : logicalLines (written source seg) = .ok new)
    (hagree : (Nest.initial.run (pre.map (LogicalLine.bare source))).Agree n
      ((inner ++ post).map (LogicalLine.bare source))) :
    n.count (new.map (LogicalLine.bare (written source seg))) = functionsIn (written source seg) ∧
      (Nest.initial.run ((pre ++ inner).map (LogicalLine.bare source))).Agree
        (n.run (new.map (LogicalLine.bare (written source seg))))
        (post.map (LogicalLine.bare source)) := by
  obtain ⟨first, hfirst, hstart⟩ := h.first
  obtain ⟨last, hlast, hstop⟩ := h.last
  have hmem : ∀ l ∈ inner, l ∈ pre ++ (inner ++ post) := fun l hl =>
    List.mem_append_right _ (List.mem_append_left _ hl)
  have hwithin : n.within first.indent = none := by
    refine (hagree.2 (first.bare source) ?_).symm.trans (h.routine.free.2 first hfirst)
    rw [List.head?_map, List.head?_append, hfirst]
    rfl
  obtain ⟨hcount, hnote, hleft⟩ := hseats.whole.run hnew (hagree.1.symm.trans h.routine.free.1) hwithin
    (hseats.first _ new h.lines hnew first (hmem first (List.mem_of_mem_head? hfirst)) hstart)
  have hend : ((pre ++ inner).map (LogicalLine.bare source)).getLast? = some (last.bare source) := by
    rw [List.map_append, List.getLast?_append, List.getLast?_map, hlast]
    rfl
  have hplain := hseats.plain _ h.lines last (hmem last (List.mem_of_getLast? hlast)) hstop
  refine ⟨hcount, (Nest.note_run hend hplain).trans hnote.symm, fun l hl => ?_⟩
  rw [List.head?_map, Option.mem_def, Option.map_eq_some_iff] at hl
  obtain ⟨l, hl, rfl⟩ := hl
  rw [List.map_append, Nest.run_append]
  refine (h.routine.behind l hl).trans (hleft l.indent ?_).symm
  exact hseats.behind _ new h.lines hnew l (h.find?_behind ▸ hl)

/-- What is written with what is left of its line: the new lines, and those that follow. -/
theorem hasLines (h : Placed source seg pre inner post a lead body tail b) (hseats : Seats source seg)
    {new : List LogicalLine} (hnew : logicalLines (written source seg) = .ok new) {rest : Text}
    {lines : List BareLine} (hrest : HasLines rest lines) (hnone : b = [] → post = [] → rest = []) :
    HasLines ((written source seg ++ tail) ++ rest)
      (new.map (LogicalLine.bare (written source seg)) ++ lines) := by
  obtain ⟨idle, hidle, hbehind⟩ := h.behind
  have hline : endsInCode (written source seg) = false → '\\' ∉ tail.takeWhile (· != '\n') := by
    intro hcode hmem
    refine hseats.line hcode ?_
    have hsource : source = (a ++ (lead ++ body)) ++ (tail ++ b) := by
      rw [h.text]
      simp only [List.append_assoc]
    have hdrop : Text.dropBytes seg.span.stop source = tail ++ b := by
      rw [h.stop, hsource, Text.dropBytes_width_append]
    rw [lineBehind, hdrop, List.takeWhile_append]
    split
    · exact List.mem_append_left _ ((List.takeWhile_sublist _).subset hmem)
    · exact hmem
  have hbare : ∀ l ∈ new, l.bare (written source seg ++ tail) = l.bare (written source seg) :=
    fun l hl => ((logicalLines_fit hnew).1 l hl).bare_append tail
  obtain ⟨hended, hlast⟩ := hseats.whole.before_idle hnew hidle hline
  rw [← List.map_congr_left hbare]
  rcases hbehind with ⟨-, hdivides, -⟩ | ⟨hdivides, hb, hpost⟩
  · obtain ⟨lexemes, hended⟩ := hended hdivides
    exact hended.hasLines_append hrest
  · rw [hnone hb hpost] at hrest ⊢
    rw [hrest.unique .nil, List.append_nil, List.append_nil]
    exact ⟨new, hlast hdivides, rfl⟩

/-- The lines between a place and the range, which are those of the text between the two. -/
theorem gap {front behind : Text} {before after : List LogicalLine}
    (h : Placed source seg pre inner post a lead body tail b) (hsource : source = front ++ behind)
    (hlines : logicalLines source = .ok (before ++ after)) (hfront : Ended front lexemes before)
    (hle : Text.width front ≤ seg.span.start) :
    ∃ g gap lexemes' lines, a = front ++ g ∧ pre = before ++ gap ∧ after = gap ++ (inner ++ post) ∧
      Ended g lexemes' lines ∧
      gap.map (LogicalLine.bare source) = lines.map (LogicalLine.bare g) := by
  obtain ⟨g, rfl⟩ := Layout.append_of_isWhole (hsource.symm.trans h.text) hfront.isWhole h.oneLine
    (h.start ▸ hle)
  obtain ⟨_, hended⟩ := h.before
  obtain ⟨lexemes', lines, hg, rfl⟩ := hfront.rest hended
  refine ⟨g, lines.map (LogicalLine.moved (Text.width front + ·)), lexemes', lines, rfl, rfl, ?_, hg, ?_⟩
  · have hsame := Except.ok.inj (hlines.symm.trans h.lines)
    rw [List.append_assoc] at hsame
    exact List.append_cancel_left hsame
  · rw [List.map_map, h.text]
    refine List.map_congr_left fun l hl => ?_
    show (l.moved _).bare _ = _
    rw [List.append_assoc front g, LogicalLine.bare_moved]
    exact (hg.fits l hl).bare_append _

end Placed

/-- **From any line on, a file with whole texts put in is read as it was**, and their functions are
found instead of the old ones. -/
theorem splice_lines {segments : List Segment} {before after : List LogicalLine} {n : Nest}
    (hsource : source = a ++ b) (hlines : logicalLines source = .ok (before ++ after))
    (ha : Ended a lexemes before)
    (hsound : ∀ l ∈ before ++ after, (l.bare source).isSound = true)
    (hrow : RowFrom source (Text.width a) (segments.map Segment.span))
    (hstands : ∀ seg ∈ segments, Stands source seg) (hseats : ∀ seg ∈ segments, Seats source seg)
    (hagree : (Nest.initial.run (before.map (LogicalLine.bare source))).Agree n
      (after.map (LogicalLine.bare source))) :
    ∃ new, HasLines (spliceFrom source (Text.width a) segments) new ∧
      (∀ l ∈ new, l.isSound = true) ∧
      n.count new + segments.length =
        (Nest.initial.run (before.map (LogicalLine.bare source))).count
            (after.map (LogicalLine.bare source)) +
          (segments.map fun seg => functionsIn (written source seg)).sum := by
  induction segments generalizing a b lexemes before after n with
  | nil =>
    refine ⟨after.map (LogicalLine.bare source), ?_, fun l hl => ?_, hagree.count.symm⟩
    · rw [spliceFrom, hsource, Text.dropBytes_width_append]
      exact ha.hasLines_rest (hsource ▸ hlines)
    · obtain ⟨line, hline, rfl⟩ := List.mem_map.1 hl
      exact hsound line (List.mem_append_right _ hline)
  | cons seg segments ih =>
    have hstands' := fun seg hseg => hstands seg (List.mem_cons_of_mem _ hseg)
    have hseats' := fun seg hseg => hseats seg (List.mem_cons_of_mem _ hseg)
    have hseg := hseats seg List.mem_cons_self
    obtain ⟨pre, inner, post, a₁, lead, body, tail, b₁, h⟩ := (hstands seg List.mem_cons_self).placed
    obtain ⟨new, hnew, hnewSound, -⟩ := hseg.whole.read
    obtain ⟨hrow', hnone⟩ := h.row hrow.tail hstands'
    obtain ⟨g, gap, lexemesG, linesG, rfl, rfl, hafter, hG, hgap⟩ :=
      h.gap hsource hlines ha hrow.head.2
    obtain ⟨_, hended⟩ := h.before
    rw [hafter, List.map_append] at hagree
    have hhere := hagree.run_append
    rw [← Nest.run_append, ← List.map_append, hgap] at hhere
    obtain ⟨hcount, hagree'⟩ := h.agree hseg hnew hhere
    have hempty : b₁ = [] → post = [] → spliceFrom source
        (Text.width ((a ++ g) ++ (lead ++ (body ++ tail)))) segments = [] := by
      intro hb hpost
      rw [hnone hpost, spliceFrom]
      conv => lhs; rw [h.source_eq]
      rw [Text.dropBytes_width_append, hb]
    obtain ⟨rest, hrest, hrestSound, hrestCount⟩ : ∃ rest,
        HasLines (spliceFrom source (Text.width ((a ++ g) ++ (lead ++ (body ++ tail)))) segments) rest ∧
          (∀ l ∈ rest, l.isSound = true) ∧
          ((n.run (linesG.map (LogicalLine.bare g))).run
            (new.map (LogicalLine.bare (written source seg)))).count rest + segments.length =
            (Nest.initial.run ((before ++ gap ++ inner).map (LogicalLine.bare source))).count
                (post.map (LogicalLine.bare source)) +
              (segments.map fun seg => functionsIn (written source seg)).sum := by
      obtain ⟨idle, -, ⟨lexemes₂, -, hended₂⟩ | ⟨-, hb, hpost⟩⟩ := h.behind
      · have hlines₂ := h.lines
        rw [← List.append_assoc (before ++ gap)] at hlines₂
        exact ih h.source_eq hlines₂ hended₂ (fun l hl => hsound l (by
          rw [hafter, ← List.append_assoc, ← List.append_assoc]
          exact hl)) hrow' hstands' hseats' hagree'
      · refine ⟨[], ?_, by simp, by rw [hpost, hnone hpost]; rfl⟩
        rw [hempty hb hpost]
        exact HasLines.nil
    have htext := Layout.spliceFrom_written h.text hended.isWhole h.oneLine h.start h.stop hrow hrow'
    refine ⟨linesG.map (LogicalLine.bare g) ++
      (new.map (LogicalLine.bare (written source seg)) ++ rest), ?_, fun l hl => ?_, ?_⟩
    · rw [htext]
      exact hG.hasLines_append (h.hasLines hseg hnew hrest hempty)
    · rcases List.mem_append.1 hl with hl | hl
      · rw [← hgap] at hl
        obtain ⟨line, hline, rfl⟩ := List.mem_map.1 hl
        exact hsound line (by rw [hafter]; exact List.mem_append_right _ (List.mem_append_left _ hline))
      rcases List.mem_append.1 hl with hl | hl
      · obtain ⟨line, hline, rfl⟩ := List.mem_map.1 hl
        exact hnewSound line hline
      · exact hrestSound l hl
    · have hone := h.routine.count
      rw [hgap] at hagree
      rw [List.map_append, Nest.run_append, hgap] at hone
      rw [List.map_append, Nest.run_append, List.map_append, Nest.run_append, hgap] at hrestCount
      rw [hafter, Nest.count_append, Nest.count_append, hcount, List.map_append, Nest.count_append,
        List.map_append, Nest.count_append, hgap, hone, hagree.left.count, List.map_cons,
        List.sum_cons, List.length_cons]
      omega

/-- **A file in which functions are replaced by whole texts has an outline**, with the functions of the
texts instead of one for each. -/
theorem outline_splice {o : Outline} (h : outline source = .ok o) {segments : List Segment}
    (hrow : RowFrom source 0 (segments.map Segment.span))
    (hstands : ∀ seg ∈ segments, Stands source seg) (hseats : ∀ seg ∈ segments, Seats source seg) :
    ∃ o', outline (spliceFrom source 0 segments) = .ok o' ∧
      (o'.survey .firstStatement).1.length + segments.length =
        (o.survey .firstStatement).1.length +
          (segments.map fun seg => functionsIn (written source seg)).sum := by
  obtain ⟨lines, hlines, -⟩ := bind_eq_ok.1 h
  have hread : logicalLines source = .ok ([] ++ lines) := hlines
  have hempty : Ended [] [] ([] : List LogicalLine) := .nil
  have hsame : (Nest.initial.run (([] : List LogicalLine).map (LogicalLine.bare source))).Agree
      .initial (lines.map (LogicalLine.bare source)) := ⟨rfl, fun _ _ => rfl⟩
  obtain ⟨new, ⟨placed, hplaced, rfl⟩, hsound, hcount⟩ :=
    splice_lines (List.nil_append source).symm hread hempty
      ((exists_outline_iff hlines).1 ⟨o, h⟩) hrow hstands hseats hsame
  obtain ⟨o', ho'⟩ := (exists_outline_iff hplaced).2 fun l hl =>
    hsound _ (List.mem_map.2 ⟨l, hl, rfl⟩)
  refine ⟨o', ho', ?_⟩
  rw [length_survey ho' hplaced, length_survey h hlines]
  exact hcount

/-- Every function that is found stands for its lines. -/
theorem stands_of_survey {o : Outline} (h : outline source = .ok o) {r : Routine}
    (hr : r ∈ (o.survey .firstStatement).1) (hspan : seg.span = r.span) : Stands source seg := by
  obtain ⟨lines, hlines, -⟩ := bind_eq_ok.1 h
  obtain ⟨pre, inner, post, first, last, rfl, hfirst, hstart, hlast, hstop, hroutine⟩ :=
    survey_lines h hlines hr
  exact ⟨pre, inner, post, first, last, hlines, hfirst, hspan ▸ hstart, hlast, hspan ▸ hstop, hroutine⟩

end Scholia.Source.Indented
