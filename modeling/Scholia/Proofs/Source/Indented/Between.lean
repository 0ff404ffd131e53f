import Scholia.Proofs.Source.Indented.Shape
/-!
# Between logical lines

A logical line begins in the physical line behind an ended text, and nothing but blanks, comments
and covered line ends stand between its last code and the line end that closes it, or the end of the
text. So the lines of a stretch stand between two ended texts, or at the end.
-/

namespace Scholia.Source.Indented

variable {source rest : Text} {lexemes : List (Lexeme Kind)} {lexeme : Lexeme Kind} {offset : Nat}
  {lines pre post : List LogicalLine} {line : LogicalLine} {s s' : LineState}

/-! ## Single lexemes -/

/-- The line end as a lexeme. -/
def lineEnd : Lexeme Kind :=
  ⟨.newline, ['\n']⟩

theorem eq_lineEnd {c : Char} {r : Text} (h : front c r = .found lexeme rest)
    (hk : lexeme.kind = .newline) : c = '\n' ∧ lexeme = lineEnd ∧ rest = r := by
  rcases front_cases h with hc | ⟨rfl, rfl⟩
  · simp [hk] at hc
  · have hc : c = '\n' := by
      have hk : Kind.ofChar c = .newline := hk
      unfold Kind.ofChar at hk
      repeat' split at hk
      all_goals first | assumption | cases hk
    subst hc
    exact ⟨rfl, rfl, rfl⟩

/-- Blanks and comments are part of one line. -/
theorem oneLine_of_front {c : Char} {r : Text} (h : front c r = .found lexeme rest)
    (hk : lexeme.kind = .blank ∨ lexeme.kind = .comment) : '\n' ∉ lexeme.text := by
  cases front_eq_found_iff.1 h with
  | comment hc =>
    rw [List.mem_cons, not_or]
    exact ⟨by rw [hc]; decide, fun hmem => Layout.ne_newline_of_mem_line hmem rfl⟩
  | char =>
    rw [List.mem_singleton]
    rintro rfl
    rcases hk with hk | hk <;> cases hk
  | _ => rcases hk with hk | hk <;> cases hk

/-! ## What a lexeme does -/

/-- **What a lexeme does**: it leaves the place between two lines, begins a line, goes on with it, or
ends it. -/
inductive LineState.Steps (s : LineState) (offset : Nat) (lexeme : Lexeme Kind) : LineState → Prop
  | idle (indent : Nat) (hnone : s.line = none)
    (hk : lexeme.kind = .newline ∧ indent = 0 ∨ lexeme.kind = .blank ∨ lexeme.kind = .comment) :
    Steps s offset lexeme ⟨indent, none, s.lines⟩
  | begin (line : OpenLine) (hnone : s.line = none) (hnewline : lexeme.kind ≠ .newline)
    (hcomment : lexeme.kind ≠ .comment) (hblank : lexeme.kind ≠ .blank)
    (hadd : (OpenLine.begin offset s.indent).add offset lexeme = .ok line) :
    Steps s offset lexeme { s with line := some line }
  | more (line line' : OpenLine) (hline : s.line = some line)
    (hk : lexeme.kind = .newline → line.brackets.isEmpty = false)
    (hadd : line.add offset lexeme = .ok line') :
    Steps s offset lexeme { s with line := some line' }
  | close (line : OpenLine) (hline : s.line = some line) (hk : lexeme.kind = .newline)
    (hempty : line.brackets.isEmpty = true) :
    Steps s offset lexeme ⟨0, none, line.close :: s.lines⟩

theorem LineState.steps (h : s.step offset lexeme = .ok s') : s.Steps offset lexeme s' := by
  cases hline : s.line with
  | none =>
    by_cases hk : lexeme.kind = .newline ∨ lexeme.kind = .comment ∨ lexeme.kind = .blank
    · obtain ⟨indent, line, lines⟩ := s
      cases hline
      rcases hk with hk | hk | hk
      · simp only [step, hk] at h
        cases h
        exact .idle 0 rfl (.inl ⟨hk, rfl⟩)
      · simp only [step, hk] at h
        cases h
        exact .idle 0 rfl (.inr (.inr hk))
      · simp only [step, hk] at h
        cases h
        exact .idle _ rfl (.inr (.inl hk))
    · simp only [not_or] at hk
      rw [step_begin hline hk.1 hk.2.1 hk.2.2] at h
      obtain ⟨line, hadd, h⟩ := bind_eq_ok.1 h
      cases h
      exact .begin line hline hk.1 hk.2.1 hk.2.2 hadd
  | some line =>
    by_cases hend : lexeme.kind = .newline ∧ line.brackets.isEmpty = true
    · rw [step_end hline hend.1 hend.2] at h
      cases h
      exact .close line hline hend.1 hend.2
    · have hopen : lexeme.kind = .newline → line.brackets.isEmpty = false := fun hk =>
        Bool.eq_false_iff.2 fun he => hend ⟨hk, he⟩
      rw [step_more hline hopen] at h
      obtain ⟨line', hadd, h⟩ := bind_eq_ok.1 h
      cases h
      exact .more line line' hline hopen hadd

/-! ## Before a line -/

/-- Where a line has ended, what has been read is an ended text. -/
theorem Reached.ended (h : Reached source lexemes rest ⟨0, none, lines⟩)
    (hlast : ∀ l, lexemes.getLast? = some l → l.kind = .newline) :
    Ended (Lexeme.textOf lexemes) lexemes lines.reverse := by
  have hdivides := divides_line h.divides hlast []
  rw [List.append_nil] at hdivides
  refine ⟨⟨hdivides, ?_⟩, hlast⟩
  rw [List.reverse_reverse]
  exact h.runs

/-- A byte in the physical line behind an ended text with these lines. -/
def StartsBehind (source : Text) (lines : List LogicalLine) (byte : Nat) : Prop :=
  ∃ a lead rest lexemes, source = a ++ (lead ++ rest) ∧ Ended a lexemes lines ∧ '\n' ∉ lead ∧
    byte = Text.width (a ++ lead)

/-- Outside lines, only one physical line has been read behind an ended text. -/
theorem Reached.startsBehind (h : Reached source lexemes rest s) (hnone : s.line = none) :
    StartsBehind source s.lines.reverse (Text.width (Lexeme.textOf lexemes)) := by
  obtain ⟨before, quiet, mid, rfl, hreached, hlast, hquiet⟩ : ∃ before quiet mid,
      lexemes = before ++ quiet ∧ Reached source before mid ⟨0, none, s.lines⟩ ∧
        (∀ l, before.getLast? = some l → l.kind = .newline) ∧ '\n' ∉ Lexeme.textOf quiet := by
    refine h.induct (I := fun lexemes _ s => s.line = none → ∃ before quiet mid,
      lexemes = before ++ quiet ∧ Reached source before mid ⟨0, none, s.lines⟩ ∧
        (∀ l, before.getLast? = some l → l.kind = .newline) ∧ '\n' ∉ Lexeme.textOf quiet) ?_ ?_ hnone
    · exact fun _ => ⟨[], [], source, rfl, .start, (fun _ hl => by cases hl), by simp⟩
    · intro lexemes c r lexeme rest s s' hr hI hfound hstep hnone
      have hr' := hr.next hfound hstep
      have hend : lexeme.kind = .newline → s'.indent = 0 → ∃ before quiet mid,
          lexemes ++ [lexeme] = before ++ quiet ∧ Reached source before mid ⟨0, none, s'.lines⟩ ∧
            (∀ l, before.getLast? = some l → l.kind = .newline) ∧ '\n' ∉ Lexeme.textOf quiet := by
        intro hk hindent
        obtain ⟨indent, line, lines⟩ := s'
        cases hnone
        cases hindent
        refine ⟨lexemes ++ [lexeme], [], rest, (List.append_nil _).symm, hr', fun l hl => ?_, by simp⟩
        rw [List.getLast?_concat] at hl
        cases hl
        exact hk
      cases LineState.steps hstep with
      | idle indent hnone' hk =>
        rcases hk with ⟨hk, hindent⟩ | hk
        · exact hend hk hindent
        · obtain ⟨before, quiet, mid, rfl, hreached, hlast, hquiet⟩ := hI hnone'
          refine ⟨before, quiet ++ [lexeme], mid, List.append_assoc _ _ _, hreached, hlast, ?_⟩
          rw [Lexeme.textOf_append, Lexeme.textOf_cons, Lexeme.textOf_nil, List.append_nil,
            List.mem_append, not_or]
          exact ⟨hquiet, oneLine_of_front hfound hk⟩
      | begin line => cases hnone
      | more line line' => cases hnone
      | close line hline hk => exact hend hk rfl
  refine ⟨Lexeme.textOf before, Lexeme.textOf quiet, rest, before, ?_, hreached.ended hlast, hquiet,
    by rw [Lexeme.textOf_append]⟩
  rw [h.text, Lexeme.textOf_append, List.append_assoc]

/-! ## Behind a line -/

/-- A byte behind which only idle lexemes stand, up to the line end that closes the last of these
lines, or up to the end of the text if it is the last of all. -/
def StopsIn (source : Text) (lines : List LogicalLine) (isLast : Prop) (byte : Nat) : Prop :=
  ∃ code tail b idle, source = code ++ (tail ++ b) ∧ byte = Text.width code ∧
    (∀ l ∈ idle, IsIdle l) ∧
    ((∃ lexemes, rule.Divides tail (idle ++ [lineEnd]) [] ∧ Ended (code ++ tail) lexemes lines) ∨
      rule.Divides tail idle [] ∧ b = [] ∧ isLast)

/-- The lines that have ended, the last one first, start behind those before and stop before those
after them. -/
def LineState.Lined (source : Text) (s : LineState) : Prop :=
  (∀ line, s.line = some line → StartsBehind source s.lines.reverse line.start) ∧
    ∀ after line before, s.lines = after ++ line :: before →
      StartsBehind source before.reverse line.start ∧
        StopsIn source (before.reverse ++ [line]) False line.stop

theorem LineState.Lined.of_reached (h : Reached source lexemes rest s) : s.Lined source := by
  refine h.induct (I := fun _ _ s => s.Lined source) ?_ ?_
  · refine ⟨(fun _ h => by cases h), fun after line before he => ?_⟩
    cases after <;> cases he
  · intro lexemes c r lexeme rest s s' hr hI hfound hstep
    obtain ⟨hline, hlines⟩ := hI
    have hr' := hr.next hfound hstep
    cases LineState.steps hstep with
    | idle indent hnone hk => exact ⟨(fun _ h => by cases h), hlines⟩
    | begin line hnone _ _ _ hadd =>
      refine ⟨fun line' he => ?_, hlines⟩
      cases he
      have hstart : line.start = Text.width (Lexeme.textOf lexemes) := Sound.add_start hadd
      rw [hstart]
      have hbehind := Reached.startsBehind hr hnone
      exact hbehind
    | more line line' hl _ hadd =>
      refine ⟨fun line'' he => ?_, hlines⟩
      cases he
      rw [Sound.add_start hadd]
      exact hline line hl
    | close line hl hk hempty =>
      refine ⟨(fun _ h => by cases h), fun after line' before he => ?_⟩
      cases after with
      | cons l after =>
        obtain ⟨-, he⟩ := List.cons.inj he
        exact hlines after line' before he
      | nil =>
        cases he
        refine ⟨hline line hl, ?_⟩
        obtain ⟨code, idle, rfl, hcode, hidle⟩ := ((Sound.of_reached hr).line line hl).1.trail
        obtain ⟨-, rfl, -⟩ := eq_lineEnd hfound hk
        have hidle : ∀ l ∈ idle, IsIdle l := fun l hmem => (hidle l hmem).elim id fun hne =>
          absurd (List.isEmpty_iff.1 hempty) hne.2
        have hdivides := hr'.divides
        rw [List.append_assoc] at hdivides
        obtain ⟨mid, -, htail⟩ := hdivides.split
        have hends : ∀ l, (idle ++ [lineEnd]).getLast? = some l → l.kind = .newline := fun l hl => by
          rw [List.getLast?_concat] at hl
          cases hl
          rfl
        have htail := divides_line htail hends []
        rw [List.append_nil] at htail
        have hended := Reached.ended hr' fun l hl => by
          rw [List.getLast?_concat] at hl
          cases hl
          rfl
        have htext : Lexeme.textOf (code ++ idle ++ [lineEnd]) =
            Lexeme.textOf code ++ Lexeme.textOf (idle ++ [lineEnd]) := by
          rw [List.append_assoc, Lexeme.textOf_append]
        rw [htext, List.reverse_cons] at hended
        refine ⟨Lexeme.textOf code, Lexeme.textOf (idle ++ [lineEnd]), rest, idle, ?_, hcode, hidle,
          .inl ⟨code ++ idle ++ [lineEnd], htail, hended⟩⟩
        rw [hr'.text, htext, List.append_assoc]

/-- **Where a logical line stands**: behind the lines before it, and before those after it. -/
theorem line_place (h : logicalLines source = .ok (pre ++ line :: post)) :
    StartsBehind source pre line.start ∧ StopsIn source (pre ++ [line]) (post = []) line.stop := by
  have hweaken : ∀ {lines : List LogicalLine} {byte : Nat},
      StopsIn source lines False byte → StopsIn source lines (post = []) byte := by
    rintro lines byte ⟨code, tail, b, idle, hsource, hbyte, hidle, htail⟩
    exact ⟨code, tail, b, idle, hsource, hbyte, hidle, htail.imp_right fun ht => ht.2.2.elim⟩
  obtain ⟨s, hrun, hfinish⟩ := bind_eq_ok.1 h
  have hr : Reached source _ [] s := .of_run hrun
  obtain ⟨hline, hlines⟩ := LineState.Lined.of_reached hr
  have hended : ∀ after, s.lines = after ++ line :: pre.reverse →
      StartsBehind source pre line.start ∧ StopsIn source (pre ++ [line]) (post = []) line.stop := by
    intro after he
    have := hlines _ _ _ he
    rw [List.reverse_reverse] at this
    exact this.imp_right hweaken
  unfold LineState.finish at hfinish
  split at hfinish
  · have he := congrArg List.reverse (Except.ok.inj hfinish)
    rw [List.reverse_reverse, List.reverse_append, List.reverse_cons, List.append_assoc] at he
    exact hended _ he
  · next last hlast =>
    split at hfinish
    · next hb =>
      have he := congrArg List.reverse (Except.ok.inj hfinish)
      rw [List.reverse_reverse, List.reverse_append, List.reverse_cons, List.append_assoc] at he
      cases hpost : post.reverse with
      | cons l after =>
        rw [hpost] at he
        exact hended _ (List.cons.inj he).2
      | nil =>
        rw [hpost] at he
        obtain ⟨rfl, hpre⟩ := List.cons.inj he
        have hpre : s.lines = pre.reverse := hpre
        have hstart := hline last hlast
        rw [hpre, List.reverse_reverse] at hstart
        obtain ⟨code, idle, hcode, hstop, hidle⟩ :=
          ((LineState.Sound.of_reached hr).line last hlast).1.trail
        have hidle : ∀ l ∈ idle, IsIdle l := fun l hmem => (hidle l hmem).elim id fun hne =>
          absurd hb hne.2
        have hdivides := hr.divides
        rw [hcode] at hdivides
        obtain ⟨mid, hmid, htail⟩ := hdivides.split
        refine ⟨hstart, Lexeme.textOf code, mid, [], idle, ?_, hstop, hidle, .inr ⟨htail, rfl, ?_⟩⟩
        · rw [List.append_nil]
          exact hmid.text
        · exact List.reverse_eq_nil_iff.1 hpost
    · cases hfinish

/-! ## A stretch of lines -/

/-- The text of a stretch of lines: the begin of its physical line, what it stands for, and what
there is behind it up to the next line end. -/
structure Stretch (source : Text) (pre inner post : List LogicalLine) (a lead body tail b : Text) :
    Prop where
  text : source = a ++ (lead ++ (body ++ (tail ++ b)))
  before : ∃ lexemes, Ended a lexemes pre
  oneLine : '\n' ∉ lead
  behind : ∃ idle, (∀ l ∈ idle, IsIdle l) ∧
    ((∃ lexemes, rule.Divides tail (idle ++ [lineEnd]) [] ∧
      Ended (a ++ (lead ++ (body ++ tail))) lexemes (pre ++ inner)) ∨
      rule.Divides tail idle [] ∧ b = [] ∧ post = [])

/-- **A stretch of lines is a stretch of text**. -/
theorem exists_stretch {inner : List LogicalLine} {first last : LogicalLine}
    (h : logicalLines source = .ok (pre ++ (inner ++ post))) (hfirst : inner.head? = some first)
    (hlast : inner.getLast? = some last) :
    ∃ a lead body tail b, Stretch source pre inner post a lead body tail b ∧
      first.start = Text.width (a ++ lead) ∧ last.stop = Text.width (a ++ (lead ++ body)) := by
  obtain ⟨more, rfl⟩ := List.head?_eq_some_iff.1 hfirst
  obtain ⟨init, hinit⟩ := List.getLast?_eq_some_iff.1 hlast
  obtain ⟨⟨a, lead, rest, lexemes, hsource, hended, hlead, hstart⟩, -⟩ := line_place h
  have hlines : pre ++ (first :: more ++ post) = (pre ++ init) ++ last :: post := by
    rw [hinit]
    simp only [List.append_assoc, List.cons_append, List.nil_append]
  rw [hlines] at h
  obtain ⟨-, code, tail, b, idle, hsource', hstop, hidle, hbehind⟩ := line_place h
  have hle : first.start ≤ last.stop := by
    have hrow := (logicalLines_fit h).2
    rw [← hlines] at hrow
    have hfits := fun l hl => (hrow.fits _ (List.mem_map.2 ⟨l, hl, rfl⟩)).ordered
    have hmem : last ∈ first :: more := List.mem_of_getLast? hlast
    rcases List.mem_cons.1 hmem with rfl | hmem
    · exact hfits last (by simp)
    · have hapart := List.pairwise_map.1 hrow.apart
      have hapart := (List.pairwise_append.1 hapart).2.1
      have hapart := (List.pairwise_cons.1 hapart).1 last (List.mem_append_left _ hmem)
      exact Nat.le_trans (hfits first (by simp)) (Nat.le_trans hapart
        (hfits last (by simp [hmem])))
  obtain ⟨body, rfl⟩ : ∃ body, code = a ++ (lead ++ body) := by
    rw [hstart, hstop] at hle
    rw [← List.append_assoc] at hsource
    rcases List.append_eq_append_iff.1 (hsource.symm.trans hsource') with
      ⟨body, hcode, -⟩ | ⟨body, hcode, -⟩
    · exact ⟨body, by rw [hcode, List.append_assoc]⟩
    · have hnil : body = [] := Text.eq_nil_of_width_eq_zero (by
        rw [hcode, Text.width_append] at hle
        omega)
      exact ⟨[], by rw [List.append_nil, hcode, hnil, List.append_nil]⟩
  have hpre : (pre ++ init) ++ [last] = pre ++ first :: more := by
    rw [List.append_assoc, ← hinit]
  rw [hpre] at hbehind
  refine ⟨a, lead, body, tail, b, ⟨?_, ⟨lexemes, hended⟩, hlead, idle, hidle, ?_⟩, hstart, hstop⟩
  · simpa only [List.append_assoc] using hsource'
  · simpa only [List.append_assoc] using hbehind

end Scholia.Source.Indented
