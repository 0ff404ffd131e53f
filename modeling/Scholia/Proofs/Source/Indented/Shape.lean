import Scholia.Proofs.Layout.Kept
import Scholia.Proofs.Source.Indented.Blocks
import Scholia.Proofs.Source.Indented.LineLoss
import Scholia.Proofs.Source.Indented.Lines
import Scholia.Proofs.Source.Literal
/-!
# Lines behind lines

A text *is ended* if its last line is, so that whatever follows starts a line. The logical lines of
a text behind an ended one are its own, moved: so what is read of two texts, one behind the other,
is what is read of each. A *bare* line has forgotten its place.
-/

/-!
## Before another rest

What a lexeme of the indented language is does not depend on what follows it, with few exceptions: a
comment goes on to the end of its line, a backslash covers the end of a line, and an empty string
would be the opening of a longer one before another quote. So lexemes are found as they were before
every rest that begins as theirs did, or that does not run into the last of them.
-/

namespace Scholia.Source.Indented

open Layout (endsLine takeWhile_line endsLine_dropWhile)

variable {s rest rest' : Text} {lexeme : Lexeme Kind} {lexemes : List (Lexeme Kind)}

/-- A rest that a lexeme does not run into. -/
def Joins (lexeme : Lexeme Kind) (rest : Text) : Prop :=
  match lexeme.kind with
  | .comment => endsLine rest = true
  | .continuation => False
  | .string => rest.head? ≠ some '"' ∧ rest.head? ≠ some '\''
  | .code c => c ≠ '\\'
  | _ => True

theorem endsLine_congr (h : rest.head? = rest'.head?) : endsLine rest = endsLine rest' := by
  cases rest <;> cases rest' <;> cases h <;> rfl

theorem startsLineEnd_congr (h : rest.head? = rest'.head?) :
    startsLineEnd rest = startsLineEnd rest' := by
  cases rest <;> cases rest' <;> cases h <;> rfl

/-! ### Literals and lines -/

theorem throughNewline_behind (h : (throughNewline s).2 = [] → rest' = []) :
    throughNewline ((throughNewline s).1 ++ rest') = ((throughNewline s).1, rest') := by
  fun_induction throughNewline s with
  | case1 =>
    rw [h rfl]
    rfl
  | case2 r => rfl
  | case3 c r hc line rest he ih =>
    rw [he] at ih
    rw [List.cons_append, throughNewline, ih h]
    exact hc

theorem startsLineEnd_throughNewline (h : startsLineEnd s = true) (t : Text) :
    startsLineEnd ((throughNewline s).1 ++ t) = true := by
  fun_cases throughNewline s with
  | case1 => cases h
  | case2 => rfl
  | case3 => exact h

/-- A long string ends with three quotes. -/
theorem three_le_of_tripleQuoted {q : Char} {a b : Text} (h : tripleQuoted q s = some (a, b)) :
    3 ≤ a.length := by
  fun_induction tripleQuoted q s generalizing a with
  | case1 => cases h
  | case2 => cases h
  | case3 c r ih =>
    obtain ⟨⟨a', _⟩, hr, he⟩ := Option.map_eq_some_iff.1 h
    cases he
    exact Nat.le_add_right_of_le (Nat.le_add_right_of_le (ih hr))
  | case4 =>
    cases h
    exact Nat.le_refl 3
  | case5 c r _ _ _ ih =>
    obtain ⟨⟨a', _⟩, hr, he⟩ := Option.map_eq_some_iff.1 h
    cases he
    exact Nat.le_add_right_of_le (ih hr)

/-- A long string ends at its quotes, whatever follows it. -/
theorem tripleQuoted_behind {q : Char} {a b : Text} (h : tripleQuoted q s = some (a, b))
    (b' : Text) : tripleQuoted q (a ++ b') = some (a, b') := by
  fun_induction tripleQuoted q s generalizing a with
  | case1 => cases h
  | case2 => cases h
  | case3 c r ih =>
    obtain ⟨⟨a', _⟩, hr, he⟩ := Option.map_eq_some_iff.1 h
    cases he
    rw [List.cons_append, List.cons_append, tripleQuoted, ih hr]
    rfl
  | case4 c r hnil hcons rest hr =>
    cases h
    have hc : c = q := (List.cons.inj (Text.dropLead?_eq_some_iff.1 hr)).1
    have hq : q ≠ '\\' := hc ▸ ne_backslash hnil hcons
    have hlead : Text.dropLead? [q, q, q] (q :: ([q, q] ++ b')) = some b' :=
      Text.dropLead?_eq_some_iff.2 rfl
    show tripleQuoted q (q :: ([q, q] ++ b')) = _
    rw [tripleQuoted_cons hq, hlead]
  | case5 c r hnil hcons hr ih =>
    obtain ⟨⟨a', _⟩, ha, he⟩ := Option.map_eq_some_iff.1 h
    cases he
    have hnone : Text.dropLead? [q, q, q] (c :: (a' ++ b')) = none := by
      refine Option.eq_none_iff_forall_ne_some.2 fun rest' he => ?_
      obtain ⟨hc, he⟩ := List.cons.inj (Text.dropLead?_eq_some_iff.1 he)
      -- what was read is long enough to hold the other two quotes
      have hlong := three_le_of_tripleQuoted ha
      obtain ⟨d, e, x, rfl⟩ : ∃ d e x, a' = d :: e :: x := by
        rcases a' with _ | ⟨d, _ | ⟨e, x⟩⟩
        · cases hlong
        · exact absurd hlong (by simp)
        · exact ⟨d, e, x, rfl⟩
      obtain ⟨hd, he⟩ := List.cons.inj he
      obtain ⟨he, -⟩ := List.cons.inj he
      have hlead : Text.dropLead? [q, q, q] (c :: r) = some (x ++ b) :=
        Text.dropLead?_eq_some_iff.2 (by rw [← eq_of_tripleQuoted ha, hc, hd, he]; rfl)
      rw [hlead] at hr
      cases hr
    rw [List.cons_append, tripleQuoted_cons (ne_backslash hnil hcons), hnone, ih ha]
    rfl

/-! ### The front of a text -/

/-- A literal in quotes stays one before a rest that does not make its quotes three. -/
theorem not_prefix_behind {c : Char} {r inner : Text} (hc : c = '"' ∨ c = '\'')
    (hr : ¬ [c, c] <+: r) (hinner : quoted c r = some (inner, rest))
    (hjoin : rest.head? = rest'.head? ∨ Joins ⟨.string, [c] ++ inner⟩ rest') :
    ¬ [c, c] <+: inner ++ rest' := by
  rintro ⟨body, hbody⟩
  obtain ⟨hescape, -, inside, hinside, rfl, rfl⟩ := quotedBody_of_quoted hinner
  -- the second quote would end an empty string, and the third one stand behind it
  obtain rfl : inside = [] := by
    cases hinside with
    | nil => rfl
    | escape => exact absurd (List.cons.inj hbody).1 hescape
    | plain hplain => exact absurd (List.cons.inj hbody).1.symm hplain.1
  obtain ⟨-, hrest⟩ := List.cons.inj hbody
  have hhead : rest'.head? = some c := by
    rw [show rest' = c :: body from hrest.symm]
    rfl
  rcases hjoin with hsame | hjoins
  · obtain ⟨more, rfl⟩ := List.head?_eq_some_iff.1 (hsame.trans hhead)
    exact hr ⟨more, rfl⟩
  · rcases hc with rfl | rfl
    · exact hjoins.1 hhead
    · exact hjoins.2 hhead

/-- What stands at the front of a text stands there before another rest. -/
theorem IsFront.behind {c : Char} {r : Text} (h : IsFront c r lexeme rest)
    (hjoin : rest.head? = rest'.head? ∨ Joins lexeme rest') :
    ∃ r', lexeme.text ++ rest' = c :: r' ∧ IsFront c r' lexeme rest' := by
  cases h with
  | comment hc =>
    have hends : endsLine rest' = true := hjoin.elim
      (fun he => endsLine_congr he ▸ endsLine_dropWhile r) id
    obtain ⟨htake, hdrop⟩ :=
      takeWhile_line (x := r.takeWhile (· != '\n')) (fun _ => Layout.ne_newline_of_mem_line) hends
    have hfront := IsFront.comment (r := r.takeWhile (· != '\n') ++ rest') hc
    rw [htake, hdrop] at hfront
    exact ⟨_, rfl, hfront⟩
  | continuation hc hend =>
    have hbehind : throughNewline ((throughNewline r).1 ++ rest') =
        ((throughNewline r).1, rest') := by
      refine throughNewline_behind fun hnil => ?_
      refine hjoin.elim (fun he => ?_) False.elim
      rw [hnil] at he
      cases rest' <;> cases he
      rfl
    have hfront := IsFront.continuation hc (startsLineEnd_throughNewline hend rest')
    rw [hbehind] at hfront
    exact ⟨_, rfl, hfront⟩
  | tripleQuoted hc _ hinner =>
    exact ⟨_, rfl, .tripleQuoted hc rfl (tripleQuoted_behind hinner rest')⟩
  | quoted hc hr hinner =>
    exact ⟨_, rfl, .quoted hc (not_prefix_behind hc hr hinner hjoin) (quoted_behind hinner rest')⟩
  | char hcomment hback hquote =>
    refine ⟨rest', rfl, .char hcomment (fun hc => ?_) hquote⟩
    rcases hjoin with he | hj
    · rw [← startsLineEnd_congr he]
      exact hback hc
    · rw [hc] at hj
      exact absurd rfl hj

/-- **What is found at the front of a text is found before another rest**, if that begins as the old
one did or what is found does not run into it. -/
theorem front_behind {c : Char} {r : Text} (h : front c r = .found lexeme rest)
    (hjoin : rest.head? = rest'.head? ∨ Joins lexeme rest') :
    ∃ r', lexeme.text ++ rest' = c :: r' ∧ front c r' = .found lexeme rest' := by
  obtain ⟨r', htext, hfront⟩ := (front_eq_found_iff.1 h).behind hjoin
  exact ⟨r', htext, front_eq_found_iff.2 hfront⟩

/-! ### Lexemes behind lexemes -/

/-- **Lexemes can be put before another rest** that the last of them does not run into. -/
theorem divides_behind (h : rule.Divides s lexemes rest)
    (hjoin : ∀ l, lexemes.getLast? = some l → rest.head? = rest'.head? ∨ Joins l rest') :
    rule.Divides (Lexeme.textOf lexemes ++ rest') lexemes rest' := by
  induction h with
  | stop s => exact .stop rest'
  | @take c r l mid ls t found more ih =>
    have hfront : mid.head? = (Lexeme.textOf ls ++ rest').head? ∨
        Joins l (Lexeme.textOf ls ++ rest') := by
      cases ls with
      | nil =>
        cases more
        exact hjoin l rfl
      | cons l' ls =>
        have hne : l'.text ≠ [] := fun he => by
          have := more.width_pos List.mem_cons_self
          rw [he] at this
          exact Nat.lt_irrefl _ this
        obtain ⟨d, x, hd⟩ := List.exists_cons_of_ne_nil hne
        refine .inl ?_
        rw [more.text, Lexeme.textOf_cons, hd]
        rfl
    obtain ⟨r', he, hfound⟩ := front_behind found hfront
    rw [Lexeme.textOf_cons, List.append_assoc, he]
    refine .take hfound (ih fun last hlast => hjoin last ?_)
    rw [List.getLast?_cons, hlast]
    rfl

/-- A line end is found before every rest. -/
theorem divides_line (h : rule.Divides s lexemes rest)
    (hlast : ∀ l, lexemes.getLast? = some l → l.kind = .newline) (rest' : Text) :
    rule.Divides (Lexeme.textOf lexemes ++ rest') lexemes rest' :=
  divides_behind h fun l hl => .inr (by rw [Joins, hlast l hl]; trivial)

end Scholia.Source.Indented

namespace Scholia

namespace Text

/-- A slice of the rest behind a text. -/
theorem slice_behind (a b : Text) (m n : Nat) :
    slice (width a + m) (width a + n) (a ++ b) = slice m n b := by
  rw [slice, slice, dropBytes_add, Nat.add_sub_add_left]

end Text

namespace Source.Indented

variable {a b : Text} {lexemes : List (Lexeme Kind)} {offset : Nat} {lexeme : Lexeme Kind}

/-- A logical line without its place. -/
structure BareLine where
  indent : Nat
  text : Text
  /-- Whether a colon stands outside brackets. -/
  colon : Bool
  deriving Repr, DecidableEq

/-- What a logical line is, wherever it stands. -/
def LogicalLine.bare (source : Text) (line : LogicalLine) : BareLine :=
  ⟨line.indent, Text.slice line.start line.stop source, line.colon.isSome⟩

/-! ## Moved states -/

/-- A state behind a text of `p` bytes that has these lines, the last one first. -/
def LineState.behind (p : Nat) (before : List LogicalLine) (s : LineState) : LineState :=
  { indent := s.indent
    line := s.line.map (OpenLine.moved (p + ·))
    lines := s.lines.map (LogicalLine.moved (p + ·)) ++ before }

section Behind

variable (p : Nat) (before : List LogicalLine)

theorem OpenLine.add_behind (line : OpenLine) (offset : Nat) (lexeme : Lexeme Kind) :
    ((line.moved (p + ·)).add (p + offset) lexeme).toOption =
      (line.add offset lexeme).toOption.map (OpenLine.moved (p + ·)) := by
  have hfresh : decide (p + offset ≤ p + (line.start + 2)) = decide (offset ≤ line.start + 2) :=
    decide_eq_decide.2 (by omega)
  obtain ⟨start, indent, fresh, brackets, colon, firstString, lastCode⟩ := line
  unfold OpenLine.add
  cases lexeme.kind with
  | newline => rfl
  | continuation => rfl
  | comment => rfl
  | blank => rfl
  | opener c => simp only [OpenLine.moved, Nat.add_assoc]; rfl
  | closer c =>
    cases brackets with
    | nil => rfl
    | cons bracket outer => simp only [OpenLine.moved, Nat.add_assoc, List.map_cons]; rfl
  | code c => simp only [OpenLine.moved, Nat.add_assoc]; rfl
  | colon =>
    simp only [OpenLine.moved, Nat.add_assoc, List.isEmpty_map]
    cases brackets.isEmpty <;> cases colon <;> rfl
  | string =>
    simp only [OpenLine.moved, Nat.add_assoc, hfresh]
    cases fresh && decide (offset ≤ start + 2) <;> rfl

theorem OpenLine.close_moved (line : OpenLine) :
    (line.moved (p + ·)).close = line.close.moved (p + ·) := by
  obtain ⟨start, indent, fresh, brackets, colon, firstString, lastCode⟩ := line
  cases firstString with
  | none => rfl
  | some t =>
    have hsame : (p + t.stop == p + lastCode) = (t.stop == lastCode) := by
      rw [Bool.eq_iff_iff, beq_iff_eq, beq_iff_eq]
      omega
    simp only [OpenLine.close, OpenLine.moved, LogicalLine.moved, Option.map_some, Option.filter,
      Span.moved, hsame]
    split <;> rfl

/-- **A lexeme does behind a text what it does at the start**. -/
theorem LineState.step_behind (s : LineState) (offset : Nat) (lexeme : Lexeme Kind) :
    ((s.behind p before).step (p + offset) lexeme).toOption =
      (s.step offset lexeme).toOption.map (LineState.behind p before) := by
  obtain ⟨indent, line, lines⟩ := s
  cases line with
  | none =>
    by_cases hquiet : lexeme.kind = .newline ∨ lexeme.kind = .comment ∨ lexeme.kind = .blank
    · rcases hquiet with hk | hk | hk <;> simp only [step, behind, hk, Option.map_none] <;> rfl
    · simp only [not_or] at hquiet
      obtain ⟨hnewline, hcomment, hblank⟩ := hquiet
      rw [step_begin rfl hnewline hcomment hblank, step_begin rfl hnewline hcomment hblank,
        toOption_bind_ok, toOption_bind_ok, Option.map_map]
      have hadd := OpenLine.add_behind p (.begin offset indent) offset lexeme
      rw [show (OpenLine.begin offset indent).moved (p + ·) = .begin (p + offset) indent from rfl]
        at hadd
      rw [show (behind p before ⟨indent, none, lines⟩).indent = indent from rfl, hadd,
        Option.map_map]
      rfl
  | some line =>
    have hmoved : (behind p before ⟨indent, some line, lines⟩).line = some (line.moved (p + ·)) :=
      rfl
    by_cases hend : lexeme.kind = .newline ∧ line.brackets.isEmpty = true
    · rw [step_end hmoved hend.1 (by rw [OpenLine.isEmpty_brackets_moved, hend.2]),
        step_end rfl hend.1 hend.2, OpenLine.close_moved]
      rfl
    · have hopen : lexeme.kind = .newline → line.brackets.isEmpty = false := fun hk =>
        Bool.eq_false_iff.2 fun he => hend ⟨hk, he⟩
      have hopen' : lexeme.kind = .newline →
          (line.moved (p + ·)).brackets.isEmpty = false := fun hk => by
        rw [OpenLine.isEmpty_brackets_moved, hopen hk]
      rw [step_more hmoved hopen', step_more rfl hopen,
        toOption_bind_ok, toOption_bind_ok, OpenLine.add_behind, Option.map_map, Option.map_map]
      rfl

/-- Lexemes do behind a text what they do at the start. -/
theorem run_behind (s : LineState) (offset : Nat) (lexemes : List (Lexeme Kind)) :
    (runLexemes LineState.step (p + offset) (s.behind p before) lexemes).toOption =
      (runLexemes LineState.step offset s lexemes).toOption.map (LineState.behind p before) := by
  induction lexemes generalizing s offset with
  | nil => rfl
  | cons lexeme rest ih =>
    have hstep := s.step_behind p before offset lexeme
    rw [runLexemes, runLexemes]
    cases hs : s.step offset lexeme with
    | error fault =>
      rw [hs] at hstep
      cases hs' : (s.behind p before).step (p + offset) lexeme with
      | error fault' => rfl
      | ok t =>
        rw [hs'] at hstep
        cases hstep
    | ok t =>
      rw [hs] at hstep
      cases hs' : (s.behind p before).step (p + offset) lexeme with
      | error fault' =>
        rw [hs'] at hstep
        cases hstep
      | ok t' =>
        rw [hs'] at hstep
        cases hstep
        exact Nat.add_assoc p offset _ ▸ ih t _

/-- The lines in the end. -/
theorem LineState.finish_behind (s : LineState) :
    (s.behind p before).finish.toOption =
      s.finish.toOption.map fun lines => before.reverse ++ lines.map (LogicalLine.moved (p + ·)) := by
  obtain ⟨indent, line, lines⟩ := s
  cases line with
  | none =>
    show some (lines.map _ ++ before).reverse = some (before.reverse ++ lines.reverse.map _)
    rw [List.reverse_append, List.map_reverse]
  | some line =>
    have hclose := OpenLine.close_moved p line
    obtain ⟨start, indent', fresh, brackets, colon, firstString, lastCode⟩ := line
    cases brackets with
    | cons bracket outer => rfl
    | nil =>
      show some ((OpenLine.close _ :: (lines.map _ ++ before)).reverse) =
        some (before.reverse ++ (OpenLine.close _ :: lines).reverse.map _)
      rw [← List.cons_append, List.reverse_append, List.map_reverse, List.map_cons, ← hclose]

end Behind

/-! ## Texts that are ended -/

/-- The lexemes and lines of a text that ends with a line end, outside brackets. -/
structure Ended (text : Text) (lexemes : List (Lexeme Kind)) (lines : List LogicalLine) : Prop where
  reached : Reached text lexemes [] ⟨0, none, lines.reverse⟩
  last : ∀ l, lexemes.getLast? = some l → l.kind = .newline

theorem Ended.nil : Ended [] [] [] :=
  ⟨.start, fun _ h => by cases h⟩

namespace Ended

variable {la lines : List LogicalLine} {more : List (Lexeme Kind)} {s : LineState}

theorem text (h : Ended a lexemes la) : a = Lexeme.textOf lexemes := by
  have htext := h.reached.text
  rwa [List.append_nil] at htext

theorem divides (h : Ended a lexemes la) (b : Text) : rule.Divides (a ++ b) lexemes b := by
  have hdivides := divides_line h.reached.divides h.last b
  rwa [← h.text] at hdivides

theorem behind (h : Ended a lexemes la) (hb : Reached b more [] s) :
    Reached (a ++ b) (lexemes ++ more) [] (s.behind (Text.width a) la.reverse) := by
  refine ⟨(h.divides b).append hb.divides, ?_⟩
  rw [runLexemes_append, h.reached.runs, Nat.zero_add, ← h.text]
  have hrun := run_behind (Text.width a) la.reverse .initial 0 more
  rw [hb.runs] at hrun
  exact toOption_eq_some hrun

/-- **What is read of a text goes on behind an ended one as if it began there**. -/
theorem split (h : Ended a lexemes la) {s' : LineState} (hs : Reached (a ++ b) more [] s') :
    ∃ behind s, more = lexemes ++ behind ∧ Reached b behind [] s ∧
      s' = s.behind (Text.width a) la.reverse := by
  obtain ⟨behind, rfl, hbehind⟩ := (h.divides b).append_of_nil hs.divides
  obtain ⟨t, ht, hrun⟩ := runLexemes_append_ok hs.runs
  cases ht.symm.trans h.reached.runs
  rw [← h.text, Nat.zero_add] at hrun
  have hrun : runLexemes LineState.step (Text.width a + 0)
      (LineState.initial.behind (Text.width a) la.reverse) behind = .ok s' := hrun
  have hboth := run_behind (Text.width a) la.reverse .initial 0 behind
  rw [hrun] at hboth
  obtain ⟨s, hs, he⟩ := Option.map_eq_some_iff.1 hboth.symm
  exact ⟨behind, s, rfl, ⟨hbehind, toOption_eq_some hs⟩, he.symm⟩

/-- **The lines behind an ended text are its own and those of the rest**, moved. -/
theorem logicalLines_iff (h : Ended a lexemes la) :
    logicalLines (a ++ b) = .ok lines ↔ ∃ more, logicalLines b = .ok more ∧
      lines = la ++ more.map (LogicalLine.moved (Text.width a + ·)) := by
  constructor
  · intro hlines
    obtain ⟨s', hrun, hfinish⟩ := bind_eq_ok.1 hlines
    obtain ⟨behind, s, -, hs, rfl⟩ := h.split (.of_run hrun)
    have hend := LineState.finish_behind (Text.width a) la.reverse s
    rw [hfinish] at hend
    obtain ⟨more, hmore, rfl⟩ := Option.map_eq_some_iff.1 hend.symm
    refine ⟨more, ?_, by rw [List.reverse_reverse]⟩
    rw [logicalLines, hs.run_eq]
    exact toOption_eq_some hmore
  · rintro ⟨more, hmore, rfl⟩
    obtain ⟨s, hrun, hfinish⟩ := bind_eq_ok.1 hmore
    rw [logicalLines, (h.behind (.of_run hrun)).run_eq]
    have hend := LineState.finish_behind (Text.width a) la.reverse s
    rw [hfinish, List.reverse_reverse] at hend
    exact toOption_eq_some hend

/-- The lines of an ended text are parts of it. -/
theorem fits (h : Ended a lexemes la) : ∀ l ∈ la, l.Fits a := by
  intro l hl
  have hsound := LineState.Sound.of_reached h.reached
  exact (hsound.lines l (List.mem_reverse.2 hl)).fits ⟨[], h.reached.text.symm⟩

end Ended

/-! ## Bare lines -/

theorem LogicalLine.bare_moved (a b : Text) (line : LogicalLine) :
    (line.moved (Text.width a + ·)).bare (a ++ b) = line.bare b := by
  simp only [bare, moved, Text.slice_behind, Option.isSome_map]

theorem LogicalLine.Fits.bare_append {line : LogicalLine} (h : line.Fits a) (b : Text) :
    line.bare (a ++ b) = line.bare a := by
  have := h.span.of_append b
  simp only [Span.of, LogicalLine.span] at this
  simp only [LogicalLine.bare, this]

/-- **Bare lines do not tell where a text stands**. -/
theorem Ended.map_bare {la more : List LogicalLine} (h : Ended a lexemes la) :
    (la ++ more.map (LogicalLine.moved (Text.width a + ·))).map (LogicalLine.bare (a ++ b)) =
      la.map (LogicalLine.bare a) ++ more.map (LogicalLine.bare b) := by
  rw [List.map_append, List.map_map]
  refine congrArg₂ _ (List.map_congr_left fun l hl => (h.fits l hl).bare_append b) ?_
  exact List.map_congr_left fun l _ => LogicalLine.bare_moved a b l

end Source.Indented

end Scholia
