import Scholia.Proofs.Source.Indented.Between
import Scholia.Proofs.Source.Indented.Headed
import Scholia.Proofs.Source.Indented.Insertion
import Scholia.Proofs.Source.Indented.LineLoss
import Scholia.Proofs.Source.Indented.Nest
import Scholia.Proofs.Text.Worn
/-!
# Remarks in the indented language

Here every comment is a remark, since documentation is written as a string. A remark ends with its
physical line. Outside brackets the logical line ends there as well, or has not begun, so that a
remark inside a logical line stands behind an opening bracket: too late for what the line declares,
but not for its signature.
-/

namespace Scholia.Source.Indented

open Layout (endsLine endsLine_dropWhile)
open Text (isBlank isWordChar)

variable {source text s rest : Text} {lexeme : Lexeme Kind} {lexemes code : List (Lexeme Kind)}
  {offset : Nat}

/-! ## Sources without remarks -/

/-- The text of a lexeme, blanked out if it is a remark. -/
def unremarked (lexeme : Lexeme Kind) : Text :=
  if lexeme.kind = .comment then Text.blanked lexeme.text else lexeme.text

/-- A source with its remarks blanked out. -/
def withoutRemarks (source : Text) : Text :=
  (rule.lex source).lexemes.flatMap unremarked

/-- Blanks, each of them a lexeme. -/
def blanks (u : Text) : List (Lexeme Kind) :=
  u.map fun c => ⟨.blank, [c]⟩

/-- What a lexeme becomes. -/
def plain (lexeme : Lexeme Kind) : List (Lexeme Kind) :=
  if lexeme.kind = .comment then blanks (Text.blanked lexeme.text) else [lexeme]

/-- The header that a line is, up to its colon. -/
def LogicalLine.heading? (source : Text) (line : LogicalLine) : Option Span :=
  if (line.bare source).header?.isSome then line.colon.map (⟨line.start, ·⟩) else none

/-- The headers of a source. -/
def headers (source : Text) : List Span :=
  match logicalLines source with
  | .ok lines => lines.filterMap (LogicalLine.heading? source)
  | .error _ => []

/-- Two headers have the same signature. -/
def ReadsSame (header header' : Text) : Prop :=
  Text.collapse header = Text.collapse header'

instance (header header' : Text) : Decidable (ReadsSame header header') :=
  inferInstanceAs (Decidable (_ = _))

@[simp] theorem width_unremarked (lexeme : Lexeme Kind) :
    Text.width (unremarked lexeme) = Text.width lexeme.text := by
  unfold unremarked
  split
  · exact Text.width_blanked _
  · rfl

theorem width_flatMap_unremarked (lexemes : List (Lexeme Kind)) :
    Text.width (lexemes.flatMap unremarked) = Text.width (Lexeme.textOf lexemes) := by
  induction lexemes with
  | nil => rfl
  | cons l ls ih =>
    rw [List.flatMap_cons, Text.width_append, width_unremarked, ih, Lexeme.textOf_cons,
      Text.width_append]

/-! ## Lexemes -/

/-- A comment goes to the end of its line. -/
theorem comment_line {c : Char} {r : Text} (h : front c r = .found lexeme rest)
    (hk : lexeme.kind = .comment) :
    c = '#' ∧ '\n' ∉ lexeme.text ∧ endsLine rest = true ∧ ∃ x, lexeme.text = '#' :: x := by
  obtain ⟨rfl, rfl, rfl⟩ := comment_of_front h hk
  refine ⟨rfl, ?_, endsLine_dropWhile r, _, rfl⟩
  rw [List.mem_cons, not_or]
  exact ⟨by decide, fun hn => Layout.ne_newline_of_mem_line hn rfl⟩

/-- What stands before a remark is found before a space as well. -/
theorem front_remark {c : Char} {r : Text} (h : front c r = .found lexeme ('#' :: rest))
    (rest' : Text) :
    ∃ r', lexeme.text ++ ' ' :: rest' = c :: r' ∧ front c r' = .found lexeme (' ' :: rest') := by
  generalize hs : '#' :: rest = s at h
  cases front_eq_found_iff.1 h with
  | comment hc =>
    -- a comment would have gone on
    have hends := endsLine_dropWhile r
    rw [← hs] at hends
    cases hends
  | continuation hc hend =>
    have hbehind : throughNewline ((throughNewline r).1 ++ ' ' :: rest') =
        ((throughNewline r).1, ' ' :: rest') :=
      throughNewline_behind fun hnil => by rw [hnil] at hs; cases hs
    have hfront := IsFront.continuation hc (startsLineEnd_throughNewline hend (' ' :: rest'))
    rw [hbehind] at hfront
    exact ⟨_, rfl, front_eq_found_iff.2 hfront⟩
  | tripleQuoted => exact front_behind h (.inr ⟨by simp, by simp⟩)
  | quoted => exact front_behind h (.inr ⟨by simp, by simp⟩)
  | char hcomment _ hquote =>
    exact ⟨' ' :: rest', rfl, front_eq_found_iff.2 (.char hcomment (fun _ => rfl) hquote)⟩

theorem divides_blanks {u : Text} (hu : ∀ c ∈ u, Text.isLayout c = true) (hn : '\n' ∉ u)
    (h : rule.Divides s lexemes rest) : rule.Divides (u ++ s) (blanks u ++ lexemes) rest := by
  induction u with
  | nil => exact h
  | cons c u ih =>
    rw [List.mem_cons, not_or] at hn
    have hfront := front_layout (hu c List.mem_cons_self) (u ++ s)
    rw [if_neg (Ne.symm hn.1)] at hfront
    exact .take hfront (ih (fun d hd => hu d (List.mem_cons_of_mem _ hd)) hn.2)

/-- A source without remarks begins as it does with them, or with a space in place of a remark. -/
theorem head_of_divides (h : rule.Divides s lexemes []) :
    s.head? = (lexemes.flatMap unremarked).head? ∨
      (∃ r, s = '#' :: r) ∧ ∃ r', lexemes.flatMap unremarked = ' ' :: r' := by
  cases h with
  | stop => exact .inl rfl
  | @take c r l mid ls _ found _ =>
    obtain ⟨hkeeps, hne⟩ := front_keeps c r l mid found
    rw [List.flatMap_cons, unremarked]
    split
    · next hk =>
      obtain ⟨rfl, -, -, x, hx⟩ := comment_line found hk
      obtain ⟨more, hmore⟩ := Text.blanked_head (c := '#') (by decide) x
      rw [hx, hmore]
      exact .inr ⟨⟨r, rfl⟩, _, rfl⟩
    · obtain ⟨d, x, hd⟩ := List.exists_cons_of_ne_nil hne
      rw [hd, List.cons_append] at hkeeps
      rw [hd, (List.cons.inj hkeeps).1]
      exact .inl rfl

/-- **A source without remarks is divided alike**, with blanks for every remark. -/
theorem divides_withoutRemarks (h : rule.Divides s lexemes []) :
    rule.Divides (lexemes.flatMap unremarked) (lexemes.flatMap plain) [] := by
  generalize hrest : ([] : Text) = last at h
  induction h with
  | stop s =>
    subst hrest
    exact .stop []
  | @take c r l mid ls _ found more ih =>
    subst hrest
    rw [List.flatMap_cons, List.flatMap_cons, unremarked, plain]
    by_cases hk : l.kind = .comment
    · rw [if_pos hk, if_pos hk]
      obtain ⟨-, hn, -⟩ := comment_line found hk
      exact divides_blanks (fun c hc => Text.isLayout_of_mem_blanked hc)
        (fun hmem => hn (Text.newline_mem_blanked.1 hmem)) (ih rfl)
    · rw [if_neg hk, if_neg hk]
      obtain ⟨r', he, hfront⟩ : ∃ r', l.text ++ ls.flatMap unremarked = c :: r' ∧
          front c r' = .found l (ls.flatMap unremarked) := by
        rcases head_of_divides more with hhead | ⟨⟨x, rfl⟩, y, hy⟩
        · exact front_behind found (.inl hhead)
        · rw [hy]
          exact front_remark found y
      rw [he]
      exact .take hfront (ih rfl)

/-! ## Logical lines -/

/-- The second state has read blanks where the first one has read a remark: outside lines their
indentation may differ up to the end of the physical line. -/
def LineState.Agrees (rest : Text) (s t : LineState) : Prop :=
  t = s ∨ s.line = none ∧ endsLine rest = true ∧ ∃ indent, t = { s with indent }

theorem run_blanks_outside {s : LineState} (offset : Nat) (hs : s.line = none) (u : Text) :
    ∃ indent, runLexemes LineState.step offset s (blanks u) = .ok { s with indent } := by
  induction u generalizing s offset with
  | nil => exact ⟨s.indent, rfl⟩
  | cons c u ih =>
    have hstep : s.step offset ⟨.blank, [c]⟩ =
        .ok { s with indent := LineState.column s.indent [c] } := by
      unfold LineState.step
      rw [hs]
    obtain ⟨indent, hrun⟩ := ih (s := { s with indent := LineState.column s.indent [c] })
      (offset + Text.width [c]) hs
    exact ⟨indent, by rw [blanks, List.map_cons, runLexemes, hstep]; exact hrun⟩

theorem run_blanks_inside {s : LineState} {line : OpenLine} (hs : s.line = some line) {u : Text}
    (hu : u ≠ []) :
    runLexemes LineState.step offset s (blanks u) =
      .ok { s with line := some { line with fresh := false } } := by
  have hstep : ∀ {s : LineState} {line : OpenLine} (offset : Nat) (c : Char), s.line = some line →
      s.step offset ⟨.blank, [c]⟩ = .ok { s with line := some { line with fresh := false } } := by
    intro s line offset c hs
    unfold LineState.step
    rw [hs]
    rfl
  induction u generalizing s line offset with
  | nil => exact absurd rfl hu
  | cons c u ih =>
    rw [blanks, List.map_cons, runLexemes, hstep offset c hs]
    by_cases hnil : u = []
    · subst hnil
      rfl
    · exact @ih _ { s with line := some { line with fresh := false } } { line with fresh := false }
        rfl hnil

/-- A remark and the blanks in its place are alike to a state. -/
theorem LineState.Agrees.remark {s s' t : LineState} {c : Char} {r : Text}
    (h : s.Agrees (c :: r) t) (hfound : front c r = .found lexeme rest)
    (hk : lexeme.kind = .comment) (hstep : s.step offset lexeme = .ok s') :
    ∃ t', runLexemes LineState.step offset t (blanks (Text.blanked lexeme.text)) = .ok t' ∧
      s'.Agrees rest t' := by
  obtain ⟨rfl, -, hends, x, hx⟩ := comment_line hfound hk
  obtain ⟨more, hmore⟩ := Text.blanked_head (c := '#') (by decide) x
  have hne : Text.blanked lexeme.text ≠ [] := by
    rw [hx, hmore]
    exact List.cons_ne_nil _ _
  obtain rfl : t = s := by
    rcases h with rfl | ⟨-, he, -⟩
    · rfl
    · cases he
  unfold LineState.step at hstep
  cases hline : t.line with
  | none =>
    simp only [hline, hk] at hstep
    cases hstep
    obtain ⟨indent, hrun⟩ := run_blanks_outside offset hline (Text.blanked lexeme.text)
    exact ⟨_, hrun, .inr ⟨rfl, hends, indent, by rw [hline]⟩⟩
  | some line =>
    simp only [hline, hk] at hstep
    obtain ⟨line', hadd, hs'⟩ := bind_eq_ok.1 hstep
    simp only [OpenLine.add, hk] at hadd
    cases hadd
    cases hs'
    exact ⟨_, run_blanks_inside hline hne, .inl rfl⟩

/-- Other lexemes are alike to states that agree. -/
theorem LineState.Agrees.step {s s' t : LineState} {c : Char} {r : Text}
    (h : s.Agrees (c :: r) t) (hfound : front c r = .found lexeme rest)
    (hstep : s.step offset lexeme = .ok s') : t.step offset lexeme = .ok s' := by
  rcases h with rfl | ⟨hnone, hends, indent, rfl⟩
  · exact hstep
  · obtain rfl : c = '\n' := eq_of_beq hends
    have hk : lexeme.kind = .newline := by
      rw [front_layout (by decide), if_pos rfl] at hfound
      cases hfound
      rfl
    unfold LineState.step at hstep ⊢
    simp only [hnone, hk] at hstep ⊢
    exact hstep

/-- **States run along with each other** if one of them reads no remarks. -/
theorem run_plain {s s' t : LineState} {source : Text} (hd : rule.Divides source lexemes [])
    (h : s.Agrees source t) (hrun : runLexemes LineState.step offset s lexemes = .ok s') :
    ∃ t', runLexemes LineState.step offset t (lexemes.flatMap plain) = .ok t' ∧
      s'.Agrees [] t' := by
  generalize hrest : ([] : Text) = last at hd
  induction hd generalizing offset s t with
  | stop source =>
    cases hrun
    subst hrest
    exact ⟨t, rfl, h⟩
  | @take c r l mid ls _ found _ ih =>
    obtain ⟨s₁, hstep, hmore⟩ := runLexemes_cons_ok hrun
    rw [List.flatMap_cons, plain, runLexemes_append]
    by_cases hk : l.kind = .comment
    · obtain ⟨t₁, ht₁, hagrees₁⟩ := h.remark found hk hstep
      obtain ⟨t', ht', hagrees⟩ := ih hagrees₁ hmore hrest
      have hwidth : Text.width (Lexeme.textOf (blanks (Text.blanked l.text))) =
          Text.width l.text := by
        rw [← Text.width_blanked l.text]
        generalize Text.blanked l.text = u
        induction u with
        | nil => rfl
        | cons c u ih => exact congrArg (c.utf8Size + ·) ih
      rw [if_pos hk, ht₁, hwidth]
      exact ⟨t', ht', hagrees⟩
    · have hstep' := h.step found hstep
      obtain ⟨t', ht', hagrees⟩ := ih (.inl rfl) hmore hrest
      refine ⟨t', ?_, hagrees⟩
      rw [if_neg hk, runLexemes, hstep', Lexeme.textOf_cons, Lexeme.textOf_nil, List.append_nil]
      exact ht'

/-- **Without its remarks a source has the same logical lines**, in the same places. -/
theorem logicalLines_withoutRemarks {lines : List LogicalLine}
    (h : logicalLines source = .ok lines) : logicalLines (withoutRemarks source) = .ok lines := by
  obtain ⟨s, hrun, hfinish⟩ := bind_eq_ok.1 h
  have hr : Reached source (rule.lex source).lexemes [] s := .of_run hrun
  obtain ⟨t, ht, hagrees⟩ := run_plain hr.divides (.inl rfl) hr.runs
  have hr' : Reached (withoutRemarks source) _ [] t := ⟨divides_withoutRemarks hr.divides, ht⟩
  refine bind_eq_ok.2 ⟨t, hr'.run_eq _, ?_⟩
  rcases hagrees with rfl | ⟨hnone, -, indent, rfl⟩
  · exact hfinish
  · unfold LineState.finish at hfinish ⊢
    simp only [hnone] at hfinish ⊢
    exact hfinish

/-! ## Where remarks stand in a logical line -/

/-- A bracket is opened by one of the lexemes. -/
def Opens (lexemes : List (Lexeme Kind)) : Prop :=
  ∃ l ∈ lexemes, ∃ b, l.kind = .opener b

/-- Every remark stands behind a bracket. -/
def Late (lexemes : List (Lexeme Kind)) : Prop :=
  ∀ before l after, lexemes = before ++ l :: after → l.kind = .comment → Opens before

theorem Opens.append_left {more : List (Lexeme Kind)} (h : Opens code) : Opens (code ++ more) := by
  obtain ⟨l, hl, hk⟩ := h
  exact ⟨l, List.mem_append_left _ hl, hk⟩

theorem Late.append {more : List (Lexeme Kind)} (h : Late code)
    (hmore : ∀ l ∈ more, l.kind = .comment → Opens code) : Late (code ++ more) := by
  intro before l after he hk
  rcases List.append_eq_append_iff.1 he with ⟨x, rfl, hx⟩ | ⟨x, rfl, hx⟩
  · exact (hmore l (by rw [hx]; simp) hk).append_left
  · cases x with
    | nil =>
      rw [List.nil_append] at hx
      rw [List.append_nil] at hmore
      exact hmore l (by rw [← hx]; exact List.mem_cons_self) hk
    | cons m x =>
      obtain ⟨rfl, -⟩ := List.cons.inj hx
      exact h before l x rfl hk

/-- What an open line knows of its remarks, with the text still to be read: outside brackets a remark
stands behind all code, and the line is about to end. -/
structure OpenLine.Knows (lexemes : List (Lexeme Kind)) (rest : Text) (line : OpenLine)
    (before code idle : List (Lexeme Kind)) : Prop where
  lexemes : lexemes = before ++ (code ++ idle)
  start : line.start = Text.width (Lexeme.textOf before)
  lastCode : line.lastCode = Text.width (Lexeme.textOf (before ++ code))
  late : Late code
  opens : line.brackets ≠ [] → Opens code
  idle : ∀ l ∈ idle, l.kind = .comment → Opens code ∨ endsLine rest = true

namespace OpenLine.Knows

variable {line line' : OpenLine} {before idle : List (Lexeme Kind)}

theorem begin {start indent : Nat} (hstart : start = Text.width (Lexeme.textOf lexemes)) :
    (OpenLine.begin start indent).Knows lexemes rest lexemes [] [] where
  lexemes := by simp
  start := hstart
  lastCode := by rw [List.append_nil]; exact hstart
  late := fun before l after he => by cases before <;> cases he
  opens := fun h => absurd rfl h
  idle := fun _ h => by cases h

/-- Before anything but a line end outside brackets, a remark has stood behind a bracket. -/
theorem opens_of_idle {c : Char} {r : Text} (h : line.Knows lexemes (c :: r) before code idle)
    (hfound : front c r = .found lexeme rest)
    (hopen : lexeme.kind = .newline → line.brackets.isEmpty = false) :
    ∀ l ∈ idle, l.kind = .comment → Opens code := by
  intro l hl hk
  rcases h.idle l hl hk with hopens | hends
  · exact hopens
  · obtain rfl : c = '\n' := eq_of_beq hends
    rw [front_layout (by decide), if_pos rfl] at hfound
    cases hfound
    exact h.opens fun hnil => by rw [hnil] at hopen; cases hopen rfl

/-- **A line knows its remarks** when it has taken one more lexeme. -/
theorem add {c : Char} {r : Text} (h : line.Knows lexemes (c :: r) before code idle)
    (hfound : front c r = .found lexeme rest)
    (hopen : lexeme.kind = .newline → line.brackets.isEmpty = false)
    (hadd : line.add (Text.width (Lexeme.textOf lexemes)) lexeme = .ok line') :
    ∃ code idle, line'.Knows (lexemes ++ [lexeme]) rest before code idle := by
  have hidle := h.opens_of_idle hfound hopen
  have hstop : Text.width (Lexeme.textOf lexemes) + Text.width lexeme.text =
      Text.width (Lexeme.textOf (before ++ (code ++ (idle ++ [lexeme])))) := by
    rw [h.lexemes]
    simp [Nat.add_assoc]
  have hpass : ∀ fresh, OpenLine.Knows (lexemes ++ [lexeme]) rest { line with fresh } before code
      (idle ++ [lexeme]) := by
    refine fun fresh => ⟨by rw [h.lexemes]; simp, h.start, h.lastCode, h.late, h.opens, ?_⟩
    intro l hl hk
    rcases List.mem_append.1 hl with hl | hl
    · exact .inl (hidle l hl hk)
    · obtain rfl := List.mem_singleton.1 hl
      exact .inr (comment_line hfound hk).2.2.1
  have hlate : lexeme.kind ≠ .comment → Late (code ++ (idle ++ [lexeme])) := by
    refine fun hne => h.late.append fun l hl hk => ?_
    rcases List.mem_append.1 hl with hl | hl
    · exact hidle l hl hk
    · exact absurd (List.mem_singleton.1 hl ▸ hk) hne
  have hcode : lexeme.kind ≠ .comment → ∀ fresh brackets colon first,
      (brackets ≠ [] → line.brackets ≠ [] ∨ ∃ b, lexeme.kind = .opener b) →
      OpenLine.Knows (lexemes ++ [lexeme]) rest
        { line with
          fresh, brackets, colon
          firstString := first
          lastCode := Text.width (Lexeme.textOf lexemes) + Text.width lexeme.text }
        before (code ++ (idle ++ [lexeme])) [] := by
    intro hne fresh brackets colon first hbrackets
    refine ⟨by rw [h.lexemes]; simp, h.start, hstop, hlate hne, fun hb => ?_,
      fun _ hl => by cases hl⟩
    rcases hbrackets hb with hb | hb
    · exact (h.opens hb).append_left
    · exact ⟨lexeme, by simp, hb⟩
  cases hk : lexeme.kind with
  | newline | continuation | comment | blank =>
    simp only [OpenLine.add, hk] at hadd
    cases hadd
    exact ⟨_, _, hpass false⟩
  | string | colon | code c' =>
    simp only [OpenLine.add, hk] at hadd
    cases hadd
    exact ⟨_, _, hcode (by rw [hk]; simp) _ _ _ _ .inl⟩
  | opener b =>
    simp only [OpenLine.add, hk] at hadd
    cases hadd
    exact ⟨_, _, hcode (by rw [hk]; simp) _ _ _ _ fun _ => .inr ⟨b, hk⟩⟩
  | closer b =>
    simp only [OpenLine.add, hk] at hadd
    split at hadd
    · cases hadd
    · next hb =>
      cases hadd
      exact ⟨_, _, hcode (by rw [hk]; simp) _ _ _ _ fun _ => .inl (by rw [hb]; simp)⟩

end OpenLine.Knows

/-- A logical line is made up by lexemes in which remarks stand behind brackets. -/
def LogicalLine.Knows (lexemes : List (Lexeme Kind)) (line : LogicalLine) : Prop :=
  ∃ before code after, lexemes = before ++ (code ++ after) ∧
    line.start = Text.width (Lexeme.textOf before) ∧
    line.stop = Text.width (Lexeme.textOf (before ++ code)) ∧ Late code

theorem LogicalLine.Knows.more {line : LogicalLine} (h : line.Knows lexemes)
    (lexeme : Lexeme Kind) : line.Knows (lexemes ++ [lexeme]) := by
  obtain ⟨before, code, after, rfl, h⟩ := h
  exact ⟨before, code, after ++ [lexeme], by simp only [List.append_assoc], h⟩

theorem OpenLine.Knows.close {line : OpenLine} {before idle : List (Lexeme Kind)}
    (h : line.Knows lexemes rest before code idle) : line.close.Knows lexemes :=
  ⟨before, code, idle, h.lexemes, h.start, h.lastCode, h.late⟩

theorem LineState.knows_of_reached {s : LineState} (h : Reached source lexemes rest s) :
    (∀ line, s.line = some line → ∃ before code idle, line.Knows lexemes rest before code idle) ∧
      ∀ l ∈ s.lines, l.Knows lexemes := by
  refine h.induct (I := fun lexemes rest s => (∀ line, s.line = some line →
    ∃ before code idle, line.Knows lexemes rest before code idle) ∧
      ∀ l ∈ s.lines, l.Knows lexemes) ?_ ?_
  · exact ⟨(fun _ h => by cases h), fun _ h => by cases h⟩
  · intro lexemes c r lexeme rest s s' hr hI hfound hstep
    have hlines : ∀ l ∈ s.lines, l.Knows (lexemes ++ [lexeme]) := fun l hl =>
      (hI.2 l hl).more lexeme
    cases LineState.steps hstep with
    | idle indent hnone hk => exact ⟨(fun _ h => by cases h), hlines⟩
    | begin line hnone hnewline _ _ hadd =>
      refine ⟨fun line' he => ?_, hlines⟩
      cases he
      exact ⟨lexemes, (OpenLine.Knows.begin rfl).add hfound (fun hk => absurd hk hnewline) hadd⟩
    | more line line' hline hk hadd =>
      refine ⟨fun line'' he => ?_, hlines⟩
      cases he
      obtain ⟨before, code, idle, hknows⟩ := hI.1 line hline
      exact ⟨before, hknows.add hfound hk hadd⟩
    | close line hline hk hempty =>
      refine ⟨(fun _ h => by cases h), fun l hl => ?_⟩
      rcases List.mem_cons.1 hl with rfl | hl
      · obtain ⟨before, code, idle, hknows⟩ := hI.1 line hline
        exact hknows.close.more lexeme
      · exact hlines l hl

/-- **In a logical line a remark stands behind a bracket**. -/
theorem knows_of_logicalLines {lines : List LogicalLine} (h : logicalLines source = .ok lines) :
    ∀ l ∈ lines, l.Knows (rule.lex source).lexemes := by
  obtain ⟨s, hrun, hfinish⟩ := bind_eq_ok.1 h
  obtain ⟨hline, hlines⟩ := LineState.knows_of_reached (.of_run hrun)
  unfold LineState.finish at hfinish
  split at hfinish
  · cases hfinish
    exact fun l hl => hlines l (List.mem_reverse.1 hl)
  · next line hl =>
    split at hfinish
    · cases hfinish
      intro l hmem
      rcases List.mem_cons.1 (List.mem_reverse.1 hmem) with rfl | hmem
      · obtain ⟨before, code, idle, hknows⟩ := hline line hl
        exact hknows.close
      · exact hlines l hmem
    · cases hfinish

/-! ## Headers -/

/-- A bracket that opens is a character of its own. -/
theorem text_opener {c b : Char} {r : Text} (h : front c r = .found lexeme rest)
    (hk : lexeme.kind = .opener b) :
    lexeme.text = [b] ∧ isBlank b = false ∧ isWordChar b = false := by
  rcases front_cases h with hc | ⟨rfl, -⟩
  · simp [hk] at hc
  · simp only [Kind.ofChar] at hk
    split at hk
    · cases hk
    split at hk
    · next hb =>
      cases hk
      simp only [Bool.or_eq_true, decide_eq_true_eq] at hb
      rcases hb with (rfl | rfl) | rfl <;> exact ⟨rfl, by decide, by decide⟩
    repeat' split at hk
    all_goals cases hk

section

variable {c : Char} (hblank : isBlank c = false) (hword : isWordChar c = false)

include hblank in
theorem afterWord?_append {word : Text} (hc : c ∉ word) (u w : Text) :
    afterWord? word (u ++ c :: w) = (afterWord? word u).map (· ++ c :: w) := by
  have hrest : ∀ rest : Text, (((rest ++ c :: w).head?.map isBlank).getD false) =
      (rest.head?.map isBlank).getD false := by
    rintro (_ | ⟨d, rest⟩)
    · exact hblank
    · rfl
  rw [afterWord?_eq, afterWord?_eq, Text.dropLead?_append hc]
  cases Text.dropLead? word u with
  | none => rfl
  | some rest =>
    simp only [Option.map_some, Option.bind_some, hrest]
    split
    · exact congrArg some (Text.dropWhile_stop hblank rest w)
    · rfl

include hblank hword in
/-- **What a line declares is told by what stands before a bracket**. -/
theorem ofLine?_append (u w : Text) : Header.ofLine? (u ++ c :: w) = Header.ofLine? u := by
  have hletters : ∀ word : Text, word.all isWordChar = true → c ∉ word := fun word h hc => by
    rw [List.all_eq_true.1 h c hc] at hword
    cases hword
  have hname : ∀ s : Text, leadingName? (s ++ c :: w) = leadingName? s := fun s => by
    rw [leadingName?, leadingName?, Text.spanWord, Text.spanWord, Text.takeWhile_stop hword]
  have hasync := afterWord?_append hblank (hletters "async".toList (by decide)) u w
  have hdef := fun v => afterWord?_append hblank (hletters "def".toList (by decide)) v w
  have hclass := afterWord?_append hblank (hletters "class".toList (by decide)) u w
  have hline : ((afterWord? "async".toList u).map (· ++ c :: w)).getD (u ++ c :: w) =
      (afterWord? "async".toList u).getD u ++ c :: w := by
    cases afterWord? "async".toList u <;> rfl
  simp only [Header.ofLine?, hasync, hline, hdef, hclass, Option.bind_eq_bind, Option.bind_map,
    Function.comp_def, hname]

end

/-- A logical line without its remarks is the same, or the same up to a bracket. -/
theorem late_text (hfound : ∀ l ∈ code, rule.Finds l) (h : Late code) :
    code.flatMap unremarked = Lexeme.textOf code ∨
      ∃ u b v w, Lexeme.textOf code = u ++ b :: v ∧ code.flatMap unremarked = u ++ b :: w ∧
        isBlank b = false ∧ isWordChar b = false := by
  induction code with
  | nil => exact .inl rfl
  | cons l code ih =>
    obtain ⟨⟨c, r, rest, hl⟩, hrest⟩ := List.forall_mem_cons.1 hfound
    have hk : l.kind ≠ .comment := fun hk => by
      obtain ⟨_, hmem, -⟩ := h [] l code rfl hk
      cases hmem
    rw [List.flatMap_cons, Lexeme.textOf_cons, unremarked, if_neg hk]
    by_cases hopener : ∃ b, l.kind = .opener b
    · obtain ⟨b, hb⟩ := hopener
      obtain ⟨htext, hblank, hword⟩ := text_opener hl hb
      rw [htext]
      exact .inr ⟨[], b, _, _, rfl, rfl, hblank, hword⟩
    · have hlate : Late code := by
        intro before m after he hm
        obtain ⟨o, ho, hkind⟩ := h (l :: before) m after (by rw [he]; rfl) hm
        rcases List.mem_cons.1 ho with rfl | ho
        · exact absurd hkind hopener
        · exact ⟨o, ho, hkind⟩
      rcases ih hrest hlate with he | ⟨u, b, v, w, hv, hw, hb⟩
      · exact .inl (congrArg _ he)
      · exact .inr ⟨l.text ++ u, b, v, w, by rw [hv, List.append_assoc],
          by rw [hw, List.append_assoc], hb⟩

/-- **A logical line declares the same without its remarks**. -/
theorem bare_withoutRemarks {lines : List LogicalLine} (h : logicalLines source = .ok lines)
    {line : LogicalLine} (hline : line ∈ lines) :
    (line.bare (withoutRemarks source)).isNote = (line.bare source).isNote ∧
      (line.bare (withoutRemarks source)).header? = (line.bare source).header? := by
  obtain ⟨s, hrun, -⟩ := bind_eq_ok.1 h
  have hr : Reached source (rule.lex source).lexemes [] s := .of_run hrun
  obtain ⟨before, code, after, hlex, hstart, hstop, hlate⟩ := knows_of_logicalLines h line hline
  have hfound : ∀ l ∈ code, rule.Finds l := fun l hl => by
    refine hr.divides.found_of_mem ?_
    rw [hlex]
    simp [hl]
  have hslice : Text.slice line.start line.stop source = Lexeme.textOf code := by
    have htext := hr.text
    rw [List.append_nil, hlex, Lexeme.textOf_append, Lexeme.textOf_append] at htext
    rw [hstart, hstop, htext, Lexeme.textOf_append, Text.width_append, Text.slice_middle]
  have hslice' : Text.slice line.start line.stop (withoutRemarks source) =
      code.flatMap unremarked := by
    rw [withoutRemarks, hlex, hstart, hstop, Lexeme.textOf_append, Text.width_append,
      ← width_flatMap_unremarked, ← width_flatMap_unremarked, List.flatMap_append,
      List.flatMap_append, Text.slice_middle]
  rcases late_text hfound hlate with he | ⟨u, b, v, w, hv, hw, hblank, hword⟩
  · have hbare : line.bare (withoutRemarks source) = line.bare source := by
      rw [LogicalLine.bare, LogicalLine.bare, hslice, hslice', he]
    rw [hbare]
    exact ⟨rfl, rfl⟩
  · have hnote : (line.bare (withoutRemarks source)).isNote = (line.bare source).isNote := by
      rw [BareLine.isNote, BareLine.isNote, LogicalLine.bare, LogicalLine.bare, hslice, hslice', hv,
        hw]
      cases u <;> rfl
    refine ⟨hnote, ?_⟩
    rw [BareLine.header?, BareLine.header?, hnote, LogicalLine.bare, LogicalLine.bare, hslice,
      hslice', hv, hw, ofLine?_append hblank hword, ofLine?_append hblank hword]

/-- A line does the same without its remarks if its header reads the same. -/
theorem step_withoutRemarks {lines : List LogicalLine} (h : logicalLines source = .ok lines)
    {line : LogicalLine} (hline : line ∈ lines) {s s' : BlockState}
    (hreads : ∀ header ∈ line.heading? source,
      ReadsSame (header.of (withoutRemarks source)) (header.of source))
    (hs : s.step source line = .ok s') : s.step (withoutRemarks source) line = .ok s' := by
  obtain ⟨hnote, hheader⟩ := bare_withoutRemarks h hline
  have hsound : (line.bare (withoutRemarks source)).isSound = (line.bare source).isSound := by
    rw [BareLine.isSound, BareLine.isSound, hheader]
    rfl
  refine toOption_eq_some (Eq.trans ?_ (congrArg Except.toOption hs))
  rw [BlockState.step_eq, BlockState.step_eq, hnote, hheader, hsound]
  split
  · next hsound =>
    cases hh : (line.bare source).header? with
    | none => rfl
    | some header =>
      rw [BareLine.isSound, hh] at hsound
      obtain ⟨colon, hcolon⟩ := Option.isSome_iff_exists.1 (show line.colon.isSome = true from hsound)
      have hsame : ReadsSame (Text.slice line.start colon (withoutRemarks source))
          (Text.slice line.start colon source) :=
        hreads ⟨line.start, colon⟩ (by rw [LogicalLine.heading?, hh, hcolon]; rfl)
      have hblock : ∀ start, Header.block (withoutRemarks source) line start header =
          Header.block source line start header := by
        intro start
        simp only [Header.block, hcolon, Option.getD_some]
        rw [show Text.collapse _ = Text.collapse _ from hsame]
      simp only [Option.map_some, hblock]
  · rfl

/-- **Remarks outside headers do not influence the outline**: a source without its remarks has one
with the same nodes. -/
theorem outline_withoutRemarks {o : Outline} (h : outline source = .ok o)
    (hreads : ∀ header ∈ headers source,
      ReadsSame (header.of (withoutRemarks source)) (header.of source)) :
    ∃ o', outline (withoutRemarks source) = .ok o' ∧ o'.nodes = o.nodes := by
  obtain ⟨lines, hlines, h⟩ := bind_eq_ok.1 h
  obtain ⟨nodes, hnodes, h⟩ := bind_eq_ok.1 h
  obtain ⟨s, hs, hfinish⟩ := bind_eq_ok.1 hnodes
  cases h
  rw [headers, hlines] at hreads
  have hfold : ∀ (rest : List LogicalLine) (t : BlockState), (∀ l ∈ rest, l ∈ lines) →
      rest.foldlM (BlockState.step source) t = .ok s →
      rest.foldlM (BlockState.step (withoutRemarks source)) t = .ok s := by
    intro rest
    induction rest with
    | nil => exact fun t _ ht => ht
    | cons line rest ih =>
      intro t hmem ht
      obtain ⟨hline, hrest⟩ := List.forall_mem_cons.1 hmem
      rw [List.foldlM_cons] at ht ⊢
      obtain ⟨t', hstep, ht⟩ := bind_eq_ok.1 ht
      refine bind_eq_ok.2 ⟨t', step_withoutRemarks hlines hline (fun header hh => ?_) hstep,
        ih t' hrest ht⟩
      exact hreads header (List.mem_filterMap.2 ⟨line, hline, hh⟩)
  have hlines' := logicalLines_withoutRemarks hlines
  have hnodes' : blockNodes (withoutRemarks source) lines = .ok nodes :=
    bind_eq_ok.2 ⟨s, hfold lines _ (fun _ hl => hl) hs, hfinish⟩
  exact ⟨_, bind_eq_ok.2 ⟨lines, hlines', bind_eq_ok.2 ⟨nodes, hnodes', rfl⟩⟩, rfl⟩

end Scholia.Source.Indented
