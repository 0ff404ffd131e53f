import Mathlib.Data.List.Chain
import Scholia.Proofs.Source.Indented.Insertion
/-!
# Lines that are literals

A logical line is a literal if its lexemes are a string and no more than two letters before it.
**The scanner finds exactly these lines**, and what it finds is the whole line.

Between two lines stand only lexemes that are no code: blanks, comments, continuations and line
ends.
-/

namespace Scholia.Source.Indented

variable {source rest : Text} {lexemes : List (Lexeme Kind)} {lexeme : Lexeme Kind}
  {s s' : LineState}

/-- A letter that may stand before a string. -/
def IsLetter (l : Lexeme Kind) : Prop :=
  ∃ c, l = ⟨.code c, [c]⟩ ∧ isStringLetter c = true

/-- A logical line is a string with at most two letters before it. -/
def LogicalLine.IsLiteral (lexemes : List (Lexeme Kind)) (line : LogicalLine) : Prop :=
  ∃ before letters literal after, lexemes = before ++ (letters ++ literal :: after) ∧
    line.start = Text.width (Lexeme.textOf before) ∧
    line.stop = Text.width (Lexeme.textOf (before ++ (letters ++ [literal]))) ∧
    letters.length ≤ 2 ∧ (∀ l ∈ letters, IsLetter l) ∧ literal.kind = .string

/-- Between two bytes stand only lexemes that are no code. -/
def Silent (lexemes : List (Lexeme Kind)) (start stop : Nat) : Prop :=
  ∃ before silence after, lexemes = before ++ (silence ++ after) ∧
    start = Text.width (Lexeme.textOf before) ∧
    stop = Text.width (Lexeme.textOf (before ++ silence)) ∧
    ∀ l ∈ silence, IsIdle l ∨ l.kind = .newline

/-! ## Between two lines -/

theorem Silent.more {start stop : Nat} (h : Silent lexemes start stop) (lexeme : Lexeme Kind) :
    Silent (lexemes ++ [lexeme]) start stop := by
  obtain ⟨before, silence, after, rfl, hstart, hstop, hall⟩ := h
  exact ⟨before, silence, after ++ [lexeme], by simp only [List.append_assoc], hstart, hstop, hall⟩

/-- One more lexeme that is no code. -/
theorem Silent.extend {start : Nat} (h : Silent lexemes start (Text.width (Lexeme.textOf lexemes)))
    (hpos : ∀ l ∈ lexemes, 0 < Text.width l.text) (hl : IsIdle lexeme ∨ lexeme.kind = .newline) :
    Silent (lexemes ++ [lexeme]) start (Text.width (Lexeme.textOf (lexemes ++ [lexeme]))) := by
  obtain ⟨before, silence, after, rfl, hstart, hstop, hall⟩ := h
  obtain rfl : after = [] := by
    cases after with
    | nil => rfl
    | cons l after =>
      have hl := hpos l (by simp)
      simp only [Lexeme.textOf_append, Lexeme.textOf_cons, Text.width_append] at hstop
      omega
  refine ⟨before, silence ++ [lexeme], [], by simp, hstart, by simp, fun l hmem => ?_⟩
  rcases List.mem_append.1 hmem with hmem | hmem
  · exact hall l hmem
  · exact List.mem_singleton.1 hmem ▸ hl

/-- What stands between the lines that have been read, the last one first. -/
structure LineState.Spaced (lexemes : List (Lexeme Kind)) (s : LineState) : Prop where
  begun : ∀ line, s.line = some line → ∀ l, s.lines.head? = some l →
    Silent lexemes l.stop line.start
  ended : s.line = none → ∀ l, s.lines.head? = some l →
    Silent lexemes l.stop (Text.width (Lexeme.textOf lexemes))
  lines : s.lines.IsChain fun later earlier => Silent lexemes earlier.stop later.start

theorem LineState.Spaced.of_reached (h : Reached source lexemes rest s) : s.Spaced lexemes := by
  refine h.induct (I := fun lexemes _ s => s.Spaced lexemes) ?_ ?_
  · exact ⟨(fun _ h => by cases h), (fun _ _ h => by cases h), .nil⟩
  · intro lexemes c r lexeme rest s s' hr hI hfound hstep
    have hpos : ∀ l ∈ lexemes, 0 < Text.width l.text := fun l hl => hr.divides.width_pos hl
    have hlines : s.lines.IsChain fun later earlier =>
        Silent (lexemes ++ [lexeme]) earlier.stop later.start :=
      hI.lines.imp fun _ _ h => h.more lexeme
    cases LineState.steps hstep with
    | idle indent hnone hk =>
      have hquiet : IsIdle lexeme ∨ lexeme.kind = .newline := by
        rcases hk with ⟨hk, -⟩ | hk | hk
        · exact .inr hk
        · exact .inl (.inl hk)
        · exact .inl (.inr (.inl hk))
      exact ⟨(fun _ h => by cases h), fun _ l hl => (hI.ended hnone l hl).extend hpos hquiet, hlines⟩
    | begin line hnone _ _ _ hadd =>
      have hstart : line.start = Text.width (Lexeme.textOf lexemes) := Sound.add_start hadd
      refine ⟨fun line' he l hl => ?_, (fun he => by cases he), hlines⟩
      cases he
      rw [hstart]
      exact (hI.ended hnone l hl).more lexeme
    | more line line' hline _ hadd =>
      refine ⟨fun line'' he l hl => ?_, (fun he => by cases he), hlines⟩
      cases he
      rw [Sound.add_start hadd]
      exact (hI.begun line hline l hl).more lexeme
    | close line hline hk hempty =>
      refine ⟨(fun _ he => by cases he), fun _ l hl => ?_, List.isChain_cons.2
        ⟨fun l hl => (hI.begun line hline l hl).more lexeme, hlines⟩⟩
      cases hl
      obtain ⟨code, idle, rfl, hcode, hidle⟩ := ((Sound.of_reached hr).line line hline).1.trail
      refine ⟨code, idle ++ [lexeme], [], by simp, hcode, by simp, fun l hmem => ?_⟩
      rcases List.mem_append.1 hmem with hmem | hmem
      · exact (hidle l hmem).imp_right And.left
      · exact .inr (List.mem_singleton.1 hmem ▸ hk)

/-- **Between two logical lines stands no code**. -/
theorem logicalLines_spaced {lines : List LogicalLine} (h : logicalLines source = .ok lines) :
    lines.IsChain fun l m => Silent (rule.lex source).lexemes l.stop m.start := by
  obtain ⟨s, hrun, hfinish⟩ := bind_eq_ok.1 h
  have hspaced := LineState.Spaced.of_reached (.of_run hrun)
  unfold LineState.finish at hfinish
  split at hfinish
  · cases hfinish
    exact List.isChain_reverse.2 hspaced.lines
  · next line hline =>
    split at hfinish
    · cases hfinish
      exact List.isChain_reverse.2 (List.isChain_cons.2 ⟨hspaced.begun line hline, hspaced.lines⟩)
    · cases hfinish

/-! ## The first string of a line -/

/-- The lexemes of a line begin with a string, which ends at some byte. -/
def FirstString (mine : List (Lexeme Kind)) (start stop : Nat) : Prop :=
  ∃ letters literal more, mine = letters ++ literal :: more ∧ letters.length ≤ 2 ∧
    (∀ l ∈ letters, IsLetter l) ∧ literal.kind = .string ∧
    stop = start + Text.width (Lexeme.textOf (letters ++ [literal]))

/-- A lexeme that makes a string of the letters before it, or changes nothing. -/
theorem firstString_append {mine : List (Lexeme Kind)} {start stop : Nat} :
    FirstString (mine ++ [lexeme]) start stop ↔ FirstString mine start stop ∨
      mine.length ≤ 2 ∧ (∀ l ∈ mine, IsLetter l) ∧ lexeme.kind = .string ∧
        stop = start + Text.width (Lexeme.textOf (mine ++ [lexeme])) := by
  constructor
  · rintro ⟨letters, literal, more, he, hlength, hletters, hstring, hstop⟩
    rcases List.eq_nil_or_concat more with rfl | ⟨more, last, rfl⟩
    · obtain ⟨rfl, hl⟩ := List.append_inj' he rfl
      cases hl
      exact .inr ⟨hlength, hletters, hstring, hstop⟩
    · rw [List.concat_eq_append, ← List.cons_append, ← List.append_assoc] at he
      obtain ⟨rfl, -⟩ := List.append_inj' he rfl
      exact .inl ⟨letters, literal, more, rfl, hlength, hletters, hstring, hstop⟩
  · rintro (⟨letters, literal, more, rfl, h⟩ | ⟨hlength, hletters, hstring, hstop⟩)
    · exact ⟨letters, literal, more ++ [lexeme], by simp, h⟩
    · exact ⟨mine, lexeme, [], rfl, hlength, hletters, hstring, hstop⟩

/-- Letters are no string. -/
theorem not_firstString {mine : List (Lexeme Kind)} (h : ∀ l ∈ mine, IsLetter l)
    {start stop : Nat} : ¬ FirstString mine start stop := by
  rintro ⟨letters, literal, more, rfl, -, -, hstring, -⟩
  obtain ⟨c, rfl, -⟩ := h literal (by simp)
  cases hstring

/-- Letters are one byte wide. -/
theorem width_letters {mine : List (Lexeme Kind)} (h : ∀ l ∈ mine, IsLetter l) :
    Text.width (Lexeme.textOf mine) = mine.length := by
  have hone : "rRbBuUfF".toList.all (Text.width [·] = 1) = true := by decide
  induction mine with
  | nil => rfl
  | cons l mine ih =>
    obtain ⟨c, rfl, hc⟩ := h l List.mem_cons_self
    have hletter : Text.width [c] = 1 :=
      of_decide_eq_true (List.all_eq_true.1 hone c (List.contains_iff_mem.1 hc))
    rw [Lexeme.textOf_cons, Text.width_append, ih fun l hl => h l (List.mem_cons_of_mem _ hl),
      List.length_cons, hletter, Nat.add_comm]

/-- Code of one character is that character. -/
theorem eq_of_code {c c' : Char} {r : Text} (h : front c r = .found lexeme rest)
    (hk : lexeme.kind = .code c') : lexeme = ⟨.code c', [c']⟩ := by
  rcases front_cases h with hc | ⟨rfl, -⟩
  · simp [hk] at hc
  · have hc : Kind.ofChar c = .code c' := hk
    have hsame : c = c' := by
      unfold Kind.ofChar at hc
      repeat' split at hc
      all_goals first | exact Kind.code.inj hc | cases hc
    rw [hc, hsame]

theorem isLetter_iff_of_code {c c' : Char} {r : Text} (h : front c r = .found lexeme rest)
    (hk : lexeme.kind = .code c') : IsLetter lexeme ↔ isStringLetter c' = true := by
  rw [eq_of_code h hk]
  constructor
  · rintro ⟨d, he, hd⟩
    cases he
    exact hd
  · exact fun hd => ⟨c', rfl, hd⟩

theorem Span.eq_mk_iff {start stop : Nat} {t : Span} :
    t = ⟨start, stop⟩ ↔ t.start = start ∧ t.stop = stop := by
  obtain ⟨start', stop'⟩ := t
  rw [Span.mk.injEq]

/-- A string is the first one of a line if nothing but letters stand before it, at most two. -/
theorem firstString_of_string {mine : List (Lexeme Kind)} {start : Nat} {fresh : Bool}
    {first : Option Span} (hfresh : fresh = true ↔ ∀ l ∈ mine, IsLetter l)
    (hfirst : ∀ t, first = some t ↔ t.start = start ∧ FirstString mine start t.stop)
    (hk : lexeme.kind = .string) (t : Span) :
    (if fresh && decide (start + Text.width (Lexeme.textOf mine) ≤ start + 2) then
        some ⟨start, start + Text.width (Lexeme.textOf (mine ++ [lexeme]))⟩ else first) = some t ↔
      t.start = start ∧ FirstString (mine ++ [lexeme]) start t.stop := by
  rw [firstString_append]
  by_cases hall : ∀ l ∈ mine, IsLetter l
  · have hno : first ≠ some t := (hfirst t).not.2 fun h => not_firstString hall h.2
    have hnear : start + Text.width (Lexeme.textOf mine) ≤ start + 2 ↔ mine.length ≤ 2 := by
      rw [width_letters hall]
      omega
    rw [or_iff_right (not_firstString hall)]
    simp only [hfresh.2 hall, Bool.true_and, decide_eq_true_eq, hnear]
    split
    · next hlength =>
      rw [Option.some_inj, eq_comm, Span.eq_mk_iff]
      exact and_congr_right fun _ => ⟨fun he => ⟨hlength, hall, hk, he⟩, fun h => h.2.2.2⟩
    · next hlength => exact iff_of_false hno fun h => hlength h.2.1
  · have hfresh : fresh = false := Bool.eq_false_iff.2 fun h => hall (hfresh.1 h)
    rw [or_iff_left fun h => hall h.2.1]
    simp only [hfresh, Bool.false_and, Bool.false_eq_true, if_false]
    exact hfirst t

/-- What an open line knows of the lexemes that it has taken. -/
def OpenLine.Reads (lexemes : List (Lexeme Kind)) (line : OpenLine) : Prop :=
  ∃ before mine, lexemes = before ++ mine ∧ line.start = Text.width (Lexeme.textOf before) ∧
    (line.fresh = true ↔ ∀ l ∈ mine, IsLetter l) ∧
    ∀ t, line.firstString = some t ↔ t.start = line.start ∧ FirstString mine line.start t.stop

/-- What a line knows of its lexemes. -/
def LogicalLine.Reads (lexemes : List (Lexeme Kind)) (line : LogicalLine) : Prop :=
  ∃ before mine after, lexemes = before ++ (mine ++ after) ∧
    line.start = Text.width (Lexeme.textOf before) ∧
    line.stop ≤ Text.width (Lexeme.textOf (before ++ mine)) ∧
    ∀ t, line.loneString = some t ↔
      t = ⟨line.start, line.stop⟩ ∧ FirstString mine line.start line.stop

theorem LogicalLine.Reads.more {line : LogicalLine} (h : line.Reads lexemes)
    (lexeme : Lexeme Kind) : line.Reads (lexemes ++ [lexeme]) := by
  obtain ⟨before, mine, after, rfl, h⟩ := h
  exact ⟨before, mine, after ++ [lexeme], by simp only [List.append_assoc], h⟩

namespace OpenLine.Reads

variable {line line' : OpenLine}

theorem begin {start indent : Nat} (hstart : start = Text.width (Lexeme.textOf lexemes)) :
    (OpenLine.begin start indent).Reads lexemes := by
  refine ⟨lexemes, [], (List.append_nil _).symm, hstart, by simp [OpenLine.begin], fun t => ?_⟩
  refine iff_of_false (fun h => by cases h) ?_
  rintro ⟨-, hfirst⟩
  exact not_firstString (by simp) hfirst

/-- **A line knows what it has taken**. -/
theorem add {c : Char} {r : Text} (h : line.Reads lexemes)
    (hfound : front c r = .found lexeme rest)
    (hadd : line.add (Text.width (Lexeme.textOf lexemes)) lexeme = .ok line') :
    line'.Reads (lexemes ++ [lexeme]) := by
  obtain ⟨before, mine, rfl, hstart, hfresh, hfirst⟩ := h
  refine ⟨before, mine ++ [lexeme], List.append_assoc _ _ _, ?_⟩
  have hworn : (∀ c, lexeme.kind ≠ .code c) →
      (false = true ↔ ∀ l ∈ mine ++ [lexeme], IsLetter l) := by
    refine fun hcode => iff_of_false Bool.false_ne_true fun hall => ?_
    obtain ⟨c, he, -⟩ := hall lexeme (by simp)
    exact hcode c (by rw [he])
  have hkeep : lexeme.kind ≠ .string → ∀ t, line.firstString = some t ↔
      t.start = line.start ∧ FirstString (mine ++ [lexeme]) line.start t.stop := by
    intro hstring t
    rw [firstString_append, or_iff_left fun h => hstring h.2.2.1]
    exact hfirst t
  cases hk : lexeme.kind with
  | newline | continuation | comment | blank | opener b | colon =>
    simp only [OpenLine.add, hk] at hadd
    cases hadd
    exact ⟨hstart, hworn (by simp [hk]), hkeep (by simp [hk])⟩
  | closer b =>
    simp only [OpenLine.add, hk] at hadd
    split at hadd
    · cases hadd
    · cases hadd
      exact ⟨hstart, hworn (by simp [hk]), hkeep (by simp [hk])⟩
  | code c' =>
    simp only [OpenLine.add, hk] at hadd
    cases hadd
    refine ⟨hstart, ?_, hkeep (by simp [hk])⟩
    simp only [Bool.and_eq_true, hfresh, List.forall_mem_append, List.forall_mem_singleton,
      isLetter_iff_of_code hfound hk]
  | string =>
    simp only [OpenLine.add, hk] at hadd
    cases hadd
    refine ⟨hstart, hworn (by simp [hk]), fun t => ?_⟩
    have hsum : Text.width (Lexeme.textOf (before ++ mine)) =
        line.start + Text.width (Lexeme.textOf mine) := by
      rw [Lexeme.textOf_append, Text.width_append, hstart]
    rw [← firstString_of_string hfresh hfirst hk t, hsum, Lexeme.textOf_append mine,
      Lexeme.textOf_cons, Lexeme.textOf_nil, List.append_nil, Text.width_append, Nat.add_assoc]

/-- A line that ends knows its lexemes. -/
theorem close (h : line.Reads lexemes)
    (hle : line.lastCode ≤ Text.width (Lexeme.textOf lexemes)) : line.close.Reads lexemes := by
  obtain ⟨before, mine, rfl, hstart, -, hfirst⟩ := h
  refine ⟨before, mine, [], by rw [List.append_nil], hstart, hle, fun t => ?_⟩
  simp only [OpenLine.close, Option.filter_eq_some_iff, hfirst, beq_iff_eq, Span.eq_mk_iff]
  constructor
  · rintro ⟨⟨hs, hp⟩, he⟩
    exact ⟨⟨hs, he⟩, he ▸ hp⟩
  · rintro ⟨⟨hs, he⟩, hp⟩
    exact ⟨⟨hs, he ▸ hp⟩, he⟩

end OpenLine.Reads

theorem LineState.reads_of_reached (h : Reached source lexemes rest s) :
    (∀ line, s.line = some line → line.Reads lexemes) ∧ ∀ l ∈ s.lines, l.Reads lexemes := by
  refine h.induct (I := fun lexemes _ s => (∀ line, s.line = some line → line.Reads lexemes) ∧
    ∀ l ∈ s.lines, l.Reads lexemes) ?_ ?_
  · exact ⟨(fun _ h => by cases h), fun _ h => by cases h⟩
  · intro lexemes c r lexeme rest s s' hr hI hfound hstep
    have hlines : ∀ l ∈ s.lines, l.Reads (lexemes ++ [lexeme]) := fun l hl =>
      (hI.2 l hl).more lexeme
    cases LineState.steps hstep with
    | idle indent hnone hk => exact ⟨(fun _ h => by cases h), hlines⟩
    | begin line hnone _ _ _ hadd =>
      refine ⟨fun line' he => ?_, hlines⟩
      cases he
      exact (OpenLine.Reads.begin rfl).add hfound hadd
    | more line line' hline _ hadd =>
      refine ⟨fun line'' he => ?_, hlines⟩
      cases he
      exact (hI.1 line hline).add hfound hadd
    | close line hline hk hempty =>
      refine ⟨(fun _ h => by cases h), fun l hl => ?_⟩
      rcases List.mem_cons.1 hl with rfl | hl
      · have hle := ((Sound.of_reached hr).line line hline).1.lastCode_le
        exact ((hI.1 line hline).close hle).more lexeme
      · exact hlines l hl

theorem Reached.reads_of_finish (hr : Reached source lexemes rest s) {lines : List LogicalLine}
    (hfinish : s.finish = .ok lines) : ∀ l ∈ lines, l.Reads lexemes := by
  obtain ⟨hline, hlines⟩ := LineState.reads_of_reached hr
  unfold LineState.finish at hfinish
  split at hfinish
  · cases hfinish
    exact fun l hl => hlines l (List.mem_reverse.1 hl)
  · next line hl =>
    split at hfinish
    · cases hfinish
      intro l hmem
      rcases List.mem_cons.1 (List.mem_reverse.1 hmem) with rfl | hmem
      · exact (hline line hl).close ((LineState.Sound.of_reached hr).line line hl).1.lastCode_le
      · exact hlines l hmem
    · cases hfinish

/-- **The scanner finds the lines that are literals**, and what it finds is the whole line. -/
theorem loneString_iff {lines : List LogicalLine} (h : logicalLines source = .ok lines)
    {line : LogicalLine} (hl : line ∈ lines) {t : Span} :
    line.loneString = some t ↔
      t = ⟨line.start, line.stop⟩ ∧ line.IsLiteral (rule.lex source).lexemes := by
  obtain ⟨s, hrun, hfinish⟩ := bind_eq_ok.1 h
  have hr : Reached source (rule.lex source).lexemes [] s := .of_run hrun
  have hpos : ∀ l ∈ (rule.lex source).lexemes, 0 < Text.width l.text := fun l hl =>
    hr.divides.width_pos hl
  generalize (rule.lex source).lexemes = lexemes at hr hpos
  obtain ⟨before, mine, after, rfl, hstart, hstop, hlone⟩ := hr.reads_of_finish hfinish line hl
  rw [hlone]
  refine and_congr_right fun _ => ⟨?_, ?_⟩
  · rintro ⟨letters, literal, more, rfl, hlength, hletters, hstring, hwidth⟩
    refine ⟨before, letters, literal, more ++ after, by simp, hstart, ?_, hlength, hletters, hstring⟩
    rw [hwidth, hstart, ← Text.width_append, ← Lexeme.textOf_append]
  · rintro ⟨before', letters, literal, after', he, hstart', hstop', hlength, hletters, hstring⟩
    have hbefore : before' = before := by
      obtain ⟨inner, rfl⟩ := Lexeme.append_of_width_le he (fun l hl => hpos l (by simp [hl]))
        (Nat.le_of_eq (hstart.symm.trans hstart'))
      cases inner with
      | nil => exact List.append_nil _
      | cons l inner =>
        have hl := hpos l (by rw [he]; simp)
        simp only [hstart, Lexeme.textOf_append, Lexeme.textOf_cons, Text.width_append] at hstart'
        omega
    subst hbefore
    have he' : (before' ++ (letters ++ [literal])) ++ after' = (before' ++ mine) ++ after := by
      rw [List.append_assoc, List.append_assoc, List.append_assoc, he]
      rfl
    obtain ⟨more, hmine⟩ := Lexeme.append_of_width_le he'
      (fun l hl => hpos l (by rw [← List.append_assoc, ← he']; exact List.mem_append_left _ hl))
      (hstop' ▸ hstop)
    rw [List.append_assoc] at hmine
    refine ⟨letters, literal, more, ?_, hlength, hletters, hstring, ?_⟩
    · rw [List.append_cancel_left hmine, List.append_assoc]
      rfl
    · rw [hstop', hstart', Lexeme.textOf_append, Text.width_append]

/-! ## How literals begin -/

/-- A string begins with its quote. -/
theorem head?_of_string {c : Char} {r : Text} (h : front c r = .found lexeme rest)
    (hk : lexeme.kind = .string) : lexeme.text.head? = some '"' ∨ lexeme.text.head? = some '\'' := by
  cases front_eq_found_iff.1 h with
  | tripleQuoted hc => exact hc.imp (congrArg some) (congrArg some)
  | quoted hc => exact hc.imp (congrArg some) (congrArg some)
  | char => exact absurd hk (Kind.ofChar_plain c).2.2
  | _ => cases hk

/-- A character with which a literal may begin. -/
def beginsLiteral (c : Char) : Bool :=
  c == '"' || c == '\'' || isStringLetter c

/-- **A line that is a literal begins with a quote or a letter before one**, and is not empty. -/
theorem LogicalLine.IsLiteral.head {line : LogicalLine} (hdivides : rule.Divides source lexemes [])
    (h : line.IsLiteral lexemes) : line.start < line.stop ∧
      ∃ c, (Text.slice line.start line.stop source).head? = some c ∧ beginsLiteral c = true := by
  obtain ⟨before, letters, literal, after, rfl, hstart, hstop, -, hletters, hstring⟩ := h
  have hmem : literal ∈ before ++ (letters ++ literal :: after) := by simp
  obtain ⟨c, r, rest, hfound⟩ := hdivides.found_of_mem hmem
  have hhead : ∃ c, (Lexeme.textOf (letters ++ [literal])).head? = some c ∧
      beginsLiteral c = true := by
    cases letters with
    | nil =>
      simp only [List.nil_append, Lexeme.textOf_cons, Lexeme.textOf_nil, List.append_nil]
      rcases head?_of_string hfound hstring with hc | hc
      · exact ⟨_, hc, rfl⟩
      · exact ⟨_, hc, rfl⟩
    | cons l letters =>
      obtain ⟨c, rfl, hc⟩ := hletters l List.mem_cons_self
      exact ⟨c, rfl, by rw [beginsLiteral, hc, Bool.or_true]⟩
  have hslice : Text.slice line.start line.stop source = Lexeme.textOf (letters ++ [literal]) := by
    have hsource : source = Lexeme.textOf before ++
        (Lexeme.textOf (letters ++ [literal]) ++ Lexeme.textOf after) := by
      rw [hdivides.text, List.append_nil, ← Lexeme.textOf_append, ← Lexeme.textOf_append,
        List.append_assoc letters]
      rfl
    rw [hsource, hstart, hstop, Lexeme.textOf_append, Text.width_append, Text.slice_middle]
  refine ⟨?_, hslice ▸ hhead⟩
  have hpos := hdivides.width_pos hmem
  rw [hstart, hstop]
  simp only [Lexeme.textOf_append, Lexeme.textOf_cons, Text.width_append]
  omega

/-! ## From a header to its block -/

theorem blank_of_front {c : Char} {r : Text} (h : front c r = .found lexeme rest)
    (hk : lexeme.kind = .blank) : ∃ d, Text.isBlank d = true ∧ lexeme.text = [d] := by
  rcases front_cases h with hc | ⟨rfl, -⟩
  · simp [hk] at hc
  · exact ⟨c, Text.isBlank_of_isPlainBlank (isPlainBlank_of_ofChar hk), rfl⟩

theorem onlyHeaderEnd_of_ne {inComment : Bool} {c : Char} {r : Text} (hc : c ≠ '\n') :
    onlyHeaderEnd inComment (c :: r) =
      if inComment then onlyHeaderEnd true r
      else if c == '#' then onlyHeaderEnd true r
      else (Text.isBlank c || c == ':') && onlyHeaderEnd false r := by
  rw [onlyHeaderEnd]
  exact hc

/-- Inside a comment everything up to the next line end is part of it. -/
theorem onlyHeaderEnd_line {line rest : Text} (h : '\n' ∉ line) :
    onlyHeaderEnd true (line ++ rest) = onlyHeaderEnd true rest := by
  induction line with
  | nil => rfl
  | cons c line ih =>
    rw [List.mem_cons, not_or] at h
    rw [List.cons_append, onlyHeaderEnd_of_ne fun he => h.1 he.symm, if_pos rfl]
    exact ih h.2

theorem onlyHeaderEnd_cons {c : Char} {rest : Text} (hc : Text.isBlank c = true)
    (h : ∀ inComment, onlyHeaderEnd inComment rest = true) (inComment : Bool) :
    onlyHeaderEnd inComment (c :: rest) = true := by
  by_cases hn : c = '\n'
  · rw [hn, onlyHeaderEnd]
    exact h false
  · rw [onlyHeaderEnd_of_ne hn, hc]
    split
    · exact h true
    split
    · exact h true
    · exact h false

/-- What is no code, without a continuation, is only the end of a header. -/
theorem onlyHeaderEnd_of_silence {silence : List (Lexeme Kind)}
    (hfound : ∀ l ∈ silence, ∃ c r rest, front c r = .found l rest)
    (hsilent : ∀ l ∈ silence, IsIdle l ∨ l.kind = .newline)
    (hplain : ∀ l ∈ silence, l.kind ≠ .continuation) (inComment : Bool) :
    onlyHeaderEnd inComment (Lexeme.textOf silence) = true := by
  induction silence generalizing inComment with
  | nil => rfl
  | cons l silence ih =>
    have ih := ih (fun m hm => hfound m (List.mem_cons_of_mem _ hm))
      (fun m hm => hsilent m (List.mem_cons_of_mem _ hm))
      fun m hm => hplain m (List.mem_cons_of_mem _ hm)
    obtain ⟨c, r, rest, hl⟩ := hfound l List.mem_cons_self
    rw [Lexeme.textOf_cons]
    rcases hsilent l List.mem_cons_self with (hk | hk | hk) | hk
    · obtain ⟨d, hd, htext⟩ := blank_of_front hl hk
      rw [htext]
      exact onlyHeaderEnd_cons hd ih inComment
    · obtain ⟨-, hcomment, -⟩ := comment_of_front hl hk
      have htext := congrArg Lexeme.text hcomment
      have hline := oneLine_of_front hl (.inr hk)
      rw [htext] at hline ⊢
      rw [List.cons_append, onlyHeaderEnd_of_ne (by decide), if_pos (beq_self_eq_true '#'), ite_self,
        onlyHeaderEnd_line fun hmem => hline (List.mem_cons_of_mem _ hmem)]
      exact ih true
    · exact absurd hk (hplain l List.mem_cons_self)
    · rw [(eq_lineEnd hl hk).2.1]
      exact onlyHeaderEnd_cons rfl ih inComment

/-- **A literal that only silence parts from a header is the first statement behind it**. -/
theorem isFirstStatement_of_silent {start stop : Nat} (hdivides : rule.Divides source lexemes [])
    (h : Silent lexemes start stop) (hplain : ∀ l ∈ lexemes, l.kind ≠ .continuation) :
    isFirstStatement source start stop = true := by
  obtain ⟨before, silence, after, rfl, rfl, rfl, hsilent⟩ := h
  have hmem : ∀ l ∈ silence, l ∈ before ++ (silence ++ after) := fun l hl => by simp [hl]
  have hslice : Text.slice (Text.width (Lexeme.textOf before))
      (Text.width (Lexeme.textOf (before ++ silence))) source = Lexeme.textOf silence := by
    rw [hdivides.text, List.append_nil, Lexeme.textOf_append, Lexeme.textOf_append,
      Lexeme.textOf_append, Text.width_append, Text.slice_middle]
  rw [isFirstStatement, hslice, Bool.and_eq_true, decide_eq_true_eq]
  refine ⟨by simp, onlyHeaderEnd_of_silence (fun l hl => ?_) hsilent
    (fun l hl => hplain l (hmem l hl)) false⟩
  exact hdivides.found_of_mem (hmem l hl)

end Scholia.Source.Indented
