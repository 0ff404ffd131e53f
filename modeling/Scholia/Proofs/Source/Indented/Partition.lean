import Scholia.Proofs.Source.Brackets
import Scholia.Proofs.Source.Indented.Literals
/-!
# Logical lines and the code of a text

The logical lines stand one behind the other, hold every lexeme of code whole, and leave out only
blanks, comments and covered line ends. A string or a pair of brackets is part of one line.

A line is empty exactly if it begins with a backslash that covers a line end and no code follows up
to its own end (`LogicalLine.IsBare`). Blank lines and comment lines are passed over, this one is
not: it takes the place of the first statement of a block.

What is kept by a lexeme is said of the lines that have ended together with the one that has begun,
as it would end there (`LineState.rows`).
-/

namespace Scholia.Source

/-- A lexeme starts at a byte. -/
def Lexeme.At {κ : Type} (lexemes : List (Lexeme κ)) (byte : Nat) (lexeme : Lexeme κ) : Prop :=
  ∃ before after, lexemes = before ++ lexeme :: after ∧ byte = Text.width (textOf before)

namespace Lexeme.At

variable {κ : Type} {lexemes : List (Lexeme κ)} {byte : Nat} {lexeme : Lexeme κ}

theorem of_append (last : Lexeme κ) (h : At (lexemes ++ [last]) byte lexeme) :
    At lexemes byte lexeme ∨ lexeme = last ∧ byte = Text.width (textOf lexemes) := by
  obtain ⟨before, after, he, hbyte⟩ := h
  rcases List.eq_nil_or_concat after with rfl | ⟨after, last', rfl⟩
  · obtain ⟨rfl, hl⟩ := List.append_inj' he rfl
    exact .inr ⟨(List.cons.inj hl).1.symm, hbyte⟩
  · rw [List.concat_eq_append, ← List.cons_append, ← List.append_assoc] at he
    exact .inl ⟨before, after, (List.append_inj' he rfl).1, hbyte⟩

/-- Every byte is part of a lexeme. -/
theorem exists_of_lt (h : byte < Text.width (textOf lexemes)) :
    ∃ start lexeme, At lexemes start lexeme ∧ start ≤ byte ∧
      byte < start + Text.width lexeme.text := by
  induction lexemes generalizing byte with
  | nil => simp at h
  | cons first rest ih =>
    by_cases hfirst : byte < Text.width first.text
    · exact ⟨0, first, ⟨[], rest, rfl, rfl⟩, Nat.zero_le _, by omega⟩
    · rw [textOf_cons, Text.width_append] at h
      have hrest : byte - Text.width first.text < Text.width (textOf rest) := by omega
      obtain ⟨start, lexeme, ⟨before, after, rfl, rfl⟩, hle, hlt⟩ := ih hrest
      refine ⟨_, lexeme, ⟨first :: before, after, rfl, rfl⟩, ?_, ?_⟩
      · rw [textOf_cons, Text.width_append]
        omega
      · rw [textOf_cons, Text.width_append]
        omega

end Lexeme.At

namespace Indented

open Text (IsPaired)

variable {source rest : Text} {lexemes : List (Lexeme Kind)} {lexeme : Lexeme Kind}
  {s s' : LineState} {line line' : OpenLine} {offset byte : Nat}

/-! ## What is said of the lines -/

theorem not_isCode_iff : ¬ lexeme.kind.isCode = true ↔ IsIdle lexeme ∨ lexeme.kind = .newline := by
  unfold IsIdle
  cases lexeme.kind
  case newline | continuation | comment | blank => exact iff_of_true Bool.false_ne_true (by simp)
  all_goals exact iff_of_false (not_not_intro rfl) (by simp)

/-- A line without code: it begins with a continuation, and only idle lexemes stand between that and
the line end that closes it or, if not `ended`, the end of what has been read. -/
def LogicalLine.Bare (lexemes : List (Lexeme Kind)) (ended : Bool) (line : LogicalLine) : Prop :=
  ∃ before first idle closing, lexemes = before ++ (first :: idle ++ closing) ∧
    line.start = Text.width (Lexeme.textOf before) ∧ first.kind = .continuation ∧
    (∀ l ∈ idle, IsIdle l) ∧
    if ended then ∃ l more, closing = l :: more ∧ l.kind = .newline else closing = []

/-- A line without code. -/
def LogicalLine.IsBare (lexemes : List (Lexeme Kind)) (line : LogicalLine) : Prop :=
  ∃ ended, line.Bare lexemes ended

/-- A line that holds code. -/
def LogicalLine.Filled (lexemes : List (Lexeme Kind)) (line : LogicalLine) : Prop :=
  ∃ before idle first more, lexemes = before ++ (idle ++ first :: more) ∧
    line.start = Text.width (Lexeme.textOf before) ∧ (∀ l ∈ idle, IsIdle l) ∧
    first.kind.isCode = true

/-- A colon outside brackets starts at a byte. -/
def ColonAt (lexemes : List (Lexeme Kind)) (byte : Nat) : Prop :=
  ∃ before colon after, lexemes = before ++ colon :: after ∧
    byte = Text.width (Lexeme.textOf before) ∧ colon.kind = .colon ∧
    IsPaired (before.flatMap bracketsOf)

/-- A range is part of a line. -/
def LogicalLine.Holds (line : LogicalLine) (start stop : Nat) : Prop :=
  line.start ≤ start ∧ stop ≤ line.stop

/-- What a text holds beside its code: a blank or a line end, a comment, a covered line end. -/
inductive IsBeside : Text → Prop
  | blank {c : Char} (hc : Text.isPlainBlank c = true) : IsBeside [c]
  | comment {line : Text} (hline : '\n' ∉ line) : IsBeside ('#' :: line)
  | covered : IsBeside ['\\', '\n']

/-- How the lines of a text lie over its lexemes. -/
structure Partitions (source : Text) (lexemes : List (Lexeme Kind)) (lines : List LogicalLine) :
    Prop where
  ordered : ∀ line ∈ lines, line.start ≤ line.stop
  empty_iff : ∀ line ∈ lines, line.start = line.stop ↔ line.IsBare lexemes
  apart : lines.Pairwise fun l m => l.stop < m.start
  colon : ∀ line ∈ lines, ∀ byte, line.colon = some byte →
    line.start ≤ byte ∧ byte < line.stop ∧ ColonAt lexemes byte
  lone : ∀ line ∈ lines, ∀ t, line.loneString = some t → t = ⟨line.start, line.stop⟩
  /-- A string is part of one line. -/
  strings : ∀ byte literal, Lexeme.At lexemes byte literal → literal.kind = .string →
    ∃ line ∈ lines, line.Holds byte (byte + Text.width literal.text)
  /-- A pair of brackets, whatever their shapes, is part of one line. -/
  pairs : ∀ before opener inner closer after c d,
    lexemes = before ++ opener :: (inner ++ closer :: after) →
      opener.kind = .opener c → closer.kind = .closer d → IsPaired (inner.flatMap bracketsOf) →
        ∃ line ∈ lines, line.Holds (Text.width (Lexeme.textOf before))
          (Text.width (Lexeme.textOf (before ++ opener :: (inner ++ [closer]))))
  /-- A byte outside the lines is part of a blank, a comment or a covered line end. -/
  outside : ∀ byte < Text.width source,
    (∀ line ∈ lines, ¬ (line.start ≤ byte ∧ byte < line.stop)) →
      ∃ start lexeme, Lexeme.At lexemes start lexeme ∧ start ≤ byte ∧
        byte < start + Text.width lexeme.text ∧ IsBeside lexeme.text

theorem ColonAt.more (h : ColonAt lexemes byte) (lexeme : Lexeme Kind) :
    ColonAt (lexemes ++ [lexeme]) byte := by
  obtain ⟨before, colon, after, rfl, h⟩ := h
  exact ⟨before, colon, after ++ [lexeme], by simp, h⟩

/-! ## Lines with and without code -/

/-- A line is empty and without code, or neither. -/
def LogicalLine.Weighs (lexemes : List (Lexeme Kind)) (ended : Bool) (line : LogicalLine) : Prop :=
  line.Bare lexemes ended ∧ line.start = line.stop ∨ line.Filled lexemes ∧ line.start < line.stop

/-- Idle lexemes up to a line end, or the end, do not lead to code. -/
theorem not_code_behind {idle closing idle' more : List (Lexeme Kind)} {first : Lexeme Kind}
    (he : idle ++ closing = idle' ++ first :: more) (hidle : ∀ l ∈ idle, IsIdle l)
    (hclosing : ∀ l ∈ closing.head?, l.kind = .newline) (hidle' : ∀ l ∈ idle', IsIdle l) :
    ¬ first.kind.isCode = true := by
  induction idle generalizing idle' with
  | nil =>
    rw [List.nil_append] at he
    rw [not_isCode_iff]
    cases idle' with
    | nil => exact .inr (hclosing first (he ▸ rfl))
    | cons l idle' =>
      have hnewline := hclosing l (he ▸ rfl)
      have hl := hidle' l List.mem_cons_self
      simp [IsIdle, hnewline] at hl
  | cons l idle ih =>
    cases idle' with
    | nil =>
      obtain ⟨rfl, -⟩ := List.cons.inj he
      exact not_isCode_iff.2 (.inl (hidle l List.mem_cons_self))
    | cons l' idle' =>
      exact ih (List.cons.inj he).2 (fun l hl => hidle l (List.mem_cons_of_mem _ hl))
        fun l hl => hidle' l (List.mem_cons_of_mem _ hl)

namespace LogicalLine

variable {row : LogicalLine} {ended : Bool}

theorem Bare.more (h : row.Bare lexemes true) (lexeme : Lexeme Kind) :
    row.Bare (lexemes ++ [lexeme]) true := by
  obtain ⟨before, first, idle, closing, rfl, hstart, hfirst, hidle, l, more, rfl, hl⟩ := h
  exact ⟨before, first, idle, l :: more ++ [lexeme], by simp, hstart, hfirst, hidle, l,
    more ++ [lexeme], rfl, hl⟩

theorem Filled.more (h : row.Filled lexemes) (lexeme : Lexeme Kind) :
    row.Filled (lexemes ++ [lexeme]) := by
  obtain ⟨before, idle, first, more, rfl, h⟩ := h
  exact ⟨before, idle, first, more ++ [lexeme], by simp, h⟩

theorem Filled.of_start {row' : LogicalLine} (h : row.Filled lexemes)
    (hstart : row'.start = row.start) : row'.Filled lexemes := by
  obtain ⟨before, idle, first, more, he, hbefore, h⟩ := h
  exact ⟨before, idle, first, more, he, hstart.trans hbefore, h⟩

/-- A line end closes a line. -/
theorem Weighs.close (h : row.Weighs lexemes false) (hk : lexeme.kind = .newline) :
    row.Weighs (lexemes ++ [lexeme]) true := by
  refine h.imp (And.imp_left ?_) (And.imp_left fun h => h.more lexeme)
  rintro ⟨before, first, idle, closing, rfl, hstart, hfirst, hidle, hnil⟩
  obtain rfl : closing = [] := hnil
  exact ⟨before, first, idle, [lexeme], by simp, hstart, hfirst, hidle, lexeme, [], rfl, hk⟩

theorem Weighs.le (h : row.Weighs lexemes ended) : row.start ≤ row.stop :=
  h.elim (fun h => Nat.le_of_eq h.2) fun h => Nat.le_of_lt h.2

theorem Weighs.more (h : row.Weighs lexemes true) (lexeme : Lexeme Kind) :
    row.Weighs (lexemes ++ [lexeme]) true :=
  h.imp (And.imp_left fun h => h.more lexeme) (And.imp_left fun h => h.more lexeme)

/-- A line does not hold code if it is without code. -/
theorem IsBare.not_filled (hpos : ∀ l ∈ lexemes, 0 < Text.width l.text) (h : row.IsBare lexemes) :
    ¬ row.Filled lexemes := by
  obtain ⟨ended, before, first, idle, closing, rfl, hstart, hfirst, hidle, hclosing⟩ := h
  rintro ⟨before', idle', code, more, he, hstart', hidle', hcode⟩
  obtain rfl : before = before' := by
    obtain ⟨inner, rfl⟩ := Lexeme.append_of_width_le he (fun l hl => hpos l (by simp [hl]))
      (Nat.le_of_eq (hstart.symm.trans hstart'))
    cases inner with
    | nil => exact (List.append_nil _).symm
    | cons l inner =>
      have hl := hpos l (by rw [he]; simp)
      simp only [hstart, Lexeme.textOf_append, Lexeme.textOf_cons, Text.width_append] at hstart'
      omega
  refine not_code_behind (List.append_cancel_left he) ?_ (fun l hl => ?_) hidle' hcode
  · exact List.forall_mem_cons.2 ⟨.inr (.inr hfirst), hidle⟩
  · cases ended with
    | true =>
      obtain ⟨l', more, rfl, hl'⟩ := hclosing
      cases hl
      exact hl'
    | false =>
      rw [show closing = [] from hclosing] at hl
      cases hl

/-- **A line is empty exactly if it is without code**. -/
theorem Weighs.empty_iff (h : row.Weighs lexemes ended)
    (hpos : ∀ l ∈ lexemes, 0 < Text.width l.text) :
    row.start = row.stop ↔ row.IsBare lexemes := by
  rcases h with ⟨hbare, he⟩ | ⟨hfilled, hlt⟩
  · exact iff_of_true he ⟨ended, hbare⟩
  · exact iff_of_false (Nat.ne_of_lt hlt) fun hbare => hbare.not_filled hpos hfilled

end LogicalLine

/-! ## What a lexeme does to a line -/

namespace OpenLine

theorem add_code (h : line.add offset lexeme = .ok line') (hcode : lexeme.kind.isCode = true) :
    line'.lastCode = offset + Text.width lexeme.text := by
  cases hk : lexeme.kind
  case newline | continuation | comment | blank =>
    rw [hk] at hcode
    exact absurd hcode Bool.false_ne_true
  case closer =>
    simp only [add, hk] at h
    split at h <;> cases h
    rfl
  all_goals
    simp only [add, hk] at h
    cases h
    rfl

theorem add_rest (h : line.add offset lexeme = .ok line') (hcode : ¬ lexeme.kind.isCode = true) :
    line'.lastCode = line.lastCode ∧ line'.brackets = line.brackets := by
  cases hk : lexeme.kind
  case newline | continuation | comment | blank =>
    simp only [add, hk] at h
    cases h
    exact ⟨rfl, rfl⟩
  all_goals
    rw [hk] at hcode
    exact absurd rfl hcode

/-- The colon of a line is a colon outside its brackets. -/
theorem add_colon (h : line.add offset lexeme = .ok line') (hbyte : line'.colon = some byte) :
    line.colon = some byte ∨ line.brackets = [] ∧ lexeme.kind = .colon ∧ byte = offset := by
  cases hk : lexeme.kind
  case colon =>
    simp only [add, hk] at h
    cases h
    simp only at hbyte
    split at hbyte
    · next hempty =>
      cases hcolon : line.colon with
      | none =>
        rw [hcolon] at hbyte
        exact .inr ⟨List.isEmpty_iff.1 hempty, rfl, (Option.some.inj hbyte).symm⟩
      | some b =>
        rw [hcolon] at hbyte
        exact .inl hbyte
    · exact .inl hbyte
  case closer =>
    simp only [add, hk] at h
    split at h <;> cases h
    exact .inl hbyte
  all_goals
    simp only [add, hk] at h
    cases h
    exact .inl hbyte

end OpenLine

/-! ## What is kept -/

namespace LineState

/-- The lines that have ended, and the one that has begun as it would end here, the last one
first. -/
def rows (s : LineState) : List LogicalLine :=
  (s.line.map OpenLine.close).toList ++ s.lines

/-- What is finished are the rows. -/
theorem rows_of_finish {lines : List LogicalLine} (h : s.finish = .ok lines) :
    lines = s.rows.reverse ∧ s.shapes = [] := by
  unfold finish at h
  split at h
  · next hline =>
    cases h
    exact ⟨by rw [rows, hline]; rfl, by rw [shapes, hline]; rfl⟩
  · next line hline =>
    split at h
    · next hb =>
      cases h
      exact ⟨by rw [rows, hline]; rfl, by rw [shapes, hline]; simp [OpenLine.shapes, hb]⟩
    · cases h

/-- What is open is what the brackets so far leave open. -/
theorem shapes_of_reached (h : Reached source lexemes rest s) :
    pairAny [] (lexemes.flatMap bracketsOf) = some s.shapes := by
  obtain ⟨hok, hno⟩ := keepsStack.run (fun l hl => h.divides.found_of_mem hl) .initial 0
  cases hp : pairAny [] (lexemes.flatMap bracketsOf) with
  | none =>
    obtain ⟨token, byte, herror⟩ := hno hp
    cases h.runs.symm.trans herror
  | some shapes =>
    obtain ⟨t, ht, rfl⟩ := hok shapes hp
    cases h.runs.symm.trans ht
    rfl

/-- What stands before a place between two lines is paired. -/
theorem isPaired_of_reached (h : Reached source lexemes rest s) (hs : s.shapes = []) :
    IsPaired (lexemes.flatMap bracketsOf) :=
  Text.nested_iff_pairOff.2 ((shapes_of_reached h).trans (congrArg some hs))

/-- What holds of the rows when some lexemes have been read. -/
structure Divides (lexemes : List (Lexeme Kind)) (s : LineState) : Prop where
  held : ∀ byte l, Lexeme.At lexemes byte l → l.kind.isCode = true →
    ∃ row ∈ s.rows, row.Holds byte (byte + Text.width l.text)
  apart : s.rows.Pairwise fun l m => m.stop < l.start
  colon : ∀ row ∈ s.rows, ∀ byte, row.colon = some byte → ColonAt lexemes byte
  begun : ∀ line, s.line = some line →
    line.close.Weighs lexemes false ∧ (line.start = line.lastCode → line.brackets = [])
  ended : ∀ row ∈ s.lines, row.Weighs lexemes true

/-- A line that can take the next lexeme: the one that has begun, or one that begins here. -/
structure Ready (lexemes : List (Lexeme Kind)) (s : LineState) (line : OpenLine) : Prop where
  rows : ∀ row ∈ s.rows, row ∈ s.lines ∨ row = line.close
  shapes : line.shapes = s.shapes
  apart : ∀ row ∈ s.lines, row.stop < line.start
  ordered : line.start ≤ line.lastCode
  le : line.lastCode ≤ Text.width (Lexeme.textOf lexemes)
  colon : ∀ byte, line.colon = some byte → ColonAt lexemes byte

theorem Ready.of_begun (hr : Reached source lexemes rest s) (h : s.Divides lexemes)
    (hline : s.line = some line) : s.Ready lexemes line := by
  have hrows : s.rows = line.close :: s.lines := by rw [LineState.rows, hline]; rfl
  obtain ⟨hstands, -⟩ := (Sound.of_reached hr).line line hline
  refine ⟨fun row hrow => ?_, by rw [LineState.shapes, hline]; rfl, ?_, hstands.ordered,
    hstands.lastCode_le, ?_⟩
  · exact (List.mem_cons.1 (hrows ▸ hrow)).symm
  · exact (List.pairwise_cons.1 (hrows ▸ h.apart)).1
  · exact h.colon line.close (hrows ▸ List.mem_cons_self)

/-- A line that has ended stops before the line end. -/
theorem stop_lt {row : LogicalLine} (hr : Reached source lexemes rest s) (hrow : row ∈ s.lines) :
    row.stop < Text.width (Lexeme.textOf lexemes) := by
  obtain ⟨code, idle, closing, rfl, hstop, -, l, more, rfl, -⟩ :=
    ((Sound.of_reached hr).lines row hrow).trail
  have hl : 0 < Text.width l.text := hr.divides.width_pos (by simp)
  simp only [hstop, Lexeme.textOf_append, Lexeme.textOf_cons, Text.width_append]
  omega

theorem Ready.of_begin (hr : Reached source lexemes rest s) (hnone : s.line = none) :
    s.Ready lexemes (.begin (Text.width (Lexeme.textOf lexemes)) s.indent) := by
  have hrows : s.rows = s.lines := by rw [LineState.rows, hnone]; rfl
  refine ⟨fun row hrow => .inl (hrows ▸ hrow), by rw [LineState.shapes, hnone]; rfl,
    fun row hrow => stop_lt hr hrow, Nat.le_refl _, Nat.le_refl _, fun _ hbyte => by cases hbyte⟩

namespace Divides

theorem initial : Divides [] .initial where
  held := by
    rintro byte l ⟨before, after, he, -⟩
    simp at he
  apart := .nil
  colon := fun _ h => by cases h
  begun := fun _ h => by cases h
  ended := fun _ h => by cases h

/-- A lexeme that is no code and leaves the rows as they are. -/
theorem pass (h : s.Divides lexemes) (hcode : ¬ lexeme.kind.isCode = true) (hrows : s'.rows = s.rows)
    (hnone : s'.line = none) (hended : ∀ row ∈ s'.lines, row.Weighs (lexemes ++ [lexeme]) true) :
    s'.Divides (lexemes ++ [lexeme]) where
  held byte l hat hl := by
    rw [hrows]
    rcases hat.of_append with hat | ⟨rfl, -⟩
    · exact h.held byte l hat hl
    · exact absurd hl hcode
  apart := hrows ▸ h.apart
  colon row hrow byte hbyte := (h.colon row (hrows ▸ hrow) byte hbyte).more lexeme
  begun line hline := by
    rw [hnone] at hline
    cases hline
  ended := hended

/-- A line that takes a lexeme. -/
theorem take (h : s.Divides lexemes) (hr : Reached source lexemes rest s)
    (hready : s.Ready lexemes line)
    (hadd : line.add (Text.width (Lexeme.textOf lexemes)) lexeme = .ok line')
    (hweighs : line'.close.Weighs (lexemes ++ [lexeme]) false ∧
      (line'.start = line'.lastCode → line'.brackets = [])) :
    LineState.Divides (lexemes ++ [lexeme]) { s with line := some line' } := by
  have hstart : line'.start = line.start := Sound.add_start hadd
  have hgrown : line.lastCode ≤ line'.lastCode := by
    by_cases hcode : lexeme.kind.isCode = true
    · have := hready.le
      have := OpenLine.add_code hadd hcode
      omega
    · exact Nat.le_of_eq (OpenLine.add_rest hadd hcode).1.symm
  refine {
    held := ?held
    apart := List.pairwise_cons.2 ⟨fun row hrow => ?_, (List.pairwise_append.1 h.apart).2.1⟩
    colon := ?colon
    begun := ?begun
    ended := fun row hrow => (h.ended row hrow).more lexeme }
  case held =>
    intro byte l hat hl
    rcases hat.of_append with hat | ⟨rfl, rfl⟩
    · obtain ⟨row, hrow, hholds⟩ := h.held byte l hat hl
      rcases hready.rows row hrow with hrow | rfl
      · exact ⟨row, List.mem_cons_of_mem _ hrow, hholds⟩
      · exact ⟨line'.close, List.mem_cons_self, Nat.le_trans (Nat.le_of_eq hstart) hholds.1,
          Nat.le_trans hholds.2 hgrown⟩
    · refine ⟨line'.close, List.mem_cons_self, ?_, Nat.le_of_eq (OpenLine.add_code hadd hl).symm⟩
      exact Nat.le_trans (Nat.le_of_eq hstart) (Nat.le_trans hready.ordered hready.le)
  case colon =>
    intro row hrow byte hbyte
    rcases List.mem_cons.1 hrow with rfl | hrow
    · rcases OpenLine.add_colon hadd hbyte with hbyte | ⟨hbrackets, hk, rfl⟩
      · exact (hready.colon byte hbyte).more lexeme
      · refine ⟨lexemes, lexeme, [], rfl, rfl, hk, isPaired_of_reached hr ?_⟩
        rw [← hready.shapes, OpenLine.shapes, hbrackets]
        rfl
    · exact (h.colon row (List.mem_append_right _ hrow) byte hbyte).more lexeme
  case begun =>
    intro opened hopened
    cases hopened
    exact hweighs
  exact Nat.lt_of_lt_of_eq (hready.apart row hrow) hstart.symm

/-- The lexeme that begins a line is code or a continuation. -/
theorem weighs_begin {indent : Nat} (hquiet : lexeme.kind ≠ .newline ∧ lexeme.kind ≠ .comment ∧
    lexeme.kind ≠ .blank) (hpos : 0 < Text.width lexeme.text)
    (hadd : (OpenLine.begin (Text.width (Lexeme.textOf lexemes)) indent).add
      (Text.width (Lexeme.textOf lexemes)) lexeme = .ok line') :
    line'.close.Weighs (lexemes ++ [lexeme]) false ∧
      (line'.start = line'.lastCode → line'.brackets = []) := by
  have hstart : line'.start = Text.width (Lexeme.textOf lexemes) := Sound.add_start hadd
  by_cases hcode : lexeme.kind.isCode = true
  · have hstop := OpenLine.add_code hadd hcode
    have hlt : line'.start < line'.lastCode := by omega
    refine ⟨.inr ⟨⟨lexemes, [], lexeme, [], rfl, hstart, by simp, hcode⟩, hlt⟩, fun he => ?_⟩
    omega
  · obtain ⟨hstop, hbrackets⟩ := OpenLine.add_rest hadd hcode
    have hk : lexeme.kind = .continuation := by
      rcases not_isCode_iff.1 hcode with (hk | hk | hk) | hk
      · exact absurd hk hquiet.2.2
      · exact absurd hk hquiet.2.1
      · exact hk
      · exact absurd hk hquiet.1
    refine ⟨.inl ⟨⟨lexemes, lexeme, [], [], by simp, hstart, hk, by simp, rfl⟩, ?_⟩,
      fun _ => hbrackets⟩
    exact hstart.trans hstop.symm

/-- A line without code stays so until it takes code. -/
theorem weighs_more (h : line.close.Weighs lexemes false ∧
      (line.start = line.lastCode → line.brackets = []))
    (hle : line.lastCode ≤ Text.width (Lexeme.textOf lexemes)) (hordered : line.start ≤ line.lastCode)
    (hopen : lexeme.kind = .newline → line.brackets.isEmpty = false)
    (hpos : 0 < Text.width lexeme.text)
    (hadd : line.add (Text.width (Lexeme.textOf lexemes)) lexeme = .ok line') :
    line'.close.Weighs (lexemes ++ [lexeme]) false ∧
      (line'.start = line'.lastCode → line'.brackets = []) := by
  obtain ⟨hweighs, hempty⟩ := h
  have hstart : line'.start = line.start := Sound.add_start hadd
  by_cases hcode : lexeme.kind.isCode = true
  · have hstop := OpenLine.add_code hadd hcode
    have hlt : line'.start < line'.lastCode := by omega
    refine ⟨.inr ⟨?_, hlt⟩, fun he => absurd he (Nat.ne_of_lt hlt)⟩
    rcases hweighs with ⟨⟨before, first, idle, closing, rfl, hbefore, hfirst, hidle, hnil⟩, -⟩ |
      ⟨hfilled, -⟩
    · obtain rfl : closing = [] := hnil
      refine ⟨before, first :: idle, lexeme, [], by simp, hstart.trans hbefore, ?_, hcode⟩
      exact List.forall_mem_cons.2 ⟨.inr (.inr hfirst), hidle⟩
    · exact (hfilled.more lexeme).of_start hstart
  · obtain ⟨hstop, hbrackets⟩ := OpenLine.add_rest hadd hcode
    refine ⟨?_, fun he => hbrackets.trans (hempty (by omega))⟩
    rcases hweighs with ⟨⟨before, first, idle, closing, rfl, hbefore, hfirst, hidle, hnil⟩, he⟩ |
      ⟨hfilled, hlt⟩
    · obtain rfl : closing = [] := hnil
      have hl : IsIdle lexeme := (not_isCode_iff.1 hcode).resolve_right fun hk => by
        have := hopen hk
        rw [hempty he] at this
        cases this
      refine .inl ⟨⟨before, first, idle ++ [lexeme], [], by simp, hstart.trans hbefore, hfirst, ?_,
        rfl⟩, ?_⟩
      · exact List.forall_mem_append.2 ⟨hidle, List.forall_mem_singleton.2 hl⟩
      · exact hstart.trans (he.trans hstop.symm)
    · refine .inr ⟨(hfilled.more lexeme).of_start hstart, ?_⟩
      have : line.start < line.lastCode := hlt
      show line'.start < line'.lastCode
      omega

/-- **Every lexeme keeps what holds of the rows**. -/
theorem next {c : Char} {r : Text} (h : s.Divides lexemes) (hr : Reached source lexemes (c :: r) s)
    (hfound : rule.front c r = .found lexeme rest)
    (hs : s.step (Text.width (Lexeme.textOf lexemes)) lexeme = .ok s') :
    s'.Divides (lexemes ++ [lexeme]) := by
  have hpos : 0 < Text.width lexeme.text :=
    (hr.next hfound hs).divides.width_pos (List.mem_append_right _ (List.mem_singleton_self _))
  cases LineState.steps hs with
  | idle indent hnone hk =>
    have hcode : ¬ lexeme.kind.isCode = true := by
      rcases hk with ⟨hk, -⟩ | hk | hk <;> exact hk ▸ Bool.false_ne_true
    refine h.pass hcode ?_ rfl fun row hrow => (h.ended row hrow).more lexeme
    rw [rows, rows, hnone]
  | begin line' hnone hnewline hcomment hblank hadd =>
    exact h.take hr (.of_begin hr hnone) hadd
      (weighs_begin ⟨hnewline, hcomment, hblank⟩ hpos hadd)
  | more line line' hline hopen hadd =>
    have hready := Ready.of_begun hr h hline
    exact h.take hr hready hadd
      (weighs_more (h.begun line hline) hready.le hready.ordered hopen hpos hadd)
  | close line hline hk hempty =>
    refine h.pass (hk ▸ Bool.false_ne_true) ?_ rfl fun row hrow => ?_
    · rw [rows, rows, hline]
      rfl
    · rcases List.mem_cons.1 hrow with rfl | hrow
      · exact (h.begun line hline).1.close hk
      · exact (h.ended row hrow).more lexeme

theorem of_reached (h : Reached source lexemes rest s) : s.Divides lexemes :=
  h.induct (I := fun lexemes _ s => s.Divides lexemes) .initial
    (fun _ _ _ _ _ _ _ hr hI hf hs => hI.next hr hf hs)

theorem weighs (h : s.Divides lexemes) : ∀ row ∈ s.rows, ∃ ended, row.Weighs lexemes ended := by
  intro row hrow
  rcases List.mem_append.1 hrow with hrow | hrow
  · obtain ⟨line, hline, rfl⟩ := Option.map_eq_some_iff.1 (Option.mem_toList.1 hrow)
    exact ⟨false, (h.begun line hline).1⟩
  · exact ⟨true, h.ended row hrow⟩

end Divides

end LineState

/-! ## Pairs of brackets -/

/-- What stands before a place inside a pair of brackets is not paired. -/
theorem not_isPaired_inside {before inner more : List (Lexeme Kind)} {opener : Lexeme Kind}
    {c : Char} (hopener : rule.Finds opener) (hk : opener.kind = .opener c)
    (hinner : IsPaired ((inner ++ more).flatMap bracketsOf)) :
    ¬ IsPaired ((before ++ [opener] ++ inner).flatMap bracketsOf) := by
  intro hpaired
  have hopens : bracketsOf opener = [⟨shapeOf c, true⟩] := by rw [bracketsOf_found hopener, hk]
  rw [IsPaired, Text.nested_iff_pairOff, List.append_assoc, List.flatMap_append,
    Text.pairOff_append] at hpaired
  obtain ⟨open', -, hpaired⟩ := Option.bind_eq_some_iff.1 hpaired
  rw [List.singleton_append, List.flatMap_cons, hopens, List.singleton_append,
    Text.pairOff] at hpaired
  rw [IsPaired, Text.nested_iff_pairOff, List.flatMap_append, Text.pairOff_append] at hinner
  obtain ⟨left, hleft, -⟩ := Option.bind_eq_some_iff.1 hinner
  -- the bracket stays open below whatever the inner ones leave open
  have hbelow := Text.pairOff_below hleft (shapeOf c :: open')
  have := Option.some.inj (hbelow.symm.trans hpaired)
  simp at this

/-- Where the brackets before a place are paired, the place is not between two paired brackets. -/
theorem not_between_pair (hdivides : rule.Divides source lexemes rest)
    {before inner after start behind : List (Lexeme Kind)} {opener closer : Lexeme Kind} {c : Char}
    (he : lexemes = before ++ opener :: (inner ++ closer :: after)) (hopener : opener.kind = .opener c)
    (hinner : IsPaired (inner.flatMap bracketsOf)) (hs : lexemes = start ++ behind)
    (hpaired : IsPaired (start.flatMap bracketsOf))
    (hle : Text.width (Lexeme.textOf (before ++ [opener])) ≤ Text.width (Lexeme.textOf start)) :
    ¬ Text.width (Lexeme.textOf start) ≤ Text.width (Lexeme.textOf (before ++ opener :: inner)) := by
  intro hbefore
  have hpos : ∀ l ∈ lexemes, 0 < Text.width l.text := fun l hl => hdivides.width_pos hl
  have hopened : before ++ [opener] ++ (inner ++ closer :: after) = start ++ behind := by
    rw [← hs, he]
    simp
  have hclosed : start ++ behind = (before ++ opener :: inner) ++ closer :: after := by
    rw [← hs, he]
    simp
  obtain ⟨inner₁, rfl⟩ := Lexeme.append_of_width_le hopened
    (fun l hl => hpos l (by rw [hs, ← hopened]; exact List.mem_append_left _ hl)) hle
  obtain ⟨inner₂, hinner₂⟩ := Lexeme.append_of_width_le hclosed
    (fun l hl => hpos l (hs ▸ List.mem_append_left _ hl)) hbefore
  obtain rfl : inner = inner₁ ++ inner₂ := by
    simpa using hinner₂
  exact not_isPaired_inside (hdivides.found_of_mem (by rw [he]; simp)) hopener hinner hpaired

/-- The lines of a text, each of which starts where the brackets before it are paired, do not part a
pair of brackets. -/
theorem exists_holds_pair {lines : List LogicalLine} (hdivides : rule.Divides source lexemes rest)
    (hapart : lines.Pairwise fun l m => l.stop < m.start)
    (hheld : ∀ byte l, Lexeme.At lexemes byte l → l.kind.isCode = true →
      ∃ row ∈ lines, row.Holds byte (byte + Text.width l.text))
    (hstarts : ∀ row ∈ lines, ∃ before after, lexemes = before ++ after ∧
      row.start = Text.width (Lexeme.textOf before) ∧ IsPaired (before.flatMap bracketsOf))
    {before inner after : List (Lexeme Kind)} {opener closer : Lexeme Kind} {c d : Char}
    (he : lexemes = before ++ opener :: (inner ++ closer :: after)) (hopener : opener.kind = .opener c)
    (hcloser : closer.kind = .closer d) (hinner : IsPaired (inner.flatMap bracketsOf)) :
    ∃ row ∈ lines, row.Holds (Text.width (Lexeme.textOf before))
      (Text.width (Lexeme.textOf (before ++ opener :: (inner ++ [closer])))) := by
  have hsplit : lexemes = (before ++ opener :: inner) ++ closer :: after := by rw [he]; simp
  obtain ⟨first, hfirst, hstart⟩ := hheld _ opener ⟨before, _, he, rfl⟩ (by rw [hopener]; rfl)
  obtain ⟨last, hlast, hstop⟩ := hheld _ closer ⟨_, after, hsplit, rfl⟩ (by rw [hcloser]; rfl)
  have hwidth : Text.width (Lexeme.textOf (before ++ opener :: (inner ++ [closer]))) =
      Text.width (Lexeme.textOf (before ++ opener :: inner)) + Text.width closer.text := by
    simp [Nat.add_assoc]
  have hle : Text.width (Lexeme.textOf before) + Text.width opener.text ≤
      Text.width (Lexeme.textOf (before ++ opener :: inner)) := by
    simp
  obtain rfl : first = last := by
    refine Decidable.byContradiction fun hne => ?_
    have hsymm : Std.Symm fun l m : LogicalLine => l.stop < m.start ∨ m.stop < l.start :=
      ⟨fun _ _ h => h.symm⟩
    have heither : lines.Pairwise fun l m => l.stop < m.start ∨ m.stop < l.start :=
      hapart.imp Or.inl
    rcases heither.forall hfirst hlast hne with hlt | hlt
    · -- the last line starts between the two brackets
      obtain ⟨start, behind, hs, hbyte, hpaired⟩ := hstarts last hlast
      have hopened : Text.width (Lexeme.textOf (before ++ [opener])) =
          Text.width (Lexeme.textOf before) + Text.width opener.text := by
        simp
      have := hstart.2
      exact not_between_pair hdivides he hopener hinner hs hpaired (by omega) (hbyte ▸ hstop.1)
    · have := hstart.1
      have := hstop.2
      omega
  exact ⟨first, hfirst, hstart.1, hwidth ▸ hstop.2⟩

/-! ## What stands beside the lines -/

/-- A covered line end without carriage return is a backslash and a line feed. -/
theorem isBeside_of_continuation {c : Char} {r : Text} (h : front c r = .found lexeme rest)
    (hk : lexeme.kind = .continuation) (hreturn : '\r' ∉ lexeme.text) : IsBeside lexeme.text := by
  cases front_eq_found_iff.1 h with
  | continuation hc hend =>
    rw [hc] at hreturn ⊢
    cases r with
    | nil => cases hend
    | cons d r =>
      by_cases hd : d = '\n'
      · rw [hd]
        exact .covered
      · have hfirst : (throughNewline (d :: r)).1 = d :: (throughNewline r).1 := by
          rw [throughNewline]
          exact hd
        have hreturned : d = '\r' := by
          simpa [startsLineEnd, Text.isLineEnd, hd] using hend
        refine absurd ?_ hreturn
        rw [← hreturned]
        simp [hfirst]
  | char => exact absurd hk (Kind.ofChar_plain c).2.1
  | _ => cases hk

/-- What is no code is beside it, where no carriage return stands in a covered line end. -/
theorem isBeside_of_found {c : Char} {r : Text} (h : front c r = .found lexeme rest)
    (hcode : ¬ lexeme.kind.isCode = true) (hreturn : '\r' ∉ lexeme.text) : IsBeside lexeme.text := by
  rcases not_isCode_iff.1 hcode with (hk | hk | hk) | hk
  · rcases front_cases h with hc | ⟨rfl, -⟩
    · simp [hk] at hc
    · exact .blank (isPlainBlank_of_ofChar hk)
  · obtain ⟨-, hcomment, -⟩ := comment_of_front h hk
    have hline := oneLine_of_front h (.inr hk)
    rw [hcomment] at hline ⊢
    exact .comment fun hmem => hline (List.mem_cons_of_mem _ hmem)
  · exact isBeside_of_continuation h hk hreturn
  · rw [(eq_lineEnd h hk).2.1]
    exact .blank rfl

/-- **The logical lines part the code of a text**. They stand one behind the other, are empty exactly
if they are without code, hold their first colon, every string and every pair of brackets, and leave
out nothing but blanks, comments and covered line ends. -/
theorem logicalLines_partition (hreturn : '\r' ∉ source) {lines : List LogicalLine}
    (h : logicalLines source = .ok lines) :
    Partitions source (rule.lex source).lexemes lines := by
  obtain ⟨lexemes, t, ht, hstand, -⟩ := logicalLines_stand h
  obtain ⟨s, hrun, hfinish⟩ := bind_eq_ok.1 h
  have hr : Reached source (rule.lex source).lexemes [] s := .of_run hrun
  obtain rfl : (rule.lex source).lexemes = lexemes := by
    rw [Rule.lex, ht.divides.lexFrom_eq]
  generalize (rule.lex source).lexemes = lexemes at *
  have hpos : ∀ l ∈ lexemes, 0 < Text.width l.text := fun l hl => hr.divides.width_pos hl
  obtain ⟨rfl, -⟩ := LineState.rows_of_finish hfinish
  have hdivides := LineState.Divides.of_reached hr
  have hweighs : ∀ line ∈ s.rows.reverse, ∃ ended, line.Weighs lexemes ended := fun line hline =>
    hdivides.weighs line (List.mem_reverse.1 hline)
  have hheld : ∀ byte l, Lexeme.At lexemes byte l → l.kind.isCode = true →
      ∃ row ∈ s.rows.reverse, row.Holds byte (byte + Text.width l.text) := by
    intro byte l hat hl
    obtain ⟨row, hrow, hholds⟩ := hdivides.held byte l hat hl
    exact ⟨row, List.mem_reverse.2 hrow, hholds⟩
  have hapart : s.rows.reverse.Pairwise fun l m => l.stop < m.start :=
    List.pairwise_reverse.2 hdivides.apart
  refine {
    ordered := ?ordered
    empty_iff := ?empty
    apart := hapart
    colon := ?colon
    lone := ?lone
    strings := fun byte literal hat hk => hheld byte literal hat (by rw [hk]; rfl)
    pairs := ?pairs
    outside := ?outside }
  case ordered =>
    intro line hline
    obtain ⟨ended, hw⟩ := hweighs line hline
    exact hw.le
  case empty =>
    intro line hline
    obtain ⟨ended, hw⟩ := hweighs line hline
    exact hw.empty_iff hpos
  case colon =>
    intro line hline byte hbyte
    obtain ⟨ended, hstands⟩ := hstand line hline
    obtain ⟨hle, hlt, -⟩ := hstands.colon byte hbyte
    exact ⟨hle, hlt, hdivides.colon line (List.mem_reverse.1 hline) byte hbyte⟩
  case lone =>
    intro line hline u hu
    obtain ⟨ended, hstands⟩ := hstand line hline
    obtain ⟨hstart, hstop, -⟩ := hstands.literal u hu
    exact Span.eq_mk_iff.2 ⟨hstart, hstop⟩
  case pairs =>
    intro before opener inner closer after c d he hopener hcloser hinner
    refine exists_holds_pair hr.divides hapart hheld (fun row hrow => ?_) he hopener hcloser hinner
    obtain ⟨ended, hstands⟩ := hstand row hrow
    obtain ⟨t, ⟨start, behind, rest, hs, hreached, hbyte⟩, hnone, -⟩ := hstands.start
    refine ⟨start, behind, hs, hbyte, LineState.isPaired_of_reached hreached ?_⟩
    rw [LineState.shapes, hnone]
    rfl
  case outside =>
    intro byte hlt hout
    have htext : source = Lexeme.textOf lexemes := by rw [hr.text, List.append_nil]
    obtain ⟨start, l, hat, hle, hbefore⟩ := Lexeme.At.exists_of_lt (htext ▸ hlt)
    refine ⟨start, l, hat, hle, hbefore, ?_⟩
    obtain ⟨before, after, he, -⟩ := id hat
    obtain ⟨c, r, rest, hfound⟩ := hr.divides.found_of_mem (by rw [he]; simp : l ∈ lexemes)
    refine isBeside_of_found hfound (fun hcode => ?_) fun hmem => hreturn ?_
    · obtain ⟨row, hrow, hholds⟩ := hheld start l hat hcode
      exact hout row hrow ⟨Nat.le_trans hholds.1 hle, Nat.lt_of_lt_of_le hbefore hholds.2⟩
    · rw [htext, he, Lexeme.textOf_append, Lexeme.textOf_cons]
      simp [hmem]

/-- A call over two physical lines with a bracket in a string and a comment, a covered line end, and
a line without code. -/
def partedText : Text :=
  "f(a['('],  # b\n  1)\nif a: \\\n  b\n\\\n".toList

/-- The line without code is the third one of `partedText`. -/
theorem logicalLines_partition_partedText : '\r' ∉ partedText ∧
    logicalLines partedText =
      .ok [⟨0, 19, 0, none, none⟩, ⟨20, 31, 0, some 24, none⟩, ⟨32, 32, 0, none, none⟩] ∧
    Partitions partedText (rule.lex partedText).lexemes
      [⟨0, 19, 0, none, none⟩, ⟨20, 31, 0, some 24, none⟩, ⟨32, 32, 0, none, none⟩] := by
  have hreturn : '\r' ∉ partedText := by decide
  have hlines : logicalLines partedText =
      .ok [⟨0, 19, 0, none, none⟩, ⟨20, 31, 0, some 24, none⟩, ⟨32, 32, 0, none, none⟩] := by
    rw [logicalLines, Rule.lex_eq_lexWithin]
    decide +kernel
  exact ⟨hreturn, hlines, logicalLines_partition hreturn hlines⟩

/-- A function whose docstring stands behind a line without code. -/
def bareText : Text :=
  "def f():\n    \\\n\n    \"\"\"Doc.\"\"\"\n    pass\n".toList

/-- A line can be empty: the second one of `bareText` is. It stands where the docstring of the
function is looked for, which is therefore not found. -/
theorem logicalLines_bareText :
    ('\r' ∉ bareText ∧ ∃ lines, logicalLines bareText = .ok lines ∧
      ∃ line ∈ lines, ¬ line.start < line.stop) ∧
    (Language.python.routines bareText).map (·.map Routine.comment) = .ok [[]] := by
  refine ⟨⟨by decide, [⟨0, 8, 0, some 7, none⟩, ⟨13, 13, 4, none, none⟩,
    ⟨20, 30, 4, none, some ⟨20, 30⟩⟩, ⟨35, 39, 4, none, none⟩], ?_, ⟨13, 13, 4, none, none⟩, by simp,
    by decide⟩, ?_⟩
  · rw [logicalLines, Rule.lex_eq_lexWithin]
    decide +kernel
  · rw [Language.routines_eq_compute]
    decide +kernel

end Indented

end Scholia.Source
