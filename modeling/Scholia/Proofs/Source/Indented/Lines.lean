import Scholia.Proofs.Except
import Scholia.Proofs.Source.Division
import Scholia.Proofs.Source.Placement
import Scholia.Source.Indented.LogicalLine
/-!
# Where logical lines come from

A logical line starts at a lexeme before which no line was under way, stops after a lexeme, and
nothing but blanks, comments and continuations stand between its stop and the line end that closes
it. Its colon and its string lie inside it, and lines follow each other without overlap.
-/

namespace Scholia.Source.Indented

open Text (IsCut)

/-- What is reached in an indented text. -/
abbrev Reached (source : Text) : List (Lexeme Kind) → Text → LineState → Prop :=
  rule.Reaches LineState.step .initial source

/-- A byte at which a lexeme starts or the last one ends, and the state there. -/
abbrev Place (source : Text) : List (Lexeme Kind) → Nat → LineState → Prop :=
  rule.Place LineState.step .initial source

/-- A lexeme that is no part of the code of a line and does not end it. -/
def IsIdle (lexeme : Lexeme Kind) : Prop :=
  lexeme.kind = .blank ∨ lexeme.kind = .comment ∨ lexeme.kind = .continuation

variable {source : Text} {lexemes : List (Lexeme Kind)}

/-- A byte at which a logical line at this indentation may start. -/
def Begins (source : Text) (lexemes : List (Lexeme Kind)) (start indent : Nat) : Prop :=
  ∃ s, Place source lexemes start s ∧ s.line = none ∧ s.indent = indent

theorem Begins.more {start indent : Nat} (h : Begins source lexemes start indent)
    (lexeme : Lexeme Kind) : Begins source (lexemes ++ [lexeme]) start indent := by
  obtain ⟨s, hp, h⟩ := h
  exact ⟨s, hp.more lexeme, h⟩

/-- The first colon of a line, inside its code. -/
def ColonFits (source : Text) (start stop : Nat) (colon : Option Nat) : Prop :=
  ∀ c, colon = some c → start ≤ c ∧ c + 1 ≤ stop ∧ IsCut source c ∧ IsCut source (c + 1)

/-- A line that has begun. -/
structure OpenLine.Stands (source : Text) (lexemes : List (Lexeme Kind)) (line : OpenLine) :
    Prop where
  start : Begins source lexemes line.start line.indent
  ordered : line.start ≤ line.lastCode
  /-- Nothing but idle lexemes follow the last code, and line ends inside brackets. -/
  trail : ∃ code idle, lexemes = code ++ idle ∧ line.lastCode = Text.width (Lexeme.textOf code) ∧
    ∀ l ∈ idle, IsIdle l ∨ l.kind = .newline ∧ line.brackets ≠ []
  colon : ColonFits source line.start line.lastCode line.colon
  literal : ∀ t, line.firstString = some t → t.start = line.start ∧ t.Fits source

/-- A line that has ended, at a line end or, if not `ended`, at the end of what has been read. -/
structure LogicalLine.Stands (source : Text) (lexemes : List (Lexeme Kind)) (ended : Bool)
    (line : LogicalLine) : Prop where
  start : Begins source lexemes line.start line.indent
  ordered : line.start ≤ line.stop
  trail : ∃ code idle closing, lexemes = code ++ (idle ++ closing) ∧
    line.stop = Text.width (Lexeme.textOf code) ∧ (∀ l ∈ idle, IsIdle l) ∧
    if ended then ∃ l more, closing = l :: more ∧ l.kind = .newline else closing = []
  colon : ColonFits source line.start line.stop line.colon
  literal : ∀ t, line.loneString = some t → t.start = line.start ∧ t.stop = line.stop ∧
    t.Fits source

theorem LogicalLine.Stands.more {line : LogicalLine} (h : line.Stands source lexemes true)
    (lexeme : Lexeme Kind) : line.Stands source (lexemes ++ [lexeme]) true := by
  obtain ⟨code, idle, closing, rfl, hstop, hidle, l, more, rfl, hl⟩ := h.trail
  refine { h with start := h.start.more lexeme, trail := ⟨code, idle, l :: (more ++ [lexeme]), ?_⟩ }
  exact ⟨by simp only [List.append_assoc, List.cons_append], hstop, hidle, l, _, rfl, hl⟩

theorem LogicalLine.Stands.stop_cut {line : LogicalLine} {ended : Bool}
    (h : line.Stands source lexemes ended) (hsource : Lexeme.textOf lexemes <+: source) :
    IsCut source line.stop := by
  obtain ⟨rest, rfl⟩ := hsource
  obtain ⟨code, idle, closing, rfl, hstop, -⟩ := h.trail
  rw [hstop, Lexeme.textOf_append, List.append_assoc]
  exact IsCut.of_append _ _

theorem LogicalLine.Stands.start_cut {line : LogicalLine} {ended : Bool}
    (h : line.Stands source lexemes ended) : IsCut source line.start := by
  obtain ⟨s, hp, -⟩ := h.start
  exact hp.isCut

theorem LogicalLine.Stands.stop_le {line : LogicalLine} {ended : Bool}
    (h : line.Stands source lexemes ended) : line.stop ≤ Text.width (Lexeme.textOf lexemes) := by
  obtain ⟨code, idle, closing, rfl, hstop, -⟩ := h.trail
  rw [hstop, Lexeme.textOf_append, Text.width_append]
  exact Nat.le_add_right _ _

/-! ## What stands at the front of a text -/

/-- What stands at the front of a text, and what follows it. -/
inductive IsFront (c : Char) (r : Text) : Lexeme Kind → Text → Prop
  /-- A comment goes to the end of its line. -/
  | comment (hc : c = '#') :
    IsFront c r ⟨.comment, c :: r.takeWhile (· != '\n')⟩ (r.dropWhile (· != '\n'))
  /-- A backslash covers the line end behind it. -/
  | continuation (hc : c = '\\') (hend : startsLineEnd r = true) :
    IsFront c r ⟨.continuation, c :: (throughNewline r).1⟩ (throughNewline r).2
  /-- Three quotes begin a string that goes to the next three. -/
  | tripleQuoted {body inner rest : Text} (hc : c = '"' ∨ c = '\'') (hr : r = [c, c] ++ body)
    (hinner : tripleQuoted c body = some (inner, rest)) :
    IsFront c r ⟨.string, [c, c, c] ++ inner⟩ rest
  | quoted {inner rest : Text} (hc : c = '"' ∨ c = '\'') (hr : ¬ [c, c] <+: r)
    (hinner : quoted c r = some (inner, rest)) : IsFront c r ⟨.string, [c] ++ inner⟩ rest
  /-- Every other character stands for itself. -/
  | char (hcomment : c ≠ '#') (hback : c = '\\' → startsLineEnd r = false)
    (hquote : ¬ (c = '"' ∨ c = '\'')) : IsFront c r ⟨Kind.ofChar c, [c]⟩ r

/-- A character that is a lexeme of its own is neither a comment nor a covered line end nor a
string. -/
theorem Kind.ofChar_plain (c : Char) :
    ofChar c ≠ .comment ∧ ofChar c ≠ .continuation ∧ ofChar c ≠ .string := by
  unfold ofChar
  repeat' split
  all_goals simp

section Front

variable {c : Char} {r rest : Text} {lexeme : Lexeme Kind}

/-- **The rule finds what stands at the front of a text**. -/
theorem front_eq_found_iff : front c r = .found lexeme rest ↔ IsFront c r lexeme rest := by
  constructor
  · intro h
    unfold front at h
    split at h
    · next hc =>
      cases h
      exact .comment hc
    split at h
    · next hback =>
      cases h
      rw [Bool.and_eq_true, decide_eq_true_eq] at hback
      exact .continuation hback.1 hback.2
    split at h
    · next hquote =>
      have hc : c = '"' ∨ c = '\'' := by simpa using hquote
      split at h
      · next body hbody =>
        obtain ⟨inner, hinner, rfl⟩ := string_eq_found h
        exact .tripleQuoted hc (Text.dropLead?_eq_some_iff.1 hbody) hinner
      · next hnone =>
        obtain ⟨inner, hinner, rfl⟩ := string_eq_found h
        refine .quoted hc ?_ hinner
        rintro ⟨body, hbody⟩
        rw [Text.dropLead?_eq_some_iff.2 hbody.symm] at hnone
        cases hnone
    · next hcomment hback hquote =>
      cases h
      refine .char hcomment (fun hc => ?_) (by simpa using hquote)
      simpa [hc] using hback
  · have hplain : (c = '"' ∨ c = '\'') → c ≠ '#' ∧ c ≠ '\\' := by
      rintro (rfl | rfl) <;> decide
    intro h
    cases h with
    | comment hc => rw [front, if_pos hc]
    | continuation hc hend =>
      subst hc
      rw [front, if_neg (by decide), if_pos (by simp [hend])]
    | tripleQuoted hc hr hinner =>
      rw [front, if_neg (hplain hc).1, if_neg (by simp [(hplain hc).2]), if_pos (by simpa using hc),
        Text.dropLead?_eq_some_iff.2 hr]
      simp only [string, hinner]
    | quoted hc hr hinner =>
      have hnone : Text.dropLead? [c, c] r = none :=
        Option.eq_none_iff_forall_ne_some.2 fun body he =>
          hr ⟨body, (Text.dropLead?_eq_some_iff.1 he).symm⟩
      rw [front, if_neg (hplain hc).1, if_neg (by simp [(hplain hc).2]), if_pos (by simpa using hc),
        hnone]
      simp only [string, hinner]
    | char hcomment hback hquote =>
      rw [front, if_neg hcomment, if_neg, if_neg (by simpa using hquote)]
      rw [Bool.and_eq_true, decide_eq_true_eq]
      rintro ⟨hc, hend⟩
      rw [hback hc] at hend
      cases hend

/-- A lexeme is a comment, a continuation, a string, or one character. -/
theorem front_cases (h : front c r = .found lexeme rest) :
    (lexeme.kind = .comment ∨ lexeme.kind = .continuation ∨ lexeme.kind = .string) ∨
      lexeme = ⟨Kind.ofChar c, [c]⟩ ∧ rest = r := by
  cases front_eq_found_iff.1 h with
  | comment => exact .inl (.inl rfl)
  | continuation => exact .inl (.inr (.inl rfl))
  | tripleQuoted => exact .inl (.inr (.inr rfl))
  | quoted => exact .inl (.inr (.inr rfl))
  | char => exact .inr ⟨rfl, rfl⟩

end Front

theorem eq_of_ofChar_colon {c : Char} (h : Kind.ofChar c = .colon) : c = ':' := by
  unfold Kind.ofChar at h
  repeat' split at h
  all_goals first | assumption | cases h

theorem isPlainBlank_of_ofChar {c : Char} (h : Kind.ofChar c = .blank) :
    Text.isPlainBlank c = true := by
  unfold Kind.ofChar at h
  repeat' split at h
  all_goals first | assumption | cases h

/-- A colon is one byte wide. -/
theorem width_colon {c : Char} {r : Text} {lexeme : Lexeme Kind} {rest : Text}
    (h : front c r = .found lexeme rest) (hk : lexeme.kind = .colon) :
    Text.width lexeme.text = 1 := by
  rcases front_cases h with hc | ⟨rfl, -⟩
  · simp [hk] at hc
  · rw [eq_of_ofChar_colon hk]
    rfl

/-! ## What every lexeme keeps -/

namespace OpenLine.Stands

variable {line line' : OpenLine} {lexeme : Lexeme Kind}

theorem begin {start indent : Nat} (h : Begins source lexemes start indent)
    (hstart : start = Text.width (Lexeme.textOf lexemes)) :
    (OpenLine.begin start indent).Stands source lexemes where
  start := h
  ordered := Nat.le_refl _
  trail := ⟨lexemes, [], (List.append_nil _).symm, hstart, by simp⟩
  colon := fun _ hc => by cases hc
  literal := fun _ ht => by cases ht

theorem lastCode_le (h : line.Stands source lexemes) :
    line.lastCode ≤ Text.width (Lexeme.textOf lexemes) := by
  obtain ⟨code, idle, rfl, hcode, -⟩ := h.trail
  rw [hcode, Lexeme.textOf_append, Text.width_append]
  exact Nat.le_add_right _ _

/-- A lexeme that is no code leaves the line as it is. -/
theorem pass (h : line.Stands source lexemes)
    (hl : IsIdle lexeme ∨ lexeme.kind = .newline ∧ line.brackets ≠ []) (fresh : Bool) :
    OpenLine.Stands source (lexemes ++ [lexeme]) { line with fresh } := by
  obtain ⟨code, idle, rfl, hcode, hidle⟩ := h.trail
  refine { start := h.start.more lexeme, ordered := h.ordered, colon := h.colon,
           literal := h.literal, trail := ⟨code, idle ++ [lexeme], List.append_assoc _ _ _, hcode, ?_⟩ }
  intro l hmem
  rcases List.mem_append.1 hmem with hmem | hmem
  · exact hidle l hmem
  · exact List.mem_singleton.1 hmem ▸ hl

/-- Code brings the end of the line to the end of what has been read. -/
theorem code (h : line.Stands source lexemes) (fresh : Bool) (brackets : List (Char × Nat))
    {colon : Option Nat} {firstString : Option Span} {stop : Nat}
    (hstop : stop = Text.width (Lexeme.textOf (lexemes ++ [lexeme])))
    (hcolon : ColonFits source line.start stop colon)
    (hliteral : ∀ t, firstString = some t → t.start = line.start ∧ t.Fits source) :
    OpenLine.Stands source (lexemes ++ [lexeme])
      { line with fresh, brackets, colon, firstString, lastCode := stop } where
  start := h.start.more lexeme
  ordered := by
    have := h.lastCode_le
    have := h.ordered
    simp only [hstop, Lexeme.textOf_append, Text.width_append]
    omega
  trail := ⟨lexemes ++ [lexeme], [], (List.append_nil _).symm, hstop, by simp⟩
  colon := hcolon
  literal := hliteral

/-- **A line that takes a lexeme stands where it stood**. -/
theorem add {s s' : LineState} {c : Char} {r rest : Text} (h : line.Stands source lexemes)
    (hr : Reached source lexemes (c :: r) s) (hf : rule.front c r = .found lexeme rest)
    (hr' : Reached source (lexemes ++ [lexeme]) rest s')
    (hopen : lexeme.kind = .newline → line.brackets ≠ [])
    (ha : line.add (Text.width (Lexeme.textOf lexemes)) lexeme = .ok line') :
    line'.Stands source (lexemes ++ [lexeme]) := by
  have hcut := hr'.isCut
  have hstop : Text.width (Lexeme.textOf lexemes) + Text.width lexeme.text =
      Text.width (Lexeme.textOf (lexemes ++ [lexeme])) := by simp
  have hlast := h.lastCode_le
  have hcolon : ColonFits source line.start
      (Text.width (Lexeme.textOf lexemes) + Text.width lexeme.text) line.colon := by
    intro b hb
    obtain ⟨h₁, h₂, h₃⟩ := h.colon b hb
    exact ⟨h₁, by omega, h₃⟩
  cases hk : lexeme.kind with
  | newline =>
    simp only [OpenLine.add, hk] at ha
    cases ha
    exact h.pass (.inr ⟨hk, hopen hk⟩) false
  | continuation =>
    simp only [OpenLine.add, hk] at ha
    cases ha
    exact h.pass (.inl (.inr (.inr hk))) false
  | comment =>
    simp only [OpenLine.add, hk] at ha
    cases ha
    exact h.pass (.inl (.inr (.inl hk))) false
  | blank =>
    simp only [OpenLine.add, hk] at ha
    cases ha
    exact h.pass (.inl (.inl hk)) false
  | string =>
    simp only [OpenLine.add, hk] at ha
    cases ha
    refine h.code false line.brackets hstop hcolon fun t ht => ?_
    split at ht
    · cases ht
      have := h.ordered
      refine ⟨rfl, ?_, ?_, hstop ▸ hcut⟩
      · show line.start ≤ Text.width (Lexeme.textOf lexemes) + Text.width lexeme.text
        omega
      · obtain ⟨s₀, hp, -⟩ := h.start
        exact hp.isCut
    · exact h.literal t ht
  | opener b =>
    simp only [OpenLine.add, hk] at ha
    cases ha
    exact h.code false _ hstop hcolon h.literal
  | closer b =>
    simp only [OpenLine.add, hk] at ha
    split at ha
    · cases ha
    · cases ha
      exact h.code false _ hstop hcolon h.literal
  | colon =>
    simp only [OpenLine.add, hk] at ha
    cases ha
    refine h.code false line.brackets hstop (fun b hb => ?_) h.literal
    have hone := width_colon hf hk
    have hhere : line.start ≤ Text.width (Lexeme.textOf lexemes) ∧
        Text.width (Lexeme.textOf lexemes) + 1 ≤
          Text.width (Lexeme.textOf lexemes) + Text.width lexeme.text ∧
        IsCut source (Text.width (Lexeme.textOf lexemes)) ∧
        IsCut source (Text.width (Lexeme.textOf lexemes) + 1) := by
      have := h.ordered
      refine ⟨by omega, by omega, hr.isCut, ?_⟩
      rw [← hone, hstop]
      exact hcut
    split at hb
    · cases hc : line.colon with
      | none =>
        rw [hc] at hb
        cases hb
        exact hhere
      | some b' =>
        rw [hc] at hb
        cases hb
        exact hcolon _ hc
    · exact hcolon b hb
  | code c' =>
    simp only [OpenLine.add, hk] at ha
    cases ha
    exact h.code _ line.brackets hstop hcolon h.literal

/-- A line outside brackets ends where its last code does. -/
theorem close (h : line.Stands source lexemes) (hb : line.brackets = [])
    (closing : List (Lexeme Kind)) (ended : Bool)
    (hclosing : if ended then ∃ l more, closing = l :: more ∧ l.kind = .newline else closing = [])
    (hstart : Begins source (lexemes ++ closing) line.start line.indent) :
    line.close.Stands source (lexemes ++ closing) ended where
  start := hstart
  ordered := h.ordered
  trail := by
    obtain ⟨code, idle, rfl, hcode, hidle⟩ := h.trail
    refine ⟨code, idle, closing, List.append_assoc _ _ _, hcode, fun l hl => ?_, hclosing⟩
    rcases hidle l hl with hl | ⟨-, hne⟩
    · exact hl
    · exact absurd hb hne
  colon := h.colon
  literal := fun t ht => by
    obtain ⟨hfirst, hstop⟩ := Option.filter_eq_some_iff.1 ht
    obtain ⟨hs, hf⟩ := h.literal t hfirst
    exact ⟨hs, beq_iff_eq.1 hstop, hf⟩

end OpenLine.Stands

/-- What holds of the lines when some lexemes have been read. -/
structure LineState.Sound (source : Text) (lexemes : List (Lexeme Kind)) (s : LineState) :
    Prop where
  line : ∀ line, s.line = some line → line.Stands source lexemes ∧ ∀ l ∈ s.lines, l.stop ≤ line.start
  lines : ∀ l ∈ s.lines, l.Stands source lexemes true
  /-- The lines stand in the order in which they end, the last one first. -/
  apart : s.lines.Pairwise fun l m => m.stop ≤ l.start

namespace LineState.Sound

variable {s s' : LineState}

theorem initial : LineState.Sound source [] .initial where
  line := fun _ h => by cases h
  lines := fun _ h => by cases h
  apart := .nil

/-- A line that has begun, or gone on, takes the place of the one before it. -/
theorem withLine {line : OpenLine} {lexeme : Lexeme Kind} (h : s.Sound source lexemes)
    (hl : line.Stands source (lexemes ++ [lexeme])) (hlines : ∀ l ∈ s.lines, l.stop ≤ line.start) :
    LineState.Sound source (lexemes ++ [lexeme]) { s with line := some line } where
  line := fun _ he => by
    cases he
    exact ⟨hl, hlines⟩
  lines := fun l hmem => (h.lines l hmem).more lexeme
  apart := h.apart

/-- Outside lines only the indentation changes. -/
theorem withIndent {lexeme : Lexeme Kind} (h : s.Sound source lexemes) (hnone : s.line = none)
    (indent : Nat) : LineState.Sound source (lexemes ++ [lexeme]) { s with indent } where
  line := fun line he => by
    rw [hnone] at he
    cases he
  lines := fun l hmem => (h.lines l hmem).more lexeme
  apart := h.apart

theorem add_start {line line' : OpenLine} {offset : Nat} {lexeme : Lexeme Kind}
    (ha : line.add offset lexeme = .ok line') : line'.start = line.start := by
  unfold OpenLine.add at ha
  split at ha
  all_goals first | (cases ha; rfl) | skip
  split at ha
  · cases ha
  · cases ha
    rfl

/-- The lexeme that begins a line. -/
theorem startLine {c : Char} {r rest : Text} {lexeme : Lexeme Kind}
    (h : s.Sound source lexemes) (hr : Reached source lexemes (c :: r) s)
    (hf : rule.front c r = .found lexeme rest) (hnone : s.line = none)
    (hr' : Reached source (lexemes ++ [lexeme]) rest s') (hk : lexeme.kind ≠ .newline)
    {line : OpenLine} (ha : (OpenLine.begin (Text.width (Lexeme.textOf lexemes)) s.indent).add
      (Text.width (Lexeme.textOf lexemes)) lexeme = .ok line) :
    LineState.Sound source (lexemes ++ [lexeme]) { s with line := some line } := by
  have hbegin : Begins source lexemes (Text.width (Lexeme.textOf lexemes)) s.indent :=
    ⟨s, hr.place, hnone, rfl⟩
  refine h.withLine ((OpenLine.Stands.begin hbegin rfl).add hr hf hr' (fun he => absurd he hk) ha) ?_
  intro l hmem
  rw [add_start ha]
  exact (h.lines l hmem).stop_le

/-- **Every lexeme keeps what holds of the lines**. -/
theorem next {c : Char} {r rest : Text} {lexeme : Lexeme Kind} (h : s.Sound source lexemes)
    (hr : Reached source lexemes (c :: r) s) (hf : rule.front c r = .found lexeme rest)
    (hs : s.step (Text.width (Lexeme.textOf lexemes)) lexeme = .ok s') :
    s'.Sound source (lexemes ++ [lexeme]) := by
  have hr' := hr.next hf hs
  unfold LineState.step at hs
  split at hs
  · next hn hk =>
    cases hs
    exact h.withIndent hn 0
  · next hn hk =>
    cases hs
    exact h.withIndent hn 0
  · next hn hk =>
    cases hs
    exact h.withIndent hn _
  · next hn hk _ _ =>
    obtain ⟨line, ha, hs⟩ := bind_eq_ok.1 hs
    cases hs
    exact h.startLine hr hf hn hr' hk ha
  · next line hl hk =>
    obtain ⟨hstands, hbefore⟩ := h.line line hl
    split at hs
    · next hb =>
      cases hs
      have hb : line.brackets = [] := List.isEmpty_iff.1 hb
      refine ⟨fun _ he => (by cases he), fun l hmem => ?_, List.pairwise_cons.2 ⟨hbefore, h.apart⟩⟩
      rcases List.mem_cons.1 hmem with rfl | hmem
      · exact hstands.close hb [lexeme] true ⟨lexeme, [], rfl, hk⟩ (hstands.start.more lexeme)
      · exact (h.lines l hmem).more lexeme
    · next hb =>
      obtain ⟨line', ha, hs⟩ := bind_eq_ok.1 hs
      cases hs
      have hopen : line.brackets ≠ [] := fun he => hb (by rw [he]; rfl)
      refine h.withLine (hstands.add hr hf hr' (fun _ => hopen) ha) ?_
      rw [add_start ha]
      exact hbefore
  · next line hl hk =>
    obtain ⟨hstands, hbefore⟩ := h.line line hl
    obtain ⟨line', ha, hs⟩ := bind_eq_ok.1 hs
    cases hs
    refine h.withLine (hstands.add hr hf hr' (fun he => absurd he hk) ha) ?_
    rw [add_start ha]
    exact hbefore

theorem of_reached {rest : Text} (h : Reached source lexemes rest s) : s.Sound source lexemes :=
  h.induct (I := fun lexemes _ s => s.Sound source lexemes) .initial
    (fun _ _ _ _ _ _ _ hr hI hf hs => hI.next hr hf hs)

end LineState.Sound

/-- **The logical lines of a text stand in it, one after the other**. -/
theorem logicalLines_stand {lines : List LogicalLine} (h : logicalLines source = .ok lines) :
    ∃ lexemes s, Reached source lexemes [] s ∧
      (∀ l ∈ lines, ∃ ended, l.Stands source lexemes ended) ∧
      lines.Pairwise fun l m => l.stop ≤ m.start := by
  obtain ⟨s, hrun, hfinish⟩ := bind_eq_ok.1 h
  have hr : Reached source _ [] s := .of_run hrun
  have hsound := LineState.Sound.of_reached hr
  refine ⟨_, s, hr, ?_⟩
  unfold LineState.finish at hfinish
  split at hfinish
  · cases hfinish
    refine ⟨fun l hmem => ⟨true, hsound.lines l (List.mem_reverse.1 hmem)⟩, ?_⟩
    exact List.pairwise_reverse.2 hsound.apart
  · next line hl =>
    obtain ⟨hstands, hbefore⟩ := hsound.line line hl
    split at hfinish
    · next hb =>
      cases hfinish
      refine ⟨fun l hmem => ?_, List.pairwise_reverse.2 (List.pairwise_cons.2 ⟨hbefore, hsound.apart⟩)⟩
      rcases List.mem_cons.1 (List.mem_reverse.1 hmem) with rfl | hmem
      · refine ⟨false, ?_⟩
        have := hstands.close hb [] false rfl
        rw [List.append_nil] at this
        exact this hstands.start
      · exact ⟨true, hsound.lines l hmem⟩
    · cases hfinish

end Scholia.Source.Indented
