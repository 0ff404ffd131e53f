import Scholia.Proofs.Source.Indented.Lines
import Scholia.Proofs.Source.Lexemes
import Scholia.Proofs.Source.Loss
/-!
# The loss of a blank and logical lines

The logical lines of a text that has lost a blank before a line feed are those of the whole text,
with their places moved. Comments, triple-quoted strings and continuations run over the blank.

One thing has to be asked of the text: that no backslash stands before a lost space or tab. It would
then stand before the line feed and continue the line.
-/

namespace Scholia.Source.Indented

open Layout (Loss IsStart IsStop IsEnd)
open Text (isBlank isLayout isIndent)

variable {e : Loss}

/-! ## The front of a text -/

theorem front_layout {c : Char} (hc : isLayout c = true) (r : Text) :
    front c r = .found ⟨if c = '\n' then .newline else .blank, [c]⟩ r := by
  rcases Text.isLayout_iff.1 hc with rfl | rfl | rfl | rfl <;> rfl

theorem not_mem_quotes {q c : Char} (hq : isLayout q = false) (hc : isLayout c = true) :
    c ∉ [q, q, q] := fun hmem =>
  absurd (by simpa using hmem) (Text.ne_of_isLayout hc hq)

/-- A layout character is part of the string. -/
theorem tripleQuoted_layout {q c : Char} (hq : isLayout q = false) (hc : isLayout c = true)
    (r : Text) :
    tripleQuoted q (c :: r) = (tripleQuoted q r).map fun (inner, rest) => (c :: inner, rest) := by
  have hlead := Text.dropLead?_append (not_mem_quotes hq hc) [] r
  rw [List.nil_append] at hlead
  rw [tripleQuoted_cons (Text.ne_of_isLayout hc (by decide)), hlead]
  rfl

/-- A triple-quoted string may run over the blank. -/
theorem scans_tripleQuoted {q : Char} (hq : isLayout q = false) : e.Scans (tripleQuoted q) := by
  have hplain {c : Char} (hc : isLayout c = true) := tripleQuoted_layout hq hc
  have hnewline : isLayout '\n' = true := by decide
  intro u hu
  clear hu
  induction hlen : u.length using Nat.strongRecOn generalizing u with
  | ind n ih =>
    cases u with
    | nil =>
      intro inner r h
      rw [List.nil_append, hplain e.layout, Loss.rest, hplain hnewline] at h
      obtain ⟨⟨i, r'⟩, hi, he⟩ := Option.map_eq_some_iff.1 h
      obtain ⟨⟨j, r''⟩, hj, he'⟩ := Option.map_eq_some_iff.1 hi
      cases he'
      cases he
      refine .inr ⟨'\n' :: j, rfl, ?_, ?_⟩
      · rw [Loss.rest, List.cons_append, eq_of_tripleQuoted hj]
      · rw [List.nil_append, Loss.rest, hplain hnewline, hj]
        rfl
    | cons c u =>
      by_cases hc : c = '\\'
      · subst hc
        cases u with
        | nil =>
          -- the backslash covers the blank, and then the line feed
          intro inner r h
          rw [List.singleton_append, tripleQuoted, Loss.rest, hplain hnewline] at h
          obtain ⟨⟨i, r'⟩, hi, he⟩ := Option.map_eq_some_iff.1 h
          obtain ⟨⟨j, r''⟩, hj, he'⟩ := Option.map_eq_some_iff.1 hi
          cases he'
          cases he
          refine .inr ⟨'\n' :: j, rfl, ?_, ?_⟩
          · rw [Loss.rest, List.cons_append, eq_of_tripleQuoted hj]
          · rw [List.singleton_append, Loss.rest, tripleQuoted, hj]
            rfl
        | cons d u =>
          exact (ih u.length (by simp at hlen; omega) u rfl).take ['\\', d]
            fun w _ => by simp [tripleQuoted]
      · have hlead : ∀ w, w = u ++ e.blank :: e.rest ∨ w = u ++ e.rest →
            Text.dropLead? [q, q, q] (c :: w) =
              (Text.dropLead? [q, q, q] (c :: u)).map (· ++ w.drop u.length) := by
          rintro w (rfl | rfl)
          · rw [List.drop_left]
            exact Text.dropLead?_append (not_mem_quotes hq e.layout) (c :: u) e.rest
          · rw [List.drop_left]
            exact Text.dropLead?_append (not_mem_quotes hq hnewline) (c :: u) e.behind
        cases hl : Text.dropLead? [q, q, q] (c :: u) with
        | some u' =>
          have hu : c :: u = [q, q, q] ++ u' := Text.dropLead?_eq_some_iff.1 hl
          intro inner r h
          rw [List.cons_append, tripleQuoted_cons hc, hlead _ (.inl rfl), hl] at h
          cases h
          refine .inl ⟨u', hu, by rw [List.drop_left], ?_⟩
          rw [List.cons_append, tripleQuoted_cons hc, hlead _ (.inr rfl), hl, List.drop_left]
          rfl
        | none =>
          refine (ih u.length (by simp at hlen; omega) u rfl).take [c] fun w hw => ?_
          rw [List.singleton_append, tripleQuoted_cons hc, hlead w hw, hl]
          rfl

theorem throughNewline_line {u : Text} (hu : '\n' ∉ u) (w : Text) :
    throughNewline (u ++ '\n' :: w) = (u ++ ['\n'], w) := by
  induction u with
  | nil => rfl
  | cons c u ih =>
    rw [List.mem_cons, not_or] at hu
    rw [List.cons_append, throughNewline, ih hu.2]
    · rfl
    · exact fun he => hu.1 he.symm

/-- What a backslash covers up to the line feed. -/
theorem continuation_passes (hbackslash : isIndent e.blank = true → e.front.getLast? ≠ some '\\')
    {u : Text} (hu : '\\' :: u <:+ e.front) :
    startsLineEnd (u ++ e.rest) = startsLineEnd (u ++ e.blank :: e.rest) ∧
      (startsLineEnd (u ++ e.rest) = true →
        e.Found ⟨Kind.continuation, '\\' :: (throughNewline (u ++ e.blank :: e.rest)).1⟩
          (throughNewline (u ++ e.blank :: e.rest)).2
          ⟨Kind.continuation, '\\' :: (throughNewline (u ++ e.rest)).1⟩
          (throughNewline (u ++ e.rest)).2) := by
  -- an empty line is lost only behind a line end, so nothing stands between that and the blank
  have hempty : '\n' ∉ u → e.blank ≠ '\n' := by
    intro hn hx
    have hlast := Loss.getLast?_of_suffix hu (by simp)
    rw [e.emptyLine hx] at hlast
    cases u with
    | nil => simp at hlast
    | cons d u =>
      rw [List.getLast?_cons_cons] at hlast
      exact hn (List.mem_of_getLast? hlast)
  constructor
  · cases u with
    | cons d u => rfl
    | nil =>
      have hlast : e.front.getLast? = some '\\' :=
        (Loss.getLast?_of_suffix hu (by simp)).symm
      have hline : Text.isLineEnd e.blank = true := by
        have hindent : isIndent e.blank ≠ true := fun h => hbackslash h hlast
        rcases Text.isLayout_iff.1 e.layout with hb | hb | hb | hb <;> rw [hb] at hindent ⊢
        · exact absurd (by decide) hindent
        · exact absurd (by decide) hindent
        · rfl
        · rfl
      exact hline.symm
  · intro _
    by_cases hn : '\n' ∈ u
    · obtain ⟨q, v, rfl, hq⟩ : ∃ q v, u = q ++ '\n' :: v ∧ '\n' ∉ q := List.eq_append_cons_of_mem hn
      have hv : v <:+ e.front :=
        List.IsSuffix.trans ⟨'\\' :: q ++ ['\n'], by simp⟩ hu
      simp only [List.append_assoc, List.cons_append, throughNewline_line hq]
      exact .before _ hv
    · have hqx : '\n' ∉ u ++ [e.blank] := by
        rw [List.mem_append, not_or]
        exact ⟨hn, by simpa using Ne.symm (hempty hn)⟩
      have hwhole := throughNewline_line hqx e.behind
      rw [List.append_assoc, List.singleton_append] at hwhole
      rw [show e.rest = '\n' :: e.behind from rfl, hwhole, throughNewline_line hn]
      have hinside := Loss.Found.inside (e := e) Kind.continuation (u := '\\' :: u) (v := ['\n'])
        (r := e.behind) (by simp) rfl
      simpa using hinside

/-- **What is found before the blank is found without it**. -/
theorem front_passes (hbackslash : isIndent e.blank = true → e.front.getLast? ≠ some '\\')
    {c : Char} {u rest : Text} {l : Lexeme Kind} (hu : c :: u <:+ e.front)
    (h : front c (u ++ e.blank :: e.rest) = .found l rest) :
    ∃ l' rest', front c (u ++ e.rest) = .found l' rest' ∧ e.Found l rest l' rest' := by
  have hlayout : (c = '"' ∨ c = '\'') → isLayout c = false := by
    rintro (rfl | rfl) <;> decide
  have hquotes : (c = '"' ∨ c = '\'') → ∀ d ∈ [c, c], isLayout d = false := by
    rintro (rfl | rfl) <;> decide
  simp only [front_eq_found_iff] at h ⊢
  generalize hr : u ++ e.blank :: e.rest = r at h
  cases h with
  | comment hc =>
    obtain ⟨inner, r', hleft, hfound⟩ := Loss.scans_line.found Kind.comment [c] (by simp) hu rfl
    cases hleft
    subst hr
    exact ⟨_, _, .comment hc, hfound⟩
  | continuation hc hend =>
    subst hr hc
    obtain ⟨hstarts, hfound⟩ := continuation_passes hbackslash hu
    exact ⟨_, _, .continuation rfl (hstarts.trans hend), hfound (hstarts.trans hend)⟩
  | tripleQuoted hc hbody hinner =>
    obtain ⟨u, rfl, rfl⟩ := Loss.eq_append_of_append (hquotes hc) (hr.trans hbody)
    obtain ⟨inner', r', hleft, hfound⟩ := (scans_tripleQuoted (hlayout hc)).found Kind.string
      [c, c, c] (by simp) hu hinner
    exact ⟨_, _, .tripleQuoted hc rfl hleft, hfound⟩
  | quoted hc hbody hinner =>
    subst hr
    obtain ⟨inner', r', hleft, hfound⟩ := (Loss.scans_quoted (hlayout hc)).found Kind.string
      [c] (by simp) hu hinner
    exact ⟨_, _, .quoted hc (mt (Loss.prefix_of_prefix_rest (hquotes hc)) hbody) hleft, hfound⟩
  | char hcomment hback hquote =>
    subst hr
    refine ⟨_, _, .char hcomment (fun hc => ?_) hquote, .before _ ((List.suffix_cons c u).trans hu)⟩
    subst hc
    rw [(continuation_passes hbackslash hu).1]
    exact hback rfl

/-! ## How lexemes begin and end -/

theorem last_of_quoted {q : Char} {s a b : Text} (h : quoted q s = some (a, b)) :
    ∃ u, a = u ++ [q] := by
  fun_induction quoted q s generalizing a with
  | case1 => cases h
  | case2 => cases h
  | case3 c r ih =>
    obtain ⟨⟨a', r'⟩, hr, he⟩ := Option.map_eq_some_iff.1 h
    cases he
    obtain ⟨u, rfl⟩ := ih hr
    exact ⟨'\\' :: c :: u, rfl⟩
  | case4 => cases h
  | case5 =>
    cases h
    exact ⟨[], rfl⟩
  | case6 c r _ _ _ _ ih =>
    obtain ⟨⟨a', r'⟩, hr, he⟩ := Option.map_eq_some_iff.1 h
    cases he
    obtain ⟨u, rfl⟩ := ih hr
    exact ⟨c :: u, rfl⟩

theorem last_of_tripleQuoted {q : Char} {s a b : Text} (h : tripleQuoted q s = some (a, b)) :
    ∃ u, a = u ++ [q] := by
  fun_induction tripleQuoted q s generalizing a with
  | case1 => cases h
  | case2 => cases h
  | case3 c r ih =>
    obtain ⟨⟨a', r'⟩, hr, he⟩ := Option.map_eq_some_iff.1 h
    cases he
    obtain ⟨u, rfl⟩ := ih hr
    exact ⟨'\\' :: c :: u, rfl⟩
  | case4 =>
    cases h
    exact ⟨[q, q], rfl⟩
  | case5 c r _ _ _ ih =>
    obtain ⟨⟨a', r'⟩, hr, he⟩ := Option.map_eq_some_iff.1 h
    cases he
    obtain ⟨u, rfl⟩ := ih hr
    exact ⟨c :: u, rfl⟩

/-- A lexeme ends as it begins, unless it runs to the end of a line. -/
theorem last_of_front {c : Char} {r rest : Text} {l : Lexeme Kind}
    (h : front c r = .found l rest) (hcomment : l.kind ≠ .comment)
    (hcontinuation : l.kind ≠ .continuation) : ∃ u, l.text = u ++ [c] := by
  cases front_eq_found_iff.1 h with
  | comment => exact absurd rfl hcomment
  | continuation => exact absurd rfl hcontinuation
  | tripleQuoted _ _ hinner =>
    obtain ⟨u, rfl⟩ := last_of_tripleQuoted hinner
    exact ⟨c :: c :: c :: u, rfl⟩
  | quoted _ _ hinner =>
    obtain ⟨u, rfl⟩ := last_of_quoted hinner
    exact ⟨c :: u, rfl⟩
  | char => exact ⟨[], rfl⟩

/-- The first character of a lexeme that is neither a blank nor a line end. -/
theorem first_not_blank (hplain : ∀ c ∈ e.whole, isBlank c = true → isLayout c = true)
    {p r rest : Text} {c : Char} {l : Lexeme Kind} (hwhole : e.whole = p ++ c :: r)
    (h : front c r = .found l rest) (hblank : l.kind ≠ .blank) (hnewline : l.kind ≠ .newline) :
    isBlank c = false := by
  cases hb : isBlank c with
  | false => rfl
  | true =>
    rw [front_layout (hplain c (by rw [hwhole]; simp) hb)] at h
    cases h
    split at hnewline
    · exact absurd rfl hnewline
    · next hn => exact absurd (if_neg hn) hblank

/-! ## Moved lines -/

/-- A logical line whose places have moved. -/
def LogicalLine.moved (f : Nat → Nat) (line : LogicalLine) : LogicalLine :=
  { start := f line.start
    stop := f line.stop
    indent := line.indent
    colon := line.colon.map f
    loneString := line.loneString.map (Span.moved f) }

def OpenLine.moved (f : Nat → Nat) (line : OpenLine) : OpenLine :=
  { start := f line.start
    indent := line.indent
    fresh := line.fresh
    brackets := line.brackets.map fun (c, offset) => (c, f offset)
    colon := line.colon.map f
    firstString := line.firstString.map (Span.moved f)
    lastCode := f line.lastCode }

def LineState.moved (f : Nat → Nat) (s : LineState) : LineState :=
  { indent := s.indent
    line := s.line.map (OpenLine.moved f)
    lines := s.lines.map (LogicalLine.moved f) }

theorem OpenLine.isEmpty_brackets_moved (f : Nat → Nat) (line : OpenLine) :
    (line.moved f).brackets.isEmpty = line.brackets.isEmpty := by
  simp [OpenLine.moved]

/-! ## What a line remembers -/

/-- A colon in a line that starts at a byte. -/
def IsColon (e : Loss) (start : Nat) (colon : Option Nat) : Prop :=
  ∀ c, colon = some c → start ≤ c ∧ IsStart e.whole c ∧ IsEnd e.whole (c + 1)

/-- A line at a byte. -/
structure OpenLine.Marked (e : Loss) (pos : Nat) (line : OpenLine) : Prop where
  start : IsStart e.whole line.start
  le : line.start ≤ pos
  /-- As long as it is fresh, a line does not run over the blank. -/
  fresh : line.fresh = true → line.start ≤ Text.width e.front → pos ≤ Text.width e.front
  ordered : line.start ≤ line.lastCode
  last : line.lastCode = line.start ∨ IsEnd e.whole line.lastCode
  colon : IsColon e line.start line.colon
  string : ∀ t, line.firstString = some t → t.start = line.start ∧ IsEnd e.whole t.stop

/-- A line that has ended. -/
structure LogicalLine.Marked (e : Loss) (line : LogicalLine) : Prop where
  start : IsStart e.whole line.start
  ordered : line.start ≤ line.stop
  stop : line.stop = line.start ∨ IsEnd e.whole line.stop
  colon : IsColon e line.start line.colon
  string : ∀ t, line.loneString = some t →
    t = ⟨line.start, line.stop⟩ ∧ IsEnd e.whole line.stop

structure LineState.Marked (e : Loss) (pos : Nat) (s : LineState) : Prop where
  line : ∀ line, s.line = some line → line.Marked e pos
  lines : ∀ line ∈ s.lines, line.Marked e

namespace OpenLine.Marked

variable {line : OpenLine} {pos pos' : Nat}

theorem begin (h : IsStart e.whole pos) (indent : Nat) :
    (OpenLine.begin pos indent).Marked e pos where
  start := h
  le := Nat.le_refl _
  fresh := fun _ h => h
  ordered := Nat.le_refl _
  last := .inl rfl
  colon := fun _ h => by cases h
  string := fun _ h => by cases h

/-- A line goes on, and is no longer fresh. -/
theorem pass (h : line.Marked e pos) (hpos : pos ≤ pos') :
    OpenLine.Marked e pos' { line with fresh := false } :=
  { h with
    le := Nat.le_trans h.le hpos
    fresh := fun hf => by cases hf }

/-- The last code of a line ends with no blank, so it moves apart from the blank. -/
theorem lastCode_ne (h : line.Marked e pos) : line.lastCode ≠ Text.width e.front + 1 := by
  rcases h.last with he | he
  · rw [he]
    exact Loss.ne_succ_of_isStart h.start
  · exact Loss.ne_of_isEnd he

/-- **A line that ends moves with its places**. -/
theorem close (h : line.Marked e pos) :
    (line.moved e.place).close = line.close.moved e.place ∧ line.close.Marked e := by
  constructor
  · have hstring : ((line.firstString.map (Span.moved e.place)).filter
          fun t => t.stop == e.place line.lastCode) =
        (line.firstString.filter fun t => t.stop == line.lastCode).map (Span.moved e.place) := by
      cases ht : line.firstString with
      | none => rfl
      | some t =>
        have hinj := Loss.place_inj (Loss.ne_of_isEnd (h.string t ht).2) h.lastCode_ne
        have hsame : ((t.moved e.place).stop == e.place line.lastCode) =
            (t.stop == line.lastCode) := by
          rw [Bool.eq_iff_iff, beq_iff_eq, beq_iff_eq]
          exact hinj
        simp only [Option.map_some, Option.filter_some, hsame]
        split <;> rfl
    simp only [OpenLine.close, OpenLine.moved, LogicalLine.moved, hstring]
  · refine ⟨h.start, h.ordered, h.last, h.colon, fun t ht => ?_⟩
    obtain ⟨hfirst, hstop⟩ := Option.filter_eq_some_iff.1 ht
    obtain ⟨hstart, hend⟩ := h.string t hfirst
    have hstop : t.stop = line.lastCode := beq_iff_eq.1 hstop
    obtain ⟨start, stop⟩ := t
    cases hstart
    cases hstop
    exact ⟨rfl, hend⟩

/-- Code brings the end of a line to its own end. -/
theorem code (h : line.Marked e pos) (hpos : pos ≤ pos') (hend : IsEnd e.whole pos')
    {fresh : Bool} {brackets : List (Char × Nat)} {colon : Option Nat} {firstString : Option Span}
    (hfresh : fresh = true → line.start ≤ Text.width e.front → pos' ≤ Text.width e.front)
    (hcolon : IsColon e line.start colon)
    (hstring : ∀ t, firstString = some t → t.start = line.start ∧ IsEnd e.whole t.stop) :
    OpenLine.Marked e pos'
      { line with fresh, brackets, colon, firstString, lastCode := pos' } where
  start := h.start
  le := Nat.le_trans h.le hpos
  fresh := hfresh
  ordered := Nat.le_trans h.le hpos
  last := .inr hend
  colon := hcolon
  string := hstring

end OpenLine.Marked

/-- How far a fresh line has come does not depend on the blank. -/
theorem OpenLine.Marked.place_le_add_two {line : OpenLine} {pos : Nat} (h : line.Marked e pos)
    (hfresh : line.fresh = true) :
    e.place pos ≤ e.place line.start + 2 ↔ pos ≤ line.start + 2 := by
  have hle := h.le
  by_cases hfront : line.start ≤ Text.width e.front
  · rw [Loss.place_of_le hfront, Loss.place_of_le (h.fresh hfresh hfront)]
  · rw [Loss.place_of_lt (by omega), Loss.place_of_lt (by omega)]
    omega

/-- **A lexeme moves the line that takes it**. -/
theorem OpenLine.Marked.add (hplain : ∀ c ∈ e.whole, isBlank c = true → isLayout c = true)
    {p r q : Text} {c : Char} {l l' : Lexeme Kind} {line line' : OpenLine}
    (hwhole : e.whole = p ++ c :: r) (hfound : front c r = .found l q) (hm : e.Moves p l l')
    (h : line.Marked e (Text.width p)) (ha : line.add (Text.width p) l = .ok line') :
    (line.moved e.place).add (e.place (Text.width p)) l' = .ok (line'.moved e.place) ∧
      line'.Marked e (Text.width p + Text.width l.text) := by
  have hle := Nat.le_add_right (Text.width p) (Text.width l.text)
  have hstart : l.kind ≠ .blank → l.kind ≠ .newline → IsStart e.whole (Text.width p) :=
    fun hb hn => ⟨p, c, r, hwhole, rfl, first_not_blank hplain hwhole hfound hb hn⟩
  have hend : l.kind ≠ .blank → l.kind ≠ .newline → l.kind ≠ .comment → l.kind ≠ .continuation →
      IsEnd e.whole (Text.width p + Text.width l.text) := by
    intro hb hn hcomment hcontinuation
    obtain ⟨u, hu⟩ := last_of_front hfound hcomment hcontinuation
    refine ⟨p ++ u, c, q, ?_, ?_, first_not_blank hplain hwhole hfound hb hn⟩
    · rw [hwhole, ← (front_keeps c r l q hfound).1, hu]
      simp
    · rw [hu]
      simp only [Text.width_append, Text.width_cons, Text.width_nil]
      omega
  unfold OpenLine.add at ha ⊢
  rw [hm.kind_eq, ← hm.stop]
  cases hk : l.kind with
  | newline =>
    simp only [hk] at ha ⊢
    cases ha
    exact ⟨rfl, h.pass hle⟩
  | continuation =>
    simp only [hk] at ha ⊢
    cases ha
    exact ⟨rfl, h.pass hle⟩
  | comment =>
    simp only [hk] at ha ⊢
    cases ha
    exact ⟨rfl, h.pass hle⟩
  | blank =>
    simp only [hk] at ha ⊢
    cases ha
    exact ⟨rfl, h.pass hle⟩
  | string =>
    have hend := hend (by simp [hk]) (by simp [hk]) (by simp [hk]) (by simp [hk])
    simp only [hk] at ha ⊢
    cases ha
    have hfirst : ((line.moved e.place).fresh && e.place (Text.width p) ≤
          (line.moved e.place).start + 2) =
        (line.fresh && Text.width p ≤ line.start + 2) := by
      cases hf : line.fresh with
      | false => simp [OpenLine.moved, hf]
      | true =>
        have := h.place_le_add_two hf
        simp only [OpenLine.moved, hf, Bool.true_and]
        exact decide_eq_decide.2 this
    refine ⟨?_, h.code hle hend (fun hf => by cases hf) h.colon fun t ht => ?_⟩
    · rw [hfirst]
      split <;> rfl
    · split at ht
      · cases ht
        exact ⟨rfl, hend⟩
      · exact h.string t ht
  | opener b =>
    simp only [hk] at ha ⊢
    cases ha
    exact ⟨rfl, h.code hle (hend (by simp [hk]) (by simp [hk]) (by simp [hk]) (by simp [hk]))
      (fun hf => by cases hf) h.colon h.string⟩
  | closer b =>
    simp only [hk] at ha ⊢
    cases hb : line.brackets with
    | nil =>
      simp only [hb] at ha
      cases ha
    | cons bracket outer =>
      simp only [hb] at ha
      cases ha
      refine ⟨?_, h.code hle (hend (by simp [hk]) (by simp [hk]) (by simp [hk]) (by simp [hk]))
        (fun hf => by cases hf) h.colon h.string⟩
      simp only [OpenLine.moved, hb, List.map_cons]
  | colon =>
    have hend := hend (by simp [hk]) (by simp [hk]) (by simp [hk]) (by simp [hk])
    simp only [hk] at ha ⊢
    cases ha
    rw [OpenLine.isEmpty_brackets_moved]
    refine ⟨?_, h.code hle hend (fun hf => by cases hf) (fun b hb => ?_) h.string⟩
    · simp only [OpenLine.moved]
      split
      · cases line.colon <;> rfl
      · rfl
    · split at hb
      · cases hc : line.colon with
        | none =>
          rw [hc] at hb
          cases hb
          rw [width_colon hfound hk] at hend
          exact ⟨h.le, hstart (by simp [hk]) (by simp [hk]), hend⟩
        | some b' =>
          rw [hc] at hb
          cases hb
          exact h.colon _ hc
      · exact h.colon b hb
  | code d =>
    simp only [hk] at ha ⊢
    cases ha
    refine ⟨rfl, h.code hle (hend (by simp [hk]) (by simp [hk]) (by simp [hk]) (by simp [hk]))
      (fun hf hfront => ?_) h.colon h.string⟩
    have hpos := h.fresh (Bool.and_eq_true_iff.1 hf).1 hfront
    -- a character on its own does not run over the blank
    have hone : l.text = [c] := by
      rcases front_cases hfound with hc | ⟨rfl, -⟩
      · simp [hk] at hc
      · rfl
    rcases (hm.eq_of_single hone).2 with hbefore | hbehind
    · exact hbefore
    · exact absurd hpos (Nat.not_le.2 hbehind)

/-! ## The lines -/

namespace LineState

variable {s s₁ : LineState} {line : OpenLine} {offset : Nat} {l : Lexeme Kind}

/-- A line begins with anything but a blank, a comment or a line end. -/
theorem step_begin (hnone : s.line = none) (hnewline : l.kind ≠ .newline)
    (hcomment : l.kind ≠ .comment) (hblank : l.kind ≠ .blank) :
    s.step offset l =
      (OpenLine.begin offset s.indent).add offset l >>= fun line =>
        .ok { s with line := some line } := by
  unfold step
  cases hk : l.kind <;> simp_all [pure, Except.pure]

/-- A line goes on with anything but a line end outside brackets. -/
theorem step_more (hline : s.line = some line)
    (hk : l.kind = .newline → line.brackets.isEmpty = false) :
    s.step offset l = line.add offset l >>= fun line => .ok { s with line := some line } := by
  unfold step
  cases hk : l.kind <;> simp_all [pure, Except.pure]

theorem step_end (hline : s.line = some line) (hk : l.kind = .newline)
    (hempty : line.brackets.isEmpty = true) :
    s.step offset l = .ok ⟨0, none, line.close :: s.lines⟩ := by
  unfold step
  simp_all

namespace Marked

variable {pos pos' : Nat}

theorem initial (pos : Nat) : LineState.initial.Marked e pos where
  line := fun _ h => by cases h
  lines := fun _ h => by cases h

theorem withIndent (h : s.Marked e pos) (pos' indent : Nat) :
    LineState.Marked e pos' ⟨indent, none, s.lines⟩ where
  line := fun _ he => by cases he
  lines := h.lines

theorem withLine (h : s.Marked e pos) (hline : line.Marked e pos') :
    LineState.Marked e pos' { s with line := some line } where
  line := fun _ he => by
    cases he
    exact hline
  lines := h.lines

theorem withEnd (h : s.Marked e pos) (hline : line.Marked e pos) (pos' : Nat) :
    LineState.Marked e pos' ⟨0, none, line.close :: s.lines⟩ where
  line := fun _ he => by cases he
  lines := fun l hl => by
    rcases List.mem_cons.1 hl with rfl | hl
    · exact hline.close.2
    · exact h.lines l hl

end Marked

/-- **A lexeme moves the state with it**. -/
theorem step_moved (hplain : ∀ c ∈ e.whole, isBlank c = true → isLayout c = true)
    {p r q : Text} {c : Char} {l' : Lexeme Kind} (hwhole : e.whole = p ++ c :: r)
    (hfound : front c r = .found l q) (hm : e.Moves p l l') (h : s.Marked e (Text.width p))
    (hstep : s.step (Text.width p) l = .ok s₁) :
    (s.moved e.place).step (e.place (Text.width p)) l' = .ok (s₁.moved e.place) ∧
      s₁.Marked e (Text.width p + Text.width l.text) := by
  have hkind := hm.kind_eq
  cases hline : s.line with
  | none =>
    have hnone : (s.moved e.place).line = none := by simp [moved, hline]
    by_cases hnewline : l.kind = .newline
    · simp only [step, hline, hnone, hnewline, hkind] at hstep ⊢
      cases hstep
      exact ⟨rfl, h.withIndent _ 0⟩
    by_cases hcomment : l.kind = .comment
    · simp only [step, hline, hnone, hcomment, hkind] at hstep ⊢
      cases hstep
      exact ⟨rfl, h.withIndent _ 0⟩
    by_cases hblank : l.kind = .blank
    · have hone : l.text = [c] := by
        rcases front_cases hfound with hc | ⟨rfl, -⟩
        · simp [hblank] at hc
        · rfl
      rw [(hm.eq_of_single hone).1]
      simp only [step, hline, hnone, hblank] at hstep ⊢
      cases hstep
      exact ⟨rfl, h.withIndent _ _⟩
    · rw [step_begin hline hnewline hcomment hblank] at hstep
      rw [step_begin hnone (hkind ▸ hnewline) (hkind ▸ hcomment) (hkind ▸ hblank)]
      obtain ⟨line, ha, hs⟩ := bind_eq_ok.1 hstep
      cases hs
      have hstart : IsStart e.whole (Text.width p) :=
        ⟨p, c, r, hwhole, rfl, first_not_blank hplain hwhole hfound hblank hnewline⟩
      obtain ⟨hleft, hmarked⟩ := (OpenLine.Marked.begin hstart s.indent).add hplain hwhole hfound
        hm ha
      refine ⟨?_, h.withLine hmarked⟩
      exact bind_eq_ok.2 ⟨line.moved e.place, hleft, by simp only [moved, Option.map_some]⟩
  | some line =>
    have hsome : (s.moved e.place).line = some (line.moved e.place) := by simp [moved, hline]
    have hmarked := h.line line hline
    by_cases hend : l.kind = .newline ∧ line.brackets.isEmpty = true
    · rw [step_end hline hend.1 hend.2] at hstep
      rw [step_end hsome (hkind.trans hend.1)
        (by rw [OpenLine.isEmpty_brackets_moved]; exact hend.2)]
      cases hstep
      refine ⟨?_, h.withEnd hmarked _⟩
      rw [hmarked.close.1]
      rfl
    · have hopen : l.kind = .newline → line.brackets.isEmpty = false := by
        intro hk
        cases hb : line.brackets.isEmpty with
        | false => rfl
        | true => exact absurd ⟨hk, hb⟩ hend
      rw [step_more hline hopen] at hstep
      rw [step_more hsome (by rw [OpenLine.isEmpty_brackets_moved, hkind]; exact hopen)]
      obtain ⟨line', ha, hs⟩ := bind_eq_ok.1 hstep
      cases hs
      obtain ⟨hleft, hmarked'⟩ := hmarked.add hplain hwhole hfound hm ha
      refine ⟨?_, h.withLine hmarked'⟩
      exact bind_eq_ok.2 ⟨line'.moved e.place, hleft, by simp only [moved, Option.map_some]⟩

/-- **The blank does not matter** where it is a lexeme of its own: the line feed behind it does all
that it does. -/
theorem step_alone {pos stop : Nat} {kind : Kind} {text : Text} {s₂ : LineState}
    (hkind : kind = .newline ∨ kind = .blank) (h : s.Marked e pos) (hpos : pos ≤ stop)
    (h₁ : s.step pos ⟨kind, text⟩ = .ok s₁) {offset : Nat}
    (h₂ : s₁.step offset ⟨.newline, ['\n']⟩ = .ok s₂) :
    (∀ offset', (s.moved e.place).step offset' ⟨.newline, ['\n']⟩ = .ok (s₂.moved e.place)) ∧
      s₂.Marked e stop := by
  cases hline : s.line with
  | none =>
    have hnone : (s.moved e.place).line = none := by simp [moved, hline]
    have hs₂ : s₂ = ⟨0, none, s.lines⟩ := by
      rcases hkind with rfl | rfl <;>
      · simp only [step, hline] at h₁
        cases h₁
        simp only [step] at h₂
        cases h₂
        rfl
    subst hs₂
    refine ⟨fun offset' => ?_, h.withIndent stop 0⟩
    simp only [step, hnone]
    rfl
  | some line =>
    have hsome : (s.moved e.place).line = some (line.moved e.place) := by simp [moved, hline]
    have hmarked := h.line line hline
    by_cases hempty : line.brackets.isEmpty = true
    · have hs₂ : s₂ = ⟨0, none, line.close :: s.lines⟩ := by
        rcases hkind with rfl | rfl
        · rw [step_end hline rfl hempty] at h₁
          cases h₁
          simp only [step] at h₂
          cases h₂
          rfl
        · rw [step_more hline (by simp)] at h₁
          cases h₁
          have hworn : ({ s with line := some { line with fresh := false } } : LineState).line =
            some { line with fresh := false } := rfl
          rw [step_end hworn rfl hempty] at h₂
          cases h₂
          rfl
      subst hs₂
      refine ⟨fun offset' => ?_, h.withEnd hmarked stop⟩
      rw [step_end hsome rfl (by rw [OpenLine.isEmpty_brackets_moved]; exact hempty),
        hmarked.close.1]
      rfl
    · have hopen : line.brackets.isEmpty = false := by simpa using hempty
      have hs₂ : s₂ = { s with line := some { line with fresh := false } } := by
        have hs₁ : s₁ = { s with line := some { line with fresh := false } } := by
          rw [step_more hline fun _ => hopen] at h₁
          rcases hkind with rfl | rfl <;>
          · cases h₁
            rfl
        subst hs₁
        have hworn : ({ s with line := some { line with fresh := false } } : LineState).line =
            some { line with fresh := false } := rfl
        rw [step_more hworn fun _ => hopen] at h₂
        cases h₂
        rfl
      subst hs₂
      refine ⟨fun offset' => ?_, h.withLine (hmarked.pass hpos)⟩
      rw [step_more hsome fun _ => by rw [OpenLine.isEmpty_brackets_moved]; exact hopen]
      rfl

end LineState

/-- **The indented language keeps track of the blank**. -/
theorem tracks (hplain : ∀ c ∈ e.whole, isBlank c = true → isLayout c = true)
    (hbackslash : isIndent e.blank = true → e.front.getLast? ≠ some '\\') :
    e.Tracks rule LineState.step LineState.step (LineState.moved e.place)
      fun pos s => s.Marked e pos where
  passes := fun _ _ _ _ hu h => front_passes hbackslash hu h
  alone := by
    have hnewline : front '\n' e.behind = .found ⟨.newline, ['\n']⟩ e.behind := rfl
    refine ⟨_, _, front_layout e.layout e.rest, hnewline, fun s s₁ s₂ hs h₁ h₂ => ?_⟩
    have hkind : (if e.blank = '\n' then Kind.newline else .blank) = .newline ∨
        (if e.blank = '\n' then Kind.newline else .blank) = .blank := by
      split
      · exact .inl rfl
      · exact .inr rfl
    have hpos : Text.width e.front ≤ Text.width e.front + 1 + 1 := by omega
    obtain ⟨hleft, hmarked⟩ := LineState.step_alone hkind hs hpos h₁ h₂
    exact ⟨hleft _, hmarked⟩
  step := fun hwhole hfound hm hs hstep => LineState.step_moved hplain hwhole hfound hm hs hstep

/-- **Logical lines move with the text**. -/
theorem logicalLines_left (hplain : ∀ c ∈ e.whole, isBlank c = true → isLayout c = true)
    (hbackslash : isIndent e.blank = true → e.front.getLast? ≠ some '\\')
    {lines : List LogicalLine} (h : logicalLines e.whole = .ok lines) :
    logicalLines e.left = .ok (lines.map (LogicalLine.moved e.place)) ∧
      ∀ line ∈ lines, line.Marked e := by
  obtain ⟨s, hrun, hfinish⟩ := bind_eq_ok.1 h
  have hr : Reached e.whole _ [] s := .of_run hrun
  obtain ⟨lexemes', hd', hrun', hmarked⟩ := (tracks hplain hbackslash).run (p := []) hr.divides rfl
    rfl (LineState.Marked.initial _) hr.runs
  have hreach : Reached e.left lexemes' [] (s.moved e.place) := ⟨hd', hrun'⟩
  unfold logicalLines
  rw [hreach.run_eq]
  show (s.moved e.place).finish = _ ∧ _
  unfold LineState.finish at hfinish ⊢
  cases hline : s.line with
  | none =>
    simp only [hline] at hfinish
    cases hfinish
    have hnone : (s.moved e.place).line = none := by simp [LineState.moved, hline]
    simp only [hnone]
    refine ⟨?_, fun line hl => hmarked.lines line (List.mem_reverse.1 hl)⟩
    simp only [LineState.moved, List.map_reverse]
  | some line =>
    have hopen := hmarked.line line hline
    have hsome : (s.moved e.place).line = some (line.moved e.place) := by
      simp [LineState.moved, hline]
    simp only [hline] at hfinish
    simp only [hsome]
    cases hb : line.brackets with
    | cons bracket outer =>
      simp only [hb] at hfinish
      cases hfinish
    | nil =>
      simp only [hb] at hfinish
      cases hfinish
      have hb' : (line.moved e.place).brackets = [] := by simp [OpenLine.moved, hb]
      simp only [hb']
      refine ⟨?_, fun l hl => ?_⟩
      · rw [hopen.close.1]
        simp only [LineState.moved, List.map_reverse, List.map_cons]
      · rcases List.mem_cons.1 (List.mem_reverse.1 hl) with rfl | hl
        · exact hopen.close.2
        · exact hmarked.lines l hl

end Scholia.Source.Indented
