import Mathlib.Algebra.GroupWithZero.Nat
import Mathlib.Algebra.Order.BigOperators.Group.List
import Mathlib.Algebra.Order.Group.Nat
import Scholia.Proofs.Comment.Moved
/-!
# Docstrings row by row

A docstring is read by its rows (`read_docstring`). What one row can do is said once
(`State.step_cases`): an empty row ends the first paragraph, a header opens its section, and any
other row is read or passed over. From it follows what has been read of many rows, counted in
characters that are no blanks: behind the first paragraph it grows by what the rows of sections are
worth, from the first header on, and by no more (`weight_foldl_settled`).
-/

namespace Scholia.Comment.Docstring

open Doc (Line entry)
open Text (allBlank isBlank isInk join margin splitWhere trim)

/-! ## Literals -/

/-- A docstring with rows between its quotes, behind the letters of its literal. -/
def docstring (letters quote : Text) (rows : List Text) : Text :=
  letters ++ (quote ++ (join ['\n'] rows ++ quote))

section

variable {letters quote : Text} {rows : List Text}

/-- The text of a literal begins at its quotes. -/
theorem trimStartWhere_letters (hletters : ∀ c ∈ letters, c ∈ "rRuUbBfF".toList)
    (hquote : quote ∈ quotes) (s : Text) :
    Text.trimStartWhere ("rRuUbBfF".toList.contains ·) (letters ++ (quote ++ s)) = quote ++ s := by
  rw [Text.trimStartWhere,
    List.dropWhile_append_of_pos fun c hc => List.contains_iff_mem.2 (hletters c hc)]
  simp only [quotes, List.mem_cons, List.not_mem_nil, or_false] at hquote
  rcases hquote with rfl | rfl <;> rfl

theorem tripleQuote?_quote (hquote : quote ∈ quotes) (s : Text) :
    tripleQuote? (quote ++ s) = some quote := by
  simp only [quotes, List.mem_cons, List.not_mem_nil, or_false] at hquote
  rcases hquote with rfl | rfl <;> simp [tripleQuote?]

/-- A literal begins and ends with a character that is no blank. -/
theorem trim_literal (hletters : ∀ c ∈ letters, c ∈ "rRuUbBfF".toList) (hquote : quote ∈ quotes)
    (s : Text) : allBlank (letters ++ (quote ++ (s ++ quote))) = false ∧
      trim (letters ++ (quote ++ (s ++ quote))) = letters ++ (quote ++ (s ++ quote)) := by
  have hplain : ∀ d ∈ "rRuUbBfF".toList, isBlank d = false := by decide
  have hink : ∀ c ∈ letters ++ quote, isBlank c = false := fun c hc =>
    (List.mem_append.1 hc).elim (fun hc => hplain c (hletters c hc)) (isBlank_quote hquote c)
  have hquoted : quote ≠ [] := by
    rintro rfl
    exact absurd (quotes_plain [] hquote).1 (by decide)
  obtain ⟨c, u, hu⟩ := List.exists_cons_of_ne_nil (List.append_ne_nil_of_right_ne_nil letters hquoted)
  have hc : isBlank c = false := hink c (hu ▸ List.mem_cons_self)
  have hstart : letters ++ (quote ++ (s ++ quote)) = c :: (u ++ (s ++ quote)) := by
    rw [← List.append_assoc, hu, List.cons_append]
  have hend : Text.trimEnd (letters ++ (quote ++ (s ++ quote))) =
      letters ++ (quote ++ (s ++ quote)) := by
    have h := Text.trimEnd_append_self (u := letters ++ (quote ++ s)) hquoted
      (Text.trimEnd_of_ink (isBlank_quote hquote))
    simpa only [List.append_assoc] using h
  refine ⟨?_, ?_⟩
  · rw [hstart, ← Bool.not_eq_true]
    exact fun h => Text.not_mem_of_allBlank hc h List.mem_cons_self
  · rw [trim, hstart, Text.trimStart, Text.trimStartWhere, List.dropWhile_cons_of_neg (by simp [hc]),
      ← hstart, hend]

/-- **A docstring is read row by row**. -/
theorem read_docstring (hletters : ∀ c ∈ letters, c ∈ "rRuUbBfF".toList) (hquote : quote ∈ quotes)
    (hne : rows ≠ []) (hrows : ∀ row ∈ rows, '\n' ∉ row) :
    Comment.read .python (docstring letters quote rows) =
      .ok (rows.foldl State.step .initial).finish := by
  have hlen := (quotes_plain quote hquote).1
  obtain ⟨hblank, htrim⟩ := trim_literal hletters hquote (join ['\n'] rows)
  calc Comment.read .python (docstring letters quote rows)
    _ = readLiteral (Text.trimStartWhere ("rRuUbBfF".toList.contains ·)
          (trim (docstring letters quote rows))) := by rw [Comment.read, docstring, hblank]; rfl
    _ = readLiteral (quote ++ (join ['\n'] rows ++ quote)) := by
      rw [docstring, htrim, trimStartWhere_letters hletters hquote]
    _ = .ok ((Text.lines (join ['\n'] rows)).foldl State.step .initial).finish := by
      rw [readLiteral, tripleQuote?_quote hquote]
      simp only [isOpen_content hlen, content_eq hlen]
      rfl
    _ = .ok (rows.foldl State.step .initial).finish := by
      rw [State.finish_lines, Text.splitWhere_join hne hrows]

end

/-! ## Rows -/

/-- The lines that open a section. -/
def Section.headers : Section → List Text
  | .arguments => ["Args:", "Arguments:", "Parameters:"].map (·.toList)
  | .returns => ["Returns:", "Return:"].map (·.toList)
  | .raises => ["Raises:"].map (·.toList)

/-- A row that opens a section, wherever it stands. -/
def IsHeader (row : Text) : Prop :=
  ∃ part : Section, trim row ∈ part.headers

/-- A row that says that a section has no entries. -/
def IsNone (row : Text) : Prop :=
  trim row = "None".toList ∨ trim row = "None.".toList

instance (row : Text) : Decidable (IsNone row) :=
  inferInstanceAs (Decidable (_ ∨ _))

theorem any_word_iff {words : List String} {line : Text} :
    words.any (·.toList == line) = true ↔ line ∈ words.map (·.toList) := by
  rw [List.any_eq_true, List.mem_map]
  simp only [beq_iff_eq]

/-- **The lines that open a section** are told apart by the section. -/
theorem Section.ofHeader?_eq_some_iff {line : Text} {part : Section} :
    Section.ofHeader? line = some part ↔ line ∈ part.headers := by
  have hreturns : ∀ line ∈ Section.returns.headers, line ∉ Section.arguments.headers := by decide
  have hraises : ∀ line ∈ Section.raises.headers,
      line ∉ Section.arguments.headers ∧ line ∉ Section.returns.headers := by decide
  have hof : Section.ofHeader? line =
      if line ∈ Section.arguments.headers then some .arguments
      else if line ∈ Section.returns.headers then some .returns
      else if line ∈ Section.raises.headers then some .raises
      else none := by
    simp only [Section.ofHeader?, any_word_iff, Section.headers, List.map_cons, List.map_nil,
      List.mem_singleton]
  rw [hof]
  constructor
  · intro h
    split at h
    · next hmem => rwa [← Option.some.inj h]
    split at h
    · next hmem => rwa [← Option.some.inj h]
    split at h
    · next hmem => rwa [← Option.some.inj h]
    · cases h
  · intro hmem
    cases part with
    | arguments => rw [if_pos hmem]
    | returns => rw [if_neg (hreturns line hmem), if_pos hmem]
    | raises => rw [if_neg (hraises line hmem).1, if_neg (hraises line hmem).2, if_pos hmem]

theorem ofHeader?_isSome_iff {row : Text} :
    (Section.ofHeader? (trim row)).isSome = true ↔ IsHeader row := by
  rw [Option.isSome_iff_exists]
  exact exists_congr fun _ => Section.ofHeader?_eq_some_iff

instance (row : Text) : Decidable (IsHeader row) :=
  decidable_of_iff _ ofHeader?_isSome_iff

theorem ofHeader?_eq_none {row : Text} (h : ¬ IsHeader row) :
    Section.ofHeader? (trim row) = none := by
  rwa [← ofHeader?_isSome_iff, Bool.not_eq_true, Option.isSome_eq_false_iff,
    Option.isNone_iff_eq_none] at h

theorem trim_eq_nil_iff {row : Text} : trim row = [] ↔ allBlank row = true := by
  rw [← Text.weight_eq_zero_iff, ← Text.weight_trim, Text.weight_eq_zero_iff]
  constructor
  · rintro h
    rw [h]
    rfl
  · intro h
    rw [← Text.trim_trim, trim, Text.trimStart_of_allBlank h]
    rfl

/-! ## Steps -/

namespace State

/-- The entries of a section, the last one first. -/
def entries (s : State) : Section → List Text
  | .arguments => s.arguments
  | .returns => s.returns
  | .raises => s.raises

/-- The state with other entries in a section, whose first line is indented so far. -/
def put (s : State) (part : Section) (first : Nat) (es : List Text) : State :=
  match part with
  | .arguments => { s with indent := some first, arguments := es }
  | .returns => { s with indent := some first, returns := es }
  | .raises => { s with indent := some first, raises := es }

variable {s : State} {part : Section} {row : Text} {first : Nat} {es : List Text}

@[simp] theorem current_put : (s.put part first es).current = s.current := by
  cases part <;> rfl

@[simp] theorem indent_put : (s.put part first es).indent = some first := by
  cases part <;> rfl

@[simp] theorem description_put : (s.put part first es).description = s.description := by
  cases part <;> rfl

@[simp] theorem described_put : (s.put part first es).described = s.described := by
  cases part <;> rfl

@[simp] theorem entries_put : (s.put part first es).entries part = es := by
  cases part <;> rfl

theorem entries_put_of_ne {other : Section} (h : other ≠ part) :
    (s.put part first es).entries other = s.entries other := by
  cases part <;> cases other <;> first | rfl | exact absurd rfl h

@[simp] theorem put_put (s : State) (part : Section) (first next : Nat) (es others : List Text) :
    (s.put part first es).put part next others = s.put part next others := by
  cases part <;> rfl

/-- An empty row ends the first paragraph. -/
theorem step_blank (s : State) (h : allBlank row = true) : s.step row =
    { s with described := s.described || (s.current.isNone && !s.description.isEmpty) } := by
  rw [step, trim_eq_nil_iff.2 h]
  rfl

theorem isEmpty_trim (h : allBlank row = false) : (trim row).isEmpty = false := by
  rw [← Bool.not_eq_true, List.isEmpty_iff, trim_eq_nil_iff, h]
  decide

/-- A header opens its section, whatever was open. -/
theorem step_header (s : State) (h : trim row ∈ part.headers) :
    s.step row = { s with current := some part, indent := none } := by
  have hfull : ∀ line ∈ part.headers, line.isEmpty = false := by cases part <;> decide
  have hof : Section.ofHeader? (trim row) = some part := Section.ofHeader?_eq_some_iff.2 h
  simp only [step, hfull _ h, hof]
  rfl

/-- A row of a section is read into it. -/
theorem step_open (hpart : s.current = some part) (hblank : allBlank row = false)
    (hheader : ¬ IsHeader row) : s.step row =
      if IsNone row then s
      else s.put part (s.indent.getD (margin row))
        (addLine (margin row ≤ s.indent.getD (margin row)) (trim row) (s.entries part)) := by
  have hadd : s.addTo part row (trim row) =
      if IsNone row then s
      else s.put part (s.indent.getD (margin row))
        (addLine (margin row ≤ s.indent.getD (margin row)) (trim row) (s.entries part)) := by
    cases part <;> simp only [addTo, IsNone, Bool.or_eq_true, decide_eq_true_eq] <;> rfl
  simp only [step, isEmpty_trim hblank, ofHeader?_eq_none hheader, hpart, hadd]
  rfl

/-- A row above all sections is a row of the description, or says nothing. -/
theorem step_closed (hcurrent : s.current = none) (hblank : allBlank row = false)
    (hheader : ¬ IsHeader row) : s.step row =
      if s.described then s else { s with description := trim row :: s.description } := by
  simp only [step, isEmpty_trim hblank, ofHeader?_eq_none hheader, hcurrent]
  rfl

/-- **What a row can do**. -/
theorem step_cases (s : State) (row : Text) :
    (allBlank row = true ∧ s.step row =
      { s with described := s.described || (s.current.isNone && !s.description.isEmpty) }) ∨
    (∃ part : Section, trim row ∈ part.headers ∧
      s.step row = { s with current := some part, indent := none }) ∨
    (allBlank row = false ∧ ¬ IsHeader row ∧
      ((∃ part, s.current = some part ∧ s.step row =
        if IsNone row then s
        else s.put part (s.indent.getD (margin row))
          (addLine (margin row ≤ s.indent.getD (margin row)) (trim row) (s.entries part))) ∨
      (s.current = none ∧ s.step row =
        if s.described then s else { s with description := trim row :: s.description }))) := by
  cases hblank : allBlank row with
  | true => exact .inl ⟨rfl, step_blank s hblank⟩
  | false =>
    by_cases hheader : IsHeader row
    · obtain ⟨part, hpart⟩ := hheader
      exact .inr (.inl ⟨part, hpart, step_header s hpart⟩)
    · refine .inr (.inr ⟨rfl, hheader, ?_⟩)
      rcases Option.eq_none_or_eq_some s.current with hcurrent | ⟨part, hcurrent⟩
      · exact .inr ⟨hcurrent, step_closed hcurrent hblank hheader⟩
      · exact .inl ⟨part, hcurrent, step_open hcurrent hblank hheader⟩

/-- A section that is open stays open. -/
theorem isSome_step (h : s.current.isSome = true) (row : Text) :
    (s.step row).current.isSome = true := by
  rcases s.step_cases row with
    ⟨-, hstep⟩ | ⟨part, -, hstep⟩ | ⟨-, -, ⟨part, hpart, hstep⟩ | ⟨hnone, hstep⟩⟩
  · rwa [hstep]
  · rw [hstep]
    rfl
  · rw [hstep]
    split
    · exact h
    · rwa [current_put]
  · rw [hnone] at h
    cases h

end State

/-! ## The first paragraph -/

variable {s : State}

/-- Whether the first paragraph is behind. -/
def State.Settled (s : State) : Prop :=
  s.described = true ∨ s.current.isSome = true

theorem State.Settled.step_blank {row : Text} (h : s.Settled) (hrow : allBlank row = true) :
    s.step row = s := by
  have hsame : (s.described || (s.current.isNone && !s.description.isEmpty)) = s.described := by
    rcases h with h | h
    · rw [h, Bool.true_or]
    · rw [Option.isSome_iff_exists] at h
      obtain ⟨part, hpart⟩ := h
      rw [hpart]
      simp
  rw [State.step_blank s hrow, hsame]

/-- Behind the first paragraph, a row above all sections says nothing. -/
theorem State.Settled.step_passed {s : State} {row : Text} (h : s.Settled)
    (hcurrent : s.current = none) (hheader : ¬ IsHeader row) : s.step row = s := by
  have hdescribed : s.described = true := by simpa [State.Settled, hcurrent] using h
  cases hblank : allBlank row with
  | true => exact h.step_blank hblank
  | false => rw [State.step_closed hcurrent hblank hheader, if_pos hdescribed]

theorem State.Settled.step (h : s.Settled) (row : Text) : (s.step row).Settled := by
  cases hcurrent : s.current with
  | some part => exact .inr (State.isSome_step (by rw [hcurrent]; rfl) row)
  | none =>
    by_cases hheader : IsHeader row
    · obtain ⟨part, hpart⟩ := hheader
      rw [State.step_header s hpart]
      exact .inr rfl
    · rwa [h.step_passed hcurrent hheader]

/-- **Behind the first paragraph, empty rows say nothing**. -/
theorem State.Settled.foldl_filter (h : s.Settled) (rows : List Text) :
    rows.foldl State.step s = (rows.filter (!allBlank ·)).foldl State.step s := by
  induction rows generalizing s with
  | nil => rfl
  | cons row rows ih =>
    cases hblank : allBlank row with
    | true =>
      rw [List.foldl_cons, h.step_blank hblank, ih h, List.filter_cons_of_neg (by simp [hblank])]
    | false =>
      rw [List.foldl_cons, ih (h.step row), List.filter_cons_of_pos (by simp [hblank]),
        List.foldl_cons]

theorem foldl_lead {lead : List Text} (h : ∀ row ∈ lead, allBlank row = true) :
    lead.foldl State.step .initial = .initial := by
  induction lead with
  | nil => rfl
  | cons row lead ih =>
    obtain ⟨hrow, hlead⟩ := List.forall_mem_cons.1 h
    rw [List.foldl_cons, State.step_blank _ hrow]
    exact ih hlead

namespace State

/-- Whether a row that says something has been read. -/
def Begun (s : State) : Prop :=
  s.current.isSome = true ∨ s.description ≠ []

theorem Begun.step (h : s.Begun) (row : Text) : (s.step row).Begun := by
  rcases h with hopen | hne
  · exact .inl (isSome_step hopen row)
  rcases s.step_cases row with ⟨-, hstep⟩ | ⟨part, -, hstep⟩ | ⟨-, -, ⟨part, hpart, -⟩ | ⟨-, hstep⟩⟩
  · rw [hstep]
    exact .inr hne
  · rw [hstep]
    exact .inl rfl
  · exact .inl (isSome_step (by rw [hpart]; rfl) row)
  · rw [hstep]
    split
    · exact .inr hne
    · exact .inr (List.cons_ne_nil _ _)

theorem Begun.foldl (h : s.Begun) (rows : List Text) : (rows.foldl State.step s).Begun := by
  induction rows generalizing s with
  | nil => exact h
  | cons row rows ih => exact ih (h.step row)

/-- An empty row behind one that says something ends the first paragraph. -/
theorem Begun.settled (h : s.Begun) (hrow : allBlank row = true) : (s.step row).Settled := by
  rw [step_blank s hrow]
  rcases h with hopen | hne
  · exact .inr hopen
  · cases hcurrent : s.current with
    | some part => exact .inr rfl
    | none =>
      left
      simpa using .inr hne

/-- The first row that says something begins the description, or a section. -/
theorem begun_foldl {rows : List Text} (h : ∃ row ∈ rows, allBlank row = false) :
    (rows.foldl State.step .initial).Begun := by
  induction rows with
  | nil => simp at h
  | cons row rows ih =>
    rw [List.foldl_cons]
    rcases initial.step_cases row with
      ⟨hblank, hstep⟩ | ⟨part, -, hstep⟩ | ⟨-, -, ⟨part, hpart, -⟩ | ⟨-, hstep⟩⟩
    · have hrest : ∃ row ∈ rows, allBlank row = false := by
        obtain ⟨other, hmem, hother⟩ := h
        rcases List.mem_cons.1 hmem with rfl | hmem
        · rw [hblank] at hother
          cases hother
        · exact ⟨other, hmem, hother⟩
      rw [hstep]
      exact ih hrest
    · rw [hstep]
      exact Begun.foldl (.inl rfl) rows
    · cases hpart
    · rw [hstep]
      exact Begun.foldl (.inr (List.cons_ne_nil _ _)) rows

end State

/-! ## What has been read

A row that is read adds its characters to what has been read, and no row adds more. -/

/-- How many characters of texts are no blanks. -/
def total (texts : List Text) : Nat :=
  (texts.map Text.weight).sum

@[simp] theorem total_nil : total [] = 0 :=
  rfl

@[simp] theorem total_cons (t : Text) (texts : List Text) :
    total (t :: texts) = Text.weight t + total texts :=
  rfl

theorem total_append (texts others : List Text) :
    total (texts ++ others) = total texts + total others := by
  simp [total]

theorem total_reverse (texts : List Text) : total texts.reverse = total texts := by
  simp [total]

theorem total_map_trim (texts : List Text) : total (texts.map trim) = total texts := by
  simp only [total, List.map_map, Function.comp_def, Text.weight_trim]

theorem weight_join (texts : List Text) : Text.weight (join ['\n'] texts) = total texts := by
  induction texts with
  | nil => rfl
  | cons t texts ih =>
    cases texts with
    | nil => simp [join]
    | cons u texts =>
      have hbreak : Text.weight ['\n'] = 0 := by decide
      rw [Text.join_cons (List.cons_ne_nil _ _), List.append_cons, Text.weight_append,
        Text.weight_append, hbreak, ih, Nat.add_zero, total_cons t]

theorem weight_entry (name description : Text) : Text.weight (entry (trim name) (trim description)) =
    Text.weight (name ++ ':' :: description) := by
  have hcolon : Text.weight [':'] = 1 := by decide
  have hdot : Text.weight ['.'] = 1 := by decide
  have hspaced : Text.weight ['.', ' '] = 1 := by decide
  rw [List.append_cons, Text.weight_append, Text.weight_append, hcolon, ← Text.weight_trim name,
    ← Text.weight_trim description, entry]
  split
  · next hempty => rw [List.isEmpty_iff.1 hempty, Text.weight_append, hdot]; rfl
  · rw [Text.weight_append, Text.weight_append, hspaced]

theorem total_addLine (isEntry : Bool) (text : Text) (es : List Text) :
    total (addLine isEntry text es) = total es + Text.weight text := by
  have hbreak : Text.weight ['\n'] = 0 := by decide
  have hfirst : total [text] = total [] + Text.weight text := by simp [total]
  have hglued : ∀ last rest, total ((last ++ '\n' :: text) :: rest) =
      total (last :: rest) + Text.weight text := by
    intro last rest
    rw [total_cons, total_cons, List.append_cons, Text.weight_append, Text.weight_append, hbreak]
    omega
  unfold addLine
  cases hcut : Text.cutAt? [':'] text with
  | none =>
    rcases es with - | ⟨last, rest⟩
    · exact hfirst
    · exact hglued last rest
  | some cut =>
    cases isEntry with
    | false =>
      rcases es with - | ⟨last, rest⟩
      · exact hfirst
      · exact hglued last rest
    | true =>
      have htext : text = cut.1 ++ ':' :: cut.2 := by simpa using Text.eq_of_cutAt? hcut
      conv_rhs => rw [htext, ← weight_entry]
      exact Nat.add_comm _ _

/-- What a row adds to a section: nothing if it is a header, or says that there are no entries. -/
def worth (row : Text) : Nat :=
  if IsHeader row ∨ IsNone row then 0 else Text.weight row

theorem worth_le (row : Text) : worth row ≤ Text.weight row := by
  unfold worth
  split <;> omega

theorem worth_of_allBlank {row : Text} (h : allBlank row = true) : worth row = 0 :=
  Nat.le_zero.1 ((worth_le row).trans_eq (Text.weight_eq_zero_iff.2 h))

namespace State

/-- How much has been read. -/
def weight (s : State) : Nat :=
  total s.description + total s.arguments + total s.returns + total s.raises

theorem weight_put {first n : Nat} {es : List Text} (h : total es = total (s.entries part) + n) :
    (s.put part first es).weight = s.weight + n := by
  cases part <;> simp only [entries] at h <;> simp only [weight, put, h] <;> omega

/-- **A row of a section adds what it is worth**. -/
theorem weight_step_open (h : s.current.isSome = true) (row : Text) :
    (s.step row).weight = s.weight + worth row := by
  rcases s.step_cases row with
    ⟨hblank, hstep⟩ | ⟨part, hpart, hstep⟩ | ⟨-, hheader, ⟨part, -, hstep⟩ | ⟨hnone, -⟩⟩
  · rw [hstep, worth_of_allBlank hblank]
    rfl
  · rw [hstep, worth, if_pos (.inl ⟨part, hpart⟩)]
    rfl
  · rw [hstep, worth]
    by_cases hnone : IsNone row
    · rw [if_pos hnone, if_pos (.inr hnone)]
      rfl
    · rw [if_neg hnone, if_neg (not_or.2 ⟨hheader, hnone⟩)]
      exact weight_put (by rw [total_addLine, Text.weight_trim])
  · rw [hnone] at h
    cases h

theorem weight_foldl_open (h : s.current.isSome = true) (rows : List Text) :
    (rows.foldl State.step s).weight = s.weight + (rows.map worth).sum := by
  induction rows generalizing s with
  | nil => rfl
  | cons row rows ih =>
    rw [List.foldl_cons, ih (isSome_step h row), weight_step_open h, List.map_cons, List.sum_cons]
    omega

/-- A row that is no header adds no more than its characters, and a header adds none. -/
theorem weight_step_le (s : State) (row : Text) :
    (s.step row).weight ≤ s.weight + if IsHeader row then 0 else Text.weight row := by
  cases hcurrent : s.current with
  | some part =>
    have hworth : worth row ≤ if IsHeader row then 0 else Text.weight row := by
      by_cases hheader : IsHeader row
      · rw [worth, if_pos (.inl hheader), if_pos hheader]
      · rw [if_neg hheader]
        exact worth_le row
    have hstep := weight_step_open (s := s) (by rw [hcurrent]; rfl) row
    omega
  | none =>
    rcases s.step_cases row with
      ⟨-, hstep⟩ | ⟨part, -, hstep⟩ | ⟨-, hheader, ⟨part, hpart, -⟩ | ⟨-, hstep⟩⟩
    · rw [hstep]
      exact Nat.le_add_right _ _
    · rw [hstep]
      exact Nat.le_add_right _ _
    · rw [hcurrent] at hpart
      cases hpart
    · rw [hstep, if_neg hheader]
      split
      · exact Nat.le_add_right _ _
      · simp only [weight, total_cons, Text.weight_trim]
        omega

end State

/-- What each row of a description adds at most. -/
theorem weight_foldl_le (s : State) (rows : List Text) : (rows.foldl State.step s).weight ≤
    s.weight + (rows.map fun row => if IsHeader row then 0 else Text.weight row).sum := by
  induction rows generalizing s with
  | nil => exact le_rfl
  | cons row rows ih =>
    have hrow := s.weight_step_le row
    have hrows := ih (s.step row)
    rw [List.foldl_cons, List.map_cons, List.sum_cons]
    omega

/-- The rows that are seen behind the first paragraph: those of a section, from its header on. -/
def State.seen (s : State) (rows : List Text) : List Text :=
  if s.current.isSome then rows else rows.dropWhile (¬ IsHeader ·)

/-- **Behind the first paragraph, what has been read grows by what is seen**. -/
theorem weight_foldl_settled {s : State} (h : s.Settled) (rows : List Text) :
    (rows.foldl State.step s).weight = s.weight + ((s.seen rows).map worth).sum := by
  rcases Option.eq_none_or_eq_some s.current with hcurrent | ⟨part, hcurrent⟩
  · rw [State.seen, hcurrent]
    induction rows with
    | nil => rfl
    | cons row rows ih =>
      by_cases hheader : IsHeader row
      · obtain ⟨part, hpart⟩ := id hheader
        have hworth : worth row = 0 := if_pos (.inl hheader)
        have hstep := State.step_header s hpart
        have hweight : (s.step row).weight = s.weight := by rw [hstep]; rfl
        rw [List.foldl_cons, State.weight_foldl_open (by rw [hstep]; rfl), hweight,
          Option.isSome_none, if_neg (by decide), List.dropWhile_cons_of_neg (by simpa using hheader),
          List.map_cons, List.sum_cons, hworth, Nat.zero_add]
      · rw [List.foldl_cons, h.step_passed hcurrent hheader, ih, Option.isSome_none,
          if_neg (by decide), List.dropWhile_cons_of_pos (by simpa using hheader)]
        rfl
  · rw [State.weight_foldl_open (by rw [hcurrent]; rfl), State.seen, hcurrent]
    rfl

theorem sum_seen_le (s : State) (rows : List Text) :
    ((s.seen rows).map worth).sum ≤ (rows.map worth).sum := by
  rw [State.seen]
  split
  · exact le_rfl
  · exact ((List.dropWhile_sublist _).map worth).sum_le_sum fun _ _ => Nat.zero_le _

/-! ### Lines -/

/-- How much a line says. -/
def lineWeight : Line → Nat
  | .text t => Text.weight t
  | .bullets items => total items
  | _ => 0

def linesWeight (lines : List Line) : Nat :=
  (lines.map lineWeight).sum

theorem linesWeight_labelled (label : Text) (body : List Line) :
    linesWeight (Line.labelled label body) = linesWeight body := by
  cases body with
  | nil => rfl
  | cons line body => simp [Line.labelled, linesWeight, lineWeight]

theorem linesWeight_description (texts : List Text) :
    linesWeight (descriptionLines texts) = total texts := by
  cases texts with
  | nil => rfl
  | cons t texts => simp [descriptionLines, linesWeight, lineWeight, weight_join]

theorem linesWeight_bullets (texts : List Text) : linesWeight (bulletList texts) = total texts := by
  cases texts with
  | nil => rfl
  | cons t texts => simp [bulletList, linesWeight, lineWeight]

/-- Labels do not count. -/
theorem linesWeight_sections (description arguments returns raises : List Text) :
    linesWeight (sections
      [ ("Description:".toList, descriptionLines description),
        ("Arguments:".toList, bulletList arguments),
        ("Returns:".toList, bulletList returns),
        ("Raises:".toList, bulletList raises) ]) =
      total description + total arguments + total returns + total raises := by
  have happend : ∀ ls others, linesWeight (ls ++ others) = linesWeight ls + linesWeight others := by
    simp [linesWeight]
  simp only [sections, List.flatMap_cons, List.flatMap_nil, happend, linesWeight_labelled,
    linesWeight_description, linesWeight_bullets]
  simp only [linesWeight, List.map_nil, List.sum_nil]
  omega

theorem linesWeight_finish (s : State) : linesWeight s.finish = s.weight := by
  rw [State.finish, linesWeight_sections]
  simp only [total_reverse, State.weight]

end Scholia.Comment.Docstring
