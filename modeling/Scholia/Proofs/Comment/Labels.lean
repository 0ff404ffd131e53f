import Scholia.Proofs.Comment.Docstring
import Scholia.Proofs.Text.Join
/-!
# Labels in banner comments

A line between banners says what stands behind its quote (`Quotes`). What it does to the reader is
decided by the label that it begins with, or by the label before it if it begins with none. From this
follow two statements about whole comments.

* Free text may stand on the line of its label or on the line below it, and is read alike but for two
  texts, which are named (`read_inline_iff`). That these two are read differently is seen by counting
  characters: what was read before and what is read after are the same on both sides.
* A block of sections is read back as it was written, in whatever order its sections stand
  (`read_sections`). The grammar of its rows does not mention the reader: of a row of the form
  `name - text (type)` the type is the last word in parentheses, whatever dashes and parentheses stand
  in the text, and a text is kept with one stop for any number of stops.
-/

namespace Scholia.Comment.Banner

open Doc (Line)
open Docstring (linesWeight total)
open Source.Procedural (isBanner)
open Text (allBlank isBlank isWordChar join trim trimEnd trimEndWhere trimStart trimStartWhere)

/-! ## Quoted lines -/

/-- A line that says a text: behind blanks a quote, and behind the quote the text, with blanks around
it. A text that begins with a quote itself stands apart from the quote of its line. -/
def Quotes (line text : Text) : Prop :=
  ∃ lead said, line = lead ++ '\'' :: said ∧ allBlank lead = true ∧ said.head? ≠ some '\'' ∧
    trim said = text

/-- Ten equals signs or more: behind a quote, a banner. -/
def IsRule (text : Text) : Prop :=
  10 ≤ text.length ∧ ∀ c ∈ text, c = '='

instance (text : Text) : Decidable (IsRule text) :=
  inferInstanceAs (Decidable (10 ≤ text.length ∧ ∀ c ∈ text, c = '='))

variable {line text row : Text} {s : State}

theorem Quotes.trimmed (h : Quotes line text) : trim text = text := by
  obtain ⟨lead, said, -, -, -, rfl⟩ := h
  exact Text.trim_trim said

theorem Quotes.trim_line (h : Quotes line text) : ∃ said, trim line = '\'' :: said ∧
    said.head? ≠ some '\'' ∧ trim said = text := by
  obtain ⟨lead, said, rfl, hlead, hhead, rfl⟩ := h
  refine ⟨trimEnd said, ?_, ?_, Text.trim_trimEnd said⟩
  · rw [trim, Text.trimStart_ink hlead (by decide)]
    exact Text.trimEnd_stop (by decide) [] said
  · obtain ⟨tail, he, -⟩ := Text.trimEndWhere_append isBlank said
    intro hquote
    refine hhead ?_
    rw [he, List.head?_append]
    exact Option.or_eq_some_iff.2 (.inl hquote)

theorem Quotes.content (h : Quotes line text) : content line = text := by
  obtain ⟨said, htrim, hhead, hsaid⟩ := h.trim_line
  have hdrop : trimStartWhere (· == '\'') ('\'' :: said) = said := by
    rw [trimStartWhere, List.dropWhile_cons_of_pos (by simp)]
    cases said with
    | nil => rfl
    | cons c said =>
      refine List.dropWhile_cons_of_neg ?_
      simpa using hhead
  rw [Banner.content, htrim, hdrop, hsaid]

/-- **A quoted line is a banner exactly if it says a row of equals signs**. -/
theorem Quotes.isBanner_iff (h : Quotes line text) : isBanner line = true ↔ IsRule text := by
  obtain ⟨said, htrim, -, hsaid⟩ := h.trim_line
  unfold isBanner
  rw [htrim]
  simp [hsaid, IsRule]

/-- What a quoted line does: nothing if it says nothing or is a banner. -/
theorem Quotes.step (h : Quotes line text) (s : State) :
    s.step line = if text = [] ∨ IsRule text then s else s.addLine text := by
  unfold State.step
  rw [h.content]
  by_cases hrule : IsRule text
  · rw [if_pos (h.isBanner_iff.2 hrule), if_pos (.inr hrule)]
  · rw [if_neg (mt h.isBanner_iff.1 hrule)]
    cases text with
    | nil => rfl
    | cons c text => exact (if_neg (by simpa using hrule)).symm

/-- A row behind a quote and a space. -/
def quoted (row : Text) : Text :=
  "' ".toList ++ row

theorem quotes_quoted (h : trim row = row) : Quotes (quoted row) row :=
  ⟨[], ' ' :: row, rfl, rfl, by simp, (Text.trim_blanks (w := [' ']) rfl row).trans h⟩

/-- The shortest banner. -/
def banner : Text :=
  "'==========".toList

/-! ## Labels -/

/-- What a section is opened with. -/
inductive Label where
  | description
  | parameters
  | returns
  | errors
  deriving Repr, DecidableEq

def Label.word : Label → Text
  | description => "Description:".toList
  | parameters => "Parameters:".toList
  | returns => "Returns:".toList
  | errors => "Error Handling:".toList

/-- A text that begins with no label. -/
def IsFree (text : Text) : Prop :=
  ∀ label : Label, ¬ label.word <+: text

/-- **A line without a label goes on with the section that is open**. -/
theorem addLine_free (h : IsFree text) : s.addLine text = s.addText text := by
  have hdescription : Text.dropLead? "Description:".toList text = none :=
    Text.dropLead?_eq_none (h .description)
  have hparameters : ¬ "Parameters:".toList.isPrefixOf text = true :=
    mt List.isPrefixOf_iff_prefix.1 (h .parameters)
  have hreturns : ¬ "Returns:".toList.isPrefixOf text = true :=
    mt List.isPrefixOf_iff_prefix.1 (h .returns)
  have herrors : Text.dropLead? "Error Handling:".toList text = none :=
    Text.dropLead?_eq_none (h .errors)
  unfold State.addLine
  rw [hdescription]
  simp only
  rw [if_neg hparameters, if_neg hreturns, herrors]

theorem addLine_description (u : Text) : s.addLine (Label.description.word ++ u) =
    { s with current := .description, description := addFree (trim u) s.description } := by
  have hlead : Text.dropLead? "Description:".toList (Label.description.word ++ u) = some u :=
    Text.dropLead?_eq_some_iff.2 rfl
  simp only [State.addLine, hlead]

theorem addLine_parameters : s.addLine Label.parameters.word = { s with current := .parameters } :=
  rfl

theorem addLine_returns (u : Text) : s.addLine (Label.returns.word ++ u) =
    { s with current := .none, returns := (returned? (Label.returns.word ++ u)).or s.returns } := by
  rfl

theorem addLine_errors (u : Text) : s.addLine (Label.errors.word ++ u) =
    { s with
      current := .errors
      errors := if trim u = "None".toList then s.errors else addFree (trim u) s.errors } := by
  rfl

/-! ## Free text -/

/-- A label of a section of free text, opened with these texts in it, the last first. -/
def State.opened (s : State) (label : Label) (texts : List Text) : State :=
  match label with
  | .description => { s with current := .description, description := texts ++ s.description }
  | .errors => { s with current := .errors, errors := texts ++ s.errors }
  | .parameters | .returns => s

/-- Whether a text says that there is nothing to say. -/
def IsNone (text : Text) : Prop :=
  text = "None".toList ∨ text = "None.".toList

instance (text : Text) : Decidable (IsNone text) :=
  inferInstanceAs (Decidable (_ ∨ _))

/-- What is kept of text on the line of its label. -/
def keptInline (label : Label) (text : Text) : List Text :=
  if text = [] ∨ label = .errors ∧ text = "None".toList then [] else [text]

/-- What is kept of text on the line below its label. -/
def keptBelow (label : Label) (text : Text) : List Text :=
  if text = [] ∨ IsRule text ∨ label = .errors ∧ IsNone text then [] else [text]

variable {label : Label}

theorem Label.word_ne (label : Label) (u : Text) :
    label.word ++ u ≠ [] ∧ ¬ IsRule (label.word ++ u) := by
  have hhead : ∃ c r, label.word = c :: r ∧ c ≠ '=' := by
    cases label <;> exact ⟨_, _, rfl, by decide⟩
  obtain ⟨c, r, hword, hc⟩ := hhead
  rw [hword]
  exact ⟨List.cons_ne_nil _ _, fun hrule => hc (hrule.2 c List.mem_cons_self)⟩

theorem addFree_of_ne (h : text ≠ []) (texts : List Text) : addFree text texts = text :: texts :=
  if_neg (by simpa using h)

/-- The line of a label, with text behind it. -/
theorem step_inline (hlabel : label = .description ∨ label = .errors) {gap : Text}
    (hgap : allBlank gap = true) (htext : trim text = text)
    (hline : Quotes line (label.word ++ (gap ++ text))) :
    s.step line = s.opened label (keptInline label text) := by
  obtain ⟨hne, hrule⟩ := label.word_ne (gap ++ text)
  have htrim : trim (gap ++ text) = text := (Text.trim_blanks hgap text).trans htext
  rw [hline.step, if_neg (not_or.2 ⟨hne, hrule⟩)]
  by_cases hempty : text = []
  · rw [keptInline, if_pos (.inl hempty)]
    rcases hlabel with rfl | rfl
    · rw [addLine_description, htrim, hempty]
      rfl
    · rw [addLine_errors, htrim, hempty]
      rfl
  rcases hlabel with rfl | rfl
  · have hkept : keptInline .description text = [text] :=
      if_neg (not_or.2 ⟨hempty, fun h => nomatch h.1⟩)
    rw [addLine_description, htrim, addFree_of_ne hempty, hkept]
    rfl
  · rw [addLine_errors, htrim]
    by_cases hnone : text = "None".toList
    · rw [if_pos hnone, keptInline, if_pos (.inr ⟨rfl, hnone⟩)]
      rfl
    · have hkept : keptInline .errors text = [text] :=
        if_neg (not_or.2 ⟨hempty, fun h => hnone h.2⟩)
      rw [if_neg hnone, addFree_of_ne hempty, hkept]
      rfl

/-- A line of the error handling. -/
theorem addText_errors (hs : s.current = .errors) (text : Text) :
    s.addText text = if IsNone text then s else { s with errors := text :: s.errors } := by
  have hiff : (decide (text = "None".toList) || decide (text = "None.".toList)) = true ↔
      IsNone text := by
    rw [Bool.or_eq_true, decide_eq_true_eq, decide_eq_true_eq, IsNone]
  rw [State.addText, hs]
  simp only
  by_cases hnone : IsNone text
  · rw [if_pos hnone, if_pos (hiff.2 hnone)]
  · rw [if_neg hnone, if_neg (mt hiff.1 hnone)]

/-- The line of a label alone, and the text on the line below. -/
theorem step_below (hlabel : label = .description ∨ label = .errors) {below : Text}
    (hline : Quotes line label.word) (htext : IsFree text) (hbelow : Quotes below text) :
    (s.step line).step below = s.opened label (keptBelow label text) := by
  have halone : s.step line = s.opened label [] := by
    have hline' : Quotes line (label.word ++ ([] ++ [])) := by rwa [List.append_nil, List.append_nil]
    rw [step_inline hlabel rfl rfl hline']
    rfl
  rw [halone, hbelow.step, addLine_free htext]
  by_cases hidle : text = [] ∨ IsRule text
  · have hkept : keptBelow label text = [] := if_pos (hidle.imp_right .inl)
    rw [if_pos hidle, hkept]
  obtain ⟨hempty, hrule⟩ := not_or.1 hidle
  rw [if_neg hidle]
  rcases hlabel with rfl | rfl
  · have hkept : keptBelow .description text = [text] :=
      if_neg (not_or.2 ⟨hempty, not_or.2 ⟨hrule, fun h => nomatch h.1⟩⟩)
    rw [hkept]
    rfl
  · rw [addText_errors rfl, keptBelow]
    by_cases hnone : IsNone text
    · rw [if_pos hnone, if_pos (.inr (.inr ⟨rfl, hnone⟩))]
    · rw [if_neg hnone, if_neg (not_or.2 ⟨hempty, not_or.2 ⟨hrule, fun h => hnone h.2⟩⟩)]
      rfl

/-! ## What stands below what is read -/

/-- A state, and free text that was read before all that it holds. -/
def State.upon (s : State) (description errors : List Text) : State :=
  { s with description := s.description ++ description, errors := s.errors ++ errors }

section

variable (d e : List Text)

theorem State.addText_upon (s : State) (line : Text) :
    (s.upon d e).addText line = (s.addText line).upon d e := by
  unfold State.addText
  have hcurrent : (s.upon d e).current = s.current := rfl
  rw [hcurrent]
  cases s.current with
  | none => rfl
  | description => rfl
  | parameters => rfl
  | errors =>
    simp only
    split <;> rfl

theorem addFree_append (text : Text) (texts below : List Text) :
    addFree text (texts ++ below) = addFree text texts ++ below := by
  unfold addFree
  split <;> rfl

theorem State.addLine_upon (s : State) (line : Text) :
    (s.upon d e).addLine line = (s.addLine line).upon d e := by
  unfold State.addLine
  cases Text.dropLead? "Description:".toList line with
  | some rest => simp only [State.upon, addFree_append]
  | none =>
    simp only
    split
    · rfl
    split
    · rfl
    cases Text.dropLead? "Error Handling:".toList line with
    | some rest =>
      simp only [State.upon, addFree_append]
      split <;> rfl
    | none => exact State.addText_upon d e s line

theorem State.step_upon (s : State) (line : Text) :
    (s.upon d e).step line = (s.step line).upon d e := by
  unfold State.step
  split
  · rfl
  simp only
  split
  · rfl
  · exact State.addLine_upon d e s _

/-- **What was read before makes no difference to what is read**. -/
theorem State.foldl_upon (s : State) (lines : List Text) :
    lines.foldl State.step (s.upon d e) = (lines.foldl State.step s).upon d e := by
  induction lines generalizing s with
  | nil => rfl
  | cons line lines ih => rw [List.foldl_cons, State.step_upon, ih, List.foldl_cons]

end

/-! ## Text on the line of its label -/

/-- Documentation has all characters of what it was made of. -/
theorem linesWeight_finish (s : State) : linesWeight s.finish =
    total s.description + total s.parameters + total s.returns.toList + total s.errors := by
  have happend : ∀ ls others, linesWeight (ls ++ others) = linesWeight ls + linesWeight others := by
    simp [linesWeight]
  have htexts : ∀ texts : List Text, linesWeight (texts.map Line.text) = total texts := by
    intro texts
    rw [linesWeight, List.map_map]
    rfl
  have hreturns : (s.returns.map Line.text).toList = s.returns.toList.map Line.text := by
    cases s.returns <;> rfl
  simp only [State.finish, sections, List.flatMap_cons, List.flatMap_nil, happend,
    Docstring.linesWeight_labelled, Docstring.linesWeight_description, Docstring.linesWeight_bullets,
    hreturns, htexts, Docstring.total_reverse, List.append_nil]
  omega

theorem linesWeight_upon (s : State) (d e : List Text) :
    linesWeight (s.upon d e).finish = linesWeight s.finish + total d + total e := by
  simp only [linesWeight_finish, State.upon, Docstring.total_append]
  omega

/-- **What is kept of text shows in the documentation**. -/
theorem linesWeight_opened (hlabel : label = .description ∨ label = .errors) (s : State)
    (texts lines : List Text) : linesWeight (lines.foldl State.step (s.opened label texts)).finish =
      linesWeight (lines.foldl State.step (s.opened label [])).finish + total texts := by
  have key : ∃ t : State, ∃ d e : List Text, ∀ texts : List Text,
      s.opened label texts = t.upon (texts ++ d) e ∨ s.opened label texts = t.upon d (texts ++ e) := by
    rcases hlabel with rfl | rfl
    · refine ⟨{ s with current := .description, description := [] }, s.description, [], ?_⟩
      exact fun texts => .inl (by simp [State.upon, State.opened])
    · refine ⟨{ s with current := .errors, errors := [] }, [], s.errors, ?_⟩
      exact fun texts => .inr (by simp [State.upon, State.opened])
  obtain ⟨t, d, e, hopened⟩ := key
  have hweight : ∀ texts, linesWeight (lines.foldl State.step (s.opened label texts)).finish =
      linesWeight (lines.foldl State.step t).finish + total texts + total d + total e := by
    intro texts
    rcases hopened texts with h | h
    all_goals
      rw [h, State.foldl_upon, linesWeight_upon, Docstring.total_append]
      omega
  rw [hweight, hweight, Docstring.total_nil]
  omega

/-- A banner comment is read line by line if its banners are two at least. -/
theorem read_eq {raw : Text} (h : 2 ≤ ((Text.lines raw).filter isBanner).length) :
    Comment.read .visualBasic raw = .ok ((Text.lines raw).foldl State.step .initial).finish := by
  have hink : allBlank raw = false := by
    obtain ⟨line, hline⟩ := List.exists_mem_of_length_pos (Nat.lt_of_lt_of_le Nat.zero_lt_two h)
    obtain ⟨hmem, hbanner⟩ := List.mem_filter.1 hline
    rw [← Bool.not_eq_true]
    intro hblank
    have hline : allBlank line = true :=
      List.all_eq_true.2 fun c hc => List.all_eq_true.1 hblank c (Text.mem_of_mem_lines hmem hc)
    unfold isBanner at hbanner
    rw [show trim line = [] by rw [trim, Text.trimStart_of_allBlank hline]; rfl] at hbanner
    cases hbanner
  rw [Comment.read, hink]
  show read raw = _
  rw [read]
  split
  · omega
  · omega
  · rfl

/-- What is kept of text on either line differs for rows of equals signs and for `None.` only. -/
theorem keptBelow_eq (h : ¬ (IsRule text ∨ label = .errors ∧ text = "None.".toList)) :
    keptBelow label text = keptInline label text := by
  obtain ⟨hrule, hnone⟩ := not_or.1 h
  have hiff : (text = [] ∨ IsRule text ∨ label = .errors ∧ IsNone text) ↔
      (text = [] ∨ label = .errors ∧ text = "None".toList) := by
    refine or_congr_right ⟨?_, fun h => .inr ⟨h.1, .inl h.2⟩⟩
    rintro (h | ⟨hlabel, h | h⟩)
    · exact absurd h hrule
    · exact ⟨hlabel, h⟩
    · exact absurd ⟨hlabel, h⟩ hnone
  simp only [keptBelow, keptInline, hiff]

theorem total_keptBelow_ne (h : IsRule text ∨ label = .errors ∧ text = "None.".toList) :
    total (keptInline label text) ≠ total (keptBelow label text) := by
  have hbelow : keptBelow label text = [] := by
    refine if_pos (.inr (h.imp_right fun ⟨hlabel, hnone⟩ => ⟨hlabel, .inr hnone⟩))
  have hink : ∃ c ∈ text, isBlank c = false ∧ text ≠ "None".toList := by
    rcases h with ⟨hlength, hequals⟩ | ⟨-, rfl⟩
    · obtain ⟨c, hc⟩ := List.exists_mem_of_length_pos (Nat.lt_of_lt_of_le (by decide) hlength)
      obtain rfl := hequals c hc
      refine ⟨'=', hc, by decide, ?_⟩
      rintro rfl
      exact absurd hlength (by decide)
    · exact ⟨'N', List.mem_cons_self, by decide, by decide⟩
  obtain ⟨c, hc, hblank, hnone⟩ := hink
  have hinline : keptInline label text = [text] :=
    if_neg (not_or.2 ⟨List.ne_nil_of_mem hc, fun h => hnone h.2⟩)
  rw [hinline, hbelow, Docstring.total_cons, Docstring.total_nil, Nat.add_zero, Ne,
    Text.weight_eq_zero_iff]
  exact fun hall => Text.not_mem_of_allBlank hblank hall hc

/-- **Free text may stand on the line of its label or on the line below**, wherever the section stands,
but for two texts: a row of equals signs is no text on a line of its own, but a banner, and `None.`
says on the line below that there is nothing to say, but not on the line of the label. -/
theorem read_inline_iff (hlabel : label = .description ∨ label = .errors) (htext : IsFree text)
    {gap inline alone below raw raw' : Text} {before after : List Text} (hgap : allBlank gap = true)
    (hinline : Quotes inline (label.word ++ (gap ++ text))) (halone : Quotes alone label.word)
    (hbelow : Quotes below text) (hraw : Text.lines raw = before ++ inline :: after)
    (hraw' : Text.lines raw' = before ++ alone :: below :: after)
    (hbanners : 2 ≤ ((before ++ after).filter isBanner).length) :
    Comment.read .visualBasic raw = Comment.read .visualBasic raw' ↔
      ¬ (IsRule text ∨ label = .errors ∧ text = "None.".toList) := by
  have henough : ∀ middle, 2 ≤ ((before ++ (middle ++ after)).filter isBanner).length := by
    intro middle
    have hkept : (before ++ after).Sublist (before ++ (middle ++ after)) :=
      (List.sublist_append_right middle after).append_left before
    exact hbanners.trans (hkept.filter isBanner).length_le
  rw [read_eq (by rw [hraw]; exact henough [inline]), hraw,
    read_eq (by rw [hraw']; exact henough [alone, below]), hraw', Except.ok.injEq]
  simp only [List.foldl_append, List.foldl_cons]
  rw [step_inline hlabel hgap hbelow.trimmed hinline, step_below hlabel halone htext hbelow]
  constructor
  · intro hread hexcept
    have hweight := congrArg linesWeight hread
    rw [linesWeight_opened hlabel, linesWeight_opened hlabel _ (keptBelow label text)] at hweight
    exact total_keptBelow_ne hexcept (Nat.add_left_cancel hweight)
  · intro hplain
    rw [keptBelow_eq hplain]

/-- A comment of these rows between banners. -/
def block (rows : List Text) : Text :=
  join ['\n'] (banner :: (rows.map quoted ++ [banner]))

/-- What is said of errors, between two other sections, on the line of its label or below it. -/
theorem read_inline_iff_errors :
    (IsFree "Throws.".toList ∧ ¬ IsRule "Throws.".toList) ∧
    Comment.read .visualBasic (block
      (["Returns: Integer - The sum", "Error Handling: Throws.", "Description: Adds."].map (·.toList))) =
    Comment.read .visualBasic (block
      (["Returns: Integer - The sum", "Error Handling:", "Throws.",
        "Description: Adds."].map (·.toList))) := by
  have hfree : IsFree "Throws.".toList := by
    intro label
    cases label <;> decide
  have hplain : ¬ (IsRule "Throws.".toList ∨
      Label.errors = .errors ∧ "Throws.".toList = "None.".toList) := by
    decide
  have hinline : Quotes (quoted "Error Handling: Throws.".toList)
      (Label.errors.word ++ ([' '] ++ "Throws.".toList)) := quotes_quoted (by decide)
  have halone : Quotes (quoted "Error Handling:".toList) Label.errors.word :=
    quotes_quoted (by decide)
  have hbelow : Quotes (quoted "Throws.".toList) "Throws.".toList := quotes_quoted (by decide)
  have hgap : allBlank [' '] = true := rfl
  have hbanners : 2 ≤ (([banner, quoted "Returns: Integer - The sum".toList] ++
      [quoted "Description: Adds.".toList, banner]).filter isBanner).length := by decide
  refine ⟨⟨hfree, by decide⟩,
    (read_inline_iff (.inr rfl) hfree hgap hinline halone hbelow ?_ ?_ hbanners).2 hplain⟩
  · decide +kernel
  · decide +kernel

/-- **`None.` is text on the line of its label**, and says nothing on the line below. -/
theorem read_none_inline :
    Comment.read .visualBasic (block ["Error Handling: None.".toList]) =
        .ok [.bold "Error Handling:".toList, .text "None.".toList] ∧
      Comment.read .visualBasic (block ["Error Handling:".toList, "None.".toList]) = .ok [] := by
  decide +kernel

/-! ## Sentences and parameters -/

/-- A word, as names and types are. -/
def IsWord (w : Text) : Prop :=
  w ≠ [] ∧ ∀ c ∈ w, isWordChar c = true

/-- A trimmed text that is another, which ends with no stop, with any number of stops behind it. -/
def IsStopped (said text : Text) : Prop :=
  trim said = said ∧ text.getLast? ≠ some '.' ∧ ∃ stops, said = text ++ List.replicate stops '.'

/-- A parameter: its name, what is said of it, without the stops at its end, and its type. -/
structure Parameter where
  name : Text
  text : Text
  type : Text
  deriving Repr, DecidableEq

/-- A row of a parameter: `name - text (type)`, with any blanks around the dash and before the type. -/
def Parameter.IsIn (p : Parameter) (row : Text) : Prop :=
  IsWord p.name ∧ IsWord p.type ∧ ∃ before after gap said,
    allBlank before = true ∧ allBlank after = true ∧ allBlank gap = true ∧ IsStopped said p.text ∧
    row = p.name ++ (before ++ '-' :: (after ++ (said ++ (gap ++ '(' :: (p.type ++ [')'])))))

/-- The point for a parameter. -/
def Parameter.point (p : Parameter) : Text :=
  p.name ++ " (".toList ++ p.type ++ "). ".toList ++ p.text ++ ['.']

/-- A row of what is returned: `Returns: type - text`. -/
def IsReturn (type text row : Text) : Prop :=
  IsWord type ∧ ∃ gap before after said,
    allBlank gap = true ∧ allBlank before = true ∧ allBlank after = true ∧ IsStopped said text ∧
    row = Label.returns.word ++ (gap ++ (type ++ (before ++ '-' :: (after ++ said))))

variable {said : Text} {p : Parameter}

theorem IsStopped.sentence_eq (h : IsStopped said text) : sentence said = text ++ ['.'] := by
  obtain ⟨htrim, hlast, stops, rfl⟩ := h
  rw [sentence, htrim, trimEndWhere, List.reverse_append, List.reverse_replicate,
    List.dropWhile_append_of_pos (by simp)]
  have hstop : text.reverse.dropWhile (· == '.') = text.reverse := by
    cases hrev : text.reverse with
    | nil => rfl
    | cons c r =>
      refine List.dropWhile_cons_of_neg ?_
      rw [← List.head?_reverse, hrev] at hlast
      simpa using hlast
  rw [hstop, List.reverse_reverse]

/-- Any trimmed text is some text with stops behind it. -/
theorem exists_isStopped (h : trim said = said) : ∃ text, IsStopped said text := by
  obtain ⟨tail, he, htail⟩ := Text.trimEndWhere_append (· == '.') said
  refine ⟨trimEndWhere (· == '.') said, h, ?_, tail.length, ?_⟩
  · intro hlast
    rw [trimEndWhere, List.getLast?_reverse] at hlast
    have hstop := List.head?_dropWhile_not (· == '.') said.reverse
    rw [hlast] at hstop
    simp at hstop
  · rw [← List.eq_replicate_of_mem fun c hc => by simpa using List.all_eq_true.1 htail c hc]
    exact he

theorem isWord_head (h : IsWord text) : ∃ c r, text = c :: r ∧ isBlank c = false := by
  obtain ⟨hne, hword⟩ := h
  obtain ⟨c, r, rfl⟩ := List.exists_cons_of_ne_nil hne
  refine ⟨c, r, rfl, ?_⟩
  rw [← Bool.not_eq_true]
  exact fun hb => absurd (hword c List.mem_cons_self) (by rw [Text.isWordChar_of_isBlank hb]; decide)

/-- **A dash behind a word** is found, with any blanks before it. -/
theorem dashed?_eq_some_iff {name rest : Text} : dashed? row = some (name, rest) ↔
    IsWord name ∧ ∃ before after, allBlank before = true ∧ row = name ++ (before ++ '-' :: after) ∧
      rest = trimStart after := by
  constructor
  · intro h
    unfold dashed? at h
    split at h
    · cases h
    · next word tail hne hspan =>
      obtain ⟨rfl, rfl⟩ := Prod.mk.inj hspan
      split at h
      · next after hafter =>
        obtain ⟨rfl, rfl⟩ := Prod.mk.inj (Option.some.inj h)
        obtain ⟨before, he, hbefore⟩ := Text.append_trimStartWhere isBlank (row.dropWhile isWordChar)
        refine ⟨⟨hne, fun c => List.mem_takeWhile_imp⟩, before, after, hbefore, ?_, rfl⟩
        rw [← hafter]
        conv_lhs => rw [← List.takeWhile_append_dropWhile (p := isWordChar) (l := row), he]
        rfl
      · cases h
  · rintro ⟨hname, before, after, hbefore, rfl, rfl⟩
    have hstop : ∀ c, (before ++ '-' :: after).head? = some c → isWordChar c = false := by
      intro c hc
      cases before with
      | nil =>
        cases hc
        decide
      | cons b before =>
        cases hc
        exact Text.isWordChar_of_isBlank (List.all_eq_true.1 hbefore _ List.mem_cons_self)
    obtain ⟨c, r, he, -⟩ := isWord_head hname
    unfold dashed?
    rw [Text.spanWord_append hname.2 hstop, he]
    simp only
    rw [Text.trimStart_ink hbefore (by decide)]
    rfl

/-- **A word in parentheses at the end of a text** is found, and what stands before it. -/
theorem trailingWord?_eq_some_iff {s before type : Text} :
    trailingWord? s = some (before, type) ↔ IsWord type ∧
      ∃ lead, trimEnd s = lead ++ '(' :: (type ++ [')']) ∧ before = trimEnd lead := by
  constructor
  · intro h
    unfold trailingWord? at h
    split at h
    · next r hrev =>
      simp only at h
      split at h
      · next c word lead hword hdrop =>
        obtain ⟨rfl, rfl⟩ := Prod.mk.inj (Option.some.inj h)
        have htake : r.take (r.takeWhile isWordChar).length = r.takeWhile isWordChar :=
          (List.prefix_iff_eq_take.1 (List.takeWhile_prefix _)).symm
        have hr : r = r.takeWhile isWordChar ++ '(' :: lead := by
          conv_lhs => rw [← List.take_append_drop (r.takeWhile isWordChar).length r, htake, hdrop]
        refine ⟨⟨?_, fun c hc => List.mem_takeWhile_imp (List.mem_reverse.1 hc)⟩, lead.reverse, ?_, rfl⟩
        · rw [hword]
          simp
        · have hend := congrArg List.reverse hrev
          rw [List.reverse_reverse, hr] at hend
          rw [hend]
          simp
      · cases h
    · cases h
  · rintro ⟨⟨hne, hword⟩, lead, he, rfl⟩
    have hrev : (trimEnd s).reverse = ')' :: (type.reverse ++ '(' :: lead.reverse) := by
      rw [he]
      simp
    have htake : (type.reverse ++ '(' :: lead.reverse).takeWhile isWordChar = type.reverse := by
      rw [List.takeWhile_append_of_pos fun c hc => hword c (List.mem_reverse.1 hc)]
      exact List.append_right_eq_self.2 (List.takeWhile_cons_of_neg (by decide))
    obtain ⟨c, r, htype⟩ := List.exists_cons_of_ne_nil (List.reverse_ne_nil_iff.2 hne)
    unfold trailingWord?
    rw [hrev]
    simp only [htake, List.drop_left]
    rw [htype]
    show some (trimEnd lead.reverse.reverse, (c :: r).reverse) = _
    rw [List.reverse_reverse, ← htype, List.reverse_reverse]

/-- **A row of a parameter is read as its point**. -/
theorem Parameter.IsIn.eq (h : p.IsIn row) : parameter? row = some p.point := by
  obtain ⟨hname, htype, before, after, gap, said, hbefore, hafter, hgap, hsaid, rfl⟩ := h
  have hdashed : dashed? (p.name ++ (before ++ '-' ::
      (after ++ (said ++ (gap ++ '(' :: (p.type ++ [')'])))))) =
        some (p.name, trimStart (after ++ (said ++ (gap ++ '(' :: (p.type ++ [')']))))) :=
    dashed?_eq_some_iff.2 ⟨hname, before, _, hbefore, rfl, rfl⟩
  have hrest : ∃ lead, trimStart (after ++ (said ++ (gap ++ '(' :: (p.type ++ [')'])))) =
      lead ++ '(' :: (p.type ++ [')']) ∧ trimEnd lead = said := by
    cases said with
    | nil =>
      refine ⟨[], ?_, rfl⟩
      rw [List.nil_append, ← List.append_assoc, Text.trimStart_ink _ (by decide)]
      · rfl
      · rw [Text.allBlank_append, hafter, hgap]
        rfl
    | cons c r =>
      refine ⟨(c :: r) ++ gap, ?_, ?_⟩
      · rw [List.cons_append, Text.trimStart_ink hafter (Text.head_of_trimmed hsaid.1 rfl)]
        simp
      · rw [Text.trimEnd_append hgap, Text.trimEnd_of_trimmed hsaid.1]
  obtain ⟨lead, hstart, hlead⟩ := hrest
  have hclosed : trimEnd (lead ++ '(' :: (p.type ++ [')'])) = lead ++ '(' :: (p.type ++ [')']) := by
    rw [← List.cons_append, ← List.append_assoc]
    exact Text.trimEnd_stop (by decide) _ []
  rw [hstart] at hdashed
  have htrailing : trailingWord? (lead ++ '(' :: (p.type ++ [')'])) = some (said, p.type) :=
    trailingWord?_eq_some_iff.2 ⟨htype, lead, hclosed, hlead.symm⟩
  rw [parameter?, hdashed]
  simp only [Option.bind_eq_bind, Option.bind_some, htrailing, hsaid.sentence_eq, Option.pure_def,
    Parameter.point, List.append_assoc]

/-- **What is read as a parameter is one**. -/
theorem exists_isIn (hrow : trim row = row) {point : Text} (h : parameter? row = some point) :
    ∃ p : Parameter, p.IsIn row := by
  unfold parameter? at h
  obtain ⟨⟨name, rest⟩, hdashed, h⟩ := Option.bind_eq_some_iff.1 h
  obtain ⟨⟨said, type⟩, htrailing, -⟩ := Option.bind_eq_some_iff.1 h
  obtain ⟨hname, before, tail, hbefore, he, rfl⟩ := dashed?_eq_some_iff.1 hdashed
  obtain ⟨htype, lead, hend, rfl⟩ := trailingWord?_eq_some_iff.1 htrailing
  obtain ⟨after, htail, hafter⟩ := Text.append_trimStartWhere isBlank tail
  obtain ⟨gap, hlead, hgap⟩ := Text.trimEndWhere_append isBlank lead
  have hsuffix : trimStart tail <:+ row := by
    refine ⟨name ++ (before ++ '-' :: after), ?_⟩
    rw [he]
    conv_rhs => rw [htail]
    simp [trimStart]
  rw [Text.trimEnd_of_suffix (Text.trimEnd_of_trimmed hrow) hsuffix] at hend
  have hsaid : trim (trimEnd lead) = trimEnd lead := by
    rw [trim, trimStart, Text.trimStartWhere_of_head, Text.trimEnd_trimEnd]
    intro c hc
    have hfirst : (trimStart tail).head? = some c := by
      rw [hend, hlead, List.append_assoc, List.head?_append]
      exact Option.or_eq_some_iff.2 (.inl hc)
    obtain ⟨x, hx⟩ := List.head?_eq_some_iff.1 hfirst
    exact Text.not_isBlank_of_trimStart hx
  obtain ⟨text, htext⟩ := exists_isStopped hsaid
  refine ⟨⟨name, text, type⟩, hname, htype, before, after, gap, trimEnd lead, hbefore, hafter, hgap,
    htext, ?_⟩
  rw [he, htail]
  show name ++ (before ++ '-' :: (after ++ trimStart tail)) = _
  rw [hend]
  conv_lhs => rw [hlead]
  simp [trimEnd]

/-- A row of a parameter begins with no label: no dash follows the first word of a label. -/
theorem Parameter.IsIn.isFree (h : p.IsIn row) : IsFree row := by
  have hlabel : ∀ (label : Label) (u : Text), dashed? (label.word ++ u) = none := by
    intro label u
    cases label <;> rfl
  rintro label ⟨u, rfl⟩
  have hpoint := h.eq
  rw [parameter?, hlabel] at hpoint
  cases hpoint

/-- **A row of what is returned is read as its text**. -/
theorem IsReturn.eq {type : Text} (h : IsReturn type text row) :
    returned? row = some ('(' :: type ++ "). ".toList ++ (text ++ ['.'])) := by
  obtain ⟨htype, gap, before, after, said, hgap, hbefore, hafter, hsaid, rfl⟩ := h
  obtain ⟨c, r, hhead, hc⟩ := isWord_head htype
  have hlead : Text.dropLead? "Returns:".toList
      (Label.returns.word ++ (gap ++ (type ++ (before ++ '-' :: (after ++ said))))) =
        some (gap ++ (type ++ (before ++ '-' :: (after ++ said)))) := Text.dropLead?_eq_some_iff.2 rfl
  have hstart : trimStart (gap ++ (type ++ (before ++ '-' :: (after ++ said)))) =
      type ++ (before ++ '-' :: (after ++ said)) := by
    rw [hhead]
    exact Text.trimStart_ink hgap hc _
  have hrest : trimStart (after ++ said) = said := by
    have hdrop : trimStart (after ++ said) = trimStart said :=
      List.dropWhile_append_of_pos (List.all_eq_true.1 hafter)
    exact hdrop.trans (Text.trimStartWhere_of_head fun c => Text.head_of_trimmed hsaid.1)
  have hdashed : dashed? (type ++ (before ++ '-' :: (after ++ said))) = some (type, said) :=
    dashed?_eq_some_iff.2 ⟨htype, before, after ++ said, hbefore, rfl, hrest.symm⟩
  rw [returned?, hlead]
  simp only [Option.bind_eq_bind, Option.bind_some, hstart, hdashed, hsaid.sentence_eq,
    Option.pure_def]

/-! ## Sections as they are written -/

/-- The rows of a section of parameters: those of its parameters, and rows of another form between
them. -/
inductive AreParameters : List Text → List Parameter → Prop
  | nil : AreParameters [] []
  | parameter {row rows p ps} (h : p.IsIn row) (rest : AreParameters rows ps) :
    AreParameters (row :: rows) (p :: ps)
  | other {row rows ps} (h : ∀ p : Parameter, ¬ p.IsIn row) (hfree : IsFree row)
    (rest : AreParameters rows ps) : AreParameters (row :: rows) ps

/-- A section: what stands on the line of its label, if anything, and on the lines after it. -/
inductive Part where
  | description (text : Text) (more : List Text)
  | parameters (parameters : List Parameter)
  | returns (type text : Text)
  | errors (lines : List Text)
  deriving Repr, DecidableEq

namespace Part

/-- The rows that a section is written in. -/
def IsIn : Part → List Text → Prop
  | description text more, rows => trim text = text ∧ (∀ row ∈ more, IsFree row) ∧
      ∃ gap, allBlank gap = true ∧ rows = (Label.description.word ++ (gap ++ text)) :: more
  | parameters ps, rows => ∃ body, AreParameters body ps ∧ rows = Label.parameters.word :: body
  | returns type text, rows => ∃ row, IsReturn type text row ∧ rows = [row]
  | errors lines, rows => (∀ row ∈ lines, IsFree row) ∧ rows = Label.errors.word :: lines

/-- The lines of the description. -/
def descriptions : Part → List Text
  | description text more => [text].filter (!·.isEmpty) ++ more
  | _ => []

/-- The points for parameters. -/
def points : Part → List Text
  | parameters ps => ps.map Parameter.point
  | _ => []

/-- What is returned: `(type). text.` -/
def returned : Part → List Text
  | returns type text => ['(' :: type ++ "). ".toList ++ (text ++ ['.'])]
  | _ => []

/-- The lines on errors, but for those that say that there is nothing to say. -/
def handled : Part → List Text
  | errors lines => lines.filter fun line => !decide (IsNone line)
  | _ => []

end Part

/-- The rows of sections, one section after the other. -/
inductive AreIn : List Part → List Text → Prop
  | nil : AreIn [] []
  | cons {part parts rows rest} (h : part.IsIn rows) (hrest : AreIn parts rest) :
    AreIn (part :: parts) (rows ++ rest)

/-- Rows as they are laid out in lines, each behind its quote. Between them there may be quotes with
nothing behind them, and banners. -/
inductive LaidOut : List Text → List Text → Prop
  | nil : LaidOut [] []
  | row {row line rows lines} (h : Quotes line row) (hplain : ¬ (row = [] ∨ IsRule row))
    (rest : LaidOut rows lines) : LaidOut (row :: rows) (line :: lines)
  | idle {row line rows lines} (h : Quotes line row) (hidle : row = [] ∨ IsRule row)
    (rest : LaidOut rows lines) : LaidOut rows (line :: lines)

/-- What sections say, each kind in its place and in the order of its sections. -/
def documentation (parts : List Part) : List Line :=
  sections
    [ ("Description:".toList, descriptionLines (parts.flatMap Part.descriptions)),
      ("Arguments:".toList, bulletList (parts.flatMap Part.points)),
      ("Return:".toList, ((parts.flatMap Part.returned).getLast?.map Line.text).toList),
      ("Error Handling:".toList, (parts.flatMap Part.handled).map .text) ]

variable {rows lines : List Text} {parts : List Part}

theorem LaidOut.trimmed (h : LaidOut rows lines) : ∀ row ∈ rows, trim row = row := by
  induction h with
  | nil => exact fun _ h => absurd h List.not_mem_nil
  | row h _ _ ih => exact List.forall_mem_cons.2 ⟨h.trimmed, ih⟩
  | idle _ _ _ ih => exact ih

/-- **Only the rows count**, and not how they are laid out. -/
theorem LaidOut.foldl (h : LaidOut rows lines) (s : State) :
    lines.foldl State.step s = rows.foldl State.addLine s := by
  induction h generalizing s with
  | nil => rfl
  | row h hplain _ ih => rw [List.foldl_cons, h.step, if_neg hplain, ih, List.foldl_cons]
  | idle h hidle _ ih => rw [List.foldl_cons, h.step, if_pos hidle, ih]

/-! ## Sections as they are read -/

/-- What has been read of sections besides, each kind in its place. -/
structure State.Gains (s t : State) (parts : List Part) : Prop where
  description : t.description = (parts.flatMap Part.descriptions).reverse ++ s.description
  parameters : t.parameters = (parts.flatMap Part.points).reverse ++ s.parameters
  returns : t.returns = (parts.flatMap Part.returned).getLast?.or s.returns
  errors : t.errors = (parts.flatMap Part.handled).reverse ++ s.errors

theorem State.Gains.refl (s : State) : s.Gains s [] :=
  ⟨rfl, rfl, rfl, rfl⟩

theorem State.Gains.trans {t u : State} {others : List Part} (h : s.Gains t parts)
    (h' : t.Gains u others) : s.Gains u (parts ++ others) where
  description := by rw [h'.description, h.description]; simp
  parameters := by rw [h'.parameters, h.parameters]; simp
  returns := by
    rw [h'.returns, h.returns, List.flatMap_append, List.getLast?_append, Option.or_assoc]
  errors := by rw [h'.errors, h.errors]; simp

theorem foldl_description {more : List Text} (hs : s.current = .description)
    (hmore : ∀ row ∈ more, IsFree row) : more.foldl State.addLine s =
      { s with description := more.reverse ++ s.description } := by
  induction more generalizing s with
  | nil => rfl
  | cons row more ih =>
    obtain ⟨hrow, hmore⟩ := List.forall_mem_cons.1 hmore
    have hstep : s.addLine row = { s with description := row :: s.description } := by
      rw [addLine_free hrow, State.addText, hs]
    have hnext := ih (s := { s with description := row :: s.description }) hs hmore
    rw [List.foldl_cons, hstep, hnext]
    simp

theorem foldl_errors (hs : s.current = .errors) (hlines : ∀ row ∈ lines, IsFree row) :
    lines.foldl State.addLine s =
      { s with errors := (lines.filter fun line => !decide (IsNone line)).reverse ++ s.errors } := by
  induction lines generalizing s with
  | nil => rfl
  | cons row lines ih =>
    obtain ⟨hrow, hlines⟩ := List.forall_mem_cons.1 hlines
    rw [List.foldl_cons, addLine_free hrow, addText_errors hs]
    by_cases hnone : IsNone row
    · rw [if_pos hnone, ih hs hlines, List.filter_cons_of_neg (by simp [hnone])]
    · have hnext := ih (s := { s with errors := row :: s.errors }) hs hlines
      rw [if_neg hnone, hnext, List.filter_cons_of_pos (by simp [hnone])]
      simp

theorem foldl_parameters {ps : List Parameter} (hs : s.current = .parameters)
    (h : AreParameters rows ps) (htrim : ∀ row ∈ rows, trim row = row) :
    rows.foldl State.addLine s =
      { s with parameters := (ps.map Parameter.point).reverse ++ s.parameters } := by
  have hstep : ∀ {s : State} {row : Text}, s.current = .parameters → IsFree row →
      s.addLine row = { s with parameters := (parameter? row).toList ++ s.parameters } := by
    intro s row hs hrow
    rw [addLine_free hrow, State.addText, hs]
  induction h generalizing s with
  | nil => rfl
  | @parameter row rows p ps hrow _ ih =>
    have hnext := ih (s := { s with parameters := p.point :: s.parameters }) hs
      (List.forall_mem_cons.1 htrim).2
    rw [List.foldl_cons, hstep hs hrow.isFree, hrow.eq]
    refine hnext.trans ?_
    simp
  | @other row rows ps hrow hfree _ ih =>
    obtain ⟨htrim, hrest⟩ := List.forall_mem_cons.1 htrim
    have hnone : parameter? row = none := by
      rw [Option.eq_none_iff_forall_ne_some]
      intro point hpoint
      obtain ⟨p, hp⟩ := exists_isIn htrim hpoint
      exact hrow p hp
    rw [List.foldl_cons, hstep hs hfree, hnone]
    exact ih hs hrest

/-- **A section is read whole**, whatever was open before it. -/
theorem gains_part {part : Part} (h : part.IsIn rows) (htrim : ∀ row ∈ rows, trim row = row) :
    s.Gains (rows.foldl State.addLine s) [part] := by
  cases part with
  | description text more =>
    obtain ⟨htext, hmore, gap, hgap, rfl⟩ := h
    rw [List.foldl_cons, addLine_description, foldl_description rfl hmore, Text.trim_blanks hgap,
      htext]
    refine ⟨?_, rfl, rfl, rfl⟩
    cases text <;> simp [addFree, Part.descriptions]
  | parameters ps =>
    obtain ⟨body, hbody, rfl⟩ := h
    rw [List.foldl_cons, addLine_parameters,
      foldl_parameters rfl hbody (List.forall_mem_cons.1 htrim).2]
    exact ⟨rfl, by simp [Part.points], rfl, rfl⟩
  | returns type text =>
    obtain ⟨row, hrow, rfl⟩ := h
    have heq := hrow.eq
    obtain ⟨-, gap, before, after, said, -, -, -, -, rfl⟩ := hrow
    rw [List.foldl_cons, addLine_returns, heq, List.foldl_nil]
    exact ⟨rfl, rfl, rfl, rfl⟩
  | errors lines =>
    obtain ⟨hlines, rfl⟩ := h
    have hlabel : s.addLine Label.errors.word = { s with current := .errors } := rfl
    rw [List.foldl_cons, hlabel, foldl_errors rfl hlines]
    exact ⟨rfl, rfl, rfl, by simp [Part.handled]⟩

theorem gains_parts (h : AreIn parts rows) (htrim : ∀ row ∈ rows, trim row = row) :
    s.Gains (rows.foldl State.addLine s) parts := by
  induction h generalizing s with
  | nil => exact .refl s
  | @cons part parts rows rest hpart _ ih =>
    obtain ⟨hrows, hrest⟩ := List.forall_mem_append.1 htrim
    rw [List.foldl_append]
    exact (gains_part hpart hrows).trans (ih hrest)

/-- **A block of sections is read back**, whatever their order: the reader finds the lines of the
description, one point for each parameter, what is returned, and the lines on errors. -/
theorem read_sections {raw top bottom : Text} (hparts : AreIn parts rows) (hrows : LaidOut rows lines)
    (hraw : Text.lines raw = top :: (lines ++ [bottom])) (htop : isBanner top = true)
    (hbottom : isBanner bottom = true) :
    Comment.read .visualBasic raw = .ok (documentation parts) := by
  have hbanners : 2 ≤ ((Text.lines raw).filter isBanner).length := by
    rw [hraw, List.filter_cons_of_pos htop, List.filter_append, List.filter_cons_of_pos hbottom]
    simp
  have hbanner : ∀ {line : Text}, isBanner line = true → ∀ s : State, s.step line = s :=
    fun hline _ => if_pos hline
  obtain ⟨hdescription, hparameters, hreturns, herrors⟩ :=
    gains_parts (s := .initial) hparts hrows.trimmed
  rw [read_eq hbanners, hraw, List.foldl_cons, hbanner htop, List.foldl_append, List.foldl_cons,
    hbanner hbottom, List.foldl_nil, hrows.foldl, State.finish, hdescription, hparameters, hreturns,
    herrors, documentation]
  simp [State.initial]

theorem laidOut_quoted (h : ∀ row ∈ rows, trim row = row ∧ ¬ (row = [] ∨ IsRule row)) :
    LaidOut rows (rows.map quoted) := by
  induction rows with
  | nil => exact .nil
  | cons row rows ih =>
    obtain ⟨⟨htrim, hplain⟩, hrows⟩ := List.forall_mem_cons.1 h
    exact .row (quotes_quoted htrim) hplain (ih hrows)

/-- The sections of a sum, the description last. -/
def sumParts : List Part :=
  [ .returns "Integer".toList "The sum (of both)".toList,
    .parameters [⟨"a".toList, "The first - or (only) operand".toList, "Integer".toList⟩],
    .errors ["Throws on overflow.".toList, "None.".toList],
    .description "Adds.".toList ["Carries over.".toList] ]

/-- The rows of the sections of a sum, with one that is no parameter behind the parameter. -/
def sumRows : List (List Text) :=
  [ ["Returns: Integer - The sum (of both)...".toList],
    ["Parameters:".toList, "a - The first - or (only) operand. (Integer)".toList, "see (below)".toList],
    ["Error Handling:".toList, "Throws on overflow.".toList, "None.".toList],
    ["Description: Adds.".toList, "Carries over.".toList] ]

theorem areIn_sumRows : AreIn sumParts sumRows.flatten := by
  have hfree : ∀ row ∈
      ["see (below)", "Throws on overflow.", "None.", "Carries over."].map String.toList,
      IsFree row := by
    intro row hrow label
    revert row
    cases label <;> decide
  refine .cons ?_ (.cons ?_ (.cons ?_ (.cons ?_ .nil)))
  · refine ⟨_, ⟨⟨by decide, by decide⟩, [' '], [' '], [' '], "The sum (of both)...".toList, rfl, rfl,
      rfl, ⟨by decide, by decide, 3, by decide⟩, ?_⟩, rfl⟩
    decide
  · refine ⟨_, .parameter ⟨⟨by decide, by decide⟩, ⟨by decide, by decide⟩, [' '], [' '], [' '],
      "The first - or (only) operand.".toList, rfl, rfl, rfl, ⟨by decide, by decide, 1, by decide⟩, ?_⟩
      (.other (fun p hp => ?_) (hfree _ (by decide)) .nil), rfl⟩
    · decide
    · have hnone : parameter? "see (below)".toList = none := by decide
      rw [hp.eq] at hnone
      cases hnone
  · exact ⟨fun row hrow => hfree row (by revert row; decide), rfl⟩
  · exact ⟨by decide, fun row hrow => hfree row (by revert row; decide), [' '], rfl, by decide⟩

/-- The sections of a sum are read back. -/
theorem read_sections_sumRows :
    (AreIn sumParts sumRows.flatten ∧ isBanner banner = true) ∧
    block sumRows.flatten = join ['\n'] (["'==========", "' Returns: Integer - The sum (of both)...",
      "' Parameters:", "' a - The first - or (only) operand. (Integer)", "' see (below)",
      "' Error Handling:", "' Throws on overflow.", "' None.", "' Description: Adds.", "' Carries over.",
      "'=========="].map (·.toList)) ∧
    Comment.read .visualBasic (block sumRows.flatten) =
      .ok [.bold "Description:".toList, .text "Adds.\nCarries over.".toList, .bold "Arguments:".toList,
        .bullets ["a (Integer). The first - or (only) operand.".toList], .bold "Return:".toList,
        .text "(Integer). The sum (of both).".toList, .bold "Error Handling:".toList,
        .text "Throws on overflow.".toList] := by
  have hbanner : isBanner banner = true := by decide
  have hraw : Text.lines (block sumRows.flatten) =
      banner :: (sumRows.flatten.map quoted ++ [banner]) := by decide +kernel
  refine ⟨⟨areIn_sumRows, hbanner⟩, by decide +kernel, ?_⟩
  rw [read_sections areIn_sumRows (laidOut_quoted (by decide +kernel)) hraw hbanner hbanner]
  decide

end Scholia.Comment.Banner
