import Scholia.Batch.File
import Scholia.Proofs.Comment.Marker
import Scholia.Proofs.Comment.Moved
import Scholia.Proofs.Layout.RoundTrip
import Scholia.Proofs.Text.Rows
/-!
# Documentation at another column

Code that is put behind an indentation is moved to another column (`Layout.moved_reindent`): its lines
lose the indentation that they have in common and get the other one in its place, except for blank
ones, and lose the blanks at their ends. A text whose further lines are pushed to the right is moved
as well (`Layout.moved_pushed`).

A comment says the same at every column, so an accepted reply may be moved to the column of the
routine whose place it takes: what was read of it when it was accepted is what is read of its
comment where it is written (`Comment.read_at_any_column`).
-/

namespace Scholia.Layout

open Text (IsGap Moved Realigned Shifted allBlank isBlank isIndent isLineEnd splitWhere trimEnd
  width)

variable {line part w : Text}

theorem isGap_of_isIndent (h : w.all isIndent = true) : IsGap w where
  blank := List.all_eq_true.2 fun c hc => isBlank_of_isIndent (List.all_eq_true.1 h c hc)
  line := not_newline_of_isIndent h

theorem width_of_isIndent (h : w.all isIndent = true) : width w = w.length := by
  induction w with
  | nil => rfl
  | cons c w ih =>
    rw [List.all_cons, Bool.and_eq_true] at h
    have hc : c.utf8Size = 1 := by
      have hc := h.1
      simp only [isIndent, Bool.or_eq_true, beq_iff_eq] at hc
      rcases hc with rfl | rfl <;> decide
    rw [Text.width_cons, hc, ih h.2, List.length_cons, Nat.add_comm]

/-! ## Lines pushed to the right -/

/-- A row behind `w`; a blank one stays. -/
def pushedRow (w row : Text) : Text :=
  if allBlank row then row else w ++ row

/-- A text with `w` in front of each of its lines that is not blank, the first one excepted. -/
def pushed (w s : Text) : Text :=
  match splitWhere (· == '\n') s with
  | [] => []
  | first :: rest => Text.join ['\n'] (first :: rest.map (pushedRow w))

theorem realigned_pushedRow (hw : IsGap w) (hpart : '\n' ∉ part) :
    Realigned (width w) 0 part (pushedRow w part) := by
  unfold pushedRow
  split
  · next hblank =>
    have hgap : IsGap part := ⟨hblank, hpart⟩
    have := Realigned.intro (a := width w) (b := 0) hgap hgap (x := []) List.not_mem_nil .nil .nil
      (.inl ⟨rfl, rfl⟩)
    simpa only [List.append_nil] using this
  · have := Realigned.intro (a := width w) (b := 0) .nil hw hpart .nil .nil (.inr (Nat.zero_add _))
    simpa only [List.append_nil, List.nil_append] using this

/-- **A text whose further lines are pushed to the right is moved**. -/
theorem moved_pushed (hw : IsGap w) (s : Text) : Moved (width w) 0 s (pushed w s) := by
  have hjoin := Text.join_splitWhere '\n' s
  have hparts : ∀ q ∈ splitWhere (· == '\n') s, '\n' ∉ q := fun q => Text.not_mem_of_mem_splitWhere
  unfold pushed
  cases hs : splitWhere (· == '\n') s with
  | nil => exact absurd hs (Text.splitWhere_ne_nil _ _)
  | cons first rest =>
    rw [hs] at hjoin hparts
    obtain ⟨hfirst, hrest⟩ := List.forall_mem_cons.1 hparts
    have hrows : List.Forall₂ (Realigned (width w) 0) rest (rest.map (pushedRow w)) :=
      List.forall₂_map_right_iff.2
        (List.forall₂_same.2 fun q hq => realigned_pushedRow hw (hrest q hq))
    have := Shifted.of_rows hfirst IsGap.nil IsGap.nil hrows
    rw [List.append_nil, hjoin] at this
    exact .of_shifted this

/-! ## Code behind an indentation -/

theorem leading_trimEnd (h : allBlank line = false) : leading (trimEnd line) = leading line := by
  have hstop : ∀ {c : Char}, isBlank c = false → isIndent c = false := fun hc =>
    Bool.eq_false_iff.2 fun he => by
      rw [isBlank_of_isIndent he] at hc
      cases hc
  have htrim : allBlank (trimEnd line) = false := by rw [Text.allBlank_trimEnd, h]
  obtain ⟨lead, c, r, he, hlead, hc⟩ := Text.exists_first_ink htrim
  obtain ⟨tail, hline, -⟩ := Text.trimEndWhere_append isBlank line
  rw [show Text.trimEndWhere isBlank line = lead ++ c :: r from he, List.append_assoc,
    List.cons_append] at hline
  rw [he, hline, leading, leading, Text.takeWhile_stop (hstop hc), Text.takeWhile_stop (hstop hc)]

/-- **What a line loses is blank**, and if it is not blank itself, as wide in front of it as the
common indentation. -/
theorem exists_margins {common : Nat} (hpart : '\n' ∉ part) (hline : trimEnd line = trimEnd part)
    (hcommon : allBlank line = false → common ≤ leading line) :
    ∃ u v, IsGap u ∧ IsGap v ∧ part = u ++ (outdent common line ++ v) ∧ '\n' ∉ outdent common line ∧
      (outdent common line = [] ∧ v = [] ∨ outdent common line ≠ [] ∧ width u = common) := by
  have hsame : allBlank line = allBlank part := by
    rw [← Text.allBlank_trimEnd, hline, Text.allBlank_trimEnd]
  cases hblank : allBlank line with
  | true =>
    have hnone : outdent common line = [] := by
      rw [outdent, Text.trimEnd_of_allBlank hblank, List.drop_nil]
    refine ⟨part, [], ⟨hsame ▸ hblank, hpart⟩, .nil, ?_, ?_, .inl ⟨hnone, rfl⟩⟩
    · rw [hnone, List.append_nil, List.append_nil]
    · rw [hnone]
      exact List.not_mem_nil
  | false =>
    obtain ⟨tail, he, htail⟩ := Text.trimEndWhere_append isBlank part
    have he : part = trimEnd part ++ tail := he
    have hlead : common ≤ leading (trimEnd part) := by
      rw [← hline, leading_trimEnd hblank]
      exact hcommon hblank
    have hout : outdent common line = (trimEnd part).drop common := by
      rw [outdent, hline, Nat.min_eq_left hlead]
    have hindent := all_isIndent_take hlead
    have hsplit : part = (trimEnd part).take common ++ ((trimEnd part).drop common ++ tail) := by
      rw [← List.append_assoc, List.take_append_drop]
      exact he
    have hlong : common < (trimEnd part).length :=
      Nat.lt_of_le_of_lt hlead (leading_lt (by rw [Text.allBlank_trimEnd, ← hsame, hblank]))
    refine ⟨(trimEnd part).take common, tail, isGap_of_isIndent hindent, ⟨htail, fun hn => ?_⟩, ?_,
      ?_, .inr ⟨?_, ?_⟩⟩
    · rw [he] at hpart
      exact hpart (List.mem_append_right _ hn)
    · rw [hout]
      exact hsplit
    · rw [hout]
      intro hn
      rw [he] at hpart
      exact hpart (List.mem_append_left _ (List.mem_of_mem_drop hn))
    · rw [hout, ne_eq, List.drop_eq_nil_iff]
      omega
    · rw [width_of_isIndent hindent, List.length_take_of_le (Nat.le_of_lt hlong)]

/-- The lines of a text that does not end with a line feed are its parts, but for carriage
returns. -/
theorem forall₂_closeLines {parts : List Text} (h : parts.getLast? ≠ some []) :
    List.Forall₂ (fun part line => trimEnd line = trimEnd part) parts (Text.closeLines parts) := by
  fun_induction Text.closeLines parts with
  | case1 => exact .nil
  | case2 last hlast =>
    rw [List.isEmpty_iff.1 hlast] at h
    exact absurd rfl h
  | case3 last hlast => exact .cons rfl .nil
  | case4 part parts hne ih =>
    refine .cons (Text.trimEnd_dropReturn part) (ih fun he => h ?_)
    rw [List.getLast?_cons, he]
    rfl

theorem realigned_outdent {common : Nat} {indent : Text} (hindent : indent.all isIndent = true)
    (hpart : '\n' ∉ part) (hline : trimEnd line = trimEnd part)
    (hcommon : allBlank line = false → common ≤ leading line) :
    Realigned (width indent) common part (indentLine indent (outdent common line)) := by
  obtain ⟨u, v, hu, hv, he, hn, hcol⟩ := exists_margins hpart hline hcommon
  generalize outdent common line = x at he hn hcol
  subst he
  rcases hcol with ⟨rfl, rfl⟩ | ⟨hne, rfl⟩
  · exact .intro hu .nil hn hv .nil (.inl ⟨rfl, rfl⟩)
  · have := Realigned.intro (a := width indent) hu (isGap_of_isIndent hindent) hn hv .nil
      (.inr (Nat.add_comm _ _))
    rw [List.append_nil] at this
    rwa [indentLine, if_neg (by simpa using hne)]

theorem forall₂_realigned {common : Nat} {indent : Text} {parts ls : List Text}
    (hindent : indent.all isIndent = true)
    (h : List.Forall₂ (fun part line => trimEnd line = trimEnd part) parts ls)
    (hparts : ∀ part ∈ parts, '\n' ∉ part)
    (hcommon : ∀ line ∈ ls, allBlank line = false → common ≤ leading line) :
    List.Forall₂ (Realigned (width indent) common) parts
      ((ls.map (outdent common)).map (indentLine indent)) := by
  induction h with
  | nil => exact .nil
  | cons hline _ ih =>
    obtain ⟨hpart, hparts⟩ := List.forall_mem_cons.1 hparts
    obtain ⟨hfirst, hcommon⟩ := List.forall_mem_cons.1 hcommon
    exact .cons (realigned_outdent hindent hpart hline hfirst) (ih hparts hcommon)

/-- A text without line ends at its end has a last line. -/
theorem getLast?_splitWhere {s : Text} (hne : s ≠ []) (hlast : s.getLast? ≠ some '\n') :
    (splitWhere (· == '\n') s).getLast? ≠ some [] := by
  obtain ⟨p, q, init, rfl, hp, hinit⟩ := Text.splitWhere_last s
  rw [hinit, List.getLast?_concat]
  rintro ⟨⟩
  rw [List.append_nil] at hne hlast
  obtain ⟨t, rfl⟩ := hp.resolve_left hne
  exact hlast List.getLast?_concat

/-- A piece of code between line ends, its further lines behind an indentation. -/
theorem moved_hang {indent piece : Text} (hindent : indent.all isIndent = true)
    (hlast : piece.getLast? ≠ some '\n') :
    Moved (width indent) (commonIndent (Text.lines piece)) piece (Text.join ['\n']
      (hang indent ((Text.lines piece).map (outdent (commonIndent (Text.lines piece)))))) := by
  have hjoin := Text.join_splitWhere '\n' piece
  have hparts : ∀ q ∈ splitWhere (· == '\n') piece, '\n' ∉ q := fun q =>
    Text.not_mem_of_mem_splitWhere
  have hcommon : ∀ line ∈ Text.lines piece, allBlank line = false →
      commonIndent (Text.lines piece) ≤ leading line := fun line => commonIndent_le
  by_cases hne : piece = []
  · subst hne
    exact .of_shifted .nil
  · have hrows := forall₂_closeLines (getLast?_splitWhere hne hlast)
    generalize commonIndent (Text.lines piece) = common at hcommon
    unfold Text.lines at hcommon ⊢
    revert hrows hcommon
    generalize Text.closeLines (splitWhere (· == '\n') piece) = ls
    revert hjoin hparts
    generalize splitWhere (· == '\n') piece = parts
    rintro rfl hparts (_ | ⟨hline, hrest⟩) hcommon
    · exact .of_shifted .nil
    · obtain ⟨hpart, hparts⟩ := List.forall_mem_cons.1 hparts
      obtain ⟨hfirst, hcommon⟩ := List.forall_mem_cons.1 hcommon
      -- the first line gets no indentation, so what it loses stands before the text that is moved
      obtain ⟨u, v, hu, hv, he, hn, -⟩ := exists_margins hpart hline hfirst
      have hshifted := Shifted.of_rows hn hv .nil (forall₂_realigned hindent hrest hparts hcommon)
      have hpadded := (Moved.of_shifted hshifted).pad hu.blank Text.allBlank_nil
        Text.allBlank_nil Text.allBlank_nil
      rw [he, ← Text.append_join, List.map_cons, hang]
      simpa only [List.append_nil, List.nil_append] using hpadded

theorem allBlank_of_isLineEnd (h : w.all isLineEnd = true) : allBlank w = true :=
  List.all_eq_true.2 fun c hc => isBlank_of_isLineEnd (List.all_eq_true.1 h c hc)

theorem getLast?_trimWhere (s : Text) : (Text.trimWhere isLineEnd s).getLast? ≠ some '\n' := fun he =>
  absurd (Text.not_of_getLast?_trimWhere he) (by decide)

/-- **Code that is put behind an indentation is moved**. -/
theorem moved_reindent {indent : Text} (hindent : indent.all isIndent = true) (code : Text) :
    ∃ common, Moved (width indent) common code (reindent code indent) := by
  obtain ⟨lead, hcode, hlead⟩ := Text.append_trimStartWhere isLineEnd code
  obtain ⟨tail, hinner, htail⟩ :=
    Text.trimEndWhere_append isLineEnd (Text.trimStartWhere isLineEnd code)
  have hpiece : code = lead ++ (Text.trimWhere isLineEnd code ++ tail) := by
    rw [Text.trimWhere, ← hinner]
    exact hcode
  have h := (moved_hang hindent (getLast?_trimWhere code)).pad (allBlank_of_isLineEnd hlead)
    (allBlank_of_isLineEnd htail) Text.allBlank_nil Text.allBlank_nil
  rw [← hpiece, List.nil_append, List.append_nil] at h
  exact ⟨_, h⟩

end Scholia.Layout

namespace Scholia

open Source (Routine)
open Text (SamePlace)

/-- What is accepted for a routine is what its comment says, under its heading. -/
theorem Reply.read_of_acceptRoutine {language : Language} {name reply : Text}
    {accepted : AcceptedRoutine} (h : acceptRoutine language name reply = .ok accepted) :
    ∃ routines r lines, language.routines accepted.code = .ok routines ∧
      chosenRoutine? name routines = some r ∧ Comment.read language r.comment = .ok lines ∧
      accepted.docs = .subheader ("Function: ".toList ++ r.signature) :: lines := by
  obtain ⟨block, -, h⟩ := bind_eq_ok.1 h
  simp only at h
  split at h
  · obtain ⟨routines, hroutines, h⟩ := bind_eq_ok.1 h
    split at h
    · cases h
    · next r hchosen =>
      split at h
      · cases h
      · next docs hdocs =>
        cases h
        unfold Routine.document at hdocs
        split at hdocs
        · cases hdocs
        split at hdocs
        · cases hdocs
        · cases hdocs
        · next lines _ hread =>
          cases hdocs
          exact ⟨routines, r, lines, mapError_eq_ok.1 hroutines, hchosen, hread, rfl⟩
  · cases h

theorem Reply.mem_of_chosenRoutine? {name : Text} {routines : List Routine} {r : Routine}
    (h : chosenRoutine? name routines = some r) : r ∈ routines := by
  rcases Option.or_eq_some_iff.1 h with h | ⟨-, h⟩
  · exact List.mem_of_find?_eq_some h
  · exact List.mem_of_head? h

/-- **Documentation does not depend on the column of its comment**. Spaces and tabs in front of all
lines but the first change nothing that is read of a comment. And what has been accepted as the
documentation of a routine is read of its comment again where the code of the reply is written in
the place of a routine: a part of the text that is written stands in the place of the comment, and
every such part says the same. -/
theorem Comment.read_at_any_column :
    (∀ (language : Language) (raw w : Text), w.all Text.isIndent = true →
      read language (Layout.pushed w raw) = read language raw) ∧
    ∀ (language : Language) (name reply : Text) (accepted : Reply.AcceptedRoutine),
      Reply.acceptRoutine language name reply = .ok accepted →
      ∃ routines r lines, language.routines accepted.code = .ok routines ∧
        Reply.chosenRoutine? name routines = some r ∧
        accepted.docs = .subheader ("Function: ".toList ++ r.signature) :: lines ∧
        ∀ (source : Text) (place : Routine),
          (∃ comment, SamePlace accepted.code r.comment
            ((Batch.segment place (.ok accepted)).text source) comment) ∧
          ∀ comment, SamePlace accepted.code r.comment
            ((Batch.segment place (.ok accepted)).text source) comment →
              read language comment = .ok lines := by
  refine ⟨fun language raw w hw => ?_, fun language name reply accepted h => ?_⟩
  · exact (read_moved language (Layout.moved_pushed (Layout.isGap_of_isIndent hw) raw)).symm
  · obtain ⟨routines, r, lines, hroutines, hchosen, hread, hdocs⟩ := Reply.read_of_acceptRoutine h
    refine ⟨routines, r, lines, hroutines, hchosen, hdocs, fun source place => ?_⟩
    have hindent := Language.all_isIndent_lineIndent source place.extent.start
    obtain ⟨common, hmoved⟩ := Layout.moved_reindent hindent accepted.code
    obtain ⟨hpart, -⟩ := Language.comment_of_routine hroutines (Reply.mem_of_chosenRoutine? hchosen)
    refine ⟨Text.exists_samePlace hpart hmoved.ink, fun comment hplace => ?_⟩
    rw [← hread]
    exact (read_moved language (hmoved.of_samePlace hplace)).symm

namespace Comment

/-- A docstring with an entry that goes on in a deeper line. -/
def addDocstring : Text :=
  "\"\"\"Adds.\n\n    Args:\n        a: One.\n            More.\n    \"\"\"".toList

def addLines : List Doc.Line :=
  [.bold "Description:".toList, .text "Adds.".toList, .bold "Arguments:".toList,
    .bullets ["a. One.\nMore.".toList]]

/-- A reply with `addDocstring`, as it is accepted. -/
def addAccepted : Reply.AcceptedRoutine where
  code := "def add(a):\n    ".toList ++ addDocstring ++ "\n    return a".toList
  docs := .subheader "Function: def add(a)".toList :: addLines

def addReply : Text :=
  "```python\n".toList ++ addAccepted.code ++ "\n```\n".toList

/-- A method behind a tab. -/
def methodSource : Text :=
  "class A:\n\tdef add(a):\n\t\treturn a\n".toList

def methodPlace : Routine where
  name := "add".toList
  signature := "def add(a)".toList
  body := "\n\t\treturn a".toList
  span := ⟨10, 32⟩
  comment := []
  commentSpan := none

/-- `addDocstring` as it is written in the place of the method. -/
def writtenDocstring : Text :=
  "\"\"\"Adds.\n\n\t    Args:\n\t        a: One.\n\t            More.\n\t    \"\"\"".toList

/-- The docstring says the same two columns further right, and where it is written. -/
theorem read_at_any_column_addDocstring :
    read .python (Layout.pushed "  ".toList addDocstring) = .ok addLines ∧
      Reply.acceptRoutine .python "add".toList addReply = .ok addAccepted ∧
      (Batch.segment methodPlace (.ok addAccepted)).text methodSource =
        "def add(a):\n\t    ".toList ++ (writtenDocstring ++ "\n\t    return a".toList) ∧
      read .python writtenDocstring = .ok addLines := by
  have haccept : Reply.acceptRoutine .python "add".toList addReply = .ok addAccepted := by
    simp only [Reply.acceptRoutine, Language.routines_eq_compute]
    decide +kernel
  have hwritten : (Batch.segment methodPlace (.ok addAccepted)).text methodSource =
      "def add(a):\n\t    ".toList ++ (writtenDocstring ++ "\n\t    return a".toList) := by
    decide +kernel
  refine ⟨?_, haccept, hwritten, ?_⟩
  · rw [read_at_any_column.1 .python addDocstring "  ".toList (by decide)]
    decide +kernel
  · obtain ⟨routines, r, lines, hroutines, hchosen, hdocs, hplaces⟩ :=
      read_at_any_column.2 .python _ _ _ haccept
    have hcomment : r.comment = addDocstring := by
      have hcompute : (Language.python.routines addAccepted.code).map (·.map Routine.comment) =
          .ok [addDocstring] := by
        rw [Language.routines_eq_compute]
        decide +kernel
      rw [hroutines] at hcompute
      have hmem := List.mem_map_of_mem (f := Routine.comment) (Reply.mem_of_chosenRoutine? hchosen)
      rw [show routines.map Routine.comment = [addDocstring] from Except.ok.inj hcompute] at hmem
      exact List.mem_singleton.1 hmem
    rw [(List.cons.inj hdocs).2]
    refine (hplaces methodSource methodPlace).2 _
      ⟨"def add(a):\n    ".toList, "\n    return a".toList, _, _, ?_, hwritten, ?_, ?_⟩
    · rw [hcomment]
      decide +kernel
    · decide
    · rw [hcomment]
      decide +kernel

end Comment

end Scholia
