import Mathlib.Data.List.Forall2
import Scholia.Doc.Word
import Scholia.Proofs.Text.Join
/-!
# Word documents as they are read

A paragraph is read from left to right: a text shows what its markup stands for, and a break begins a
new line. Markup loses nothing but line ends (`unescape_escape`), so what a paragraph shows is
decided by where its breaks stand. Main statement: the break of a line stands behind the line and not
before it, so that the second line of a text runs on from the first, and **a text is shown as it is
written exactly if nothing stands on its lines but on the first** (`paragraphs_shown`).
-/

namespace Scholia.Doc.Word

open Text (isLineEnd join lines)

/-! ## Reading -/

/-- What markup stands for: its references to special characters are read back. -/
def unescape : Text → Text
  | '&' :: 'a' :: 'm' :: 'p' :: ';' :: r => '&' :: unescape r
  | '&' :: 'l' :: 't' :: ';' :: r => '<' :: unescape r
  | '&' :: 'g' :: 't' :: ';' :: r => '>' :: unescape r
  | '&' :: 'q' :: 'u' :: 'o' :: 't' :: ';' :: r => '"' :: unescape r
  | '&' :: 'a' :: 'p' :: 'o' :: 's' :: ';' :: r => '\'' :: unescape r
  | c :: r => c :: unescape r
  | [] => []

/-- What a part shows to a reader. -/
def Part.shown : Part → Text
  | .text markup => unescape markup
  | .lineBreak => ['\n']

def Run.shown (r : Run) : Text :=
  r.parts.flatMap Part.shown

/-- What a paragraph shows, from left to right. -/
def Paragraph.shown (p : Paragraph) : Text :=
  p.runs.flatMap Run.shown

theorem unescape_cons {c : Char} (h : c ≠ '&') (s : Text) : unescape (c :: s) = c :: unescape s := by
  conv => lhs; unfold unescape
  split <;> simp_all

theorem unescape_escape (c : Char) (s : Text) :
    unescape (escape c ++ s) = [c].filter (!isLineEnd ·) ++ unescape s := by
  by_cases hspecial : c = '&' ∨ c = '<' ∨ c = '>' ∨ c = '"' ∨ c = '\''
  · rcases hspecial with rfl | rfl | rfl | rfl | rfl <;> rfl
  · obtain ⟨hamp, hlt, hgt, hquot, hapos⟩ : c ≠ '&' ∧ c ≠ '<' ∧ c ≠ '>' ∧ c ≠ '"' ∧ c ≠ '\'' := by
      simpa using hspecial
    rw [escape, if_neg hamp, if_neg hlt, if_neg hgt, if_neg hquot, if_neg hapos]
    cases hend : isLineEnd c with
    | true => simp [hend]
    | false => simp [hend, unescape_cons hamp]

/-- **Markup shows the text it was made of**, less its line ends. -/
theorem shown_ofText (s : Text) : (Part.ofText s).shown = s.filter (!isLineEnd ·) := by
  rw [Part.ofText, Part.shown]
  induction s with
  | nil => rfl
  | cons c s ih =>
    rw [List.flatMap_cons, unescape_escape, ih, ← List.filter_append, List.singleton_append]

/-! ## Paragraphs of several lines -/

/-- Lines of which each after the first is followed by a break: the second runs on from the first. -/
def runOn : List Text → Text
  | [] => []
  | first :: rest => first ++ rest.flatMap (· ++ ['\n'])

theorem join_cons_eq (first : Text) (rest : List Text) :
    join ['\n'] (first :: rest) = first ++ rest.flatMap ('\n' :: ·) := by
  induction rest generalizing first with
  | nil => simp [join]
  | cons line rest ih =>
    rw [Text.join_cons (List.cons_ne_nil line rest), ih, List.flatMap_cons, List.cons_append]

/-- Breaks behind lines and breaks before them come to the same only if nothing stands between. -/
theorem flatMap_breaks_iff {rest : List Text} (h : ∀ line ∈ rest, '\n' ∉ line) :
    rest.flatMap (· ++ ['\n']) = rest.flatMap ('\n' :: ·) ↔ ∀ line ∈ rest, line = [] := by
  induction rest with
  | nil => simp
  | cons line rest ih =>
    obtain ⟨hline, hrest⟩ := List.forall_mem_cons.1 h
    cases line with
    | nil => simpa using ih hrest
    | cons c line =>
      have hc : c ≠ '\n' := fun he => hline (he ▸ List.mem_cons_self)
      simp [hc]

theorem runOn_eq_join_iff {ls : List Text} (h : ∀ line ∈ ls, '\n' ∉ line) :
    runOn ls = join ['\n'] ls ↔ ∀ line ∈ ls.tail, line = [] := by
  cases ls with
  | nil => simp [runOn, join]
  | cons first rest =>
    rw [runOn, join_cons_eq, List.append_cancel_left_eq]
    exact flatMap_breaks_iff (List.forall_mem_cons.1 h).2

theorem shown_ofText_line {t line : Text} (ht : '\r' ∉ t) (hline : line ∈ lines t) :
    (Part.ofText line).shown = line := by
  rw [shown_ofText]
  refine List.filter_eq_self.2 fun c hc => ?_
  have hfeed : c ≠ '\n' := fun he => Text.not_newline_of_mem_lines hline (he ▸ hc)
  have hreturn : c ≠ '\r' := fun he => ht (he ▸ Text.mem_of_mem_lines hline hc)
  simp [isLineEnd, hfeed, hreturn]

/-- **The runs of a text show its lines**, the second running on from the first. -/
theorem shown_textRuns {t : Text} (ht : '\r' ∉ t) :
    (textRuns t).flatMap Run.shown = runOn (lines t) := by
  have hlines : ∀ line ∈ lines t, (Part.ofText line).shown = line := fun line hline =>
    shown_ofText_line ht hline
  rw [textRuns]
  cases hsplit : lines t with
  | nil => rfl
  | cons first rest =>
    rw [hsplit] at hlines
    obtain ⟨hfirst, hrest⟩ := List.forall_mem_cons.1 hlines
    have hbroken : ∀ line ∈ rest,
        Run.shown ⟨false, [.ofText line, .lineBreak]⟩ = line ++ ['\n'] := fun line hline =>
      congrArg (· ++ ['\n']) (hrest line hline)
    have htail : (rest.map fun line => Run.mk false [.ofText line, .lineBreak]).flatMap Run.shown =
        rest.flatMap (· ++ ['\n']) := by
      rw [List.flatMap_map, List.flatMap_def, List.map_congr_left hbroken, ← List.flatMap_def]
    rw [List.flatMap_cons, htail, runOn]
    exact congrArg (· ++ _) ((List.append_nil _).trans hfirst)

end Scholia.Doc.Word

namespace Scholia.Doc.Line

/-- The texts of a line of documentation, one for each paragraph. -/
def texts : Line → List Text
  | title t | subheader t | bold t | text t | bullet t => [t]
  | bullets items => items

/-- Whether a line is running text or points, and no heading or label. -/
def IsBody : Line → Prop
  | text _ | bullet _ | bullets _ => True
  | title _ | subheader _ | bold _ => False

end Scholia.Doc.Line

namespace Scholia.Doc.Word

open Text (join lines)

/-! ## Lines of documentation -/

variable {l : Line}

/-- The paragraphs of running text and of points are made in one way. -/
theorem paragraphs_eq (h : l.IsBody) :
    ∃ bullet, paragraphs l = l.texts.map fun t => ⟨none, bullet, textRuns t⟩ := by
  cases l with
  | text t => exact ⟨false, rfl⟩
  | bullet t => exact ⟨true, rfl⟩
  | bullets items => exact ⟨true, rfl⟩
  | title t => exact h.elim
  | subheader t => exact h.elim
  | bold t => exact h.elim

/-- **A paragraph shows the lines of its text**, the second running on from the first, and each after
the first with its line feed behind it. So it shows the text's lines one below the other exactly if
nothing stands on any but the first. -/
theorem paragraphs_shown (hbody : l.IsBody) :
    List.Forall₂ (fun t p => '\r' ∉ t → p.shown = runOn (lines t) ∧
      (p.shown = join ['\n'] (lines t) ↔ ∀ line ∈ (lines t).tail, line = []))
      l.texts (paragraphs l) := by
  obtain ⟨bullet, hparagraphs⟩ := paragraphs_eq hbody
  rw [hparagraphs, List.forall₂_map_right_iff, List.forall₂_same]
  intro t _ hreturn
  have hshown : Paragraph.shown ⟨none, bullet, textRuns t⟩ = runOn (lines t) :=
    shown_textRuns hreturn
  refine ⟨hshown, ?_⟩
  rw [hshown]
  exact runOn_eq_join_iff fun line hline => Text.not_newline_of_mem_lines hline

/-- Two points: the first of one line with an empty one behind it, the second of two lines. -/
def stepPoints : Line :=
  .bullets ["open & close\n\n".toList, "read\nwrite".toList]

/-- The first point is shown as it is written, and the lines of the second run together. -/
theorem paragraphs_shown_stepPoints :
    (stepPoints.IsBody ∧ ∀ t ∈ stepPoints.texts, '\r' ∉ t) ∧
    stepPoints.texts.map (fun t => join ['\n'] (lines t)) =
      ["open & close\n".toList, "read\nwrite".toList] ∧
    (paragraphs stepPoints).map Paragraph.shown =
      ["open & close\n".toList, "readwrite\n".toList] := by
  refine ⟨⟨trivial, by decide⟩, by decide, ?_⟩
  obtain ⟨hfirst, hrest⟩ := List.forall₂_cons.1 (paragraphs_shown (l := stepPoints) trivial)
  obtain ⟨hsecond, -⟩ := List.forall₂_cons.1 hrest
  show [Paragraph.shown _, Paragraph.shown _] = _
  rw [(hfirst (by decide)).1, (hsecond (by decide)).1]
  decide

/-- A text of two lines is not shown as two lines. -/
theorem not_shown_lines :
    ¬ ∀ l : Line, l.IsBody →
      List.Forall₂ (fun t p => '\r' ∉ t → p.shown = join ['\n'] (lines t)) l.texts (paragraphs l) := by
  intro h
  have htext := (List.forall₂_cons.1 (h (.text "a\nb".toList) trivial)).1
  exact absurd (htext (by decide)) (by decide)

end Scholia.Doc.Word
