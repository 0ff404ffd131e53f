import Scholia.Proofs.Comment.Marker
import Scholia.Proofs.Comment.Moved
/-!
# Documentation elements as they are written

A comment of documentation elements is a text with a summary and elements behind it, laid out over
lines that slashes lead (`LaidOut`). Each kind of element is searched for on its own, in the whole
text outside the summary: an element of another kind is passed over, and an element of the kind is
taken whole. So **a comment says what its elements say** (`read_laidOut`), each kind in its order,
whatever the lines break.

A scan that passes over an element passes over the value of its attribute too, and a start tag of
its own kind may begin there. That is the one thing that a value must not hold besides its quote:
`not_read_value` is a comment with such a value, whose other elements are not read.
-/

namespace Scholia.Comment.XmlDoc

open Doc (Line)
open Text (IsGap allBlank isBlank join splitWhere trim)

/-! ## Comments -/

/-- What is searched for outside the summary. -/
inductive Kind where
  | param
  | returns
  | exception
  deriving Repr, DecidableEq

namespace Kind

def start : Kind → Text → Option (Text × Text)
  | param => attributeTag "param".toList "name".toList
  | returns => plainTag "returns".toList
  | exception => attributeTag "exception".toList "cref".toList

/-- A start tag before the value of its attribute. -/
def opening : Kind → Text
  | param => "<param name=\"".toList
  | returns => "<returns".toList
  | exception => "<exception cref=\"".toList

/-- A start tag behind the value of its attribute. -/
def closing : Kind → Text
  | returns => ">".toList
  | param | exception => "\">".toList

def endTag : Kind → Text
  | param => "</param>".toList
  | returns => "</returns>".toList
  | exception => "</exception>".toList

/-- The elements of a kind in a text. -/
def elements (kind : Kind) (s : Text) : List (Text × Text) :=
  XmlDoc.elements kind.start kind.endTag s

/-- A start tag of the kind begins in a value that a quote closes, whatever follows the quote. -/
def BeginsIn (kind : Kind) (value : Text) : Prop :=
  ∃ tag rest, tag ≠ [] ∧ tag <:+ value ∧ (kind.start (tag ++ '"' :: rest)).isSome

end Kind

/-- A start tag with the value of its attribute, if it has one. -/
inductive Tag where
  | param (name : Text)
  | returns
  | exception (cref : Text)
  deriving Repr, DecidableEq

namespace Tag

def kind : Tag → Kind
  | param _ => .param
  | returns => .returns
  | exception _ => .exception

def value : Tag → Text
  | param name => name
  | returns => []
  | exception cref => cref

def written (tag : Tag) : Text :=
  tag.kind.opening ++ (tag.value ++ tag.kind.closing)

end Tag

/-- An element, and the blanks in front of it. -/
structure Element where
  gap : Text
  tag : Tag
  text : Text
  deriving Repr, DecidableEq

/-- The parts of an element can be told apart. -/
structure Element.IsLegible (e : Element) : Prop where
  gap : allBlank e.gap = true
  text : '<' ∉ e.text
  quote : '"' ∉ e.tag.value
  value : ∀ kind ≠ e.tag.kind, ¬ kind.BeginsIn e.tag.value

def Element.written (e : Element) : Text :=
  e.tag.written ++ (e.text ++ e.tag.kind.endTag)

/-- The text of a comment: a summary, then elements, with blanks around them. -/
structure Document where
  lead : Text
  summary : Text
  elements : List Element
  tail : Text
  deriving Repr, DecidableEq

namespace Document

structure IsLegible (d : Document) : Prop where
  lead : allBlank d.lead = true
  summary : '<' ∉ d.summary
  elements : ∀ e ∈ d.elements, e.IsLegible
  tail : allBlank d.tail = true

/-- What stands behind the summary. -/
def rest (d : Document) : Text :=
  d.elements.flatMap (fun e => e.gap ++ e.written) ++ d.tail

def written (d : Document) : Text :=
  d.lead ++ ("<summary>".toList ++ (d.summary ++ ("</summary>".toList ++ d.rest)))

/-- The elements of a kind, each as a point about what its attribute names. -/
def points (d : Document) (kind : Kind) : List Line :=
  (d.elements.filter (·.tag.kind = kind)).map fun e => point (e.tag.value, e.text)

/-- What a comment with this text says. -/
def lines (d : Document) : List Line :=
  sections
    [ ("Description:".toList,
        descriptionLines (((Text.lines d.summary).map trim).filter (!·.isEmpty))),
      ("Arguments:".toList, d.points .param),
      ("Return:".toList,
        (((d.elements.filter (·.tag.kind = .returns)).map fun e => Text.collapse e.text).filter
          (!·.isEmpty)).map .bullet),
      ("Exceptions:".toList, d.points .exception) ]

end Document

/-- A line of a text on its row: behind slashes, with blanks around both. -/
def IsRow (line row : Text) : Prop :=
  trim line = line ∧ ∃ margin before after, IsGap margin ∧ IsGap before ∧ IsGap after ∧
    row = margin ++ ("///".toList ++ (before ++ (line ++ after)))

/-- The text, line by line, behind the slashes of a comment. The blanks at the ends of a line are
part of the layout. -/
def LaidOut (text raw : Text) : Prop :=
  ∃ rows, List.Forall₂ IsRow (splitWhere (· == '\n') text) rows ∧ raw = join ['\n'] rows

/-! ## The scan for one kind -/

section

variable {start : Text → Option (Text × Text)} {endTag s u : Text}

theorem elementsFrom_skip (u s : Text) :
    elementsFrom start endTag u.length (u ++ s) = elements start endTag s := by
  induction u with
  | nil => rfl
  | cons c u ih => exact ih

/-- Where no start tag begins, no element does. -/
theorem elements_cons {c : Char} (h : start (c :: s) = none) :
    elements start endTag (c :: s) = elements start endTag s := by
  rw [elements, elementsFrom, h]
  rfl

theorem elements_pass (h : ∀ tag, tag ≠ [] → tag <:+ u → start (tag ++ s) = none) :
    elements start endTag (u ++ s) = elements start endTag s := by
  induction u with
  | nil => rfl
  | cons c u ih =>
    refine (elements_cons (h (c :: u) (List.cons_ne_nil _ _) (List.suffix_refl _))).trans ?_
    exact ih fun tag hne htag => h tag hne (htag.trans (List.suffix_cons c u))

/-- **An element is taken whole**: the scan goes on behind its end tag. -/
theorem elements_take {value inner after : Text} (hne : u ≠ [])
    (hstart : start (u ++ s) = some (value, after))
    (hend : Text.cutAt? endTag after = some (inner, s)) :
    elements start endTag (u ++ s) = (value, inner) :: elements start endTag s := by
  obtain ⟨c, u, rfl⟩ := List.exists_cons_of_ne_nil hne
  rw [List.cons_append] at hstart ⊢
  have hskip : (u ++ s).length - s.length = u.length := by
    rw [List.length_append, Nat.add_sub_cancel]
  rw [elements, elementsFrom, hstart]
  simp only [Option.bind_eq_bind, Option.bind_some, hend, Option.pure_def, hskip, elementsFrom_skip]

end

variable {kind : Kind} {e : Element} {s u : Text}

/-- Every start tag begins with the same character. -/
theorem Kind.start_of_ne {c : Char} (kind : Kind) (hc : c ≠ '<') (s : Text) :
    kind.start (c :: s) = none := by
  have hlead : ∀ p : Text, Text.dropLead? ('<' :: p) (c :: s) = none := fun p => if_neg hc.symm
  cases kind with
  | param => rw [start, attributeTag, hlead]; rfl
  | returns => rw [start, plainTag, List.cons_append, hlead]; rfl
  | exception => rw [start, attributeTag, hlead]; rfl

theorem Kind.elements_plain (kind : Kind) (hu : '<' ∉ u) (s : Text) :
    kind.elements (u ++ s) = kind.elements s := by
  refine elements_pass fun tag hne htag => ?_
  obtain ⟨c, tag, rfl⟩ := List.exists_cons_of_ne_nil hne
  exact kind.start_of_ne (fun hc => hu (hc ▸ htag.subset List.mem_cons_self)) _

/-- What begins no element of the kind at its front, and has no other front of a tag. -/
theorem Kind.elements_markup (hstart : kind.start (u ++ s) = none) (hne : u ≠ [])
    (hu : '<' ∉ u.tail) : kind.elements (u ++ s) = kind.elements s := by
  obtain ⟨c, u, rfl⟩ := List.exists_cons_of_ne_nil hne
  exact (elements_cons hstart).trans (kind.elements_plain hu s)

theorem Kind.opening_ne_nil (kind : Kind) : kind.opening ≠ [] := by
  cases kind <;> decide

theorem Kind.elements_opening {other : Kind} (h : kind ≠ other) (s : Text) :
    kind.elements (other.opening ++ s) = kind.elements s := by
  refine Kind.elements_markup ?_ other.opening_ne_nil (by cases other <;> decide)
  cases other <;> cases kind <;> first | exact absurd rfl h | rfl

theorem Kind.elements_endTag (kind other : Kind) (s : Text) :
    kind.elements (other.endTag ++ s) = kind.elements s := by
  refine Kind.elements_markup ?_ (by cases other <;> decide) (by cases other <;> decide)
  cases other <;> cases kind <;> rfl

/-- The value of an attribute, before what closes its tag. -/
theorem Kind.elements_value (tag : Tag) (h : ¬ kind.BeginsIn tag.value) (s : Text) :
    kind.elements (tag.value ++ (tag.kind.closing ++ s)) = kind.elements (tag.kind.closing ++ s) := by
  have hquote : ∀ {value : Text}, ¬ kind.BeginsIn value → ∀ s,
      kind.elements (value ++ '"' :: s) = kind.elements ('"' :: s) := by
    intro value h s
    refine elements_pass fun begun hne hbegun => ?_
    cases hstart : kind.start (begun ++ '"' :: s) with
    | none => rfl
    | some p => exact absurd ⟨begun, s, hne, hbegun, by rw [hstart]; rfl⟩ h
  cases tag with
  | param name => exact hquote h ('>' :: s)
  | returns => rfl
  | exception cref => exact hquote h ('>' :: s)

/-- **An element of another kind is passed over**. -/
theorem Kind.elements_other (h : e.IsLegible) (hkind : kind ≠ e.tag.kind) (s : Text) :
    kind.elements (e.written ++ s) = kind.elements s := by
  have hclosing : '<' ∉ e.tag.kind.closing := by cases e.tag.kind <;> decide
  rw [Element.written, Tag.written]
  simp only [List.append_assoc]
  rw [Kind.elements_opening hkind, Kind.elements_value e.tag (h.value kind hkind),
    kind.elements_plain hclosing, kind.elements_plain h.text, kind.elements_endTag]

theorem Tag.start_written (tag : Tag) (h : '"' ∉ tag.value) (s : Text) :
    tag.kind.start (tag.written ++ s) = some (tag.value, s) := by
  rw [Tag.written]
  simp only [List.append_assoc]
  have hcut : Text.cutAt? ['"'] (tag.value ++ '"' :: '>' :: s) = some (tag.value, '>' :: s) :=
    Text.cutAt?_of_not_mem h [] _
  cases tag with
  | param name =>
    calc Kind.param.start (Kind.param.opening ++ (name ++ ('"' :: '>' :: s)))
      _ = (Text.cutAt? ['"'] (name ++ '"' :: '>' :: s)).bind fun cut =>
            (Text.dropLead? ['>'] (Text.trimStart cut.2)).bind fun s => some (cut.1, s) := rfl
      _ = some (name, s) := congrArg (Option.bind · _) hcut
  | returns => rfl
  | exception cref =>
    calc Kind.exception.start (Kind.exception.opening ++ (cref ++ ('"' :: '>' :: s)))
      _ = (Text.cutAt? ['"'] (cref ++ '"' :: '>' :: s)).bind fun cut =>
            (Text.dropLead? ['>'] (Text.trimStart cut.2)).bind fun s => some (cut.1, s) := rfl
      _ = some (cref, s) := congrArg (Option.bind · _) hcut

/-- **An element of the kind is found where it is written**. -/
theorem Kind.elements_own (h : e.IsLegible) (s : Text) :
    e.tag.kind.elements (e.written ++ s) = (e.tag.value, e.text) :: e.tag.kind.elements s := by
  have hend : Text.cutAt? e.tag.kind.endTag (e.text ++ (e.tag.kind.endTag ++ s)) =
      some (e.text, s) := by
    cases e.tag.kind <;> exact Text.cutAt?_of_not_mem h.text _ s
  have hne : e.written ≠ [] := by
    rw [Element.written, Tag.written]
    exact List.append_ne_nil_of_left_ne_nil
      (List.append_ne_nil_of_left_ne_nil e.tag.kind.opening_ne_nil _) _
  have hstart : e.tag.kind.start (e.written ++ s) =
      some (e.tag.value, e.text ++ (e.tag.kind.endTag ++ s)) := by
    rw [Element.written, List.append_assoc, List.append_assoc, e.tag.start_written h.quote]
  rw [Kind.elements, elements_take hne hstart hend]
  rfl

/-- **The elements of a kind are found in their order**, whatever stands between them. -/
theorem Kind.elements_rest {es : List Element} {tail : Text} (h : ∀ e ∈ es, e.IsLegible)
    (htail : allBlank tail = true) :
    kind.elements (es.flatMap (fun e => e.gap ++ e.written) ++ tail) =
      (es.filter (·.tag.kind = kind)).map fun e => (e.tag.value, e.text) := by
  induction es with
  | nil =>
    have hpass := kind.elements_plain (Text.not_mem_of_allBlank (by decide) htail) []
    rwa [List.append_nil] at hpass
  | cons e es ih =>
    obtain ⟨he, hes⟩ := List.forall_mem_cons.1 h
    rw [List.flatMap_cons, List.append_assoc, List.append_assoc,
      kind.elements_plain (Text.not_mem_of_allBlank (by decide) he.gap)]
    by_cases hkind : e.tag.kind = kind
    · subst hkind
      rw [Kind.elements_own he, ih hes, List.filter_cons_of_pos (by simp), List.map_cons]
    · rw [Kind.elements_other he (Ne.symm hkind), ih hes,
        List.filter_cons_of_neg (by simpa using hkind)]

/-! ## Whole comments -/

variable {d : Document}

/-- The summary is the text between its tags. -/
theorem divided_written (h : d.IsLegible) : divided d.written = (d.summary, d.lead ++ d.rest) := by
  have hopen : Text.cutAt? "<summary>".toList d.written =
      some (d.lead, d.summary ++ ("</summary>".toList ++ d.rest)) :=
    Text.cutAt?_of_not_mem (Text.not_mem_of_allBlank (by decide) h.lead) _ _
  have hclose : Text.cutAt? "</summary>".toList (d.summary ++ ("</summary>".toList ++ d.rest)) =
      some (d.summary, d.rest) :=
    Text.cutAt?_of_not_mem h.summary _ _
  rw [divided, summary?, hopen]
  simp only [Option.bind_eq_bind, Option.bind_some, hclose]
  rfl

theorem readText_written (h : d.IsLegible) : readText d.written = .ok d.lines := by
  have hclosed : Text.holds "</summary>".toList d.written = true := by
    refine Text.holds_iff_isInfix.2 ⟨d.lead ++ ("<summary>".toList ++ d.summary), d.rest, ?_⟩
    rw [Document.written]
    simp only [List.append_assoc]
  have helements : ∀ kind : Kind, kind.elements (d.lead ++ d.rest) =
      (d.elements.filter (·.tag.kind = kind)).map fun e => (e.tag.value, e.text) := by
    intro kind
    rw [kind.elements_plain (Text.not_mem_of_allBlank (by decide) h.lead), Document.rest,
      Kind.elements_rest h.elements h.tail]
  have hreport : report d.summary (d.lead ++ d.rest) = sections
      [ ("Description:".toList,
          descriptionLines (((Text.lines d.summary).map trim).filter (!·.isEmpty))),
        ("Arguments:".toList, (Kind.param.elements (d.lead ++ d.rest)).map point),
        ("Return:".toList, (((Kind.returns.elements (d.lead ++ d.rest)).map
          (Text.collapse ·.2)).filter (!·.isEmpty)).map .bullet),
        ("Exceptions:".toList, (Kind.exception.elements (d.lead ++ d.rest)).map point) ] := rfl
  rw [readText, hclosed, divided_written h, Bool.not_true, Bool.and_false, if_neg (by decide),
    hreport]
  simp only [helements, List.map_map, Document.lines, Document.points, Function.comp_def]

/-- The content of a row is the line that stands on it. -/
theorem IsRow.content {line row : Text} (h : IsRow line row) : content row = line := by
  obtain ⟨htrim, margin, before, after, hmargin, hbefore, hafter, rfl⟩ := h
  have hrow : trim (margin ++ ("///".toList ++ (before ++ (line ++ after)))) =
      "///".toList ++ Text.trimEnd (before ++ (line ++ after)) :=
    (Text.trim_blanks hmargin.blank _).trans (Text.trimEnd_stop (by decide) ['/', '/'] _)
  rw [XmlDoc.content, hrow]
  calc trim (Text.trimEnd (before ++ (line ++ after)))
    _ = trim (before ++ (line ++ after)) := Text.trim_trimEnd _
    _ = trim (line ++ after) := Text.trim_blanks hbefore.blank _
    _ = trim (Text.trimEnd (line ++ after)) := (Text.trim_trimEnd _).symm
    _ = trim (Text.trimEnd line) := by rw [Text.trimEnd_append hafter.blank]
    _ = line := by rw [Text.trim_trimEnd, htrim]

theorem IsRow.not_mem {line row : Text} (h : IsRow line row) (hline : '\n' ∉ line) : '\n' ∉ row := by
  obtain ⟨-, margin, before, after, hmargin, hbefore, hafter, rfl⟩ := h
  simp [hmargin.line, hbefore.line, hafter.line, hline]

theorem IsRow.slashes {line row : Text} (h : IsRow line row) : ['/', '/', '/'] <:+: row := by
  obtain ⟨-, margin, before, after, -, -, -, rfl⟩ := h
  exact ⟨margin, before ++ (line ++ after), List.append_assoc _ _ _⟩

section

variable {lines rows : List Text}

theorem content_rows (h : List.Forall₂ IsRow lines rows) : rows.map content = lines := by
  induction h with
  | nil => rfl
  | cons hrow _ ih => rw [List.map_cons, hrow.content, ih]

theorem not_mem_rows (h : List.Forall₂ IsRow lines rows) (hlines : ∀ line ∈ lines, '\n' ∉ line) :
    ∀ row ∈ rows, '\n' ∉ row := by
  induction h with
  | nil => exact fun _ hrow => absurd hrow List.not_mem_nil
  | cons hrow _ ih =>
    obtain ⟨hline, hlines⟩ := List.forall_mem_cons.1 hlines
    exact List.forall_mem_cons.2 ⟨hrow.not_mem hline, ih hlines⟩

theorem holds_slashes (h : List.Forall₂ IsRow lines rows) (hne : rows ≠ []) :
    Text.holds ['/', '/', '/'] (join ['\n'] rows) = true := by
  obtain ⟨first, more, rfl⟩ := List.exists_cons_of_ne_nil hne
  have hfirst : first <+: join ['\n'] (first :: more) := by
    cases more with
    | nil => exact ⟨[], by simp [join]⟩
    | cons second more => exact ⟨_, (Text.join_cons (List.cons_ne_nil _ _) _).symm⟩
  obtain ⟨line, lines, hrow, -, rfl⟩ := List.forall₂_cons_right_iff.1 h
  exact Text.holds_iff_isInfix.2 (hrow.slashes.trans hfirst.isInfix)

end

/-- **A comment is read as the text that is laid out in it**. -/
theorem read_of_laidOut {text raw : Text} (h : LaidOut text raw) :
    Comment.read .cSharp raw = readText text := by
  obtain ⟨rows, hrows, rfl⟩ := h
  have hne : rows ≠ [] := by
    rintro rfl
    exact Text.splitWhere_ne_nil _ _ (List.forall₂_nil_right_iff.1 hrows)
  have hlines : ∀ row ∈ rows, '\n' ∉ row :=
    not_mem_rows hrows fun _ => Text.not_mem_of_mem_splitWhere
  have hsplit : splitWhere (· == '\n') (join ['\n'] rows) = rows := Text.splitWhere_join hne hlines
  have hslashes := holds_slashes hrows hne
  have hink : allBlank (join ['\n'] rows) = false := by
    rw [← Bool.not_eq_true]
    intro hblank
    have hmem := (Text.holds_iff_isInfix.1 hslashes).subset List.mem_cons_self
    exact Text.not_mem_of_allBlank (by decide) hblank hmem
  calc Comment.read .cSharp (join ['\n'] rows)
    _ = readText (join ['\n'] ((Text.lines (join ['\n'] rows)).map content)) := by
      rw [Comment.read, hink]
      show read _ = _
      rw [read_eq, hslashes]
      rfl
    _ = readText (join ['\n'] (((Text.lines (join ['\n'] rows)).map trim).map content)) := by
      rw [map_content_trim]
    _ = readText (join ['\n'] ((Text.rows (join ['\n'] rows)).map content)) :=
      passesEmpty_readText.lines _
    _ = readText (join ['\n'] (rows.map content)) := by rw [Text.rows, hsplit, map_content_trim]
    _ = readText text := by rw [content_rows hrows, Text.join_splitWhere]

/-- **A comment of documentation elements is read back**: the reader finds the lines of the summary,
and the elements of each kind in their order, wherever its text has been broken into lines and
whatever kinds stand between them. -/
theorem read_laidOut {raw : Text} (h : d.IsLegible) (hraw : LaidOut d.written raw) :
    Comment.read .cSharp raw = .ok d.lines := by
  rw [read_of_laidOut hraw, readText_written h]

/-! ## Comments at one margin -/

/-- No start tag begins in a value without angle brackets. -/
theorem Kind.not_beginsIn {value : Text} (kind : Kind) (h : '<' ∉ value) : ¬ kind.BeginsIn value := by
  rintro ⟨tag, rest, hne, htag, hstart⟩
  obtain ⟨c, tag, rfl⟩ := List.exists_cons_of_ne_nil hne
  rw [List.cons_append, kind.start_of_ne fun hc => h (hc ▸ htag.subset List.mem_cons_self)] at hstart
  cases hstart

/-- The lines of a text behind the same margin. -/
def atMargin (margin text : Text) : Text :=
  join ['\n'] ((splitWhere (· == '\n') text).map fun line =>
    margin ++ ("///".toList ++ (' ' :: line)))

theorem laidOut_atMargin {margin text : Text} (hmargin : IsGap margin)
    (h : ∀ line ∈ splitWhere (· == '\n') text, trim line = line) :
    LaidOut text (atMargin margin text) := by
  refine ⟨_, List.forall₂_map_right_iff.2 (List.forall₂_same.2 fun line hline => ?_), rfl⟩
  exact ⟨h line hline, margin, [' '], [], hmargin, ⟨by decide, by decide⟩, ⟨by decide, by decide⟩,
    by simp⟩

/-- A sum with elements of three kinds, broken into lines within elements and between them. -/
def sumDocument : Document where
  lead := []
  summary := "\nAdds.\n\nNever fails.\n".toList
  elements :=
    [ ⟨"\n".toList, .param "a".toList, "The\nfirst.".toList⟩,
      ⟨[], .returns, "Sum.".toList⟩,
      ⟨"\n".toList, .param "b".toList, []⟩,
      ⟨"\n\n".toList, .exception "E".toList, "Never.".toList⟩ ]
  tail := "\n".toList

theorem read_laidOut_sumDocument :
    atMargin "  ".toList sumDocument.written =
      join ['\n'] (["  /// <summary>", "  /// Adds.", "  /// ", "  /// Never fails.",
        "  /// </summary>", "  /// <param name=\"a\">The", "  /// first.</param><returns>Sum.</returns>",
        "  /// <param name=\"b\"></param>", "  /// ", "  /// <exception cref=\"E\">Never.</exception>",
        "  /// "].map (·.toList)) ∧
    Comment.read .cSharp (atMargin "  ".toList sumDocument.written) =
      .ok [.bold "Description:".toList, .text "Adds.\nNever fails.".toList, .bold "Arguments:".toList,
        .bullet "a. The first.".toList, .bullet "b.".toList, .bold "Return:".toList,
        .bullet "Sum.".toList, .bold "Exceptions:".toList, .bullet "E. Never.".toList] := by
  have hplain : ∀ e ∈ sumDocument.elements,
      allBlank e.gap = true ∧ '<' ∉ e.text ∧ '"' ∉ e.tag.value ∧ '<' ∉ e.tag.value := by decide
  have hlegible : sumDocument.IsLegible := by
    refine ⟨by decide, by decide, fun e he => ?_, by decide⟩
    obtain ⟨hgap, htext, hquote, hvalue⟩ := hplain e he
    exact ⟨hgap, htext, hquote, fun kind _ => kind.not_beginsIn hvalue⟩
  refine ⟨by decide +kernel, ?_⟩
  rw [read_laidOut hlegible (laidOut_atMargin ⟨by decide, by decide⟩ (by decide +kernel))]
  decide +kernel

/-- A value that is taken for a start tag. -/
def markDocument : Document where
  lead := []
  summary := "S.".toList
  elements :=
    [ ⟨"\n".toList, .param "<returns>".toList, "The mark.".toList⟩,
      ⟨"\n".toList, .returns, "The rest.".toList⟩ ]
  tail := []

/-- **A start tag in a value is read**, with all that follows up to the next end tag of its kind. -/
theorem not_read_value :
    ¬ ∀ (d : Document) (raw : Text), allBlank d.lead = true → '<' ∉ d.summary →
      allBlank d.tail = true →
      (∀ e ∈ d.elements, allBlank e.gap = true ∧ '<' ∉ e.text ∧ '"' ∉ e.tag.value ∧
        '\n' ∉ e.tag.value) →
      LaidOut d.written raw → Comment.read .cSharp raw = .ok d.lines := by
  intro h
  have hraw : LaidOut markDocument.written (atMargin [] markDocument.written) :=
    laidOut_atMargin ⟨by decide, by decide⟩ (by decide +kernel)
  have hread := h markDocument _ (by decide) (by decide) (by decide) (by decide) hraw
  rw [read_of_laidOut hraw] at hread
  exact absurd hread (by decide +kernel)

end Scholia.Comment.XmlDoc
