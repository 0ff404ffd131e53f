import Scholia.Proofs.Comment.Harvest
import Scholia.Proofs.Comment.Worn
import Scholia.Proofs.Source.Procedural.Lines
import Scholia.Proofs.Source.Slices
import Scholia.Proofs.Text.Join
import Scholia.Reply.Acceptance
/-!
# The mark of a doc comment

Whether a code text shows the mark of a doc comment is told from the text alone; whether a routine is
documented, from its comment. A comment is a part of the text, so if it is read as documentation the
mark stands in it, and a text in which a routine is documented shows the mark. There is one exception:
a docstring may be quoted with apostrophes, and its quotes are no mark
(`Language.hasMarker_of_isDocumented`).
-/

namespace Scholia

open Source (Routine)

/-! ## Patterns in a text -/

namespace Text

theorem slice_isInfix (i j : Nat) (s : Text) : slice i j s <:+: s := by
  refine ⟨takeBytes i s, dropBytes (j - i) (dropBytes i s), ?_⟩
  rw [slice, List.append_assoc, takeBytes_append_dropBytes, takeBytes_append_dropBytes]

theorem trimStartWhere_suffix (p : Char → Bool) (s : Text) : trimStartWhere p s <:+ s :=
  List.dropWhile_suffix p

theorem trim_isInfix (s : Text) : trim s <:+: s := by
  obtain ⟨tail, he, -⟩ := trimEndWhere_append isBlank (trimStart s)
  have hend : trimEnd (trimStart s) <+: trimStart s := ⟨tail, he.symm⟩
  exact hend.isInfix.trans (trimStartWhere_suffix isBlank s).isInfix

end Text

/-! ## Marks in comments -/

namespace Comment

/-- A docstring without the letters before its quotes. -/
def Docstring.quoted (raw : Text) : Text :=
  Text.trimStartWhere ("rRuUbBfF".toList.contains ·) (Text.trim raw)

/-- A docstring that is quoted with apostrophes. -/
def Docstring.IsApostrophized (raw : Text) : Prop :=
  ['\'', '\'', '\''] <+: quoted raw

theorem Docstring.quoted_isInfix (raw : Text) : quoted raw <:+: raw :=
  (Text.trimStartWhere_suffix _ _).isInfix.trans (Text.trim_isInfix raw)

/-- A docstring with documentation opens with three quotes. -/
theorem Docstring.quotes_of_read {raw : Text} {lines : List Doc.Line} (h : read raw = .ok lines)
    (hlines : lines ≠ []) : ['"', '"', '"'] <+: quoted raw ∨ IsApostrophized raw := by
  unfold read at h
  simp only at h
  split at h
  · cases h
    exact absurd rfl hlines
  · next quote hquote =>
    have hprefix := List.find?_some hquote
    have hmem := List.mem_of_find?_eq_some hquote
    simp only [List.mem_cons, List.not_mem_nil, or_false] at hmem
    rcases hmem with rfl | rfl
    · exact .inl (List.isPrefixOf_iff_prefix.1 hprefix)
    · exact .inr (List.isPrefixOf_iff_prefix.1 hprefix)

theorem Javadoc.holds_of_read {raw : Text} {lines : List Doc.Line} (h : read raw = .ok lines)
    (hlines : lines ≠ []) : Text.holds Language.java.marker raw = true := by
  unfold read at h
  split at h
  · cases h
    exact absurd rfl hlines
  · next hcut =>
    exact Option.isSome_iff_exists.2 ⟨_, hcut⟩

theorem XmlDoc.holds_of_read {raw : Text} {lines : List Doc.Line} (h : read raw = .ok lines)
    (hlines : lines ≠ []) : Text.holds Language.cSharp.marker raw = true := by
  unfold read at h
  split at h
  · cases h
    exact absurd rfl hlines
  · next hholds =>
    rw [Bool.not_eq_true, Bool.not_eq_false'] at hholds
    exact hholds

end Comment

/-! ## Marks in texts -/

namespace Source.Procedural

/-- A line of code finds no doc comment. -/
theorem State.code_doc {s s' : State} {line : PhysicalLine} (hs : s.code line = .ok s') {n : Node}
    (hn : n ∈ s'.nodes) (hdoc : n.kind = .doc) : n ∈ s.nodes := by
  have hfound : ∀ {m : Node} {nodes : List Node}, m.kind ≠ .doc → n ∈ m :: nodes → n ∈ nodes := by
    intro m nodes hm hn
    rcases List.mem_cons.1 hn with rfl | hn
    · exact absurd hdoc hm
    · exact hn
  unfold State.code at hs
  split at hs
  · unfold State.endProcedure at hs
    split at hs
    · cases hs
      exact hn
    split at hs
    · cases hs
    split at hs
    · cases hs
      exact hfound (fun he => by cases he) hn
    · cases hs
  split at hs
  · simp only [State.beginProcedure] at hs
    split at hs
    · cases hs
      exact hn
    split at hs
    · cases hs
    · cases hs
      exact hn
  split at hs
  · cases hs
    exact hn
  unfold State.declaration at hs
  split at hs
  · cases hs
    exact hn
  split at hs
  · cases hs
    exact hn
  split at hs
  · cases hs
  · cases hs
    exact hfound (fun he => by cases he) hn

/-- A line that finds a doc comment is a banner. -/
theorem State.step_doc {s s' : State} {line : PhysicalLine} (hs : s.step line = .ok s') {n : Node}
    (hn : n ∈ s'.nodes) (hdoc : n.kind = .doc) : n ∈ s.nodes ∨ isBanner line.text = true := by
  unfold State.step at hs
  split at hs
  · cases hs
    exact .inl hn
  · cases hs
    exact .inl hn
  split at hs
  · next hbanner => exact .inr hbanner
  split at hs
  · cases hs
    exact .inl hn
  · exact .inl (State.code_doc hs hn hdoc)

/-- **A text with a doc comment has a banner among its lines**. -/
theorem exists_banner {source : Text} {o : Outline} (h : outline source = .ok o) {n : Node}
    (hn : n ∈ o.nodes) (hdoc : n.kind = .doc) : ∃ line ∈ Text.lines source, isBanner line = true := by
  obtain ⟨s, hreads, -, -, rfl, -⟩ := outline_reads h
  have hbanner : ∀ n ∈ s.nodes, n.kind = .doc →
      ∃ line ∈ physicalLines source, isBanner line.text = true := by
    refine foldlM_keeps (I := fun before s => ∀ n ∈ s.nodes, n.kind = .doc →
      ∃ line ∈ before, isBanner line.text = true) (by simp [State.initial]) ?_ hreads
    intro before line after s s' _ hbefore hstep n hn hdoc
    rcases State.step_doc hstep hn hdoc with hn | hline
    · obtain ⟨l, hl, hbanner⟩ := hbefore n hn hdoc
      exact ⟨l, List.mem_append_left _ hl, hbanner⟩
    · exact ⟨line, List.mem_append_right _ (List.mem_singleton_self line), hline⟩
  have hn : n ∈ s.nodes := by simpa [Outline.ofNodes, List.mem_mergeSort] using hn
  obtain ⟨line, hline, hbanner⟩ := hbanner n hn hdoc
  have htext : line.text ∈ (Text.lines source).map Text.trimEnd := by
    rw [Text.lines_map_trimEnd, ← physicalLines_text]
    exact List.mem_map_of_mem hline
  obtain ⟨raw, hraw, htrim⟩ := List.mem_map.1 htext
  rw [← htrim, Comment.Banner.isBanner_trimEnd] at hbanner
  exact ⟨raw, hraw, hbanner⟩

end Source.Procedural

/-- The comment of a routine is a part of the text, and if it is not empty a doc comment is found. -/
theorem Language.comment_of_routine {language : Language} {code : Text} {routines : List Routine}
    (h : language.routines code = .ok routines) {r : Routine} (hr : r ∈ routines) :
    r.comment <:+: code ∧ (r.hasComment = true →
      ∃ o, language.outline code = .ok o ∧ ∃ n ∈ o.nodes, n.kind = .doc) := by
  obtain ⟨found, hsurvey, hfound⟩ := bind_eq_ok.1 h
  cases hfound
  obtain ⟨o, ho, hsurveyed⟩ := bind_eq_ok.1 hsurvey
  cases hsurveyed
  obtain ⟨hsource, hfits⟩ := outline_fits ho
  have hstands := hfits.survey_stands _ r hr
  have hcomment := hstands.comment
  cases hspan : r.commentSpan with
  | none =>
    rw [hspan] at hcomment
    refine ⟨hcomment ▸ List.nil_infix, fun hhas => ?_⟩
    rw [Routine.hasComment, hcomment] at hhas
    cases hhas
  | some c =>
    rw [hspan] at hcomment
    obtain ⟨b, -, -, hdoc⟩ := hstands.node
    obtain ⟨d, hd, hkind, -⟩ := (hdoc c hspan).1
    refine ⟨?_, fun _ => ⟨o, ho, d, hd, hkind⟩⟩
    rw [hcomment, hsource]
    exact Text.slice_isInfix _ _ _

/-- A documented routine has a comment that is read as documentation. -/
theorem Source.Routine.read_of_isDocumented {language : Language} {r : Routine}
    (h : r.isDocumented language = true) :
    r.hasComment = true ∧ ∃ lines, Comment.read language r.comment = .ok lines ∧ lines ≠ [] := by
  unfold isDocumented at h
  split at h
  · next hdocument =>
    unfold document at hdocument
    split at hdocument
    · cases hdocument
    next hhas =>
    rw [Bool.not_eq_true, Bool.not_eq_false'] at hhas
    split at hdocument
    · cases hdocument
    · cases hdocument
    · next lines hne hread => exact ⟨hhas, lines, hread, fun he => hne he⟩
  · cases h

/-- **In a text in which a routine is documented stands the mark**, or the routine's docstring is quoted
with apostrophes. -/
theorem Language.hasMarker_of_isDocumented {language : Language} {code : Text}
    {routines : List Routine} (h : language.routines code = .ok routines) {r : Routine}
    (hr : r ∈ routines) (hdocumented : r.isDocumented language = true) :
    language.hasMarker code = true ∨
      language = .python ∧ Comment.Docstring.IsApostrophized r.comment := by
  obtain ⟨hpart, hdoc⟩ := comment_of_routine h hr
  obtain ⟨hhas, lines, hread, hlines⟩ := Routine.read_of_isDocumented hdocumented
  have hholds : Text.holds language.marker r.comment = true →
      Text.holds language.marker code = true := fun hmark =>
    Text.holds_iff_isInfix.2 ((Text.holds_iff_isInfix.1 hmark).trans hpart)
  unfold Comment.read at hread
  split at hread
  · cases hread
    exact absurd rfl hlines
  cases language with
  | python =>
    rcases Comment.Docstring.quotes_of_read hread hlines with hquotes | hapostrophes
    · refine .inl (hholds (Text.holds_iff_isInfix.2 ?_))
      exact hquotes.isInfix.trans (Comment.Docstring.quoted_isInfix r.comment)
    · exact .inr ⟨rfl, hapostrophes⟩
  | java => exact .inl (hholds (Comment.Javadoc.holds_of_read hread hlines))
  | cSharp => exact .inl (hholds (Comment.XmlDoc.holds_of_read hread hlines))
  | visualBasic =>
    obtain ⟨o, ho, n, hn, hkind⟩ := hdoc hhas
    obtain ⟨line, hline, hbanner⟩ := Source.Procedural.exists_banner ho hn hkind
    exact .inl (List.any_eq_true.2 ⟨line, hline, hbanner⟩)

/-! ## Replies without the mark -/

namespace Reply

/-- A code text without the mark, in which nothing is documented but by docstrings that are quoted with
apostrophes. -/
structure Unmarked (language : Language) (code : Text) : Prop where
  hasMarker : language.hasMarker code = false
  undocumented : ∀ routines, language.routines code = .ok routines → ∀ r ∈ routines,
    r.isDocumented language = true →
      language = .python ∧ Comment.Docstring.IsApostrophized r.comment

theorem Unmarked.of_hasMarker {language : Language} {code : Text}
    (h : language.hasMarker code = false) : Unmarked language code where
  hasMarker := h
  undocumented := fun routines hroutines r hr hdocumented =>
    (Language.hasMarker_of_isDocumented hroutines hr hdocumented).resolve_left (by simp [h])

/-- **For want of the mark a reply is refused only if nothing in its code is documented**, or only by
docstrings that are quoted with apostrophes. -/
theorem unmarked_of_noMarker (language : Language) :
    (∀ code, language.hasMarker code = false → Unmarked language code) ∧
    (∀ name reply marker, acceptRoutine language name reply = .error (.noMarker marker) →
      ∃ block, codeBlock .routine reply = .ok block ∧ Unmarked language block.code) ∧
    ∀ reply marker, acceptFile (.grammar language) reply = .error (.noMarker marker) →
      ∃ block, codeBlock .wholeFile reply = .ok block ∧ Unmarked language block.code := by
  have hblock : ∀ {context reply marker},
      codeBlock context reply ≠ .error (.noMarker marker) := by
    intro context reply marker h
    unfold codeBlock at h
    split at h <;> cases h
  have hparse : ∀ {α : Type} {x : Except Source.Fault α} {marker},
      x.mapError Fault.unparseable ≠ .error (.noMarker marker) := by
    intro α x marker h
    cases x <;> cases h
  refine ⟨fun code => .of_hasMarker, fun name reply marker h => ?_, fun reply marker h => ?_⟩
  · obtain ⟨block, hread, h⟩ := (bind_eq_error.1 h).resolve_left hblock
    refine ⟨block, hread, .of_hasMarker ?_⟩
    cases hshown : language.hasMarker block.code with
    | false => rfl
    | true =>
      rw [hshown] at h
      obtain ⟨routines, -, h⟩ := (bind_eq_error.1 h).resolve_left hparse
      split at h
      · cases h
      split at h <;> cases h
  · obtain ⟨block, hread, h⟩ := (bind_eq_error.1 h).resolve_left hblock
    refine ⟨block, hread, .of_hasMarker ?_⟩
    cases hshown : language.hasMarker block.code with
    | false => rfl
    | true =>
      rw [show (SourceKind.grammar language).hasMarker block.code = true from hshown] at h
      obtain ⟨harvest, -, h⟩ := (bind_eq_error.1 h).resolve_left hparse
      cases h

/-- A function whose docstring is quoted with apostrophes. -/
def apostrophizedCode : Text :=
  "def f():\n    \'\'\'Doc.\'\'\'\n    return 1".toList

def apostrophizedReply : Text :=
  "```python\n".toList ++ apostrophizedCode ++ "\n```\n".toList

/-- The reply with `apostrophizedCode` is refused for want of the mark, although its function is
documented. -/
theorem noMarker_apostrophizedReply :
    acceptRoutine .python "f".toList apostrophizedReply = .error (.noMarker Language.python.marker) ∧
      acceptFile (.grammar .python) apostrophizedReply =
        .error (.noMarker Language.python.marker) ∧
      (codeBlock .wholeFile apostrophizedReply).map CodeBlock.code = .ok apostrophizedCode ∧
      (Language.python.routines apostrophizedCode).map
        (fun routines => routines.map (·.isDocumented .python)) = .ok [true] := by
  refine ⟨?_, ?_, by decide +kernel, ?_⟩
  · simp only [acceptRoutine, Language.routines_eq_compute]
    decide +kernel
  · simp only [acceptFile, Language.harvest, Language.routines_eq_compute]
    decide +kernel
  · rw [Language.routines_eq_compute]
    decide +kernel

end Reply

end Scholia
