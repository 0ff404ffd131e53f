import Scholia.Layout
import Scholia.Proofs.Evaluation
import Scholia.Proofs.Source.Slices
/-!
# What splicing keeps

Segments that stand in a row divide a text into pieces with gaps between them. Splicing applies each
of them, keeps every gap, and puts for each piece what its segment says: the spliced text is woven
from the same gaps as the source.

The extents of the routines of a source text are in place: all their bytes are cuts, and they stand in
a row. So a segment for each routine is applied, and nothing but parts of the text is cut out, from the
first lexeme to the end of the splice.
-/

namespace Scholia

open Source (Routine Row Span)
open Text (IsCut)

/-- Texts in turn: a gap, a piece, a gap and so on, one gap more than pieces. -/
def Text.weave : List Text → List Text → Text
  | gap :: gaps, piece :: pieces => gap ++ (piece ++ Text.weave gaps pieces)
  | gaps, _ => gaps.flatten

namespace Layout

variable {source : Text}

/-! ## Gaps -/

/-- The parts of a text between ranges, from a byte on. -/
def gapsFrom (source : Text) : Nat → List Span → List Text
  | cursor, [] => [Text.dropBytes cursor source]
  | cursor, s :: rest => Text.slice cursor s.start source :: gapsFrom source s.stop rest

/-- The parts of a text before, between and after ranges. -/
def gaps (source : Text) (ranges : List Span) : List Text :=
  gapsFrom source 0 ranges

/-- What a row leaves behind a byte: all ranges start no earlier. -/
structure RowFrom (source : Text) (cursor : Nat) (ranges : List Span) : Prop where
  row : Row source ranges
  cut : IsCut source cursor
  ahead : ∀ s ∈ ranges, cursor ≤ s.start

theorem RowFrom.of_row {ranges : List Span} (h : Row source ranges) : RowFrom source 0 ranges :=
  ⟨h, .zero source, fun _ _ => Nat.zero_le _⟩

theorem RowFrom.head {cursor : Nat} {s : Span} {ranges : List Span}
    (h : RowFrom source cursor (s :: ranges)) : s.Fits source ∧ cursor ≤ s.start :=
  ⟨h.row.fits s List.mem_cons_self, h.ahead s List.mem_cons_self⟩

theorem RowFrom.tail {cursor : Nat} {s : Span} {ranges : List Span}
    (h : RowFrom source cursor (s :: ranges)) : RowFrom source s.stop ranges where
  row := ⟨fun r hr => h.row.fits r (List.mem_cons_of_mem _ hr), (List.pairwise_cons.1 h.row.apart).2⟩
  cut := h.head.1.stop_cut
  ahead := (List.pairwise_cons.1 h.row.apart).1

/-- **A row and its gaps make up the text**. -/
theorem weave_gapsFrom {cursor : Nat} {ranges : List Span} (h : RowFrom source cursor ranges) :
    Text.weave (gapsFrom source cursor ranges) (ranges.map (·.of source)) =
      Text.dropBytes cursor source := by
  induction ranges generalizing cursor with
  | nil => exact List.append_nil _
  | cons s rest ih =>
    obtain ⟨hs, hle⟩ := h.head
    simp only [gapsFrom, List.map_cons, Text.weave, ih h.tail]
    rw [Span.of, Text.slice_append_dropBytes hs.start_cut hs.stop_cut hs.ordered,
      Text.slice_append_dropBytes h.cut hs.start_cut hle]

theorem weave_gaps {ranges : List Span} (h : Row source ranges) :
    Text.weave (gaps source ranges) (ranges.map (·.of source)) = source := by
  rw [gaps, weave_gapsFrom (.of_row h)]
  exact Text.dropBytes_width_append [] source

/-! ## Splicing a row -/

/-- The segments are applied one after the other, none is skipped. -/
def AppliesAll (source : Text) : Nat → List Segment → Prop
  | _, [] => True
  | cursor, s :: rest => s.applies source cursor = true ∧ AppliesAll source s.span.stop rest

theorem RowFrom.applies {cursor : Nat} {s : Segment} {ranges : List Span}
    (h : RowFrom source cursor (s.span :: ranges)) : s.applies source cursor = true := by
  obtain ⟨hs, hle⟩ := h.head
  simp only [Segment.applies, Bool.and_eq_true, decide_eq_true_eq]
  exact ⟨hle, hs.stop_cut.le_width⟩

/-- **No segment of a row is skipped**. -/
theorem RowFrom.appliesAll {cursor : Nat} {segments : List Segment}
    (h : RowFrom source cursor (segments.map Segment.span)) : AppliesAll source cursor segments := by
  induction segments generalizing cursor with
  | nil => trivial
  | cons s rest ih => exact ⟨h.applies, ih h.tail⟩

theorem spliceFrom_eq_weave {cursor : Nat} {segments : List Segment}
    (h : RowFrom source cursor (segments.map Segment.span)) :
    spliceFrom source cursor segments =
      Text.weave (gapsFrom source cursor (segments.map Segment.span))
        (segments.map (Segment.text source)) := by
  induction segments generalizing cursor with
  | nil => exact (List.append_nil _).symm
  | cons s rest ih =>
    simp only [spliceFrom, h.applies, if_true, ih h.tail, List.map_cons, gapsFrom, Text.weave,
      List.append_assoc]

/-- **Splicing keeps the gaps and replaces the pieces**. -/
theorem splice_eq_weave {segments : List Segment} (h : Row source (segments.map Segment.span)) :
    splice source segments =
      Text.weave (gaps source (segments.map Segment.span)) (segments.map (Segment.text source)) :=
  spliceFrom_eq_weave (.of_row h)

/-! ## What is cut out -/

/-- What stands before a byte ends with the part of its line before it. -/
theorem lineBefore_append {offset : Nat} (h : IsCut source offset) :
    ∃ before, source = before ++ (lineBefore source offset ++ Text.dropBytes offset source) ∧
      offset = Text.width before + Text.width (lineBefore source offset) ∧
      ∀ c, before.getLast? = some c → c = '\n' := by
  have htake : Text.takeBytes offset source =
      ((Text.takeBytes offset source).reverse.dropWhile (· != '\n')).reverse ++
        lineBefore source offset := by
    rw [lineBefore, ← List.reverse_append, List.takeWhile_append_dropWhile, List.reverse_reverse]
  refine ⟨((Text.takeBytes offset source).reverse.dropWhile (· != '\n')).reverse, ?_, ?_, ?_⟩
  · rw [← List.append_assoc, ← htake, Text.takeBytes_append_dropBytes]
  · rw [← Text.width_append, ← htake, h.width_takeBytes]
  · intro c hc
    rw [List.getLast?_reverse] at hc
    have hnot := List.head?_dropWhile_not (· != '\n') (Text.takeBytes offset source).reverse
    rw [hc] at hnot
    simpa using hnot

/-- The ranges that are cut out when a segment is applied. -/
def Segment.slices (source : Text) (cursor : Nat) (s : Segment) : List Span :=
  ⟨cursor, s.span.start⟩ ::
    match s.replacement with
    | some _ =>
      [⟨0, s.span.start⟩,
        ⟨s.span.start - Text.width (lineBefore source s.span.start), s.span.start⟩]
    | none => [s.span]

/-- The ranges that are cut out when a text is spliced from a byte on. -/
def slicesFrom (source : Text) : Nat → List Segment → List Span
  | cursor, [] => [⟨cursor, Text.width source⟩]
  | cursor, s :: rest =>
    if s.applies source cursor then s.slices source cursor ++ slicesFrom source s.span.stop rest
    else slicesFrom source cursor rest

/-- **Splicing a row cuts out parts of the text**. -/
theorem RowFrom.slices_fit {cursor : Nat} {segments : List Segment}
    (h : RowFrom source cursor (segments.map Segment.span)) :
    ∀ span ∈ slicesFrom source cursor segments, span.Fits source := by
  induction segments generalizing cursor with
  | nil =>
    intro span hspan
    rw [List.mem_singleton.1 hspan]
    exact ⟨h.cut.le_width, h.cut, .full source⟩
  | cons s rest ih =>
    intro span hspan
    simp only [slicesFrom, h.applies, if_true] at hspan
    obtain ⟨hs, hle⟩ := h.head
    rcases List.mem_append.1 hspan with hspan | hspan
    · unfold Segment.slices at hspan
      rcases List.mem_cons.1 hspan with rfl | hspan
      · exact ⟨hle, h.cut, hs.start_cut⟩
      cases hr : s.replacement with
      | none =>
        simp only [hr, List.mem_singleton] at hspan
        exact hspan ▸ hs
      | some code =>
        simp only [hr, List.mem_cons, List.not_mem_nil, or_false] at hspan
        rcases hspan with rfl | rfl
        · exact ⟨Nat.zero_le _, .zero source, hs.start_cut⟩
        · obtain ⟨before, hsource, hoffset, -⟩ := lineBefore_append hs.start_cut
          refine ⟨Nat.sub_le _ _, ?_, hs.start_cut⟩
          have hstart : s.span.start - Text.width (lineBefore source s.span.start) =
              Text.width before := by omega
          rw [hstart]
          exact ⟨before, _, hsource, rfl⟩
    · exact ih h.tail span hspan

end Layout

/-! ## Extents of routines -/

variable {language : Language} {source : Text} {routines : List Routine}

namespace Language

/-- The routines are those of the outline. -/
theorem outline_of_routines (h : language.routines source = .ok routines) :
    ∃ o, language.outline source = .ok o ∧ o.source = source ∧ o.Fits ∧
      routines = (o.survey language.attachment).1 := by
  obtain ⟨survey, hs, h⟩ := bind_eq_ok.1 h
  obtain ⟨o, ho, hs⟩ := bind_eq_ok.1 hs
  cases hs
  cases h
  obtain ⟨hsource, hfits⟩ := outline_fits ho
  exact ⟨o, ho, hsource, hfits, rfl⟩

theorem routines_fit (h : language.routines source = .ok routines) :
    ∀ r ∈ routines, r.Fits source := by
  obtain ⟨o, -, rfl, hfits, rfl⟩ := outline_of_routines h
  intro r hr
  exact (hfits.survey_stands language.attachment r hr).fits hfits.nodes

theorem routines_apart (h : language.routines source = .ok routines) :
    routines.Pairwise Routine.Before := by
  obtain ⟨o, -, -, hfits, rfl⟩ := outline_of_routines h
  exact hfits.survey_apart language.attachment

/-- **The extents of the routines stand in a row**. -/
theorem extents_row (h : language.routines source = .ok routines) :
    Row source (routines.map Routine.extent) := by
  refine ⟨fun s hs => ?_, List.pairwise_map.2 (routines_apart h)⟩
  obtain ⟨r, hr, rfl⟩ := List.mem_map.1 hs
  exact (routines_fit h r hr).extent

/-- **The routines of a text are in place**. The bytes of each are cuts of the text, in order; its
comment and body are the parts of the text that they name; the extents follow each other without
overlap. Hence no segment for a routine is skipped, and whatever is cut out, by the scanner, the
walk or the splice, is a part of the text. -/
theorem routines_in_place (h : language.routines source = .ok routines) :
    (∀ r ∈ routines,
      r.extent.start ≤ r.span.start ∧ r.span.start ≤ r.span.stop ∧
        r.span.stop ≤ Text.width source ∧ r.extent.stop = r.span.stop ∧
        IsCut source r.extent.start ∧ IsCut source r.span.start ∧ IsCut source r.span.stop ∧
        (∃ b, IsCut source b ∧ r.span.start ≤ b ∧ b ≤ r.span.stop ∧
          r.body = Text.slice b r.span.stop source) ∧
        r.body <:+ r.span.of source ∧
        (∀ c, r.commentSpan = some c →
          c.start ≤ c.stop ∧ IsCut source c.start ∧ IsCut source c.stop ∧
            r.comment = c.of source) ∧
        (r.commentSpan = none → r.comment = [])) ∧
      (routines.Pairwise fun r s => r.extent.stop ≤ s.extent.start) ∧
      (∀ span ∈ language.slices source, span.Fits source) ∧
      ∀ segments : List Layout.Segment, segments.map Layout.Segment.span = routines.map Routine.extent →
        Layout.AppliesAll source 0 segments ∧
          ∀ span ∈ Layout.slicesFrom source 0 segments, span.Fits source := by
  refine ⟨fun r hr => ?_, routines_apart h, language.slices_fit source, fun segments hs => ?_⟩
  · have hfits := routines_fit h r hr
    obtain ⟨b, hl, hr, hb, hbody⟩ := hfits.body
    refine ⟨Routine.Fits.extent_start_le r, hfits.span.ordered, hfits.span.stop_cut.le_width,
      Routine.Fits.extent_stop r, hfits.extent.start_cut, hfits.span.start_cut, hfits.span.stop_cut,
      ⟨b, hb, hl, hr, hbody⟩, hfits.body_suffix, fun c hc => ?_, fun hc => ?_⟩
    · have hcomment := hfits.comment
      rw [hc] at hcomment
      have hspan := hfits.commentSpan c hc
      exact ⟨hspan.ordered, hspan.start_cut, hspan.stop_cut, hcomment⟩
    · have hcomment := hfits.comment
      rw [hc] at hcomment
      exact hcomment
  · have hrow : Layout.RowFrom source 0 (segments.map Layout.Segment.span) :=
      .of_row (hs ▸ extents_row h)
    exact ⟨hrow.appliesAll, hrow.slices_fit⟩

/-- A class with a documented getter under an annotation, and a method with an umlaut in its
name. -/
def sampleClass : Text :=
  "class A \x7b\n  /** The sum. */\n  @Pure\n  int sum() \x7b return s; \x7d\n  void läuft() \x7b\x7d\n\x7d".toList

/-- The routines of `sampleClass`. -/
def sampleRoutines : List Routine :=
  [⟨"sum".toList, "int sum()".toList, "\x7b return s; \x7d".toList, ⟨30, 61⟩, "/** The sum. */".toList,
      some ⟨12, 27⟩⟩,
    ⟨"läuft".toList, "void läuft()".toList, "\x7b\x7d".toList, ⟨64, 80⟩, [], none⟩]

theorem routines_sampleClass : Language.routines .java sampleClass = .ok sampleRoutines := by
  rw [routines_eq_compute]
  decide +kernel

theorem routines_in_place_sampleClass :
    Language.routines .java sampleClass = .ok sampleRoutines ∧
      (sampleRoutines.Pairwise fun r s => r.extent.stop ≤ s.extent.start) ∧
      ∀ span ∈ Language.slices .java sampleClass, span.Fits sampleClass := by
  obtain ⟨-, hapart, hslices, -⟩ := routines_in_place routines_sampleClass
  exact ⟨routines_sampleClass, hapart, hslices⟩

end Language

end Scholia

/-!
## Splicing any segments

Segments need not stand in a row: they may come in any order, overlap, or reach beyond the text.
Which of them are applied is told from left to right. A segment is chosen if it starts no earlier than
the last chosen one ends and ends within the text (`Layout.chosen`); what is not chosen might as well
not be there.

The invariant of the splice is a cut of its list: the segments before the cut have written the text up
to the end of the last chosen one (`Layout.spliceFrom_append`), and the next segment is judged against
that end alone (`Layout.splice_choose`). Chosen segments stand in a row, so **splicing replaces the
chosen ranges and copies the rest** (`Layout.splice_chosen`).
-/

namespace Scholia.Layout

open Source (Row Span)
open Text (IsCut)

variable {source : Text} {s : Segment} {applied segments : List Segment} {cursor : Nat}

/-! ### The choice -/

/-- The byte up to which a text has been written when segments have been applied. -/
def reach (applied : List Segment) : Nat :=
  (applied.getLast?.map (·.span.stop)).getD 0

/-- One segment more: it is chosen if it starts no earlier than the last one ends, and ends within
the text. -/
def choose (source : Text) (applied : List Segment) (s : Segment) : List Segment :=
  if reach applied ≤ s.span.start ∧ s.span.stop ≤ Text.width source then applied ++ [s] else applied

/-- The segments that are chosen from left to right. -/
def chosen (source : Text) (segments : List Segment) : List Segment :=
  segments.foldl (choose source) []

theorem foldl_choose_sublist (source : Text) (applied segments : List Segment) :
    (segments.foldl (choose source) applied).Sublist (applied ++ segments) := by
  induction segments generalizing applied with
  | nil => rw [List.append_nil]; exact List.Sublist.refl _
  | cons s rest ih =>
    rw [List.foldl_cons, choose]
    split
    · have hmore := ih (applied ++ [s])
      rwa [List.append_assoc, List.singleton_append] at hmore
    · exact (ih applied).trans (List.Sublist.append_left (List.sublist_cons_self s rest) applied)

/-- Chosen segments are segments, in their order. -/
theorem chosen_sublist (source : Text) (segments : List Segment) :
    (chosen source segments).Sublist segments :=
  foldl_choose_sublist source [] segments

/-! ### What has been written -/

/-- The byte up to which a text has been written, when it was written up to `cursor` before. -/
def reachFrom (cursor : Nat) : List Segment → Nat
  | [] => cursor
  | s :: rest => reachFrom s.span.stop rest

/-- What applied segments have written from a byte on. -/
def writtenFrom (source : Text) : Nat → List Segment → Text
  | _, [] => []
  | cursor, s :: rest =>
    Text.slice cursor s.span.start source ++ s.text source ++ writtenFrom source s.span.stop rest

theorem reachFrom_zero (applied : List Segment) : reachFrom 0 applied = reach applied := by
  have hlast : ∀ (rest : List Segment) (cursor : Nat),
      reachFrom cursor rest = (rest.getLast?.map (·.span.stop)).getD cursor := by
    intro rest
    induction rest with
    | nil => exact fun _ => rfl
    | cons s rest ih =>
      intro cursor
      rw [reachFrom, ih]
      cases rest with
      | nil => rfl
      | cons t rest =>
        rw [List.getLast?_cons_cons, List.getLast?_eq_some_getLast (List.cons_ne_nil t rest)]
        rfl
  exact hlast applied 0

/-- **Applied segments have written the text up to their reach**, and the rest goes on from there. -/
theorem spliceFrom_append (h : AppliesAll source cursor applied) (more : List Segment) :
    spliceFrom source cursor (applied ++ more) =
      writtenFrom source cursor applied ++ spliceFrom source (reachFrom cursor applied) more := by
  induction applied generalizing cursor with
  | nil => rfl
  | cons s rest ih =>
    obtain ⟨hs, hrest⟩ := h
    rw [List.cons_append, spliceFrom, if_pos hs, ih hrest, writtenFrom, reachFrom]
    simp only [List.append_assoc]

theorem AppliesAll.concat (h : AppliesAll source cursor applied)
    (hs : s.applies source (reachFrom cursor applied) = true) :
    AppliesAll source cursor (applied ++ [s]) := by
  induction applied generalizing cursor with
  | nil => exact ⟨hs, trivial⟩
  | cons t rest ih => exact ⟨h.1, ih h.2 hs⟩

/-- **One step of the splice**: the next segment is chosen, or might as well not be there. -/
theorem splice_choose (h : AppliesAll source 0 applied) (s : Segment) (rest : List Segment) :
    AppliesAll source 0 (choose source applied s) ∧
      splice source (applied ++ s :: rest) = splice source (choose source applied s ++ rest) := by
  have happlies : s.applies source (reachFrom 0 applied) = true ↔
      reach applied ≤ s.span.start ∧ s.span.stop ≤ Text.width source := by
    rw [reachFrom_zero, Segment.applies, Bool.and_eq_true, decide_eq_true_eq, decide_eq_true_eq]
  unfold choose
  split
  · next hs =>
    refine ⟨h.concat (happlies.2 hs), ?_⟩
    rw [List.append_assoc, List.singleton_append]
  · next hs =>
    refine ⟨h, ?_⟩
    rw [splice, splice, spliceFrom_append h, spliceFrom_append h, spliceFrom,
      if_neg (mt happlies.1 hs)]

/-- The whole run: segments behind applied ones are chosen one after the other. -/
theorem splice_foldl (h : AppliesAll source 0 applied) (segments : List Segment) :
    AppliesAll source 0 (segments.foldl (choose source) applied) ∧
      splice source (applied ++ segments) =
        splice source (segments.foldl (choose source) applied) := by
  induction segments generalizing applied with
  | nil => exact ⟨h, by rw [List.append_nil, List.foldl_nil]⟩
  | cons s rest ih =>
    obtain ⟨happlies, hstep⟩ := splice_choose h s rest
    obtain ⟨hall, hrun⟩ := ih happlies
    exact ⟨hall, hstep.trans hrun⟩

/-! ### Chosen segments stand in a row -/

theorem AppliesAll.rowFrom (h : AppliesAll source cursor segments) (hcursor : IsCut source cursor)
    (hfits : ∀ s ∈ segments, s.span.Fits source) :
    RowFrom source cursor (segments.map Segment.span) := by
  induction segments generalizing cursor with
  | nil => exact ⟨⟨by simp, List.Pairwise.nil⟩, hcursor, by simp⟩
  | cons s rest ih =>
    obtain ⟨hs, hrest⟩ := h
    obtain ⟨hfit, hfits⟩ := List.forall_mem_cons.1 hfits
    have htail := ih hrest hfit.stop_cut hfits
    have hle : cursor ≤ s.span.start := of_decide_eq_true (Bool.and_eq_true_iff.1 hs).1
    refine ⟨⟨List.forall_mem_cons.2 ⟨hfit, htail.row.fits⟩, ?_⟩, hcursor, ?_⟩
    · exact List.pairwise_cons.2 ⟨htail.ahead, htail.row.apart⟩
    · refine List.forall_mem_cons.2 ⟨hle, fun t ht => ?_⟩
      exact Nat.le_trans (Nat.le_trans hle hfit.ordered) (htail.ahead t ht)

/-- What applies ends within the text. -/
theorem AppliesAll.stop_le (h : AppliesAll source cursor segments) :
    ∀ s ∈ segments, s.span.stop ≤ Text.width source := by
  induction segments generalizing cursor with
  | nil => exact fun _ hs => nomatch hs
  | cons s rest ih =>
    exact List.forall_mem_cons.2
      ⟨of_decide_eq_true (Bool.and_eq_true_iff.1 h.1).2, ih h.2⟩

/-- **Splicing replaces the chosen ranges and copies the rest**, whatever the segments: they need only
end no earlier than they start and, if they end within the text, be bounded by cuts of it. The chosen
segments are applied, each once and in order, and no others; the text between them is the text that
stood between them. So nothing is changed if none of them has a replacement. -/
theorem splice_chosen
    (h : ∀ s ∈ segments, s.span.start ≤ s.span.stop ∧
      (s.span.stop ≤ Text.width source → IsCut source s.span.start ∧ IsCut source s.span.stop)) :
    (chosen source segments).Sublist segments ∧
      Row source ((chosen source segments).map Segment.span) ∧
      splice source segments =
        Text.weave (gaps source ((chosen source segments).map Segment.span))
          ((chosen source segments).map (Segment.text source)) ∧
      source =
        Text.weave (gaps source ((chosen source segments).map Segment.span))
          ((chosen source segments).map (·.span.of source)) ∧
      ((∀ s ∈ chosen source segments, s.replacement = none) → splice source segments = source) := by
  have hsub := chosen_sublist source segments
  have hrun := @splice_foldl source [] trivial segments
  obtain ⟨happlies, hsplice⟩ : AppliesAll source 0 (chosen source segments) ∧
      splice source segments = splice source (chosen source segments) := hrun
  have hfits : ∀ s ∈ chosen source segments, s.span.Fits source := by
    intro s hs
    obtain ⟨hle, hcuts⟩ := h s (hsub.subset hs)
    obtain ⟨hstart, hstop⟩ := hcuts (happlies.stop_le s hs)
    exact ⟨hle, hstart, hstop⟩
  have hrow := (happlies.rowFrom (.zero source) hfits).row
  have hkept : Text.weave (gaps source ((chosen source segments).map Segment.span))
      ((chosen source segments).map (·.span.of source)) = source := by
    have hweave := weave_gaps hrow
    rwa [List.map_map] at hweave
  rw [hsplice]
  refine ⟨hsub, hrow, splice_eq_weave hrow, hkept.symm, fun hnone => ?_⟩
  rw [splice_eq_weave hrow]
  refine Eq.trans (congrArg (Text.weave _) (List.map_congr_left fun s hs => ?_)) hkept
  rw [Segment.text, hnone s hs]

/-- Two lines, the second of which is indented. -/
def indentedPair : Text :=
  "a;\n  é;\n".toList

/-- Segments that overlap, come too late, or end beyond the text. -/
def looseSegments : List Segment :=
  [⟨⟨5, 8⟩, some "x;\ny;".toList⟩, ⟨⟨0, 2⟩, some "b;".toList⟩, ⟨⟨7, 9⟩, none⟩, ⟨⟨8, 20⟩, none⟩,
    ⟨⟨8, 8⟩, some "!".toList⟩]

theorem splice_chosen_looseSegments :
    chosen indentedPair looseSegments =
        [⟨⟨5, 8⟩, some "x;\ny;".toList⟩, ⟨⟨8, 8⟩, some "!".toList⟩] ∧
      splice indentedPair looseSegments = "a;\n  x;\n  y;!\n".toList ∧
      splice indentedPair looseSegments =
        Text.weave (gaps indentedPair [⟨5, 8⟩, ⟨8, 8⟩]) ["x;\n  y;".toList, "!".toList] := by
  have h : ∀ s ∈ looseSegments, s.span.start ≤ s.span.stop ∧
      (s.span.stop ≤ Text.width indentedPair →
        IsCut indentedPair s.span.start ∧ IsCut indentedPair s.span.stop) := by
    decide +kernel
  have hchosen : chosen indentedPair looseSegments =
      [⟨⟨5, 8⟩, some "x;\ny;".toList⟩, ⟨⟨8, 8⟩, some "!".toList⟩] := by
    decide +kernel
  obtain ⟨-, -, hweave, -⟩ := splice_chosen h
  rw [hchosen] at hweave
  refine ⟨hchosen, by decide +kernel, hweave.trans ?_⟩
  decide +kernel

end Scholia.Layout
