import Scholia.Proofs.Layout.Splice
import Scholia.Proofs.Text.Lines
/-!
# What a splice leaves standing

A segment that replaces nothing might as well not be there. Parts of the text that no replaced range
touches stand in the spliced text one after the other, as they did before.

What a segment puts in a text is written behind what stands before it on its line. Seen line by line,
it takes the place of the range and of the begin of its first line.
-/

namespace Scholia

open Source (Span Row)
open Text (IsCut isWhole)

/-! ## Texts in turn -/

/-- Texts stand in a text one after the other, without overlap. -/
def Text.InTurn : List Text → Text → Prop
  | [], _ => True
  | part :: parts, s => ∃ before after, s = before ++ (part ++ after) ∧ Text.InTurn parts after

namespace Text.InTurn

variable {parts more : List Text} {s t : Text}

theorem behind (h : InTurn parts s) (before : Text) : InTurn parts (before ++ s) := by
  cases parts with
  | nil => trivial
  | cons part parts =>
    obtain ⟨lead, after, rfl, hrest⟩ := h
    exact ⟨before ++ lead, after, (List.append_assoc before lead _).symm, hrest⟩

theorem append (h : InTurn parts s) (ht : InTurn more t) : InTurn (parts ++ more) (s ++ t) := by
  induction parts generalizing s with
  | nil => exact ht.behind s
  | cons part parts ih =>
    obtain ⟨lead, after, rfl, hrest⟩ := h
    refine ⟨lead, after ++ t, ?_, ih hrest⟩
    rw [List.append_assoc, List.append_assoc]

end Text.InTurn

namespace Layout

variable {source : Text}

/-- A row divides at a range that none of its parts touches. -/
theorem row_divides {parts : List Span} (h : Row source parts) {i j : Nat}
    (hout : ∀ m ∈ parts, m.stop ≤ i ∨ j ≤ m.start) :
    ∃ left right, parts = left ++ right ∧ (∀ m ∈ left, m.stop ≤ i) ∧ ∀ m ∈ right, j ≤ m.start := by
  induction parts with
  | nil => exact ⟨[], [], rfl, by simp, by simp⟩
  | cons m rest ih =>
    obtain ⟨hfirst, hrest⟩ := List.pairwise_cons.1 h.apart
    rcases hout m List.mem_cons_self with hm | hm
    · obtain ⟨left, right, rfl, hl, hr⟩ :=
        ih ⟨fun l hl => h.fits l (List.mem_cons_of_mem _ hl), hrest⟩
          fun l hl => hout l (List.mem_cons_of_mem _ hl)
      exact ⟨m :: left, right, rfl, List.forall_mem_cons.2 ⟨hm, hl⟩, hr⟩
    · refine ⟨[], m :: rest, rfl, by simp, List.forall_mem_cons.2 ⟨hm, fun l hl => ?_⟩⟩
      have := hfirst l hl
      have := (h.fits m List.mem_cons_self).ordered
      omega

/-- The parts of a row stand in turn in every range that holds them. -/
theorem row_inTurn {parts : List Span} (h : Row source parts) {i j : Nat} (hi : IsCut source i)
    (hj : IsCut source j) (hij : i ≤ j) (hin : ∀ m ∈ parts, i ≤ m.start ∧ m.stop ≤ j) :
    Text.InTurn (parts.map (·.of source)) (Text.slice i j source) := by
  induction parts generalizing i with
  | nil => trivial
  | cons m rest ih =>
    obtain ⟨hfirst, hrest⟩ := List.pairwise_cons.1 h.apart
    have hm := h.fits m List.mem_cons_self
    obtain ⟨hstart, hstop⟩ := hin m List.mem_cons_self
    refine ⟨Text.slice i m.start source, Text.slice m.stop j source, ?_, ?_⟩
    · show _ = _ ++ (Text.slice m.start m.stop source ++ Text.slice m.stop j source)
      rw [Text.slice_append_slice hm.start_cut hm.stop_cut hj hm.ordered hstop]
      exact (Text.slice_append_slice hi hm.start_cut hj hstart (Nat.le_trans hm.ordered hstop)).symm
    · exact ih ⟨fun l hl => h.fits l (List.mem_cons_of_mem _ hl), hrest⟩ hm.stop_cut hstop
        fun l hl => ⟨hfirst l hl, (hin l (List.mem_cons_of_mem _ hl)).2⟩

/-! ## Segments that keep their range -/

/-- What stands before the first range can be copied first. -/
theorem RowFrom.slice_append {segments : List Segment} {i j : Nat}
    (h : RowFrom source j (segments.map Segment.span)) (hi : IsCut source i) (hij : i ≤ j) :
    Text.slice i j source ++ spliceFrom source j segments = spliceFrom source i segments := by
  cases segments with
  | nil => exact Text.slice_append_dropBytes hi h.cut hij
  | cons s rest =>
    obtain ⟨hs, hle⟩ := h.head
    have hi' : RowFrom source i ((s :: rest).map Segment.span) :=
      ⟨h.row, hi, fun m hm => Nat.le_trans hij (h.ahead m hm)⟩
    simp only [spliceFrom, h.applies, hi'.applies, if_true]
    rw [← List.append_assoc, ← List.append_assoc,
      Text.slice_append_slice hi h.cut hs.start_cut hij hle]

/-- **A segment that replaces nothing might as well not be there**. -/
theorem RowFrom.spliceFrom_filter {segments : List Segment} {cursor : Nat}
    (h : RowFrom source cursor (segments.map Segment.span)) :
    spliceFrom source cursor (segments.filter (·.replacement.isSome)) =
      spliceFrom source cursor segments := by
  induction segments generalizing cursor with
  | nil => rfl
  | cons s rest ih =>
    obtain ⟨hs, hle⟩ := h.head
    have hrest : RowFrom source s.span.stop
        ((rest.filter (·.replacement.isSome)).map Segment.span) := by
      have hsub := (List.filter_sublist (p := (·.replacement.isSome)) (l := rest)).map Segment.span
      exact ⟨⟨fun l hl => h.tail.row.fits l (hsub.subset hl), h.tail.row.apart.sublist hsub⟩,
        h.tail.cut, fun l hl => h.tail.ahead l (hsub.subset hl)⟩
    have hcopy : spliceFrom source cursor (s :: rest) =
        Text.slice cursor s.span.start source ++ s.text source ++
          spliceFrom source s.span.stop (rest.filter (·.replacement.isSome)) := by
      rw [spliceFrom, if_pos h.applies, ih h.tail]
    rw [hcopy]
    cases hr : s.replacement with
    | some code =>
      have hfrom : RowFrom source cursor
          (s.span :: (rest.filter (·.replacement.isSome)).map Segment.span) := by
        refine ⟨⟨List.forall_mem_cons.2 ⟨hs, hrest.row.fits⟩, ?_⟩, h.cut, ?_⟩
        · exact List.pairwise_cons.2 ⟨hrest.ahead, hrest.row.apart⟩
        · refine List.forall_mem_cons.2 ⟨hle, fun l hl => ?_⟩
          exact Nat.le_trans (Nat.le_trans hle hs.ordered) (hrest.ahead l hl)
      rw [List.filter_cons_of_pos (by simp [hr]), spliceFrom, if_pos hfrom.applies]
    | none =>
      have htext : s.text source = Text.slice s.span.start s.span.stop source := by
        simp only [Segment.text, hr, Span.of]
      rw [List.filter_cons_of_neg (by simp [hr]), htext,
        Text.slice_append_slice h.cut hs.start_cut hs.stop_cut hle hs.ordered]
      exact (hrest.slice_append h.cut (Nat.le_trans hle hs.ordered)).symm

/-! ## What is left standing -/

theorem RowFrom.inTurn {segments : List Segment} {parts : List Span} {cursor : Nat}
    (h : RowFrom source cursor (segments.map Segment.span)) (hparts : RowFrom source cursor parts)
    (hout : ∀ s ∈ segments, ∀ m ∈ parts, m.stop ≤ s.span.start ∨ s.span.stop ≤ m.start) :
    Text.InTurn (parts.map (·.of source)) (spliceFrom source cursor segments) := by
  induction segments generalizing cursor parts with
  | nil =>
    have hstop : ∀ m ∈ parts, cursor ≤ m.start ∧ m.stop ≤ Text.width source := fun m hm =>
      ⟨hparts.ahead m hm, (hparts.row.fits m hm).stop_cut.le_width⟩
    have := row_inTurn hparts.row h.cut (.full source) h.cut.le_width hstop
    have hend := Text.slice_append_dropBytes h.cut (.full source) h.cut.le_width
    rw [spliceFrom, ← hend]
    have hnone : Text.InTurn [] (Text.dropBytes (Text.width source) source) := trivial
    have := this.append hnone
    rwa [List.append_nil] at this
  | cons s rest ih =>
    obtain ⟨hs, hle⟩ := h.head
    obtain ⟨left, right, rfl, hl, hr⟩ :=
      row_divides hparts.row (hout s List.mem_cons_self)
    have happart := List.pairwise_append.1 hparts.row.apart
    have hleft : Text.InTurn (left.map (·.of source)) (Text.slice cursor s.span.start source) :=
      row_inTurn ⟨fun m hm => hparts.row.fits m (List.mem_append_left _ hm), happart.1⟩ h.cut
        hs.start_cut hle
        fun m hm => ⟨hparts.ahead m (List.mem_append_left _ hm), hl m hm⟩
    have hright : Text.InTurn (right.map (·.of source)) (spliceFrom source s.span.stop rest) := by
      refine ih h.tail ⟨⟨?_, happart.2.1⟩, hs.stop_cut, hr⟩ ?_
      · exact fun m hm => hparts.row.fits m (List.mem_append_right _ hm)
      · exact fun t ht m hm => hout t (List.mem_cons_of_mem _ ht) m (List.mem_append_right _ hm)
    rw [spliceFrom, if_pos h.applies, List.map_append, List.append_assoc]
    exact hleft.append (hright.behind _)

/-- **Parts that no replaced range touches are left standing**, in their order and without
overlap. -/
theorem splice_inTurn {segments : List Segment} {parts : List Span}
    (h : Row source (segments.map Segment.span)) (hparts : Row source parts)
    (hout : ∀ s ∈ segments, s.replacement.isSome = true →
      ∀ m ∈ parts, m.stop ≤ s.span.start ∨ s.span.stop ≤ m.start) :
    Text.InTurn (parts.map (·.of source)) (splice source segments) := by
  have hsub := (List.filter_sublist (p := (·.replacement.isSome)) (l := segments)).map Segment.span
  rw [splice, ← (RowFrom.of_row h).spliceFrom_filter]
  refine RowFrom.inTurn (.of_row ⟨fun l hl => h.fits l (hsub.subset hl), h.apart.sublist hsub⟩)
    (.of_row hparts) fun s hs => ?_
  obtain ⟨hs, hsome⟩ := List.mem_filter.1 hs
  exact hout s hs hsome

/-! ## The rest of a line behind a byte -/

/-- The part of a text from a byte on that is in the same line. -/
def lineBehind (source : Text) (offset : Nat) : Text :=
  (Text.dropBytes offset source).takeWhile (· != '\n')

theorem lineBehind_append (source : Text) (offset : Nat) :
    ∃ rest, Text.dropBytes offset source = lineBehind source offset ++ rest ∧
      endsLine rest = true ∧ ∀ c ∈ lineBehind source offset, c ≠ '\n' := by
  refine ⟨(Text.dropBytes offset source).dropWhile (· != '\n'),
    List.takeWhile_append_dropWhile.symm, endsLine_dropWhile _, fun c => ne_newline_of_mem_line⟩

/-- **The rest of a line in which no range starts is copied**, and a line ends behind it. -/
theorem RowFrom.splice_line {segments : List Segment} {cursor : Nat}
    (h : RowFrom source cursor (segments.map Segment.span))
    (hfar : ∀ s ∈ segments, cursor + Text.width (lineBehind source cursor) < s.span.start) :
    RowFrom source (cursor + Text.width (lineBehind source cursor)) (segments.map Segment.span) ∧
      spliceFrom source cursor segments = lineBehind source cursor ++
        spliceFrom source (cursor + Text.width (lineBehind source cursor)) segments ∧
      endsLine (spliceFrom source (cursor + Text.width (lineBehind source cursor)) segments) =
        true := by
  obtain ⟨rest, hrest, hends, -⟩ := lineBehind_append source cursor
  obtain ⟨before, behind, hsource, hbefore⟩ := h.cut
  have hsource' : source = before ++ (lineBehind source cursor ++ rest) := by
    rw [← hrest]
    conv => lhs; rw [hsource]
    rw [hsource, hbefore, Text.dropBytes_width_append]
  have hcut : IsCut source (cursor + Text.width (lineBehind source cursor)) :=
    ⟨before ++ lineBehind source cursor, rest, by rw [List.append_assoc]; exact hsource',
      by rw [Text.width_append, hbefore]⟩
  have hrow : RowFrom source (cursor + Text.width (lineBehind source cursor))
      (segments.map Segment.span) := by
    refine ⟨h.row, hcut, fun s hs => ?_⟩
    obtain ⟨seg, hseg, rfl⟩ := List.mem_map.1 hs
    exact Nat.le_of_lt (hfar seg hseg)
  have hslice : Text.slice cursor (cursor + Text.width (lineBehind source cursor)) source =
      lineBehind source cursor := by
    rw [Text.slice, Nat.add_sub_cancel_left, hrest, Text.takeBytes_width_append]
  have hbehind : Text.dropBytes (cursor + Text.width (lineBehind source cursor)) source = rest := by
    have hdrop := Text.slice_append_dropBytes h.cut hcut (Nat.le_add_right _ _)
    rw [hslice, hrest] at hdrop
    exact List.append_cancel_left hdrop
  refine ⟨hrow, ?_, ?_⟩
  · rw [← hrow.slice_append h.cut (Nat.le_add_right _ _), hslice]
  · cases segments with
    | nil =>
      show endsLine (Text.dropBytes _ source) = true
      rw [hbehind]
      exact hends
    | cons s more =>
      have hlt := hfar s List.mem_cons_self
      have hs := (h.row.fits s.span (by simp)).start_cut
      have hgap := Text.slice_append_dropBytes hcut hs (Nat.le_of_lt hlt)
      have hwidth := Text.width_slice hcut hs (Nat.le_of_lt hlt)
      rw [spliceFrom, if_pos hrow.applies, List.append_assoc]
      cases hfirst : Text.slice (cursor + Text.width (lineBehind source cursor)) s.span.start
          source with
      | nil =>
        rw [hfirst, Text.width_nil] at hwidth
        omega
      | cons c gap =>
        rw [hfirst, hbehind] at hgap
        rw [← hgap] at hends
        exact hends

/-! ## Whole lines around a replaced range -/

variable {a b lead rest : Text}

/-- What a segment puts in a text, with what stands before it on its line. -/
def written (source : Text) (seg : Segment) : Text :=
  lineBefore source seg.span.start ++ seg.text source

/-- What stands before a byte on its line, behind whole lines. -/
theorem lineBefore_eq (ha : isWhole a) (hlead : '\n' ∉ lead) :
    lineBefore (a ++ lead ++ rest) (Text.width (a ++ lead)) = lead := by
  have hall : ∀ c ∈ lead.reverse, (c != '\n') = true := by
    intro c hc
    refine bne_iff_ne.2 ?_
    rintro rfl
    exact hlead (List.mem_reverse.1 hc)
  rw [lineBefore, Text.takeBytes_width_append, List.reverse_append,
    List.takeWhile_append_of_pos hall]
  rcases ha with rfl | ⟨x, rfl⟩
  · simp
  · simp

/-- A line in which a byte stands begins no earlier than whole lines that end before that byte. -/
theorem append_of_isWhole {whole behind : Text} (h : whole ++ behind = a ++ (lead ++ rest))
    (hwhole : isWhole whole) (hlead : '\n' ∉ lead) (hle : Text.width whole ≤ Text.width (a ++ lead)) :
    ∃ g, a = whole ++ g := by
  rcases List.append_eq_append_iff.1 h with ⟨g, hg, -⟩ | ⟨x, rfl, hrest⟩
  · exact ⟨g, hg⟩
  · rw [Text.width_append, Text.width_append] at hle
    obtain ⟨y, rfl⟩ : ∃ y, lead = x ++ y := by
      rcases List.append_eq_append_iff.1 hrest with ⟨y, hy, -⟩ | ⟨y, hy, -⟩
      · have hnil : y = [] := Text.eq_nil_of_width_eq_zero (by
          rw [hy, Text.width_append] at hle
          omega)
        exact ⟨[], by rw [hy, hnil, List.append_nil, List.append_nil]⟩
      · exact ⟨y, hy⟩
    rcases hwhole.right with rfl | ⟨z, rfl⟩
    · exact ⟨[], by rw [List.append_nil, List.append_nil]⟩
    · exact absurd (by simp) hlead

/-- **A replaced range between whole lines**: before it the text goes on as it was, and behind it
what is left is copied before what follows. -/
theorem spliceFrom_written {g body tail : Text} {seg : Segment} {segments : List Segment}
    (hsource : source = (a ++ g) ++ (lead ++ (body ++ (tail ++ b)))) (hwhole : isWhole (a ++ g))
    (hlead : '\n' ∉ lead) (hstart : seg.span.start = Text.width ((a ++ g) ++ lead))
    (hstop : seg.span.stop = Text.width ((a ++ g) ++ (lead ++ body)))
    (hrow : RowFrom source (Text.width a) (seg.span :: segments.map Segment.span))
    (hrow' : RowFrom source (Text.width ((a ++ g) ++ (lead ++ (body ++ tail))))
      (segments.map Segment.span)) :
    spliceFrom source (Text.width a) (seg :: segments) = g ++ ((written source seg ++ tail) ++
      spliceFrom source (Text.width ((a ++ g) ++ (lead ++ (body ++ tail)))) segments) := by
  have hbefore : lineBefore source seg.span.start = lead := by
    rw [hstart, hsource, ← List.append_assoc (a ++ g) lead]
    exact lineBefore_eq hwhole hlead
  have hfirst : Text.slice (Text.width a) seg.span.start source = g ++ lead := by
    have hsplit : source = a ++ ((g ++ lead) ++ (body ++ (tail ++ b))) := by
      rw [hsource]
      simp only [List.append_assoc]
    have hwidth : seg.span.start = Text.width a + Text.width (g ++ lead) := by
      rw [hstart, ← Text.width_append, List.append_assoc]
    rw [hwidth, hsplit, Text.slice_middle]
  have hbehind : spliceFrom source seg.span.stop segments = tail ++
      spliceFrom source (Text.width ((a ++ g) ++ (lead ++ (body ++ tail)))) segments := by
    have hwidth : Text.width ((a ++ g) ++ (lead ++ (body ++ tail))) =
        seg.span.stop + Text.width tail := by
      rw [hstop]
      simp only [Text.width_append]
      omega
    have hslice : Text.slice seg.span.stop (seg.span.stop + Text.width tail) source = tail := by
      have hsplit : source = ((a ++ g) ++ (lead ++ body)) ++ (tail ++ b) := by
        rw [hsource]
        simp only [List.append_assoc]
      rw [hstop, hsplit, Text.slice_middle]
    rw [← hrow'.slice_append hrow.tail.cut (by rw [hwidth]; exact Nat.le_add_right _ _), hwidth,
      hslice]
  rw [spliceFrom, if_pos hrow.applies, hfirst, hbehind, written, hbefore]
  simp only [List.append_assoc]

end Layout

end Scholia
