import Scholia.Proofs.Layout.Loss
import Scholia.Proofs.Source.Indented.Lines
import Scholia.Proofs.Source.Walk
import Scholia.Source.Indented.Blocks
/-!
# Where blocks come from

A block starts where a line does, with its header or with an annotation before it, and stops where a
line does. As lines follow each other without overlap, every block is a part of the text, and so is
the string that documents it.

A line that declares something begins with a word, and an annotation with its sign. So no block
begins with a blank, whatever stands before it in its line.
-/

namespace Scholia.Source.Indented

open Layout (IsStart)
open Text (IsCut isBlank)

variable {source : Text} {before : List Span}

/-- The range of a line. -/
def LogicalLine.span (line : LogicalLine) : Span :=
  ⟨line.start, line.stop⟩

/-- A line whose places are parts of the text. -/
structure LogicalLine.Fits (source : Text) (line : LogicalLine) : Prop where
  span : line.span.Fits source
  colon : ColonFits source line.start line.stop line.colon
  literal : ∀ t, line.loneString = some t → t = line.span

theorem LogicalLine.Stands.fits {line : LogicalLine} {lexemes : List (Lexeme Kind)} {ended : Bool}
    (h : line.Stands source lexemes ended) (hsource : Lexeme.textOf lexemes <+: source) :
    line.Fits source := by
  refine ⟨⟨h.ordered, h.start_cut, h.stop_cut hsource⟩, h.colon, fun t ht => ?_⟩
  obtain ⟨hstart, hstop, -⟩ := h.literal t ht
  rw [LogicalLine.span, ← hstart, ← hstop]

/-- A block from the start of a line to the stop of one, whose body starts at a cut inside it. -/
structure OpenBlock.Stands (source : Text) (before : List Span) (b : OpenBlock) : Prop where
  start : StartsLine before b.start
  stop : StopsLine before b.stop
  body_start : b.start ≤ b.bodyStart
  body_stop : b.bodyStart ≤ b.stop
  body_cut : IsCut source b.bodyStart

theorem OpenBlock.Stands.close {b : OpenBlock} (h : b.Stands source before)
    (hrow : Row source before) : b.close.Lined source before := by
  have hspan : Span.Fits source ⟨b.start, b.stop⟩ :=
    ⟨Nat.le_trans h.body_start h.body_stop, hrow.start_cut h.start, hrow.stop_cut h.stop⟩
  unfold OpenBlock.close
  split
  · exact ⟨Node.fits_routine hspan h.body_start h.body_stop h.body_cut, h.start, h.stop⟩
  · exact ⟨Node.fits_typeDecl hspan, h.start, h.stop⟩

/-- A block goes on to the end of a line. -/
theorem OpenBlock.Stands.stretch {b : OpenBlock} {line : Span} (h : b.Stands source before)
    (hrow : Row source (before ++ [line])) (awaiting : Bool) :
    OpenBlock.Stands source (before ++ [line]) { b with awaiting, stop := line.stop } where
  start := h.start.more line
  stop := .last before line
  body_start := h.body_start
  body_stop := by
    have hle := hrow.stop_le h.stop
    exact Nat.le_trans (Nat.le_trans h.body_stop hle) hrow.last_fits.ordered
  body_cut := h.body_cut

/-- What holds when some lines have been read. -/
structure BlockState.Sound (source : Text) (before : List Span) (s : BlockState) : Prop where
  blocks : ∀ b ∈ s.blocks, b.Stands source before
  annotations : ∀ a, s.annotations = some a → StartsLine before a
  nodes : ∀ n ∈ s.nodes, n.Lined source before

namespace BlockState.Sound

variable {s s' : BlockState} {line : LogicalLine}

theorem initial : BlockState.Sound source [] .initial where
  blocks := fun _ h => by cases h
  annotations := fun _ h => by cases h
  nodes := fun _ h => by cases h

theorem closeTo (h : s.Sound source before) (hrow : Row source before) (indent : Nat) :
    (s.closeTo indent).Sound source before := by
  refine ⟨fun b hb => h.blocks b ((List.drop_sublist _ _).subset hb), h.annotations, ?_⟩
  intro n hn
  rcases List.mem_append.1 hn with hn | hn
  · obtain ⟨b, hb, rfl⟩ := List.mem_map.1 (List.mem_reverse.1 hn)
    exact (h.blocks b ((List.takeWhile_sublist _).subset hb)).close hrow
  · exact h.nodes n hn

theorem extend (h : s.Sound source before) (hrow : Row source (before ++ [line.span]))
    (hline : line.Fits source) : (s.extend line).Sound source (before ++ [line.span]) := by
  refine ⟨fun b hb => ?_, fun a ha => (h.annotations a ha).more _, fun n hn => ?_⟩
  · simp only [BlockState.extend] at hb
    cases hs : s.blocks with
    | nil =>
      simp only [hs] at hb
      cases hb
    | cons inner outer =>
      simp only [hs, List.map_cons, List.mem_cons, List.mem_map] at hb
      rcases hb with rfl | ⟨b₀, hb₀, rfl⟩
      · exact (h.blocks inner (by simp [hs])).stretch hrow false
      · exact (h.blocks b₀ (by simp [hs, hb₀])).stretch hrow b₀.awaiting
  · simp only [BlockState.extend] at hn
    rcases List.mem_append.1 hn with hn | hn
    · obtain ⟨t, ht, rfl⟩ : ∃ t, line.loneString = some t ∧ n = .doc t := by
        split at hn
        · split at hn
          · simp only [Option.mem_toList, Option.map_eq_some_iff] at hn
            obtain ⟨t, ht, rfl⟩ := hn
            exact ⟨t, ht, rfl⟩
          · cases hn
        · cases hn
      rw [hline.literal t ht]
      exact ⟨Node.fits_doc hline.span, .last before line.span, .last before line.span⟩
    · exact (h.nodes n hn).more _

/-- **Every line keeps what holds of the blocks**. -/
theorem next (h : s.Sound source before) (hrow : Row source (before ++ [line.span]))
    (hline : line.Fits source) (hs : s.step source line = .ok s') :
    s'.Sound source (before ++ [line.span]) := by
  have he := (h.closeTo hrow.left line.indent).extend hrow hline
  simp only [BlockState.step] at hs
  generalize (s.closeTo line.indent).extend line = t at hs he
  have hstart : StartsLine (before ++ [line.span]) (t.annotations.getD line.start) := by
    cases ha : t.annotations with
    | none => exact .last before line.span
    | some a => exact he.annotations a ha
  split at hs
  · cases hs
    refine ⟨he.blocks, fun a ha => ?_, he.nodes⟩
    cases ha
    exact hstart
  split at hs
  · cases hs
    exact ⟨he.blocks, (fun a ha => by cases ha), he.nodes⟩
  split at hs
  · cases hs
  · next header _ _ colon hcolon =>
    cases hs
    refine ⟨fun b hb => ?_, (fun a ha => by cases ha), he.nodes⟩
    rcases List.mem_cons.1 hb with rfl | hb
    · obtain ⟨hl, hr, -, hcut⟩ := hline.colon colon hcolon
      refine ⟨hstart, .last before line.span, ?_, hr, hcut⟩
      exact Nat.le_trans (hrow.start_le hstart) (Nat.le_succ_of_le hl)
    · exact he.blocks b hb

theorem finish (h : s.Sound source before) (hrow : Row source before) :
    ∀ n ∈ s.finish, n.Lined source before := by
  intro n hn
  rcases List.mem_append.1 hn with hn | hn
  · exact h.nodes n (List.mem_reverse.1 hn)
  · obtain ⟨b, hb, rfl⟩ := List.mem_map.1 hn
    exact (h.blocks b hb).close hrow

end BlockState.Sound

/-- The places of blocks stand where lines do. -/
theorem blockNodes_lined {lines : List LogicalLine} {nodes : List Node}
    (hfits : ∀ l ∈ lines, l.Fits source) (hrow : Row source (lines.map LogicalLine.span))
    (h : blockNodes source lines = .ok nodes) :
    ∀ n ∈ nodes, n.Lined source (lines.map LogicalLine.span) := by
  obtain ⟨s, hs, h⟩ := bind_eq_ok.1 h
  cases h
  refine BlockState.Sound.finish ?_ hrow
  refine foldlM_keeps (I := fun before s => s.Sound source (before.map LogicalLine.span))
    .initial ?_ hs
  intro before line after s s' he hI hstep
  have hmore : Row source (before.map LogicalLine.span ++ [line.span]) := by
    rw [he, List.append_cons, List.map_append, List.map_append] at hrow
    exact hrow.left
  rw [List.map_append]
  exact hI.next hmore (hfits line (by simp [he])) hstep

/-- The logical lines of a text stand in a row. -/
theorem logicalLines_fit {lines : List LogicalLine} (h : logicalLines source = .ok lines) :
    (∀ l ∈ lines, l.Fits source) ∧ Row source (lines.map LogicalLine.span) := by
  obtain ⟨lexemes, s, hr, hstand, hapart⟩ := logicalLines_stand h
  have hfits : ∀ l ∈ lines, l.Fits source := by
    intro l hl
    obtain ⟨ended, hl⟩ := hstand l hl
    exact hl.fits ⟨[], hr.text.symm⟩
  refine ⟨hfits, fun l hl => ?_, List.pairwise_map.2 hapart⟩
  obtain ⟨line, hline, rfl⟩ := List.mem_map.1 hl
  exact (hfits line hline).span

/-- **The outline of the indented language is in place**. -/
theorem outline_fits {o : Outline} (h : outline source = .ok o) : o.source = source ∧ o.Fits := by
  obtain ⟨lines, hlines, h⟩ := bind_eq_ok.1 h
  obtain ⟨nodes, hnodes, h⟩ := bind_eq_ok.1 h
  cases h
  obtain ⟨hfits, hrow⟩ := logicalLines_fit hlines
  exact ⟨rfl, Outline.ofNodes_fits fun n hn => (blockNodes_lined hfits hrow hnodes n hn).fits⟩

/-! ## What blocks begin with -/

theorem isStart_of_slice {start stop : Nat} {c : Char} (hcut : Text.IsCut source start)
    (h : (Text.slice start stop source).head? = some c) (hc : isBlank c = false) :
    IsStart source start := by
  obtain ⟨a, b, rfl, rfl⟩ := hcut
  rw [Text.slice, Text.dropBytes_width_append] at h
  cases b with
  | nil => cases h
  | cons d b =>
    rw [Text.takeBytes] at h
    split at h
    · cases h
      exact ⟨a, c, b, rfl, rfl, hc⟩
    · cases h

theorem afterWord?_eq (word s : Text) :
    afterWord? word s = (Text.dropLead? word s).bind fun rest =>
      if (rest.head?.map isBlank).getD false then some (Text.trimStart rest) else none := by
  refine bind_congr (x := Text.dropLead? word s) fun rest => ?_
  cases (rest.head?.map isBlank).getD false <;> rfl

theorem prefix_of_afterWord? {word s rest : Text} (h : afterWord? word s = some rest) :
    word <+: s := by
  obtain ⟨behind, hbehind, -⟩ := Option.bind_eq_some_iff.1 h
  exact ⟨behind, (Text.dropLead?_eq_some_iff.1 hbehind).symm⟩

/-- A header begins with its first word. -/
theorem Header.head?_mem {line : Text} {header : Header}
    (h : Header.ofLine? line = some header) : ∃ c ∈ ['a', 'c', 'd'], line.head? = some c := by
  have hword {c : Char} {word : Text} (hc : c ∈ ['a', 'c', 'd']) (hp : c :: word <+: line) :
      ∃ c ∈ ['a', 'c', 'd'], line.head? = some c := by
    obtain ⟨rest, rfl⟩ := hp
    exact ⟨c, hc, rfl⟩
  unfold Header.ofLine? at h
  cases hasync : afterWord? "async".toList line with
  | some rest => exact hword (by decide) (prefix_of_afterWord? hasync)
  | none =>
    cases hdef : afterWord? "def".toList line with
    | some rest => exact hword (by decide) (prefix_of_afterWord? hdef)
    | none =>
      cases hclass : afterWord? "class".toList line with
      | some rest => exact hword (by decide) (prefix_of_afterWord? hclass)
      | none =>
        simp only [hasync, hdef, hclass, Option.getD_none] at h
        cases h

theorem Header.head?_of_ofLine? {line : Text} {header : Header}
    (h : Header.ofLine? line = some header) : ∃ c, line.head? = some c ∧ isBlank c = false := by
  have hblank : ['a', 'c', 'd'].all (!isBlank ·) = true := by decide
  obtain ⟨c, hc, hhead⟩ := Header.head?_mem h
  exact ⟨c, hhead, by simpa using List.all_eq_true.1 hblank c hc⟩

/-- Blocks, and what they declare, begin with no blank. -/
structure BlockState.Begin (source : Text) (s : BlockState) : Prop where
  blocks : ∀ b ∈ s.blocks, IsStart source b.start
  annotations : ∀ a, s.annotations = some a → IsStart source a
  nodes : ∀ n ∈ s.nodes, n.kind ≠ .doc → IsStart source n.span.start

theorem OpenBlock.close_start (b : OpenBlock) : b.close.span.start = b.start := by
  unfold OpenBlock.close
  split <;> rfl

namespace BlockState.Begin

variable {s s' : BlockState} {line : LogicalLine}

theorem initial : BlockState.initial.Begin source where
  blocks := fun _ h => by cases h
  annotations := fun _ h => by cases h
  nodes := fun _ h => by cases h

theorem closeTo (h : s.Begin source) (indent : Nat) : (s.closeTo indent).Begin source where
  blocks := fun b hb => h.blocks b ((List.drop_sublist _ _).subset hb)
  annotations := h.annotations
  nodes := fun n hn hdoc => by
    rcases List.mem_append.1 hn with hn | hn
    · obtain ⟨b, hb, rfl⟩ := List.mem_map.1 (List.mem_reverse.1 hn)
      rw [OpenBlock.close_start]
      exact h.blocks b ((List.takeWhile_sublist _).subset hb)
    · exact h.nodes n hn hdoc

theorem extend (h : s.Begin source) (line : LogicalLine) : (s.extend line).Begin source := by
  obtain ⟨blocks, annotations, nodes⟩ := s
  cases blocks with
  | nil => exact ⟨(fun _ hb => by cases hb), h.annotations, h.nodes⟩
  | cons inner outer =>
    refine ⟨fun b hb => ?_, h.annotations, fun n hn hdoc => ?_⟩
    · simp only [BlockState.extend, List.map_cons, List.mem_cons, List.mem_map] at hb
      rcases hb with rfl | ⟨b₀, hb₀, rfl⟩
      · exact h.blocks inner List.mem_cons_self
      · exact h.blocks b₀ (List.mem_cons_of_mem _ hb₀)
    · rcases List.mem_append.1 hn with hn | hn
      · obtain ⟨t, -, rfl⟩ := Option.map_eq_some_iff.1 (Option.mem_toList.1 hn)
        exact absurd rfl hdoc
      · exact h.nodes n hn hdoc

/-- **Every line keeps where blocks begin**. -/
theorem step (h : s.Begin source) (hline : line.Fits source)
    (hs : s.step source line = .ok s') : s'.Begin source := by
  have he := (h.closeTo line.indent).extend line
  simp only [BlockState.step] at hs
  generalize (s.closeTo line.indent).extend line = t at hs he
  have hstart {c : Char} (hc : (Text.slice line.start line.stop source).head? = some c)
      (hb : isBlank c = false) : IsStart source (t.annotations.getD line.start) := by
    cases ha : t.annotations with
    | none => exact isStart_of_slice hline.span.start_cut hc hb
    | some a => exact he.annotations a ha
  split at hs
  · next hat =>
    cases hs
    refine ⟨he.blocks, fun a ha => ?_, he.nodes⟩
    cases ha
    exact hstart hat (by decide)
  split at hs
  · cases hs
    exact ⟨he.blocks, (fun a ha => by cases ha), he.nodes⟩
  split at hs
  · cases hs
  · next header hheader _ colon hcolon =>
    cases hs
    refine ⟨fun b hb => ?_, (fun a ha => by cases ha), he.nodes⟩
    rcases List.mem_cons.1 hb with rfl | hb
    · obtain ⟨c, hc, hcb⟩ := Header.head?_of_ofLine? hheader
      exact hstart hc hcb
    · exact he.blocks b hb

theorem finish (h : s.Begin source) : ∀ n ∈ s.finish, n.kind ≠ .doc → IsStart source n.span.start := by
  intro n hn hdoc
  rcases List.mem_append.1 hn with hn | hn
  · exact h.nodes n (List.mem_reverse.1 hn) hdoc
  · obtain ⟨b, hb, rfl⟩ := List.mem_map.1 hn
    rw [OpenBlock.close_start]
    exact h.blocks b hb

end BlockState.Begin

/-- **What is declared in an indented text begins with no blank**. -/
theorem outline_begin {o : Outline} (h : outline source = .ok o) :
    ∀ n ∈ o.nodes, n.kind ≠ .doc → IsStart source n.span.start := by
  obtain ⟨lines, hlines, h⟩ := bind_eq_ok.1 h
  obtain ⟨nodes, hnodes, h⟩ := bind_eq_ok.1 h
  obtain ⟨s, hs, hfinish⟩ := bind_eq_ok.1 hnodes
  cases h
  cases hfinish
  obtain ⟨hfits, -⟩ := logicalLines_fit hlines
  have hbegin : s.Begin source := by
    refine foldlM_keeps (I := fun _ s => s.Begin source) .initial ?_ hs
    intro before line after s s' he hI hstep
    exact hI.step (hfits line (by simp [he])) hstep
  intro n hn
  exact hbegin.finish n (List.mem_mergeSort.1 hn)

end Scholia.Source.Indented
