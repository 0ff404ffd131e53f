import Scholia.Proofs.Source.Covered
import Scholia.Proofs.Source.Indented.Shape
/-!
# Blocks as headers and what they hold

What is declared in some lines can be told header by header: its block starts with the annotations
before it and goes on as far as lines are indented deeper. This says the same as the stack of open
blocks, and each header alone decides what it declares.
-/

namespace Scholia.Source.Indented

variable {source : Text} {lines rest : List LogicalLine} {line : LogicalLine} {s s' : BlockState}
  {b : OpenBlock}

/-! ## What a line is -/

namespace BareLine

/-- A line that annotates the next header. -/
def isNote (l : BareLine) : Bool :=
  l.text.head? = some '@'

/-- The header that a line is, if it is one. -/
def header? (l : BareLine) : Option Header :=
  if l.isNote then none else Header.ofLine? l.text

/-- A header has its colon. -/
def isSound (l : BareLine) : Bool :=
  l.header?.isNone || l.colon

theorem header?_of_note {l : BareLine} (h : l.isNote = true) : l.header? = none :=
  if_pos h

end BareLine

/-- The block that a header opens, with the end of its line. -/
def Header.block (source : Text) (line : LogicalLine) (start : Nat) (header : Header) : OpenBlock :=
  let colon := line.colon.getD line.stop
  { header, start
    signature := Text.collapse (Text.slice line.start colon source)
    indent := line.indent
    stop := line.stop
    bodyStart := colon + 1
    awaiting := line.stop ≤ colon + 1 }

/-- **What a line does**: it goes on with the blocks that are left of it, and annotates, or declares
something, or neither. -/
theorem BlockState.step_eq (s : BlockState) (line : LogicalLine) :
    (s.step source line).toOption =
      if (line.bare source).isSound then
        let t := (s.closeTo line.indent).extend line
        let start := s.annotations.getD line.start
        if (line.bare source).isNote then some { t with annotations := some start }
        else some
          { t with
            annotations := none
            blocks := ((line.bare source).header?.map (Header.block source line start)).toList ++
              t.blocks }
      else none := by
  have hannotations : ((s.closeTo line.indent).extend line).annotations = s.annotations := rfl
  unfold step
  by_cases hnote : (line.bare source).isNote = true
  · have hhead : (Text.slice line.start line.stop source).head? = some '@' := of_decide_eq_true hnote
    have hsound : (line.bare source).isSound = true := by
      rw [BareLine.isSound, BareLine.header?_of_note hnote]
      rfl
    simp only [hhead, if_true, hsound, hnote, hannotations]
    rfl
  · have hhead : ¬ (Text.slice line.start line.stop source).head? = some '@' := fun h =>
      hnote (decide_eq_true h)
    have hheader : (line.bare source).header? =
        Header.ofLine? (Text.slice line.start line.stop source) := if_neg hnote
    simp only [hhead, if_false, BareLine.isSound, hheader, hnote, Bool.false_eq_true, hannotations]
    cases Header.ofLine? (Text.slice line.start line.stop source) with
    | none => rfl
    | some header =>
      have hcolon : (line.bare source).colon = line.colon.isSome := rfl
      rw [hcolon]
      cases hc : line.colon with
      | none => rfl
      | some colon =>
        rw [if_pos (show ((some header).isNone || (some colon).isSome) = true from rfl)]
        simp only [Option.map_some, Header.block, hc, Option.getD_some]
        rfl

/-! ## What blocks hold -/

/-- The end of a block with its last line at `stop`, when these lines follow. -/
def reach (column stop : Nat) (lines : List LogicalLine) : Nat :=
  ((lines.takeWhile (column < ·.indent)).getLast?.map LogicalLine.stop).getD stop

theorem reach_deeper {column stop : Nat} (h : column < line.indent) :
    reach column stop (line :: rest) = reach column line.stop rest := by
  rw [reach, reach, List.takeWhile_cons_of_pos (by simpa using h), List.getLast?_cons]
  cases (rest.takeWhile (column < ·.indent)).getLast? <;> rfl

theorem reach_left {column stop : Nat} (h : line.indent ≤ column) :
    reach column stop (line :: rest) = stop := by
  rw [reach, List.takeWhile_cons_of_neg (by simpa using h)]
  rfl

/-- A block with the lines that it goes on to hold. -/
def OpenBlock.grown (lines : List LogicalLine) (b : OpenBlock) : OpenBlock :=
  { b with stop := reach b.indent b.stop lines }

/-- What is declared in some lines, before which annotations start at `note`. -/
def headed (source : Text) : Option Nat → List LogicalLine → List Node
  | _, [] => []
  | note, line :: rest =>
    let start := note.getD line.start
    if (line.bare source).isNote then headed source (some start) rest
    else
      ((line.bare source).header?.map fun header =>
        ((header.block source line start).grown rest).close).toList ++ headed source none rest

theorem OpenBlock.declares_close (b : OpenBlock) : b.close.declares = true := by
  unfold close
  split <;> rfl

theorem declares_headed (note : Option Nat) : ∀ n ∈ headed source note lines, n.declares = true := by
  induction lines generalizing note with
  | nil => exact fun _ h => by cases h
  | cons line rest ih =>
    intro n hn
    rw [headed] at hn
    split at hn
    · exact ih _ n hn
    · rcases List.mem_append.1 hn with hn | hn
      · obtain ⟨header, -, rfl⟩ := Option.map_eq_some_iff.1 (Option.mem_toList.1 hn)
        exact OpenBlock.declares_close _
      · exact ih _ n hn

namespace BlockState

/-- What has been declared when these lines follow, save what they declare. -/
def found (lines : List LogicalLine) (s : BlockState) : List Node :=
  s.nodes.filter Node.declares ++ s.blocks.map fun b => (b.grown lines).close

/-- Inner blocks are indented deeper than outer ones. -/
def Nested (s : BlockState) : Prop :=
  s.blocks.Pairwise fun inner outer => outer.indent < inner.indent

theorem closeTo_blocks (s : BlockState) (indent : Nat) :
    (s.closeTo indent).blocks = s.blocks.dropWhile (·.indent ≥ indent) := by
  show s.blocks.drop (s.blocks.takeWhile _).length = _
  conv => lhs; arg 2; rw [← List.takeWhile_append_dropWhile (p := (·.indent ≥ indent)) (l := s.blocks)]
  exact List.drop_left

/-- What remains open is left of a line. -/
theorem Nested.left (h : s.Nested) (indent : Nat) :
    (∀ b ∈ (s.closeTo indent).blocks, b.indent < indent) ∧ (s.closeTo indent).Nested := by
  rw [Nested, closeTo_blocks]
  have hrest : (s.blocks.dropWhile (·.indent ≥ indent)).Pairwise fun inner outer =>
      outer.indent < inner.indent := h.sublist (List.dropWhile_sublist _)
  refine ⟨?_, hrest⟩
  have hhead := List.head?_dropWhile_not (fun b : OpenBlock => decide (b.indent ≥ indent)) s.blocks
  cases hd : s.blocks.dropWhile (·.indent ≥ indent) with
  | nil => simp
  | cons b outer =>
    rw [hd] at hhead hrest
    have hb : b.indent < indent := by simpa using hhead
    refine List.forall_mem_cons.2 ⟨hb, fun o ho => ?_⟩
    exact Nat.lt_trans ((List.pairwise_cons.1 hrest).1 o ho) hb

/-- Closing blocks changes nothing of what is found. -/
theorem found_closeTo (s : BlockState) (line : LogicalLine) (rest : List LogicalLine) :
    ((s.closeTo line.indent).found (line :: rest)).Perm (s.found (line :: rest)) := by
  have hended : ∀ b ∈ s.blocks.takeWhile (·.indent ≥ line.indent),
      (b.grown (line :: rest)).close = b.close := by
    intro b hb
    have hle : line.indent ≤ b.indent := by
      simpa using List.all_eq_true.1 List.all_takeWhile b hb
    rw [OpenBlock.grown, reach_left hle]
  have hall : ((s.blocks.takeWhile (·.indent ≥ line.indent)).map OpenBlock.close).reverse.filter
      Node.declares =
      ((s.blocks.takeWhile (·.indent ≥ line.indent)).map OpenBlock.close).reverse := by
    refine List.filter_eq_self.2 fun n hn => ?_
    obtain ⟨b, -, rfl⟩ := List.mem_map.1 (List.mem_reverse.1 hn)
    exact b.declares_close
  have hblocks : s.blocks.map (fun b => (b.grown (line :: rest)).close) =
      (s.blocks.takeWhile (·.indent ≥ line.indent)).map OpenBlock.close ++
        (s.blocks.dropWhile (·.indent ≥ line.indent)).map fun b => (b.grown (line :: rest)).close := by
    conv => lhs; rw [← List.takeWhile_append_dropWhile (p := (·.indent ≥ line.indent)) (l := s.blocks)]
    rw [List.map_append]
    exact congrArg (· ++ _) (List.map_congr_left hended)
  rw [found, closeTo_blocks, found, hblocks]
  show (List.filter Node.declares (_ ++ s.nodes) ++ _).Perm _
  rw [List.filter_append, hall, ← List.append_assoc]
  exact ((List.reverse_perm _).append_right _ |>.trans List.perm_append_comm).append_right _

/-- A line goes on with the blocks that are left of it. -/
theorem found_extend (line : LogicalLine) (rest : List LogicalLine)
    (h : ∀ b ∈ s.blocks, b.indent < line.indent) :
    (s.extend line).found rest = s.found (line :: rest) := by
  have hgrown : ∀ b ∈ s.blocks, ∀ awaiting, (OpenBlock.grown rest
      { b with awaiting, stop := line.stop }).close = (b.grown (line :: rest)).close := by
    intro b hb awaiting
    rw [OpenBlock.grown, OpenBlock.grown, reach_deeper (h b hb)]
    rfl
  obtain ⟨blocks, annotations, nodes⟩ := s
  rw [found, found]
  refine congrArg₂ _ ?_ ?_
  · show List.filter _ (Option.toList (Option.map Node.doc _) ++ nodes) = _
    rw [List.filter_append, List.filter_eq_nil_iff.2, List.nil_append]
    intro n hn
    obtain ⟨t, -, rfl⟩ := Option.map_eq_some_iff.1 (Option.mem_toList.1 hn)
    simp [Node.declares, Node.doc]
  · cases blocks with
    | nil => rfl
    | cons inner outer =>
      have hblocks : (extend ⟨inner :: outer, annotations, nodes⟩ line).blocks =
          { inner with awaiting := false, stop := line.stop } ::
            outer.map fun b => { b with stop := line.stop } := rfl
      rw [hblocks, List.map_cons, List.map_map, List.map_cons]
      refine congrArg₂ _ (hgrown inner List.mem_cons_self false) ?_
      exact List.map_congr_left fun b hb => hgrown b (List.mem_cons_of_mem _ hb) b.awaiting

/-- What remains open behind a line is left of it. -/
theorem Nested.left_extend (h : s.Nested) (line : LogicalLine) :
    (∀ b ∈ ((s.closeTo line.indent).extend line).blocks, b.indent < line.indent) ∧
      ((s.closeTo line.indent).extend line).Nested := by
  obtain ⟨hleft, hnested⟩ := h.left line.indent
  have hindents : ∀ t : BlockState, (t.extend line).blocks.map OpenBlock.indent =
      t.blocks.map OpenBlock.indent := by
    rintro ⟨blocks, annotations, nodes⟩
    cases blocks with
    | nil => rfl
    | cons inner outer =>
      show inner.indent :: (outer.map _).map OpenBlock.indent = _
      rw [List.map_map]
      rfl
  have hpairs : ((s.closeTo line.indent).blocks.map OpenBlock.indent).Pairwise
      fun inner outer => outer < inner := List.pairwise_map.2 hnested
  rw [← hindents] at hpairs
  refine ⟨fun b hb => ?_, List.pairwise_map.1 hpairs⟩
  have hmem : b.indent ∈ ((s.closeTo line.indent).extend line).blocks.map OpenBlock.indent :=
    List.mem_map.2 ⟨b, hb, rfl⟩
  rw [hindents] at hmem
  obtain ⟨b', hb', he⟩ := List.mem_map.1 hmem
  exact he ▸ hleft b' hb'

/-- **The stack of open blocks finds what the headers declare**, each with the lines indented
deeper. -/
theorem foldlM_found (h : s.Nested) (hs : lines.foldlM (step source) s = .ok s') :
    (s'.finish.filter Node.declares).Perm (s.found lines ++ headed source s.annotations lines) := by
  induction lines generalizing s with
  | nil =>
    cases hs
    have hall : (s'.blocks.map OpenBlock.close).filter Node.declares =
        s'.blocks.map OpenBlock.close := by
      refine List.filter_eq_self.2 fun n hn => ?_
      obtain ⟨b, -, rfl⟩ := List.mem_map.1 hn
      exact b.declares_close
    rw [headed, List.append_nil, finish, found, List.filter_append, hall, List.filter_reverse]
    exact (List.reverse_perm _).append_right _
  | cons line rest ih =>
    rw [List.foldlM_cons] at hs
    obtain ⟨t, hstep, hrest⟩ := bind_eq_ok.1 hs
    obtain ⟨hleft, hnested⟩ := h.left_extend line
    have hfound := (s.found_closeTo line rest)
    rw [← found_extend line rest (h.left line.indent).1] at hfound
    have ht : (s.step source line).toOption = some t := by rw [hstep]; rfl
    rw [step_eq] at ht
    split at ht
    · simp only at ht
      rw [headed]
      split at ht
      · next hnote =>
        cases ht
        rw [if_pos hnote]
        refine (ih ?_ hrest).trans (hfound.append_right _)
        exact hnested
      · next hnote =>
        cases ht
        rw [if_neg hnote]
        cases hheader : (line.bare source).header? with
        | none =>
          rw [hheader] at hrest
          refine (ih ?_ hrest).trans (hfound.append_right _)
          exact hnested
        | some header =>
          rw [hheader] at hrest
          refine (ih ?_ hrest).trans ?_
          · exact List.pairwise_cons.2 ⟨hleft, hnested⟩
          · refine List.Perm.trans ?_ (hfound.append_right _)
            exact (List.perm_middle.append_right _).trans List.perm_middle.symm
    · cases ht

end BlockState

/-- **What is declared in an indented text is what its headers declare**. -/
theorem outline_headed {o : Outline} (h : outline source = .ok o)
    (hlines : logicalLines source = .ok lines) :
    (o.nodes.filter Node.declares).Perm (headed source none lines) := by
  obtain ⟨lines', hlines', h⟩ := bind_eq_ok.1 h
  cases hlines.symm.trans hlines'
  obtain ⟨nodes, hnodes, h⟩ := bind_eq_ok.1 h
  cases h
  obtain ⟨s, hs, hfinish⟩ := bind_eq_ok.1 hnodes
  cases hfinish
  have hnested : BlockState.initial.Nested := .nil
  exact ((List.mergeSort_perm _ _).filter _).trans (BlockState.foldlM_found hnested hs)

theorem BlockState.exists_step_iff :
    (∃ t, s.step source line = .ok t) ↔ (line.bare source).isSound = true := by
  have hstep : (s.step source line).toOption = _ := s.step_eq line
  constructor
  · rintro ⟨t, ht⟩
    by_contra hsound
    rw [ht, if_neg hsound] at hstep
    cases hstep
  · intro hsound
    rw [if_pos hsound] at hstep
    cases ht : s.step source line with
    | ok t => exact ⟨t, rfl⟩
    | error fault =>
      rw [ht] at hstep
      simp only at hstep
      split at hstep <;> cases hstep

/-- **A text with logical lines has an outline** if each header has its colon. -/
theorem exists_outline_iff (hlines : logicalLines source = .ok lines) :
    (∃ o, outline source = .ok o) ↔ ∀ l ∈ lines, (l.bare source).isSound = true := by
  have hrun : ∀ (lines : List LogicalLine) (s : BlockState),
      (∃ t, lines.foldlM (BlockState.step source) s = .ok t) ↔
        ∀ l ∈ lines, (l.bare source).isSound = true := by
    intro lines
    induction lines with
    | nil => exact fun s => ⟨fun _ => by simp, fun _ => ⟨s, rfl⟩⟩
    | cons line rest ih =>
      intro s
      rw [List.foldlM_cons, List.forall_mem_cons]
      constructor
      · rintro ⟨t, ht⟩
        obtain ⟨u, hu, ht⟩ := bind_eq_ok.1 ht
        exact ⟨BlockState.exists_step_iff.1 ⟨u, hu⟩, (ih u).1 ⟨t, ht⟩⟩
      · rintro ⟨hline, hrest⟩
        obtain ⟨u, hu⟩ := BlockState.exists_step_iff.2 hline
        obtain ⟨t, ht⟩ := (ih u).2 hrest
        exact ⟨t, bind_eq_ok.2 ⟨u, hu, ht⟩⟩
  rw [← hrun lines .initial]
  constructor
  · rintro ⟨o, h⟩
    obtain ⟨lines', hlines', h⟩ := bind_eq_ok.1 h
    cases hlines.symm.trans hlines'
    obtain ⟨nodes, hnodes, -⟩ := bind_eq_ok.1 h
    obtain ⟨t, ht, -⟩ := bind_eq_ok.1 hnodes
    exact ⟨t, ht⟩
  · rintro ⟨t, ht⟩
    exact ⟨_, bind_eq_ok.2 ⟨lines, hlines, bind_eq_ok.2 ⟨_, bind_eq_ok.2 ⟨t, ht, rfl⟩, rfl⟩⟩⟩

end Scholia.Source.Indented
