import Scholia.Proofs.Source.Indented.Blocks
import Scholia.Proofs.Source.Indented.LineLoss
/-!
# The loss of a blank and blocks

Blocks are read from logical lines, and from the text of each of them. A line that has lost a blank
declares the same, and its string says the same, so that the outline moves with the text.
-/

namespace Scholia.Source.Indented

open Layout (Loss IsStart IsStop IsEnd)
open Text (isBlank isLayout isIndent Worn)

variable {e : Loss} {s t : Text}

/-! ## Worn headers -/

theorem afterWord?_worn (word : Text) (hword : ∀ c ∈ word, isLayout c = false) (h : Worn s t) :
    (afterWord? word s = none ∧ afterWord? word t = none) ∨
      ∃ a b, afterWord? word s = some a ∧ afterWord? word t = some b ∧ Worn a b := by
  rw [afterWord?_eq, afterWord?_eq]
  rcases h.dropLead? hword with ⟨hs, ht⟩ | ⟨a, b, hs, ht, hab⟩
  · rw [hs, ht]
    exact .inl ⟨rfl, rfl⟩
  · rw [hs, ht, Option.bind_some, Option.bind_some]
    have hhead : (b.head?.map isBlank).getD false = (a.head?.map isBlank).getD false := by
      rcases hab.head? with he | ⟨c, d, hc, hd, hcb, hdb⟩
      · rw [he]
      · rw [hc, hd]
        exact hdb.trans hcb.symm
    rw [hhead]
    cases (a.head?.map isBlank).getD false with
    | false => exact .inl ⟨rfl, rfl⟩
    | true => exact .inr ⟨_, _, rfl, rfl, hab.trimStart⟩

theorem leadingName?_worn (h : Worn s t) : leadingName? s = leadingName? t := by
  have hname : (Text.spanWord s).1 = (Text.spanWord t).1 :=
    h.takeWhile fun c hc => Text.isWordChar_of_isLayout hc
  unfold leadingName?
  rw [hname]

theorem namedAfter_worn (word : Text) (hword : ∀ c ∈ word, isLayout c = false) (h : Worn s t) :
    (afterWord? word s >>= leadingName?) = (afterWord? word t >>= leadingName?) := by
  rcases afterWord?_worn word hword h with ⟨hs, ht⟩ | ⟨a, b, hs, ht, hab⟩
  · rw [hs, ht]
  · rw [hs, ht]
    exact leadingName?_worn hab

/-- **A worn line declares the same**. -/
theorem ofLine?_worn (h : Worn s t) : Header.ofLine? s = Header.ofLine? t := by
  have hasync : Worn ((afterWord? "async".toList s).getD s)
      ((afterWord? "async".toList t).getD t) := by
    rcases afterWord?_worn "async".toList (Text.not_isLayout_of_all rfl) h with
      ⟨hs, ht⟩ | ⟨a, b, hs, ht, hab⟩
    · rw [hs, ht]
      exact h
    · rw [hs, ht]
      exact hab
  have hdef := namedAfter_worn "def".toList (Text.not_isLayout_of_all rfl) hasync
  have hclass := namedAfter_worn "class".toList (Text.not_isLayout_of_all rfl) h
  simp only [Header.ofLine?, hdef, hclass]

/-! ## Moved blocks -/

def OpenBlock.moved (f : Nat → Nat) (b : OpenBlock) : OpenBlock :=
  { b with start := f b.start, stop := f b.stop, bodyStart := f b.bodyStart }

def BlockState.moved (f : Nat → Nat) (s : BlockState) : BlockState :=
  { blocks := s.blocks.map (OpenBlock.moved f)
    annotations := s.annotations.map f
    nodes := s.nodes.map (Node.moved f) }

theorem OpenBlock.close_moved (f : Nat → Nat) (b : OpenBlock) :
    (b.moved f).close = b.close.moved f := by
  unfold OpenBlock.close
  rw [show (b.moved f).header = b.header from rfl]
  split <;> rfl

namespace BlockState

theorem closeTo_moved (f : Nat → Nat) (s : BlockState) (indent : Nat) :
    (s.moved f).closeTo indent = (s.closeTo indent).moved f := by
  have hended : (s.moved f).blocks.takeWhile (·.indent ≥ indent) =
      (s.blocks.takeWhile (·.indent ≥ indent)).map (OpenBlock.moved f) := by
    rw [moved, List.takeWhile_map]
    rfl
  have hclose : OpenBlock.close ∘ OpenBlock.moved f = Node.moved f ∘ OpenBlock.close :=
    funext (OpenBlock.close_moved f)
  unfold closeTo
  simp only [hended, List.length_map, List.map_map, hclose]
  simp only [moved, List.map_drop, List.map_append, List.map_reverse, List.map_map]

theorem extend_moved (f : Nat → Nat) (s : BlockState) (line : LogicalLine) :
    (s.moved f).extend (line.moved f) = (s.extend line).moved f := by
  obtain ⟨blocks, annotations, nodes⟩ := s
  cases blocks with
  | nil => rfl
  | cons inner outer =>
    simp only [extend, moved, List.map_cons, List.map_map, List.map_append]
    congr 1
    rw [show (inner.moved f).awaiting = inner.awaiting from rfl,
      show (inner.moved f).header = inner.header from rfl]
    split
    · obtain ⟨start, stop, indent, colon, loneString⟩ := line
      cases loneString <;> rfl
    · rfl

end BlockState

/-! ## What a block remembers -/

structure OpenBlock.Marked (e : Loss) (b : OpenBlock) : Prop where
  start : IsStart e.whole b.start
  body : IsEnd e.whole b.bodyStart

structure BlockState.Marked (e : Loss) (s : BlockState) : Prop where
  blocks : ∀ b ∈ s.blocks, b.Marked e
  annotations : ∀ a, s.annotations = some a → IsStart e.whole a
  nodes : ∀ n ∈ s.nodes, n.Marked e .python

/-- What a block declares starts where it does. -/
theorem OpenBlock.Marked.close {b : OpenBlock} (h : b.Marked e) : b.close.Marked e .python := by
  unfold OpenBlock.close
  split
  · refine ⟨h.start, (fun hdoc => by cases hdoc), fun _ name bodyStart hk => ?_⟩
    cases hk
    exact h.body.isStop
  · exact ⟨h.start, (fun hdoc => by cases hdoc), fun _ _ _ hk => by cases hk⟩

namespace LogicalLine.Marked

variable {line : LogicalLine}

theorem stop_ne (h : line.Marked e) : line.stop ≠ Text.width e.front + 1 := by
  rcases h.stop with he | he
  · rw [he]
    exact Loss.ne_succ_of_isStart h.start
  · exact Loss.ne_of_isEnd he

/-- The text of a line is worn. -/
theorem worn (h : line.Marked e) : Worn (Text.slice line.start line.stop e.whole)
    (Text.slice (e.place line.start) (e.place line.stop) e.left) := by
  rcases h.stop with he | he
  · rw [he]
    exact Loss.worn_slice (.inl h.start) h.start (Nat.le_refl _)
  · exact Loss.worn_slice_end h.start he h.ordered

/-- The string that is a whole line says the same. -/
theorem doc (h : line.Marked e) {t : Span} (ht : line.loneString = some t) :
    (Node.doc t).Marked e .python := by
  obtain ⟨rfl, hend⟩ := h.string t ht
  refine ⟨h.start, fun _ => ⟨hend.isStop, ?_, ?_⟩, fun _ _ _ hk => by cases hk⟩
  · exact Loss.isEmpty_slice h.start hend.isCut h.ordered
  · exact Comment.read_worn (by decide) h.worn

end LogicalLine.Marked

/-- Whether a line that starts with no blank is an annotation. -/
theorem head?_worn {c : Char} (hc : isBlank c = false) (h : Worn s t) :
    t.head? = some c ↔ s.head? = some c := by
  rcases h.head? with he | ⟨a, b, ha, hb, hab, hbb⟩
  · rw [he]
  · rw [ha, hb]
    constructor
    · rintro ⟨⟩
      rw [hc] at hbb
      cases hbb
    · rintro ⟨⟩
      rw [hc] at hab
      cases hab

namespace BlockState.Marked

variable {state state' : BlockState} {line : LogicalLine}

theorem initial : BlockState.initial.Marked e where
  blocks := fun _ h => by cases h
  annotations := fun _ h => by cases h
  nodes := fun _ h => by cases h

theorem closeTo (h : state.Marked e) (indent : Nat) : (state.closeTo indent).Marked e where
  blocks := fun b hb => h.blocks b ((List.drop_sublist _ _).subset hb)
  annotations := h.annotations
  nodes := fun n hn => by
    rcases List.mem_append.1 hn with hn | hn
    · obtain ⟨b, hb, rfl⟩ := List.mem_map.1 (List.mem_reverse.1 hn)
      exact (h.blocks b ((List.takeWhile_sublist _).subset hb)).close
    · exact h.nodes n hn

theorem extend (h : state.Marked e) (hline : line.Marked e) : (state.extend line).Marked e := by
  obtain ⟨blocks, annotations, nodes⟩ := state
  cases blocks with
  | nil => exact ⟨(fun _ hb => by cases hb), h.annotations, h.nodes⟩
  | cons inner outer =>
    refine ⟨fun b hb => ?_, h.annotations, fun n hn => ?_⟩
    · simp only [BlockState.extend, List.map_cons, List.mem_cons, List.mem_map] at hb
      rcases hb with rfl | ⟨b₀, hb₀, rfl⟩
      · have hinner := h.blocks inner List.mem_cons_self
        exact ⟨hinner.start, hinner.body⟩
      · have houter := h.blocks b₀ (List.mem_cons_of_mem _ hb₀)
        exact ⟨houter.start, houter.body⟩
    · rcases List.mem_append.1 hn with hn | hn
      · obtain ⟨t, ht, rfl⟩ : ∃ t, line.loneString = some t ∧ n = .doc t := by
          simp only at hn
          split at hn
          · simp only [Option.mem_toList, Option.map_eq_some_iff] at hn
            obtain ⟨t, ht, rfl⟩ := hn
            exact ⟨t, ht, rfl⟩
          · cases hn
        exact hline.doc ht
      · exact h.nodes n hn

/-- **A line moves the blocks with it**. -/
theorem step (h : state.Marked e) (hline : line.Marked e)
    (hstep : state.step e.whole line = .ok state') :
    (state.moved e.place).step e.left (line.moved e.place) = .ok (state'.moved e.place) ∧
      state'.Marked e := by
  have hmarked := (h.closeTo line.indent).extend hline
  have hmoved : ((state.moved e.place).closeTo (line.moved e.place).indent).extend
      (line.moved e.place) = ((state.closeTo line.indent).extend line).moved e.place := by
    rw [show (line.moved e.place).indent = line.indent from rfl, BlockState.closeTo_moved,
      BlockState.extend_moved]
  have hstarts : (line.moved e.place).start = e.place line.start ∧
      (line.moved e.place).stop = e.place line.stop := ⟨rfl, rfl⟩
  have hannotation := head?_worn (c := '@') (by decide) hline.worn
  unfold BlockState.step at hstep ⊢
  simp only [hmoved, hstarts, hannotation, ← ofLine?_worn hline.worn] at hstep ⊢
  generalize (state.closeTo line.indent).extend line = mid at hstep hmarked ⊢
  have hstart : IsStart e.whole (mid.annotations.getD line.start) := by
    cases ha : mid.annotations with
    | none => exact hline.start
    | some a => exact hmarked.annotations a ha
  have hplace : (mid.moved e.place).annotations.getD (e.place line.start) =
      e.place (mid.annotations.getD line.start) := by
    cases ha : mid.annotations <;> simp [BlockState.moved, ha]
  simp only [hplace]
  split at hstep
  · next hat =>
    rw [if_pos hat]
    cases hstep
    refine ⟨rfl, hmarked.blocks, fun a ha => ?_, hmarked.nodes⟩
    cases ha
    exact hstart
  · next hat =>
    rw [if_neg hat]
    cases hheader : Header.ofLine? (Text.slice line.start line.stop e.whole) with
    | none =>
      simp only [hheader] at hstep ⊢
      cases hstep
      exact ⟨rfl, hmarked.blocks, (fun _ ha => by cases ha), hmarked.nodes⟩
    | some header =>
      simp only [hheader] at hstep ⊢
      cases hcolon : line.colon with
      | none =>
        simp only [hcolon] at hstep
        cases hstep
      | some colon =>
        obtain ⟨hle, hcolonStart, hcolonEnd⟩ := hline.colon colon hcolon
        have hcolon' : (line.moved e.place).colon = some (e.place colon) := by
          simp [LogicalLine.moved, hcolon]
        have hnext : e.place colon + 1 = e.place (colon + 1) :=
          (Loss.place_add_one (Loss.ne_of_isStart hcolonStart)).symm
        have hsignature : Text.collapse (Text.slice (e.place line.start) (e.place colon) e.left) =
            Text.collapse (Text.slice line.start colon e.whole) :=
          (Loss.worn_slice (.inl hline.start) hcolonStart hle).collapse.symm
        have hawaiting : decide (e.place line.stop ≤ e.place (colon + 1)) =
            decide (line.stop ≤ colon + 1) :=
          decide_eq_decide.2 (Loss.place_le_iff (.inl hline.stop_ne))
        simp only [hcolon, hcolon', hnext, hsignature, hawaiting] at hstep ⊢
        cases hstep
        refine ⟨rfl, fun b hb => ?_, (fun _ ha => by cases ha), hmarked.nodes⟩
        rcases List.mem_cons.1 hb with rfl | hb
        · exact ⟨hstart, hcolonEnd⟩
        · exact hmarked.blocks b hb

theorem foldlM (h : state.Marked e) {lines : List LogicalLine}
    (hlines : ∀ line ∈ lines, line.Marked e)
    (hrun : lines.foldlM (BlockState.step e.whole) state = .ok state') :
    (lines.map (LogicalLine.moved e.place)).foldlM (BlockState.step e.left)
        (state.moved e.place) = .ok (state'.moved e.place) ∧
      state'.Marked e := by
  induction lines generalizing state with
  | nil =>
    cases hrun
    exact ⟨rfl, h⟩
  | cons line lines ih =>
    rw [List.foldlM_cons] at hrun
    obtain ⟨mid, hstep, hrest⟩ := bind_eq_ok.1 hrun
    obtain ⟨hleft, hmarked⟩ := h.step (hlines line List.mem_cons_self) hstep
    obtain ⟨hleft', hmarked'⟩ := ih hmarked (fun l hl => hlines l (List.mem_cons_of_mem _ hl)) hrest
    refine ⟨?_, hmarked'⟩
    rw [List.map_cons, List.foldlM_cons]
    exact bind_eq_ok.2 ⟨_, hleft, hleft'⟩

theorem finish (h : state.Marked e) :
    (state.moved e.place).finish = state.finish.map (Node.moved e.place) ∧
      ∀ n ∈ state.finish, n.Marked e .python := by
  have hclose : OpenBlock.close ∘ OpenBlock.moved e.place = Node.moved e.place ∘ OpenBlock.close :=
    funext (OpenBlock.close_moved e.place)
  refine ⟨?_, fun n hn => ?_⟩
  · simp only [BlockState.finish, BlockState.moved, List.map_append, List.map_reverse, List.map_map,
      hclose]
  · rcases List.mem_append.1 hn with hn | hn
    · exact h.nodes n (List.mem_reverse.1 hn)
    · obtain ⟨b, hb, rfl⟩ := List.mem_map.1 hn
      exact (h.blocks b hb).close

end BlockState.Marked

/-- **The outline moves with the text**. -/
theorem outline_left (hplain : ∀ c ∈ e.whole, isBlank c = true → isLayout c = true)
    (hbackslash : isIndent e.blank = true → e.front.getLast? ≠ some '\\') {o : Outline}
    (h : outline e.whole = .ok o) :
    ∃ nodes, o = .ofNodes e.whole nodes ∧
      outline e.left = .ok (.ofNodes e.left (nodes.map (Node.moved e.place))) ∧
      ∀ n ∈ nodes, n.Marked e .python := by
  obtain ⟨lines, hlines, h⟩ := bind_eq_ok.1 h
  obtain ⟨nodes, hnodes, h⟩ := bind_eq_ok.1 h
  obtain ⟨state, hstate, hfinish⟩ := bind_eq_ok.1 hnodes
  cases h
  cases hfinish
  obtain ⟨hleft, hmarked⟩ := logicalLines_left hplain hbackslash hlines
  obtain ⟨hrun, hstate⟩ := BlockState.Marked.initial.foldlM hmarked hstate
  obtain ⟨hfinish, hnodes⟩ := hstate.finish
  refine ⟨_, rfl, ?_, hnodes⟩
  refine bind_eq_ok.2 ⟨_, hleft, bind_eq_ok.2 ⟨_, ?_, rfl⟩⟩
  exact bind_eq_ok.2 ⟨_, hrun, congrArg Except.ok hfinish⟩

end Scholia.Source.Indented
