import Scholia.Proofs.Source.Indented.Literals
import Scholia.Proofs.Source.Indented.Places
/-!
# Documentation, place by place

A routine is documented if its header ends with the colon and the first line of its block is a
literal. The stack of open blocks finds the same: at most one block awaits its first line, and it
does so for one line only. So **the comments of an outline are those of its places**, each at a line
of its own that declares nothing. With blocks that do not cross, the outline is well nested.
-/

namespace Scholia.Source.Indented

variable {source : Text} {lines before rest : List LogicalLine} {line : LogicalLine}
  {s t s' : BlockState}

/-- Whether nothing but a comment follows the colon of a header on its line. -/
def LogicalLine.endsHeader (line : LogicalLine) : Bool :=
  line.colon.any fun colon => line.stop ≤ colon + 1

/-- The literal with which a block at this column begins when these lines follow. -/
def firstLiteral (column : Nat) : List LogicalLine → Option Span
  | [] => none
  | line :: _ => if column < line.indent then line.loneString else none

/-- The documentation of what a place declares. -/
def LinePlace.comment? (source : Text) (p : LinePlace) : Option Span :=
  if (p.line.bare source).isRoutine && p.line.endsHeader then firstLiteral p.line.indent p.after
  else none

/-! ## What the stack of open blocks finds -/

namespace BlockState

/-- The column of the innermost block, if that is a routine that awaits its first line. -/
def awaits (blocks : List OpenBlock) : Option Nat :=
  match blocks with
  | [] => none
  | inner :: _ => if inner.awaiting && inner.header.isRoutine then some inner.indent else none

theorem awaits_eq_none {blocks : List OpenBlock} (h : ∀ b ∈ blocks, b.awaiting = false) :
    awaits blocks = none := by
  cases blocks with
  | nil => rfl
  | cons inner outer => simp [awaits, h inner List.mem_cons_self]

/-- Only the innermost block may await its first line. -/
def Settled (s : BlockState) : Prop :=
  ∀ b ∈ s.blocks.tail, b.awaiting = false

/-- The comments found so far, the last one first. -/
def comments (s : BlockState) : List Node :=
  s.nodes.filter fun n => !n.declares

theorem not_declares_close {blocks : List OpenBlock} :
    (blocks.map OpenBlock.close).filter (fun n => !n.declares) = [] := by
  refine List.filter_eq_nil_iff.2 fun n hn => ?_
  obtain ⟨b, -, rfl⟩ := List.mem_map.1 hn
  simp [b.declares_close]

/-- The literal that a line is for the innermost block. -/
def literal (s : BlockState) (line : LogicalLine) : Option Span :=
  match s.blocks with
  | [] => none
  | inner :: _ => if inner.awaiting && inner.header.isRoutine then line.loneString else none

/-- Blocks that a line ends await it no longer. -/
theorem Settled.literal_eq (h : s.Settled) (line : LogicalLine) (rest : List LogicalLine) :
    (s.closeTo line.indent).literal line =
      (awaits s.blocks).bind fun column => firstLiteral column (line :: rest) := by
  rw [literal, closeTo_blocks]
  cases hs : s.blocks with
  | nil => rfl
  | cons inner outer =>
    have houter : ∀ b ∈ outer, b.awaiting = false := fun b hb => h b (by rw [hs]; exact hb)
    rw [List.dropWhile_cons]
    by_cases hle : inner.indent ≥ line.indent
    · -- the innermost block ends, and those behind it do not await their first line
      have hnone : ((if inner.awaiting && inner.header.isRoutine then some inner.indent
          else none).bind fun column => firstLiteral column (line :: rest)) = none := by
        split
        · exact if_neg (Nat.not_lt.2 hle)
        · rfl
      rw [if_pos (decide_eq_true hle)]
      refine Eq.trans ?_ hnone.symm
      cases hd : outer.dropWhile fun b => decide (b.indent ≥ line.indent) with
      | nil => rfl
      | cons b more =>
        have hb : b ∈ outer := (List.dropWhile_sublist _).subset (hd ▸ List.mem_cons_self)
        simp [houter b hb]
    · have hlt : inner.indent < line.indent := Nat.not_le.1 hle
      rw [if_neg (by simpa using hlt)]
      cases hw : inner.awaiting && inner.header.isRoutine with
      | true => simp [awaits, firstLiteral, hw, hlt]
      | false => simp [awaits, hw]

/-- Behind a line no block awaits its first one but the one that the line opens. -/
theorem Settled.left (h : s.Settled) (line : LogicalLine) :
    ∀ b ∈ ((s.closeTo line.indent).extend line).blocks, b.awaiting = false := by
  have hsub : ∀ b ∈ (s.closeTo line.indent).blocks.tail, b.awaiting = false := by
    rw [closeTo_blocks]
    intro b hb
    refine h b ?_
    cases hs : s.blocks with
    | nil =>
      rw [hs] at hb
      cases hb
    | cons inner outer =>
      rw [hs, List.dropWhile_cons] at hb
      split at hb
      · exact (List.dropWhile_sublist _).subset (List.mem_of_mem_tail hb)
      · exact hb
  intro b hb
  unfold extend at hb
  cases hs : (s.closeTo line.indent).blocks with
  | nil =>
    rw [hs] at hb
    cases hb
  | cons inner outer =>
    rw [hs] at hb hsub
    obtain ⟨b', hb', rfl⟩ := List.mem_map.1 hb
    rcases List.mem_cons.1 hb' with rfl | hb'
    · rfl
    · exact hsub b' hb'

/-- What a line adds to the comments. -/
theorem comments_extend (s : BlockState) (line : LogicalLine) :
    ((s.closeTo line.indent).extend line).comments =
      (((s.closeTo line.indent).literal line).map Node.doc).toList ++ s.comments := by
  have hnodes : ((s.closeTo line.indent).extend line).nodes =
      (((s.closeTo line.indent).literal line).map Node.doc).toList ++
        (((s.blocks.takeWhile (·.indent ≥ line.indent)).map OpenBlock.close).reverse ++ s.nodes) := by
    unfold extend literal
    cases (s.closeTo line.indent).blocks <;> rfl
  have hdocs : ∀ t : Option Span, (t.map Node.doc).toList.filter (fun n => !n.declares) =
      (t.map Node.doc).toList := by
    intro t
    cases t <;> rfl
  rw [comments, hnodes, List.filter_append, List.filter_append, List.filter_reverse,
    not_declares_close, hdocs]
  rfl

/-- **What one line makes of the comments, and of the block that awaits its first line**. -/
theorem Settled.step (h : s.Settled) (hstep : s.step source line = .ok t)
    (before rest : List LogicalLine) :
    t.Settled ∧ t.comments = (((awaits s.blocks).bind fun column =>
        firstLiteral column (line :: rest)).map Node.doc).toList ++ s.comments ∧
      ((awaits t.blocks).bind fun column => firstLiteral column rest) =
        LinePlace.comment? source ⟨before, line, rest⟩ := by
  have hleft := h.left line
  have hcomments := comments_extend s line
  rw [h.literal_eq line rest] at hcomments
  have ht : (s.step source line).toOption = some t := by rw [hstep]; rfl
  rw [step_eq] at ht
  split at ht
  · next hsound =>
    simp only at ht
    generalize (s.closeTo line.indent).extend line = u at hleft hcomments ht
    have hsettled : ∀ b ∈ u.blocks.tail, b.awaiting = false := fun b hb =>
      hleft b (List.mem_of_mem_tail hb)
    have hquiet : ((awaits u.blocks).bind fun column => firstLiteral column rest) = none := by
      rw [awaits_eq_none hleft]
      rfl
    split at ht
    · next hnote =>
      cases ht
      have hnone : LinePlace.comment? source ⟨before, line, rest⟩ = none := by
        simp [LinePlace.comment?, BareLine.isRoutine, BareLine.header?_of_note hnote]
      exact ⟨hsettled, hcomments, hquiet.trans hnone.symm⟩
    · next hnote =>
      cases ht
      cases hheader : (line.bare source).header? with
      | none =>
        have hnone : LinePlace.comment? source ⟨before, line, rest⟩ = none := by
          simp [LinePlace.comment?, BareLine.isRoutine, hheader]
        exact ⟨hsettled, hcomments, hquiet.trans hnone.symm⟩
      | some header =>
        refine ⟨hleft, hcomments, ?_⟩
        obtain ⟨colon, hcolon⟩ : ∃ colon, line.colon = some colon := by
          rw [BareLine.isSound, hheader] at hsound
          exact Option.isSome_iff_exists.1 hsound
        have hblock : awaits (Header.block source line (s.annotations.getD line.start) header ::
            u.blocks) = if (line.bare source).isRoutine && line.endsHeader then some line.indent
              else none := by
          simp only [awaits, Header.block, hcolon, Option.getD_some, BareLine.isRoutine, hheader,
            Option.any_some, LogicalLine.endsHeader, Bool.and_comm]
        refine (congrArg (·.bind fun column => firstLiteral column rest) hblock).trans ?_
        rw [LinePlace.comment?]
        split
        · rfl
        · rfl
  · cases ht

/-- **The stack of open blocks finds the documentation of the places**. -/
theorem Settled.foldlM (h : s.Settled) (hs : lines.foldlM (BlockState.step source) s = .ok s')
    (before : List LogicalLine) :
    (s'.finish.filter fun n => !n.declares).Perm (s.comments ++
      (((awaits s.blocks).bind fun column => firstLiteral column lines).toList ++
        (linePlaces before lines).filterMap (LinePlace.comment? source)).map Node.doc) := by
  induction lines generalizing s before with
  | nil =>
    cases hs
    have hnone : ((awaits s'.blocks).bind fun column => firstLiteral column []) = none := by
      cases awaits s'.blocks <;> rfl
    rw [finish, List.filter_append, List.filter_reverse, not_declares_close, hnone]
    simp only [linePlaces, sites, List.filterMap_nil, Option.toList_none, List.append_nil, List.map_nil]
    exact List.reverse_perm _
  | cons line rest ih =>
    rw [List.foldlM_cons] at hs
    obtain ⟨t, hstep, hrest⟩ := bind_eq_ok.1 hs
    obtain ⟨hsettled, hcomments, hawaits⟩ := h.step hstep before rest
    have hmore := ih hsettled hrest (line :: before)
    rw [hawaits, hcomments] at hmore
    have hplace : ((LinePlace.comment? source ⟨before, line, rest⟩).toList ++
        (linePlaces (line :: before) rest).filterMap (LinePlace.comment? source)) =
        (⟨before, line, rest⟩ :: linePlaces (line :: before) rest).filterMap
          (LinePlace.comment? source) := by
      rw [List.filterMap_cons]
      cases LinePlace.comment? source ⟨before, line, rest⟩ <;> rfl
    rw [hplace] at hmore
    refine hmore.trans ?_
    rw [List.map_append, ← Option.toList_map, ← List.append_assoc]
    exact List.perm_append_comm.append_right _

end BlockState

/-! ## The comments of an outline -/

/-- **The comments of an outline are those of its places**. -/
theorem outline_comments {o : Outline} (h : outline source = .ok o)
    (hlines : logicalLines source = .ok lines) :
    (o.nodes.filter fun n => !n.declares).Perm
      (((linePlaces [] lines).filterMap (LinePlace.comment? source)).map Node.doc) := by
  obtain ⟨lines', hlines', h⟩ := bind_eq_ok.1 h
  cases hlines.symm.trans hlines'
  obtain ⟨nodes, hnodes, h⟩ := bind_eq_ok.1 h
  cases h
  obtain ⟨s, hs, hfinish⟩ := bind_eq_ok.1 hnodes
  cases hfinish
  have hsettled : BlockState.initial.Settled := fun _ hb => by cases hb
  exact ((List.mergeSort_perm _ _).filter _).trans (hsettled.foldlM hs [])

/-- Each place has the first of the lines behind it for its documentation. -/
theorem comments_sublist (before : List LogicalLine) :
    ((linePlaces before lines).filterMap (LinePlace.comment? source)).Sublist
      (lines.tail.filterMap LogicalLine.loneString) := by
  induction lines generalizing before with
  | nil => exact .slnil
  | cons line rest ih =>
    rw [linePlaces, sites, List.filterMap_cons, List.tail_cons]
    have hrest := ih (line :: before)
    cases rest with
    | nil =>
      have hnone : LinePlace.comment? source ⟨before, line, []⟩ = none := ite_self _
      rw [hnone]
      exact hrest
    | cons next rest =>
      have hnext : LinePlace.comment? source ⟨before, line, next :: rest⟩ = none ∨
          LinePlace.comment? source ⟨before, line, next :: rest⟩ = next.loneString := by
        rw [LinePlace.comment?, firstLiteral]
        split
        · split
          · exact .inr rfl
          · exact .inl rfl
        · exact .inl rfl
      rw [List.filterMap_cons]
      rcases hnext with he | he
      · rw [he]
        cases next.loneString with
        | none => exact hrest
        | some t => exact hrest.cons t
      · rw [he]
        cases next.loneString with
        | none => exact hrest
        | some t => exact hrest.cons_cons t

/-! ## What starts at a line -/

section

variable (hlines : logicalLines source = .ok lines)

include hlines

theorem divides_of_logicalLines : rule.Divides source (rule.lex source).lexemes [] := by
  obtain ⟨s, hrun, -⟩ := bind_eq_ok.1 hlines
  have hr : Reached source (rule.lex source).lexemes [] s := .of_run hrun
  exact hr.divides

/-- What is found as a literal is a line that begins like one. -/
theorem head_of_loneString {l : LogicalLine} (hl : l ∈ lines) {t : Span}
    (ht : l.loneString = some t) : t = ⟨l.start, l.stop⟩ ∧ l.start < l.stop ∧
      ∃ c, (l.bare source).text.head? = some c ∧ beginsLiteral c = true := by
  obtain ⟨he, hliteral⟩ := (loneString_iff hlines hl).1 ht
  exact ⟨he, hliteral.head (divides_of_logicalLines hlines)⟩

/-- The literals of a text start one after the other. -/
theorem literals_pairwise :
    (lines.filterMap LogicalLine.loneString).Pairwise fun t u => t.start < u.start := by
  have hapart := List.pairwise_map.1 (logicalLines_fit hlines).2.apart
  refine List.pairwise_filterMap.2 ((List.Pairwise.and_mem.1 hapart).imp ?_)
  rintro l m ⟨hl, hm, hle⟩ t ht u hu
  obtain ⟨rfl, hlt, -⟩ := head_of_loneString hlines hl ht
  obtain ⟨rfl, -⟩ := head_of_loneString hlines hm hu
  exact Nat.lt_of_lt_of_le hlt hle

end

/-- A declaration starts at a line that annotates or declares. -/
theorem exists_line_of_node {p : LinePlace} (hp : p ∈ linePlaces [] lines) {m : Node}
    (hm : p.node? source = some m) : ∃ l ∈ lines, m.span.start = l.start ∧
      ((l.bare source).isNote = true ∨ (l.bare source).header?.isSome = true) := by
  obtain ⟨pre, -, hlines, hbefore, -⟩ := exists_of_mem_sites hp
  obtain ⟨header, hheader, -⟩ := Option.map_eq_some_iff.1 hm
  rw [(LinePlace.node?_eq_some hm).2.2]
  have hsub : ∀ l ∈ p.before, l ∈ lines := by
    intro l hl
    rw [hbefore, List.append_nil, List.mem_reverse] at hl
    rw [hlines]
    exact List.mem_append_left _ hl
  cases hnote : noteStart source p.before with
  | none =>
    refine ⟨p.line, by rw [hlines]; simp, ?_, .inr (by rw [hheader]; rfl)⟩
    show p.start source = _
    rw [LinePlace.start, hnote]
    rfl
  | some a =>
    obtain ⟨l, hl, rfl⟩ := Option.map_eq_some_iff.1 hnote
    have hmem := List.mem_of_getLast? hl
    refine ⟨l, hsub l ((List.takeWhile_sublist _).subset hmem), ?_, .inl ?_⟩
    · show p.start source = _
      rw [LinePlace.start, hnote]
      rfl
    · exact List.all_eq_true.1 List.all_takeWhile l hmem

/-- What annotates or declares begins like no literal. -/
theorem not_beginsLiteral {l : LogicalLine} (h : (l.bare source).isNote = true ∨
    (l.bare source).header?.isSome = true) {c : Char}
    (hc : (l.bare source).text.head? = some c) : beginsLiteral c = false := by
  rcases h with hnote | hheader
  · have hat : (l.bare source).text.head? = some '@' := of_decide_eq_true hnote
    cases hc.symm.trans hat
    decide
  · obtain ⟨header, hheader⟩ := Option.isSome_iff_exists.1 hheader
    have hfirst : ['a', 'c', 'd'].all (!beginsLiteral ·) = true := by decide
    rw [BareLine.header?] at hheader
    split at hheader
    · cases hheader
    · obtain ⟨d, hd, hhead⟩ := Header.head?_mem hheader
      cases hc.symm.trans hhead
      simpa using List.all_eq_true.1 hfirst c hd

/-- Blocks and annotations are not empty. -/
theorem lt_of_note_or_header {l : LogicalLine} (h : (l.bare source).isNote = true ∨
    (l.bare source).header?.isSome = true) : l.start < l.stop := by
  rcases h with hnote | hheader
  · exact lt_of_note hnote
  · obtain ⟨header, hheader⟩ := Option.isSome_iff_exists.1 hheader
    exact lt_of_header hheader

/-- **The outline of an indented text is well nested** if annotations are indented like what they
annotate. -/
theorem outline_wellNested {o : Outline} (h : outline source = .ok o)
    (hlines : logicalLines source = .ok lines) (haligned : Aligned source lines) :
    WellNested o.nodes where
  uncrossed := by
    have hfollow := Follow.of_row (logicalLines_fit hlines).2
    have hblocks : (headed source none lines).Pairwise Node.Uncrossed :=
      pairwise_uncrossed hfollow haligned fun a ha => by cases ha
    have hdeclares := outline_declares h hlines
    rw [← headed_none] at hdeclares
    exact List.pairwise_filter.1 (hdeclares ▸ hblocks)
  distinct := by
    have hdeclares := outline_declares h hlines
    have hcomments := outline_comments h hlines
    refine (List.filter_append_perm Node.declares o.nodes).pairwise ?_ fun h => h.symm
    refine List.pairwise_append.2 ⟨?_, ?_, ?_⟩
    · exact List.pairwise_filter.2 ((outline_distinct h).imp fun {m n} h hm hn =>
        Nat.ne_of_lt (h hm hn))
    · refine hcomments.symm.pairwise ?_ fun h => h.symm
      refine List.pairwise_map.2 (((literals_pairwise hlines).sublist ?_).imp fun h => Nat.ne_of_lt h)
      refine (comments_sublist []).trans ((List.tail_sublist lines).filterMap _)
    · intro m hm d hd he
      rw [hdeclares] at hm
      obtain ⟨p, hp, hnode⟩ := List.mem_filterMap.1 hm
      obtain ⟨t, ht, rfl⟩ := List.mem_map.1 (hcomments.mem_iff.1 hd)
      have ht := (List.tail_sublist lines).filterMap _ |>.subset ((comments_sublist []).subset ht)
      obtain ⟨l, hl, hlit⟩ := List.mem_filterMap.1 ht
      obtain ⟨rfl, hlt, c, hc, hbegins⟩ := head_of_loneString hlines hl hlit
      obtain ⟨l', hl', hstart, hkind⟩ := exists_line_of_node hp hnode
      obtain rfl := (logicalLines_fit hlines).2.eq_of_start hl hl' hlt (lt_of_note_or_header hkind)
        (he.symm.trans hstart)
      rw [not_beginsLiteral hkind hc] at hbegins
      cases hbegins

end Scholia.Source.Indented
