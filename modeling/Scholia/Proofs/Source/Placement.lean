import Mathlib.Data.List.Pairwise
import Scholia.Proofs.Text.Cut
import Scholia.Proofs.Text.Lines
import Scholia.Source.Outline
/-!
# Placement

A range *fits* a text if it runs forward between two cuts of it, so that it names a part of the
text. A node fits if its range does and its body starts inside. Of a routine it is said where it
comes from: `Routine.Stands` ties every field to a node of the outline, and `Routine.Fits` is what
follows for its ranges when the nodes fit.

A comment belongs to a routine after it if each line between them is blank or begins with the mark
of an annotation or attribute. So the first character of a line between them that is not blank is
such a mark. What follows it on its line is not looked at.
-/

namespace Scholia

/-- The way in which a comment stands to a routine that starts at `start`, so that it belongs to
it. -/
def Attachment.Joins (attachment : Attachment) (source : Text) (c : Source.Span)
    (start bodyStart : Nat) : Prop :=
  match attachment with
  | .preceding => Source.isAdjacent source c.stop start = true
  | .firstStatement => Source.isFirstStatement source bodyStart c.start = true

namespace Source

open Text (IsCut)

/-- A range of bytes that is a part of a text. -/
structure Span.Fits (source : Text) (s : Span) : Prop where
  ordered : s.start ≤ s.stop
  start_cut : IsCut source s.start
  stop_cut : IsCut source s.stop

instance (source : Text) (s : Span) : Decidable (s.Fits source) :=
  decidable_of_iff (s.start ≤ s.stop ∧ IsCut source s.start ∧ IsCut source s.stop)
    ⟨fun h => ⟨h.1, h.2.1, h.2.2⟩, fun h => ⟨h.1, h.2, h.3⟩⟩

/-- A part of a text is a part of every longer one. -/
theorem Span.Fits.of_append {source : Text} {span : Span} (h : span.Fits source) (t : Text) :
    span.of (source ++ t) = span.of source := by
  obtain ⟨a, b, c, rfl, hstart, hstop⟩ := h.start_cut.split h.stop_cut h.ordered
  rw [Span.of, Span.of, hstart, hstop, List.append_assoc, List.append_assoc, Text.slice_middle,
    Text.slice_middle]

/-- A node whose range is a part of the text, with a body inside it. -/
structure Node.Fits (source : Text) (n : Node) : Prop where
  span : n.span.Fits source
  body : ∀ name b, n.kind = .routine name b → n.span.start ≤ b ∧ b ≤ n.span.stop ∧ IsCut source b

instance (source : Text) (n : Node) : Decidable (n.Fits source) :=
  match hk : n.kind with
  | .routine _ b =>
    decidable_of_iff (n.span.Fits source ∧ n.span.start ≤ b ∧ b ≤ n.span.stop ∧ IsCut source b)
      ⟨fun h => ⟨h.1, fun _ _ he => by cases hk.symm.trans he; exact h.2⟩,
        fun h => ⟨h.span, h.body _ b hk⟩⟩
  | .typeDecl _ =>
    decidable_of_iff (n.span.Fits source)
      ⟨fun h => ⟨h, fun _ _ he => by cases hk.symm.trans he⟩, Node.Fits.span⟩
  | .doc =>
    decidable_of_iff (n.span.Fits source)
      ⟨fun h => ⟨h, fun _ _ he => by cases hk.symm.trans he⟩, Node.Fits.span⟩

theorem Node.fits_doc {source : Text} {s : Span} (h : s.Fits source) : (Node.doc s).Fits source :=
  ⟨h, fun _ _ hk => by cases hk⟩

theorem Node.fits_typeDecl {source name signature : Text} {s : Span} (h : s.Fits source) :
    (Node.typeDecl name signature s).Fits source :=
  ⟨h, fun _ _ hk => by cases hk⟩

theorem Node.fits_routine {source name signature : Text} {s : Span} {b : Nat}
    (h : s.Fits source) (hl : s.start ≤ b) (hr : b ≤ s.stop) (hb : IsCut source b) :
    (Node.routine name signature s b).Fits source :=
  ⟨h, fun _ _ hk => by cases hk; exact ⟨hl, hr, hb⟩⟩

/-- **Where a routine comes from**: a node of the outline, and for its comment a doc node that
stands to it as the attachment demands. -/
structure Routine.Stands (o : Outline) (attachment : Attachment) (r : Routine) : Prop where
  node : ∃ b, ⟨.routine r.name b, r.signature, r.span⟩ ∈ o.nodes ∧
    r.body = Text.slice b r.span.stop o.source ∧
    ∀ c, r.commentSpan = some c →
      (∃ d ∈ o.nodes, d.kind = .doc ∧ d.span = c) ∧ attachment.Joins o.source c r.span.start b
  comment : r.comment = (r.commentSpan.map (·.of o.source)).getD []

/-- What is asked of the places of a routine: each is a part of the text, the comment is the text
of its range, and the body is the rest of the routine from some cut on. -/
structure Routine.Fits (source : Text) (r : Routine) : Prop where
  span : r.span.Fits source
  body : ∃ b, r.span.start ≤ b ∧ b ≤ r.span.stop ∧ IsCut source b ∧
    r.body = Text.slice b r.span.stop source
  comment : r.comment = (r.commentSpan.map (·.of source)).getD []
  commentSpan : ∀ c, r.commentSpan = some c → c.Fits source
  apart : ∀ c, r.commentSpan = some c → c.stop ≤ r.span.start ∨ r.span.start ≤ c.start

theorem isAdjacent_le {source : Text} {i j : Nat} (h : isAdjacent source i j = true) : i ≤ j := by
  simp only [isAdjacent, Bool.and_eq_true, decide_eq_true_eq] at h
  exact h.1

theorem isFirstStatement_le {source : Text} {i j : Nat} (h : isFirstStatement source i j = true) :
    i ≤ j := by
  simp only [isFirstStatement, Bool.and_eq_true, decide_eq_true_eq] at h
  exact h.1

theorem Routine.Stands.fits {o : Outline} {attachment : Attachment} {r : Routine}
    (h : r.Stands o attachment) (hn : ∀ n ∈ o.nodes, n.Fits o.source) : r.Fits o.source := by
  obtain ⟨b, hmem, hbody, hcomment⟩ := h.node
  have hfit := hn _ hmem
  obtain ⟨hl, hr, hb⟩ := hfit.body _ _ rfl
  refine ⟨hfit.span, ⟨b, hl, hr, hb, hbody⟩, h.comment, ?_, ?_⟩
  · intro c hc
    obtain ⟨⟨d, hd, -, rfl⟩, -⟩ := hcomment c hc
    exact (hn d hd).span
  · intro c hc
    have hjoin := (hcomment c hc).2
    cases attachment with
    | preceding => exact .inl (isAdjacent_le hjoin)
    | firstStatement => exact .inr (Nat.le_trans hl (isFirstStatement_le hjoin))

/-! ## What follows for the extent -/

namespace Routine.Fits

variable {source : Text} {r : Routine}

theorem body_suffix (h : r.Fits source) : r.body <:+ r.span.of source := by
  obtain ⟨b, hl, hr, hb, he⟩ := h.body
  refine ⟨Text.slice r.span.start b source, ?_⟩
  rw [he]
  exact Text.slice_append_slice h.span.start_cut hb h.span.stop_cut hl hr

theorem extent_stop (r : Routine) : r.extent.stop = r.span.stop := by
  unfold Routine.extent
  split
  · split <;> rfl
  · rfl

theorem extent_start_le (r : Routine) : r.extent.start ≤ r.span.start := by
  unfold Routine.extent
  split
  · split
    · exact Nat.le_of_lt ‹_›
    · exact Nat.le_refl _
  · exact Nat.le_refl _

/-- The extent starts with the routine or with its comment. -/
theorem extent_start (r : Routine) :
    r.extent.start = r.span.start ∨ ∃ c, r.commentSpan = some c ∧ r.extent.start = c.start := by
  unfold Routine.extent
  split
  · next c hc =>
    split
    · exact .inr ⟨c, hc, rfl⟩
    · exact .inl rfl
  · exact .inl rfl

theorem extent (h : r.Fits source) : r.extent.Fits source := by
  refine ⟨?_, ?_, ?_⟩
  · rw [extent_stop]
    exact Nat.le_trans (extent_start_le r) h.span.ordered
  · rcases extent_start r with he | ⟨c, hc, he⟩
    · exact he ▸ h.span.start_cut
    · exact he ▸ (h.commentSpan c hc).start_cut
  · rw [extent_stop]
    exact h.span.stop_cut

end Routine.Fits

/-- A comment that is the first statement of a body stands inside the routine. -/
theorem Routine.Stands.extent_eq_span {o : Outline} {r : Routine} (h : r.Stands o .firstStatement)
    (hn : ∀ n ∈ o.nodes, n.Fits o.source) : r.extent = r.span := by
  obtain ⟨b, hmem, -, hcomment⟩ := h.node
  have hle := ((hn _ hmem).body _ _ rfl).1
  unfold Routine.extent
  split
  · next c hc =>
    have hfirst := isFirstStatement_le (hcomment c hc).2
    exact if_neg (Nat.not_lt.2 (Nat.le_trans hle hfirst))
  · rfl

/-! ## Lines -/

/-- Ranges that are parts of a text and follow each other without overlap. -/
structure Row (source : Text) (lines : List Span) : Prop where
  fits : ∀ l ∈ lines, l.Fits source
  apart : lines.Pairwise fun l m => l.stop ≤ m.start

/-- A byte at which one of the lines starts. -/
def StartsLine (lines : List Span) (byte : Nat) : Prop :=
  ∃ l ∈ lines, byte = l.start

/-- A byte at which one of the lines stops. -/
def StopsLine (lines : List Span) (byte : Nat) : Prop :=
  ∃ l ∈ lines, byte = l.stop

/-- A node from the start of a line to the stop of one. -/
structure Node.Lined (source : Text) (lines : List Span) (n : Node) : Prop where
  fits : n.Fits source
  start : StartsLine lines n.span.start
  stop : StopsLine lines n.span.stop

section Lines

variable {source : Text} {lines : List Span} {line : Span} {byte : Nat}

theorem StartsLine.last (lines : List Span) (line : Span) :
    StartsLine (lines ++ [line]) line.start :=
  ⟨line, List.mem_append_right _ (List.mem_singleton_self line), rfl⟩

theorem StopsLine.last (lines : List Span) (line : Span) :
    StopsLine (lines ++ [line]) line.stop :=
  ⟨line, List.mem_append_right _ (List.mem_singleton_self line), rfl⟩

theorem StartsLine.more (h : StartsLine lines byte) (line : Span) :
    StartsLine (lines ++ [line]) byte := by
  obtain ⟨l, hl, hb⟩ := h
  exact ⟨l, List.mem_append_left _ hl, hb⟩

theorem StopsLine.more (h : StopsLine lines byte) (line : Span) :
    StopsLine (lines ++ [line]) byte := by
  obtain ⟨l, hl, hb⟩ := h
  exact ⟨l, List.mem_append_left _ hl, hb⟩

theorem Node.Lined.more {n : Node} (h : n.Lined source lines) (line : Span) :
    n.Lined source (lines ++ [line]) :=
  ⟨h.fits, h.start.more line, h.stop.more line⟩

theorem Row.start_cut (h : Row source lines) (hs : StartsLine lines byte) : IsCut source byte := by
  obtain ⟨l, hl, rfl⟩ := hs
  exact (h.fits l hl).start_cut

theorem Row.stop_cut (h : Row source lines) (hs : StopsLine lines byte) : IsCut source byte := by
  obtain ⟨l, hl, rfl⟩ := hs
  exact (h.fits l hl).stop_cut

theorem Row.left {more : List Span} (h : Row source (lines ++ more)) : Row source lines :=
  ⟨fun l hl => h.fits l (List.mem_append_left _ hl), (List.pairwise_append.1 h.apart).1⟩

/-- Lines that are not empty start at bytes of their own. -/
theorem Row.eq_of_start {α : Type} {span : α → Span} {l : List α} (h : Row source (l.map span))
    {a b : α} (ha : a ∈ l) (hb : b ∈ l) (hpos : (span a).start < (span a).stop)
    (hpos' : (span b).start < (span b).stop) (he : (span a).start = (span b).start) : a = b := by
  let apart (a b : α) : Prop := (span a).start < (span a).stop → (span b).start < (span b).stop →
    (span a).start ≠ (span b).start
  have : Std.Symm apart := ⟨fun _ _ h hb ha => (h ha hb).symm⟩
  have hapart : l.Pairwise apart := (List.pairwise_map.1 h.apart).imp fun {a b} hle hlt _ =>
    Nat.ne_of_lt (Nat.lt_of_lt_of_le hlt hle)
  exact Classical.byContradiction fun hne => hapart.forall ha hb hne hpos hpos' he

theorem Row.last_fits (h : Row source (lines ++ [line])) : line.Fits source :=
  h.fits line (List.mem_append_right _ (List.mem_singleton_self line))

/-- What has stopped before the last line has stopped where it starts. -/
theorem Row.stop_le (h : Row source (lines ++ [line])) (hs : StopsLine lines byte) :
    byte ≤ line.start := by
  obtain ⟨l, hl, rfl⟩ := hs
  exact (List.pairwise_append.1 h.apart).2.2 l hl line (List.mem_singleton_self line)

/-- Lines start one after the other. -/
theorem Row.start_le (h : Row source (lines ++ [line])) (hs : StartsLine (lines ++ [line]) byte) :
    byte ≤ line.start := by
  obtain ⟨l, hl, rfl⟩ := hs
  rcases List.mem_append.1 hl with hl | hl
  · exact Nat.le_trans (h.fits l (List.mem_append_left _ hl)).ordered (h.stop_le ⟨l, hl, rfl⟩)
  · exact Nat.le_of_eq (congrArg Span.start (List.mem_singleton.1 hl))

/-- A range from the start of a line to the stop of the last one. -/
theorem Row.fits_last (h : Row source (lines ++ [line])) (hs : StartsLine (lines ++ [line]) byte) :
    Span.Fits source ⟨byte, line.stop⟩ where
  ordered := Nat.le_trans (h.start_le hs) h.last_fits.ordered
  start_cut := h.start_cut hs
  stop_cut := h.last_fits.stop_cut

end Lines

/-! ## Sites among lines

Whether a line belongs to one before it, and where what it opens ends, is told by its site. -/

section Site

variable {α : Type}

/-- A line with the lines before it, the nearest first, and the lines after it. -/
structure Site (α : Type) where
  before : List α
  line : α
  after : List α
  deriving Repr, DecidableEq

/-- The sites of some lines behind others, the nearest of those first. -/
def sites (before : List α) : List α → List (Site α)
  | [] => []
  | line :: rest => ⟨before, line, rest⟩ :: sites (line :: before) rest

theorem exists_of_mem_sites {before lines : List α} {p : Site α} (h : p ∈ sites before lines) :
    ∃ pre ps, lines = pre ++ p.line :: p.after ∧ p.before = pre.reverse ++ before ∧
      sites before lines = ps ++ p :: sites (p.line :: p.before) p.after := by
  induction lines generalizing before with
  | nil => cases h
  | cons line rest ih =>
    rcases List.mem_cons.1 h with rfl | h
    · exact ⟨[], [], rfl, rfl, rfl⟩
    · obtain ⟨pre, ps, hlines, hbefore, hsites⟩ := ih h
      refine ⟨line :: pre, ⟨before, line, rest⟩ :: ps, by rw [hlines]; rfl, ?_, ?_⟩
      · rw [hbefore, List.reverse_cons, List.append_assoc]
        rfl
      · rw [sites, hsites]
        rfl

end Site

end Source

/-! ## Gaps before routines -/

namespace Text

/-- A character that parts nothing stands in a part, behind characters that stood before it. -/
theorem mem_splitWhere_of_append {p : Char → Bool} {c : Char} (hc : p c = false)
    (lead rest : Text) : ∃ part ∈ splitWhere p (lead ++ c :: rest), ∃ lead' rest',
      part = lead' ++ c :: rest' ∧ ∀ d ∈ lead', d ∈ lead := by
  induction lead with
  | nil =>
    simp only [List.nil_append, splitWhere, hc]
    cases splitWhere p rest with
    | nil => exact ⟨[c], by simp, [], [], rfl, by simp⟩
    | cons part parts => exact ⟨c :: part, by simp, [], part, rfl, by simp⟩
  | cons d lead ih =>
    obtain ⟨part, hpart, lead', rest', rfl, hlead⟩ := ih
    have hmore : ∀ e ∈ lead', e ∈ d :: lead := fun e he => List.mem_cons_of_mem _ (hlead e he)
    simp only [List.cons_append, splitWhere]
    split
    · exact ⟨_, List.mem_cons_of_mem _ hpart, lead', rest', rfl, hmore⟩
    · cases hs : splitWhere p (lead ++ c :: rest) with
      | nil =>
        rw [hs] at hpart
        cases hpart
      | cons first parts =>
        rw [hs] at hpart
        rcases List.mem_cons.1 hpart with rfl | hpart
        · refine ⟨_, List.mem_cons_self, d :: lead', rest', rfl, fun e he => ?_⟩
          rcases List.mem_cons.1 he with rfl | he
          · exact List.mem_cons_self
          · exact hmore e he
        · exact ⟨_, List.mem_cons_of_mem _ hpart, lead', rest', rfl, hmore⟩

/-- A part with something in it is a line, less a carriage return at its end. -/
theorem mem_closeLines {part : Text} {parts : List Text} (h : part ∈ parts) (hne : part ≠ []) :
    part ∈ closeLines parts ∨ dropReturn part ∈ closeLines parts := by
  fun_induction closeLines parts with
  | case1 => cases h
  | case2 last hlast =>
    rw [List.mem_singleton.1 h] at hne
    exact absurd (List.isEmpty_iff.1 hlast) hne
  | case3 last _ => exact .inl h
  | case4 first parts _ ih =>
    rcases List.mem_cons.1 h with rfl | h
    · exact .inr List.mem_cons_self
    · exact (ih h).imp (List.mem_cons_of_mem _) (List.mem_cons_of_mem _)

/-- A carriage return at the end of a text stands behind any other character of it. -/
theorem dropReturn_append_cons (lead : Text) {c : Char} (hc : c ≠ '\r') (rest : Text) :
    dropReturn (lead ++ c :: rest) = lead ++ c :: dropReturn rest := by
  cases rest with
  | nil => simp [dropReturn, hc]
  | cons d rest =>
    have hlast : (lead ++ c :: d :: rest).getLast? = (d :: rest).getLast? := by
      rw [List.getLast?_append, List.getLast?_cons_cons, List.getLast?_cons, Option.some_or]
    unfold dropReturn
    rw [hlast]
    split
    · simp
    · rfl

/-- **A character that is not blank stands in a line**, behind the blanks before it. -/
theorem mem_lines_of_append {c : Char} (hc : isBlank c = false) {before lead : Text}
    (hbefore : isWhole before) (hlead : allBlank lead = true) (rest : Text) :
    ∃ line ∈ lines (before ++ (lead ++ c :: rest)), ∃ lead' rest', line = lead' ++ c :: rest' ∧
      allBlank lead' = true := by
  have hn : (fun d => d == '\n') c = false := by
    refine beq_eq_false_iff_ne.2 fun he => ?_
    rw [he] at hc
    exact absurd hc (by decide)
  have hr : c ≠ '\r' := by
    intro he
    rw [he] at hc
    exact absurd hc (by decide)
  obtain ⟨part, hpart, lead', rest', rfl, hsub⟩ :=
    mem_splitWhere_of_append (p := (· == '\n')) hn lead rest
  have hpart : lead' ++ c :: rest' ∈ splitWhere (· == '\n') (before ++ (lead ++ c :: rest)) := by
    rcases hbefore with rfl | ⟨b, rfl⟩
    · exact hpart
    · rw [List.append_assoc, List.singleton_append, splitWhere_append rfl]
      exact List.mem_append_right _ hpart
  have hblank : allBlank lead' = true :=
    List.all_eq_true.2 fun d hd => List.all_eq_true.1 hlead d (hsub d hd)
  rcases mem_closeLines hpart (by simp) with hl | hl
  · exact ⟨_, hl, lead', rest', rfl, hblank⟩
  · exact ⟨_, hl, lead', _, dropReturn_append_cons lead' hr rest', hblank⟩

/-- Trimming leaves the first character that is not blank in front. -/
theorem trim_append_cons {c : Char} (hc : isBlank c = false) {lead : Text}
    (hlead : allBlank lead = true) (rest : Text) :
    ∃ rest', trim (lead ++ c :: rest) = c :: rest' := by
  have hstart : trimStart (lead ++ c :: rest) = c :: rest := by
    rw [trimStart, trimStartWhere, List.dropWhile_append_of_pos (List.all_eq_true.1 hlead)]
    simp [hc]
  obtain ⟨tail, htail, ht⟩ := trimEndWhere_append isBlank (c :: rest)
  rw [trim, hstart, trimEnd]
  cases hend : trimEndWhere isBlank (c :: rest) with
  | nil =>
    rw [hend, List.nil_append] at htail
    rw [← htail] at ht
    simp [hc] at ht
  | cons d more =>
    rw [hend] at htail
    cases htail
    exact ⟨more, rfl⟩

end Text

namespace Source

open Text (IsCut)

/-- A character with which an annotation or attribute begins. -/
def isMark (c : Char) : Bool :=
  c == '@' || c == '[' || c == '<'

/-- **What stands first in a gap, or first in a line of it, is the mark of an annotation**. -/
theorem isMark_of_isAdjacent {source : Text} {i j : Nat} (h : isAdjacent source i j = true)
    {before lead : Text} {c : Char} {rest : Text}
    (hgap : Text.slice i j source = before ++ (lead ++ c :: rest)) (hbefore : Text.isWhole before)
    (hlead : Text.allBlank lead = true) (hc : Text.isBlank c = false) : isMark c = true := by
  simp only [isAdjacent, Bool.and_eq_true, hgap] at h
  obtain ⟨line, hline, lead', rest', rfl, hlead'⟩ := Text.mem_lines_of_append hc hbefore hlead rest
  have hmark := List.all_eq_true.1 h.2 _ hline
  obtain ⟨rest'', he⟩ := Text.trim_append_cons hc hlead' rest'
  rw [isGapLine, he] at hmark
  exact hmark

end Source

end Scholia
