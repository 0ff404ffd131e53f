import Scholia.Proofs.Source.Slices
import Scholia.Proofs.Text.Words
/-!
# Signatures

A signature is a declaration put on one line: every scanner joins the words of the declaration with
single blanks. What a scanner has begun and what it has found keep to this at every step, so **no
signature of a routine holds a line feed**, however its declaration is laid out.
-/

namespace Scholia.Source

/-- A text whose words stand on one line, with one blank between each two. -/
def OnOneLine (signature : Text) : Prop :=
  ∃ declaration, signature = Text.collapse declaration

theorem OnOneLine.of_collapse (declaration : Text) : OnOneLine (Text.collapse declaration) :=
  ⟨declaration, rfl⟩

theorem OnOneLine.empty : OnOneLine [] := .of_collapse []

theorem OnOneLine.newline_not_mem {signature : Text} (h : OnOneLine signature) :
    '\n' ∉ signature := by
  obtain ⟨declaration, rfl⟩ := h
  exact fun hc => absurd (Text.mem_collapse hc) (by decide)

/-! ## Brace languages -/

namespace Braced

variable {dialect : Dialect} {source : Text} {s s' : State}

/-- The signature that waits for a brace to close, if one does. -/
def BraceKind.signature : BraceKind → Text
  | typeDecl _ signature => signature
  | routine _ signature => signature
  | _ => []

/-- What is open and what has been found is named on one line. -/
structure State.Signed (s : State) : Prop where
  braces : ∀ b ∈ s.braces, OnOneLine b.kind.signature
  nodes : ∀ n ∈ s.nodes, OnOneLine n.signature

theorem Header.ofText_signature {attributes : Bool} {header name signature : Text}
    (h : ofText attributes header = .typeDecl name signature ∨
      ofText attributes header = .routine name signature) : OnOneLine signature := by
  have hline := OnOneLine.of_collapse (stripAnnotations attributes header)
  unfold ofText at h
  simp only at h
  split at h
  · rcases h with h | h <;> cases h
  split at h
  · rcases h with h | h <;> cases h
    exact hline
  split at h
  · rcases h with h | h <;> cases h
  split at h
  · rcases h with h | h <;> cases h
    exact hline
  · rcases h with h | h <;> cases h

namespace State.Signed

theorem initial : State.Signed .initial := ⟨nofun, nofun⟩

theorem doc (h : s.Signed) (span : Span) : State.Signed { s with nodes := .doc span :: s.nodes } :=
  ⟨h.braces, List.forall_mem_cons.2 ⟨.empty, h.nodes⟩⟩

theorem flushRun (h : s.Signed) : s.flushRun.Signed := by
  unfold State.flushRun
  split
  · exact ⟨h.braces, (h.doc _).nodes⟩
  · exact h

theorem extendRun (h : s.Signed) (line : Span) : (s.extendRun source line).Signed := by
  unfold State.extendRun
  split
  · split
    · exact ⟨h.braces, h.nodes⟩
    · exact ⟨h.flushRun.braces, h.flushRun.nodes⟩
  · exact ⟨h.braces, h.nodes⟩

theorem openBrace (h : s.Signed) (brace : Nat) : (s.openBrace dialect source brace).Signed := by
  unfold State.openBrace
  split
  · exact ⟨List.forall_mem_cons.2 ⟨.empty, h.braces⟩, h.nodes⟩
  · refine ⟨List.forall_mem_cons.2 ⟨?_, h.braces⟩, h.nodes⟩
    simp only
    split
    · split
      · exact .empty
      · next name signature hheader => exact Header.ofText_signature (.inl hheader)
      · next name signature hheader => exact Header.ofText_signature (.inr hheader)
      · exact .empty
    · exact .empty

theorem closeBrace {offset : Nat} (h : s.Signed) (hs : s.closeBrace? offset = some s') :
    s'.Signed := by
  unfold State.closeBrace? at hs
  split at hs
  · cases hs
  next inner outer hbraces =>
  obtain ⟨hinner, houter⟩ := List.forall_mem_cons.1 (hbraces ▸ h.braces)
  cases hk : inner.kind with
  | typeDecl name signature =>
    simp only [hk] at hs hinner
    cases hs
    exact ⟨houter, List.forall_mem_cons.2 ⟨hinner, h.nodes⟩⟩
  | routine name signature =>
    simp only [hk] at hs hinner
    cases hs
    exact ⟨houter, List.forall_mem_cons.2 ⟨hinner, h.nodes⟩⟩
  | package | block | inline =>
    simp only [hk] at hs
    cases hs
    exact ⟨houter, h.nodes⟩

/-- Every lexeme leaves signatures on one line. -/
theorem step {offset : Nat} {lexeme : Lexeme Kind} (h : s.Signed)
    (hs : s.step dialect source offset lexeme = .ok s') : s'.Signed := by
  unfold State.step at hs
  cases hl : lexeme.kind with
  | lineComment =>
    simp only [hl] at hs
    split at hs <;> cases hs
    · exact h.extendRun _
    · exact h
  | blockComment =>
    simp only [hl] at hs
    split at hs <;> cases hs
    · exact h.doc _
    · exact h
  | openBrace =>
    simp only [hl] at hs
    cases hs
    exact h.openBrace offset
  | closeBrace =>
    simp only [hl] at hs
    split at hs <;> cases hs
    next hclose => exact h.closeBrace hclose
  | semicolon =>
    simp only [hl] at hs
    split at hs <;> cases hs
    · exact ⟨h.braces, h.nodes⟩
    · exact h
  | blank | literal | code | openParen | closeParen =>
    simp only [hl] at hs
    cases hs
    exact ⟨h.braces, h.nodes⟩

end State.Signed

theorem outline_onOneLine {o : Outline} (h : outline dialect source = .ok o) :
    ∀ n ∈ o.nodes, OnOneLine n.signature := by
  obtain ⟨lexemes, s, hr, -, rfl, -⟩ := outline_reached h
  have hsigned : s.Signed := hr.induct (I := fun _ _ s => s.Signed) .initial
    (fun _ _ _ _ _ _ _ _ hI _ hs => hI.step hs)
  intro n hn
  exact hsigned.flushRun.nodes n (List.mem_reverse.1 (List.mem_mergeSort.1 hn))

end Braced

/-! ## The indented language -/

namespace Indented

variable {source : Text} {s s' : BlockState}

/-- What is open and what has been found is named on one line. -/
structure BlockState.Signed (s : BlockState) : Prop where
  blocks : ∀ b ∈ s.blocks, OnOneLine b.signature
  nodes : ∀ n ∈ s.nodes, OnOneLine n.signature

theorem OpenBlock.close_signature (b : OpenBlock) : b.close.signature = b.signature := by
  unfold close
  split <;> rfl

namespace BlockState.Signed

theorem initial : BlockState.Signed .initial := ⟨nofun, nofun⟩

theorem map_close {blocks : List OpenBlock} (h : ∀ b ∈ blocks, OnOneLine b.signature) :
    ∀ n ∈ blocks.map OpenBlock.close, OnOneLine n.signature := by
  intro n hn
  obtain ⟨b, hb, rfl⟩ := List.mem_map.1 hn
  exact b.close_signature ▸ h b hb

theorem closeTo (h : s.Signed) (indent : Nat) : (s.closeTo indent).Signed where
  blocks b hb := h.blocks b (List.mem_of_mem_drop hb)
  nodes n hn := by
    rcases List.mem_append.1 hn with hn | hn
    · exact map_close (fun b hb => h.blocks b ((List.takeWhile_prefix _).subset hb)) n
        (List.mem_reverse.1 hn)
    · exact h.nodes n hn

theorem extend (h : s.Signed) (line : LogicalLine) : (s.extend line).Signed := by
  constructor
  · intro b hb
    obtain ⟨b', hb', rfl⟩ := List.mem_map.1 hb
    cases hblocks : s.blocks with
    | nil => simp [hblocks] at hb'
    | cons inner outer =>
      obtain ⟨hinner, houter⟩ := List.forall_mem_cons.1 (hblocks ▸ h.blocks)
      simp only [hblocks] at hb'
      rcases List.mem_cons.1 hb' with rfl | hb'
      · exact hinner
      · exact houter b' hb'
  · intro n hn
    rcases List.mem_append.1 hn with hn | hn
    · obtain ⟨span, -, rfl⟩ := Option.map_eq_some_iff.1 (Option.mem_toList.1 hn)
      exact .empty
    · exact h.nodes n hn

/-- Every line leaves signatures on one line. -/
theorem step {line : LogicalLine} (h : s.Signed) (hs : s.step source line = .ok s') : s'.Signed := by
  have hline := (h.closeTo line.indent).extend line
  unfold BlockState.step at hs
  simp only at hs
  split at hs
  · cases hs
    exact ⟨hline.blocks, hline.nodes⟩
  split at hs
  · cases hs
    exact ⟨hline.blocks, hline.nodes⟩
  split at hs <;> cases hs
  exact ⟨List.forall_mem_cons.2 ⟨.of_collapse _, hline.blocks⟩, hline.nodes⟩

theorem finish (h : s.Signed) : ∀ n ∈ s.finish, OnOneLine n.signature := by
  intro n hn
  rcases List.mem_append.1 hn with hn | hn
  · exact h.nodes n (List.mem_reverse.1 hn)
  · exact map_close h.blocks n hn

end BlockState.Signed

theorem outline_onOneLine {o : Outline} (h : outline source = .ok o) :
    ∀ n ∈ o.nodes, OnOneLine n.signature := by
  obtain ⟨lines, -, h⟩ := bind_eq_ok.1 h
  obtain ⟨nodes, hnodes, h⟩ := bind_eq_ok.1 h
  obtain ⟨s, hs, hfinish⟩ := bind_eq_ok.1 hnodes
  cases h
  cases hfinish
  have hsigned : s.Signed := foldlM_keeps (I := fun _ s => s.Signed) .initial
    (fun _ _ _ _ _ _ hI hstep => hI.step hstep) hs
  intro n hn
  exact hsigned.finish n (List.mem_mergeSort.1 hn)

end Indented

/-! ## The procedural language -/

namespace Procedural

variable {source : Text} {line : PhysicalLine} {s s' : State}

/-- What is open and what has been found is named on one line; the header of a procedure is put on
one line when the procedure ends. -/
structure State.Signed (s : State) : Prop where
  types : ∀ t ∈ s.types, OnOneLine t.signature
  nodes : ∀ n ∈ s.nodes, OnOneLine n.signature

namespace State.Signed

theorem initial : State.Signed .initial := ⟨nofun, nofun⟩

theorem node {n : Node} (h : s.Signed) (hn : OnOneLine n.signature) :
    ∀ m ∈ n :: s.nodes, OnOneLine m.signature :=
  List.forall_mem_cons.2 ⟨hn, h.nodes⟩

theorem endProcedure {keyword : Text} (h : s.Signed) (hs : s.endProcedure line keyword = .ok s') :
    s'.Signed := by
  unfold State.endProcedure at hs
  split at hs
  · cases hs
    exact ⟨h.types, h.nodes⟩
  split at hs
  · cases hs
  split at hs <;> cases hs
  exact ⟨h.types, h.node (.of_collapse _)⟩

theorem beginProcedure {d : Declarator} (h : s.Signed) (hs : s.beginProcedure line d = .ok s') :
    s'.Signed := by
  unfold State.beginProcedure at hs
  simp only at hs
  split at hs
  · cases hs
    exact ⟨h.types, h.nodes⟩
  split at hs <;> cases hs
  exact ⟨h.types, h.nodes⟩

theorem declaration (h : s.Signed) (hs : s.declaration line = .ok s') : s'.Signed := by
  unfold State.declaration at hs
  split at hs
  · cases hs
    exact ⟨List.forall_mem_cons.2 ⟨.of_collapse _, h.types⟩, h.nodes⟩
  split at hs
  · cases hs
    exact h
  split at hs
  · cases hs
  next t outer htypes =>
  cases hs
  obtain ⟨ht, houter⟩ := List.forall_mem_cons.1 (htypes ▸ h.types)
  exact ⟨houter, h.node ht⟩

theorem code (h : s.Signed) (hs : s.code line = .ok s') : s'.Signed := by
  unfold State.code at hs
  split at hs
  · exact h.endProcedure hs
  split at hs
  · exact h.beginProcedure hs
  split at hs
  · cases hs
    exact ⟨h.types, h.nodes⟩
  · exact h.declaration hs

/-- Every line leaves signatures on one line. -/
theorem step (h : s.Signed) (hs : s.step line = .ok s') : s'.Signed := by
  unfold State.step at hs
  split at hs
  · cases hs
    exact ⟨h.types, h.nodes⟩
  · cases hs
    exact ⟨h.types, h.nodes⟩
  split at hs
  · split at hs <;> cases hs
    · exact ⟨h.types, h.node .empty⟩
    · exact ⟨h.types, h.nodes⟩
  split at hs
  · cases hs
    exact h
  · exact code (s := { s with banner := none }) ⟨h.types, h.nodes⟩ hs

end State.Signed

theorem outline_onOneLine {o : Outline} (h : outline source = .ok o) :
    ∀ n ∈ o.nodes, OnOneLine n.signature := by
  obtain ⟨s, hs, h⟩ := bind_eq_ok.1 h
  obtain ⟨nodes, hfinish, h⟩ := bind_eq_ok.1 h
  cases h
  have hsigned : s.Signed := foldlM_keeps (I := fun _ s => s.Signed) .initial
    (fun _ _ _ _ _ _ hI hstep => hI.step hstep) hs
  unfold State.finish at hfinish
  split at hfinish <;> cases hfinish
  intro n hn
  exact hsigned.nodes n (List.mem_reverse.1 (List.mem_mergeSort.1 hn))

end Procedural

/-! ## Routines -/

end Source

open Source

/-- **A signature stands on one line**. -/
theorem Language.routines_onOneLine {language : Language} {source : Text} {routines : List Routine}
    (h : language.routines source = .ok routines) : ∀ r ∈ routines, OnOneLine r.signature := by
  obtain ⟨surveyed, hsurvey, h⟩ := bind_eq_ok.1 h
  obtain ⟨o, ho, hsurvey⟩ := bind_eq_ok.1 hsurvey
  cases hsurvey
  cases h
  have hnodes : ∀ n ∈ o.nodes, OnOneLine n.signature := by
    cases language with
    | python => exact Indented.outline_onOneLine ho
    | java => exact Braced.outline_onOneLine ho
    | cSharp => exact Braced.outline_onOneLine ho
    | visualBasic => exact Procedural.outline_onOneLine ho
  intro r hr
  obtain ⟨b, hnode, -⟩ := ((outline_fits ho).2.survey_stands language.attachment r hr).node
  exact hnodes _ hnode

end Scholia
