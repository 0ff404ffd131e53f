import Scholia.Proofs.Source.Braced.History
import Scholia.Proofs.Source.Indented.Blocks
import Scholia.Proofs.Source.Procedural.Procedures
import Scholia.Source.Survey
/-!
# What is cut out of a text

Which ranges of a source text are cut out while it is read: by a scanner, and by the walk over the
outline. Each list of ranges stands beside the step that cuts them; the lemmas called `_congr` say
that the step reads nothing else of the source, so the lists leave nothing out.

Main statement (`Language.slices_fit`): **every range that is cut out is a part of the text**, it
runs forward between two cuts. It holds whether or not the text turns out to have an outline.
-/

namespace Scholia.Source

/-- The ranges that a state cuts out as it is carried over lexemes, up to the first fault. -/
def slicesOver {κ σ : Type} (step : σ → Nat → Lexeme κ → Except Fault σ)
    (cut : σ → Nat → Lexeme κ → List Span) : Nat → σ → List (Lexeme κ) → List Span
  | _, _, [] => []
  | offset, state, lexeme :: rest =>
    cut state offset lexeme ++
      match step state offset lexeme with
      | .ok state => slicesOver step cut (offset + Text.width lexeme.text) state rest
      | .error _ => []

/-- If each step cuts out parts of the text, so does a run. -/
theorem slicesOver_fit {κ σ : Type} {rule : Rule κ} {step : σ → Nat → Lexeme κ → Except Fault σ}
    {cut : σ → Nat → Lexeme κ → List Span} {initial : σ} {source : Text}
    (hcut : ∀ lexemes c r state lexeme rest,
      rule.Reaches step initial source lexemes (c :: r) state →
      rule.front c r = .found lexeme rest →
      ∀ span ∈ cut state (Text.width (Lexeme.textOf lexemes)) lexeme, span.Fits source) :
    ∀ span ∈ slicesOver step cut 0 initial (rule.lex source).lexemes, span.Fits source := by
  have key : ∀ s more rest, rule.Divides s more rest → ∀ lexemes state,
      rule.Reaches step initial source lexemes s state →
      ∀ span ∈ slicesOver step cut (Text.width (Lexeme.textOf lexemes)) state more,
        span.Fits source := by
    intro s more rest hd
    induction hd with
    | stop s =>
      intro lexemes state _ span hspan
      cases hspan
    | @take c r lexeme rest more s found _ ih =>
      intro lexemes state hr span hspan
      rcases List.mem_append.1 hspan with hspan | hspan
      · exact hcut lexemes c r state lexeme rest hr found span hspan
      · cases hs : step state (Text.width (Lexeme.textOf lexemes)) lexeme with
        | error fault =>
          rw [hs] at hspan
          cases hspan
        | ok state' =>
          rw [hs] at hspan
          refine ih (lexemes ++ [lexeme]) state' (hr.next found hs) span ?_
          simpa using hspan
  obtain ⟨rest, hd, -⟩ := rule.lexFrom_divides 0 source
  exact key source _ rest hd [] initial .start

/-- The rest of a text is looked at where a lexeme starts. -/
theorem Rule.Reaches.rest_fits {κ σ : Type} {rule : Rule κ}
    {step : σ → Nat → Lexeme κ → Except Fault σ} {initial state : σ} {source rest : Text}
    {lexemes : List (Lexeme κ)} (h : rule.Reaches step initial source lexemes rest state) :
    Span.Fits source ⟨Text.width (Lexeme.textOf lexemes), Text.width source⟩ :=
  ⟨h.isCut.le_width, h.isCut, .full source⟩

/-! ## Brace languages -/

namespace Braced

/-- What is cut out at a lexeme: the rest of the text, the header of a brace, and the gap before a
comment line. -/
def State.slices (dialect : Dialect) (source : Text) (s : State) (offset : Nat)
    (lexeme : Lexeme Kind) : List Span :=
  ⟨offset, Text.width source⟩ ::
    match lexeme.kind with
    | .openBrace => if s.parens > 0 then [] else [⟨s.header.getD offset, offset⟩]
    | .lineComment =>
      if dialect = .cSharp && isDocLine lexeme.text then
        s.run.toList.map fun run => ⟨run.stop, offset⟩
      else []
    | _ => []

/-- One lexeme reads nothing of the source but what it cuts out. -/
theorem State.step_congr {dialect : Dialect} {source source' : Text} {s : State} {offset : Nat}
    {lexeme : Lexeme Kind}
    (h : ∀ span ∈ s.slices dialect source offset lexeme, span.of source = span.of source') :
    s.step dialect source offset lexeme = s.step dialect source' offset lexeme := by
  unfold State.slices at h
  unfold State.step
  cases hk : lexeme.kind with
  | lineComment =>
    simp only [hk] at h ⊢
    split
    · next hd =>
      rw [if_pos hd] at h
      unfold State.extendRun
      cases hr : s.run with
      | none => rfl
      | some run =>
        have hgap : Text.slice run.stop offset source = Text.slice run.stop offset source' :=
          h ⟨run.stop, offset⟩ (by simp [hr])
        simp only [hgap]
    · rfl
  | openBrace =>
    simp only [hk] at h ⊢
    unfold State.openBrace
    split
    · rfl
    · next hp =>
      have hheader : Text.slice (s.header.getD offset) offset source =
          Text.slice (s.header.getD offset) offset source' :=
        h ⟨s.header.getD offset, offset⟩ (by simp [hp])
      simp only [hheader]
  | _ => rfl

/-- The ranges that are cut out of a text by its scanner. -/
def slices (dialect : Dialect) (source : Text) : List Span :=
  slicesOver (State.step dialect source) (State.slices dialect source) 0 .initial
    ((rule dialect).lex source).lexemes

theorem slices_fit (dialect : Dialect) (source : Text) :
    ∀ span ∈ slices dialect source, span.Fits source := by
  refine slicesOver_fit ?_
  intro lexemes c r s lexeme rest hr _ span hspan
  have hsound := State.Sound.of_reached hr
  unfold State.slices at hspan
  rcases List.mem_cons.1 hspan with rfl | hspan
  · exact hr.rest_fits
  cases hk : lexeme.kind with
  | openBrace =>
    simp only [hk] at hspan
    split at hspan
    · cases hspan
    · rw [List.mem_singleton.1 hspan]
      cases hh : s.header with
      | none => exact ⟨Nat.le_refl _, hr.isCut, hr.isCut⟩
      | some b =>
        obtain ⟨t, first, hplace, -⟩ := hsound.header b hh
        exact ⟨hplace.place.le, hplace.place.isCut, hr.isCut⟩
  | lineComment =>
    simp only [hk] at hspan
    split at hspan
    · obtain ⟨run, hrun, rfl⟩ := List.mem_map.1 hspan
      obtain ⟨before, comment, after, hlex, -, hstop, -⟩ := hsound.run run (by simpa using hrun)
      refine ⟨?_, ?_, hr.isCut⟩
      · rw [hstop, hlex, ← List.append_assoc, Lexeme.textOf_append (before ++ comment),
          Text.width_append]
        exact Nat.le_add_right _ _
      · rw [hstop, hr.text, hlex, ← List.append_assoc before,
          Lexeme.textOf_append (before ++ comment), List.append_assoc]
        exact Text.IsCut.of_append _ _
    · cases hspan
  | _ =>
    simp only [hk] at hspan
    cases hspan

end Braced

/-! ## The indented language -/

namespace Indented

/-- What is cut out at a logical line: the line, a header up to its colon, and for a header without
one all that stands before it. -/
def LogicalLine.slices (source : Text) (line : LogicalLine) : List Span :=
  line.span ::
    match Header.ofLine? (line.span.of source), line.colon with
    | none, _ => []
    | some _, some colon => [⟨line.start, colon⟩]
    | some _, none => [⟨0, line.start⟩]

/-- One logical line reads nothing of the source but what it cuts out. -/
theorem BlockState.step_congr {source source' : Text} {s : BlockState} {line : LogicalLine}
    (h : ∀ span ∈ line.slices source, span.of source = span.of source') :
    s.step source line = s.step source' line := by
  have hline : line.span.of source = line.span.of source' := h _ List.mem_cons_self
  unfold LogicalLine.slices at h
  simp only [Span.of, LogicalLine.span] at h hline
  unfold BlockState.step
  simp only [← hline]
  cases hheader : Header.ofLine? (Text.slice line.start line.stop source) with
  | none => rfl
  | some header =>
    cases hcolon : line.colon with
    | none =>
      have hbefore := h ⟨0, line.start⟩ (by simp [hheader, hcolon])
      simp only [Text.slice_zero] at hbefore
      simp only [Text.lineAt, hbefore]
    | some colon =>
      have hsignature := h ⟨line.start, colon⟩ (by simp [hheader, hcolon])
      simp only at hsignature
      simp only [hsignature]

/-- The ranges that are cut out of a text by its scanner. -/
def slices (source : Text) : List Span :=
  slicesOver LineState.step (fun _ offset _ => [⟨offset, Text.width source⟩]) 0 .initial
      (rule.lex source).lexemes ++
    match logicalLines source with
    | .ok lines => lines.flatMap (LogicalLine.slices source)
    | .error _ => []

theorem LogicalLine.Fits.slices_fit {source : Text} {line : LogicalLine} (h : line.Fits source) :
    ∀ span ∈ line.slices source, span.Fits source := by
  intro span hspan
  unfold LogicalLine.slices at hspan
  rcases List.mem_cons.1 hspan with rfl | hspan
  · exact h.span
  split at hspan
  · cases hspan
  · next header colon _ hcolon =>
    obtain ⟨hle, -, hcut, -⟩ := h.colon colon hcolon
    rw [List.mem_singleton.1 hspan]
    exact ⟨hle, h.span.start_cut, hcut⟩
  · rw [List.mem_singleton.1 hspan]
    exact ⟨Nat.zero_le _, .zero source, h.span.start_cut⟩

theorem slices_fit (source : Text) : ∀ span ∈ slices source, span.Fits source := by
  intro span hspan
  rcases List.mem_append.1 hspan with hspan | hspan
  · refine @slicesOver_fit _ _ rule _ _ _ _ ?_ span hspan
    intro lexemes c r s lexeme rest hr _ span hspan
    rw [List.mem_singleton.1 hspan]
    exact hr.rest_fits
  · cases hl : logicalLines source with
    | error fault =>
      rw [hl] at hspan
      cases hspan
    | ok lines =>
      rw [hl] at hspan
      obtain ⟨line, hline, hspan⟩ := List.mem_flatMap.1 hspan
      exact ((logicalLines_fit hl).1 line hline).slices_fit span hspan

end Indented

/-! ## The walk -/

/-- What is cut out when the walk enters a node: the gap between a routine and a comment that could
be its own. -/
def Walk.slices (attachment : Attachment) (w : Walk) (node : Node) : List Span :=
  match node.kind, attachment with
  | .routine .., .preceding =>
    if Scope.inBody w.scopes then []
    else (w.pending.filter (·.stop ≤ node.span.start)).toList.map fun c =>
      ⟨c.stop, node.span.start⟩
  | .doc, .firstStatement =>
    match w.scopes with
    | .routine _ _ _ b none :: _ => if b ≤ node.span.start then [⟨b, node.span.start⟩] else []
    | _ => []
  | _, _ => []

/-- Entering a node reads nothing of the source but what it cuts out. -/
theorem Walk.enter_congr {source source' : Text} {attachment : Attachment} {w : Walk} {node : Node}
    (h : ∀ span ∈ w.slices attachment node, span.of source = span.of source') :
    w.enter source attachment node = w.enter source' attachment node := by
  obtain ⟨kind, signature, span⟩ := node
  unfold Walk.slices at h
  unfold Walk.enter
  cases kind with
  | typeDecl name => rfl
  | doc =>
    cases attachment with
    | preceding => rfl
    | firstStatement =>
      cases hs : w.scopes with
      | nil => rfl
      | cons scope outer =>
        cases scope with
        | typeDecl stop => rfl
        | inner stop => rfl
        | routine name signature' span' b comment =>
          cases comment with
          | some c => rfl
          | none =>
            simp only [hs] at h
            have hfirst : isFirstStatement source b span.start =
                isFirstStatement source' b span.start := by
              unfold isFirstStatement
              by_cases hb : b ≤ span.start
              · have hgap : Text.slice b span.start source = Text.slice b span.start source' :=
                  h ⟨b, span.start⟩ (by simp [hb])
                rw [hgap]
              · simp [hb]
            simp only [Scope.withLiteral, hfirst]
  | routine name b =>
    cases attachment with
    | firstStatement => rfl
    | preceding =>
      cases hin : Scope.inBody w.scopes with
      | true => simp only [hin, if_true]
      | false =>
        simp only [hin] at h ⊢
        cases hp : w.pending with
        | none => rfl
        | some c =>
          have hadj : isAdjacent source c.stop span.start = isAdjacent source' c.stop span.start := by
            unfold isAdjacent
            by_cases hc : c.stop ≤ span.start
            · have hgap : Text.slice c.stop span.start source =
                  Text.slice c.stop span.start source' :=
                h ⟨c.stop, span.start⟩ (by simp [hp, Option.filter, hc])
              rw [hgap]
            · simp [hc]
          simp only [Option.filter, hadj]

/-- What is cut out of the source as the walk goes on over nodes. -/
def Walk.slicesOver (source : Text) (attachment : Attachment) : Walk → List Node → List Span
  | _, [] => []
  | w, node :: rest =>
    (w.close source fun scope => scope.stop ≤ node.span.start).slices attachment node ++
      Walk.slicesOver source attachment (w.step source attachment node) rest

theorem Walk.Sound.slices_fit {o : Outline} {attachment : Attachment} {pos : Nat} {w : Walk}
    (h : w.Sound o attachment pos) (hn : ∀ n ∈ o.nodes, n.Fits o.source) {node : Node}
    (hnode : node ∈ o.nodes) : ∀ span ∈ w.slices attachment node, span.Fits o.source := by
  intro span hspan
  unfold Walk.slices at hspan
  split at hspan
  · split at hspan
    · cases hspan
    · obtain ⟨c, hc, rfl⟩ := List.mem_map.1 hspan
      obtain ⟨hp, hle⟩ := Option.filter_eq_some_iff.1 (Option.mem_toList.1 hc)
      obtain ⟨-, ⟨d, hd, -, rfl⟩, -⟩ := h.pending c hp
      exact ⟨by simpa using hle, (hn d hd).span.stop_cut, (hn node hnode).span.start_cut⟩
  · split at hspan
    · next name signature span' b outer hs =>
      split at hspan
      · next hle =>
        rw [List.mem_singleton.1 hspan]
        have hopen := h.opened name signature span' b none (hs ▸ List.mem_cons_self)
        exact ⟨hle, ((hn _ hopen).body name b rfl).2.2, (hn node hnode).span.start_cut⟩
      · cases hspan
    · cases hspan
  · cases hspan

/-- **The walk cuts out parts of the text**. -/
theorem Outline.Fits.slices_fit {o : Outline} (h : o.Fits) (attachment : Attachment) :
    ∀ span ∈ Walk.slicesOver o.source attachment ⟨[], none, [], []⟩ o.nodes,
      span.Fits o.source := by
  have key : ∀ nodes : List Node, (∀ n ∈ nodes, n ∈ o.nodes) →
      nodes.Pairwise (fun m n => m.span.start ≤ n.span.start) → ∀ pos w,
      (∀ n ∈ nodes, pos ≤ n.span.start) → Walk.Sound o attachment pos w →
      ∀ span ∈ Walk.slicesOver o.source attachment w nodes, span.Fits o.source := by
    intro nodes
    induction nodes with
    | nil =>
      intro _ _ pos w _ _ span hspan
      cases hspan
    | cons node rest ih =>
      intro hsub hsorted pos w hpos hw span hspan
      have hnode := hsub node List.mem_cons_self
      have hle := hpos node List.mem_cons_self
      rw [List.pairwise_cons] at hsorted
      rcases List.mem_append.1 hspan with hspan | hspan
      · exact (hw.close h.nodes hle).slices_fit h.nodes hnode span hspan
      · exact ih (fun n hn => hsub n (List.mem_cons_of_mem _ hn)) hsorted.2 _ _ hsorted.1
          (hw.step h.nodes hnode hle) span hspan
  exact key o.nodes (fun _ hn => hn) h.sorted 0 _ (fun _ _ => Nat.zero_le _)
    (Walk.Sound.initial o attachment)

end Scholia.Source

namespace Scholia

open Source

/-- **The outline of every language is in place**. -/
theorem Language.outline_fits {language : Language} {source : Text} {o : Outline}
    (h : language.outline source = .ok o) : o.source = source ∧ o.Fits := by
  cases language with
  | python => exact Indented.outline_fits h
  | java => exact Braced.outline_fits h
  | cSharp => exact Braced.outline_fits h
  | visualBasic => exact Procedural.outline_fits h

/-- The ranges that are cut out of a text by the scanner of a language; in the procedural language
its lines. -/
def Language.scanSlices : Language → Text → List Span
  | python, source => Indented.slices source
  | java, source => Braced.slices .java source
  | cSharp, source => Braced.slices .cSharp source
  | visualBasic, source => (Procedural.physicalLines source).map Procedural.PhysicalLine.span

/-- The ranges that are cut out of a text by the scanner and by the walk. -/
def Language.slices (language : Language) (source : Text) : List Span :=
  language.scanSlices source ++
    match language.outline source with
    | .ok o => Walk.slicesOver source language.attachment ⟨[], none, [], []⟩ o.nodes
    | .error _ => []

/-- **Every range that is cut out of a text is a part of it**. -/
theorem Language.slices_fit (language : Language) (source : Text) :
    ∀ span ∈ language.slices source, span.Fits source := by
  intro span hspan
  rcases List.mem_append.1 hspan with hspan | hspan
  · cases language with
    | python => exact Indented.slices_fit source span hspan
    | java => exact Braced.slices_fit .java source span hspan
    | cSharp => exact Braced.slices_fit .cSharp source span hspan
    | visualBasic => exact (Procedural.physicalLines_row source).fits span hspan
  · cases ho : language.outline source with
    | error fault =>
      rw [ho] at hspan
      cases hspan
    | ok o =>
      rw [ho] at hspan
      obtain ⟨rfl, hfits⟩ := Language.outline_fits ho
      exact hfits.slices_fit language.attachment span hspan

end Scholia
