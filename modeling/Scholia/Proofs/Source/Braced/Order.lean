import Scholia.Proofs.Source.Braced.History
/-!
# The order of braces and declarations

Braces open one after the other, each header behind the brace around it. So what has been declared
inside a type starts behind the type, what had been declared before it ends before it, and a routine
holds no declaration: the outline of a brace language is flat.
-/

namespace Scholia.Source.Braced

variable {dialect : Dialect} {source rest : Text} {lexemes : List (Lexeme Kind)} {s s' : State}
  {lexeme : Lexeme Kind}

/-! ## What has been found -/

theorem State.found_flushRun (s : State) : s.flushRun.found = s.found := by
  unfold State.flushRun
  split
  · exact List.filter_cons_of_neg (by simp [Node.doc, Node.declares])
  · rfl

theorem State.found_extendRun (s : State) (line : Span) :
    (s.extendRun source line).found = s.found := by
  unfold State.extendRun
  split
  · split
    · rfl
    · exact s.found_flushRun
  · rfl

/-- Only a brace that closes ends a declaration. -/
theorem State.step_found {offset : Nat} (h : s.step dialect source offset lexeme = .ok s')
    (hk : lexeme.kind ≠ .closeBrace) : s'.found = s.found := by
  unfold State.step at h
  cases hl : lexeme.kind with
  | closeBrace => exact absurd hl hk
  | lineComment =>
    simp only [hl] at h
    split at h
    · cases h
      exact s.found_extendRun _
    · cases h
      rfl
  | blockComment =>
    simp only [hl] at h
    split at h
    · cases h
      exact List.filter_cons_of_neg (by simp [Node.doc, Node.declares])
    · cases h
      rfl
  | semicolon =>
    simp only [hl] at h
    split at h <;> cases h <;> rfl
  | openBrace =>
    simp only [hl] at h
    cases h
    unfold State.openBrace
    split <;> rfl
  | blank | literal | code | openParen | closeParen =>
    simp only [hl] at h
    cases h
    rfl

/-- What has been found ends no later than what has been read. -/
theorem found_stop_le (h : Reached dialect source lexemes rest s) {n : Node} (hn : n ∈ s.found) :
    n.span.stop ≤ Text.width (Lexeme.textOf lexemes) := by
  obtain ⟨hn, hd⟩ := List.mem_filter.1 hn
  obtain ⟨-, hk⟩ := (State.Sound.of_reached h).nodes n hn
  obtain ⟨kind, signature, span⟩ := n
  cases kind with
  | doc => cases hd
  | typeDecl name =>
    obtain ⟨t, t', -, hstop⟩ := hk
    exact hstop.le
  | routine name b =>
    obtain ⟨-, -, -, t, t', hframed⟩ := hk
    exact hframed.stop.le

/-- What had been found when a header began ends before it. -/
theorem Began.stop_le {byte : Nat} {outer : List OpenBrace} {found : List Node}
    (h : Began dialect source lexemes byte outer found) {n : Node} (hn : n ∈ found) :
    n.span.stop ≤ byte := by
  obtain ⟨t, first, ⟨before, after, rest, -, hr, rfl⟩, -, -, -, rfl⟩ := h
  exact found_stop_le hr hn

/-- How the places that the state remembers are ordered. -/
structure State.Ordered (lexemes : List (Lexeme Kind)) (s : State) : Prop where
  braces : ∀ b ∈ s.braces, b.brace < Text.width (Lexeme.textOf lexemes)
  ascending : s.braces.Pairwise fun inner outer => outer.brace < inner.start ∧
    ∀ h parens, inner.kind = .inline (some h) parens → outer.brace < h
  header : ∀ h, s.header = some h → ∀ b ∈ s.braces, b.brace < h
  types : ∀ b ∈ s.braces, (∃ name signature, b.kind = .typeDecl name signature) → ∀ n ∈ s.found,
    n.span.stop ≤ b.start ∨ b.start < n.span.start
  pos : ∀ n ∈ s.found, n.span.start < n.span.stop
  ends : s.found.Pairwise Node.Ends

namespace State.Ordered

theorem initial : State.Ordered [] .initial where
  braces := by simp [State.initial]
  ascending := .nil
  header := fun _ h => by cases h
  types := by simp [State.initial]
  pos := by simp [State.found, State.initial]
  ends := .nil

/-- Most lexemes leave braces and declarations; a header may begin with them. -/
theorem keep (h : s.Ordered lexemes) (hb : s'.braces = s.braces) (hf : s'.found = s.found)
    (hh : ∀ b, s'.header = some b → s.header = some b ∨ b = Text.width (Lexeme.textOf lexemes)) :
    s'.Ordered (lexemes ++ [lexeme]) := by
  refine ⟨fun b hmem => ?_, hb ▸ h.ascending, fun b hs b' hmem => ?_, ?_, hf ▸ h.pos, hf ▸ h.ends⟩
  · have := h.braces b (hb ▸ hmem)
    simp only [Lexeme.textOf_append, Text.width_append]
    omega
  · rw [hb] at hmem
    rcases hh b hs with hold | hnew
    · exact h.header b hold b' hmem
    · exact hnew ▸ h.braces b' hmem
  · rw [hb, hf]
    exact h.types

/-- A brace that opens stands behind all others. -/
theorem openBrace (h : s.Ordered lexemes) (hr : Reached dialect source lexemes rest s)
    (hpos : 0 < Text.width lexeme.text) :
    (s.openBrace dialect source (Text.width (Lexeme.textOf lexemes))).Ordered
      (lexemes ++ [lexeme]) := by
  have hsound := State.Sound.of_reached hr
  have hstart : ∀ b ∈ s.braces,
      b.brace < s.header.getD (Text.width (Lexeme.textOf lexemes)) := by
    intro b hb
    cases hh : s.header with
    | none => exact h.braces b hb
    | some b' => exact h.header b' hh b hb
  have hbefore : ∀ n ∈ s.found,
      n.span.stop ≤ s.header.getD (Text.width (Lexeme.textOf lexemes)) := by
    intro n hn
    cases hh : s.header with
    | none => exact found_stop_le hr hn
    | some b => exact (hsound.header b hh).stop_le hn
  have hbraces : ∀ b ∈ s.braces, b.brace < Text.width (Lexeme.textOf (lexemes ++ [lexeme])) := by
    intro b hb
    have := h.braces b hb
    simp only [Lexeme.textOf_append, Text.width_append]
    omega
  have hwidth : Text.width (Lexeme.textOf lexemes) <
      Text.width (Lexeme.textOf (lexemes ++ [lexeme])) := by
    simp only [Lexeme.textOf_append, Text.width_append, Lexeme.textOf_cons, Lexeme.textOf_nil,
      Text.width_nil]
    omega
  unfold State.openBrace
  split
  · refine ⟨List.forall_mem_cons.2 ⟨hwidth, hbraces⟩,
      List.pairwise_cons.2 ⟨fun b hb => ⟨h.braces b hb, fun b' parens hk => ?_⟩, h.ascending⟩,
      (fun _ hh => by cases hh), List.forall_mem_cons.2 ⟨?_, h.types⟩, h.pos, h.ends⟩
    · exact h.header b' (BraceKind.inline.inj hk).1 b hb
    · rintro ⟨name, signature, hk⟩
      cases hk
  · refine ⟨List.forall_mem_cons.2 ⟨hwidth, hbraces⟩,
      List.pairwise_cons.2 ⟨fun b hb => ⟨hstart b hb, fun b' parens hk => ?_⟩, h.ascending⟩,
      (fun _ hh => by cases hh), List.forall_mem_cons.2 ⟨fun _ n hn => .inl (hbefore n hn), h.types⟩,
      h.pos, h.ends⟩
    simp only at hk
    split at hk
    · generalize Header.ofText _ _ = header at hk
      cases header <;> cases hk
    · cases hk

/-- A brace that closes may end a declaration. -/
theorem closeBrace (h : s.Ordered lexemes) (hr : Reached dialect source lexemes rest s)
    (hs : s.closeBrace? (Text.width (Lexeme.textOf lexemes)) = some s') :
    s'.Ordered (lexemes ++ [lexeme]) := by
  have hsound := State.Sound.of_reached hr
  unfold State.closeBrace? at hs
  split at hs
  · cases hs
  next inner outer hbraces =>
  have hnested := hsound.nested
  have hascending := h.ascending
  rw [hbraces] at hnested hascending
  obtain ⟨hinner, hascending⟩ := List.pairwise_cons.1 hascending
  obtain ⟨⟨hle, -, hkind⟩, houter⟩ := hnested
  have hmem : ∀ b ∈ outer, b ∈ s.braces := fun b hb => hbraces ▸ List.mem_cons_of_mem _ hb
  have hbrace : inner.brace < Text.width (Lexeme.textOf lexemes) :=
    h.braces inner (hbraces ▸ List.mem_cons_self)
  have hwidth : ∀ b ∈ outer, b.brace < Text.width (Lexeme.textOf (lexemes ++ [lexeme])) := by
    intro b hb
    have := h.braces b (hmem b hb)
    simp only [Lexeme.textOf_append, Text.width_append]
    omega
  have houterStart : ∀ b ∈ outer, b.start ≤ b.brace := by
    have : ∀ (found : List Node) (braces : List OpenBrace),
        Nested dialect source lexemes found braces → ∀ b ∈ braces, b.start ≤ b.brace := by
      intro found braces hn
      induction braces with
      | nil => simp
      | cons b more ih => exact List.forall_mem_cons.2 ⟨hn.1.1, ih hn.2⟩
    exact this _ outer houter
  -- a declaration that ends here starts behind the braces around it
  have hdeclare : ∀ n : Node, n.declares = true → n.span.start = inner.start →
      n.span.stop = Text.width (Lexeme.textOf lexemes) + 1 → (∀ m ∈ s.found, n.Ends m) →
      State.Ordered (lexemes ++ [lexeme]) ⟨none, 0, outer, n :: s.nodes, s.run⟩ := by
    intro n hd hstart hstop hends
    have hfound : State.found ⟨none, 0, outer, n :: s.nodes, s.run⟩ = n :: s.found :=
      List.filter_cons_of_pos hd
    refine ⟨hwidth, hascending, (fun _ hh => by cases hh), fun b hb hk => ?_, ?_, ?_⟩
    · rw [hfound]
      refine List.forall_mem_cons.2 ⟨.inr ?_, h.types b (hmem b hb) hk⟩
      have := (hinner b hb).1
      have := houterStart b hb
      omega
    · rw [hfound]
      exact List.forall_mem_cons.2 ⟨by omega, h.pos⟩
    · rw [hfound]
      exact List.pairwise_cons.2 ⟨hends, h.ends⟩
  have hleave : ∀ header parens, (∀ b, header = some b → ∀ o ∈ outer, o.brace < b) →
      State.Ordered (lexemes ++ [lexeme]) ⟨header, parens, outer, s.nodes, s.run⟩ :=
    fun header parens hheader =>
    ⟨hwidth, hascending, hheader, fun b hb => h.types b (hmem b hb), h.pos, h.ends⟩
  cases hk : inner.kind with
  | inline header parens =>
    simp only [hk] at hs
    cases hs
    refine hleave header parens fun b hb o ho => ?_
    exact (hinner o ho).2 b parens (by rw [hk, hb])
  | package =>
    simp only [hk] at hs
    cases hs
    exact hleave none 0 fun _ hh => by cases hh
  | block =>
    simp only [hk] at hs
    cases hs
    exact hleave none 0 fun _ hh => by cases hh
  | typeDecl name signature =>
    simp only [hk] at hs
    cases hs
    refine hdeclare _ rfl rfl rfl fun m hm => ?_
    rcases h.types inner (hbraces ▸ List.mem_cons_self) ⟨name, signature, hk⟩ m hm with hle | hlt
    · exact .inl hle
    · exact .inr ⟨rfl, hlt⟩
  | routine name signature =>
    simp only [hk] at hs hkind
    cases hs
    exact hdeclare _ rfl rfl rfl fun m hm => .inl (hkind.2.stop_le hm)

/-- **Every lexeme keeps the order**. -/
theorem next {c : Char} {r : Text} (h : s.Ordered lexemes)
    (hr : Reached dialect source lexemes (c :: r) s)
    (hf : (rule dialect).front c r = .found lexeme rest)
    (hs : s.step dialect source (Text.width (Lexeme.textOf lexemes)) lexeme = .ok s') :
    s'.Ordered (lexemes ++ [lexeme]) := by
  have hpos : 0 < Text.width lexeme.text :=
    Rule.Divides.width_pos (.take hf (.stop rest)) List.mem_cons_self
  have hmark : ∀ b, (s.mark (Text.width (Lexeme.textOf lexemes))).header = some b →
      s.header = some b ∨ b = Text.width (Lexeme.textOf lexemes) := by
    intro b hb
    cases hh : s.header with
    | none =>
      simp only [State.mark, hh, Option.getD_none, Option.some.injEq] at hb
      exact .inr hb.symm
    | some b' =>
      simp only [State.mark, hh, Option.getD_some, Option.some.injEq] at hb
      exact .inl (congrArg some hb)
  unfold State.step at hs
  cases hk : lexeme.kind with
  | lineComment =>
    simp only [hk] at hs
    split at hs
    · cases hs
      have hrun : ∀ line, (s.extendRun source line).braces = s.braces ∧
          (s.extendRun source line).header = s.header := by
        intro line
        unfold State.extendRun State.flushRun
        repeat' split
        all_goals exact ⟨rfl, rfl⟩
      obtain ⟨hb, hheader⟩ := hrun ⟨Text.width (Lexeme.textOf lexemes),
        Text.width (Lexeme.textOf lexemes) + Text.width lexeme.text⟩
      exact h.keep hb (s.found_extendRun _) fun b hb => .inl (hheader ▸ hb)
    · cases hs
      exact h.keep rfl rfl fun _ => .inl
  | blockComment =>
    simp only [hk] at hs
    split at hs
    · cases hs
      refine h.keep rfl ?_ fun _ => .inl
      exact List.filter_cons_of_neg (by simp [Node.doc, Node.declares])
    · cases hs
      exact h.keep rfl rfl fun _ => .inl
  | blank =>
    simp only [hk] at hs
    cases hs
    exact h.keep rfl rfl fun _ => .inl
  | closeParen =>
    simp only [hk] at hs
    cases hs
    exact h.keep rfl rfl fun _ => .inl
  | semicolon =>
    simp only [hk] at hs
    split at hs
    · cases hs
      exact h.keep rfl rfl fun _ hh => by cases hh
    · cases hs
      exact h.keep rfl rfl fun _ => .inl
  | literal =>
    simp only [hk] at hs
    cases hs
    exact h.keep rfl rfl hmark
  | code =>
    simp only [hk] at hs
    cases hs
    exact h.keep rfl rfl hmark
  | openParen =>
    simp only [hk] at hs
    cases hs
    exact h.keep rfl rfl hmark
  | openBrace =>
    simp only [hk] at hs
    cases hs
    exact h.openBrace hr hpos
  | closeBrace =>
    simp only [hk] at hs
    split at hs
    · next t ht =>
      cases hs
      exact h.closeBrace hr ht
    · cases hs

theorem of_reached (h : Reached dialect source lexemes rest s) : s.Ordered lexemes :=
  h.induct (I := fun lexemes _ s => s.Ordered lexemes) .initial
    (fun _ _ _ _ _ _ _ hr hI hf hs => hI.next hr hf hs)

end State.Ordered

/-- **The outline of a brace language is flat**: no declaration stands inside a routine. -/
theorem outline_flat {o : Outline} (h : outline dialect source = .ok o) : o.Flat := by
  obtain ⟨lexemes, s, hr, -, rfl, hrec⟩ := outline_reached h
  have hordered := State.Ordered.of_reached hr
  have hflush : s.flushRun.nodes.filter Node.declares = s.found := s.found_flushRun
  refine Outline.ofNodes_flat (hflush ▸ hordered.pos) (hflush ▸ hordered.ends) fun n hn => ?_
  refine (hrec n ?_).fits ⟨[], hr.text.symm⟩
  simpa [Outline.ofNodes, List.mem_mergeSort] using hn

end Scholia.Source.Braced
