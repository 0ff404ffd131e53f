import Scholia.Proofs.Source.Braced.Alike
/-!
# A routine on its own

Between the two places of a routine the braces that are open around it are never closed, for they
are still open behind it and a brace that opens again stands elsewhere. So the shapes between the
two places run on top of that base, and would run without it: the lexemes of a routine declare it on
their own (`routine_alone`).
-/

namespace Scholia.Source.Braced

open Text (Reflow isLayout)

variable {dialect : Dialect} {source rest : Text} {lexemes : List (Lexeme Kind)} {s s' : State}
  {lexeme : Lexeme Kind} {offset : Nat}

/-! ## The braces around -/

/-- A lexeme leaves the braces that are open, puts one on them that stands where it stands, or takes
one off. -/
theorem State.step_braces (h : s.step dialect source offset lexeme = .ok s') :
    s'.braces = s.braces ∨ (∃ b, s'.braces = b :: s.braces ∧ b.brace = offset) ∨
      ∃ b, s.braces = b :: s'.braces := by
  cases hk : lexeme.kind with
  | openBrace =>
    simp only [State.step, hk] at h
    cases h
    refine .inr (.inl ?_)
    unfold State.openBrace
    split
    · exact ⟨_, rfl, rfl⟩
    · exact ⟨_, rfl, rfl⟩
  | closeBrace =>
    obtain ⟨b, hb, -⟩ := State.step_closeBrace h hk
    exact .inr (.inr ⟨b, hb⟩)
  | literal | code | openParen | closeParen | semicolon | lineComment | blockComment | blank =>
    exact .inl (State.step_frame h (by rw [hk]; rfl)).1

/-- **Braces that are open at the end and were opened before have been open all the time**. -/
theorem run_braces_suffix (hrun : runLexemes (State.step dialect source) offset s lexemes = .ok s')
    (h : ∀ b ∈ s'.braces, b.brace < offset) : s'.braces <:+ s.braces := by
  induction lexemes generalizing s offset with
  | nil =>
    cases hrun
    exact List.suffix_refl _
  | cons l ls ih =>
    obtain ⟨t, hstep, hrest⟩ := runLexemes_cons_ok hrun
    have hsuffix := ih hrest fun b hb => Nat.lt_of_lt_of_le (h b hb) (Nat.le_add_right _ _)
    rcases State.step_braces hstep with hsame | ⟨b, hopen, hb⟩ | ⟨b, hclose⟩
    · exact hsame ▸ hsuffix
    · rw [hopen, List.suffix_cons_iff] at hsuffix
      rcases hsuffix with hall | hsuffix
      · -- the brace that opens here was not open before
        have := h b (hall ▸ List.mem_cons_self)
        omega
      · exact hsuffix
    · rw [hclose]
      exact List.suffix_cons_iff.2 (.inr hsuffix)

/-! ## Shapes without what is open below -/

namespace Shape

variable {u x : Shape} {base : List Frame} {declared : List Declared}

/-- What is open below can be told apart from what is open above. -/
theorem atop_inj (h : u.atop base = x.atop base) : u = x := by
  cases u
  cases x
  simp only [atop, mk.injEq, List.append_cancel_right_eq] at h
  rw [mk.injEq]
  exact h

theorem closeBrace?_length (h : u.closeBrace? = some (x, declared)) :
    u.frames.length = x.frames.length + 1 := by
  unfold closeBrace? at h
  split at h
  · cases h
  all_goals
    next hframes =>
      cases h
      rw [hframes]
      rfl

/-- Only a brace that closes can fail, and only where nothing is open. -/
theorem of_step_eq_none (h : u.step dialect lexeme = none) :
    lexeme.kind = .closeBrace ∧ u.frames = [] := by
  have hnext := Option.map_eq_none_iff.1 h
  cases hk : lexeme.kind with
  | closeBrace =>
    rw [hk] at hnext
    have hclose : u.closeBrace? = none := hnext
    unfold closeBrace? at hclose
    split at hclose
    · next hframes => exact ⟨rfl, hframes⟩
    all_goals cases hclose
  | literal | code | openParen | closeParen | semicolon | openBrace | lineComment | blockComment
    | blank =>
    rw [hk] at hnext
    cases hnext

/-- **A lexeme that leaves what is open below does the same without it**. -/
theorem of_step_atop (hb : ∀ f ∈ base, f.holdsDeclarations = true)
    (h : (u.atop base).step dialect lexeme = some (x, declared))
    (hlength : base.length ≤ x.frames.length) :
    ∃ t, u.step dialect lexeme = some (t, declared) ∧ x = t.atop base := by
  cases hs : u.step dialect lexeme with
  | some result =>
    obtain ⟨t, d⟩ := result
    have hatop := step_atop hb hs
    rw [h] at hatop
    cases hatop
    exact ⟨t, rfl, rfl⟩
  | none =>
    obtain ⟨hk, hnil⟩ := of_step_eq_none hs
    obtain ⟨⟨y, d⟩, hnext, he⟩ := Option.map_eq_some_iff.1 h
    rw [hk] at hnext
    have hclose : base.length = y.frames.length + 1 := by
      have := closeBrace?_length hnext
      rwa [atop, hnil, List.nil_append] at this
    cases he
    rw [extend, List.length_map] at hlength
    omega

end Shape

/-- **Lexemes that leave the braces around them run without these**. -/
theorem run_alone {base : List Frame} (hb : ∀ f ∈ base, f.holdsDeclarations = true)
    {before more : List (Lexeme Kind)} {rest' : Text} (hr : Reached dialect source before rest s)
    (hd : (rule dialect).Divides rest more rest')
    (hrun : runLexemes (State.step dialect source) (Text.width (Lexeme.textOf before)) s more =
      .ok s')
    (hbraces : ∀ b ∈ s'.braces, b.brace < Text.width (Lexeme.textOf before))
    (hbase : base.length = s'.braces.length) {u : Shape}
    (hu : s.shape source (Text.width (Lexeme.textOf before)) = u.atop base) :
    ∃ t d, u.run dialect more = some (t, d) ∧
      s'.shape source (Text.width (Lexeme.textOf (before ++ more))) = t.atop base ∧
      s'.declared = s.declared ++ d := by
  induction hd generalizing before s u with
  | stop rest =>
    cases hrun
    rw [List.append_nil]
    exact ⟨u, [], rfl, hu, (List.append_nil _).symm⟩
  | @take c r lexeme rest more last found _ ih =>
    have htext : c :: r = lexeme.text ++ rest := ((rule dialect).keeps c r lexeme rest found).symm
    have hwidth : Text.width (Lexeme.textOf before) + Text.width lexeme.text =
        Text.width (Lexeme.textOf (before ++ [lexeme])) := by
      simp
    obtain ⟨t, hstep, hmore⟩ := runLexemes_cons_ok hrun
    rw [hwidth] at hmore
    have hbraces' : ∀ b ∈ s'.braces, b.brace < Text.width (Lexeme.textOf (before ++ [lexeme])) :=
      fun b hb => hwidth ▸ Nat.lt_of_lt_of_le (hbraces b hb) (Nat.le_add_right _ _)
    obtain ⟨first, hfirst, hdeclared⟩ :=
      ((State.Sound.of_reached hr).shape_step (htext ▸ hr)).1 t hstep
    have hlength : base.length ≤ t.braces.length :=
      hbase ▸ (run_braces_suffix hmore hbraces').length_le
    rw [hu] at hfirst
    obtain ⟨v, hv, hshape⟩ := Shape.of_step_atop hb hfirst (by simpa [State.shape] using hlength)
    obtain ⟨y, d, hy, hlast, hdeclared'⟩ := ih (hr.next found hstep) hmore hbraces' hshape
    refine ⟨y, first ++ d, Shape.run_cons.2 ⟨v, first, d, hv, hy, rfl⟩, ?_, ?_⟩
    · rw [List.append_cons]
      exact hlast
    · rw [hdeclared', hdeclared, List.append_assoc]

/-! ## A routine -/

/-- A lexeme that closes a brace is a brace. -/
theorem text_closeBrace (h : (rule dialect).Divides source lexemes rest) (hl : lexeme ∈ lexemes)
    (hk : lexeme.kind = .closeBrace) : lexeme.text = ['\x7d'] := by
  obtain ⟨c, r, rest', found⟩ := h.found_of_mem hl
  rcases front_cases found with hc | ⟨rfl, -⟩
  · simp [hk] at hc
  · rw [eq_of_ofChar_closeBrace hk]

/-- What has been declared follows from what has been found. -/
theorem State.declared_of_found {n : Node} {d : Declared} (h : s'.found = n :: s.found)
    (hn : n.declared? = some d) : s'.declared = s.declared ++ [d] := by
  have hfound : ∀ t : State, t.declared = (t.found.filterMap Node.declared?).reverse := by
    intro t
    rw [State.declared, State.found, List.filterMap_filter]
    refine congrArg (fun f => (t.nodes.filterMap f).reverse) (funext fun m => ?_)
    unfold Node.declares Node.declared?
    cases m.kind <;> rfl
  rw [hfound, hfound, h, List.filterMap_cons_some hn, List.reverse_cons]

/-- A declaration ends with a brace. -/
theorem closeBrace_last {before inner : List (Lexeme Kind)} {n : Node}
    (hs : Reached dialect source before (Lexeme.textOf inner ++ rest) s)
    (hs' : Reached dialect source (before ++ inner) rest s') (hfound : s'.found = n :: s.found)
    (hstop : n.span.stop = Text.width (Lexeme.textOf (before ++ inner))) :
    ∃ init last, inner = init ++ [last] ∧ last.kind = .closeBrace := by
  rcases List.eq_nil_or_concat inner with rfl | ⟨init, last, rfl⟩
  · rw [List.append_nil] at hs'
    have hsame : s = s' := Except.ok.inj (hs.runs.symm.trans hs'.runs)
    have hlength := congrArg List.length (hsame ▸ hfound)
    simp at hlength
  · rw [List.concat_eq_append] at *
    refine ⟨init, last, rfl, ?_⟩
    by_cases hk : last.kind = .closeBrace
    · exact hk
    exfalso
    rw [← List.append_assoc] at hs' hstop
    obtain ⟨mid, t, ht, hd, hrun⟩ := hs'.split
    obtain ⟨t', hstep, hnil⟩ := runLexemes_cons_ok hrun
    cases hnil
    have hle := found_stop_le ht (State.step_found hstep hk ▸ hfound ▸ List.mem_cons_self : n ∈ t.found)
    have hpos := hd.width_pos List.mem_cons_self
    rw [hstop, Lexeme.textOf_append, Text.width_append, Lexeme.textOf_cons, Text.width_append] at hle
    omega

/-- **A routine stands on its own**: the text of its range is divided into lexemes that declare it
and nothing else, and leave nothing open. -/
theorem routine_alone {o : Outline} (h : outline dialect source = .ok o) {r : Routine}
    (hr : r.Stands o .preceding) :
    ∃ inner, (rule dialect).Divides (r.span.of source) inner [] ∧
      Shape.initial.run dialect inner = some (.initial, [⟨true, r.name, r.signature⟩]) ∧
      (∃ c text, r.span.of source = c :: text ∧ Text.isPlainBlank c = false) ∧
      (r.span.of source).getLast? = some '\x7d' := by
  obtain ⟨lexemes, last, hreach, -, -, hrec⟩ := outline_reached h
  obtain ⟨b, hmem, -, -⟩ := hr.node
  obtain ⟨hle, -, -, -, s, s', hframed⟩ := hrec _ hmem
  obtain ⟨before, inner, more, base, hlex, henclosed, hstart, hstop⟩ :=
    hframed.enclosed hreach rfl hle
  have hspan : r.span.of source = Lexeme.textOf inner := by
    have htext := hreach.text
    rw [hlex, Lexeme.textOf_append, Lexeme.textOf_append, List.append_assoc, List.append_assoc]
      at htext
    rw [Span.of, show r.span.start = _ from hstart, show r.span.stop = _ from hstop, htext,
      Lexeme.textOf_append, Text.width_append, Text.slice_middle]
  obtain ⟨mid, t, ht, hdivides, hrun⟩ := henclosed.stop.reached.split
  have hsame : t = s := Except.ok.inj (ht.runs.symm.trans henclosed.start.reached.runs)
  subst hsame
  -- what runs on top of the braces around runs without them
  have hlength : base.length = s'.braces.length := by
    have hframes := congrArg (List.length ∘ Shape.frames) henclosed.stop.shape
    simpa [State.shape, Shape.atop, Shape.initial] using hframes.symm
  obtain ⟨u, d, hu, hatop, hdeclared⟩ := run_alone henclosed.start.holds ht hdivides hrun
    (hframed.braces ▸ (State.Ordered.of_reached ht).braces) hlength henclosed.start.shape
  have hinitial : u = .initial :=
    (Shape.atop_inj (henclosed.stop.shape.symm.trans hatop)).symm
  have hd : d = [⟨true, r.name, r.signature⟩] :=
    List.append_cancel_left (hdeclared.symm.trans (State.declared_of_found hframed.found rfl))
  subst hinitial hd
  -- it ends with a brace, behind which anything may stand
  obtain ⟨init, final, hinner, hk⟩ :=
    closeBrace_last henclosed.start.reached henclosed.stop.reached hframed.found hstop
  have halone : (rule dialect).Divides (Lexeme.textOf inner ++ []) inner [] := by
    refine divides_behind hdivides fun l hl => .inl ?_
    rw [hinner, List.getLast?_concat] at hl
    cases hl
    rw [hk]
    rfl
  rw [List.append_nil] at halone
  refine ⟨inner, hspan ▸ halone, hu, hspan ▸ henclosed.first, ?_⟩
  have hfinal := text_closeBrace halone (hinner ▸ List.mem_append_right init List.mem_cons_self) hk
  rw [hspan, hinner, Lexeme.textOf_append, Lexeme.textOf_cons, hfinal, Lexeme.textOf_nil,
    List.append_nil, List.getLast?_concat]

/-! ## The text of a routine -/

/-- What stands in an outline and declares something has been declared. -/
theorem mem_declared {s : State} {n : Node} {d : Declared}
    (hn : n ∈ (Outline.ofNodes source s.flushRun.nodes.reverse).nodes) (hd : n.declared? = some d) :
    d ∈ s.declared := by
  have hmem : n ∈ s.flushRun.nodes := List.mem_reverse.1 (List.mem_mergeSort.1 hn)
  have hnodes : n ∈ s.nodes := by
    unfold State.flushRun at hmem
    split at hmem
    · rcases List.mem_cons.1 hmem with rfl | hmem
      · cases hd
      · exact hmem
    · exact hmem
  exact List.mem_reverse.2 (List.mem_filterMap.2 ⟨n, hnodes, hd⟩)

/-- **A text in which one routine is declared and nothing else** holds that routine and no type. -/
theorem survey_of_declared {o : Outline} {s : State} {name signature : Text}
    (h : outline dialect source = .ok o) (ho : o = .ofNodes source s.flushRun.nodes.reverse)
    (hdeclared : s.declared = [⟨true, name, signature⟩]) :
    ∃ r, o.survey .preceding = ([r], []) ∧ r.name = name ∧ r.signature = signature := by
  obtain ⟨-, hfits⟩ := outline_fits h
  have hlength : (o.survey .preceding).1.length = 1 := by
    rw [(outline_flat h).length_survey hfits, ho, countP_isRoutine, hdeclared]
    rfl
  obtain ⟨r, hroutines⟩ := List.length_eq_one_iff.1 hlength
  obtain ⟨b, hnode, -⟩ := (hfits.survey_stands .preceding r (hroutines ▸ List.mem_cons_self)).node
  have hr := mem_declared (ho ▸ hnode) rfl
  rw [hdeclared, List.mem_singleton] at hr
  cases hr
  have htypes : (o.survey .preceding).2 = [] := by
    refine List.eq_nil_iff_forall_not_mem.2 fun t ht => ?_
    obtain ⟨n, hn, hk, hs⟩ := o.survey_types .preceding t ht
    have ht := mem_declared (d := ⟨false, t.name, t.signature⟩) (ho ▸ hn) (by
      rw [Node.declared?, hk, hs])
    rw [hdeclared, List.mem_singleton] at ht
    cases ht
  exact ⟨r, Prod.ext hroutines htypes, rfl, rfl⟩

/-- **A routine is found in its own text**, behind some layout and with other margins. -/
theorem survey_alone {o : Outline} (h : outline dialect source = .ok o) {r : Routine}
    (hr : r.Stands o .preceding) {lead text : Text} (hlead : ∀ c ∈ lead, isLayout c = true)
    (hreflow : Reflow (lead ++ r.span.of source) text) :
    ∃ o', outline dialect text = .ok o' ∧
      ∃ r', o'.survey .preceding = ([r'], []) ∧ r'.name = r.name ∧ r'.signature = r.signature := by
  obtain ⟨inner, hd, hrun, -⟩ := routine_alone h hr
  have hrun' : Shape.initial.run dialect (Shape.blanks lead ++ inner) =
      some (.initial, [⟨true, r.name, r.signature⟩]) :=
    Shape.run_append.2 ⟨.initial, [], _, Shape.run_blanks .initial lead, hrun, rfl⟩
  obtain ⟨lexemes, τ, hd', hτ, halike⟩ :=
    runAlike_of_reflow hreflow (divides_blanks hlead hd) (.refl .initial) hrun'
  obtain ⟨o', s, ho', -, he, hdeclared⟩ :=
    outline_of_run hd' hτ (List.forall₂_nil_left_iff.1 halike.frames)
  exact ⟨o', ho', survey_of_declared ho' he hdeclared⟩

end Scholia.Source.Braced
