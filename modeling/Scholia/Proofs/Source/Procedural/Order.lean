import Scholia.Proofs.Source.Procedural.History
/-!
# The order of procedures and types

Procedures follow each other, and a type holds those that begin after it and end before it does. So
the outline of the procedural language is flat.
-/

namespace Scholia.Source.Procedural

variable {source : Text} {before : List PhysicalLine} {s s' : State} {line : PhysicalLine}

/-- A byte at which one of the lines starts that are not blank. -/
def StartsText (lines : List PhysicalLine) (byte : Nat) : Prop :=
  ∃ l ∈ lines, byte = l.start ∧ l.HasText

theorem StartsText.more {byte : Nat} (h : StartsText before byte) (line : PhysicalLine) :
    StartsText (before ++ [line]) byte := by
  obtain ⟨l, hl, hb⟩ := h
  exact ⟨l, List.mem_append_left _ hl, hb⟩

theorem StartsText.last (htext : line.HasText) : StartsText (before ++ [line]) line.start :=
  ⟨line, List.mem_append_right _ (List.mem_singleton_self line), rfl, htext⟩

/-- How the places that the state remembers are ordered. -/
structure State.Ordered (before : List PhysicalLine) (s : State) : Prop where
  begun : ∀ t ∈ s.types, StartsText before t.start
  descending : s.types.Pairwise fun inner outer => outer.start < inner.start
  types : ∀ t ∈ s.types, ∀ n ∈ s.found, n.span.stop ≤ t.start ∨ t.start < n.span.start
  procedure : ∀ p, s.procedure = some p → StartsText before p.start ∧
    (∀ n ∈ s.found, n.span.stop ≤ p.start) ∧ ∀ t ∈ s.types, t.start < p.start
  stops : ∀ n ∈ s.found, ∃ l ∈ before, n.span.stop = l.stop
  pos : ∀ n ∈ s.found, n.span.start < n.span.stop
  ends : s.found.Pairwise Node.Ends

/-- A line that follows the lines before it. -/
def Follows (before : List PhysicalLine) (line : PhysicalLine) : Prop :=
  ∀ l ∈ before, l.stop ≤ line.start

namespace State.Ordered

theorem initial : State.Ordered [] .initial where
  begun := by simp [State.initial]
  descending := .nil
  types := by simp [State.initial]
  procedure := fun _ h => by cases h
  stops := by simp [State.found, State.initial]
  pos := by simp [State.found, State.initial]
  ends := .nil

theorem keep (h : s.Ordered before) (ht : s'.types = s.types) (hf : s'.found = s.found)
    (hp : ∀ p', s'.procedure = some p' → ∃ p, s.procedure = some p ∧ p'.start = p.start) :
    s'.Ordered (before ++ [line]) := by
  refine ⟨fun t hmem => (h.begun t (ht ▸ hmem)).more line, ht ▸ h.descending, ?_, fun p' hp' => ?_,
    fun n hn => ?_, hf ▸ h.pos, hf ▸ h.ends⟩
  · rw [ht, hf]
    exact h.types
  · obtain ⟨p, hs, hstart⟩ := hp p' hp'
    obtain ⟨hbegun, hfound, htypes⟩ := h.procedure p hs
    rw [ht, hf, hstart]
    exact ⟨hbegun.more line, hfound, htypes⟩
  · obtain ⟨l, hl, hstop⟩ := h.stops n (hf ▸ hn)
    exact ⟨l, List.mem_append_left _ hl, hstop⟩

/-- What began at a line before this one began before it. -/
theorem start_lt {byte : Nat} (h : StartsText before byte) (hline : Follows before line) :
    byte < line.start := by
  obtain ⟨l, hl, rfl, htext⟩ := h
  exact Nat.lt_of_lt_of_le htext (hline l hl)

theorem stop_le (h : s.Ordered before) (hline : Follows before line) {n : Node}
    (hn : n ∈ s.found) : n.span.stop ≤ line.start := by
  obtain ⟨l, hl, hstop⟩ := h.stops n hn
  exact hstop ▸ hline l hl

/-- A declaration that ends at this line is put on the others. -/
theorem declare (h : s.Ordered before) (htext : line.HasText) (hline : Follows before line)
    {n : Node} (hstop : n.span.stop = line.stop) (hfound : s'.found = n :: s.found)
    (hstart : StartsText before n.span.start) (hends : ∀ m ∈ s.found, n.Ends m)
    (hsub : s'.types.Sublist s.types) (htypes : ∀ t ∈ s'.types, t.start < n.span.start)
    (hp : s'.procedure = none) : s'.Ordered (before ++ [line]) := by
  refine ⟨fun t ht => (h.begun t (hsub.subset ht)).more line, h.descending.sublist hsub,
    fun t ht => ?_, fun p he => ?_, ?_, ?_, ?_⟩
  · rw [hfound]
    exact List.forall_mem_cons.2 ⟨.inr (htypes t ht), h.types t (hsub.subset ht)⟩
  · rw [hp] at he
    cases he
  · rw [hfound]
    refine List.forall_mem_cons.2 ⟨⟨line, by simp, hstop⟩, fun m hm => ?_⟩
    obtain ⟨l, hl, hm⟩ := h.stops m hm
    exact ⟨l, List.mem_append_left _ hl, hm⟩
  · rw [hfound]
    refine List.forall_mem_cons.2 ⟨?_, h.pos⟩
    rw [hstop]
    exact Nat.lt_trans (start_lt hstart hline) htext
  · rw [hfound]
    exact List.pairwise_cons.2 ⟨hends, h.ends⟩

/-- **Every line keeps the order**. -/
theorem next (h : s.Ordered before) (htext : Text.allBlank line.text = false → line.HasText)
    (hline : Follows before line) (hs : s.step line = .ok s') : s'.Ordered (before ++ [line]) := by
  have hcoded (hcode : s.AtCode line) : line.HasText := htext (Bool.or_eq_false_iff.1 hcode.code).2
  have hsame : State.Ordered (before ++ [line]) s := h.keep rfl rfl fun p hp => ⟨p, hp, rfl⟩
  cases step_eq_ok_iff.1 hs with
  | header =>
    refine h.keep rfl rfl fun p' hp => ?_
    obtain ⟨p, hopen, rfl⟩ := Option.map_eq_some_iff.1 hp
    exact ⟨p, hopen, rfl⟩
  | closeBanner =>
    refine h.keep rfl ?_ fun p hp => ⟨p, hp, rfl⟩
    exact List.filter_cons_of_neg (by simp [Node.doc, Node.declares])
  | endProcedure hcode _ _ hopen =>
    obtain ⟨hbegun, hfound, htypes⟩ := h.procedure _ hopen
    exact h.declare (hcoded hcode) hline rfl rfl hbegun (fun m hm => .inl (hfound m hm))
      (List.Sublist.refl _) htypes rfl
  | beginProcedure hcode =>
    refine ⟨hsame.begun, hsame.descending, hsame.types, fun p hp => ?_, hsame.stops, hsame.pos,
      hsame.ends⟩
    cases hp
    exact ⟨.last (hcoded hcode), fun n hn => h.stop_le hline hn,
      fun t ht => start_lt (h.begun t ht) hline⟩
  | beginType hplain hnone =>
    refine ⟨List.forall_mem_cons.2 ⟨.last (hcoded hplain.toAtCode), hsame.begun⟩,
      List.pairwise_cons.2 ⟨fun t ht => start_lt (h.begun t ht) hline, h.descending⟩,
      List.forall_mem_cons.2 ⟨fun n hn => .inl (h.stop_le hline hn), h.types⟩, fun p hp => ?_,
      hsame.stops, h.pos, h.ends⟩
    rw [show s.procedure = some p from hp] at hnone
    cases hnone
  | @endType _ t outer hplain hnone _ _ hopen =>
    have hdescending := h.descending
    rw [hopen] at hdescending
    have ht : t ∈ s.types := hopen ▸ List.mem_cons_self
    refine h.declare (hcoded hplain.toAtCode) hline rfl rfl (h.begun t ht) (fun m hm => ?_) ?_
      (List.pairwise_cons.1 hdescending).1 hnone
    · rcases h.types t ht m hm with hle | hlt
      · exact .inl hle
      · exact .inr ⟨rfl, hlt⟩
    · rw [hopen]
      exact List.sublist_cons_self t outer
  | _ => exact h.keep rfl rfl fun p hp => ⟨p, hp, rfl⟩

end State.Ordered

/-! ## The lines of a text -/

theorem placeLines_hasText {number offset : Nat} {raws : List Text} {l : PhysicalLine}
    (hl : l ∈ placeLines number offset raws) (htext : Text.allBlank l.text = false) : l.HasText := by
  induction raws generalizing number offset with
  | nil => cases hl
  | cons raw rest ih =>
    obtain ⟨lead, code, tail, -, hlead, -, -, he⟩ := placeLines_cons number offset raw rest
    rw [he] at hl
    rcases List.mem_cons.1 hl with rfl | hl
    · show offset + Text.width lead < offset + Text.width lead + Text.width code
      cases code with
      | nil =>
        rw [List.append_nil, hlead] at htext
        cases htext
      | cons c code =>
        have := c.utf8Size_pos
        rw [Text.width_cons]
        omega
    · exact ih hl

/-- What the state remembers of the first lines of a text is in order. -/
theorem Reads.kept {after : List PhysicalLine} (h : Reads before s)
    (hlines : physicalLines source = before ++ after) : s.Recalls before ∧ s.Ordered before := by
  have hrow := (physicalLines_row source).apart
  rw [List.pairwise_map, hlines] at hrow
  have hkept : Reads before s ∧ s.Recalls before ∧ s.Ordered before := by
    refine foldlM_keeps (I := fun before s => Reads before s ∧ s.Recalls before ∧ s.Ordered before)
      ⟨rfl, .initial, .initial⟩ ?_ h
    rintro first line rest t t' he ⟨hr, hrecalls, hordered⟩ hstep
    have hline : line ∈ physicalLines source := by
      rw [hlines, he]
      simp
    have htext := fun hb => placeLines_hasText (l := line) hline hb
    have hfollows : Follows first line := by
      intro l hl
      have hapart := (List.pairwise_append.1 hrow).1
      rw [he] at hapart
      exact (List.pairwise_append.1 hapart).2.2 l hl line List.mem_cons_self
    exact ⟨hr.next hstep, hrecalls.next hr htext hstep, hordered.next htext hfollows hstep⟩
  exact hkept.2

/-- **A text that has an outline has been read line by line**, and what its state remembers is in
order. -/
theorem outline_reads {o : Outline} (h : outline source = .ok o) :
    ∃ s, Reads (physicalLines source) s ∧ s.procedure = none ∧ s.types = [] ∧
      o = .ofNodes source s.nodes.reverse ∧ s.Recalls (physicalLines source) ∧
      s.Ordered (physicalLines source) := by
  obtain ⟨s, hs, h⟩ := bind_eq_ok.1 h
  obtain ⟨nodes, hfinish, h⟩ := bind_eq_ok.1 h
  cases h
  have hkept := Reads.kept hs (List.append_nil _).symm
  unfold State.finish at hfinish
  split at hfinish
  · cases hfinish
  · cases hfinish
  · next hprocedure htypes =>
    cases hfinish
    exact ⟨s, hs, hprocedure, htypes, rfl, hkept⟩

theorem outline_of_reads (hs : Reads (physicalLines source) s) (hp : s.procedure = none)
    (ht : s.types = []) : outline source = .ok (.ofNodes source s.nodes.reverse) := by
  have hfinish : s.finish = .ok s.nodes.reverse := by
    rw [State.finish, hp, ht]
  rw [outline]
  exact bind_eq_ok.2 ⟨s, hs, bind_eq_ok.2 ⟨_, hfinish, rfl⟩⟩

/-- **The outline of the procedural language is flat**: no declaration stands inside a procedure. -/
theorem outline_flat {o : Outline} (h : outline source = .ok o) : o.Flat := by
  have hfits := (outline_fits h).2
  obtain ⟨s, -, -, -, rfl, -, hordered⟩ := outline_reads h
  refine Outline.ofNodes_flat hordered.pos hordered.ends fun n hn => ?_
  refine hfits.nodes n ?_
  simpa [Outline.ofNodes, List.mem_mergeSort] using hn

/-- The survey counts the procedures that have been declared. -/
theorem length_survey {o : Outline} (h : outline source = .ok o)
    (hs : Reads (physicalLines source) s) :
    (o.survey .preceding).1.length = s.declared.countP Declared.isRoutine := by
  obtain ⟨t, ht, -, -, ho, -⟩ := outline_reads h
  have hsame : t = s := Except.ok.inj (ht.symm.trans hs)
  subst hsame
  have hperm := (List.mergeSort_perm t.nodes.reverse
    fun m n : Node => decide (m.span.start ≤ n.span.start)).countP_eq Node.isRoutine
  calc (o.survey .preceding).1.length
    _ = o.nodes.countP Node.isRoutine := (outline_flat h).length_survey (outline_fits h).2 _
    _ = t.nodes.reverse.countP Node.isRoutine := by
      rw [ho]
      exact hperm
    _ = t.declared.countP Declared.isRoutine := by
      rw [List.countP_reverse, State.declared, Node.countP_declared?]

/-! ## Types that have begun -/

/-- What is found stays, and a type stays open until it is found. -/
structure Goes (s s' : State) : Prop where
  found : s.found <:+ s'.found
  types : ∀ t ∈ s.types, t ∈ s'.types ∨ ∃ n ∈ s'.found, n.span.start = t.start

theorem Goes.of_eq (ht : s'.types = s.types) (hf : s'.found = s.found) : Goes s s' :=
  ⟨hf ▸ List.suffix_refl _, fun _ hmem => .inl (ht ▸ hmem)⟩

theorem Goes.trans {s'' : State} (h : Goes s s') (h' : Goes s' s'') : Goes s s'' := by
  refine ⟨h.found.trans h'.found, fun t ht => ?_⟩
  rcases h.types t ht with ht | ⟨n, hn, hstart⟩
  · exact h'.types t ht
  · exact .inr ⟨n, h'.found.subset hn, hstart⟩

theorem goes_step (hs : s.step line = .ok s') : Goes s s' := by
  cases State.step_eq_ok_iff.1 hs with
  | closeBanner => exact .of_eq rfl (List.filter_cons_of_neg (by simp [Node.doc, Node.declares]))
  | endProcedure => exact ⟨List.suffix_cons _ _, fun t ht => .inl ht⟩
  | beginType => exact ⟨List.suffix_refl _, fun t ht => .inl (List.mem_cons_of_mem _ ht)⟩
  | endType _ _ _ _ hopen =>
    refine ⟨List.suffix_cons _ _, fun t' ht' => ?_⟩
    rw [hopen] at ht'
    rcases List.mem_cons.1 ht' with rfl | ht'
    · exact .inr ⟨_, List.mem_cons_self, rfl⟩
    · exact .inl ht'
  | _ => exact .of_eq rfl rfl

/-- **From any line on, what is found stays and every type is found in the end**. -/
theorem goes_of_foldlM {lines : List PhysicalLine} (h : lines.foldlM State.step s = .ok s') :
    Goes s s' := by
  induction lines generalizing s with
  | nil =>
    cases h
    exact .of_eq rfl rfl
  | cons line rest ih =>
    rw [List.foldlM_cons] at h
    obtain ⟨t, hstep, hrest⟩ := bind_eq_ok.1 h
    exact (goes_step hstep).trans (ih hrest)

end Scholia.Source.Procedural
