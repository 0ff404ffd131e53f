import Scholia.Proofs.Source.Carried
import Scholia.Proofs.Source.Procedural.Lines
import Scholia.Proofs.Source.Procedural.Moves
/-!
# Members of interfaces

A line stands directly in an interface if the innermost type around it is one. While a text is read
that is the type that was opened last; in the outline it is the last of the nodes around the line.
The two are the same, since every type that is open at a line ends behind it, and no other one does.
-/

namespace Scholia.Source.Procedural

variable {source : Text} {before after lines : List PhysicalLine} {line l l' : PhysicalLine}
  {s s' t : State} {o : OpenType}

/-! ## Types in an outline -/

/-- The header of an interface. -/
def PhysicalLine.isInterface (line : PhysicalLine) : Bool :=
  (declarator? typeWords line.text).any fun d =>
    Text.sameLetters d.keyword "interface".toList

/-- The innermost type around a byte is an interface. -/
def InInterface (lines : List PhysicalLine) (nodes : List Node) (byte : Nat) : Prop :=
  ∃ n ∈ nodes, (n.isType = true ∧ n.Around byte) ∧
    (∀ m ∈ nodes, m.isType = true ∧ m.Around byte → m.span.start ≤ n.span.start) ∧
    ∃ l ∈ lines, l.start = n.span.start ∧ l.isInterface = true

instance (lines : List PhysicalLine) (nodes : List Node) (byte : Nat) :
    Decidable (InInterface lines nodes byte) :=
  inferInstanceAs (Decidable (∃ n ∈ nodes, _ ∧ _ ∧ ∃ l ∈ lines, _ ∧ _))

/-! ## Types that are open -/

/-- A type was opened by the header of one. -/
def OpenType.Opened (before : List PhysicalLine) (o : OpenType) : Prop :=
  ∃ l ∈ before, (declarator? typeWords l.text).isSome = true ∧ o.start = l.start ∧
    o.isInterface = l.isInterface

theorem OpenType.Opened.more (h : o.Opened before) (line : PhysicalLine) :
    o.Opened (before ++ [line]) := by
  obtain ⟨l, hl, hfacts⟩ := h
  exact ⟨l, List.mem_append_left _ hl, hfacts⟩

/-- **All types that are open were opened by their headers**. -/
theorem Reads.opened (h : Reads before s) : ∀ o ∈ s.types, o.Opened before := by
  refine foldlM_keeps (I := fun before s => ∀ o ∈ s.types, o.Opened before)
    (fun o ho => by cases ho) ?_ h
  intro before line after s s' _ hs hstep o ho
  cases (step_moves hstep).1 with
  | stay _ _ htypes _ => exact (hs o (htypes ▸ ho)).more line
  | opens _ _ _ _ htypes _ => exact (hs o (htypes ▸ ho)).more line
  | closes _ _ _ _ _ _ _ _ _ htypes _ => exact (hs o (htypes ▸ ho)).more line
  | opensType d new _ hd hstart hinterface _ htypes _ =>
    rw [htypes] at ho
    rcases List.mem_cons.1 ho with rfl | ho
    · refine ⟨line, by simp, by rw [hd]; rfl, hstart, ?_⟩
      rw [hinterface, PhysicalLine.isInterface, hd]
      rfl
    · exact (hs o ho).more line
  | closesType u _ _ htypes _ => exact (hs o (htypes ▸ List.mem_cons_of_mem _ ho)).more line

/-- What some lines make of the types that were open before them, and which types they find. -/
structure Leads (lines : List PhysicalLine) (s s' : State) : Prop where
  types : ∀ o ∈ s.types, o ∈ s'.types ∨ ∃ n ∈ s'.found, n.isType = true ∧
    n.span.start = o.start ∧ ∃ l ∈ lines, n.span.stop = l.stop
  found : ∀ n ∈ s'.found, n.isType = true → n ∈ s.found ∨
    (∃ o ∈ s.types, n.span.start = o.start) ∨ ∃ l ∈ lines, n.span.start = l.start

theorem Leads.refl (s : State) : Leads [] s s where
  types := fun _ ho => .inl ho
  found := fun _ hn _ => .inl hn

/-- One more line before the others. -/
theorem Leads.cons (hmove : Move line s t) (hfound : t.found ⊆ s'.found) (h : Leads lines t s') :
    Leads (line :: lines) s s' := by
  have htypes (o : OpenType) (ho : o ∈ t.types) : o ∈ s'.types ∨ ∃ n ∈ s'.found,
      n.isType = true ∧ n.span.start = o.start ∧ ∃ l ∈ line :: lines, n.span.stop = l.stop :=
    (h.types o ho).imp_right fun ⟨n, hn, htype, hstart, l, hl, hstop⟩ =>
      ⟨n, hn, htype, hstart, l, List.mem_cons_of_mem _ hl, hstop⟩
  have hnodes (n : Node) (hn : n ∈ s'.found) (htype : n.isType = true) : n ∈ t.found ∨
      (∃ o ∈ t.types, n.span.start = o.start) ∨ ∃ l ∈ line :: lines, n.span.start = l.start :=
    (h.found n hn htype).imp_right fun hother => hother.imp_right fun ⟨l, hl, hstart⟩ =>
      ⟨l, List.mem_cons_of_mem _ hl, hstart⟩
  cases hmove with
  | stay _ _ hsame hnone => exact ⟨hsame ▸ htypes, by rw [← hsame, ← hnone]; exact hnodes⟩
  | opens _ _ _ _ hsame hnone => exact ⟨hsame ▸ htypes, by rw [← hsame, ← hnone]; exact hnodes⟩
  | closes _ _ _ _ _ _ _ _ _ hsame hnew =>
    refine ⟨hsame ▸ htypes, fun n hn htype => ?_⟩
    rw [← hsame]
    refine (hnodes n hn htype).imp_left fun hmem => ?_
    rw [hnew] at hmem
    rcases List.mem_cons.1 hmem with rfl | hmem
    · cases htype
    · exact hmem
  | opensType d o _ _ hstart _ _ hmore hnone =>
    refine ⟨fun u hu => htypes u (hmore ▸ List.mem_cons_of_mem _ hu), fun n hn htype => ?_⟩
    rw [← hnone]
    refine (hnodes n hn htype).imp_right fun hother => ?_
    rcases hother with ⟨u, hu, hnstart⟩ | hline
    · rw [hmore] at hu
      rcases List.mem_cons.1 hu with rfl | hu
      · exact .inr ⟨line, List.mem_cons_self, hnstart.trans hstart⟩
      · exact .inl ⟨u, hu, hnstart⟩
    · exact .inr hline
  | closesType o _ _ hless hnew =>
    refine ⟨fun u hu => ?_, fun n hn htype => ?_⟩
    · rw [hless] at hu
      rcases List.mem_cons.1 hu with rfl | hu
      · exact .inr ⟨_, hfound (hnew ▸ List.mem_cons_self), rfl, rfl, line, List.mem_cons_self, rfl⟩
      · exact htypes u hu
    · rw [hless]
      rcases hnodes n hn htype with hmem | ⟨u, hu, hstart⟩ | hline
      · rw [hnew] at hmem
        rcases List.mem_cons.1 hmem with rfl | hmem
        · exact .inr (.inl ⟨o, List.mem_cons_self, rfl⟩)
        · exact .inl hmem
      · exact .inr (.inl ⟨u, List.mem_cons_of_mem _ hu, hstart⟩)
      · exact .inr (.inr hline)

/-- **From any line on, types that are open are found, and those that are found were open or start
at a line**. -/
theorem leads_of_foldlM (h : lines.foldlM State.step s = .ok s') : Leads lines s s' := by
  induction lines generalizing s with
  | nil =>
    cases h
    exact .refl s'
  | cons line rest ih =>
    rw [List.foldlM_cons] at h
    obtain ⟨t, hstep, hrest⟩ := bind_eq_ok.1 h
    exact (ih hrest).cons (step_moves hstep).1 (goes_of_foldlM hrest).found.subset

/-! ## Types around a line -/

theorem hasText_of_declarator? {keywords : List Text} (hl : l ∈ physicalLines source)
    (h : (declarator? keywords l.text).isSome = true) : l.HasText := by
  refine placeLines_hasText hl ?_
  cases hblank : Text.allBlank l.text with
  | false => rfl
  | true =>
    rw [declarator?_of_allBlank hblank] at h
    cases h

/-- The lines before a line stop before it starts, and those after it start where it has stopped. -/
theorem follows_of_lines (h : physicalLines source = before ++ line :: after) :
    Follows before line ∧ ∀ l ∈ after, line.stop ≤ l.start ∧ l.start ≤ l.stop := by
  have hrow := physicalLines_row source
  have hapart := List.pairwise_map.1 hrow.apart
  rw [h] at hapart
  obtain ⟨-, hrest, hcross⟩ := List.pairwise_append.1 hapart
  refine ⟨fun l hl => hcross l hl line List.mem_cons_self, fun l hl => ?_⟩
  refine ⟨(List.pairwise_cons.1 hrest).1 l hl, ?_⟩
  exact (hrow.fits l.span (List.mem_map.2 ⟨l, by rw [h]; simp [hl], rfl⟩)).ordered

section

variable {last : State} {nodes : List Node} {types : List OpenType}

/-- The types among some nodes that are around a byte are those that are open. -/
structure Surround (types : List OpenType) (nodes : List Node) (byte : Nat) : Prop where
  found : ∀ o ∈ types, ∃ n ∈ nodes, (n.isType = true ∧ n.Around byte) ∧ n.span.start = o.start
  opened : ∀ n ∈ nodes, n.isType = true ∧ n.Around byte → ∃ o ∈ types, n.span.start = o.start

/-- **The types around the header of a procedure are those that are open there**: what has been
found before ends before, and what is opened behind it starts behind it. -/
theorem surround_of_reads (hlines : physicalLines source = before ++ line :: after)
    (hr : Reads before s) (hlast : Reads (physicalLines source) last) (htypes : last.types = [])
    (hheader : line.header?.isSome = true) : Surround s.types last.found line.start := by
  have hordered := (hr.kept hlines).2
  obtain ⟨hbefore, hafter⟩ := follows_of_lines hlines
  have htext : line.start < line.stop := by
    have hdeclares : (declarator? procedureWords line.text).isSome = true := by
      rw [PhysicalLine.header?] at hheader
      split at hheader
      · cases hheader
      · exact hheader
    have hmem : line ∈ physicalLines source := by rw [hlines]; simp
    exact hasText_of_declarator? hmem hdeclares
  obtain ⟨t, hstep, hrest⟩ : ∃ t, s.step line = .ok t ∧ after.foldlM State.step t = .ok last := by
    unfold Reads at hr hlast
    rw [hlines, List.foldlM_append, hr] at hlast
    exact bind_eq_ok.1 hlast
  -- The header itself changes nothing, so that only the lines behind it count.
  obtain ⟨hsame, hnone⟩ := step_of_header hstep hheader
  have hleads := leads_of_foldlM hrest
  refine ⟨fun o ho => ?_, fun n hn haround => ?_⟩
  · rcases hleads.types o (hsame ▸ ho) with hopen | ⟨n, hn, htype, hstart, l, hl, hstop⟩
    · rw [htypes] at hopen
      cases hopen
    · have hlt : o.start < line.start := State.Ordered.start_lt (hordered.begun o ho) hbefore
      have := hafter l hl
      exact ⟨n, hn, ⟨htype, by omega, by omega⟩, hstart⟩
  · obtain ⟨htype, hle, hlt⟩ := haround
    rcases hleads.found n hn htype with hfound | ⟨o, ho, hstart⟩ | ⟨l, hl, hstart⟩
    · have := hordered.stop_le hbefore (hnone ▸ hfound)
      omega
    · exact ⟨o, hsame ▸ ho, hstart⟩
    · have := (hafter l hl).1
      omega

/-- **An interface was opened last if the innermost type around is one**: types that are open
start one behind the other, so that the one opened last is the innermost. -/
theorem Surround.inInterface_iff {byte : Nat} (h : Surround types nodes byte)
    (hdescending : types.Pairwise fun inner outer => outer.start < inner.start)
    (hopened : ∀ o ∈ types, ∃ l ∈ lines, o.start = l.start ∧ o.isInterface = l.isInterface ∧
      ∀ l' ∈ lines, l'.isInterface = true → l'.start = l.start → l' = l) :
    State.inInterface types = true ↔ InInterface lines nodes byte := by
  constructor
  · intro hinterface
    cases types with
    | nil => cases hinterface
    | cons o outer =>
      have hinterface : o.isInterface = true := hinterface
      obtain ⟨n, hn, haround, hstart⟩ := h.found o List.mem_cons_self
      obtain ⟨l, hl, hlstart, hsame, -⟩ := hopened o List.mem_cons_self
      refine ⟨n, hn, haround, fun m hm hmaround => ?_, l, hl, ?_, hsame ▸ hinterface⟩
      · obtain ⟨u, hu, hmstart⟩ := h.opened m hm hmaround
        rw [hmstart, hstart]
        rcases List.mem_cons.1 hu with rfl | hu
        · exact Nat.le_refl _
        · exact Nat.le_of_lt ((List.pairwise_cons.1 hdescending).1 u hu)
      · rw [hstart, hlstart]
  · rintro ⟨n, hn, haround, hinner, l, hl, hlstart, hinterface⟩
    obtain ⟨u, hu, hstart⟩ := h.opened n hn haround
    cases types with
    | nil => cases hu
    | cons o outer =>
      obtain ⟨m, hm, hmaround, hmstart⟩ := h.found o List.mem_cons_self
      have hle := hinner m hm hmaround
      obtain rfl : u = o := by
        rcases List.mem_cons.1 hu with he | hu
        · exact he
        · have := (List.pairwise_cons.1 hdescending).1 u hu
          omega
      obtain ⟨l', -, hl'start, hsame, hone⟩ := hopened u List.mem_cons_self
      obtain rfl := hone l hl hinterface (by omega)
      exact hsame.trans hinterface

/-- **A header is read inside an interface if the innermost type around it is one**. -/
theorem inInterface_iff (hlines : physicalLines source = before ++ line :: after)
    (hr : Reads before s) (hlast : Reads (physicalLines source) last) (htypes : last.types = [])
    (hheader : line.header?.isSome = true) :
    State.inInterface s.types = true ↔
      InInterface (physicalLines source) last.found line.start := by
  have hordered := (hr.kept hlines).2
  refine (surround_of_reads hlines hr hlast htypes hheader).inInterface_iff hordered.descending
    fun o ho => ?_
  obtain ⟨l, hl, hdeclares, hstart, hsame⟩ := hr.opened o ho
  have hmem : l ∈ physicalLines source := by
    rw [hlines]
    exact List.mem_append_left _ hl
  refine ⟨l, hmem, hstart, hsame, fun l' hl' hinterface he => ?_⟩
  have hdeclares' : (declarator? typeWords l'.text).isSome = true := by
    obtain ⟨d, hd, -⟩ := (Option.any_eq_true _ _).1 hinterface
    rw [hd]
    rfl
  exact (physicalLines_row source).eq_of_start hl' hmem (hasText_of_declarator? hl' hdeclares')
    (hasText_of_declarator? hmem hdeclares) he

end

end Scholia.Source.Procedural
