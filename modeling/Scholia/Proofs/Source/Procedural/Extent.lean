import Scholia.Proofs.Source.Covered
import Scholia.Proofs.Source.Placement
import Scholia.Proofs.Source.Procedural.Lines
/-!
# The extent of a procedure

With its comment, a procedure leads from one state without a procedure to another, inside the same
types, and one procedure is declared on the way: itself. The lines between the two open nothing, as
what they open would be declared there, and then the comment would not be that of the procedure.
-/

namespace Scholia.Source.Procedural

variable {source : Text} {s s' : State} {line : PhysicalLine} {pre gap lines : List PhysicalLine}

/-! ## Lines of a gap -/

/-- A line that is blank or begins with the mark of an attribute. -/
def PhysicalLine.IsGap (line : PhysicalLine) : Prop :=
  ∀ c x, Text.trimStart line.text = c :: x → isMark c = true

theorem eq_of_isMark {c : Char} (h : isMark c = true) : c = '@' ∨ c = '[' ∨ c = '<' := by
  simpa [isMark, or_assoc] using h

namespace PhysicalLine.IsGap

theorem ending?_eq_none (h : line.IsGap) (keywords : List Text) :
    ending? keywords line.text = none := by
  have hlead : leadingWord? ["End".toList] (Text.trimStart line.text) = none := by
    cases ht : Text.trimStart line.text with
    | nil => rfl
    | cons c x => rcases eq_of_isMark (h c x ht) with rfl | rfl | rfl <;> rfl
  rw [ending?, hlead]
  rfl

theorem not_isBanner (h : line.IsGap) : isBanner line.text = false := by
  obtain ⟨lead, htext, hlead⟩ := Text.append_trimStartWhere Text.isBlank line.text
  cases ht : Text.trimStart line.text with
  | nil =>
    rw [isBanner, Text.trim, ht]
    rfl
  | cons c x =>
    have hc : Text.isBlank c = false := Text.not_isBlank_of_trimStart ht
    obtain ⟨x', htrim⟩ := Text.trim_append_cons hc hlead x
    rw [show lead ++ c :: x = line.text by rw [← ht]; exact htext.symm] at htrim
    rw [isBanner, htrim]
    rcases eq_of_isMark (h c x ht) with rfl | rfl | rfl <;> rfl

end PhysicalLine.IsGap

/-- Where no procedure is open behind it, a line of a gap opens at most a type. -/
theorem gap_step (hgap : line.IsGap) (hs : s.step line = .ok s') (hp : s'.procedure = none) :
    s.procedure = none ∧ s'.lambdas = s.lambdas ∧ s'.found = s.found ∧
      (s'.types = s.types ∨ ∃ t, s'.types = t :: s.types ∧ t.start = line.start ∧
        Text.allBlank line.text = false) := by
  have hends {words : List Text} {keyword : Text} : ending? words line.text ≠ some keyword := by
    rw [hgap.ending?_eq_none]
    exact nofun
  have hbanner : isBanner line.text ≠ true := by
    rw [hgap.not_isBanner]
    decide
  cases State.step_eq_ok_iff.1 hs with
  | header => exact ⟨Option.map_eq_none_iff.1 hp, rfl, rfl, .inl rfl⟩
  | openBanner _ h => exact absurd h hbanner
  | closeBanner _ h => exact absurd h hbanner
  | endLambda _ hending => exact absurd hending hends
  | endProcedure _ hending => exact absurd hending hends
  | beginProcedure => cases hp
  | inside _ hopen =>
    rw [show s.procedure = none from hp] at hopen
    cases hopen
  | beginType hplain =>
    exact ⟨hp, rfl, rfl, .inr ⟨_, rfl, rfl, (Bool.or_eq_false_iff.1 hplain.code).2⟩⟩
  | endType _ _ _ hending => exact absurd hending hends
  | _ => exact ⟨hp, rfl, rfl, .inl rfl⟩

/-- **Where no procedure is open behind them, lines of a gap open nothing but types**. -/
theorem gap_run (hgap : ∀ l ∈ lines, l.IsGap) (hs : lines.foldlM State.step s = .ok s')
    (hp : s'.procedure = none) :
    s.procedure = none ∧ s'.lambdas = s.lambdas ∧ s'.found = s.found ∧
      ∃ opened, s'.types = opened ++ s.types ∧
        ∀ t ∈ opened, ∃ l ∈ lines, t.start = l.start ∧ Text.allBlank l.text = false := by
  induction lines generalizing s with
  | nil =>
    cases hs
    exact ⟨hp, rfl, rfl, [], rfl, by simp⟩
  | cons line rest ih =>
    rw [List.foldlM_cons] at hs
    obtain ⟨t, hstep, hrest⟩ := bind_eq_ok.1 hs
    obtain ⟨htp, htl, htf, opened, htypes, hopened⟩ :=
      ih (fun l hl => hgap l (List.mem_cons_of_mem _ hl)) hrest
    obtain ⟨hnone, hlambdas, hfound, hnew⟩ := gap_step (hgap line List.mem_cons_self) hstep htp
    refine ⟨hnone, htl.trans hlambdas, htf.trans hfound, ?_⟩
    have hmore : ∀ o ∈ opened, ∃ l ∈ line :: rest, o.start = l.start ∧
        Text.allBlank l.text = false := fun o ho => by
      obtain ⟨l, hl, hstart⟩ := hopened o ho
      exact ⟨l, List.mem_cons_of_mem _ hl, hstart⟩
    rcases hnew with hsame | ⟨o, hcons, hstart⟩
    · exact ⟨opened, hsame ▸ htypes, hmore⟩
    · refine ⟨opened ++ [o], ?_, fun o' ho' => ?_⟩
      · rw [htypes, hcons, List.append_cons]
      · rcases List.mem_append.1 ho' with ho' | ho'
        · exact hmore o' ho'
        · rw [List.mem_singleton.1 ho']
          exact ⟨line, List.mem_cons_self, hstart⟩

/-! ## Where a gap stands -/

/-- **Between a comment and its procedure every line is one of a gap**. -/
theorem isGap_of_isAdjacent {last : PhysicalLine} {more : List PhysicalLine}
    (h : physicalLines source = pre ++ gap ++ line :: more) (hlast : pre.getLast? = some last)
    (hjoin : isAdjacent source last.stop line.start = true) :
    ∀ l ∈ gap, l.IsGap := by
  intro l hl c x hc
  obtain ⟨gap, gap', rfl⟩ := List.append_of_mem hl
  have hlines : physicalLines source = (pre ++ gap) ++ l :: (gap' ++ line :: more) := by
    rw [h]
    simp only [List.append_assoc, List.cons_append]
  obtain ⟨ab, lead, code, rest, hsource, hab, hwhole, hlead, hcode, hstart, hstop⟩ :=
    line_placed hlines
  rw [hc] at hcode
  subst hcode
  obtain ⟨a, y, rfl, ha, -⟩ := physicalLines_split hab
  obtain ⟨z, tail, ha', -, hlstop, -⟩ := placeLines_last (ha.symm ▸ hlast)
  rw [Text.flatten_rawLines] at ha'
  subst ha'
  rw [List.append_assoc z] at hwhole hsource hstart hstop
  rw [Nat.zero_add] at hlstop
  have hrow := List.pairwise_map.1 (physicalLines_row source).apart
  have hfits := (physicalLines_row source).fits
  rw [hlines] at hrow hfits
  have hle : l.stop ≤ line.start :=
    (List.pairwise_cons.1 (List.pairwise_append.1 hrow).2.1).1 line (by simp)
  have hcut : Text.IsCut source line.start :=
    (hfits line.span (List.mem_map.2 ⟨line, by simp, rfl⟩)).start_cut
  have hlcut : Text.IsCut source l.stop :=
    (hfits l.span (List.mem_map.2 ⟨l, by simp, rfl⟩)).stop_cut
  have hwidth : last.stop ≤ l.stop := by
    rw [hlstop, hstop]
    simp only [Text.width_append]
    omega
  have hsplit : source = z ++ (((tail ++ y) ++ (lead ++ c :: x)) ++ rest) := by
    rw [hsource]
    simp only [List.append_assoc]
  have hfirst : Text.slice last.stop l.stop source = (tail ++ y) ++ (lead ++ c :: x) := by
    have hlstop' : l.stop = Text.width z + Text.width ((tail ++ y) ++ (lead ++ c :: x)) := by
      rw [hstop, ← Text.width_append]
      simp only [List.append_assoc]
    rw [hsplit, hlstop, hlstop', Text.slice_middle]
  have hslice : Text.slice last.stop line.start source =
      (tail ++ y) ++ (lead ++ c :: (x ++ Text.slice l.stop line.start source)) := by
    rw [← Text.slice_append_slice ⟨_, _, hsplit, hlstop⟩ hlcut hcut hwidth hle, hfirst]
    simp only [List.append_assoc, List.cons_append]
  exact isMark_of_isAdjacent hjoin hslice hwhole.right hlead (Text.not_isBlank_of_trimStart hc)

/-! ## The extent -/

/-- A stretch of lines between two states without a procedure, in which one is declared. -/
structure Enclosed (pre inner : List PhysicalLine) (s s' : State) : Prop where
  reads : Reads pre s
  reads' : Reads (pre ++ inner) s'
  continued : s.continued = .no
  continued' : s'.continued = .no
  procedure : s.procedure = none
  procedure' : s'.procedure = none
  types : s'.types = s.types
  holds : State.inInterface s.types = false
  count : s'.declared.countP Declared.isRoutine = s.declared.countP Declared.isRoutine + 1

/-- What has been found is what has been declared. -/
theorem State.countP_declared (s : State) :
    s.declared.countP Declared.isRoutine = s.found.countP Node.isRoutine := by
  rw [State.declared, Node.countP_declared?, State.found, List.countP_filter]
  refine List.countP_congr fun n _ => ?_
  rw [Bool.and_eq_true]
  exact ⟨fun h => ⟨h, Node.declares_of_isRoutine h⟩, And.left⟩

theorem Framed.enclosed {mid : List PhysicalLine} {n : Node} (h : Framed pre line mid n s s')
    (hn : n.isRoutine = true) : Enclosed pre (line :: mid) s s' where
  reads := h.reads
  reads' := h.reads'
  continued := h.continued
  continued' := h.continued'
  procedure := h.procedure
  procedure' := h.procedure'
  types := h.types
  holds := h.holds
  count := by
    rw [State.countP_declared, State.countP_declared, h.found, List.countP_cons_of_pos hn]

/-- The lines of a comment end before the line of its procedure begins. -/
theorem lines_between {first last : PhysicalLine} {mid after more : List PhysicalLine}
    (h : physicalLines source = (pre ++ first :: mid) ++ after)
    (h' : physicalLines source = lines ++ line :: more)
    (hlast : (first :: mid).getLast? = some last) (htext : last.HasText) (hline : line.HasText)
    (hle : last.stop ≤ line.start) : ∃ gap, lines = (pre ++ first :: mid) ++ gap := by
  rcases List.append_eq_append_iff.1 (h.symm.trans h') with ⟨gap, he, -⟩ | ⟨behind, he, hbehind⟩
  · exact ⟨gap, he⟩
  · cases behind with
    | nil => exact ⟨[], by rw [List.append_nil] at he ⊢; exact he.symm⟩
    | cons l behind =>
      cases hbehind
      obtain ⟨a, -, -, ha, -⟩ := physicalLines_split h
      have hlast' : (line :: behind).getLast? = some last := by
        have hall := congrArg List.getLast? he
        rw [List.getLast?_append, List.getLast?_append, hlast] at hall
        cases hl : (line :: behind).getLast? with
        | none => simp at hl
        | some l =>
          rw [hl] at hall
          exact hall.symm
      have hstop := stop_le_last (ha.trans he) hlast' htext
      have : line.start < line.stop := hline
      omega

theorem Reads.behind (h : Reads pre s) (h' : Reads (pre ++ lines) s') :
    lines.foldlM State.step s = .ok s' := by
  unfold Reads at h h'
  rw [List.foldlM_append, h] at h'
  exact h'

/-- Whatever a type starts with that is open somewhere, a declaration starts with in the end. -/
theorem exists_found {last : State} {t : OpenType} (h : Reads pre s) (ht : t ∈ s.types)
    (h' : Reads (pre ++ lines) last) (hnone : last.types = []) :
    ∃ n ∈ last.nodes, n.declares = true ∧ n.span.start = t.start := by
  rcases (goes_of_foldlM (h.behind h')).types t ht with ht' | ⟨n, hn, hstart⟩
  · rw [hnone] at ht'
    cases ht'
  · obtain ⟨hn, hd⟩ := List.mem_filter.1 hn
    exact ⟨n, hn, hd, hstart⟩

/-- **With its comment a procedure is enclosed**. -/
theorem extent_enclosed {o : Outline} (h : outline source = .ok o) {r : Routine}
    (hr : r ∈ (o.survey .preceding).1) :
    ∃ pre line mid post last s s', physicalLines source = pre ++ line :: mid ++ post ∧
      Enclosed pre (line :: mid) s s' ∧ line.HasText ∧ (line :: mid).getLast? = some last ∧
      last.HasText ∧ r.extent.start = line.start ∧ r.extent.stop = last.stop := by
  obtain ⟨last, hreads, -, htypes, ho, hrecalls, -⟩ := outline_reads h
  have hfits := (outline_fits h).2
  have hmem : ∀ n ∈ o.nodes, n ∈ last.nodes := by
    intro n hn
    rw [ho] at hn
    simpa [Outline.ofNodes, List.mem_mergeSort] using hn
  obtain ⟨b, hnode, -, hcomment⟩ := (hfits.survey_stands .preceding r hr).node
  have hrec := hrecalls.nodes _ (hmem _ hnode)
  obtain ⟨pre, line, mid, post, s, s', hlines, hframed⟩ := hrec
  obtain ⟨stop, hstop, hspan, hstoptext⟩ := hframed.stop
  have henclosed := hframed.enclosed rfl
  rw [Routine.Fits.extent_stop]
  rcases Routine.Fits.extent_start r with he | ⟨c, hc, he⟩
  · exact ⟨pre, line, mid, post, stop, s, s', hlines, henclosed, hframed.text, hstop, hstoptext,
      he.trans hframed.start, hspan⟩
  · obtain ⟨⟨d, hd, hdoc, rfl⟩, hjoin⟩ := hcomment c hc
    have hrecd := hrecalls.nodes d (hmem d hd)
    rw [Recorded, hdoc] at hrecd
    obtain ⟨preC, first, midC, postC, t, t', hlinesC, hcommented⟩ := hrecd
    obtain ⟨lastC, hlastC, hspanC, htextC⟩ := hcommented.stop
    have hjoin : isAdjacent source lastC.stop line.start = true := by
      rw [← hspanC, ← hframed.start]
      rw [(outline_fits h).1] at hjoin
      exact hjoin
    rw [List.append_assoc pre, List.cons_append] at hlines
    obtain ⟨gap, rfl⟩ := lines_between hlinesC hlines hlastC htextC hframed.text
      (isAdjacent_le hjoin)
    have hgap : ∀ l ∈ gap, l.IsGap := by
      refine isGap_of_isAdjacent hlines ?_ hjoin
      rw [List.getLast?_append, hlastC]
      rfl
    obtain ⟨hnone, -, hfound, opened, hopened, hstarts⟩ :=
      gap_run hgap (hcommented.reads'.behind hframed.reads) hframed.procedure
    have hopened' : opened = [] := by
      cases opened with
      | nil => rfl
      | cons u opened =>
        obtain ⟨l, hl, hstart, htext⟩ := hstarts u List.mem_cons_self
        obtain ⟨n, hn, hdeclares, hnstart⟩ := exists_found hframed.reads
          (by rw [hopened]; exact List.mem_append_left _ List.mem_cons_self) (hlines ▸ hreads) htypes
        have hrow := List.pairwise_map.1 (physicalLines_row source).apart
        rw [hlines] at hrow
        obtain ⟨hfront, -, hcross⟩ := List.pairwise_append.1 hrow
        have hfirst : first.stop ≤ l.start :=
          (List.pairwise_append.1 hfront).2.2 first (by simp) l hl
        have hline : l.stop ≤ line.start :=
          hcross l (List.mem_append_right _ hl) line List.mem_cons_self
        have hltext : l.start < l.stop :=
          placeLines_hasText (show l ∈ physicalLines source by rw [hlines]; simp [hl]) htext
        have hn' : n ∈ o.nodes := by
          rw [ho]
          simpa [Outline.ofNodes, List.mem_mergeSort] using hn
        have hfirsttext : first.start < first.stop := hcommented.text
        rcases hfits.survey_awaited hr hc hn' hdeclares with hle | hle
        · have := hcommented.start
          omega
        · have : r.span.start = line.start := hframed.start
          omega
    subst hopened'
    have hinner : preC ++ first :: (midC ++ (gap ++ line :: mid)) =
        ((preC ++ first :: midC) ++ gap) ++ line :: mid := by
      simp only [List.append_assoc, List.cons_append]
    have htypes' : s.types = t.types := hopened.trans hcommented.level.types
    refine ⟨preC, first, midC ++ (gap ++ line :: mid), post, stop, t, s', ?_, ?_, hcommented.text, ?_,
      hstoptext, he.trans hcommented.start, hspan⟩
    · rw [hinner, hlines]
      simp only [List.append_assoc, List.cons_append]
    · refine ⟨hcommented.reads, hinner ▸ hframed.reads', hcommented.level.continued,
        hframed.continued', hcommented.level.procedure.symm.trans hnone, hframed.procedure',
        hframed.types.trans htypes', htypes' ▸ hframed.holds, ?_⟩
      rw [henclosed.count, State.countP_declared, State.countP_declared, hfound,
        hcommented.level.found]
    · rw [← List.cons_append, ← List.append_assoc, List.getLast?_append, hstop]
      rfl

end Scholia.Source.Procedural
