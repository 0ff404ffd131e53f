import Mathlib.Algebra.GroupWithZero.Nat
import Scholia.Proofs.Layout.Kept
import Scholia.Proofs.Source.Procedural.Extent
/-!
# Replacing procedures

A text *rests* if no header goes on behind it and no lambda is open. A text that can be read on its
own and rests leads from one state that rests to the same state, and declares on the way what it
declares on its own. Put in the place of a procedure between two such states, it makes no difference
to what follows. So when procedures of a file are replaced by such texts, the file can be read, and
what is found in it is what is found in its parts.
-/

namespace Scholia.Source.Procedural

open Layout (Segment RowFrom spliceFrom written)
open Text (isWhole lineTexts)

variable {source text a b : Text} {s s' last : State} {ds : List Declared}

/-! ## Texts on their own -/

/-- Behind a text no header goes on and no lambda is open. -/
def Rests (text : Text) : Prop :=
  ∃ s, Reads (physicalLines text) s ∧ s.continued = .no ∧ s.lambdas = []

/-- A text that can be read on its own and leaves nothing open. -/
structure IsWhole (text : Text) : Prop where
  outline : ∃ o, outline text = .ok o
  rests : Rests text

/-- The lines of a text in the bare states. -/
theorem Reads.run (h : Reads (physicalLines text) s) :
    State.initial.run (lineTexts text) = some (s.bare, s.declared) := by
  obtain ⟨ds, hrun, hds⟩ := State.run_bare.1 s h
  rw [physicalLines_text] at hrun
  rw [hds, show State.initial.declared = [] from rfl, List.append_nil]
  exact hrun

/-- What the bare states do the states do. -/
theorem reads_of_run {t : State} (h : State.initial.run (lineTexts text) = some (t, ds)) :
    ∃ s, Reads (physicalLines text) s ∧ s.bare = t ∧ s.declared = ds := by
  cases hr : (physicalLines text).foldlM State.step .initial with
  | error fault =>
    have hnone := State.run_bare.2 fault hr
    rw [physicalLines_text] at hnone
    rw [show State.initial.bare = .initial from rfl, h] at hnone
    cases hnone
  | ok s =>
    have hrun := Reads.run hr
    rw [h] at hrun
    cases hrun
    exact ⟨s, hr, rfl, rfl⟩

/-- Behind whole lines the bare states go on. -/
theorem Reads.run_behind (h : Reads (physicalLines a) s) (ha : b ≠ [] → isWhole a)
    (h' : Reads (physicalLines (a ++ b)) s') :
    ∃ ds, s.bare.run (lineTexts b) = some (s'.bare, ds) ∧ s'.declared = ds ++ s.declared := by
  have hlines : lineTexts (a ++ b) = lineTexts a ++ lineTexts b := by
    by_cases hb : b = []
    · subst hb
      rw [List.append_nil]
      exact (List.append_nil _).symm
    · exact Text.lineTexts_append (ha hb) b
  have hrun := h'.run
  rw [hlines] at hrun
  obtain ⟨u, first, second, hfirst, hsecond, hds⟩ := State.run_append.1 hrun
  rw [h.run] at hfirst
  cases hfirst
  exact ⟨second, hsecond, hds⟩

/-- Blank lines leave a state between headers as it is. -/
theorem State.run_blanks (hc : s.continued = .no) (hs : s.bare = s) (k : Nat) :
    s.run (List.replicate k []) = some (s, []) := by
  have hpass : s.pass [] = some (s, []) := by
    have hstep : s.step (.bare []) = .ok s := by
      rw [State.step, hc]
      rfl
    have hdeclared : s.declared = [] := by
      rw [← hs]
      rfl
    rw [State.pass, hstep]
    show some (s.bare, s.declared) = _
    rw [hs, hdeclared]
  induction k with
  | zero => rfl
  | succ k ih => exact run_cons.2 ⟨s, [], [], hpass, ih, rfl⟩

/-- Blanks behind a text leave the state between headers as it is. -/
theorem Reads.blanks {tail : Text} (h : Reads (physicalLines text) s) (hc : s.continued = .no)
    (ht : Text.allBlank tail = true) (h' : Reads (physicalLines (text ++ tail)) s') :
    s'.bare = s.bare := by
  obtain ⟨k, hk⟩ := Text.lineTexts_blanks text ht
  have hrun := h'.run
  rw [hk] at hrun
  obtain ⟨u, first, second, hfirst, hsecond, -⟩ := State.run_append.1 hrun
  rw [h.run] at hfirst
  cases hfirst
  have hbare : s.bare.bare = s.bare := by
    simp only [State.bare, OpenProcedure.map_bare, OpenType.map_bare]
  rw [State.run_blanks (s := s.bare) hc hbare] at hsecond
  exact (Prod.mk.inj (Option.some.inj hsecond)).1.symm

/-- **What can be read on its own leads from nothing to nothing**. -/
theorem IsWhole.run (h : IsWhole text) :
    ∃ ds, State.initial.run (lineTexts text) = some (.initial, ds) ∧
      ds.countP Declared.isRoutine = surveyed .preceding (Procedural.outline text) := by
  obtain ⟨o, ho⟩ := h.outline
  obtain ⟨s, hr, hp, ht, -⟩ := outline_reads ho
  obtain ⟨t, hr', hc, hl⟩ := h.rests
  cases Except.ok.inj (hr.symm.trans hr')
  have hbare : s.bare = .initial := by
    rw [State.bare, hc, hp, hl, ht]
    rfl
  refine ⟨s.declared, hbare ▸ hr.run, ?_⟩
  rw [ho]
  exact (length_survey ho hr).symm

/-! ## Files -/

/-- A segment that puts what can be read on its own in the place of a procedure, between two places
where nothing else is under way. -/
structure Fits (source : Text) (seg : Segment) : Prop where
  place : ∃ pre line mid post last s s', physicalLines source = pre ++ line :: mid ++ post ∧
    Enclosed pre (line :: mid) s s' ∧ line.HasText ∧ (line :: mid).getLast? = some last ∧
    last.HasText ∧ seg.span.start = line.start ∧ seg.span.stop = last.stop
  whole : IsWhole (written source seg)
  rests : Rests (Text.takeBytes seg.span.start source)
  rests' : Rests (Text.takeBytes seg.span.stop source)

/-- What does not begin with a blank begins behind blanks. -/
theorem width_le_of_append {blanks x y : Text} {c : Char} (h : blanks ++ b = x ++ c :: y)
    (hb : Text.allBlank blanks = true) (hc : Text.isBlank c = false) :
    Text.width blanks ≤ Text.width x := by
  rcases List.append_eq_append_iff.1 h with ⟨gap, rfl, -⟩ | ⟨gap, rfl, hgap⟩
  · rw [Text.width_append]
    omega
  · cases gap with
    | nil => exact Nat.le_of_eq (congrArg Text.width (List.append_nil _))
    | cons d gap =>
      cases hgap
      have hblank := List.all_eq_true.1 hb c (by simp)
      rw [hc] at hblank
      cases hblank

/-- The parts of a text around a range that is replaced. -/
structure Placed (source : Text) (seg : Segment) (a lead inner tail b : Text) (s s' : State) : Prop
    where
  lined : Lined source a lead inner tail b
  reads : Reads (physicalLines a) s
  reads' : Reads (physicalLines (a ++ (lead ++ (inner ++ tail)))) s'
  start : seg.span.start = Text.width (a ++ lead)
  stop : seg.span.stop = Text.width (a ++ (lead ++ inner))
  bare : ∃ base, State.inInterface base = false ∧ base.map OpenType.bare = base ∧
    s.bare = State.initial.atop base ∧ s'.bare = State.initial.atop base
  count : s'.declared.countP Declared.isRoutine = s.declared.countP Declared.isRoutine + 1

theorem State.bare_of_rests (hc : s.continued = .no) (hp : s.procedure = none)
    (hl : s.lambdas = []) : s.bare = State.initial.atop (s.types.map OpenType.bare) := by
  rw [State.bare, hc, hp, hl]
  rfl

theorem Fits.placed {seg : Segment} (h : Fits source seg) :
    ∃ a lead inner tail b s s', Placed source seg a lead inner tail b s s' := by
  obtain ⟨pre, line, mid, post, last, s, s', hlines, henclosed, htext, hlast, htext', hstart,
    hstop⟩ := h.place
  obtain ⟨a, lead, inner, tail, b, hlined, ha, hab, hstart', hstop'⟩ :=
    range_lined hlines htext hlast htext'
  rw [← hstart] at hstart'
  rw [← hstop] at hstop'
  have hreads : Reads (physicalLines a) s := ha ▸ henclosed.reads
  have hreads' : Reads (physicalLines (a ++ (lead ++ (inner ++ tail)))) s' :=
    hab ▸ henclosed.reads'
  refine ⟨a, lead, inner, tail, b, s, s', hlined, hreads, hreads', hstart', hstop',
    ⟨s.types.map OpenType.bare, ?_, OpenType.map_bare _, ?_, ?_⟩, henclosed.count⟩
  · rw [← henclosed.holds]
    cases s.types <;> rfl
  · refine State.bare_of_rests henclosed.continued henclosed.procedure ?_
    obtain ⟨t, ht, hc, hl⟩ := h.rests
    rw [hstart', hlined.text, ← List.append_assoc, ← List.append_assoc, List.append_assoc (a ++ lead)]
      at ht
    rw [Text.takeBytes_width_append] at ht
    have hbare := hreads.blanks henclosed.continued hlined.indent ht
    have hlambdas : t.bare.lambdas = s.bare.lambdas := congrArg State.lambdas hbare
    exact hlambdas.symm.trans hl
  · rw [← henclosed.types]
    refine State.bare_of_rests henclosed.continued' henclosed.procedure' ?_
    obtain ⟨t, ht, hc, hl⟩ := h.rests'
    have hsplit : source = (a ++ (lead ++ inner)) ++ (tail ++ b) := by
      rw [hlined.text]
      simp only [List.append_assoc]
    rw [hstop', hsplit, Text.takeBytes_width_append] at ht
    have hreads'' : Reads (physicalLines ((a ++ (lead ++ inner)) ++ tail)) s' := by
      simp only [List.append_assoc]
      exact hreads'
    have hbare := ht.blanks hc hlined.blanks hreads''
    have hlambdas : s'.bare.lambdas = t.bare.lambdas := congrArg State.lambdas hbare
    exact hlambdas.trans hl

variable {seg : Segment} {a₁ lead inner tail b₁ : Text} {s₁ s₁' : State}

theorem Placed.source_eq (h : Placed source seg a₁ lead inner tail b₁ s₁ s₁') :
    source = a₁ ++ (lead ++ (inner ++ (tail ++ b₁))) := by
  rw [h.lined.text]
  simp only [List.append_assoc]

/-- A line that begins no earlier than whole lines end begins behind them. -/
theorem Placed.behind (h : Placed source seg a₁ lead inner tail b₁ s₁ s₁')
    (hsource : source = a ++ b) (ha : b ≠ [] → isWhole a)
    (hle : Text.width a ≤ seg.span.start) : ∃ g, a₁ = a ++ g := by
  have hlined := h.lined
  by_cases hb : b = []
  · rw [hb, List.append_nil] at hsource
    obtain ⟨c, x, hc, -⟩ := hlined.first
    have hwidth := congrArg Text.width (hsource.symm.trans hlined.text)
    rw [h.start] at hle
    rw [hc] at hwidth
    simp only [Text.width_append, Text.width_cons] at hle hwidth
    have := c.utf8Size_pos
    omega
  · exact Layout.append_of_isWhole (hsource.symm.trans h.source_eq) (ha hb) hlined.oneLine
      (h.start ▸ hle)

/-- What follows the line of a replaced range starts behind that line. -/
theorem Placed.row (h : Placed source seg a₁ lead inner tail b₁ s₁ s₁') {segments : List Segment}
    (hrow : RowFrom source seg.span.stop (segments.map Segment.span))
    (hfits : ∀ seg ∈ segments, Fits source seg) :
    RowFrom source (Text.width (a₁ ++ (lead ++ (inner ++ tail)))) (segments.map Segment.span) ∧
      (b₁ = [] → segments = []) := by
  have hsource : source = (a₁ ++ (lead ++ inner)) ++ (tail ++ b₁) := by
    rw [h.lined.text]
    simp only [List.append_assoc]
  have hstarts : ∀ seg' ∈ segments, ∃ y c z, tail ++ b₁ = y ++ c :: z ∧ Text.isBlank c = false ∧
      seg'.span.start = seg.span.stop + Text.width y := by
    intro seg' hseg'
    obtain ⟨a', lead', inner', tail', b', s', t', h'⟩ := (hfits seg' hseg').placed
    obtain ⟨c, z, hc, hblank⟩ := h'.lined.first
    have hle := hrow.ahead _ (List.mem_map.2 ⟨seg', hseg', rfl⟩)
    have hsource' : source = (a' ++ lead') ++ (c :: (z ++ (tail' ++ b'))) := by
      rw [h'.lined.text, hc]
      simp only [List.append_assoc, List.cons_append]
    rw [h.stop, h'.start] at hle
    rw [h.stop, h'.start]
    rcases List.append_eq_append_iff.1 (hsource.symm.trans hsource') with ⟨y, hy, hrest⟩ | ⟨y, hy, hrest⟩
    · exact ⟨y, c, _, hrest, hblank, by rw [hy, Text.width_append]⟩
    · have hnil : y = [] := Text.eq_nil_of_width_eq_zero (by
        rw [hy, Text.width_append] at hle
        omega)
      subst hnil
      rw [List.append_nil] at hy
      exact ⟨[], c, _, hrest.symm, hblank, by rw [hy]; rfl⟩
  refine ⟨⟨hrow.row, ⟨_, b₁, ?_, rfl⟩, fun m hm => ?_⟩, fun hb => ?_⟩
  · rw [h.lined.text]
    simp only [List.append_assoc]
  · obtain ⟨seg', hseg', rfl⟩ := List.mem_map.1 hm
    obtain ⟨y, c, z, hrest, hc, hstart⟩ := hstarts seg' hseg'
    have hwidth := width_le_of_append hrest h.lined.blanks hc
    rw [hstart, h.stop]
    simp only [Text.width_append] at hwidth ⊢
    omega
  · cases segments with
    | nil => rfl
    | cons seg' rest =>
      obtain ⟨y, c, z, hrest, hc, -⟩ := hstarts seg' List.mem_cons_self
      rw [hb, List.append_nil] at hrest
      have hblank := List.all_eq_true.1 h.lined.blanks c (by rw [hrest]; simp)
      rw [hc] at hblank
      cases hblank

/-- The new lines: those before the range, those of the new text with blanks behind it, and those
that follow. -/
theorem Placed.splice (h : Placed source seg a₁ lead inner tail b₁ s₁ s₁') {g : Text}
    {segments : List Segment} (hg : a₁ = a ++ g)
    (hrow : RowFrom source (Text.width a) (seg.span :: segments.map Segment.span))
    (hfits : ∀ seg ∈ segments, Fits source seg) :
    ∃ k, lineTexts (spliceFrom source (Text.width a) (seg :: segments)) =
      lineTexts g ++ ((lineTexts (written source seg) ++ List.replicate k []) ++
        lineTexts (spliceFrom source (Text.width (a₁ ++ (lead ++ (inner ++ tail)))) segments)) := by
  have hlined := h.lined
  obtain ⟨hrow', hnone⟩ := h.row hrow.tail hfits
  have hwhole : isWhole (a ++ g) := hg ▸ hlined.whole
  have hnew : spliceFrom source (Text.width a) (seg :: segments) =
      g ++ ((written source seg ++ tail) ++
        spliceFrom source (Text.width (a₁ ++ (lead ++ (inner ++ tail)))) segments) := by
    subst hg
    exact Layout.spliceFrom_written h.source_eq hwhole hlined.oneLine h.start h.stop hrow hrow'
  obtain ⟨k, hk⟩ := Text.lineTexts_blanks (written source seg) hlined.blanks
  refine ⟨k, ?_⟩
  rw [hnew, Text.lineTexts_append hwhole.right, ← hk]
  by_cases hb : b₁ = []
  · -- nothing is left to write behind the last line
    rw [hnone hb, spliceFrom, hlined.text, ← List.append_assoc, Text.dropBytes_width_append, hb]
    exact congrArg (lineTexts g ++ ·) (by rw [List.append_nil]; exact (List.append_nil _).symm)
  · have htail : isWhole (written source seg ++ tail) := by
      obtain ⟨x, c, hx, hc⟩ := hlined.last
      have hwhole := (hlined.whole' hb).right.right.right
      rcases hwhole with rfl | ⟨z, rfl⟩
      · have hlast := (hlined.whole' hb).right.right
        rw [List.append_nil, hx] at hlast
        rcases hlast.right with he | ⟨y, hy⟩
        · cases he
        · obtain ⟨-, hc'⟩ := List.append_inj' (show [] ++ [c] = y ++ ['\n'] from hy) rfl
          cases hc'
          exact absurd hc (by decide)
      · exact .inr ⟨written source seg ++ z, (List.append_assoc _ _ _).symm⟩
    rw [Text.lineTexts_append htail]

/-- **From any line on, a file with texts put in is read as it was**: to the same state, with what
is declared in the texts instead of the procedures. -/
theorem splice_run {segments : List Segment} (hsource : source = a ++ b)
    (hs : Reads (physicalLines a) s) (ha : b ≠ [] → isWhole a)
    (hlast : Reads (physicalLines source) last)
    (hrow : RowFrom source (Text.width a) (segments.map Segment.span))
    (hfits : ∀ seg ∈ segments, Fits source seg) :
    ∃ ds, s.bare.run (lineTexts (spliceFrom source (Text.width a) segments)) =
        some (last.bare, ds) ∧
      ds.countP Declared.isRoutine + s.declared.countP Declared.isRoutine + segments.length =
        last.declared.countP Declared.isRoutine +
          (segments.map fun seg => surveyed .preceding (outline (written source seg))).sum := by
  induction segments generalizing a b s with
  | nil =>
    obtain ⟨ds, hrun, hds⟩ := hs.run_behind ha (hsource ▸ hlast)
    refine ⟨ds, ?_, ?_⟩
    · rw [spliceFrom, hsource, Text.dropBytes_width_append]
      exact hrun
    · rw [hds, List.countP_append]
      rfl
  | cons seg segments ih =>
    have hmore := fun seg' hseg' => hfits seg' (List.mem_cons_of_mem _ hseg')
    obtain ⟨a₁, lead, inner, tail, b₁, s₁, s₁', h⟩ := (hfits seg List.mem_cons_self).placed
    obtain ⟨g, hg⟩ := h.behind hsource ha hrow.head.2
    obtain ⟨k, hlines⟩ := h.splice hg hrow hmore
    have hsource' : source = (a₁ ++ (lead ++ (inner ++ tail))) ++ b₁ :=
      h.lined.text.trans (List.append_assoc _ _ _).symm
    obtain ⟨ds, hrest, hcount⟩ := ih hsource' h.reads' h.lined.whole' (h.row hrow.tail hmore).1 hmore
    have hb : b ≠ [] := by
      obtain ⟨c, x, hc, -⟩ := h.lined.first
      rintro rfl
      have hlength := congrArg List.length (hsource.symm.trans h.lined.text)
      simp [hg, hc] at hlength
    obtain ⟨dg, hgrun, hgds⟩ := hs.run_behind (fun _ => ha hb) (hg ▸ h.reads)
    obtain ⟨base, hbase, hmap, hbare, hbare'⟩ := h.bare
    obtain ⟨dt, htrun, htcount⟩ := (hfits seg List.mem_cons_self).whole.run
    have htatop := State.run_atop hbase hmap htrun
    have hblanks : (State.initial.atop base).run (List.replicate k []) =
        some (State.initial.atop base, []) :=
      State.run_blanks rfl (by rw [State.bare_atop, hmap]; rfl) k
    refine ⟨(ds ++ ([] ++ dt)) ++ dg, ?_, ?_⟩
    · rw [hlines]
      refine State.run_append.2 ⟨_, dg, ds ++ ([] ++ dt), hgrun, ?_, rfl⟩
      rw [hbare]
      refine State.run_append.2 ⟨_, [] ++ dt, ds, ?_, hbare' ▸ hrest, rfl⟩
      exact State.run_append.2 ⟨_, dt, [], htatop, hblanks, rfl⟩
    · rw [List.map_cons, List.sum_cons, ← htcount, List.length_cons]
      have hone := h.count
      have hgcount := congrArg (List.countP Declared.isRoutine) hgds
      simp only [List.countP_append, List.nil_append] at hgcount ⊢
      omega

/-- **A file in which texts that can be read on their own take the place of procedures has an
outline again**, with the procedures of these texts instead of one for each. -/
theorem outline_splice {o : Outline} (h : outline source = .ok o) {segments : List Segment}
    (hrow : RowFrom source 0 (segments.map Segment.span))
    (hfits : ∀ seg ∈ segments, Fits source seg) :
    ∃ o', outline (spliceFrom source 0 segments) = .ok o' ∧
      (o'.survey .preceding).1.length + segments.length = (o.survey .preceding).1.length +
        (segments.map fun seg => surveyed .preceding (outline (written source seg))).sum := by
  obtain ⟨last, hlast, hp, ht, -⟩ := outline_reads h
  have hinitial : Reads (physicalLines []) .initial := rfl
  obtain ⟨ds, hrun, hcount⟩ := splice_run rfl hinitial (fun _ => .inl rfl) hlast hrow hfits
  obtain ⟨s, hs, hbare, hds⟩ := reads_of_run hrun
  have hprocedure : s.procedure = none :=
    Option.map_eq_none_iff.1 ((congrArg State.procedure hbare).trans (Option.map_eq_none_iff.2 hp))
  have htypes : s.types = [] :=
    List.map_eq_nil_iff.1 ((congrArg State.types hbare).trans (List.map_eq_nil_iff.2 ht))
  have ho' := outline_of_reads hs hprocedure htypes
  refine ⟨_, ho', ?_⟩
  rw [length_survey ho' hs, length_survey h hlast, hds]
  exact hcount

/-! ## New text for a procedure -/

/-- New text that takes the place of a procedure and its comment, between two places where nothing
else is under way. -/
structure Seats (source : Text) (seg : Segment) : Prop where
  whole : IsWhole (written source seg)
  routine : 0 < surveyed .preceding (outline (written source seg))
  rests : Rests (Text.takeBytes seg.span.start source)
  rests' : Rests (Text.takeBytes seg.span.stop source)

theorem Seats.fits {o : Outline} (h : outline source = .ok o) {r : Routine} {seg : Segment}
    (hr : r ∈ (o.survey .preceding).1) (hspan : seg.span = r.extent) (hseats : Seats source seg) :
    Fits source seg :=
  ⟨hspan ▸ extent_enclosed h hr, hseats.whole, hseats.rests, hseats.rests'⟩

end Scholia.Source.Procedural
