import Scholia.Proofs.Except
import Scholia.Proofs.Source.Walk
import Scholia.Source.Procedural.Procedures
/-!
# Where procedures come from

A physical line is a raw line of the text without the blanks around its code. Procedures, types and
doc comments start where a line does and stop where a line does, and lines follow each other without
overlap, so each of them is a part of the text.

What a line does to the state is said once, by `State.Steps`. It is the step (`step_eq_ok_iff`), so
whatever every line keeps is shown for the cases of `Steps`.
-/

namespace Scholia.Source.Procedural

open Text (IsCut)

variable {source : Text}

/-! ## Lines -/

/-- The range of the code of a line. -/
def PhysicalLine.span (line : PhysicalLine) : Span :=
  ⟨line.start, line.stop⟩

/-- A line is placed around its code, between blanks. -/
theorem placeLines_cons (number offset : Nat) (raw : Text) (rest : List Text) :
    ∃ lead code tail, raw = lead ++ (code ++ tail) ∧ Text.allBlank lead = true ∧
      Text.allBlank tail = true ∧ code = Text.trimStart (Text.trimEnd raw) ∧ placeLines number offset (raw :: rest) =
        ⟨number, offset + Text.width lead, offset + Text.width lead + Text.width code, lead ++ code⟩ ::
          placeLines (number + 1) (offset + Text.width raw) rest := by
  obtain ⟨tail, htail, ht⟩ := Text.trimEndWhere_append Text.isBlank raw
  obtain ⟨lead, hlead, hl⟩ := Text.append_trimStartWhere Text.isBlank (Text.trimEnd raw)
  refine ⟨lead, Text.trimStart (Text.trimEnd raw), tail, ?_, hl, ht, rfl, ?_⟩
  · rw [← List.append_assoc]
    exact htail.trans (congrArg (· ++ tail) hlead)
  · have hwidth : Text.width (Text.trimEnd raw) =
        Text.width lead + Text.width (Text.trimStart (Text.trimEnd raw)) := by
      rw [← Text.width_append]
      exact congrArg Text.width hlead
    have hsub : Text.width (Text.trimEnd raw) -
        Text.width (Text.trimStart (Text.trimEnd raw)) = Text.width lead := by
      omega
    simp only [placeLines, hsub]
    rw [hwidth, Nat.add_assoc]
    congr 1
    exact congrArg (PhysicalLine.mk _ _ _) hlead

/-- Placed lines stand in a row, from the byte on at which the first raw line starts. -/
theorem placeLines_row (number offset : Nat) (before : Text) (raws : List Text)
    (hsource : source = before ++ raws.flatten) (hoffset : offset = Text.width before) :
    Row source ((placeLines number offset raws).map PhysicalLine.span) ∧
      ∀ l ∈ placeLines number offset raws, offset ≤ l.start := by
  induction raws generalizing number offset before with
  | nil => exact ⟨⟨by simp [placeLines], by simp [placeLines]⟩, by simp [placeLines]⟩
  | cons raw rest ih =>
    obtain ⟨lead, code, tail, hraw, -, -, -, he⟩ := placeLines_cons number offset raw rest
    have hrest : source = (before ++ raw) ++ rest.flatten := by
      rw [hsource, List.flatten_cons, List.append_assoc]
    obtain ⟨hrow, hle⟩ := ih (number + 1) (offset + Text.width raw) (before ++ raw) hrest
      (by rw [Text.width_append, hoffset])
    have hfits : Span.Fits source
        ⟨offset + Text.width lead, offset + Text.width lead + Text.width code⟩ := by
      have hcut : source = (before ++ lead) ++ (code ++ (tail ++ rest.flatten)) := by
        rw [hsource, List.flatten_cons, hraw]
        simp only [List.append_assoc]
      refine ⟨Nat.le_add_right _ _, ⟨_, _, hcut, by rw [Text.width_append, hoffset]⟩, ?_⟩
      refine ⟨before ++ lead ++ code, tail ++ rest.flatten, ?_, ?_⟩
      · rw [hcut, ← List.append_assoc (before ++ lead)]
      · rw [Text.width_append, Text.width_append, hoffset]
    have hwidth : Text.width raw = Text.width lead + (Text.width code + Text.width tail) := by
      rw [hraw, Text.width_append, Text.width_append]
    rw [he]
    refine ⟨⟨?_, ?_⟩, ?_⟩
    · intro l hl
      rcases List.mem_cons.1 hl with rfl | hl
      · exact hfits
      · exact hrow.fits l hl
    · refine List.pairwise_cons.2 ⟨fun l hl => ?_, hrow.apart⟩
      obtain ⟨line, hline, rfl⟩ := List.mem_map.1 hl
      have := hle line hline
      simp only [PhysicalLine.span]
      omega
    · intro l hl
      rcases List.mem_cons.1 hl with rfl | hl
      · exact Nat.le_add_right _ _
      · have := hle l hl
        omega

/-- **The lines of a text stand in a row**. -/
theorem physicalLines_row (source : Text) :
    Row source ((physicalLines source).map PhysicalLine.span) :=
  (placeLines_row 1 0 [] _ (Text.flatten_rawLines source).symm rfl).1

/-! ## What a line does -/

/-- A banner is a comment. -/
theorem isComment_of_isBanner {text : Text} (h : isBanner text = true) :
    isComment text = true := by
  obtain ⟨tail, htrim, -⟩ := Text.trimEndWhere_append Text.isBlank (Text.trimStart text)
  unfold isBanner at h
  split at h
  · next rest hrest =>
    have hfront : Text.trimStart text = '\'' :: rest ++ tail := by
      rw [htrim, ← hrest]
      rfl
    rw [isComment, hfront]
    rfl
  · cases h

namespace State

variable {s s' : State} {line : PhysicalLine}

/-- A line of code that goes on with no header. -/
structure AtCode (s : State) (line : PhysicalLine) : Prop where
  continued : s.continued = .no
  code : (isComment line.text || Text.allBlank line.text) = false

/-- A line of code that neither ends nor begins a procedure or lambda. -/
structure AtPlain (s : State) (line : PhysicalLine) : Prop extends AtCode s line where
  ending : ending? procedureWords line.text = none
  header : declarator? procedureWords line.text = none

/-- **What a line does**: it goes on with a header, is part of a banner, is passed over, ends or
begins something, or stands inside it. -/
inductive Steps (s : State) (line : PhysicalLine) : State → Prop
  /-- The header of a member without a body goes on. -/
  | passed (hc : s.continued = .passed) :
    Steps s line { s with continued := if isContinued line.text then .passed else .no }
  /-- The header of the open procedure goes on. -/
  | header (hc : s.continued = .header) :
    Steps s line { s with
      procedure := s.procedure.map fun p =>
        { p with header := p.header ++ ' ' :: headerPart line.text, bodyStart := line.stop }
      continued := if isContinued line.text then .header else .no }
  | openBanner (hc : s.continued = .no) (hbanner : isBanner line.text = true)
    (hnone : s.banner = none) : Steps s line { s with banner := some line.start }
  | closeBanner {start : Nat} (hc : s.continued = .no) (hbanner : isBanner line.text = true)
    (hopen : s.banner = some start) :
    Steps s line { s with banner := none, nodes := .doc ⟨start, line.stop⟩ :: s.nodes }
  /-- Any other comment, and a blank line. -/
  | skip (hc : s.continued = .no) (hbanner : isBanner line.text = false)
    (hskip : (isComment line.text || Text.allBlank line.text) = true) : Steps s line s
  | endLambda {keyword : Text} (hcode : s.AtCode line)
    (hending : ending? procedureWords line.text = some keyword)
    (hlambda : (s.lambdas.head?.map (Text.sameLetters keyword)).getD false = true) :
    Steps s line { s with banner := none, lambdas := s.lambdas.tail }
  | endProcedure {keyword : Text} {p : OpenProcedure} (hcode : s.AtCode line)
    (hending : ending? procedureWords line.text = some keyword)
    (hlambda : (s.lambdas.head?.map (Text.sameLetters keyword)).getD false = false)
    (hopen : s.procedure = some p) (hsame : Text.sameLetters p.keyword keyword = true) :
    Steps s line { s with
      banner := none
      procedure := none
      nodes := .routine p.name (signature p.header) ⟨p.start, line.stop⟩ p.bodyStart :: s.nodes }
  /-- The header of a member without a body. -/
  | member {d : Declarator} (hcode : s.AtCode line)
    (hending : ending? procedureWords line.text = none)
    (hheader : declarator? procedureWords line.text = some d)
    (hbodiless : (d.modifiers.any (Text.sameLetters "mustoverride".toList) ||
      (s.types.head?.map OpenType.isInterface).getD false) = true) :
    Steps s line { s with
      banner := none
      continued := if isContinued line.text then .passed else .no }
  | beginProcedure {d : Declarator} (hcode : s.AtCode line)
    (hending : ending? procedureWords line.text = none)
    (hheader : declarator? procedureWords line.text = some d)
    (hbody : (d.modifiers.any (Text.sameLetters "mustoverride".toList) ||
      (s.types.head?.map OpenType.isInterface).getD false) = false)
    (hnone : s.procedure = none) :
    Steps s line { s with
      banner := none
      procedure := some
        { line := line.number
          keyword := d.keyword
          name := d.name
          start := line.start
          header := headerPart line.text
          bodyStart := line.stop }
      continued := if isContinued line.text then .header else .no }
  /-- A line of the open procedure, which may open a lambda. -/
  | inside (hplain : s.AtPlain line) (hopen : s.procedure.isSome = true) :
    Steps s line { s with banner := none, lambdas := (lambda? line.text).toList ++ s.lambdas }
  | beginType {d : Declarator} (hplain : s.AtPlain line) (hnone : s.procedure = none)
    (htype : declarator? typeWords line.text = some d) :
    Steps s line { s with
      banner := none
      types :=
        { line := line.number
          name := d.name
          signature := signature line.text
          start := line.start
          isInterface := Text.sameLetters d.keyword "interface".toList } :: s.types }
  | endType {keyword : Text} {t : OpenType} {outer : List OpenType} (hplain : s.AtPlain line)
    (hnone : s.procedure = none) (htype : declarator? typeWords line.text = none)
    (hending : ending? typeWords line.text = some keyword) (hopen : s.types = t :: outer) :
    Steps s line { s with
      banner := none
      types := outer
      nodes := .typeDecl t.name t.signature ⟨t.start, line.stop⟩ :: s.nodes }
  | outside (hplain : s.AtPlain line) (hnone : s.procedure = none)
    (htype : declarator? typeWords line.text = none) (hending : ending? typeWords line.text = none) :
    Steps s line { s with banner := none }

theorem steps_of_endProcedure {keyword : Text} (hcode : s.AtCode line)
    (hending : ending? procedureWords line.text = some keyword)
    (h : endProcedure { s with banner := none } line keyword = .ok s') : s.Steps line s' := by
  unfold endProcedure at h
  split at h
  · next hlambda =>
    cases h
    exact .endLambda hcode hending hlambda
  next hlambda =>
  split at h
  · cases h
  next p hopen =>
  split at h
  · next hsame =>
    cases h
    exact .endProcedure hcode hending (Bool.eq_false_iff.2 hlambda) hopen hsame
  · cases h

theorem steps_of_beginProcedure {d : Declarator} (hcode : s.AtCode line)
    (hending : ending? procedureWords line.text = none)
    (hheader : declarator? procedureWords line.text = some d)
    (h : beginProcedure { s with banner := none } line d = .ok s') : s.Steps line s' := by
  simp only [beginProcedure] at h
  split at h
  · next hbodiless =>
    cases h
    exact .member hcode hending hheader hbodiless
  next hbody =>
  split at h
  · cases h
  · next hnone =>
    cases h
    exact .beginProcedure hcode hending hheader (Bool.eq_false_iff.2 hbody) hnone

theorem steps_of_declaration (hplain : s.AtPlain line) (hnone : s.procedure = none)
    (h : declaration { s with banner := none } line = .ok s') : s.Steps line s' := by
  unfold declaration at h
  split at h
  · next d htype =>
    cases h
    exact .beginType hplain hnone htype
  next htype =>
  split at h
  · next hending =>
    cases h
    exact .outside hplain hnone htype hending
  next keyword hending =>
  split at h
  · cases h
  · next t outer hopen =>
    cases h
    exact .endType hplain hnone htype hending hopen

theorem steps_of_code (hcode : s.AtCode line) (h : code { s with banner := none } line = .ok s') :
    s.Steps line s' := by
  unfold code at h
  split at h
  · next keyword hending => exact steps_of_endProcedure hcode hending h
  next hending =>
  split at h
  · next d hheader => exact steps_of_beginProcedure hcode hending hheader h
  next hheader =>
  split at h
  · next hopen =>
    cases h
    exact .inside ⟨hcode, hending, hheader⟩ hopen
  · next hnone =>
    exact steps_of_declaration ⟨hcode, hending, hheader⟩ (Option.not_isSome_iff_eq_none.1 hnone) h

theorem AtCode.isBanner_eq_false (h : s.AtCode line) : isBanner line.text = false := by
  rw [Bool.eq_false_iff]
  intro hbanner
  have hcode := h.code
  rw [isComment_of_isBanner hbanner, Bool.true_or] at hcode
  cases hcode

/-- A line of code that goes on with no header drops a banner before it. -/
theorem step_eq_code (hcode : s.AtCode line) :
    s.step line = State.code { s with banner := none } line := by
  simp only [step, hcode.continued, hcode.isBanner_eq_false, hcode.code, Bool.false_eq_true, if_false]

/-- **The step of a line is told by what it does**. -/
theorem step_eq_ok_iff : s.step line = .ok s' ↔ s.Steps line s' := by
  constructor
  · intro h
    unfold step at h
    split at h
    · next hc =>
      cases h
      exact .passed hc
    · next hc =>
      cases h
      exact .header hc
    next hc =>
    split at h
    · next hbanner =>
      split at h
      · next start hopen =>
        cases h
        exact .closeBanner hc hbanner hopen
      · next hnone =>
        cases h
        exact .openBanner hc hbanner hnone
    next hbanner =>
    split at h
    · next hskip =>
      cases h
      exact .skip hc (Bool.eq_false_iff.2 hbanner) hskip
    · next hcode => exact steps_of_code ⟨hc, Bool.eq_false_iff.2 hcode⟩ h
  · intro h
    cases h with
    | passed hc => simp only [step, hc]
    | header hc => simp only [step, hc]
    | openBanner hc hbanner hnone => simp only [step, hc, hbanner, hnone, if_true]
    | closeBanner hc hbanner hopen => simp only [step, hc, hbanner, hopen, if_true]
    | skip hc hbanner hskip =>
      simp only [step, hc, hbanner, hskip, Bool.false_eq_true, if_false, if_true]
    | endLambda hcode hending hlambda =>
      simp only [step_eq_code hcode, code, hending, endProcedure, hlambda, if_true]
    | endProcedure hcode hending hlambda hopen hsame =>
      simp only [step_eq_code hcode, code, hending, endProcedure, hlambda, hopen, hsame,
        Bool.false_eq_true, if_false, if_true]
    | member hcode hending hheader hbodiless =>
      simp only [step_eq_code hcode, code, hending, hheader, beginProcedure, hbodiless, if_true]
    | beginProcedure hcode hending hheader hbody hnone =>
      simp only [step_eq_code hcode, code, hending, hheader, beginProcedure, hbody, hnone,
        Bool.false_eq_true, if_false]
    | inside hplain hopen =>
      simp only [step_eq_code hplain.toAtCode, code, hplain.ending, hplain.header, hopen, if_true]
    | beginType hplain hnone htype =>
      simp only [step_eq_code hplain.toAtCode, code, hplain.ending, hplain.header, hnone, declaration,
        htype, Option.isSome_none, Bool.false_eq_true, if_false]
    | endType hplain hnone htype hending hopen =>
      simp only [step_eq_code hplain.toAtCode, code, hplain.ending, hplain.header, hnone, declaration,
        htype, hending, hopen, Option.isSome_none, Bool.false_eq_true, if_false]
    | outside hplain hnone htype hending =>
      simp only [step_eq_code hplain.toAtCode, code, hplain.ending, hplain.header, hnone, declaration,
        htype, hending, Option.isSome_none, Bool.false_eq_true, if_false]

/-- Comments and blank lines do nothing between headers but to banners and doc comments. -/
theorem exists_step_of_skip (hc : s.continued = .no)
    (hskip : (isComment line.text || Text.allBlank line.text) = true) :
    ∃ banner nodes, s.step line = .ok { s with banner, nodes } ∧
      (nodes = s.nodes ∨ ∃ span, nodes = .doc span :: s.nodes) := by
  by_cases hbanner : isBanner line.text = true
  · cases hb : s.banner with
    | none => exact ⟨_, _, step_eq_ok_iff.2 (.openBanner hc hbanner hb), .inl rfl⟩
    | some start => exact ⟨_, _, step_eq_ok_iff.2 (.closeBanner hc hbanner hb), .inr ⟨_, rfl⟩⟩
  · exact ⟨_, _, step_eq_ok_iff.2 (.skip hc (Bool.eq_false_iff.2 hbanner) hskip), .inl rfl⟩

end State

/-! ## What every line keeps -/

/-- A procedure whose header has been read. -/
structure OpenProcedure.Stands (before : List Span) (p : OpenProcedure) : Prop where
  start : StartsLine before p.start
  body : StopsLine before p.bodyStart
  ordered : p.start ≤ p.bodyStart

/-- What holds when some lines have been read. -/
structure State.Sound (source : Text) (before : List Span) (s : State) : Prop where
  procedure : ∀ p, s.procedure = some p → p.Stands before
  types : ∀ t ∈ s.types, StartsLine before t.start
  banner : ∀ b, s.banner = some b → StartsLine before b
  nodes : ∀ n ∈ s.nodes, n.Lined source before

namespace State.Sound

variable {before : List Span} {s s' : State} {line : PhysicalLine}

theorem initial : State.Sound source [] .initial where
  procedure := fun _ h => by cases h
  types := fun _ h => by cases h
  banner := fun _ h => by cases h
  nodes := fun _ h => by cases h

theorem more (h : s.Sound source before) (span : Span) : s.Sound source (before ++ [span]) where
  procedure := fun p hp =>
    ⟨(h.procedure p hp).start.more span, (h.procedure p hp).body.more span,
      (h.procedure p hp).ordered⟩
  types := fun t ht => (h.types t ht).more span
  banner := fun b hb => (h.banner b hb).more span
  nodes := fun n hn => (h.nodes n hn).more span

/-- **Every line keeps what holds of the procedures**. -/
theorem next (h : s.Sound source before) (hrow : Row source (before ++ [line.span]))
    (hs : s.step line = .ok s') : s'.Sound source (before ++ [line.span]) := by
  have hm := h.more line.span
  have hstart : StartsLine (before ++ [line.span]) line.start := .last before line.span
  have hstop : StopsLine (before ++ [line.span]) line.stop := .last before line.span
  cases step_eq_ok_iff.1 hs with
  | passed => exact ⟨hm.procedure, hm.types, hm.banner, hm.nodes⟩
  | header =>
    refine ⟨fun p' hp' => ?_, hm.types, hm.banner, hm.nodes⟩
    obtain ⟨p, hp, rfl⟩ := Option.map_eq_some_iff.1 hp'
    have hopen := hm.procedure p hp
    exact ⟨hopen.start, hstop, Nat.le_trans (hrow.start_le hopen.start) hrow.last_fits.ordered⟩
  | openBanner =>
    refine ⟨hm.procedure, hm.types, fun b hb => ?_, hm.nodes⟩
    cases hb
    exact hstart
  | @closeBanner b _ _ hopen =>
    have hdoc : (Node.doc ⟨b, line.stop⟩).Lined source (before ++ [line.span]) :=
      ⟨Node.fits_doc (hrow.fits_last (hm.banner b hopen)), hm.banner b hopen, hstop⟩
    exact ⟨hm.procedure, hm.types, nofun, List.forall_mem_cons.2 ⟨hdoc, hm.nodes⟩⟩
  | skip => exact hm
  | @endProcedure _ p _ _ _ hopen =>
    have hp := h.procedure p hopen
    have hspan : Span.Fits source ⟨p.start, line.stop⟩ := hrow.fits_last (hp.start.more line.span)
    have hle : p.bodyStart ≤ line.stop :=
      Nat.le_trans (hrow.stop_le hp.body) hrow.last_fits.ordered
    refine ⟨nofun, hm.types, nofun, List.forall_mem_cons.2 ⟨?_, hm.nodes⟩⟩
    exact ⟨Node.fits_routine hspan hp.ordered hle (hrow.left.stop_cut hp.body),
      hp.start.more line.span, hstop⟩
  | beginProcedure =>
    refine ⟨fun p hp => ?_, hm.types, nofun, hm.nodes⟩
    cases hp
    exact ⟨hstart, hstop, hrow.last_fits.ordered⟩
  | beginType =>
    exact ⟨hm.procedure, List.forall_mem_cons.2 ⟨hstart, hm.types⟩, nofun, hm.nodes⟩
  | @endType _ t outer _ _ _ _ hopen =>
    have ht := hm.types t (hopen ▸ List.mem_cons_self)
    have hnode : (Node.typeDecl t.name t.signature ⟨t.start, line.stop⟩).Lined source
        (before ++ [line.span]) := ⟨Node.fits_typeDecl (hrow.fits_last ht), ht, hstop⟩
    refine ⟨hm.procedure, fun t' ht' => ?_, nofun, List.forall_mem_cons.2 ⟨hnode, hm.nodes⟩⟩
    exact hm.types t' (hopen ▸ List.mem_cons_of_mem t ht')
  | _ => exact ⟨hm.procedure, hm.types, nofun, hm.nodes⟩

end State.Sound

/-- **The outline of the procedural language is in place**. -/
theorem outline_fits {o : Outline} (h : outline source = .ok o) : o.source = source ∧ o.Fits := by
  obtain ⟨s, hs, h⟩ := bind_eq_ok.1 h
  obtain ⟨nodes, hfinish, h⟩ := bind_eq_ok.1 h
  cases h
  have hrow := physicalLines_row source
  have hsound : s.Sound source ((physicalLines source).map PhysicalLine.span) := by
    refine foldlM_keeps (I := fun before s => s.Sound source (before.map PhysicalLine.span))
      .initial ?_ hs
    intro before line after s s' he hI hstep
    have hmore : Row source (before.map PhysicalLine.span ++ [line.span]) := by
      rw [he, List.append_cons, List.map_append, List.map_append] at hrow
      exact hrow.left
    rw [List.map_append]
    exact hI.next hmore hstep
  refine ⟨rfl, Outline.ofNodes_fits fun n hn => ?_⟩
  unfold State.finish at hfinish
  split at hfinish
  · cases hfinish
  · cases hfinish
  · cases hfinish
    exact (hsound.nodes n (List.mem_reverse.1 hn)).fits

end Scholia.Source.Procedural
