import Scholia.Proofs.Source.Loss
import Scholia.Proofs.Source.Procedural.Lines
/-!
# The loss of a blank and lines of the procedural language

A line of the procedural language is read without the blanks at its end. So a text that has lost a
blank before a line feed has the same lines at moved places, or one of two blank lines is gone, and
the second one of these does nothing.

*Seen* through a function of places, a line or a state has its places moved and has forgotten the
numbers of lines, which only faults speak of.
-/

namespace Scholia.Source.Procedural

open Layout (Loss IsStart IsStop IsEnd)
open Text (isBlank isWhole rawLines)

variable {e : Loss} {f : Nat → Nat} {s s' : State} {line : PhysicalLine}

/-! ## What is seen of a state -/

def PhysicalLine.seen (f : Nat → Nat) (line : PhysicalLine) : PhysicalLine :=
  ⟨0, f line.start, f line.stop, line.text⟩

def OpenProcedure.seen (f : Nat → Nat) (p : OpenProcedure) : OpenProcedure :=
  { p with line := 0, start := f p.start, bodyStart := f p.bodyStart }

def OpenType.seen (f : Nat → Nat) (t : OpenType) : OpenType :=
  { t with line := 0, start := f t.start }

namespace State

def seen (f : Nat → Nat) (s : State) : State where
  continued := s.continued
  procedure := s.procedure.map (OpenProcedure.seen f)
  lambdas := s.lambdas
  types := s.types.map (OpenType.seen f)
  banner := s.banner.map f
  nodes := s.nodes.map (Node.moved f)

/-- Two answers that are seen alike, or are both faults. -/
def Alike (f : Nat → Nat) (answer answer' : Except Fault State) : Prop :=
  answer.toOption.map (seen f) = answer'.toOption

theorem endProcedure_seen (f : Nat → Nat) (s : State) (line : PhysicalLine) (keyword : Text) :
    Alike f (s.endProcedure line keyword) ((s.seen f).endProcedure (line.seen f) keyword) := by
  unfold endProcedure
  by_cases hl : (s.lambdas.head?.map (Text.sameLetters keyword)).getD false = true
  · rw [if_pos hl, if_pos (show ((s.seen f).lambdas.head?.map _).getD false = true from hl)]
    rfl
  · rw [if_neg hl, if_neg (show ¬ ((s.seen f).lambdas.head?.map _).getD false = true from hl)]
    obtain ⟨continued, procedure, lambdas, types, banner, nodes⟩ := s
    cases procedure with
    | none => rfl
    | some p =>
      simp only [seen, Option.map_some]
      by_cases hk : Text.sameLetters p.keyword keyword = true
      · rw [if_pos hk, if_pos (show Text.sameLetters (p.seen f).keyword keyword = true from hk)]
        rfl
      · rw [if_neg hk, if_neg (show ¬ Text.sameLetters (p.seen f).keyword keyword = true from hk)]
        rfl

theorem beginProcedure_seen (f : Nat → Nat) (s : State) (line : PhysicalLine) (d : Declarator) :
    Alike f (s.beginProcedure line d) ((s.seen f).beginProcedure (line.seen f) d) := by
  obtain ⟨continued, procedure, lambdas, types, banner, nodes⟩ := s
  have hinterface : ((types.map (OpenType.seen f)).head?.map OpenType.isInterface).getD false =
      (types.head?.map OpenType.isInterface).getD false := by
    cases types <;> rfl
  unfold beginProcedure
  simp only [seen, hinterface, show (line.seen f).text = line.text from rfl]
  generalize (d.modifiers.any (Text.sameLetters "mustoverride".toList) ||
    (types.head?.map OpenType.isInterface).getD false) = passed
  cases passed with
  | true => rfl
  | false => cases procedure <;> rfl

theorem declaration_seen (f : Nat → Nat) (s : State) (line : PhysicalLine) :
    Alike f (s.declaration line) ((s.seen f).declaration (line.seen f)) := by
  obtain ⟨continued, procedure, lambdas, types, banner, nodes⟩ := s
  unfold declaration
  rw [show (line.seen f).text = line.text from rfl]
  cases declarator? typeWords line.text with
  | some d => rfl
  | none =>
    cases ending? typeWords line.text with
    | none => rfl
    | some keyword => cases types <;> rfl

theorem code_seen (f : Nat → Nat) (s : State) (line : PhysicalLine) :
    Alike f (s.code line) ((s.seen f).code (line.seen f)) := by
  unfold code
  rw [show (line.seen f).text = line.text from rfl]
  cases ending? procedureWords line.text with
  | some keyword => exact endProcedure_seen f s line keyword
  | none =>
    cases declarator? procedureWords line.text with
    | some d => exact beginProcedure_seen f s line d
    | none =>
      simp only [show (s.seen f).procedure.isSome = s.procedure.isSome by simp [seen]]
      cases s.procedure.isSome with
      | true => rfl
      | false => exact declaration_seen f s line

/-- **A line does the same to what is seen**. -/
theorem step_seen (f : Nat → Nat) (s : State) (line : PhysicalLine) :
    Alike f (s.step line) ((s.seen f).step (line.seen f)) := by
  obtain ⟨continued, procedure, lambdas, types, banner, nodes⟩ := s
  unfold step
  rw [show (line.seen f).text = line.text from rfl]
  cases continued with
  | passed => rfl
  | header => cases procedure <;> rfl
  | no =>
    simp only [seen]
    cases isBanner line.text with
    | true => cases banner <;> rfl
    | false =>
      cases isComment line.text || Text.allBlank line.text with
      | true => rfl
      | false => exact code_seen f ⟨.no, procedure, lambdas, types, none, nodes⟩ line

theorem foldlM_seen (f : Nat → Nat) (s : State) (lines : List PhysicalLine) :
    Alike f (lines.foldlM step s) ((lines.map (PhysicalLine.seen f)).foldlM step (s.seen f)) := by
  induction lines generalizing s with
  | nil => rfl
  | cons line lines ih =>
    have hstep := step_seen f s line
    unfold Alike at hstep ih ⊢
    rw [List.map_cons, List.foldlM_cons, List.foldlM_cons]
    cases hs : s.step line with
    | error fault =>
      cases hs' : (s.seen f).step (line.seen f) with
      | error fault' => rfl
      | ok t' =>
        rw [hs, hs'] at hstep
        cases hstep
    | ok t =>
      cases hs' : (s.seen f).step (line.seen f) with
      | error fault' =>
        rw [hs, hs'] at hstep
        cases hstep
      | ok t' =>
        rw [hs, hs'] at hstep
        cases hstep
        exact ih t

theorem finish_seen (f : Nat → Nat) (s : State) :
    s.finish.toOption.map (List.map (Node.moved f)) = (s.seen f).finish.toOption := by
  obtain ⟨continued, procedure, lambdas, types, banner, nodes⟩ := s
  cases procedure with
  | some p => rfl
  | none =>
    cases types with
    | cons t outer => rfl
    | nil =>
      simp only [seen, finish, Option.map_none, List.map_nil, Except.toOption, Option.map_some,
        List.map_reverse]

theorem step_no_blank (hblank : line.text = []) (hno : s.continued = .no) :
    s.step line = .ok s := by
  unfold step
  rw [hno, hblank]
  rfl

/-- **A blank line behind a blank line does nothing**. -/
theorem step_blank (hblank : line.text = []) (s : State) :
    s.step line >>= (·.step line) = s.step line := by
  obtain ⟨t, ht, hno⟩ : ∃ t, s.step line = .ok t ∧ t.continued = .no := by
    cases hs : s.continued with
    | no => exact ⟨s, step_no_blank hblank hs, hs⟩
    | passed =>
      unfold step
      rw [hs, hblank]
      exact ⟨_, rfl, rfl⟩
    | header =>
      unfold step
      rw [hs, hblank]
      exact ⟨_, rfl, rfl⟩
  rw [ht]
  exact step_no_blank hblank hno

end State

/-! ## The lines -/

theorem placeLines_le (number offset : Nat) (raws : List Text) :
    ∀ line ∈ placeLines number offset raws, line.start ≤ line.stop ∧
      line.stop ≤ offset + Text.width raws.flatten := by
  induction raws generalizing number offset with
  | nil => exact fun line hl => by cases hl
  | cons raw rest ih =>
    obtain ⟨lead, code, tail, rfl, -, -, -, he⟩ := placeLines_cons number offset raw rest
    intro line hl
    rw [he] at hl
    simp only [List.flatten_cons, Text.width_append]
    rcases List.mem_cons.1 hl with rfl | hl
    · exact ⟨Nat.le_add_right _ _, by simp only; omega⟩
    · obtain ⟨hle, hstop⟩ := ih _ _ line hl
      simp only [Text.width_append] at hstop
      exact ⟨hle, by omega⟩

/-- Lines in front of the blank stay. -/
theorem seen_of_le {lines : List PhysicalLine}
    (h : ∀ line ∈ lines, line.start ≤ line.stop ∧ line.stop ≤ Text.width e.front) :
    lines.map (PhysicalLine.seen e.place) = lines.map (PhysicalLine.seen id) := by
  refine List.map_congr_left fun line hl => ?_
  obtain ⟨hle, hstop⟩ := h line hl
  rw [PhysicalLine.seen, PhysicalLine.seen, Loss.place_of_le (Nat.le_trans hle hstop),
    Loss.place_of_le hstop]
  rfl

/-- Lines behind the blank move by its width. -/
theorem seen_of_lt (offset : Nat) (h : Text.width e.front ≤ offset) (number number' : Nat)
    (raws : List Text) :
    (placeLines number (offset + 1) raws).map (PhysicalLine.seen e.place) =
      (placeLines number' offset raws).map (PhysicalLine.seen id) := by
  induction raws generalizing number number' offset with
  | nil => rfl
  | cons raw rest ih =>
    have hplace : ∀ n, e.place (offset + 1 + n) = offset + n := by
      intro n
      rw [Loss.place_of_lt (by omega)]
      omega
    have hrest := ih (offset + Text.width raw) (by omega) (number + 1) (number' + 1)
    rw [Nat.add_right_comm] at hrest
    simp only [placeLines, List.map_cons, PhysicalLine.seen, hplace, id_eq, hrest]

theorem seen_physicalLines {t : Text} (h : Text.width t ≤ Text.width e.front) :
    (physicalLines t).map (PhysicalLine.seen e.place) =
      (physicalLines t).map (PhysicalLine.seen id) := by
  refine seen_of_le fun line hl => ?_
  obtain ⟨hle, hstop⟩ := placeLines_le 1 0 _ line hl
  rw [Text.flatten_rawLines] at hstop
  exact ⟨hle, by omega⟩

/-- A line number is not seen. -/
theorem seen_number (number number' offset : Nat) (raws : List Text) :
    (placeLines number offset raws).map (PhysicalLine.seen f) =
      (placeLines number' offset raws).map (PhysicalLine.seen f) := by
  induction raws generalizing number number' offset with
  | nil => rfl
  | cons raw rest ih =>
    simp only [placeLines, List.map_cons, PhysicalLine.seen,
      ih (number + 1) (number' + 1) (offset + Text.width raw)]

/-- An empty line that is lost leaves another one in its place. -/
theorem physicalLines_emptyLine (hx : e.blank = '\n') :
    ∃ before line after, line.text = [] ∧
      (physicalLines e.whole).map (PhysicalLine.seen e.place) = before ++ line :: line :: after ∧
      (physicalLines e.left).map (PhysicalLine.seen id) = before ++ line :: after := by
  have hwhole : isWhole e.front := by
    obtain ⟨init, hinit⟩ := List.getLast?_eq_some_iff.1 (e.emptyLine hx)
    exact .inr ⟨init, hinit⟩
  have hempty : ∀ number offset raws, placeLines number offset (['\n'] :: raws) =
      ⟨number, offset, offset, []⟩ :: placeLines (number + 1) (offset + 1) raws :=
    fun _ _ _ => rfl
  have hraw : ∀ t, rawLines ('\n' :: t) = ['\n'] :: rawLines t := fun t => rfl
  refine ⟨(physicalLines e.front).map (PhysicalLine.seen id),
    ⟨0, Text.width e.front, Text.width e.front, []⟩,
    (placeLines 0 (Text.width e.front + 1) (rawLines e.behind)).map (PhysicalLine.seen id),
    rfl, ?_, ?_⟩
  · rw [Loss.whole, physicalLines_append hwhole, hx, Loss.rest, hraw, hraw, hempty, hempty,
      List.map_append, List.map_cons, List.map_cons, seen_physicalLines (Nat.le_refl _),
      seen_of_lt _ (by omega) _ 0]
    simp only [PhysicalLine.seen, Loss.place_of_le (Nat.le_refl _),
      Loss.place_of_lt (Nat.lt_succ_self (Text.width e.front))]
    rfl
  · rw [Loss.left, physicalLines_append hwhole, Loss.rest, hraw, hempty, List.map_append,
      List.map_cons, seen_number _ 0]
    rfl

/-- A line that loses a blank at its end is the same line. -/
theorem physicalLines_lineEnd (hx : e.blank ≠ '\n') :
    (physicalLines e.left).map (PhysicalLine.seen id) =
      (physicalLines e.whole).map (PhysicalLine.seen e.place) := by
  obtain ⟨p, q, hfront, hp, hq⟩ := Text.exists_line e.front
  have hwidth : Text.width e.front = Text.width p + Text.width q := by
    rw [hfront, Text.width_append]
  have hqx : '\n' ∉ q ++ [e.blank] := by
    rw [List.mem_append, not_or]
    exact ⟨hq, by simpa using Ne.symm hx⟩
  have hwhole : e.whole = p ++ ((q ++ [e.blank]) ++ '\n' :: e.behind) := by
    rw [Loss.whole, hfront]
    simp [Loss.rest]
  have hleft : e.left = p ++ (q ++ '\n' :: e.behind) := by
    rw [Loss.left, hfront]
    simp [Loss.rest]
  -- the line itself stops before the blank
  have htext : Text.trimEnd ((q ++ [e.blank]) ++ ['\n']) = Text.trimEnd q ∧
      Text.trimEnd (q ++ ['\n']) = Text.trimEnd q := by
    have hlf : Text.allBlank ['\n'] = true := rfl
    have hblank : Text.allBlank [e.blank] = true := by simp [Text.allBlank, Loss.isBlank_blank]
    exact ⟨by rw [Text.trimEnd_append hlf, Text.trimEnd_append hblank], Text.trimEnd_append hlf⟩
  have hstop : Text.width (Text.trimEnd q) ≤ Text.width q := by
    obtain ⟨tail, htail, -⟩ := Text.trimEndWhere_append isBlank q
    have := congrArg Text.width htail
    rw [Text.width_append] at this
    exact this ▸ Nat.le_add_right _ _
  have hplace : ∀ n, n ≤ Text.width (Text.trimEnd q) →
      e.place (Text.width p + n) = Text.width p + n := fun n hn => Loss.place_of_le (by omega)
  have hoffset : Text.width p + Text.width ((q ++ [e.blank]) ++ ['\n']) =
      Text.width p + Text.width (q ++ ['\n']) + 1 := by
    simp only [Text.width_append, Text.width_cons, Text.width_nil, Loss.width_blank]
    omega
  rw [hwhole, hleft, physicalLines_append hp, physicalLines_append hp, Text.rawLines_line hqx,
    Text.rawLines_line hq, List.map_append, List.map_append, seen_physicalLines (by omega)]
  simp only [placeLines, htext.1, htext.2, hoffset, List.map_cons]
  rw [seen_of_lt _ (by simp only [Text.width_append]; omega) _ (1 + (rawLines p).length + 1)]
  simp only [PhysicalLine.seen, hplace _ (Nat.sub_le _ _), hplace _ (Nat.le_refl _), id_eq]

/-- A line that is not blank starts and stops with what is no blank. -/
theorem placeLines_marked (p : Text) (number : Nat) (raws : List Text) :
    ∀ line ∈ placeLines number (Text.width p) raws, Text.allBlank line.text = false →
      IsStart (p ++ raws.flatten) line.start ∧ IsEnd (p ++ raws.flatten) line.stop := by
  induction raws generalizing p number with
  | nil => exact fun line hl => by cases hl
  | cons raw rest ih =>
    obtain ⟨lead, code, tail, hraw, hlead, -, hcode, he⟩ :=
      placeLines_cons number (Text.width p) raw rest
    have htrim : Text.trimEnd raw = lead ++ code := congrArg PhysicalLine.text (List.cons.inj he).1
    intro line hl hline
    rw [he] at hl
    rcases List.mem_cons.1 hl with rfl | hl
    · have hne : code ≠ [] := by
        rintro rfl
        rw [List.append_nil, hlead] at hline
        cases hline
      have hsource : p ++ (raw :: rest).flatten = p ++ lead ++ (code ++ (tail ++ rest.flatten)) := by
        rw [List.flatten_cons, hraw]
        simp only [List.append_assoc]
      constructor
      · obtain ⟨c, x, rfl⟩ := List.exists_cons_of_ne_nil hne
        exact ⟨p ++ lead, c, x ++ (tail ++ rest.flatten), hsource, (Text.width_append _ _).symm,
          Text.not_isBlank_of_trimStart hcode.symm⟩
      · obtain ⟨x, d, rfl⟩ : ∃ x d, code = x ++ [d] :=
          ⟨_, _, (List.dropLast_concat_getLast hne).symm⟩
        refine ⟨p ++ lead ++ x, d, tail ++ rest.flatten, ?_, ?_, ?_⟩
        · rw [hsource]
          simp only [List.append_assoc, List.singleton_append]
        · simp only [Text.width_append, Text.width_cons, Text.width_nil]
          omega
        · refine Text.trimEnd_getLast? (s := raw) ?_
          rw [htrim, ← List.append_assoc, List.getLast?_concat]
    · rw [← Text.width_append] at hl
      rw [List.flatten_cons, ← List.append_assoc]
      exact ih (p ++ raw) (number + 1) line hl hline

/-! ## What the state remembers -/

structure State.Marked (e : Loss) (s : State) : Prop where
  procedure : ∀ p, s.procedure = some p → IsStart e.whole p.start
  types : ∀ t ∈ s.types, IsStart e.whole t.start
  banner : ∀ b, s.banner = some b → IsStart e.whole b
  starts : ∀ n ∈ s.nodes, IsStart e.whole n.span.start
  docs : ∀ n ∈ s.nodes, n.kind = .doc → IsEnd e.whole n.span.stop

namespace State.Marked

theorem initial : State.Marked e .initial where
  procedure := fun _ h => by cases h
  types := fun _ h => by cases h
  banner := fun _ h => by cases h
  starts := fun _ h => by cases h
  docs := fun _ h => by cases h

/-- A declaration that ends at this line. -/
theorem declare (h : s.Marked e) {n : Node} (hstart : IsStart e.whole n.span.start)
    (hkind : n.kind ≠ .doc) (hnodes : s'.nodes = n :: s.nodes)
    (hprocedure : ∀ p, s'.procedure = some p → s.procedure = some p)
    (htypes : ∀ t ∈ s'.types, t ∈ s.types) (hbanner : s'.banner = none) : s'.Marked e where
  procedure := fun p hp => h.procedure p (hprocedure p hp)
  types := fun t ht => h.types t (htypes t ht)
  banner := fun b hb => by
    rw [hbanner] at hb
    cases hb
  starts := by
    rw [hnodes]
    exact List.forall_mem_cons.2 ⟨hstart, h.starts⟩
  docs := by
    rw [hnodes]
    exact List.forall_mem_cons.2 ⟨fun hdoc => absurd hdoc hkind, h.docs⟩

/-- **A line that is not blank gives its place**, and every other one none. -/
theorem step (h : s.Marked e)
    (hline : Text.allBlank line.text = false → IsStart e.whole line.start ∧ IsEnd e.whole line.stop)
    (hs : s.step line = .ok s') : s'.Marked e := by
  have hcoded (hcode : s.AtCode line) : IsStart e.whole line.start :=
    (hline (Bool.or_eq_false_iff.1 hcode.code).2).1
  cases State.step_eq_ok_iff.1 hs with
  | passed => exact ⟨h.procedure, h.types, h.banner, h.starts, h.docs⟩
  | header =>
    refine ⟨fun p' hp' => ?_, h.types, h.banner, h.starts, h.docs⟩
    obtain ⟨p, hp, rfl⟩ := Option.map_eq_some_iff.1 hp'
    exact h.procedure p hp
  | openBanner _ hbanner =>
    refine ⟨h.procedure, h.types, fun b hb => ?_, h.starts, h.docs⟩
    cases hb
    exact (hline (not_allBlank_of_isBanner hbanner)).1
  | closeBanner _ hbanner hopen =>
    have hstop := (hline (not_allBlank_of_isBanner hbanner)).2
    exact ⟨h.procedure, h.types, nofun, List.forall_mem_cons.2 ⟨h.banner _ hopen, h.starts⟩,
      List.forall_mem_cons.2 ⟨fun _ => hstop, h.docs⟩⟩
  | skip => exact h
  | endProcedure _ _ _ hopen =>
    exact h.declare (h.procedure _ hopen) (fun hk => by cases hk) rfl nofun (fun _ ht => ht) rfl
  | beginProcedure hcode =>
    refine ⟨fun p hp => ?_, h.types, nofun, h.starts, h.docs⟩
    cases hp
    exact hcoded hcode
  | beginType hplain =>
    exact ⟨h.procedure, List.forall_mem_cons.2 ⟨hcoded hplain.toAtCode, h.types⟩, nofun, h.starts,
      h.docs⟩
  | endType _ _ _ _ hopen =>
    exact h.declare (h.types _ (hopen ▸ List.mem_cons_self)) (fun hk => by cases hk) rfl
      (fun _ hp => hp) (fun _ ht => hopen ▸ List.mem_cons_of_mem _ ht) rfl
  | _ => exact ⟨h.procedure, h.types, nofun, h.starts, h.docs⟩

/-- The places that are found in a text. -/
theorem nodes (h : s.Marked e) (hfits : ∀ n ∈ s.nodes, n.Fits e.whole) :
    ∀ n ∈ s.nodes, n.Marked e .visualBasic := by
  intro n hn
  have hstart := h.starts n hn
  refine ⟨hstart, fun hdoc => ?_, fun hattach => by cases hattach⟩
  have hend := h.docs n hn hdoc
  have hle := (hfits n hn).span.ordered
  refine ⟨hend.isStop, Loss.isEmpty_slice hstart hend.isCut hle, ?_⟩
  exact Comment.read_worn (by decide) (Loss.worn_slice_end hstart hend hle)

end State.Marked

/-! ## The outline -/

/-- **What is left has the same lines to see**. -/
theorem foldlM_left (s : State) :
    ((physicalLines e.left).map (PhysicalLine.seen id)).foldlM State.step s =
      ((physicalLines e.whole).map (PhysicalLine.seen e.place)).foldlM State.step s := by
  by_cases hx : e.blank = '\n'
  · obtain ⟨before, line, after, hblank, hwhole, hleft⟩ := physicalLines_emptyLine hx
    rw [hwhole, hleft, List.foldlM_append, List.foldlM_append]
    refine congrArg (bind _) (funext fun t => ?_)
    calc (line :: after).foldlM State.step t
      _ = t.step line >>= after.foldlM State.step := List.foldlM_cons
      _ = (t.step line >>= (·.step line)) >>= after.foldlM State.step := by
        rw [State.step_blank hblank]
      _ = (line :: line :: after).foldlM State.step t := by
        simp only [bind_assoc, List.foldlM_cons]
  · rw [physicalLines_lineEnd hx]

theorem map_moved_id (nodes : List Node) : nodes.map (Node.moved id) = nodes := by
  refine List.map_id'' (fun n => ?_) nodes
  obtain ⟨kind, signature, span⟩ := n
  cases kind <;> rfl

/-- **The outline moves with the text**. -/
theorem outline_left {o : Outline} (h : outline e.whole = .ok o) :
    ∃ nodes, o = .ofNodes e.whole nodes ∧
      outline e.left = .ok (.ofNodes e.left (nodes.map (Node.moved e.place))) ∧
      ∀ n ∈ nodes, n.Marked e .visualBasic := by
  have hfits := (outline_fits h).2.nodes
  obtain ⟨s, hs, h⟩ := bind_eq_ok.1 h
  obtain ⟨nodes, hfinish, h⟩ := bind_eq_ok.1 h
  cases h
  have hmarked : s.Marked e := by
    refine foldlM_keeps (I := fun _ s => s.Marked e) .initial ?_ hs
    intro before line after t t' hlines ht hstep
    refine ht.step (fun htext => ?_) hstep
    have hplaced := placeLines_marked [] 1 (rawLines e.whole) line
      (show line ∈ physicalLines e.whole from hlines ▸ by simp) htext
    rwa [List.nil_append, Text.flatten_rawLines] at hplaced
  have hnodes : nodes = s.nodes.reverse := by
    unfold State.finish at hfinish
    split at hfinish
    · cases hfinish
    · cases hfinish
    · exact (Except.ok.inj hfinish).symm
  refine ⟨nodes, rfl, ?_, fun n hn => ?_⟩
  · have hseen := State.foldlM_seen e.place .initial (physicalLines e.whole)
    have hseen' := State.foldlM_seen id .initial (physicalLines e.left)
    rw [State.Alike, hs, ← foldlM_left] at hseen
    obtain ⟨t, ht, hst⟩ := Option.map_eq_some_iff.1 (hseen'.trans hseen.symm)
    have hend := State.finish_seen e.place s
    have hend' := State.finish_seen id t
    rw [hst, ← hend, hfinish] at hend'
    obtain ⟨nodes', hfinish', hmoved⟩ := Option.map_eq_some_iff.1 hend'
    rw [map_moved_id] at hmoved
    subst hmoved
    exact bind_eq_ok.2 ⟨t, toOption_eq_some ht, bind_eq_ok.2 ⟨_, toOption_eq_some hfinish', rfl⟩⟩
  · subst hnodes
    refine hmarked.nodes (fun m hm => hfits m ?_) n (List.mem_reverse.1 hn)
    simpa [Outline.ofNodes, List.mem_mergeSort] using hm

end Scholia.Source.Procedural
