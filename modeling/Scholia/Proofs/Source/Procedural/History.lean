import Scholia.Proofs.Source.Procedural.Procedures
import Scholia.Proofs.Source.Procedural.Shape
import Scholia.Proofs.Text.Lines
/-!
# Where procedures and comments began

A procedure began at a line where none was open, and until it ends no type opens or closes and
nothing else is found. A doc comment leaves all that is open as it was. So a procedure leads from
one state to another that differs in what has been found, and in the lambdas that it leaves open.
-/

namespace Scholia.Source.Procedural

variable {source : Text} {before : List PhysicalLine} {s s' : State} {line : PhysicalLine}

/-- The state behind some lines. -/
def Reads (lines : List PhysicalLine) (s : State) : Prop :=
  lines.foldlM State.step .initial = .ok s

theorem Reads.next (h : Reads before s) (hs : s.step line = .ok s') :
    Reads (before ++ [line]) s' := by
  unfold Reads at h ⊢
  rw [List.foldlM_append, h]
  show s.step line >>= _ = _
  rw [hs]
  rfl

/-- The declarations found, the last one first. -/
def State.found (s : State) : List Node :=
  s.nodes.filter Node.declares

/-- Two states in which the same is open and the same has been found, between headers. -/
structure Level (s s' : State) : Prop where
  continued : s.continued = .no
  continued' : s'.continued = .no
  procedure : s'.procedure = s.procedure
  lambdas : s'.lambdas = s.lambdas
  types : s'.types = s.types
  found : s'.found = s.found

/-- A line that is not blank. -/
def PhysicalLine.HasText (line : PhysicalLine) : Prop :=
  line.start < line.stop

/-- A procedure began at a line where none was open, and nothing has been found since. -/
def OpenProcedure.Began (before : List PhysicalLine) (s : State) (p : OpenProcedure) : Prop :=
  ∃ pre line mid s₀, before = pre ++ line :: mid ∧ Reads pre s₀ ∧ line.start = p.start ∧
    line.HasText ∧ s₀.continued = .no ∧ s₀.procedure = none ∧ s.types = s₀.types ∧
    State.inInterface s₀.types = false ∧ s.found = s₀.found

/-- A procedure that has ended, from one state without a procedure to another. -/
structure Framed (pre : List PhysicalLine) (line : PhysicalLine) (mid : List PhysicalLine)
    (n : Node) (s s' : State) : Prop where
  reads : Reads pre s
  reads' : Reads (pre ++ line :: mid) s'
  start : n.span.start = line.start
  text : line.HasText
  stop : ∃ last, (line :: mid).getLast? = some last ∧ n.span.stop = last.stop ∧ last.HasText
  continued : s.continued = .no
  continued' : s'.continued = .no
  procedure : s.procedure = none
  procedure' : s'.procedure = none
  types : s'.types = s.types
  holds : State.inInterface s.types = false
  found : s'.found = n :: s.found

/-- A doc comment that has ended. -/
structure Commented (pre : List PhysicalLine) (line : PhysicalLine) (mid : List PhysicalLine)
    (span : Span) (s s' : State) : Prop where
  reads : Reads pre s
  reads' : Reads (pre ++ line :: mid) s'
  start : span.start = line.start
  text : line.HasText
  stop : ∃ last, (line :: mid).getLast? = some last ∧ span.stop = last.stop ∧ last.HasText
  level : Level s s'

/-- What is recorded with a node. -/
def Recorded (before : List PhysicalLine) (n : Node) : Prop :=
  match n.kind with
  | .doc => ∃ pre line mid post s s', before = pre ++ line :: mid ++ post ∧
      Commented pre line mid n.span s s'
  | .routine .. => ∃ pre line mid post s s', before = pre ++ line :: mid ++ post ∧
      Framed pre line mid n s s'
  | .typeDecl _ => True

theorem Recorded.more {n : Node} (h : Recorded before n) (line : PhysicalLine) :
    Recorded (before ++ [line]) n := by
  unfold Recorded at h ⊢
  split at h
  · obtain ⟨pre, first, mid, post, s, s', rfl, h⟩ := h
    exact ⟨pre, first, mid, post ++ [line], s, s', by simp only [List.append_assoc], h⟩
  · obtain ⟨pre, first, mid, post, s, s', rfl, h⟩ := h
    exact ⟨pre, first, mid, post ++ [line], s, s', by simp only [List.append_assoc], h⟩
  · trivial

/-- What the state remembers of the lines before it. -/
structure State.Recalls (before : List PhysicalLine) (s : State) : Prop where
  procedure : ∀ p, s.procedure = some p → p.Began before s
  banner : ∀ b, s.banner = some b → ∃ pre line mid s₀, before = pre ++ line :: mid ∧ Reads pre s₀ ∧
    line.start = b ∧ line.HasText ∧ Level s₀ s
  nodes : ∀ n ∈ s.nodes, Recorded before n

theorem not_allBlank_of_isBanner {text : Text} (h : isBanner text = true) :
    Text.allBlank text = false := by
  cases hb : Text.allBlank text with
  | false => rfl
  | true =>
    have htrim : Text.trim text = [] := by
      rw [Text.trim, Text.trimStart_of_allBlank hb]
      rfl
    rw [isBanner, htrim] at h
    cases h

namespace State.Recalls

theorem initial : State.Recalls [] .initial where
  procedure := fun _ h => by cases h
  banner := fun _ h => by cases h
  nodes := fun _ h => by cases h

/-- A line that leaves types and declarations leaves the procedure where it began. -/
theorem keep (h : s.Recalls before)
    (hp : ∀ p', s'.procedure = some p' → ∃ p, s.procedure = some p ∧ p'.start = p.start)
    (ht : s'.types = s.types) (hb : s'.banner = none) (hn : s'.nodes = s.nodes) :
    s'.Recalls (before ++ [line]) := by
  have hf : s'.found = s.found := congrArg (List.filter Node.declares) hn
  refine ⟨fun p' hp' => ?_, fun b hb' => ?_, fun n hmem => ?_⟩
  · obtain ⟨p, hs, hstart⟩ := hp p' hp'
    obtain ⟨pre, first, mid, s₀, rfl, hr, hline, htext, hc, hnone, htypes, hholds, hfound⟩ :=
      h.procedure p hs
    exact ⟨pre, first, mid ++ [line], s₀, by simp only [List.append_assoc, List.cons_append], hr,
      hline.trans hstart.symm, htext, hc, hnone, ht.trans htypes, hholds, hf.trans hfound⟩
  · rw [hb] at hb'
    cases hb'
  · exact (h.nodes n (hn ▸ hmem)).more line

/-- While a banner waits no header goes on. -/
theorem banner_none (h : s.Recalls before) (hc : s.continued ≠ .no) : s.banner = none := by
  cases hb : s.banner with
  | none => rfl
  | some b =>
    obtain ⟨pre, first, mid, s₀, -, -, -, -, hlevel⟩ := h.banner b hb
    exact absurd hlevel.continued' hc

theorem endProcedure {p : OpenProcedure} (h : s.Recalls before)
    (hr : Reads (before ++ [line]) s') (hc : s.continued = .no) (htext : line.HasText)
    (hopen : s.procedure = some p)
    (hs : s' = { s with
      banner := none
      procedure := none
      nodes := .routine p.name (signature p.header) ⟨p.start, line.stop⟩ p.bodyStart :: s.nodes }) :
    s'.Recalls (before ++ [line]) := by
  obtain ⟨pre, first, mid, s₀, rfl, hr₀, hline, hfirst, hc₀, hnone, htypes, hholds, hfound⟩ :=
    h.procedure p hopen
  have hreads : Reads (pre ++ first :: (mid ++ [line])) s' := by
    rw [← List.cons_append, ← List.append_assoc]
    exact hr
  subst hs
  refine ⟨nofun, nofun, List.forall_mem_cons.2 ⟨?_, fun n hn => (h.nodes n hn).more line⟩⟩
  refine ⟨pre, first, mid ++ [line], [], s₀, _, ?_, ⟨hr₀, hreads, hline.symm, hfirst, ?_, hc₀, hc,
    hnone, rfl, htypes, hholds, ?_⟩⟩
  · simp only [List.append_assoc, List.cons_append, List.append_nil]
  · exact ⟨line, by rw [← List.cons_append, List.getLast?_concat], rfl, htext⟩
  · rw [← hfound]
    rfl

/-- While a banner waits, nothing changes but what it is followed by. -/
theorem wait {b : Nat} (h : s.Recalls before) (hb : s.banner = some b) (hl : Level s s') :
    ∃ pre first mid s₀, before ++ [line] = pre ++ first :: (mid ++ [line]) ∧ Reads pre s₀ ∧
      first.start = b ∧ first.HasText ∧ Level s₀ s' := by
  obtain ⟨pre, first, mid, s₀, rfl, hr, hstart, htext, hlevel⟩ := h.banner b hb
  refine ⟨pre, first, mid, s₀, by simp only [List.append_assoc, List.cons_append], hr, hstart, htext,
    hlevel.continued, hl.continued', hl.procedure.trans hlevel.procedure,
    hl.lambdas.trans hlevel.lambdas, hl.types.trans hlevel.types, hl.found.trans hlevel.found⟩

theorem quiet (h : s.Recalls before) (hc : s.continued = .no) : s.Recalls (before ++ [line]) := by
  refine ⟨fun p hp => ?_, fun b hb => ?_, fun n hn => (h.nodes n hn).more line⟩
  · obtain ⟨pre, first, mid, s₀, rfl, hr, hfacts⟩ := h.procedure p hp
    exact ⟨pre, first, mid ++ [line], s₀, by simp only [List.append_assoc, List.cons_append], hr,
      hfacts⟩
  · obtain ⟨pre, first, mid, s₀, he, hfacts⟩ := h.wait hb ⟨hc, hc, rfl, rfl, rfl, rfl⟩
    exact ⟨pre, first, mid ++ [line], s₀, he, hfacts⟩

theorem closeBanner {b : Nat} (h : s.Recalls before) (hr : Reads (before ++ [line]) s')
    (hc : s.continued = .no) (hb : s.banner = some b) (htext' : line.HasText)
    (hs : s' = { s with banner := none, nodes := .doc ⟨b, line.stop⟩ :: s.nodes }) :
    s'.Recalls (before ++ [line]) := by
  subst hs
  refine ⟨fun p hp => ?_, (fun _ he => by cases he),
    List.forall_mem_cons.2 ⟨?_, fun n hn => (h.nodes n hn).more line⟩⟩
  · obtain ⟨pre, first, mid, s₀, rfl, hfacts⟩ := h.procedure p hp
    exact ⟨pre, first, mid ++ [line], s₀, by simp only [List.append_assoc, List.cons_append],
      hfacts⟩
  · obtain ⟨pre, first, mid, s₀, he, hr₀, hstart, htext, hlevel⟩ :=
      h.wait hb ⟨hc, hc, rfl, rfl, rfl, rfl⟩
    rw [he] at hr ⊢
    refine ⟨pre, first, mid ++ [line], [], s₀, _, (List.append_nil _).symm, hr₀, hr, hstart.symm,
      htext, ?_, ⟨hlevel.continued, hc, hlevel.procedure, hlevel.lambdas, hlevel.types,
        hlevel.found⟩⟩
    exact ⟨line, by rw [← List.cons_append, List.getLast?_concat], rfl, htext'⟩

theorem openBanner (h : s.Recalls before) (hr : Reads before s) (hc : s.continued = .no)
    (htext : line.HasText) (hs : s' = { s with banner := some line.start }) :
    s'.Recalls (before ++ [line]) := by
  subst hs
  refine ⟨fun p hp => ?_, fun b hb => ?_, fun n hn => (h.nodes n hn).more line⟩
  · obtain ⟨pre, first, mid, s₀, rfl, hfacts⟩ := h.procedure p hp
    exact ⟨pre, first, mid ++ [line], s₀, by simp only [List.append_assoc, List.cons_append],
      hfacts⟩
  · cases hb
    exact ⟨before, line, [], s, rfl, hr, rfl, htext, hc, hc, rfl, rfl, rfl, rfl⟩

/-- **Every line keeps what the state remembers**. -/
theorem next (h : s.Recalls before) (hr : Reads before s)
    (htext : Text.allBlank line.text = false → line.HasText) (hs : s.step line = .ok s') :
    s'.Recalls (before ++ [line]) := by
  have hcoded (hcode : s.AtCode line) : line.HasText := htext (Bool.or_eq_false_iff.1 hcode.code).2
  have hclosed (hnone : s.procedure = none) {s'' : State} :
      ∀ p, s.procedure = some p → p.Began (before ++ [line]) s'' := by
    rw [hnone]
    exact nofun
  have hnodes : ∀ n ∈ s.nodes, Recorded (before ++ [line]) n := fun n hn => (h.nodes n hn).more line
  have hstep := step_eq_ok_iff.1 hs
  have hreads := hr.next hs
  cases hstep with
  | passed hc =>
    exact h.keep (fun p hp => ⟨p, hp, rfl⟩) rfl (h.banner_none (by rw [hc]; decide)) rfl
  | header hc =>
    refine h.keep (fun p' hp => ?_) rfl (h.banner_none (by rw [hc]; decide)) rfl
    obtain ⟨p, hopen, rfl⟩ := Option.map_eq_some_iff.1 hp
    exact ⟨p, hopen, rfl⟩
  | openBanner hc hbanner =>
    exact h.openBanner hr hc (htext (not_allBlank_of_isBanner hbanner)) rfl
  | closeBanner hc hbanner hopen =>
    exact h.closeBanner hreads hc hopen (htext (not_allBlank_of_isBanner hbanner)) rfl
  | skip hc => exact h.quiet hc
  | endProcedure hcode _ _ hopen =>
    exact h.endProcedure hreads hcode.continued (hcoded hcode) hopen rfl
  | beginProcedure hcode _ _ hbody hnone =>
    refine ⟨fun p hp => ?_, nofun, hnodes⟩
    cases hp
    exact ⟨before, line, [], s, rfl, hr, rfl, hcoded hcode, hcode.continued, hnone, rfl,
      (Bool.or_eq_false_iff.1 hbody).2, rfl⟩
  | beginType _ hnone => exact ⟨hclosed hnone, nofun, hnodes⟩
  | endType _ hnone =>
    exact ⟨hclosed hnone, nofun, List.forall_mem_cons.2 ⟨trivial, hnodes⟩⟩
  | _ => exact h.keep (fun p hp => ⟨p, hp, rfl⟩) rfl rfl rfl

end State.Recalls

end Scholia.Source.Procedural
