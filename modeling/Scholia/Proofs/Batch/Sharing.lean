import Scholia.Batch.Sharing
import Scholia.Proofs.Batch.Failure
import Scholia.Proofs.Text.Table
/-!
# Batches neither lose nor mix outcomes

Whatever steps the batches take and in whatever order, the collector holds nothing while no batch has
the gate, and each batch answers the outcomes of its own files, sorted. The invariant is that what
is collected and what is still to come of the batch at the gate together are its outcomes.

A batch that is cancelled while it has the gate is not spoken of.
-/

namespace Scholia.Batch

/-! ## Sorting -/

theorem sorted_perm (outcomes : List Outcome) : (sorted outcomes).Perm outcomes :=
  List.mergeSort_perm ..

/-- Sorted outcomes are in the order of their files. -/
theorem sorted_pairwise (outcomes : List Outcome) :
    (sorted outcomes).Pairwise fun o p => Text.before p.file o.file = false := by
  have htrans : ∀ o p q : Outcome, (!Text.before p.file o.file) = true →
      (!Text.before q.file p.file) = true → (!Text.before q.file o.file) = true := by
    intro o p q hop hpq
    simp only [Bool.not_eq_true'] at *
    exact Text.not_before_trans hop hpq
  have htotal : ∀ o p : Outcome,
      ((!Text.before p.file o.file) || (!Text.before o.file p.file)) = true := by
    intro o p
    cases hpo : Text.before p.file o.file with
    | false => rfl
    | true => simp [Text.before_asymm hpo]
  have h := List.pairwise_mergeSort htrans htotal outcomes
  simpa [sorted] using h

theorem eq_of_file_eq {outcomes : List Outcome} (h : (outcomes.map Outcome.file).Nodup)
    {o p : Outcome} (ho : o ∈ outcomes) (hp : p ∈ outcomes) (hfile : o.file = p.file) : o = p := by
  induction outcomes with
  | nil => cases ho
  | cons first rest ih =>
    rw [List.map_cons, List.nodup_cons] at h
    rcases List.mem_cons.1 ho with rfl | ho' <;> rcases List.mem_cons.1 hp with rfl | hp'
    · rfl
    · exact absurd (List.mem_map.2 ⟨p, hp', hfile.symm⟩) h.1
    · exact absurd (List.mem_map.2 ⟨o, ho', hfile⟩) h.1
    · exact ih h.2 ho' hp'

theorem sorted_eq_self {outcomes : List Outcome}
    (h : outcomes.Pairwise fun o p => Text.before p.file o.file = false) :
    sorted outcomes = outcomes :=
  List.mergeSort_of_pairwise (h.imp fun hop => by simp [hop])

/-- **The order of outcomes of different files is decided by sorting alone**. -/
theorem sorted_eq_of_perm {outcomes outcomes' : List Outcome} (h : outcomes.Perm outcomes')
    (hfiles : (outcomes.map Outcome.file).Nodup) : sorted outcomes = sorted outcomes' := by
  have hperm : (sorted outcomes).Perm (sorted outcomes') :=
    (sorted_perm outcomes).trans (h.trans (sorted_perm outcomes').symm)
  refine hperm.eq_of_pairwise (fun o p ho hp hop hpo => ?_) (sorted_pairwise _) (sorted_pairwise _)
  have hp' : p ∈ outcomes := h.mem_iff.2 ((sorted_perm outcomes').mem_iff.1 hp)
  exact eq_of_file_eq hfiles ((sorted_perm outcomes).mem_iff.1 ho) hp'
    (Text.eq_of_not_before hpo hop)

/-! ## The invariant -/

/-- What a phase of a batch with these outcomes of its own says about gate and collector. -/
def Phase.Fits (own : List Outcome) (atGate : Prop) (collector : Collector) : Phase → Prop
  | waiting => True
  | working left => atGate ∧ (collector.outcomes ++ left).Perm own
  | reporting answer => atGate ∧ collector = .empty ∧ ∃ l : List Outcome, l.Perm own ∧ answer = sorted l
  | answered answer => ∃ l : List Outcome, l.Perm own ∧ answer = sorted l

/-- A batch that is not at the gate has no part in gate and collector. -/
theorem Phase.Fits.away {own : List Outcome} {atGate : Prop} {collector : Collector} {p : Phase}
    (h : p.Fits own atGate collector) (hgate : ¬ atGate) (atGate' : Prop)
    (collector' : Collector) : p.Fits own atGate' collector' := by
  cases p with
  | waiting => trivial
  | working left => exact absurd h.1 hgate
  | reporting answer => exact absurd h.1 hgate
  | answered answer => exact h

/-- What holds of a site between two steps. -/
structure Site.Sound {ι : Type} (outcomes : ι → List Outcome) (s : Site ι) : Prop where
  /-- Without a batch at the gate nothing is collected. -/
  idle : s.gate = none → s.collector = .empty
  fits : ∀ i, (s.phase i).Fits (outcomes i) (s.gate = some i) s.collector

theorem Site.sound_start {ι : Type} {outcomes : ι → List Outcome} :
    (Site.start : Site ι).Sound outcomes :=
  ⟨fun _ => rfl, fun _ => trivial⟩

section Steps

variable {ι : Type} [DecidableEq ι] {outcomes : ι → List Outcome} {s t : Site ι}

/-- A step of the batch at the gate, or of one that takes the gate, is sound for all if it is sound
for that batch. -/
theorem Site.Sound.put (h : s.Sound outcomes) {i : ι} {next : Phase}
    (hgate : ∀ j, s.gate = some j → j = i) (hphase : t.phase = Site.put s.phase i next)
    (hidle : t.gate = none → t.collector = .empty)
    (hnext : next.Fits (outcomes i) (t.gate = some i) t.collector) : t.Sound outcomes := by
  refine ⟨hidle, fun j => ?_⟩
  rw [hphase, Site.put]
  split
  · next hj => exact hj ▸ hnext
  · next hj => exact (h.fits j).away (fun hj' => hj (hgate j hj')) _ _

/-- **No step loses, repeats or mixes outcomes**. -/
theorem Site.Sound.step (h : s.Sound outcomes) (hstep : Step outcomes s t) : t.Sound outcomes := by
  have hholds : ∀ {i j : ι}, s.gate = some i → s.gate = some j → j = i :=
    fun hi hj => Option.some.inj (hj.symm.trans hi)
  cases hstep with
  | take i hphase hgate =>
    refine h.put (fun j hj => ?_) rfl (fun hnone => ?_) ⟨rfl, ?_⟩
    · rw [hgate] at hj
      cases hj
    · cases hnone
    · simp only [h.idle hgate]
      exact .refl _
  | collect i before after o hphase =>
    have hfits := h.fits i
    rw [hphase] at hfits
    obtain ⟨hgate, hperm⟩ := hfits
    refine h.put (fun j => hholds hgate) rfl (fun hnone => ?_) ⟨hgate, List.Perm.trans ?_ hperm⟩
    · rw [hgate] at hnone
      cases hnone
    · simp only [Collector.collect, List.append_assoc]
      exact (@List.perm_middle _ _ before _).symm.append_left _
  | drain i hphase =>
    have hfits := h.fits i
    rw [hphase] at hfits
    obtain ⟨hgate, hperm⟩ := hfits
    rw [List.append_nil] at hperm
    exact h.put (fun j => hholds hgate) rfl (fun _ => rfl) ⟨hgate, rfl, _, hperm, rfl⟩
  | release i answer hphase =>
    have hfits := h.fits i
    rw [hphase] at hfits
    obtain ⟨hgate, hempty, hanswer⟩ := hfits
    exact h.put (fun j => hholds hgate) rfl (fun _ => hempty) hanswer

theorem Reaches.sound (h : Reaches outcomes s) : s.Sound outcomes := by
  induction h with
  | start => exact Site.sound_start
  | step _ hstep ih => exact ih.step hstep

end Steps

/-! ## Answers -/

/-- A batch that is asked for, with what the work on each of its files comes to. -/
structure Order where
  limits : Limits
  request : Request
  works : List (Path × Outcome)
  files_eq : works.map Prod.fst = request.files
  ends : ∀ w ∈ works, (documentFile limits.clamped request w.1).Ends w.2

namespace Order

def outcomes (a : Order) : List Outcome := a.works.map Prod.snd

theorem map_file_outcomes (a : Order) :
    a.outcomes.map Outcome.file = a.request.files.map a.request.shown := by
  rw [outcomes, ← a.files_eq, List.map_map, List.map_map]
  refine List.map_congr_left fun w hw => ?_
  obtain ⟨events, hruns⟩ := (a.ends w hw).runs
  exact (course_of_runs hruns).file_eq

/-- A batch alone answers its outcomes, sorted. -/
theorem run_ends (a : Order) : (run a.limits a.request .empty).Ends (sorted a.outcomes, .empty) := by
  have hfiles : ∀ (works : List (Path × Outcome)) (c : Collector),
      (∀ w ∈ works, (documentFile a.limits.clamped a.request w.1).Ends w.2) →
      (documentFiles a.limits.clamped a.request (works.map Prod.fst) c).Ends
        ⟨c.outcomes ++ works.map Prod.snd⟩ := by
    intro works
    induction works with
    | nil =>
      intro c _
      simp only [List.map_nil, List.append_nil]
      exact .done c
    | cons w works ih =>
      intro c h
      have := ih (c.collect w.2) fun w' hw' => h w' (List.mem_cons_of_mem _ hw')
      rw [Collector.collect, List.append_assoc] at this
      exact Program.ends_bind.2 ⟨w.2, h w List.mem_cons_self, this⟩
  have hcollected : (documentFiles a.limits.clamped a.request a.request.files .empty).Ends
      ⟨a.outcomes⟩ := a.files_eq ▸ hfiles a.works .empty a.ends
  refine Program.ends_bind.2 ⟨_, hcollected, ?_⟩
  by_cases hempty : (sorted a.outcomes).isEmpty = true
  · simp only [Collector.drain, hempty, if_true]
    exact .done _
  · simp only [Collector.drain, hempty]
    obtain ⟨u, hreport⟩ := Program.exists_ends nowhere
      (writeReport a.request.outputFolder (sorted a.outcomes))
    exact Program.ends_bind.2 ⟨u, hreport, .done _⟩

end Order

/-- **Batches neither lose, repeat nor mix outcomes**, whatever steps they take in whatever order.

While no batch has the gate the collector is empty. What a batch answers are the outcomes of its own
files, one for each entry of its request, in the order of the names under which they are shown. If
these names differ, the answer is the one that the batch gives alone, in whatever order its files
were done. -/
theorem batches_keep_apart {ι : Type} [DecidableEq ι] (orders : ι → Order) {s : Site ι}
    (h : Reaches (fun i => (orders i).outcomes) s) :
    (s.gate = none → s.collector = .empty) ∧
    (∀ i answer, s.phase i = .answered answer →
      answer.Perm (orders i).outcomes ∧
      (answer.map Outcome.file).Perm ((orders i).request.files.map (orders i).request.shown) ∧
      answer.Pairwise fun o p => Text.before p.file o.file = false) ∧
    ∀ i answer, s.phase i = .answered answer →
      ((orders i).request.files.map (orders i).request.shown).Nodup →
      answer = sorted (orders i).outcomes ∧
        (run (orders i).limits (orders i).request .empty).Ends (answer, .empty) := by
  have hsound := h.sound
  refine ⟨hsound.idle, fun i answer hanswer => ?_, fun i answer hanswer hnames => ?_⟩
  · have hfits := hsound.fits i
    rw [hanswer] at hfits
    obtain ⟨l, hperm, rfl⟩ := hfits
    have hall := (sorted_perm l).trans hperm
    refine ⟨hall, ?_, sorted_pairwise l⟩
    rw [← (orders i).map_file_outcomes]
    exact hall.map Outcome.file
  · have hfits := hsound.fits i
    rw [hanswer] at hfits
    obtain ⟨l, hperm, rfl⟩ := hfits
    have heq : sorted l = sorted (orders i).outcomes := by
      refine (sorted_eq_of_perm hperm.symm ?_).symm
      rw [(orders i).map_file_outcomes]
      exact hnames
    exact ⟨heq, heq ▸ (orders i).run_ends⟩

/-! ## Two batches -/

/-- The outcome of a file of an unknown kind. -/
def refused (file : Path) : Outcome :=
  (Outcome.fresh file.text).fail ("unsupported file type: ".toList ++ file.text)

/-- A request for files without a project. -/
def requestFor (files : List Path) : Request :=
  ⟨none, files, .quick, ⟨"out".toList⟩, .standard, false⟩

theorem refused_ends {limits : Limits} {files : List Path} {file : Path}
    (h : SourceKind.ofPath? file = none) :
    (documentFile limits (requestFor files) file).Ends (refused file) := by
  refine Program.ends_bind.2 ⟨(), .call () (.done ()), ?_⟩
  rw [h]
  exact (finish_runs.2 ⟨rfl, rfl⟩).ends

/-- A request for files of unknown kinds. -/
def refusedOrder (files : List Path) (h : ∀ file ∈ files, SourceKind.ofPath? file = none) :
    Order where
  limits := ⟨2, 0, 300⟩
  request := requestFor files
  works := files.map fun file => (file, refused file)
  files_eq := by rw [List.map_map]; exact List.map_id files
  ends w hw := by
    obtain ⟨file, hfile, rfl⟩ := List.mem_map.1 hw
    exact refused_ends (h file hfile)

def noteA : Path := ⟨"a.txt".toList⟩

def noteB : Path := ⟨"b.txt".toList⟩

/-- One batch of two files and one of one file. -/
def sampleOrders : Bool → Order
  | false => refusedOrder [noteB, noteA] (by decide +kernel)
  | true => refusedOrder [noteA] (by decide +kernel)

/-- The first batch takes the gate; its second file is done first. Then the second batch begins. -/
theorem batches_keep_apart_sampleOrders : ∃ s,
    Reaches (fun i => (sampleOrders i).outcomes) s ∧
      s.phase false = .answered [refused noteA, refused noteB] ∧
      s.phase true = .working [] ∧ s.collector = ⟨[refused noteA]⟩ ∧
      [refused noteA, refused noteB] = sorted (sampleOrders false).outcomes := by
  have htaken : Step (fun i => (sampleOrders i).outcomes) .start _ := .take false rfl rfl
  have h₁ := Reaches.start.step htaken
  have h₂ := h₁.step (.collect false [refused noteB] [] (refused noteA) rfl)
  have h₃ := h₂.step (.collect false [] [] (refused noteB) rfl)
  have h₄ := h₃.step (.drain false rfl)
  have h₅ := h₄.step (.release false _ rfl)
  have h₆ := h₅.step (.take true rfl rfl)
  have h₇ := h₆.step (.collect true [] [] (refused noteA) rfl)
  have hanswer : sorted [refused noteA, refused noteB] = [refused noteA, refused noteB] :=
    sorted_eq_self (by decide +kernel)
  refine ⟨_, h₇, ?_, rfl, rfl, ?_⟩
  · exact congrArg Phase.answered hanswer
  · exact ((batches_keep_apart sampleOrders h₇).2.2 false _ (congrArg Phase.answered hanswer)
      (by decide +kernel)).1

end Scholia.Batch
