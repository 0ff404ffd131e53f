import Scholia.Proofs.Batch.Course
import Scholia.Proofs.Evaluation
import Scholia.Storage.Memory
/-!
# Files that fail

A file that fails before its code is written back is left as it was, and its outcome says so: it
counts no routine as documented and names no document. The statements are about every run, under
whatever the model and the storage answer. Of the storage only this is asked: a call succeeds as a
whole or fails without effect (`World`).

A document that cannot be written comes after the code. It is no reason to take the code back.
-/

namespace Scholia

/-! ## Outcomes -/

namespace Outcome

/-- The outcome of a file that has not failed and of which no document has been written. -/
structure Pending (o : Outcome) : Prop where
  error : o.error = none
  artifacts : o.artifacts = []
  documented_le : o.documented ≤ o.total

/-- The counts fit, and a file that has failed as a whole has nothing to show. -/
structure Consistent (o : Outcome) : Prop where
  documented_le : o.documented ≤ o.total
  failed : o.isFailed = true → o.documented = 0 ∧ o.artifacts = []

theorem pending_fresh (file : Text) : (fresh file).Pending := ⟨rfl, rfl, Nat.le_refl 0⟩

theorem Pending.fail {o : Outcome} (h : o.Pending) (reason : Text) : (o.fail reason).Consistent :=
  ⟨Nat.zero_le _, fun _ => ⟨rfl, h.artifacts⟩⟩

theorem Pending.not_isFailed {o : Outcome} (h : o.Pending) : o.isFailed = false := by
  rw [isFailed, h.error]
  rfl

theorem Pending.consistent {o : Outcome} (h : o.Pending) : o.Consistent :=
  ⟨h.documented_le, fun hfailed => absurd hfailed (by rw [h.not_isFailed]; exact Bool.false_ne_true)⟩

end Outcome

theorem Harvest.add_documented_le {language : Language} {h : Harvest} (routine : Source.Routine)
    (hle : h.documented ≤ h.total) :
    (h.add language routine).documented ≤ (h.add language routine).total := by
  unfold Harvest.add
  split
  · exact Nat.succ_le_succ hle
  · exact Nat.le_succ_of_le hle

theorem Harvest.foldl_documented_le {language : Language} (routines : List Source.Routine)
    {h : Harvest} (hle : h.documented ≤ h.total) :
    (routines.foldl (Harvest.add language) h).documented ≤
      (routines.foldl (Harvest.add language) h).total := by
  induction routines generalizing h with
  | nil => exact hle
  | cons routine routines ih => exact ih (Harvest.add_documented_le routine hle)

/-- **No more routines are documented than there are**. -/
theorem Language.harvest_documented_le {language : Language} {source : Text} {h : Harvest}
    (hharvest : language.harvest source = .ok h) : h.documented ≤ h.total := by
  obtain ⟨routines, -, hfold⟩ := bind_eq_ok.1 hharvest
  cases hfold
  exact Harvest.foldl_documented_le routines (Nat.le_refl 0)

/-- The documentation that comes with an accepted reply is that of its code. -/
theorem Reply.harvest_of_acceptFile {kind : SourceKind} {reply : Text} {accepted : AcceptedFile}
    (h : acceptFile kind reply = .ok accepted) {harvest : Harvest}
    (hharvest : accepted.harvest = some harvest) :
    ∃ language, kind.language? = some language ∧ language.harvest accepted.code = .ok harvest := by
  obtain ⟨block, -, h⟩ := bind_eq_ok.1 h
  simp only at h
  split at h
  · split at h
    · cases h
      cases hharvest
    · next language hlanguage =>
      obtain ⟨read, hread, h⟩ := bind_eq_ok.1 h
      cases h
      cases hharvest
      cases hcode : language.harvest block.code with
      | error fault =>
        rw [hcode] at hread
        cases hread
      | ok harvest =>
        rw [hcode] at hread
        cases hread
        exact ⟨language, hlanguage, hcode⟩
  · cases h

namespace Batch

/-! ## Drafts -/

section Drafts

variable {limits : Limits} {r : Request} {kind : SourceKind} {language : Language}
  {source : Text} {o : Outcome}

theorem draftOf_pending {accepted : Reply.AcceptedFile} {reply : Text}
    (haccepted : Reply.acceptFile kind reply = .ok accepted) (ho : o.Pending) :
    (draftOf o accepted).outcome.Pending := by
  unfold draftOf
  split
  · next harvest hharvest =>
    obtain ⟨language, -, hcode⟩ := Reply.harvest_of_acceptFile haccepted hharvest
    exact ⟨ho.error, ho.artifacts, Language.harvest_documented_le hcode⟩
  · exact ho

theorem foldl_withResult_pending (results : List (Source.Routine × Result)) {o : Outcome}
    (ho : o.Pending) (hle : o.documented + results.length ≤ o.total) :
    (results.foldl (fun o (routine, result) => withResult o routine result) o).Pending := by
  induction results generalizing o with
  | nil => exact ho
  | cons p results ih =>
    obtain ⟨routine, result⟩ := p
    rw [List.length_cons] at hle
    cases result with
    | ok accepted =>
      exact ih (o := { o with documented := o.documented + 1 })
        ⟨ho.error, ho.artifacts, by simp only; omega⟩ (by simp only; omega)
    | error reason =>
      exact ih (o := { o with routineErrors := o.routineErrors.put routine.signature reason })
        ⟨ho.error, ho.artifacts, ho.documented_le⟩ (by simp only; omega)

/-- What an attempt at a file's code leaves behind. -/
def Attempt.Sound : Attempt → Prop
  | .error failed => failed.isFailed = true ∧ failed.Consistent
  | .ok d => d.outcome.Pending

theorem documentRoutines_sound {attempt : Attempt} (ho : o.Pending) (hnone : o.documented = 0)
    (h : (documentRoutines limits language source o).Ends attempt) : attempt.Sound := by
  cases hroutines : language.routines source with
  | error fault =>
    rw [documentRoutines, hroutines] at h
    rw [Program.ends_pure.1 h]
    exact ⟨rfl, ho.fail _⟩
  | ok routines =>
    obtain ⟨results, hkeys, rfl⟩ := documentRoutines_ends hroutines h
    refine foldl_withResult_pending results ⟨ho.error, ho.artifacts, ?_⟩ ?_
    · simp only [hnone]
      exact Nat.zero_le _
    · simp only [hnone, ← hkeys, List.length_map, Nat.zero_add]
      exact Nat.le_refl _

theorem documentWhole_sound {attempt : Attempt} (ho : o.Pending) (hnone : o.documented = 0)
    {events : List Event} (h : (documentWhole limits kind source o).Runs events attempt) :
    attempt.Sound := by
  rcases documentWhole_runs h with ⟨fault, -, rfl⟩ |
    ⟨total?, told, asking, result, -, hasking, -, rfl⟩
  · exact ⟨rfl, ho.fail _⟩
  · have ho' : Outcome.Pending { o with total := total?.getD o.total } :=
      ⟨ho.error, ho.artifacts, by simp only [hnone]; exact Nat.zero_le _⟩
    cases result with
    | error reason => exact ⟨rfl, ho'.fail _⟩
    | ok accepted =>
      obtain ⟨reply, -, hverdict⟩ := askUntil_accepted hasking
      obtain ⟨text, -, haccept⟩ := bind_eq_ok.1 hverdict
      cases hreply : Reply.acceptFile kind text with
      | error fault =>
        rw [acceptWhole, hreply] at haccept
        cases haccept
      | ok accepted' =>
        rw [acceptWhole, hreply] at haccept
        cases haccept
        exact draftOf_pending hreply ho'

/-- **A draft is sound**, whichever strategy it comes from. -/
theorem draft_sound {file : Text} {events : List Event} {attempt : Attempt}
    (h : (draft limits r kind source (.fresh file)).Runs events attempt) : attempt.Sound := by
  have hpending : ∀ chosen, Outcome.Pending { Outcome.fresh file with strategy := some chosen } :=
    fun chosen => ⟨rfl, rfl, Nat.le_refl 0⟩
  rw [draft] at h
  split at h
  · exact documentRoutines_sound (hpending _) rfl h.ends
  · exact documentWhole_sound (hpending _) rfl h

end Drafts

/-! ## Documents that cannot be written -/

theorem writeDocument_error {path : Path} {content : Storage.Content} {reason : Text}
    (h : (writeDocument path content).Ends (.error reason)) :
    ∃ why, reason = documentFault path why := by
  obtain ⟨answer, -, h⟩ := Program.ends_bind.1 h
  cases answer with
  | ok done => cases Program.ends_pure.1 h
  | error why =>
    cases Program.ends_pure.1 h
    exact ⟨why, rfl⟩

theorem writeEach_error {documents : List (Job (Except Text Path))} {reason : Text}
    (hfault : ∀ document ∈ documents, ∀ reason, document.Ends (.error reason) →
      ∃ path why, reason = documentFault path why)
    (h : (writeEach documents).Ends (.error reason)) :
    ∃ path why, reason = documentFault path why := by
  induction documents with
  | nil => cases Program.ends_pure.1 h
  | cons document rest ih =>
    obtain ⟨result, hresult, h⟩ := Program.ends_bind.1 h
    cases result with
    | error why =>
      cases Program.ends_pure.1 h
      exact hfault document List.mem_cons_self _ hresult
    | ok path =>
      obtain ⟨more, hmore, h⟩ := Program.ends_bind.1 h
      cases more with
      | ok paths => cases Program.ends_pure.1 h
      | error why =>
        cases Program.ends_pure.1 h
        exact ih (fun document hd => hfault document (List.mem_cons_of_mem _ hd)) hmore

/-- **What keeps documents from being written is reported with its path**. -/
theorem writeDocuments_error {r : Request} {file : Path} {lines : List Doc.Line} {reason : Text}
    (h : (writeDocuments r file lines).Ends (.error reason)) :
    ∃ path why, reason = documentFault path why := by
  rw [writeDocuments] at h
  split at h
  · cases Program.ends_pure.1 h
  · obtain ⟨made, -, h⟩ := Program.ends_bind.1 h
    cases made with
    | error why =>
      cases Program.ends_pure.1 h
      exact ⟨_, why, rfl⟩
    | ok done =>
      refine writeEach_error (fun document hdocument reason hreason => ?_) h
      rcases mem_documentsAt hdocument with rfl | rfl
      · obtain ⟨now, -, hreason⟩ := Program.ends_bind.1 hreason
        exact ⟨_, writeDocument_error hreason⟩
      · exact ⟨_, writeDocument_error hreason⟩

/-! ## What is stored -/

/-- Whether a call has changed what is stored: it was made to do so, and has succeeded. -/
def HasChanged : Event → Prop
  | ⟨.storage (.write _ _), .ok _⟩ => True
  | ⟨.storage (.makeFolders _), .ok _⟩ => True
  | _ => False

theorem HasChanged.stores {e : Event} (h : HasChanged e) : e.1.Stores := by
  unfold HasChanged at h
  split at h
  · trivial
  · trivial
  · exact h.elim

/-- What is outside a batch, as far as its files are concerned: what they hold, and how that can
change with a call and its answer. A call succeeds as a whole or fails without effect. -/
structure World where
  State : Type
  holds : State → Path → Option Storage.Content
  answers : State → Event → State → Prop
  keeps : ∀ s e t, answers s e t → ¬ HasChanged e → holds t = holds s

/-- Files in memory, with a model that answers as it likes, are such a world. -/
def memoryWorld : World where
  State := Storage.Memory
  holds m file :=
    match m.look file with
    | some (.file content) => some content
    | _ => none
  answers m e m' :=
    match e with
    | ⟨.storage call, answer⟩ => Storage.Memory.answer call m = (answer, m')
    | _ => m' = m
  keeps m e m' h hkept := by
    obtain ⟨call, answer⟩ := e
    cases call with
    | ask _ | time | announce _ _ => exact h ▸ rfl
    | storage call =>
      cases call with
      | read _ | look _ =>
        cases h
        rfl
      | write file content =>
        simp only [Storage.Memory.answer] at h
        split at h
        · cases h
          exact absurd trivial hkept
        · cases h
          rfl
      | makeFolders folder =>
        simp only [Storage.Memory.answer] at h
        split at h
        · cases h
          exact absurd trivial hkept
        · cases h
          rfl

/-- The world goes from one state to another over calls with these answers. -/
inductive World.Passes (w : World) : w.State → List Event → w.State → Prop
  | nil (s : w.State) : w.Passes s [] s
  | cons {s t u : w.State} {e : Event} {events : List Event} (h : w.answers s e t)
    (rest : w.Passes t events u) : w.Passes s (e :: events) u

/-- **What differs afterwards was changed by a call that succeeded**. -/
theorem World.exists_hasChanged {w : World} {s t : w.State} {events : List Event}
    (h : w.Passes s events t) {file : Path} (hne : w.holds t file ≠ w.holds s file) :
    ∃ e ∈ events, HasChanged e := by
  induction h with
  | nil s => exact absurd rfl hne
  | @cons s t u e events h rest ih =>
    by_cases he : HasChanged e
    · exact ⟨e, List.mem_cons_self, he⟩
    · rw [← w.keeps s e t h he] at hne
      obtain ⟨e', hmem, he'⟩ := ih hne
      exact ⟨e', List.mem_cons_of_mem _ hmem, he'⟩

/-! ## Files that fail -/

section Files

variable {limits : Limits} {r : Request} {file : Path} {events : List Event} {o : Outcome}

/-- An outcome of any way is consistent. -/
theorem Course.consistent (h : Course limits r file events o) : o.Consistent := by
  have hfresh := Outcome.pending_fresh (r.shown file)
  cases h with
  | unsupported hkind ho => exact ho ▸ hfresh.fail _
  | unread hkind ho => exact ho ▸ hfresh.fail _
  | undrafted hkind hdraft => exact (draft_sound hdraft).2
  | unwritten hkind hdraft ho => exact ho ▸ (draft_sound hdraft : Outcome.Pending _).fail _
  | @written o kind source drafting documenting d result hkind hdraft hdocuments ho =>
    have hd : d.outcome.Pending := draft_sound hdraft
    subst ho
    cases result with
    | ok paths =>
      refine ⟨hd.documented_le, fun hfailed => ?_⟩
      exact absurd (hfailed.symm.trans hd.not_isFailed) Bool.true_eq_false.mp
    | error reason =>
      rw [withDocuments]
      split
      · exact hd.fail reason
      · exact hd.consistent

/-- **A file without an outline is given up at once**. -/
theorem Course.of_fault (h : Course limits r file events o) {kind : SourceKind}
    {language : Language} {source : Text} {fault : Source.Fault}
    (hkind : SourceKind.ofPath? file = some kind) (hlanguage : kind.language? = some language)
    (hread : ⟨.storage (.read file), .ok source⟩ ∈ events)
    (hfault : language.outline source = .error fault) :
    o.isFailed = true ∧
      events = [announced (r.shown file) .idle, ⟨.storage (.read file), .ok source⟩,
        lastStage o] := by
  obtain ⟨drafting, attempt, tail, hdraft, rfl, hattempt⟩ := h.of_read hread hkind
  obtain ⟨o', hpure, -⟩ := @draft_of_fault limits r _ _ _ (.fresh (r.shown file)) _ hlanguage hfault
  rw [hpure, Program.runs_pure] at hdraft
  obtain ⟨rfl, rfl⟩ := hdraft
  obtain ⟨rfl, rfl⟩ := hattempt
  exact ⟨rfl, rfl⟩

theorem quiet_of_unsupported {first : Text} {stage : Stage} :
    ∀ e ∈ [announced first stage, lastStage o], ¬ e.1.IsAsk ∧ ¬ e.1.Stores := by
  intro e he
  rcases List.mem_cons.1 he with rfl | he
  · exact ⟨id, id⟩
  · rw [List.mem_singleton.1 he]
    exact ⟨id, id⟩

/-- A file that is given up once it has been looked at was only read. -/
theorem quiet_of_read {first : Text} {stage : Stage} {answer : Except Text Text} :
    ∀ e ∈ ([announced first stage, ⟨.storage (.read file), answer⟩, lastStage o] : List Event),
      ¬ e.1.IsAsk ∧ ¬ e.1.Stores := by
  intro e he
  rcases List.mem_cons.1 he with rfl | he
  · exact ⟨id, id⟩
  rcases List.mem_cons.1 he with rfl | he
  · exact ⟨id, id⟩
  · rw [List.mem_singleton.1 he]
    exact ⟨id, id⟩

/-- What is stored is stored after the draft. -/
theorem mem_of_stores {first : Text} {stage : Stage} {answer : Except Text Text}
    {kind : SourceKind} {source : Text} {drafting tail : List Event} {attempt : Attempt} {e : Event}
    (hdraft : (draft limits r kind source o).Runs drafting attempt)
    (he : e ∈ announced first stage :: ⟨.storage (.read file), answer⟩ :: (drafting ++ tail))
    (hstores : e.1.Stores) : e ∈ tail := by
  rcases List.mem_cons.1 he with rfl | he
  · exact hstores.elim
  rcases List.mem_cons.1 he with rfl | he
  · exact hstores.elim
  rcases List.mem_append.1 he with he | he
  · exact absurd hstores (draft_makes.of_mem hdraft e he).not_stores
  · exact he

/-- The outcome that an attempt at a file's code leaves behind. -/
def Attempt.outcome : Attempt → Outcome
  | .error failed => failed
  | .ok d => d.outcome

theorem foldl_withResult_keeps (results : List (Source.Routine × Result)) (o : Outcome) :
    (results.foldl (fun o (routine, result) => withResult o routine result) o).file = o.file ∧
      (results.foldl (fun o (routine, result) => withResult o routine result) o).strategy =
        o.strategy := by
  induction results generalizing o with
  | nil => exact ⟨rfl, rfl⟩
  | cons p results ih =>
    obtain ⟨routine, result⟩ := p
    cases result <;> exact ih _

theorem documentRoutines_keeps {language : Language} {source : Text} {attempt : Attempt}
    (h : (documentRoutines limits language source o).Ends attempt) :
    attempt.outcome.file = o.file ∧ attempt.outcome.strategy = o.strategy := by
  cases hroutines : language.routines source with
  | error fault =>
    rw [documentRoutines, hroutines] at h
    rw [Program.ends_pure.1 h]
    exact ⟨rfl, rfl⟩
  | ok routines =>
    obtain ⟨results, -, rfl⟩ := documentRoutines_ends hroutines h
    exact foldl_withResult_keeps results _

theorem documentWhole_file {kind : SourceKind} {source : Text} {attempt : Attempt}
    (h : (documentWhole limits kind source o).Runs events attempt) :
    attempt.outcome.file = o.file := by
  rcases documentWhole_runs h with ⟨fault, -, rfl⟩ | ⟨total?, told, asking, result, -, -, -, rfl⟩
  · rfl
  · cases result with
    | error reason => rfl
    | ok accepted =>
      rw [wholeAttempt, Attempt.outcome, draftOf]
      split <;> rfl

/-- **The outcome of a file is that of the file shown under its name**. -/
theorem Course.file_eq (h : Course limits r file events o) : o.file = r.shown file := by
  have hdraft : ∀ {kind source drafting attempt},
      (draft limits r kind source (.fresh (r.shown file))).Runs drafting attempt →
        attempt.outcome.file = r.shown file := by
    intro kind source drafting attempt h
    rw [draft] at h
    split at h
    · exact (documentRoutines_keeps h.ends).1
    · exact documentWhole_file h
  cases h with
  | unsupported hkind ho => exact congrArg Outcome.file ho
  | unread hkind ho => exact congrArg Outcome.file ho
  | undrafted hkind hruns => exact hdraft hruns
  | unwritten hkind hruns ho => exact (congrArg Outcome.file ho).trans (hdraft hruns)
  | @written o kind source drafting documenting d result hkind hruns hdocuments ho =>
    refine (congrArg Outcome.file ho).trans ?_
    cases result with
    | ok paths => exact hdraft hruns
    | error reason =>
      rw [withDocuments]
      split <;> exact hdraft hruns

/-- A file whose outcome names the strategy of whole files has been drafted by it. -/
theorem documentWhole_of_strategy {kind : SourceKind} {source : Text} {attempt : Attempt}
    (h : (draft limits r kind source (.fresh (r.shown file))).Runs events attempt)
    (hwhole : attempt.outcome.strategy = some .wholeFile) :
    ∃ o : Outcome, (documentWhole limits kind source o).Runs events attempt := by
  rw [draft] at h
  split at h
  · next hchosen _ =>
    rw [(documentRoutines_keeps h.ends).2, hchosen] at hwhole
    cases hwhole
  · exact ⟨_, h⟩

/-- **Without an accepted reply a whole file fails with its count of routines**. -/
theorem documentWhole_refused {kind : SourceKind} {source : Text} {attempt : Attempt}
    (h : (documentWhole limits kind source o).Runs events attempt)
    (hrefused : ∀ prompt reply, ⟨.ask prompt, reply⟩ ∈ events →
      (verdict (acceptWhole kind) reply).toOption = none) :
    ∃ failed, attempt = .error failed ∧ failed.isFailed = true ∧
      ∀ language routines, kind.language? = some language →
        language.routines source = .ok routines → failed.total = routines.length := by
  rcases documentWhole_runs h with ⟨fault, htotal, rfl⟩ |
    ⟨total?, told, asking, result, htotal, hasking, rfl, rfl⟩
  · refine ⟨_, rfl, rfl, fun language routines hlanguage hroutines => ?_⟩
    rw [countRoutines?, hlanguage] at htotal
    simp only [hroutines] at htotal
    cases htotal
  · cases result with
    | ok accepted =>
      obtain ⟨reply, hmem, hverdict⟩ := askUntil_accepted hasking
      have := hrefused _ reply (List.mem_append_right _ hmem)
      rw [hverdict] at this
      cases this
    | error reason =>
      refine ⟨_, rfl, rfl, fun language routines hlanguage hroutines => ?_⟩
      rw [countRoutines?, hlanguage] at htotal
      simp only [hroutines] at htotal
      cases htotal
      rfl

/-- A change to what is stored means that a draft was published. -/
theorem Course.of_changed (h : Course limits r file events o) {e : Event} (he : e ∈ events)
    (hchanged : HasChanged e) :
    ∃ kind source drafting d, SourceKind.ofPath? file = some kind ∧
      ⟨.storage (.read file), .ok source⟩ ∈ events ∧
      (draft limits r kind source (.fresh (r.shown file))).Runs drafting (.ok d) ∧
      ⟨.storage (.write file (.text (published r d))), .ok ()⟩ ∈ events ∧
      (o.error = none ∨ ∃ path why, o.error = some (documentFault path why)) := by
  cases h with
  | unsupported hkind ho => exact absurd hchanged.stores (quiet_of_unsupported e he).2
  | unread hkind ho => exact absurd hchanged.stores (quiet_of_read e he).2
  | undrafted hkind hdraft =>
    have hlast := List.mem_singleton.1 (mem_of_stores hdraft he hchanged.stores)
    exact (hlast ▸ hchanged : HasChanged (lastStage o)).elim
  | unwritten hkind hdraft ho =>
    rcases List.mem_cons.1 (mem_of_stores hdraft he hchanged.stores) with rfl | hlast
    · exact hchanged.elim
    · exact (List.mem_singleton.1 hlast ▸ hchanged : HasChanged (lastStage o)).elim
  | @written o kind source drafting documenting d result hkind hdraft hdocuments ho =>
    refine ⟨kind, source, drafting, d, hkind, List.mem_cons_of_mem _ List.mem_cons_self, hdraft,
      List.mem_cons_of_mem _ (List.mem_cons_of_mem _
        (List.mem_append_right _ List.mem_cons_self)), ?_⟩
    have hd : d.outcome.Pending := draft_sound hdraft
    rw [ho]
    cases result with
    | ok paths => exact .inl hd.error
    | error reason =>
      obtain ⟨path, why, rfl⟩ := writeDocuments_error hdocuments.ends
      rw [withDocuments]
      split
      · exact .inr ⟨path, why, rfl⟩
      · exact .inl hd.error

/-- **A file that fails is left as it was, and its outcome says so**. For every run of the work on
a file:

* a file of an unknown kind, one that cannot be read and one without an outline fail, and neither is
  the model asked nor anything stored;
* if no reply for the whole file is accepted the file fails, nothing is stored, and the routines of
  what was read are counted;
* in every world what the file holds differs afterwards only if a draft was made and written back,
  and then the only error there can be is that of a document;
* no more routines are documented than there are, and a file that has failed has nothing to show. -/
theorem failed_file_is_kept (h : (documentFile limits r file).Runs events o) :
    ((SourceKind.ofPath? file = none ∨
        (∃ reason, ⟨.storage (.read file), .error reason⟩ ∈ events) ∨
        (∃ kind language source fault, SourceKind.ofPath? file = some kind ∧
          kind.language? = some language ∧ ⟨.storage (.read file), .ok source⟩ ∈ events ∧
          language.outline source = .error fault)) →
      o.isFailed = true ∧ ∀ e ∈ events, ¬ e.1.IsAsk ∧ ¬ e.1.Stores) ∧
    (∀ kind source, SourceKind.ofPath? file = some kind →
      ⟨.storage (.read file), .ok source⟩ ∈ events → o.strategy = some .wholeFile →
      (∀ prompt reply, ⟨.ask prompt, reply⟩ ∈ events →
        (verdict (acceptWhole kind) reply).toOption = none) →
      o.isFailed = true ∧ (∀ e ∈ events, ¬ e.1.Stores) ∧
        ∀ language routines, kind.language? = some language →
          language.routines source = .ok routines → o.total = routines.length) ∧
    (∀ (w : World) (s t : w.State), w.Passes s events t → w.holds t file ≠ w.holds s file →
      ∃ kind source drafting d, SourceKind.ofPath? file = some kind ∧
        ⟨.storage (.read file), .ok source⟩ ∈ events ∧
        (draft limits r kind source (.fresh (r.shown file))).Runs drafting (.ok d) ∧
        ⟨.storage (.write file (.text (published r d))), .ok ()⟩ ∈ events ∧
        (o.error = none ∨ ∃ path why, o.error = some (documentFault path why))) ∧
    o.documented ≤ o.total ∧ (o.isFailed = true → o.documented = 0 ∧ o.artifacts = []) := by
  have hcourse := course_of_runs h
  refine ⟨fun hearly => ?_, fun kind source hkind hread hwhole hrefused => ?_,
    fun w s t hpasses hne => ?_, hcourse.consistent.documented_le, hcourse.consistent.failed⟩
  · rcases hearly with hkind | ⟨reason, hread⟩ | ⟨kind, language, source, fault, hkind,
      hlanguage, hread, hfault⟩
    · obtain ⟨rfl, rfl⟩ := hcourse.of_unsupported hkind
      exact ⟨rfl, quiet_of_unsupported⟩
    · obtain ⟨rfl, rfl⟩ := hcourse.of_unread hread
      exact ⟨rfl, quiet_of_read⟩
    · obtain ⟨hfailed, rfl⟩ := hcourse.of_fault hkind hlanguage hread hfault
      exact ⟨hfailed, quiet_of_read⟩
  · obtain ⟨drafting, attempt, tail, hdraft, rfl, hattempt⟩ := hcourse.of_read hread hkind
    have hstrategy : attempt.outcome.strategy = some .wholeFile := by
      cases attempt with
      | error failed => exact hattempt.1 ▸ hwhole
      | ok d => exact hattempt ▸ hwhole
    obtain ⟨o', hruns⟩ := documentWhole_of_strategy hdraft hstrategy
    obtain ⟨failed, rfl, hfailed, htotal⟩ := documentWhole_refused hruns
      fun prompt reply hmem => hrefused prompt reply (List.mem_cons_of_mem _
        (List.mem_cons_of_mem _ (List.mem_append_left _ hmem)))
    obtain ⟨rfl, rfl⟩ := hattempt
    refine ⟨hfailed, fun e he hstores => ?_, htotal⟩
    have hlast := List.mem_singleton.1 (mem_of_stores hdraft he hstores)
    exact (hlast ▸ hstores : (lastStage o).1.Stores).elim
  · obtain ⟨e, he, hchanged⟩ := World.exists_hasChanged hpasses hne
    exact hcourse.of_changed he hchanged

end Files

/-! ## A class that is never closed -/

def brokenFile : Path := ⟨"A.java".toList⟩

def brokenClass : Text := "class A \x7b".toList

def brokenRequest : Request := ⟨none, [brokenFile], .quick, ⟨"out".toList⟩, .standard, false⟩

theorem outline_brokenClass :
    Language.outline .java brokenClass = .error (.unbalanced .java '\x7b' 8) := by
  rw [Language.outline_eq]
  rfl

/-- The run over a class that is never closed: the file is read and given up. -/
theorem brokenClass_runs : ∃ o,
    (documentFile ⟨1, 2, 300⟩ brokenRequest brokenFile).Runs
      [announced brokenFile.text .idle, ⟨.storage (.read brokenFile), .ok brokenClass⟩,
        lastStage o] o := by
  obtain ⟨o', hdraft, -⟩ := @draft_of_fault ⟨1, 2, 300⟩ brokenRequest (.grammar .java) .java _
    (.fresh brokenFile.text) _ rfl outline_brokenClass
  have hkind : SourceKind.ofPath? brokenFile = some (.grammar .java) := rfl
  refine ⟨o'.fail (Source.Fault.unbalanced .java '\x7b' 8).message,
    Program.runs_bind.2 ⟨[announced brokenFile.text .idle], (), _, rfl,
      Program.runs_perform.2 rfl, ?_⟩⟩
  rw [hkind]
  refine Program.runs_bind.2 ⟨[⟨.storage (.read brokenFile), .ok brokenClass⟩], .ok brokenClass,
    _, rfl, Program.runs_perform.2 rfl, ?_⟩
  refine Program.runs_bind.2 ⟨[], _, _, rfl, ?_, finish_runs.2 ⟨rfl, rfl⟩⟩
  refine Program.runs_bind.2 ⟨[], _, [], rfl, hdraft ▸ Program.runs_pure.2 ⟨rfl, rfl⟩, ?_⟩
  exact Program.runs_pure.2 ⟨rfl, rfl⟩

/-- The class that is never closed is still there, and nothing of it is documented. -/
theorem failed_file_is_kept_brokenClass : ∃ events o,
    (documentFile ⟨1, 2, 300⟩ brokenRequest brokenFile).Runs events o ∧
      o.isFailed = true ∧ (∀ e ∈ events, ¬ e.1.IsAsk ∧ ¬ e.1.Stores) ∧ o.documented = 0 ∧
      ∀ s t : Storage.Memory, memoryWorld.Passes s events t →
        memoryWorld.holds t brokenFile = memoryWorld.holds s brokenFile := by
  obtain ⟨o, hruns⟩ := brokenClass_runs
  have h := failed_file_is_kept hruns
  have hread : (⟨.storage (.read brokenFile), .ok brokenClass⟩ : Event) ∈
      [announced brokenFile.text .idle, ⟨.storage (.read brokenFile), .ok brokenClass⟩,
        lastStage o] := List.mem_cons_of_mem _ List.mem_cons_self
  have hkind : SourceKind.ofPath? brokenFile = some (.grammar .java) := by decide +kernel
  obtain ⟨hfailed, hquiet⟩ :=
    h.1 (.inr (.inr ⟨_, .java, _, _, hkind, rfl, hread, outline_brokenClass⟩))
  refine ⟨_, o, hruns, hfailed, hquiet, (h.2.2.2.2 hfailed).1, fun s t hpasses => ?_⟩
  refine Classical.byContradiction fun hne => ?_
  obtain ⟨kind, source, drafting, d, -, -, -, hwrite, -⟩ := h.2.2.1 memoryWorld s t hpasses hne
  exact (hquiet _ hwrite).2 trivial

end Batch

end Scholia
