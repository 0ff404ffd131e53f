import Mathlib.Algebra.GroupWithZero.Nat
import Scholia.Batch.File
import Scholia.Proofs.Layout.Splice
import Scholia.Proofs.Program
/-!
# How often the model is asked

One piece of work asks its one prompt until a reply is accepted or the attempts are used up, and
says what the accepted reply is worth or why the last one was refused (`Exact`). The routines of a
file share one sequence of replies: each begins to read it where the routine before it has stopped.

`inTurn` stands for a model with a fixed sequence of replies and keeps the prompts it was asked.
What replies are worth is the matter of acceptance and not spoken of here.
-/

namespace Scholia.Batch

open Source (Routine)

variable {α : Type}

/-- What a reply is worth: what is accepted of it, or why nothing is. -/
def verdict (accept : Text → Except Text α) (reply : Except Model.Fault Text) : Except Text α :=
  reply.mapError Model.Fault.message >>= accept

/-! ## One piece of work -/

theorem askUntil_makes (prompt : Text) (accept : Text → Except Text α) (r : Retry) :
    (askUntil prompt accept r).Makes (· = Call.ask prompt) := by
  fun_induction askUntil prompt accept r with
  | case1 r h => exact .done _
  | case2 r r' h ih =>
    refine .bind (.perform rfl) fun reply => ?_
    split
    · exact .done _
    · exact ih _

/-- **What asking ends with has been accepted of a reply**. -/
theorem askUntil_accepted {prompt : Text} {accept : Text → Except Text α} {r : Retry}
    {events : List (Program.Event interface)} {a : α}
    (h : (askUntil prompt accept r).Runs events (.ok a)) :
    ∃ reply, ⟨.ask prompt, reply⟩ ∈ events ∧ verdict accept reply = .ok a := by
  fun_induction askUntil prompt accept r generalizing events with
  | case1 r hr => cases (Program.runs_pure.1 h).2
  | case2 r r' hr ih =>
    obtain ⟨first, reply, second, rfl, hfirst, hsecond⟩ := Program.runs_bind.1 h
    rw [ask, Program.runs_perform] at hfirst
    subst hfirst
    cases hv : verdict accept reply with
    | ok accepted =>
      rw [verdict] at hv
      simp only [hv, Program.runs_pure] at hsecond
      cases hsecond.2
      exact ⟨reply, List.mem_cons_self, hv⟩
    | error reason =>
      rw [verdict] at hv
      simp only [hv] at hsecond
      obtain ⟨reply', hmem, hok⟩ := ih _ hsecond
      exact ⟨reply', List.mem_append_right _ hmem, hok⟩

/-! ## A model with a sequence of replies -/

/-- The answers of a model that gives these replies in turn, with the prompts asked so far as the
state. All other calls are answered by `others`. -/
def inTurn (replies : Nat → Except Model.Fault Text) (others : (c : Call) → c.Answer) :
    (c : interface.Call) → StateM (List Text) (interface.Answer c)
  | .ask prompt => fun asked => (replies asked.length, asked ++ [prompt])
  | .storage call => fun asked => (others (.storage call), asked)
  | .time => fun asked => (others .time, asked)
  | .announce file stage => fun asked => (others (.announce file stage), asked)

/-- So many calls and this result are what at most `attempts` attempts come to, when the i-th reply
is worth `verdicts i`. -/
structure Exact (attempts : Nat) (verdicts : Nat → Except Text α) (calls : Nat)
    (result : Except Text α) : Prop where
  calls_le : calls ≤ attempts
  /-- The first reply that is accepted is the last one asked for, and it is the result. -/
  accepted : ∀ i a, i < attempts → verdicts i = .ok a → (∀ j < i, (verdicts j).toOption = none) →
    calls = i + 1 ∧ result = .ok a
  /-- Without an accepted reply all attempts are made, and the last one has the reason. -/
  exhausted : (∀ i < attempts, (verdicts i).toOption = none) →
    calls = attempts ∧ result = verdicts (attempts - 1)
  succeeds_iff : (∃ a, result = .ok a) ↔ ∃ i < attempts, ∃ a, verdicts i = .ok a

namespace Exact

variable {attempts calls : Nat} {verdicts : Nat → Except Text α} {result : Except Text α}

theorem of_ok {a : α} (hattempts : 0 < attempts) (h : verdicts 0 = .ok a) :
    Exact attempts verdicts 1 (.ok a) where
  calls_le := hattempts
  accepted i b _ hi hbefore := by
    cases i with
    | zero => exact ⟨rfl, h.symm.trans hi⟩
    | succ i =>
      have := hbefore 0 i.succ_pos
      rw [h] at this
      cases this
  exhausted hnone := by
    have := hnone 0 hattempts
    rw [h] at this
    cases this
  succeeds_iff := ⟨fun _ => ⟨0, hattempts, a, h⟩, fun _ => ⟨a, rfl⟩⟩

theorem of_last {reason : Text} (h : verdicts 0 = .error reason) :
    Exact 1 verdicts 1 (.error reason) where
  calls_le := Nat.le_refl 1
  accepted i a hi hv := by
    rw [Nat.lt_one_iff.1 hi, h] at hv
    cases hv
  exhausted _ := ⟨rfl, h.symm⟩
  succeeds_iff := by
    constructor
    · rintro ⟨a, ha⟩
      cases ha
    · rintro ⟨i, hi, a, hv⟩
      rw [Nat.lt_one_iff.1 hi, h] at hv
      cases hv

/-- A refused reply, and what the attempts after it come to. -/
theorem of_error {reason : Text} (hattempts : 0 < attempts) (h : verdicts 0 = .error reason)
    (hrest : Exact attempts (fun i => verdicts (i + 1)) calls result) :
    Exact (attempts + 1) verdicts (calls + 1) result where
  calls_le := Nat.succ_le_succ hrest.calls_le
  accepted i a hi hv hbefore := by
    cases i with
    | zero =>
      rw [h] at hv
      cases hv
    | succ i =>
      obtain ⟨hcalls, hresult⟩ := hrest.accepted i a (Nat.lt_of_succ_lt_succ hi) hv
        fun j hj => hbefore (j + 1) (Nat.succ_lt_succ hj)
      exact ⟨congrArg (· + 1) hcalls, hresult⟩
  exhausted hnone := by
    obtain ⟨hcalls, hresult⟩ := hrest.exhausted fun i hi => hnone (i + 1) (Nat.succ_lt_succ hi)
    refine ⟨congrArg (· + 1) hcalls, hresult.trans ?_⟩
    rw [Nat.add_sub_cancel, Nat.sub_add_cancel hattempts]
  succeeds_iff := by
    rw [hrest.succeeds_iff]
    constructor
    · rintro ⟨i, hi, ha⟩
      exact ⟨i + 1, Nat.succ_lt_succ hi, ha⟩
    · rintro ⟨i, hi, a, ha⟩
      cases i with
      | zero =>
        rw [h] at ha
        cases ha
      | succ i => exact ⟨i, Nat.lt_of_succ_lt_succ hi, a, ha⟩

end Exact

section InTurn

variable {replies : Nat → Except Model.Fault Text} {others : (c : Call) → c.Answer}
  {asked asked' : List Text} {β : Type}

theorem interpret_bind_inTurn {p : Job α} {f : α → Job β} {a : α}
    (h : p.interpret (inTurn replies others) asked = (a, asked')) :
    (p >>= f).interpret (inTurn replies others) asked =
      (f a).interpret (inTurn replies others) asked' := by
  rw [Program.interpret_bind]
  change (let (a, asked') := p.interpret (inTurn replies others) asked
    (f a).interpret (inTurn replies others) asked') = _
  rw [h]

theorem interpret_ask (prompt : Text) :
    (ask prompt).interpret (inTurn replies others) asked =
      (replies asked.length, asked ++ [prompt]) :=
  rfl

theorem interpret_announce (file : Text) (stage : Stage) :
    (announce file stage).interpret (inTurn replies others) asked =
      (others (.announce file stage), asked) :=
  rfl

theorem askUntil_none {prompt : Text} {accept : Text → Except Text α} {r : Retry}
    (h : r.next? = none) : askUntil prompt accept r = pure (.error r.reason) := by
  rw [askUntil]
  split
  · rfl
  · next hr => rw [h] at hr; cases hr

theorem askUntil_some {prompt : Text} {accept : Text → Except Text α} {r r' : Retry}
    (h : r.next? = some r') :
    askUntil prompt accept r = ask prompt >>= fun reply =>
      match verdict accept reply with
      | .ok accepted => pure (.ok accepted)
      | .error reason => askUntil prompt accept (r'.fail reason) := by
  rw [askUntil]
  split
  · next hr => rw [h] at hr; cases hr
  · next hr =>
    rw [h] at hr
    cases hr
    rfl

variable (replies others asked) in
/-- **Asking is exact**: the attempts that are left decide how often the prompt is asked. -/
theorem askUntil_exact (prompt : Text) (accept : Text → Except Text α) {left : Nat} {r : Retry}
    (hr : r.attempt + (left + 1) = r.limit) :
    ∃ calls result,
      Exact (left + 1) (fun i => verdict accept (replies (asked.length + i))) calls result ∧
      (askUntil prompt accept r).interpret (inTurn replies others) asked =
        (result, asked ++ List.replicate calls prompt) := by
  induction left generalizing r asked with
  | zero =>
    have hnext : r.next? = some { r with attempt := r.attempt + 1 } := if_pos (by omega)
    rw [askUntil_some hnext, interpret_bind_inTurn (interpret_ask prompt)]
    cases hv : verdict accept (replies asked.length) with
    | ok a => exact ⟨1, .ok a, .of_ok (Nat.succ_pos 0) hv, rfl⟩
    | error reason =>
      have hlast : (Retry.fail { r with attempt := r.attempt + 1 } reason).next? = none :=
        if_neg (by simp only [Retry.fail]; omega)
      refine ⟨1, .error reason, .of_last hv, ?_⟩
      simp only [askUntil_none hlast]
      rfl
  | succ left ih =>
    have hnext : r.next? = some { r with attempt := r.attempt + 1 } := if_pos (by omega)
    rw [askUntil_some hnext, interpret_bind_inTurn (interpret_ask prompt)]
    cases hv : verdict accept (replies asked.length) with
    | ok a => exact ⟨1, .ok a, .of_ok (Nat.succ_pos _) hv, rfl⟩
    | error reason =>
      obtain ⟨calls, result, hexact, hrun⟩ := ih (asked ++ [prompt])
        (r := Retry.fail { r with attempt := r.attempt + 1 } reason)
        (by simp only [Retry.fail]; omega)
      have hshift : ∀ i, (asked ++ [prompt]).length + i = asked.length + (i + 1) := by
        intro i
        rw [List.length_append, List.length_singleton]
        omega
      refine ⟨calls + 1, result, .of_error (Nat.succ_pos _) hv ?_, ?_⟩
      · simpa only [hshift] using hexact
      · simp only
        rw [hrun, List.replicate_succ, List.append_assoc]
        rfl

variable (replies others asked) in
/-- The attempts of a fresh piece of work are one more than its retries, as long as that is a
machine word. -/
theorem start_exact {maxRetries : Nat} (hword : maxRetries + 1 < Retry.wordCount) (prompt : Text)
    (accept : Text → Except Text α) :
    ∃ calls result,
      Exact (maxRetries + 1) (fun i => verdict accept (replies (asked.length + i))) calls result ∧
      (askUntil prompt accept (.start maxRetries)).interpret (inTurn replies others) asked =
        (result, asked ++ List.replicate calls prompt) :=
  askUntil_exact replies others asked prompt accept
    ((Nat.zero_add _).trans (Nat.mod_eq_of_lt hword).symm)

end InTurn

/-! ## A whole file -/

/-- What is accepted of a reply for a whole file. -/
def acceptWhole (kind : SourceKind) (reply : Text) : Except Text Reply.AcceptedFile :=
  (Reply.acceptFile kind reply).mapError Reply.Fault.message

/-- What is accepted of a reply for a routine. -/
def acceptFor (language : Language) (routine : Routine) (reply : Text) :
    Except Text Reply.AcceptedRoutine :=
  (Reply.acceptRoutine language routine.name reply).mapError Reply.Fault.message

/-- The prompt for a routine of a file. -/
def promptFor (language : Language) (source : Text) (routine : Routine) : Text :=
  Prompt.routine language.name language.docStyle
    (Layout.dedented source routine.span.start routine.span.stop)

theorem documentRoutine_eq (limits : Limits) (language : Language) (source : Text)
    (routine : Routine) :
    documentRoutine limits language source routine =
      askUntil (promptFor language source routine) (acceptFor language routine)
        (.start limits.maxRetries) :=
  rfl

/-- What documenting a whole file comes to. -/
def wholeAttempt (o : Outcome) : Except Text Reply.AcceptedFile → Attempt
  | .ok accepted => .ok (draftOf o accepted)
  | .error reason => .error (o.fail reason)

/-- That a source has been read, where there is something to read in it. -/
def announceParsed (o : Outcome) (total? : Option Nat) : Job Unit :=
  if total?.isSome then announce o.file .parsed else pure ()

/-- Documenting a whole file that has an outline, or needs none, is asking for it. -/
theorem documentWhole_of_ok (limits : Limits) {kind : SourceKind} {source : Text} (o : Outcome)
    {total? : Option Nat} (h : countRoutines? kind source = .ok total?) :
    documentWhole limits kind source o = (do
      announceParsed o total?
      announce o.file .wholeFile
      let result ← askUntil (Prompt.wholeFile kind.name kind.docStyle o.file source)
        (acceptWhole kind) (.start limits.maxRetries)
      return wholeAttempt { o with total := total?.getD o.total } result) := by
  rw [documentWhole, h]
  cases total? with
  | none =>
    refine bind_congr (x := announce o.file .wholeFile) fun _ => bind_congr fun result => ?_
    cases result <;> rfl
  | some total =>
    refine bind_congr (x := announce o.file .parsed) fun _ =>
      bind_congr (x := announce o.file .wholeFile) fun _ => bind_congr fun result => ?_
    cases result <;> rfl

/-! ## The routines of a file -/

/-- Numbers of calls and results for routines that are asked for one after the other, the first of
them with reply number `start`. -/
inductive Shared (attempts : Nat) (language : Language) (replies : Nat → Except Model.Fault Text) :
    Nat → List Routine → List Nat → List (Routine × Result) → Prop
  | nil (start : Nat) : Shared attempts language replies start [] [] []
  | cons {start calls : Nat} {routine : Routine} {result : Result} {routines : List Routine}
    {counts : List Nat} {results : List (Routine × Result)}
    (h : Exact attempts (fun i => verdict (acceptFor language routine) (replies (start + i))) calls
      result)
    (rest : Shared attempts language replies (start + calls) routines counts results) :
    Shared attempts language replies start (routine :: routines) (calls :: counts)
      ((routine, result) :: results)

theorem Shared.sum_le {attempts start : Nat} {language : Language}
    {replies : Nat → Except Model.Fault Text} {routines : List Routine} {counts : List Nat}
    {results : List (Routine × Result)}
    (h : Shared attempts language replies start routines counts results) :
    counts.sum ≤ routines.length * attempts := by
  induction h with
  | nil => exact Nat.zero_le _
  | cons h _ ih =>
    rw [List.sum_cons, List.length_cons, Nat.succ_mul]
    have := h.calls_le
    omega

/-- The prompts of routines that are asked for so many times each. -/
def promptsFor (language : Language) (source : Text) (routines : List Routine)
    (counts : List Nat) : List Text :=
  (routines.zip counts).flatMap fun (routine, calls) =>
    List.replicate calls (promptFor language source routine)

theorem promptsFor_cons (language : Language) (source : Text) (routine : Routine) (calls : Nat)
    (routines : List Routine) (counts : List Nat) :
    promptsFor language source (routine :: routines) (calls :: counts) =
      List.replicate calls (promptFor language source routine) ++
        promptsFor language source routines counts :=
  rfl

section Files

variable {limits : Limits} {replies : Nat → Except Model.Fault Text}
  {others : (c : Call) → c.Answer} {asked : List Text} {language : Language} {source : Text}

variable (replies others asked language source) in
theorem documentEach_shared (hword : limits.maxRetries + 1 < Retry.wordCount)
    (routines : List Routine) :
    ∃ counts results,
      Shared (limits.maxRetries + 1) language replies asked.length routines counts results ∧
      (documentEach limits language source routines).interpret (inTurn replies others) asked =
        (results, asked ++ promptsFor language source routines counts) := by
  induction routines generalizing asked with
  | nil =>
    refine ⟨[], [], .nil _, ?_⟩
    rw [promptsFor, List.zip_nil_left, List.flatMap_nil, List.append_nil]
    rfl
  | cons routine routines ih =>
    obtain ⟨calls, result, hexact, hrun⟩ := start_exact replies others asked hword
      (promptFor language source routine) (acceptFor language routine)
    obtain ⟨counts, results, hshared, hrest⟩ := ih
      (asked ++ List.replicate calls (promptFor language source routine))
    rw [List.length_append, List.length_replicate] at hshared
    refine ⟨calls :: counts, (routine, result) :: results, .cons hexact hshared, ?_⟩
    rw [documentEach, documentRoutine_eq, interpret_bind_inTurn hrun, interpret_bind_inTurn hrest,
      promptsFor_cons, ← List.append_assoc]
    rfl

end Files

/-- **Retries are exact**, for every sequence of replies and as long as one more than the number of
retries is a machine word.

A whole file that has an outline, or needs none, and a single routine are asked for as `Exact` says,
and come to what the first accepted reply holds or to the reason of the last one. The routines of a
file are asked for in their order, each with the replies that those before it have left (`Shared`),
and the model is called at most once for each attempt of each routine. -/
theorem model_asked_exactly {limits : Limits} (hword : limits.maxRetries + 1 < Retry.wordCount)
    (replies : Nat → Except Model.Fault Text) (others : (c : Call) → c.Answer)
    (asked : List Text) :
    (∀ kind source o total?, countRoutines? kind source = .ok total? →
      ∃ calls result,
        Exact (limits.maxRetries + 1)
          (fun i => verdict (acceptWhole kind) (replies (asked.length + i))) calls result ∧
        (documentWhole limits kind source o).interpret (inTurn replies others) asked =
          (wholeAttempt { o with total := total?.getD o.total } result,
            asked ++ List.replicate calls
              (Prompt.wholeFile kind.name kind.docStyle o.file source))) ∧
    (∀ language source routine,
      ∃ calls result,
        Exact (limits.maxRetries + 1)
          (fun i => verdict (acceptFor language routine) (replies (asked.length + i))) calls
          result ∧
        (documentRoutine limits language source routine).interpret (inTurn replies others) asked =
          (result, asked ++ List.replicate calls (promptFor language source routine))) ∧
    ∀ language source o routines, language.routines source = .ok routines →
      ∃ counts results,
        Shared (limits.maxRetries + 1) language replies asked.length routines counts results ∧
        counts.sum ≤ routines.length * (limits.maxRetries + 1) ∧
        (documentRoutines limits language source o).interpret (inTurn replies others) asked =
          (.ok (assemble source { o with total := routines.length } results),
            asked ++ promptsFor language source routines counts) := by
  refine ⟨fun kind source o total? htotal => ?_, fun language source routine => ?_,
    fun language source o routines hroutines => ?_⟩
  · obtain ⟨calls, result, hexact, hrun⟩ := start_exact replies others asked hword
      (Prompt.wholeFile kind.name kind.docStyle o.file source)
      (acceptWhole kind)
    refine ⟨calls, result, hexact, ?_⟩
    have htold : (announceParsed o total?).interpret (inTurn replies others) asked =
        ((), asked) := by
      cases total? <;> rfl
    rw [documentWhole_of_ok limits o htotal, interpret_bind_inTurn htold,
      interpret_bind_inTurn (interpret_announce _ _), interpret_bind_inTurn hrun]
    rfl
  · exact start_exact replies others asked hword _ _
  · obtain ⟨counts, results, hshared, hrun⟩ := documentEach_shared replies others
      asked language source hword routines
    refine ⟨counts, results, hshared, hshared.sum_le, ?_⟩
    rw [documentRoutines, hroutines]
    simp only
    rw [interpret_bind_inTurn (interpret_announce _ _),
      interpret_bind_inTurn (interpret_announce _ _), interpret_bind_inTurn hrun]
    rfl

/-- Answers to the calls of a batch outside which there is nothing. -/
def nowhere : (c : Call) → c.Answer
  | .ask _ => .error (.stream [])
  | .storage (.read _) => .error []
  | .storage (.write _ _) => .error []
  | .storage (.makeFolders _) => .error []
  | .storage (.look _) => none
  | .time => []
  | .announce _ _ => ()

/-- A model that gives no reply is asked three times for each of two routines. -/
theorem model_asked_exactly_sampleClass :
    2 + 1 < Retry.wordCount ∧
      ∃ results,
        (documentRoutines ⟨1, 2, 300⟩ .java Language.sampleClass (.fresh [])).interpret
            (inTurn (fun _ => .error (.stream [])) nowhere) [] =
          (.ok (assemble Language.sampleClass { Outcome.fresh [] with total := 2 } results),
            promptsFor .java Language.sampleClass Language.sampleRoutines [3, 3]) := by
  have hword : 2 + 1 < Retry.wordCount := by decide
  refine ⟨hword, ?_⟩
  obtain ⟨counts, results, hshared, -, hrun⟩ :=
    (@model_asked_exactly ⟨1, 2, 300⟩ hword (fun _ => .error (.stream [])) nowhere
      []).2.2 .java Language.sampleClass (.fresh []) _ Language.routines_sampleClass
  have hcounts : counts = [3, 3] := by
    cases hshared with
    | cons hfirst hrest =>
      cases hrest with
      | cons hsecond hnone =>
        cases hnone
        rw [(hfirst.exhausted fun _ _ => rfl).1, (hsecond.exhausted fun _ _ => rfl).1]
  refine ⟨results, hrun.trans ?_⟩
  rw [hcounts, List.nil_append]
  rfl

end Scholia.Batch
