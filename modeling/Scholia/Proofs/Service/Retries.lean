import Mathlib.Data.List.Forall2
import Scholia.Proofs.Batch.Course
import Scholia.Proofs.Json.Record
import Scholia.Proofs.Json.RoundTrip
import Scholia.Service.Configuration
/-!
# Retries that are configured

The number of retries goes from a settings text or from a request to change settings into the limit
of attempts, and nothing on the way keeps it from being the greatest machine word. Of that word the
limit is zero, of every other one it is one more.

With a limit of zero there is no first attempt either: no file and no routine is asked for at all,
and each comes out as if the model had given no usable reply. With any other limit each is asked for
at least once (`model_asked_iff`).
-/

namespace Scholia.Batch

open Source (Routine)

variable {α : Type} {events : List Event}

/-! ## Prompts -/

/-- The prompt of a call that asks the model. -/
def promptOf? (e : Event) : Option Text :=
  match e.1 with
  | .ask prompt => some prompt
  | _ => none

/-- What the model is asked, in order. -/
def prompts (events : List Event) : List Text :=
  events.filterMap promptOf?

theorem prompts_append (first second : List Event) :
    prompts (first ++ second) = prompts first ++ prompts second :=
  List.filterMap_append

theorem prompts_eq_nil (h : ∀ e ∈ events, ¬ e.1.IsAsk) : prompts events = [] := by
  refine List.filterMap_eq_nil_iff.2 fun e he => ?_
  have hnot := h e he
  unfold promptOf?
  split
  · next prompt hask =>
    rw [hask] at hnot
    exact absurd trivial hnot
  · rfl

theorem prompts_of_makes {p : Job α} {a : α} (hp : p.Makes fun c : Call => ¬ c.IsAsk)
    (h : p.Runs events a) : prompts events = [] :=
  prompts_eq_nil (hp.of_mem h)

theorem prompts_of_asks {prompt : Text} (h : ∀ e ∈ events, e.1 = .ask prompt) :
    prompts events = List.replicate events.length prompt := by
  induction events with
  | nil => rfl
  | cons e events ih =>
    obtain ⟨he, hrest⟩ := List.forall_mem_cons.1 h
    have hprompt : promptOf? e = some prompt := by rw [promptOf?, he]
    rw [prompts, List.filterMap_cons_some hprompt]
    exact congrArg (prompt :: ·) (ih hrest)

theorem Call.Documents.not_ask {c : Call} (h : c.Documents) : ¬ c.IsAsk := by
  intro hask
  rcases h with h | rfl
  · exact hask.isTalk.not_stores h
  · exact hask

/-! ## Attempts -/

/-- **A prompt is asked if there is an attempt to make**, and no other is asked. -/
theorem askUntil_asks {prompt : Text} {accept : Text → Except Text α} {r : Retry}
    {result : Except Text α} (h : (askUntil prompt accept r).Runs events result) :
    ∃ calls, prompts events = List.replicate calls prompt ∧ (0 < calls ↔ r.attempt < r.limit) := by
  refine ⟨events.length, prompts_of_asks ((askUntil_makes prompt accept r).of_mem h), ?_⟩
  by_cases hleft : r.attempt < r.limit
  · rw [askUntil_some (if_pos hleft)] at h
    obtain ⟨first, reply, second, rfl, hfirst, -⟩ := Program.runs_bind.1 h
    obtain rfl : first = [⟨.ask prompt, reply⟩] := Program.runs_perform.1 hfirst
    exact iff_of_true (Nat.succ_pos _) hleft
  · rw [askUntil_none (if_neg hleft)] at h
    rw [(Program.runs_pure.1 h).1]
    exact iff_of_false (Nat.lt_irrefl 0) hleft

/-- The limit of attempts at a fresh piece of work. -/
def Limits.attempts (limits : Limits) : Nat := (Retry.start limits.maxRetries).limit

section Files

variable {limits : Limits} {r : Request} {kind : SourceKind} {language : Language}
  {file : Path} {source shown : Text} {o : Outcome} {attempt : Attempt}

theorem documentEach_asks {routines : List Routine} {results : List (Routine × Result)}
    (h : (documentEach limits language source routines).Runs events results) :
    ∃ counts : List Nat, counts.length = routines.length ∧
      prompts events = promptsFor language source routines counts ∧
      ∀ n ∈ counts, (0 < n ↔ 0 < limits.attempts) := by
  induction routines generalizing events results with
  | nil =>
    rw [(Program.runs_pure.1 h).1]
    exact ⟨[], rfl, rfl, List.forall_mem_nil _⟩
  | cons routine routines ih =>
    obtain ⟨first, result, second, rfl, hfirst, hsecond⟩ := Program.runs_bind.1 h
    obtain ⟨rest, more, nothing, rfl, hrest, hend⟩ := Program.runs_bind.1 hsecond
    obtain ⟨rfl, -⟩ := Program.runs_pure.1 hend
    rw [documentRoutine_eq] at hfirst
    obtain ⟨calls, hcalls, hpos⟩ := askUntil_asks hfirst
    obtain ⟨counts, hlength, hprompts, hall⟩ := ih hrest
    refine ⟨calls :: counts, congrArg (· + 1) hlength, ?_, List.forall_mem_cons.2 ⟨hpos, hall⟩⟩
    rw [List.append_nil, prompts_append, hcalls, hprompts, promptsFor_cons]

/-- What a file is asked for: each routine or the whole file so many times, by the strategy; nothing
if the routines of the source are not found. -/
inductive Asked (kind : SourceKind) (shown source : Text) :
    Strategy → List Nat → List Text → Prop
  | perRoutine {language : Language} {routines : List Routine} {counts : List Nat}
    (hlanguage : kind.language? = some language)
    (hroutines : language.routines source = .ok routines)
    (hlength : counts.length = routines.length) :
    Asked kind shown source .perRoutine counts (promptsFor language source routines counts)
  | wholeFile {total? : Option Nat} (htotal : countRoutines? kind source = .ok total?)
    (calls : Nat) :
    Asked kind shown source .wholeFile [calls]
      (List.replicate calls (Prompt.wholeFile kind.name kind.docStyle shown source))
  | unparsed {chosen : Strategy} {fault : Source.Fault}
    (h : countRoutines? kind source = .error fault) : Asked kind shown source chosen [] []

theorem promptsFor_eq_nil {routines : List Routine} {counts : List Nat}
    (h : ∀ n ∈ counts, n = 0) : promptsFor language source routines counts = [] := by
  refine List.flatMap_eq_nil_iff.2 fun (routine, calls) hp => ?_
  obtain rfl := h calls (List.of_mem_zip hp).2
  rfl

/-- What is asked zero times is not asked. -/
theorem Asked.eq_nil {chosen : Strategy} {counts : List Nat} {asked : List Text}
    (h : Asked kind shown source chosen counts asked) (hzero : ∀ n ∈ counts, n = 0) :
    asked = [] := by
  cases h with
  | perRoutine => exact promptsFor_eq_nil hzero
  | wholeFile htotal calls =>
    rw [hzero calls List.mem_cons_self]
    rfl
  | unparsed => rfl

theorem documentRoutines_asks (hlanguage : kind.language? = some language)
    (h : (documentRoutines limits language source o).Runs events attempt) :
    ∃ counts, Asked kind shown source .perRoutine counts (prompts events) ∧
      ∀ n ∈ counts, (0 < n ↔ 0 < limits.attempts) := by
  cases hroutines : language.routines source with
  | error fault =>
    have hcount : countRoutines? kind source = .error fault := by
      rw [countRoutines?, hlanguage]
      simp only
      rw [hroutines]
      rfl
    rw [documentRoutines, hroutines] at h
    rw [(Program.runs_pure.1 h).1]
    exact ⟨[], .unparsed hcount, List.forall_mem_nil _⟩
  | ok routines =>
    rw [documentRoutines, hroutines] at h
    obtain ⟨parsed, _, rest, rfl, hparsed, hrest⟩ := Program.runs_bind.1 h
    obtain rfl := Program.runs_perform.1 hparsed
    obtain ⟨started, _, each, rfl, hstarted, heach⟩ := Program.runs_bind.1 hrest
    obtain rfl := Program.runs_perform.1 hstarted
    obtain ⟨asking, results, nothing, rfl, hasking, hend⟩ := Program.runs_bind.1 heach
    obtain ⟨rfl, -⟩ := Program.runs_pure.1 hend
    obtain ⟨counts, hlength, hprompts, hall⟩ := documentEach_asks hasking
    refine ⟨counts, ?_, hall⟩
    have heq : prompts _ = promptsFor language source routines counts :=
      (congrArg prompts (List.append_nil asking)).trans hprompts
    exact heq ▸ .perRoutine hlanguage hroutines hlength

theorem announceParsed_makes (total? : Option Nat) :
    (announceParsed o total?).Makes fun c : Call => ¬ c.IsAsk := by
  cases total? with
  | none => exact .done _
  | some total => exact .perform id

theorem documentWhole_asks (h : (documentWhole limits kind source o).Runs events attempt) :
    ∃ counts, Asked kind o.file source .wholeFile counts (prompts events) ∧
      ∀ n ∈ counts, (0 < n ↔ 0 < limits.attempts) := by
  cases htotal : countRoutines? kind source with
  | error fault =>
    rw [documentWhole, htotal] at h
    rw [(Program.runs_pure.1 h).1]
    exact ⟨[], .unparsed htotal, List.forall_mem_nil _⟩
  | ok total? =>
    rw [documentWhole_of_ok limits o htotal] at h
    obtain ⟨told, _, rest, rfl, htold, hrest⟩ := Program.runs_bind.1 h
    obtain ⟨started, _, whole, rfl, hstarted, hwhole⟩ := Program.runs_bind.1 hrest
    obtain rfl := Program.runs_perform.1 hstarted
    obtain ⟨asking, result, nothing, rfl, hasking, hend⟩ := Program.runs_bind.1 hwhole
    obtain ⟨rfl, -⟩ := Program.runs_pure.1 hend
    obtain ⟨calls, hcalls, hpos⟩ := askUntil_asks hasking
    have heq : prompts (told ++ (announced o.file .wholeFile :: (asking ++ []))) =
        List.replicate calls (Prompt.wholeFile kind.name kind.docStyle o.file source) := by
      rw [prompts_append, prompts_of_makes (announceParsed_makes total?) htold, List.append_nil]
      exact hcalls
    exact ⟨[calls], heq ▸ .wholeFile htotal calls, List.forall_mem_singleton.2 hpos⟩

/-- **A draft asks for each routine or for the whole file**, at least once if there is an attempt to
make and otherwise not at all. -/
theorem draft_asks (h : (draft limits r kind source o).Runs events attempt) :
    ∃ counts,
      Asked kind o.file source
        (strategy kind r.method (Text.lines source).length limits.lineThreshold) counts
        (prompts events) ∧
      ∀ n ∈ counts, (0 < n ↔ 0 < limits.attempts) := by
  rw [draft] at h
  split at h
  · next hchosen hlanguage =>
    rw [hchosen]
    exact documentRoutines_asks hlanguage h
  · next chosen language? hnot =>
    have hwhole : strategy kind r.method (Text.lines source).length limits.lineThreshold =
        .wholeFile := by
      cases hlanguage : kind.language? with
      | none =>
        rw [strategy, hlanguage]
        exact if_pos (Bool.or_true _)
      | some language =>
        cases hchosen : strategy kind r.method (Text.lines source).length limits.lineThreshold with
        | wholeFile => rfl
        | perRoutine => exact absurd hlanguage (hnot language hchosen)
    rw [hwhole]
    have hasks := documentWhole_asks h
    exact hasks

/-! ## Files -/

/-- After drafting the model is not asked. -/
theorem prompts_written {d : Draft} {content : Storage.Content} {answer : Except Text Unit}
    {documenting : List Event} {result : Except Text (List Path)} {lines : List Doc.Line}
    (hdocuments : (writeDocuments r file lines).Runs documenting result) :
    prompts (⟨.storage (.write file content), answer⟩ ::
      announced d.outcome.file .written ::
        (documenting ++ (documentsAnnounced d.outcome.file result ++ [lastStage o]))) = [] := by
  have hdocumenting : prompts documenting = [] :=
    prompts_of_makes ((writeDocuments_makes r file lines).mono fun _ => Call.Documents.not_ask)
      hdocuments
  have hannounced : prompts (documentsAnnounced d.outcome.file result) = [] := by
    cases result with
    | error reason => rfl
    | ok paths =>
      rw [documentsAnnounced]
      split <;> rfl
  change prompts (documenting ++ (documentsAnnounced d.outcome.file result ++ [lastStage o])) = []
  rw [prompts_append, prompts_append, hdocumenting, hannounced]
  rfl

/-- What a file that has been read is asked for is asked while it is drafted. -/
theorem Course.prompts_eq (h : Course limits r file events o)
    (hkind : SourceKind.ofPath? file = some kind)
    (hread : ⟨.storage (.read file), .ok source⟩ ∈ events) :
    ∃ drafting attempt,
      (draft limits r kind source (.fresh (r.shown file))).Runs drafting attempt ∧
      prompts events = prompts drafting := by
  have hprompts : ∀ {drafting tail : List Event} {read : Except Text Text}, prompts tail = [] →
      prompts (announced (r.shown file) .idle :: ⟨.storage (.read file), read⟩ ::
        (drafting ++ tail)) = prompts drafting := by
    intro drafting tail read htail
    change prompts (drafting ++ tail) = _
    rw [prompts_append, htail, List.append_nil]
  cases h with
  | unsupported hkind' ho =>
    rw [hkind] at hkind'
    cases hkind'
  | unread hkind' ho =>
    rcases List.mem_cons.1 hread with h | h
    · cases h
    rcases List.mem_cons.1 h with h | h
    · cases h
    · cases List.mem_singleton.1 h
  | undrafted hkind' hdraft =>
    rw [hkind] at hkind'
    cases hkind'
    cases mem_read hdraft (fun e he => List.mem_singleton.1 he ▸ lastStage_ne_read) hread
    exact ⟨_, _, hdraft, hprompts rfl⟩
  | unwritten hkind' hdraft ho =>
    rw [hkind] at hkind'
    cases hkind'
    cases mem_read hdraft ne_read_of_unwritten hread
    exact ⟨_, _, hdraft, hprompts rfl⟩
  | written hkind' hdraft hdocuments ho =>
    rw [hkind] at hkind'
    cases hkind'
    cases mem_read hdraft (ne_read_of_written hdocuments) hread
    exact ⟨_, _, hdraft, hprompts (prompts_written hdocuments)⟩

/-- A file of a known kind is read. -/
theorem Course.exists_read (h : Course limits r file events o)
    (hkind : SourceKind.ofPath? file = some kind) :
    ∃ answer : Except Text Text, ⟨.storage (.read file), answer⟩ ∈ events := by
  cases h with
  | unsupported hkind' ho =>
    rw [hkind] at hkind'
    cases hkind'
  | unread | undrafted | unwritten | written =>
    exact ⟨_, List.mem_cons_of_mem _ List.mem_cons_self⟩

/-- **A file that has been read is asked for as its strategy says**. -/
theorem documentFile_asks (h : (documentFile limits r file).Runs events o)
    (hkind : SourceKind.ofPath? file = some kind)
    (hread : ⟨.storage (.read file), .ok source⟩ ∈ events) :
    ∃ counts,
      Asked kind (r.shown file) source
        (strategy kind r.method (Text.lines source).length limits.lineThreshold) counts
        (prompts events) ∧
      ∀ n ∈ counts, (0 < n ↔ 0 < limits.attempts) := by
  obtain ⟨drafting, attempt, hdraft, hprompts⟩ := (course_of_runs h).prompts_eq hkind hread
  rw [hprompts]
  exact draft_asks hdraft

end Files

/-! ## Batches -/

section Batches

variable {limits : Limits} {r : Request} {c c' : Collector}

theorem documentFiles_runs {files : List Path} (h : (documentFiles limits r files c).Runs events c') :
    ∃ parts : List (List Event), events = parts.flatten ∧
      List.Forall₂ (fun file part => ∃ o, (documentFile limits r file).Runs part o) files parts := by
  induction files generalizing events c with
  | nil => exact ⟨[], (Program.runs_pure.1 h).1, .nil⟩
  | cons file files ih =>
    obtain ⟨part, o, rest, rfl, hpart, hrest⟩ := Program.runs_bind.1 h
    obtain ⟨parts, rfl, hparts⟩ := ih hrest
    exact ⟨part :: parts, rfl, .cons ⟨o, hpart⟩ hparts⟩

theorem writeReport_makes (folder : Path) (outcomes : List Outcome) :
    (writeReport folder outcomes).Makes fun c : Call => ¬ c.IsAsk := by
  refine .bind (.perform id) fun made => ?_
  cases made with
  | error reason => exact .done _
  | ok done => exact .bind (.perform id) fun _ => .done _

/-- **A batch works on its files one after the other**; its report asks nothing. -/
theorem run_runs {answer : List Outcome × Collector} (h : (run limits r c).Runs events answer) :
    ∃ (parts : List (List Event)) (report : List Event),
      events = parts.flatten ++ report ∧ prompts report = [] ∧
      List.Forall₂ (fun file part => ∃ o, (documentFile limits.clamped r file).Runs part o)
        r.files parts := by
  obtain ⟨working, collected, report, rfl, hworking, hreport⟩ := Program.runs_bind.1 h
  obtain ⟨parts, rfl, hparts⟩ := documentFiles_runs hworking
  refine ⟨parts, report, rfl, ?_, hparts⟩
  refine prompts_of_makes ?_ hreport
  dsimp only
  split
  · exact .done _
  · exact .bind (writeReport_makes _ _) fun _ => .done _

end Batches

end Scholia.Batch

namespace Scholia

open Batch (Collector Event)
open Json (Record)

/-! ## Settings -/

/-- The limit of attempts is a machine word. -/
theorem Retry.limit_start {n : Nat} (h : n ≤ Json.maxWord) :
    (Retry.start n).limit = if n = Json.maxWord then 0 else n + 1 := by
  unfold Retry.start Retry.wordCount
  unfold Json.maxWord at h ⊢
  split <;> simp only <;> omega

/-- What is read of a body is read of the value at its front. -/
theorem Service.Body.read_eq_ok {α : Type} {record : Record α} {r : Service.Request} {a : α}
    (h : Service.Body.read record r = .ok a) : record.read (Json.front r.body).1 = .ok a := by
  unfold Service.Body.read at h
  split at h
  · cases h
  split at h
  · cases h
  · exact mapError_eq_ok.1 h

namespace Settings

/-- Settings that can come about: the standard ones, those that a text writes, and those that a
request has changed. -/
inductive Arises : Settings → Prop
  | standard : Arises .standard
  | parsed {text : Text} {s : Settings} (h : Settings.parse? text = some s) : Arises s
  | updated {s : Settings} {r : Service.Request} {u : Service.Update} (before : Arises s)
    (h : Service.Body.read Service.Update.record r = .ok u) : Arises (u.apply s)

/-- Settings that are read have a machine word of retries. -/
theorem record_builds : Settings.record.Builds fun s => s.maxRetries ≤ Json.maxWord := by
  have hretries : (Record.withDefault "max_retries" (Json.asNat Json.maxWord)
      standard.maxRetries).Builds (· ≤ Json.maxWord) := by
    refine .field (fun w n => Json.asNat_le) fun f n h => ?_
    cases h
    decide
  refine .seq (.seq (.seq (.seq (.seq (.seq (.seq (.seq (.map ?_ (.any _)) (.any _)) (.any _))
    (.any _)) (.any _)) (.any _)) hretries) (.any _)) (.any _)
  exact fun _ _ _ _ _ _ _ _ _ _ _ _ n hn _ _ _ _ => hn

/-- A change that is read gives a machine word of retries, if any. -/
theorem update_builds :
    Service.Update.record.Builds fun u => ∀ n, u.maxRetries = some n → n ≤ Json.maxWord := by
  have hretries : (Record.optional "max_retries" (Json.asNat Json.maxWord)).Builds
      fun m => ∀ n, m = some n → n ≤ Json.maxWord := by
    refine .field (fun w m h n hm => ?_) fun f m h n hm => ?_
    · exact Json.asNat_le (Json.asOption_eq_some (hm ▸ h))
    · split at h
      · cases h
      · cases h
        cases hm
  refine .seq (.seq (.seq (.seq (.seq (.seq (.seq (.seq (.map ?_ (.any _)) (.any _)) (.any _))
    (.any _)) (.any _)) (.any _)) hretries) (.any _)) (.any _)
  exact fun _ _ _ _ _ _ _ _ _ _ _ _ m hm _ _ _ _ => hm

/-- **The retries of settings are a machine word**. -/
theorem Arises.maxRetries_le {s : Settings} (hs : s.Arises) : s.maxRetries ≤ Json.maxWord := by
  induction hs with
  | standard => decide
  | parsed h =>
    obtain ⟨w, -, hread⟩ := Option.bind_eq_some_iff.1 h
    exact record_builds.read (toOption_eq_some hread)
  | @updated s r u before h ih =>
    have hretries := update_builds.read (Service.Body.read_eq_ok h)
    rw [Service.Update.apply]
    cases hnew : u.maxRetries with
    | none => exact ih
    | some n => exact hretries n hnew

/-- **Every machine word can be configured**. -/
theorem exists_arises {n : Nat} (h : n ≤ Json.maxWord) : ∃ s : Settings, s.Arises ∧ s.maxRetries = n := by
  let fields : List (Text × Json) := [("max_retries".toList, .ofNat n)]
  have hreads : Settings.record.Reads fields { standard with maxRetries := n } :=
    .seq (.seq (.seq (.seq (.seq (.seq (.seq (.seq (.map _ (.absent rfl fun _ _ => rfl))
      (.absent rfl fun _ _ => rfl)) (.absent rfl fun _ _ => rfl)) (.absent rfl fun _ _ => rfl))
      (.absent rfl fun _ _ => rfl)) (.absent rfl fun _ _ => rfl))
      (.present rfl (Json.asNat_ofNat h))) (.absent rfl fun _ _ => rfl))
      (.absent rfl fun _ _ => rfl)
  have hspelled : Json.Spelled (.object fields) := ⟨Json.number?_ofNat n, trivial⟩
  have hparse : Settings.parse? (Json.render (.object fields)) =
      some { standard with maxRetries := n } := by
    rw [Settings.parse?, Json.read?_of_parse? (Json.parse?_render hspelled), asSettings, hreads.read]
    rfl
  exact ⟨_, .parsed hparse, rfl⟩

theorem arises_maxRetries_iff {n : Nat} :
    (∃ s : Settings, s.Arises ∧ s.maxRetries = n) ↔ n ≤ Json.maxWord := by
  constructor
  · rintro ⟨s, hs, rfl⟩
    exact hs.maxRetries_le
  · exact exists_arises

/-- The number of files at a time is already bounded when a batch bounds it. -/
theorem clamped_limits (s : Settings) : s.limits.clamped = s.limits := by
  have hconcurrency : max 1 (min (max 1 (min s.concurrency 10)) 10) =
      max 1 (min s.concurrency 10) := by
    omega
  exact congrArg (Batch.Limits.mk · s.maxRetries s.lineThreshold) hconcurrency

end Settings

namespace Batch

/-- **The model is asked unless the retries are the greatest word**. The limit of attempts is one
more than the retries, and zero for that word. So in every run of a batch, each file that has been
read is asked for as its strategy says, routine by routine or as a whole, and each of these prompts
at least once: exactly if the retries are not the greatest word. -/
theorem model_asked_iff {s : Settings} (hs : s.Arises) :
    (Retry.start s.limits.maxRetries).limit =
        (if s.maxRetries = Json.maxWord then 0 else s.maxRetries + 1) ∧
      ∀ (r : Request) (c : Collector) (events : List Event) (answer : List Outcome × Collector),
        (run s.limits r c).Runs events answer →
        ∃ (parts : List (List Event)) (report : List Event),
          events = parts.flatten ++ report ∧ prompts report = [] ∧
          List.Forall₂
            (fun file part =>
              (∃ o, (documentFile s.limits r file).Runs part o) ∧
              ∀ kind source, SourceKind.ofPath? file = some kind →
                ⟨.storage (.read file), .ok source⟩ ∈ part →
                ∃ counts,
                  Asked kind (r.shown file) source
                    (strategy kind r.method (Text.lines source).length s.lineThreshold) counts
                    (prompts part) ∧
                  ∀ n ∈ counts, (0 < n ↔ s.maxRetries ≠ Json.maxWord))
            r.files parts := by
  have hlimit : (Retry.start s.limits.maxRetries).limit = _ := Retry.limit_start hs.maxRetries_le
  have hattempts : 0 < s.limits.attempts ↔ s.maxRetries ≠ Json.maxWord := by
    rw [Limits.attempts, hlimit]
    split
    · next hmax => exact iff_of_false (Nat.lt_irrefl 0) (absurd hmax)
    · next hmax => exact iff_of_true (Nat.succ_pos _) hmax
  refine ⟨hlimit, fun r c events answer h => ?_⟩
  obtain ⟨parts, report, hevents, hreport, hparts⟩ := run_runs h
  rw [s.clamped_limits] at hparts
  refine ⟨parts, report, hevents, hreport, hparts.imp fun file part ⟨o, hpart⟩ => ?_⟩
  refine ⟨⟨o, hpart⟩, fun kind source hkind hread => ?_⟩
  obtain ⟨counts, hasked, hcounts⟩ := documentFile_asks hpart hkind hread
  exact ⟨counts, hasked, fun n hn => (hcounts n hn).trans hattempts⟩

/-! ## A class with two methods -/

/-- Answers to the calls of a batch that reads this source, and nothing else. -/
def readingOnly (source : Text) : (c : Call) → c.Answer
  | .storage (.read _) => .ok source
  | c => nowhere c

def sampleFile : Path := ⟨"A.java".toList⟩

def sampleRequest : Request :=
  ⟨none, [sampleFile], .quick, ⟨"out".toList⟩, .standard, false⟩

theorem ofPath?_sampleFile : SourceKind.ofPath? sampleFile = some (.grammar .java) := rfl

theorem Course.read_sampleClass {limits : Limits} {events : List Event} {o : Outcome}
    (h : Course limits sampleRequest sampleFile events o)
    (hanswers : ∀ e ∈ events, e.2 = readingOnly Language.sampleClass e.1) :
    ⟨.storage (.read sampleFile), .ok Language.sampleClass⟩ ∈ events := by
  obtain ⟨answer, hmem⟩ := h.exists_read ofPath?_sampleFile
  obtain rfl : answer = .ok Language.sampleClass := hanswers _ hmem
  exact hmem

/-- The class is asked for method by method. -/
theorem Asked.of_sampleClass {shown : Text} {counts : List Nat} {asked : List Text}
    (h : Asked (.grammar .java) shown Language.sampleClass
      (strategy (.grammar .java) .quick (Text.lines Language.sampleClass).length 300) counts asked) :
    ∃ m n, counts = [m, n] ∧
      asked = promptsFor .java Language.sampleClass Language.sampleRoutines [m, n] := by
  have hchosen : strategy (.grammar .java) .quick (Text.lines Language.sampleClass).length 300 =
      .perRoutine := by
    decide +kernel
  rw [hchosen] at h
  cases h with
  | perRoutine hlanguage hroutines hlength =>
    cases hlanguage
    rw [Language.routines_sampleClass] at hroutines
    cases hroutines
    obtain ⟨m, n, rfl⟩ := List.length_eq_two.1 hlength
    exact ⟨m, n, rfl, rfl⟩
  | unparsed hfault =>
    rw [countRoutines?, SourceKind.language?] at hfault
    simp only at hfault
    rw [Language.routines_sampleClass] at hfault
    cases hfault

/-- Under standard settings the model is asked for both methods, even if it gives no reply. -/
theorem model_asked_sampleClass :
    Settings.standard.Arises ∧
      ∃ events answer m n,
        (run Settings.standard.limits sampleRequest .empty).Runs events answer ∧
        0 < m ∧ 0 < n ∧
        prompts events =
          promptsFor .java Language.sampleClass Language.sampleRoutines [m, n] := by
  refine ⟨.standard, ?_⟩
  obtain ⟨events, answer, hruns, hanswers⟩ := Program.exists_runs
    (readingOnly Language.sampleClass) (run Settings.standard.limits sampleRequest .empty)
  obtain ⟨parts, report, rfl, hreport, hparts⟩ :=
    (model_asked_iff .standard).2 sampleRequest .empty events answer hruns
  rcases hparts with _ | @⟨_, part, _, _, ⟨⟨o, hpart⟩, hasks⟩, ⟨⟩⟩
  have hread : ⟨.storage (.read sampleFile), .ok Language.sampleClass⟩ ∈ part :=
    (course_of_runs hpart).read_sampleClass fun e he => hanswers e (by simp [he])
  obtain ⟨counts, hasked, hcounts⟩ := hasks _ _ ofPath?_sampleFile hread
  obtain ⟨m, n, rfl, hprompts⟩ := hasked.of_sampleClass
  have hmax : Settings.standard.maxRetries ≠ Json.maxWord := by decide
  have hasks : ∀ k ∈ [m, n], 0 < k := fun k hk => (hcounts k hk).2 hmax
  refine ⟨_, answer, m, n, hruns, hasks m (by simp), hasks n (by simp), ?_⟩
  rw [prompts_append, hreport, List.append_nil, List.flatten_singleton, hprompts]

/-- A settings text with the greatest word of retries. -/
def endlessText : Text := "\x7b\"max_retries\":18446744073709551615\x7d".toList

/-- Under these settings neither method of a class that has been read is asked for. -/
theorem model_not_asked_endlessText :
    ∃ s, Settings.parse? endlessText = some s ∧ s.maxRetries = Json.maxWord ∧
      (Retry.start s.limits.maxRetries).limit = 0 ∧
      Language.routines .java Language.sampleClass = .ok Language.sampleRoutines ∧
      ∃ events o, (documentFile s.limits sampleRequest sampleFile).Runs events o ∧
        ⟨.storage (.read sampleFile), .ok Language.sampleClass⟩ ∈ events ∧
        prompts events = [] := by
  have hretries : (Settings.parse? endlessText).map Settings.maxRetries = some Json.maxWord := by
    decide +kernel
  obtain ⟨s, hs, hmax⟩ := Option.map_eq_some_iff.1 hretries
  have hlimit : (Retry.start s.limits.maxRetries).limit = 0 := by
    change (Retry.start s.maxRetries).limit = 0
    rw [hmax]
    rfl
  refine ⟨s, hs, hmax, hlimit, Language.routines_sampleClass, ?_⟩
  obtain ⟨events, o, hruns, hanswers⟩ := Program.exists_runs (readingOnly Language.sampleClass)
    (documentFile s.limits sampleRequest sampleFile)
  have hread := (course_of_runs hruns).read_sampleClass hanswers
  refine ⟨events, o, hruns, hread, ?_⟩
  obtain ⟨counts, hasked, hcounts⟩ := documentFile_asks hruns ofPath?_sampleFile hread
  refine hasked.eq_nil fun n hn => Nat.eq_zero_of_not_pos fun hpos => ?_
  have hattempts : 0 < (Retry.start s.limits.maxRetries).limit := (hcounts n hn).1 hpos
  rw [hlimit] at hattempts
  exact Nat.lt_irrefl 0 hattempts

end Batch

end Scholia
