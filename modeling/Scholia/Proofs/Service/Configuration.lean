import Mathlib.Data.List.Induction
import Scholia.Proofs.Program
import Scholia.Service.Router
/-!
# Settings in memory and in their file

What the service remembers of its settings over a history of requests, whatever storage answers: the
settings that were last saved or loaded, and on top of them all changes since then that could not be
saved (`settings_of_history`). A change is made in memory before it is saved and is not taken back,
so a request that fails has changed the settings all the same.

Whether a saved text is read back as the same settings is not spoken of.
-/

namespace Scholia.Service

abbrev Event : Type := Program.Event interface

/-- A request with its answer, and what is remembered then. -/
structure Visit where
  request : Request
  events : List Event
  response : Response
  after : State

/-- Whether a call reads or writes a file. -/
def Call.OnFile : Call → Prop
  | storage (.read _) | storage (.write _ _) => True
  | _ => False

namespace Visit

/-- The settings that a visit has saved to their file or loaded from it. -/
def settled? (file : Path) (v : Visit) : Option Settings :=
  match v.events with
  | [⟨.storage (.write path (.text text)), .ok ()⟩] =>
    if path = file ∧ text = v.after.settings.render then some v.after.settings else none
  | [⟨.storage (.read path), .ok text⟩] => if path = file then Settings.parse? text else none
  | _ => none

/-- The change of settings that a visit could not save. -/
def refused? (file : Path) (v : Visit) : Option Update :=
  match route v.request, v.events with
  | .ok .changeSettings, [⟨.storage (.write path _), .error _⟩] =>
    if path = file then (Body.read Update.record v.request).toOption else none
  | _, _ => none

/-- A visit that is not about the file settles nothing. -/
theorem idle {v : Visit} (h : ∀ e, v.events = [e] → ¬ e.1.OnFile) (file : Path) :
    v.settled? file = none ∧ v.refused? file = none := by
  constructor
  · unfold settled?
    split
    · next he => exact absurd trivial (h _ he)
    · next he => exact absurd trivial (h _ he)
    · rfl
  · unfold refused?
    split
    · next he => exact absurd trivial (h _ he)
    · rfl

/-- What is settled has not been refused. -/
theorem refused?_eq_none {v : Visit} {file : Path} {s : Settings} (h : v.settled? file = some s) :
    v.refused? file = none := by
  unfold refused?
  split
  · next he =>
    unfold settled? at h
    rw [he] at h
    split at h
    · next heq => cases heq
    · next heq => cases heq
    · cases h
  · rfl

end Visit

/-- The ways in which a visit changes the settings. -/
inductive Visit.Changes (file : Path) (v : Visit) (before : Settings) : Prop
  /-- What is saved or loaded is remembered. -/
  | settled (hsettled : v.settled? file = some v.after.settings)
  /-- A change that could not be saved is remembered, and the request fails. -/
  | refused {u : Update} (hsettled : v.settled? file = none) (hrefused : v.refused? file = some u)
    (hafter : v.after.settings = u.apply before) (hstatus : v.response.status = 500)
  | unchanged (hsettled : v.settled? file = none) (hrefused : v.refused? file = none)
    (hafter : v.after.settings = before)

section Answers

variable {file : Path} {s s' : State} {r : Request} {events : List Event} {response : Response}

theorem Visit.Changes.of_idle (h : ∀ e, events = [e] → ¬ e.1.OnFile)
    (hafter : s'.settings = s.settings) :
    (⟨r, events, response, s'⟩ : Visit).Changes file s.settings :=
  .unchanged (Visit.idle h file).1 (Visit.idle h file).2 hafter

theorem Visit.Changes.of_pure {a : Response × State}
    (h : (pure a : Action (Response × State)).Runs events (response, s'))
    (hafter : a.2.settings = s.settings) {response' : Response} :
    (⟨r, events, response', s'⟩ : Visit).Changes file s.settings := by
  obtain ⟨rfl, rfl⟩ := Program.runs_pure.1 h
  exact .of_idle nofun hafter

theorem changeSettings_changes (hroute : route r = .ok .changeSettings)
    (h : (answer file s r .changeSettings).Runs events (response, s')) {response' : Response}
    (hstatus : response'.status = response.status) :
    (⟨r, events, response', s'⟩ : Visit).Changes file s.settings := by
  rw [answer] at h
  cases hread : Body.read Update.record r with
  | error status =>
    rw [hread] at h
    exact .of_pure h rfl
  | ok u =>
    rw [hread] at h
    obtain ⟨first, ⟨result, s''⟩, second, rfl, hupdate, hend⟩ := Program.runs_bind.1 h
    obtain ⟨rfl, heq⟩ := Program.runs_pure.1 hend
    obtain ⟨saving, result', nothing, rfl, hsave, hkept⟩ := Program.runs_bind.1 hupdate
    obtain ⟨rfl, heq'⟩ := Program.runs_pure.1 hkept
    obtain ⟨writing, answered, last, rfl, hwrite, hlast⟩ := Program.runs_bind.1 hsave
    obtain rfl := Program.runs_perform.1 hwrite
    cases heq
    cases heq'
    cases answered with
    | ok done =>
      obtain ⟨rfl, rfl⟩ := Program.runs_pure.1 hlast
      exact .settled (by simp [Visit.settled?])
    | error reason =>
      obtain ⟨rfl, rfl⟩ := Program.runs_pure.1 hlast
      refine .refused (u := u) rfl ?_ rfl hstatus
      simp [Visit.refused?, hroute, hread, Except.toOption]

theorem reloadSettings_changes
    (h : (answer file s r .reloadSettings).Runs events (response, s')) {response' : Response} :
    (⟨r, events, response', s'⟩ : Visit).Changes file s.settings := by
  obtain ⟨first, s'', second, rfl, hreload, hend⟩ := Program.runs_bind.1 h
  obtain ⟨rfl, heq⟩ := Program.runs_pure.1 hend
  obtain ⟨loading, loaded, nothing, rfl, hload, hkept⟩ := Program.runs_bind.1 hreload
  obtain ⟨rfl, heq'⟩ := Program.runs_pure.1 hkept
  obtain ⟨reading, answered, last, rfl, hread, hlast⟩ := Program.runs_bind.1 hload
  obtain rfl := Program.runs_perform.1 hread
  cases heq
  cases heq'
  have hrefused : ∀ answered : Except Text Text, ∀ after : State,
      (⟨r, [⟨.storage (.read file), answered⟩], response', after⟩ : Visit).refused? file = none := by
    intro answered after
    unfold Visit.refused?
    split
    · next he => cases he
    · rfl
  cases answered with
  | error reason =>
    obtain ⟨rfl, rfl⟩ := Program.runs_pure.1 hlast
    exact .unchanged rfl (hrefused _ _) rfl
  | ok text =>
    obtain ⟨rfl, rfl⟩ := Program.runs_pure.1 hlast
    cases hparse : Settings.parse? text with
    | none => exact .unchanged (by simp [Visit.settled?, hparse]) (hrefused _ _) rfl
    | some kept => exact .settled (by simp [Visit.settled?, hparse])

/-- Talk over the network is not about files. -/
theorem overNetwork_makes {α : Type} (p : Program Model.network α) :
    (overNetwork p).Makes fun c : Call => ¬ c.OnFile :=
  p.makes_true.interpret fun _ _ => .perform id

theorem trial_makes (t : Trial) (s : Settings) : (t.run s).Makes fun c : Call => ¬ c.OnFile := by
  rw [Trial.run]
  split
  · exact .done _
  · refine .bind (overNetwork_makes _) fun reply => ?_
    cases reply <;> exact .done _

theorem tryConnection_changes
    (h : (answer file s r .tryConnection).Runs events (response, s')) {response' : Response} :
    (⟨r, events, response', s'⟩ : Visit).Changes file s.settings := by
  rw [answer] at h
  cases hread : Body.read Trial.record r with
  | error status =>
    rw [hread] at h
    exact .of_pure h rfl
  | ok trial =>
    rw [hread] at h
    obtain ⟨first, tried, second, rfl, htrial, hend⟩ := Program.runs_bind.1 h
    obtain ⟨rfl, heq⟩ := Program.runs_pure.1 hend
    cases heq
    refine .of_idle (fun e he => ?_) rfl
    rw [List.append_nil] at he
    exact (trial_makes trial s.settings).of_mem htrial e (he ▸ List.mem_singleton_self e)

/-- A request for documentation looks at its project first and leaves the settings alone. -/
theorem generation_changes {g : Generation} (h : (g.run s).Runs events (response, s'))
    {response' : Response} : (⟨r, events, response', s'⟩ : Visit).Changes file s.settings := by
  obtain ⟨first, entry, rest, rfl, hlook, hafter⟩ := Program.runs_bind.1 h
  obtain rfl := Program.runs_perform.1 hlook
  refine .of_idle (fun e he => (List.cons.inj he).1 ▸ id) ?_
  cases hprepare : g.prepare s.settings entry with
  | error fault =>
    rw [hprepare] at hafter
    obtain ⟨-, heq⟩ := Program.runs_pure.1 hafter
    cases heq
    rfl
  | ok prepared =>
    rw [hprepare] at hafter
    obtain ⟨batch, done, last, -, -, hend⟩ := Program.runs_bind.1 hafter
    obtain ⟨-, heq⟩ := Program.runs_pure.1 hend
    cases heq
    rfl

/-- **A request changes the settings in one of these ways**. -/
theorem handle_changes (h : (handle file s r).Runs events (response, s')) :
    (⟨r, events, response, s'⟩ : Visit).Changes file s.settings := by
  rw [handle] at h
  cases hroute : route r with
  | error status =>
    rw [hroute] at h
    exact .of_pure h rfl
  | ok asked =>
    rw [hroute] at h
    obtain ⟨first, ⟨response', s''⟩, second, rfl, hanswer, hend⟩ := Program.runs_bind.1 h
    obtain ⟨rfl, heq⟩ := Program.runs_pure.1 hend
    have hstatus : response.status = response'.status := by
      rw [(Prod.mk.inj heq).1]
      split <;> rfl
    obtain rfl : s' = s'' := (Prod.mk.inj heq).2
    rw [List.append_nil]
    cases asked with
    | health => exact .of_pure hanswer rfl
    | showSettings => exact .of_pure hanswer rfl
    | changeSettings => exact changeSettings_changes hroute hanswer hstatus
    | reloadSettings => exact reloadSettings_changes hanswer
    | tryConnection => exact tryConnection_changes hanswer
    | generate =>
      rw [answer] at hanswer
      cases hread : Body.read Generation.record r with
      | error status =>
        rw [hread] at hanswer
        exact .of_pure hanswer rfl
      | ok g =>
        rw [hread] at hanswer
        exact generation_changes hanswer

end Answers

/-! ## Histories -/

/-- Requests that are answered one after the other. -/
inductive History (file : Path) (first : State) : List Visit → State → Prop
  | start : History file first [] first
  | visit {visits : List Visit} {s s' : State} {r : Request} {events : List Event}
    {response : Response} (before : History file first visits s)
    (h : (handle file s r).Runs events (response, s')) :
    History file first (visits ++ [⟨r, events, response, s'⟩]) s'

/-- The settings that were last saved or loaded, if those before were in the file. -/
def latest (file : Path) (first : Settings) (visits : List Visit) : Settings :=
  visits.foldl (fun kept v => (v.settled? file).getD kept) first

/-- The changes that could not be saved since settings were last saved or loaded. -/
def refusedSince (file : Path) (visits : List Visit) : List Update :=
  visits.foldl
    (fun refused v =>
      if (v.settled? file).isSome then [] else refused ++ (v.refused? file).toList) []

/-- Settings after changes. -/
def applyAll (updates : List Update) (s : Settings) : Settings :=
  updates.foldl (fun s u => u.apply s) s

theorem latest_concat (file : Path) (first : Settings) (visits : List Visit) (v : Visit) :
    latest file first (visits ++ [v]) = (v.settled? file).getD (latest file first visits) := by
  rw [latest, List.foldl_append]
  rfl

theorem refusedSince_concat (file : Path) (visits : List Visit) (v : Visit) :
    refusedSince file (visits ++ [v]) =
      if (v.settled? file).isSome then []
      else refusedSince file visits ++ (v.refused? file).toList := by
  rw [refusedSince, List.foldl_append]
  rfl

theorem refusedSince_eq_nil {file : Path} {visits : List Visit}
    (h : ∀ v ∈ visits, v.refused? file = none) : refusedSince file visits = [] := by
  induction visits using List.reverseRecOn with
  | nil => rfl
  | append_singleton visits v ih =>
    rw [refusedSince_concat, ih fun w hw => h w (List.mem_append_left _ hw),
      h v (List.mem_append_right _ (List.mem_singleton_self v))]
    exact ite_self []

/-- **What is remembered over a history of requests**: the settings that were last saved or loaded,
with all changes since then that could not be saved. So where every save succeeds, memory and file
agree; a request whose save fails answers with a failure, and its change is remembered. -/
theorem settings_of_history {file : Path} {first s : State} {visits : List Visit}
    (h : History file first visits s) :
    s.settings = applyAll (refusedSince file visits) (latest file first.settings visits) ∧
      ((∀ v ∈ visits, v.refused? file = none) → s.settings = latest file first.settings visits) ∧
      ∀ v ∈ visits, v.refused? file ≠ none → v.response.status = 500 := by
  have hsettings : s.settings =
        applyAll (refusedSince file visits) (latest file first.settings visits) ∧
      ∀ v ∈ visits, v.refused? file ≠ none → v.response.status = 500 := by
    induction h with
    | start => exact ⟨rfl, nofun⟩
    | @visit visits s s' r events response before h ih =>
      obtain ⟨hsettings, hstatus⟩ := ih
      rw [latest_concat, refusedSince_concat, List.forall_mem_append, List.forall_mem_singleton]
      cases handle_changes h with
      | settled hsettled =>
        rw [hsettled, Visit.refused?_eq_none hsettled]
        exact ⟨rfl, hstatus, fun hne => absurd rfl hne⟩
      | @refused u hsettled hrefused hafter hfailed =>
        rw [hsettled, hrefused]
        refine ⟨?_, hstatus, fun _ => hfailed⟩
        rw [hafter, hsettings, applyAll, applyAll, Option.isSome_none, if_neg Bool.false_ne_true,
          List.foldl_append]
        rfl
      | unchanged hsettled hrefused hafter =>
        rw [hsettled, hrefused]
        refine ⟨?_, hstatus, fun hne => absurd rfl hne⟩
        rw [hafter, hsettings, Option.isSome_none, if_neg Bool.false_ne_true, Option.toList_none,
          List.append_nil]
        rfl
  exact ⟨hsettings.1, fun hnone => by rw [hsettings.1, refusedSince_eq_nil hnone]; rfl, hsettings.2⟩

/-! ## A change of the key -/

def settingsFile : Path := ⟨"config.json".toList⟩

/-- A request that changes the key alone. -/
def keyRequest : Request :=
  ⟨"PUT".toList, "/api/config".toList, some "application/json".toList,
    "\x7b\"api_key\":\"k\"\x7d".toList⟩

/-- Settings are saved if storage takes their text. -/
theorem saveSettings_runs (file : Path) (s : Settings) (answered : Except Text Unit) :
    ∃ result, (saveSettings file s).Runs [⟨.storage (.write file (.text s.render)), answered⟩]
        result ∧
      (answerUpdate result).status = match answered with
        | .ok _ => 200
        | .error _ => 500 := by
  have hwrite := Program.runs_perform (I := interface)
    (c := .storage (.write file (.text s.render))) (a := answered).2 rfl
  cases answered with
  | ok done =>
    exact ⟨.ok (), Program.runs_bind.2 ⟨_, _, [], rfl, hwrite, Program.runs_pure.2 ⟨rfl, rfl⟩⟩, rfl⟩
  | error reason =>
    exact ⟨_, Program.runs_bind.2 ⟨_, _, [], rfl, hwrite, Program.runs_pure.2 ⟨rfl, rfl⟩⟩, rfl⟩

/-- The key is changed, be it saved or not. -/
theorem history_keyRequest (answered : Except Text Unit) :
    ∃ response s, History settingsFile ⟨.standard, .empty⟩
        [⟨keyRequest, [⟨.storage (.write settingsFile (.text s.settings.render)), answered⟩],
          response, s⟩] s ∧
      s.settings.apiKey = ['k'] ∧
      response.status = match answered with
        | .ok _ => 200
        | .error _ => 500 := by
  have hroute : route keyRequest = .ok .changeSettings := rfl
  have hkey : (Body.read Update.record keyRequest).map Update.apiKey = .ok (some ['k']) := by
    decide +kernel
  cases hread : Body.read Update.record keyRequest with
  | error status =>
    rw [hread] at hkey
    cases hkey
  | ok u =>
    rw [hread] at hkey
    have hu : u.apiKey = some ['k'] := Except.ok.inj hkey
    have happly : (u.apply .standard).apiKey = ['k'] := by rw [Update.apply, hu]; rfl
    obtain ⟨result, hsave, hresult⟩ := saveSettings_runs settingsFile (u.apply .standard) answered
    have hupdate : (updateSettings settingsFile u ⟨.standard, .empty⟩).Runs
        [⟨.storage (.write settingsFile (.text (u.apply .standard).render)), answered⟩]
        (result, ⟨u.apply .standard, .empty⟩) :=
      Program.runs_bind.2 ⟨_, _, [], rfl, hsave, .done _⟩
    refine ⟨answerUpdate result, ⟨u.apply .standard, .empty⟩, .visit .start ?_, happly, hresult⟩
    rw [handle, hroute]
    simp only [answer, hread]
    exact Program.runs_bind.2
      ⟨_, _, [], rfl, Program.runs_bind.2 ⟨_, _, [], rfl, hupdate, .done _⟩, .done _⟩

theorem settings_of_history_saved :
    ∃ visits s, History settingsFile ⟨.standard, .empty⟩ visits s ∧ s.settings.apiKey = ['k'] ∧
      s.settings = latest settingsFile .standard visits := by
  obtain ⟨response, s, h, hkey, -⟩ := history_keyRequest (.ok ())
  refine ⟨_, s, h, hkey, (settings_of_history h).2.1 fun v hv => ?_⟩
  obtain rfl := List.mem_singleton.1 hv
  exact Visit.refused?_eq_none (s := s.settings) (by simp [Visit.settled?])

theorem settings_remember_refused :
    ∃ visits s, History settingsFile ⟨.standard, .empty⟩ visits s ∧
      visits.map (·.response.status) = [500] ∧ s.settings.apiKey = ['k'] ∧
      (latest settingsFile .standard visits).apiKey = [] := by
  obtain ⟨response, s, h, hkey, hstatus⟩ := history_keyRequest (.error "full".toList)
  exact ⟨_, s, h, by rw [List.map_singleton, hstatus], hkey, rfl⟩

end Scholia.Service
