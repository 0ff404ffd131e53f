import Mathlib.Data.List.Induction
import Scholia.Model.Client
import Scholia.Proofs.Program
/-!
# What a model is told

The body of a request is read the way a service reads it (`Wire.told?`): messages with their roles,
and beside them the text of the system, if there is one. It `Conveys` messages if what others than
the system say is there in its order, and what the system says is there as well: as messages in the
first format, as one text in the second.

**The law** (`Client.stream_conveys_iff`): a request of the first format conveys all messages, and
one of the second as well if of the system's messages only the last one says anything.

**What does not hold**. The second format has one place for the system, and each of its messages
takes the place of the one before (`Client.stream_drops_earlier_system`).
-/

namespace Scholia.Model

/-! ## Texts one behind the other -/

/-- Texts stand in a text one behind the other, with anything between them. -/
inductive InTurn : List Text → Text → Prop
  | nil (rest : Text) : InTurn [] rest
  | cons {t : Text} {ts : List Text} {rest : Text} (gap : Text) (h : InTurn ts rest) :
    InTurn (t :: ts) (gap ++ t ++ rest)

theorem InTurn.length_le {ts : List Text} {s : Text} (h : InTurn ts s) :
    ts.flatten.length ≤ s.length := by
  induction h with
  | nil rest => exact Nat.zero_le _
  | cons gap _ ih =>
    rw [List.flatten_cons, List.length_append, List.length_append, List.length_append]
    omega

/-- A text holds itself behind others only if these are empty. -/
theorem inTurn_append_self {ts : List Text} {s : Text} :
    InTurn (ts ++ [s]) s ↔ ∀ t ∈ ts, t = [] := by
  constructor
  · intro h t ht
    have hlength := h.length_le
    rw [List.flatten_append, List.flatten_singleton, List.length_append] at hlength
    have hnil : ts.flatten = [] := List.eq_nil_of_length_eq_zero (by omega)
    exact List.flatten_eq_nil_iff.1 hnil t ht
  · intro h
    induction ts with
    | nil => simpa using InTurn.cons [] (InTurn.nil [] : InTurn [] [])
    | cons t ts ih =>
      obtain rfl := h t List.mem_cons_self
      exact .cons [] (ih fun t ht => h t (List.mem_cons_of_mem _ ht))

/-! ## Reading requests -/

namespace Message

/-- Whether a message comes from the system. -/
def isSystem (m : Message) : Bool := m.role == systemRole

/-- The message that an object with a role and a content is. -/
def ofJson? (j : Json) : Option Message :=
  match j.field? "role".toList, j.field? "content".toList with
  | some (.string role), some (.string content) => some ⟨role, content⟩
  | _, _ => none

@[simp] theorem ofJson?_toJson (m : Message) : ofJson? m.toJson = some m := rfl

/-- What the system says, message by message. -/
def systemContents (messages : List Message) : List Text :=
  (messages.filter isSystem).map content

end Message

namespace Wire

open Message (systemContents)

/-- The messages that the body of a request holds, and the text of the system beside them. -/
def told? (body : Json) : Option (List Message × Option Text) :=
  match body.field? "messages".toList with
  | some (.array items) => do
    let system :=
      match body.field? "system".toList with
      | some (.string text) => some text
      | _ => none
    return (← items.mapM Message.ofJson?, system)
  | _ => none

variable (model : Text) (messages : List Message) (options : Options)

theorem mapM_ofJson?_toJson : (messages.map Message.toJson).mapM Message.ofJson? = some messages := by
  induction messages with
  | nil => rfl
  | cons m messages ih =>
    rw [List.map_cons, List.mapM_cons, ih, Message.ofJson?_toJson]
    rfl

/-- The first format holds all messages. -/
theorem told?_openAiBody : told? (openAiBody model messages options) = some (messages, none) := by
  have hmessages : (openAiBody model messages options).field? "messages".toList =
      some (.array (messages.map Message.toJson)) := rfl
  have hsystem : (openAiBody model messages options).field? "system".toList = none := by
    rcases options with ⟨temperature, maxTokens⟩
    cases temperature <;> cases maxTokens <;> rfl
  rw [told?, hmessages, hsystem]
  simp only [mapM_ofJson?_toJson, Option.bind_eq_bind, Option.bind_some, Option.pure_def]

/-- **The second format holds the messages of others, and the last one of the system**. -/
theorem told?_anthropicBody :
    told? (anthropicBody model messages options) =
      some (messages.filter (!·.isSystem), (systemContents messages).getLast?) := by
  have hbody : anthropicBody model messages options = .object
      ([("model".toList, .string model),
        ("messages".toList, .array ((messages.filter (!·.isSystem)).map Message.toJson))]
      ++ optionalField "system" (fun m : Message => .string m.content)
        (messages.filter Message.isSystem).getLast?
      ++ [("stream".toList, .bool true),
        ("max_tokens".toList, .ofNat (options.maxTokens.getD defaultMaxTokens))]
      ++ optionalField "temperature" Json.ofFloat options.temperature) := by
    rw [anthropicBody, List.partition_eq_filter_filter]
    rfl
  rw [hbody, systemContents, List.getLast?_map]
  generalize (messages.filter Message.isSystem).getLast? = last
  rcases options with ⟨temperature, maxTokens⟩
  cases last with
  | none =>
    cases temperature <;>
      exact congrArg (Option.bind · _) (mapM_ofJson?_toJson (messages.filter (!·.isSystem)))
  | some m => exact congrArg (Option.bind · _) (mapM_ofJson?_toJson (messages.filter (!·.isSystem)))

/-- The body of a request passes messages on. -/
def Conveys (format : Format) (messages : List Message) (body : Json) : Prop :=
  ∃ said system, told? body = some (said, system) ∧
    said.filter (!·.isSystem) = messages.filter (!·.isSystem) ∧
    match format with
    | .openAi => systemContents said = systemContents messages
    | .anthropic => InTurn (systemContents messages) (system.getD [])

/-- What others than the system say is in the body, message by message. -/
theorem told?_body (format : Format) : ∃ said system,
    told? (body format model messages options) = some (said, system) ∧
      said.filter (!·.isSystem) = messages.filter (!·.isSystem) := by
  cases format with
  | openAi => exact ⟨_, _, told?_openAiBody model messages options, rfl⟩
  | anthropic =>
    exact ⟨_, _, told?_anthropicBody model messages options, by rw [List.filter_filter]; simp⟩

/-- **When the body of a request passes all messages on**. -/
theorem conveys_body_iff (format : Format) :
    Conveys format messages (body format model messages options) ↔
      (format = .anthropic → ∀ t ∈ (systemContents messages).dropLast, t = []) := by
  cases format with
  | openAi =>
    exact ⟨fun _ => nofun, fun _ => ⟨_, _, told?_openAiBody model messages options, rfl, rfl⟩⟩
  | anthropic =>
    have htold := told?_anthropicBody model messages options
    have hconveys : Conveys .anthropic messages (body .anthropic model messages options) ↔
        InTurn (systemContents messages) ((systemContents messages).getLast?.getD []) := by
      constructor
      · rintro ⟨said, system, hsaid, -, hsystem⟩
        obtain ⟨rfl, rfl⟩ := Prod.mk.inj (Option.some.inj (htold.symm.trans hsaid))
        exact hsystem
      · exact fun h => ⟨_, _, htold, by rw [List.filter_filter]; simp, h⟩
    rw [hconveys]
    refine Iff.trans ?_ (⟨fun h _ => h, fun h => h rfl⟩ : _ ↔ (Format.anthropic = .anthropic → _))
    generalize systemContents messages = ts
    cases ts using List.reverseRecOn with
    | nil => exact iff_of_true (.nil _) nofun
    | append_singleton ts s =>
      rw [List.getLast?_concat, Option.getD_some, List.dropLast_concat]
      exact inTurn_append_self

end Wire

namespace Client

open Message (systemContents)
open Wire (Conveys told?)

/-- The requests of a client: one to its address, or none. -/
theorem requests_of_runs {c : Client} {messages : List Message}
    {events : List (Program.Event network)} {s : Stream} (h : (c.stream messages).Runs events s) :
    events.map Sigma.fst = (c.target.toOption.map (c.request · messages)).toList := by
  rw [stream] at h
  cases htarget : c.target with
  | error reason =>
    rw [htarget] at h
    rw [(Program.runs_pure.1 h).1]
    rfl
  | ok url =>
    rw [htarget] at h
    obtain ⟨asking, answer, rest, rfl, hasking, hrest⟩ := Program.runs_bind.1 h
    obtain rfl := Program.runs_perform.1 hasking
    cases answer <;> rw [(Program.runs_pure.1 hrest).1] <;> rfl

/-- **What a client's requests pass on**. A client with an address sends one request for its
messages. What others than the system say is in it, in its order and with its roles. What the
system says is in it as well, one message behind the other, unless in the second format a message of
the system that is not its last one says anything. -/
theorem stream_conveys_iff {c : Client} {messages : List Message}
    {events : List (Program.Event network)} {s : Stream} (h : (c.stream messages).Runs events s) :
    (c.target.toOption.isSome = true → events.length = 1) ∧
    ∀ request ∈ events.map Sigma.fst,
      (∃ said system, told? (Request.body request) = some (said, system) ∧
        said.filter (!·.isSystem) = messages.filter (!·.isSystem)) ∧
      (Conveys c.endpoint.format messages (Request.body request) ↔
        (c.endpoint.format = .anthropic → ∀ t ∈ (systemContents messages).dropLast, t = [])) := by
  have hrequests := requests_of_runs h
  constructor
  · intro htarget
    obtain ⟨url, hurl⟩ := Option.isSome_iff_exists.1 htarget
    rw [← List.length_map (f := Sigma.fst), hrequests, hurl]
    rfl
  · intro request hrequest
    rw [hrequests] at hrequest
    obtain ⟨url, -, rfl⟩ := Option.map_eq_some_iff.1 (Option.mem_toList.1 hrequest)
    exact ⟨Wire.told?_body c.model messages c.options c.endpoint.format,
      Wire.conveys_body_iff c.model messages c.options c.endpoint.format⟩

/-- A client of the second format. -/
def claudeClient : Client where
  key := "key".toList
  endpoint := ⟨.anthropic, "http://host/v1/messages".toList⟩
  model := "claude-3-opus".toList
  options := ⟨none, none⟩

/-- A conversation with one message of the system, which does not stand at its front. -/
def briefed : List Message :=
  [.user "Hi".toList, .system "Be brief.".toList, ⟨"assistant".toList, "Hello".toList⟩,
    .user "Bye".toList]

/-- It has an address, so its request is sent, and may be answered anything. -/
theorem claudeClient_runs (messages : List Message) (answer : Except Text Response) :
    ∃ url s, (claudeClient.stream messages).Runs [⟨claudeClient.request url messages, answer⟩] s := by
  have htarget : claudeClient.target.toOption.isSome = true := rfl
  cases hurl : claudeClient.target with
  | error reason =>
    rw [hurl] at htarget
    cases htarget
  | ok url =>
    rw [stream, hurl]
    have hasked (f : Except Text Response → Program network Stream) {s : Stream}
        (hf : f answer = pure s) :
        (Program.perform (I := network) (claudeClient.request url messages) >>= f).Runs
          [⟨claudeClient.request url messages, answer⟩] s :=
      Program.runs_bind.2 ⟨_, answer, [], rfl, Program.runs_perform.2 rfl, hf.symm ▸ .done s⟩
    cases answer with
    | error reason => exact ⟨url, _, hasked _ rfl⟩
    | ok response => exact ⟨url, _, hasked _ rfl⟩

theorem stream_conveys_iff_briefed : ∃ request events s,
    (claudeClient.stream briefed).Runs events s ∧ events.map Sigma.fst = [request] ∧
      Conveys .anthropic briefed (Request.body request) := by
  obtain ⟨url, s, hruns⟩ := claudeClient_runs briefed (.error [])
  exact ⟨_, _, s, hruns, rfl,
    ((stream_conveys_iff hruns).2 _ List.mem_cons_self).2.2 fun _ => by decide⟩

/-- A conversation in which the system says two things. -/
def briefedTwice : List Message :=
  [.system "Be brief.".toList, .system "Be exact.".toList, .user "Hi".toList]

theorem stream_drops_earlier_system : ∃ request events s,
    (claudeClient.stream briefedTwice).Runs events s ∧ events.map Sigma.fst = [request] ∧
      told? (Request.body request) = some ([.user "Hi".toList], some "Be exact.".toList) ∧
      ¬ Conveys .anthropic briefedTwice (Request.body request) := by
  obtain ⟨url, s, hruns⟩ := claudeClient_runs briefedTwice (.error [])
  have htold : told? (claudeClient.request url briefedTwice).body =
      some ([.user "Hi".toList], some "Be exact.".toList) :=
    Wire.told?_anthropicBody claudeClient.model briefedTwice claudeClient.options
  refine ⟨_, _, s, hruns, rfl, htold, fun hconveys => ?_⟩
  have hempty := (Wire.conveys_body_iff claudeClient.model briefedTwice claudeClient.options
    .anthropic).1 hconveys rfl
  exact absurd (hempty "Be brief.".toList (by decide)) (by decide)

end Client

end Scholia.Model
