import Scholia.Proofs.Json.Record
import Scholia.Proofs.Json.RoundTrip
import Scholia.Proofs.Model.EventStream
/-!
# Replies delivered as events

A reply is a list of texts, each carried by an event. What it is to carry a text is told of the JSON
of an event, for each format apart (`Wire.Carries`), and a body is told line by line (`Wire.Body`):
lines that carry a text, idle lines anywhere between them, and at the end the end mark of the first
format or the stop event of the second. Such a body there is for any texts (`Wire.body_written`).

**The law** (`Client.reply_of_bodies`): bodies of both formats that carry the same texts lead to the
same reply, which is the texts together, wherever the bodies are cut between characters.
-/

namespace Scholia.Model

open EventStream (payload? take)
open Json (MaybeText valuesOf parse?)
open Json.Written (ofJson ofItems)

namespace Wire

variable {format : Format} {line p q s t : Text} {event : Json} {texts : List Text}

/-! ## Events -/

/-- A choice of an event in the first format, with its content if it has any. -/
inductive IsChoice (content : Option Text) : Json → Prop
  | intro {fields change : List (Text × Json)} {reason : Option Text}
    (hdelta : valuesOf "delta".toList fields = [.object change])
    (hcontent : MaybeText "content".toList change content)
    (hreason : MaybeText "finish_reason".toList fields reason) : IsChoice content (.object fields)

/-- An event carries a text. In the first format the first choice counts, but the others have to be
choices as well. -/
inductive Carries : Format → Json → Text → Prop
  | openAi {fields : List (Text × Json)} {first : Json} {others : List Json} {t : Text}
    (hchoices : valuesOf "choices".toList fields = [.array (first :: others)])
    (hfirst : IsChoice (some t) first) (hothers : ∀ other ∈ others, ∃ content, IsChoice content other) :
    Carries .openAi (.object fields) t
  | anthropic {fields change : List (Text × Json)} {reason : Option Text} {t : Text}
    (hkind : valuesOf "type".toList fields = [.string "content_block_delta".toList])
    (hdelta : valuesOf "delta".toList fields = [.object change])
    (hchange : valuesOf "type".toList change = [.string "text_delta".toList])
    (htext : valuesOf "text".toList change = [.string t])
    (hreason : MaybeText "stop_reason".toList change reason) :
    Carries .anthropic (.object fields) t

/-- The event that ends a reply in the second format. -/
inductive IsStop : Json → Prop
  | intro {fields : List (Text × Json)}
    (hkind : valuesOf "type".toList fields = [.string "message_stop".toList])
    (hdelta : valuesOf "delta".toList fields = []) : IsStop (.object fields)

theorem read_choice {content : Option Text} {choice : Json} (h : IsChoice content choice) :
    ∃ reason, openAiChoice.read (ofJson choice) = .ok ⟨content, reason⟩ := by
  obtain ⟨hdelta, hcontent, hreason⟩ := h
  exact ⟨_, (((Json.Record.Reads.present hdelta hcontent.reads.read).map Chunk.mk).seq
    hreason.reads).read⟩

/-- Items are read one by one. -/
theorem read_items {α : Type} {reader : Json.Reader α} {items : List Json}
    (h : ∀ item ∈ items, ∃ a, reader (ofJson item) = .ok a) :
    ∃ found, (ofItems items).mapM reader = .ok found := by
  induction items with
  | nil => exact ⟨[], rfl⟩
  | cons item items ih =>
    obtain ⟨⟨a, ha⟩, hrest⟩ := List.forall_mem_cons.1 h
    obtain ⟨found, hfound⟩ := ih hrest
    refine ⟨a :: found, ?_⟩
    rw [ofItems, List.mapM_cons, ha, hfound]
    rfl

/-- An event of the first format is read by its choices. -/
theorem read_choices {fields : List (Text × Json)} {items : List Json} {found : List Chunk}
    (hchoices : valuesOf "choices".toList fields = [.array items])
    (hfound : (ofItems items).mapM openAiChoice.read = .ok found) :
    openAiEvent.read (ofJson (.object fields)) = .ok found := by
  have hitems : Json.asList openAiChoice.read (ofJson (.array items)) = .ok found := hfound
  exact (Json.Record.Reads.present hchoices hitems).read

/-- An event of the second format is read by its kind and its change. -/
theorem read_event {fields : List (Text × Json)} {kind : Text} {change : Option Delta}
    (hkind : valuesOf "type".toList fields = [.string kind])
    (hdelta : (Json.Record.withDefault "delta" (Json.asOption Delta.record.read) none).Reads fields
      change) :
    anthropicEvent.read (ofJson (.object fields)) = .ok (kind, change) := by
  have hread : (Json.Record.required "type" Json.asText).Reads fields kind := .present hkind rfl
  exact ((hread.map Prod.mk).seq hdelta).read

/-- Of the choices of an event the first counts. -/
theorem chunk?_of_choices {fields : List (Text × Json)} {first : Json} {others : List Json}
    {content : Option Text} (hp : parse? p = some (.object fields))
    (hchoices : valuesOf "choices".toList fields = [.array (first :: others)])
    (hfirst : IsChoice content first) (hothers : ∀ other ∈ others, ∃ content, IsChoice content other) :
    ∃ reason, chunk? .openAi p = some ⟨content, reason⟩ := by
  obtain ⟨reason, hread⟩ := read_choice hfirst
  have hrest : ∀ other ∈ others, ∃ chunk, openAiChoice.read (ofJson other) = .ok chunk := by
    intro other hother
    obtain ⟨content', hchoice⟩ := hothers other hother
    obtain ⟨reason', hread'⟩ := read_choice hchoice
    exact ⟨_, hread'⟩
  obtain ⟨found, hfound⟩ := read_items hrest
  have hitems : (ofItems (first :: others)).mapM openAiChoice.read =
      .ok (⟨content, reason⟩ :: found) := by
    rw [ofItems, List.mapM_cons, hread, hfound]
    rfl
  refine ⟨reason, ?_⟩
  rw [chunk?, openAiChunk?, Json.read?_of_parse? hp, read_choices hchoices hitems]
  rfl

/-- **An event that carries a text is read so**. -/
theorem chunk?_of_carries (hp : parse? p = some event) (h : Carries format event t) :
    ∃ reason, chunk? format p = some ⟨some t, reason⟩ := by
  cases h with
  | openAi hchoices hfirst hothers => exact chunk?_of_choices hp hchoices hfirst hothers
  | @anthropic fields change reason _ hkind hdelta hchange htext hreason =>
    have hread : Delta.record.read (ofJson (.object change)) =
        .ok ⟨some "text_delta".toList, some t, reason⟩ :=
      (((MaybeText.given hchange).reads.map Delta.mk).seq (MaybeText.given htext).reads |>.seq
        hreason.reads).read
    have hchanged : Json.asOption Delta.record.read (ofJson (.object change)) =
        .ok (some ⟨some "text_delta".toList, some t, reason⟩) := congrArg (Except.map some) hread
    refine ⟨none, ?_⟩
    rw [chunk?, anthropicChunk?, Json.read?_of_parse? hp, read_event hkind (.present hdelta hchanged)]
    rfl

theorem chunk?_of_stop (hp : parse? p = some event) (h : IsStop event) :
    chunk? .anthropic p = some ⟨none, some "stop".toList⟩ := by
  obtain ⟨hkind, hdelta⟩ := h
  rw [chunk?, anthropicChunk?, Json.read?_of_parse? hp,
    read_event hkind (.absent hdelta fun _ _ => rfl)]
  rfl

/-! ## Idle lines -/

/-- A line carries no text and is not the end mark: it carries nothing at all, or a payload that is
no event, or an event without text. -/
def Idle (format : Format) (line : Text) : Prop :=
  ∀ p ∈ payload? line, p ≠ endMark ∧ ∀ chunk ∈ chunk? format p, chunk.content.getD [] = []

instance (format : Format) (line : Text) : Decidable (Idle format line) :=
  inferInstanceAs (Decidable (∀ p ∈ payload? line, _))

theorem idle_of_chunk? (hp : payload? line = some p) (hend : p ≠ endMark)
    (h : ∀ chunk ∈ chunk? format p, chunk.content.getD [] = []) : Idle format line := by
  intro q hq
  obtain rfl : p = q := Option.some.inj (hp.symm.trans hq)
  exact ⟨hend, h⟩

/-- The end mark is no JSON. -/
theorem ne_endMark (h : parse? p = some event) : p ≠ endMark := by
  rintro rfl
  have hnone : parse? endMark = none := rfl
  rw [hnone] at h
  cases h

/-- A payload that is no JSON is idle. -/
theorem idle_of_not_written (hp : payload? line = some p) (hend : p ≠ endMark)
    (h : Json.written? p = none) : Idle format line := by
  have hread : ∀ {α : Type} (reader : Json.Reader α), Json.read? reader p = none := by
    intro α reader
    rw [Json.read?, h]
    rfl
  refine idle_of_chunk? hp hend fun chunk hchunk => ?_
  cases format with
  | openAi =>
    rw [chunk?, openAiChunk?, hread] at hchunk
    cases hchunk
  | anthropic =>
    rw [chunk?, anthropicChunk?, hread] at hchunk
    cases hchunk

/-- An event without choices is idle. -/
theorem idle_of_no_choices {fields : List (Text × Json)} (hp : payload? line = some p)
    (hevent : parse? p = some (.object fields))
    (h : valuesOf "choices".toList fields = [.array []]) : Idle .openAi line := by
  refine idle_of_chunk? hp (ne_endMark hevent) fun chunk hchunk => ?_
  rw [chunk?, openAiChunk?, Json.read?_of_parse? hevent, read_choices h rfl] at hchunk
  cases hchunk

/-- An event whose first choice has no content is idle. -/
theorem idle_of_no_content {fields : List (Text × Json)} {first : Json} {others : List Json}
    (hp : payload? line = some p) (hevent : parse? p = some (.object fields))
    (hchoices : valuesOf "choices".toList fields = [.array (first :: others)])
    (hfirst : IsChoice none first) (hothers : ∀ other ∈ others, ∃ content, IsChoice content other) :
    Idle .openAi line := by
  obtain ⟨reason, hread⟩ := chunk?_of_choices hevent hchoices hfirst hothers
  refine idle_of_chunk? hp (ne_endMark hevent) fun chunk hchunk => ?_
  rw [hread] at hchunk
  cases hchunk
  rfl

/-- The kind that is read of an event is the one that it has. -/
theorem kind_of_read {fields : List (Text × Json)} {kind read : Text} {delta : Option Delta}
    (hkind : valuesOf "type".toList fields = [.string kind])
    (h : anthropicEvent.read (ofJson (.object fields)) = .ok (read, delta)) : read = kind := by
  obtain ⟨f, hfound, hbuild⟩ := Json.Record.found_of_read h
  have hget := hfound.2 "type" List.mem_cons_self
  rw [hkind] at hget
  obtain ⟨make, hmake, hbuild⟩ := bind_eq_ok.1 hbuild
  obtain ⟨change, -, hbuild⟩ := bind_eq_ok.1 hbuild
  obtain ⟨first, hfirst, hmake⟩ := bind_eq_ok.1 hmake
  obtain ⟨name, hname, hmake⟩ := bind_eq_ok.1 hmake
  cases hfirst
  cases hmake
  cases hbuild
  have hread : (f.get? "type").elim (.error .misfit) Json.asText = .ok read := hname
  rw [hget] at hread
  cases hread
  rfl

/-- Only events that change a block of content carry a text. -/
theorem content_of_kind {kind : Text} {delta : Option Delta} {chunk : Chunk}
    (hkind : kind ≠ "content_block_delta".toList) (h : chunkOfEvent? kind delta = some chunk) :
    chunk.content = none := by
  rw [chunkOfEvent?, if_neg hkind] at h
  split at h
  · obtain ⟨d, -, h⟩ := Option.bind_eq_some_iff.1 h
    obtain ⟨reason, -, h⟩ := Option.bind_eq_some_iff.1 h
    cases h
    rfl
  split at h
  · cases h
    rfl
  · cases h

/-- **An event of another kind is idle**, whatever change it names. -/
theorem idle_of_kind {fields : List (Text × Json)} {kind : Text} (hp : payload? line = some p)
    (hevent : parse? p = some (.object fields))
    (hkind : valuesOf "type".toList fields = [.string kind])
    (hother : kind ≠ "content_block_delta".toList) : Idle .anthropic line := by
  refine idle_of_chunk? hp (ne_endMark hevent) fun chunk hchunk => ?_
  obtain ⟨⟨read, delta⟩, hread, hchunk⟩ := Option.bind_eq_some_iff.1 hchunk
  rw [Json.read?_of_parse? hevent] at hread
  have hkept := kind_of_read hkind (toOption_eq_some hread)
  rw [content_of_kind (hkept ▸ hother) hchunk]
  rfl

/-! ## Bodies -/

/-- What follows the stop event of a body: idle lines, up to an end mark or to the end. -/
inductive Silent (format : Format) : Text → Prop
  | last {q : Text} (hq : '\n' ∉ q) : Silent format q
  | idle {line s : Text} (hline : '\n' ∉ line) (h : Idle format line) (hrest : Silent format s) :
    Silent format (line ++ '\n' :: s)
  | done {line : Text} (hline : '\n' ∉ line) (hp : payload? line = some endMark) (s : Text) :
    Silent format (line ++ '\n' :: s)

/-- A body carries texts: idle lines may stand anywhere between the events that carry one each. In
the first format the end mark ends it, whatever follows; in the second the stop event. -/
inductive Body : Format → List Text → Text → Prop
  | idle {format : Format} {texts : List Text} {line s : Text} (hline : '\n' ∉ line)
    (h : Idle format line) (hrest : Body format texts s) : Body format texts (line ++ '\n' :: s)
  | text {format : Format} {texts : List Text} {line p t s : Text} {event : Json}
    (hline : '\n' ∉ line) (hp : payload? line = some p) (hevent : parse? p = some event)
    (h : Carries format event t) (hrest : Body format texts s) :
    Body format (t :: texts) (line ++ '\n' :: s)
  | done {line after : Text} (hline : '\n' ∉ line) (hp : payload? line = some endMark)
    (hafter : after = [] ∨ ∃ s, after = '\n' :: s) : Body .openAi [] (line ++ after)
  | stop {line p after : Text} {event : Json} (hline : '\n' ∉ line) (hp : payload? line = some p)
    (hevent : parse? p = some event) (h : IsStop event)
    (hafter : after = [] ∨ ∃ s, after = '\n' :: s ∧ Silent .anthropic s) :
    Body .anthropic [] (line ++ after)

/-- The text that the complete lines of a body carry, up to the end mark. -/
def said (format : Format) (s : Text) : Text :=
  (chunks format (take s).1).1.flatMap (·.content.getD [])

theorem said_last (format : Format) (hq : '\n' ∉ q) : said format q = [] := by
  rw [said, EventStream.take_line hq]
  rfl

theorem said_done (format : Format) (hline : '\n' ∉ line) (hp : payload? line = some endMark)
    (s : Text) : said format (line ++ '\n' :: s) = [] := by
  rw [said, EventStream.take_line_cons hline, hp]
  rfl

/-- A payload is heard before what follows it. -/
theorem said_payload (hline : '\n' ∉ line) (hp : payload? line = some p) (hend : p ≠ endMark)
    (s : Text) :
    said format (line ++ '\n' :: s) =
      ((chunk? format p).toList.flatMap (·.content.getD [])) ++ said format s := by
  rw [said, EventStream.take_line_cons hline, hp]
  show (chunks format (p :: (take s).1)).1.flatMap _ = _
  rw [chunks, if_neg hend]
  exact List.flatMap_append

theorem said_idle (hline : '\n' ∉ line) (h : Idle format line) (s : Text) :
    said format (line ++ '\n' :: s) = said format s := by
  cases hp : payload? line with
  | none =>
    rw [said, EventStream.take_line_cons hline, hp]
    rfl
  | some p =>
    obtain ⟨hend, hchunk⟩ := h p hp
    rw [said_payload hline hp hend]
    cases hread : chunk? format p with
    | none => rfl
    | some chunk =>
      rw [Option.toList_some, List.flatMap_singleton, hchunk chunk hread]
      rfl

theorem said_text (hline : '\n' ∉ line) (hp : payload? line = some p) (hevent : parse? p = some event)
    (h : Carries format event t) (s : Text) :
    said format (line ++ '\n' :: s) = t ++ said format s := by
  obtain ⟨reason, hread⟩ := chunk?_of_carries hevent h
  rw [said_payload hline hp (ne_endMark hevent), hread, Option.toList_some, List.flatMap_singleton]
  rfl

theorem Silent.said (h : Silent format s) : said format s = [] := by
  induction h with
  | last hq => exact said_last format hq
  | idle hline hidle hrest ih =>
    rw [said_idle hline hidle]
    exact ih
  | done hline hp s => exact said_done format hline hp s

/-- **A body says the texts that it carries**, one after another. -/
theorem Body.said (h : Body format texts s) : said format s = texts.flatten := by
  induction h with
  | idle hline hidle hrest ih =>
    rw [said_idle hline hidle]
    exact ih
  | text hline hp hevent hcarries hrest ih =>
    rw [said_text hline hp hevent hcarries, ih]
    rfl
  | done hline hp hafter =>
    rcases hafter with rfl | ⟨s, rfl⟩
    · rw [List.append_nil]
      exact said_last _ hline
    · exact said_done _ hline hp s
  | stop hline hp hevent hstop hafter =>
    rcases hafter with rfl | ⟨s, rfl, hsilent⟩
    · rw [List.append_nil]
      exact said_last _ hline
    · rw [said_payload hline hp (ne_endMark hevent), chunk?_of_stop hevent hstop, hsilent.said]
      rfl

/-! ## Written bodies -/

/-- An event that carries a text and nothing else. -/
def eventOf : Format → Text → Json
  | .openAi, t =>
    .object [("choices".toList,
      .array [.object [("delta".toList, .object [("content".toList, .string t)])]])]
  | .anthropic, t =>
    .object [("type".toList, .string "content_block_delta".toList),
      ("delta".toList,
        .object [("type".toList, .string "text_delta".toList), ("text".toList, .string t)])]

def stopEvent : Json := .object [("type".toList, .string "message_stop".toList)]

/-- A line with a payload. -/
def dataLine (payload : Text) : Text :=
  "data: ".toList ++ payload

/-- The payload that ends a body. -/
def ending : Format → Text
  | .openAi => endMark
  | .anthropic => stopEvent.render

/-- The plainest body that carries texts. -/
def written (format : Format) (texts : List Text) : Text :=
  (texts.flatMap fun t => dataLine (eventOf format t).render ++ ['\n']) ++
    (dataLine (ending format) ++ ['\n'])

theorem carries_eventOf (format : Format) (t : Text) : Carries format (eventOf format t) t := by
  cases format with
  | openAi => exact .openAi rfl (.intro rfl (.given rfl) (.missing rfl)) (List.forall_mem_nil _)
  | anthropic => exact .anthropic rfl rfl rfl rfl (.missing rfl)

theorem parse?_eventOf (format : Format) (t : Text) :
    parse? (eventOf format t).render = some (eventOf format t) := by
  refine Json.parse?_render ?_
  cases format <;> simp [eventOf, Json.Spelled, Json.AllSpelled, Json.FieldsSpelled]

/-- A line gives the payload that it was made of, if that has no blank at its ends. -/
theorem payload?_dataLine {c d : Char} (hhead : p.head? = some c) (hlast : p.getLast? = some d)
    (hc : Text.isBlank c = false) (hd : Text.isBlank d = false) : payload? (dataLine p) = some p := by
  have htrim : Text.trim (dataLine p) = dataLine p := by
    refine Text.trimWhere_eq_self (fun e he => ?_) fun e he => ?_
    · cases he
      rfl
    · rw [dataLine, List.getLast?_append, hlast] at he
      cases he
      exact hd
  have hlead : Text.dropLead? "data:".toList (dataLine p) = some (' ' :: p) :=
    Text.dropLead?_eq_some_iff.2 rfl
  have hstart : Text.trimStart (' ' :: p) = p := by
    obtain ⟨rest, rfl⟩ := List.head?_eq_some_iff.1 hhead
    show (c :: rest).dropWhile Text.isBlank = c :: rest
    exact List.dropWhile_cons_of_neg (by simp [hc])
  rw [payload?, htrim, hlead, Option.map_some, hstart]

theorem payload?_object (fields : List (Text × Json)) :
    payload? (dataLine (Json.object fields).render) = some (Json.object fields).render := by
  have hlast : (Json.object fields).render.getLast? = some '\x7d' := by
    rw [Json.render, List.getLast?_concat]
  exact payload?_dataLine rfl hlast rfl rfl

theorem not_newline_eventOf (format : Format) (t : Text) :
    '\n' ∉ dataLine (eventOf format t).render := by
  cases format <;>
    simp [dataLine, eventOf, Json.render, Json.renderItems, Json.renderFields, Text.join,
      Json.not_newline_quote]

/-- **Any texts are carried by a body**. -/
theorem body_written (format : Format) (texts : List Text) :
    Body format texts (written format texts) := by
  have hend : Body format [] (dataLine (ending format) ++ ['\n']) := by
    cases format with
    | openAi => exact .done (by decide) rfl (.inr ⟨[], rfl⟩)
    | anthropic =>
      have hstop : parse? stopEvent.render = some stopEvent := Json.parse?_render ⟨trivial, trivial⟩
      exact .stop (by decide) (payload?_object _) hstop (.intro rfl rfl)
        (.inr ⟨[], rfl, .last List.not_mem_nil⟩)
  induction texts with
  | nil => exact hend
  | cons t texts ih =>
    have hpayload : payload? (dataLine (eventOf format t).render) = some (eventOf format t).render := by
      cases format <;> exact payload?_object _
    have hbody := Body.text (not_newline_eventOf format t) hpayload (parse?_eventOf format t)
      (carries_eventOf format t) ih
    rw [written, List.flatMap_cons]
    simpa [written] using hbody

end Wire

/-! ## Replies -/

/-- A response delivers a body whole, in parts that end between characters. -/
structure Response.Delivers (r : Response) (body : Text) : Prop where
  success : Stream.isSuccess r.status = true
  unbroken : r.broken = none
  parts : ∃ pieces : List Text, pieces.flatten = body ∧ r.parts = pieces.map Text.Utf8.encode

namespace Client

variable {c d : Client} {r r' : Response} {a b body : Text} {texts : List Text}

/-- A delivered body is read whole. -/
theorem reply_of_delivers (htarget : c.target.isOk = true) (h : r.Delivers body)
    (messages : List Message) :
    c.reply messages (.ok r) =
      if Wire.said c.endpoint.format body = [] then .error (.stream "empty response".toList)
      else .ok (Wire.said c.endpoint.format body) := by
  obtain ⟨hsuccess, hunbroken, pieces, rfl, hparts⟩ := h
  have hread : Stream.ofParts c.endpoint.format [] r.parts =
      Wire.chunks c.endpoint.format (take pieces.flatten).1 := by
    rw [Stream.ofParts_eq _ List.not_mem_nil, hparts, EventStream.flatMap_decodeLenient,
      List.nil_append]
  have hstream : Stream.ofResponse c.endpoint.format r =
      ⟨(Wire.chunks c.endpoint.format (take pieces.flatten).1).1, none⟩ := by
    rw [Stream.ofResponse, hsuccess, hread, hunbroken]
    rcases Wire.chunks c.endpoint.format (take pieces.flatten).1 with ⟨found, ended⟩
    cases ended <;> rfl
  have hreply : c.reply messages (.ok r) = (Stream.ofResponse c.endpoint.format r).collect := by
    rw [reply, stream]
    cases hurl : c.target with
    | error reason =>
      rw [hurl] at htarget
      cases htarget
    | ok url => rfl
  rw [hreply, hstream, Stream.collect, Wire.said, Stream.content]
  simp only [List.isEmpty_iff]

/-- **Both formats deliver the same reply** to clients that can send their requests: bodies that carry
the same texts, whatever idle lines stand between them and wherever they are cut between characters,
are read as the texts together, and as an empty response exactly if these are empty. -/
theorem reply_of_bodies (hc : c.endpoint.format = .openAi) (hd : d.endpoint.format = .anthropic)
    (hct : c.target.isOk = true) (hdt : d.target.isOk = true) (ha : Wire.Body .openAi texts a)
    (hb : Wire.Body .anthropic texts b) (hr : r.Delivers a) (hr' : r'.Delivers b)
    (messages messages' : List Message) :
    c.reply messages (.ok r) = d.reply messages' (.ok r') ∧
      c.reply messages (.ok r) =
        if texts.flatten = [] then .error (.stream "empty response".toList)
        else .ok texts.flatten := by
  have hreply := reply_of_delivers hct hr messages
  have hreply' := reply_of_delivers hdt hr' messages'
  rw [hc, ha.said] at hreply
  rw [hd, hb.said] at hreply'
  exact ⟨hreply.trans hreply'.symm, hreply⟩

/-- The client of the second format. -/
def messagesClient : Client :=
  { sampleClient with endpoint := ⟨.anthropic, "http://host/v1/messages".toList⟩ }

/-- An event without text. -/
def sampleEvent : Format → Json
  | .openAi => .object [("choices".toList, .array [])]
  | .anthropic => .object [("type".toList, .string "ping".toList)]

/-- A body with idle lines in front: one without a payload, and an event without text. -/
def sampleBody (format : Format) : Text :=
  "event: ping\r".toList ++ '\n' :: (Wire.dataLine (sampleEvent format).render ++ '\n' ::
    Wire.written format ["Hé".toList, "\n".toList])

theorem idle_sampleEvent (format : Format) :
    Wire.Idle format (Wire.dataLine (sampleEvent format).render) := by
  cases format with
  | openAi =>
    exact Wire.idle_of_no_choices (Wire.payload?_object _) (Json.parse?_render ⟨trivial, trivial⟩) rfl
  | anthropic =>
    exact Wire.idle_of_kind (Wire.payload?_object _) (Json.parse?_render ⟨trivial, trivial⟩) rfl
      (by decide)

theorem body_sampleBody (format : Format) :
    Wire.Body format ["Hé".toList, "\n".toList] (sampleBody format) := by
  have hplain : Wire.Idle format "event: ping\r".toList := by cases format <;> decide
  have hline : '\n' ∉ Wire.dataLine (sampleEvent format).render := by cases format <;> decide
  exact .idle (by decide) hplain (.idle hline (idle_sampleEvent format) (Wire.body_written _ _))

/-- A body in two parts. -/
def sampleDelivery (body : Text) : Response :=
  ⟨200, [body.take 20, body.drop 20].map Text.Utf8.encode, none⟩

theorem delivers_sampleDelivery (body : Text) : (sampleDelivery body).Delivers body where
  success := rfl
  unbroken := rfl
  parts := ⟨[body.take 20, body.drop 20], by simp, rfl⟩

theorem reply_of_bodies_sampleDelivery :
    sampleClient.reply [] (.ok (sampleDelivery (sampleBody .openAi))) =
        messagesClient.reply [] (.ok (sampleDelivery (sampleBody .anthropic))) ∧
      sampleClient.reply [] (.ok (sampleDelivery (sampleBody .openAi))) = .ok "Hé\n".toList :=
  reply_of_bodies rfl rfl (by decide +kernel) (by decide +kernel) (body_sampleBody .openAi)
    (body_sampleBody .anthropic) (delivers_sampleDelivery _) (delivers_sampleDelivery _) [] []

end Client

end Scholia.Model
