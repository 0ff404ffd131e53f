import Mathlib.Data.List.DropRight
import Scholia.Model.Client
import Scholia.Proofs.Evaluation
import Scholia.Proofs.Text.Join
import Scholia.Proofs.Text.Utf8
import Scholia.Proofs.Text.Worn
/-!
# Streams of events read in parts

A response arrives in parts that the network chooses. The text after the last line feed waits for
the next part (`EventStream.take_append`), so a part may end anywhere inside a line, between a
carriage return and its line feed, or inside the end mark: what counts is the whole text
(`Stream.ofParts_eq`).

What the lines of a text carry is a matter of the whole text: its lines that are ended by a line
feed, trimmed, of which those count that begin with `data:` (`closedLines`, `payloads`).

**The laws**. Two divisions of one body give the same reply, if neither ends a part inside a
character (`Client.reply_of_recut`). Parts that are texts of their own carry together what the whole
text carries, each part what the lines carry that it completes, and the text after the last line
feed is kept (`pushes_encode`).

**What does not hold**. Each part is decoded before it is joined to what is pending, so a part that
ends inside a character changes the reply (`Client.reply_divided`).
-/

namespace Scholia.Model

open Text (isWhole splitWhere)
open Text.Utf8 (Spares decodeLenient)

/-! ## Complete lines -/

namespace EventStream

theorem take_line {q : Text} (hq : '\n' ∉ q) : take q = ([], q) := by
  rw [take, Text.splitWhere_of_not_mem hq]
  rfl

/-- **What complete lines carry does not depend on what follows them**. -/
theorem take_whole {p : Text} (hp : isWhole p) (t : Text) :
    take (p ++ t) = ((take p).1 ++ (take t).1, (take t).2) := by
  rcases hp with rfl | ⟨p, rfl⟩
  · rfl
  · have hne := Text.splitWhere_ne_nil (· == '\n') t
    have hparts (r : Text) :
        splitWhere (· == '\n') (p ++ '\n' :: r) = splitWhere (· == '\n') p ++ splitWhere (· == '\n') r :=
      Text.splitWhere_append rfl p r
    have hlast : (splitWhere (· == '\n') p ++ splitWhere (· == '\n') t).getLastD [] =
        (splitWhere (· == '\n') t).getLastD [] := by
      rw [List.getLastD_eq_getLast?, List.getLastD_eq_getLast?, List.getLast?_append,
        List.getLast?_eq_some_getLast hne, Option.some_or]
    simp only [take, List.append_assoc, List.singleton_append, hparts, hlast,
      List.dropLast_append_of_ne_nil hne, List.filterMap_append]
    simp [splitWhere]

/-- A text taken: what its complete lines carry, and its last line. -/
theorem take_line_behind {p q : Text} (hp : isWhole p) (hq : '\n' ∉ q) :
    take (p ++ q) = ((take p).1, q) := by
  rw [take_whole hp, take_line hq, List.append_nil]

/-- What is pending is part of a line. -/
theorem not_newline_take (s : Text) : '\n' ∉ (take s).2 := by
  obtain ⟨p, q, rfl, hp, hq⟩ := Text.exists_line s
  rw [take_line_behind hp hq]
  exact hq

/-- **Lines are taken as they are completed**: what is pending after a text is all that a later
text needs of it. -/
theorem take_append (s t : Text) :
    take (s ++ t) =
      ((take s).1 ++ (take ((take s).2 ++ t)).1, (take ((take s).2 ++ t)).2) := by
  obtain ⟨p, q, rfl, hp, hq⟩ := Text.exists_line s
  rw [take_line_behind hp hq, List.append_assoc, take_whole hp]

end EventStream

/-! ## The end mark -/

/-- **Payloads are read up to the end mark**, wherever it stands. -/
theorem Wire.chunks_append (format : Format) (a b : List Text) :
    chunks format (a ++ b) =
      match chunks format a with
      | (early, true) => (early, true)
      | (early, false) => (early ++ (chunks format b).1, (chunks format b).2) := by
  induction a with
  | nil => rfl
  | cons payload a ih =>
    rw [List.cons_append, chunks, chunks, ih]
    split
    · rfl
    · rcases chunks format a with ⟨early, ended⟩
      cases ended
      · simp only [List.append_assoc]
      · rfl

/-! ## Responses -/

namespace Stream

/-- **Parts are read as their texts are read one after another**. -/
theorem ofParts_eq (format : Format) {pending : Text} (hpending : '\n' ∉ pending)
    (parts : List (List UInt8)) :
    ofParts format pending parts =
      Wire.chunks format (EventStream.take (pending ++ parts.flatMap decodeLenient)).1 := by
  induction parts generalizing pending with
  | nil =>
    simp only [List.flatMap_nil, List.append_nil, EventStream.take_line hpending, ofParts,
      Wire.chunks]
  | cons bytes rest ih =>
    have hpush := ih (EventStream.not_newline_take (pending ++ decodeLenient bytes))
    rw [List.flatMap_cons, ← List.append_assoc, EventStream.take_append, Wire.chunks_append, ofParts]
    rcases hread : Wire.chunks format (EventStream.take (pending ++ decodeLenient bytes)).1
      with ⟨early, ended⟩
    cases ended <;> simp only [EventStream.push, hread, hpush]

end Stream

/-- A response whose body arrives in one part. -/
def Response.joined (r : Response) : Response := { r with parts := [r.parts.flatten] }

/-- One response, with its body in other parts; in both, no part ends inside a character. -/
structure Response.Recut (r r' : Response) : Prop where
  status : r.status = r'.status
  broken : r.broken = r'.broken
  bytes : r.parts.flatten = r'.parts.flatten
  spares : Spares r.parts
  spares' : Spares r'.parts

namespace Response.Recut

variable {r r' : Response}

theorem joined (h : Spares r.parts) : r.Recut r.joined where
  status := rfl
  broken := rfl
  bytes := List.flatten_singleton.symm
  spares := h
  spares' := Text.Utf8.spares_singleton _

theorem ofParts (h : r.Recut r') (format : Format) :
    Stream.ofParts format [] r.parts = Stream.ofParts format [] r'.parts := by
  have htext : r.parts.flatMap decodeLenient = r'.parts.flatMap decodeLenient := by
    rw [← Text.Utf8.decodeLenient_flatten h.spares, h.bytes,
      Text.Utf8.decodeLenient_flatten h.spares']
  rw [Stream.ofParts_eq format List.not_mem_nil, Stream.ofParts_eq format List.not_mem_nil, htext]

/-- **Responses that differ in their parts only carry the same**. -/
theorem ofResponse (h : r.Recut r') (format : Format) :
    Stream.ofResponse format r = Stream.ofResponse format r' := by
  rw [Stream.ofResponse, Stream.ofResponse, Stream.bodyText, Stream.bodyText, h.status, h.broken,
    h.bytes, h.ofParts format]

end Response.Recut

namespace Client

/-- The reply to messages whose request gets this answer. -/
def reply (c : Client) (messages : List Message) (answer : Except Text Response) :
    Except Fault Text :=
  ((c.stream messages).interpret (I := network) (m := Id) fun _ => answer).collect

/-- The reply to a prompt is the reply to the two messages it is sent as. -/
theorem chat_reply (c : Client) (prompt : Text) (answer : Except Text Response) :
    (c.chat prompt).interpret (I := network) (m := Id) (fun _ => answer) =
      c.reply [.system systemPrompt, .user prompt] answer := by
  rw [chat, Program.interpret_bind]
  rfl

/-- **The reply does not depend on where the parts end**: in a line, between a carriage return and a
line feed, in the end mark, between characters, but not inside one. -/
theorem reply_of_recut (c : Client) (messages : List Message) {r r' : Response} (h : r.Recut r') :
    c.reply messages (.ok r) = c.reply messages (.ok r') := by
  simp only [reply, stream]
  cases c.target with
  | error reason => rfl
  | ok url => exact congrArg Stream.collect (h.ofResponse c.endpoint.format)

def sampleClient : Client where
  key := "key".toList
  endpoint := ⟨.openAi, "http://host/v1/chat/completions".toList⟩
  model := "model".toList
  options := ⟨none, none⟩

/-- Bytes of characters that take one byte. -/
def plainBytes (s : String) : List UInt8 :=
  s.toList.map fun c => c.toNat.toUInt8

def sampleOpening : List UInt8 := plainBytes "ta: \x7b\"choices\":[\x7b\"delta\":\x7b\"content\":\""

def sampleClosing : List UInt8 := plainBytes "\"\x7d\x7d]\x7d\r"

/-- A body that ends its parts inside the word that opens a line, around a character of two bytes,
and between a carriage return and its line feed. -/
def sampleResponse : Response :=
  ⟨200, [plainBytes "da", sampleOpening, [0xC3, 0xA9], sampleClosing, [0x0A]], none⟩

theorem reply_of_recut_sampleResponse :
    sampleResponse.Recut sampleResponse.joined ∧
      sampleClient.reply [] (.ok sampleResponse) = sampleClient.reply [] (.ok sampleResponse.joined) :=
  have h : sampleResponse.Recut sampleResponse.joined :=
    .joined (by decide +kernel)
  ⟨h, reply_of_recut sampleClient [] h⟩

/-- The same body, with a part that ends inside the character. -/
def divided : Response :=
  ⟨200, [plainBytes "da", sampleOpening ++ [0xC3], [0xA9] ++ sampleClosing, [0x0A]], none⟩

theorem reply_divided :
    sampleResponse.parts.flatten = divided.parts.flatten ∧
      sampleClient.reply [] (.ok sampleResponse) = .ok "é".toList ∧
      sampleClient.reply [] (.ok divided) = .ok "��".toList := by
  decide +kernel

end Client

end Scholia.Model

namespace Scholia.Text

/-- The text after the last line feed. -/
theorem rtakeWhile_last {p q : Text} (hp : isWhole p) (hq : '\n' ∉ q) :
    (p ++ q).rtakeWhile (· != '\n') = q := by
  have hrest : ∀ c ∈ q.reverse, (c != '\n') = true := by
    intro c hc
    refine bne_iff_ne.2 fun he => hq ?_
    rwa [he, List.mem_reverse] at hc
  have hstop : p.reverse.takeWhile (· != '\n') = [] := by
    rcases hp with rfl | ⟨p, rfl⟩
    · rfl
    · rw [List.reverse_append]
      rfl
  rw [List.rtakeWhile, List.reverse_append, List.takeWhile_append_of_pos hrest, hstop,
    List.append_nil, List.reverse_reverse]

end Scholia.Text

namespace Scholia.Model.EventStream

open Text (isWhole rawLines trim trimStart)
open Text.Utf8 (encode decodeLenient decodeLenient_encode)

variable {p q s t pending : Text}

/-! ## What a text carries -/

/-- The lines of a text that are ended by a line feed. -/
def closedLines (s : Text) : List Text :=
  (rawLines s).filter (·.getLast? == some '\n')

/-- What opens a line that carries something. -/
def dataField : Text := "data:".toList

/-- What lines carry: of the trimmed lines those that begin with `data:`, without it and the blanks
behind it. -/
def payloads (ls : List Text) : List Text :=
  ((ls.map trim).filter (dataField.isPrefixOf ·)).map fun l => trimStart (l.drop dataField.length)

theorem closedLines_whole (hp : isWhole p) (t : Text) :
    closedLines (p ++ t) = closedLines p ++ closedLines t := by
  rw [closedLines, Text.rawLines_append hp, List.filter_append]
  rfl

/-- A line that is not ended is not closed. -/
theorem closedLines_last (hq : '\n' ∉ q) : closedLines q = [] := by
  by_cases hne : q = []
  · rw [hne]
    rfl
  rw [closedLines, Text.rawLines_last hq hne, List.filter_cons_of_neg]
  · rfl
  intro hlast
  exact hq (List.mem_of_getLast? (beq_iff_eq.1 hlast))

theorem closedLines_line (hq : '\n' ∉ q) (v : Text) :
    closedLines (q ++ '\n' :: v) = (q ++ ['\n']) :: closedLines v := by
  rw [closedLines, Text.rawLines_line hq, List.filter_cons_of_pos]
  · rfl
  · rw [List.getLast?_concat]
    rfl

/-- Lines are read one by one. -/
theorem payloads_eq (ls : List Text) : payloads ls = ls.filterMap payload? := by
  induction ls with
  | nil => rfl
  | cons l ls ih =>
    rw [List.filterMap_cons, ← ih, payloads, payloads, List.map_cons]
    by_cases hlead : dataField <+: trim l
    · obtain ⟨rest, hrest⟩ := hlead
      have hread : payload? l = some (trimStart rest) :=
        congrArg (Option.map trimStart) (Text.dropLead?_eq_some_iff.2 hrest.symm)
      rw [hread, List.filter_cons_of_pos (List.isPrefixOf_iff_prefix.2 ⟨rest, hrest⟩),
        List.map_cons, ← hrest, List.drop_left]
    · have hread : payload? l = none := congrArg (Option.map trimStart) (Text.dropLead?_eq_none hlead)
      rw [hread, List.filter_cons_of_neg (mt List.isPrefixOf_iff_prefix.1 hlead)]

/-- The end of a line does not count for what it carries. -/
theorem payload?_newline (q : Text) : payload? (q ++ ['\n']) = payload? q := by
  have htrim : trim (q ++ ['\n']) = trim q := Text.trimWhere_append Text.isBlank rfl q
  rw [payload?, htrim, payload?]

/-- **The first line of a text is read before the others**. -/
theorem take_line_cons (hq : '\n' ∉ q) (v : Text) :
    take (q ++ '\n' :: v) = ((payload? q).toList ++ (take v).1, (take v).2) := by
  have hline : (take (q ++ ['\n'])).1 = (payload? q).toList := by
    rw [take, Text.splitWhere_append rfl, Text.splitWhere_of_not_mem hq]
    show [q].filterMap payload? = _
    cases hread : payload? q <;> simp [hread]
  rw [List.append_cons, take_whole (.inr ⟨q, rfl⟩), hline]

/-- **A text is taken as it is read whole**. -/
theorem take_fst (s : Text) : (take s).1 = payloads (closedLines s) := by
  rw [payloads_eq]
  induction s using Text.line_induction with
  | last q hq =>
    rw [take_line hq, closedLines_last hq]
    rfl
  | line q v hq ih =>
    rw [take_line_cons hq, closedLines_line hq, List.filterMap_cons, payload?_newline, ih]
    cases payload? q <;> rfl

theorem take_snd (s : Text) : (take s).2 = s.rtakeWhile (· != '\n') := by
  obtain ⟨p, q, rfl, hp, hq⟩ := Text.exists_line s
  rw [take_line_behind hp hq, Text.rtakeWhile_last hp hq]

/-- **A text completes the lines that what is pending before it begins**. -/
theorem closedLines_append (s t : Text) :
    closedLines (s ++ t) = closedLines s ++ closedLines ((take s).2 ++ t) := by
  obtain ⟨p, q, rfl, hp, hq⟩ := Text.exists_line s
  rw [take_line_behind hp hq, List.append_assoc, closedLines_whole hp, closedLines_whole hp,
    closedLines_last hq, List.append_nil]

/-! ## What parts carry -/

/-- What is pending after parts. -/
def pendingAfter (pending : Text) (parts : List (List UInt8)) : Text :=
  parts.foldl (fun pending bytes => (push pending bytes).2) pending

theorem pushes_append (pending : Text) (a b : List (List UInt8)) :
    pushes pending (a ++ b) = pushes pending a ++ pushes (pendingAfter pending a) b := by
  induction a generalizing pending with
  | nil => rfl
  | cons bytes a ih => exact congrArg (_ :: ·) (ih _)

theorem length_pushes (pending : Text) (parts : List (List UInt8)) :
    (pushes pending parts).length = parts.length := by
  induction parts generalizing pending with
  | nil => rfl
  | cons bytes rest ih => exact congrArg (· + 1) (ih _)

/-- **Parts are taken as their texts are taken together**. -/
theorem flatten_pushes (hpending : '\n' ∉ pending) (parts : List (List UInt8)) :
    ((pushes pending parts).flatten, pendingAfter pending parts) =
      take (pending ++ parts.flatMap decodeLenient) := by
  induction parts generalizing pending with
  | nil =>
    rw [List.flatMap_nil, List.append_nil, take_line hpending]
    rfl
  | cons bytes rest ih =>
    have hrest := ih (not_newline_take (pending ++ decodeLenient bytes))
    rw [List.flatMap_cons, ← List.append_assoc, take_append, ← hrest]
    rfl

theorem flatMap_decodeLenient (texts : List Text) :
    (texts.map encode).flatMap decodeLenient = texts.flatten := by
  rw [List.flatMap_map, List.flatten_eq_flatMap]
  exact congrArg (texts.flatMap ·) (funext decodeLenient_encode)

theorem pushes_take (texts : List Text) :
    ((pushes [] (texts.map encode)).flatten, pendingAfter [] (texts.map encode)) =
      take texts.flatten := by
  rw [flatten_pushes List.not_mem_nil, flatMap_decodeLenient, List.nil_append]

/-- **Texts pushed one after another**: together they carry what the whole text carries; each
carries what the lines carry that it completes; and what is pending then is the text after the last
line feed. -/
theorem pushes_encode (texts : List Text) :
    (pushes [] (texts.map encode)).flatten = payloads (closedLines texts.flatten) ∧
      (∀ before text after, texts = before ++ text :: after →
        ∃ completed,
          closedLines (before.flatten ++ text) = closedLines before.flatten ++ completed ∧
          (pushes [] (texts.map encode))[before.length]? = some (payloads completed)) ∧
      pendingAfter [] (texts.map encode) = texts.flatten.rtakeWhile (· != '\n') ∧
      '\n' ∉ pendingAfter [] (texts.map encode) := by
  have hpayloads : (pushes [] (texts.map encode)).flatten = (take texts.flatten).1 :=
    congrArg Prod.fst (pushes_take texts)
  have hpending : pendingAfter [] (texts.map encode) = (take texts.flatten).2 :=
    congrArg Prod.snd (pushes_take texts)
  refine ⟨?_, ?_, ?_, ?_⟩
  · rw [hpayloads, take_fst]
  · rintro before text after rfl
    have hbefore : pendingAfter [] (before.map encode) = (take before.flatten).2 :=
      congrArg Prod.snd (pushes_take before)
    have hpush : (push (take before.flatten).2 (encode text)).1 =
        payloads (closedLines ((take before.flatten).2 ++ text)) := by
      rw [push, decodeLenient_encode, take_fst]
    refine ⟨closedLines ((take before.flatten).2 ++ text), closedLines_append _ _, ?_⟩
    have hlength : (pushes [] (before.map encode)).length = before.length := by
      rw [length_pushes, List.length_map]
    rw [List.map_append, List.map_cons, pushes_append, hbefore, pushes, ← hlength,
      List.getElem?_append_right (Nat.le_refl _), Nat.sub_self, List.getElem?_cons_zero, hpush]
  · rw [hpending, take_snd]
  · rw [hpending]
    exact not_newline_take _

/-- A stream that is cut inside the word that opens a line, between a carriage return and its line
feed, and inside a line that is not ended. -/
def sampleTexts : List Text :=
  ["event: x\nda".toList, "ta: é".toList, "\r".toList, "\n\ndata:[DONE]\nda".toList]

theorem pushes_encode_sampleTexts :
    ∃ completed,
      closedLines "event: x\ndata: é\r\n\ndata:[DONE]\nda".toList =
        closedLines "event: x\ndata: é\r".toList ++ completed ∧
      (pushes [] (sampleTexts.map encode))[3]? = some (payloads completed) :=
  (pushes_encode sampleTexts).2.1 (sampleTexts.take 3) "\n\ndata:[DONE]\nda".toList [] rfl

/-- Each part carries what it completes. -/
example : pushes [] (sampleTexts.map encode) =
    [[], [], [], ["é".toList, "[DONE]".toList]] := by decide +kernel

end Scholia.Model.EventStream
