import Scholia.Proofs.Batch.Failure
import Scholia.Proofs.Comment.Heading
/-!
# Documents and counts

What is counted as documented and what is written out are collected apart, in two strategies, and
the documents are written whenever there is more to say than a title. Where no call on files or
folders fails the two agree: the documents that an outcome names are those that were written, they
show the sections of exactly the routines counted, and there are documents unless no routine is
counted or no format is wanted.

`Drafted` says whose routines they are: those of the accepted reply, if the whole file was asked for,
or those of the file.
-/

namespace Scholia.Batch

open Source (Routine)

/-- A call on files or folders has not failed. -/
def Succeeds : Event → Prop
  | ⟨.storage (.read _), answer⟩ => ∃ source, answer = .ok source
  | ⟨.storage (.write _ _), answer⟩ => answer = .ok ()
  | ⟨.storage (.makeFolders _), answer⟩ => answer = .ok ()
  | _ => True

/-- What a call writes, and where. -/
def Call.written? : Call → Option (Path × Storage.Content)
  | storage (.write file content) => some (file, content)
  | _ => none

/-- What the calls of a run write, in their order. -/
def writes (events : List Event) : List (Path × Storage.Content) :=
  events.filterMap (·.1.written?)

theorem writes_append (first second : List Event) :
    writes (first ++ second) = writes first ++ writes second :=
  List.filterMap_append

theorem Call.written?_eq_none {c : Call} (h : ¬ c.Stores) : c.written? = none := by
  unfold Call.written?
  split
  · exact absurd trivial h
  · rfl

theorem writes_eq_nil {events : List Event} (h : ∀ e ∈ events, ¬ e.1.Stores) :
    writes events = [] :=
  List.filterMap_eq_nil_iff.2 fun e he => Call.written?_eq_none (h e he)

theorem writes_of_talk {α : Type} {p : Job α} {events : List Event} {a : α}
    (hp : p.Makes Call.IsTalk) (h : p.Runs events a) : writes events = [] :=
  writes_eq_nil fun e he => (hp.of_mem h e he).not_stores

/-! ## Written documents -/

/-- The documents at a base path, made at that time. -/
def renderings (now : Text) (base : Path) (formats : Formats) (lines : List Doc.Line) :
    List (Path × Storage.Content) :=
  (if formats.markdown then
      [(withSuffix base ".md", .text (Doc.Markdown.render now lines))] else []) ++
    (if formats.word then [(withSuffix base ".docx", .document (Doc.Word.render lines))] else [])

theorem renderings_eq_nil_iff {now : Text} {base : Path} {formats : Formats}
    {lines : List Doc.Line} : renderings now base formats lines = [] ↔ formats.any = false := by
  obtain ⟨markdown, word⟩ := formats
  cases markdown <;> cases word <;> simp [renderings, Formats.any]

/-- Where no call fails, the job ends with the paths of documents that it has written: these, made
at some time. -/
def WritesAll (job : Job (Except Text (List Path)))
    (documents : Text → List (Path × Storage.Content)) : Prop :=
  ∀ events result, job.Runs events result → (∀ e ∈ events, Succeeds e) →
    ∃ now, result = .ok ((documents now).map Prod.fst) ∧ writes events = documents now

theorem writesAll_nil : WritesAll (pure (.ok [])) fun _ => [] := by
  intro events result h _
  obtain ⟨rfl, rfl⟩ := Program.runs_pure.1 h
  exact ⟨[], rfl, rfl⟩

theorem writeDocument_runs {path : Path} {content : Storage.Content} {events : List Event}
    {result : Except Text Path} (h : (writeDocument path content).Runs events result)
    (hok : ∀ e ∈ events, Succeeds e) : result = .ok path ∧ writes events = [(path, content)] := by
  obtain ⟨first, answer, second, rfl, hfirst, hsecond⟩ := Program.runs_bind.1 h
  obtain rfl : first = [⟨.storage (.write path content), answer⟩] :=
    Program.runs_perform.1 hfirst
  obtain rfl : answer = .ok () := hok ⟨.storage (.write path content), answer⟩ List.mem_cons_self
  obtain ⟨rfl, rfl⟩ := Program.runs_pure.1 hsecond
  exact ⟨rfl, rfl⟩

/-- A document whose content does not depend on the time is written before others. -/
theorem WritesAll.cons {path : Path} {content : Text → Storage.Content}
    {document : Job (Except Text Path)} {rest : List (Job (Except Text Path))}
    {documents : List (Path × Storage.Content)}
    (hdocument : ∀ events result, document.Runs events result → (∀ e ∈ events, Succeeds e) →
      ∃ now, result = .ok path ∧ writes events = [(path, content now)])
    (hrest : WritesAll (writeEach rest) fun _ => documents) :
    WritesAll (writeEach (document :: rest)) fun now => (path, content now) :: documents := by
  intro events result h hok
  obtain ⟨first, made, second, rfl, hfirst, hsecond⟩ := Program.runs_bind.1 h
  obtain ⟨now, rfl, hwrites⟩ :=
    hdocument first made hfirst fun e he => hok e (List.mem_append_left _ he)
  obtain ⟨following, more, nothing, rfl, hfollowing, hend⟩ := Program.runs_bind.1 hsecond
  obtain ⟨rfl, rfl⟩ := Program.runs_pure.1 hend
  rw [List.append_nil] at hok ⊢
  obtain ⟨_, rfl, hmore⟩ :=
    hrest following more hfollowing fun e he => hok e (List.mem_append_right _ he)
  refine ⟨now, rfl, ?_⟩
  rw [writes_append, hwrites, hmore]
  rfl

theorem writesAll_markdown {base : Path} {lines : List Doc.Line}
    {rest : List (Job (Except Text Path))} {documents : List (Path × Storage.Content)}
    (hrest : WritesAll (writeEach rest) fun _ => documents) :
    WritesAll
      (writeEach
        ((do writeDocument (withSuffix base ".md")
              (.text (Doc.Markdown.render (← time) lines))) :: rest))
      fun now => (withSuffix base ".md", .text (Doc.Markdown.render now lines)) :: documents := by
  refine .cons (fun events result h hok => ?_) hrest
  obtain ⟨first, now, second, rfl, hfirst, hsecond⟩ := Program.runs_bind.1 h
  obtain rfl : first = [⟨.time, now⟩] := Program.runs_perform.1 hfirst
  have hwritten := writeDocument_runs hsecond fun e he => hok e (List.mem_append_right _ he)
  exact ⟨now, hwritten.1, hwritten.2⟩

theorem writesAll_word (base : Path) (lines : List Doc.Line) :
    WritesAll
      (writeEach [writeDocument (withSuffix base ".docx") (.document (Doc.Word.render lines))])
      fun _ => [(withSuffix base ".docx", .document (Doc.Word.render lines))] := by
  refine .cons (fun events result h hok => ?_) writesAll_nil
  exact ⟨[], writeDocument_runs h hok⟩

theorem writesAll_documentsAt (base : Path) (formats : Formats) (lines : List Doc.Line) :
    WritesAll (writeEach (documentsAt base formats lines)) fun now =>
      renderings now base formats lines := by
  obtain ⟨markdown, word⟩ := formats
  cases markdown with
  | false =>
    cases word with
    | false => exact writesAll_nil
    | true => exact writesAll_word base lines
  | true =>
    cases word with
    | false => exact writesAll_markdown writesAll_nil
    | true => exact writesAll_markdown (writesAll_word base lines)

/-- **Documents are written unless their title is all there is to say**. -/
theorem writesAll_writeDocuments (r : Request) (file : Path) (title : Doc.Line)
    (docs : List Doc.Line) :
    WritesAll (writeDocuments r file (title :: docs)) fun now =>
      if docs = [] then [] else
        renderings now (documentBase r.outputFolder (r.relative file)) r.formats
          (title :: docs) := by
  intro events result h hok
  rw [writeDocuments] at h
  split at h
  · next hnothing =>
    obtain ⟨rfl, rfl⟩ := Program.runs_pure.1 h
    have hnone : (if docs = [] then [] else
        renderings [] (documentBase r.outputFolder (r.relative file)) r.formats
          (title :: docs)) = [] := by
      split
      · rfl
      · next hdocs =>
        apply renderings_eq_nil_iff.2
        simpa [hdocs] using hnothing
    refine ⟨[], ?_, hnone.symm⟩
    simp only [hnone, List.map_nil]
  · next hsomething =>
    have hdocs : docs ≠ [] := by
      rintro rfl
      exact hsomething rfl
    obtain ⟨first, made, second, rfl, hfirst, hsecond⟩ := Program.runs_bind.1 h
    obtain rfl := Program.runs_perform.1 hfirst
    obtain rfl : made = .ok () := hok ⟨.storage (.makeFolders _), made⟩ List.mem_cons_self
    simp only [if_neg hdocs]
    exact writesAll_documentsAt _ _ _ second result hsecond fun e he =>
      hok e (List.mem_append_right _ he)

/-! ## Drafts -/

theorem verdict_eq_ok {α : Type} {accept : Text → Except Text α}
    {reply : Except Model.Fault Text} {a : α} :
    verdict accept reply = .ok a ↔ ∃ text, reply = .ok text ∧ accept text = .ok a := by
  rw [verdict, bind_eq_ok]
  constructor
  · rintro ⟨text, htext, haccept⟩
    exact ⟨text, mapError_eq_ok.1 htext, haccept⟩
  · rintro ⟨text, htext, haccept⟩
    exact ⟨text, mapError_eq_ok.2 htext, haccept⟩

/-- **What is accepted for a routine has one heading**. -/
theorem acceptRoutine_isSection {language : Language} {name reply : Text}
    {accepted : Reply.AcceptedRoutine}
    (h : Reply.acceptRoutine language name reply = .ok accepted) :
    Doc.IsSection accepted.docs := by
  obtain ⟨block, -, h⟩ := bind_eq_ok.1 h
  simp only at h
  split at h
  · obtain ⟨routines, -, h⟩ := bind_eq_ok.1 h
    split at h
    · cases h
    · split at h
      · cases h
      · next docs hdocs =>
        cases h
        exact Source.Routine.document_isSection hdocs
  · cases h

/-- What is accepted for a whole file has a harvest if and only if its comments can be read. -/
theorem acceptFile_harvest {kind : SourceKind} {reply : Text} {accepted : Reply.AcceptedFile}
    (h : Reply.acceptFile kind reply = .ok accepted) :
    match kind.language? with
    | none => accepted.harvest = none
    | some language =>
      ∃ harvest, accepted.harvest = some harvest ∧
        language.harvest accepted.code = .ok harvest := by
  obtain ⟨block, -, h⟩ := bind_eq_ok.1 h
  simp only at h
  split at h
  · cases hlanguage : kind.language? with
    | none =>
      simp only [hlanguage] at h
      cases h
      rfl
    | some language =>
      simp only [hlanguage] at h
      obtain ⟨harvest, hharvest, h⟩ := bind_eq_ok.1 h
      cases h
      exact ⟨harvest, rfl, mapError_eq_ok.1 hharvest⟩
  · cases h

section Drafts

variable {limits : Limits} {r : Request} {kind : SourceKind} {language : Language}
  {source : Text} {o : Outcome} {events : List Event}

/-- A routine's documentation comes from a reply to its prompt. -/
def Answered (language : Language) (source : Text) (events : List Event) (routine : Routine)
    (docs : List Doc.Line) : Prop :=
  ∃ reply accepted, ⟨.ask (promptFor language source routine), reply⟩ ∈ events ∧
    verdict (acceptFor language routine) reply = .ok accepted ∧ accepted.docs = docs

/-- The routines that a draft accounts for, by the strategy it was made with, and the text that they
are routines of. -/
inductive Drafted (kind : SourceKind) (source shown : Text) (events : List Event) :
    Strategy → Text → List RoutineEntry → Prop
  /-- In a file that is not understood no routines are known. -/
  | plain (hkind : kind.language? = none) : Drafted kind source shown events .wholeFile [] []
  /-- A whole file has the routines of the accepted reply, as far as its comments can be read. -/
  | wholeFile {language : Language} {reply : Except Model.Fault Text}
    {accepted : Reply.AcceptedFile} {routines : List Routine}
    (hkind : kind.language? = some language)
    (hreply : ⟨.ask (Prompt.wholeFile kind.name kind.docStyle shown source), reply⟩ ∈ events)
    (haccepted : verdict (acceptWhole kind) reply = .ok accepted)
    (hroutines : language.routines accepted.code = .ok routines) :
    Drafted kind source shown events .wholeFile accepted.code (language.entries routines)
  /-- Routine by routine it is those of the file, with the documentation of accepted replies. -/
  | perRoutine {language : Language} {entries : List RoutineEntry}
    (hkind : kind.language? = some language)
    (hroutines : language.routines source = .ok (entries.map Prod.fst))
    (hanswered : ∀ routine docs, (routine, some docs) ∈ entries →
      Answered language source events routine docs) :
    Drafted kind source shown events .perRoutine source entries

/-- Routines with what came of them. -/
def entriesOf (results : List (Routine × Result)) : List RoutineEntry :=
  results.map fun (routine, result) => (routine, result.toOption.map (·.docs))

theorem map_fst_entriesOf (results : List (Routine × Result)) :
    (entriesOf results).map Prod.fst = results.map Prod.fst := by
  rw [entriesOf, List.map_map]
  rfl

theorem documentEach_answered {routines : List Routine} {results : List (Routine × Result)}
    (h : (documentEach limits language source routines).Runs events results) :
    ∀ routine accepted, (routine, .ok accepted) ∈ results →
      ∃ reply, ⟨.ask (promptFor language source routine), reply⟩ ∈ events ∧
        verdict (acceptFor language routine) reply = .ok accepted := by
  induction routines generalizing results events with
  | nil =>
    rw [documentEach] at h
    obtain ⟨rfl, rfl⟩ := Program.runs_pure.1 h
    exact fun _ _ h => absurd h List.not_mem_nil
  | cons routine routines ih =>
    rw [documentEach] at h
    obtain ⟨first, result, second, rfl, hfirst, hsecond⟩ := Program.runs_bind.1 h
    obtain ⟨asking, more, nothing, rfl, hasking, hend⟩ := Program.runs_bind.1 hsecond
    obtain ⟨rfl, rfl⟩ := Program.runs_pure.1 hend
    intro routine' accepted hmem
    rcases List.mem_cons.1 hmem with heq | hmem
    · cases heq
      rw [documentRoutine_eq] at hfirst
      obtain ⟨reply, hreply, hverdict⟩ := askUntil_accepted hfirst
      exact ⟨reply, List.mem_append_left _ hreply, hverdict⟩
    · obtain ⟨reply, hreply, hverdict⟩ := ih hasking routine' accepted hmem
      exact ⟨reply, List.mem_append_right _ (List.mem_append_left _ hreply), hverdict⟩

/-- One routine after the other is accounted for. -/
theorem foldl_withResult_accounted {entries : List RoutineEntry} {lines : List Doc.Line}
    (results : List (Routine × Result))
    (hsections : ∀ routine accepted, (routine, .ok accepted) ∈ results →
      Doc.IsSection accepted.docs)
    (ho : Accounted entries o.documented lines o.routineErrors) :
    Accounted (entries ++ entriesOf results)
      (results.foldl (fun o (routine, result) => withResult o routine result) o).documented
      (lines ++ results.flatMap fun (_, result) => docsOf result)
      (results.foldl (fun o (routine, result) => withResult o routine result) o).routineErrors := by
  induction results generalizing o entries lines with
  | nil =>
    rw [entriesOf, List.map_nil, List.flatMap_nil, List.append_nil, List.append_nil]
    exact ho
  | cons p results ih =>
    obtain ⟨routine, result⟩ := p
    have hrest := fun routine accepted h => hsections routine accepted (List.mem_cons_of_mem _ h)
    cases result with
    | ok accepted =>
      have hadded := ho.some routine (hsections routine accepted List.mem_cons_self)
      have := ih (o := withResult o routine (.ok accepted)) hrest hadded
      rwa [List.append_assoc, List.append_assoc] at this
    | error reason =>
      have hadded := ho.none routine reason
      have := ih (o := withResult o routine (.error reason)) hrest hadded
      rwa [List.append_assoc] at this

/-- **A draft made routine by routine accounts for the routines of its file**. -/
theorem documentRoutines_drafted {d : Draft} {shown : Text} (hkind : kind.language? = some language)
    (hstrategy : o.strategy = some .perRoutine) (hnone : o.documented = 0)
    (h : (documentRoutines limits language source o).Runs events (.ok d)) :
    ∃ strategy text entries, d.outcome.strategy = some strategy ∧
      Drafted kind source shown events strategy text entries ∧
      Accounted entries d.outcome.documented d.docs d.outcome.routineErrors := by
  cases hroutines : language.routines source with
  | error fault =>
    rw [documentRoutines, hroutines] at h
    cases (Program.runs_pure.1 h).2
  | ok routines =>
    rw [documentRoutines, hroutines] at h
    obtain ⟨told, _, rest, rfl, -, h⟩ := Program.runs_bind.1 h
    obtain ⟨told', _, rest, rfl, -, h⟩ := Program.runs_bind.1 h
    obtain ⟨asking, results, nothing, rfl, hasking, hend⟩ := Program.runs_bind.1 h
    obtain ⟨rfl, hd⟩ := Program.runs_pure.1 hend
    cases hd
    have hanswered := documentEach_answered hasking
    refine ⟨.perRoutine, source, entriesOf results, ?_, .perRoutine hkind ?_ ?_, ?_⟩
    · exact (foldl_withResult_keeps results _).2.trans hstrategy
    · rw [map_fst_entriesOf, documentEach_ends hasking.ends, hroutines]
    · intro routine docs hmem
      obtain ⟨⟨routine', result⟩, hresult, heq⟩ := List.mem_map.1 hmem
      cases result with
      | error reason => cases heq
      | ok accepted =>
        cases heq
        obtain ⟨reply, hreply, hverdict⟩ := hanswered routine accepted hresult
        exact ⟨reply, accepted, List.mem_append_right _ (List.mem_append_right _
          (List.mem_append_left _ hreply)), hverdict, rfl⟩
    · have hsections : ∀ routine accepted, (routine, .ok accepted) ∈ results →
          Doc.IsSection accepted.docs := by
        intro routine accepted hmem
        obtain ⟨reply, -, hverdict⟩ := hanswered routine accepted hmem
        obtain ⟨text, -, haccept⟩ := verdict_eq_ok.1 hverdict
        exact acceptRoutine_isSection (mapError_eq_ok.1 haccept)
      have hstart : Accounted [] { o with total := routines.length }.documented []
          { o with total := routines.length }.routineErrors := by
        simp only [hnone]
        exact .nil
      exact foldl_withResult_accounted results hsections hstart

/-- **A draft of a whole file accounts for the routines of the accepted reply**. -/
theorem documentWhole_drafted {d : Draft} (hstrategy : o.strategy = some .wholeFile)
    (hnone : o.documented = 0)
    (h : (documentWhole limits kind source o).Runs events (.ok d)) :
    ∃ strategy text entries, d.outcome.strategy = some strategy ∧
      Drafted kind source o.file events strategy text entries ∧
      Accounted entries d.outcome.documented d.docs d.outcome.routineErrors := by
  rcases documentWhole_runs h with ⟨fault, -, hd⟩ |
    ⟨total?, told, asking, result, -, hasking, rfl, hd⟩
  · cases hd
  · cases result with
    | error reason => cases hd
    | ok accepted =>
      cases hd
      obtain ⟨reply, hreply, hverdict⟩ := askUntil_accepted hasking
      obtain ⟨text, -, haccept⟩ := verdict_eq_ok.1 hverdict
      have hharvest := acceptFile_harvest (mapError_eq_ok.1 haccept)
      cases hlanguage : kind.language? with
      | none =>
        simp only [hlanguage] at hharvest
        rw [draftOf, hharvest]
        refine ⟨.wholeFile, [], [], hstrategy, .plain hlanguage, ?_⟩
        simp only [hnone]
        exact .nil
      | some language =>
        simp only [hlanguage] at hharvest
        obtain ⟨harvest, hsome, hcode⟩ := hharvest
        obtain ⟨routines, hroutines, haccounts⟩ := Language.harvest_accounts hcode
        rw [draftOf, hsome]
        exact ⟨.wholeFile, accepted.code, language.entries routines, hstrategy,
          .wholeFile hlanguage (List.mem_append_right _ hreply) hverdict hroutines, haccounts⟩

/-- Routine by routine is for files that are understood. -/
theorem strategy_of_plain {method : Method} {lines threshold : Nat}
    (h : kind.language? = none) : strategy kind method lines threshold = .wholeFile := by
  rw [strategy, h]
  simp

/-- **A draft accounts for routines**, whichever strategy it comes from. -/
theorem draft_drafted {file : Text} {d : Draft}
    (h : (draft limits r kind source (.fresh file)).Runs events (.ok d)) :
    ∃ strategy text entries, d.outcome.strategy = some strategy ∧
      Drafted kind source file events strategy text entries ∧
      Accounted entries d.outcome.documented d.docs d.outcome.routineErrors := by
  rw [draft] at h
  split at h
  · next hchosen hlanguage =>
    exact documentRoutines_drafted hlanguage (congrArg some hchosen) rfl h
  · next hother =>
    refine documentWhole_drafted (congrArg some ?_) rfl h
    cases hlanguage : kind.language? with
    | none => exact strategy_of_plain hlanguage
    | some language =>
      cases hchosen : strategy kind r.method (Text.lines source).length limits.lineThreshold with
      | wholeFile => rfl
      | perRoutine => exact (hother language hchosen hlanguage).elim

/-- A run with more calls has the replies of the run. -/
theorem Drafted.mono {shown text : Text} {strategy : Strategy} {entries : List RoutineEntry}
    {more : List Event} (h : Drafted kind source shown events strategy text entries)
    (hmore : ∀ e ∈ events, e ∈ more) : Drafted kind source shown more strategy text entries := by
  cases h with
  | plain hkind => exact .plain hkind
  | wholeFile hkind hreply haccepted hroutines =>
    exact .wholeFile hkind (hmore _ hreply) haccepted hroutines
  | perRoutine hkind hroutines hanswered =>
    refine .perRoutine hkind hroutines fun routine docs hmem => ?_
    obtain ⟨reply, accepted, hreply, haccepted⟩ := hanswered routine docs hmem
    exact ⟨reply, accepted, hmore _ hreply, haccepted⟩

/-- The routines that a draft accounts for stand in their order. -/
theorem Drafted.row {shown text : Text} {strategy : Strategy} {entries : List RoutineEntry}
    (h : Drafted kind source shown events strategy text entries) :
    Source.Row text (entries.map fun entry => entry.1.extent) := by
  cases h with
  | plain hkind => exact ⟨fun _ h => absurd h List.not_mem_nil, .nil⟩
  | wholeFile hkind hreply haccepted hroutines =>
    have hrow := Language.extents_row hroutines
    rw [Language.entries, List.map_map]
    exact hrow
  | perRoutine hkind hroutines hanswered =>
    have hrow := Language.extents_row hroutines
    rw [List.map_map] at hrow
    exact hrow

end Drafts

/-! ## Files -/

section Files

variable {limits : Limits} {r : Request} {file : Path} {events : List Event} {o : Outcome}

theorem withDocuments_file (d : Draft) (result : Except Text (List Path)) :
    (withDocuments d result).file = d.outcome.file := by
  cases result with
  | ok paths => rfl
  | error reason =>
    rw [withDocuments]
    split <;> rfl

theorem not_stores_of_announced {shown : Text} {result : Except Text (List Path)} {e : Event}
    (he : e ∈ documentsAnnounced shown result) : ¬ e.1.Stores := by
  cases result with
  | error reason => cases he
  | ok paths =>
    rw [List.mem_singleton.1 (List.mem_ite_nil_left.1 he).2]
    exact id

/-- Where the code has been written back, it and then the documents are what is written. -/
theorem writes_of_written {kind : SourceKind} {source shown title : Text} {fresh : Outcome}
    {attempt : Attempt} {drafting documenting : List Event} {content : Storage.Content}
    {answer : Except Text Text} {result : Except Text (List Path)}
    (hdraft : (draft limits r kind source fresh).Runs drafting attempt) :
    writes (announced shown .idle :: ⟨.storage (.read file), answer⟩ ::
        (drafting ++ (⟨.storage (.write file content), .ok ()⟩ :: announced title .written ::
          (documenting ++ (documentsAnnounced title result ++ [lastStage o]))))) =
      (file, content) :: writes documenting := by
  have hdrafting : writes drafting = [] := writes_of_talk draft_makes hdraft
  have hannounced : writes (documentsAnnounced title result ++ [lastStage o]) = [] := by
    apply writes_eq_nil
    intro e he
    rcases List.mem_append.1 he with he | he
    · exact not_stores_of_announced he
    · rw [List.mem_singleton.1 he]
      exact id
  change writes (drafting ++ _) = _
  rw [writes_append, hdrafting, List.nil_append]
  change (file, content) :: writes (documenting ++ _) = _
  rw [writes_append, hannounced, List.append_nil]

/-- That an outcome agrees with what the calls of its file have written: the file's new code, and
unless no routine is counted the documents that show `lines`, whose paths the outcome names. -/
structure Agrees (r : Request) (file : Path) (events : List Event) (o : Outcome)
    (lines : List Doc.Line) : Prop where
  not_failed : o.isFailed = false
  headings : lines.countP Doc.Line.isSubheader = o.documented
  written : ∃ code now documents,
    documents = (if o.documented = 0 then [] else
      renderings now (documentBase r.outputFolder (r.relative file)) r.formats lines) ∧
    writes events = (file, .text code) :: documents ∧ o.artifacts = documents.map (·.1.text)

theorem Agrees.artifacts_iff {lines : List Doc.Line} (h : Agrees r file events o lines) :
    o.artifacts ≠ [] ↔ 1 ≤ o.documented ∧ r.formats.any = true := by
  obtain ⟨code, now, documents, rfl, -, hartifacts⟩ := h.written
  rw [hartifacts]
  simp only [ne_eq, List.map_eq_nil_iff, ite_eq_left_iff, renderings_eq_nil_iff,
    Classical.not_imp, Bool.not_eq_false, Nat.one_le_iff_ne_zero]

/-- **Documents that have been written agree with the counts of a draft**. -/
theorem agrees_of_draft {d : Draft} {documenting : List Event}
    {result : Except Text (List Path)} {entries : List RoutineEntry} {title : Text}
    (hd : d.outcome.Pending)
    (haccounted : Accounted entries d.outcome.documented d.docs d.outcome.routineErrors)
    (hdocuments : (writeDocuments r file (titleLine title :: d.docs)).Runs documenting result)
    (hok : ∀ e ∈ documenting, Succeeds e)
    (hwrites : writes events = (file, .text (published r d)) :: writes documenting) :
    Agrees r file events (withDocuments d result) (titleLine title :: d.docs) ∧
      (withDocuments d result).documented = d.outcome.documented ∧
      (withDocuments d result).routineErrors = d.outcome.routineErrors := by
  obtain ⟨now, rfl, hwritten⟩ :=
    writesAll_writeDocuments r file _ d.docs documenting result hdocuments hok
  simp only [haccounted.lines_eq_nil_iff] at hwritten ⊢
  refine ⟨⟨hd.not_isFailed, ?_, published r d, now, _, rfl, hwrites.trans ?_, ?_⟩, rfl, rfl⟩
  · exact haccounted.countP_isSubheader
  · exact congrArg _ hwritten
  · exact List.map_map

/-- **Documents agree with counts**. For every run of the work on a file in which no call on files or
folders fails, the outcome names documents if and only if it counts a routine as documented and a
format is wanted. Either the file has failed, and nothing is counted, named or written; or there are
routines, those of the accepted reply for the whole file or those of the file itself, of which
exactly the documented ones are counted. The documents written are those the outcome names, and they
show the title and below it the section of each documented routine, in the order of the text, so
that there are as many headings as documented routines. -/
theorem documents_agree_with_counts (h : (documentFile limits r file).Runs events o)
    (hok : ∀ e ∈ events, Succeeds e) :
    (o.artifacts ≠ [] ↔ 1 ≤ o.documented ∧ r.formats.any = true) ∧
    ((o.isFailed = true ∧ o.documented = 0 ∧ o.artifacts = [] ∧ writes events = []) ∨
      ∃ kind source strategy text entries docs,
        SourceKind.ofPath? file = some kind ∧ ⟨.storage (.read file), .ok source⟩ ∈ events ∧
        o.strategy = some strategy ∧
        Drafted kind source (r.shown file) events strategy text entries ∧
        Source.Row text (entries.map fun entry => entry.1.extent) ∧
        Accounted entries o.documented docs o.routineErrors ∧
        Agrees r file events o (titleLine (r.shown file) :: docs)) := by
  have hcourse := course_of_runs h
  have hfailed : o.isFailed = true → writes events = [] →
      (o.artifacts ≠ [] ↔ 1 ≤ o.documented ∧ r.formats.any = true) ∧
        o.isFailed = true ∧ o.documented = 0 ∧ o.artifacts = [] ∧ writes events = [] := by
    intro hfailed hwrites
    obtain ⟨hdocumented, hartifacts⟩ := hcourse.consistent.failed hfailed
    refine ⟨?_, hfailed, hdocumented, hartifacts, hwrites⟩
    rw [hdocumented, hartifacts]
    exact ⟨fun h => absurd rfl h, fun h => absurd h.1 (Nat.not_succ_le_zero 0)⟩
  have hfile := hcourse.file_eq
  cases hcourse with
  | unsupported hkind ho =>
    obtain ⟨hiff, hrest⟩ := hfailed (ho ▸ rfl) rfl
    exact ⟨hiff, .inl hrest⟩
  | unread hkind ho =>
    obtain ⟨source, hsource⟩ := hok _ (List.mem_cons_of_mem _ List.mem_cons_self)
    cases hsource
  | undrafted hkind hdraft =>
    have hwrites := writes_of_talk draft_makes hdraft
    obtain ⟨hiff, hrest⟩ := hfailed (draft_sound hdraft).1 (by
      change writes (_ ++ _) = _
      rw [writes_append, hwrites]
      rfl)
    exact ⟨hiff, .inl hrest⟩
  | unwritten hkind hdraft ho =>
    have := hok _ (List.mem_cons_of_mem _ (List.mem_cons_of_mem _
      (List.mem_append_right _ List.mem_cons_self)))
    cases this
  | @written o kind source drafting documenting d result hkind hdraft hdocuments ho =>
    obtain ⟨strategy, text, entries, hstrategy, hdrafted, haccounted⟩ := draft_drafted hdraft
    have hdone : ∀ e ∈ documenting, Succeeds e := fun e he =>
      hok e (List.mem_cons_of_mem _ (List.mem_cons_of_mem _ (List.mem_append_right _
        (List.mem_cons_of_mem _ (List.mem_cons_of_mem _ (List.mem_append_left _ he))))))
    obtain ⟨hagrees, hdocumented, herrors⟩ :=
      agrees_of_draft (draft_sound hdraft) haccounted hdocuments hdone (writes_of_written hdraft)
    have htitle : titleLine d.outcome.file = titleLine (r.shown file) := by
      rw [← hfile, ho, withDocuments_file]
    rw [← ho, htitle] at hagrees
    refine ⟨hagrees.artifacts_iff, .inr ⟨kind, source, strategy, text, entries, d.docs, hkind,
      List.mem_cons_of_mem _ List.mem_cons_self, ?_, ?_, hdrafted.row, ?_, hagrees⟩⟩
    · rw [ho, withDocuments_strategy, hstrategy]
    · exact hdrafted.mono fun e he => List.mem_cons_of_mem _ (List.mem_cons_of_mem _
        (List.mem_append_left _ he))
    · rw [ho, hdocumented, herrors]
      exact haccounted

end Files

/-! ## A class whose method gets a comment -/

def greetingFile : Path := ⟨"A.java".toList⟩

def greetingClass : Text := "class A \x7b\x7d".toList

def greetingRequest : Request := ⟨none, [greetingFile], .slow, ⟨"out".toList⟩, .standard, false⟩

/-- The class with a documented method. -/
def greetingCode : Text :=
  "class A \x7b\n  /** Says hello. */\n  void greet() \x7b\x7d\n\x7d".toList

def greetingReply : Text := "```java\n".toList ++ greetingCode ++ "\n```".toList

def greetingDocs : List Doc.Line :=
  [.subheader "Function: void greet()".toList, .bold "Description:".toList,
    .text "Says hello.".toList]

def greetingPrompt : Text :=
  Prompt.wholeFile (SourceKind.name (.grammar .java)) (SourceKind.docStyle (.grammar .java))
    greetingFile.text greetingClass

def greetingDraft : Draft where
  outcome := ⟨greetingFile.text, none, 1, 1, [], some .wholeFile, []⟩
  docs := greetingDocs
  code := greetingCode

theorem verdict_greeting :
    verdict (acceptWhole (.grammar .java)) (.ok greetingReply) =
      .ok ⟨greetingCode, some ⟨greetingDocs, [], 1, 1⟩⟩ := by
  have hharvest : Language.harvest = fun language source =>
      (do return (← language.compute source).foldl (Harvest.add language) .empty) := by
    funext language source
    rw [Language.harvest, Language.routines_eq_compute]
  unfold verdict acceptWhole Reply.acceptFile
  rw [hharvest]
  rfl

theorem countRoutines_greetingClass :
    countRoutines? (.grammar .java) greetingClass = .ok (some 0) := by
  unfold countRoutines?
  simp only [SourceKind.language?]
  rw [Language.routines_eq_compute]
  rfl

/-- The calls of the work on the class, with the answers of a model and a storage that do not
fail. -/
def greetingEvents : List Event :=
  [announced greetingFile.text .idle, ⟨.storage (.read greetingFile), .ok greetingClass⟩,
    announced greetingFile.text .parsed, announced greetingFile.text .wholeFile,
    ⟨.ask greetingPrompt, .ok greetingReply⟩,
    ⟨.storage (.write greetingFile (.text greetingCode)), .ok ()⟩,
    announced greetingFile.text .written,
    ⟨.storage (.makeFolders ⟨"out".toList⟩), .ok ()⟩, ⟨.time, "now".toList⟩,
    ⟨.storage (.write ⟨"out/A.java.md".toList⟩ (.text
      (Doc.Markdown.render "now".toList (titleLine greetingFile.text :: greetingDocs)))), .ok ()⟩,
    announced greetingFile.text .documentsWritten,
    announced greetingFile.text .done]

def greetingOutcome : Outcome :=
  { greetingDraft.outcome with artifacts := ["out/A.java.md".toList] }

theorem greeting_asked :
    (askUntil greetingPrompt (acceptWhole (.grammar .java)) (.start 2)).Runs
      [⟨.ask greetingPrompt, .ok greetingReply⟩]
      (.ok ⟨greetingCode, some ⟨greetingDocs, [], 1, 1⟩⟩) := by
  have hnext : (Retry.start 2).next? = some ⟨1, 3, none⟩ := rfl
  rw [askUntil_some hnext]
  apply Program.Runs.after
  rw [verdict_greeting]
  exact .done _

theorem greeting_drafted :
    (draft ⟨1, 2, 300⟩ greetingRequest (.grammar .java) greetingClass
        (.fresh greetingFile.text)).Runs
      [announced greetingFile.text .parsed, announced greetingFile.text .wholeFile,
        ⟨.ask greetingPrompt, .ok greetingReply⟩] (.ok greetingDraft) := by
  change (documentWhole _ _ _ _).Runs _ _
  rw [documentWhole_of_ok _ _ countRoutines_greetingClass]
  apply Program.Runs.after
  apply Program.Runs.after
  exact Program.runs_bind.2 ⟨_, _, [], rfl, greeting_asked, .done _⟩

/-- The run over the class: the model answers at once, and one document is written. -/
theorem greeting_runs :
    (documentFile ⟨1, 2, 300⟩ greetingRequest greetingFile).Runs greetingEvents
      greetingOutcome := by
  have hkind : SourceKind.ofPath? greetingFile = some (.grammar .java) := rfl
  have hpublished : (publish greetingRequest greetingFile greetingDraft).Runs
      (greetingEvents.drop 5).dropLast greetingOutcome := by
    apply Program.Runs.after
    apply Program.Runs.after
    apply Program.Runs.after
    apply Program.Runs.after
    apply Program.Runs.after
    apply Program.Runs.after
    exact .done _
  apply Program.Runs.after
  rw [hkind]
  apply Program.Runs.after
  exact Program.runs_bind.2 ⟨_, _, [announced greetingFile.text .done], rfl,
    Program.runs_bind.2 ⟨_, _, _, rfl, greeting_drafted, hpublished⟩,
    finish_runs.2 ⟨rfl, rfl⟩⟩

theorem greeting_succeeds : ∀ e ∈ greetingEvents, Succeeds e := by
  simp only [greetingEvents, List.forall_mem_cons]
  exact ⟨trivial, ⟨_, rfl⟩, trivial, trivial, trivial, rfl, trivial, rfl, trivial, rfl, trivial,
    trivial, fun _ h => absurd h List.not_mem_nil⟩

/-- One method is documented, and the document written has its section. -/
theorem documents_agree_with_counts_greeting :
    greetingOutcome.artifacts ≠ [] ∧ greetingOutcome.documented = 1 ∧
      ∃ docs : List Doc.Line, docs.countP Doc.Line.isSubheader = 1 ∧
        Agrees greetingRequest greetingFile greetingEvents greetingOutcome
          (titleLine greetingFile.text :: docs) := by
  have h := documents_agree_with_counts greeting_runs greeting_succeeds
  refine ⟨h.1.2 ⟨Nat.le_refl 1, rfl⟩, rfl, ?_⟩
  obtain ⟨hfailed, -⟩ | ⟨_, _, _, _, _, docs, -, -, -, -, -, haccounted, hagrees⟩ := h.2
  · cases hfailed
  · exact ⟨docs, haccounted.countP_isSubheader, hagrees⟩

end Scholia.Batch
