import Scholia.Proofs.Batch.Attempts
/-!
# The course of the work on a file

What the work on one file can do, whatever it is answered: it may stop before or after reading, get
no code, fail to write its code back, or write it and then its documents. `Course` lists these ways
with all calls of each, so that later proofs do not unfold the program again.

Until the code is written back nothing is stored, and from then on the model is not asked.

Every run over the routines of a file ends with one result for each of them, and its code is woven
from the parts of the file between their extents. A routine without an accepted reply keeps its
extent, byte for byte.
-/

namespace Scholia.Batch

open Source (Row Routine)

/-- A call of a batch with its answer. -/
abbrev Event : Type := Program.Event interface

/-- Whether a call asks the model. -/
def Call.IsAsk : Call → Prop
  | ask _ => True
  | _ => False

/-- Whether a call is made to change what is stored. -/
def Call.Stores : Call → Prop
  | storage (.write _ _) => True
  | storage (.makeFolders _) => True
  | _ => False

/-- Whether a call is part of the talk with the model and of the announcements about it. -/
def Call.IsTalk : Call → Prop
  | ask _ => True
  | announce _ _ => True
  | _ => False

/-- Whether a call is part of the writing of documents. -/
def Call.Documents (c : Call) : Prop := c.Stores ∨ c = time

theorem Call.IsAsk.isTalk {c : Call} (h : c.IsAsk) : c.IsTalk := by
  cases c with
  | ask _ => trivial
  | storage _ => exact h.elim
  | time => exact h.elim
  | announce _ _ => exact h.elim

theorem Call.IsTalk.not_stores {c : Call} (h : c.IsTalk) : ¬ c.Stores := by
  cases c with
  | ask _ => exact id
  | storage _ => exact h.elim
  | time => exact h.elim
  | announce _ _ => exact id

/-- That a stage was announced. -/
def announced (file : Text) (stage : Stage) : Event := ⟨.announce file stage, ()⟩

/-! ## Drafts -/

section Drafts

variable {limits : Limits} {r : Request} {kind : SourceKind} {language : Language}
  {source : Text} {o : Outcome}

theorem documentRoutine_makes (routine : Routine) :
    (documentRoutine limits language source routine).Makes Call.IsAsk := by
  rw [documentRoutine_eq]
  exact (askUntil_makes _ _ _).mono fun c hc => hc ▸ trivial

theorem documentEach_makes (routines : List Routine) :
    (documentEach limits language source routines).Makes Call.IsAsk := by
  induction routines with
  | nil => exact .done _
  | cons routine routines ih =>
    exact .bind (documentRoutine_makes routine) fun result => .bind ih fun rest => .done _

theorem documentRoutines_makes :
    (documentRoutines limits language source o).Makes Call.IsTalk := by
  rw [documentRoutines]
  split
  · exact .done _
  · refine .bind (.perform trivial) fun _ => .bind (.perform trivial) fun _ =>
      .bind ?_ fun _ => .done _
    exact (documentEach_makes _).mono fun c hc => hc.isTalk

theorem documentWhole_makes :
    (documentWhole limits kind source o).Makes Call.IsTalk := by
  cases htotal : countRoutines? kind source with
  | error fault =>
    rw [documentWhole, htotal]
    exact .done _
  | ok total? =>
    rw [documentWhole_of_ok limits o htotal]
    refine .bind ?_ fun _ => .bind (.perform trivial) fun _ => .bind ?_ fun result => .done _
    · cases total? with
      | none => exact .done _
      | some total => exact .perform trivial
    · exact (askUntil_makes _ _ _).mono fun c hc => hc ▸ trivial

/-- **A draft is all talk**. -/
theorem draft_makes : (draft limits r kind source o).Makes Call.IsTalk := by
  rw [draft]
  split
  · exact documentRoutines_makes
  · exact documentWhole_makes

/-- What documenting a whole file does: it stops at a text without outline, or it asks. -/
theorem documentWhole_runs {events : List Event} {attempt : Attempt}
    (h : (documentWhole limits kind source o).Runs events attempt) :
    (∃ fault, countRoutines? kind source = .error fault ∧
      attempt = .error (o.fail fault.message)) ∨
    ∃ total? told asking result,
      countRoutines? kind source = .ok total? ∧
      (askUntil (Prompt.wholeFile kind.name kind.docStyle o.file source) (acceptWhole kind)
        (.start limits.maxRetries)).Runs asking result ∧
      events = told ++ asking ∧
      attempt = wholeAttempt { o with total := total?.getD o.total } result := by
  cases htotal : countRoutines? kind source with
  | error fault =>
    rw [documentWhole, htotal] at h
    exact .inl ⟨fault, rfl, (Program.runs_pure.1 h).2⟩
  | ok total? =>
    rw [documentWhole_of_ok limits o htotal] at h
    obtain ⟨told, _, rest, rfl, -, hrest⟩ := Program.runs_bind.1 h
    obtain ⟨told', _, rest, rfl, -, hrest⟩ := Program.runs_bind.1 hrest
    obtain ⟨asking, result, nothing, rfl, hasking, hend⟩ := Program.runs_bind.1 hrest
    obtain ⟨rfl, rfl⟩ := Program.runs_pure.1 hend
    exact .inr ⟨total?, told ++ told', asking, result, rfl, hasking,
      by rw [List.append_nil, List.append_assoc], rfl⟩

/-- Without an outline the strategies end at once, and the model is not asked. -/
theorem draft_of_fault {fault : Source.Fault} (hkind : kind.language? = some language)
    (h : language.outline source = .error fault) :
    ∃ o' : Outcome, draft limits r kind source o = pure (.error (o'.fail fault.message)) ∧
      o'.documented = o.documented ∧ o'.total = o.total ∧ o'.artifacts = o.artifacts := by
  have hroutines : language.routines source = .error fault := by
    rw [Language.routines, Language.survey, h]
    rfl
  have hcount : countRoutines? kind source = .error fault := by
    rw [countRoutines?, hkind]
    simp only
    rw [hroutines]
    rfl
  rw [draft]
  simp only [hkind]
  split
  · next hchosen hlanguage =>
    cases hlanguage
    rw [documentRoutines, hroutines]
    exact ⟨_, rfl, rfl, rfl, rfl⟩
  · rw [documentWhole, hcount]
    exact ⟨_, rfl, rfl, rfl, rfl⟩

end Drafts

/-! ## Routine by routine -/

section PerRoutine

variable {language : Language} {source : Text} {routines : List Routine}

/-- What stands in the place of a routine's extent afterwards. -/
def placed (source : Text) (routine : Routine) : Result → Text
  | .ok accepted => Layout.reindent accepted.code (Layout.lineIndent source routine.extent.start)
  | .error _ => routine.extent.of source

theorem segment_text (routine : Routine) (result : Result) :
    (segment routine result).text source = placed source routine result := by
  cases result <;> rfl

theorem map_segment_span (results : List (Routine × Result)) :
    (results.map fun (routine, result) => segment routine result).map Layout.Segment.span =
      (results.map Prod.fst).map Routine.extent := by
  rw [List.map_map, List.map_map]
  rfl

/-- **The code of a draft is woven from the gaps of the source**. -/
theorem assemble_code (h : language.routines source = .ok routines) (o : Outcome)
    {results : List (Routine × Result)} (hkeys : results.map Prod.fst = routines) :
    (assemble source o results).code =
      Text.weave (Layout.gaps source (routines.map Routine.extent))
        (results.map fun (routine, result) => placed source routine result) := by
  have hspans := map_segment_span results
  rw [hkeys] at hspans
  have hrow : Row source
      ((results.map fun (routine, result) => segment routine result).map Layout.Segment.span) :=
    hspans ▸ Language.extents_row h
  calc (assemble source o results).code
    _ = Text.weave (Layout.gaps source (routines.map Routine.extent))
          ((results.map fun (routine, result) => segment routine result).map
            (Layout.Segment.text source)) := by
        rw [← hspans]
        exact Layout.splice_eq_weave hrow
    _ = _ := by
        rw [List.map_map]
        congr 1
        exact List.map_congr_left fun p _ => segment_text p.1 p.2

/-- The routines of a file are asked for one after the other, each has a result. -/
theorem documentEach_ends {limits : Limits} {results : List (Routine × Result)}
    (h : (documentEach limits language source routines).Ends results) :
    results.map Prod.fst = routines := by
  induction routines generalizing results with
  | nil =>
    rw [documentEach, Program.ends_pure] at h
    rw [h]
    rfl
  | cons routine rest ih =>
    rw [documentEach, Program.ends_bind] at h
    obtain ⟨result, -, h⟩ := h
    obtain ⟨more, hmore, h⟩ := Program.ends_bind.1 h
    rw [Program.ends_pure] at h
    rw [h, List.map_cons, ih hmore]

theorem documentRoutines_ends {limits : Limits} {o : Outcome} {attempt : Attempt}
    (h : language.routines source = .ok routines)
    (hends : (documentRoutines limits language source o).Ends attempt) :
    ∃ results : List (Routine × Result), results.map Prod.fst = routines ∧
      attempt = .ok (assemble source { o with total := routines.length } results) := by
  rw [documentRoutines, h] at hends
  obtain ⟨-, -, hends⟩ := Program.ends_bind.1 hends
  obtain ⟨-, -, hends⟩ := Program.ends_bind.1 hends
  obtain ⟨results, hresults, hends⟩ := Program.ends_bind.1 hends
  exact ⟨results, documentEach_ends hresults, Program.ends_pure.1 hends⟩

/-- **Documenting routine by routine touches nothing but extents**. Source and new code are woven
from the same gaps; in the place of each extent the new code has the accepted reply at the column of
the extent, or the extent itself. This holds of every choice of results and of every run; a file of
which every routine has failed is unchanged. -/
theorem documentRoutines_touches_extents (h : language.routines source = .ok routines) :
    source = Text.weave (Layout.gaps source (routines.map Routine.extent))
        (routines.map fun r => r.extent.of source) ∧
      (∀ (o : Outcome) (results : List (Routine × Result)), results.map Prod.fst = routines →
        (assemble source o results).code =
            Text.weave (Layout.gaps source (routines.map Routine.extent))
              (results.map fun (routine, result) => placed source routine result) ∧
          ((∀ p ∈ results, p.2.toOption = none) → (assemble source o results).code = source)) ∧
      ∀ (limits : Limits) (o : Outcome) (attempt : Attempt),
        (documentRoutines limits language source o).Ends attempt →
        ∃ results : List (Routine × Result), results.map Prod.fst = routines ∧
          attempt = .ok (assemble source { o with total := routines.length } results) := by
  have hsource : source = Text.weave (Layout.gaps source (routines.map Routine.extent))
      (routines.map fun r => r.extent.of source) := by
    have := Layout.weave_gaps (Language.extents_row h)
    rw [List.map_map] at this
    exact this.symm
  refine ⟨hsource, fun o results hkeys => ?_, fun limits o attempt => documentRoutines_ends h⟩
  have hcode := assemble_code h o hkeys
  refine ⟨hcode, fun hfailed => ?_⟩
  have hplaced : (results.map fun (routine, result) => placed source routine result) =
      routines.map fun r => r.extent.of source := by
    rw [← hkeys, List.map_map]
    refine List.map_congr_left fun p hp => ?_
    obtain ⟨routine, result⟩ := p
    cases result with
    | ok accepted => exact absurd (hfailed _ hp) (by simp [Except.toOption])
    | error reason => rfl
  rw [hcode, hplaced]
  exact hsource.symm

/-- One reply that is accepted and one routine that fails. -/
theorem documentRoutines_touches_extents_sampleClass :
    Language.routines .java Language.sampleClass = .ok Language.sampleRoutines ∧
      ∀ (o : Outcome) (accepted : Reply.AcceptedRoutine) (reason : Text),
        (assemble Language.sampleClass o
            (Language.sampleRoutines.zip [.ok accepted, .error reason])).code =
          "class A \x7b\n  ".toList ++ (Layout.reindent accepted.code [' ', ' '] ++
            "\n  void läuft() \x7b\x7d\n\x7d".toList) := by
  refine ⟨Language.routines_sampleClass, fun o accepted reason => ?_⟩
  have h := documentRoutines_touches_extents Language.routines_sampleClass
  have hcode := (h.2.1 o (Language.sampleRoutines.zip [.ok accepted, .error reason]) rfl).1
  exact hcode

end PerRoutine

/-! ## Documents -/

theorem writeDocument_makes (path : Path) (content : Storage.Content) :
    (writeDocument path content).Makes Call.Documents := by
  refine .bind (.perform (.inl trivial)) fun answer => ?_
  cases answer <;> exact .done _

theorem writeEach_makes {allowed : Call → Prop} {documents : List (Job (Except Text Path))}
    (h : ∀ document ∈ documents, document.Makes allowed) :
    (writeEach documents).Makes allowed := by
  induction documents with
  | nil => exact .done _
  | cons document rest ih =>
    refine .bind (h document List.mem_cons_self) fun result => ?_
    cases result with
    | error reason => exact .done _
    | ok path =>
      exact .bind (ih fun document hd => h document (List.mem_cons_of_mem _ hd)) fun _ => .done _

theorem mem_documentsAt {base : Path} {formats : Formats} {lines : List Doc.Line}
    {document : Job (Except Text Path)} (h : document ∈ documentsAt base formats lines) :
    document = (do
        writeDocument (withSuffix base ".md") (.text (Doc.Markdown.render (← time) lines))) ∨
      document =
        writeDocument (withSuffix base ".docx") (.document (Doc.Word.render lines)) := by
  rcases List.mem_append.1 h with h | h
  · exact .inl (List.mem_singleton.1 (List.mem_ite_nil_right.1 h).2)
  · exact .inr (List.mem_singleton.1 (List.mem_ite_nil_right.1 h).2)

/-- **Writing documents asks for no more than the time**. -/
theorem writeDocuments_makes (r : Request) (file : Path) (lines : List Doc.Line) :
    (writeDocuments r file lines).Makes Call.Documents := by
  rw [writeDocuments]
  split
  · exact .done _
  · refine .bind (.perform (.inl trivial)) fun made => ?_
    cases made with
    | error reason => exact .done _
    | ok done =>
      refine writeEach_makes fun document hdocument => ?_
      rcases mem_documentsAt hdocument with rfl | rfl
      · exact .bind (.perform (.inr rfl)) fun _ => writeDocument_makes _ _
      · exact writeDocument_makes _ _

/-! ## The ways of a file -/

/-- The code that is written back for a draft. -/
def published (r : Request) (d : Draft) : Text :=
  if r.tidied then Layout.tidy d.code else d.code

/-- The outcome of a draft whose code has been written back. -/
def withDocuments (d : Draft) : Except Text (List Path) → Outcome
  | .ok paths => { d.outcome with artifacts := paths.map (·.text) }
  | .error reason => if d.outcome.routineErrors.isEmpty then d.outcome.fail reason else d.outcome

theorem withDocuments_strategy (d : Draft) (result : Except Text (List Path)) :
    (withDocuments d result).strategy = d.outcome.strategy := by
  cases result with
  | ok paths => rfl
  | error reason =>
    rw [withDocuments]
    split <;> rfl

/-- What is announced once documents have been written. -/
def documentsAnnounced (file : Text) : Except Text (List Path) → List Event
  | .ok paths => if paths.isEmpty then [] else [announced file .documentsWritten]
  | .error _ => []

/-- The last stage of a file. -/
def lastStage (o : Outcome) : Event :=
  announced o.file (if o.isFailed then .failed else .done)

/-- What the work on a file does, with its calls: the ways that it can go. -/
inductive Course (limits : Limits) (r : Request) (file : Path) : List Event → Outcome → Prop
  | unsupported {o : Outcome} (hkind : SourceKind.ofPath? file = none)
    (ho : o = (Outcome.fresh (r.shown file)).fail ("unsupported file type: ".toList ++ file.text)) :
    Course limits r file [announced (r.shown file) .idle, lastStage o] o
  | unread {o : Outcome} {kind : SourceKind} {reason : Text}
    (hkind : SourceKind.ofPath? file = some kind)
    (ho : o = (Outcome.fresh (r.shown file)).fail (fileFault file reason)) :
    Course limits r file
      [announced (r.shown file) .idle, ⟨.storage (.read file), .error reason⟩, lastStage o] o
  | undrafted {o : Outcome} {kind : SourceKind} {source : Text} {drafting : List Event}
    (hkind : SourceKind.ofPath? file = some kind)
    (hdraft : (draft limits r kind source (.fresh (r.shown file))).Runs drafting (.error o)) :
    Course limits r file
      (announced (r.shown file) .idle :: ⟨.storage (.read file), .ok source⟩ ::
        (drafting ++ [lastStage o])) o
  | unwritten {o : Outcome} {kind : SourceKind} {source reason : Text} {drafting : List Event}
    {d : Draft} (hkind : SourceKind.ofPath? file = some kind)
    (hdraft : (draft limits r kind source (.fresh (r.shown file))).Runs drafting (.ok d))
    (ho : o = d.outcome.fail (fileFault file reason)) :
    Course limits r file
      (announced (r.shown file) .idle :: ⟨.storage (.read file), .ok source⟩ ::
        (drafting ++
          [⟨.storage (.write file (.text (published r d))), .error reason⟩, lastStage o])) o
  | written {o : Outcome} {kind : SourceKind} {source : Text} {drafting documenting : List Event}
    {d : Draft} {result : Except Text (List Path)}
    (hkind : SourceKind.ofPath? file = some kind)
    (hdraft : (draft limits r kind source (.fresh (r.shown file))).Runs drafting (.ok d))
    (hdocuments : (writeDocuments r file (titleLine d.outcome.file :: d.docs)).Runs documenting
      result)
    (ho : o = withDocuments d result) :
    Course limits r file
      (announced (r.shown file) .idle :: ⟨.storage (.read file), .ok source⟩ ::
        (drafting ++
          (⟨.storage (.write file (.text (published r d))), .ok ()⟩ ::
            announced d.outcome.file .written ::
            (documenting ++ (documentsAnnounced d.outcome.file result ++ [lastStage o]))))) o

section Runs

variable {limits : Limits} {r : Request} {file : Path} {events : List Event} {o o' : Outcome}

theorem finish_runs : (finish o).Runs events o' ↔ events = [lastStage o] ∧ o' = o := by
  rw [finish, Program.runs_bind]
  constructor
  · rintro ⟨first, answer, second, rfl, hfirst, hsecond⟩
    rw [announce, Program.runs_perform] at hfirst
    obtain ⟨rfl, rfl⟩ := Program.runs_pure.1 hsecond
    rw [hfirst]
    exact ⟨rfl, rfl⟩
  · rintro ⟨rfl, rfl⟩
    exact ⟨[lastStage o'], (), [], rfl, Program.runs_perform.2 rfl, Program.runs_pure.2 ⟨rfl, rfl⟩⟩

/-- Publishing writes the code first, and the documents only if that has succeeded. -/
theorem publish_runs {d : Draft} (h : (publish r file d).Runs events o) :
    (∃ reason, events = [⟨.storage (.write file (.text (published r d))), .error reason⟩] ∧
      o = d.outcome.fail (fileFault file reason)) ∨
    ∃ documenting result,
      (writeDocuments r file (titleLine d.outcome.file :: d.docs)).Runs documenting result ∧
      events = ⟨.storage (.write file (.text (published r d))), .ok ()⟩ ::
        announced d.outcome.file .written ::
        (documenting ++ documentsAnnounced d.outcome.file result) ∧
      o = withDocuments d result := by
  rw [publish] at h
  obtain ⟨first, answer, second, rfl, hfirst, hsecond⟩ := Program.runs_bind.1 h
  obtain rfl : first = [⟨.storage (.write file (.text (published r d))), answer⟩] :=
    Program.runs_perform.1 hfirst
  cases answer with
  | error reason =>
    obtain ⟨rfl, rfl⟩ := Program.runs_pure.1 hsecond
    exact .inl ⟨reason, rfl, rfl⟩
  | ok done =>
    obtain ⟨told, _, rest, rfl, htold, hrest⟩ := Program.runs_bind.1 hsecond
    obtain rfl : told = [announced d.outcome.file .written] := Program.runs_perform.1 htold
    obtain ⟨documenting, result, last, rfl, hdocuments, hlast⟩ := Program.runs_bind.1 hrest
    refine .inr ⟨documenting, result, hdocuments, ?_⟩
    cases result with
    | error reason =>
      obtain ⟨rfl, rfl⟩ := Program.runs_pure.1 hlast
      exact ⟨rfl, rfl⟩
    | ok paths =>
      simp only at hlast
      split at hlast
      · next hpaths =>
        obtain ⟨rfl, rfl⟩ := Program.runs_pure.1 hlast
        rw [documentsAnnounced, if_pos hpaths]
        exact ⟨rfl, rfl⟩
      · next hpaths =>
        obtain ⟨told, _, nothing, rfl, htold, hend⟩ := Program.runs_bind.1 hlast
        obtain rfl : told = [announced d.outcome.file .documentsWritten] :=
          Program.runs_perform.1 htold
        obtain ⟨rfl, rfl⟩ := Program.runs_pure.1 hend
        rw [documentsAnnounced, if_neg hpaths]
        exact ⟨rfl, rfl⟩

/-- **The work on a file goes one of these ways**. -/
theorem course_of_runs (h : (documentFile limits r file).Runs events o) :
    Course limits r file events o := by
  rw [documentFile] at h
  obtain ⟨first, _, second, rfl, hfirst, hsecond⟩ := Program.runs_bind.1 h
  obtain rfl : first = [announced (r.shown file) .idle] := Program.runs_perform.1 hfirst
  split at hsecond
  · next hkind =>
    obtain ⟨rfl, rfl⟩ := finish_runs.1 hsecond
    exact .unsupported hkind rfl
  · next kind hkind =>
    obtain ⟨reading, answer, rest, rfl, hreading, hrest⟩ := Program.runs_bind.1 hsecond
    obtain rfl : reading = [⟨.storage (.read file), answer⟩] := Program.runs_perform.1 hreading
    cases answer with
    | error reason =>
      obtain ⟨rfl, rfl⟩ := finish_runs.1 hrest
      exact .unread hkind rfl
    | ok source =>
      obtain ⟨working, done, last, rfl, hworking, hlast⟩ := Program.runs_bind.1 hrest
      obtain ⟨rfl, rfl⟩ := finish_runs.1 hlast
      rw [documentSource] at hworking
      obtain ⟨drafting, attempt, publishing, rfl, hdraft, hpublish⟩ :=
        Program.runs_bind.1 hworking
      cases attempt with
      | error failed =>
        obtain ⟨rfl, rfl⟩ := Program.runs_pure.1 hpublish
        rw [List.append_nil]
        exact .undrafted hkind hdraft
      | ok d =>
        rcases publish_runs hpublish with ⟨reason, rfl, ho⟩ | ⟨documenting, result, hdoc, rfl, ho⟩
        · simpa using Course.unwritten hkind hdraft ho
        · simpa using Course.written hkind hdraft hdoc ho

end Runs

/-! ## What is read -/

section Read

variable {limits : Limits} {r : Request} {file : Path} {events drafting tail : List Event}
  {o : Outcome} {kind : SourceKind} {source : Text} {attempt : Attempt}

/-- Between reading and writing back there is only talk, so a file is read once. -/
theorem mem_read {first : Text} {stage : Stage} {read answer : Except Text Text}
    (hdraft : (draft limits r kind source o).Runs drafting attempt)
    (htail : ∀ e ∈ tail, e.1 ≠ .storage (.read file))
    (h : (⟨.storage (.read file), answer⟩ : Event) ∈
      announced first stage :: ⟨.storage (.read file), read⟩ :: (drafting ++ tail)) :
    answer = read := by
  rcases List.mem_cons.1 h with h | h
  · cases h
  rcases List.mem_cons.1 h with h | h
  · cases h
    rfl
  rcases List.mem_append.1 h with h | h
  · exact (draft_makes.of_mem hdraft _ h).elim
  · exact absurd rfl (htail _ h)

theorem lastStage_ne_read : (lastStage o).1 ≠ .storage (.read file) := by
  intro h
  cases h

theorem ne_read_of_unwritten {content : Storage.Content} {answer : Except Text Unit} :
    ∀ e ∈ ([⟨.storage (.write file content), answer⟩, lastStage o] : List Event),
      e.1 ≠ .storage (.read file) := by
  intro e he h
  rcases List.mem_cons.1 he with rfl | he
  · cases h
  · rw [List.mem_singleton.1 he] at h
    cases h

theorem ne_read_of_written {content : Storage.Content} {answer : Except Text Unit} {d : Draft}
    {documenting : List Event} {result : Except Text (List Path)} {lines : List Doc.Line}
    (hdocuments : (writeDocuments r file lines).Runs documenting result) :
    ∀ e ∈ ((⟨.storage (.write file content), answer⟩ : Event) ::
        announced d.outcome.file .written ::
          (documenting ++ (documentsAnnounced d.outcome.file result ++ [lastStage o]))),
      e.1 ≠ .storage (.read file) := by
  intro e he h
  rcases List.mem_cons.1 he with rfl | he
  · cases h
  rcases List.mem_cons.1 he with rfl | he
  · cases h
  rcases List.mem_append.1 he with he | he
  · rcases (writeDocuments_makes r file lines).of_mem hdocuments e he with hs | ht
    · rw [h] at hs
      exact hs
    · rw [h] at ht
      cases ht
  rcases List.mem_append.1 he with he | he
  · cases result with
    | error reason => cases he
    | ok paths =>
      obtain ⟨-, he⟩ := List.mem_ite_nil_left.1 he
      rw [List.mem_singleton.1 he] at h
      cases h
  · rw [List.mem_singleton.1 he] at h
    cases h

theorem Course.of_unsupported (h : Course limits r file events o)
    (hkind : SourceKind.ofPath? file = none) :
    o = (Outcome.fresh (r.shown file)).fail ("unsupported file type: ".toList ++ file.text) ∧
      events = [announced (r.shown file) .idle, lastStage o] := by
  cases h with
  | unsupported _ ho => exact ⟨ho, rfl⟩
  | unread hkind' | undrafted hkind' | unwritten hkind' | written hkind' =>
    rw [hkind] at hkind'
    cases hkind'

/-- **A file that cannot be read is given up at once**. -/
theorem Course.of_unread (h : Course limits r file events o) {reason : Text}
    (hread : ⟨.storage (.read file), .error reason⟩ ∈ events) :
    o = (Outcome.fresh (r.shown file)).fail (fileFault file reason) ∧
      events = [announced (r.shown file) .idle, ⟨.storage (.read file), .error reason⟩,
        lastStage o] := by
  cases h with
  | unsupported hkind ho =>
    rcases List.mem_cons.1 hread with h | h
    · cases h
    · cases List.mem_singleton.1 h
  | unread hkind ho =>
    rcases List.mem_cons.1 hread with h | h
    · cases h
    rcases List.mem_cons.1 h with h | h
    · cases h
      exact ⟨ho, rfl⟩
    · cases List.mem_singleton.1 h
  | undrafted hkind hdraft =>
    cases mem_read hdraft (fun e he => List.mem_singleton.1 he ▸ lastStage_ne_read) hread
  | unwritten hkind hdraft ho => cases mem_read hdraft ne_read_of_unwritten hread
  | written hkind hdraft hdocuments ho =>
    cases mem_read hdraft (ne_read_of_written hdocuments) hread

/-- **A file that has been read is drafted from what was read**. -/
theorem Course.of_read (h : Course limits r file events o)
    (hread : ⟨.storage (.read file), .ok source⟩ ∈ events)
    (hkind : SourceKind.ofPath? file = some kind) :
    ∃ drafting attempt tail,
      (draft limits r kind source (.fresh (r.shown file))).Runs drafting attempt ∧
      events = announced (r.shown file) .idle :: ⟨.storage (.read file), .ok source⟩ ::
        (drafting ++ tail) ∧
      match attempt with
      | .error failed => o = failed ∧ tail = [lastStage o]
      | .ok d => o.strategy = d.outcome.strategy := by
  cases h with
  | unsupported hkind' ho =>
    rw [hkind] at hkind'
    cases hkind'
  | unread hkind' ho =>
    rcases List.mem_cons.1 hread with h | h
    · cases h
    rcases List.mem_cons.1 h with h | h
    · cases h
    · cases List.mem_singleton.1 h
  | undrafted hkind' hdraft =>
    rw [hkind] at hkind'
    cases hkind'
    cases mem_read hdraft (fun e he => List.mem_singleton.1 he ▸ lastStage_ne_read) hread
    exact ⟨_, _, _, hdraft, rfl, rfl, rfl⟩
  | unwritten hkind' hdraft ho =>
    rw [hkind] at hkind'
    cases hkind'
    cases mem_read hdraft ne_read_of_unwritten hread
    exact ⟨_, _, _, hdraft, rfl, (congrArg Outcome.strategy ho).trans rfl⟩
  | written hkind' hdraft hdocuments ho =>
    rw [hkind] at hkind'
    cases hkind'
    cases mem_read hdraft (ne_read_of_written hdocuments) hread
    exact ⟨_, _, _, hdraft, rfl, ho ▸ withDocuments_strategy _ _⟩

end Read

end Scholia.Batch
