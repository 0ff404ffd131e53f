import Scholia.Proofs.Batch.Course
import Scholia.Proofs.Batch.Places
import Scholia.Service.Generation
import Scholia.Storage.Memory
/-!
# Requests stay inside their project

Whatever a batch is answered, it reads and writes the files it was asked for, and else only writes
documents and its report; the paths of these are known before it starts (`run_makes`).

A name that is empty, is from the root or goes above is refused before anything is touched. All other
names are places in the project: the files have names only behind the project's folder, their
documents have names only behind the output folder, and the whole run keeps to these two folders
(`run_inside`).

What a file is on the disk is not spoken of: a link in the project may lead anywhere.
-/

/-! ## What a batch reaches -/

namespace Scholia.Batch

/-- Whether a call is part of the work on a file: on storage, it is for the file or its documents. -/
def Call.Serves (r : Request) (file : Path) : Call → Prop
  | storage (.read path) => path = file
  | storage (.write path _) =>
    path = file ∨ path = withSuffix (documentBase r.outputFolder (r.relative file)) ".md" ∨
      path = withSuffix (documentBase r.outputFolder (r.relative file)) ".docx"
  | storage (.makeFolders path) =>
    path = (documentBase r.outputFolder (r.relative file)).parent?.getD ⟨[]⟩
  | storage (.look _) => False
  | ask _ | time | announce _ _ => True

/-- Whether a call is part of the writing of a report. -/
def Call.Reports (r : Request) : Call → Prop
  | storage (.write path _) => path = r.outputFolder.join ⟨Report.fileName⟩
  | storage (.makeFolders path) => path = r.outputFolder
  | storage (.read _) | storage (.look _) | ask _ | time | announce _ _ => False

theorem Call.IsTalk.serves {c : Call} (h : c.IsTalk) (r : Request) (file : Path) :
    c.Serves r file := by
  cases c with
  | ask _ => trivial
  | storage _ => exact h.elim
  | time => trivial
  | announce _ _ => trivial

variable (limits : Limits) (r : Request) (file : Path)

theorem writeDocument_serves {path : Path}
    (h : path = withSuffix (documentBase r.outputFolder (r.relative file)) ".md" ∨
      path = withSuffix (documentBase r.outputFolder (r.relative file)) ".docx")
    (content : Storage.Content) :
    (writeDocument path content).Makes (Call.Serves r file) := by
  refine .bind (.perform (.inr h)) fun answer => ?_
  cases answer <;> exact .done _

theorem writeDocuments_serves (lines : List Doc.Line) :
    (writeDocuments r file lines).Makes (Call.Serves r file) := by
  rw [writeDocuments]
  split
  · exact .done _
  · refine .bind (.perform rfl) fun made => ?_
    cases made with
    | error reason => exact .done _
    | ok done =>
      refine writeEach_makes fun document hdocument => ?_
      rcases mem_documentsAt hdocument with rfl | rfl
      · exact .bind (.perform trivial) fun _ => writeDocument_serves r file (.inl rfl) _
      · exact writeDocument_serves r file (.inr rfl) _

theorem finish_serves (o : Outcome) : (finish o).Makes (Call.Serves r file) :=
  .bind (.perform trivial) fun _ => .done _

theorem publish_serves (d : Draft) : (publish r file d).Makes (Call.Serves r file) := by
  refine .bind (.perform (.inl rfl)) fun written => ?_
  cases written with
  | error reason => exact .done _
  | ok done =>
    refine .bind (.perform trivial) fun _ => .bind (writeDocuments_serves r file _) fun result => ?_
    cases result with
    | error reason => exact .done _
    | ok paths =>
      dsimp only
      split
      · exact .done _
      · exact .bind (.perform trivial) fun _ => .done _

/-- **The work on a file reads and writes nothing but the file and its documents**. -/
theorem documentFile_serves : (documentFile limits r file).Makes (Call.Serves r file) := by
  rw [documentFile]
  refine .bind (.perform trivial) fun _ => ?_
  split
  · exact finish_serves r file _
  · refine .bind (.perform rfl) fun source => ?_
    cases source with
    | error reason => exact finish_serves r file _
    | ok source =>
      refine .bind (.bind (draft_makes.mono fun c hc => hc.serves r file) fun attempt => ?_)
        fun o => finish_serves r file o
      cases attempt with
      | error failed => exact .done _
      | ok d => exact publish_serves r file d

theorem documentFiles_serves (files : List Path) (c : Collector) :
    (documentFiles limits r files c).Makes fun call : Call =>
      ∃ file ∈ files, call.Serves r file := by
  induction files generalizing c with
  | nil => exact .done _
  | cons file files ih =>
    refine .bind ((documentFile_serves limits r file).mono fun call hcall =>
      ⟨file, List.mem_cons_self, hcall⟩) fun o => ?_
    exact (ih (c.collect o)).mono fun call ⟨other, hmem, hcall⟩ =>
      ⟨other, List.mem_cons_of_mem _ hmem, hcall⟩

/-- **A batch serves its files and writes its report**. -/
theorem run_makes (c : Collector) :
    (run limits r c).Makes fun call : Call =>
      (∃ file ∈ r.files, call.Serves r file) ∨ call.Reports r := by
  refine .bind ((documentFiles_serves limits.clamped r r.files c).mono fun call hcall => .inl hcall)
    fun collected => ?_
  dsimp only
  split
  · exact .done _
  · refine .bind (.bind (.perform (.inr rfl)) fun made => ?_) fun _ => .done _
    cases made with
    | error reason => exact .done _
    | ok done => exact .bind (.perform (.inr rfl)) fun _ => .done _

end Scholia.Batch

namespace Scholia.Service

open Scholia.Path

/-! ## Calls -/

/-- Whether a call keeps to a project and to a folder for documents. The folders that lead to that
one may be made. -/
def Call.Within (root out : Path) : Call → Prop
  | storage (.look path) => path = root
  | storage (.read path) => root.Holds path
  | storage (.write path _) => root.Holds path ∨ out.Holds path
  | storage (.makeFolders path) => path.components <+: out.components ∨ out.Holds path
  | exchange _ | time | announce _ _ => True

theorem overNetwork_within {α : Type} (root out : Path) (p : Program Model.network α) :
    (overNetwork p).Makes (Call.Within root out) :=
  p.makes_true.interpret fun _ _ => .perform trivial

/-- A folder that leads to a place behind another one leads to that one or is inside. -/
theorem prefix_or_holds {out p : Path} {names : List Component}
    (h : p.components <+: out.components ++ names) (hnames : ∀ c ∈ names, c.IsName) :
    p.components <+: out.components ∨ out.Holds p := by
  rcases List.prefix_or_prefix_of_prefix h (List.prefix_append _ names) with hlead | ⟨inner, hinner⟩
  · exact .inl hlead
  · rw [← hinner, List.prefix_append_right_inj] at h
    exact .inr ⟨inner, hinner.symm, fun c hc => hnames c (h.subset hc)⟩

/-- **The work on a file of the project keeps to the project and the output folder**. -/
theorem answerBatch_within {client : Model.Client} {root file : Path} {r : Batch.Request}
    (hfile : root.Holds file) (hplace : ∀ c ∈ (r.relative file).components, c.IsName)
    {c : Batch.Call} (h : c.Serves r file) :
    (answerBatch client c).Makes (Call.Within root r.outputFolder) := by
  cases c with
  | ask prompt => exact overNetwork_within root _ _
  | time => exact .perform trivial
  | announce file stage => exact .perform trivial
  | storage call =>
    refine .perform ?_
    cases call with
    | read path => exact (show path = file from h) ▸ hfile
    | look path => exact h.elim
    | makeFolders path =>
      rw [show path = _ from h]
      refine prefix_or_holds ?_ hplace
      rw [← Batch.components_documentBase _ hplace]
      exact parent?_lead _
    | write path content =>
      rcases h with rfl | rfl | rfl
      · exact .inl hfile
      · exact .inr (Batch.holds_withSuffix _ hplace (by decide) (by decide))
      · exact .inr (Batch.holds_withSuffix _ hplace (by decide) (by decide))

theorem isFileName_report : IsFileName Report.fileName :=
  ⟨by decide, by decide, by decide⟩

theorem holds_report (out : Path) : out.Holds (out.join ⟨Report.fileName⟩) := by
  have hnames : ∀ c ∈ (⟨Report.fileName⟩ : Path).components, c.IsName := by
    rw [isFileName_report.components]
    exact fun c hc => ⟨_, List.mem_singleton.1 hc⟩
  exact ⟨_, components_join_names hnames out, hnames⟩

theorem answerBatch_report {client : Model.Client} {root : Path} {r : Batch.Request}
    {c : Batch.Call} (h : c.Reports r) :
    (answerBatch client c).Makes (Call.Within root r.outputFolder) := by
  cases c with
  | ask prompt => exact h.elim
  | time => exact h.elim
  | announce file stage => exact h.elim
  | storage call =>
    refine .perform ?_
    cases call with
    | read path => exact h.elim
    | look path => exact h.elim
    | makeFolders path => exact .inl ((show path = _ from h) ▸ List.prefix_rfl)
    | write path content => exact .inr ((show path = _ from h) ▸ holds_report _)

/-! ## Names of files -/

namespace Generation

/-- A name that may lead out of a project. -/
def Escapes (name : Text) : Prop :=
  name = [] ∨ (⟨name⟩ : Path).hasRoot = true ∨ .above ∈ (⟨name⟩ : Path).components

instance (name : Text) : Decidable (Escapes name) :=
  inferInstanceAs (Decidable (_ ∨ _ ∨ _))

/-- The refusal of a name. -/
def refusal (name : Text) : Fault :=
  .badRequest ("file must be a relative path inside the project: ".toList ++ name)

theorem projectFile_eq (root : Path) (name : Text) :
    projectFile root name =
      if Escapes name then .error (refusal name) else .ok (root.join ⟨name⟩) := by
  have hiff : (((⟨name⟩ : Path).components.any leadsOut || name.isEmpty) = true) ↔ Escapes name := by
    rw [Bool.or_eq_true, List.any_eq_true, List.isEmpty_iff, or_comm, Escapes, ← root_mem_components]
    refine or_congr_right ⟨fun ⟨c, hc, hleads⟩ => ?_, fun h => ?_⟩
    · cases c with
      | root => exact .inl hc
      | above => exact .inr hc
      | current => cases hleads
      | name text => cases hleads
    · exact h.elim (fun h => ⟨_, h, rfl⟩) fun h => ⟨_, h, rfl⟩
  rw [projectFile]
  exact if_congr hiff rfl rfl

/-- **All names are taken, or one is refused**. -/
theorem mapM_projectFile (root : Path) (names : List Text) :
    ((∀ name ∈ names, ¬ Escapes name) ∧
      names.mapM (projectFile root) = .ok (names.map fun name => root.join ⟨name⟩)) ∨
    ∃ name ∈ names, Escapes name ∧ names.mapM (projectFile root) = .error (refusal name) := by
  induction names with
  | nil => exact .inl ⟨nofun, rfl⟩
  | cons name names ih =>
    rw [List.mapM_cons, projectFile_eq]
    by_cases hname : Escapes name
    · exact .inr ⟨name, List.mem_cons_self, hname, by rw [if_pos hname]; rfl⟩
    · rw [if_neg hname]
      rcases ih with ⟨hnames, heq⟩ | ⟨other, hmem, hescapes, heq⟩
      · refine .inl ⟨List.forall_mem_cons.2 ⟨hname, hnames⟩, ?_⟩
        rw [heq]
        rfl
      · refine .inr ⟨other, List.mem_cons_of_mem _ hmem, hescapes, ?_⟩
        rw [heq]
        rfl

/-- **A name that is taken is a place in the project**. -/
theorem relativeTo?_join (root : Path) (hroot : root.text ≠ []) {name : Text} (h : ¬ Escapes name) :
    root.Holds (root.join ⟨name⟩) ∧ ∃ place, relativeTo? root (root.join ⟨name⟩) = some place ∧
      ∀ c ∈ place.components, c.IsName := by
  simp only [Escapes, not_or, Bool.not_eq_true] at h
  obtain ⟨-, hfrom, habove⟩ := h
  have hcomponents := components_join hroot hfrom
  have hnames : ∀ c ∈ (⟨name⟩ : Path).components.filter (· != .current), c.IsName := by
    intro c hc
    obtain ⟨hmem, hcurrent⟩ := List.mem_filter.1 hc
    cases c with
    | root => rw [root_mem_components.1 hmem] at hfrom; cases hfrom
    | current => cases hcurrent
    | above => exact absurd hmem habove
    | name text => exact ⟨text, rfl⟩
  obtain ⟨place, hplace, hrest⟩ :=
    relativeTo?_of_lead (hcomponents ▸ List.prefix_append root.components _)
  rw [hcomponents, List.drop_left] at hrest
  exact ⟨⟨_, hcomponents, hnames⟩, place, hplace, hrest ▸ hnames⟩

/-! ## Runs -/

theorem run_eq (g : Generation) (s : State) :
    g.run s = storage (.look ⟨g.projectPath⟩) >>= fun entry =>
      match g.prepare s.settings entry with
      | .error fault => return (.ofFault fault, s)
      | .ok (client, files) => do
        let (outcomes, collector) ← withClient client
          (Batch.run s.settings.limits (g.batch s.settings files) s.collector)
        return (answer outcomes, { s with collector }) :=
  rfl

/-- The files of a request with names are taken before a client is made. -/
theorem prepare_eq {g : Generation} {names : List Text} (hnames : g.files = some names)
    (s : Settings) (entries : List (Text × Storage.Entry)) :
    g.prepare s (some (.folder entries)) = do
      let files ← names.mapM (projectFile ⟨g.projectPath⟩)
      let client ← s.client.mapError .ofModel
      return (client, files) := by
  rw [prepare, chooseFiles, hnames]

/-- A refused name ends the run. -/
theorem run_refused {g : Generation} {names : List Text} (hnames : g.files = some names)
    {name : Text} (h : names.mapM (projectFile ⟨g.projectPath⟩) = .error (refusal name))
    {entries : List (Text × Storage.Entry)} {s : State} {rest : List (Program.Event interface)}
    {result : Response × State} :
    (g.run s).Runs (⟨.storage (.look ⟨g.projectPath⟩), some (.folder entries)⟩ :: rest) result ↔
      rest = [] ∧ result = (.ofFault (refusal name), s) := by
  have hprepare : g.prepare s.settings (some (.folder entries)) = .error (refusal name) := by
    rw [prepare_eq hnames, h]
    rfl
  rw [run_eq, Program.runs_bind]
  constructor
  · rintro ⟨first, entry, second, hsplit, hlook, hafter⟩
    obtain rfl := Program.runs_perform.1 hlook
    obtain ⟨hentry, rfl⟩ := List.cons.inj hsplit
    cases hentry
    rw [hprepare] at hafter
    exact Program.runs_pure.1 hafter
  · rintro ⟨rfl, rfl⟩
    refine ⟨_, some (.folder entries), [], rfl, Program.runs_perform.2 rfl, ?_⟩
    rw [hprepare]
    exact Program.runs_pure.2 ⟨rfl, rfl⟩

/-- A batch works on its files under the names that they have in the project. -/
theorem relative_batch (g : Generation) (s : Settings) (files : List Path) {file place : Path}
    (h : relativeTo? ⟨g.projectPath⟩ file = some place) :
    (g.batch s files).relative file = place := by
  rw [Batch.Request.relative, batch, Option.bind_some, h]

/-- The files that are prepared are the files named. -/
theorem files_of_prepare {g : Generation} {names : List Text} (hnames : g.files = some names)
    (h : ∀ name ∈ names, ¬ Escapes name) {s : Settings} {entry : Option Storage.Entry}
    {client : Model.Client} {files : List Path} (hprepare : g.prepare s entry = .ok (client, files)) :
    files = names.map fun name => (⟨g.projectPath⟩ : Path).join ⟨name⟩ := by
  rcases entry with - | (content | target | entries)
  · cases hprepare
  · cases hprepare
  · cases hprepare
  · rw [prepare_eq hnames, bind_eq_ok] at hprepare
    obtain ⟨files', hmapM, hrest⟩ := hprepare
    obtain ⟨client', -, hend⟩ := bind_eq_ok.1 hrest
    cases hend
    rcases mapM_projectFile ⟨g.projectPath⟩ names with ⟨-, heq⟩ | ⟨name, hmem, hescapes, -⟩
    · exact Except.ok.inj (hmapM.symm.trans heq)
    · exact absurd hescapes (h name hmem)

/-- **A run on places in a project keeps to the project and the output folder**. -/
theorem run_within {g : Generation} {names : List Text} (hnames : g.files = some names)
    (hroot : g.projectPath ≠ []) (h : ∀ name ∈ names, ¬ Escapes name) (s : State) :
    (g.run s).Makes (Call.Within ⟨g.projectPath⟩ (g.outputPath s.settings)) := by
  rw [run_eq]
  refine .bind (.perform rfl) fun entry => ?_
  cases hprepare : g.prepare s.settings entry with
  | error fault => exact .done _
  | ok prepared =>
    obtain ⟨client, files⟩ := prepared
    refine .bind ((Batch.run_makes _ _ _).interpret fun c hc => ?_) fun _ => .done _
    rcases hc with ⟨file, hfile, hserves⟩ | hreports
    · have hfile : file ∈ files := hfile
      rw [files_of_prepare hnames h hprepare] at hfile
      obtain ⟨name, hname, rfl⟩ := List.mem_map.1 hfile
      obtain ⟨hholds, place, hplace, hinside⟩ :=
        relativeTo?_join ⟨g.projectPath⟩ hroot (h name hname)
      refine answerBatch_within (r := g.batch s.settings files) hholds ?_ hserves
      rw [relative_batch g s.settings files hplace]
      exact hinside
    · exact answerBatch_report (r := g.batch s.settings files) hreports

/-- A folder of the storage has a path. -/
theorem path_of_isFolder {m : Storage.Memory} {p : Path} (h : m.isFolder p = true) :
    p.text ≠ [] ∧ ∃ entries, m.look p = some (.folder entries) := by
  constructor
  · intro hempty
    simp [Storage.Memory.isFolder, Storage.Memory.look, Storage.Memory.locate,
      Storage.Memory.pathFault?, hempty] at h
  · rw [Storage.Memory.isFolder] at h
    split at h
    · exact ⟨_, ‹_›⟩
    · cases h

/-- **A request cannot be steered out of its project**. If a name may lead out of it, the run looks
at the project's folder, refuses a name like that, and that is all. If none does, the files are the
places of the names; each is found again behind the project's folder, with nothing but names; its
documents have nothing but these behind any output folder; and the run keeps to the two folders. -/
theorem run_inside {g : Generation} {names : List Text} (hnames : g.files = some names)
    {m : Storage.Memory} (hfolder : m.isFolder ⟨g.projectPath⟩ = true) (s : State) :
    ((∃ name ∈ names, Escapes name) →
      ∃ name ∈ names, Escapes name ∧ ∀ rest result,
        (g.run s).Runs
            (⟨.storage (.look ⟨g.projectPath⟩), m.look ⟨g.projectPath⟩⟩ :: rest) result ↔
          rest = [] ∧ result = (.ofFault (refusal name), s)) ∧
    ((∀ name ∈ names, ¬ Escapes name) →
      ∃ files, files = names.map (fun name => (⟨g.projectPath⟩ : Path).join ⟨name⟩) ∧
        g.chooseFiles s.settings (m.look ⟨g.projectPath⟩) = .ok files ∧
        (∀ file ∈ files, ∃ place, relativeTo? ⟨g.projectPath⟩ file = some place ∧
          (g.batch s.settings files).relative file = place ∧
          (∀ c ∈ place.components, c.IsName) ∧
          ∀ out, (Batch.documentBase out place).components = out.components ++ place.components) ∧
        (g.run s).Makes (Call.Within ⟨g.projectPath⟩ (g.outputPath s.settings))) := by
  obtain ⟨hroot, entries, hlook⟩ := path_of_isFolder hfolder
  rw [hlook]
  refine ⟨fun ⟨name, hmem, hescapes⟩ => ?_, fun h => ?_⟩
  · rcases mapM_projectFile ⟨g.projectPath⟩ names with ⟨hnone, -⟩ | ⟨first, hfirst, hrefused, heq⟩
    · exact absurd hescapes (hnone name hmem)
    · exact ⟨first, hfirst, hrefused, fun rest result => run_refused hnames heq⟩
  · refine ⟨_, rfl, ?_, fun file hfile => ?_, run_within hnames hroot h s⟩
    · rcases mapM_projectFile ⟨g.projectPath⟩ names with ⟨-, heq⟩ | ⟨name, hmem, hescapes, -⟩
      · rw [chooseFiles, hnames]
        exact heq
      · exact absurd hescapes (h name hmem)
    · obtain ⟨name, hname, rfl⟩ := List.mem_map.1 hfile
      obtain ⟨-, place, hplace, hinside⟩ :=
        relativeTo?_join ⟨g.projectPath⟩ hroot (h name hname)
      exact ⟨place, hplace, relative_batch g s.settings _ hplace, hinside,
        fun out => Batch.components_documentBase out hinside⟩

/-- A request for files of these names, in a project of its own. -/
def sampleRequest (names : List Text) : Generation :=
  ⟨"/p".toList, some names, .quick, none, .standard, false⟩

def sampleStorage : Storage.Memory :=
  ⟨.folder [("p".toList, .folder [])]⟩

theorem isFolder_sampleStorage : sampleStorage.isFolder ⟨"/p".toList⟩ = true := by
  have hparts : parts "/p".toList = [[], ['p']] := rfl
  have hfault : Storage.Memory.pathFault? ⟨"/p".toList⟩ = none := rfl
  have hnamed : Storage.Entry.named ['p'] [("p".toList, .folder [])] = some (.folder []) := rfl
  have hshort : ¬ Text.width ['p'] > Storage.maxName := by decide
  rw [Storage.Memory.isFolder, Storage.Memory.look, Storage.Memory.locate, hfault]
  simp only [hparts, sampleStorage, Storage.locate, Storage.Entry.get?, hnamed, hshort, isComponent]
  rfl

theorem run_inside_sampleRequest :
    sampleStorage.isFolder ⟨"/p".toList⟩ = true ∧
      (∀ rest result,
        ((sampleRequest ["a.py".toList, "b/../../c.py".toList]).run ⟨.standard, .empty⟩).Runs
            (⟨.storage (.look ⟨"/p".toList⟩), sampleStorage.look ⟨"/p".toList⟩⟩ :: rest) result ↔
          rest = [] ∧ result = (.ofFault (refusal "b/../../c.py".toList), ⟨.standard, .empty⟩)) ∧
      ((sampleRequest ["a.py".toList, "./b//c.py".toList]).run ⟨.standard, .empty⟩).Makes
        (Call.Within ⟨"/p".toList⟩ ⟨"/p/.docs".toList⟩) := by
  have hfolder := isFolder_sampleStorage
  refine ⟨hfolder, fun rest result => ?_, ?_⟩
  · obtain ⟨name, hmem, hescapes, hruns⟩ :=
      (run_inside (g := sampleRequest ["a.py".toList, "b/../../c.py".toList]) rfl hfolder
        ⟨.standard, .empty⟩).1 ⟨"b/../../c.py".toList, by simp, by decide +kernel⟩
    have hname : name = "b/../../c.py".toList := by
      rcases List.mem_cons.1 hmem with rfl | hmem
      · exact absurd hescapes (by decide +kernel)
      · exact List.mem_singleton.1 hmem
    rw [hname] at hruns
    exact hruns rest result
  · obtain ⟨files, -, -, -, hmakes⟩ :=
      (run_inside (g := sampleRequest ["a.py".toList, "./b//c.py".toList]) rfl hfolder
        ⟨.standard, .empty⟩).2 (by decide +kernel)
    exact hmakes

end Generation

end Scholia.Service
