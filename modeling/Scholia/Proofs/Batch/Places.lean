import Scholia.Batch.Run
import Scholia.Proofs.Path.Components
/-!
# Where documents are written

The documents of a file stand in the output folder at the file's place under the root. The root of
files without a project is the deepest folder that holds them all: nothing deeper leads to all of
them, and each file is its place joined to it (`commonRoot_deepest`).

Behind that folder two files have two places, so no document is written over another. But files from
the root and files from the current directory have no folder in common. Then a file's place is its
bare name, and files of one name share their documents (`documents_apart`).
-/

namespace Scholia.Batch

open Scholia.Path

/-! ## The base of documents -/

/-- **Documents stand in the output folder, at the file's place**. -/
theorem components_documentBase (out : Path) {place : Path}
    (h : ∀ c ∈ place.components, c.IsName) :
    (documentBase out place).components = out.components ++ place.components := by
  by_cases hne : place.components = []
  · obtain rfl : place = ⟨[]⟩ := by rw [← text_eq_nil hne]
    have hempty : ∀ c ∈ (⟨[]⟩ : Path).components, c.IsName := h
    rw [show documentBase out ⟨[]⟩ = (out.join ⟨[]⟩).join ⟨[]⟩ from rfl,
      components_join_names hempty, components_join_names hempty, List.append_assoc]
    rfl
  · obtain ⟨text, htext⟩ := exists_fileName? hne h
    obtain ⟨hname, folder, hfolder, hplace⟩ := parent?_of_fileName? htext
    have hlast : ∀ c ∈ (⟨text⟩ : Path).components, c.IsName := by
      rw [hname.components]
      exact fun c hc => ⟨text, List.mem_singleton.1 hc⟩
    rw [documentBase, hfolder, htext, Option.getD_some, Option.getD_some,
      components_join_names hlast, components_join_names fun c hc => h c (by simp [hplace, hc]),
      hname.components, hplace, List.append_assoc]

/-- What is added to a joined path is added to the path that it was joined with. -/
theorem join_append (p : Path) {name suffix : Text} (hname : (⟨name⟩ : Path).hasRoot = false)
    (hsuffix : (⟨name ++ suffix⟩ : Path).hasRoot = false) :
    (⟨(p.join ⟨name⟩).text ++ suffix⟩ : Path) = p.join ⟨name ++ suffix⟩ := by
  rw [join, join, hname, hsuffix, if_neg Bool.false_ne_true, if_neg Bool.false_ne_true]
  split <;> simp

theorem isFileName_append {name suffix : Text} (hname : '/' ∉ name) (hsuffix : '/' ∉ suffix)
    (hlong : 2 < suffix.length) : IsFileName (name ++ suffix) := by
  have hlength : 2 < (name ++ suffix).length := by
    rw [List.length_append]
    omega
  have hne : ∀ t : Text, t.length ≤ 2 → name ++ suffix ≠ t := fun t ht he => by
    rw [he] at hlength
    omega
  refine ⟨?_, hne _ (Nat.le_refl 2), ?_⟩
  · simp only [isComponent, Bool.not_eq_true', Bool.or_eq_false_iff, beq_eq_false_iff_ne,
      List.isEmpty_eq_false_iff]
    exact ⟨hne _ (by simp), hne _ (by simp)⟩
  · rw [List.mem_append, not_or]
    exact ⟨hname, hsuffix⟩

/-- **A document stands inside the output folder**. -/
theorem holds_withSuffix (out : Path) {place : Path} (h : ∀ c ∈ place.components, c.IsName)
    {suffix : String} (hsuffix : '/' ∉ suffix.toList) (hlong : 2 < suffix.toList.length) :
    out.Holds (withSuffix (documentBase out place) suffix) := by
  have hfolder : ∀ c ∈ (place.parent?.getD ⟨[]⟩).components, c.IsName := fun c hc =>
    h c ((parent?_lead place).subset hc)
  have hslash : '/' ∉ place.fileName?.getD [] := by
    cases hname : place.fileName? with
    | none => exact List.not_mem_nil
    | some name => exact (parent?_of_fileName? hname).1.not_slash
  have hname := isFileName_append hslash hsuffix hlong
  have hroot : ∀ text : Text, '/' ∉ text → (⟨text⟩ : Path).hasRoot = false := by
    intro text htext
    cases text with
    | nil => rfl
    | cons c text =>
      have hc : c ≠ '/' := fun he => htext (he ▸ List.mem_cons_self)
      simpa [hasRoot] using hc
  have hlast : ∀ c ∈ (⟨place.fileName?.getD [] ++ suffix.toList⟩ : Path).components, c.IsName := by
    rw [hname.components]
    exact fun c hc => ⟨_, List.mem_singleton.1 hc⟩
  refine ⟨(place.parent?.getD ⟨[]⟩).components ++ [.name (place.fileName?.getD [] ++ suffix.toList)],
    ?_, ?_⟩
  · rw [withSuffix, documentBase, join_append _ (hroot _ hslash) (hroot _ hname.not_slash),
      components_join_names hlast, components_join_names hfolder, hname.components,
      List.append_assoc]
  · rw [← hname.components]
    exact fun c hc => (List.mem_append.1 hc).elim (hfolder c) (hlast c)

/-! ## The deepest folder that holds all files -/

theorem sharedLead_lead (cs ds : List Component) :
    sharedLead cs ds <+: cs ∧ sharedLead cs ds <+: ds := by
  fun_induction sharedLead cs ds with
  | case1 r d s ih =>
    exact ⟨(List.prefix_cons_inj d).2 ih.1, (List.prefix_cons_inj d).2 ih.2⟩
  | case2 => exact ⟨ List.nil_prefix, List.nil_prefix⟩
  | case3 => exact ⟨ List.nil_prefix, List.nil_prefix⟩

theorem sharedLeads_lead {leads : List (List Component)} {cs : List Component}
    (h : cs ∈ leads) : sharedLeads leads <+: cs := by
  have hfold : ∀ (rest : List (List Component)) (first : List Component),
      rest.foldl sharedLead first <+: first ∧ ∀ cs ∈ rest, rest.foldl sharedLead first <+: cs := by
    intro rest
    induction rest with
    | nil => exact fun first => ⟨List.prefix_rfl, nofun⟩
    | cons cs rest ih =>
      intro first
      obtain ⟨hfirst, hrest⟩ := ih (sharedLead first cs)
      refine ⟨hfirst.trans (sharedLead_lead first cs).1, fun ds hds => ?_⟩
      rcases List.mem_cons.1 hds with rfl | hds
      · exact hfirst.trans (sharedLead_lead first ds).2
      · exact hrest ds hds
  cases leads with
  | nil => cases h
  | cons first rest =>
    rcases List.mem_cons.1 h with rfl | h
    · exact (hfold rest cs).1
    · exact (hfold rest first).2 cs h

/-- **What two lists begin with is shared**. -/
theorem lead_sharedLead {cs ds es : List Component} (hc : es <+: cs) (hd : es <+: ds) :
    es <+: sharedLead cs ds := by
  induction es generalizing cs ds with
  | nil => exact List.nil_prefix
  | cons e es ih =>
    obtain ⟨more, rfl⟩ := hc
    obtain ⟨more', rfl⟩ := hd
    rw [List.cons_append, List.cons_append, sharedLead, if_pos rfl]
    exact (List.prefix_cons_inj e).2 (ih (List.prefix_append _ _) (List.prefix_append _ _))

/-- **What all lists begin with is shared**. -/
theorem lead_sharedLeads {leads : List (List Component)} {es : List Component} (hne : leads ≠ [])
    (h : ∀ cs ∈ leads, es <+: cs) : es <+: sharedLeads leads := by
  have hfold : ∀ (rest : List (List Component)) (first : List Component),
      es <+: first → (∀ cs ∈ rest, es <+: cs) → es <+: rest.foldl sharedLead first := by
    intro rest
    induction rest with
    | nil => exact fun first hfirst _ => hfirst
    | cons cs rest ih =>
      intro first hfirst hrest
      exact ih (sharedLead first cs) (lead_sharedLead hfirst (hrest cs List.mem_cons_self))
        fun ds hds => hrest ds (List.mem_cons_of_mem _ hds)
  cases leads with
  | nil => exact absurd rfl hne
  | cons first rest =>
    exact hfold rest first (h first List.mem_cons_self) fun cs hcs =>
      h cs (List.mem_cons_of_mem _ hcs)

/-- A file that is named without dots, from the root or not. -/
structure IsFile (file : Path) : Prop where
  direct : ∀ c ∈ file.components, c ≠ .current ∧ c ≠ .above
  named : ∃ name, file.fileName? = some name

theorem IsFile.components {file : Path} (h : IsFile file) :
    ∃ name, file.fileName? = some name ∧ IsFileName name ∧
      file.components = folderComponents file ++ [.name name] := by
  obtain ⟨name, hname⟩ := h.named
  obtain ⟨hfile, folder, hfolder, hcomponents⟩ := parent?_of_fileName? hname
  exact ⟨name, hname, hfile, by rw [folderComponents, hfolder]; exact hcomponents⟩

/-- A file has a folder. -/
theorem IsFile.parent {file : Path} (h : IsFile file) : file.parent?.isSome = true := by
  obtain ⟨name, hname⟩ := h.named
  obtain ⟨-, folder, hfolder, -⟩ := parent?_of_fileName? hname
  rw [hfolder]
  rfl

theorem IsFile.isName_of_mem {file : Path} (h : IsFile file) {c : Component}
    (hc : c ∈ file.components) (hroot : c ≠ .root) : c.IsName := by
  obtain ⟨hcurrent, habove⟩ := h.direct c hc
  cases c with
  | root => exact absurd rfl hroot
  | current => exact absurd rfl hcurrent
  | above => exact absurd rfl habove
  | name text => exact ⟨text, rfl⟩

variable {files : List Path}

/-- A path with a folder is from the root exactly if the root leads to its folder. -/
theorem hasRoot_iff_folder {file : Path} (h : file.parent?.isSome = true) :
    file.hasRoot = true ↔ [.root] <+: folderComponents file := by
  obtain ⟨folder, hfolder⟩ := Option.isSome_iff_exists.1 h
  rw [folderComponents, hfolder, Option.getD_some, ← hasRoot_iff_lead, hasRoot_parent? hfolder]

/-- **The shared folder has the components that all folders share**. -/
theorem components_commonRoot {root : Path} (h : commonRoot files = some root) :
    root.components = sharedLeads (files.map folderComponents) := by
  rw [commonRoot] at h
  split at h
  · cases h
  · next hnone =>
    obtain rfl := Option.some.inj h
    cases hfiles : files with
    | nil => simp [hfiles] at hnone
    | cons file rest =>
      rw [← hfiles]
      refine components_ofComponents fun before c after hsplit => ?_
      have hlead : sharedLeads (files.map folderComponents) <+: folderComponents file :=
        sharedLeads_lead (List.mem_map_of_mem (by simp [hfiles]))
      obtain ⟨more, hmore⟩ := hlead
      rw [hsplit, List.append_assoc, List.cons_append] at hmore
      exact stands_of_components hmore.symm

/-- **The shared folder holds all files**, and is empty only if no file is from the root. -/
theorem commonRoot_some {root : Path} (h : commonRoot files = some root) :
    (∀ file ∈ files, root.components <+: folderComponents file) ∧
      (root.components = [] → ∀ file ∈ files, file.hasRoot = false) := by
  rw [components_commonRoot h]
  refine ⟨fun file hfile => sharedLeads_lead (List.mem_map_of_mem hfile),
    fun hempty file hfile => ?_⟩
  rw [commonRoot] at h
  split at h
  · cases h
  · next hnone =>
    simp only [hempty, List.isEmpty_nil, Bool.true_and, Bool.or_eq_true, List.any_eq_true, not_or,
      not_exists, not_and, Bool.not_eq_true] at hnone
    exact hnone.2 file hfile

/-- **Files have a folder in common unless some are from the root and some are not**. -/
theorem commonRoot_eq_none_iff (hne : files ≠ [])
    (hparent : ∀ file ∈ files, file.parent?.isSome = true) :
    commonRoot files = none ↔
      ¬ ((∀ file ∈ files, file.hasRoot = true) ∨ ∀ file ∈ files, file.hasRoot = false) := by
  constructor
  · intro hnone hall
    rw [commonRoot] at hnone
    split at hnone
    · next hcond =>
      simp only [List.isEmpty_iff, Bool.or_eq_true, hne, false_or, Bool.and_eq_true,
        List.any_eq_true] at hcond
      obtain ⟨hempty, file, hfile, hroot⟩ := hcond
      rcases hall with hall | hall
      · have hlead : [.root] <+: sharedLeads (files.map folderComponents) := by
          refine lead_sharedLeads (by simpa using hne) fun cs hcs => ?_
          obtain ⟨file, hfile, rfl⟩ := List.mem_map.1 hcs
          exact (hasRoot_iff_folder (hparent file hfile)).1 (hall file hfile)
        rw [hempty] at hlead
        exact absurd (List.prefix_nil.1 hlead) (List.cons_ne_nil _ _)
      · rw [hall file hfile] at hroot
        cases hroot
    · cases hnone
  · intro hmixed
    cases hroot : commonRoot files with
    | none => rfl
    | some root =>
      obtain ⟨hlead, hempty⟩ := commonRoot_some hroot
      refine absurd ?_ hmixed
      cases hcs : root.components with
      | nil => exact .inr (hempty hcs)
      | cons c r =>
        rw [hcs] at hlead
        have hfirst : ∀ file ∈ files, [c] <+: folderComponents file := fun file hfile =>
          List.IsPrefix.trans ⟨r, rfl⟩ (hlead file hfile)
        by_cases hc : c = .root
        · subst hc
          exact .inl fun file hfile =>
            (hasRoot_iff_folder (hparent file hfile)).2 (hfirst file hfile)
        · refine .inr fun file hfile => Bool.eq_false_iff.2 fun hfrom => ?_
          have hfront := (hasRoot_iff_folder (hparent file hfile)).1 hfrom
          exact hc (List.cons.inj
            ((List.prefix_of_prefix_length_le (hfirst file hfile) hfront (Nat.le_refl 1)).eq_of_length
              rfl)).1

/-- A folder that holds all files, at which each of them can be taken apart and joined again, and
no deeper one does. -/
structure IsDeepest (files : List Path) (root : Path) : Prop where
  leads : ∀ file ∈ files, ∀ folder, file.parent? = some folder →
    root.components <+: folder.components
  longest : ∀ cs : List Component,
    (∀ file ∈ files, ∀ folder, file.parent? = some folder → cs <+: folder.components) →
    cs <+: root.components
  restored : ∀ file ∈ files, ∃ place, relativeTo? root file = some place ∧
    (∀ r : Request, r.projectRoot = some root → r.relative file = place) ∧
    (root.join place).components = file.components

/-- **The shared folder is the deepest one**. Paths that have folders share one exactly if none of
them is from the root or all are. Its components lead to each of the folders, whatever leads to all
of them leads to it, and each path is its place under that folder joined to the folder. -/
theorem commonRoot_deepest (hne : files ≠ [])
    (hparent : ∀ file ∈ files, file.parent?.isSome = true) :
    ((∃ root, commonRoot files = some root) ↔
      (∀ file ∈ files, file.hasRoot = false) ∨ ∀ file ∈ files, file.hasRoot = true) ∧
    ∀ root, commonRoot files = some root → IsDeepest files root := by
  have hfolder : ∀ file ∈ files, ∃ folder, file.parent? = some folder ∧
      folderComponents file = folder.components := by
    intro file hfile
    obtain ⟨folder, hfolder⟩ := Option.isSome_iff_exists.1 (hparent file hfile)
    exact ⟨folder, hfolder, by rw [folderComponents, hfolder]; rfl⟩
  refine ⟨?_, fun root hroot => ⟨?_, ?_, ?_⟩⟩
  · rw [← Option.isSome_iff_exists, ← Option.ne_none_iff_isSome, ne_eq,
      commonRoot_eq_none_iff hne hparent, not_not]
    exact Or.comm
  · intro file hfile folder hsome
    obtain ⟨folder', hsome', hcomponents⟩ := hfolder file hfile
    obtain rfl := Option.some.inj (hsome.symm.trans hsome')
    exact hcomponents ▸ (commonRoot_some hroot).1 file hfile
  · intro cs hcs
    rw [components_commonRoot hroot]
    refine lead_sharedLeads (by simpa using hne) fun ds hds => ?_
    obtain ⟨file, hfile, rfl⟩ := List.mem_map.1 hds
    obtain ⟨folder, hsome, hcomponents⟩ := hfolder file hfile
    exact hcomponents ▸ hcs file hfile folder hsome
  · intro file hfile
    obtain ⟨hlead, hempty⟩ := commonRoot_some hroot
    obtain ⟨place, hplace, hjoin⟩ := components_join_of_lead
      ((hlead file hfile).trans (parent?_lead file)) fun he => hempty he file hfile
    refine ⟨place, hplace, fun r hr => ?_, hjoin⟩
    rw [Request.relative, hr, Option.bind_some, hplace]

/-- Paths with dots, of which one leads back to where it came from. -/
def dottedFiles : List Path :=
  [⟨"./a/b/x.py".toList⟩, ⟨"./a//c/./y.py".toList⟩, ⟨"./a/..".toList⟩]

theorem commonRoot_deepest_dottedFiles :
    (dottedFiles ≠ [] ∧ ∀ file ∈ dottedFiles, file.parent?.isSome = true) ∧
      ∃ root, commonRoot dottedFiles = some root ∧ root.text = "./a".toList ∧
        IsDeepest dottedFiles root := by
  have hne : dottedFiles ≠ [] := List.cons_ne_nil _ _
  have hparent : ∀ file ∈ dottedFiles, file.parent?.isSome = true := by decide
  have hroot : commonRoot dottedFiles = some ⟨"./a".toList⟩ := rfl
  exact ⟨⟨hne, hparent⟩, _, hroot, rfl, (commonRoot_deepest hne hparent).2 _ hroot⟩

/-! ## Places of files -/

/-- A request as it is worked on without a project. -/
def Request.alone (r : Request) : Request :=
  { r with projectRoot := commonRoot r.files }

theorem runAlone_eq (limits : Limits) (r : Request) :
    runAlone limits r = do return (← run limits r.alone .empty).1 :=
  rfl

variable (r : Request)

/-- Under the shared folder, a file's place is what its path has behind that folder. -/
theorem components_relative {root file : Path} (hroot : commonRoot r.files = some root)
    (hmem : file ∈ r.files) (hfile : IsFile file) :
    (r.alone.relative file).components = file.components.drop root.components.length ∧
      ∀ c ∈ (r.alone.relative file).components, c.IsName := by
  obtain ⟨hlead, hempty⟩ := commonRoot_some hroot
  obtain ⟨name, -, -, hcomponents⟩ := hfile.components
  have hfolder : root.components <+: file.components :=
    (hlead file hmem).trans ⟨[.name name], hcomponents.symm⟩
  obtain ⟨place, hplace, hrest⟩ := relativeTo?_of_lead hfolder
  have hrelative : r.alone.relative file = place := by
    rw [Request.relative, Request.alone, hroot, Option.bind_some, hplace]
  rw [hrelative]
  refine ⟨hrest, fun c hc => ?_⟩
  rw [hrest] at hc
  refine hfile.isName_of_mem (List.mem_of_mem_drop hc) ?_
  rintro rfl
  -- the root is the first component, so it is dropped
  obtain ⟨before, after, hsplit⟩ := List.append_of_mem hc
  have hwhole : file.components =
      (file.components.take root.components.length ++ before) ++ .root :: after := by
    rw [List.append_assoc, ← hsplit, List.take_append_drop]
  have hfront := eq_nil_of_components hwhole
  obtain ⟨more, hmore⟩ := hfolder
  rw [← hmore, List.take_left, List.append_eq_nil_iff] at hfront
  have hnot := hempty hfront.1 file hmem
  rw [root_mem_components.1 (List.mem_of_mem_drop hc)] at hnot
  cases hnot

/-- **Documents of different files stand at different places**, under a shared folder. -/
theorem same_documentBase {root p q : Path} (hroot : commonRoot r.files = some root)
    (hp : p ∈ r.files) (hq : q ∈ r.files) (hfile : IsFile p) (hfile' : IsFile q) :
    (documentBase r.outputFolder (r.alone.relative p)).same
      (documentBase r.outputFolder (r.alone.relative q)) = p.same q := by
  obtain ⟨hplace, hnames⟩ := components_relative r hroot hp hfile
  obtain ⟨hplace', hnames'⟩ := components_relative r hroot hq hfile'
  have hlead : ∀ {f : Path}, f ∈ r.files → IsFile f → root.components <+: f.components :=
    fun {f} hf hfile => by
      obtain ⟨name, -, -, hcomponents⟩ := hfile.components
      exact ((commonRoot_some hroot).1 f hf).trans ⟨[.name name], hcomponents.symm⟩
  obtain ⟨more, hmore⟩ := hlead hp hfile
  obtain ⟨more', hmore'⟩ := hlead hq hfile'
  rw [Bool.eq_iff_iff, same, same, beq_iff_eq, beq_iff_eq, components_documentBase _ hnames,
    components_documentBase _ hnames', hplace, hplace', ← hmore, ← hmore', List.drop_left,
    List.drop_left, List.append_cancel_left_eq, List.append_cancel_left_eq]

/-- Without a shared folder, documents stand at one place if the files have one name. -/
theorem same_documentBase_of_none {p q : Path} (hroot : commonRoot r.files = none)
    (hfile : IsFile p) (hfile' : IsFile q) :
    (documentBase r.outputFolder (r.alone.relative p)).same
        (documentBase r.outputFolder (r.alone.relative q)) = true ↔ p.fileName? = q.fileName? := by
  have hbase : ∀ {f : Path}, IsFile f → ∃ name, f.fileName? = some name ∧
      (documentBase r.outputFolder (r.alone.relative f)).components =
        r.outputFolder.components ++ [.name name] := fun {f} hfile => by
    obtain ⟨name, hname, htext, -⟩ := hfile.components
    have hplace : r.alone.relative f = ⟨name⟩ := by
      rw [Request.relative, Request.alone, hroot, Option.bind_none, hname]
    refine ⟨name, hname, ?_⟩
    rw [hplace, components_documentBase, htext.components]
    rw [htext.components]
    exact fun c hc => ⟨name, List.mem_singleton.1 hc⟩
  obtain ⟨name, hname, hplace⟩ := hbase hfile
  obtain ⟨name', hname', hplace'⟩ := hbase hfile'
  rw [same, beq_iff_eq, hplace, hplace', hname, hname', List.append_cancel_left_eq]
  simp

/-- **When documents of different files stand at different places**: if all files are from the root,
if none is, or if no two have one name. -/
theorem documents_apart (hfiles : ∀ file ∈ r.files, IsFile file)
    (hdifferent : r.files.Pairwise fun p q => p.same q = false) :
    (r.files.map fun file => documentBase r.outputFolder (r.alone.relative file)).Pairwise
        (fun p q => p.same q = false) ↔
      (∀ file ∈ r.files, file.hasRoot = true) ∨ (∀ file ∈ r.files, file.hasRoot = false) ∨
        (r.files.map Path.fileName?).Nodup := by
  by_cases hne : r.files = []
  · simp [hne]
  have hnone := commonRoot_eq_none_iff hne fun file hfile => (hfiles file hfile).parent
  rw [List.pairwise_map, List.nodup_iff_pairwise_ne, List.pairwise_map, ← or_assoc]
  cases hroot : commonRoot r.files with
  | some root =>
    refine iff_of_true (hdifferent.imp_of_mem fun {p q} hp hq hpq => ?_) (.inl ?_)
    · rw [same_documentBase r hroot hp hq (hfiles p hp) (hfiles q hq), hpq]
    · exact not_not.1 fun hmixed => Option.some_ne_none root (hroot.symm.trans (hnone.2 hmixed))
  | none =>
    rw [or_iff_right (hnone.1 hroot)]
    refine List.Pairwise.iff_of_mem fun {p q} hp hq => ?_
    rw [ne_eq, ← same_documentBase_of_none r hroot (hfiles p hp) (hfiles q hq), Bool.not_eq_true]

/-- A request for quick documents of these files. -/
def quickRequest (files : List Path) : Request :=
  ⟨none, files, .quick, ⟨"out".toList⟩, .standard, false⟩

/-- Three files from the root, two of one name. -/
def rootedFiles : List Path :=
  [⟨"/x/a.py".toList⟩, ⟨"/x/y/a.py".toList⟩, ⟨"/x/b.py".toList⟩]

theorem isFile_rootedFiles : ∀ file ∈ rootedFiles, IsFile file := by
  intro file hfile
  simp only [rootedFiles, List.mem_cons, List.not_mem_nil, or_false] at hfile
  rcases hfile with rfl | rfl | rfl
  · exact ⟨by decide, "a.py".toList, by decide⟩
  · exact ⟨by decide, "a.py".toList, by decide⟩
  · exact ⟨by decide, "b.py".toList, by decide⟩

theorem documents_apart_rootedFiles :
    rootedFiles.Pairwise (fun p q => p.same q = false) ∧
      (rootedFiles.map fun file => documentBase (quickRequest rootedFiles).outputFolder
        ((quickRequest rootedFiles).alone.relative file)).Pairwise (fun p q => p.same q = false) := by
  have hdifferent : rootedFiles.Pairwise (fun p q => p.same q = false) := by decide +kernel
  exact ⟨hdifferent, (documents_apart (quickRequest rootedFiles) isFile_rootedFiles hdifferent).2
    (.inl (by decide +kernel))⟩

/-- Two files of one name, one of them from the root. -/
def mixedFiles : List Path :=
  [⟨"/x/a.py".toList⟩, ⟨"y/a.py".toList⟩]

theorem documents_shared_mixedFiles :
    (∀ file ∈ mixedFiles, IsFile file) ∧ mixedFiles.Pairwise (fun p q => p.same q = false) ∧
      ¬ (mixedFiles.map fun file => documentBase (quickRequest mixedFiles).outputFolder
        ((quickRequest mixedFiles).alone.relative file)).Pairwise (fun p q => p.same q = false) := by
  refine ⟨fun file hfile => ?_, by decide +kernel, by decide +kernel⟩
  simp only [mixedFiles, List.mem_cons, List.not_mem_nil, or_false] at hfile
  rcases hfile with rfl | rfl
  · exact ⟨by decide +kernel, "a.py".toList, by decide +kernel⟩
  · exact ⟨by decide +kernel, "a.py".toList, by decide +kernel⟩

end Scholia.Batch
