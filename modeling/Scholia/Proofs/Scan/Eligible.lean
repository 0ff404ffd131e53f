import Scholia.Proofs.Path.Components
import Scholia.Proofs.Text.Table
import Scholia.Proofs.Text.Worn
import Scholia.Scan.Walk
import Scholia.Storage.Memory
/-!
# What a scan finds

A file stands in a tree under the names that lead to it. It is `Eligible` if it is a regular file
whose name tells a language, and if none of the names on the way, its own included, is passed over.
That is said of the names one by one; a scan passes over whole folders instead, and never comes to
what is in them.

**The law** (`scan_eligible`): a scan of a folder answers the paths of the eligible files in their
order, each of them once. The folder itself may have any name.
-/

namespace Scholia

/-! ## The order of paths -/

namespace Path

/-- Numbers by which components are ordered. -/
def Component.key : Component → List Nat
  | root => [0]
  | current => [1]
  | above => [2]
  | name text => 3 :: text.map Char.toNat

theorem Component.key_injective : Function.Injective Component.key := by
  intro c d h
  cases c <;> cases d <;> simp_all [key, Text.map_toNat_injective.eq_iff]

theorem Component.before_iff_lt {c d : Component} : c.before d = true ↔ c.key < d.key := by
  cases c <;> cases d <;> simp [before, key, List.cons_lt_cons_iff, Text.before_iff_lt]

theorem componentsBefore_iff_lt {cs ds : List Component} :
    componentsBefore cs ds = true ↔ cs.map Component.key < ds.map Component.key := by
  induction cs generalizing ds with
  | nil => cases ds <;> simp [componentsBefore]
  | cons c cs ih =>
    cases ds with
    | nil => simp [componentsBefore]
    | cons d ds =>
      rw [List.map_cons, List.map_cons, List.cons_lt_cons_iff, componentsBefore]
      split
      · next h => simp [h, ih]
      · next h => simp [Component.key_injective.eq_iff, h, Component.before_iff_lt]

theorem atMost_iff_le {p q : Path} :
    p.atMost q = true ↔ p.components.map Component.key ≤ q.components.map Component.key := by
  rw [atMost, Bool.not_eq_true', ← Bool.not_eq_true, componentsBefore_iff_lt, not_lt]

/-- **Paths that are sorted ascend**, if no two of them are the same. -/
theorem pairwise_before_mergeSort {paths : List Path}
    (h : paths.Pairwise fun p q => p.components ≠ q.components) :
    (paths.mergeSort atMost).Pairwise fun p q =>
      componentsBefore p.components q.components = true := by
  have hsorted : (paths.mergeSort atMost).Pairwise fun p q => p.atMost q = true := by
    refine List.pairwise_mergeSort (fun p q r hpq hqr => ?_) (fun p q => ?_) paths
    · exact atMost_iff_le.2 ((atMost_iff_le.1 hpq).trans (atMost_iff_le.1 hqr))
    · rw [Bool.or_eq_true, atMost_iff_le, atMost_iff_le]
      exact le_total _ _
  have hdistinct : (paths.mergeSort atMost).Pairwise fun p q => p.components ≠ q.components :=
    (List.mergeSort_perm paths atMost).symm.pairwise h Ne.symm
  refine hsorted.imp₂ (fun p q hpq hne => ?_) hdistinct
  refine componentsBefore_iff_lt.2 (lt_of_le_of_ne (atMost_iff_le.1 hpq) fun he => hne ?_)
  exact List.map_injective_iff.2 Component.key_injective he

/-- The path that names lead to from a folder. -/
def under (folder : Path) (names : List Text) : Path :=
  names.foldl (fun p name => p.join ⟨name⟩) folder

@[simp] theorem under_nil (folder : Path) : folder.under [] = folder := rfl

@[simp] theorem under_cons (folder : Path) (name : Text) (names : List Text) :
    folder.under (name :: names) = (folder.join ⟨name⟩).under names := rfl

theorem components_join_name {name : Text} (h : IsFileName name) (folder : Path) :
    (folder.join ⟨name⟩).components = folder.components ++ [.name name] := by
  rw [components_join_names, h.components]
  rw [h.components]
  exact fun c hc => ⟨name, List.mem_singleton.1 hc⟩

/-- **Names lead to the components that they are**. -/
theorem components_under {names : List Text} (h : ∀ name ∈ names, IsFileName name)
    (folder : Path) : (folder.under names).components = folder.components ++ names.map .name := by
  induction names generalizing folder with
  | nil => simp
  | cons name names ih =>
    rw [under_cons, ih (fun other ho => h other (List.mem_cons_of_mem _ ho)),
      components_join_name (h name List.mem_cons_self), List.append_assoc]
    rfl

end Path

/-! ## Supported files -/

namespace Text

/-- **A text is cut at its last `d`**, which has none behind it. -/
theorem cutAtLast?_singleton {d : Char} {s a b : Text} :
    cutAtLast? [d] s = some (a, b) ↔ s = a ++ d :: b ∧ d ∉ b := by
  have hnone : ∀ {t : Text}, d ∉ t → cutAtLast? [d] t = none := by
    intro t ht
    cases hcut : cutAtLast? [d] t with
    | none => rfl
    | some ab => exact absurd (by rw [eq_of_cutAtLast? hcut]; simp) ht
  have hsome : ∀ {u t : Text}, d ∉ t → cutAtLast? [d] (u ++ d :: t) = some (u, t) := by
    intro u t ht
    induction u with
    | nil => simp [cutAtLast?, hnone ht, dropLead?]
    | cons c u ih => rw [List.cons_append, cutAtLast?, ih]
  refine ⟨fun h => ?_, fun h => h.1 ▸ hsome h.2⟩
  have hmem : d ∈ s := by
    rw [eq_of_cutAtLast? h]
    simp
  obtain ⟨u, t, hs, ht⟩ := List.eq_append_cons_of_mem (List.mem_reverse.2 hmem)
  have hsplit : s = t.reverse ++ d :: u.reverse := by
    rw [← List.reverse_reverse s, hs]
    simp
  rw [hsplit, hsome (by simpa using ht)] at h
  obtain ⟨rfl, rfl⟩ := Prod.mk.inj (Option.some.inj h)
  exact ⟨hsplit, by simpa using ht⟩

theorem toLower_toLower (c : Char) : c.toLower.toLower = c.toLower := by
  unfold Char.toLower
  split
  · next h =>
    -- small letters are no capitals
    refine dif_neg fun h' => ?_
    simp only [ge_iff_le, UInt32.le_iff_toNat_le, UInt32.toNat_add, Char.reduceVal,
      UInt32.reduceToNat, UInt32.reduceSub] at h h'
    omega
  · rfl

@[simp] theorem lowered_lowered (s : Text) : lowered (lowered s) = lowered s := by
  rw [lowered, lowered, List.map_map]
  exact List.map_congr_left fun c _ => toLower_toLower c

theorem dot_not_mem_lowered {s : Text} (h : '.' ∉ s) : '.' ∉ lowered s := by
  intro hmem
  obtain ⟨c, hc, he⟩ := List.mem_map.1 hmem
  unfold Char.toLower at he
  split at he
  · next hcapital =>
    have hval := congrArg (·.val.toNat) he
    simp only [ge_iff_le, UInt32.le_iff_toNat_le, UInt32.toNat_add, Char.reduceVal,
      UInt32.reduceToNat, UInt32.reduceSub] at hcapital hval
    omega
  · exact h (he ▸ hc)

end Text

/-- What follows the last dot of the name is, in any case, the extension of a language, and
something stands before that dot. -/
def IsSupported (name : Text) : Prop :=
  ∃ stem extension, name = stem ++ '.' :: extension ∧ stem ≠ [] ∧ '.' ∉ extension ∧
    ((∃ language ∈ Language.all, Text.lowered extension ∈ language.extensions) ∨
      ∃ language ∈ PlainLanguage.all, Text.lowered extension ∈ language.extensions)

theorem isSome_ofExtension?_iff {extension : Text} (h : '.' ∉ extension) :
    (Language.ofExtension? (Text.lowered extension)).isSome = true ↔
      ∃ language ∈ Language.all, Text.lowered extension ∈ language.extensions := by
  have hbare : Text.trimStartWhere (· == '.') (Text.lowered extension) = Text.lowered extension := by
    refine List.dropWhile_eq_self_iff.2 fun hne => ?_
    rw [beq_iff_eq]
    exact fun he => Text.dot_not_mem_lowered h (he ▸ List.getElem_mem hne)
  simp only [Language.ofExtension?, hbare, Text.lowered_lowered, List.find?_isSome,
    List.contains_iff_mem]

/-- The extension of a file is what follows the last dot of its name. -/
theorem extension?_eq_some_iff {p : Path} {name extension : Text} (h : p.fileName? = some name) :
    p.extension? = some extension ↔
      ∃ stem, name = stem ++ '.' :: extension ∧ stem ≠ [] ∧ '.' ∉ extension := by
  rw [Path.extension?, h, Option.bind_eq_bind, Option.bind_some]
  constructor
  · intro hsome
    obtain ⟨⟨stem, rest⟩, hcut, hsome⟩ := Option.bind_eq_some_iff.1 hsome
    obtain ⟨hname, hdot⟩ := Text.cutAtLast?_singleton.1 hcut
    cases stem with
    | nil => cases hsome
    | cons c stem =>
      cases hsome
      exact ⟨c :: stem, hname, List.cons_ne_nil c stem, hdot⟩
  · rintro ⟨stem, hname, hstem, hdot⟩
    obtain ⟨c, stem, rfl⟩ := List.exists_cons_of_ne_nil hstem
    rw [Text.cutAtLast?_singleton.2 ⟨hname, hdot⟩]
    rfl

/-- **The kind of a file is known by its name**. -/
theorem isSome_ofPath?_iff {p : Path} {name : Text} (h : p.fileName? = some name) :
    (SourceKind.ofPath? p).isSome = true ↔ IsSupported name := by
  have hkind : ∀ extension, p.extension? = some extension → '.' ∉ extension →
      ((SourceKind.ofPath? p).isSome = true ↔
        (∃ language ∈ Language.all, Text.lowered extension ∈ language.extensions) ∨
          ∃ language ∈ PlainLanguage.all, Text.lowered extension ∈ language.extensions) := by
    intro extension hextension hdot
    rw [SourceKind.ofPath?, hextension, ← isSome_ofExtension?_iff hdot]
    simp only [Option.bind_eq_bind, Option.bind_some]
    cases Language.ofExtension? (Text.lowered extension) with
    | some language => simp
    | none => simp [List.find?_isSome]
  constructor
  · intro hsome
    cases hextension : p.extension? with
    | none =>
      rw [SourceKind.ofPath?, hextension] at hsome
      cases hsome
    | some extension =>
      obtain ⟨stem, hname, hstem, hdot⟩ := (extension?_eq_some_iff h).1 hextension
      exact ⟨stem, extension, hname, hstem, hdot, (hkind extension hextension hdot).1 hsome⟩
  · rintro ⟨stem, extension, hname, hstem, hdot, hlanguage⟩
    exact (hkind extension ((extension?_eq_some_iff h).2 ⟨stem, hname, hstem, hdot⟩) hdot).2
      hlanguage

end Scholia

namespace Scholia.Scan

open Scholia.Path (Component IsFileName componentsBefore under components_under components_join_name)
open Storage (Entry)

/-! ## Trees -/

/-- A tree as a disk holds it: what is in a folder is named as files are, and differently. -/
inductive IsTree : Entry → Prop
  | file (content : Storage.Content) : IsTree (.file content)
  | link (target : Path) : IsTree (.link target)
  | folder {entries : List (Text × Entry)} (hnames : ∀ e ∈ entries, IsFileName e.1)
    (hdistinct : (entries.map (·.1)).Nodup) (hentries : ∀ e ∈ entries, IsTree e.2) :
    IsTree (.folder entries)

theorem named_eq_some_iff {entries : List (Text × Entry)} (h : (entries.map (·.1)).Nodup)
    {name : Text} {e : Entry} : Entry.named name entries = some e ↔ (name, e) ∈ entries := by
  induction entries with
  | nil => simp [Entry.named]
  | cons first entries ih =>
    obtain ⟨other, e'⟩ := first
    rw [List.map_cons, List.nodup_cons] at h
    by_cases hname : other = name
    · subst hname
      have hnot : (other, e) ∉ entries := fun hmem => h.1 (List.mem_map.2 ⟨_, hmem, rfl⟩)
      simp [Entry.named, hnot, eq_comm]
    · have hrest := ih h.2
      rw [Entry.named] at hrest ⊢
      simp [hname, hrest, Ne.symm hname]

/-- What names lead to in a tree is named by names of files. -/
theorem isFileName_of_get? {e found : Entry} (h : IsTree e) {names : List Text}
    (hget : Entry.get? names e = some found) : ∀ name ∈ names, IsFileName name := by
  induction names generalizing e with
  | nil => exact nofun
  | cons name names ih =>
    cases h with
    | file content => cases hget
    | link target => cases hget
    | folder hnames hdistinct hentries =>
      rw [Entry.get?, Option.bind_eq_some_iff] at hget
      obtain ⟨e, hnamed, hget⟩ := hget
      have hmem := (named_eq_some_iff hdistinct).1 hnamed
      exact List.forall_mem_cons.2 ⟨hnames _ hmem, ih (hentries _ hmem) hget⟩

/-! ## What is passed over -/

/-- An entry is passed over: it is hidden, it is the folder to skip, or a pattern stands for its name
or for its path. -/
inductive PassedOver (rules : Rules) (path : Path) (name : Text) : Prop
  | hidden (h : name.head? = some '.')
  | skipped (skip : Path) (h : rules.skip = some skip) (hsame : skip.components = path.components)
  | matched (g : Glob) (hg : g ∈ rules.patterns)
    (h : g.isMatch name = true ∨ g.isMatch path.text = true)

theorem ignores_iff {rules : Rules} {path : Path} {name : Text} (h : path.fileName? = some name) :
    rules.ignores path = true ↔ PassedOver rules path name := by
  rw [Rules.ignores, h]
  simp only [Option.getD_some, Bool.or_eq_true, beq_iff_eq, Option.any_eq_true, List.any_eq_true,
    Path.same]
  constructor
  · rintro ((hhidden | ⟨skip, hskip, hsame⟩) | ⟨g, hg, hmatch⟩)
    · exact .hidden hhidden
    · exact .skipped skip hskip hsame
    · exact .matched g hg hmatch
  · rintro (hhidden | ⟨skip, hskip, hsame⟩ | ⟨g, hg, hmatch⟩)
    · exact .inl (.inl hhidden)
    · exact .inl (.inr ⟨skip, hskip, hsame⟩)
    · exact .inr ⟨g, hg, hmatch⟩

/-- A file that a scan of a folder is to find, under the names that lead to it. -/
structure Eligible (rules : Rules) (folder : Path) (tree : Entry) (names : List Text) : Prop where
  isFile : ∃ content, Entry.get? names tree = some (.file content)
  supported : ∃ name, names.getLast? = some name ∧ IsSupported name
  kept : ∀ lead name, lead ++ [name] <+: names →
    ¬ PassedOver rules (folder.under (lead ++ [name])) name

section Walk

variable {rules : Rules} {path folder file : Path}

theorem mem_filesAmong {entries : List (Text × Entry)} :
    file ∈ filesAmong rules folder entries ↔ ∃ name e, (name, e) ∈ entries ∧
      rules.ignores (folder.join ⟨name⟩) = false ∧ file ∈ filesOf rules (folder.join ⟨name⟩) e := by
  induction entries with
  | nil => simp [filesAmong]
  | cons first entries ih =>
    obtain ⟨name, e⟩ := first
    rw [filesAmong, List.mem_append, ih]
    constructor
    · rintro (hfirst | ⟨other, e', hmem, hrest⟩)
      · split at hfirst
        · cases hfirst
        · next hkept => exact ⟨name, e, List.mem_cons_self, by simpa using hkept, hfirst⟩
      · exact ⟨other, e', List.mem_cons_of_mem _ hmem, hrest⟩
    · rintro ⟨other, e', hmem, hkept, hfile⟩
      rcases List.mem_cons.1 hmem with he | hmem
      · cases he
        rw [if_neg (by simp [hkept])]
        exact .inl hfile
      · exact .inr ⟨other, e', hmem, hkept, hfile⟩

/-- The files of a tree are those that names lead to, where no path on the way is ignored. -/
theorem mem_filesOf_iff {e : Entry} (h : IsTree e) :
    file ∈ filesOf rules path e ↔ ∃ names content, Entry.get? names e = some (.file content) ∧
      file = path.under names ∧ (SourceKind.ofPath? file).isSome = true ∧
      ∀ lead name, lead ++ [name] <+: names → rules.ignores (path.under (lead ++ [name])) = false := by
  have hhead : ∀ {names : List Text} {name : Text} {path : Path},
      rules.ignores (path.join ⟨name⟩) = false →
      (∀ lead other, lead ++ [other] <+: names →
        rules.ignores ((path.join ⟨name⟩).under (lead ++ [other])) = false) →
      ∀ lead other, lead ++ [other] <+: name :: names →
        rules.ignores (path.under (lead ++ [other])) = false := by
    intro names name path hname hrest lead other hlead
    cases lead with
    | nil =>
      obtain rfl := (List.cons_prefix_cons.1 hlead).1
      exact hname
    | cons first lead =>
      obtain ⟨rfl, hbehind⟩ := List.cons_prefix_cons.1 hlead
      exact hrest lead other hbehind
  constructor
  · intro hfile
    induction h generalizing path with
    | file content =>
      rw [filesOf] at hfile
      split at hfile
      · next hkind =>
        obtain rfl := List.mem_singleton.1 hfile
        refine ⟨[], content, rfl, rfl, hkind, fun lead name hlead => ?_⟩
        exact absurd (List.prefix_nil.1 hlead) (by simp)
      · cases hfile
    | link target => cases hfile
    | folder hnames hdistinct hentries ih =>
      rw [filesOf] at hfile
      obtain ⟨name, e, hmem, hkept, hfile⟩ := mem_filesAmong.1 hfile
      obtain ⟨names, content, hget, hunder, hkind, hclear⟩ := ih _ hmem hfile
      refine ⟨name :: names, content, ?_, hunder, hkind, hhead hkept hclear⟩
      rw [Entry.get?, (named_eq_some_iff hdistinct).2 hmem]
      exact hget
  · rintro ⟨names, content, hget, rfl, hkind, hclear⟩
    induction names generalizing path e with
    | nil =>
      obtain rfl := Option.some.inj hget
      rw [Path.under_nil] at hkind ⊢
      rw [filesOf, if_pos hkind]
      exact List.mem_singleton_self _
    | cons name names ih =>
      cases h with
      | file content => cases hget
      | link target => cases hget
      | folder hnames hdistinct hentries =>
        rw [Entry.get?, Option.bind_eq_some_iff] at hget
        obtain ⟨e, hnamed, hget⟩ := hget
        have hmem := (named_eq_some_iff hdistinct).1 hnamed
        rw [filesOf]
        refine mem_filesAmong.2 ⟨name, e, hmem, ?_, ?_⟩
        · exact hclear [] name (List.cons_prefix_cons.2 ⟨rfl, List.nil_prefix⟩)
        · exact ih (hentries _ hmem) hget hkind fun lead other hlead =>
            hclear (name :: lead) other (List.cons_prefix_cons.2 ⟨rfl, hlead⟩)

/-- The files among the entries of a folder stand at different places, if those of each entry do. -/
theorem pairwise_filesAmong {entries : List (Text × Entry)} (hnames : ∀ e ∈ entries, IsFileName e.1)
    (hdistinct : (entries.map (·.1)).Nodup) (hentries : ∀ e ∈ entries, IsTree e.2)
    (hfiles : ∀ e ∈ entries, ∀ path : Path,
      (filesOf rules path e.2).Pairwise fun p q => p.components ≠ q.components) :
    (filesAmong rules folder entries).Pairwise fun p q => p.components ≠ q.components := by
  have hplace : ∀ {name : Text} {e : Entry} {p : Path}, (name, e) ∈ entries →
      p ∈ filesOf rules (folder.join ⟨name⟩) e →
      folder.components ++ [.name name] <+: p.components := by
    intro name e p hmem hp
    obtain ⟨names, content, hget, rfl, -⟩ := (mem_filesOf_iff (hentries _ hmem)).1 hp
    rw [components_under (isFileName_of_get? (hentries _ hmem) hget),
      components_join_name (hnames _ hmem)]
    exact List.prefix_append _ _
  induction entries with
  | nil => exact .nil
  | cons first entries ih =>
    obtain ⟨name, e⟩ := first
    rw [List.map_cons, List.nodup_cons] at hdistinct
    rw [filesAmong]
    refine List.pairwise_append.2 ⟨?_, ?_, fun p hp q hq he => ?_⟩
    · split
      · exact .nil
      · exact hfiles _ List.mem_cons_self _
    · exact ih (fun e he => hnames e (List.mem_cons_of_mem _ he)) hdistinct.2
        (fun e he => hentries e (List.mem_cons_of_mem _ he))
        (fun e he => hfiles e (List.mem_cons_of_mem _ he))
        fun hmem => hplace (List.mem_cons_of_mem _ hmem)
    · obtain ⟨other, e', hmem, -, hq⟩ := mem_filesAmong.1 hq
      split at hp
      · cases hp
      · have hfirst := hplace List.mem_cons_self hp
        have hother := hplace (List.mem_cons_of_mem _ hmem) hq
        rw [he] at hfirst
        -- the same component of one path is two names
        have hsame := (List.prefix_of_prefix_length_le hfirst hother (by simp)).eq_of_length
          (by simp)
        have hname : name = other :=
          Component.name.inj (List.cons.inj (List.append_cancel_left hsame)).1
        exact hdistinct.1 (List.mem_map.2 ⟨_, hmem, hname.symm⟩)

theorem pairwise_filesOf {e : Entry} (h : IsTree e) :
    (filesOf rules path e).Pairwise fun p q => p.components ≠ q.components := by
  induction h generalizing path with
  | file content =>
    rw [filesOf]
    split
    · exact List.pairwise_singleton _ _
    · exact .nil
  | link target => exact .nil
  | folder hnames hdistinct hentries ih =>
    rw [filesOf]
    exact pairwise_filesAmong hnames hdistinct hentries fun e he path => ih e he

/-- **What a scan of a tree finds is what is eligible in it**. -/
theorem mem_filesOf_iff_eligible {entries : List (Text × Entry)} (h : IsTree (.folder entries)) :
    file ∈ filesOf rules path (.folder entries) ↔
      ∃ names, Eligible rules path (.folder entries) names ∧ file = path.under names := by
  have hnamed : ∀ {names : List Text} {content : Storage.Content},
      Entry.get? names (.folder entries) = some (.file content) → ∀ {lead : List Text} {name : Text},
        lead ++ [name] <+: names → (path.under (lead ++ [name])).fileName? = some name := by
    intro names content hget lead name hlead
    have hnames := isFileName_of_get? h hget
    have hcomponents : (path.under (lead ++ [name])).components =
        (path.components ++ lead.map .name) ++ [.name name] := by
      rw [components_under fun name hname => hnames name (hlead.subset hname), List.map_append,
        List.append_assoc]
      rfl
    exact Path.fileName?_of_components hcomponents
  have hlast : ∀ {names : List Text} {content : Storage.Content},
      Entry.get? names (.folder entries) = some (.file content) →
        ∃ lead name, names = lead ++ [name] := by
    intro names content hget
    cases names using List.reverseRecOn with
    | nil => cases hget
    | append_singleton lead name => exact ⟨lead, name, rfl⟩
  rw [mem_filesOf_iff h]
  constructor
  · rintro ⟨names, content, hget, rfl, hkind, hclear⟩
    obtain ⟨lead, name, rfl⟩ := hlast hget
    refine ⟨_, ⟨⟨content, hget⟩, ⟨name, by simp, ?_⟩, fun lead' name' hlead hover => ?_⟩, rfl⟩
    · exact (isSome_ofPath?_iff (hnamed hget List.prefix_rfl)).1 hkind
    · have hignored := (ignores_iff (hnamed hget hlead)).2 hover
      rw [hclear lead' name' hlead] at hignored
      cases hignored
  · rintro ⟨names, ⟨⟨content, hget⟩, ⟨name, hname, hsupported⟩, hkept⟩, rfl⟩
    obtain ⟨lead, last, rfl⟩ := hlast hget
    obtain rfl : last = name := by simpa using hname
    refine ⟨_, content, hget, rfl, ?_, fun lead' name' hlead => ?_⟩
    · exact (isSome_ofPath?_iff (hnamed hget List.prefix_rfl)).2 hsupported
    · exact Bool.eq_false_iff.2 fun hignored =>
        hkept lead' name' hlead ((ignores_iff (hnamed hget hlead)).1 hignored)

end Walk

/-- **A scan answers exactly the eligible files**, in the order of their paths and each of them
once. -/
theorem scan_eligible (rules : Rules) (root : Path) {entries : List (Text × Entry)}
    (h : IsTree (.folder entries)) :
    ∃ files, scan rules root (some (.folder entries)) = .ok files ∧
      (files.Pairwise fun p q => componentsBefore p.components q.components = true) ∧
      ∀ file, file ∈ files ↔
        ∃ names, Eligible rules root (.folder entries) names ∧ file = root.under names := by
  refine ⟨_, rfl, ?_, fun file => ?_⟩
  · have hdistinct := @pairwise_filesOf rules root _ h
    rw [filesOf] at hdistinct
    exact Path.pairwise_before_mergeSort hdistinct
  · rw [List.mem_mergeSort, ← filesOf]
    exact mem_filesOf_iff_eligible h

/-- The sources of the sample: one is hidden, one matches a standard pattern, one is none. -/
def sampleSources : List (Text × Entry) :=
  [("main.py".toList, .file (.text [])), (".cache.py".toList, .file (.text [])),
    ("lib.min.js".toList, .file (.text [])), ("notes.txt".toList, .file (.text [])),
    ("Util.JAVA".toList, .file (.text []))]

/-- A folder with sources, with a folder that is passed over by its name, with the folder to skip
and with a link. -/
def sampleEntries : List (Text × Entry) :=
  [("src".toList, .folder sampleSources),
    ("out".toList, .folder [("a.py".toList, .file (.text []))]),
    ("docs".toList, .folder [("old.py".toList, .file (.text []))]),
    ("link.py".toList, .link ⟨"src/main.py".toList⟩)]

theorem isTree_sampleEntries : IsTree (.folder sampleEntries) := by
  have hfiles : ∀ entries : List (Text × Entry), (∀ e ∈ entries, IsFileName e.1) →
      (entries.map (·.1)).Nodup → (∀ e ∈ entries, ∃ content, e.2 = .file content) →
      IsTree (.folder entries) := fun entries hnames hdistinct hentries =>
    .folder hnames hdistinct fun e he => by
      obtain ⟨content, hcontent⟩ := hentries e he
      exact hcontent ▸ .file content
  refine .folder (by decide) (by decide) ?_
  simp only [sampleEntries, List.forall_mem_cons]
  refine ⟨hfiles _ (by decide) (by decide) ?_,
    hfiles _ (by decide) (by decide) ?_,
    hfiles _ (by decide) (by decide) ?_, .link _, nofun⟩ <;>
    simp [sampleSources]

/-- The rules with the standard patterns, under which the folder itself would be hidden. -/
theorem scan_eligible_sampleEntries : IsTree (.folder sampleEntries) ∧
    ∃ files, scan (.standard (some ⟨"/.p/docs".toList⟩)) ⟨"/.p".toList⟩
        (some (.folder sampleEntries)) = .ok files ∧
      (files.Pairwise fun p q => componentsBefore p.components q.components = true) ∧
      files.length = 2 ∧ ⟨"/.p/src/Util.JAVA".toList⟩ ∈ files ∧
      ∃ names, Eligible (.standard (some ⟨"/.p/docs".toList⟩)) ⟨"/.p".toList⟩
        (.folder sampleEntries) names ∧
        (⟨"/.p/src/Util.JAVA".toList⟩ : Path) = Path.under ⟨"/.p".toList⟩ names := by
  obtain ⟨files, hscan, hsorted, hmem⟩ := scan_eligible (.standard (some ⟨"/.p/docs".toList⟩))
    ⟨"/.p".toList⟩ isTree_sampleEntries
  have hperm : files.Perm (filesAmong (.standard (some ⟨"/.p/docs".toList⟩)) ⟨"/.p".toList⟩
      sampleEntries) := by
    cases hscan
    exact List.mergeSort_perm _ _
  have hfound : filesAmong (.standard (some ⟨"/.p/docs".toList⟩)) ⟨"/.p".toList⟩ sampleEntries =
      [⟨"/.p/src/main.py".toList⟩, ⟨"/.p/src/Util.JAVA".toList⟩] := rfl
  rw [hfound] at hperm
  have hfile : (⟨"/.p/src/Util.JAVA".toList⟩ : Path) ∈ files := hperm.mem_iff.2 (by simp)
  exact ⟨isTree_sampleEntries, files, hscan, hsorted, hperm.length_eq, hfile, (hmem _).1 hfile⟩

end Scholia.Scan
