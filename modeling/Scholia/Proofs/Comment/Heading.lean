import Scholia.Harvest
import Scholia.Proofs.Except
/-!
# Headings

The documentation of a routine is a section: its heading, and below it at least one line. The lines
below come from the routine's comment, and **no comment has a heading of its own**
(`Comment.read_plain`), so the headings of a document are those of its sections.

`Accounted` keeps an account of routines: which of them have a section, how many there are, the lines
of all sections in order, and the errors of the others. Both ways to document a file count and
collect routine by routine; `Accounted.some` and `Accounted.none` say what one more routine does.
-/

namespace Scholia

namespace Doc

/-- A line that heads a document or a section. -/
def Line.isHeading : Line → Bool
  | title _ => true
  | subheader _ => true
  | _ => false

/-- The heading of a section. -/
def Line.isSubheader : Line → Bool
  | subheader _ => true
  | _ => false

/-- The documentation of one routine: its heading, and lines below it that are none. -/
def IsSection (docs : List Line) : Prop :=
  ∃ signature body, docs = .subheader ("Function: ".toList ++ signature) :: body ∧ body ≠ [] ∧
    ∀ line ∈ body, line.isHeading = false

theorem Line.isSubheader_of_plain {line : Line} (h : line.isHeading = false) :
    line.isSubheader = false := by
  cases line with
  | title _ | subheader _ => cases h
  | bold _ | text _ | bullet _ | bullets _ => rfl

theorem IsSection.countP_isSubheader {docs : List Line} (h : IsSection docs) :
    docs.countP Line.isSubheader = 1 := by
  obtain ⟨signature, body, rfl, -, hplain⟩ := h
  have hnone : body.countP Line.isSubheader = 0 := by
    apply List.countP_eq_zero.2
    intro line hline
    rw [Line.isSubheader_of_plain (hplain line hline)]
    exact Bool.false_ne_true
  rw [List.countP_cons, hnone]
  rfl

/-- **Sections have one heading each**. -/
theorem countP_isSubheader_flatten {sections : List (List Line)}
    (h : ∀ docs ∈ sections, IsSection docs) :
    sections.flatten.countP Line.isSubheader = sections.length := by
  induction sections with
  | nil => rfl
  | cons docs sections ih =>
    rw [List.flatten_cons, List.countP_append, (h docs List.mem_cons_self).countP_isSubheader,
      ih fun s hs => h s (List.mem_cons_of_mem _ hs), List.length_cons, Nat.add_comm]

theorem flatten_eq_nil_iff {sections : List (List Line)} (h : ∀ docs ∈ sections, IsSection docs) :
    sections.flatten = [] ↔ sections = [] := by
  constructor
  · intro he
    cases sections with
    | nil => rfl
    | cons docs sections =>
      obtain ⟨signature, body, rfl, -⟩ := h docs List.mem_cons_self
      cases he
  · rintro rfl
    rfl

end Doc

/-! ## Comments -/

namespace Comment

open Doc (Line)

/-- Lines that are no headings. -/
abbrev Plain (lines : List Line) : Prop :=
  ∀ line ∈ lines, line.isHeading = false

theorem plain_nil : Plain [] :=
  fun _ h => absurd h List.not_mem_nil

theorem plain_map {α : Type} {f : α → Line} (h : ∀ a, (f a).isHeading = false) (items : List α) :
    Plain (items.map f) := by
  intro line hline
  obtain ⟨item, -, rfl⟩ := List.mem_map.1 hline
  exact h item

theorem plain_descriptionLines (lines : List Text) : Plain (descriptionLines lines) := by
  intro line hline
  rw [List.mem_singleton.1 (List.mem_ite_nil_left.1 hline).2]
  rfl

theorem plain_bulletList (items : List Text) : Plain (bulletList items) := by
  intro line hline
  rw [List.mem_singleton.1 (List.mem_ite_nil_left.1 hline).2]
  rfl

/-- **Labels are no headings**: sections are plain if what stands under their labels is. -/
theorem plain_sections {parts : List (Text × List Line)} (h : ∀ part ∈ parts, Plain part.2) :
    Plain (sections parts) := by
  intro line hline
  obtain ⟨⟨label, body⟩, hpart, hline⟩ := List.mem_flatMap.1 hline
  have hline := (List.mem_ite_nil_left.1 hline).2
  rcases List.mem_cons.1 hline with rfl | hline
  · rfl
  · exact h _ hpart line hline

/-- Four parts, as all grammars have them. -/
theorem plain_of_four {first second third fourth : Text × List Line} (h₁ : Plain first.2)
    (h₂ : Plain second.2) (h₃ : Plain third.2) (h₄ : Plain fourth.2) :
    Plain (sections [first, second, third, fourth]) := by
  apply plain_sections
  intro part hpart
  simp only [List.mem_cons, List.not_mem_nil, or_false] at hpart
  rcases hpart with rfl | rfl | rfl | rfl
  · exact h₁
  · exact h₂
  · exact h₃
  · exact h₄

theorem Docstring.read_plain {raw : Text} {lines : List Line} (h : read raw = .ok lines) :
    Plain lines := by
  unfold read at h
  simp only at h
  split at h
  · cases h
    exact plain_nil
  · split at h
    · cases h
    · cases h
      exact plain_of_four (plain_descriptionLines _) (plain_bulletList _) (plain_bulletList _)
        (plain_bulletList _)

theorem Javadoc.read_plain {raw : Text} {lines : List Line} (h : read raw = .ok lines) :
    Plain lines := by
  unfold read at h
  split at h
  · cases h
    exact plain_nil
  · split at h
    · cases h
    · cases h
      exact plain_of_four (plain_descriptionLines _) (plain_map (fun _ => rfl) _)
        (plain_map (fun _ => rfl) _) (plain_map (fun _ => rfl) _)

theorem XmlDoc.read_plain {raw : Text} {lines : List Line} (h : read raw = .ok lines) :
    Plain lines := by
  unfold read at h
  split at h
  · cases h
    exact plain_nil
  · simp only at h
    split at h
    · cases h
    · cases h
      exact plain_of_four (plain_descriptionLines _) (plain_map (fun _ => rfl) _)
        (plain_map (fun _ => rfl) _) (plain_map (fun _ => rfl) _)

theorem Banner.read_plain {raw : Text} {lines : List Line} (h : read raw = .ok lines) :
    Plain lines := by
  unfold read at h
  split at h
  · cases h
    exact plain_nil
  · cases h
  · cases h
    refine plain_of_four (plain_descriptionLines _) (plain_bulletList _) ?_
      (plain_map (fun _ => rfl) _)
    intro line hline
    obtain ⟨text, -, rfl⟩ := Option.map_eq_some_iff.1 (Option.mem_toList.1 hline)
    rfl

/-- **No comment has a heading of its own**. -/
theorem read_plain {language : Language} {raw : Text} {lines : List Line}
    (h : read language raw = .ok lines) : Plain lines := by
  unfold read at h
  split at h
  · cases h
    exact plain_nil
  · cases language with
    | python => exact Docstring.read_plain h
    | java => exact Javadoc.read_plain h
    | cSharp => exact XmlDoc.read_plain h
    | visualBasic => exact Banner.read_plain h

end Comment

/-- **The documentation of a routine is a section**. -/
theorem Source.Routine.document_isSection {language : Language} {r : Routine}
    {docs : List Doc.Line} (h : r.document language = .ok docs) : Doc.IsSection docs := by
  unfold Routine.document at h
  split at h
  · cases h
  · split at h
    · cases h
    · cases h
    · next lines hne hread =>
      cases h
      exact ⟨_, _, rfl, fun he => hne he, Comment.read_plain hread⟩

/-! ## Accounts -/

/-- A routine with its documentation, if it has been documented. -/
abbrev RoutineEntry : Type := Source.Routine × Option (List Doc.Line)

/-- The documentation of the documented routines, in their order. -/
def documentation (entries : List RoutineEntry) : List (List Doc.Line) :=
  entries.filterMap (·.2)

/-- A count, lines and errors that account for routines: as many are documented as are counted, the
lines are those of their sections, and every other routine is among the errors. -/
structure Accounted (entries : List RoutineEntry) (documented : Nat) (lines : List Doc.Line)
    (errors : Text.Table) : Prop where
  documented : documented = (documentation entries).length
  lines : lines = (documentation entries).flatten
  sections : ∀ docs ∈ documentation entries, Doc.IsSection docs
  errors : ∀ r, (r, none) ∈ entries → (errors.get? r.signature).isSome = true

namespace Accounted

variable {entries : List RoutineEntry} {documented : Nat} {lines : List Doc.Line} {errors : Text.Table}

theorem nil : Accounted [] 0 [] errors where
  documented := rfl
  lines := rfl
  sections := fun _ h => absurd h List.not_mem_nil
  errors := fun _ h => absurd h List.not_mem_nil

theorem documentation_append (entries more : List RoutineEntry) :
    documentation (entries ++ more) = documentation entries ++ documentation more :=
  List.filterMap_append

/-- A documented routine adds its section. -/
protected theorem some (h : Accounted entries documented lines errors) (r : Source.Routine)
    {docs : List Doc.Line} (hdocs : Doc.IsSection docs) :
    Accounted (entries ++ [(r, some docs)]) (documented + 1) (lines ++ docs) errors where
  documented := by
    rw [documentation_append, List.length_append, h.documented]
    rfl
  lines := by
    rw [documentation_append, List.flatten_append, ← h.lines]
    exact congrArg (lines ++ ·) (List.append_nil docs).symm
  sections := by
    intro s hs
    rw [documentation_append] at hs
    rcases List.mem_append.1 hs with hs | hs
    · exact h.sections s hs
    · exact List.mem_singleton.1 hs ▸ hdocs
  errors := by
    intro q hq
    rcases List.mem_append.1 hq with hq | hq
    · exact h.errors q hq
    · cases List.mem_singleton.1 hq

/-- Another routine adds an error. -/
protected theorem none (h : Accounted entries documented lines errors) (r : Source.Routine)
    (reason : Text) :
    Accounted (entries ++ [(r, none)]) documented lines (errors.put r.signature reason) where
  documented := by
    rw [documentation_append, List.length_append, h.documented]
    rfl
  lines := by
    rw [documentation_append, List.flatten_append, ← h.lines]
    exact (List.append_nil lines).symm
  sections := by
    intro s hs
    rw [documentation_append, List.mem_append] at hs
    exact hs.elim (h.sections s) fun hs => absurd hs List.not_mem_nil
  errors := by
    intro q hq
    rw [Text.Table.get?_put]
    split
    · rfl
    · next hne =>
      rcases List.mem_append.1 hq with hq | hq
      · exact h.errors q hq
      · cases List.mem_singleton.1 hq
        exact absurd rfl hne

/-- **As many headings as documented routines**. -/
theorem countP_isSubheader (h : Accounted entries documented lines errors) :
    lines.countP Doc.Line.isSubheader = documented := by
  rw [h.lines, h.documented, Doc.countP_isSubheader_flatten h.sections]

theorem lines_eq_nil_iff (h : Accounted entries documented lines errors) :
    lines = [] ↔ documented = 0 := by
  rw [h.lines, h.documented, Doc.flatten_eq_nil_iff h.sections, List.length_eq_zero_iff]

end Accounted

/-- The routines of a source text, each with the documentation of its comment. -/
def Language.entries (language : Language) (routines : List Source.Routine) : List RoutineEntry :=
  routines.map fun r => (r, (r.document language).toOption)

namespace Harvest

variable {language : Language} {entries : List RoutineEntry} {h : Harvest}

/-- A harvest that accounts for routines. -/
abbrev Accounts (h : Harvest) (entries : List RoutineEntry) : Prop :=
  Accounted entries h.documented h.lines h.errors

variable (language) in
theorem Accounts.add (hh : h.Accounts entries) (r : Source.Routine) :
    (h.add language r).Accounts (entries ++ [(r, (r.document language).toOption)]) := by
  unfold Harvest.add
  cases hdocs : r.document language with
  | ok docs => exact hh.some r (Source.Routine.document_isSection hdocs)
  | error reason => exact hh.none r reason.message

variable (language) in
/-- One routine after the other is accounted for. -/
theorem Accounts.foldl (hh : h.Accounts entries) (routines : List Source.Routine) :
    (routines.foldl (Harvest.add language) h).Accounts (entries ++ language.entries routines) := by
  induction routines generalizing entries h with
  | nil =>
    rw [Language.entries, List.map_nil, List.append_nil]
    exact hh
  | cons r routines ih =>
    have hrest := ih (hh.add language r)
    rwa [List.append_assoc, List.singleton_append] at hrest

end Harvest

/-- **A harvest accounts for the routines of its text**. -/
theorem Language.harvest_accounts {language : Language} {source : Text} {harvest : Harvest}
    (h : language.harvest source = .ok harvest) :
    ∃ routines, language.routines source = .ok routines ∧
      harvest.Accounts (language.entries routines) := by
  obtain ⟨routines, hroutines, hfold⟩ := bind_eq_ok.1 h
  cases hfold
  have hempty : Harvest.empty.Accounts [] := .nil
  exact ⟨routines, hroutines, hempty.foldl language routines⟩

end Scholia
