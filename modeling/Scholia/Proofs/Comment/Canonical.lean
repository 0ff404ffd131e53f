import Mathlib.Data.List.Forall2
import Scholia.Comment.Read
import Scholia.Proofs.Except
/-!
# Canonical documentation

Whatever a comment says, what is read of it has one form: at most one block for each section of the
language, in the order of the sections, and a block is its label with something under it
(`Comment.read_canonical`). The grammars keep this by keeping all texts that they collect filled
(`State.Filled`); a section without any has no label.
-/

namespace Scholia.Comment

open Doc (Line entry)

/-! ## Blocks -/

/-- What stands under the label of a section. -/
inductive Content where
  /-- One text. -/
  | text
  /-- One point for each entry. -/
  | bullets
  /-- One list of all points. -/
  | list
  /-- One text for each entry. -/
  | texts
  deriving Repr, DecidableEq

/-- Texts of which none is empty. -/
def Filled (texts : List Text) : Prop :=
  ∀ t ∈ texts, t ≠ []

/-- Lines of this kind: at least one, and no text among them is empty. -/
def Content.Holds : Content → List Line → Prop
  | text, lines => ∃ t, t ≠ [] ∧ lines = [.text t]
  | bullets, lines => ∃ items, items ≠ [] ∧ Filled items ∧ lines = items.map .bullet
  | list, lines => ∃ items, items ≠ [] ∧ Filled items ∧ lines = [.bullets items]
  | texts, lines => ∃ items, items ≠ [] ∧ Filled items ∧ lines = items.map .text

/-- At most one block: nothing, or the label with lines of this kind under it. -/
def IsBlock (part : Text × Content) (lines : List Line) : Prop :=
  lines = [] ∨ ∃ items, part.2.Holds items ∧ lines = .bold part.1 :: items

/-- The sections of a language, in their order. -/
def parts : Language → List (Text × Content)
  | .python =>
    [("Description:".toList, .text), ("Arguments:".toList, .list), ("Returns:".toList, .list),
      ("Raises:".toList, .list)]
  | .java | .cSharp =>
    [("Description:".toList, .text), ("Arguments:".toList, .bullets), ("Return:".toList, .bullets),
      ("Exceptions:".toList, .bullets)]
  | .visualBasic =>
    [("Description:".toList, .text), ("Arguments:".toList, .list), ("Return:".toList, .text),
      ("Error Handling:".toList, .texts)]

/-- At most one block for each of these sections, in their order. -/
def AreBlocks (parts : List (Text × Content)) (lines : List Line) : Prop :=
  ∃ blocks, lines = blocks.flatten ∧ List.Forall₂ IsBlock parts blocks

/-- The label of a section, if a line is one. -/
def label? : Line → Option Text
  | .bold label => some label
  | _ => none

/-- Whether no text of a line is empty, and no list. -/
def IsFilled : Line → Prop
  | .title t | .subheader t | .bold t | .text t | .bullet t => t ≠ []
  | .bullets items => items ≠ [] ∧ Filled items

/-! ## What blocks are like -/

theorem Content.Holds.plain {content : Content} {lines : List Line} (h : content.Holds lines) :
    lines ≠ [] ∧ ∀ line ∈ lines, label? line = none ∧ IsFilled line := by
  cases content with
  | text =>
    obtain ⟨t, ht, rfl⟩ := h
    exact ⟨List.cons_ne_nil _ _, by simpa [label?, IsFilled] using ht⟩
  | list =>
    obtain ⟨items, hne, hitems, rfl⟩ := h
    exact ⟨List.cons_ne_nil _ _, by simpa [label?, IsFilled] using ⟨hne, hitems⟩⟩
  | bullets | texts =>
    obtain ⟨items, hne, hitems, rfl⟩ := h
    refine ⟨fun he => hne (List.map_eq_nil_iff.1 he), fun line hline => ?_⟩
    obtain ⟨t, ht, rfl⟩ := List.mem_map.1 hline
    exact ⟨rfl, hitems t ht⟩

theorem IsBlock.labels {part : Text × Content} {block : List Line} (h : IsBlock part block) :
    (block.filterMap label?).Sublist [part.1] := by
  rcases h with rfl | ⟨items, hitems, rfl⟩
  · exact List.nil_sublist _
  · have hnone : items.filterMap label? = [] :=
      List.filterMap_eq_nil_iff.2 fun line hline => (hitems.plain.2 line hline).1
    rw [List.filterMap_cons, hnone]
    exact List.Sublist.refl _

/-- **The labels are in their order**, each once at most. -/
theorem AreBlocks.labels {parts : List (Text × Content)} {lines : List Line}
    (h : AreBlocks parts lines) : (lines.filterMap label?).Sublist (parts.map (·.1)) := by
  obtain ⟨blocks, rfl, hblocks⟩ := h
  induction hblocks with
  | nil => exact List.nil_sublist _
  | cons hblock _ ih =>
    rw [List.flatten_cons, List.filterMap_append, List.map_cons]
    exact hblock.labels.append ih

/-- **Nothing is empty**. -/
theorem AreBlocks.filled {parts : List (Text × Content)} {lines : List Line}
    (h : AreBlocks parts lines) (hparts : ∀ part ∈ parts, part.1 ≠ []) :
    ∀ line ∈ lines, IsFilled line := by
  obtain ⟨blocks, rfl, hblocks⟩ := h
  induction hblocks with
  | nil => exact fun _ h => absurd h List.not_mem_nil
  | @cons part block _ _ hblock _ ih =>
    obtain ⟨hpart, hmore⟩ := List.forall_mem_cons.1 hparts
    rw [List.flatten_cons]
    refine List.forall_mem_append.2 ⟨?_, ih hmore⟩
    rcases hblock with rfl | ⟨items, hitems, rfl⟩
    · exact fun _ h => absurd h List.not_mem_nil
    · exact List.forall_mem_cons.2 ⟨hpart, fun line hline => (hitems.plain.2 line hline).2⟩

/-- **No label stands alone**: behind each stands a line that is none. -/
theorem AreBlocks.headed {parts : List (Text × Content)} {lines : List Line}
    (h : AreBlocks parts lines) {before after : List Line} {label : Text}
    (he : lines = before ++ .bold label :: after) :
    ∃ line more, after = line :: more ∧ label? line = none := by
  obtain ⟨blocks, rfl, hblocks⟩ := h
  induction hblocks generalizing before with
  | nil => simp at he
  | @cons part block _ blocks hblock _ ih =>
    rw [List.flatten_cons] at he
    rcases List.append_eq_append_iff.1 he with ⟨before', -, he'⟩ | ⟨back, rfl, he'⟩
    · exact ih he'
    cases back with
    | nil => exact ih (he'.symm.trans (List.nil_append _).symm)
    | cons line back =>
      obtain ⟨rfl, rfl⟩ := List.cons.inj he'
      rcases hblock with hnil | ⟨items, hitems, hblock⟩
      · simp at hnil
      obtain ⟨hne, hplain⟩ := hitems.plain
      cases before with
      | nil =>
        obtain ⟨-, rfl⟩ := List.cons.inj hblock
        obtain ⟨line, more, rfl⟩ := List.exists_cons_of_ne_nil hne
        exact ⟨line, more ++ blocks.flatten, rfl, (hplain line List.mem_cons_self).1⟩
      | cons line before =>
        obtain ⟨-, rfl⟩ := List.cons.inj hblock
        cases (hplain (.bold label) (by simp)).1

/-! ## Sections -/

/-- Nothing, or lines of this kind. -/
def Content.Allows (content : Content) (lines : List Line) : Prop :=
  lines = [] ∨ content.Holds lines

theorem isBlock_labelled {label : Text} {content : Content} {lines : List Line}
    (h : content.Allows lines) : IsBlock (label, content) (Line.labelled label lines) := by
  rcases h with rfl | h
  · exact .inl rfl
  · refine .inr ⟨lines, h, ?_⟩
    obtain ⟨line, more, rfl⟩ := List.exists_cons_of_ne_nil h.plain.1
    rfl

/-- **Sections are blocks** if what stands under their labels is of the kind that belongs there. -/
theorem areBlocks_sections {parts : List (Text × Content)} {bodies : List (Text × List Line)}
    (h : List.Forall₂ (fun part body => part.1 = body.1 ∧ part.2.Allows body.2) parts bodies) :
    AreBlocks parts (sections bodies) := by
  induction h with
  | nil => exact ⟨[], rfl, .nil⟩
  | @cons part body _ _ hpart _ ih =>
    obtain ⟨hlabel, hallows⟩ := hpart
    obtain ⟨blocks, he, hblocks⟩ := ih
    have hblock : IsBlock part (Line.labelled part.1 body.2) := isBlock_labelled hallows
    refine ⟨_ :: blocks, ?_, .cons hblock hblocks⟩
    rw [List.flatten_cons, ← he, hlabel]
    rfl

theorem filled_nil : Filled [] :=
  fun _ h => absurd h List.not_mem_nil

theorem Filled.cons {t : Text} {texts : List Text} (ht : t ≠ []) (h : Filled texts) :
    Filled (t :: texts) :=
  List.forall_mem_cons.2 ⟨ht, h⟩

theorem join_ne_nil {separator : Text} {texts : List Text} (hne : texts ≠ []) (h : Filled texts) :
    Text.join separator texts ≠ [] := by
  obtain ⟨t, more, rfl⟩ := List.exists_cons_of_ne_nil hne
  have ht := h t List.mem_cons_self
  cases more with
  | nil => simpa [Text.join] using ht
  | cons u more =>
    rw [Text.join, List.intercalate_cons_cons]
    exact fun he => ht (List.append_eq_nil_iff.1 (List.append_eq_nil_iff.1 he).1).1

theorem entry_ne_nil (name description : Text) : entry name description ≠ [] := by
  unfold entry
  split <;> simp

theorem Filled.reverse {texts : List Text} (h : Filled texts) : Filled texts.reverse :=
  fun t ht => h t (List.mem_reverse.1 ht)

theorem Filled.description {texts : List Text} (h : Filled texts) :
    Content.text.Allows (descriptionLines texts) := by
  unfold descriptionLines
  split
  · exact .inl rfl
  · next hne =>
    rw [List.isEmpty_iff] at hne
    exact .inr ⟨_, join_ne_nil hne h, rfl⟩

theorem Filled.list {texts : List Text} (h : Filled texts) :
    Content.list.Allows (bulletList texts) := by
  unfold bulletList
  split
  · exact .inl rfl
  · next hne =>
    rw [List.isEmpty_iff] at hne
    exact .inr ⟨_, hne, h, rfl⟩

theorem Filled.bullets {texts : List Text} (h : Filled texts) :
    Content.bullets.Allows (texts.map .bullet) := by
  cases texts with
  | nil => exact .inl rfl
  | cons t texts => exact .inr ⟨_, List.cons_ne_nil _ _, h, rfl⟩

theorem Filled.texts {texts : List Text} (h : Filled texts) :
    Content.texts.Allows (texts.map .text) := by
  cases texts with
  | nil => exact .inl rfl
  | cons t texts => exact .inr ⟨_, List.cons_ne_nil _ _, h, rfl⟩

/-- Points for entries. -/
theorem allows_points {α : Type} (name text : α → Text) (items : List α) :
    Content.bullets.Allows (items.map fun a => .bullet (entry (name a) (text a))) := by
  have hfilled : Filled (items.map fun a => entry (name a) (text a)) := by
    intro t ht
    obtain ⟨a, -, rfl⟩ := List.mem_map.1 ht
    exact entry_ne_nil _ _
  have hbullets := hfilled.bullets
  rwa [List.map_map] at hbullets

theorem filled_filter (texts : List Text) : Filled (texts.filter (!·.isEmpty)) := by
  intro t ht
  simpa using (List.mem_filter.1 ht).2

/-- Four sections, as all languages have them. -/
theorem areBlocks_four {first second third fourth : Text × Content}
    {b₁ b₂ b₃ b₄ : List Line} (h₁ : first.2.Allows b₁) (h₂ : second.2.Allows b₂)
    (h₃ : third.2.Allows b₃) (h₄ : fourth.2.Allows b₄) :
    AreBlocks [first, second, third, fourth]
      (sections [(first.1, b₁), (second.1, b₂), (third.1, b₃), (fourth.1, b₄)]) :=
  areBlocks_sections (.cons ⟨rfl, h₁⟩ (.cons ⟨rfl, h₂⟩ (.cons ⟨rfl, h₃⟩ (.cons ⟨rfl, h₄⟩ .nil))))

theorem areBlocks_nil (parts : List (Text × Content)) : AreBlocks parts [] := by
  refine ⟨parts.map fun _ => [], ?_, ?_⟩
  · simp
  · exact List.forall₂_map_right_iff.2 (List.forall₂_same.2 fun _ _ => .inl rfl)

/-! ## Docstrings -/

namespace Docstring

/-- What has been collected is filled. -/
structure State.Filled (s : State) : Prop where
  description : Comment.Filled s.description
  arguments : Comment.Filled s.arguments
  returns : Comment.Filled s.returns
  raises : Comment.Filled s.raises

theorem filled_addLine {isEntry : Bool} {text : Text} {entries : List Text} (htext : text ≠ [])
    (h : Filled entries) : Filled (addLine isEntry text entries) := by
  unfold addLine
  split
  · exact h.cons (entry_ne_nil _ _)
  · obtain ⟨-, hrest⟩ := List.forall_mem_cons.1 h
    exact Comment.Filled.cons (by simp) hrest
  · exact filled_nil.cons htext

theorem State.Filled.step {s : State} (h : s.Filled) (line : Text) : (s.step line).Filled := by
  unfold State.step
  simp only
  split
  · exact ⟨h.description, h.arguments, h.returns, h.raises⟩
  next htext =>
  rw [List.isEmpty_iff] at htext
  split
  · exact ⟨h.description, h.arguments, h.returns, h.raises⟩
  · next part _ _ =>
    unfold State.addTo
    split
    · exact h
    · cases part with
      | arguments => exact ⟨h.description, filled_addLine htext h.arguments, h.returns, h.raises⟩
      | returns => exact ⟨h.description, h.arguments, filled_addLine htext h.returns, h.raises⟩
      | raises => exact ⟨h.description, h.arguments, h.returns, filled_addLine htext h.raises⟩
  · split
    · exact h
    · exact ⟨h.description.cons htext, h.arguments, h.returns, h.raises⟩

theorem State.Filled.foldl {s : State} (h : s.Filled) (lines : List Text) :
    (lines.foldl State.step s).Filled := by
  induction lines generalizing s with
  | nil => exact h
  | cons line lines ih => exact ih (h.step line)

theorem areBlocks_read {raw : Text} {lines : List Line} (h : read raw = .ok lines) :
    AreBlocks (parts .python) lines := by
  unfold read at h
  simp only at h
  split at h
  · cases h
    exact areBlocks_nil _
  · split at h
    · cases h
    · cases h
      have hinitial : State.initial.Filled := ⟨filled_nil, filled_nil, filled_nil, filled_nil⟩
      have hfilled := fun lines => hinitial.foldl lines
      exact areBlocks_four (hfilled _).description.reverse.description
        (hfilled _).arguments.reverse.list (hfilled _).returns.reverse.list
        (hfilled _).raises.reverse.list

end Docstring

/-! ## Block tags -/

namespace Javadoc

/-- The description that has been collected is filled. -/
theorem step_description {s : State} (h : Filled s.description) (line : Text) :
    Filled (s.step line).description := by
  unfold State.step
  simp only
  split
  · exact h
  next hline =>
  rw [List.isEmpty_iff] at hline
  split
  · unfold State.addTag
    repeat' split
    all_goals exact h
  · unfold State.addText
    split
    · exact h.cons hline
    · exact h
    · split <;> exact h
    · exact h
    · exact h

theorem foldl_description {s : State} (h : Filled s.description) (lines : List Text) :
    Filled (lines.foldl State.step s).description := by
  induction lines generalizing s with
  | nil => exact h
  | cons line lines ih => exact ih (step_description h line)

theorem areBlocks_read {raw : Text} {lines : List Line} (h : read raw = .ok lines) :
    AreBlocks (parts .java) lines := by
  unfold read at h
  split at h
  · cases h
    exact areBlocks_nil _
  · split at h
    · cases h
    · next body _ _ =>
      cases h
      exact areBlocks_four (foldl_description filled_nil (Text.lines body)).reverse.description
        (allows_points Prod.fst Prod.snd _) (filled_filter _).bullets (allows_points Prod.fst Prod.snd _)

end Javadoc

/-! ## Documentation elements -/

namespace XmlDoc

theorem areBlocks_read {raw : Text} {lines : List Line} (h : read raw = .ok lines) :
    AreBlocks (parts .cSharp) lines := by
  unfold read at h
  split at h
  · cases h
    exact areBlocks_nil _
  · simp only at h
    split at h
    · cases h
    · cases h
      exact areBlocks_four (filled_filter _).description (allows_points _ _ _)
        (filled_filter _).bullets (allows_points _ _ _)

end XmlDoc

/-! ## Banner comments -/

namespace Banner

/-- What has been collected is filled. -/
structure State.Filled (s : State) : Prop where
  description : Comment.Filled s.description
  parameters : Comment.Filled s.parameters
  returns : ∀ t, s.returns = some t → t ≠ []
  errors : Comment.Filled s.errors

theorem sentence_ne_nil (s : Text) : sentence s ≠ [] := by
  simp [sentence]

theorem parameter?_ne_nil {line t : Text} (h : parameter? line = some t) : t ≠ [] := by
  unfold parameter? at h
  obtain ⟨⟨name, rest⟩, -, h⟩ := Option.bind_eq_some_iff.1 h
  obtain ⟨⟨description, type⟩, -, h⟩ := Option.bind_eq_some_iff.1 h
  cases h
  exact fun he => sentence_ne_nil _ (List.append_eq_nil_iff.1 he).2

theorem returned?_ne_nil {line t : Text} (h : returned? line = some t) : t ≠ [] := by
  unfold returned? at h
  obtain ⟨rest, -, h⟩ := Option.bind_eq_some_iff.1 h
  obtain ⟨⟨type, description⟩, -, h⟩ := Option.bind_eq_some_iff.1 h
  cases h
  exact List.cons_ne_nil _ _

theorem filled_addFree {text : Text} {lines : List Text} (h : Filled lines) :
    Filled (addFree text lines) := by
  unfold addFree
  split
  · exact h
  · next hne =>
    rw [List.isEmpty_iff] at hne
    exact h.cons hne

theorem State.Filled.addText {s : State} (h : s.Filled) {line : Text} (hline : line ≠ []) :
    (s.addText line).Filled := by
  unfold State.addText
  split
  · exact ⟨h.description.cons hline, h.parameters, h.returns, h.errors⟩
  · refine ⟨h.description, List.forall_mem_append.2 ⟨fun t ht => ?_, h.parameters⟩, h.returns, h.errors⟩
    exact parameter?_ne_nil (Option.mem_toList.1 ht)
  · split
    · exact h
    · exact ⟨h.description, h.parameters, h.returns, h.errors.cons hline⟩
  · exact h

theorem State.Filled.addLine {s : State} (h : s.Filled) {line : Text} (hline : line ≠ []) :
    (s.addLine line).Filled := by
  unfold State.addLine
  split
  · exact ⟨filled_addFree h.description, h.parameters, h.returns, h.errors⟩
  split
  · exact ⟨h.description, h.parameters, h.returns, h.errors⟩
  split
  · refine ⟨h.description, h.parameters, fun t ht => ?_, h.errors⟩
    rcases Option.or_eq_some_iff.1 ht with ht | ⟨-, ht⟩
    · exact returned?_ne_nil ht
    · exact h.returns t ht
  split
  · refine ⟨h.description, h.parameters, h.returns, ?_⟩
    show Comment.Filled (if _ then _ else _)
    split
    · exact h.errors
    · exact filled_addFree h.errors
  · exact h.addText hline

theorem State.Filled.step {s : State} (h : s.Filled) (line : Text) : (s.step line).Filled := by
  unfold State.step
  split
  · exact h
  simp only
  split
  · exact h
  · next hline =>
    rw [List.isEmpty_iff] at hline
    exact h.addLine hline

theorem State.Filled.foldl {s : State} (h : s.Filled) (lines : List Text) :
    (lines.foldl State.step s).Filled := by
  induction lines generalizing s with
  | nil => exact h
  | cons line lines ih => exact ih (h.step line)

theorem areBlocks_read {raw : Text} {lines : List Line} (h : read raw = .ok lines) :
    AreBlocks (parts .visualBasic) lines := by
  unfold read at h
  split at h
  · cases h
    exact areBlocks_nil _
  · cases h
  · cases h
    have hinitial : State.initial.Filled := ⟨filled_nil, filled_nil, nofun, filled_nil⟩
    have hfilled := hinitial.foldl (Text.lines raw)
    refine areBlocks_four hfilled.description.reverse.description hfilled.parameters.reverse.list ?_
      hfilled.errors.reverse.texts
    cases hreturns : ((Text.lines raw).foldl State.step .initial).returns with
    | none => exact .inl rfl
    | some t => exact .inr ⟨t, hfilled.returns t hreturns, rfl⟩

end Banner

/-- **What is read of a comment is canonical**: at most one block for each section of the language, in
their order, each a label with lines of the section's kind under it. So no label stands alone, the
labels are in their order, each once at most, and nothing is empty. -/
theorem read_canonical {language : Language} {raw : Text} {lines : List Line}
    (h : read language raw = .ok lines) :
    AreBlocks (parts language) lines ∧
      (∀ before label after, lines = before ++ .bold label :: after →
        ∃ line more, after = line :: more ∧ label? line = none) ∧
      (lines.filterMap label?).Sublist ((parts language).map (·.1)) ∧
      (lines.filterMap label?).Nodup ∧ ∀ line ∈ lines, IsFilled line := by
  have hblocks : AreBlocks (parts language) lines := by
    unfold read at h
    split at h
    · cases h
      exact areBlocks_nil _
    · cases language with
      | python => exact Docstring.areBlocks_read h
      | java => exact Javadoc.areBlocks_read h
      | cSharp => exact XmlDoc.areBlocks_read h
      | visualBasic => exact Banner.areBlocks_read h
  have hlabels : ((parts language).map (·.1)).Nodup := by
    cases language <;> decide
  have hfilled : ∀ part ∈ parts language, part.1 ≠ [] := by
    cases language <;> decide
  exact ⟨hblocks, fun _ _ _ => hblocks.headed, hblocks.labels, hlabels.sublist hblocks.labels,
    hblocks.filled hfilled⟩

/-- A docstring with two sections, one of them without entries. -/
def argumentsDocstring : Text :=
  "\"\"\"Adds.\n\nArgs:\n    a: First.\n\nReturns:\n    None\n\"\"\"".toList

/-- The section of `argumentsDocstring` without entries has no block. -/
theorem read_canonical_argumentsDocstring :
    ∃ lines, read .python argumentsDocstring = .ok lines ∧ AreBlocks (parts .python) lines ∧
      lines.filterMap label? = ["Description:".toList, "Arguments:".toList] := by
  have hread : read .python argumentsDocstring = .ok [.bold "Description:".toList,
      .text "Adds.".toList, .bold "Arguments:".toList, .bullets ["a. First.".toList]] := by
    decide +kernel
  exact ⟨_, hread, (read_canonical hread).1, by decide⟩

end Scholia.Comment
