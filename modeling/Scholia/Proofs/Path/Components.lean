import Mathlib.Data.List.Induction
import Scholia.Path
import Scholia.Proofs.Text.Lines
/-!
# Components of paths

What the operations on paths do to components. A path that is joined to another adds its components;
the folder of a file has all components but the last, which is the name; and what is left of a path
behind another one has the components that are left. In this way a path can be followed through all
operations without a look at how it is spelled.

A component `Stands` behind others if a path can have it there: the root and the current directory
come first, and a name is neither empty nor a dot or two and holds no slash. What stands can be put
together again (`components_ofComponents`).
-/

namespace Scholia.Path

/-- The components that parts are. -/
def named (parts : List Text) : List Component :=
  (parts.filter isComponent).map Component.ofPart

theorem components_eq (p : Path) : p.components = frontComponent p.split.1 ++ named (parts p.split.2) :=
  rfl

@[simp] theorem named_nil : named [] = [] := rfl

@[simp] theorem named_append (ps qs : List Text) : named (ps ++ qs) = named ps ++ named qs := by
  simp [named]

theorem named_cons_of_neg {part : Text} (h : isComponent part = false) (ps : List Text) :
    named (part :: ps) = named ps := by
  simp [named, h]

theorem named_cons_of_pos {part : Text} (h : isComponent part = true) (ps : List Text) :
    named (part :: ps) = .ofPart part :: named ps := by
  simp [named, h]

/-! ## Parts -/

theorem not_slash_of_mem_parts {body part : Text} (h : part ∈ parts body) : '/' ∉ part :=
  Text.not_mem_of_mem_splitWhere h

theorem parts_append (u t : Text) : parts (u ++ '/' :: t) = parts u ++ parts t :=
  Text.splitWhere_append rfl u t

theorem parts_of_not_slash {part : Text} (h : '/' ∉ part) : parts part = [part] :=
  Text.splitWhere_of_not_mem h

theorem parts_join {ps : List Text} (hne : ps ≠ []) (h : ∀ part ∈ ps, '/' ∉ part) :
    parts (Text.join ['/'] ps) = ps :=
  Text.splitWhere_join hne h

/-- What is trimmed off is no component. -/
theorem exists_trimParts (ps : List Text) :
    ∃ off, ps = trimParts ps ++ off ∧ ∀ part ∈ off, isComponent part = false := by
  refine ⟨(ps.reverse.takeWhile (!isComponent ·)).reverse, ?_, fun part h => ?_⟩
  · rw [trimParts, ← List.reverse_append, List.takeWhile_append_dropWhile, List.reverse_reverse]
  · simpa using List.all_eq_true.1 List.all_takeWhile part (List.mem_reverse.1 h)

theorem named_of_forall {ps : List Text} (h : ∀ part ∈ ps, isComponent part = false) :
    named ps = [] := by
  rw [named, List.filter_eq_nil_iff.2 fun part hp => by simp [h part hp]]
  rfl

@[simp] theorem named_trimParts (ps : List Text) : named (trimParts ps) = named ps := by
  obtain ⟨off, hps, hoff⟩ := exists_trimParts ps
  conv => rhs; rw [hps, named_append, named_of_forall hoff, List.append_nil]

theorem trimParts_lead (ps : List Text) : trimParts ps <+: ps := by
  obtain ⟨off, hps, -⟩ := exists_trimParts ps
  exact ⟨off, hps.symm⟩

/-- The last part that is kept is a component. -/
theorem isComponent_of_getLast? {ps : List Text} {part : Text}
    (h : (trimParts ps).getLast? = some part) : isComponent part = true := by
  rw [trimParts, List.getLast?_reverse] at h
  have := List.head?_dropWhile_not (!isComponent ·) ps.reverse
  rw [h] at this
  simpa using this

/-! ## The front -/

/-- A text that begins with a part of its own: neither with the root nor with the current
directory. -/
structure Plain (text : Text) : Prop where
  root : ∀ r, text ≠ '/' :: r
  dot : text ≠ ['.']
  current : ∀ r, text ≠ '.' :: '/' :: r

theorem split_plain {text : Text} (h : Plain text) : (⟨text⟩ : Path).split = ([], text) := by
  unfold split
  split
  · exact absurd ‹_› (h.root _)
  · exact absurd ‹_› h.dot
  · exact absurd ‹_› (h.current _)
  · rfl

/-- **The ways in which a path begins**: at the root, at the current directory, or with a part. -/
theorem front_cases (p : Path) :
    (∃ r, p.text = '/' :: r ∧ p.split = (['/'], r)) ∨
      (∃ r, p.text = '.' :: r ∧ p.split = (['.'], r) ∧ (r = [] ∨ ∃ t, r = '/' :: t)) ∨
      Plain p.text ∧ p.split = ([], p.text) := by
  unfold split
  split
  · next r h => exact .inl ⟨r, h, rfl⟩
  · next h => exact .inr (.inl ⟨[], h, rfl, .inl rfl⟩)
  · next r h => exact .inr (.inl ⟨'/' :: r, h, rfl, .inr ⟨r, rfl⟩⟩)
  · next t h₁ h₂ h₃ => exact .inr (.inr ⟨⟨h₁, h₂, h₃⟩, rfl⟩)

/-- The first part of a plain text is a component, unless there is no text. -/
theorem Plain.head {text : Text} (h : Plain text) (hne : text ≠ []) :
    ∃ part ps, parts text = part :: ps ∧ isComponent part = true := by
  cases hps : parts text with
  | nil => exact absurd hps (Text.splitWhere_ne_nil _ _)
  | cons part ps =>
    refine ⟨part, ps, rfl, ?_⟩
    have hjoin : Text.join ['/'] (part :: ps) = text := by
      rw [← hps]
      exact Text.join_splitWhere '/' text
    -- a first part that is empty or a dot would stand before a slash or the end
    have hnot : ∀ lead, part = lead → (ps = [] ∧ text = lead) ∨ ∃ t, text = lead ++ '/' :: t := by
      rintro lead rfl
      cases ps with
      | nil => exact .inl ⟨rfl, by simpa [Text.join] using hjoin.symm⟩
      | cons q qs => exact .inr ⟨Text.join ['/'] (q :: qs), by
          rw [← hjoin, Text.join, List.intercalate_cons_cons]
          simp [Text.join]⟩
    have hempty : part ≠ [] := by
      intro he
      rcases hnot [] he with ⟨-, ht⟩ | ⟨t, ht⟩
      · exact hne ht
      · exact h.root t ht
    have hdot : part ≠ ['.'] := by
      intro he
      rcases hnot ['.'] he with ⟨-, ht⟩ | ⟨t, ht⟩
      · exact h.dot ht
      · exact h.current t ht
    simp [isComponent, hempty, hdot]

/-- The parts behind a front, as a path can have them. -/
def Leads (front : Text) (ps : List Text) : Prop :=
  front = ['/'] ∨ (front = ['.'] ∧ ∀ part, ps.head? = some part → part = []) ∨
    front = [] ∧ ∀ part, ps.head? = some part → isComponent part = true

theorem Leads.of_lead {front : Text} {ps qs : List Text} (h : Leads front ps) (hqs : qs <+: ps) :
    Leads front qs := by
  have hhead : ∀ part, qs.head? = some part → ps.head? = some part := by
    obtain ⟨more, rfl⟩ := hqs
    intro part hpart
    rw [List.head?_append, hpart, Option.some_or]
  exact h.imp_right (Or.imp (And.imp_right fun h part hp => h part (hhead part hp))
    (And.imp_right fun h part hp => h part (hhead part hp)))

theorem leads (p : Path) : Leads p.split.1 (trimParts (parts p.split.2)) := by
  rcases front_cases p with ⟨r, -, hs⟩ | ⟨r, -, hs, hr⟩ | ⟨hplain, hs⟩ <;> rw [hs]
  · exact .inl rfl
  · refine .inr (.inl ⟨rfl, fun part hpart => ?_⟩)
    rcases hr with rfl | ⟨t, rfl⟩
    · cases hpart
    · have hfirst : (parts ('/' :: t)).head? = some [] := by simp [parts, Text.splitWhere]
      obtain ⟨off, hoff⟩ := trimParts_lead (parts ('/' :: t))
      rw [← hoff, List.head?_append, hpart, Option.some_or] at hfirst
      exact Option.some.inj hfirst
  · refine .inr (.inr ⟨rfl, fun part hpart => ?_⟩)
    by_cases hne : p.text = []
    · rw [hne] at hpart
      cases hpart
    · obtain ⟨first, ps, hps, hfirst⟩ := hplain.head hne
      obtain ⟨off, hoff⟩ := trimParts_lead (parts p.text)
      have hhead : (parts p.text).head? = some first := by rw [hps]; rfl
      rw [← hoff, List.head?_append, hpart, Option.some_or] at hhead
      exact Option.some.inj hhead ▸ hfirst

/-- **A path of parts has the components that its parts are**. -/
theorem components_ofParts {front : Text} {ps : List Text} (hps : ∀ part ∈ ps, '/' ∉ part)
    (h : Leads front (trimParts ps)) :
    (ofParts front ps).components = frontComponent front ++ named ps := by
  have hkept : ∀ part ∈ trimParts ps, '/' ∉ part := fun part hp =>
    hps part ((trimParts_lead ps).subset hp)
  have hnamed : ∀ qs : List Text, (∀ part ∈ qs, '/' ∉ part) →
      named (parts (Text.join ['/'] qs)) = named qs := by
    intro qs hqs
    cases qs with
    | nil => rfl
    | cons part qs => rw [parts_join (List.cons_ne_nil part qs) hqs]
  rw [ofParts, ← named_trimParts ps]
  generalize trimParts ps = kept at h hkept
  rcases h with rfl | ⟨rfl, hhead⟩ | ⟨rfl, hhead⟩
  · show frontComponent ['/'] ++ named (parts (Text.join ['/'] kept)) = _
    rw [hnamed kept hkept]
  · cases kept with
    | nil => rfl
    | cons part more =>
      obtain rfl := hhead part rfl
      cases more with
      | nil => rfl
      | cons q more =>
        rw [Text.join, List.intercalate_cons_cons, ← Text.join]
        show frontComponent ['.'] ++ named (parts ([] ++ '/' :: Text.join ['/'] (q :: more))) = _
        rw [parts_append, named_append, hnamed _ fun part hp => hkept part (List.mem_cons_of_mem _ hp)]
        rfl
  · cases kept with
    | nil => rfl
    | cons part more =>
      have hpart := hhead part rfl
      have hslash := hkept part List.mem_cons_self
      have hplain : Plain (Text.join ['/'] (part :: more)) := by
        obtain ⟨t, ht⟩ : ∃ t, Text.join ['/'] (part :: more) = part ++ t ∧
            (t = [] ∨ ∃ r, t = '/' :: r) := by
          cases more with
          | nil => exact ⟨[], by simp [Text.join], .inl rfl⟩
          | cons q more => exact ⟨'/' :: Text.join ['/'] (q :: more), by
              simp [Text.join, List.intercalate_cons_cons], .inr ⟨_, rfl⟩⟩
        rw [ht.1]
        simp only [isComponent, Bool.not_eq_true', Bool.or_eq_false_iff] at hpart
        cases part with
        | nil => simp at hpart
        | cons c part =>
          have hc : c ≠ '/' := fun he => hslash (he ▸ List.mem_cons_self)
          refine ⟨fun r he => hc (List.cons.inj he).1, fun he => ?_, fun r he => ?_⟩
          · simp_all
          · cases part with
            | nil => simp_all
            | cons d part =>
              have hd : d ≠ '/' := fun he => hslash (by simp [he])
              simp_all
      rw [List.nil_append, components_eq, split_plain hplain]
      rw [hnamed _ hkept]

/-! ## Joining -/

/-- What follows behind a slash does not change how a text begins. -/
theorem Plain.append {u : Text} (h : Plain u) (hu : u ≠ []) (t : Text) : Plain (u ++ '/' :: t) := by
  cases u with
  | nil => exact absurd rfl hu
  | cons c u =>
    refine ⟨fun r he => h.root u ?_, fun he => ?_, fun r he => ?_⟩
    · rw [(List.cons.inj he).1]
    · simp at he
    · obtain ⟨rfl, htail⟩ := List.cons.inj he
      cases u with
      | nil => exact h.dot rfl
      | cons d u => exact h.current u (by rw [(List.cons.inj htail).1])

/-- What is added behind a slash adds the components of its parts. -/
theorem components_append {u : Text} (hu : u ≠ []) (t : Text) :
    (⟨u ++ '/' :: t⟩ : Path).components = (⟨u⟩ : Path).components ++ named (parts t) := by
  have hsplit : (⟨u ++ '/' :: t⟩ : Path).split =
      ((⟨u⟩ : Path).split.1, (⟨u⟩ : Path).split.2 ++ '/' :: t) := by
    rcases front_cases ⟨u⟩ with ⟨r, hr, hs⟩ | ⟨r, hr, hs, hr'⟩ | ⟨hplain, hs⟩
    · simp only at hr
      rw [hs, hr]
      rfl
    · simp only at hr
      rw [hs, hr]
      rcases hr' with rfl | ⟨t', rfl⟩ <;> rfl
    · rw [hs]
      exact split_plain (hplain.append hu t)
  rw [components_eq, components_eq, hsplit, parts_append, named_append, List.append_assoc]

/-- What a part can be as a component. -/
theorem mem_named {ps : List Text} {c : Component} (h : c ∈ named ps) :
    c = .above ∨ ∃ part ∈ ps, isComponent part = true ∧ part ≠ ['.', '.'] ∧ c = .name part := by
  obtain ⟨part, hpart, rfl⟩ := List.mem_map.1 h
  obtain ⟨hmem, hcomponent⟩ := List.mem_filter.1 hpart
  unfold Component.ofPart
  split
  · exact .inl rfl
  · next hne => exact .inr ⟨part, hmem, hcomponent, hne, rfl⟩

theorem root_not_mem_named (ps : List Text) : Component.root ∉ named ps := fun h => by
  rcases mem_named h with he | ⟨_, _, _, _, he⟩ <;> cases he

theorem current_not_mem_named (ps : List Text) : Component.current ∉ named ps := fun h => by
  rcases mem_named h with he | ⟨_, _, _, _, he⟩ <;> cases he

/-- A path is from the root exactly if the root is one of its components. -/
theorem root_mem_components {p : Path} : .root ∈ p.components ↔ p.hasRoot = true := by
  rcases front_cases p with ⟨r, hr, hs⟩ | ⟨r, hr, hs, -⟩ | ⟨hplain, hs⟩
  · simp [components_eq, hs, hasRoot, hr, frontComponent]
  · simp [components_eq, hs, hasRoot, hr, frontComponent, root_not_mem_named]
  · have hnot : p.hasRoot = false := by
      rw [hasRoot]
      cases ht : p.text with
      | nil => rfl
      | cons c r =>
        have hc : c ≠ '/' := fun he => hplain.root r (he ▸ ht)
        simpa using hc
    simp [components_eq, hs, hnot, frontComponent, root_not_mem_named]

/-- The parts of a path that is not from the root are its components, less the current directory. -/
theorem named_parts {q : Path} (hq : q.hasRoot = false) :
    named (parts q.text) = q.components.filter (· != .current) := by
  have hkeep : ∀ ps : List Text, (named ps).filter (· != .current) = named ps := fun ps =>
    List.filter_eq_self.2 fun c hc => by
      have : c ≠ .current := fun he => current_not_mem_named ps (he ▸ hc)
      simpa using this
  rcases front_cases q with ⟨r, hr, -⟩ | ⟨r, hr, hs, hr'⟩ | ⟨-, hs⟩
  · simp [hasRoot, hr] at hq
  · rw [components_eq, hs, hr]
    rcases hr' with rfl | ⟨t, rfl⟩
    · rfl
    · show named (parts (['.'] ++ '/' :: t)) =
        ([Component.current] ++ named (parts ([] ++ '/' :: t))).filter (· != .current)
      rw [parts_append, parts_append, List.filter_append, hkeep, named_append, named_append]
      rfl
  · rw [components_eq, hs, List.filter_append, hkeep]
    rfl

/-- **A joined path adds its components**, less a current directory at its front. -/
theorem components_join {p q : Path} (hp : p.text ≠ []) (hq : q.hasRoot = false) :
    (p.join q).components = p.components ++ q.components.filter (· != .current) := by
  have hempty : p.text.isEmpty = false := by simpa using hp
  rw [← named_parts hq, join, if_neg (by simp [hq])]
  split
  · next hslash =>
    simp only [hempty, Bool.false_or, decide_eq_true_eq] at hslash
    obtain ⟨u, hu⟩ := List.getLast?_eq_some_iff.1 hslash
    have hpath : p = ⟨u ++ '/' :: []⟩ := by rw [← hu]
    rw [hu, List.append_assoc, List.singleton_append, hpath]
    by_cases hne : u = []
    · subst hne
      rfl
    · rw [components_append hne, components_append hne, List.append_assoc]
      rfl
  · exact components_append hp q.text

/-- A path without components is no text at all. -/
theorem text_eq_nil {p : Path} (h : p.components = []) : p.text = [] := by
  rcases front_cases p with ⟨r, -, hs⟩ | ⟨r, -, hs, -⟩ | ⟨hplain, hs⟩
  · rw [components_eq, hs] at h
    cases h
  · rw [components_eq, hs] at h
    cases h
  · by_cases hne : p.text = []
    · exact hne
    · obtain ⟨part, ps, hps, hpart⟩ := hplain.head hne
      rw [components_eq, hs, hps, named_cons_of_pos hpart] at h
      cases h

/-! ## Names -/

/-- A component that is a name. -/
def Component.IsName (c : Component) : Prop :=
  ∃ text, c = .name text

theorem Component.IsName.ne_current {c : Component} (h : c.IsName) : c ≠ .current := by
  obtain ⟨text, rfl⟩ := h
  nofun

/-- A path of names is not from the root. -/
theorem not_hasRoot {q : Path} (hq : ∀ c ∈ q.components, c.IsName) : q.hasRoot = false := by
  cases h : q.hasRoot with
  | false => rfl
  | true =>
    obtain ⟨text, he⟩ := hq _ (root_mem_components.2 h)
    cases he

/-- **A path of names is added as it is**, whatever it is joined to. -/
theorem components_join_names {q : Path} (hq : ∀ c ∈ q.components, c.IsName) (p : Path) :
    (p.join q).components = p.components ++ q.components := by
  have hroot := not_hasRoot hq
  by_cases hp : p.text = []
  · have hpath : p = ⟨[]⟩ := by rw [← hp]
    rw [hpath, join, if_neg (by simp [hroot])]
    rfl
  · rw [components_join hp hroot, List.filter_eq_self.2 fun c hc => ?_]
    simpa using (hq c hc).ne_current

/-- A text that can be the name of a file. -/
structure IsFileName (text : Text) : Prop where
  component : isComponent text = true
  not_above : text ≠ ['.', '.']
  not_slash : '/' ∉ text

instance (text : Text) : Decidable (IsFileName text) :=
  decidable_of_iff (isComponent text = true ∧ text ≠ ['.', '.'] ∧ '/' ∉ text)
    ⟨fun h => ⟨h.1, h.2.1, h.2.2⟩, fun h => ⟨h.component, h.not_above, h.not_slash⟩⟩

theorem IsFileName.named_parts {text : Text} (h : IsFileName text) :
    named (parts text) = [.name text] := by
  rw [parts_of_not_slash h.not_slash, named_cons_of_pos h.component, Component.ofPart,
    if_neg h.not_above]
  rfl

theorem IsFileName.plain {text : Text} (h : IsFileName text) : Plain text where
  root := fun r he => h.not_slash (he ▸ List.mem_cons_self)
  dot := fun he => absurd (he ▸ h.component) (by decide)
  current := fun r he => h.not_slash (he ▸ by simp)

/-- The path of a name has it as its component. -/
theorem IsFileName.components {text : Text} (h : IsFileName text) :
    (⟨text⟩ : Path).components = [.name text] := by
  rw [components_eq, split_plain h.plain]
  exact h.named_parts

/-- **The folder of a file has all components but the last**, which is its name. -/
theorem parent?_of_fileName? {p : Path} {text : Text} (h : p.fileName? = some text) :
    IsFileName text ∧
      ∃ folder, p.parent? = some folder ∧ p.components = folder.components ++ [.name text] := by
  unfold fileName? at h
  cases hlast : (trimParts (parts p.split.2)).getLast? with
  | none => simp [hlast] at h
  | some part =>
    simp only [hlast] at h
    split at h
    · next hpart =>
      obtain rfl := Option.some.inj h
      simp only [Bool.and_eq_true, bne_iff_ne, ne_eq] at hpart
      obtain ⟨init, hinit⟩ := List.getLast?_eq_some_iff.1 hlast
      have hslash : ∀ q ∈ init ++ [part], '/' ∉ q := fun q hq =>
        not_slash_of_mem_parts ((trimParts_lead _).subset (hinit ▸ hq))
      have hname : IsFileName part := ⟨hpart.1, hpart.2, hslash part (by simp)⟩
      refine ⟨hname, ofParts p.split.1 init, ?_, ?_⟩
      · rw [parent?]
        simp only [hinit]
        cases hcons : init ++ [part] with
        | nil => simp at hcons
        | cons first more => simp [← hcons]
      · have hleads : Leads p.split.1 (trimParts init) :=
          (p.leads.of_lead ⟨[part], hinit.symm⟩).of_lead (trimParts_lead init)
        rw [components_ofParts (fun q hq => hslash q (List.mem_append_left _ hq)) hleads,
          components_eq, ← named_trimParts, hinit, named_append, named_cons_of_pos hname.component,
          Component.ofPart, if_neg hname.not_above, List.append_assoc]
        rfl
    · cases h

/-- A folder that leads to a path lacks its last component, which is not the root. -/
theorem parent?_eq_some {p folder : Path} (h : p.parent? = some folder) :
    ∃ c, c ≠ .root ∧ p.components = folder.components ++ [c] := by
  rw [parent?] at h
  simp only at h
  cases hlast : (trimParts (parts p.split.2)).getLast? with
  | none =>
    have hkept := List.getLast?_eq_none_iff.1 hlast
    rw [hkept] at h
    dsimp only at h
    split at h
    · next hfront =>
      obtain rfl := Option.some.inj h
      refine ⟨.current, nofun, ?_⟩
      rw [components_eq, hfront, ← named_trimParts, hkept]
      rfl
    · cases h
  | some part =>
    obtain ⟨init, hinit⟩ := List.getLast?_eq_some_iff.1 hlast
    have hslash : ∀ q ∈ init, '/' ∉ q := fun q hq =>
      not_slash_of_mem_parts ((trimParts_lead _).subset (hinit ▸ List.mem_append_left _ hq))
    have hleads : Leads p.split.1 (trimParts init) :=
      (p.leads.of_lead ⟨[part], hinit.symm⟩).of_lead (trimParts_lead init)
    have hfolder : ofParts p.split.1 init = folder := by
      rw [hinit] at h
      cases hcons : init ++ [part] with
      | nil => simp at hcons
      | cons first more =>
        rw [hcons] at h
        simpa [← hcons] using h
    refine ⟨.ofPart part, fun hroot => ?_, ?_⟩
    · unfold Component.ofPart at hroot
      split at hroot <;> cases hroot
    · rw [← hfolder, components_ofParts hslash hleads, components_eq, ← named_trimParts, hinit,
        named_append, named_cons_of_pos (isComponent_of_getLast? hlast), List.append_assoc]
      rfl

/-- A path is from the root exactly if its folder is. -/
theorem hasRoot_parent? {p folder : Path} (h : p.parent? = some folder) :
    folder.hasRoot = p.hasRoot := by
  obtain ⟨c, hc, hcomponents⟩ := parent?_eq_some h
  rw [Bool.eq_iff_iff, ← root_mem_components, ← root_mem_components, hcomponents, List.mem_append,
    List.mem_singleton, or_iff_left hc.symm]

/-- The folder of a path leads to it. -/
theorem parent?_lead (p : Path) : (p.parent?.getD ⟨[]⟩).components <+: p.components := by
  cases hfolder : p.parent? with
  | none => exact List.nil_prefix
  | some folder =>
    obtain ⟨c, -, hcomponents⟩ := parent?_eq_some hfolder
    exact ⟨[c], hcomponents.symm⟩

/-- **A path whose last component is a name names a file**. -/
theorem fileName?_of_components {p : Path} {cs : List Component} {text : Text}
    (h : p.components = cs ++ [.name text]) : p.fileName? = some text := by
  cases hlast : (trimParts (parts p.split.2)).getLast? with
  | none =>
    -- without parts there is only the front, and that is no name
    rw [List.getLast?_eq_none_iff] at hlast
    have hmem : Component.name text ∈ frontComponent p.split.1 := by
      rw [components_eq, ← named_trimParts, hlast, named_nil, List.append_nil] at h
      simp [h]
    unfold frontComponent at hmem
    split at hmem <;> simp at hmem
  | some part =>
    have hpart := isComponent_of_getLast? hlast
    obtain ⟨init, hinit⟩ := List.getLast?_eq_some_iff.1 hlast
    rw [components_eq, ← named_trimParts, hinit, named_append, named_cons_of_pos hpart, named_nil,
      ← List.append_assoc] at h
    have hname : Component.ofPart part = .name text :=
      (List.cons.inj (List.append_inj' h rfl).2).1
    unfold Component.ofPart at hname
    split at hname
    · cases hname
    · next habove =>
      obtain rfl := Component.name.inj hname
      simp [fileName?, hlast, hpart, habove]

/-- A path of names is empty or names a file. -/
theorem exists_fileName? {p : Path} (hne : p.components ≠ []) (h : ∀ c ∈ p.components, c.IsName) :
    ∃ text, p.fileName? = some text := by
  obtain ⟨text, htext⟩ := h _ (List.getLast_mem hne)
  exact ⟨text, fileName?_of_components (htext ▸ (List.dropLast_concat_getLast hne).symm)⟩

/-! ## Leading paths -/

/-- The components of the parts behind some of them. -/
theorem named_dropComponents (n : Nat) (ps : List Text) :
    named (dropComponents n ps) = (named ps).drop n ∧
      (∀ part, (dropComponents n ps).head? = some part → isComponent part = true) ∧
      ∀ part ∈ dropComponents n ps, part ∈ ps := by
  fun_induction dropComponents n ps with
  | case1 n => simp
  | case2 n part ps hpart ih =>
    rw [Bool.not_eq_true'] at hpart
    rw [named_cons_of_neg hpart]
    exact ⟨ih.1, ih.2.1, fun q hq => List.mem_cons_of_mem _ (ih.2.2 q hq)⟩
  | case3 part ps hpart =>
    refine ⟨rfl, fun q hq => ?_, fun q hq => hq⟩
    cases hq
    simpa using hpart
  | case4 part ps hpart n ih =>
    rw [named_cons_of_pos (by simpa using hpart), List.drop_succ_cons]
    exact ⟨ih.1, ih.2.1, fun q hq => List.mem_cons_of_mem _ (ih.2.2 q hq)⟩

theorem relativeTo?_eq (base p : Path) :
    relativeTo? base p =
      if !base.components.isPrefixOf p.components then none
      else if base.components.isEmpty then some (ofParts p.split.1 (parts p.split.2))
      else some (ofParts [] (dropComponents
        (base.components.length - (frontComponent p.split.1).length) (parts p.split.2))) :=
  rfl

/-- **What is left of a path behind another one has the components that are left**. -/
theorem relativeTo?_of_lead {base p : Path} (h : base.components <+: p.components) :
    ∃ rest, relativeTo? base p = some rest ∧
      rest.components = p.components.drop base.components.length := by
  have hslash : ∀ part ∈ parts p.split.2, '/' ∉ part := fun part => not_slash_of_mem_parts
  rw [relativeTo?_eq, if_neg (by simpa using h)]
  split
  · next hempty =>
    refine ⟨_, rfl, ?_⟩
    rw [components_ofParts hslash p.leads, List.isEmpty_iff.1 hempty]
    rfl
  · next hempty =>
    obtain ⟨hnamed, hhead, hmem⟩ := named_dropComponents
      (base.components.length - (frontComponent p.split.1).length) (parts p.split.2)
    refine ⟨_, rfl, ?_⟩
    rw [components_ofParts (fun part hp => hslash part (hmem part hp))
      ((show Leads [] _ from .inr (.inr ⟨rfl, hhead⟩)).of_lead (trimParts_lead _)), hnamed,
      components_eq p, List.drop_append]
    have hfront : (frontComponent p.split.1).length ≤ base.components.length := by
      have hpos := List.length_pos_iff.2 (List.isEmpty_eq_false_iff.1 (Bool.not_eq_true _ ▸ hempty))
      unfold frontComponent
      split <;> simp <;> omega
    rw [List.drop_eq_nil_of_le hfront]
    rfl

/-- A path stands in another one if it goes on with names from there. -/
def Holds (p q : Path) : Prop :=
  ∃ names, q.components = p.components ++ names ∧ ∀ c ∈ names, c.IsName

/-! ## What paths are written with -/

theorem mem_text_of_mem_split {p : Path} {c : Char} (h : c ∈ p.split.1 ∨ c ∈ p.split.2) :
    c ∈ p.text := by
  obtain ⟨text⟩ := p
  unfold split at h
  split at h <;> simp_all

theorem mem_text_of_mem_parts {p : Path} {part : Text} {c : Char} (hpart : part ∈ parts p.split.2)
    (hc : c ∈ part) : c ∈ p.text :=
  mem_text_of_mem_split (.inr (Text.mem_of_mem_splitWhere hpart hc))

theorem mem_text_ofParts {front : Text} {ps : List Text} {c : Char}
    (h : c ∈ (ofParts front ps).text) : c ∈ front ∨ c = '/' ∨ ∃ part ∈ ps, c ∈ part := by
  rcases List.mem_append.1 h with h | h
  · exact .inl h
  rcases Text.mem_join h with h | ⟨part, hpart, h⟩
  · exact .inr (.inl (List.mem_singleton.1 h))
  · exact .inr (.inr ⟨part, (trimParts_lead ps).subset hpart, h⟩)

/-- What is left of a path is written with its characters. -/
theorem mem_text_of_relativeTo? {base p rest : Path} (h : relativeTo? base p = some rest) {c : Char}
    (hc : c ∈ rest.text) : c = '/' ∨ c ∈ p.text := by
  have hparts : ∀ {front ps}, (∀ d ∈ front, d ∈ p.text) → (∀ part ∈ ps, part ∈ parts p.split.2) →
      c ∈ (ofParts front ps).text → c = '/' ∨ c ∈ p.text := by
    intro front ps hfront hps hc
    rcases mem_text_ofParts hc with hc | hc | ⟨part, hpart, hc⟩
    · exact .inr (hfront c hc)
    · exact .inl hc
    · exact .inr (mem_text_of_mem_parts (hps part hpart) hc)
  rw [relativeTo?_eq] at h
  split at h
  · cases h
  split at h <;> cases h
  · exact hparts (fun _ hd => mem_text_of_mem_split (.inl hd)) (fun _ hp => hp) hc
  · exact hparts (fun _ hd => absurd hd List.not_mem_nil) (named_dropComponents _ _).2.2 hc

theorem mem_text_of_fileName? {p : Path} {name : Text} (h : p.fileName? = some name) {c : Char}
    (hc : c ∈ name) : c ∈ p.text := by
  unfold fileName? at h
  split at h
  · next part hlast =>
    obtain ⟨-, h⟩ := Option.ite_none_right_eq_some.1 h
    cases h
    exact mem_text_of_mem_parts ((trimParts_lead _).subset (List.mem_of_getLast? hlast)) hc
  · cases h

/-! ## Paths of components -/

/-- A component can stand behind others. -/
def Component.Stands (before : List Component) : Component → Prop
  | root | current => before = []
  | above => True
  | name text => IsFileName text

/-- Each component of a path stands behind those before it. -/
theorem stands_of_components {p : Path} {before after : List Component} {c : Component}
    (h : p.components = before ++ c :: after) : c.Stands before := by
  have hname : ∀ text, .name text ∈ p.components → IsFileName text := by
    intro text hmem
    have hmem : Component.name text ∈ named (parts p.split.2) := by
      rw [components_eq, List.mem_append] at hmem
      refine hmem.resolve_left fun hfront => ?_
      unfold frontComponent at hfront
      split at hfront <;> simp at hfront
    rcases mem_named hmem with he | ⟨part, hpart, hcomponent, hne, he⟩
    · cases he
    · cases he
      exact ⟨hcomponent, hne, not_slash_of_mem_parts hpart⟩
  -- the root and the current directory are not among the parts
  have hlead : ∀ {d : Component}, (∀ ps, d ∉ named ps) → c = d → before = [] := by
    intro d hd hc
    rw [components_eq] at h
    cases hb : before with
    | nil => rfl
    | cons b before =>
      rw [hb] at h
      refine absurd ?_ (hd (parts p.split.2))
      have hfront : frontComponent p.split.1 = [] ∨ ∃ e, frontComponent p.split.1 = [e] := by
        unfold frontComponent
        split
        · exact .inr ⟨_, rfl⟩
        · exact .inr ⟨_, rfl⟩
        · exact .inl rfl
      rcases hfront with he | ⟨e, he⟩
      · rw [he, List.nil_append] at h
        simp [h, hc]
      · rw [he, List.singleton_append, List.cons_append] at h
        simp [(List.cons.inj h).2, hc]
  cases c with
  | root => exact hlead root_not_mem_named rfl
  | current => exact hlead current_not_mem_named rfl
  | above => trivial
  | name text => exact hname text (h ▸ by simp)

/-- The root is the first component. -/
theorem eq_nil_of_components {p : Path} {before after : List Component}
    (h : p.components = before ++ .root :: after) : before = [] :=
  stands_of_components h

/-- A path is from the root exactly if the root is its first component. -/
theorem hasRoot_iff_lead {p : Path} : p.hasRoot = true ↔ [.root] <+: p.components := by
  rw [← root_mem_components]
  constructor
  · intro hroot
    obtain ⟨before, after, hsplit⟩ := List.append_of_mem hroot
    obtain rfl := eq_nil_of_components hsplit
    exact ⟨after, hsplit.symm⟩
  · exact fun hlead => hlead.subset (List.mem_singleton_self _)

/-- **What is left of a path behind another one can be joined to it again**, unless it is a whole
path from the root. -/
theorem components_join_of_lead {base p : Path} (h : base.components <+: p.components)
    (hroot : base.components = [] → p.hasRoot = false) :
    ∃ rest, relativeTo? base p = some rest ∧ (base.join rest).components = p.components := by
  obtain ⟨rest, hrest, hcomponents⟩ := relativeTo?_of_lead h
  refine ⟨rest, hrest, ?_⟩
  by_cases hempty : base.components = []
  · have hbase : base = ⟨[]⟩ := by rw [← text_eq_nil hempty]
    rw [hempty, List.length_nil, List.drop_zero] at hcomponents
    have hfrom : rest.hasRoot = false := by
      rw [← hroot hempty, Bool.eq_iff_iff, ← root_mem_components, ← root_mem_components,
        hcomponents]
    rw [hbase, join, if_neg (by simp [hfrom])]
    exact hcomponents
  · obtain ⟨more, hmore⟩ := h
    rw [← hmore, List.drop_left] at hcomponents
    -- behind a component there is neither the root nor the current directory
    have hbehind : ∀ c ∈ rest.components, c ≠ .root ∧ c ≠ .current := by
      intro c hc
      obtain ⟨before, after, hsplit⟩ := List.append_of_mem (hcomponents ▸ hc)
      have hstands : c.Stands (base.components ++ before) :=
        @stands_of_components p _ after c (by rw [← hmore, hsplit, List.append_assoc])
      have hne : base.components ++ before ≠ [] := fun he =>
        hempty (List.append_eq_nil_iff.1 he).1
      exact ⟨fun he => hne (he ▸ hstands :), fun he => hne (he ▸ hstands :)⟩
    have hfrom : rest.hasRoot = false := Bool.eq_false_iff.2 fun hfrom =>
      (hbehind .root (root_mem_components.2 hfrom)).1 rfl
    rw [components_join (fun he => hempty (by rw [show base = ⟨[]⟩ by rw [← he]]; rfl)) hfrom,
      List.filter_eq_self.2 fun c hc => by simpa using (hbehind c hc).2, hcomponents, hmore]

/-- **Components of a path make up a path that has them**. -/
theorem components_ofComponents {cs : List Component}
    (h : ∀ before c after, cs = before ++ c :: after → c.Stands before) :
    (ofComponents cs).components = cs := by
  induction cs using List.reverseRecOn with
  | nil => rfl
  | append_singleton cs c ih =>
    have hcs := ih fun before c' after he =>
      h before c' (after ++ [c]) (by rw [he, List.append_assoc, List.cons_append])
    have hc := h cs c [] rfl
    have hstep : ofComponents (cs ++ [c]) = (ofComponents cs).join ⟨c.text⟩ := by
      rw [ofComponents, List.foldl_append]
      rfl
    rw [hstep]
    have hlast : ∀ part, part ≠ [] → (⟨part⟩ : Path).hasRoot = false →
        ((ofComponents cs).join ⟨part⟩).components =
          if cs = [] then (⟨part⟩ : Path).components else cs ++ named (parts part) := by
      intro part _ hroot
      split
      · next hnil =>
        subst hnil
        rw [ofComponents, List.foldl_nil, join, if_neg (by simp [hroot])]
        rfl
      · next hne =>
        have htext : (ofComponents cs).text ≠ [] := fun he => hne (by
          rw [← hcs, show ofComponents cs = ⟨[]⟩ by rw [← he]]
          rfl)
        rw [components_join htext hroot, hcs, ← named_parts hroot]
    cases c with
    | root =>
      obtain rfl : cs = [] := hc
      rfl
    | current =>
      obtain rfl : cs = [] := hc
      rfl
    | above =>
      rw [show (Component.above).text = ['.', '.'] from rfl, hlast _ (by simp) rfl]
      split
      · next hnil =>
        subst hnil
        rfl
      · rfl
    | name text =>
      have hroot : (⟨text⟩ : Path).hasRoot = false := not_hasRoot fun c hcmem => by
        rw [hc.components, List.mem_singleton] at hcmem
        exact ⟨text, hcmem⟩
      rw [show (Component.name text).text = text from rfl,
        hlast text (fun he => by have := hc.component; simp [he, isComponent] at this) hroot,
        hc.components, hc.named_parts]
      split
      · next hnil =>
        subst hnil
        rfl
      · rfl

end Scholia.Path
