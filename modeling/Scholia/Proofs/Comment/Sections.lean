import Scholia.Proofs.Comment.Docstring
/-!
# Sections as they are written

A docstring is written as a description, a paragraph of its own, and sections behind it: headers with
entries that begin at one column, each with deeper rows that go on with it. Empty rows may stand
anywhere but in the description. `Sheet.lines` is what such a docstring says: the description, and
the entries of each kind of section in their order.

The reader takes a row for a header wherever it stands, and passes over a row that says that there
are no entries. So a docstring is read as it is written exactly if it has no such row in the place of
another (`read_sections_iff`). That it has none if it is read so is seen by counting: such a row is
lost, and no other row makes up for it.
-/

namespace Scholia.Comment.Docstring

open Doc (Line entry)
open Text (allBlank isBlank join margin trim)

/-! ## Sections as they are written -/

/-- An entry: a name, indented, and a colon, with what is said behind it and in deeper rows. -/
structure Item where
  name : Text
  text : Text
  more : List Text
  deriving Repr, DecidableEq

namespace Item

def head (i : Item) : Text :=
  i.name ++ ':' :: i.text

def rows (i : Item) : List Text :=
  i.head :: i.more

/-- What an entry says: each row on a line of its own. -/
def said (i : Item) : Text :=
  join ['\n'] (entry (trim i.name) (trim i.text) :: i.more.map trim)

/-- The rows of an entry stand where those of a section begin, or deeper. -/
structure IsLegible (i : Item) (column : Nat) : Prop where
  name : allBlank i.name = false ∧ ':' ∉ i.name
  head : margin i.head = column ∧ ¬ IsHeader i.head
  more : ∀ row ∈ i.more, allBlank row = false ∧ column < margin row

end Item

/-- A section: its header, and entries that begin at one column. -/
structure Part where
  kind : Section
  header : Text
  items : List Item
  deriving Repr, DecidableEq

namespace Part

def rows (p : Part) : List Text :=
  p.header :: p.items.flatMap Item.rows

structure IsLegible (p : Part) : Prop where
  header : trim p.header ∈ p.kind.headers
  items : ∃ column, ∀ i ∈ p.items, i.IsLegible column

end Part

/-- What stands in a docstring, apart from empty rows. -/
structure Sheet where
  description : List Text
  parts : List Part
  deriving Repr, DecidableEq

namespace Sheet

structure IsLegible (d : Sheet) : Prop where
  description : d.description ≠ [] ∧ ∀ row ∈ d.description, allBlank row = false
  parts : ∀ p ∈ d.parts, p.IsLegible

/-- The rows that go on with an entry. -/
def continuations (d : Sheet) : List Text :=
  d.parts.flatMap fun p => p.items.flatMap Item.more

/-- The rows of a docstring: the description in one paragraph, the first, and the sections behind it.
Empty rows may stand anywhere else. -/
def Fills (d : Sheet) (rows : List Text) : Prop :=
  ∃ lead tail, rows = lead ++ (d.description ++ tail) ∧ (∀ row ∈ lead, allBlank row = true) ∧
    (∀ row, tail.head? = some row → allBlank row = true) ∧
    tail.filter (!allBlank ·) = d.parts.flatMap Part.rows

/-- The entries of all sections of a kind. -/
def points (d : Sheet) (kind : Section) : List Text :=
  (d.parts.filter (·.kind = kind)).flatMap fun p => p.items.map Item.said

/-- What a docstring with these rows says. -/
def lines (d : Sheet) : List Line :=
  sections
    [ ("Description:".toList, descriptionLines (d.description.map trim)),
      ("Arguments:".toList, bulletList (d.points .arguments)),
      ("Returns:".toList, bulletList (d.points .returns)),
      ("Raises:".toList, bulletList (d.points .raises)) ]

end Sheet

/-! ## Entries -/

variable {s : State} {part : Section} {i : Item} {column : Nat}

/-- The head of an entry is cut at its colon. -/
theorem cutAt?_head (h : i.IsLegible column) : ∃ name text,
    Text.cutAt? [':'] (trim i.head) = some (name, text) ∧ trim name = trim i.name ∧
      trim text = trim i.text := by
  obtain ⟨lead, c, r, hname, hlead, hc⟩ := Text.exists_first_ink h.name.1
  have hcolon : ':' ∉ c :: r := fun hmem => h.name.2 (hname ▸ List.mem_append_right lead hmem)
  have hhead : trim i.head = (c :: r) ++ ':' :: Text.trimEnd i.text := by
    have hstart : ∀ u : Text, Text.trimStart (c :: u) = c :: u := Text.trimStart_ink (w := []) rfl hc
    rw [Item.head, hname, List.append_assoc, Text.trim_blanks hlead, trim, List.cons_append, hstart,
      ← List.cons_append, Text.trimEnd_stop (by decide)]
  refine ⟨c :: r, Text.trimEnd i.text, ?_, ?_, Text.trim_trimEnd _⟩
  · rw [hhead]
    exact Text.cutAt?_of_not_mem hcolon [] _
  · rw [hname, Text.trim_blanks hlead]

theorem Item.IsLegible.blank (h : i.IsLegible column) : allBlank i.head = false := by
  rw [Item.head, Text.allBlank_append, h.name.1, Bool.false_and]

theorem Item.IsLegible.not_isNone (h : i.IsLegible column) : ¬ IsNone i.head := by
  obtain ⟨name, text, hcut, -⟩ := cutAt?_head h
  rintro (hnone | hnone) <;>
  · rw [hnone] at hcut
    cases hcut

/-- The head of an entry begins it. -/
theorem step_head (hpart : s.current = some part) (hindent : s.indent.getD column = column)
    (h : i.IsLegible column) : s.step i.head =
      s.put part column (entry (trim i.name) (trim i.text) :: s.entries part) := by
  obtain ⟨name, text, hcut, hname, htext⟩ := cutAt?_head h
  have hadd : addLine (decide (column ≤ column)) (trim i.head) (s.entries part) =
      entry (trim i.name) (trim i.text) :: s.entries part := by
    rw [decide_eq_true le_rfl, ← hname, ← htext]
    unfold addLine
    rw [hcut]
  rw [State.step_open hpart h.blank h.head.2, if_neg h.not_isNone, h.head.1, hindent, hadd]

/-- A deeper row goes on with the entry. -/
theorem step_more {row last : Text} {es : List Text} (hpart : s.current = some part)
    (hrow : allBlank row = false ∧ column < margin row) (hheader : ¬ IsHeader row)
    (hnone : ¬ IsNone row) :
    (s.put part column (last :: es)).step row =
      s.put part column ((last ++ '\n' :: trim row) :: es) := by
  have hadd : addLine (decide (margin row ≤ column)) (trim row) (last :: es) =
      (last ++ '\n' :: trim row) :: es := by
    rw [decide_eq_false (Nat.not_le.2 hrow.2)]
    unfold addLine
    cases Text.cutAt? [':'] (trim row) <;> rfl
  rw [State.step_open (by simpa using hpart) hrow.1 hheader, if_neg hnone, State.indent_put,
    Option.getD_some, State.entries_put, hadd, State.put_put]

theorem foldl_more {more : List Text} {last : Text} {es : List Text} (hpart : s.current = some part)
    (hdeeper : ∀ row ∈ more, allBlank row = false ∧ column < margin row)
    (hplain : ∀ row ∈ more, ¬ IsHeader row ∧ ¬ IsNone row) :
    more.foldl State.step (s.put part column (last :: es)) =
      s.put part column (join ['\n'] (last :: more.map trim) :: es) := by
  induction more generalizing last with
  | nil => simp [join]
  | cons row more ih =>
    obtain ⟨hrow, hdeeper⟩ := List.forall_mem_cons.1 hdeeper
    obtain ⟨⟨hheader, hnone⟩, hplain⟩ := List.forall_mem_cons.1 hplain
    rw [List.foldl_cons, step_more hpart hrow hheader hnone, ih hdeeper hplain, Text.join_glue,
      List.map_cons]

/-- **An entry is read whole**: its rows leave what it says, in front of the section's entries. -/
theorem foldl_item (hpart : s.current = some part) (hindent : s.indent.getD column = column)
    (h : i.IsLegible column) (hplain : ∀ row ∈ i.more, ¬ IsHeader row ∧ ¬ IsNone row) :
    i.rows.foldl State.step s = s.put part column (i.said :: s.entries part) := by
  rw [Item.rows, List.foldl_cons, step_head hpart hindent h, foldl_more hpart h.more hplain,
    Item.said]

/-- What has been read besides, section by section. -/
structure State.Gains (s t : State) (points : Section → List Text) : Prop where
  description : t.description = s.description
  entries : ∀ part, t.entries part = (points part).reverse ++ s.entries part

theorem State.Gains.refl (s : State) : s.Gains s fun _ => [] :=
  ⟨rfl, fun _ => rfl⟩

theorem State.Gains.trans {t u : State} {points others : Section → List Text} (h : s.Gains t points)
    (h' : t.Gains u others) : s.Gains u fun part => points part ++ others part where
  description := h'.description.trans h.description
  entries part := by rw [h'.entries, h.entries, List.reverse_append, List.append_assoc]

theorem gains_item (hpart : s.current = some part) (hindent : s.indent.getD column = column)
    (h : i.IsLegible column) (hplain : ∀ row ∈ i.more, ¬ IsHeader row ∧ ¬ IsNone row) :
    s.Gains (i.rows.foldl State.step s) fun kind => if part = kind then [i.said] else [] := by
  rw [foldl_item hpart hindent h hplain]
  refine ⟨State.description_put, fun kind => ?_⟩
  by_cases hkind : part = kind
  · subst hkind
    rw [State.entries_put, if_pos rfl]
    rfl
  · rw [State.entries_put_of_ne (Ne.symm hkind), if_neg hkind]
    rfl

theorem gains_items {items : List Item} (hpart : s.current = some part)
    (hindent : s.indent.getD column = column) (h : ∀ i ∈ items, i.IsLegible column)
    (hplain : ∀ i ∈ items, ∀ row ∈ i.more, ¬ IsHeader row ∧ ¬ IsNone row) :
    s.Gains ((items.flatMap Item.rows).foldl State.step s) fun kind =>
      if part = kind then items.map Item.said else [] := by
  induction items generalizing s with
  | nil => simpa using State.Gains.refl s
  | cons i items ih =>
    obtain ⟨hi, hitems⟩ := List.forall_mem_cons.1 h
    obtain ⟨hmore, hplain⟩ := List.forall_mem_cons.1 hplain
    have hfirst := gains_item hpart hindent hi hmore
    have hrest := ih (s := i.rows.foldl State.step s)
      (by rw [foldl_item hpart hindent hi hmore]; simpa using hpart)
      (by rw [foldl_item hpart hindent hi hmore]; simp) hitems hplain
    have hpoints : (fun kind => (if part = kind then [i.said] else []) ++
        if part = kind then items.map Item.said else []) =
          fun kind => if part = kind then (i :: items).map Item.said else [] := by
      funext kind
      split <;> rfl
    rw [List.flatMap_cons, List.foldl_append, ← hpoints]
    exact hfirst.trans hrest

/-- **A section is read whole**, whatever was open before it. -/
theorem gains_part {p : Part} (h : p.IsLegible)
    (hplain : ∀ i ∈ p.items, ∀ row ∈ i.more, ¬ IsHeader row ∧ ¬ IsNone row) :
    s.Gains (p.rows.foldl State.step s) fun kind =>
      if p.kind = kind then p.items.map Item.said else [] := by
  obtain ⟨column, hitems⟩ := h.items
  have hgains := gains_items (s := s.step p.header) (by rw [State.step_header s h.header])
    (by rw [State.step_header s h.header]; rfl) hitems hplain
  rw [Part.rows, List.foldl_cons]
  refine ⟨hgains.description.trans ?_, fun kind => (hgains.entries kind).trans ?_⟩
  · rw [State.step_header s h.header]
  · rw [State.step_header s h.header]
    cases kind <;> rfl

theorem gains_parts {parts : List Part} (h : ∀ p ∈ parts, p.IsLegible)
    (hplain : ∀ p ∈ parts, ∀ i ∈ p.items, ∀ row ∈ i.more, ¬ IsHeader row ∧ ¬ IsNone row) :
    s.Gains ((parts.flatMap Part.rows).foldl State.step s) fun kind =>
      (parts.filter (·.kind = kind)).flatMap fun p => p.items.map Item.said := by
  induction parts generalizing s with
  | nil => simpa using State.Gains.refl s
  | cons p parts ih =>
    obtain ⟨hp, hparts⟩ := List.forall_mem_cons.1 h
    obtain ⟨hfirst, hplain⟩ := List.forall_mem_cons.1 hplain
    have hpoints : (fun kind => (if p.kind = kind then p.items.map Item.said else []) ++
        (parts.filter (·.kind = kind)).flatMap fun p => p.items.map Item.said) =
          fun kind =>
            ((p :: parts).filter (·.kind = kind)).flatMap fun p => p.items.map Item.said := by
      funext kind
      by_cases hkind : p.kind = kind <;> simp [hkind]
    rw [List.flatMap_cons, List.foldl_append, ← hpoints]
    exact (gains_part hp hfirst).trans (ih hparts hplain)

/-! ## Whole docstrings -/

/-- **The first paragraph is the description**, but for headers. -/
theorem foldl_paragraph {rows : List Text} (hcurrent : s.current = none)
    (hdescribed : s.described = false) (hblank : ∀ row ∈ rows, allBlank row = false)
    (hheader : ∀ row ∈ rows, ¬ IsHeader row) :
    rows.foldl State.step s =
      { s with description := (rows.map trim).reverse ++ s.description } := by
  induction rows generalizing s with
  | nil => rfl
  | cons row rows ih =>
    obtain ⟨hrow, hblank⟩ := List.forall_mem_cons.1 hblank
    obtain ⟨hplain, hheader⟩ := List.forall_mem_cons.1 hheader
    have hstep : s.step row = { s with description := trim row :: s.description } := by
      rw [State.step_closed hcurrent hrow hplain, hdescribed]
      rfl
    have hnext := ih (s := { s with description := trim row :: s.description }) hcurrent hdescribed
      hblank hheader
    rw [List.foldl_cons, hstep, hnext, List.map_cons, List.reverse_cons]
    simp

variable {d : Sheet} {rows : List Text}

/-- **The sections behind the description are read whole**. -/
theorem gains_tail {tail : List Text} (hparts : ∀ p ∈ d.parts, p.IsLegible)
    (hplain : ∀ row ∈ d.continuations, ¬ IsHeader row ∧ ¬ IsNone row)
    (hcurrent : s.current = none) (hread : s.description ≠ [])
    (hempty : ∀ row, tail.head? = some row → allBlank row = true)
    (htail : tail.filter (!allBlank ·) = d.parts.flatMap Part.rows) :
    s.Gains (tail.foldl State.step s) d.points := by
  have hmore : ∀ p ∈ d.parts, ∀ i ∈ p.items, ∀ row ∈ i.more, ¬ IsHeader row ∧ ¬ IsNone row :=
    fun p hp i hi row hrow => hplain row
      (List.mem_flatMap.2 ⟨p, hp, List.mem_flatMap.2 ⟨i, hi, hrow⟩⟩)
  cases tail with
  | nil =>
    have hnone := gains_parts (s := s) hparts hmore
    rwa [← htail] at hnone
  | cons row tail =>
    -- the row behind the first paragraph is empty, and ends it
    have hrow := hempty row rfl
    have hstep : s.step row = { s with described := true } := by
      have hended : (!s.description.isEmpty) = true := by simpa using hread
      rw [State.step_blank s hrow, hcurrent, hended, Option.isNone_none, Bool.true_and, Bool.or_true]
    have hsettled : ({ s with described := true } : State).Settled := .inl rfl
    rw [List.filter_cons_of_neg (by simp [hrow])] at htail
    have hrest := gains_parts (s := { s with described := true }) hparts hmore
    rw [List.foldl_cons, hstep, hsettled.foldl_filter, htail]
    exact ⟨hrest.description, fun kind => (hrest.entries kind).trans (by cases kind <;> rfl)⟩

theorem State.finish_eq (s : State) : s.finish = sections
    [ ("Description:".toList, descriptionLines s.description.reverse),
      ("Arguments:".toList, bulletList (s.entries .arguments).reverse),
      ("Returns:".toList, bulletList (s.entries .returns).reverse),
      ("Raises:".toList, bulletList (s.entries .raises).reverse) ] :=
  rfl

/-- Rows without headers where none is meant are read as what was meant. -/
theorem finish_foldl (hd : d.IsLegible) (hrows : d.Fills rows)
    (hdescription : ∀ row ∈ d.description, ¬ IsHeader row)
    (hplain : ∀ row ∈ d.continuations, ¬ IsHeader row ∧ ¬ IsNone row) :
    (rows.foldl State.step .initial).finish = d.lines := by
  obtain ⟨lead, tail, rfl, hlead, hempty, htail⟩ := hrows
  obtain ⟨hne, hblank⟩ := hd.description
  have hread : (d.description.map trim).reverse ++ State.initial.description ≠ [] := by
    simpa [State.initial] using hne
  rw [List.foldl_append, foldl_lead hlead, List.foldl_append,
    foldl_paragraph rfl rfl hblank hdescription]
  generalize hs : ({ State.initial with
    description := (d.description.map trim).reverse ++ State.initial.description } : State) = s
  have hgains : s.Gains (tail.foldl State.step s) d.points := by
    subst hs
    exact gains_tail hd.parts hplain rfl hread hempty htail
  have hentries : ∀ kind, (tail.foldl State.step s).entries kind = (d.points kind).reverse := by
    intro kind
    rw [hgains.entries, ← hs]
    cases kind <;> exact List.append_nil _
  rw [State.finish_eq, hgains.description, hentries, hentries, hentries, ← hs]
  simp [State.initial, Sheet.lines]

/-! ## What is lost -/

/-- The rows of all entries. -/
def Sheet.itemRows (d : Sheet) : List Text :=
  d.parts.flatMap fun p => p.items.flatMap Item.rows

theorem Item.weight_said (i : Item) : Text.weight i.said = total i.rows := by
  rw [Item.said, weight_join, total_cons, weight_entry, total_map_trim]
  rfl

theorem total_said (items : List Item) :
    total (items.map Item.said) = total (items.flatMap Item.rows) := by
  induction items with
  | nil => rfl
  | cons i items ih =>
    rw [List.map_cons, total_cons, ih, List.flatMap_cons, total_append, i.weight_said]

/-- The entries of the three kinds of sections are all there are. -/
theorem Sheet.total_points (d : Sheet) :
    total (d.points .arguments) + total (d.points .returns) + total (d.points .raises) =
      total d.itemRows := by
  unfold Sheet.points Sheet.itemRows
  induction d.parts with
  | nil => rfl
  | cons p parts ih =>
    rw [List.flatMap_cons, total_append, ← ih, ← total_said]
    cases hkind : p.kind <;> simp [hkind, total_append] <;> omega

theorem Sheet.linesWeight_lines (d : Sheet) :
    linesWeight d.lines = total d.description + total d.itemRows := by
  rw [Sheet.lines, linesWeight_sections, total_map_trim, ← d.total_points]
  omega

theorem worth_header {p : Part} (h : p.IsLegible) : worth p.header = 0 :=
  if_pos (.inl ⟨p.kind, h.header⟩)

/-- Headers and empty rows are worth nothing. -/
theorem Sheet.worth_tail {d : Sheet} {tail : List Text} (hd : d.IsLegible)
    (htail : tail.filter (!allBlank ·) = d.parts.flatMap Part.rows) :
    (tail.map worth).sum = (d.itemRows.map worth).sum := by
  have hfilter : (tail.map worth).sum = ((tail.filter (!allBlank ·)).map worth).sum := by
    clear htail
    induction tail with
    | nil => rfl
    | cons row tail ih =>
      cases hblank : allBlank row with
      | true => simp [hblank, ih, worth_of_allBlank hblank]
      | false => simp [hblank, ih]
  have hparts : ∀ parts : List Part, (∀ p ∈ parts, p.IsLegible) →
      ((parts.flatMap Part.rows).map worth).sum =
        ((parts.flatMap fun p => p.items.flatMap Item.rows).map worth).sum := by
    intro parts h
    induction parts with
    | nil => rfl
    | cons p parts ih =>
      obtain ⟨hp, hparts⟩ := List.forall_mem_cons.1 h
      simp only [List.flatMap_cons, List.map_append, List.sum_append, Part.rows, List.map_cons,
        List.sum_cons, worth_header hp, ih hparts]
      omega
  rw [hfilter, htail, Sheet.itemRows, hparts _ hd.parts]

/-- Counts that add up to as much as their bounds are all at their bounds. -/
theorem eq_of_sum_le {f g : Text → Nat} {texts : List Text} (hle : ∀ t ∈ texts, f t ≤ g t)
    (h : (texts.map g).sum ≤ (texts.map f).sum) : ∀ t ∈ texts, f t = g t := by
  intro t ht
  by_contra hne
  exact absurd (List.sum_lt_sum f g hle ⟨t, ht, lt_of_le_of_ne (hle t ht) hne⟩) (Nat.not_lt.2 h)

/-- Not all of a docstring is read, at most as much as its rows are worth. -/
theorem weight_foldl_fills (hd : d.IsLegible) (hrows : d.Fills rows) :
    (rows.foldl State.step .initial).weight ≤
      (d.description.map fun row => if IsHeader row then 0 else Text.weight row).sum +
        (d.itemRows.map worth).sum := by
  obtain ⟨lead, tail, rfl, hlead, htail, hparts⟩ := hrows
  obtain ⟨hne, hblank⟩ := hd.description
  have hdescription := weight_foldl_le .initial d.description
  have hinitial : State.initial.weight = 0 := rfl
  have hbegun : (d.description.foldl State.step .initial).Begun := by
    obtain ⟨row, hrow⟩ := List.exists_mem_of_ne_nil _ hne
    exact State.begun_foldl ⟨row, hrow, hblank row hrow⟩
  rw [List.foldl_append, foldl_lead hlead, List.foldl_append, ← Sheet.worth_tail hd hparts]
  generalize d.description.foldl State.step .initial = s at hdescription hbegun
  cases tail with
  | nil =>
    simp only [List.foldl_nil, List.map_nil, List.sum_nil]
    omega
  | cons row tail =>
    have hrow := htail row rfl
    have hstep : (s.step row).weight = s.weight := by
      rw [State.step_blank s hrow]
      rfl
    have hrest := weight_foldl_settled (hbegun.settled hrow) tail
    have hseen := sum_seen_le (s.step row) tail
    rw [List.foldl_cons, List.map_cons, List.sum_cons]
    omega

/-- **What is lost is missed**: rows that are read as they were meant lose no row. -/
theorem plain_of_finish (hd : d.IsLegible) (hrows : d.Fills rows)
    (hfinish : (rows.foldl State.step .initial).finish = d.lines) :
    (∀ row ∈ d.description, ¬ IsHeader row) ∧
      ∀ row ∈ d.continuations, ¬ IsHeader row ∧ ¬ IsNone row := by
  have hweight := congrArg linesWeight hfinish
  rw [linesWeight_finish, d.linesWeight_lines] at hweight
  have hread := weight_foldl_fills hd hrows
  have hheader : ∀ row : Text, (if IsHeader row then 0 else Text.weight row) ≤ Text.weight row := by
    intro row
    split <;> omega
  have hdescription := List.sum_le_sum fun row (_ : row ∈ d.description) => hheader row
  have hitems := List.sum_le_sum fun row (_ : row ∈ d.itemRows) => worth_le row
  have hink : ∀ {row : Text}, allBlank row = false → Text.weight row ≠ 0 := by
    intro row hrow hzero
    rw [Text.weight_eq_zero_iff.1 hzero] at hrow
    cases hrow
  unfold total at hweight
  refine ⟨fun row hrow hheading => ?_, fun row hrow => ?_⟩
  · have hsame := eq_of_sum_le (fun row _ => hheader row) (by omega) row hrow
    rw [if_pos hheading] at hsame
    exact hink (hd.description.2 row hrow) hsame.symm
  · obtain ⟨p, hp, hrow⟩ := List.mem_flatMap.1 hrow
    obtain ⟨i, hi, hrow⟩ := List.mem_flatMap.1 hrow
    obtain ⟨column, hitem⟩ := (hd.parts p hp).items
    have hmem : row ∈ d.itemRows :=
      List.mem_flatMap.2 ⟨p, hp, List.mem_flatMap.2 ⟨i, hi, List.mem_cons_of_mem _ hrow⟩⟩
    have hsame := eq_of_sum_le (fun row _ => worth_le row) (by omega) row hmem
    have hnot : ¬ (IsHeader row ∨ IsNone row) := fun hlost =>
      hink ((hitem i hi).more row hrow).1 (by rw [← hsame, worth, if_pos hlost])
    exact not_or.1 hnot

variable {letters quote : Text}

/-- **A docstring is read as it is written, exactly if no row is taken for another**: if no row of
its description and none that goes on with an entry is itself a header, and none that goes on with
an entry says that there are none. -/
theorem read_sections_iff (hletters : ∀ c ∈ letters, c ∈ "rRuUbBfF".toList) (hquote : quote ∈ quotes)
    (hd : d.IsLegible) (hrows : d.Fills rows) (hlines : ∀ row ∈ rows, '\n' ∉ row) :
    Comment.read .python (docstring letters quote rows) = .ok d.lines ↔
      (∀ row ∈ d.description, ¬ IsHeader row) ∧
        ∀ row ∈ d.continuations, ¬ IsHeader row ∧ ¬ IsNone row := by
  have hne : rows ≠ [] := by
    obtain ⟨lead, tail, rfl, -⟩ := hrows
    simp [hd.description.1]
  rw [read_docstring hletters hquote hne hlines, Except.ok.injEq]
  exact ⟨plain_of_finish hd hrows,
    fun ⟨hdescription, hplain⟩ => finish_foldl hd hrows hdescription hplain⟩

/-! ### An entry on a default -/

/-- A docstring on one entry. -/
def lookup (description more : List Text) : Sheet where
  description := description
  parts :=
    [⟨.arguments, "Args:".toList,
      [⟨"    default".toList, " Returned if there is none,".toList, more⟩]⟩]

def lookupRows (description more : List Text) : List Text :=
  description ++
    ([] :: "Args:".toList :: "    default: Returned if there is none,".toList :: more)

theorem isLegible_lookup {description more : List Text} (hne : description ≠ [])
    (hdescription : ∀ row ∈ description, allBlank row = false)
    (hmore : ∀ row ∈ more, allBlank row = false ∧ 4 < margin row) :
    (lookup description more).IsLegible where
  description := ⟨hne, hdescription⟩
  parts p hp := by
    have hname : allBlank "    default".toList = false ∧ ':' ∉ "    default".toList := by decide
    have hhead : margin "    default: Returned if there is none,".toList = 4 ∧
        ¬ IsHeader "    default: Returned if there is none,".toList := by decide
    rw [List.mem_singleton.1 hp]
    refine ⟨.head _, 4, fun i hi => ?_⟩
    rw [List.mem_singleton.1 hi]
    exact ⟨hname, hhead, hmore⟩

theorem fills_lookup {description more : List Text} (hmore : ∀ row ∈ more, allBlank row = false) :
    (lookup description more).Fills (lookupRows description more) := by
  have hfilter : more.filter (!allBlank ·) = more :=
    List.filter_eq_self.2 fun row hrow => by rw [hmore row hrow]; rfl
  refine ⟨[], _, rfl, fun row hrow => absurd hrow List.not_mem_nil, fun row hrow => ?_, ?_⟩
  · cases hrow
    rfl
  · rw [List.filter_cons_of_neg (by decide), List.filter_cons_of_pos (by decide),
      List.filter_cons_of_pos (by decide), hfilter]
    simp only [lookup, List.flatMap_cons, List.flatMap_nil, List.append_nil, Part.rows, Item.rows]
    rfl

/-- A deeper row goes on with the entry. -/
theorem read_sections_iff_lookup :
    lookupRows ["Looks up.".toList] ["      or: the key.".toList] = ["Looks up.", "", "Args:",
        "    default: Returned if there is none,", "      or: the key."].map (·.toList) ∧
      Comment.read .python (docstring ['r'] ['"', '"', '"']
          (lookupRows ["Looks up.".toList] ["      or: the key.".toList])) =
        .ok [.bold "Description:".toList, .text "Looks up.".toList, .bold "Arguments:".toList,
          .bullets
            [join ['\n'] ["default. Returned if there is none,".toList, "or: the key.".toList]]] := by
  have hmore : ∀ row ∈ ["      or: the key.".toList],
      allBlank row = false ∧ 4 < margin row := by decide
  have hlegible : (lookup ["Looks up.".toList] ["      or: the key.".toList]).IsLegible :=
    isLegible_lookup (by decide) (by decide) hmore
  refine ⟨by decide +kernel, ?_⟩
  rw [(read_sections_iff (by decide) (by decide) hlegible
    (fills_lookup fun row hrow => (hmore row hrow).1) (by decide)).2 ⟨by decide, by decide⟩]
  decide +kernel

/-- A docstring on one entry that is not read as it is written. -/
def IsMisread (description more : List Text) : Prop :=
  (lookup description more).IsLegible ∧
    (lookup description more).Fills (lookupRows description more) ∧
    Comment.read .python (docstring [] ['"', '"', '"'] (lookupRows description more)) ≠
      .ok (lookup description more).lines

theorem isMisread_of {description more : List Text} (hne : description ≠ [])
    (hdescription : ∀ row ∈ description, allBlank row = false)
    (hmore : ∀ row ∈ more, allBlank row = false ∧ 4 < margin row)
    (hread : Comment.read .python (docstring [] ['"', '"', '"'] (lookupRows description more)) ≠
      .ok (lookup description more).lines) : IsMisread description more :=
  ⟨isLegible_lookup hne hdescription hmore, fills_lookup fun row hrow => (hmore row hrow).1, hread⟩

/-- **Rows that are taken for others**: one that goes on with an entry is a header, or says that
there are no entries, or a row of the description is a header. -/
theorem not_read_sections :
    IsMisread ["Looks up.".toList] ["        Returns:".toList] ∧
      IsMisread ["Looks up.".toList] ["        None".toList] ∧
      IsMisread ["Looks up.".toList, "Raises:".toList] [] := by
  refine ⟨?_, ?_, ?_⟩ <;>
  · refine isMisread_of (by decide) (by decide) (by decide) ?_
    decide +kernel

end Scholia.Comment.Docstring
