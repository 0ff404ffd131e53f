import Scholia.Prompt
import Scholia.SourceKind
import Scholia.Proofs.Layout.Splice
import Scholia.Proofs.Text.Replaced
/-!
# What a prompt says

A template is filled place by place. Its places stand apart: no gap between them holds an opening
brace, and each begins with a character that no place is written with. So every place is filled by
itself, and a value that is put in is searched for the places that are filled after it, and for no
others (`Prompt.fill_places`).

`Prompt.fillOnce` goes through a template a single time and never looks at what it has put in. The
names and comment styles of the source kinds hold no places, and the code is put in last, so **a
prompt is its template filled at once**, but for one value: a file whose path holds the place of the
code has the code put in its path (`Prompt.filled_once_iff`).
-/

namespace Scholia

open Text (replaceAll)

namespace Prompt

variable {name other : String} {value : Text} {values : List (String × Text)}
  {gaps pieces : List Text}

/-! ## Filling at once -/

/-- Filling at once, when `skip` characters of a place are still to pass. -/
def fillOnceFrom (values : List (String × Text)) : Nat → Text → Text
  | _, [] => []
  | skip + 1, _ :: r => fillOnceFrom values skip r
  | 0, c :: r =>
    match values.find? fun x => (place x.1).isPrefixOf (c :: r) with
    | some (name, value) => value ++ fillOnceFrom values ((place name).length - 1) r
    | none => c :: fillOnceFrom values 0 r

/-- A template with each place filled by its value, all at once: what has been put in is not looked
at again. -/
def fillOnce (template : Text) (values : List (String × Text)) : Text :=
  fillOnceFrom values 0 template

/-! ## Places -/

/-- A name is written with letters and low lines. -/
def IsName (name : String) : Prop :=
  ∀ c ∈ name.toList, (c.isAlpha || c == '_') = true

instance (name : String) : Decidable (IsName name) :=
  inferInstanceAs (Decidable (∀ c ∈ name.toList, (c.isAlpha || c == '_') = true))

/-- The characters that places are written with. -/
def isPlaceChar (c : Char) : Bool :=
  c.isAlpha || c == '_' || c == '{' || c == '}'

theorem place_eq (name : String) : place name = '{' :: (name.toList ++ ['}']) := rfl

theorem place_ne_nil (name : String) : place name ≠ [] := List.cons_ne_nil _ _

theorem isPlaceChar_of_mem (h : IsName name) {c : Char} (hc : c ∈ place name) :
    isPlaceChar c = true := by
  rw [place_eq, List.mem_cons, List.mem_append, List.mem_singleton] at hc
  rcases hc with rfl | hc | rfl
  · rfl
  · rw [isPlaceChar, h c hc]
    rfl
  · rfl

theorem IsName.not_brace (h : IsName name) : '{' ∉ name.toList ∧ '}' ∉ name.toList :=
  ⟨fun hc => absurd (h _ hc) (by decide), fun hc => absurd (h _ hc) (by decide)⟩

/-- A place is told by its name before anything that follows. -/
theorem eq_of_place_prefix (hother : IsName other) (hname : IsName name) {s : Text}
    (h : place other <+: place name ++ s) : other = name := by
  obtain ⟨r, h⟩ := h
  simp only [place_eq, List.cons_append, List.append_assoc, List.nil_append] at h
  have hline := congrArg (List.takeWhile (· != '}')) (List.cons.inj h).2
  have hall : ∀ {n : String}, IsName n → ∀ c ∈ n.toList, (c != '}') = true :=
    fun hn c hc => bne_iff_ne.2 fun he => hn.not_brace.2 (he ▸ hc)
  rw [List.takeWhile_append_of_pos (hall hother), List.takeWhile_append_of_pos (hall hname)] at hline
  exact String.ext (by simpa using hline)

/-- No place is a part of another. -/
theorem eq_of_place_isInfix (hother : IsName other) (hname : IsName name)
    (h : place other <:+: place name) : other = name := by
  obtain ⟨a, b, he⟩ := h
  cases a with
  | nil =>
    refine eq_of_place_prefix hother hname (s := []) ⟨b, ?_⟩
    rw [List.append_nil]
    exact he
  | cons c a =>
    -- an opening brace stands only at the front of a place
    rw [place_eq name] at he
    have hmem : '{' ∈ name.toList ++ ['}'] := by
      rw [← (List.cons.inj he).2, place_eq]
      simp
    rcases List.mem_append.1 hmem with hmem | hmem
    · exact absurd hmem hname.not_brace.1
    · exact absurd hmem (by decide)

/-- Values for places of different names. -/
structure Distinct (values : List (String × Text)) : Prop where
  names : ∀ x ∈ values, IsName x.1
  nodup : (values.map Prod.fst).Nodup

theorem Distinct.tail {x : String × Text} (h : Distinct (x :: values)) : Distinct values where
  names := fun y hy => h.names y (List.mem_cons_of_mem _ hy)
  nodup := (List.nodup_cons.1 h.nodup).2

/-! ## Gaps -/

/-- Gaps that keep places apart. -/
structure Spaced (gaps : List Text) : Prop where
  plain : ∀ gap ∈ gaps, '{' ∉ gap
  apart : ∀ gap ∈ gaps.tail, gap.head?.any (!isPlaceChar ·) = true

theorem Spaced.next {gap : Text} (h : Spaced (gap :: gaps)) : Spaced gaps where
  plain := fun g hg => h.plain g (List.mem_cons_of_mem _ hg)
  apart := fun g hg => h.apart g (List.mem_of_mem_tail hg)

/-- What is woven begins as its first gap does. -/
theorem Spaced.head {gap : Text} (h : Spaced (gap :: gaps)) (hlen : gaps ≠ []) (pieces : List Text) :
    ∀ c, (Text.weave gaps pieces).head? = some c → isPlaceChar c = false := by
  obtain ⟨next, gaps, rfl⟩ := List.exists_cons_of_ne_nil hlen
  obtain ⟨d, hd, hplain⟩ := (Option.any_eq_true _ _).1 (h.apart next List.mem_cons_self)
  obtain ⟨tail, rfl⟩ := List.head?_eq_some_iff.1 hd
  intro c hc
  have hfront : (Text.weave ((d :: tail) :: gaps) pieces).head? = some d := by
    cases pieces <;> rfl
  cases hfront.symm.trans hc
  simpa using hplain

/-! ## One place after the other -/

theorem fill_cons (template : Text) (x : String × Text) (values : List (String × Text)) :
    fill template (x :: values) = fill (replaceAll (place x.1) x.2 template) values := rfl

/-- **A place is filled in each piece apart**. -/
theorem replaceAll_weave (hname : IsName name) (value : Text) (hgaps : Spaced gaps)
    (hlen : gaps.length = pieces.length + 1) :
    replaceAll (place name) value (Text.weave gaps pieces) =
      Text.weave gaps (pieces.map (replaceAll (place name) value)) := by
  induction pieces generalizing gaps with
  | nil =>
    obtain ⟨gap, rfl⟩ := List.length_eq_one_iff.1 hlen
    simp only [Text.weave, List.map_nil, List.flatten_cons, List.flatten_nil]
    exact Text.replaceAll_lead (hgaps.plain gap List.mem_cons_self) _ value []
  | cons piece pieces ih =>
    obtain ⟨gap, gaps, rfl⟩ := List.exists_cons_of_length_eq_add_one hlen
    have hlen' : gaps.length = pieces.length + 1 := Nat.succ.inj hlen
    have hne : gaps ≠ [] := List.ne_nil_of_length_eq_add_one hlen'
    have hhead : ∀ c, (Text.weave gaps pieces).head? = some c → c ∉ place name := fun c hc hmem => by
      have := isPlaceChar_of_mem hname hmem
      rw [hgaps.head hne pieces c hc] at this
      cases this
    calc replaceAll (place name) value (gap ++ (piece ++ Text.weave gaps pieces))
      _ = gap ++ replaceAll (place name) value (piece ++ Text.weave gaps pieces) :=
        Text.replaceAll_lead (hgaps.plain gap List.mem_cons_self) _ value _
      _ = gap ++ (replaceAll (place name) value piece ++
            replaceAll (place name) value (Text.weave gaps pieces)) := by
        rw [Text.replaceAll_append (place_ne_nil name) hhead]
      _ = _ := by rw [ih hgaps.next hlen']; rfl

/-- **Each piece is filled by itself**. -/
theorem fill_weave (hnames : ∀ x ∈ values, IsName x.1) (hgaps : Spaced gaps)
    (hlen : gaps.length = pieces.length + 1) :
    fill (Text.weave gaps pieces) values = Text.weave gaps (pieces.map (fill · values)) := by
  induction values generalizing pieces with
  | nil => simp [fill]
  | cons x values ih =>
    obtain ⟨hx, hnames⟩ := List.forall_mem_cons.1 hnames
    rw [fill_cons, replaceAll_weave hx x.2 hgaps hlen,
      ih hnames (by rwa [List.length_map]), List.map_map]
    rfl

/-- A text without places stays. -/
theorem fill_of_not_isInfix {s : Text} (h : ∀ x ∈ values, ¬ place x.1 <:+: s) : fill s values = s := by
  induction values with
  | nil => rfl
  | cons x values ih =>
    obtain ⟨hx, h⟩ := List.forall_mem_cons.1 h
    rw [fill_cons, Text.replaceAll_of_not_isInfix hx, ih h]

/-- A place stays until its value comes. -/
theorem fill_other (hname : IsName name) (hnames : ∀ x ∈ values, IsName x.1)
    (h : name ∉ values.map Prod.fst) : fill (place name) values = place name :=
  fill_of_not_isInfix fun x hx hpart =>
    h (eq_of_place_isInfix (hnames x hx) hname hpart ▸ List.mem_map_of_mem hx)

/-- What becomes of values that are put in one after the other: each is filled with those that come
after it. -/
def settled : List (String × Text) → List Text
  | [] => []
  | x :: rest => fill x.2 rest :: settled rest

theorem map_fill_places (before : List (String × Text)) (h : Distinct (before ++ values)) :
    values.map (fun x => fill (place x.1) (before ++ values)) = settled values := by
  induction values generalizing before with
  | nil => rfl
  | cons x values ih =>
    have hmore := ih (before ++ [x]) (by rwa [List.append_assoc])
    rw [List.append_assoc, List.singleton_append] at hmore
    have hname := h.names x (by simp)
    have hbefore : x.1 ∉ before.map Prod.fst := by
      have hnodup := h.nodup
      rw [List.map_append, List.map_cons] at hnodup
      exact fun hmem => (List.nodup_append.1 hnodup).2.2 _ hmem _ List.mem_cons_self rfl
    have hfirst : fill (place x.1) (before ++ x :: values) = fill x.2 values := by
      have hstay := fill_other hname (fun y hy => h.names y (List.mem_append_left _ hy)) hbefore
      have hput : replaceAll (place x.1) x.2 (place x.1) = x.2 := by
        have := Text.replaceAll_found (place_ne_nil x.1) x.2 []
        rwa [List.append_nil, Text.replaceAll_nil, List.append_nil] at this
      calc fill (place x.1) (before ++ x :: values)
        _ = fill (fill (place x.1) before) (x :: values) := List.foldl_append
        _ = fill x.2 values := by rw [hstay, fill_cons, hput]
    rw [List.map_cons, hfirst, hmore, settled]

/-- **A value is searched for the places that are filled after it**, and for no others. -/
theorem fill_places (h : Distinct values) (hgaps : Spaced gaps)
    (hlen : gaps.length = values.length + 1) :
    fill (Text.weave gaps (values.map (place ·.1))) values = Text.weave gaps (settled values) := by
  rw [fill_weave h.names hgaps (by rwa [List.length_map]), List.map_map]
  exact congrArg (Text.weave gaps) (map_fill_places [] h)

/-! ## All places at once -/

theorem fillOnceFrom_eq_drop (values : List (String × Text)) (skip : Nat) (s : Text) :
    fillOnceFrom values skip s = fillOnce (s.drop skip) values := by
  induction skip generalizing s with
  | zero => rfl
  | succ skip ih =>
    cases s with
    | nil => rfl
    | cons c r => exact ih r

/-- A gap is copied. -/
theorem fillOnce_gap {gap : Text} (hgap : '{' ∉ gap) (s : Text) :
    fillOnce (gap ++ s) values = gap ++ fillOnce s values := by
  induction gap with
  | nil => rfl
  | cons c gap ih =>
    obtain ⟨hc, hgap⟩ := not_or.1 (mt List.mem_cons.2 hgap)
    have hnone : values.find? (fun x => (place x.1).isPrefixOf (c :: (gap ++ s))) = none := by
      refine List.find?_eq_none.2 fun x _ hlead => hc ?_
      exact (List.cons_prefix_cons.1 (List.isPrefixOf_iff_prefix.1 hlead)).1
    rw [List.cons_append, fillOnce, fillOnceFrom, hnone]
    exact congrArg (c :: ·) (ih hgap)

/-- A place is filled, and what follows it is filled apart. -/
theorem fillOnce_place (h : Distinct values) {x : String × Text} (hx : x ∈ values) (s : Text) :
    fillOnce (place x.1 ++ s) values = x.2 ++ fillOnce s values := by
  have hfind : values.find? (fun y => (place y.1).isPrefixOf (place x.1 ++ s)) = some x := by
    induction values with
    | nil => cases hx
    | cons y values ih =>
      rw [List.find?_cons]
      split
      · next hlead =>
        have hname := eq_of_place_prefix (h.names y List.mem_cons_self) (h.names x hx)
          (List.isPrefixOf_iff_prefix.1 hlead)
        rcases List.mem_cons.1 hx with rfl | hx
        · rfl
        · exact absurd (List.mem_map_of_mem hx) (hname ▸ (List.nodup_cons.1 h.nodup).1)
      · next hlead =>
        rcases List.mem_cons.1 hx with rfl | hx
        · rw [List.isPrefixOf_iff_prefix.2 (List.prefix_append (place x.1) s)] at hlead
          cases hlead
        · exact ih h.tail hx
  rw [place_eq, List.cons_append] at hfind ⊢
  rw [fillOnce, fillOnceFrom, hfind]
  simp only [fillOnceFrom_eq_drop, place_eq, List.length_cons, Nat.add_sub_cancel, List.drop_left]

theorem fillOnce_weave (h : Distinct values) {part : List (String × Text)}
    (hsub : ∀ x ∈ part, x ∈ values) (hgaps : ∀ gap ∈ gaps, '{' ∉ gap)
    (hlen : gaps.length = part.length + 1) :
    fillOnce (Text.weave gaps (part.map (place ·.1))) values =
      Text.weave gaps (part.map Prod.snd) := by
  induction part generalizing gaps with
  | nil =>
    obtain ⟨gap, rfl⟩ := List.length_eq_one_iff.1 hlen
    exact fillOnce_gap (hgaps gap List.mem_cons_self) []
  | cons x part ih =>
    obtain ⟨gap, gaps, rfl⟩ := List.exists_cons_of_length_eq_add_one hlen
    obtain ⟨hx, hsub⟩ := List.forall_mem_cons.1 hsub
    obtain ⟨hgap, hgaps⟩ := List.forall_mem_cons.1 hgaps
    rw [List.map_cons, List.map_cons, Text.weave, fillOnce_gap hgap, fillOnce_place h hx,
      ih hsub hgaps (Nat.succ.inj hlen)]
    rfl

/-! ## Templates -/

/-- The parts of a template around places that follow each other in it. -/
def gapsOf : List String → Text → List Text
  | [], template => [template]
  | name :: names, template =>
    match Text.cutAt? (place name) template with
    | some (gap, rest) => gap :: gapsOf names rest
    | none => [template]

/-- A template has places of these names, in this order, and stands apart around them. -/
structure Laid (template : Text) (names : List String) : Prop where
  woven : Text.weave (gapsOf names template) (names.map place) = template
  length : (gapsOf names template).length = names.length + 1
  spaced : Spaced (gapsOf names template)

/-- **Filled one after the other or at once**: the places of a template take either what has become
of the values or the values themselves. -/
theorem Distinct.fill {template : Text} (hvalues : Distinct values)
    (h : Laid template (values.map Prod.fst)) :
    fill template values = Text.weave (gapsOf (values.map Prod.fst) template) (settled values) ∧
      fillOnce template values =
        Text.weave (gapsOf (values.map Prod.fst) template) (values.map Prod.snd) := by
  have hwoven := h.woven
  have hlen := h.length
  have hspaced := h.spaced
  generalize gapsOf (values.map Prod.fst) template = gaps at *
  rw [List.length_map] at hlen
  rw [← hwoven, List.map_map]
  exact ⟨fill_places hvalues hspaced hlen,
    fillOnce_weave hvalues (fun _ hx => hx) hspaced.plain hlen⟩

/-- Texts in turn are told apart by one piece that differs. -/
theorem weave_inj (before after : List Text) {x y : Text} (h : before.length < gaps.length) :
    Text.weave gaps (before ++ x :: after) = Text.weave gaps (before ++ y :: after) ↔ x = y := by
  refine ⟨fun he => ?_, fun he => he ▸ rfl⟩
  induction before generalizing gaps with
  | nil =>
    obtain ⟨gap, gaps, rfl⟩ := List.exists_cons_of_length_pos h
    exact List.append_cancel_right (List.append_cancel_left he)
  | cons piece before ih =>
    obtain ⟨gap, gaps, rfl⟩ := List.exists_cons_of_length_pos (Nat.zero_lt_of_lt h)
    exact ih (Nat.lt_of_succ_lt_succ h) (List.append_cancel_left (List.append_cancel_left he))

/-- A piece is a part of what is woven from it. -/
theorem isInfix_weave {piece : Text} (h : pieces.length ≤ gaps.length) (hpiece : piece ∈ pieces) :
    piece <:+: Text.weave gaps pieces := by
  induction pieces generalizing gaps with
  | nil => cases hpiece
  | cons first pieces ih =>
    obtain ⟨gap, gaps, rfl⟩ := List.exists_cons_of_length_pos (Nat.lt_of_lt_of_le (by simp) h)
    rcases List.mem_cons.1 hpiece with rfl | hpiece
    · exact ⟨gap, _, List.append_assoc gap piece _⟩
    · obtain ⟨a, b, he⟩ := ih (Nat.le_of_succ_le_succ h) hpiece
      exact ⟨gap ++ first ++ a, b, by rw [Text.weave, ← he]; simp only [List.append_assoc]⟩

/-- Each value is a part of the template filled at once. -/
theorem Distinct.isInfix {template : Text} (hvalues : Distinct values)
    (h : Laid template (values.map Prod.fst)) (hvalue : value ∈ values.map Prod.snd) :
    value <:+: fillOnce template values := by
  rw [(hvalues.fill h).2]
  refine isInfix_weave ?_ hvalue
  rw [h.length, List.length_map, List.length_map]
  exact Nat.le_succ _

instance (gaps : List Text) : Decidable (Spaced gaps) :=
  decidable_of_iff ((∀ gap ∈ gaps, '{' ∉ gap) ∧
      ∀ gap ∈ gaps.tail, gap.head?.any (!isPlaceChar ·) = true)
    ⟨fun h => ⟨h.1, h.2⟩, fun h => ⟨h.plain, h.apart⟩⟩

instance (template : Text) (names : List String) : Decidable (Laid template names) :=
  decidable_of_iff (Text.weave (gapsOf names template) (names.map place) = template ∧
      (gapsOf names template).length = names.length + 1 ∧ Spaced (gapsOf names template))
    ⟨fun h => ⟨h.1, h.2.1, h.2.2⟩, fun h => ⟨h.woven, h.length, h.spaced⟩⟩

-- the templates are spelled out first, as a literal is slow to take apart
theorem laid_routineTemplate : Laid routineTemplate ["language", "doc_style", "code"] := by
  simp only [routineTemplate, ofLines, List.map_cons, List.map_nil]
  repeat rw [String.toList_ofList]
  decide +kernel

theorem laid_wholeFileTemplate :
    Laid wholeFileTemplate ["language", "doc_style", "file_path", "code"] := by
  simp only [wholeFileTemplate, ofLines, List.map_cons, List.map_nil]
  repeat rw [String.toList_ofList]
  decide +kernel

end Prompt

/-! ## Prompts for a source file -/

namespace SourceKind

/-- All kinds that a file can be of. -/
def all : List SourceKind :=
  Language.all.map grammar ++ PlainLanguage.all.map plain

theorem mem_all_of_ofPath? {path : Path} {kind : SourceKind} (h : ofPath? path = some kind) :
    kind ∈ all := by
  obtain ⟨extension, -, h⟩ := Option.bind_eq_some_iff.1 h
  dsimp only at h
  split at h
  · next language _ =>
    cases h
    exact List.mem_append_left _ (List.mem_map_of_mem (by cases language <;> decide))
  · obtain ⟨language, hlanguage, rfl⟩ := Option.map_eq_some_iff.1 h
    exact List.mem_append_right _ (List.mem_map_of_mem (List.mem_of_find?_eq_some hlanguage))

/-- The places that are filled after the name of a kind. -/
def laterPlaces : List String := ["doc_style", "file_path", "code"]

theorem plain_language (language : Language) : ∀ name ∈ laterPlaces,
    Text.holds (Prompt.place name) language.name = false ∧
      Text.holds (Prompt.place name) language.docStyle = false := by
  unfold Language.name Language.docStyle Language.styleLines
  cases language
  all_goals
    simp only [List.map_cons, List.map_nil]
    repeat rw [String.toList_ofList]
    decide +kernel

theorem plain_plainLanguage : ∀ language ∈ PlainLanguage.all, ∀ name ∈ laterPlaces,
    Text.holds (Prompt.place name) language.name = false ∧
      Text.holds (Prompt.place name) language.docStyle = false := by
  simp only [PlainLanguage.all, PlainLanguage.of, PlainLanguage.scriptStyle,
    PlainLanguage.systemStyle, List.map_cons, List.map_nil]
  repeat rw [String.toList_ofList]
  decide +kernel

/-- **Names and comment styles hold no places**. -/
theorem plain_of_mem_all {kind : SourceKind} (hkind : kind ∈ all) {name : String}
    (hname : name ∈ laterPlaces) :
    Text.holds (Prompt.place name) kind.name = false ∧
      Text.holds (Prompt.place name) kind.docStyle = false := by
  rcases List.mem_append.1 hkind with hkind | hkind
  · obtain ⟨language, -, rfl⟩ := List.mem_map.1 hkind
    exact plain_language language name hname
  · obtain ⟨language, hlanguage, rfl⟩ := List.mem_map.1 hkind
    exact plain_plainLanguage language hlanguage name hname

end SourceKind

namespace Prompt

/-- The values of a prompt for one routine of a source file. -/
def routineValues (kind : SourceKind) (code : Text) : List (String × Text) :=
  [("language", kind.name), ("doc_style", kind.docStyle), ("code", code)]

/-- The values of a prompt for a whole source file. -/
def fileValues (kind : SourceKind) (file code : Text) : List (String × Text) :=
  [("language", kind.name), ("doc_style", kind.docStyle), ("file_path", file), ("code", code)]

theorem routine_eq_fill (kind : SourceKind) (code : Text) :
    routine kind.name kind.docStyle code = fill routineTemplate (routineValues kind code) := rfl

theorem wholeFile_eq_fill (kind : SourceKind) (file code : Text) :
    wholeFile kind.name kind.docStyle file code =
      fill wholeFileTemplate (fileValues kind file code) := rfl

theorem distinct_routineValues (kind : SourceKind) (code : Text) :
    Distinct (routineValues kind code) where
  names := by simp [routineValues]; decide
  nodup := by simp [routineValues]

theorem distinct_fileValues (kind : SourceKind) (file code : Text) :
    Distinct (fileValues kind file code) where
  names := by simp [fileValues]; decide
  nodup := by simp [fileValues]

variable {kind : SourceKind}

/-- A name or a comment style takes no value. -/
theorem fill_kind (hkind : kind ∈ SourceKind.all)
    (hnames : ∀ x ∈ values, x.1 ∈ SourceKind.laterPlaces) :
    fill kind.name values = kind.name ∧ fill kind.docStyle values = kind.docStyle := by
  refine ⟨fill_of_not_isInfix fun x hx hpart => ?_, fill_of_not_isInfix fun x hx hpart => ?_⟩
  · rw [← Text.holds_iff_isInfix, (SourceKind.plain_of_mem_all hkind (hnames x hx)).1] at hpart
    cases hpart
  · rw [← Text.holds_iff_isInfix, (SourceKind.plain_of_mem_all hkind (hnames x hx)).2] at hpart
    cases hpart

theorem settled_routineValues (hkind : kind ∈ SourceKind.all) (code : Text) :
    settled (routineValues kind code) = (routineValues kind code).map Prod.snd := by
  simp only [routineValues, settled, List.map_cons, List.map_nil]
  rw [(fill_kind hkind (by simp [SourceKind.laterPlaces])).1,
    (fill_kind hkind (by simp [SourceKind.laterPlaces])).2]
  rfl

/-- Of the values for a whole file the path alone is changed. -/
theorem settled_fileValues (hkind : kind ∈ SourceKind.all) (file code : Text) :
    settled (fileValues kind file code) =
      (fileValues kind (replaceAll (place "code") code file) code).map Prod.snd := by
  simp only [fileValues, settled, List.map_cons, List.map_nil]
  rw [(fill_kind hkind (by simp [SourceKind.laterPlaces])).1,
    (fill_kind hkind (by simp [SourceKind.laterPlaces])).2]
  rfl

theorem fillOnce_wholeFileTemplate (kind : SourceKind) (file code : Text) :
    fillOnce wholeFileTemplate (fileValues kind file code) =
      Text.weave (gapsOf ["language", "doc_style", "file_path", "code"] wholeFileTemplate)
        [kind.name, kind.docStyle, file, code] :=
  ((distinct_fileValues kind file code).fill laid_wholeFileTemplate).2

/-- What stands for the path is the path with the code put in its places. -/
theorem wholeFile_eq_fillOnce (hkind : kind ∈ SourceKind.all) (file code : Text) :
    wholeFile kind.name kind.docStyle file code =
      fillOnce wholeFileTemplate (fileValues kind (replaceAll (place "code") code file) code) := by
  have hfill := ((distinct_fileValues kind file code).fill laid_wholeFileTemplate).1
  rw [settled_fileValues hkind] at hfill
  rw [wholeFile_eq_fill, hfill, fillOnce_wholeFileTemplate]
  rfl

/-- Two paths are told apart in a template filled at once. -/
theorem fillOnce_file_inj (kind : SourceKind) {file other code : Text} :
    fillOnce wholeFileTemplate (fileValues kind file code) =
      fillOnce wholeFileTemplate (fileValues kind other code) ↔ file = other := by
  rw [fillOnce_wholeFileTemplate, fillOnce_wholeFileTemplate]
  refine weave_inj [kind.name, kind.docStyle] [code] ?_
  rw [laid_wholeFileTemplate.length]
  simp

theorem routine_eq_fillOnce (hkind : kind ∈ SourceKind.all) (code : Text) :
    routine kind.name kind.docStyle code =
      fillOnce routineTemplate (routineValues kind code) := by
  obtain ⟨hfill, honce⟩ := (distinct_routineValues kind code).fill laid_routineTemplate
  rw [settled_routineValues hkind] at hfill
  rw [routine_eq_fill, hfill, honce]

/-- **A prompt is its template filled at once**. So is every prompt for one routine; one for a whole
file exactly if the path does not hold the place of the code (or the code is that place). The code is
in each prompt as it is, and what stands for the path is the path with the code put in its places. -/
theorem filled_once_iff {path : Path} (h : SourceKind.ofPath? path = some kind) (file code : Text) :
    (routine kind.name kind.docStyle code = fillOnce routineTemplate (routineValues kind code) ∧
      code <:+: routine kind.name kind.docStyle code) ∧
    (wholeFile kind.name kind.docStyle file code =
        fillOnce wholeFileTemplate (fileValues kind file code) ↔
      ¬ place "code" <:+: file ∨ code = place "code") ∧
    wholeFile kind.name kind.docStyle file code =
      fillOnce wholeFileTemplate
        (fileValues kind (replaceAll (place "code") code file) code) ∧
    code <:+: wholeFile kind.name kind.docStyle file code ∧
    (¬ place "code" <:+: file → file <:+: wholeFile kind.name kind.docStyle file code) := by
  have hkind := SourceKind.mem_all_of_ofPath? h
  have hroutine := routine_eq_fillOnce hkind code
  have hfile := wholeFile_eq_fillOnce hkind file code
  have hpart (file : Text) {value : Text} (h : value ∈ (fileValues kind file code).map Prod.snd) :=
    (distinct_fileValues kind file code).isInfix laid_wholeFileTemplate h
  refine ⟨⟨hroutine, ?_⟩, ?_, hfile, ?_, fun hplain => ?_⟩
  · rw [hroutine]
    exact (distinct_routineValues kind code).isInfix laid_routineTemplate (by simp [routineValues])
  · rw [hfile, fillOnce_file_inj, Text.replaceAll_eq_self_iff (place_ne_nil _)]
  · rw [hfile]
    exact hpart _ (by simp [fileValues])
  · rw [hfile, Text.replaceAll_of_not_isInfix hplain]
    exact hpart _ (by simp [fileValues])

/-- A path with the place of the language in it. -/
def quotedPath : Path :=
  ⟨"src/\x7blanguage\x7d.py".toList⟩

/-- The place in the path is shown, and so is one in the code. -/
theorem filled_once_iff_quotedPath :
    SourceKind.ofPath? quotedPath = some (.grammar .python) ∧
      ¬ place "code" <:+: quotedPath.text ∧
      wholeFile (SourceKind.name (.grammar .python)) (SourceKind.docStyle (.grammar .python))
          quotedPath.text "print('\x7bcode\x7d')".toList =
        fillOnce wholeFileTemplate
          (fileValues (.grammar .python) quotedPath.text "print('\x7bcode\x7d')".toList) ∧
      quotedPath.text <:+:
        wholeFile (SourceKind.name (.grammar .python)) (SourceKind.docStyle (.grammar .python))
          quotedPath.text "print('\x7bcode\x7d')".toList := by
  have hpath : SourceKind.ofPath? quotedPath = some (.grammar .python) := by decide +kernel
  have hplain : ¬ place "code" <:+: quotedPath.text := by
    rw [← Text.holds_iff_isInfix]
    decide +kernel
  obtain ⟨-, hiff, -, -, hfile⟩ :=
    filled_once_iff hpath quotedPath.text "print('\x7bcode\x7d')".toList
  exact ⟨hpath, hplain, hiff.2 (.inl hplain), hfile hplain⟩

/-- A path that holds the place of the code. -/
def placedPath : Path :=
  ⟨"\x7bcode\x7d.py".toList⟩

/-- The code is put in the path, and the prompt is not its template filled at once. -/
theorem not_filled_once_placedPath :
    SourceKind.ofPath? placedPath = some (.grammar .python) ∧
      wholeFile (SourceKind.name (.grammar .python)) (SourceKind.docStyle (.grammar .python))
          placedPath.text "x = 1".toList =
        fillOnce wholeFileTemplate (fileValues (.grammar .python) "x = 1.py".toList "x = 1".toList) ∧
      wholeFile (SourceKind.name (.grammar .python)) (SourceKind.docStyle (.grammar .python))
          placedPath.text "x = 1".toList ≠
        fillOnce wholeFileTemplate
          (fileValues (.grammar .python) placedPath.text "x = 1".toList) := by
  have hpath : SourceKind.ofPath? placedPath = some (.grammar .python) := by decide +kernel
  have hput : replaceAll (place "code") "x = 1".toList placedPath.text = "x = 1.py".toList := by
    decide +kernel
  have hfile := wholeFile_eq_fillOnce (SourceKind.mem_all_of_ofPath? hpath) placedPath.text
    "x = 1".toList
  rw [hput] at hfile
  refine ⟨hpath, hfile, ?_⟩
  rw [hfile, Ne, fillOnce_file_inj]
  decide

end Prompt

end Scholia
