import Scholia.Proofs.Layout.RoundTrip
import Scholia.Proofs.Source.Braced.Alone
/-!
# A routine shown at the margin

A routine of a brace language is shown to the model on its own and moved to the left margin. This
takes nothing but margins away (`Layout.reflow_dedented`), and margins are nothing to the scanner
(`Source.Braced.runAlike_of_reflow`), so **what is shown is the routine itself**: surveyed, it holds
one routine of the same name and signature, and no type (`Language.survey_dedented`).
-/

namespace Scholia

open Text (isBlank isIndent isLayout isLineEnd isMargin trimEnd Margin Reflow)

theorem Text.mem_of_mem_slice {i j : Nat} {s : Text} {c : Char} (h : c ∈ Text.slice i j s) :
    c ∈ s := by
  rw [← Text.takeBytes_append_dropBytes i s]
  refine List.mem_append_right _ ?_
  rw [← Text.takeBytes_append_dropBytes (j - i) (Text.dropBytes i s)]
  exact List.mem_append_left _ h

namespace Layout

/-! ## Lines without their margins -/

theorem isMargin_of_isIndent {c : Char} (h : isIndent c = true) : isMargin c = true := by
  simp only [isIndent, Bool.or_eq_true, beq_iff_eq] at h
  rcases h with rfl | rfl <;> rfl

/-- What a line loses at its front is a margin. -/
theorem exists_clip (common : Nat) (line : Text) :
    ∃ a, Margin a ∧ line = a ++ clip common line := by
  refine ⟨line.take (min common (leading line)), fun c hc => ?_, (List.take_append_drop _ _).symm⟩
  exact isMargin_of_isIndent (List.all_eq_true.1 (all_isIndent_take (Nat.min_le_right _ _)) c hc)

/-- A line that ends with a line feed loses margins at both ends. -/
theorem exists_outdent (common : Nat) {q : Text} (hq : '\n' ∉ q)
    (h : ∀ c ∈ q, isBlank c = true → isLayout c = true) :
    ∃ a b, Margin a ∧ Margin b ∧ q = a ++ (outdent common (Text.dropReturn q) ++ b) := by
  obtain ⟨b, hb, hblank⟩ := Text.trimEndWhere_append isBlank q
  obtain ⟨a, ha, hclip⟩ := exists_clip common (trimEnd q)
  refine ⟨a, b, ha, fun c hc => ?_, ?_⟩
  · have hmem : c ∈ q := hb ▸ List.mem_append_right _ hc
    exact Text.isMargin_of_isLayout (h c hmem (List.all_eq_true.1 hblank c hc))
      fun he => hq (he ▸ hmem)
  · rw [outdent, Text.trimEnd_dropReturn, ← List.append_assoc, ← clip, ← hclip]
    exact hb

/-- **Lines that are moved to the margin lose nothing but margins**. -/
theorem exists_reflow (common : Nat) {s : Text} (h : ∀ c ∈ s, isBlank c = true → isLayout c = true)
    {y : Char} (hlast : s.getLast? = some y) (hy : isBlank y = false) :
    ∃ a t, Margin a ∧ s = a ++ t ∧
      Reflow t (Text.join ['\n'] ((Text.lines s).map (outdent common))) := by
  induction hn : s.length using Nat.strongRecOn generalizing s with
  | ind n ih =>
    by_cases hs : '\n' ∈ s
    · obtain ⟨q, v, rfl, hq⟩ : ∃ q v, s = q ++ '\n' :: v ∧ '\n' ∉ q := List.eq_append_cons_of_mem hs
      have hv : v.getLast? = some y := by
        rw [List.getLast?_append, List.getLast?_cons] at hlast
        cases hv : v.getLast? with
        | some z =>
          rw [hv] at hlast
          exact hlast
        | none =>
          rw [hv] at hlast
          cases hlast
          cases hy
      have hmem : ∀ c ∈ v, c ∈ q ++ '\n' :: v := fun c hc =>
        List.mem_append_right _ (List.mem_cons_of_mem _ hc)
      obtain ⟨a', t, ha', hvt, ht⟩ := ih v.length (by rw [← hn]; simp; omega)
        (fun c hc => h c (hmem c hc)) hv rfl
      obtain ⟨a, b, ha, hb, hqt⟩ :=
        exists_outdent common hq fun c hc => h c (List.mem_append_left _ hc)
      have hne : Text.lines v ≠ [] := by
        have hyn : y ≠ '\n' := by
          rintro rfl
          cases hy
        obtain ⟨l, hl, -⟩ := Text.getLast?_lines hv hyn
        intro he
        rw [he] at hl
        cases hl
      refine ⟨a, outdent common (Text.dropReturn q) ++ (b ++ '\n' :: (a' ++ t)), ha, ?_, ?_⟩
      · rw [← hvt]
        conv_lhs => rw [hqt]
        simp only [List.append_assoc]
      · rw [Text.lines_line hq, List.map_cons]
        cases hlines : Text.lines v with
        | nil => exact absurd hlines hne
        | cons l ls =>
          rw [hlines] at ht
          rw [List.map_cons, Text.join, List.intercalate_cons_cons, List.append_assoc]
          exact (Reflow.refl _).append (.gap hb ha' ht)
    · have hne : s ≠ [] := by
        rintro rfl
        cases hlast
      obtain ⟨a, ha, hclip⟩ := exists_clip common s
      refine ⟨a, clip common s, ha, hclip, ?_⟩
      rw [Text.lines_last hs hne, List.map_singleton, Text.join_singleton,
        outdent_eq_clip (Text.trimEnd_of_getLast? hlast hy)]
      exact .refl _

/-- **What is shown at the margin has lost nothing but margins**, but for some of the indentation
in front of it. -/
theorem reflow_dedented {source : Text} {start stop : Nat}
    (h : ∀ c ∈ source, isBlank c = true → isLayout c = true) {x y : Char}
    (hhead : (Text.slice start stop source).head? = some x) (hx : isBlank x = false)
    (hlast : (Text.slice start stop source).getLast? = some y) (hy : isBlank y = false) :
    ∃ lead, (∀ c ∈ lead, isLayout c = true) ∧
      Reflow (lead ++ Text.slice start stop source) (dedented source start stop) := by
  have hpiece : ∀ c ∈ Text.slice start stop source, isBlank c = true → isLayout c = true :=
    fun c hc => h c (Text.mem_of_mem_slice hc)
  have hindent := Language.all_isIndent_lineIndent source start
  unfold dedented
  generalize lineIndent source start = indent at hindent
  generalize Text.slice start stop source = piece at hhead hlast hpiece
  have hindent' : ∀ c ∈ indent, isLayout c = true := fun c hc =>
    Text.isLayout_of_isMargin (isMargin_of_isIndent (List.all_eq_true.1 hindent c hc))
  have hlast' : (indent ++ piece).getLast? = some y := by
    rw [List.getLast?_append, hlast, Option.some_or]
  have htrim : Text.trimWhere isLineEnd (indent ++ piece) = indent ++ piece := by
    obtain ⟨d, hd, hdn⟩ := head?_indented hindent ⟨x, hhead, hx⟩
    refine Text.trimWhere_eq_self (fun c hc => ?_) (fun c hc => ?_)
    · cases hc.symm.trans hd
      exact hdn
    · cases hc.symm.trans hlast'
      exact not_isLineEnd_of_ink hy
  simp only [reindent, htrim, hang_nil]
  obtain ⟨a, t, ha, hsplit, ht⟩ := exists_reflow (commonIndent (Text.lines (indent ++ piece)))
    (fun c hc hb => (List.mem_append.1 hc).elim (hindent' c) fun hc => hpiece c hc hb) hlast' hy
  rcases List.append_eq_append_iff.1 hsplit with ⟨m, hm, hpm⟩ | ⟨m, hm, hpm⟩
  · -- the piece itself begins with no margin
    cases m with
    | nil => exact ⟨[], List.forall_mem_nil _, hpm ▸ ht⟩
    | cons c m =>
      rw [hpm] at hhead
      cases hhead
      have hmem : x ∈ a := hm ▸ List.mem_append_right _ List.mem_cons_self
      rw [Text.isBlank_of_isLayout (ha.layout x hmem)] at hx
      cases hx
  · exact ⟨m, fun c hc => hindent' c (hm ▸ List.mem_append_right _ hc), hpm ▸ ht⟩

end Layout

namespace Language

open Layout (dedented)
open Source (Routine)

variable {source : Text} {routines : List Routine} {r : Routine}

theorem outline_dialect (dialect : Source.Braced.Dialect) (source : Text) :
    dialect.language.outline source = Source.Braced.outline dialect source := by
  cases dialect with
  | java => rfl
  | cSharp => rfl

theorem attachment_dialect (dialect : Source.Braced.Dialect) :
    dialect.language.attachment = .preceding := by
  cases dialect with
  | java => rfl
  | cSharp => rfl

/-- **What is shown of a routine is the routine itself**, if the text holds no blanks but spaces,
tabs, carriage returns and line feeds. -/
theorem survey_dedented (dialect : Source.Braced.Dialect)
    (hlayout : ∀ c ∈ source, isBlank c = true → isLayout c = true)
    (h : dialect.language.routines source = .ok routines) (hr : r ∈ routines) :
    ∃ r', dialect.language.survey (dedented source r.span.start r.span.stop) = .ok ([r'], []) ∧
      r'.name = r.name ∧ r'.signature = r.signature := by
  obtain ⟨o, ho, -, hfits, rfl⟩ := outline_of_routines h
  rw [outline_dialect] at ho
  rw [attachment_dialect] at hr
  have hstands := hfits.survey_stands .preceding r hr
  obtain ⟨-, -, -, ⟨c, tail, hhead, hc⟩, hlast⟩ := Source.Braced.routine_alone ho hstands
  have hblank : isBlank c = false := by
    refine Bool.eq_false_iff.2 fun hb => ?_
    have hmem : c ∈ r.span.of source := hhead ▸ List.mem_cons_self
    rw [Source.Braced.isPlainBlank_of_isLayout (hlayout c (Text.mem_of_mem_slice hmem) hb)] at hc
    cases hc
  obtain ⟨lead, hlead, hreflow⟩ :=
    Layout.reflow_dedented hlayout (congrArg List.head? hhead) hblank hlast (by decide)
  obtain ⟨o', ho', r', hsurvey, hname⟩ := Source.Braced.survey_alone ho hstands hlead hreflow
  refine ⟨r', ?_, hname⟩
  rw [survey, outline_dialect, ho', attachment_dialect, ← hsurvey]
  rfl

/-- A class with a method whose lines end in different ways, with braces in a string and in a
comment. -/
def tabbedClass : Text :=
  "class A \x7b\n\tint one()\r\n\t\x7b\n\t\treturn f(\"\x7d\"); // \x7d \n\t\x7d\n\x7d\n".toList

/-- The routine of `tabbedClass`. -/
def tabbedOne : Routine where
  name := "one".toList
  signature := "int one()".toList
  body := "\x7b\n\t\treturn f(\"\x7d\"); // \x7d \n\t\x7d".toList
  span := ⟨11, 50⟩
  comment := []
  commentSpan := none

theorem survey_dedented_tabbedClass :
    (∀ c ∈ tabbedClass, isBlank c = true → isLayout c = true) ∧
      java.routines tabbedClass = .ok [tabbedOne] ∧
      dedented tabbedClass tabbedOne.span.start tabbedOne.span.stop =
        "int one()\n\x7b\n\treturn f(\"\x7d\"); // \x7d\n\x7d".toList ∧
      ∃ r, java.survey (dedented tabbedClass tabbedOne.span.start tabbedOne.span.stop) =
          .ok ([r], []) ∧
        r.name = "one".toList ∧ r.signature = "int one()".toList := by
  have hall : tabbedClass.all (fun c => !isBlank c || isLayout c) = true := by decide +kernel
  have hlayout : ∀ c ∈ tabbedClass, isBlank c = true → isLayout c = true := by
    intro c hc hb
    simpa [hb] using List.all_eq_true.1 hall c hc
  have h : java.routines tabbedClass = .ok [tabbedOne] := by
    rw [routines_eq_compute]
    decide +kernel
  refine ⟨hlayout, h, by decide +kernel, ?_⟩
  exact survey_dedented .java hlayout h List.mem_cons_self

end Language

end Scholia
