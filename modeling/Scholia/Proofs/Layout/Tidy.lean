import Mathlib.Data.List.Induction
import Scholia.Layout
import Scholia.Proofs.Batch.Failure
import Scholia.Proofs.Source.Braced.Loss
import Scholia.Proofs.Source.Closing
import Scholia.Proofs.Source.Indented.Loss
import Scholia.Proofs.Source.Procedural.Loss
/-!
# Tidy code is documented like the code

Code that is made tidy loses blanks at line ends, empty lines and the line feeds at its end, one
after the other. No such loss changes what is harvested, so the tidy code carries the documentation
that was found in the code.

Two things are asked of the indented language, where a backslash continues a line: that a backslash
is not divided from the end of its line by spaces or tabs, and that none ends the code.
-/

namespace Scholia

open Source (Routine Node Outline)
open Layout (Loss)
open Text (isBlank isIndent isLayout isWhole lineTexts)

variable {language : Language} {harvest : Harvest}

/-! ## The loss of one blank -/

/-- What is harvested from a routine is its entry. -/
theorem Harvest.add_congr (h : Harvest) {r r' : Routine}
    (he : r.entry language = r'.entry language) : h.add language r = h.add language r' := by
  obtain ⟨hsignature, hdocument⟩ := Prod.mk.inj he
  unfold Harvest.add
  rw [hsignature, hdocument]

theorem Harvest.foldl_add_congr {rs rs' : List Routine}
    (he : rs.map (Routine.entry language) = rs'.map (Routine.entry language)) (h : Harvest) :
    rs.foldl (Harvest.add language) h = rs'.foldl (Harvest.add language) h := by
  induction rs generalizing rs' h with
  | nil =>
    rw [List.map_nil, eq_comm, List.map_eq_nil_iff] at he
    rw [he]
  | cons r rs ih =>
    obtain ⟨r', rest, rfl, hr, hrest⟩ := List.map_eq_cons_iff.1 he.symm
    rw [List.foldl_cons, List.foldl_cons, Harvest.add_congr h hr.symm]
    exact ih hrest.symm _

/-- The outline moves with a text that loses a blank. -/
theorem Language.outline_left {e : Loss}
    (hplain : ∀ c ∈ e.whole, isBlank c = true → isLayout c = true)
    (hbackslash : language = .python → isIndent e.blank = true → e.front.getLast? ≠ some '\\')
    {o : Outline} (h : language.outline e.whole = .ok o) :
    ∃ nodes, o = .ofNodes e.whole nodes ∧
      language.outline e.left = .ok (.ofNodes e.left (nodes.map (Node.moved e.place))) ∧
      ∀ n ∈ nodes, n.Marked e language := by
  cases language with
  | python => exact Source.Indented.outline_left hplain (hbackslash rfl) h
  | java => exact Source.Braced.outline_left hplain h
  | cSharp => exact Source.Braced.outline_left hplain h
  | visualBasic => exact Source.Procedural.outline_left h

/-- **A lost blank leaves the documentation**. -/
theorem Language.harvest_left {e : Loss}
    (hplain : ∀ c ∈ e.whole, isBlank c = true → isLayout c = true)
    (hbackslash : language = .python → isIndent e.blank = true → e.front.getLast? ≠ some '\\')
    (h : language.harvest e.whole = .ok harvest) : language.harvest e.left = .ok harvest := by
  obtain ⟨routines, hroutines, h⟩ := bind_eq_ok.1 h
  obtain ⟨survey, hsurvey, hr⟩ := bind_eq_ok.1 hroutines
  obtain ⟨o, houtline, hs⟩ := bind_eq_ok.1 hsurvey
  cases hs
  cases hr
  cases h
  obtain ⟨nodes, rfl, hleft, hmarked⟩ := outline_left hplain hbackslash houtline
  have hentries := Source.entries_survey hmarked (outline_fits houtline).2 (outline_fits hleft).2
  refine bind_eq_ok.2 ⟨_, bind_eq_ok.2 ⟨_, bind_eq_ok.2 ⟨_, hleft, rfl⟩, rfl⟩, ?_⟩
  exact congrArg Except.ok (Harvest.foldl_add_congr hentries .empty)

/-! ## Blanks at line ends -/

/-- Blanks at the end of one line are lost from the last one on. -/
theorem Language.harvest_blanks {front blanks behind : Text}
    (hplain : ∀ c ∈ front ++ (blanks ++ '\n' :: behind), isBlank c = true → isLayout c = true)
    (hblanks : ∀ c ∈ blanks, isBlank c = true ∧ c ≠ '\n')
    (hbackslash : language = .python → ∀ c, blanks.head? = some c → isIndent c = true →
      front.getLast? ≠ some '\\')
    (h : language.harvest (front ++ (blanks ++ '\n' :: behind)) = .ok harvest) :
    language.harvest (front ++ '\n' :: behind) = .ok harvest := by
  induction blanks using List.reverseRecOn with
  | nil => exact h
  | append_singleton blanks x ih =>
    obtain ⟨hx, hn⟩ := hblanks x (by simp)
    let e : Loss :=
      { front := front ++ blanks
        blank := x
        behind
        layout := hplain x (by simp) hx
        emptyLine := fun he => absurd he hn }
    have hwhole : front ++ (blanks ++ [x] ++ '\n' :: behind) = e.whole := by
      simp [Loss.whole, Loss.rest, e]
    have hleft : e.left = front ++ (blanks ++ '\n' :: behind) := by
      simp [Loss.left, Loss.rest, e]
    have hrest : ∀ c ∈ blanks, isBlank c = true ∧ c ≠ '\n' := fun c hc => hblanks c (by simp [hc])
    rw [hwhole] at h hplain
    refine ih (fun c hc => ?_) hrest (fun hp c hc => hbackslash hp c ?_) ?_
    · rw [← hleft] at hc
      refine hplain c ?_
      simp only [Loss.whole, Loss.left, List.mem_append, List.mem_cons] at hc ⊢
      tauto
    · rw [List.head?_append, hc]
      rfl
    · rw [← hleft]
      refine harvest_left hplain (fun hp hindent => ?_) h
      show (front ++ blanks).getLast? ≠ some '\\'
      rcases List.eq_nil_or_concat blanks with rfl | ⟨init, c, rfl⟩
      · rw [List.append_nil]
        exact hbackslash hp x rfl hindent
      · rw [List.concat_eq_append, ← List.append_assoc, List.getLast?_concat]
        intro hc
        have hblank := (hrest c (by simp)).1
        rw [Option.some.inj hc] at hblank
        exact absurd hblank (by decide)

/-! ## Line by line -/

namespace Layout

/-- Lines with their line feeds. -/
def unlines (texts : List Text) : Text :=
  texts.flatMap (· ++ ['\n'])

theorem unlines_cons (line : Text) (texts : List Text) :
    unlines (line :: texts) = line ++ '\n' :: unlines texts := by
  simp [unlines]

theorem isWhole_unlines (texts : List Text) : isWhole (unlines texts) := by
  rcases List.eq_nil_or_concat texts with rfl | ⟨texts, line, rfl⟩
  · exact .inl rfl
  · refine .inr ⟨unlines texts ++ line, ?_⟩
    simp [unlines]

/-- Whether a text starts with a space or a tab and has nothing but blanks on its first line. -/
def startsBlank : Text → Bool
  | [] => false
  | c :: r => isIndent c && Text.allBlank (r.takeWhile (· != '\n'))

/-- Whether spaces or tabs, and nothing but blanks, divide some backslash from the end of its
line. -/
def hasLooseBackslash : Text → Bool
  | [] => false
  | c :: r => (c == '\\' && startsBlank r) || hasLooseBackslash r

theorem hasLooseBackslash_right {u v : Text} (h : hasLooseBackslash (u ++ v) = false) :
    hasLooseBackslash v = false := by
  induction u with
  | nil => exact h
  | cons c u ih => exact ih (Bool.or_eq_false_iff.1 h).2

theorem hasLooseBackslash_closed (s : Text) :
    hasLooseBackslash (s ++ ['\n']) = hasLooseBackslash s := by
  induction s with
  | nil => rfl
  | cons c r ih =>
    have hstarts : startsBlank (r ++ ['\n']) = startsBlank r := by
      cases r with
      | nil => rfl
      | cons d r => rw [List.cons_append, startsBlank, Source.takeWhile_closed, startsBlank]
    rw [List.cons_append, hasLooseBackslash, ih, hstarts, hasLooseBackslash]

/-- What a loose backslash is, in a text without one. -/
theorem not_isIndent_of_tight {u blanks v : Text} {c : Char}
    (h : hasLooseBackslash (u ++ '\\' :: c :: (blanks ++ '\n' :: v)) = false)
    (hblanks : ∀ d ∈ blanks, isBlank d = true ∧ d ≠ '\n') : isIndent c = false := by
  have hline : (blanks ++ '\n' :: v).takeWhile (· != '\n') = blanks := by
    rw [List.takeWhile_append_of_pos fun d hd => bne_iff_ne.2 (hblanks d hd).2]
    simp
  have hall : Text.allBlank blanks = true := List.all_eq_true.2 fun d hd => (hblanks d hd).1
  have hstarts := (Bool.or_eq_false_iff.1 (hasLooseBackslash_right h)).1
  simpa [startsBlank, hline, hall] using hstarts

end Layout

open Layout (unlines unlines_cons limitEmpty hasLooseBackslash)

/-- **Lines may lose the blanks at their ends**, behind a text that ends in no backslash. -/
theorem Language.harvest_trimEnd (front : Text) {rest : Text} (hrest : isWhole rest)
    (hplain : ∀ c ∈ front ++ rest, isBlank c = true → isLayout c = true)
    (hfront : front.getLast? ≠ some '\\')
    (htight : language = .python → hasLooseBackslash rest = false)
    (h : language.harvest (front ++ rest) = .ok harvest) :
    language.harvest (front ++ unlines (lineTexts rest)) = .ok harvest := by
  induction hn : rest.length using Nat.strongRecOn generalizing front rest with
  | ind n ih =>
    rcases hrest with rfl | ⟨init, hinit⟩
    · exact h
    obtain ⟨q, v, rfl, hq⟩ : ∃ q v, rest = q ++ '\n' :: v ∧ '\n' ∉ q :=
      List.eq_append_cons_of_mem (hinit ▸ by simp)
    have hv : isWhole v := by
      refine isWhole.right (s := q ++ ['\n']) (.inr ⟨init, ?_⟩)
      rw [← hinit]
      simp
    obtain ⟨blanks, hqb, hall⟩ := Text.trimEndWhere_append isBlank q
    have htrim : Text.trimEnd (q ++ ['\n']) = Text.trimEnd q := Text.trimEnd_append rfl
    have hblanks : ∀ c ∈ blanks, isBlank c = true ∧ c ≠ '\n' := by
      intro c hc
      refine ⟨List.all_eq_true.1 hall c hc, ?_⟩
      rintro rfl
      exact hq (hqb ▸ List.mem_append_right _ hc)
    have htext : front ++ (q ++ '\n' :: v) =
        (front ++ Text.trimEnd q) ++ (blanks ++ '\n' :: v) := by
      conv_lhs => rw [hqb]
      simp only [List.append_assoc, Text.trimEnd]
    rw [htext] at h
    have hline := harvest_blanks (htext ▸ hplain) hblanks (fun hp c hc hindent hlast => ?_) h
    · rw [lineTexts, Text.rawLines_line hq, List.map_cons, unlines_cons, htrim]
      have hmore := ih v.length (by rw [← hn]; simp; omega) (front ++ Text.trimEnd q ++ ['\n']) hv
        ?_ (by simp)
        (fun hp => Layout.hasLooseBackslash_right (u := q ++ ['\n']) (by simpa using htight hp))
        (by simpa using hline) rfl
      · simpa [lineTexts] using hmore
      · intro c hc
        rw [htext] at hplain
        refine hplain c ?_
        simp only [List.mem_append, List.mem_cons, List.not_mem_nil, or_false] at hc ⊢
        tauto
    · -- a backslash before the blanks stands on their line
      obtain ⟨blanks, rfl⟩ := List.head?_eq_some_iff.1 hc
      rcases List.eq_nil_or_concat (Text.trimEnd q) with hnil | ⟨w, d, hw⟩
      · rw [hnil, List.append_nil] at hlast
        exact hfront hlast
      · rw [List.concat_eq_append] at hw
        rw [hw, ← List.append_assoc, List.getLast?_concat] at hlast
        cases hlast
        have hsplit : q ++ '\n' :: v = w ++ '\\' :: c :: (blanks ++ '\n' :: v) := by
          rw [hqb, show Text.trimEndWhere isBlank q = w ++ ['\\'] from hw]
          simp
        have hno := Layout.not_isIndent_of_tight (hsplit ▸ htight hp) fun d hd =>
          hblanks d (List.mem_cons_of_mem _ hd)
        rw [hindent] at hno
        cases hno

/-- **Surplus empty lines may be lost**. -/
theorem Language.harvest_limitEmpty (front : Text) (run : Nat) {texts : List Text}
    (hplain : ∀ c ∈ front ++ unlines texts, isBlank c = true → isLayout c = true)
    (hrun : ∃ d, front = d ++ List.replicate (min run Layout.maxEmptyLines) '\n')
    (h : language.harvest (front ++ unlines texts) = .ok harvest) :
    language.harvest (front ++ unlines (limitEmpty run texts)) = .ok harvest := by
  induction texts generalizing front run with
  | nil => exact h
  | cons line texts ih =>
    rw [unlines_cons] at h hplain
    have htext : front ++ (line ++ '\n' :: unlines texts) =
        (front ++ line ++ ['\n']) ++ unlines texts := by simp
    rw [limitEmpty]
    split
    · next hempty =>
      obtain rfl := List.isEmpty_iff.1 hempty
      obtain ⟨d, hd⟩ := hrun
      split
      · next hlt =>
        rw [unlines_cons, List.nil_append, List.append_cons]
        refine ih (front ++ ['\n']) (run + 1) (by simpa using hplain) ⟨d, ?_⟩ (by simpa using h)
        rw [hd, Nat.min_eq_left (by omega), Nat.min_eq_left (by omega), List.replicate_succ',
          List.append_assoc]
      · next hge =>
        -- two empty lines stand before, and the last of them may go
        rw [Nat.min_eq_right (by omega)] at hd
        let e : Loss :=
          { front := d ++ ['\n']
            blank := '\n'
            behind := unlines texts
            layout := rfl
            emptyLine := fun _ => List.getLast?_concat }
        have hwhole : front ++ '\n' :: unlines texts = e.whole := by
          simp [Loss.whole, Loss.rest, e, hd, Layout.maxEmptyLines, List.replicate_succ]
        have hleft : e.left = front ++ unlines texts := by
          simp [Loss.left, Loss.rest, e, hd, Layout.maxEmptyLines, List.replicate_succ]
        rw [List.nil_append, hwhole] at h hplain
        have hmore := harvest_left hplain
          (fun _ hindent => absurd hindent (show ¬ isIndent '\n' = true by decide)) h
        rw [hleft] at hmore
        refine ih front (run + 1) (fun c hc => hplain c ?_) ⟨d, ?_⟩ hmore
        · rw [← hleft] at hc
          simp only [Loss.whole, Loss.left, List.mem_append, List.mem_cons] at hc ⊢
          tauto
        · rw [Nat.min_eq_right (by omega), hd]
    · rw [unlines_cons]
      rw [htext] at h hplain
      have hmore := ih (front ++ line ++ ['\n']) 0 hplain ⟨front ++ line ++ ['\n'], by simp⟩ h
      simpa using hmore

/-! ## The end of the text -/

/-- Line feeds at the end of a text do not matter. -/
theorem Language.harvest_newlines {s : Text} (h : language = .python → s.getLast? ≠ some '\\')
    (n : Nat) : language.harvest (s ++ List.replicate n '\n') = language.harvest s := by
  induction n with
  | zero => rw [List.replicate_zero, List.append_nil]
  | succ n ih =>
    rw [List.replicate_succ', ← List.append_assoc, harvest_closed, ih]
    intro hp
    cases n with
    | zero => simpa using h hp
    | succ n =>
      rw [List.replicate_succ', ← List.append_assoc, List.getLast?_concat]
      simp

/-- Text of whole lines may have any number of line feeds at its end, but for none. -/
theorem Language.harvest_oneNewline {s : Text} (hs : isWhole s) :
    language.harvest (Text.trimEndWhere (· == '\n') s ++ ['\n']) = language.harvest s := by
  have hlast : ∀ t : Text, isWhole t → t.getLast? ≠ some '\\' := by
    rintro t (rfl | ⟨t, rfl⟩) <;> simp
  obtain ⟨tail, ht, hall⟩ := Text.trimEndWhere_append (· == '\n') s
  have htail : tail = List.replicate tail.length '\n' :=
    List.eq_replicate_of_mem fun c hc => eq_of_beq (List.all_eq_true.1 hall c hc)
  generalize Text.trimEndWhere (· == '\n') s = t at ht
  generalize tail.length = n at htail
  subst htail ht
  cases n with
  | zero =>
    rw [List.replicate_zero, List.append_nil] at hs ⊢
    exact harvest_closed fun _ => hlast t hs
  | succ n =>
    rw [show t ++ List.replicate (n + 1) '\n' = (t ++ ['\n']) ++ List.replicate n '\n' by
      simp [List.replicate_succ]]
    exact (harvest_newlines (fun _ => hlast _ (.inr ⟨t, rfl⟩)) n).symm

/-- Whole lines that say the same. -/
theorem Language.exists_closed {s : Text} (h : language = .python → s.getLast? ≠ some '\\') :
    ∃ t, (t = s ∨ t = s ++ ['\n']) ∧ isWhole t ∧ lineTexts t = lineTexts s ∧
      language.harvest t = language.harvest s := by
  obtain ⟨p, q, rfl, hp, hq⟩ := Text.exists_line s
  by_cases hnil : q = []
  · subst hnil
    exact ⟨p ++ [], .inl rfl, by rwa [List.append_nil], rfl, rfl⟩
  · refine ⟨(p ++ q) ++ ['\n'], .inr rfl, .inr ⟨_, rfl⟩, ?_, harvest_closed h⟩
    have hline : lineTexts (q ++ ['\n']) = lineTexts q := by
      rw [lineTexts, lineTexts, Text.rawLines_line hq [], Text.rawLines_last hq hnil, List.map_cons,
        List.map_cons, Text.trimEnd_append rfl]
      rfl
    rw [List.append_assoc, Text.lineTexts_append hp, Text.lineTexts_append hp, hline]

/-- Lines that have lost the blanks at their ends have no character more. -/
theorem Layout.mem_unlines_lineTexts {s : Text} {c : Char} (h : c ∈ unlines (lineTexts s)) :
    c ∈ s ∨ c = '\n' := by
  obtain ⟨line, hline, hc⟩ := List.mem_flatMap.1 h
  obtain ⟨raw, hraw, rfl⟩ := List.mem_map.1 hline
  rcases List.mem_append.1 hc with hc | hc
  · obtain ⟨tail, htail, -⟩ := Text.trimEndWhere_append isBlank raw
    rw [← Text.flatten_rawLines s]
    refine .inl (List.mem_flatten.2 ⟨raw, hraw, ?_⟩)
    rw [htail]
    exact List.mem_append_left _ hc
  · exact .inr (List.mem_singleton.1 hc)

/-- **Tidy code is documented like the code**: what was harvested from a text, or from a reply that
was accepted for a whole file, is what is harvested from the tidy text. -/
theorem Language.harvest_tidy {s : Text}
    (hplain : ∀ c ∈ s, isBlank c = true → isLayout c = true)
    (hbackslash : language = .python → hasLooseBackslash s = false ∧ s.getLast? ≠ some '\\') :
    (∀ harvest, language.harvest s = .ok harvest →
      language.harvest (Layout.tidy s) = .ok harvest) ∧
    ∀ kind reply harvest, kind.language? = some language →
      Reply.acceptFile kind reply = .ok ⟨s, some harvest⟩ →
      language.harvest (Layout.tidy s) = .ok harvest := by
  have htidy : ∀ harvest, language.harvest s = .ok harvest →
      language.harvest (Layout.tidy s) = .ok harvest := by
    intro harvest h
    obtain ⟨t, ht, hwhole, hlines, hsame⟩ := exists_closed fun hp => (hbackslash hp).2
    have hplain' : ∀ c, c ∈ t ∨ c = '\n' → isBlank c = true → isLayout c = true := by
      intro c hc
      have hs : c ∈ s ∨ c = '\n' := by
        rcases ht with rfl | rfl
        · exact hc
        · simpa [or_assoc] using hc
      rcases hs with hs | rfl
      · exact hplain c hs
      · exact fun _ => by decide
    have htight : language = .python → hasLooseBackslash t = false := by
      intro hp
      rcases ht with rfl | rfl
      · exact (hbackslash hp).1
      · rw [Layout.hasLooseBackslash_closed]
        exact (hbackslash hp).1
    have hends := harvest_trimEnd [] hwhole (fun c hc => hplain' c (.inl hc)) (by simp)
      htight (hsame.trans h)
    have hempty := harvest_limitEmpty [] 0
      (fun c hc => hplain' c (Layout.mem_unlines_lineTexts hc)) ⟨[], rfl⟩ hends
    have hlast : language.harvest _ = language.harvest _ :=
      harvest_oneNewline (Layout.isWhole_unlines (limitEmpty 0 (lineTexts t)))
    rw [Layout.tidy, Text.lines_map_trimEnd, ← hlines]
    exact hlast.trans hempty
  refine ⟨htidy, fun kind reply harvest hkind haccept => htidy harvest ?_⟩
  obtain ⟨language', hkind', hcode⟩ := Reply.harvest_of_acceptFile haccept rfl
  obtain rfl : language = language' := Option.some.inj (hkind.symm.trans hkind')
  exact hcode

/-- A text has no blanks but layout when a look at its characters finds none. -/
theorem Layout.isLayout_of_all {s : Text} (h : s.all (fun c => !isBlank c || isLayout c) = true) :
    ∀ c ∈ s, isBlank c = true → isLayout c = true := by
  intro c hc hblank
  have hboth := List.all_eq_true.1 h c hc
  rwa [hblank, Bool.not_true, Bool.false_or] at hboth

/-- Code with blanks at line ends, empty lines and a continued line. -/
def wornCode : Text :=
  "def f(x):  \n    \"\"\"Doc. \n    \"\"\"\r\n\n\n\n    return x + \\\n        1".toList

/-- The documentation of its one function. -/
def wornHarvest : Harvest where
  lines := [.subheader "Function: def f(x)".toList, .bold "Description:".toList,
    .text "Doc.".toList]
  errors := []
  total := 1
  documented := 1

theorem harvest_tidy_wornCode :
    Reply.acceptFile (.grammar .python) (("```python\n".toList ++ wornCode) ++ "```".toList) =
        .ok ⟨wornCode, some wornHarvest⟩ ∧
      Language.harvest .python wornCode = .ok wornHarvest ∧
      Language.harvest .python (Layout.tidy wornCode) = .ok wornHarvest := by
  have hcode : Language.harvest .python wornCode = .ok wornHarvest := by
    rw [Language.harvest, Language.routines_eq_compute]
    decide +kernel
  have hreply : Reply.acceptFile (.grammar .python)
      (("```python\n".toList ++ wornCode) ++ "```".toList) = .ok ⟨wornCode, some wornHarvest⟩ := by
    simp only [Reply.acceptFile, SourceKind.language?, Language.harvest,
      Language.routines_eq_compute]
    decide +kernel
  obtain ⟨hharvest, -⟩ := @Language.harvest_tidy .python wornCode
    (Layout.isLayout_of_all (by decide)) fun _ => by decide
  exact ⟨hreply, hcode, hharvest _ hcode⟩

/-- Code that ends in a backslash, which is code as long as no line feed follows it. -/
def danglingCode : Text :=
  "def f():\n    \"\"\"Doc.\"\"\"\\".toList

/-- With the line feed that tidy code ends in, the backslash is none of the code, and the string is
a comment. -/
theorem harvest_tidy_danglingCode :
    (∀ c ∈ danglingCode, isBlank c = true → isLayout c = true) ∧
      hasLooseBackslash danglingCode = false ∧
      Language.harvest .python danglingCode =
        .ok ⟨[], [("def f()".toList, Undocumented.missing.message)], 1, 0⟩ ∧
      Language.harvest .python (Layout.tidy danglingCode) =
        .ok ⟨[.subheader "Function: def f()".toList, .bold "Description:".toList,
          .text "Doc.".toList], [], 1, 1⟩ ∧
      Language.harvest .python (Layout.tidy danglingCode) ≠ Language.harvest .python danglingCode := by
  have hcode : Language.harvest .python danglingCode =
      .ok ⟨[], [("def f()".toList, Undocumented.missing.message)], 1, 0⟩ := by
    rw [Language.harvest, Language.routines_eq_compute]
    decide +kernel
  have htidy : Language.harvest .python (Layout.tidy danglingCode) =
      .ok ⟨[.subheader "Function: def f()".toList, .bold "Description:".toList,
        .text "Doc.".toList], [], 1, 1⟩ := by
    rw [Language.harvest, Language.routines_eq_compute]
    decide +kernel
  refine ⟨Layout.isLayout_of_all (by decide), by decide, hcode, htidy, ?_⟩
  rw [hcode, htidy]
  decide

end Scholia
