import Scholia.Comment.Read
import Scholia.Proofs.Text.Worn
/-!
# Worn comments say the same

A comment grammar reads a comment line by line and without the blanks around each line, so a comment
that has lost a blank at a line end says what it said. An empty line more or less says nothing
either, as a second one directly behind it ends nothing that the first has not ended.

The elements of a `///` comment may hold line ends in their attributes, which are kept: there only
the loss of blanks inside lines is harmless.
-/

namespace Scholia.Comment

open Text (Worn)

variable {s t : Text}

/-! ## Docstrings -/

namespace Docstring

theorem State.step_trimEnd (state : State) (line : Text) :
    state.step (Text.trimEnd line) = state.step line := by
  simp only [State.step, Text.trim_trimEnd]
  split
  · rfl
  · next hne =>
    have hblank : Text.allBlank line = false := by
      cases h : Text.allBlank line with
      | false => rfl
      | true =>
        rw [Text.trim, Text.trimStart_of_allBlank h] at hne
        exact absurd rfl hne
    simp only [State.addTo, Text.width_indent_trimEnd hblank]

theorem State.step_empty (state : State) : (state.step []).step [] = state.step [] := by
  have hstep : ∀ st : State, st.step [] =
      { st with described := st.described || (st.current.isNone && !st.description.isEmpty) } :=
    fun _ => rfl
  simp only [hstep, Bool.or_assoc, Bool.or_self]

/-- The text between the quotes, of a literal that ends in them. -/
theorem content_of_quotes {quote u v : Text} (hq : quote.length = 3) (x : Text) :
    (((quote ++ u) ++ (x ++ (v ++ quote))).drop 3).take
      (((quote ++ u) ++ (x ++ (v ++ quote))).length - 6) = u ++ (x ++ v) := by
  have hlen : ((quote ++ u) ++ (x ++ (v ++ quote))).length - 6 = (u ++ (x ++ v)).length := by
    simp only [List.length_append, hq]
    omega
  have hsplit : (quote ++ u) ++ (x ++ (v ++ quote)) = quote ++ ((u ++ (x ++ v)) ++ quote) := by
    simp only [List.append_assoc]
  rw [hlen, hsplit, ← hq, List.drop_left, List.take_left]

/-- The quotes of a docstring. -/
def quotes : List Text :=
  [['"', '"', '"'], ['\'', '\'', '\'']]

theorem quotes_plain :
    ∀ quote ∈ quotes, quote.length = 3 ∧ ∀ c ∈ quote, Text.isLayout c = false := by
  have hall : ∀ quote ∈ quotes,
      quote.length = 3 ∧ quote.all (fun c => !Text.isLayout c) = true := by decide
  exact fun quote hmem => ⟨(hall quote hmem).1, Text.not_isLayout_of_all (hall quote hmem).2⟩

theorem tripleQuote?_eq_some {literal quote : Text} (h : tripleQuote? literal = some quote) :
    quote ∈ quotes ∧ quote.isPrefixOf literal = true :=
  ⟨List.mem_of_find?_eq_some h, by simpa using List.find?_some h⟩

theorem tripleQuote?_congr
    (h : ∀ quote ∈ quotes, quote.isPrefixOf s = quote.isPrefixOf t) :
    tripleQuote? s = tripleQuote? t := by
  have hsame : ∀ quotes' : List Text, (∀ quote ∈ quotes', quote ∈ quotes) →
      quotes'.find? (·.isPrefixOf s) = quotes'.find? (·.isPrefixOf t) := by
    intro quotes' hsub
    induction quotes' with
    | nil => rfl
    | cons quote rest ih =>
      rw [List.find?_cons, List.find?_cons, h quote (hsub quote List.mem_cons_self),
        ih fun q hq => hsub q (List.mem_cons_of_mem _ hq)]
  exact hsame quotes fun _ hq => hq

theorem tripleQuote?_worn (h : Worn s t) : tripleQuote? s = tripleQuote? t :=
  tripleQuote?_congr fun quote hquote => h.isPrefixOf (quotes_plain quote hquote).2

theorem read_worn (h : Worn s t) : read s = read t := by
  have hletters : ∀ c, Text.isLayout c = true → "rRuUbBfF".toList.contains c = false := by
    intro c hc
    rcases Text.isLayout_iff.1 hc with rfl | rfl | rfl | rfl <;> decide
  have hl := h.trim.trimStartWhere hletters
  unfold read
  generalize Text.trimStartWhere ("rRuUbBfF".toList.contains ·) (Text.trim s) = literal at hl
  generalize Text.trimStartWhere ("rRuUbBfF".toList.contains ·) (Text.trim t) = literal' at hl
  simp only [← tripleQuote?_worn hl]
  cases hquote : tripleQuote? literal with
  | none => rfl
  | some quote =>
    obtain ⟨hmem, hprefix⟩ := tripleQuote?_eq_some hquote
    obtain ⟨hlen, hplain⟩ := quotes_plain quote hmem
    have hprefix' := hl.isPrefixOf hplain ▸ hprefix
    cases hl with
    | same => rfl
    | @lost u x v hx hu =>
      have hxq : x ∉ quote := fun hmem => by rw [hplain x hmem] at hx; cases hx
      have hn : '\n' ∉ quote := fun hmem => absurd (hplain _ hmem) (by decide)
      have hne : quote ≠ [] := by
        rintro rfl
        cases hlen
      have hsuffix : quote.isSuffixOf (u ++ x :: '\n' :: v) = quote.isSuffixOf v := by
        rw [List.append_cons, Text.isSuffixOf_append hn]
      simp only [hsuffix, Text.isSuffixOf_append hn]
      cases hv : quote.isSuffixOf v with
      | false => simp
      | true =>
        rw [Text.isPrefixOf_append hxq, List.isPrefixOf_iff_prefix] at hprefix
        obtain ⟨u, rfl⟩ := hprefix
        obtain ⟨v, rfl⟩ := List.isSuffixOf_iff_suffix.1 hv
        have hinner : Worn (u ++ ([x, '\n'] ++ v)) (u ++ (['\n'] ++ v)) := by
          refine .lost u v hx fun he => ?_
          exact Text.getLast?_of_cut (a := []) rfl hn hne (hu he)
        have hs := content_of_quotes (u := u) (v := v) hlen [x, '\n']
        have ht := content_of_quotes (u := u) (v := v) hlen ['\n']
        have hfold := hinner.foldl_lines State.step_trimEnd State.step_empty .initial
        have hlong : ∀ x : Text, ¬ ((quote ++ u) ++ (x ++ (v ++ quote))).length < 6 := by
          intro x
          simp only [List.length_append, hlen]
          omega
        have hs' := hlong [x, '\n']
        have ht' := hlong ['\n']
        simp only [List.cons_append, List.nil_append] at hs ht hs' ht' hfold
        simp only [hs, ht, hs', ht', hfold]

end Docstring

/-! ## Block tags -/

namespace Javadoc

theorem content_trimEnd (line : Text) : content (Text.trimEnd line) = content line := by
  unfold content
  rw [Text.trim_trimEnd]

theorem State.step_trimEnd (state : State) (line : Text) :
    state.step (Text.trimEnd line) = state.step line := by
  unfold State.step
  rw [content_trimEnd]

theorem State.step_empty (state : State) : (state.step []).step [] = state.step [] :=
  rfl

theorem read_worn (h : Worn s t) : read s = read t := by
  have hbody : ∀ {a b : Text}, Worn a b →
      (Text.lines a).foldl State.step .initial = (Text.lines b).foldl State.step .initial :=
    fun hab => hab.foldl_lines State.step_trimEnd State.step_empty .initial
  unfold read
  have hopen := h.cutAt? (p := ['/', '*', '*']) (Text.not_isLayout_of_all rfl) (by decide)
  generalize Text.cutAt? ['/', '*', '*'] s = opened at hopen
  generalize Text.cutAt? ['/', '*', '*'] t = opened' at hopen
  cases hopen with
  | nowhere => rfl
  | before b ha => rfl
  | @behind a b b' hb =>
    have hclose := hb.cutAtLast? (p := ['*', '/']) (Text.not_isLayout_of_all rfl) (by decide)
    simp only
    generalize Text.cutAtLast? ['*', '/'] b = closed at hclose
    generalize Text.cutAtLast? ['*', '/'] b' = closed' at hclose
    cases hclose with
    | nowhere => rfl
    | before d hc => simp only [hbody hc]
    | behind c hd => rfl

end Javadoc

/-! ## Banner comments -/

namespace Banner

theorem isBanner_trimEnd (line : Text) :
    Source.Procedural.isBanner (Text.trimEnd line) = Source.Procedural.isBanner line := by
  unfold Source.Procedural.isBanner
  rw [Text.trim_trimEnd]

theorem content_trimEnd (line : Text) : content (Text.trimEnd line) = content line := by
  unfold content
  rw [Text.trim_trimEnd]

theorem State.step_trimEnd (state : State) (line : Text) :
    state.step (Text.trimEnd line) = state.step line := by
  unfold State.step
  rw [isBanner_trimEnd, content_trimEnd]

theorem State.step_empty (state : State) : (state.step []).step [] = state.step [] :=
  rfl

theorem read_worn (h : Worn s t) : read s = read t := by
  unfold read
  rw [h.length_filter_lines isBanner_trimEnd (by decide), h.foldl_lines State.step_trimEnd State.step_empty .initial]

end Banner

/-! ## Documentation elements -/

namespace XmlDoc

theorem content_trimEnd (line : Text) : content (Text.trimEnd line) = content line := by
  unfold content
  rw [Text.trim_trimEnd]

/-- What elements say depends on the lines only, without the blanks at their ends. -/
theorem read_of_lineTexts (hlines : Text.lineTexts s = Text.lineTexts t)
    (hslashes : Text.holds ['/', '/', '/'] s = Text.holds ['/', '/', '/'] t) :
    read s = read t := by
  have hcontent : (Text.lines s).map content = (Text.lines t).map content := by
    have hbare : ∀ text : Text, (Text.lines text).map content = (Text.lineTexts text).map content := by
      intro text
      rw [← Text.lines_map_trimEnd, List.map_map]
      exact List.map_congr_left fun line _ => (content_trimEnd line).symm
    rw [hbare, hbare, hlines]
  unfold read
  rw [hslashes, hcontent]

end XmlDoc

/-- **A worn comment says the same** in a language whose comments have no attributes. -/
theorem read_worn {language : Language} (hl : language ≠ .cSharp) (h : Worn s t) :
    read language s = read language t := by
  unfold read
  rw [h.allBlank]
  cases language with
  | python => simp only [Docstring.read_worn h]
  | java => simp only [Javadoc.read_worn h]
  | cSharp => exact absurd rfl hl
  | visualBasic => simp only [Banner.read_worn h]

end Scholia.Comment
