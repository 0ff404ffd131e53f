import Scholia.Proofs.Comment.Worn
import Scholia.Proofs.Text.Rows
/-!
# Comments at another column

A comment that is moved to another column, with other blanks around it, says what it said
(`Comment.read_moved`). Three of the grammars read a comment by its rows, and an empty row at an end
says nothing to them. The grammar of docstrings compares the indentation of a line with that of the
first line of its section: both are further lines of the comment and have moved by the same amount
(`Docstring.State.Same`). The one line that has not moved opens the comment, and no section is open
there.
-/

namespace Scholia.Comment

open Doc (Line)
open Text (Level Moved PassesEmpty Shifted isBlank)

variable {a b : Nat} {s t : Text}

/-! ## Docstrings -/

namespace Docstring

/-- Two states after the same lines at two columns. -/
structure State.Same (a b : Nat) (st st' : State) : Prop where
  description : st.description = st'.description
  described : st.described = st'.described
  current : st.current = st'.current
  indent : Option.Rel (fun i j => i + a = j + b) st.indent st'.indent
  arguments : st.arguments = st'.arguments
  returns : st.returns = st'.returns
  raises : st.raises = st'.raises

namespace State

variable {st st' : State} {line line' : Text}

theorem Same.of_closed (h : st.indent = none) : Same a b st st :=
  ⟨rfl, rfl, rfl, h ▸ .none, rfl, rfl, rfl⟩

theorem Same.finish (h : Same a b st st') : st.finish = st'.finish := by
  unfold State.finish
  rw [h.description, h.arguments, h.returns, h.raises]

/-- **A line of a section is an entry at both columns or at none**. -/
theorem Same.addTo (h : Same a b st st') (part : Section) (text : Text)
    (hcol : Text.margin line + a = Text.margin line' + b) :
    Same a b (st.addTo part line text) (st'.addTo part line' text) := by
  have hfirst : st.indent.getD (Text.margin line) + a =
      st'.indent.getD (Text.margin line') + b := by
    have hind := h.indent
    revert hind
    generalize st.indent = i, st'.indent = j
    rintro (hij | _)
    · exact hij
    · exact hcol
  have hle : decide (Text.margin line ≤ st.indent.getD (Text.margin line)) =
      decide (Text.margin line' ≤ st'.indent.getD (Text.margin line')) := by
    rw [decide_eq_decide]
    omega
  unfold State.addTo
  split
  · exact h
  · unfold Text.margin at hfirst hle
    cases part with
    | arguments =>
      exact { h with indent := .some hfirst, arguments := by simp only [hle, h.arguments] }
    | returns => exact { h with indent := .some hfirst, returns := by simp only [hle, h.returns] }
    | raises => exact { h with indent := .some hfirst, raises := by simp only [hle, h.raises] }

/-- **A line is read the same at both columns**. -/
theorem Same.step (h : Same a b st st') (hline : Level a b line line') :
    Same a b (st.step line) (st'.step line') := by
  unfold State.step
  rw [← hline.text]
  simp only
  split
  · exact { h with described := by simp only [h.described, h.current, h.description] }
  · next hne =>
    have hcol : Text.margin line + a = Text.margin line' + b := by
      refine hline.column.resolve_left fun hblank => ?_
      rw [Text.trim, Text.trimStart_of_allBlank hblank] at hne
      exact hne rfl
    rw [← h.current, ← h.described]
    split
    · exact { h with described := rfl, current := rfl, indent := .none }
    · exact h.addTo _ _ hcol
    · split
      · exact h
      · exact ⟨congrArg (_ :: ·) h.description, rfl, rfl, h.indent, h.arguments, h.returns,
          h.raises⟩

theorem Same.foldl {ls ls' : List Text} (h : Same a b st st')
    (hlines : List.Forall₂ (Level a b) ls ls') :
    Same a b (ls.foldl State.step st) (ls'.foldl State.step st') := by
  induction hlines generalizing st st' with
  | nil => exact h
  | cons hline _ ih => exact ih (h.step hline)

/-- The first line of a docstring finds no section open. -/
theorem indent_step_initial (line : Text) : (initial.step line).indent = none := by
  unfold State.step
  simp only
  split
  · rfl
  · split
    · rfl
    · next hcurrent => cases hcurrent
    · rfl

theorem finish_step_empty (st : State) : (st.step []).finish = st.finish :=
  rfl

/-- A docstring is read by its rows: a last one that is empty says nothing. -/
theorem finish_lines (s : Text) (first : State) : ((Text.lines s).foldl State.step first).finish =
    ((Text.splitWhere (· == '\n') s).foldl State.step first).finish :=
  Text.foldl_lines State.step_trimEnd finish_step_empty s first

/-- **The text between the quotes says the same at both columns**. -/
theorem finish_shifted (h : Shifted a b s t) :
    ((Text.lines s).foldl State.step initial).finish =
      ((Text.lines t).foldl State.step initial).finish := by
  obtain ⟨q, ls, q', ls', hs, ht, hfirst, hrest⟩ := h.levels
  have hstep : initial.step q = initial.step q' := by
    rw [← State.step_trimEnd, hfirst, State.step_trimEnd]
  have hsame := Same.of_closed (a := a) (b := b) (indent_step_initial q)
  rw [finish_lines, finish_lines, hs, ht, List.foldl_cons, List.foldl_cons, ← hstep]
  exact (hsame.foldl hrest).finish

end State

variable {quote content literal : Text}

theorem isBlank_quote (h : quote ∈ quotes) : ∀ c ∈ quote, isBlank c = false := by
  have hall : ∀ quote ∈ quotes, quote.all (fun c => !isBlank c) = true := by decide
  intro c hc
  simpa using List.all_eq_true.1 (hall quote h) c hc

/-- A literal with quotes at both ends, if it has room for both. -/
theorem exists_content (hlen : quote.length = 3) (hstart : quote <+: literal)
    (hsuffix : quote <:+ literal) (hlong : ¬ literal.length < 6) :
    ∃ content, literal = quote ++ (content ++ quote) := by
  obtain ⟨r, rfl⟩ := hstart
  obtain ⟨x, hx⟩ := hsuffix
  rcases List.append_eq_append_iff.1 hx.symm with ⟨m, -, rfl⟩ | ⟨m, hm, hr⟩
  · exact ⟨m, rfl⟩
  · have hnil : m = [] := by
      have hquote := congrArg List.length hm
      have hwhole := congrArg List.length hx
      simp only [List.length_append] at hquote hwhole hlong
      exact List.eq_nil_of_length_eq_zero (by omega)
    rw [hnil, List.nil_append] at hr
    exact ⟨[], by rw [List.nil_append, hr]⟩

/-- **What stands between the quotes** of a literal stands between those of the other. -/
theorem exists_content_shifted (hquote : ∀ c ∈ quote, isBlank c = false) (hne : quote ≠ [])
    (h : Shifted a b (quote ++ (content ++ quote)) t) (ht : Text.trimEnd t = t) :
    ∃ content', t = quote ++ (content' ++ quote) ∧ Shifted a b content content' := by
  obtain ⟨r, rfl, hr⟩ := h.of_append hquote
  cases quote with
  | nil => exact absurd rfl hne
  | cons c q =>
    obtain ⟨hc, hq⟩ := List.forall_mem_cons.1 hquote
    obtain ⟨content', y, rfl, hcontent, hy, -⟩ := hr.split hc
    rw [← List.append_nil q] at hy
    obtain ⟨tail, rfl, htail⟩ := hy.of_append hq
    have hnil := htail.eq_nil_of_suffix ht ⟨(c :: q) ++ (content' ++ c :: q), by simp⟩
    exact ⟨content', by rw [hnil, List.append_nil], hcontent⟩

/-- Whether a literal does not end with its quotes. -/
def isOpen (quote literal : Text) : Bool :=
  literal.length < 6 || !quote.isSuffixOf literal

theorem isOpen_content (hlen : quote.length = 3) (content : Text) :
    isOpen quote (quote ++ (content ++ quote)) = false := by
  have hsuffix : quote.isSuffixOf (quote ++ (content ++ quote)) = true :=
    List.isSuffixOf_iff_suffix.2 ⟨quote ++ content, List.append_assoc _ _ _⟩
  have hlong : ¬ (quote ++ (content ++ quote)).length < 6 := by
    simp only [List.length_append, hlen]
    omega
  rw [isOpen, hsuffix, decide_eq_false hlong]
  rfl

/-- **A literal that is closed is so at both columns**, with contents that are shifted. -/
theorem exists_contents (hmem : quote ∈ quotes) (h : Shifted a b s t) (ht : Text.trimEnd t = t)
    (hstart : quote.isPrefixOf s = true) (hclosed : isOpen quote s = false) :
    ∃ content content', s = quote ++ (content ++ quote) ∧ t = quote ++ (content' ++ quote) ∧
      Shifted a b content content' := by
  obtain ⟨hlen, -⟩ := quotes_plain quote hmem
  rw [isOpen, Bool.or_eq_false_iff, Bool.not_eq_false', decide_eq_false_iff_not] at hclosed
  have hne : quote ≠ [] := by
    rintro rfl
    cases hlen
  obtain ⟨content, rfl⟩ := exists_content hlen (List.isPrefixOf_iff_prefix.1 hstart)
    (List.isSuffixOf_iff_suffix.1 hclosed.2) hclosed.1
  obtain ⟨content', rfl, hcontent⟩ := exists_content_shifted (isBlank_quote hmem) hne h ht
  exact ⟨content, content', rfl, rfl, hcontent⟩

theorem content_eq (hlen : quote.length = 3) (content : Text) :
    ((quote ++ (content ++ quote)).drop 3).take ((quote ++ (content ++ quote)).length - 6) =
      content := by
  simpa using content_of_quotes (u := []) (v := []) hlen content

/-- What a literal says. -/
def readLiteral (literal : Text) : Except Fault (List Line) :=
  match tripleQuote? literal with
  | none => .ok []
  | some quote =>
    if isOpen quote literal then .error .openDocstring
    else .ok ((Text.lines ((literal.drop 3).take (literal.length - 6))).foldl
      State.step .initial).finish

theorem readLiteral_shifted (h : Shifted a b s t) (hs : Text.trimEnd s = s)
    (ht : Text.trimEnd t = t) : readLiteral s = readLiteral t := by
  unfold readLiteral
  rw [← tripleQuote?_congr fun quote hquote => h.isPrefixOf (isBlank_quote hquote)]
  cases hquote : tripleQuote? s with
  | none => rfl
  | some quote =>
    obtain ⟨hmem, hstart⟩ := tripleQuote?_eq_some hquote
    obtain ⟨hlen, -⟩ := quotes_plain quote hmem
    cases hopen : isOpen quote s with
    | true =>
      cases hopen' : isOpen quote t with
      | true => simp only [hopen, hopen', if_true]
      | false =>
        have hstart' := h.isPrefixOf (isBlank_quote hmem) ▸ hstart
        obtain ⟨-, content, -, rfl, -⟩ := exists_contents hmem h.symm hs hstart' hopen'
        rw [isOpen_content hlen] at hopen
        cases hopen
    | false =>
      obtain ⟨content, content', rfl, rfl, hcontent⟩ := exists_contents hmem h ht hstart hopen
      simp only [isOpen_content hlen, content_eq hlen, State.finish_shifted hcontent]

theorem read_moved (h : Moved a b s t) : read s = read t := by
  have hletters : ∀ c, isBlank c = true → "rRuUbBfF".toList.contains c = false := by
    have hall : ∀ d ∈ "rRuUbBfF".toList, isBlank d = false := by decide
    intro c hc
    rw [Bool.eq_false_iff, ne_eq, List.contains_iff_mem]
    exact Text.not_mem_of_ink hall hc
  have hend : ∀ raw : Text, Text.trimEnd
      (Text.trimStartWhere ("rRuUbBfF".toList.contains ·) (Text.trim raw)) =
        Text.trimStartWhere ("rRuUbBfF".toList.contains ·) (Text.trim raw) := fun raw =>
    Text.trimEnd_of_suffix (Text.trimEnd_trimEnd _) (List.dropWhile_suffix _)
  exact readLiteral_shifted (h.trim.dropWhile hletters) (hend s) (hend t)

end Docstring

/-! ## Block tags -/

namespace Javadoc

theorem content_trim (line : Text) : content (Text.trim line) = content line := by
  unfold content
  rw [Text.trim_trim]

theorem State.step_trim (state : State) (line : Text) :
    state.step (Text.trim line) = state.step line := by
  unfold State.step
  rw [content_trim]

/-- The text of a comment says the same at both columns. -/
theorem foldl_moved (h : Moved a b s t) : (Text.lines s).foldl State.step .initial =
    (Text.lines t).foldl State.step .initial :=
  h.foldl_lines State.step_trim (fun _ => rfl) .initial

/-- What stands behind the opening of a comment says. -/
def readInner (inner : Text) : Except Fault (List Line) :=
  match Text.cutAtLast? ['*', '/'] inner with
  | none => .error .openBlock
  | some (body, _) => .ok ((Text.lines body).foldl State.step .initial).finish

theorem read_eq (raw : Text) : read raw =
    (((Text.cutAt? ['/', '*', '*'] raw).map fun (_, inner) => readInner inner).getD (.ok [])) := by
  unfold read
  cases Text.cutAt? ['/', '*', '*'] raw <;> rfl

theorem isBlank_opening : ∀ c ∈ ['/', '*', '*'], isBlank c = false := by decide

theorem isBlank_closing : ∀ c ∈ ['*', '/'], isBlank c = false := by decide

/-- **Blanks around a comment say nothing**. -/
theorem read_blanks {lead tail : Text} (hlead : Text.allBlank lead = true)
    (htail : Text.allBlank tail = true) (core : Text) :
    read (lead ++ (core ++ tail)) = read core := by
  have hinner : ∀ inner : Text, readInner (inner ++ tail) = readInner inner := by
    intro inner
    unfold readInner
    rw [Text.cutAtLast?_append_blanks (List.cons_ne_nil _ _) isBlank_closing htail]
    cases Text.cutAtLast? ['*', '/'] inner <;> rfl
  have hscan := Text.stopsAtInk_cutAt? (List.cons_ne_nil _ _) isBlank_opening
  rw [read_eq, read_eq, hscan.append hlead,
    Text.cutAt?_append_blanks (List.cons_ne_nil _ _) isBlank_opening htail]
  cases Text.cutAt? ['/', '*', '*'] core with
  | none => rfl
  | some p => exact hinner p.2

theorem readInner_shifted (h : Shifted a b s t) : readInner s = readInner t := by
  have hcut := h.cutAtLast? (List.cons_ne_nil _ _) isBlank_closing
  unfold readInner
  revert hcut
  generalize Text.cutAtLast? ['*', '/'] s = p, Text.cutAtLast? ['*', '/'] t = q
  rintro (hparts | _)
  · simp only [foldl_moved (.of_shifted hparts.1)]
  · rfl

theorem read_moved (h : Moved a b s t) : read s = read t := by
  cases h with
  | @intro lead core tail lead' core' tail' hlead htail hlead' htail' h =>
    rw [read_blanks hlead htail, read_blanks hlead' htail', read_eq, read_eq]
    have hcut := h.cutAt? (List.cons_ne_nil _ _) isBlank_opening
    revert hcut
    generalize Text.cutAt? ['/', '*', '*'] core = p, Text.cutAt? ['/', '*', '*'] core' = q
    rintro (hparts | _)
    · exact readInner_shifted hparts.2
    · rfl

end Javadoc

/-! ## Banner comments -/

namespace Banner

open Source.Procedural (isBanner)

theorem isBanner_trim (line : Text) : isBanner (Text.trim line) = isBanner line := by
  unfold isBanner
  rw [Text.trim_trim]

theorem State.step_trim (state : State) (line : Text) :
    state.step (Text.trim line) = state.step line := by
  unfold State.step content
  rw [isBanner_trim, Text.trim_trim]

theorem passesEmpty_banners : PassesEmpty fun ls => (ls.filter isBanner).length where
  front ls := rfl
  back ls := by
    rw [List.filter_append]
    exact congrArg List.length (List.append_nil _)

theorem read_moved (h : Moved a b s t) : read s = read t := by
  have hbanners : ∀ text : Text, ((Text.lines text).filter isBanner).length =
      (((Text.lines text).map Text.trim).filter isBanner).length := by
    intro text
    rw [List.filter_map, List.length_map,
      show isBanner ∘ Text.trim = isBanner from funext isBanner_trim]
  unfold read
  rw [hbanners, hbanners, h.lines_eq passesEmpty_banners,
    h.foldl_lines State.step_trim (fun _ => rfl) .initial]

end Banner

/-! ## Documentation elements -/

namespace XmlDoc

theorem content_trim (line : Text) : content (Text.trim line) = content line := by
  unfold content
  rw [Text.trim_trim]

theorem map_content_trim (ls : List Text) : (ls.map Text.trim).map content = ls.map content := by
  rw [List.map_map]
  exact List.map_congr_left fun line _ => content_trim line

/-- A text as it is searched for elements: its summary, and what is outside it. -/
def divided (text : Text) : Text × Text :=
  (summary? text).getD ([], text)

/-- What a summary and the elements outside it say. -/
def report (summary rest : Text) : List Line :=
  let description := ((Text.lines summary).map Text.trim).filter (!·.isEmpty)
  let params := elements (attributeTag "param".toList "name".toList) "</param>".toList rest
  let returns := elements (plainTag "returns".toList) "</returns>".toList rest
  let exceptions :=
    elements (attributeTag "exception".toList "cref".toList) "</exception>".toList rest
  sections
    [ ("Description:".toList, descriptionLines description),
      ("Arguments:".toList, params.map point),
      ("Return:".toList, ((returns.map (Text.collapse ·.2)).filter (!·.isEmpty)).map .bullet),
      ("Exceptions:".toList, exceptions.map point) ]

/-- What the text of a comment says, without its slashes. -/
def readText (text : Text) : Except Fault (List Line) :=
  if Text.holds "<summary>".toList text && !Text.holds "</summary>".toList text then
    .error .openSummary
  else .ok (report (divided text).1 (divided text).2)

/-- The grammar in two steps: the slashes are taken off, then elements are searched for. -/
theorem read_eq (raw : Text) : read raw =
    if !Text.holds ['/', '/', '/'] raw then .ok []
    else readText (Text.join ['\n'] ((Text.lines raw).map content)) :=
  rfl

/-- A start tag that does not depend on line feeds around the text. -/
structure IsTag (start : Text → Option (Text × Text)) : Prop where
  front : ∀ s, start ('\n' :: s) = none
  back : ∀ s, start (s ++ ['\n']) = (start s).map fun (value, rest) => (value, rest ++ ['\n'])

theorem dropLead?_concat {p : Text} (hp : '\n' ∉ p) (s : Text) :
    Text.dropLead? p (s ++ ['\n']) = (Text.dropLead? p s).map (· ++ ['\n']) :=
  Text.dropLead?_append hp s []

/-- A pattern behind blanks. -/
theorem dropLead?_trimStart_concat {p : Text} (hp : '\n' ∉ p) (hne : p ≠ []) (s : Text) :
    Text.dropLead? p (Text.trimStart (s ++ ['\n'])) =
      (Text.dropLead? p (Text.trimStart s)).map (· ++ ['\n']) := by
  cases hs : Text.allBlank s with
  | true =>
    have hs' : Text.allBlank (s ++ ['\n']) = true := by
      rw [Text.allBlank_append, hs]
      rfl
    rw [Text.trimStart_of_allBlank hs, Text.trimStart_of_allBlank hs']
    cases p with
    | nil => exact absurd rfl hne
    | cons d p => rfl
  | false =>
    obtain ⟨lead, c, r, rfl, hlead, hc⟩ := Text.exists_first_ink hs
    rw [List.append_assoc, List.cons_append, Text.trimStart_ink hlead hc,
      Text.trimStart_ink hlead hc, ← List.cons_append, dropLead?_concat hp]

theorem plainTag_isTag {name : Text} (hname : '\n' ∉ name) : IsTag (plainTag name) where
  front s := rfl
  back s := by
    have hp : '\n' ∉ '<' :: name ++ ['>'] := by simp [hname]
    rw [plainTag, plainTag, dropLead?_concat hp, Option.map_map, Option.map_map]
    rfl

/-- The value of an attribute and what follows its tag, behind the name of the tag. -/
def attribute? (key s : Text) : Option (Text × Text) := do
  let s ← Text.dropLead? key (Text.trimStart s)
  let s ← Text.dropLead? ['='] (Text.trimStart s)
  let s ← Text.dropLead? ['"'] (Text.trimStart s)
  let (value, s) ← Text.cutAt? ['"'] s
  let s ← Text.dropLead? ['>'] (Text.trimStart s)
  return (value, s)

theorem attribute?_concat {key : Text} (hkey : '\n' ∉ key) (hne : key ≠ []) (s : Text) :
    attribute? key (s ++ ['\n']) =
      (attribute? key s).map fun (value, rest) => (value, rest ++ ['\n']) := by
  unfold attribute?
  rw [dropLead?_trimStart_concat hkey hne]
  cases Text.dropLead? key (Text.trimStart s) with
  | none => rfl
  | some s =>
    simp only [Option.map_some, Option.bind_eq_bind, Option.bind_some]
    rw [dropLead?_trimStart_concat (by decide) (List.cons_ne_nil _ _)]
    cases Text.dropLead? ['='] (Text.trimStart s) with
    | none => rfl
    | some s =>
      simp only [Option.map_some, Option.bind_some]
      rw [dropLead?_trimStart_concat (by decide) (List.cons_ne_nil _ _)]
      cases Text.dropLead? ['"'] (Text.trimStart s) with
      | none => rfl
      | some s =>
        simp only [Option.map_some, Option.bind_some]
        rw [Text.cutAt?_append_blanks (List.cons_ne_nil _ _) (by decide) rfl]
        cases Text.cutAt? ['"'] s with
        | none => rfl
        | some p =>
          simp only [Option.map_some, Option.bind_some]
          rw [dropLead?_trimStart_concat (by decide) (List.cons_ne_nil _ _)]
          cases Text.dropLead? ['>'] (Text.trimStart p.2) <;> rfl

theorem attributeTag_isTag {name key : Text} (hname : '\n' ∉ name) (hkey : '\n' ∉ key)
    (hne : key ≠ []) : IsTag (attributeTag name key) where
  front s := rfl
  back s := by
    have hp : '\n' ∉ '<' :: name := by simp [hname]
    have hblank : attribute? key ['\n'] = none := by
      cases key with
      | nil => exact absurd rfl hne
      | cons d key => rfl
    have htag : ∀ s, attributeTag name key s = (Text.dropLead? ('<' :: name) s).bind fun s =>
        (guard ((s.head?.map isBlank).getD false = true) : Option Unit).bind fun _ =>
          attribute? key s := fun _ => rfl
    rw [htag, htag, dropLead?_concat hp]
    cases Text.dropLead? ('<' :: name) s with
    | none => rfl
    | some s =>
      dsimp only [Option.map_some, Option.bind_some]
      cases s with
      | nil =>
        rw [List.nil_append, hblank, Option.bind_fun_none]
        rfl
      | cons c s =>
        rw [attribute?_concat hkey hne]
        exact Option.map_bind.symm

section

variable {start : Text → Option (Text × Text)} (h : IsTag start)

include h

/-- A line feed in front of a text belongs to no element. -/
theorem elements_front (endTag s : Text) :
    elements start endTag ('\n' :: s) = elements start endTag s := by
  rw [elements, elementsFrom, h.front]
  rfl

/-- **Nor does a line feed behind it**: an element that is not closed before is not closed by it. -/
theorem elementsFrom_back {endTag : Text} (hend : ∀ c ∈ endTag, isBlank c = false)
    (hne : endTag ≠ []) (skip : Nat) (s : Text) :
    elementsFrom start endTag skip (s ++ ['\n']) = elementsFrom start endTag skip s := by
  induction s generalizing skip with
  | nil =>
    cases skip with
    | zero => exact elements_front h endTag []
    | succ skip => cases skip <;> rfl
  | cons c s ih =>
    cases skip with
    | succ skip => exact ih skip
    | zero =>
      have hback := h.back (c :: s)
      rw [List.cons_append] at hback ⊢
      rw [elementsFrom, elementsFrom, hback]
      cases start (c :: s) with
      | none => simp [ih]
      | some p =>
        simp only [Option.map_some, Option.bind_eq_bind, Option.bind_some]
        rw [Text.cutAt?_append_blanks hne hend rfl]
        cases Text.cutAt? endTag p.2 with
        | none => simp [ih]
        | some q => simp [ih]

theorem elements_back {endTag : Text} (hend : ∀ c ∈ endTag, isBlank c = false)
    (hne : endTag ≠ []) (s : Text) :
    elements start endTag (s ++ ['\n']) = elements start endTag s :=
  elementsFrom_back h hend hne 0 s

end

theorem divided_front (s : Text) :
    divided ('\n' :: s) = ((divided s).1, '\n' :: (divided s).2) := by
  have hscan := Text.stopsAtInk_cutAt? (p := "<summary>".toList) (List.cons_ne_nil _ _) (by decide)
  rw [divided, divided, summary?, summary?, hscan.passes rfl]
  cases Text.cutAt? "<summary>".toList s with
  | none => rfl
  | some p =>
    simp only [Option.map_some, Option.bind_eq_bind, Option.bind_some]
    cases Text.cutAt? "</summary>".toList p.2 <;> rfl

theorem divided_back (s : Text) :
    divided (s ++ ['\n']) = ((divided s).1, (divided s).2 ++ ['\n']) := by
  have hopening := Text.cutAt?_append_blanks (p := "<summary>".toList) (w := ['\n']) (by decide)
    (by decide) rfl
  have hclosing := Text.cutAt?_append_blanks (p := "</summary>".toList) (w := ['\n']) (by decide)
    (by decide) rfl
  rw [divided, divided, summary?, summary?, hopening]
  cases Text.cutAt? "<summary>".toList s with
  | none => rfl
  | some p =>
    simp only [Option.map_some, Option.bind_eq_bind, Option.bind_some]
    rw [hclosing]
    cases Text.cutAt? "</summary>".toList p.2 with
    | none => rfl
    | some q => simp

/-- Line feeds around the text outside the summary are in no element. -/
theorem report_congr {rest rest' : Text} (summary : Text)
    (h : ∀ {start : Text → Option (Text × Text)} {endTag : Text}, IsTag start →
      (∀ c ∈ endTag, isBlank c = false) → endTag ≠ [] →
        elements start endTag rest = elements start endTag rest') :
    report summary rest = report summary rest' := by
  unfold report
  rw [h (attributeTag_isTag (by decide) (by decide) (by decide)) (by decide) (by decide),
    h (plainTag_isTag (by decide)) (by decide) (by decide),
    h (attributeTag_isTag (by decide) (by decide) (by decide)) (by decide) (by decide)]

theorem readText_front (s : Text) : readText ('\n' :: s) = readText s := by
  have hholds : ∀ {p : Text}, p ≠ [] → (∀ c ∈ p, isBlank c = false) →
      Text.holds p ('\n' :: s) = Text.holds p s := by
    intro p hne hp
    rw [Text.holds, Text.holds, (Text.stopsAtInk_cutAt? hne hp).passes rfl, Option.isSome_map]
  unfold readText
  rw [hholds (by decide) (by decide), hholds (by decide) (by decide), divided_front,
    report_congr _ fun h _ _ => elements_front h _ _]

theorem readText_back (s : Text) : readText (s ++ ['\n']) = readText s := by
  have hholds : ∀ {p : Text}, p ≠ [] → (∀ c ∈ p, isBlank c = false) →
      Text.holds p (s ++ ['\n']) = Text.holds p s := by
    intro p hne hp
    rw [Text.holds, Text.holds, Text.cutAt?_append_blanks hne hp rfl, Option.isSome_map]
  unfold readText
  rw [hholds (by decide) (by decide), hholds (by decide) (by decide), divided_back,
    report_congr _ fun h hend hne => elements_back h hend hne _]

theorem join_concat {ls : List Text} (hne : ls ≠ []) :
    Text.join ['\n'] (ls ++ [[]]) = Text.join ['\n'] ls ++ ['\n'] := by
  induction ls with
  | nil => exact absurd rfl hne
  | cons l ls ih =>
    cases ls with
    | nil => simp [Text.join]
    | cons m ls =>
      rw [List.cons_append, List.cons_append, Text.join, List.intercalate_cons_cons,
        ← List.cons_append, ← Text.join, ih (List.cons_ne_nil _ _), Text.join, Text.join,
        List.intercalate_cons_cons]
      simp only [List.append_assoc]

/-- **Empty rows around a comment say nothing**. -/
theorem passesEmpty_readText :
    PassesEmpty fun ls => readText (Text.join ['\n'] (ls.map content)) where
  front ls := by
    cases ls with
    | nil => rfl
    | cons l ls => exact readText_front _
  back ls := by
    cases ls with
    | nil => rfl
    | cons l ls =>
      have hne : (l :: ls).map content ≠ [] := List.cons_ne_nil _ _
      rw [List.map_append, show [[]].map content = [[]] from rfl,
        join_concat hne, readText_back]

theorem holds_moved {p : Text} (hne : p ≠ []) (hp : ∀ c ∈ p, isBlank c = false)
    (h : Moved a b s t) : Text.holds p s = Text.holds p t := by
  have hcore : ∀ {lead tail : Text}, Text.allBlank lead = true → Text.allBlank tail = true →
      ∀ core, Text.holds p (lead ++ (core ++ tail)) = Text.holds p core := by
    intro lead tail hlead htail core
    rw [Text.holds, Text.holds, (Text.stopsAtInk_cutAt? hne hp).append hlead,
      Text.cutAt?_append_blanks hne hp htail, Option.isSome_map, Option.isSome_map]
  cases h with
  | @intro lead core tail lead' core' tail' hlead htail hlead' htail' h =>
    rw [hcore hlead htail, hcore hlead' htail', Text.holds, Text.holds]
    have hcut := h.cutAt? hne hp
    revert hcut
    generalize Text.cutAt? p core = x, Text.cutAt? p core' = y
    rintro (_ | _) <;> rfl

theorem read_moved (h : Moved a b s t) : read s = read t := by
  rw [read_eq, read_eq, holds_moved (by decide) (by decide) h, ← map_content_trim,
    ← map_content_trim (Text.lines t), h.lines_eq passesEmpty_readText]

end XmlDoc

/-- **A comment that is moved to another column says what it said**. -/
theorem read_moved (language : Language) (h : Moved a b s t) :
    read language s = read language t := by
  unfold read
  rw [h.allBlank]
  cases language with
  | python => simp only [Docstring.read_moved h]
  | java => simp only [Javadoc.read_moved h]
  | cSharp => simp only [XmlDoc.read_moved h]
  | visualBasic => simp only [Banner.read_moved h]

end Scholia.Comment
