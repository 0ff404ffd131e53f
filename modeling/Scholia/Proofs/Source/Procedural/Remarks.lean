import Scholia.Proofs.Source.Enclosed
import Scholia.Proofs.Source.Procedural.Lines
import Scholia.Proofs.Source.Procedural.Trailing
import Scholia.Proofs.Text.Worn
import Scholia.Proofs.Text.Reflow
/-!
# Remarks in the procedural language

A *remark* is a comment that is no part of a doc comment: a line of its own, or the end of a line of
code. Blanked out, it leaves a blank line, or the code with blanks behind it. Such a line does what it
did before, unless it is a header: that is kept as it is written. So **a source without its remarks
declares the same, as far as no remark stands in a header**.
-/

namespace Scholia.Source.Procedural

open Text (isBlank allBlank trimStart trimEnd rawLines)

variable {source : Text} {s s' t : State} {line line' : PhysicalLine} {tail w c : Text}

/-! ## Sources without remarks -/

/-- A raw line with its comment blanked out. -/
def unremarked (raw : Text) : Text :=
  let code := if isComment (trimEnd raw) then raw.takeWhile isBlank else codePart false raw
  code ++ Text.blanked (raw.drop code.length)

/-- The doc comments of a source. -/
def docs (source : Text) : List Span :=
  match outline source with
  | .ok o => (o.nodes.filter (!·.declares)).map Node.span
  | .error _ => []

/-- Whether a line is part of a doc comment. -/
def inDoc (docs : List Span) (line : PhysicalLine) : Bool :=
  docs.any fun doc => doc.start ≤ line.start && line.stop ≤ doc.stop

/-- The raw lines of a source with the remarks blanked out. -/
def unremarkedLines (source : Text) : List Text :=
  ((rawLines source).zip (physicalLines source)).map fun (raw, line) =>
    if inDoc (docs source) line then raw else unremarked raw

/-- A source with its remarks blanked out. -/
def withoutRemarks (source : Text) : Text :=
  (unremarkedLines source).flatten

/-- Whether a line is read as a header: it goes on with one, or begins a procedure, a member without a
body, or a type. -/
def State.judges (s : State) (line : PhysicalLine) : Bool :=
  s.continued != .no || line.header?.isSome ||
    s.procedure.isNone && (declarator? typeWords line.text).isSome

/-- The lines of headers that are read from a state on. -/
def headersFrom : State → List PhysicalLine → List Span
  | _, [] => []
  | s, line :: rest =>
    (if s.judges line then [⟨line.start, line.stop⟩] else []) ++
      match s.step line with
      | .ok t => headersFrom t rest
      | .error _ => []

/-- The lines of the headers of a source: what is told from them is what stands in its outline. -/
def headers (source : Text) : List Span :=
  headersFrom .initial (physicalLines source)

/-- Two lines of a header are told apart by any remark in them. -/
def ReadsSame (header header' : Text) : Prop :=
  header = header'

instance (header header' : Text) : Decidable (ReadsSame header header') :=
  inferInstanceAs (Decidable (_ = _))

/-! ## Code without its comment -/

theorem codePart_lead (quoted : Bool) (s : Text) : codePart quoted s <+: s := by
  induction s generalizing quoted with
  | nil => exact List.prefix_rfl
  | cons d s ih =>
    rw [codePart]
    split
    · exact List.prefix_cons_inj d |>.2 (ih _)
    split
    · exact List.nil_prefix
    · exact List.prefix_cons_inj d |>.2 (ih _)

/-- What follows the code is a comment. -/
theorem codePart_behind {quoted : Bool} {d : Char} {r : Text}
    (h : codePart quoted (c ++ d :: r) = c) : d = '\'' := by
  induction c generalizing quoted with
  | nil =>
    rw [List.nil_append, codePart] at h
    split at h
    · cases h
    split at h
    · next hd =>
      rw [Bool.and_eq_true, decide_eq_true_eq] at hd
      exact hd.1
    · cases h
  | cons e c ih =>
    rw [List.cons_append, codePart] at h
    split at h
    · exact ih (List.cons.inj h).2
    split at h
    · cases h
    · exact ih (List.cons.inj h).2

/-- The code before a comment does not depend on the comment. -/
theorem codePart_comment {quoted : Bool} {r : Text} (h : codePart quoted (c ++ '\'' :: r) = c)
    (w : Text) : codePart quoted (c ++ '\'' :: w) = c := by
  induction c generalizing quoted with
  | nil =>
    cases quoted with
    | true => cases h
    | false => rfl
  | cons e c ih =>
    rw [List.cons_append, codePart] at h ⊢
    split at h
    · next he => rw [if_pos he, ih (List.cons.inj h).2]
    split at h
    · cases h
    · next he hq => rw [if_neg he, if_neg hq, ih (List.cons.inj h).2]

/-- What code begins with is code. -/
theorem codePart_front {quoted : Bool} {u v x : Text} (h : codePart quoted (u ++ v) = u ++ x) :
    codePart quoted u = u := by
  induction u generalizing quoted with
  | nil => rfl
  | cons e u ih =>
    rw [List.cons_append, List.cons_append, codePart] at h
    rw [codePart]
    split at h
    · next he => rw [if_pos he, ih (List.cons.inj h).2]
    split at h
    · cases h
    · next he hq => rw [if_neg he, if_neg hq, ih (List.cons.inj h).2]

/-- **A raw line keeps its code**: what is blanked out begins with a character that is not blank. -/
theorem unremarked_cases (raw : Text) : unremarked raw = raw ∨ ∃ c d m, raw = c ++ d :: m ∧
    unremarked raw = c ++ Text.blanked (d :: m) ∧ isBlank d = false ∧
    (isComment (trimEnd raw) = true ∧ allBlank c = true ∨
      isComment (trimEnd raw) = false ∧ d = '\'' ∧ codePart false raw = c) := by
  have hsplit {code : Text} (h : code <+: raw) : raw = code ++ raw.drop code.length := by
    obtain ⟨r, rfl⟩ := h
    rw [List.drop_left]
  cases hcomment : isComment (trimEnd raw) with
  | true =>
    have hraw := hsplit (List.takeWhile_prefix isBlank)
    rw [unremarked, hcomment]
    simp only [if_true]
    cases hm : raw.drop (raw.takeWhile isBlank).length with
    | nil =>
      rw [hm, List.append_nil] at hraw
      exact .inl (by rw [Text.blanked_nil, List.append_nil, ← hraw])
    | cons d m =>
      rw [hm] at hraw
      refine .inr ⟨_, d, m, hraw, rfl, ?_, .inl ⟨trivial, List.all_takeWhile⟩⟩
      have hdrop : raw.dropWhile isBlank = d :: m := by
        have hboth := List.takeWhile_append_dropWhile (p := isBlank) (l := raw)
        exact List.append_cancel_left (hboth.trans hraw)
      exact Text.not_isBlank_of_trimStart hdrop
  | false =>
    have hraw := hsplit (codePart_lead false raw)
    rw [unremarked, hcomment]
    simp only [Bool.false_eq_true, if_false]
    cases hm : raw.drop (codePart false raw).length with
    | nil =>
      rw [hm, List.append_nil] at hraw
      exact .inl (by rw [Text.blanked_nil, List.append_nil, ← hraw])
    | cons d m =>
      rw [hm] at hraw
      have hcode : codePart false (codePart false raw ++ d :: m) = codePart false raw := by
        rw [← hraw]
      obtain rfl : d = '\'' := codePart_behind hcode
      exact .inr ⟨_, _, m, hraw, rfl, by decide, .inr ⟨trivial, rfl, rfl⟩⟩

/-! ## Lines without remarks -/

/-- What a line becomes without its remark, if it has one. -/
inductive Bared (line line' : PhysicalLine) : Prop
  | same (h : line' = line)
  | comment (hcomment : isComment line.text = true) (hblank : allBlank line'.text = true)
  | code (tail w : Text) (hcomment : isComment line.text = false)
    (htext : line.text = line'.text ++ (tail ++ '\'' :: w)) (htail : allBlank tail = true)
    (hcode : codePart false line.text = line'.text ++ tail)

theorem allBlank_blanked (s : Text) : allBlank (Text.blanked s) = true :=
  List.all_eq_true.2 fun _ hc => Text.isBlank_of_isLayout (Text.isLayout_of_mem_blanked hc)

theorem bared_unremarked {raw : Text} (htext : line.text = trimEnd raw)
    (htext' : line'.text = trimEnd (unremarked raw)) (hsame : unremarked raw = raw → line' = line) :
    Bared line line' := by
  rcases unremarked_cases raw with h | ⟨c, d, m, hraw, hbare, hd, ⟨hcomment, hc⟩ |
    ⟨hcomment, rfl, hcode⟩⟩
  · exact .same (hsame h)
  · refine .comment (htext ▸ hcomment) ?_
    have hblank : allBlank (c ++ Text.blanked (d :: m)) = true := by
      rw [allBlank, List.all_append, Bool.and_eq_true]
      exact ⟨hc, allBlank_blanked _⟩
    rw [htext', hbare, Text.trimEnd_of_allBlank hblank]
    rfl
  · obtain ⟨tail, hc, htail⟩ := Text.trimEndWhere_append isBlank c
    have hline' : line'.text = trimEnd c := by
      rw [htext', hbare, Text.trimEnd_append (allBlank_blanked _)]
    have hline : line.text = c ++ '\'' :: trimEnd m := by rw [htext, hraw, Text.trimEnd_stop hd]
    rw [hraw] at hcode
    refine .code tail (trimEnd m) (htext ▸ hcomment) ?_ htail ?_
    · rw [hline, hline', ← List.append_assoc]
      exact congrArg (· ++ '\'' :: trimEnd m) hc
    · rw [hline, hline', codePart_comment hcode]
      exact hc

/-! ## States -/

/-- Two states agree in what is open and in what has been declared, and where. -/
structure State.Agrees (s t : State) : Prop where
  continued : t.continued = s.continued
  procedure : t.procedure = s.procedure
  lambdas : t.lambdas = s.lambdas
  types : t.types = s.types
  entries : t.found.map Node.entry = s.found.map Node.entry

/-- One line does what another does, whatever is open: what it declares, if it declares something, may
be told from the other only. -/
structure ReadsAs (line line' : PhysicalLine) : Prop where
  ending : ∀ keywords, Lettered keywords → ending? keywords line'.text = ending? keywords line.text
  lambda : lambda? line'.text = lambda? line.text
  plain : ∀ keywords, Lettered keywords → declarator? keywords line.text = none →
    declarator? keywords line'.text = none

theorem ReadsAs.refl (line : PhysicalLine) : ReadsAs line line :=
  ⟨fun _ _ => rfl, rfl, fun _ _ h => h⟩

/-- **The code of a line does what the line does**. -/
theorem readsAs_code (htext : line.text = line'.text ++ (tail ++ '\'' :: w))
    (htail : allBlank tail = true) (hcode : codePart false line.text = line'.text ++ tail) :
    ReadsAs line line' where
  ending keywords hk := by rw [htext, ending?_trailing hk (.comment htail w)]
  lambda := by
    have hline' : codePart false line'.text = line'.text := codePart_front (htext ▸ hcode)
    rw [lambda?, lambda?, hcode, hline', firstLambda?_blanks false line'.text htail]
  plain keywords hk h := by
    cases hd : declarator? keywords line'.text with
    | none => rfl
    | some d =>
      rw [htext, declarator?_append hk hd (IsTrailing.comment htail w).atWordEnd] at h
      cases h

namespace State.Agrees

theorem refl (s : State) : s.Agrees s := ⟨rfl, rfl, rfl, rfl, rfl⟩

theorem symm (h : s.Agrees t) : t.Agrees s :=
  ⟨h.continued.symm, h.procedure.symm, h.lambdas.symm, h.types.symm, h.entries.symm⟩

theorem trans {u : State} (h : s.Agrees t) (h' : t.Agrees u) : s.Agrees u :=
  ⟨h'.continued.trans h.continued, h'.procedure.trans h.procedure, h'.lambdas.trans h.lambdas,
    h'.types.trans h.types, h'.entries.trans h.entries⟩

/-- **A line of code does what another one does that reads as it**. -/
theorem step_code (h : s.Agrees t) (hcode : s.AtCode line) (hcode' : t.AtCode line')
    (hs : s.step line = .ok s') (hreads : ReadsAs line line')
    (hheader : (declarator? procedureWords line.text).isSome = true → line' = line)
    (htype : s.procedure = none → (declarator? typeWords line.text).isSome = true → line' = line) :
    ∃ t', t.step line' = .ok t' ∧ s'.Agrees t' := by
  have hending := hreads.ending _ lettered_procedureWords
  have hplained (hplain : s.AtPlain line) : t.AtPlain line' :=
    ⟨hcode', hending.trans hplain.ending, hreads.plain _ lettered_procedureWords hplain.header⟩
  obtain ⟨continued, procedure, lambdas, types, banner, nodes⟩ := s
  obtain ⟨continued', procedure', lambdas', types', banner', nodes'⟩ := t
  obtain ⟨rfl, rfl, rfl, rfl, hentries⟩ := h
  simp only [State.step_eq_ok_iff] at hs ⊢
  cases hs with
  | passed hc => cases hcode.continued.symm.trans hc
  | header hc => cases hcode.continued.symm.trans hc
  | openBanner _ hbanner => cases hbanner.symm.trans hcode.isBanner_eq_false
  | closeBanner _ hbanner => cases hbanner.symm.trans hcode.isBanner_eq_false
  | skip _ _ hskip => cases hskip.symm.trans hcode.code
  | endLambda _ hends hlambda =>
    exact ⟨_, .endLambda hcode' (hending.trans hends) hlambda, rfl, rfl, rfl, rfl, hentries⟩
  | endProcedure _ hends hlambda hopen hsame =>
    exact ⟨_, .endProcedure hcode' (hending.trans hends) hlambda hopen hsame, rfl, rfl, rfl, rfl,
      congrArg (_ :: ·) hentries⟩
  | member _ hends hd hbodiless =>
    obtain rfl := hheader (by rw [hd]; rfl)
    exact ⟨_, .member hcode' hends hd hbodiless, rfl, rfl, rfl, rfl, hentries⟩
  | beginProcedure _ hends hd hbody hnone =>
    obtain rfl := hheader (by rw [hd]; rfl)
    exact ⟨_, .beginProcedure hcode' hends hd hbody hnone, rfl, rfl, rfl, rfl, hentries⟩
  | inside hplain hopen =>
    refine ⟨_, .inside (hplained hplain) hopen, rfl, rfl, ?_, rfl, hentries⟩
    simp only [hreads.lambda]
  | beginType hplain hnone hd =>
    obtain rfl := htype hnone (by rw [hd]; rfl)
    exact ⟨_, .beginType (hplained hplain) hnone hd, rfl, rfl, rfl, rfl, hentries⟩
  | endType hplain hnone hd hends hopen =>
    exact ⟨_, .endType (hplained hplain) hnone (hreads.plain _ lettered_typeWords hd)
      ((hreads.ending _ lettered_typeWords).trans hends) hopen, rfl, rfl, rfl, rfl,
      congrArg (_ :: ·) hentries⟩
  | outside hplain hnone hd hends =>
    exact ⟨_, .outside (hplained hplain) hnone (hreads.plain _ lettered_typeWords hd)
      ((hreads.ending _ lettered_typeWords).trans hends), rfl, rfl, rfl, rfl, hentries⟩

end State.Agrees

/-- A comment or a blank line does nothing between headers. -/
theorem State.step_skip (hc : s.continued = .no)
    (hskip : (isComment line.text || allBlank line.text) = true) :
    ∃ s', s.step line = .ok s' ∧ s.Agrees s' := by
  obtain ⟨banner, nodes, hstep, hnodes⟩ := State.exists_step_of_skip hc hskip
  refine ⟨_, hstep, rfl, rfl, rfl, rfl, congrArg (List.map Node.entry) ?_⟩
  rcases hnodes with rfl | ⟨span, rfl⟩
  · rfl
  · exact List.filter_cons_of_neg (by simp [Node.doc, Node.declares])

theorem State.Agrees.banner (h : s.Agrees t) :
    State.Agrees { s with banner := none } { t with banner := none } :=
  ⟨h.continued, h.procedure, h.lambdas, h.types, h.entries⟩

/-- A text without a parenthesis opens no lambda. -/
theorem firstLambda?_eq_none {x : Text} (h : '(' ∉ x) (inWord : Bool) :
    firstLambda? inWord x = none := by
  induction x generalizing inWord with
  | nil => rfl
  | cons c x ih =>
    have hat : lambdaAt? (c :: x) = none := by
      refine List.findSome?_eq_none_iff.2 fun word _ => ?_
      cases hdrop : Text.dropKeyword? word (c :: x) with
      | none => rfl
      | some wr =>
        obtain ⟨written, rest⟩ := wr
        have hmem : '(' ∉ trimStart rest := fun hm => by
          refine h ?_
          rw [Text.eq_of_dropKeyword? hdrop]
          exact List.mem_append_right _ ((List.dropWhile_sublist _).subset hm)
        have hhead : ((trimStart rest).head? == some '(') = false := by
          rw [beq_eq_false_iff_ne]
          exact fun he => hmem (List.mem_of_head? he)
        show (guard (((trimStart rest).head? == some '(') : Prop) : Option Unit).bind _ = none
        rw [hhead]
        rfl
    simp only [firstLambda?, hat, ite_self]
    exact ih (fun hm => h (List.mem_cons_of_mem _ hm)) _

/-- A text with its first word. -/
structure Worded (s lead a r : Text) : Prop where
  text : s = lead ++ (a ++ r)
  lead : allBlank lead = true
  ne_nil : a ≠ []
  word : ∀ c ∈ a, isBlank c = false
  rest : ∀ c ∈ r.head?, isBlank c = true

theorem exists_worded {x : Text} (h : allBlank x = false) : ∃ lead a r, Worded x lead a r := by
  obtain ⟨lead, hlead, hblank⟩ := Text.append_trimStartWhere isBlank x
  generalize hy : Text.trimStartWhere isBlank x = y at hlead
  have hsplit := List.takeWhile_append_dropWhile (p := fun c => !isBlank c) (l := y)
  refine ⟨lead, y.takeWhile fun c => !isBlank c, y.dropWhile fun c => !isBlank c,
    by rw [hsplit]; exact hlead, hblank, ?_, fun c hc => ?_, fun c hc => ?_⟩
  · cases y with
    | nil =>
      rw [List.append_nil] at hlead
      rw [hlead, show allBlank lead = true from hblank] at h
      cases h
    | cons c y =>
      rw [List.takeWhile_cons_of_pos (by rw [Text.not_isBlank_of_trimStart hy]; rfl)]
      exact List.cons_ne_nil _ _
  · simpa using List.all_eq_true.1 (List.all_takeWhile (p := fun c => !isBlank c) (l := y)) c hc
  · have hhead := List.head?_dropWhile_not (fun c => !isBlank c) y
    rw [Option.mem_def.1 hc] at hhead
    simpa using hhead

namespace Worded

variable {x lead a r : Text}

theorem trimStart_eq (h : Worded x lead a r) : trimStart x = a ++ r := by
  obtain ⟨c, y, hy⟩ := List.exists_cons_of_ne_nil h.ne_nil
  have hc : isBlank c = false := h.word c (hy ▸ List.mem_cons_self)
  rw [h.text, trimStart_blanks h.lead, hy]
  exact List.dropWhile_cons_of_neg (by rw [hc]; decide)

theorem words_eq (h : Worded x lead a r) : Text.words x = a :: Text.words r := by
  rw [h.text, Text.Reflow.words_front (List.all_eq_true.1 h.lead)]
  cases r with
  | nil => rw [List.append_nil, Text.words_word h.ne_nil h.word]; rfl
  | cons d r =>
    have hd := h.rest d rfl
    rw [Text.words_append hd, Text.words_word h.ne_nil h.word, Text.words_cons hd]
    rfl

/-- Whether a line is a comment is told from its first word. -/
theorem isComment_eq (h : Worded x lead a r) :
    isComment x = (a.head? == some '\'' || Text.sameLetters a "rem".toList) := by
  obtain ⟨c, y, rfl⟩ := List.exists_cons_of_ne_nil h.ne_nil
  rw [isComment, h.trimStart_eq, h.words_eq]
  rfl

end Worded

theorem not_allBlank_of_isComment {x : Text} (h : isComment x = true) : allBlank x = false := by
  rw [Bool.eq_false_iff]
  intro hx
  have hwords : Text.words x = [] := by
    rw [← List.append_nil x, Text.Reflow.words_front (List.all_eq_true.1 hx)]
    rfl
  rw [isComment, Text.trimStart_of_allBlank hx, hwords] at h
  cases h

/-- A line that begins with the first letter of the word for a comment declares and ends nothing. -/
theorem quiet_letter {x y : Text} {d : Char} (hx : trimStart x = d :: y)
    (hd : Text.foldLatin d = 'r') : (∀ words, ending? words x = none) ∧
      declarator? procedureWords x = none ∧ declarator? typeWords x = none := by
  have hother : ∀ words : List Text,
      words.all (fun word => word.head?.any (Text.foldLatin · ≠ 'r')) = true →
      leadingWord? words (d :: y) = none := fun words hwords => by
    refine leadingWord?_eq_none y fun word hword => ?_
    have hfirst := List.all_eq_true.1 hwords word hword
    cases word with
    | nil => cases hfirst
    | cons k ks =>
      refine ⟨k, ks, rfl, ?_⟩
      rw [Text.sameFold, hd, beq_eq_false_iff_ne]
      exact of_decide_eq_true hfirst
  have hattribute : afterAttribute? (d :: y) = none := by
    unfold afterAttribute?
    split
    · next he =>
      cases he
      exact absurd hd (by decide)
    · rfl
  refine ⟨fun words => ?_, ?_, ?_⟩
  · cases he : ending? words x with
    | none => rfl
    | some keyword =>
      obtain ⟨c, r, hc, hfold⟩ := exists_front_of_ending? he
      rw [hx] at hc
      rw [← (List.cons.inj hc).1, hd] at hfold
      exact absurd hfold (by decide)
  · exact declarator?_of_front hx hattribute (hother _ (by decide)) (hother _ (by decide))
  · exact declarator?_of_front hx hattribute (hother _ (by decide)) (hother _ (by decide))

/-- The word for a comment, with a comment right behind it, is code that does nothing. -/
theorem code_word (hcomment : isComment line.text = false)
    (htext : line.text = line'.text ++ (tail ++ '\'' :: w)) (htail : allBlank tail = true)
    (hcode : codePart false line.text = line'.text ++ tail) (hword : isComment line'.text = true)
    (hs : s.code line = .ok s') : s.Agrees s' := by
  obtain ⟨lead, a, r, hworded⟩ := exists_worded (not_allBlank_of_isComment hword)
  obtain ⟨d, y, rfl⟩ := List.exists_cons_of_ne_nil hworded.ne_nil
  -- With a blank behind it, the word would make the whole line a comment.
  obtain rfl : r = [] := by
    refine Decidable.byContradiction fun hne => ?_
    obtain ⟨e, r, rfl⟩ := List.exists_cons_of_ne_nil hne
    have hmore : Worded line.text lead (d :: y) (e :: r ++ (tail ++ '\'' :: w)) :=
      ⟨by rw [htext, hworded.text]; simp only [List.append_assoc], hworded.lead, hworded.ne_nil,
        hworded.word, hworded.rest⟩
    rw [hmore.isComment_eq, ← hworded.isComment_eq, hword] at hcomment
    cases hcomment
  have hfront : trimStart line.text = d :: (y ++ (tail ++ '\'' :: w)) := by
    have hfront' := hworded.trimStart_eq
    rw [List.append_nil] at hfront'
    rw [htext, trimStart_append (by rw [hfront']; exact List.cons_ne_nil _ _), hfront',
      List.cons_append]
  have hrem : Text.lowered (d :: y) = "rem".toList := by
    rw [hworded.isComment_eq, Bool.or_eq_true] at hword
    rcases hword with hquote | hrem
    · rw [isComment, hfront, Bool.or_eq_false_iff] at hcomment
      cases hquote.symm.trans hcomment.1
    · exact eq_of_beq hrem
  have hd : Text.foldLatin d = 'r' := by
    have hlower : d.toLower = 'r' := (List.cons.inj hrem).1
    unfold Text.foldLatin
    split
    · next he =>
      rw [eq_of_beq he] at hlower
      exact absurd hlower (by decide)
    split
    · next he =>
      rw [eq_of_beq he] at hlower
      exact absurd hlower (by decide)
    · exact hlower
  have hparen : '(' ∉ line'.text := by
    rw [hworded.text, List.append_nil, List.mem_append, not_or]
    refine ⟨fun hm => ?_, fun hm => ?_⟩
    · exact absurd (List.all_eq_true.1 hworded.lead _ hm) (by decide)
    · have hlower := List.mem_map_of_mem (f := Char.toLower) hm
      rw [show (d :: y).map Char.toLower = "rem".toList from hrem] at hlower
      exact absurd hlower (by decide)
  have hlambda : lambda? line.text = none := by
    rw [← (readsAs_code htext htail hcode).lambda, lambda?]
    exact firstLambda?_eq_none (fun hm => hparen ((codePart_lead _ _).subset hm)) false
  obtain ⟨hending, hprocedure, htype⟩ := quiet_letter hfront hd
  rw [State.code, hending, hprocedure, hlambda, State.declaration, htype, hending] at hs
  simp only [Option.toList_none, List.nil_append, ite_self] at hs
  cases hs
  exact .refl s

/-- **A line does the same without its remark**, if it is no header with one. -/
theorem Bared.step (h : Bared line line') (hagrees : s.Agrees t) (hs : s.step line = .ok s')
    (hheader : s.judges line = true → line' = line) :
    ∃ t', t.step line' = .ok t' ∧ s'.Agrees t' := by
  by_cases hc : s.continued = .no
  · have hc' : t.continued = .no := hagrees.continued.trans hc
    by_cases hskip : (isComment line.text || allBlank line.text) = true
    · obtain ⟨u, hu, hsu⟩ := State.step_skip hc hskip
      obtain rfl := Except.ok.inj (hs.symm.trans hu)
      have hskip' : (isComment line'.text || allBlank line'.text) = true := by
        cases h with
        | same he => rw [he, hskip]
        | comment _ hblank => rw [hblank, Bool.or_true]
        | code tail w hcomment htext =>
          rw [hcomment, Bool.false_or] at hskip
          have hquote := List.all_eq_true.1 hskip '\'' (by rw [htext]; simp)
          exact absurd hquote (by decide)
      obtain ⟨t', ht', htt'⟩ := State.step_skip hc' hskip'
      exact ⟨t', ht', (hsu.symm.trans hagrees).trans htt'⟩
    · rw [Bool.not_eq_true] at hskip
      have hprocedure (hdeclares : (declarator? procedureWords line.text).isSome = true) :
          line' = line := by
        refine hheader ?_
        rw [State.judges, PhysicalLine.header?, hskip, if_neg (by decide), hdeclares]
        simp
      have htype (hnone : s.procedure = none)
          (hdeclares : (declarator? typeWords line.text).isSome = true) : line' = line := by
        refine hheader ?_
        rw [State.judges, hnone, hdeclares]
        simp
      cases h with
      | same he =>
        exact hagrees.step_code ⟨hc, hskip⟩ ⟨hc', he ▸ hskip⟩ hs (he ▸ .refl line) hprocedure htype
      | comment hcomment => simp [hcomment] at hskip
      | code tail w hcomment htext htail hcode =>
        by_cases hskip' : (isComment line'.text || allBlank line'.text) = true
        · have hword : isComment line'.text = true := by
            refine (Bool.or_eq_true _ _ ▸ hskip').resolve_right fun hblank => ?_
            have hquote : trimStart line.text = '\'' :: w := by
              rw [htext, trimStart_blanks hblank, trimStart_blanks htail, trimStart_quote]
            rw [isComment, hquote] at hcomment
            cases hcomment
          rw [State.step_eq_code ⟨hc, hskip⟩] at hs
          have hss' := code_word hcomment htext htail hcode hword hs
          obtain ⟨t', ht', htt'⟩ := State.step_skip hc' hskip'
          exact ⟨t', ht', (hss'.symm.trans hagrees.banner).trans
            ⟨htt'.continued, htt'.procedure, htt'.lambdas, htt'.types, htt'.entries⟩⟩
        · rw [Bool.not_eq_true] at hskip'
          exact hagrees.step_code ⟨hc, hskip⟩ ⟨hc', hskip'⟩ hs (readsAs_code htext htail hcode)
            hprocedure htype
  · obtain rfl := hheader (by simp [State.judges, hc])
    obtain ⟨continued, procedure, lambdas, types, banner, nodes⟩ := s
    obtain ⟨continued', procedure', lambdas', types', banner', nodes'⟩ := t
    obtain ⟨rfl, rfl, rfl, rfl, hentries⟩ := hagrees
    cases continued' with
    | no => exact absurd rfl hc
    | header | passed =>
      cases hs
      exact ⟨_, rfl, rfl, rfl, rfl, rfl, hentries⟩

/-! ## Sources -/

/-- Lines are told apart from what they become by the text at their places. -/
def Told (source source' : Text) (line line' : PhysicalLine) : Prop :=
  Text.slice line.start line.stop source' = Text.slice line.start line.stop source → line' = line

/-- **States run along with each other** if one of them reads no remarks, and none stands in a
header. -/
theorem run_bared {source source' : Text} {lines lines' : List PhysicalLine}
    (hlines : List.Forall₂ (fun l l' => Bared l l' ∧ Told source source' l l') lines lines')
    (hagrees : s.Agrees t) (hs : lines.foldlM State.step s = .ok s')
    (hreads : ∀ header ∈ headersFrom s lines, ReadsSame (header.of source') (header.of source)) :
    ∃ t', lines'.foldlM State.step t = .ok t' ∧ s'.Agrees t' := by
  induction hlines generalizing s t with
  | nil =>
    cases hs
    exact ⟨t, rfl, hagrees⟩
  | @cons line line' lines lines' hline _ ih =>
    rw [List.foldlM_cons] at hs
    obtain ⟨u, hstep, hs⟩ := bind_eq_ok.1 hs
    rw [headersFrom, hstep] at hreads
    obtain ⟨v, hv, huv⟩ := hline.1.step hagrees hstep fun hjudges =>
      hline.2 (hreads ⟨line.start, line.stop⟩ (by simp [hjudges]))
    obtain ⟨t', ht', hagrees'⟩ := ih huv hs fun header hh =>
      hreads header (List.mem_append_right _ hh)
    exact ⟨t', List.foldlM_cons.trans (bind_eq_ok.2 ⟨v, hv, ht'⟩), hagrees'⟩

theorem width_unremarked (raw : Text) : Text.width (unremarked raw) = Text.width raw := by
  rcases unremarked_cases raw with h | ⟨c, d, m, hraw, hbare, -⟩
  · rw [h]
  · rw [hbare, hraw, Text.width_append, Text.width_append, Text.width_blanked]

/-- A raw line stays one when its comment is blanked out. -/
theorem rawLines_unremarked {raw : Text} (h : rawLines raw = [raw]) :
    rawLines (unremarked raw) = [unremarked raw] ∧
      (Text.isWhole raw → Text.isWhole (unremarked raw)) := by
  rcases unremarked_cases raw with hsame | ⟨c, d, m, hraw, hbare, hd, -⟩
  · rw [hsame]
    exact ⟨h, id⟩
  rcases List.eq_nil_or_concat (d :: m) with he | ⟨x, e, he⟩
  · cases he
  rw [List.concat_eq_append] at he
  have hx : '\n' ∉ c ++ Text.blanked x := by
    rw [List.mem_append, Text.newline_mem_blanked, ← List.mem_append]
    have hmem : raw ∈ rawLines raw := h ▸ List.mem_cons_self
    exact Text.not_newline_of_mem_rawLines hmem (b := [e]) (by rw [hraw, he, List.append_assoc])
      (List.cons_ne_nil _ _)
  rw [hbare, he, Text.blanked_append, ← List.append_assoc]
  by_cases hlast : e = '\n'
  · subst hlast
    exact ⟨Text.rawLines_line hx [], fun _ => .inr ⟨_, rfl⟩⟩
  · have hno : '\n' ∉ c ++ Text.blanked x ++ Text.blanked [e] := by
      rw [List.mem_append, not_or, Text.newline_mem_blanked]
      exact ⟨hx, by simpa using Ne.symm hlast⟩
    have hne : c ++ Text.blanked x ++ Text.blanked [e] ≠ [] := by
      rw [List.append_assoc, ← Text.blanked_append, ← he]
      intro hnil
      have hwidth := congrArg Text.width (List.append_eq_nil_iff.1 hnil).2
      rw [Text.width_blanked, Text.width_cons, Text.width_nil] at hwidth
      have := d.utf8Size_pos
      omega
    refine ⟨Text.rawLines_last hno hne, fun hwhole => ?_⟩
    rw [hraw, he, ← List.append_assoc] at hwhole
    rcases hwhole with hnil | ⟨y, hy⟩
    · simp at hnil
    · exact absurd (List.cons.inj (List.append_inj' hy rfl).2).1 hlast

theorem rawLines_flatten {raws' : List Text}
    (h : List.Forall₂ (fun raw raw' => raw' = raw ∨ raw' = unremarked raw) (rawLines source) raws') :
    rawLines raws'.flatten = raws' := by
  generalize hraws : rawLines source = raws at h
  induction h generalizing source with
  | nil => rfl
  | @cons raw raw' rest rest' hraw hrest ih =>
    obtain ⟨hline, hmore, hends⟩ := Text.rawLines_tail hraws
    have hone : rawLines raw' = [raw'] ∧ (Text.isWhole raw → Text.isWhole raw') := by
      rcases hraw with rfl | rfl
      · exact ⟨hline, id⟩
      · exact rawLines_unremarked hline
    have hrest' := ih hmore
    cases rest with
    | nil =>
      obtain rfl := List.forall₂_nil_left_iff.1 hrest
      rw [List.flatten_singleton]
      exact hone.1
    | cons second rest =>
      rw [List.flatten_cons, Text.rawLines_append (hone.2 (.inr (hends (List.cons_ne_nil _ _)))),
        hone.1, hrest']
      rfl

/-- A raw line with its place. -/
def placed (number offset : Nat) (raw : Text) : PhysicalLine :=
  let text := trimEnd raw
  ⟨number, offset + (Text.width text - Text.width (trimStart text)), offset + Text.width text, text⟩

/-- A text between blanks, split at a character that is not blank. -/
theorem split_between {lead code c m : Text} {d : Char} (hlead : allBlank lead = true)
    (htail : allBlank tail = true) (hd : isBlank d = false)
    (h : lead ++ (code ++ tail) = c ++ d :: m) :
    ∃ c' m', c = lead ++ c' ∧ code = c' ++ d :: m' := by
  have hblank {x : Text} (hx : allBlank x = true) : d ∉ x := fun hm => by
    rw [List.all_eq_true.1 hx d hm] at hd
    cases hd
  obtain ⟨c', rfl, hcode⟩ : ∃ c', c = lead ++ c' ∧ code ++ tail = c' ++ d :: m := by
    rcases List.append_eq_append_iff.1 h with ⟨x, hx, hcode⟩ | ⟨x, hx, hcode⟩
    · exact ⟨x, hx, hcode⟩
    · cases x with
      | nil => exact ⟨[], by rw [hx, List.append_nil, List.append_nil], hcode.symm⟩
      | cons e x =>
        refine absurd ?_ (hblank hlead)
        rw [hx, (List.cons.inj hcode).1]
        simp
  rcases List.append_eq_append_iff.1 hcode with ⟨x, -, htail'⟩ | ⟨x, hx, hm⟩
  · exact absurd (htail' ▸ by simp) (hblank htail)
  · cases x with
    | nil => exact absurd ((List.nil_append tail ▸ hm) ▸ List.mem_cons_self) (hblank htail)
    | cons e x =>
      rw [(List.cons.inj hm).1]
      exact ⟨c', x, rfl, hx⟩

/-- What stands at the place of a line is the line without the blanks around it; without its remark,
it is something else. -/
theorem told_unremarked {a a' raw b b' : Text} {number offset : Nat} (ha : offset = Text.width a)
    (ha' : offset = Text.width a') : Told (a ++ (raw ++ b)) (a' ++ (unremarked raw ++ b'))
      (placed number offset raw) (placed number offset (unremarked raw)) := by
  intro hslice
  rcases unremarked_cases raw with h | ⟨c, d, m, hraw, hbare, hd, -⟩
  · rw [h]
  · obtain ⟨lead, code, tail, hraw', hlead, htail, -, hplaced⟩ :=
      placeLines_cons number offset raw []
    have hline : placed number offset raw = ⟨number, offset + Text.width lead,
        offset + Text.width lead + Text.width code, lead ++ code⟩ := (List.cons.inj hplaced).1
    obtain ⟨c', m', rfl, hcode⟩ := split_between hlead htail hd (hraw'.symm.trans hraw)
    have hnewline : Text.isLineEnd d = false := by
      rw [Text.isLineEnd, Bool.or_eq_false_iff, beq_eq_false_iff_ne, beq_eq_false_iff_ne]
      exact ⟨fun he => absurd (he ▸ hd) (by decide), fun he => absurd (he ▸ hd) (by decide)⟩
    obtain ⟨q, hq⟩ := Text.blanked_head hnewline m
    have hcode' : Text.slice (offset + Text.width lead) (offset + Text.width lead + Text.width code)
        (a ++ (raw ++ b)) = code := by
      have hassoc : a ++ (raw ++ b) = (a ++ lead) ++ (code ++ (tail ++ b)) := by
        rw [hraw']
        simp only [List.append_assoc]
      rw [hassoc, ha, ← Text.width_append, Text.slice_middle]
    have hassoc : a' ++ (unremarked raw ++ b') = (a' ++ lead) ++ (c' ++ (' ' :: q ++ b')) := by
      rw [hbare, hq]
      simp only [List.append_assoc]
    rw [hline, hcode', hassoc, ha', ← Text.width_append, Text.slice,
      Text.dropBytes_width_append] at hslice
    have hsplit := Text.takeBytes_append_dropBytes (Text.width (a' ++ lead) + Text.width code -
      Text.width (a' ++ lead)) (c' ++ (' ' :: q ++ b'))
    rw [hslice, hcode, List.append_assoc] at hsplit
    have hspace := (List.cons.inj (List.append_cancel_left hsplit)).1
    rw [hspace] at hd
    exact absurd hd (by decide)

/-- The lines of a source and what they become. -/
theorem bared_lines (keep : PhysicalLine → Bool) {a a' : Text} (number : Nat) {offset : Nat}
    (raws : List Text) (ha : offset = Text.width a) (ha' : offset = Text.width a') :
    let raws' := (raws.zip (placeLines number offset raws)).map fun (raw, line) =>
      if keep line then raw else unremarked raw
    List.Forall₂ (fun l l' => Bared l l' ∧ Told (a ++ raws.flatten) (a' ++ raws'.flatten) l l')
        (placeLines number offset raws) (placeLines number offset raws') ∧
      List.Forall₂ (fun raw raw' => raw' = raw ∨ raw' = unremarked raw) raws raws' := by
  induction raws generalizing number offset a a' with
  | nil => exact ⟨.nil, .nil⟩
  | cons raw raws ih =>
    have hplace (raw : Text) (rest : List Text) : placeLines number offset (raw :: rest) =
        placed number offset raw :: placeLines (number + 1) (offset + Text.width raw) rest := rfl
    simp only [hplace, List.zip_cons_cons, List.map_cons, List.flatten_cons]
    generalize hraw' : (if keep (placed number offset raw) then raw else unremarked raw) = raw'
    have hcases : raw' = raw ∨ raw' = unremarked raw := by
      split at hraw'
      · exact .inl hraw'.symm
      · exact .inr hraw'.symm
    have hwidth : Text.width raw' = Text.width raw := by
      rcases hcases with rfl | rfl
      · rfl
      · exact width_unremarked raw
    obtain ⟨hlines, hraws⟩ := @ih (a ++ raw) (a' ++ raw') (number + 1) (offset + Text.width raw)
      (by rw [Text.width_append, ha]) (by rw [Text.width_append, ← ha', hwidth])
    simp only [List.append_assoc] at hlines
    rw [hwidth]
    refine ⟨.cons ⟨?_, ?_⟩ hlines, .cons hcases hraws⟩
    · rcases hcases with rfl | rfl
      · exact .same rfl
      · exact bared_unremarked rfl rfl fun he => by rw [he]
    · rcases hcases with rfl | rfl
      · exact fun _ => rfl
      · exact told_unremarked ha ha'

/-- **Remarks outside headers do not influence what is declared**: a source without its remarks
declares the same. -/
theorem outline_withoutRemarks {o : Outline} (h : outline source = .ok o)
    (hreads : ∀ header ∈ headers source,
      ReadsSame (header.of (withoutRemarks source)) (header.of source)) :
    ∃ o', outline (withoutRemarks source) = .ok o' ∧ o.entries.Perm o'.entries := by
  obtain ⟨s, hs, hprocedure, htypes, rfl, -⟩ := outline_reads h
  obtain ⟨hlines, hraws⟩ := @bared_lines (inDoc (docs source)) [] [] 1 0 (rawLines source) rfl rfl
  rw [List.nil_append, List.nil_append, Text.flatten_rawLines] at hlines
  obtain ⟨s', hs', hagrees⟩ := run_bared hlines (.refl .initial) hs hreads
  have hreads' : Reads (physicalLines (withoutRemarks source)) s' := by
    rw [Reads, physicalLines, withoutRemarks, unremarkedLines, physicalLines, rawLines_flatten hraws]
    exact hs'
  refine ⟨_, outline_of_reads hreads' (hagrees.procedure.trans hprocedure)
    (hagrees.types.trans htypes), ?_⟩
  refine (Outline.entries_ofNodes _ _).trans ?_
  rw [← State.found, ← hagrees.entries]
  exact (Outline.entries_ofNodes _ _).symm

end Scholia.Source.Procedural
