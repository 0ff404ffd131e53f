import Mathlib.Algebra.GroupWithZero.Nat
import Scholia.Proofs.Layout.Kept
import Scholia.Proofs.Source.Braced.Extent
/-!
# Replacing routines

A whole text is read at the place of a routine as it is read on its own: it leads from the free place
before the routine to the free place behind it, with its own routines declared on the way. So when
routines of a file are replaced by whole texts, the file is read as before around them, and it holds
the routines of these texts instead of one for each.

A line comment at the end of the new text swallows what follows on the line. This makes no difference
if what follows is whole itself and holds no routine, and no other range that is replaced begins
there.
-/

namespace Scholia.Source.Braced

open Layout (Segment RowFrom spliceFrom endsLine lineBehind)

variable {dialect : Dialect} {source text rest : Text} {lexemes : List (Lexeme Kind)}
  {s s' : State} {seg : Segment} {base : List Frame}

/-! ## Whole texts before a rest -/

/-- Whether a text ends with a line comment. -/
def endsInComment (dialect : Dialect) (text : Text) : Bool :=
  (((rule dialect).lex text).lexemes.getLast?.map (·.kind == .lineComment)).getD false

/-- Behind a line comment a line ends. -/
theorem endsLine_of_divides (h : (rule dialect).Divides text lexemes rest) {l : Lexeme Kind}
    (hl : lexemes.getLast? = some l) (hk : l.kind = .lineComment) : endsLine rest = true := by
  obtain ⟨lead, rfl⟩ := List.getLast?_eq_some_iff.1 hl
  obtain ⟨mid, -, hlast⟩ := h.split
  cases hlast with
  | take found more =>
    cases more
    obtain ⟨x, -, -, -, hends⟩ := lineComment_of_front found hk
    exact hends

theorem not_endsLine {c : Char} (hc : Text.isPlainBlank c = false) (text : Text) :
    endsLine (c :: text) = false := by
  show (c == '\n') = false
  refine beq_eq_false_iff_ne.2 ?_
  rintro rfl
  exact absurd hc (by decide)

/-- In front of a routine anything may be put. -/
theorem seam_before {t u : Shape} {declared : List Declared} {c : Char} {tail : Text}
    (hd : (rule dialect).Divides text lexemes (c :: tail)) (hc : Text.isPlainBlank c = false)
    (hrun : t.run dialect lexemes = some (u, declared)) (hu : u.header = none) (rest' : Text) :
    Seam lexemes (c :: tail) rest' := by
  intro l hl
  rcases Shape.run_last hrun hu hl with hsealed | hk
  · exact .inl hsealed
  · have hends := endsLine_of_divides hd hl hk
    rw [not_endsLine hc] at hends
    cases hends

/-- Blanks of the same line may be added to a line comment at the end of a text. -/
theorem divides_comment {lead : List (Lexeme Kind)} {l : Lexeme Kind}
    (h : (rule dialect).Divides text (lead ++ [l]) []) (hk : l.kind = .lineComment) {blanks : Text}
    (hblanks : ∀ c ∈ blanks, c ≠ '\n') (hrest : endsLine rest = true) :
    (rule dialect).Divides (text ++ blanks ++ rest)
      (lead ++ [⟨.lineComment, l.text ++ blanks⟩]) rest := by
  obtain ⟨mid, hfront, hlast⟩ := h.split
  cases hlast with
  | @take c r _ last _ _ found more =>
    cases more
    obtain ⟨x, rfl, rfl, hx, -⟩ := lineComment_of_front found hk
    have hmid := (rule dialect).keeps _ _ _ _ found
    have htext : text ++ blanks ++ rest =
        Lexeme.textOf lead ++ ('/' :: '/' :: ((x ++ blanks) ++ rest)) := by
      rw [hfront.text, ← hmid]
      simp
    have hmore : ∀ c ∈ x ++ blanks, c ≠ '\n' := fun c hc =>
      (List.mem_append.1 hc).elim (hx c) (hblanks c)
    have hcomment : (rule dialect).Divides ('/' :: '/' :: ((x ++ blanks) ++ rest))
        [⟨.lineComment, '/' :: '/' :: (x ++ blanks)⟩] rest := by
      have hfound : front dialect '/' ('/' :: ((x ++ blanks) ++ rest)) =
          .found ⟨.lineComment, '/' :: '/' :: (x ++ blanks)⟩ rest := front_lineComment hmore hrest
      exact .take hfound (.stop rest)
    rw [htext]
    refine (divides_behind hfront fun l' hl' => ?_).append hcomment
    refine .inr (.inr ?_)
    rw [← hmid]
    rfl

/-- A line comment that leaves nothing open does so whatever its text. -/
theorem Shape.step_lineComment {t : Shape} {l : Lexeme Kind} {declared : List Declared}
    (h : t.step dialect l = some (.initial, declared)) (hk : l.kind = .lineComment) (more : Text) :
    t.step dialect ⟨.lineComment, more⟩ = some (.initial, declared) := by
  rw [Shape.step, hk] at h
  obtain ⟨hshape, rfl⟩ := Prod.mk.inj (Option.some.inj h)
  obtain ⟨hheader, hparens, hframes⟩ := Shape.mk.inj hshape
  have ht : t = .initial := by
    obtain ⟨header, parens, frames⟩ := t
    have hheader : header = none := Option.map_eq_none_iff.1 hheader
    have hparens : parens = 0 := hparens
    have hframes : frames = [] := List.map_eq_nil_iff.1 hframes
    rw [hheader, hparens, hframes]
    rfl
  rw [ht]
  rfl

/-- **A whole text can be put before any rest**, one that ends with a line comment before the end of a
line; what has been in front of it on that line is part of the comment then. -/
theorem IsWhole.placed (h : IsWhole dialect text) {line : Text} (hline : ∀ c ∈ line, c ≠ '\n')
    (hrest : endsInComment dialect text = true → endsLine rest = true)
    (hnone : endsInComment dialect text = false → line = []) :
    ∃ lexemes declared, (rule dialect).Divides (text ++ line ++ rest) lexemes rest ∧
      Shape.initial.run dialect lexemes = some (.initial, declared) ∧
      declared.countP Declared.isRoutine = routinesIn dialect text := by
  obtain ⟨declared, hd, hrun, hcount⟩ := h.run
  cases hcomment : endsInComment dialect text with
  | true =>
    obtain ⟨l, hlast, hk⟩ : ∃ l, ((rule dialect).lex text).lexemes.getLast? = some l ∧
        l.kind = .lineComment := by
      unfold endsInComment at hcomment
      cases hl : ((rule dialect).lex text).lexemes.getLast? with
      | none => simp [hl] at hcomment
      | some l => exact ⟨l, rfl, by simpa [hl] using hcomment⟩
    obtain ⟨lead, hfront⟩ := List.getLast?_eq_some_iff.1 hlast
    rw [hfront] at hd hrun
    refine ⟨_, declared, divides_comment hd hk hline (hrest hcomment), ?_, hcount⟩
    obtain ⟨t, first, second, hbefore, hstep, rfl⟩ := Shape.run_append.1 hrun
    refine Shape.run_append.2 ⟨t, first, second, hbefore, ?_, rfl⟩
    obtain ⟨u, d, more, hu, hmore, rfl⟩ := Shape.run_cons.1 hstep
    cases hmore
    exact Shape.run_cons.2 ⟨.initial, d, [], Shape.step_lineComment hu hk _, rfl, rfl⟩
  | false =>
    obtain rfl : line = [] := hnone hcomment
    have hseam : Seam ((rule dialect).lex text).lexemes [] rest := by
      intro l hl
      rcases Shape.run_last hrun rfl hl with hsealed | hk
      · exact .inl hsealed
      · rw [endsInComment, hl, Option.map_some, hk] at hcomment
        cases hcomment
    have hbehind := divides_behind hd hseam
    have htext := hd.text
    rw [List.append_nil] at htext
    rw [← htext] at hbehind
    exact ⟨_, declared, by rwa [List.append_nil], hrun, hcount⟩

/-! ## Files -/

/-- A segment that puts a whole text in the place of a routine. -/
structure Fits (dialect : Dialect) (source : Text) (seg : Segment) : Prop where
  place : ∃ before inner more s s' base,
    ((rule dialect).lex source).lexemes = before ++ (inner ++ more) ∧
    Enclosed dialect source before inner (Lexeme.textOf more) s s' base ∧
    seg.span.start = Text.width (Lexeme.textOf before) ∧
    seg.span.stop = Text.width (Lexeme.textOf (before ++ inner))
  whole : IsWhole dialect (seg.text source)
  /-- What a line comment at its end swallows makes no difference. -/
  line : endsInComment dialect (seg.text source) = true →
    IsWhole dialect (lineBehind source seg.span.stop) ∧
      routinesIn dialect (lineBehind source seg.span.stop) = 0

/-- The ranges that are replaced behind this one begin behind its line, if a line comment ends the new
text. -/
def Clears (dialect : Dialect) (source : Text) (segments : List Segment) (seg : Segment) :
    Prop :=
  endsInComment dialect (seg.text source) = true → ∀ other ∈ segments,
    seg.span.stop ≤ other.span.start →
      seg.span.stop + Text.width (lineBehind source seg.span.stop) < other.span.start

/-- Where reading goes on behind a replaced range: behind the part of its line that the new text
swallows, with as many routines declared as there. -/
structure GoesOn (dialect : Dialect) (source : Text) (seg : Segment) (segments : List Segment)
    (s : State) (base : List Frame) (line : Text) (lexemes : List (Lexeme Kind)) (s' : State) :
    Prop where
  free : ∃ rest, Free dialect source lexemes rest s' base
  count : s'.declared.countP Declared.isRoutine = s.declared.countP Declared.isRoutine
  row : RowFrom source (Text.width (Lexeme.textOf lexemes)) (segments.map Segment.span)
  splice : spliceFrom source seg.span.stop segments =
    line ++ spliceFrom source (Text.width (Lexeme.textOf lexemes)) segments
  oneLine : ∀ c ∈ line, c ≠ '\n'
  ends : endsInComment dialect (seg.text source) = true →
    endsLine (spliceFrom source (Text.width (Lexeme.textOf lexemes)) segments) = true
  none : endsInComment dialect (seg.text source) = false → line = []

/-- **Behind a replaced range reading goes on at a free place**. -/
theorem Fits.goesOn {segments : List Segment} (h : Fits dialect source seg)
    (hs : Free dialect source lexemes rest s base)
    (hstop : seg.span.stop = Text.width (Lexeme.textOf lexemes))
    (hrow : RowFrom source seg.span.stop (segments.map Segment.span))
    (hclears : Clears dialect source segments seg) :
    ∃ line behind s', GoesOn dialect source seg segments s base line (lexemes ++ behind) s' := by
  cases hcomment : endsInComment dialect (seg.text source) with
  | false =>
    refine ⟨[], [], s, ?_⟩
    rw [List.append_nil]
    exact {
      free := ⟨rest, hs⟩
      count := rfl
      row := hstop ▸ hrow
      splice := by rw [hstop, List.nil_append]
      oneLine := by simp
      ends := fun he => Bool.noConfusion (hcomment.symm.trans he)
      none := fun _ => rfl }
  | true =>
    obtain ⟨hwhole, hnone⟩ := h.line hcomment
    obtain ⟨left, hleft, hends, hline⟩ := Layout.lineBehind_append source seg.span.stop
    have hrest : rest = lineBehind source seg.span.stop ++ left := by
      rw [← hleft, hstop, hs.reached.text, Text.dropBytes_width_append]
    obtain ⟨declared, hd, hrun, hcount⟩ := hwhole.run
    have htext := hd.text
    rw [List.append_nil] at htext
    have hbehind := divides_behind hd (Shape.seam hrun rfl hends)
    rw [← htext, ← hrest] at hbehind
    obtain ⟨u, hu, hdeclared⟩ := hs.read hbehind hrun
    have hfar := hclears hcomment
    obtain ⟨hrow', hsplice, hends'⟩ := hrow.splice_line fun other hother =>
      hfar other hother (hrow.ahead _ (List.mem_map.2 ⟨other, hother, rfl⟩))
    have hwidth : Text.width (Lexeme.textOf
        (lexemes ++ ((rule dialect).lex (lineBehind source seg.span.stop)).lexemes)) =
        seg.span.stop + Text.width (lineBehind source seg.span.stop) := by
      rw [Lexeme.textOf_append, Text.width_append, ← htext, hstop]
    rw [← hwidth] at hrow' hsplice hends'
    exact ⟨lineBehind source seg.span.stop, _, u, {
      free := ⟨left, hu⟩
      count := by rw [hdeclared, List.countP_append, hcount, hnone, Nat.add_zero]
      row := hrow'
      splice := hsplice
      oneLine := hline
      ends := fun _ => hends'
      none := fun he => Bool.noConfusion (hcomment.symm.trans he) }⟩

/-- From a place of a file to its end. -/
theorem Reached.to_end {last : State} (hr : Reached dialect source lexemes [] last)
    {before : List (Lexeme Kind)} {after : Text} (hs : Reached dialect source before after s) :
    ∃ behind declared, lexemes = before ++ behind ∧ (rule dialect).Divides after behind [] ∧
      (s.shape source (Text.width (Lexeme.textOf before))).run dialect behind =
        some (last.shape source (Text.width (Lexeme.textOf lexemes)), declared) ∧
      last.declared = s.declared ++ declared := by
  obtain ⟨behind, rfl, hd⟩ := hs.divides.append_of_nil hr.divides
  obtain ⟨t, ht, hrest⟩ := runLexemes_append_ok hr.runs
  cases hs.runs.symm.trans ht
  rw [Nat.zero_add] at hrest
  obtain ⟨declared, hrun, hdeclared⟩ := (run_shape hs hd).1 last hrest
  exact ⟨behind, declared, rfl, hd, hrun, hdeclared⟩

/-- **What stands before a routine is read as it was**, whatever is put in the place of the routine. -/
theorem Enclosed.gap {before gap inner : List (Lexeme Kind)} {after : Text} {t t' : State}
    (h : Enclosed dialect source (before ++ gap) inner rest t t' base)
    (hs : Reached dialect source before after s) :
    ∃ declared, (s.shape source (Text.width (Lexeme.textOf before))).run dialect gap =
        some (Shape.initial.atop base, declared) ∧ t.declared = s.declared ++ declared ∧
      ∀ text, (rule dialect).Divides (Lexeme.textOf gap ++ text) gap text := by
  obtain ⟨mid, u, hu, hgap, hrun⟩ := h.start.reached.split
  obtain rfl : u = s := Except.ok.inj (hu.runs.symm.trans hs.runs)
  obtain ⟨declared, hshape, hdeclared⟩ := (run_shape hu hgap).1 t hrun
  rw [h.start.shape] at hshape
  obtain ⟨c, text, hfirst, hc⟩ := h.first
  refine ⟨declared, hshape, hdeclared, fun text => divides_behind hgap ?_⟩
  rw [hfirst]
  exact seam_before (hfirst ▸ hgap) hc hshape rfl text

/-- **From any place on, a file with whole texts put in is read as it was**: to the same shape, with
the routines of these texts instead of one for each. -/
theorem replaced_run {last : State} (hr : Reached dialect source lexemes [] last)
    {segments : List Segment} {before : List (Lexeme Kind)} {after : Text}
    (hs : Reached dialect source before after s)
    (hrow : RowFrom source (Text.width (Lexeme.textOf before)) (segments.map Segment.span))
    (hfits : ∀ seg ∈ segments, Fits dialect source seg)
    (hclears : ∀ seg ∈ segments, Clears dialect source segments seg) :
    ∃ new declared,
      (rule dialect).Divides (spliceFrom source (Text.width (Lexeme.textOf before)) segments) new [] ∧
        (s.shape source (Text.width (Lexeme.textOf before))).run dialect new =
          some (last.shape source (Text.width (Lexeme.textOf lexemes)), declared) ∧
        declared.countP Declared.isRoutine + s.declared.countP Declared.isRoutine + segments.length =
          last.declared.countP Declared.isRoutine +
            (segments.map fun seg => routinesIn dialect (seg.text source)).sum := by
  induction segments generalizing before after s with
  | nil =>
    obtain ⟨behind, declared, rfl, hd, hrun, hdeclared⟩ := Reached.to_end hr hs
    refine ⟨behind, declared, ?_, hrun, ?_⟩
    · have hafter : Text.dropBytes (Text.width (Lexeme.textOf before)) source = after := by
        conv => lhs; rw [hs.text]
        exact Text.dropBytes_width_append _ _
      show (rule dialect).Divides (Text.dropBytes _ source) behind []
      rw [hafter]
      exact hd
    · rw [hdeclared, List.countP_append, Nat.add_comm (declared.countP _)]
      rfl
  | cons seg segments ih =>
    have hseg := hfits seg List.mem_cons_self
    obtain ⟨before', inner, more, t, t', base, hlex, henclosed, hstart, hstop⟩ := hseg.place
    have hall : ((rule dialect).lex source).lexemes = lexemes := by
      rw [Rule.lex, hr.divides.lexFrom_eq]
    obtain ⟨behind, hbehind, -⟩ := hs.divides.append_of_nil hr.divides
    obtain ⟨gap, rfl⟩ := Lexeme.append_of_width_le
      (show before ++ behind = before' ++ (inner ++ more) by rw [← hbehind, ← hall, hlex])
      (fun l hl => hs.divides.width_pos hl) (by rw [← hstart]; exact hrow.head.2)
    -- from here on: the gap, the new text with what it swallows, and what is left
    have hclears' : ∀ seg ∈ segments, Clears dialect source segments seg :=
      fun seg hseg hcomment other hother =>
        hclears seg (List.mem_cons_of_mem _ hseg) hcomment other (List.mem_cons_of_mem _ hother)
    obtain ⟨d, hgaprun, hdeclared, hgap⟩ := henclosed.gap hs
    obtain ⟨line, read, u, hgoes⟩ := hseg.goesOn henclosed.stop hstop hrow.tail
      fun hcomment other hother => hclears seg List.mem_cons_self hcomment other
        (List.mem_cons_of_mem _ hother)
    obtain ⟨own, placed, hplaced, hplacedrun, hown⟩ :=
      hseg.whole.placed hgoes.oneLine hgoes.ends hgoes.none
    obtain ⟨left, hfree⟩ := hgoes.free
    obtain ⟨new, declared, hnew, hnewrun, hnewcount⟩ := ih hfree.reached hgoes.row
      (fun seg hseg => hfits seg (List.mem_cons_of_mem _ hseg)) hclears'
    rw [hfree.shape] at hnewrun
    have hslice : Text.slice (Text.width (Lexeme.textOf before)) seg.span.start source =
        Lexeme.textOf gap := by
      have htext := henclosed.start.reached.text
      rw [Lexeme.textOf_append, List.append_assoc] at htext
      rw [hstart, Lexeme.textOf_append, Text.width_append, htext, Text.slice_middle]
    have hspliced : spliceFrom source (Text.width (Lexeme.textOf before)) (seg :: segments) =
        Lexeme.textOf gap ++ (seg.text source ++ line ++ spliceFrom source (Text.width
          (Lexeme.textOf ((before ++ gap) ++ inner ++ read))) segments) := by
      rw [spliceFrom, if_pos hrow.applies, hgoes.splice, hslice]
      simp only [List.append_assoc]
    refine ⟨gap ++ (own ++ new), d ++ (placed ++ declared), ?_, ?_, ?_⟩
    · rw [hspliced]
      exact (hgap _).append (hplaced.append hnew)
    · exact Shape.run_append.2 ⟨_, d, _, hgaprun, Shape.run_append.2
        ⟨_, placed, declared, Shape.run_atop henclosed.start.holds hplacedrun, hnewrun, rfl⟩, rfl⟩
    · have hcount := henclosed.count
      rw [hgoes.count] at hnewcount
      rw [hdeclared, List.countP_append] at hcount
      rw [List.countP_append, List.countP_append, hown, List.map_cons, List.sum_cons,
        List.length_cons]
      omega

/-- **A file in which routines are replaced by whole texts has an outline**, with the routines of
these texts instead of one for each. -/
theorem outline_splice {o : Outline} (h : outline dialect source = .ok o) {segments : List Segment}
    (hrow : RowFrom source 0 (segments.map Segment.span))
    (hfits : ∀ seg ∈ segments, Fits dialect source seg)
    (hclears : ∀ seg ∈ segments, Clears dialect source segments seg) :
    ∃ o', outline dialect (spliceFrom source 0 segments) = .ok o' ∧
      (o'.survey .preceding).1.length + segments.length = (o.survey .preceding).1.length +
        (segments.map fun seg => routinesIn dialect (seg.text source)).sum := by
  obtain ⟨lexemes, last, t, hr, hbraces, ho, -⟩ := run_of_outline h
  obtain ⟨new, declared, hnew, hrun, hcount⟩ :=
    replaced_run hr (.start : Reached dialect source [] source .initial) hrow hfits hclears
  have hframes : (last.shape source (Text.width (Lexeme.textOf lexemes))).frames = [] := by
    rw [State.shape, hbraces]
    rfl
  obtain ⟨o', s', ho', hr', hnodes, hdeclared⟩ := outline_of_run hnew hrun hframes
  refine ⟨o', ho', ?_⟩
  rw [(outline_flat ho').length_survey (outline_fits ho').2,
    (outline_flat h).length_survey (outline_fits h).2, hnodes, ho, countP_isRoutine,
    countP_isRoutine, hdeclared]
  exact hcount

/-! ## New text for a routine -/

/-- New text that takes the place of a routine and its comment, when these segments are replaced. -/
structure Seats (dialect : Dialect) (source : Text) (segments : List Segment) (r : Routine)
    (seg : Segment) : Prop where
  /-- The comment and what stands between the two make no difference. -/
  lead : ∀ c, r.commentSpan = some c → IsLead dialect source ⟨c.start, r.span.start⟩
  whole : IsWhole dialect (seg.text source)
  routine : 0 < routinesIn dialect (seg.text source)
  /-- Neither does what a line comment at the end of the new text swallows. -/
  line : endsInComment dialect (seg.text source) = true →
    IsWhole dialect (lineBehind source seg.span.stop) ∧
      routinesIn dialect (lineBehind source seg.span.stop) = 0
  clears : Clears dialect source segments seg

theorem Seats.fits {o : Outline} (h : outline dialect source = .ok o) {r : Routine}
    {segments : List Segment} (hr : r ∈ (o.survey .preceding).1) (hspan : seg.span = r.extent)
    (hseats : Seats dialect source segments r seg) : Fits dialect source seg := by
  have hstands := (outline_fits h).2.survey_stands .preceding r hr
  exact ⟨hspan ▸ extent_enclosed h hstands hseats.lead, hseats.whole, hseats.line⟩

end Scholia.Source.Braced
