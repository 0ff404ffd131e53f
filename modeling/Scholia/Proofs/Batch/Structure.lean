import Mathlib.Algebra.BigOperators.Group.List.Basic
import Scholia.Batch.File
import Scholia.Proofs.Layout.Splice
import Scholia.Proofs.Source.Braced.Replace
import Scholia.Proofs.Source.Indented.Replace
import Scholia.Proofs.Source.Procedural.Replace
/-!
# What new code does to the rest of a file

A reply is accepted on the strength of its code alone, if there is at least one routine in it. So it
may bring routines that were not asked for, and what it leaves open goes on behind it. New code that
can be read on its own and leaves nothing open *seats* itself in the place of the old one. Then
everything around it is read as before, and its routines are found instead of the old one: the file
has as many routines as before exactly if all such code holds one routine.
-/

namespace Scholia

open Source (Routine surveyed)
open Layout (Segment)

namespace Language

variable {language : Language} {source : Text} {routines : List Routine}

/-- What a segment puts in a file; where lines matter, with what stands before it on its line. -/
def placed (language : Language) (source : Text) (seg : Segment) : Text :=
  match language with
  | .python => Layout.written source seg
  | .java => seg.text source
  | .cSharp => seg.text source
  | .visualBasic => Layout.written source seg

/-- The number of routines in what a segment puts in a file. -/
def brought (language : Language) (source : Text) (seg : Segment) : Nat :=
  surveyed language.attachment (language.outline (language.placed source seg))

/-- New code that takes the place of a routine, when these segments are replaced. -/
def Seats (language : Language) (source : Text) (segments : List Segment) (r : Routine)
    (seg : Segment) : Prop :=
  match language with
  | .python => Source.Indented.Seats source seg
  | .java => Source.Braced.Seats .java source segments r seg
  | .cSharp => Source.Braced.Seats .cSharp source segments r seg
  | .visualBasic => Source.Procedural.Seats source seg

/-- What seats itself brings a routine. -/
theorem Seats.brought_pos {segments : List Segment} {r : Routine} {seg : Segment}
    (h : language.Seats source segments r seg) : 0 < language.brought source seg := by
  cases language with
  | python =>
    have hseats : Source.Indented.Seats source seg := h
    exact hseats.whole.routine
  | java => exact Source.Braced.Seats.routine h
  | cSharp => exact Source.Braced.Seats.routine h
  | visualBasic => exact Source.Procedural.Seats.routine h

/-- **Replaced routines are found in what takes their place**. -/
theorem splice_seats {o : Source.Outline} (h : language.outline source = .ok o)
    {segments : List Segment} (hrow : Layout.RowFrom source 0 (segments.map Segment.span))
    (hseats : ∀ seg ∈ segments, ∃ r ∈ (o.survey language.attachment).1,
      seg.span = r.extent ∧ language.Seats source segments r seg) :
    ∃ o', language.outline (Layout.spliceFrom source 0 segments) = .ok o' ∧
      (o'.survey language.attachment).1.length + segments.length =
        (o.survey language.attachment).1.length +
          (segments.map (language.brought source)).sum := by
  cases language with
  | python =>
    refine Source.Indented.outline_splice h hrow (fun seg hseg => ?_) fun seg hseg => ?_
    · obtain ⟨r, hr, hspan, -⟩ := hseats seg hseg
      have hfits := (Source.Indented.outline_fits h).2
      refine Source.Indented.stands_of_survey h hr (hspan.trans ?_)
      exact (hfits.survey_stands _ r hr).extent_eq_span hfits.nodes
    · obtain ⟨r, -, -, hseat⟩ := hseats seg hseg
      exact hseat
  | java =>
    refine Source.Braced.outline_splice h hrow (fun seg hseg => ?_) fun seg hseg => ?_
    · obtain ⟨r, hr, hspan, hseat⟩ := hseats seg hseg
      exact Source.Braced.Seats.fits h hr hspan hseat
    · obtain ⟨r, -, -, hseat⟩ := hseats seg hseg
      exact Source.Braced.Seats.clears hseat
  | cSharp =>
    refine Source.Braced.outline_splice h hrow (fun seg hseg => ?_) fun seg hseg => ?_
    · obtain ⟨r, hr, hspan, hseat⟩ := hseats seg hseg
      exact Source.Braced.Seats.fits h hr hspan hseat
    · obtain ⟨r, -, -, hseat⟩ := hseats seg hseg
      exact Source.Braced.Seats.clears hseat
  | visualBasic =>
    refine Source.Procedural.outline_splice h hrow fun seg hseg => ?_
    obtain ⟨r, hr, hspan, hseat⟩ := hseats seg hseg
    exact Source.Procedural.Seats.fits h hr hspan hseat

end Language

namespace Batch

variable {language : Language} {source : Text} {routines : List Routine}

/-- The segments of the routines whose replies have been accepted. -/
def replacements (results : List (Routine × Result)) : List Segment :=
  (results.map fun p => segment p.1 p.2).filter (·.replacement.isSome)

theorem mem_replacements {results : List (Routine × Result)} {seg : Segment} :
    seg ∈ replacements results ↔
      ∃ r accepted, (r, .ok accepted) ∈ results ∧ seg = segment r (.ok accepted) := by
  simp only [replacements, List.mem_filter, List.mem_map, Prod.exists]
  constructor
  · rintro ⟨⟨r, result, hp, rfl⟩, hsome⟩
    cases result with
    | error reason => cases hsome
    | ok accepted => exact ⟨r, accepted, hp, rfl⟩
  · rintro ⟨r, accepted, hp, rfl⟩
    exact ⟨⟨r, .ok accepted, hp, rfl⟩, rfl⟩

/-- Numbers that are positive add up to how many there are if each of them is one. -/
theorem sum_eq_length_iff {l : List Nat} (hpos : ∀ n ∈ l, 0 < n) :
    l.sum = l.length ↔ ∀ n ∈ l, n = 1 := by
  induction l with
  | nil => simp
  | cons n l ih =>
    have hn := hpos n List.mem_cons_self
    have hl := fun m hm => hpos m (List.mem_cons_of_mem _ hm)
    have hle : l.length ≤ l.sum := List.length_le_sum_of_one_le l hl
    rw [List.forall_mem_cons, ← ih hl, List.sum_cons, List.length_cons]
    omega

/-- **A file whose routines are replaced can be read again**, if each accepted reply seats itself in
the place of its routine, and **it has as many routines** exactly if each such reply brings one. -/
theorem assemble_keeps_routines (h : language.routines source = .ok routines) (o : Outcome)
    {results : List (Routine × Result)} (hkeys : results.map Prod.fst = routines)
    (hseats : ∀ r accepted, (r, .ok accepted) ∈ results →
      language.Seats source (replacements results) r (segment r (.ok accepted))) :
    ∃ routines', language.routines (assemble source o results).code = .ok routines' ∧
      (routines'.length = routines.length ↔ ∀ r accepted, (r, .ok accepted) ∈ results →
        language.brought source (segment r (.ok accepted)) = 1) := by
  obtain ⟨outline, ho, -, -, rfl⟩ := Language.outline_of_routines h
  let segments := results.map fun p => segment p.1 p.2
  have hspans : segments.map Segment.span =
      ((outline.survey language.attachment).1).map Routine.extent := by
    rw [← hkeys, List.map_map, List.map_map]
    rfl
  have hrow : Layout.RowFrom source 0 (segments.map Segment.span) :=
    .of_row (hspans ▸ Language.extents_row h)
  have hsub := (List.filter_sublist (p := (·.replacement.isSome)) (l := segments)).map Segment.span
  have hrow' : Layout.RowFrom source 0 ((replacements results).map Segment.span) :=
    .of_row ⟨fun s hs => hrow.row.fits s (hsub.subset hs), hrow.row.apart.sublist hsub⟩
  obtain ⟨o', ho', hcount⟩ := Language.splice_seats ho hrow' fun seg hseg => by
    obtain ⟨r, accepted, hp, rfl⟩ := mem_replacements.1 hseg
    have hr : r ∈ (outline.survey language.attachment).1 := hkeys ▸ List.mem_map.2 ⟨_, hp, rfl⟩
    exact ⟨r, hr, rfl, hseats r accepted hp⟩
  have hpos : ∀ n ∈ (replacements results).map (language.brought source), 0 < n := by
    intro n hn
    obtain ⟨seg, hseg, rfl⟩ := List.mem_map.1 hn
    obtain ⟨r, accepted, hp, rfl⟩ := mem_replacements.1 hseg
    exact (hseats r accepted hp).brought_pos
  have hsum := sum_eq_length_iff hpos
  rw [List.length_map] at hsum
  rw [replacements, hrow.spliceFrom_filter] at ho'
  refine ⟨(o'.survey language.attachment).1, ?_, ?_⟩
  · show Language.routines language (Layout.spliceFrom source 0 segments) = _
    rw [Language.routines, Language.survey, ho']
    rfl
  calc (o'.survey language.attachment).1.length = (outline.survey language.attachment).1.length
    _ ↔ ((replacements results).map (language.brought source)).sum =
        (replacements results).length := by omega
    _ ↔ _ := hsum
    _ ↔ _ := by
      rw [List.forall_mem_map]
      constructor
      · intro hone r accepted hp
        exact hone _ (mem_replacements.2 ⟨r, accepted, hp, rfl⟩)
      · intro hone seg hseg
        obtain ⟨r, accepted, hp, rfl⟩ := mem_replacements.1 hseg
        exact hone r accepted hp

/-- A function, and a method with a comment behind it. -/
def functionAndMethod : Text :=
  "def one():\n    return 1\n\nclass A:\n    def two(self):\n        return 2  # even\n\nx = A()\n".toList

/-- The routines of `functionAndMethod`. -/
def functionAndMethodRoutines : List Routine :=
  [⟨"one".toList, "def one()".toList, "\n    return 1".toList, ⟨0, 23⟩, [], none⟩,
    ⟨"two".toList, "def two(self)".toList, "\n        return 2".toList, ⟨38, 69⟩, [], none⟩]

/-- New code for the method, with a decorator and a doc comment. -/
def decoratedMethod : Reply.AcceptedRoutine where
  code := "@pure\ndef two(self):\n    \"\"\"Two.\"\"\"\n    return 2".toList
  docs := [.subheader "Function: def two(self)".toList, .bold "Description:".toList,
    .text "Two.".toList]

/-- The new code of the method at its column. -/
def decoratedMethodPlaced : Text :=
  "    @pure\n    def two(self):\n        \"\"\"Two.\"\"\"\n        return 2".toList

theorem written_decoratedMethod :
    Layout.written functionAndMethod ⟨⟨38, 69⟩, some decoratedMethod.code⟩ =
      decoratedMethodPlaced := by
  decide +kernel

theorem brought_decoratedMethod :
    Language.brought .python functionAndMethod ⟨⟨38, 69⟩, some decoratedMethod.code⟩ = 1 := by
  have hroutine : Language.routines .python
      decoratedMethodPlaced =
      .ok [⟨"two".toList, "def two(self)".toList,
        "\n        \"\"\"Two.\"\"\"\n        return 2".toList, ⟨4, 64⟩, "\"\"\"Two.\"\"\"".toList,
        some ⟨37, 47⟩⟩] := by
    rw [Language.routines_eq_compute]
    decide +kernel
  obtain ⟨o, ho, -, -, hsurvey⟩ := Language.outline_of_routines hroutine
  rw [Language.brought, Language.placed, written_decoratedMethod, ho]
  exact (congrArg List.length hsurvey).symm

theorem seats_decoratedMethod :
    Source.Indented.Seats functionAndMethod ⟨⟨38, 69⟩, some decoratedMethod.code⟩ := by
  have hlines : Source.Indented.logicalLines functionAndMethod =
      .ok [⟨0, 10, 0, some 9, none⟩, ⟨15, 23, 4, none, none⟩, ⟨25, 33, 0, some 32, none⟩,
        ⟨38, 52, 4, some 51, none⟩, ⟨61, 69, 8, none, none⟩, ⟨79, 86, 0, none, none⟩] := by
    rw [Source.Indented.logicalLines, Source.Rule.lex_eq_lexWithin]
    decide +kernel
  have hnew : Source.Indented.logicalLines
      decoratedMethodPlaced =
      .ok [⟨4, 9, 4, none, none⟩, ⟨14, 28, 4, some 27, none⟩, ⟨37, 47, 8, none, some ⟨37, 47⟩⟩,
        ⟨56, 64, 8, none, none⟩] := by
    rw [Source.Indented.logicalLines, Source.Rule.lex_eq_lexWithin]
    decide +kernel
  have hlast : (Source.Indented.rule.lex
      decoratedMethodPlaced).lexemes.getLast? =
      some ⟨.code '2', ['2']⟩ := by
    rw [Source.Rule.lex_eq_lexWithin]
    decide +kernel
  refine ⟨⟨?_, ?_, ?_⟩, ?_, ?_, ?_, ?_⟩
  · exact Nat.lt_of_lt_of_eq Nat.one_pos brought_decoratedMethod.symm
  · rw [written_decoratedMethod, Source.Indented.continues, hlast]
    decide
  · intro lines h
    cases hnew.symm.trans (written_decoratedMethod ▸ h)
    decide +kernel
  · intro lines new h h'
    cases hlines.symm.trans h
    cases hnew.symm.trans (written_decoratedMethod ▸ h')
    decide +kernel
  · intro lines new h h'
    cases hlines.symm.trans h
    cases hnew.symm.trans (written_decoratedMethod ▸ h')
    decide +kernel
  · intro lines h
    cases hlines.symm.trans h
    decide +kernel
  · rw [written_decoratedMethod, Source.Indented.endsInCode, hlast]
    decide

/-- A class with one method, and a comment behind it on its line. -/
def remarkedMethod : Text :=
  "class A \x7b\n  void f() \x7b\x7d // old\n\x7d".toList

/-- The method of `remarkedMethod`. -/
def remarkedMethodRoutine : Routine :=
  ⟨"f".toList, "void f()".toList, "\x7b\x7d".toList, ⟨12, 23⟩, [], none⟩

/-- New code for a method, with a comment behind it. -/
def trailedMethod : Reply.AcceptedRoutine where
  code := "/** Does f. */\nvoid f() \x7b\x7d // done".toList
  docs := [.subheader "Function: void f()".toList, .bold "Description:".toList,
    .text "Does f.".toList]

/-- The reply with the code of `trailedMethod`. -/
def trailedReply : Text :=
  "```java\n".toList ++ trailedMethod.code ++ "\n```".toList

/-- The new code of the method at its column. -/
def trailedMethodPlaced : Text :=
  "/** Does f. */\n  void f() \x7b\x7d // done".toList

theorem text_trailedMethod :
    Segment.text remarkedMethod (segment remarkedMethodRoutine (.ok trailedMethod)) =
      trailedMethodPlaced := by
  decide +kernel

theorem outline_trailedMethod :
    ∃ o, Source.Braced.outline .java trailedMethodPlaced = .ok o ∧
      (o.survey .preceding).1.length = 1 := by
  have hroutine : Language.routines .java trailedMethodPlaced =
      .ok [⟨"f".toList, "void f()".toList, "\x7b\x7d".toList, ⟨17, 28⟩, "/** Does f. */".toList,
        some ⟨0, 14⟩⟩] := by
    rw [Language.routines_eq_compute]
    decide +kernel
  obtain ⟨o, ho, -, -, hsurvey⟩ := Language.outline_of_routines hroutine
  exact ⟨o, ho, (congrArg List.length hsurvey).symm⟩

theorem brought_trailedMethod :
    Language.brought .java remarkedMethod (segment remarkedMethodRoutine (.ok trailedMethod)) =
      1 := by
  obtain ⟨o, ho, hlength⟩ := outline_trailedMethod
  rw [Language.brought, Language.placed, text_trailedMethod]
  exact (congrArg (surveyed .preceding) ho).trans hlength

theorem seats_trailedMethod :
    Source.Braced.Seats .java remarkedMethod
      (replacements [(remarkedMethodRoutine, .ok trailedMethod)]) remarkedMethodRoutine
      (segment remarkedMethodRoutine (.ok trailedMethod)) := by
  have hbehind : Layout.lineBehind remarkedMethod 23 = " // old".toList := by decide +kernel
  have hnone : Language.routines .java " // old".toList = .ok [] := by
    rw [Language.routines_eq_compute]
    decide +kernel
  obtain ⟨o, ho, -, -, hsurvey⟩ := Language.outline_of_routines hnone
  obtain ⟨o', ho', -⟩ := outline_trailedMethod
  refine ⟨?_, ⟨?_, ?_⟩, ?_, fun _ => ⟨⟨?_, ?_⟩, ?_⟩, ?_⟩
  · intro c hc
    cases hc
  · rw [text_trailedMethod]
    exact ⟨o', ho'⟩
  · rw [text_trailedMethod, Source.Braced.endsInHeader, Source.Rule.lex_eq_lexWithin]
    decide +kernel
  · exact Nat.lt_of_lt_of_eq Nat.one_pos brought_trailedMethod.symm
  · exact hbehind ▸ ⟨o, ho⟩
  · show Source.Braced.endsInHeader .java (Layout.lineBehind remarkedMethod 23) = false
    rw [hbehind, Source.Braced.endsInHeader, Source.Rule.lex_eq_lexWithin]
    decide +kernel
  · show surveyed .preceding (Source.Braced.outline .java (Layout.lineBehind remarkedMethod 23)) = 0
    rw [hbehind]
    exact (congrArg (surveyed .preceding) ho).trans (congrArg List.length hsurvey).symm
  · -- no other range is replaced
    intro _ other hother hle
    obtain ⟨r, accepted, hp, rfl⟩ := mem_replacements.1 hother
    obtain ⟨rfl, -⟩ := Prod.mk.inj (List.mem_singleton.1 hp)
    exact absurd (show 23 ≤ 12 from hle) (by decide)

/-- A method and a function are documented, another function fails: the files hold as many as
before. -/
theorem assemble_keeps_routines_accepted :
    (Language.routines .python functionAndMethod = .ok functionAndMethodRoutines ∧
      Reply.acceptRoutine .python "two".toList
        ("```python\n".toList ++ decoratedMethod.code ++ "\n```".toList) = .ok decoratedMethod ∧
      ∀ (o : Outcome) (reason : Text), ∃ routines',
        Language.routines .python (assemble functionAndMethod o
          (functionAndMethodRoutines.zip [.error reason, .ok decoratedMethod])).code = .ok routines' ∧
        routines'.length = 2) ∧
    Language.routines .java remarkedMethod = .ok [remarkedMethodRoutine] ∧
      Reply.acceptRoutine .java "f".toList trailedReply = .ok trailedMethod ∧
      ∀ o : Outcome, ∃ routines',
        Language.routines .java (assemble remarkedMethod o
          [(remarkedMethodRoutine, .ok trailedMethod)]).code = .ok routines' ∧
        routines'.length = 1 := by
  have hroutines : Language.routines .python functionAndMethod = .ok functionAndMethodRoutines := by
    rw [Language.routines_eq_compute]
    decide +kernel
  have hroutine : Language.routines .java remarkedMethod = .ok [remarkedMethodRoutine] := by
    rw [Language.routines_eq_compute]
    decide +kernel
  refine ⟨⟨hroutines, ?_, fun o reason => ?_⟩, hroutine, ?_, fun o => ?_⟩
  · simp only [Reply.acceptRoutine, Language.routines_eq_compute]
    decide +kernel
  · have hkeys : (functionAndMethodRoutines.zip [Except.error reason, Except.ok decoratedMethod]).map
        Prod.fst = functionAndMethodRoutines := rfl
    have honly : ∀ r accepted, (r, Except.ok accepted) ∈
        functionAndMethodRoutines.zip [Except.error reason, Except.ok decoratedMethod] →
        segment r (.ok accepted) = ⟨⟨38, 69⟩, some decoratedMethod.code⟩ := by
      intro r accepted hmem
      obtain ⟨-, hp⟩ | ⟨rfl, hp⟩ : (r = functionAndMethodRoutines[0] ∧
          (.ok accepted : Result) = .error reason) ∨
          (r = functionAndMethodRoutines[1] ∧ (.ok accepted : Result) = .ok decoratedMethod) := by
        simpa [functionAndMethodRoutines] using hmem
      · cases hp
      · cases hp
        rfl
    obtain ⟨routines', hok, hkept⟩ := assemble_keeps_routines hroutines o hkeys fun r accepted hp => by
      rw [honly r accepted hp]
      exact seats_decoratedMethod
    refine ⟨routines', hok, hkept.2 fun r accepted hp => ?_⟩
    rw [honly r accepted hp]
    exact brought_decoratedMethod
  · simp only [Reply.acceptRoutine, Language.routines_eq_compute]
    decide +kernel
  · have hkeys : ([(remarkedMethodRoutine, .ok trailedMethod)] : List (Routine × Result)).map
        Prod.fst = [remarkedMethodRoutine] := rfl
    have honly : ∀ (r : Routine) (accepted : Reply.AcceptedRoutine),
        (r, .ok accepted) ∈ ([(remarkedMethodRoutine, .ok trailedMethod)] : List (Routine × Result)) →
        r = remarkedMethodRoutine ∧ accepted = trailedMethod := by
      intro r accepted hp
      obtain ⟨rfl, h⟩ := Prod.mk.inj (List.mem_singleton.1 hp)
      exact ⟨rfl, Except.ok.inj h⟩
    obtain ⟨routines', hok, hkept⟩ := assemble_keeps_routines hroutine o hkeys fun r accepted hp => by
      obtain ⟨rfl, rfl⟩ := honly r accepted hp
      exact seats_trailedMethod
    refine ⟨routines', hok, hkept.2 fun r accepted hp => ?_⟩
    obtain ⟨rfl, rfl⟩ := honly r accepted hp
    exact brought_trailedMethod

/-- A class and its method on one line. -/
def inlineMethod : Text :=
  "class A \x7b void f() \x7b\x7d \x7d".toList

/-- A reply for a method that brings a second one. -/
def twoMethodsReply : Text :=
  "```java\n/** Does f. */\nvoid f() \x7b\x7d\nvoid g() \x7b\x7d\n```".toList

/-- **An accepted reply may break its file**: the comment behind the new method of `inlineMethod`
swallows the brace that closes the class. **And it may bring routines**: behind `twoMethodsReply`
there are two. -/
theorem assemble_breaks_routines :
    ∃ r : Routine, Language.routines .java inlineMethod = .ok [r] ∧
      (∃ accepted, Reply.acceptRoutine .java r.name trailedReply = .ok accepted ∧
        ∀ o : Outcome, ∃ fault,
          Language.routines .java (assemble inlineMethod o [(r, .ok accepted)]).code =
            .error fault) ∧
      ∃ accepted, Reply.acceptRoutine .java r.name twoMethodsReply = .ok accepted ∧
        ∀ o : Outcome, ∃ routines',
          Language.routines .java (assemble inlineMethod o [(r, .ok accepted)]).code = .ok routines' ∧
            routines'.length = 2 := by
  refine ⟨⟨"f".toList, "void f()".toList, "\x7b\x7d".toList, ⟨10, 21⟩, [], none⟩, ?_,
    ⟨trailedMethod, ?_, fun o => ⟨.unbalanced .java '\x7b' 8, ?_⟩⟩,
    ⟨"/** Does f. */\nvoid f() \x7b\x7d\nvoid g() \x7b\x7d".toList, trailedMethod.docs⟩, ?_,
    fun o => ?_⟩
  · rw [Language.routines_eq_compute]
    decide +kernel
  · simp only [Reply.acceptRoutine, Language.routines_eq_compute]
    decide +kernel
  · show Language.routines .java (Layout.splice inlineMethod [⟨⟨10, 21⟩, some _⟩]) = _
    rw [Language.routines_eq_compute]
    decide +kernel
  · simp only [Reply.acceptRoutine, Language.routines_eq_compute]
    decide +kernel
  · refine ⟨[⟨"f".toList, "void f()".toList, "\x7b\x7d".toList, ⟨25, 36⟩, "/** Does f. */".toList,
        some ⟨10, 24⟩⟩,
      ⟨"g".toList, "void g()".toList, "\x7b\x7d".toList, ⟨37, 48⟩, [], none⟩], ?_, rfl⟩
    show Language.routines .java (Layout.splice inlineMethod [⟨⟨10, 21⟩, some _⟩]) = _
    rw [Language.routines_eq_compute]
    decide +kernel

end Batch

end Scholia
