import Scholia.Proofs.Evaluation
import Scholia.Proofs.Source.Braced.Remarks
import Scholia.Proofs.Source.Indented.Remarks
import Scholia.Proofs.Source.Procedural.Remarks
/-!
# Remarks

A *remark* is a comment that is no doc comment. A source without its remarks is surveyed as the source
itself, as far as its headers read the same without them: the scanners pass remarks over, but cut the
headers out of the text as they stand.
-/

namespace Scholia

open Source

namespace Language

/-- A source with its remarks overwritten with spaces, line ends excepted. -/
def withoutRemarks : Language → Text → Text
  | python => Indented.withoutRemarks
  | java => Braced.withoutRemarks .java
  | cSharp => Braced.withoutRemarks .cSharp
  | visualBasic => Procedural.withoutRemarks

/-- The texts of a source in which declarations are looked for. -/
def headers : Language → Text → List Span
  | python => Indented.headers
  | java => Braced.headers .java
  | cSharp => Braced.headers .cSharp
  | visualBasic => Procedural.headers

/-- Two headers declare the same. -/
def ReadsSame : Language → Text → Text → Prop
  | python => Indented.ReadsSame
  | java => Braced.ReadsSame .java
  | cSharp => Braced.ReadsSame .cSharp
  | visualBasic => Procedural.ReadsSame

theorem ReadsSame.refl (language : Language) (header : Text) : language.ReadsSame header header := by
  cases language <;> rfl

variable {language : Language} {source : Text} {routines : List Routine} {types : List TypeDecl}

theorem survey_of_braced {dialect : Braced.Dialect} {o : Outline}
    (h : Braced.outline dialect source = .ok o)
    (hreads : ∀ header ∈ Braced.headers dialect source, Braced.ReadsSame dialect
      (header.of (Braced.withoutRemarks dialect source)) (header.of source)) :
    ∃ o', Braced.outline dialect (Braced.withoutRemarks dialect source) = .ok o' ∧
      (o'.survey .preceding).1.map Routine.title = (o.survey .preceding).1.map Routine.title ∧
      (o'.survey .preceding).2 = (o.survey .preceding).2 := by
  obtain ⟨o', ho', hentries⟩ := Braced.outline_withoutRemarks h hreads
  exact ⟨o', ho', (Braced.outline_flat ho').survey_congr (Braced.outline_fits ho').2
    (Braced.outline_flat h) (Braced.outline_fits h).2 hentries.symm .preceding⟩

theorem survey_of_indented {o : Outline} (h : Indented.outline source = .ok o)
    (hreads : ∀ header ∈ Indented.headers source,
      Indented.ReadsSame (header.of (Indented.withoutRemarks source)) (header.of source)) :
    ∃ o', Indented.outline (Indented.withoutRemarks source) = .ok o' ∧
      (o'.survey .firstStatement).1.map Routine.title =
        (o.survey .firstStatement).1.map Routine.title ∧
      (o'.survey .firstStatement).2 = (o.survey .firstStatement).2 := by
  obtain ⟨o', ho', hnodes⟩ := Indented.outline_withoutRemarks h hreads
  refine ⟨o', ho', ?_, ?_⟩
  · have hkeys := (Indented.outline_fits ho').2.survey_outermost (Indented.outline_distinct ho')
      .firstStatement
    rw [hnodes, ← (Indented.outline_fits h).2.survey_outermost (Indented.outline_distinct h)
      .firstStatement] at hkeys
    have htitles := congrArg (List.map fun key : Text × Text × Span => (key.1, key.2.1)) hkeys
    rwa [List.map_map, List.map_map] at htitles
  · rw [(Indented.outline_fits ho').2.survey_outermostTypes (Indented.outline_distinct ho'), hnodes,
      (Indented.outline_fits h).2.survey_outermostTypes (Indented.outline_distinct h)]

/-- **Remarks outside headers do not influence the survey**. A source that is surveyed is surveyed
without its remarks, with routines of the same names and signatures and the same types, as far as its
headers read the same. -/
theorem survey_withoutRemarks (h : language.survey source = .ok (routines, types))
    (hreads : ∀ header ∈ language.headers source,
      language.ReadsSame (header.of (language.withoutRemarks source)) (header.of source)) :
    ∃ routines', language.survey (language.withoutRemarks source) = .ok (routines', types) ∧
      routines'.map Routine.title = routines.map Routine.title := by
  obtain ⟨o, ho, hsurvey⟩ := bind_eq_ok.1 h
  have hsurvey := Except.ok.inj hsurvey
  obtain ⟨o', ho', htitles, htypes⟩ :
      ∃ o', language.outline (language.withoutRemarks source) = .ok o' ∧
        (o'.survey language.attachment).1.map Routine.title =
          (o.survey language.attachment).1.map Routine.title ∧
        (o'.survey language.attachment).2 = (o.survey language.attachment).2 := by
    cases language with
    | python => exact survey_of_indented ho hreads
    | java | cSharp => exact survey_of_braced ho hreads
    | visualBasic =>
      obtain ⟨o', ho', hentries⟩ := Procedural.outline_withoutRemarks ho hreads
      exact ⟨o', ho', (Procedural.outline_flat ho').survey_congr (Procedural.outline_fits ho').2
        (Procedural.outline_flat ho) (Procedural.outline_fits ho).2 hentries.symm .preceding⟩
  rw [hsurvey] at htitles htypes
  refine ⟨(o'.survey language.attachment).1, bind_eq_ok.2 ⟨o', ho', ?_⟩, htitles⟩
  exact congrArg (fun types => Except.ok (_, types)) htypes

/-- A method with a doc comment, and remarks around and inside it. -/
def remarkText : Text :=
  ("// Shapes.\nclass A \x7b\n  /// Area.\n  int F(int a) \x7b /* later */ return a; \x7d // done\n" ++
    "\x7d\n").toList

/-- The method in `remarkText`. -/
def remarkRoutine : Routine where
  name := "F".toList
  signature := "int F(int a)".toList
  body := "\x7b /* later */ return a; \x7d".toList
  span := ⟨35, 73⟩
  comment := "/// Area.".toList
  commentSpan := some ⟨23, 32⟩

/-- `remarkText` is surveyed alike without its remarks. -/
theorem survey_withoutRemarks_remarkText :
    ∃ routines', cSharp.survey remarkText =
        .ok ([remarkRoutine], [⟨"A".toList, "class A".toList⟩]) ∧
      cSharp.survey (cSharp.withoutRemarks remarkText) =
        .ok (routines', [⟨"A".toList, "class A".toList⟩]) ∧
      routines'.map Routine.title = [("F".toList, "int F(int a)".toList)] ∧
      cSharp.withoutRemarks remarkText ≠ remarkText := by
  have hsurvey : cSharp.survey remarkText =
      .ok ([remarkRoutine], [⟨"A".toList, "class A".toList⟩]) := by
    rw [survey_eq_computeSurvey]
    decide +kernel
  have hreads : ∀ header ∈ cSharp.headers remarkText, cSharp.ReadsSame
      (header.of (cSharp.withoutRemarks remarkText)) (header.of remarkText) := by
    simp only [headers, Braced.headers, withoutRemarks, Braced.withoutRemarks, Rule.lex_eq_lexWithin]
    show ∀ header ∈ _, Braced.ReadsSame .cSharp _ _
    decide +kernel
  obtain ⟨routines', hwithout, htitles⟩ := survey_withoutRemarks hsurvey hreads
  refine ⟨routines', hsurvey, hwithout, htitles, ?_⟩
  simp only [withoutRemarks, Braced.withoutRemarks, Rule.lex_eq_lexWithin]
  decide +kernel

/-- A method with a remark behind its parameters. -/
def headerRemarkText : Text :=
  "class A \x7b\n  void f() /* note */ \x7b\n  \x7d\n\x7d\n".toList

/-- A function with a remark between its parameters. -/
def parameterRemarkText : Text :=
  "def f(a,  # first\n      b):\n    pass\n".toList

/-- The names and signatures of the routines of a source. -/
def titles (language : Language) (source : Text) : Except Fault (List (Text × Text)) :=
  (language.survey source).map fun found => found.1.map Routine.title

/-- Remarks in headers are read as code: with one behind its parameters a method is not found, and one
between parameters is part of the signature. -/
theorem titles_header_remark :
    java.titles headerRemarkText = .ok [] ∧
      java.titles (java.withoutRemarks headerRemarkText) =
        .ok [("f".toList, "void f()".toList)] ∧
      python.titles parameterRemarkText = .ok [("f".toList, "def f(a, # first b)".toList)] ∧
      python.titles (python.withoutRemarks parameterRemarkText) =
        .ok [("f".toList, "def f(a, b)".toList)] := by
  have hjava : java.withoutRemarks headerRemarkText =
      "class A \x7b\n  void f()            \x7b\n  \x7d\n\x7d\n".toList := by
    simp only [withoutRemarks, Braced.withoutRemarks, Rule.lex_eq_lexWithin]
    decide +kernel
  have hpython : python.withoutRemarks parameterRemarkText =
      "def f(a,         \n      b):\n    pass\n".toList := by
    simp only [withoutRemarks, Indented.withoutRemarks, Rule.lex_eq_lexWithin]
    decide +kernel
  rw [hjava, hpython]
  simp only [titles, survey_eq_computeSurvey]
  decide +kernel

end Language

end Scholia
