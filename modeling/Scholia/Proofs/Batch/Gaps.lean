import Scholia.Batch.File
import Scholia.Proofs.Layout.Kept
import Scholia.Proofs.Layout.Splice
import Scholia.Proofs.Source.Braced.Gap
import Scholia.Proofs.Source.Procedural.Gap
/-!
# What is lost between comment and routine

The extent of a routine runs from its comment on, so what stands between the two is replaced along
with them. A comment is taken for the routine's own by the look of the lines between: each is blank
or *begins* with an annotation or attribute. In a brace language a declaration may hide behind that
beginning, and it is there exactly if a semicolon or brace is. Everything else that lies outside
comments and routines is left standing.
-/

namespace Scholia

open Source (Span Row Routine)

namespace Source

/-- Whether a range lies between a routine and the comment before it. -/
def Routine.holdsInGap (r : Routine) (m : Span) : Bool :=
  match r.commentSpan with
  | some c => c.stop ≤ m.start && m.stop ≤ r.span.start
  | none => false

/-- A range that touches neither a routine nor its comment. -/
structure Routine.Spares (r : Routine) (m : Span) : Prop where
  routine : m.stop ≤ r.span.start ∨ r.span.stop ≤ m.start
  comment : ∀ c, r.commentSpan = some c → m.stop ≤ c.start ∨ c.stop ≤ m.start

/-- What touches neither a routine nor its comment, and does not lie between them, does not touch
the extent. -/
theorem Routine.Spares.extent {r : Routine} {m : Span} (h : r.Spares m)
    (hgap : r.holdsInGap m = false) : m.stop ≤ r.extent.start ∨ r.extent.stop ≤ m.start := by
  rw [Routine.Fits.extent_stop]
  rcases h.routine with hbefore | hbehind
  · refine .inl ?_
    rcases Routine.Fits.extent_start r with he | ⟨c, hc, he⟩
    · rw [he]
      exact hbefore
    · rw [he]
      rcases h.comment c hc with hle | hle
      · exact hle
      · have hin : r.holdsInGap m = true := by
          simp only [Routine.holdsInGap, hc, Bool.and_eq_true, decide_eq_true_eq]
          exact ⟨hle, hbefore⟩
        rw [hgap] at hin
        cases hin
  · exact .inr hbehind

end Source

/-! ## Gaps with nothing but annotations -/

namespace Language

/-- Nothing but blanks and complete annotations or attributes in a range. -/
def OnlyAnnotations : Language → Text → Span → Prop
  | python, source, gap => Text.allBlank (gap.of source) = true
  | java, source, gap =>
    Source.Braced.OnlyAnnotations .java (Source.Braced.lexemesIn .java source gap)
  | cSharp, source, gap =>
    Source.Braced.OnlyAnnotations .cSharp (Source.Braced.lexemesIn .cSharp source gap)
  | visualBasic, source, gap => Source.Procedural.OnlyAttributes (gap.of source)

/-- Whether a range is free of declarations: no semicolon and no brace in a brace language, no more
than attributes in Visual Basic. -/
def isFree : Language → Text → Span → Bool
  | python, source, gap => Text.allBlank (gap.of source)
  | java, source, gap =>
    (Source.Braced.lexemesIn .java source gap).all fun lexeme => !lexeme.kind.isReset
  | cSharp, source, gap =>
    (Source.Braced.lexemesIn .cSharp source gap).all fun lexeme => !lexeme.kind.isReset
  | visualBasic, source, gap => Source.Procedural.onlyAttributes .between (gap.of source)

variable {language : Language} {source : Text} {routines : List Routine}

theorem braced_gap {dialect : Source.Braced.Dialect} {o : Source.Outline}
    (h : Source.Braced.outline dialect source = .ok o) {r : Routine} (hr : r.Stands o .preceding)
    {c : Span} (hc : r.commentSpan = some c) :
    (Source.Braced.OnlyAnnotations dialect
        (Source.Braced.lexemesIn dialect source ⟨c.stop, r.span.start⟩) ↔
      (Source.Braced.lexemesIn dialect source ⟨c.stop, r.span.start⟩).all
        (fun lexeme => !lexeme.kind.isReset) = true) ∧
      ((Source.Braced.lexemesIn dialect source ⟨c.stop, r.span.start⟩).all
          (fun lexeme => !lexeme.kind.isReset) = true →
        Text.allBlank (Text.slice c.stop r.span.start source) = true) := by
  have hall : (Source.Braced.lexemesIn dialect source ⟨c.stop, r.span.start⟩).all
        (fun lexeme => !lexeme.kind.isReset) = true ↔
      ∀ l ∈ Source.Braced.lexemesIn dialect source ⟨c.stop, r.span.start⟩,
        l.kind.isReset = false := by
    simp [List.all_eq_true]
  rw [hall]
  exact Source.Braced.onlyAnnotations_gap_iff h hr hc

/-- **A gap holds only annotations exactly if it is free**, and in a brace language it is blank
then. -/
theorem onlyAnnotations_iff (hl : language ≠ .python) (h : language.routines source = .ok routines)
    {r : Routine} (hr : r ∈ routines) {c : Span} (hc : r.commentSpan = some c) :
    c.stop ≤ r.span.start ∧
      (language.OnlyAnnotations source ⟨c.stop, r.span.start⟩ ↔
        language.isFree source ⟨c.stop, r.span.start⟩ = true) ∧
      (language ≠ .visualBasic → language.isFree source ⟨c.stop, r.span.start⟩ = true →
        Text.allBlank (Text.slice c.stop r.span.start source) = true) := by
  obtain ⟨o, ho, hsource, hfits, rfl⟩ := outline_of_routines h
  have hstands := hfits.survey_stands language.attachment r hr
  obtain ⟨b, -, -, hcomment⟩ := hstands.node
  have hjoin := (hcomment c hc).2
  cases language with
  | python => exact absurd rfl hl
  | java =>
    obtain ⟨hiff, hblank⟩ := braced_gap ho hstands hc
    exact ⟨Source.isAdjacent_le hjoin, hiff, fun _ => hblank⟩
  | cSharp =>
    obtain ⟨hiff, hblank⟩ := braced_gap ho hstands hc
    exact ⟨Source.isAdjacent_le hjoin, hiff, fun _ => hblank⟩
  | visualBasic =>
    refine ⟨Source.isAdjacent_le hjoin, ?_, fun hne => absurd rfl hne⟩
    exact (Source.Procedural.onlyAttributes_iff _).symm

end Language

namespace Batch

variable {language : Language} {source : Text} {routines : List Routine}

/-- Whether a range lies in the gap of a routine that is replaced. -/
def inReplacedGap (results : List (Routine × Result)) (m : Span) : Bool :=
  results.any fun (routine, result) => result.toOption.isSome && routine.holdsInGap m

/-- What touches no replaced routine and no comment of one, and lies in no gap, is left standing. -/
theorem assemble_inTurn (h : language.routines source = .ok routines) (o : Outcome)
    {results : List (Routine × Result)} (hkeys : results.map Prod.fst = routines)
    {members : List Span} (hmembers : Row source members)
    (hspares : ∀ p ∈ results, p.2.toOption.isSome = true → ∀ m ∈ members, p.1.Spares m) :
    Text.InTurn ((members.filter fun m => !inReplacedGap results m).map (·.of source))
      (assemble source o results).code := by
  have hspans : (results.map fun (routine, result) => segment routine result).map
      Layout.Segment.span = routines.map Routine.extent := by
    rw [← hkeys, List.map_map, List.map_map]
    rfl
  have hsub := List.filter_sublist (p := fun m => !inReplacedGap results m) (l := members)
  refine Layout.splice_inTurn (hspans ▸ Language.extents_row h)
    ⟨fun m hm => hmembers.fits m (hsub.subset hm), hmembers.apart.sublist hsub⟩ ?_
  intro s hs hsome m hm
  obtain ⟨p, hp, rfl⟩ := List.mem_map.1 hs
  obtain ⟨hm, hgap⟩ := List.mem_filter.1 hm
  have hreplaced : p.2.toOption.isSome = true := by
    simpa [segment] using hsome
  refine (hspares p hp hreplaced m hm).extent ?_
  cases hg : p.1.holdsInGap m with
  | false => rfl
  | true =>
    have hany : inReplacedGap results m = true :=
      List.any_eq_true.2 ⟨p, hp, Bool.and_eq_true_iff.2 ⟨hreplaced, hg⟩⟩
    rw [hany] at hgap
    cases hgap

/-- **Documenting a routine deletes no declaration exactly if the gap before it is free of them**.
Between a comment and its routine stands nothing but blanks and annotations exactly if the gap is
free. And whatever touches neither a replaced routine nor its comment stands in the new code, in its
order, unless it lies in the gap of a replaced routine. -/
theorem assemble_deletes_gaps_only (hl : language ≠ .python)
    (h : language.routines source = .ok routines) :
    (∀ r ∈ routines, ∀ c, r.commentSpan = some c →
      c.stop ≤ r.span.start ∧
        (language.OnlyAnnotations source ⟨c.stop, r.span.start⟩ ↔
          language.isFree source ⟨c.stop, r.span.start⟩ = true) ∧
        (language ≠ .visualBasic → language.isFree source ⟨c.stop, r.span.start⟩ = true →
          Text.allBlank (Text.slice c.stop r.span.start source) = true)) ∧
      ∀ (o : Outcome) (results : List (Routine × Result)), results.map Prod.fst = routines →
        ∀ members : List Span, Row source members →
          (∀ p ∈ results, p.2.toOption.isSome = true → ∀ m ∈ members, p.1.Spares m) →
          Text.InTurn ((members.filter fun m => !inReplacedGap results m).map (·.of source))
            (assemble source o results).code := by
  refine ⟨fun r hr c hc => Language.onlyAnnotations_iff hl h hr hc, ?_⟩
  intro o results hkeys members hmembers hspares
  exact assemble_inTurn h o hkeys hmembers hspares

/-- The getter of `sampleClass` is replaced: its gap is free, and the other method is left
standing. -/
theorem assemble_deletes_gaps_only_sampleClass :
    Language.java ≠ .python ∧
      Language.routines .java Language.sampleClass = .ok Language.sampleRoutines ∧
      Language.OnlyAnnotations .java Language.sampleClass ⟨27, 30⟩ ∧
      ∀ (o : Outcome) (accepted : Reply.AcceptedRoutine) (reason : Text),
        Text.InTurn ["class A".toList, "void läuft() \x7b\x7d".toList]
          (assemble Language.sampleClass o
            (Language.sampleRoutines.zip [.ok accepted, .error reason])).code := by
  have h := assemble_deletes_gaps_only (by decide) Language.routines_sampleClass
  refine ⟨by decide, Language.routines_sampleClass, ?_, fun o accepted reason => ?_⟩
  · exact ((h.1 _ List.mem_cons_self ⟨12, 27⟩ rfl).2.1).2 (by decide +kernel)
  · refine h.2 o (Language.sampleRoutines.zip [.ok accepted, .error reason]) rfl [⟨0, 7⟩, ⟨64, 80⟩]
      ⟨by decide +kernel, by decide⟩ ?_
    intro p hp hsome m hm
    have hp' : p = (Language.sampleRoutines[0], .ok accepted) ∨
        p = (Language.sampleRoutines[1], .error reason) := by
      simpa [Language.sampleRoutines] using hp
    rcases hp' with rfl | rfl
    · have hm' : m = ⟨0, 7⟩ ∨ m = ⟨64, 80⟩ := by simpa using hm
      rcases hm' with rfl | rfl
      · exact ⟨.inl (show 7 ≤ 30 by decide), fun c hc => by cases hc; exact .inl (by decide)⟩
      · exact ⟨.inr (show 61 ≤ 64 by decide), fun c hc => by cases hc; exact .inr (by decide)⟩
    · cases hsome

/-- A class whose only comment belongs to a field with an annotation. -/
def annotatedField : Text :=
  "class A \x7b\n  /** D. */\n  @X int a;\n  void f() \x7b\x7d\n\x7d".toList

/-- The method takes the comment of the field, and the field goes with the comment. -/
theorem assemble_deletes_annotatedField :
    ∃ r : Routine, Language.routines .java annotatedField = .ok [r] ∧
      r.commentSpan = some ⟨12, 21⟩ ∧ r.span = ⟨36, 47⟩ ∧
      ¬ Language.OnlyAnnotations .java annotatedField ⟨21, 36⟩ ∧
      r.Spares ⟨24, 33⟩ ∧ Span.of ⟨24, 33⟩ annotatedField = "@X int a;".toList ∧
      ∀ (o : Outcome) (accepted : Reply.AcceptedRoutine),
        accepted.code = "/** New. */\nvoid f() \x7b\x7d".toList →
        (assemble annotatedField o [(r, .ok accepted)]).code =
          "class A \x7b\n  /** New. */\n  void f() \x7b\x7d\n\x7d".toList := by
  have hroutines : Language.routines .java annotatedField =
      .ok [⟨"f".toList, "void f()".toList, "\x7b\x7d".toList, ⟨36, 47⟩, "/** D. */".toList,
        some ⟨12, 21⟩⟩] := by
    rw [Language.routines_eq_compute]
    decide +kernel
  refine ⟨_, hroutines, rfl, rfl, fun hann => ?_, ⟨by decide, fun c hc => by cases hc; decide⟩,
    by decide +kernel, fun o accepted hcode => ?_⟩
  · have hfree := (Language.onlyAnnotations_iff (by decide) hroutines List.mem_cons_self rfl).2.1.1
      hann
    exact absurd hfree (by decide +kernel)
  · show Layout.splice annotatedField [⟨⟨12, 47⟩, some accepted.code⟩] = _
    rw [hcode]
    decide +kernel

end Batch

end Scholia
