import Mathlib.Data.List.Forall2
import Scholia.Proofs.Source.Braced.Extent
import Scholia.Proofs.Source.Braced.Reflow
/-!
# Texts with other margins are scanned alike

With other margins a text has other lexemes: fewer blanks, and comments, literals and headers with
other margins inside. `Shape.Alike` says that two shapes differ by no more than that, and then they
declare the same.

Lexemes correspond to each other except at the end of a line. There a line comment ends with its line
and takes the blanks at the end along, so it is followed to the line feed behind it.
-/

namespace Scholia.Source.Braced

open Text (Reflow Margin isLayout)
open Layout (endsLine takeWhile_line)

variable {dialect : Dialect} {s t : Text} {lexemes : List (Lexeme Kind)} {σ σ' τ : Shape}
  {declared : List Declared}

/-! ## Shapes -/

/-- Two frames, the same but for margins. -/
inductive Frame.Alike : Frame → Frame → Prop
  | same (frame : Frame) : Alike frame frame
  | inline {header header' : Option Text} (h : Option.Rel Reflow header header') (parens : Nat) :
    Alike (.inline header parens) (.inline header' parens)

/-- Two shapes, the same but for margins. -/
structure Shape.Alike (σ τ : Shape) : Prop where
  header : Option.Rel Reflow σ.header τ.header
  parens : τ.parens = σ.parens
  frames : List.Forall₂ Frame.Alike σ.frames τ.frames

theorem rel_append {header header' : Option Text} {a b : Text} (h : Option.Rel Reflow header header')
    (hab : Reflow a b) : Option.Rel Reflow (header.map (· ++ a)) (header'.map (· ++ b)) := by
  cases h with
  | none => exact .none
  | some h => exact .some (h.append hab)

theorem rel_refl (header : Option Text) : Option.Rel Reflow header header := by
  cases header with
  | none => exact .none
  | some header => exact .some (.refl header)

theorem rel_getD {header header' : Option Text} (h : Option.Rel Reflow header header') :
    Reflow (header.getD []) (header'.getD []) := by
  cases h with
  | none => exact .nil
  | some h => exact h

theorem Frame.Alike.extend {f g : Frame} (h : f.Alike g) {a b : Text} (hab : Reflow a b) :
    (f.extend a).Alike (g.extend b) := by
  cases h with
  | same f =>
    cases f with
    | inline header parens => exact .inline (rel_append (rel_refl header) hab) parens
    | package | typeDecl _ _ | routine _ _ | block => exact .same _
  | inline h parens => exact .inline (rel_append h hab) parens

theorem Frame.Alike.holdsDeclarations {f g : Frame} (h : f.Alike g) :
    g.holdsDeclarations = f.holdsDeclarations := by
  cases h with
  | same f => rfl
  | inline h parens => rfl

namespace Shape

theorem extend_nil (σ : Shape) : σ.extend [] = σ := by
  have hheader : ∀ header : Option Text, header.map (· ++ []) = header := by
    intro header
    cases header with
    | none => rfl
    | some header => exact congrArg some (List.append_nil header)
  have hframe : ∀ frame : Frame, frame.extend [] = frame := by
    intro frame
    cases frame with
    | inline header parens => exact congrArg (Frame.inline · parens) (hheader header)
    | package | typeDecl _ _ | routine _ _ | block => rfl
  have hframes : σ.frames.map (Frame.extend []) = σ.frames :=
    (List.map_congr_left fun frame _ => hframe frame).trans (List.map_id _)
  rw [extend, hheader, hframes]

theorem extend_extend (σ : Shape) (a b : Text) : (σ.extend a).extend b = σ.extend (a ++ b) := by
  have hheader : ∀ header : Option Text,
      (header.map (· ++ a)).map (· ++ b) = header.map (· ++ (a ++ b)) := by
    intro header
    cases header with
    | none => rfl
    | some header => exact congrArg some (List.append_assoc _ _ _)
  have hframe : ∀ frame : Frame, (frame.extend a).extend b = frame.extend (a ++ b) := by
    intro frame
    cases frame with
    | inline header parens => exact congrArg (Frame.inline · parens) (hheader header)
    | package | typeDecl _ _ | routine _ _ | block => rfl
  simp only [extend, hheader, List.map_map, Function.comp_def, hframe]

namespace Alike

theorem refl (σ : Shape) : σ.Alike σ :=
  ⟨rel_refl _, rfl, List.forall₂_same.2 fun f _ => .same f⟩

theorem extend (h : σ.Alike τ) {a b : Text} (hab : Reflow a b) :
    (σ.extend a).Alike (τ.extend b) where
  header := rel_append h.header hab
  parens := h.parens
  frames := List.rel_map (fun _ _ hfg => hfg.extend hab) h.frames

theorem mark (h : σ.Alike τ) : σ.mark.Alike τ.mark where
  header := .some (rel_getD h.header)
  parens := h.parens
  frames := h.frames

theorem holdsDeclarations (h : σ.Alike τ) : τ.holdsDeclarations = σ.holdsDeclarations := by
  obtain ⟨-, -, hframes⟩ := h
  unfold Shape.holdsDeclarations
  revert hframes
  generalize σ.frames = frames, τ.frames = frames'
  rintro (_ | ⟨hfg, -⟩)
  · rfl
  · exact hfg.holdsDeclarations

theorem ofHeader (h : σ.Alike τ) (dialect : Dialect) :
    Frame.ofHeader dialect (τ.header.getD []) = Frame.ofHeader dialect (σ.header.getD []) := by
  rw [Frame.ofHeader, Frame.ofHeader, ofText_reflow (rel_getD h.header)]

theorem openBrace (h : σ.Alike τ) (dialect : Dialect) :
    (σ.openBrace dialect).Alike (τ.openBrace dialect) := by
  unfold Shape.openBrace
  rw [h.parens, h.holdsDeclarations, h.ofHeader]
  split
  · exact ⟨.none, rfl, .cons (.inline h.header _) h.frames⟩
  · exact ⟨.none, rfl, .cons (.same _) h.frames⟩

theorem closeBrace? (h : σ.Alike τ) (hs : σ.closeBrace? = some (σ', declared)) :
    ∃ τ', τ.closeBrace? = some (τ', declared) ∧ σ'.Alike τ' := by
  obtain ⟨header, parens, frames⟩ := σ
  obtain ⟨header', parens', frames'⟩ := τ
  cases h.frames with
  | nil => cases hs
  | @cons f g outer outer' hfg houter =>
    cases hfg with
    | same =>
      cases f with
      | inline inner parens =>
        cases hs
        exact ⟨_, rfl, rel_refl _, rfl, houter⟩
      | package | typeDecl _ _ | routine _ _ | block =>
        cases hs
        exact ⟨_, rfl, .none, rfl, houter⟩
    | inline hinner parens =>
      cases hs
      exact ⟨_, rfl, hinner, rfl, houter⟩

theorem next (h : σ.Alike τ) {kind : Kind} (hs : σ.next dialect kind = some (σ', declared)) :
    ∃ τ', τ.next dialect kind = some (τ', declared) ∧ σ'.Alike τ' := by
  cases kind with
  | literal | code =>
    cases hs
    exact ⟨_, rfl, h.mark⟩
  | openParen =>
    cases hs
    exact ⟨_, rfl, h.mark.header, congrArg (· + 1) h.parens, h.frames⟩
  | closeParen =>
    cases hs
    exact ⟨_, rfl, h.header, congrArg (· - 1) h.parens, h.frames⟩
  | semicolon =>
    cases hs
    refine ⟨_, rfl, ?_⟩
    by_cases hp : σ.parens = 0
    · rw [if_pos hp, if_pos (h.parens.trans hp)]
      exact ⟨.none, h.parens, h.frames⟩
    · rw [if_neg hp, if_neg fun he => hp (h.parens.symm.trans he)]
      exact h
  | openBrace =>
    cases hs
    exact ⟨_, rfl, h.openBrace dialect⟩
  | closeBrace => exact h.closeBrace? hs
  | lineComment | blockComment | blank =>
    cases hs
    exact ⟨_, rfl, h⟩

/-- **A lexeme declares the same in alike shapes**. -/
theorem step (h : σ.Alike τ) {kind : Kind} {a b : Text} (hab : Reflow a b)
    (hs : σ.step dialect ⟨kind, a⟩ = some (σ', declared)) :
    ∃ τ', τ.step dialect ⟨kind, b⟩ = some (τ', declared) ∧ σ'.Alike τ' := by
  obtain ⟨⟨σ₁, d⟩, hnext, he⟩ := Option.map_eq_some_iff.1 hs
  cases he
  obtain ⟨τ₁, hnext', halike⟩ := h.next hnext
  refine ⟨τ₁.extend b, ?_, halike.extend hab⟩
  rw [Shape.step, hnext']
  rfl

end Alike

/-- Blanks, each of them a lexeme. -/
def blanks (u : Text) : List (Lexeme Kind) :=
  u.map fun c => ⟨.blank, [c]⟩

theorem run_blanks (σ : Shape) (u : Text) :
    σ.run dialect (blanks u) = some (σ.extend u, []) := by
  induction u generalizing σ with
  | nil => exact congrArg (fun σ => some (σ, [])) σ.extend_nil.symm
  | cons c u ih =>
    refine run_cons.2 ⟨σ.extend [c], [], [], rfl, ?_, rfl⟩
    rw [← blanks, ih, extend_extend]
    rfl

end Shape

/-! ## Texts -/

theorem isPlainBlank_of_isLayout {c : Char} (h : isLayout c = true) :
    Text.isPlainBlank c = true := by
  rcases Text.isLayout_iff.1 h with rfl | rfl | rfl | rfl <;> rfl

/-- Layout is divided into blanks. -/
theorem divides_layout {u : Text} (hu : ∀ c ∈ u, isLayout c = true)
    (h : (rule dialect).Divides (u ++ s) lexemes []) :
    ∃ more, lexemes = Shape.blanks u ++ more ∧ (rule dialect).Divides s more [] := by
  induction u generalizing lexemes with
  | nil => exact ⟨lexemes, rfl, h⟩
  | cons c u ih =>
    have hfront : front dialect c (u ++ s) = .found ⟨.blank, [c]⟩ (u ++ s) :=
      front_blank (isPlainBlank_of_isLayout (hu c List.mem_cons_self)) (u ++ s)
    rw [List.cons_append] at h
    cases h with
    | take found tail =>
      cases found.symm.trans hfront
      obtain ⟨more, rfl, hmore⟩ := ih (fun d hd => hu d (List.mem_cons_of_mem _ hd)) tail
      exact ⟨more, rfl, hmore⟩

theorem divides_blanks {u : Text} (hu : ∀ c ∈ u, isLayout c = true) {rest : Text}
    (h : (rule dialect).Divides s lexemes rest) :
    (rule dialect).Divides (u ++ s) (Shape.blanks u ++ lexemes) rest := by
  induction u with
  | nil => exact h
  | cons c u ih =>
    exact .take (front_blank (isPlainBlank_of_isLayout (hu c List.mem_cons_self)) _)
      (ih fun d hd => hu d (List.mem_cons_of_mem _ hd))

/-- From alike shapes a text and one with other margins lead to alike shapes. -/
def RunAlike (dialect : Dialect) (s t : Text) : Prop :=
  ∀ {lexemes : List (Lexeme Kind)} {σ τ σ' : Shape} {declared : List Declared},
    (rule dialect).Divides s lexemes [] → σ.Alike τ →
    σ.run dialect lexemes = some (σ', declared) →
    ∃ lexemes' τ', (rule dialect).Divides t lexemes' [] ∧
      τ.run dialect lexemes' = some (τ', declared) ∧ σ'.Alike τ'

/-- The gap at the end of a line: of the line `x` has been read in both texts, and the blanks behind
it in the first. -/
theorem run_lineEnd {x u v : Text} (hu : Margin u) (hv : Margin v)
    (hd : (rule dialect).Divides ('\n' :: (v ++ s)) lexemes []) (halike : σ.Alike τ)
    (hrun : (σ.extend (x ++ u)).run dialect lexemes = some (σ', declared))
    (hrest : RunAlike dialect s t) :
    ∃ lexemes' τ', (rule dialect).Divides ('\n' :: t) lexemes' [] ∧
      (τ.extend x).run dialect lexemes' = some (τ', declared) ∧ σ'.Alike τ' := by
  obtain ⟨more, rfl, hmore⟩ := divides_layout (Margin.nil.layout_gap hv) hd
  obtain ⟨σ₁, first, second, hblanks, hmoreRun, rfl⟩ := Shape.run_append.1 hrun
  rw [Shape.run_blanks] at hblanks
  cases hblanks
  have hread : ((σ.extend (x ++ u)).extend ('\n' :: v)).Alike ((τ.extend x).extend ['\n']) := by
    rw [Shape.extend_extend, Shape.extend_extend, List.append_assoc]
    refine halike.extend ((Reflow.refl x).append ?_)
    have := Reflow.gap hu hv .nil
    rwa [List.append_nil] at this
  obtain ⟨lexemes', τ', hd', hrun', halike'⟩ := hrest hmore hread hmoreRun
  refine ⟨Shape.blanks ['\n'] ++ lexemes', τ', divides_blanks Text.isLayout_newline hd', ?_, halike'⟩
  exact Shape.run_append.2 ⟨_, [], second, Shape.run_blanks _ _, hrun', rfl⟩

/-- A line comment has been read in the first text, from its slashes `'/' :: '/' :: x` to the end of
the line. -/
theorem run_lineComment {x rest t : Text} (hx : ∀ c ∈ x, c ≠ '\n') (hends : endsLine rest = true)
    (h : Reflow (x ++ rest) t) (hd : (rule dialect).Divides rest lexemes []) (halike : σ.Alike τ)
    (hrun : (σ.extend ('/' :: '/' :: x)).run dialect lexemes = some (σ', declared))
    (hrest : ∀ {s' t'}, s'.length < (x ++ rest).length → Reflow s' t' → RunAlike dialect s' t') :
    ∃ lexemes' τ', (rule dialect).Divides ('/' :: '/' :: t) lexemes' [] ∧
      τ.run dialect lexemes' = some (τ', declared) ∧ σ'.Alike τ' := by
  rcases h.line with ⟨rfl, hn⟩ | ⟨x', u, v, s', t', hx', hu, hv, hs, rfl, htail⟩
  · have hnil : rest = [] := by
      cases rest with
      | nil => rfl
      | cons c r => exact absurd (by simp [eq_of_beq hends]) hn
    subst hnil
    cases hd
    cases hrun
    rw [List.append_nil]
    have hfront : front dialect '/' ('/' :: (x ++ [])) = .found ⟨.lineComment, '/' :: '/' :: x⟩ [] :=
      front_lineComment hx rfl
    rw [List.append_nil] at hfront
    refine ⟨_, _, .take hfront (.stop []), ?_, halike.extend (.refl _)⟩
    exact Shape.run_cons.2 ⟨_, [], [], rfl, rfl, rfl⟩
  · have hxu : ∀ c ∈ x' ++ u, c ≠ '\n' := by
      intro c hc he
      rcases List.mem_append.1 hc with hc | hc
      · exact hx' (he ▸ hc)
      · exact hu.not_newline (he ▸ hc)
    obtain ⟨hxeq, hresteq⟩ := takeWhile_line hx hends
    have hends' : endsLine ('\n' :: (v ++ s')) = true := rfl
    obtain ⟨hxeq', hresteq'⟩ := takeWhile_line hxu hends'
    rw [hs, ← List.append_assoc] at hxeq hresteq
    have hsame : x = x' ++ u := hxeq.symm.trans hxeq'
    have hsame' : rest = '\n' :: (v ++ s') := hresteq.symm.trans hresteq'
    subst hsame hsame'
    have hlt : s'.length < (x' ++ u ++ '\n' :: (v ++ s')).length := by
      simp only [List.length_append, List.length_cons]
      omega
    obtain ⟨lexemes', τ', hd', hrun', hlast⟩ :=
      run_lineEnd (x := '/' :: '/' :: x') hu hv hd halike hrun (hrest hlt htail)
    have hfront : front dialect '/' ('/' :: (x' ++ '\n' :: t')) =
        .found ⟨.lineComment, '/' :: '/' :: x'⟩ ('\n' :: t') :=
      front_lineComment (fun c hc he => hx' (he ▸ hc)) rfl
    refine ⟨_, τ', .take hfront hd', ?_, hlast⟩
    exact Shape.run_cons.2 ⟨_, [], declared, rfl, hrun', rfl⟩

/-- **Texts with other margins declare the same**. -/
theorem runAlike_of_reflow (h : Reflow s t) : RunAlike dialect s t := by
  induction hn : s.length using Nat.strongRecOn generalizing s t with
  | ind n ih =>
    intro lexemes σ τ σ' declared hd halike hrun
    cases h with
    | nil =>
      cases hd
      cases hrun
      exact ⟨[], τ, .stop [], rfl, halike⟩
    | @gap u v s t hu hv h =>
      have hlength : s.length < n := by
        simp only [List.length_append, List.length_cons] at hn
        omega
      obtain ⟨more, rfl, hmore⟩ := divides_layout hu.layout hd
      obtain ⟨σ₁, first, second, hblanks, hmoreRun, rfl⟩ := Shape.run_append.1 hrun
      rw [Shape.run_blanks] at hblanks
      cases hblanks
      have := run_lineEnd (x := []) hu hv hmore halike hmoreRun (ih s.length hlength h rfl)
      rwa [Shape.extend_nil] at this
    | @keep c s t h =>
      rw [List.length_cons] at hn
      cases hd with
      | @take _ _ lexeme rest more _ found hmore =>
        have hshorter := (rule dialect).rest_shorter found
        rw [List.length_cons] at hshorter
        obtain ⟨σ₁, first, second, hstep, hmoreRun, rfl⟩ := Shape.run_cons.1 hrun
        by_cases hk : lexeme.kind = .lineComment
        · obtain ⟨x, rfl, rfl, hx, hends⟩ := lineComment_of_front found hk
          cases hstep
          have htext : s = '/' :: (x ++ rest) :=
            (List.cons.inj ((rule dialect).keeps _ _ _ _ found)).2.symm
          subst htext
          obtain ⟨t', rfl, hline⟩ := h.of_code (by decide)
          exact run_lineComment hx hends hline hmore halike hmoreRun fun hlt htail =>
            ih _ (by rw [List.length_cons] at hn; omega) htail rfl
        · obtain ⟨text, rest', hfound, htext, hrest⟩ := front_reflow h found hk
          obtain ⟨τ₁, hstep', halike'⟩ := halike.step htext hstep
          obtain ⟨lexemes', τ', hd', hrun', hlast⟩ :=
            ih rest.length (by omega) hrest rfl hmore halike' hmoreRun
          exact ⟨_, τ', .take hfound hd', Shape.run_cons.2 ⟨τ₁, first, second, hstep', hrun', rfl⟩,
            hlast⟩

end Scholia.Source.Braced
