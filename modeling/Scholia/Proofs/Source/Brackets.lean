import Scholia.Proofs.Evaluation
import Scholia.Proofs.Source.Braced.Balance
import Scholia.Proofs.Source.Indented.LineLoss
import Scholia.Proofs.Text.Brackets
/-!
# Brackets of source texts

What the scanners ask of the brackets outside literals and comments. The scanner of the indented
language asks all of them to be paired, those of the brace languages the braces alone, and none looks
at the shapes. So an accepted text may hold brackets that are not properly nested
(`outline_not_nested`), and `outline_brackets` tells what is missing.

Each scanner keeps what is open on a stack, and a lexeme does to it what its brackets do; so a text
is refused for a bracket exactly if its brackets are not paired.
-/

namespace Scholia.Source

open Text (Bracket BracketShape IsNested IsPaired ShapesAgree pairOff)

/-! ## Scanners with a stack -/

section

variable {κ σ α : Type} {language : Language} {rule : Rule κ}
  {step : σ → Nat → Lexeme κ → Except Fault σ} {finish : σ → Except Fault α}
  {stack : σ → List BracketShape} {brackets : Lexeme κ → List Bracket}
  {lexemes : List (Lexeme κ)} {source : Text} {initial s : σ} {offset : Nat}

/-- A text is refused for a bracket. -/
def Unbalanced (language : Language) (answer : Except Fault α) : Prop :=
  ∃ token offset, answer = .error (.unbalanced language token offset)

/-- The shapes that are open behind some brackets, whatever shapes close. -/
abbrev pairAny : List BracketShape → List Bracket → Option (List BracketShape) :=
  pairOff fun _ _ => true

/-- A scanner keeps the open brackets on a stack. It refuses a lexeme that closes where nothing is
open, and a text that ends where something is. -/
structure KeepsStack (language : Language) (rule : Rule κ) (step : σ → Nat → Lexeme κ → Except Fault σ)
    (finish : σ → Except Fault α) (stack : σ → List BracketShape)
    (brackets : Lexeme κ → List Bracket) : Prop where
  takes : ∀ s offset lexeme shapes, rule.Finds lexeme →
    pairAny (stack s) (brackets lexeme) = some shapes →
      ∃ s', step s offset lexeme = .ok s' ∧ stack s' = shapes
  refuses : ∀ s offset lexeme, rule.Finds lexeme → pairAny (stack s) (brackets lexeme) = none →
    Unbalanced language (step s offset lexeme)
  ends : ∀ s, stack s = [] → ∃ a, finish s = .ok a
  leaves : ∀ s, stack s ≠ [] → Unbalanced language (finish s)

/-- A scanner over a whole text. -/
def Rule.scan (rule : Rule κ) (language : Language) (step : σ → Nat → Lexeme κ → Except Fault σ)
    (initial : σ) (finish : σ → Except Fault α) (source : Text) : Except Fault α := do
  finish (← (rule.lex source).run language step initial)

namespace KeepsStack

theorem run (h : KeepsStack language rule step finish stack brackets)
    (hl : ∀ l ∈ lexemes, rule.Finds l) (s : σ) (offset : Nat) :
    (∀ shapes, pairAny (stack s) (lexemes.flatMap brackets) = some shapes →
        ∃ s', runLexemes step offset s lexemes = .ok s' ∧ stack s' = shapes) ∧
      (pairAny (stack s) (lexemes.flatMap brackets) = none →
        Unbalanced language (runLexemes step offset s lexemes)) := by
  induction lexemes generalizing s offset with
  | nil =>
    refine ⟨fun shapes hs => ⟨s, rfl, Option.some.inj hs⟩, fun hs => by cases hs⟩
  | cons l ls ih =>
    obtain ⟨hfirst, hrest⟩ := List.forall_mem_cons.1 hl
    have hsplit : pairAny (stack s) ((l :: ls).flatMap brackets) =
        (pairAny (stack s) (brackets l)).bind (pairAny · (ls.flatMap brackets)) :=
      Text.pairOff_append _ _
    rw [hsplit, runLexemes]
    cases hp : pairAny (stack s) (brackets l) with
    | none =>
      obtain ⟨token, byte, herror⟩ := h.refuses s offset l hfirst hp
      rw [herror]
      exact ⟨(fun shapes hs => by cases hs), fun _ => ⟨token, byte, rfl⟩⟩
    | some shapes =>
      obtain ⟨s', hs', rfl⟩ := h.takes s offset l shapes hfirst hp
      rw [hs']
      exact ih hrest s' _

/-- **A text is refused for a bracket if its brackets are not paired**, and else it is read to its
end. -/
theorem scan (h : KeepsStack language rule step finish stack brackets) (hinitial : stack initial = [])
    (hopen : (rule.lex source).open? = none) :
    (IsPaired ((rule.lex source).lexemes.flatMap brackets) →
        ∃ a, rule.scan language step initial finish source = .ok a) ∧
      (¬ IsPaired ((rule.lex source).lexemes.flatMap brackets) →
        Unbalanced language (rule.scan language step initial finish source)) := by
  have hfinds : ∀ l ∈ (rule.lex source).lexemes, rule.Finds l := by
    obtain ⟨rest, hd, -⟩ := rule.lexFrom_divides 0 source
    exact fun l hl => hd.found_of_mem hl
  obtain ⟨hok, hnone⟩ := h.run hfinds initial 0
  rw [hinitial] at hok hnone
  have hrun : rule.scan language step initial finish source =
      runLexemes step 0 initial (rule.lex source).lexemes >>= finish := by
    rw [Rule.scan, Lexing.run, hopen, bind_assoc]
    rfl
  rw [hrun, IsPaired, Text.nested_iff_pairOff]
  cases hp : pairAny [] ((rule.lex source).lexemes.flatMap brackets) with
  | none =>
    obtain ⟨token, byte, herror⟩ := hnone hp
    rw [herror]
    exact ⟨(fun he => by cases hp.symm.trans he), fun _ => ⟨token, byte, rfl⟩⟩
  | some shapes =>
    obtain ⟨s', hs', rfl⟩ := hok shapes hp
    rw [hs']
    refine ⟨fun he => h.ends s' (Option.some.inj (hp.symm.trans he)), fun hne => h.leaves s' ?_⟩
    exact fun hnil => hne (hp.trans (congrArg some hnil))

/-- A text that is read to its end is divided to its end. -/
theorem open?_eq_none {a : α} (h : rule.scan language step initial finish source = .ok a) :
    (rule.lex source).open? = none := by
  obtain ⟨s, hs, -⟩ := bind_eq_ok.1 h
  obtain ⟨t, -, ht⟩ := bind_eq_ok.1 hs
  split at ht
  · cases ht
  · assumption

end KeepsStack

end

/-! ## The brace languages -/

namespace Braced

variable {dialect : Dialect}

/-- The brackets of a lexeme that is no literal or comment. -/
def bracketsOf (lexeme : Lexeme Kind) : List Bracket :=
  match lexeme.kind with
  | .literal => []
  | .lineComment => []
  | .blockComment => []
  | _ => Text.brackets lexeme.text

/-- The braces of a lexeme that is no literal or comment. -/
def bracesOf (lexeme : Lexeme Kind) : List Bracket :=
  (bracketsOf lexeme).filter (·.shape = .curly)

/-- Braces are lexemes of their own. -/
theorem bracesOf_found {lexeme : Lexeme Kind} (h : (rule dialect).Finds lexeme) :
    bracesOf lexeme = match lexeme.kind with
      | .openBrace => [⟨.curly, true⟩]
      | .closeBrace => [⟨.curly, false⟩]
      | _ => [] := by
  obtain ⟨c, r, rest, hf⟩ := h
  rcases front_cases hf with hk | ⟨rfl, -⟩
  · unfold bracesOf bracketsOf
    rcases hk with hk | hk | hk <;> rw [hk] <;> rfl
  · by_cases hopen : c = '{'
    · rw [hopen]
      rfl
    by_cases hclose : c = '\x7d'
    · rw [hclose]
      rfl
    have hnone : bracesOf ⟨Kind.ofChar c, [c]⟩ = [] := by
      unfold bracesOf bracketsOf
      split
      all_goals try rfl
      refine List.filter_eq_nil_iff.2 fun b hb hcurly => ?_
      obtain ⟨d, hd, hc⟩ := List.mem_filterMap.1 hb
      obtain rfl := List.mem_singleton.1 hd
      obtain ⟨shape, opens⟩ := b
      obtain rfl : shape = .curly := of_decide_eq_true hcurly
      have hchar := Bracket.ofChar?_eq_some_iff.1 hc
      cases opens
      · exact hclose hchar
      · exact hopen hchar
    have hk : Kind.ofChar c ≠ .openBrace := fun hk => hopen (eq_of_ofChar_openBrace hk)
    have hk' : Kind.ofChar c ≠ .closeBrace := fun hk => hclose (eq_of_ofChar_closeBrace hk)
    rw [hnone]
    cases hkind : Kind.ofChar c <;> simp_all

theorem keepsStack (dialect : Dialect) (source : Text) :
    KeepsStack dialect.language (rule dialect) (State.step dialect source) (State.finish dialect)
      (fun s => s.braces.map fun _ => .curly) bracesOf where
  takes s offset lexeme shapes hl hshapes := by
    rw [bracesOf_found hl] at hshapes
    by_cases hclose : lexeme.kind = .closeBrace
    · simp only [hclose] at hshapes
      cases hb : s.braces with
      | nil =>
        rw [hb] at hshapes
        cases hshapes
      | cons b outer =>
        rw [hb] at hshapes
        cases hshapes
        obtain ⟨s', hs'⟩ : ∃ s', s.step dialect source offset lexeme = .ok s' :=
          State.exists_step fun _ => by rw [hb]; exact List.cons_ne_nil _ _
        obtain ⟨b', hb', -⟩ := State.step_closeBrace hs' hclose
        rw [hb] at hb'
        exact ⟨s', hs', by rw [(List.cons.inj hb').2]⟩
    · obtain ⟨s', hs'⟩ : ∃ s', s.step dialect source offset lexeme = .ok s' :=
        State.exists_step fun hk => absurd hk hclose
      refine ⟨s', hs', ?_⟩
      by_cases hopen : lexeme.kind = .openBrace
      · simp only [hopen] at hshapes
        cases hshapes
        obtain ⟨b, hb, -⟩ := State.step_openBrace hs' hopen
        rw [hb]
        rfl
      · have hplain : lexeme.kind.isBrace = false := by
          cases hk : lexeme.kind <;> simp_all [Kind.isBrace]
        rw [(State.step_frame hs' hplain).1]
        cases hk : lexeme.kind <;> simp_all [pairAny, pairOff]
  refuses s offset lexeme hl hnone := by
    rw [bracesOf_found hl] at hnone
    cases hk : lexeme.kind with
    | closeBrace =>
      simp only [hk] at hnone
      cases hb : s.braces with
      | nil => exact ⟨'\x7d', offset, by simp only [State.step, hk, State.closeBrace?, hb]⟩
      | cons b outer =>
        rw [hb] at hnone
        cases hnone
    | literal | code | openParen | closeParen | semicolon | openBrace | lineComment | blockComment
      | blank =>
      simp only [hk] at hnone
      cases hnone
  ends s hnil := by
    have hb : s.braces = [] := List.map_eq_nil_iff.1 hnil
    exact ⟨_, by rw [State.finish, hb]⟩
  leaves s hne := by
    obtain ⟨b, outer, hb⟩ := List.exists_cons_of_ne_nil fun hb => hne (List.map_eq_nil_iff.2 hb)
    exact ⟨_, _, by rw [State.finish, hb]⟩

end Braced

/-! ## The indented language -/

namespace Indented

/-- The brackets of a lexeme that is no literal, comment or line continuation. -/
def bracketsOf (lexeme : Lexeme Kind) : List Bracket :=
  match lexeme.kind with
  | .string => []
  | .comment => []
  | .continuation => []
  | _ => Text.brackets lexeme.text

def shapeOf (c : Char) : BracketShape :=
  ((Bracket.ofChar? c).map Bracket.shape).getD .round

/-- Brackets are lexemes of their own. -/
theorem bracketsOf_found {lexeme : Lexeme Kind} (h : rule.Finds lexeme) :
    bracketsOf lexeme = match lexeme.kind with
      | .opener c => [⟨shapeOf c, true⟩]
      | .closer c => [⟨shapeOf c, false⟩]
      | _ => [] := by
  obtain ⟨c, r, rest, hf⟩ := h
  rcases front_cases hf with hk | ⟨rfl, -⟩
  · unfold bracketsOf
    rcases hk with hk | hk | hk <;> rw [hk]
  cases hb : Bracket.ofChar? c with
  | some b =>
    obtain ⟨shape, opens⟩ := b
    obtain rfl := Bracket.ofChar?_eq_some_iff.1 hb
    cases shape <;> cases opens <;> rfl
  | none =>
    have hnone : bracketsOf ⟨Kind.ofChar c, [c]⟩ = [] := by
      unfold bracketsOf
      split
      all_goals try rfl
      simp [Text.brackets, hb]
    have hother : ∀ b : Bracket, c ≠ b.char := fun b hc => by
      rw [Bracket.ofChar?_eq_some_iff.2 hc] at hb
      cases hb
    have hround := hother ⟨.round, true⟩
    have hround' := hother ⟨.round, false⟩
    have hsquare := hother ⟨.square, true⟩
    have hsquare' := hother ⟨.square, false⟩
    have hcurly := hother ⟨.curly, true⟩
    have hcurly' := hother ⟨.curly, false⟩
    simp only [Bracket.char] at hround hround' hsquare hsquare' hcurly hcurly'
    rw [hnone]
    have hplain : Kind.ofChar c = .newline ∨ Kind.ofChar c = .colon ∨ Kind.ofChar c = .blank ∨
        Kind.ofChar c = .code c := by
      unfold Kind.ofChar
      split
      · exact .inl rfl
      rw [if_neg (by simp_all), if_neg (by simp_all)]
      split
      · exact .inr (.inl rfl)
      split
      · exact .inr (.inr (.inl rfl))
      · exact .inr (.inr (.inr rfl))
    rcases hplain with hk | hk | hk | hk <;> rw [hk]

/-- The shapes that are open in a line. -/
def OpenLine.shapes (line : OpenLine) : List BracketShape :=
  line.brackets.map fun bracket => shapeOf bracket.1

/-- The shapes that are open in the line that has begun. -/
def LineState.shapes (s : LineState) : List BracketShape :=
  (s.line.map OpenLine.shapes).getD []

/-- A lexeme does to the open brackets of a line what its brackets do. -/
theorem OpenLine.add_pairs {lexeme : Lexeme Kind} (hl : rule.Finds lexeme) (line : OpenLine)
    (offset : Nat) :
    (∀ shapes, pairAny line.shapes (bracketsOf lexeme) = some shapes →
        ∃ line', line.add offset lexeme = .ok line' ∧ line'.shapes = shapes) ∧
      (pairAny line.shapes (bracketsOf lexeme) = none →
        Unbalanced .python (line.add offset lexeme)) := by
  rw [bracketsOf_found hl]
  unfold OpenLine.add
  cases hk : lexeme.kind with
  | newline | continuation | comment | blank | string | colon | code =>
    exact ⟨fun shapes hs => ⟨_, rfl, Option.some.inj hs⟩, fun hs => by cases hs⟩
  | opener c =>
    refine ⟨fun shapes hs => ⟨_, rfl, Option.some.inj hs⟩, fun hs => by cases hs⟩
  | closer c =>
    cases hb : line.brackets with
    | nil =>
      rw [OpenLine.shapes, hb]
      exact ⟨(fun shapes hs => by cases hs), fun _ => ⟨c, offset, rfl⟩⟩
    | cons bracket outer =>
      rw [OpenLine.shapes, hb]
      exact ⟨fun shapes hs => ⟨_, rfl, Option.some.inj hs⟩, fun hs => by cases hs⟩

theorem step_pairs {lexeme : Lexeme Kind} (hl : rule.Finds lexeme) (s : LineState) (offset : Nat) :
    (∀ shapes, pairAny s.shapes (bracketsOf lexeme) = some shapes →
        ∃ s', s.step offset lexeme = .ok s' ∧ s'.shapes = shapes) ∧
      (pairAny s.shapes (bracketsOf lexeme) = none → Unbalanced .python (s.step offset lexeme)) := by
  have hquiet (hk : lexeme.kind = .newline ∨ lexeme.kind = .comment ∨ lexeme.kind = .blank) :
      bracketsOf lexeme = [] := by
    rw [bracketsOf_found hl]
    rcases hk with hk | hk | hk <;> rw [hk]
  -- a lexeme that is added to a line, which may begin with it
  have hadded {line : OpenLine} (hshapes : s.shapes = line.shapes)
      (hstep : s.step offset lexeme = line.add offset lexeme >>= fun line =>
        .ok { s with line := some line }) :
      (∀ shapes, pairAny s.shapes (bracketsOf lexeme) = some shapes →
          ∃ s', s.step offset lexeme = .ok s' ∧ s'.shapes = shapes) ∧
        (pairAny s.shapes (bracketsOf lexeme) = none →
          Unbalanced .python (s.step offset lexeme)) := by
    obtain ⟨hok, hnone⟩ := line.add_pairs hl offset
    rw [hshapes, hstep]
    refine ⟨fun shapes hs => ?_, fun hs => ?_⟩
    · obtain ⟨line', hadd, rfl⟩ := hok shapes hs
      rw [hadd]
      exact ⟨_, rfl, rfl⟩
    · obtain ⟨token, byte, hadd⟩ := hnone hs
      rw [hadd]
      exact ⟨token, byte, rfl⟩
  cases hline : s.line with
  | none =>
    have hempty : s.shapes = [] := by rw [LineState.shapes, hline]; rfl
    by_cases hk : lexeme.kind = .newline ∨ lexeme.kind = .comment ∨ lexeme.kind = .blank
    · rw [hquiet hk, hempty]
      refine ⟨fun shapes hs => ?_, fun hs => by cases hs⟩
      cases hs
      unfold LineState.step
      rw [hline]
      rcases hk with hk | hk | hk <;> rw [hk] <;> exact ⟨_, rfl, by rw [LineState.shapes]; rfl⟩
    · rw [not_or, not_or] at hk
      exact @hadded (.begin offset s.indent) hempty
        (LineState.step_begin hline hk.1 hk.2.1 hk.2.2)
  | some line =>
    have hshapes : s.shapes = line.shapes := by rw [LineState.shapes, hline]; rfl
    by_cases hend : lexeme.kind = .newline ∧ line.brackets.isEmpty = true
    · rw [hquiet (.inl hend.1), hshapes, OpenLine.shapes, List.isEmpty_iff.1 hend.2,
        LineState.step_end hline hend.1 hend.2]
      exact ⟨fun shapes hs => ⟨_, rfl, Option.some.inj hs⟩, fun hs => by cases hs⟩
    · refine hadded hshapes (LineState.step_more hline fun hk => ?_)
      exact Bool.eq_false_iff.2 fun he => hend ⟨hk, he⟩

theorem keepsStack : KeepsStack .python rule LineState.step LineState.finish LineState.shapes
    bracketsOf where
  takes s offset lexeme shapes hl hshapes := (step_pairs hl s offset).1 shapes hshapes
  refuses s offset lexeme hl hnone := (step_pairs hl s offset).2 hnone
  ends s hnil := by
    unfold LineState.finish
    cases hline : s.line with
    | none => exact ⟨_, rfl⟩
    | some line =>
      rw [LineState.shapes, hline] at hnil
      have hb : line.brackets = [] := List.map_eq_nil_iff.1 hnil
      simp only [hb]
      exact ⟨_, rfl⟩
  leaves s hne := by
    unfold LineState.finish
    cases hline : s.line with
    | none =>
      rw [LineState.shapes, hline] at hne
      exact absurd rfl hne
    | some line =>
      rw [LineState.shapes, hline] at hne
      obtain ⟨⟨c, at'⟩, outer, hb⟩ := List.exists_cons_of_ne_nil fun hb =>
        hne (List.map_eq_nil_iff.2 hb)
      exact ⟨c, at', by simp only [hb]⟩

/-- Blocks are not refused for a bracket. -/
theorem not_unbalanced_blockNodes (source : Text) (lines : List LogicalLine) :
    ¬ Unbalanced .python (blockNodes source lines) := by
  have hstep : ∀ s line, ¬ Unbalanced .python (BlockState.step source s line) := by
    rintro s line ⟨token, byte, herror⟩
    simp only [BlockState.step] at herror
    split at herror
    · cases herror
    split at herror
    · cases herror
    split at herror
    · cases herror
    · cases herror
  have hfold : ∀ s, ¬ Unbalanced .python (lines.foldlM (BlockState.step source) s) := by
    induction lines with
    | nil =>
      rintro s ⟨token, byte, herror⟩
      cases herror
    | cons line rest ih =>
      rintro s ⟨token, byte, herror⟩
      rw [List.foldlM_cons] at herror
      rcases bind_eq_error.1 herror with herror | ⟨t, -, herror⟩
      · exact hstep s line ⟨token, byte, herror⟩
      · exact ih t ⟨token, byte, herror⟩
  rintro ⟨token, byte, herror⟩
  rcases bind_eq_error.1 herror with herror | ⟨s, -, herror⟩
  · exact hfold _ ⟨token, byte, herror⟩
  · cases herror

/-- **The indented language asks for brackets in pairs**. -/
theorem unbalanced_iff {source : Text} (hopen : (rule.lex source).open? = none) :
    Unbalanced .python (outline source) ↔
      ¬ IsPaired ((rule.lex source).lexemes.flatMap bracketsOf) := by
  have hinitial : LineState.shapes .initial = [] := rfl
  obtain ⟨hok, hrefused⟩ := keepsStack.scan hinitial hopen
  constructor
  · rintro ⟨token, byte, herror⟩ hpaired
    obtain ⟨lines, hlines⟩ := hok hpaired
    rcases bind_eq_error.1 herror with herror | ⟨lines, -, herror⟩
    · cases hlines.symm.trans herror
    · rcases bind_eq_error.1 herror with herror | ⟨nodes, -, herror⟩
      · exact not_unbalanced_blockNodes source lines ⟨token, byte, herror⟩
      · cases herror
  · intro hno
    obtain ⟨token, byte, herror⟩ := hrefused hno
    exact ⟨token, byte, bind_eq_error.2 (.inl herror)⟩

end Indented

namespace Braced

variable {dialect : Dialect} {source : Text}

theorem outline_eq_scan (dialect : Dialect) (source : Text) : outline dialect source =
    (rule dialect).scan dialect.language (State.step dialect source) .initial
      (State.finish dialect) source >>= fun nodes => .ok (.ofNodes source nodes) := by
  rw [Rule.scan, bind_assoc]
  rfl

/-- **A brace language asks for braces in pairs**, and for nothing else. -/
theorem unbalanced_iff (hopen : ((rule dialect).lex source).open? = none) :
    (Unbalanced dialect.language (outline dialect source) ↔
        ¬ IsPaired (((rule dialect).lex source).lexemes.flatMap bracesOf)) ∧
      (IsPaired (((rule dialect).lex source).lexemes.flatMap bracesOf) →
        ∃ o, outline dialect source = .ok o) := by
  have hinitial : State.initial.braces.map (fun _ => BracketShape.curly) = [] := rfl
  obtain ⟨hok, hrefused⟩ := (keepsStack dialect source).scan hinitial hopen
  rw [outline_eq_scan]
  refine ⟨⟨?_, fun hno => ?_⟩, fun hpaired => ?_⟩
  · rintro ⟨token, byte, herror⟩ hpaired
    obtain ⟨nodes, hnodes⟩ := hok hpaired
    rw [hnodes] at herror
    cases herror
  · obtain ⟨token, byte, herror⟩ := hrefused hno
    exact ⟨token, byte, bind_eq_error.2 (.inl herror)⟩
  · obtain ⟨nodes, hnodes⟩ := hok hpaired
    exact ⟨_, bind_eq_ok.2 ⟨nodes, hnodes, rfl⟩⟩

end Braced

/-! ## Sources -/

/-- The brackets of a text outside its literals and comments, if each of these ends. In the indented
language a line continuation counts as a comment. -/
def bracketsIn? : Language → Text → Option (List Bracket)
  | .python, source =>
    let lexing := Indented.rule.lex source
    if lexing.open? = none then some (lexing.lexemes.flatMap Indented.bracketsOf) else none
  | .java, source =>
    let lexing := (Braced.rule .java).lex source
    if lexing.open? = none then some (lexing.lexemes.flatMap Braced.bracketsOf) else none
  | .cSharp, source =>
    let lexing := (Braced.rule .cSharp).lex source
    if lexing.open? = none then some (lexing.lexemes.flatMap Braced.bracketsOf) else none
  | .visualBasic, _ => none

theorem bracketsIn?_dialect (dialect : Braced.Dialect) (source : Text) :
    bracketsIn? dialect.language source =
      if ((Braced.rule dialect).lex source).open? = none then
        some (((Braced.rule dialect).lex source).lexemes.flatMap Braced.bracketsOf) else none := by
  cases dialect <;> rfl

/-- Those that are braces. -/
def braces (bs : List Bracket) : List Bracket :=
  bs.filter (·.shape = .curly)

/-- Braces are properly nested if they are paired. -/
theorem isNested_braces {bs : List Bracket} : IsNested (braces bs) ↔ IsPaired (braces bs) := by
  refine ⟨IsNested.isPaired, fun h => Text.isNested_iff.2 ⟨h, ?_⟩⟩
  have hcurly : ∀ b ∈ braces bs, b.shape = .curly := fun b hb =>
    of_decide_eq_true (List.mem_filter.1 hb).2
  intro before k inner k' after he _
  exact (hcurly ⟨k, true⟩ (by simp [he])).trans (hcurly ⟨k', false⟩ (by simp [he])).symm

theorem braces_flatMap (lexemes : List (Lexeme Braced.Kind)) :
    braces (lexemes.flatMap Braced.bracketsOf) = lexemes.flatMap Braced.bracesOf :=
  List.filter_flatMap

/-- The brackets that are no braces. -/
def listed (bs : List Bracket) : List Bracket :=
  bs.filter (·.shape ≠ .curly)

/-- **What nested braces miss of nested brackets**: that the others come in pairs too, and that the
shapes of each pair agree. -/
theorem isNested_iff_of_braces {bs : List Bracket} (h : IsNested (braces bs)) :
    IsNested bs ↔ IsPaired (listed bs) ∧ ShapesAgree bs := by
  constructor
  · intro hnested
    exact ⟨(hnested.filter (· ≠ .curly)).isPaired, (Text.isNested_iff.1 hnested).2⟩
  · rintro ⟨hlisted, hagree⟩
    have hothers : listed bs = bs.filter fun b => !decide (b.shape = .curly) :=
      List.filter_congr fun b _ => decide_not
    exact Text.isNested_iff.2 ⟨.of_filter h.isPaired (hothers ▸ hlisted), hagree⟩

/-- **What the scanners ask of brackets**. In an accepted text of the indented language the brackets
are paired, so they are properly nested exactly if the shapes of each pair agree; and a text is refused
for a bracket exactly if they are not paired. In an accepted text of a brace language the braces are
properly nested, so all brackets are exactly if the others are paired too and the shapes of each pair
agree; and a text whose literals and comments end is refused for a brace, or accepted, as its braces
are. -/
theorem outline_brackets (source : Text) :
    ((∀ o, Language.python.outline source = .ok o →
        ∃ bs, bracketsIn? .python source = some bs ∧ IsPaired bs ∧
          (IsNested bs ↔ ShapesAgree bs)) ∧
      ∀ bs, bracketsIn? .python source = some bs →
        (Unbalanced .python (Language.python.outline source) ↔ ¬ IsPaired bs)) ∧
    ∀ dialect : Braced.Dialect,
      (∀ o, dialect.language.outline source = .ok o →
        ∃ bs, bracketsIn? dialect.language source = some bs ∧ IsNested (braces bs) ∧
          (IsNested bs ↔ IsPaired (listed bs) ∧ ShapesAgree bs)) ∧
      ∀ bs, bracketsIn? dialect.language source = some bs →
        (Unbalanced dialect.language (dialect.language.outline source) ↔
            ¬ IsNested (braces bs)) ∧
          ((∃ o, dialect.language.outline source = .ok o) ↔ IsNested (braces bs)) := by
  refine ⟨⟨fun o ho => ?_, fun bs hbs => ?_⟩, fun dialect => ⟨fun o ho => ?_, fun bs hbs => ?_⟩⟩
  · have ho : Indented.outline source = .ok o := ho
    obtain ⟨lines, hlines, -⟩ := bind_eq_ok.1 ho
    have hopen := KeepsStack.open?_eq_none hlines
    have hpaired : IsPaired ((Indented.rule.lex source).lexemes.flatMap Indented.bracketsOf) := by
      refine Decidable.byContradiction fun hno => ?_
      obtain ⟨token, byte, herror⟩ := (Indented.unbalanced_iff hopen).2 hno
      cases ho.symm.trans herror
    refine ⟨_, if_pos hopen, hpaired, ?_⟩
    rw [Text.isNested_iff, and_iff_right hpaired]
  · obtain ⟨hopen, ⟨⟩⟩ := Option.ite_none_right_eq_some.1 hbs
    exact Indented.unbalanced_iff hopen
  · rw [Language.outline_dialect] at ho
    obtain ⟨nodes, hnodes, -⟩ := bind_eq_ok.1 ((Braced.outline_eq_scan dialect source).symm.trans ho)
    have hopen := KeepsStack.open?_eq_none hnodes
    have hbraces : IsNested (braces
        (((Braced.rule dialect).lex source).lexemes.flatMap Braced.bracketsOf)) := by
      rw [isNested_braces, braces_flatMap]
      refine Decidable.byContradiction fun hno => ?_
      obtain ⟨token, byte, herror⟩ := (Braced.unbalanced_iff hopen).1.2 hno
      cases ho.symm.trans herror
    refine ⟨_, (bracketsIn?_dialect dialect source).trans (if_pos hopen), hbraces, ?_⟩
    exact isNested_iff_of_braces hbraces
  · rw [bracketsIn?_dialect] at hbs
    obtain ⟨hopen, ⟨⟩⟩ := Option.ite_none_right_eq_some.1 hbs
    obtain ⟨hrefused, hok⟩ := Braced.unbalanced_iff hopen
    rw [Language.outline_dialect, isNested_braces, braces_flatMap]
    refine ⟨hrefused, fun ⟨o, ho⟩ => ?_, hok⟩
    refine Decidable.byContradiction fun hno => ?_
    obtain ⟨token, byte, herror⟩ := hrefused.2 hno
    cases ho.symm.trans herror

/-- A method in which a parenthesis is left open. -/
def openParenText : Text :=
  "class A \x7b void f() \x7b g(; \x7d \x7d".toList

def openParenBrackets : List Bracket :=
  "\x7b()\x7b(\x7d\x7d".toList.filterMap Bracket.ofChar?

theorem bracketsIn?_openParenText :
    bracketsIn? .java openParenText = some openParenBrackets := by
  show bracketsIn? Braced.Dialect.java.language openParenText = _
  rw [bracketsIn?_dialect, Rule.lex_eq_lexWithin]
  rfl

/-- The braces of `openParenText` are nested, and so are the brackets of a call. -/
theorem outline_brackets_openParenText :
    (∃ o, Language.java.outline openParenText = .ok o) ∧
      ∃ o bs, Language.python.outline "f(a[0])\n".toList = .ok o ∧
        bracketsIn? .python "f(a[0])\n".toList = some bs ∧ IsPaired bs := by
  refine ⟨(((outline_brackets openParenText).2 .java).2 _ bracketsIn?_openParenText).2.2 (by decide),
    ?_⟩
  have hplaces : Language.places .python "f(a[0])\n".toList = .ok [] := by decide +kernel
  have ho : Language.python.outline "f(a[0])\n".toList = .ok (.ofNodes "f(a[0])\n".toList []) := by
    rw [Language.outline_eq, hplaces]
    rfl
  obtain ⟨bs, hbs, hpaired, -⟩ := (outline_brackets _).1.1 _ ho
  exact ⟨_, bs, ho, hbs, hpaired⟩

/-- Texts are accepted whose brackets are not properly nested: `openParenText`, in which one is left
open, and a line in which one is closed by one of another shape. -/
theorem outline_not_nested :
    ((∃ o, Language.java.outline openParenText = .ok o) ∧
      ∃ bs, bracketsIn? .java openParenText = some bs ∧ ¬ IsNested bs) ∧
    (∃ o, Language.python.outline "x = (1]\n".toList = .ok o) ∧
      ∃ bs, bracketsIn? .python "x = (1]\n".toList = some bs ∧ ¬ IsNested bs := by
  have hjava : Language.places .java openParenText =
      .ok [.routine "f".toList "void f()".toList ⟨10, 26⟩ 19,
        .typeDecl "A".toList "class A".toList ⟨0, 28⟩] := by
    decide +kernel
  have hpython : Language.places .python "x = (1]\n".toList = .ok [] := by decide +kernel
  have hline : bracketsIn? .python "x = (1]\n".toList =
      some ("(]".toList.filterMap Bracket.ofChar?) := by
    simp only [bracketsIn?, Rule.lex_eq_lexWithin]
    decide +kernel
  refine ⟨⟨⟨_, by rw [Language.outline_eq, hjava]; rfl⟩, _, bracketsIn?_openParenText, by decide⟩,
    ⟨_, by rw [Language.outline_eq, hpython]; rfl⟩, _, hline, by decide⟩

end Scholia.Source
