import Scholia.Proofs.Except
import Scholia.Proofs.Text.Cut
import Scholia.Source.Lexeme
/-!
# Division into lexemes

`Rule.Divides` says that a text is divided into some lexemes and a rest. It composes, it determines
what `lex` answers, and the lexemes always make up what stands before the rest.

`Rule.Reaches` adds the state that is carried over the lexemes. An invariant of a scanner is proved
by `Rule.Reaches.induct`: it holds at the start and every lexeme keeps it. Because the lexemes read
so far are part of what is said, an invariant may also speak of an earlier place of the same text.
-/

namespace Scholia.Source

open Text (IsCut)

variable {κ σ : Type} {rule : Rule κ}

/-- The text that lexemes make up. -/
def Lexeme.textOf (lexemes : List (Lexeme κ)) : Text :=
  (lexemes.map Lexeme.text).flatten

namespace Lexeme

@[simp] theorem textOf_nil : textOf ([] : List (Lexeme κ)) = [] := rfl

@[simp] theorem textOf_cons (lexeme : Lexeme κ) (lexemes : List (Lexeme κ)) :
    textOf (lexeme :: lexemes) = lexeme.text ++ textOf lexemes := rfl

@[simp] theorem textOf_append (lexemes more : List (Lexeme κ)) :
    textOf (lexemes ++ more) = textOf lexemes ++ textOf more := by
  simp [textOf]

end Lexeme

/-- A text is divided into lexemes and a rest. -/
inductive Rule.Divides (rule : Rule κ) : Text → List (Lexeme κ) → Text → Prop
  | stop (s : Text) : Divides rule s [] s
  | take {c : Char} {r : Text} {lexeme : Lexeme κ} {rest : Text} {lexemes : List (Lexeme κ)}
    {s : Text} (found : rule.front c r = .found lexeme rest)
    (more : Divides rule rest lexemes s) : Divides rule (c :: r) (lexeme :: lexemes) s

namespace Rule.Divides

variable {s t rest : Text} {lexemes more : List (Lexeme κ)}

/-- **Lexemes and rest make up the text**. -/
theorem text (h : rule.Divides s lexemes rest) : s = Lexeme.textOf lexemes ++ rest := by
  induction h with
  | stop s => rfl
  | take found _ ih =>
    rw [Lexeme.textOf_cons, List.append_assoc, ← ih]
    exact (rule.keeps _ _ _ _ found).symm

theorem append (h : rule.Divides s lexemes t) (h' : rule.Divides t more rest) :
    rule.Divides s (lexemes ++ more) rest := by
  induction h with
  | stop s => exact h'
  | take found _ ih => exact .take found (ih h')

theorem split (h : rule.Divides s (lexemes ++ more) rest) :
    ∃ mid, rule.Divides s lexemes mid ∧ rule.Divides mid more rest := by
  induction lexemes generalizing s with
  | nil => exact ⟨s, .stop s, h⟩
  | cons lexeme lexemes ih =>
    cases h with
    | take found tail =>
      obtain ⟨mid, hl, hm⟩ := ih tail
      exact ⟨mid, .take found hl, hm⟩

/-- What lexemes divide off determines what is left. -/
theorem rest_unique {rest' : Text} (h : rule.Divides s lexemes rest)
    (h' : rule.Divides s lexemes rest') : rest = rest' := by
  have := h.text.symm.trans h'.text
  exact List.append_cancel_left this

/-- Lexemes at the front of a text are the first ones of every division without rest. -/
theorem append_of_nil (h : rule.Divides s lexemes rest) (h' : rule.Divides s more []) :
    ∃ behind, more = lexemes ++ behind ∧ rule.Divides rest behind [] := by
  induction h generalizing more with
  | stop s => exact ⟨more, rfl, h'⟩
  | take found _ ih =>
    cases h' with
    | take found' tail =>
      rw [found] at found'
      cases found'
      obtain ⟨behind, rfl, hd⟩ := ih tail
      exact ⟨behind, rfl, hd⟩

/-- **A division without rest is what `lex` answers**. -/
theorem lexFrom_eq (h : rule.Divides s lexemes []) (offset : Nat) :
    rule.lexFrom offset s = ⟨lexemes, none⟩ := by
  generalize hr : ([] : Text) = rest at h
  induction h generalizing offset with
  | stop s =>
    subst hr
    rw [Rule.lexFrom]
  | take found _ ih =>
    rw [Rule.lexFrom]
    split
    · next hf => rw [found] at hf; cases hf
    · next hf =>
      rw [found] at hf
      cases hf
      rw [ih _ hr]

end Rule.Divides

/-- A lexeme that the rule finds somewhere. -/
def Rule.Finds (rule : Rule κ) (lexeme : Lexeme κ) : Prop :=
  ∃ c r rest, rule.front c r = .found lexeme rest

/-- Every lexeme has been found at the front of some text. -/
theorem Rule.Divides.found_of_mem {s rest : Text} {lexemes : List (Lexeme κ)} {lexeme : Lexeme κ}
    (h : rule.Divides s lexemes rest) (hl : lexeme ∈ lexemes) :
    ∃ c r rest', rule.front c r = .found lexeme rest' := by
  induction h with
  | stop s => cases hl
  | @take c r l t _ _ found _ ih =>
    rcases List.mem_cons.1 hl with rfl | hl
    · exact ⟨c, r, t, found⟩
    · exact ih hl

theorem Rule.Divides.width_pos {s rest : Text} {lexemes : List (Lexeme κ)} {lexeme : Lexeme κ}
    (h : rule.Divides s lexemes rest) (hl : lexeme ∈ lexemes) : 0 < Text.width lexeme.text := by
  obtain ⟨c, r, rest', hf⟩ := h.found_of_mem hl
  have hne := rule.takes c r lexeme rest' hf
  refine Nat.pos_of_ne_zero fun hzero => hne (Text.eq_nil_of_width_eq_zero hzero)

/-! ## Lexemes inside a range -/

namespace Lexeme

/-- The lexemes that start from byte `start` up to byte `stop`, when the first one starts at
`offset`. -/
def between (start stop : Nat) : Nat → List (Lexeme κ) → List (Lexeme κ)
  | _, [] => []
  | offset, lexeme :: rest =>
    let more := between start stop (offset + Text.width lexeme.text) rest
    if start ≤ offset ∧ offset < stop then lexeme :: more else more

variable {start stop offset : Nat} {lexemes more : List (Lexeme κ)}

theorem between_append : between start stop offset (lexemes ++ more) =
    between start stop offset lexemes ++
      between start stop (offset + Text.width (textOf lexemes)) more := by
  induction lexemes generalizing offset with
  | nil => rfl
  | cons lexeme lexemes ih =>
    simp only [List.cons_append, between, ih, textOf_cons, Text.width_append, Nat.add_assoc]
    split <;> rfl

theorem between_outside (hpos : ∀ l ∈ lexemes, 0 < Text.width l.text)
    (h : offset + Text.width (textOf lexemes) ≤ start ∨ stop ≤ offset) :
    between start stop offset lexemes = [] := by
  induction lexemes generalizing offset with
  | nil => rfl
  | cons lexeme lexemes ih =>
    have hl := hpos lexeme List.mem_cons_self
    simp only [textOf_cons, Text.width_append] at h
    have hout : ¬ (start ≤ offset ∧ offset < stop) := by omega
    rw [between, if_neg hout]
    refine ih (fun l hl => hpos l (List.mem_cons_of_mem _ hl)) ?_
    omega

theorem between_inside (hpos : ∀ l ∈ lexemes, 0 < Text.width l.text) (hstart : start ≤ offset)
    (hstop : offset + Text.width (textOf lexemes) ≤ stop) :
    between start stop offset lexemes = lexemes := by
  induction lexemes generalizing offset with
  | nil => rfl
  | cons lexeme lexemes ih =>
    have hl := hpos lexeme List.mem_cons_self
    simp only [textOf_cons, Text.width_append] at hstop
    have hin : start ≤ offset ∧ offset < stop := by omega
    rw [between, if_pos hin]
    exact congrArg _ (ih (fun l hl => hpos l (List.mem_cons_of_mem _ hl)) (by omega) (by omega))

/-- **The lexemes between two places** are those that start from the one up to the other. -/
theorem between_places {before inner after : List (Lexeme κ)}
    (hpos : ∀ l ∈ before ++ (inner ++ after), 0 < Text.width l.text) :
    between (Text.width (textOf before)) (Text.width (textOf (before ++ inner))) 0
      (before ++ (inner ++ after)) = inner := by
  have hbefore : ∀ l ∈ before, 0 < Text.width l.text := fun l hl =>
    hpos l (List.mem_append_left _ hl)
  have hinner : ∀ l ∈ inner, 0 < Text.width l.text := fun l hl =>
    hpos l (List.mem_append_right _ (List.mem_append_left _ hl))
  have hafter : ∀ l ∈ after, 0 < Text.width l.text := fun l hl =>
    hpos l (List.mem_append_right _ (List.mem_append_right _ hl))
  rw [between_append, between_append, between_outside hbefore (by omega),
    between_inside hinner (by omega) (by simp),
    between_outside hafter (by simp)]
  simp

/-- Of two places, the one that is not behind the other has read less. -/
theorem append_of_width_le {before after before' after' : List (Lexeme κ)}
    (h : before ++ after = before' ++ after') (hpos : ∀ l ∈ before, 0 < Text.width l.text)
    (hle : Text.width (textOf before) ≤ Text.width (textOf before')) :
    ∃ inner, before' = before ++ inner := by
  rcases List.append_eq_append_iff.1 h with ⟨inner, hb, -⟩ | ⟨inner, hb, -⟩
  · exact ⟨inner, hb⟩
  · cases inner with
    | nil => exact ⟨[], by simpa using hb.symm⟩
    | cons l inner =>
      have hl := hpos l (by simp [hb])
      simp only [hb, textOf_append, textOf_cons, Text.width_append] at hle
      omega

end Lexeme

/-- What `lex` answers is a division, without rest if every literal ends. -/
theorem Rule.lexFrom_divides (rule : Rule κ) (offset : Nat) (s : Text) :
    ∃ rest, rule.Divides s (rule.lexFrom offset s).lexemes rest ∧
      ((rule.lexFrom offset s).open? = none → rest = []) := by
  fun_induction rule.lexFrom offset s with
  | case1 => exact ⟨[], .stop [], fun _ => rfl⟩
  | case2 offset c r => exact ⟨c :: r, .stop (c :: r), fun h => by cases h⟩
  | case3 offset c r lexeme rest hf tail ih =>
    obtain ⟨rest', hd, hr⟩ := ih
    exact ⟨rest', .take hf hd, hr⟩

/-! ## States over lexemes -/

variable {step : σ → Nat → Lexeme κ → Except Fault σ}

theorem runLexemes_append (offset : Nat) (state : σ) (lexemes more : List (Lexeme κ)) :
    runLexemes step offset state (lexemes ++ more) = (do
      let state ← runLexemes step offset state lexemes
      runLexemes step (offset + Text.width (Lexeme.textOf lexemes)) state more) := by
  induction lexemes generalizing offset state with
  | nil => rfl
  | cons lexeme lexemes ih =>
    simp only [List.cons_append, runLexemes, Lexeme.textOf_cons, Text.width_append]
    cases step state offset lexeme with
    | error fault => rfl
    | ok state => simp only [bind, Except.bind, ← Nat.add_assoc, ih]

theorem runLexemes_cons_ok {offset : Nat} {state last : σ} {lexeme : Lexeme κ}
    {lexemes : List (Lexeme κ)}
    (h : runLexemes step offset state (lexeme :: lexemes) = .ok last) :
    ∃ next, step state offset lexeme = .ok next ∧
      runLexemes step (offset + Text.width lexeme.text) next lexemes = .ok last :=
  bind_eq_ok.1 h

theorem runLexemes_append_ok {offset : Nat} {state last : σ} {lexemes more : List (Lexeme κ)}
    (h : runLexemes step offset state (lexemes ++ more) = .ok last) :
    ∃ mid, runLexemes step offset state lexemes = .ok mid ∧
      runLexemes step (offset + Text.width (Lexeme.textOf lexemes)) mid more = .ok last := by
  rw [runLexemes_append] at h
  exact bind_eq_ok.1 h

/-- A state is reached when lexemes at the front of a text have been read. -/
structure Rule.Reaches (rule : Rule κ) (step : σ → Nat → Lexeme κ → Except Fault σ) (initial : σ)
    (source : Text) (lexemes : List (Lexeme κ)) (rest : Text) (state : σ) : Prop where
  divides : rule.Divides source lexemes rest
  runs : runLexemes step 0 initial lexemes = .ok state

namespace Rule.Reaches

variable {initial state : σ} {source rest : Text} {lexemes more : List (Lexeme κ)}

theorem start : rule.Reaches step initial source [] source initial :=
  ⟨.stop source, rfl⟩

theorem text (h : rule.Reaches step initial source lexemes rest state) :
    source = Lexeme.textOf lexemes ++ rest :=
  h.divides.text

/-- One more lexeme, which the state takes. -/
theorem next {c : Char} {r : Text} {lexeme : Lexeme κ} {state' : σ}
    (h : rule.Reaches step initial source lexemes (c :: r) state)
    (found : rule.front c r = .found lexeme rest)
    (taken : step state (Text.width (Lexeme.textOf lexemes)) lexeme = .ok state') :
    rule.Reaches step initial source (lexemes ++ [lexeme]) rest state' := by
  refine ⟨h.divides.append (.take found (.stop rest)), ?_⟩
  rw [runLexemes_append, h.runs]
  simp only [bind, Except.bind, Nat.zero_add, runLexemes, taken]

/-- Every lexeme starts at a cut. -/
theorem isCut (h : rule.Reaches step initial source lexemes rest state) :
    IsCut source (Text.width (Lexeme.textOf lexemes)) :=
  h.text ▸ IsCut.of_append _ _

/-- What has been read can be looked at from an earlier place. -/
theorem split (h : rule.Reaches step initial source (lexemes ++ more) rest state) :
    ∃ mid before, rule.Reaches step initial source lexemes mid before ∧
      rule.Divides mid more rest ∧
      runLexemes step (Text.width (Lexeme.textOf lexemes)) before more = .ok state := by
  obtain ⟨mid, hl, hm⟩ := h.divides.split
  obtain ⟨before, hb, hruns⟩ := runLexemes_append_ok h.runs
  rw [Nat.zero_add] at hruns
  exact ⟨mid, before, ⟨hl, hb⟩, hm, hruns⟩

/-- **Induction over what has been read**: what holds at the start and is kept by every lexeme
holds of every state that is reached. -/
theorem induct {I : List (Lexeme κ) → Text → σ → Prop} (hstart : I [] source initial)
    (hnext : ∀ lexemes c r lexeme rest state state',
      rule.Reaches step initial source lexemes (c :: r) state → I lexemes (c :: r) state →
      rule.front c r = .found lexeme rest →
      step state (Text.width (Lexeme.textOf lexemes)) lexeme = .ok state' →
      I (lexemes ++ [lexeme]) rest state')
    (h : rule.Reaches step initial source lexemes rest state) : I lexemes rest state := by
  induction hn : lexemes.length generalizing lexemes rest state with
  | zero =>
    rw [List.length_eq_zero_iff] at hn
    subst hn
    cases h.divides
    cases h.runs
    exact hstart
  | succ n ih =>
    have hne : lexemes ≠ [] := fun he => by simp [he] at hn
    rw [← List.dropLast_concat_getLast hne] at h ⊢
    obtain ⟨mid, before, hb, hd, hr⟩ := h.split
    have hI := ih hb (by simp [hn])
    cases hd with
    | take found tail =>
      cases tail
      simp only [runLexemes] at hr
      generalize hs : step before _ _ = s at hr
      cases s with
      | error fault => cases hr
      | ok state' =>
        cases hr
        exact hnext _ _ _ _ _ _ _ hb hI found hs

end Rule.Reaches

/-! ## Places -/

/-- A byte at which a lexeme starts or the last one ends, and the state there. -/
def Rule.Place (rule : Rule κ) (step : σ → Nat → Lexeme κ → Except Fault σ) (initial : σ)
    (source : Text) (lexemes : List (Lexeme κ)) (byte : Nat) (state : σ) : Prop :=
  ∃ before after rest, lexemes = before ++ after ∧
    rule.Reaches step initial source before rest state ∧
    byte = Text.width (Lexeme.textOf before)

/-- A byte at which one of the lexemes starts, the state there and the lexeme. -/
def Rule.PlaceOf (rule : Rule κ) (step : σ → Nat → Lexeme κ → Except Fault σ) (initial : σ)
    (source : Text) (lexemes : List (Lexeme κ)) (byte : Nat) (state : σ) (lexeme : Lexeme κ) :
    Prop :=
  ∃ before after rest, lexemes = before ++ lexeme :: after ∧
    rule.Reaches step initial source before rest state ∧
    byte = Text.width (Lexeme.textOf before)

namespace Rule.PlaceOf

variable {initial state : σ} {source : Text} {lexemes : List (Lexeme κ)} {byte : Nat}
  {lexeme : Lexeme κ}

theorem place (h : rule.PlaceOf step initial source lexemes byte state lexeme) :
    rule.Place step initial source lexemes byte state := by
  obtain ⟨before, after, rest, he, h⟩ := h
  exact ⟨before, lexeme :: after, rest, he, h⟩

theorem more (h : rule.PlaceOf step initial source lexemes byte state lexeme)
    (last : Lexeme κ) :
    rule.PlaceOf step initial source (lexemes ++ [last]) byte state lexeme := by
  obtain ⟨before, after, rest, rfl, hr, hb⟩ := h
  refine ⟨before, after ++ [last], rest, ?_, hr, hb⟩
  rw [List.append_assoc, List.cons_append]

end Rule.PlaceOf

namespace Rule.Place

variable {initial state : σ} {source : Text} {lexemes : List (Lexeme κ)} {byte : Nat}

theorem more (h : rule.Place step initial source lexemes byte state) (lexeme : Lexeme κ) :
    rule.Place step initial source (lexemes ++ [lexeme]) byte state := by
  obtain ⟨before, after, rest, rfl, hr, hb⟩ := h
  exact ⟨before, after ++ [lexeme], rest, List.append_assoc _ _ _, hr, hb⟩

theorem isCut (h : rule.Place step initial source lexemes byte state) : IsCut source byte := by
  obtain ⟨before, after, rest, -, hr, rfl⟩ := h
  exact hr.isCut

theorem le (h : rule.Place step initial source lexemes byte state) :
    byte ≤ Text.width (Lexeme.textOf lexemes) := by
  obtain ⟨before, after, rest, rfl, -, rfl⟩ := h
  rw [Lexeme.textOf_append, Text.width_append]
  exact Nat.le_add_right _ _

end Rule.Place

/-- The end of what has been read is a place. -/
theorem Rule.Reaches.place {initial state : σ} {source rest : Text} {lexemes : List (Lexeme κ)}
    (h : rule.Reaches step initial source lexemes rest state) :
    rule.Place step initial source lexemes (Text.width (Lexeme.textOf lexemes)) state :=
  ⟨lexemes, [], rest, (List.append_nil _).symm, h, rfl⟩

/-- The next lexeme starts at the end of what has been read. -/
theorem Rule.Reaches.placeOf {initial state : σ} {source rest : Text} {lexemes : List (Lexeme κ)}
    (h : rule.Reaches step initial source lexemes rest state) (lexeme : Lexeme κ) :
    rule.PlaceOf step initial source (lexemes ++ [lexeme]) (Text.width (Lexeme.textOf lexemes))
      state lexeme :=
  ⟨lexemes, [], rest, rfl, h, rfl⟩

/-- A run that ends has read the whole text. -/
theorem Rule.Reaches.of_run {language : Language} {initial state : σ} {source : Text}
    (h : (rule.lex source).run language step initial = .ok state) :
    rule.Reaches step initial source (rule.lex source).lexemes [] state := by
  unfold Lexing.run at h
  cases hr : runLexemes step 0 initial (rule.lex source).lexemes with
  | error fault =>
    rw [hr] at h
    cases h
  | ok last =>
    rw [hr] at h
    cases ho : (rule.lex source).open? with
    | some opened =>
      simp only [ho] at h
      cases h
    | none =>
      simp only [ho] at h
      cases h
      obtain ⟨rest, hd, hrest⟩ := rule.lexFrom_divides 0 source
      exact ⟨hrest ho ▸ hd, hr⟩

/-- **A division without rest, over which the state runs, is a run**. -/
theorem Rule.Reaches.run_eq {initial state : σ} {source : Text} {lexemes : List (Lexeme κ)}
    (h : rule.Reaches step initial source lexemes [] state) (language : Language) :
    (rule.lex source).run language step initial = .ok state := by
  rw [Rule.lex, h.divides.lexFrom_eq, Lexing.run, h.runs]
  rfl

end Scholia.Source
