import Scholia.Proofs.Except
import Scholia.Proofs.Layout.Loss
import Scholia.Proofs.Source.Division
/-!
# The loss of a blank and the lexemes

When a blank before a line feed is lost, either a lexeme that runs over it loses it too, or it was a
lexeme of its own, which is gone. All other lexemes stay. So a state that is carried over the
lexemes comes to the same end, with its places moved, if each step of it allows for that.

`Tracks` is what a language has to show: of its rule, that what is found at the front of a text does
not depend on the blank, and of its steps, that they move with the text.
-/

namespace Scholia.Layout.Loss

open Source (Lexeme Rule runLexemes)
open Text (isLayout)

variable {κ σ : Type} {e : Loss}

/-! ## Scanning over the blank -/

/-- What a scan finds from some way before the blank on does not depend on the blank: it ends before
the blank, or runs over it. -/
def ScansFrom (e : Loss) (scan : Text → Option (Text × Text)) (u : Text) : Prop :=
  ∀ inner r, scan (u ++ e.blank :: e.rest) = some (inner, r) →
    (∃ u', u = inner ++ u' ∧ r = u' ++ e.blank :: e.rest ∧
      scan (u ++ e.rest) = some (inner, u' ++ e.rest)) ∨
    ∃ v, inner = u ++ e.blank :: v ∧ e.rest = v ++ r ∧ scan (u ++ e.rest) = some (u ++ v, r)

/-- What a scan finds does not depend on the blank. -/
def Scans (e : Loss) (scan : Text → Option (Text × Text)) : Prop :=
  ∀ u, u <:+ e.front → e.ScansFrom scan u

/-- A scan that takes some characters and goes on. -/
theorem ScansFrom.take {scan : Text → Option (Text × Text)} (taken : Text) {u : Text}
    (htaken : ∀ w, w = u ++ e.blank :: e.rest ∨ w = u ++ e.rest →
      scan (taken ++ w) = (scan w).map fun (inner, r) => (taken ++ inner, r))
    (h : e.ScansFrom scan u) : e.ScansFrom scan (taken ++ u) := by
  intro inner r hscan
  rw [List.append_assoc, htaken _ (.inl rfl)] at hscan
  obtain ⟨⟨i, r'⟩, hi, he⟩ := Option.map_eq_some_iff.1 hscan
  cases he
  rw [List.append_assoc, htaken _ (.inr rfl)]
  rcases h i r hi with ⟨u', rfl, rfl, hleft⟩ | ⟨v, rfl, hrest, hleft⟩
  · rw [hleft]
    exact .inl ⟨u', (List.append_assoc ..).symm, rfl, rfl⟩
  · rw [hleft]
    exact .inr ⟨v, (List.append_assoc ..).symm, hrest, by rw [List.append_assoc]; rfl⟩

/-- What is found at the front of the whole text and of what is left, from the same byte before the
blank on. -/
inductive Found (e : Loss) : Lexeme κ → Text → Lexeme κ → Text → Prop
  | before (lexeme : Lexeme κ) {u : Text} (hu : u <:+ e.front) :
    Found e lexeme (u ++ e.blank :: e.rest) lexeme (u ++ e.rest)
  | inside (kind : κ) {u v r : Text} (hne : u ≠ []) (hv : e.rest = v ++ r) :
    Found e ⟨kind, u ++ e.blank :: v⟩ r ⟨kind, u ++ v⟩ r

/-- A lexeme that opens before the blank and is scanned to its end. -/
theorem Scans.found {scan : Text → Option (Text × Text)} (h : e.Scans scan) (kind : κ)
    (opening : Text) {u inner r : Text} (hne : opening ≠ []) (hu : opening ++ u <:+ e.front)
    (hscan : scan (u ++ e.blank :: e.rest) = some (inner, r)) :
    ∃ inner' r', scan (u ++ e.rest) = some (inner', r') ∧
      Found e ⟨kind, opening ++ inner⟩ r ⟨kind, opening ++ inner'⟩ r' := by
  have hu' : u <:+ e.front := (List.suffix_append opening u).trans hu
  rcases h u hu' inner r hscan with ⟨u', rfl, rfl, hleft⟩ | ⟨v, rfl, hrest, hleft⟩
  · exact ⟨inner, u' ++ e.rest, hleft, .before _ ((List.suffix_append inner u').trans hu')⟩
  · refine ⟨u ++ v, r, hleft, ?_⟩
    rw [← List.append_assoc, ← List.append_assoc]
    exact .inside kind (by simp [hne]) hrest

/-- Code at the front of a text with the blank ahead stands before it. -/
theorem eq_append_of_append {u p t : Text} (hp : ∀ c ∈ p, isLayout c = false)
    (h : u ++ e.blank :: e.rest = p ++ t) : ∃ u', u = p ++ u' ∧ t = u' ++ e.blank :: e.rest := by
  have hblank : e.blank ∉ p := fun hmem => by
    have := e.layout
    rw [hp _ hmem] at this
    cases this
  have hlead := Text.dropLead?_eq_some_iff.2 h
  rw [Text.dropLead?_append hblank] at hlead
  obtain ⟨u', hu, rfl⟩ := Option.map_eq_some_iff.1 hlead
  exact ⟨u', Text.dropLead?_eq_some_iff.1 hu, rfl⟩

/-- What is left begins with no other code. -/
theorem prefix_of_prefix_rest {u p : Text} (hp : ∀ c ∈ p, isLayout c = false)
    (h : p <+: u ++ e.rest) : p <+: u ++ e.blank :: e.rest := by
  obtain ⟨t, ht⟩ := h
  have hnewline : '\n' ∉ p := fun hmem => absurd (hp _ hmem) (by decide)
  have hlead := Text.dropLead?_eq_some_iff.2 ht.symm
  rw [rest, Text.dropLead?_append hnewline] at hlead
  obtain ⟨u', hu, -⟩ := Option.map_eq_some_iff.1 hlead
  rw [Text.dropLead?_eq_some_iff.1 hu, List.append_assoc]
  exact List.prefix_append p _

/-- A comment up to the end of its line. -/
theorem scans_line :
    e.Scans fun s => some (s.takeWhile (· != '\n'), s.dropWhile (· != '\n')) := by
  intro u hu inner r hscan
  obtain ⟨rfl, rfl⟩ := Prod.mk.inj (Option.some.inj hscan)
  have hrest : e.rest.takeWhile (· != '\n') = [] ∧ e.rest.dropWhile (· != '\n') = e.rest :=
    ⟨rfl, rfl⟩
  by_cases hn : '\n' ∈ u
  · -- the line ends before the blank
    obtain ⟨q, v, rfl, hq⟩ : ∃ q v, u = q ++ '\n' :: v ∧ '\n' ∉ q := List.eq_append_cons_of_mem hn
    have hall : ∀ c ∈ q, (c != '\n') = true := fun c hc => bne_iff_ne.2 fun he => hq (he ▸ hc)
    have hcut : ∀ w : Text, ((q ++ '\n' :: v) ++ w).takeWhile (· != '\n') = q ∧
        ((q ++ '\n' :: v) ++ w).dropWhile (· != '\n') = '\n' :: v ++ w := by
      intro w
      rw [List.append_assoc, List.takeWhile_append_of_pos hall, List.dropWhile_append_of_pos hall]
      exact ⟨List.append_nil q, rfl⟩
    obtain ⟨htake, hdrop⟩ := hcut (e.blank :: e.rest)
    obtain ⟨htake', hdrop'⟩ := hcut e.rest
    refine .inl ⟨'\n' :: v, ?_, hdrop, ?_⟩
    · rw [htake]
    · simp only [htake, htake', hdrop']
  · have hall : ∀ c ∈ u, (c != '\n') = true := fun c hc => bne_iff_ne.2 fun he => hn (he ▸ hc)
    have hcut : ∀ w : Text, (u ++ w).takeWhile (· != '\n') = u ++ w.takeWhile (· != '\n') ∧
        (u ++ w).dropWhile (· != '\n') = w.dropWhile (· != '\n') := fun w =>
      ⟨List.takeWhile_append_of_pos hall, List.dropWhile_append_of_pos hall⟩
    obtain ⟨htake, hdrop⟩ := hcut (e.blank :: e.rest)
    obtain ⟨htake', hdrop'⟩ := hcut e.rest
    rw [hrest.1] at htake'
    rw [hrest.2] at hdrop'
    by_cases hx : e.blank = '\n'
    · -- the front ends with a line feed, so there is nothing before the blank
      have hnil : u = [] := by
        by_contra hne
        have hlast := getLast?_of_suffix hu hne
        rw [e.emptyLine hx] at hlast
        exact hn (List.mem_of_getLast? hlast)
      subst hnil
      have hhead : (e.blank :: e.rest).takeWhile (· != '\n') = [] ∧
          (e.blank :: e.rest).dropWhile (· != '\n') = e.blank :: e.rest := by
        rw [hx]
        exact ⟨rfl, rfl⟩
      rw [hhead.1] at htake
      rw [hhead.2] at hdrop
      refine .inl ⟨[], ?_, hdrop, ?_⟩
      · rw [htake]
        rfl
      · rw [htake]
        exact congrArg some (Prod.ext htake' hdrop')
    · have hhead : (e.blank :: e.rest).takeWhile (· != '\n') = [e.blank] ∧
          (e.blank :: e.rest).dropWhile (· != '\n') = e.rest := by
        simp [hx, rest]
      rw [hhead.1] at htake
      rw [hhead.2] at hdrop
      refine .inr ⟨[], htake, hdrop.symm, ?_⟩
      rw [hdrop]
      exact congrArg some (Prod.ext htake' hdrop')

/-- A literal up to a pattern without layout. -/
theorem scans_cut {p : Text} (hp : ∀ c ∈ p, isLayout c = false) (hne : p ≠ []) :
    e.Scans fun s => (Text.cutAt? p s).map fun (inner, r) => (inner ++ p, r) := by
  have hxp : e.blank ∉ p := fun hmem => by
    have := e.layout
    rw [hp _ hmem] at this
    cases this
  have hn : '\n' ∉ p := fun hmem => absurd (hp _ hmem) (by decide)
  have hnil : Text.cutAt? p [] = none := by
    cases p with
    | nil => exact absurd rfl hne
    | cons d p => rfl
  intro u hu inner r hscan
  simp only [rest, Text.cutAt?_append hxp hne, Text.cutAt?_append hn hne] at hscan ⊢
  cases hcut : Text.cutAt? p u with
  | some ab =>
    obtain ⟨a, b⟩ := ab
    rw [hcut] at hscan
    cases hscan
    refine .inl ⟨b, Text.eq_of_cutAt? hcut, rfl, rfl⟩
  | none =>
    have htail := Text.cutAt?_append hn hne [] e.behind
    rw [List.nil_append, hnil] at htail
    rw [hcut, htail] at hscan
    cases hbehind : Text.cutAt? p e.behind with
    | none =>
      rw [hbehind] at hscan
      cases hscan
    | some ab =>
      obtain ⟨a, b⟩ := ab
      rw [hbehind] at hscan
      cases hscan
      refine .inr ⟨'\n' :: a ++ p, by simp, ?_, by simp⟩
      rw [Text.eq_of_cutAt? hbehind]
      simp

/-- A quoted literal ends on its line, so it ends before the blank. -/
theorem quoted_before {q : Char} (hq : isLayout q = false) {u inner r : Text}
    (h : Source.quoted q (u ++ e.blank :: e.rest) = some (inner, r)) :
    ∃ u', u = inner ++ u' ∧ r = u' ++ e.blank :: e.rest ∧
      Source.quoted q (u ++ e.rest) = some (inner, u' ++ e.rest) := by
  have hrest : Source.quoted q e.rest = none := by
    rw [rest, Source.quoted_cons (by decide), if_pos rfl]
  have key : ∀ n, ∀ u inner r : Text, u.length = n →
      Source.quoted q (u ++ e.blank :: e.rest) = some (inner, r) → ∃ u', u = inner ++ u' := by
    intro n
    induction n using Nat.strongRecOn with
    | ind n ih =>
      intro u inner r hn h
      cases u with
      | nil =>
        rw [List.nil_append, Source.quoted_cons (Text.ne_of_isLayout e.layout (by decide)),
          if_neg (Text.ne_of_isLayout e.layout hq), hrest] at h
        split at h <;> cases h
      | cons c u =>
        by_cases hc : c = '\\'
        · subst hc
          cases u with
          | nil =>
            rw [List.cons_append, List.nil_append, Source.quoted, hrest] at h
            cases h
          | cons d u =>
            rw [List.cons_append, List.cons_append, Source.quoted] at h
            obtain ⟨⟨inner', r'⟩, hr, he⟩ := Option.map_eq_some_iff.1 h
            cases he
            obtain ⟨u', rfl⟩ := ih u.length (by simp at hn; omega) u inner' _ rfl hr
            exact ⟨u', rfl⟩
        · rw [List.cons_append, Source.quoted_cons hc] at h
          split at h
          · cases h
          split at h
          · cases h
            exact ⟨u, rfl⟩
          · obtain ⟨⟨inner', r'⟩, hr, he⟩ := Option.map_eq_some_iff.1 h
            cases he
            obtain ⟨u', rfl⟩ := ih u.length (by simp at hn; omega) u inner' _ rfl hr
            exact ⟨u', rfl⟩
  obtain ⟨u', rfl⟩ := key u.length u inner r rfl h
  have hsame := Source.quoted_behind h
  refine ⟨u', rfl, ?_, ?_⟩
  · have := Source.eq_of_quoted h
    rw [List.append_assoc] at this
    exact List.append_cancel_left this
  · rw [List.append_assoc, hsame]

theorem scans_quoted {q : Char} (hq : isLayout q = false) : e.Scans (Source.quoted q) :=
  fun _ _ _ _ h => .inl (quoted_before hq h)

/-! ## Lexemes that move -/

/-- A lexeme behind `p` in the whole text, and the same lexeme in what is left. -/
inductive Moves (e : Loss) (p : Text) : Lexeme κ → Lexeme κ → Prop
  | before (lexeme : Lexeme κ) (h : Text.width p + Text.width lexeme.text ≤ Text.width e.front) :
    Moves e p lexeme lexeme
  | behind (lexeme : Lexeme κ) (h : Text.width e.front < Text.width p) : Moves e p lexeme lexeme
  | inside (kind : κ) {u v r : Text} (hp : e.front = p ++ u) (hne : u ≠ []) (hv : e.rest = v ++ r) :
    Moves e p ⟨kind, u ++ e.blank :: v⟩ ⟨kind, u ++ v⟩

variable {p : Text} {l l' : Lexeme κ}

theorem Moves.kind_eq (h : e.Moves p l l') : l'.kind = l.kind := by
  cases h <;> rfl

/-- A lexeme of one character does not run over the blank. -/
theorem Moves.eq_of_single (h : e.Moves p l l') {c : Char} (hone : l.text = [c]) :
    l' = l ∧ (Text.width p + Text.width l.text ≤ Text.width e.front ∨
      Text.width e.front < Text.width p) := by
  cases h with
  | before _ h => exact ⟨rfl, .inl h⟩
  | behind _ h => exact ⟨rfl, .inr h⟩
  | @inside kind u v _ _ hne _ =>
    have hlen := congrArg List.length hone
    have := List.length_pos_iff.2 hne
    simp only [List.length_append, List.length_cons, List.length_nil] at hlen
    omega

/-- What ends with a lexeme ends with it in what is left. -/
theorem Moves.stop (h : e.Moves p l l') :
    e.place (Text.width p + Text.width l.text) = e.place (Text.width p) + Text.width l'.text := by
  cases h with
  | before l h => rw [place_of_le h, place_of_le (by omega)]
  | behind l h => rw [place_of_lt h, place_of_lt (by omega)]; omega
  | @inside kind u v r hp hne hv =>
    have hw : Text.width e.front = Text.width p + Text.width u := by rw [hp, Text.width_append]
    rw [place_of_lt, place_of_le]
    · simp only [Text.width_append, Text.width_cons, width_blank]
      omega
    · omega
    · simp only [Text.width_append, Text.width_cons, width_blank]
      omega

/-- Whether a lexeme begins with a pattern without layout does not depend on the blank. -/
theorem Moves.isPrefixOf (h : e.Moves p l l') {pattern : Text}
    (hp : ∀ c ∈ pattern, isLayout c = false) :
    pattern.isPrefixOf l'.text = pattern.isPrefixOf l.text := by
  have hout : ∀ c, isLayout c = true → c ∉ pattern := fun c hc hmem => by
    rw [hp c hmem] at hc
    cases hc
  cases h with
  | before => rfl
  | behind => rfl
  | @inside kind u v r _ _ hv =>
    rw [Text.isPrefixOf_append (hout _ e.layout)]
    cases v with
    | nil => rw [List.append_nil]
    | cons c v =>
      obtain ⟨rfl, -⟩ := List.cons.inj hv
      exact Text.isPrefixOf_append (hout _ (by decide)) u v

/-! ## A state that is carried over the lexemes -/

/-- The rule and the steps of a language, over the whole text and over what is left of it. -/
structure Tracks (e : Loss) (rule : Rule κ) (step step' : σ → Nat → Lexeme κ → Except Source.Fault σ)
    (moved : σ → σ) (Marked : Nat → σ → Prop) : Prop where
  /-- What is found before the blank is found without it. -/
  passes : ∀ c u l r, c :: u <:+ e.front → rule.front c (u ++ e.blank :: e.rest) = .found l r →
    ∃ l' r', rule.front c (u ++ e.rest) = .found l' r' ∧ Found e l r l' r'
  /-- The blank and the line feed behind it, where they are lexemes of their own. -/
  alone : ∃ kind kind', rule.front e.blank e.rest = .found ⟨kind, [e.blank]⟩ e.rest ∧
    rule.front '\n' e.behind = .found ⟨kind', ['\n']⟩ e.behind ∧
    ∀ s s₁ s₂, Marked (Text.width e.front) s →
      step s (Text.width e.front) ⟨kind, [e.blank]⟩ = .ok s₁ →
      step s₁ (Text.width e.front + 1) ⟨kind', ['\n']⟩ = .ok s₂ →
      step' (moved s) (Text.width e.front) ⟨kind', ['\n']⟩ = .ok (moved s₂) ∧
        Marked (Text.width e.front + 1 + 1) s₂
  /-- Any other lexeme. -/
  step : ∀ {p r : Text} {c : Char} {l l' : Lexeme κ} {q : Text} {s s₁ : σ},
    e.whole = p ++ c :: r → rule.front c r = .found l q → e.Moves p l l' →
    Marked (Text.width p) s → step s (Text.width p) l = .ok s₁ →
    step' (moved s) (e.place (Text.width p)) l' = .ok (moved s₁) ∧
      Marked (Text.width p + Text.width l.text) s₁

namespace Tracks

variable {rule : Rule κ} {step step' : σ → Nat → Lexeme κ → Except Source.Fault σ}
  {moved : σ → σ} {Marked : Nat → σ → Prop} {lexemes : List (Lexeme κ)} {s : σ} {r : Text}

/-- Behind the blank the lexemes stay. -/
theorem run_behind (h : Tracks e rule step step' moved Marked)
    (hd : rule.Divides r lexemes []) {p : Text} {end' : σ} (hwhole : e.whole = p ++ r)
    (hp : Text.width e.front < Text.width p) (hs : Marked (Text.width p) s)
    (hrun : runLexemes step (Text.width p) s lexemes = .ok end') :
    runLexemes step' (e.place (Text.width p)) (moved s) lexemes = .ok (moved end') ∧
      Marked (Text.width e.whole) end' := by
  induction lexemes generalizing r p s with
  | nil =>
    cases hd
    cases hrun
    rw [hwhole, List.append_nil]
    exact ⟨rfl, hs⟩
  | cons l ls ih =>
    obtain ⟨s₁, hstep, hrun⟩ := Source.runLexemes_cons_ok hrun
    cases hd with
    | @take c r₀ _ rest _ _ found more =>
    have hm : e.Moves p l l := .behind l hp
    obtain ⟨hleft, hmarked⟩ := h.step hwhole found hm hs hstep
    have hwidth : Text.width (p ++ l.text) = Text.width p + Text.width l.text :=
      Text.width_append p l.text
    obtain ⟨hrun', hend⟩ := ih more (p := p ++ l.text)
      (by rw [hwhole, ← rule.keeps c r₀ l rest found, List.append_assoc]) (by omega)
      (hwidth ▸ hmarked) (hwidth ▸ hrun)
    refine ⟨?_, hend⟩
    rw [hwidth, hm.stop] at hrun'
    rw [runLexemes, hleft]
    exact hrun'

/-- Where the blank is a lexeme of its own, so is the line feed behind it. -/
theorem run_alone (h : Tracks e rule step step' moved Marked)
    (hd : rule.Divides (e.blank :: e.rest) lexemes []) {end' : σ}
    (hs : Marked (Text.width e.front) s)
    (hrun : runLexemes step (Text.width e.front) s lexemes = .ok end') :
    ∃ lexemes', rule.Divides e.rest lexemes' [] ∧
      runLexemes step' (Text.width e.front) (moved s) lexemes' = .ok (moved end') ∧
      Marked (Text.width e.whole) end' := by
  obtain ⟨kind, kind', hblank, hnewline, hpair⟩ := h.alone
  cases hd with
  | @take _ _ _ _ _ _ found more =>
  rw [hblank] at found
  cases found
  cases more with
  | @take _ _ _ _ _ _ found more =>
  rw [hnewline] at found
  cases found
  obtain ⟨s₁, hstep₁, hrun⟩ := Source.runLexemes_cons_ok hrun
  obtain ⟨s₂, hstep₂, hrun⟩ := Source.runLexemes_cons_ok hrun
  have hone : Text.width [e.blank] = 1 := by simp [width_blank]
  rw [hone] at hstep₂ hrun
  obtain ⟨hleft, hmarked⟩ := hpair s s₁ s₂ hs hstep₁ hstep₂
  have hwidth : Text.width (e.front ++ [e.blank, '\n']) = Text.width e.front + 1 + 1 := by
    rw [Text.width_append, Text.width_cons, width_blank]
    rfl
  obtain ⟨hrun', hend⟩ := h.run_behind more (p := e.front ++ [e.blank, '\n'])
    (by rw [whole, rest, List.append_assoc]; rfl) (by omega) (hwidth ▸ hmarked)
    (by rw [hwidth]; exact hrun)
  refine ⟨⟨kind', ['\n']⟩ :: _, .take hnewline more, ?_, hend⟩
  rw [hwidth, place_of_lt (by omega)] at hrun'
  rw [runLexemes, hleft]
  exact hrun'

/-- A lexeme that runs over the blank loses it, and the lexemes behind it stay. -/
theorem run_across (h : Tracks e rule step step' moved Marked) {c : Char} {p r₀ u v : Text}
    {kind : κ} {end' : σ} (hwhole : e.whole = p ++ c :: r₀)
    (found : rule.front c r₀ = .found ⟨kind, u ++ e.blank :: v⟩ r) (hd : rule.Divides r lexemes [])
    (hfront : e.front = p ++ u) (hne : u ≠ []) (hv : e.rest = v ++ r) (hs : Marked (Text.width p) s)
    (hrun : runLexemes step (Text.width p) s (⟨kind, u ++ e.blank :: v⟩ :: lexemes) = .ok end') :
    runLexemes step' (Text.width p) (moved s) (⟨kind, u ++ v⟩ :: lexemes) = .ok (moved end') ∧
      Marked (Text.width e.whole) end' := by
  obtain ⟨s₁, hstep, hrun⟩ := Source.runLexemes_cons_ok hrun
  have hm : e.Moves p ⟨kind, u ++ e.blank :: v⟩ ⟨kind, u ++ v⟩ := .inside kind hfront hne hv
  obtain ⟨hleft, hmarked⟩ := h.step hwhole found hm hs hstep
  have hwidth : Text.width (p ++ (u ++ e.blank :: v)) =
      Text.width p + Text.width (u ++ e.blank :: v) := Text.width_append p _
  have hlt : Text.width e.front < Text.width (p ++ (u ++ e.blank :: v)) := by
    rw [hfront, ← List.append_assoc, Text.width_append _ (e.blank :: v), Text.width_cons, width_blank]
    omega
  obtain ⟨hrun', hend⟩ := h.run_behind hd (p := p ++ (u ++ e.blank :: v))
    (by rw [hwhole, ← rule.keeps c r₀ _ r found, List.append_assoc p]) hlt (hwidth ▸ hmarked)
    (hwidth ▸ hrun)
  refine ⟨?_, hend⟩
  have hplace : e.place (Text.width p) = Text.width p :=
    place_of_le (by rw [hfront, Text.width_append]; omega)
  have hstop := hm.stop
  rw [hplace] at hleft hstop
  rw [hwidth, hstop] at hrun'
  rw [runLexemes, hleft]
  exact hrun'

/-- **A state comes to the same end, with its places moved**. -/
theorem run (h : Tracks e rule step step' moved Marked)
    (hd : rule.Divides r lexemes []) {p u : Text} {end' : σ} (hr : r = u ++ e.blank :: e.rest)
    (hfront : e.front = p ++ u) (hs : Marked (Text.width p) s)
    (hrun : runLexemes step (Text.width p) s lexemes = .ok end') :
    ∃ lexemes', rule.Divides (u ++ e.rest) lexemes' [] ∧
      runLexemes step' (Text.width p) (moved s) lexemes' = .ok (moved end') ∧
      Marked (Text.width e.whole) end' := by
  induction lexemes generalizing r p u s with
  | nil =>
    cases hd
    simp at hr
  | cons l ls ih =>
    cases u with
    | nil =>
      rw [List.append_nil] at hfront
      subst hr
      rw [← hfront] at hs hrun ⊢
      exact h.run_alone hd hs hrun
    | cons d u =>
      have hwhole : e.whole = p ++ r := by rw [whole, hfront, hr, List.append_assoc]
      cases hd with
      | @take c r₀ _ rest _ _ found more =>
      obtain ⟨rfl, rfl⟩ := List.cons.inj hr
      have hkeeps : l.text ++ rest = (c :: u) ++ e.blank :: e.rest := rule.keeps c _ l rest found
      obtain ⟨l', r', hfound', hf⟩ := h.passes c u l rest ⟨p, hfront.symm⟩ found
      cases hf with
      | @before _ u' hu' =>
        have hu : c :: u = l.text ++ u' := by
          rw [← List.append_assoc] at hkeeps
          exact (List.append_cancel_right hkeeps).symm
        have hfront' : e.front = (p ++ l.text) ++ u' := by rw [hfront, hu, List.append_assoc]
        have hm : e.Moves p l l := .before l (by
          rw [hfront', Text.width_append, Text.width_append]
          omega)
        have hplace : e.place (Text.width p) = Text.width p :=
          place_of_le (by rw [hfront, Text.width_append]; omega)
        have hwidth : Text.width (p ++ l.text) = Text.width p + Text.width l.text :=
          Text.width_append p l.text
        obtain ⟨s₁, hstep, hrun⟩ := Source.runLexemes_cons_ok hrun
        obtain ⟨hleft, hmarked⟩ := h.step hwhole found hm hs hstep
        obtain ⟨ls', hd', hrun', hend⟩ := ih more rfl hfront' (hwidth ▸ hmarked) (hwidth ▸ hrun)
        refine ⟨l :: ls', .take hfound' hd', ?_, hend⟩
        rw [hplace] at hleft
        rw [hwidth] at hrun'
        rw [runLexemes, hleft]
        exact hrun'
      | @inside kind u' v _ hne hv =>
        obtain rfl : u' = c :: u := by
          rw [List.append_assoc, List.cons_append, ← hv] at hkeeps
          exact List.append_cancel_right hkeeps
        obtain ⟨hrun', hend⟩ := h.run_across hwhole found more hfront hne hv hs hrun
        exact ⟨_, .take hfound' more, hrun', hend⟩

end Tracks

end Scholia.Layout.Loss
