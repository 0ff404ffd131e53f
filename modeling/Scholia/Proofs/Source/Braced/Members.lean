import Scholia.Proofs.Source.Braced.Alike
import Scholia.Proofs.Source.Braced.Balance
import Scholia.Proofs.Source.Braced.Gap
import Scholia.Proofs.Source.Enclosed
/-!
# Members

A text *declares* something on its own if, wherever declarations may stand and whatever follows, it is
divided into the same lexemes, and these declare it and leave nothing open. Such texts can be put one
behind the other (`Declares.append`), and into a type (`Declares.typeDecl`). Layout and comments are
among them, and so is a routine: a header in which parentheses are balanced, and a body in which
braces come in pairs (`Declares.routine`).
-/

namespace Scholia.Source.Braced

variable {dialect : Dialect} {s t u : Shape} {text rest : Text} {lexeme : Lexeme Kind}
  {lexemes more : List (Lexeme Kind)} {declared : List Declared}

/-! ## What balanced lexemes leave -/

theorem Frame.holdsDeclarations_extend (text : Text) (frame : Frame) :
    (frame.extend text).holdsDeclarations = frame.holdsDeclarations := by
  cases frame <;> rfl

namespace Shape

/-- A text has been read that closed what it opened: what was open is open, and inside parentheses the
header goes on. -/
structure Passed (s t : Shape) (text : Text) : Prop where
  frames : t.frames = s.frames.map (Frame.extend text)
  parens : t.parens = s.parens
  header : 0 < s.parens → s.header.isSome = true → t.header = s.header.map (· ++ text)

/-- What stands here is inside parentheses or braces. -/
def Inner (s : Shape) : Prop :=
  0 < s.parens ∨ s.holdsDeclarations = false

theorem passed_extend (s : Shape) (text : Text) : s.Passed (s.extend text) text :=
  ⟨rfl, rfl, fun _ _ => rfl⟩

theorem Passed.trans {more : Text} (h : s.Passed t text) (h' : t.Passed u more) :
    s.Passed u (text ++ more) where
  frames := by
    rw [h'.frames, h.frames]
    exact congrArg Shape.frames (s.extend_extend text more)
  parens := h'.parens.trans h.parens
  header hparens hheader := by
    have hsome : t.header.isSome = true := by
      rw [h.header hparens hheader, Option.isSome_map, hheader]
    rw [h'.header (h.parens ▸ hparens) hsome, h.header hparens hheader]
    exact congrArg Shape.header (s.extend_extend text more)

theorem Passed.inner (h : s.Passed t text) (hs : s.Inner) : t.Inner := by
  unfold Inner at hs ⊢
  rw [h.parens]
  refine hs.imp_right fun hs => ?_
  unfold holdsDeclarations at hs ⊢
  rw [h.frames, List.head?_map, Option.map_map, ← hs]
  exact congrArg (fun f => (s.frames.head?.map f).getD true)
    (funext fun frame => Frame.holdsDeclarations_extend text frame)

/-- Inside parentheses, what has been passed belongs to the header. -/
theorem Passed.eq_extend (h : s.Passed t text) (hparens : 0 < s.parens)
    (hheader : s.header.isSome = true) : t = s.extend text := by
  obtain ⟨header, parens, frames⟩ := t
  obtain ⟨rfl, rfl, hsame⟩ := h
  rw [show header = _ from hsame hparens hheader]
  rfl

theorem mark_of_isSome (hheader : s.header.isSome = true) : s.mark = s := by
  obtain ⟨header, hs⟩ := Option.isSome_iff_exists.1 hheader
  unfold mark
  rw [hs, Option.getD_some, ← hs]

/-- A lexeme that is no parenthesis and no brace. -/
theorem passed_plain (dialect : Dialect) (s : Shape) (lexeme : Lexeme Kind)
    (hbrace : lexeme.kind.isBrace = false) (hopen : lexeme.kind ≠ .openParen)
    (hclose : lexeme.kind ≠ .closeParen) :
    ∃ t, s.step dialect lexeme = some (t, []) ∧ s.Passed t lexeme.text := by
  unfold step
  cases hk : lexeme.kind with
  | openBrace | closeBrace =>
    rw [hk] at hbrace
    cases hbrace
  | openParen => exact absurd hk hopen
  | closeParen => exact absurd hk hclose
  | lineComment | blockComment | blank => exact ⟨_, rfl, s.passed_extend _⟩
  | literal | code =>
    refine ⟨_, rfl, rfl, rfl, fun _ hheader => ?_⟩
    rw [mark_of_isSome hheader]
    rfl
  | semicolon =>
    refine ⟨_, rfl, ?_⟩
    by_cases hp : s.parens = 0
    · rw [if_pos hp]
      exact ⟨rfl, rfl, fun hparens => absurd hp (Nat.pos_iff_ne_zero.1 hparens)⟩
    · rw [if_neg hp]
      exact s.passed_extend _

theorem passed_mark (s : Shape) (text : Text) : s.Passed (s.mark.extend text) text :=
  ⟨rfl, rfl, fun _ hheader => by rw [mark_of_isSome hheader]; rfl⟩

/-- Parentheses around what closes what it opened. -/
theorem step_parens (dialect : Dialect) (s : Shape) :
    ∃ t, s.step dialect ⟨Kind.ofChar '(', ['(']⟩ = some (t, []) ∧ t.Inner ∧
      ∀ u text, t.Passed u text → u.step dialect ⟨Kind.ofChar ')', [')']⟩ =
        some (s.mark.extend ('(' :: (text ++ [')'])), []) := by
  let t : Shape := { s.mark with parens := s.parens + 1 }
  refine ⟨t.extend ['('], rfl, .inl (Nat.succ_pos _), fun u text hu => ?_⟩
  obtain rfl := hu.eq_extend (Nat.succ_pos _) rfl
  rw [← List.cons_append, ← s.mark.extend_extend, extend_extend]
  rfl

/-- Braces around what closes what it opened. -/
theorem Inner.step_braces (hs : s.Inner) :
    ∃ t, s.step dialect openLexeme = some (t, []) ∧ t.Inner ∧ ∀ u text, t.Passed u text →
      ∃ v, u.step dialect closeLexeme = some (v, []) ∧ s.Passed v ('{' :: (text ++ ['}'])) := by
  have hopened : ∀ {u : Shape} {frame : Frame} {text : Text},
      (extend ['{'] ⟨none, 0, frame :: s.frames⟩).Passed u text →
      u.frames = frame.extend ('{' :: text) :: s.frames.map (Frame.extend ('{' :: text)) := by
    intro u frame text hu
    rw [hu.frames]
    exact congrArg frames (extend_extend ⟨none, 0, frame :: s.frames⟩ ['{'] text)
  have hlast : ∀ text : Text, (s.extend ('{' :: text)).extend ['}'] =
      s.extend ('{' :: (text ++ ['}'])) := fun text => s.extend_extend ('{' :: text) ['}']
  by_cases hp : 0 < s.parens
  · -- the brace takes the header away and gives it back
    refine ⟨extend ['{'] ⟨none, 0, .inline s.header s.parens :: s.frames⟩, ?_, .inr rfl, ?_⟩
    · show some ((s.openBrace dialect).extend ['{'], []) = _
      rw [openBrace, if_pos hp]
    · intro u text hu
      refine ⟨s.extend ('{' :: (text ++ ['}'])), ?_, s.passed_extend _⟩
      show u.closeBrace?.map _ = _
      rw [closeBrace?, hopened hu, ← hlast]
      rfl
  · have hholds : s.holdsDeclarations = false := hs.resolve_left hp
    have hzero : s.parens = 0 := Nat.eq_zero_of_not_pos hp
    refine ⟨extend ['{'] ⟨none, 0, .block :: s.frames⟩, ?_, .inr rfl, ?_⟩
    · show some ((s.openBrace dialect).extend ['{'], []) = _
      rw [openBrace, if_neg hp, hholds, hzero]
      rfl
    · intro u text hu
      refine ⟨extend ['}'] ⟨none, 0, s.frames.map (Frame.extend ('{' :: text))⟩, ?_,
        congrArg frames (hlast text), hzero.symm, fun h => absurd h hp⟩
      show u.closeBrace?.map _ = _
      rw [closeBrace?, hopened hu]
      rfl

end Shape

/-- A bracket opens, what stands inside is passed, and the bracket that closes it. -/
theorem Pairs.passed {o c : Lexeme Kind} (dialect : Dialect) (h : Pairs o c) (hs : s.Inner) :
    ∃ t, s.step dialect o = some (t, []) ∧ t.Inner ∧ ∀ u text, t.Passed u text →
      ∃ v, u.step dialect c = some (v, []) ∧ s.Passed v (o.text ++ (text ++ c.text)) := by
  rcases h with ⟨rfl, rfl⟩ | ⟨rfl, rfl⟩ | ⟨rfl, rfl⟩
  · obtain ⟨t, hopen, ht, hclose⟩ := s.step_parens dialect
    exact ⟨t, hopen, ht, fun u text hu => ⟨_, hclose u text hu, s.passed_mark _⟩⟩
  · exact hs.step_braces
  · obtain ⟨t, hstep, ht⟩ := s.passed_plain dialect ⟨Kind.ofChar '[', ['[']⟩
      rfl (by decide) (by decide)
    refine ⟨t, hstep, ht.inner hs, fun u text hu => ?_⟩
    obtain ⟨v, hlast, hv⟩ := u.passed_plain dialect ⟨Kind.ofChar ']', [']']⟩
      rfl (by decide) (by decide)
    exact ⟨v, hlast, ht.trans (hu.trans hv)⟩

/-- **Balanced lexemes inside parentheses or braces close what they open**. -/
theorem Balanced.passed (dialect : Dialect) (h : Balanced lexemes) (hs : s.Inner) :
    ∃ t, s.run dialect lexemes = some (t, []) ∧ s.Passed t (Lexeme.textOf lexemes) := by
  induction h generalizing s with
  | nil =>
    refine ⟨s, rfl, ?_⟩
    have := s.passed_extend []
    rwa [s.extend_nil] at this
  | plain hl _ ih =>
    obtain ⟨hbrace, hopen, hclose⟩ := not_paren_of_isBracket hl
    obtain ⟨t, hstep, ht⟩ := s.passed_plain dialect _ hbrace hopen hclose
    obtain ⟨u, hrun, hu⟩ := ih (ht.inner hs)
    exact ⟨u, Shape.run_cons.2 ⟨t, [], [], hstep, hrun, rfl⟩, ht.trans hu⟩
  | group pairs _ _ ihinner ihmore =>
    obtain ⟨t, hopen, htinner, hlast⟩ := pairs.passed dialect hs
    obtain ⟨u, hinner, hu⟩ := ihinner htinner
    obtain ⟨v, hclose, hv⟩ := hlast u _ hu
    obtain ⟨w, hmore, hw⟩ := ihmore (hv.inner hs)
    refine ⟨w, Shape.run_cons.2 ⟨t, [], [], hopen, Shape.run_append.2 ⟨u, [], [], hinner,
      Shape.run_cons.2 ⟨v, [], [], hclose, hmore, rfl⟩, rfl⟩, rfl⟩, ?_⟩
    have := hv.trans hw
    rwa [List.append_assoc, List.append_assoc, ← Lexeme.textOf_cons, ← Lexeme.textOf_append,
      ← Lexeme.textOf_cons] at this

/-! ## Headers -/

/-- The lexemes of a header: semicolons and braces stand in parentheses only, and these are
balanced. -/
inductive HeaderBody : List (Lexeme Kind) → Prop
  | nil : HeaderBody []
  | plain {l : Lexeme Kind} {ls : List (Lexeme Kind)} (hreset : l.kind.isReset = false)
    (hopen : l.kind ≠ .openParen) (hclose : l.kind ≠ .closeParen) (more : HeaderBody ls) :
    HeaderBody (l :: ls)
  | parens {o c : Lexeme Kind} {inner ls : List (Lexeme Kind)} (ho : IsChar o '(')
    (hc : IsChar c ')') (body : Balanced inner) (more : HeaderBody ls) :
    HeaderBody (o :: (inner ++ c :: ls))

namespace HeaderBody

theorem append (h : HeaderBody lexemes) (h' : HeaderBody more) : HeaderBody (lexemes ++ more) := by
  induction h with
  | nil => exact h'
  | plain hreset hopen hclose _ ih => exact .plain hreset hopen hclose ih
  | parens ho hc body _ ih =>
    rw [List.cons_append, List.append_assoc]
    exact .parens ho hc body ih

theorem of_plain (h : ∀ l ∈ lexemes, l.kind.isReset = false ∧ l.kind ≠ .openParen ∧
    l.kind ≠ .closeParen) : HeaderBody lexemes := by
  induction lexemes with
  | nil => exact .nil
  | cons l ls ih =>
    obtain ⟨⟨hreset, hopen, hclose⟩, hls⟩ := List.forall_mem_cons.1 h
    exact .plain hreset hopen hclose (ih hls)

/-- **A header that is under way goes on**. -/
theorem run (h : HeaderBody lexemes) (hs : s.header.isSome = true) :
    s.run dialect lexemes = some (s.extend (Lexeme.textOf lexemes), []) := by
  have hsome : ∀ {s : Shape} (text : Text), s.header.isSome = true →
      (s.extend text).header.isSome = true := fun text hs => (Option.isSome_map ..).trans hs
  induction h generalizing s with
  | nil => exact congrArg (fun s => some (s, [])) s.extend_nil.symm
  | @plain l ls hreset hopen hclose _ ih =>
    refine Shape.run_cons.2 ⟨s.extend l.text, [], [], ?_, ?_, rfl⟩
    · unfold Shape.step
      cases hk : l.kind with
      | openBrace | closeBrace | semicolon =>
        rw [hk] at hreset
        cases hreset
      | openParen => exact absurd hk hopen
      | closeParen => exact absurd hk hclose
      | lineComment | blockComment | blank => rfl
      | literal | code =>
        rw [Shape.next, Shape.mark_of_isSome hs]
        rfl
    · rw [ih (hsome l.text hs), Shape.extend_extend, Lexeme.textOf_cons]
  | @parens o c inner ls ho hc body _ ih =>
    obtain rfl := ho
    obtain rfl := hc
    obtain ⟨t, hfirst, ht, hlast⟩ := s.step_parens dialect
    obtain ⟨u, hinner, hu⟩ := body.passed dialect ht
    have hclose := hlast u _ hu
    rw [Shape.mark_of_isSome hs] at hclose
    have hmore := ih (hsome ('(' :: (Lexeme.textOf inner ++ [')'])) hs)
    rw [Shape.extend_extend, List.cons_append, List.append_assoc] at hmore
    have htext : Lexeme.textOf (⟨Kind.ofChar '(', ['(']⟩ :: (inner ++ ⟨Kind.ofChar ')', [')']⟩ :: ls)) =
        '(' :: (Lexeme.textOf inner ++ ([')'] ++ Lexeme.textOf ls)) := by
      rw [Lexeme.textOf_cons, Lexeme.textOf_append, Lexeme.textOf_cons]
      rfl
    rw [htext]
    exact Shape.run_cons.2 ⟨t, [], [], hfirst, Shape.run_append.2 ⟨u, [], [], hinner,
      Shape.run_cons.2 ⟨_, [], [], hclose, hmore, rfl⟩, rfl⟩, rfl⟩

/-- **A header begins with code** and is all that has been read since. -/
theorem run_first (dialect : Dialect) (h : HeaderBody (lexeme :: lexemes))
    (hcode : lexeme.kind = .code) (hs : s.header = none) :
    s.run dialect (lexeme :: lexemes) = some ({ s with header := some [] }.extend
      (Lexeme.textOf (lexeme :: lexemes)), []) := by
  have hmark : s.mark = { s with header := some [] } := by rw [Shape.mark, hs]; rfl
  rw [← hmark, ← h.run (s := s.mark) rfl]
  have hstep : s.step dialect lexeme = s.mark.step dialect lexeme := by
    rw [Shape.step, Shape.step, hcode, Shape.next, Shape.next, Shape.mark_of_isSome (s := s.mark) rfl]
  rw [Shape.run, Shape.run, hstep]

end HeaderBody

/-! ## Bodies -/

/-- What stands open inside a routine. -/
def Frame.isInner : Frame → Bool
  | block | inline .. => true
  | _ => false

theorem Frame.isInner_extend (text : Text) (frame : Frame) :
    (frame.extend text).isInner = frame.isInner := by
  cases frame <;> rfl

/-- In the innermost frame no declaration stands directly, and no frame keeps a header. -/
structure IsBase (base : List Frame) : Prop where
  keeps : ∀ text, base.map (Frame.extend text) = base
  holds : (base.head?.map Frame.holdsDeclarations).getD true = false

/-- One lexeme inside a routine. -/
theorem Shape.step_body (dialect : Dialect) {base inner : List Frame} (hbase : IsBase base)
    (hframes : s.frames = inner ++ base) (hinner : ∀ f ∈ inner, f.isInner = true)
    (hclose : lexeme.kind = .closeBrace → inner ≠ []) :
    ∃ t inner', s.step dialect lexeme = some (t, []) ∧ t.frames = inner' ++ base ∧
      (∀ f ∈ inner', f.isInner = true) ∧
      inner'.length + closes [lexeme] = inner.length + opens [lexeme] := by
  have hstep : ∀ (u : Shape) (frames : List Frame), s.next dialect lexeme.kind = some (u, []) →
      u.frames = frames ++ base → (∀ f ∈ frames, f.isInner = true) →
      frames.length + closes [lexeme] = inner.length + opens [lexeme] →
      ∃ t inner', s.step dialect lexeme = some (t, []) ∧ t.frames = inner' ++ base ∧
        (∀ f ∈ inner', f.isInner = true) ∧
        inner'.length + closes [lexeme] = inner.length + opens [lexeme] := by
    intro u frames hnext hu hall hlength
    refine ⟨u.extend lexeme.text, frames.map (Frame.extend lexeme.text), ?_, ?_, ?_, ?_⟩
    · rw [Shape.step, hnext]
      rfl
    · rw [Shape.extend, hu, List.map_append, hbase.keeps]
    · intro f hf
      obtain ⟨g, hg, rfl⟩ := List.mem_map.1 hf
      rw [Frame.isInner_extend, hall g hg]
    · rw [List.length_map, hlength]
  cases hk : lexeme.kind with
  | openBrace =>
    have hlength : ∀ frame : Frame,
        (frame :: inner).length + closes [lexeme] = inner.length + opens [lexeme] := fun frame => by
      simp [hk]
    by_cases hp : s.parens > 0
    · refine hstep ⟨none, 0, .inline s.header s.parens :: s.frames⟩
        (.inline s.header s.parens :: inner) ?_ ?_ ?_ (hlength _)
      · rw [hk, Shape.next, Shape.openBrace, if_pos hp]
      · rw [hframes, List.cons_append]
      · exact List.forall_mem_cons.2 ⟨rfl, hinner⟩
    · have hholds : s.holdsDeclarations = false := by
        unfold Shape.holdsDeclarations
        rw [hframes]
        cases inner with
        | nil => exact hbase.holds
        | cons frame inner =>
          have := hinner frame List.mem_cons_self
          cases frame with
          | block | inline header parens => rfl
          | package | typeDecl name signature | routine name signature => cases this
      refine hstep ⟨none, s.parens, .block :: s.frames⟩ (.block :: inner) ?_ ?_ ?_ (hlength _)
      · rw [hk, Shape.next, Shape.openBrace, if_neg hp, hholds]
        rfl
      · rw [hframes, List.cons_append]
      · exact List.forall_mem_cons.2 ⟨rfl, hinner⟩
  | closeBrace =>
    obtain ⟨frame, outer, rfl⟩ := List.exists_cons_of_ne_nil (hclose hk)
    obtain ⟨hframe, houter⟩ := List.forall_mem_cons.1 hinner
    have hlength : outer.length + closes [lexeme] = (frame :: outer).length + opens [lexeme] := by
      simp [hk]
    cases frame with
    | block =>
      refine hstep ⟨none, 0, outer ++ base⟩ outer ?_ rfl houter hlength
      rw [hk, Shape.next, Shape.closeBrace?, hframes]
      rfl
    | inline header parens =>
      refine hstep ⟨header, parens, outer ++ base⟩ outer ?_ rfl houter hlength
      rw [hk, Shape.next, Shape.closeBrace?, hframes]
      rfl
    | package | typeDecl name signature | routine name signature => cases hframe
  | semicolon | literal | code | openParen | closeParen | lineComment | blockComment | blank =>
    obtain ⟨u, hnext, hu⟩ : ∃ u, s.next dialect lexeme.kind = some (u, []) ∧ u.frames = s.frames := by
      rw [hk]
      exact ⟨_, rfl, by first | rfl | split <;> rfl⟩
    exact hstep u inner hnext (hu.trans hframes) hinner (by simp [hk])

/-- **A body whose braces come in pairs declares nothing** and leaves open what is open around it. -/
theorem Shape.run_body (dialect : Dialect) {base inner : List Frame} (hbase : IsBase base)
    (hframes : s.frames = inner ++ base) (hinner : ∀ f ∈ inner, f.isInner = true)
    (hbefore : ∀ front, front <+: lexemes → closes front ≤ opens front + inner.length) :
    ∃ t inner', s.run dialect lexemes = some (t, []) ∧ t.frames = inner' ++ base ∧
      inner'.length + closes lexemes = inner.length + opens lexemes := by
  induction lexemes generalizing s inner with
  | nil => exact ⟨s, inner, rfl, hframes, rfl⟩
  | cons l ls ih =>
    have hclose : l.kind = .closeBrace → inner ≠ [] := by
      rintro hk rfl
      have := hbefore [l] (List.cons_prefix_cons.2 ⟨rfl, List.nil_prefix⟩)
      simp [hk] at this
    obtain ⟨t, middle, hstep, ht, hmiddle, hlength⟩ :=
      Shape.step_body dialect hbase hframes hinner hclose
    have hcounts : ∀ front : List (Lexeme Kind), closes (l :: front) = closes [l] + closes front ∧
        opens (l :: front) = opens [l] + opens front := fun front =>
      ⟨closes_append [l] front, opens_append [l] front⟩
    obtain ⟨u, inner', hrun, hu, hlength'⟩ := ih ht hmiddle fun front hfront => by
      have := hbefore (l :: front) (List.cons_prefix_cons.2 ⟨rfl, hfront⟩)
      rw [(hcounts front).1, (hcounts front).2] at this
      omega
    refine ⟨u, inner', Shape.run_cons.2 ⟨t, [], [], hstep, hrun, rfl⟩, hu, ?_⟩
    rw [(hcounts ls).1, (hcounts ls).2]
    omega

/-! ## Texts that declare something -/

/-- Before any other text, a text is divided into lexemes that declare this and leave nothing open. -/
def Declares (dialect : Dialect) (text : Text) (declared : List Declared) : Prop :=
  ∃ lexemes, (∀ rest, (rule dialect).Divides (text ++ rest) lexemes rest) ∧
    Shape.initial.run dialect lexemes = some (.initial, declared)

/-- In front of a character, a text is divided into these lexemes. -/
def ReadsBefore (dialect : Dialect) (c : Char) (text : Text) (lexemes : List (Lexeme Kind)) : Prop :=
  Scans dialect (text ++ [c]) (lexemes ++ [⟨Kind.ofChar c, [c]⟩]) []

/-- Layout and comments, the last of which is no line comment. -/
def IsSpace (dialect : Dialect) (text : Text) : Prop :=
  ∃ lexemes, Scans dialect text lexemes [] ∧
    (∀ l ∈ lexemes, l.kind = .lineComment ∨ l.kind = .blockComment ∨ l.kind = .blank) ∧
    ∀ l, lexemes.getLast? = some l → l.kind ≠ .lineComment

/-- A header, as far as it can be told from its lexemes: it begins with code, and parentheses are
balanced. -/
def ReadsAsHeader (dialect : Dialect) (header : Text) : Prop :=
  ∃ first lexemes, ReadsBefore dialect '{' header (first :: lexemes) ∧ first.kind = .code ∧
    HeaderBody (first :: lexemes)

/-- Behind a bracket anything may stand. -/
theorem ReadsBefore.divides {c : Char} (h : ReadsBefore dialect c text lexemes)
    (hc : (Kind.ofChar c).isSealed = true) (rest : Text) :
    (rule dialect).Divides (text ++ c :: rest) (lexemes ++ [⟨Kind.ofChar c, [c]⟩]) rest := by
  have hdivides := scans_iff.1 h
  have htext := hdivides.text
  have hbehind : (rule dialect).Divides (_ ++ rest) _ rest := divides_behind hdivides fun l hl => by
    rw [List.getLast?_concat] at hl
    cases hl
    exact .inl hc
  rwa [← List.append_nil (Lexeme.textOf _), ← htext, List.append_assoc] at hbehind

theorem divides_closeBrace (rest : Text) :
    (rule dialect).Divides ('}' :: rest) [closeLexeme] rest := by
  have hfront : front dialect '}' rest = .found closeLexeme rest :=
    front_other (fun he => absurd he (by decide)) (by decide) (by decide)
      fun he => absurd he (by decide)
  exact .take hfront (.stop rest)

namespace Declares

theorem nil : Declares dialect [] [] :=
  ⟨[], fun rest => .stop rest, rfl⟩

/-- **What is declared one behind the other is declared**. -/
theorem append {text' : Text} {declared' : List Declared} (h : Declares dialect text declared)
    (h' : Declares dialect text' declared') :
    Declares dialect (text ++ text') (declared ++ declared') := by
  obtain ⟨lexemes, hdivides, hrun⟩ := h
  obtain ⟨more, hdivides', hrun'⟩ := h'
  refine ⟨lexemes ++ more, fun rest => ?_, Shape.run_append.2 ⟨_, _, _, hrun, hrun', rfl⟩⟩
  rw [List.append_assoc]
  exact (hdivides _).append (hdivides' rest)

theorem flatMap {α : Type} {f : α → Text} {g : α → List Declared} {members : List α}
    (h : ∀ m ∈ members, Declares dialect (f m) (g m)) :
    Declares dialect (members.flatMap f) (members.flatMap g) := by
  induction members with
  | nil => exact nil
  | cons m members ih =>
    obtain ⟨hm, hmembers⟩ := List.forall_mem_cons.1 h
    exact hm.append (ih hmembers)

/-- Layout and comments declare nothing. -/
theorem space (h : IsSpace dialect text) : Declares dialect text [] := by
  obtain ⟨lexemes, hscans, hkinds, hlast⟩ := h
  have hdivides := scans_iff.1 hscans
  have htext : text = Lexeme.textOf lexemes := hdivides.text.trans (List.append_nil _)
  refine ⟨lexemes, fun rest => ?_, ?_⟩
  · rw [htext]
    refine divides_behind hdivides fun l hl => .inl ?_
    rcases hkinds l (List.mem_of_getLast? hl) with hk | hk | hk
    · exact absurd hk (hlast l hl)
    · rw [hk]
      rfl
    · rw [hk]
      rfl
  · clear hscans hlast hdivides htext
    induction lexemes with
    | nil => rfl
    | cons l ls ih =>
      obtain ⟨hl, hls⟩ := List.forall_mem_cons.1 hkinds
      refine Shape.run_cons.2 ⟨.initial, [], [], ?_, ih hls, rfl⟩
      unfold Shape.step
      rcases hl with hk | hk | hk <;> rw [hk] <;> rfl

/-- What opens behind a header, encloses this and closes declares what its frame says. -/
theorem group {header inner : Text} {frame : Frame} {own : List Declared}
    (hheader : ReadsAsHeader dialect header) (hread : Frame.ofHeader dialect header = frame)
    (hdivides : ∀ rest, (rule dialect).Divides (inner ++ '}' :: rest) (lexemes ++ [closeLexeme]) rest)
    (hinner : ∃ t, Shape.run dialect ⟨none, 0, [frame]⟩ lexemes = some (t, declared) ∧
      t.frames = [frame])
    (hclose : ∀ t : Shape, t.frames = [frame] → t.step dialect closeLexeme = some (.initial, own))
    (hextend : frame.extend ['{'] = frame) :
    Declares dialect (header ++ '{' :: (inner ++ ['}'])) (declared ++ own) := by
  obtain ⟨first, head, hreads, hcode, hbody⟩ := hheader
  obtain ⟨t, hrun, ht⟩ := hinner
  refine ⟨(first :: head ++ [openLexeme]) ++ (lexemes ++ [closeLexeme]), fun rest => ?_, ?_⟩
  · rw [List.append_assoc, List.cons_append, List.append_assoc]
    exact (hreads.divides rfl _).append (hdivides rest)
  · have htext : header = Lexeme.textOf (first :: head) := by
      have := (scans_iff.1 hreads).text
      rw [List.append_nil, Lexeme.textOf_append] at this
      exact List.append_cancel_right this
    have hfirst := hbody.run_first dialect hcode (rfl : Shape.initial.header = none)
    rw [← htext] at hfirst
    have hopen : Shape.step dialect ⟨some header, 0, []⟩ openLexeme =
        some (⟨none, 0, [frame]⟩, []) := by
      show some ((Shape.openBrace dialect ⟨some header, 0, []⟩).extend ['{'], []) = _
      rw [← hextend, ← hread]
      rfl
    refine Shape.run_append.2 ⟨⟨none, 0, [frame]⟩, [], _, ?_, ?_, rfl⟩
    · exact Shape.run_append.2 ⟨_, [], [], hfirst, Shape.run_cons.2 ⟨_, [], [], hopen, rfl, rfl⟩, rfl⟩
    · exact Shape.run_append.2 ⟨t, declared, own, hrun, Shape.run_cons.2
        ⟨.initial, own, [], hclose t ht, rfl, (List.append_nil _).symm⟩, rfl⟩

/-- **A routine declares itself**, whatever its body holds between paired braces. -/
theorem routine {header body name signature : Text} (hheader : ReadsAsHeader dialect header)
    (hread : Header.ofText (dialect == .cSharp) header = .routine name signature)
    (hbody : ReadsBefore dialect '}' body lexemes) (hmatched : Matched lexemes) :
    Declares dialect (header ++ '{' :: (body ++ ['}'])) [⟨true, name, signature⟩] := by
  have hbase : IsBase [.routine name signature] := ⟨fun _ => rfl, rfl⟩
  obtain ⟨t, inner, hrun, ht, hlength⟩ := Shape.run_body dialect hbase
    (show Shape.frames ⟨none, 0, [.routine name signature]⟩ = [] ++ [.routine name signature] from rfl)
    (by simp) (fun front hfront => hmatched.before front hfront)
  obtain rfl : inner = [] := List.eq_nil_of_length_eq_zero (by
    rw [hmatched.whole, List.length_nil] at hlength
    omega)
  refine group hheader (?_ : _ = Frame.routine name signature) (hbody.divides rfl) ⟨t, hrun, ht⟩
    (fun u hu => ?_) rfl
  · rw [Frame.ofHeader, hread]
  · show u.closeBrace?.map _ = _
    rw [Shape.closeBrace?, hu]
    rfl

/-- **A type declares its members, and itself**. -/
theorem typeDecl {header inner name signature : Text} (hheader : ReadsAsHeader dialect header)
    (hread : Header.ofText (dialect == .cSharp) header = .typeDecl name signature)
    (hinner : Declares dialect inner declared) :
    Declares dialect (header ++ '{' :: (inner ++ ['}'])) (declared ++ [⟨false, name, signature⟩]) := by
  obtain ⟨lexemes, hdivides, hrun⟩ := hinner
  have hbase : ∀ f ∈ [Frame.typeDecl name signature], f.holdsDeclarations = true := by
    simp [Frame.holdsDeclarations]
  refine group hheader (?_ : _ = Frame.typeDecl name signature)
    (fun rest => (hdivides _).append (divides_closeBrace rest))
    ⟨_, Shape.run_atop hbase hrun, rfl⟩ (fun u hu => ?_) rfl
  · rw [Frame.ofHeader, hread]
  · show u.closeBrace?.map _ = _
    rw [Shape.closeBrace?, hu]
    rfl

end Declares

/-! ## Surveys -/

/-- **The routines of an outline, in order, are those declared**. -/
theorem survey_titles {source : Text} {lexemes : List (Lexeme Kind)} {s : State} {o : Outline}
    (h : outline dialect source = .ok o) (hr : Reached dialect source lexemes [] s)
    (ho : o = .ofNodes source s.flushRun.nodes.reverse) :
    (o.survey .preceding).1.map Routine.title = s.declared.filterMap Declared.title? := by
  have hflat := outline_flat h
  have hordered := State.Ordered.of_reached hr
  have hroutines : ∀ s : State, s.found.filter Node.isRoutine = s.nodes.filter Node.isRoutine := by
    intro s
    rw [State.found, List.filter_filter]
    refine List.filter_congr fun n _ => ?_
    cases hn : n.isRoutine with
    | true => rw [Node.declares_of_isRoutine hn]; rfl
    | false => rfl
  have hperm : (o.nodes.filter Node.isRoutine).Perm (s.found.filter Node.isRoutine).reverse := by
    rw [← s.found_flushRun, hroutines, ho, ← List.filter_reverse]
    exact (List.mergeSort_perm _ _).filter _
  have hsorted : (o.nodes.filter Node.isRoutine).Pairwise fun m n => m.span.start < n.span.start :=
    List.pairwise_filter.2 (hflat.distinct.imp fun hlt hm hn =>
      hlt (Node.declares_of_isRoutine hm) (Node.declares_of_isRoutine hn))
  have hsorted' : (s.found.filter Node.isRoutine).reverse.Pairwise
      fun m n => m.span.start < n.span.start := by
    refine List.pairwise_reverse.2 (List.pairwise_filter.2 ?_)
    refine (List.Pairwise.and_mem.1 hordered.ends).imp ?_
    rintro later earlier ⟨-, hearlier, hends⟩ hlater -
    have hpos := hordered.pos earlier hearlier
    rcases hends with hle | ⟨htype, -⟩
    · omega
    · rw [hlater] at htype
      cases htype
  have hnodes := hperm.eq_of_pairwise
    (fun m n _ _ hmn hnm => absurd hmn (Nat.lt_asymm hnm)) hsorted hsorted'
  have hkeys := congrArg (List.map fun key : Text × Text × Span => (key.1, key.2.1))
    (hflat.survey_all (outline_fits h).2 .preceding)
  rw [List.map_map, List.map_map, hnodes, hroutines, List.map_reverse] at hkeys
  rw [State.declared, List.filterMap_reverse]
  refine hkeys.trans (congrArg List.reverse ?_)
  induction s.nodes with
  | nil => rfl
  | cons n nodes ih =>
    obtain ⟨kind, signature, span⟩ := n
    cases kind with
    | doc | typeDecl name => exact ih
    | routine name b => exact congrArg (_ :: ·) ih

/-- **A text that declares something is surveyed for the routines among it**. -/
theorem Declares.survey {source : Text} (h : Declares dialect source declared) :
    ∃ o, outline dialect source = .ok o ∧
      (o.survey .preceding).1.map Routine.title = declared.filterMap Declared.title? := by
  obtain ⟨lexemes, hdivides, hrun⟩ := h
  have hall := hdivides []
  rw [List.append_nil] at hall
  obtain ⟨o, s, houtline, hr, ho, hdeclared⟩ := outline_of_run hall hrun rfl
  exact ⟨o, houtline, hdeclared ▸ survey_titles houtline hr ho⟩

end Scholia.Source.Braced
