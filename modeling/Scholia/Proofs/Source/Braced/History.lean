import Scholia.Proofs.Except
import Scholia.Proofs.Source.Braced.Grammar
import Scholia.Proofs.Source.Covered
/-!
# Where headers, braces and places come from

What the state between two lexemes remembers of the text before it. A header began at a lexeme where
none was under way and no parenthesis was open, and the braces around it are those that were open
there. Hence a routine runs from such a place to another one inside the same braces, and at its end
nothing has been found since its start but the routine itself.

A doc comment is a run of lexemes that are comments or blank. Nothing is said here of the code
between a comment and a routine.
-/

namespace Scholia.Source

namespace Braced

open Text (IsCut)

/-- What is reached in a text of the dialect. -/
abbrev Reached (dialect : Dialect) (source : Text) :
    List (Lexeme Kind) → Text → State → Prop :=
  (rule dialect).Reaches (State.step dialect source) .initial source

/-- Whether declarations may stand directly inside the open braces. -/
def holdDeclarations (braces : List OpenBrace) : Bool :=
  (braces.head?.map (·.kind.holdsDeclarations)).getD true

namespace State

/-- No header is under way. -/
def Idle (s : State) : Prop :=
  s.header = none ∧ s.parens = 0

/-- The declarations found, the last one first. -/
def found (s : State) : List Node :=
  s.nodes.filter Node.declares

end State

variable {dialect : Dialect} {source : Text} {lexemes : List (Lexeme Kind)} {byte : Nat}

/-- A byte at which a lexeme starts or the last one ends, and the state there. -/
abbrev Place (dialect : Dialect) (source : Text) : List (Lexeme Kind) → Nat → State → Prop :=
  (rule dialect).Place (State.step dialect source) .initial source

/-- A byte at which one of the lexemes starts, the state there and the lexeme. -/
abbrev PlaceOf (dialect : Dialect) (source : Text) :
    List (Lexeme Kind) → Nat → State → Lexeme Kind → Prop :=
  (rule dialect).PlaceOf (State.step dialect source) .initial source

/-- A lexeme with which a header begins, or the brace of one that is empty. -/
def Kind.isHead : Kind → Bool
  | literal => true
  | openParen => true
  | code => true
  | openBrace => true
  | _ => false

/-- A header began at a byte, inside these braces and after these declarations. -/
def Began (dialect : Dialect) (source : Text) (lexemes : List (Lexeme Kind)) (byte : Nat)
    (outer : List OpenBrace) (found : List Node) : Prop :=
  ∃ (s : State) (first : Lexeme Kind), PlaceOf dialect source lexemes byte s first ∧
    first.kind.isHead = true ∧ s.Idle ∧ s.braces = outer ∧ s.found = found

theorem Began.more {outer : List OpenBrace} {found : List Node}
    (h : Began dialect source lexemes byte outer found) (lexeme : Lexeme Kind) :
    Began dialect source (lexemes ++ [lexeme]) byte outer found := by
  obtain ⟨s, first, hp, h⟩ := h
  exact ⟨s, first, hp.more lexeme, h⟩

/-- What an open brace remembers: where its header began, inside the braces around it. Inside a
routine or parentheses nothing has been found since. -/
def OpenBrace.Stands (dialect : Dialect) (source : Text) (lexemes : List (Lexeme Kind))
    (found : List Node) (outer : List OpenBrace) (b : OpenBrace) : Prop :=
  b.start ≤ b.brace ∧ (∃ s, Place dialect source lexemes b.brace s) ∧
    match b.kind with
    | .inline header _ => ∃ h, header = some h ∧ Began dialect source lexemes h outer found
    | .routine .. =>
      holdDeclarations outer = true ∧ Began dialect source lexemes b.start outer found
    | .block => ∃ k, Began dialect source lexemes b.start outer k
    | _ => holdDeclarations outer = true ∧ ∃ k, Began dialect source lexemes b.start outer k

theorem OpenBrace.Stands.more {found : List Node} {outer : List OpenBrace} {b : OpenBrace}
    (h : b.Stands dialect source lexemes found outer) (lexeme : Lexeme Kind) :
    b.Stands dialect source (lexemes ++ [lexeme]) found outer := by
  obtain ⟨hle, ⟨s, hs⟩, hk⟩ := h
  refine ⟨hle, ⟨s, hs.more lexeme⟩, ?_⟩
  cases hb : b.kind with
  | inline header parens =>
    simp only [hb] at hk ⊢
    obtain ⟨h, hh, hbegan⟩ := hk
    exact ⟨h, hh, hbegan.more lexeme⟩
  | routine name signature =>
    simp only [hb] at hk ⊢
    exact ⟨hk.1, hk.2.more lexeme⟩
  | block =>
    simp only [hb] at hk ⊢
    obtain ⟨k, hbegan⟩ := hk
    exact ⟨k, hbegan.more lexeme⟩
  | package =>
    simp only [hb] at hk ⊢
    obtain ⟨hd, k, hbegan⟩ := hk
    exact ⟨hd, k, hbegan.more lexeme⟩
  | typeDecl name signature =>
    simp only [hb] at hk ⊢
    obtain ⟨hd, k, hbegan⟩ := hk
    exact ⟨hd, k, hbegan.more lexeme⟩

/-- Every open brace remembers its header. -/
def Nested (dialect : Dialect) (source : Text) (lexemes : List (Lexeme Kind)) (found : List Node) :
    List OpenBrace → Prop
  | [] => True
  | b :: outer =>
    b.Stands dialect source lexemes found outer ∧ Nested dialect source lexemes found outer

theorem Nested.more {found : List Node} {braces : List OpenBrace}
    (h : Nested dialect source lexemes found braces) (lexeme : Lexeme Kind) :
    Nested dialect source (lexemes ++ [lexeme]) found braces := by
  induction braces with
  | nil => trivial
  | cons b outer ih => exact ⟨h.1.more lexeme, ih h.2⟩

/-- Where declarations may stand, no open brace depends on what has been found. -/
theorem Nested.recount {found : List Node} {braces : List OpenBrace}
    (h : Nested dialect source lexemes found braces) (hd : holdDeclarations braces = true)
    (found' : List Node) :
    Nested dialect source lexemes found' braces := by
  induction braces with
  | nil => trivial
  | cons b outer ih =>
    obtain ⟨⟨hle, hs, hk⟩, houter⟩ := h
    cases hb : b.kind with
    | package =>
      simp only [hb] at hk
      exact ⟨⟨hle, hs, by simpa only [hb] using hk⟩, ih houter hk.1⟩
    | typeDecl name signature =>
      simp only [hb] at hk
      exact ⟨⟨hle, hs, by simpa only [hb] using hk⟩, ih houter hk.1⟩
    | routine name signature =>
      simp [holdDeclarations, hb, BraceKind.holdsDeclarations] at hd
    | block => simp [holdDeclarations, hb, BraceKind.holdsDeclarations] at hd
    | inline header parens =>
      simp [holdDeclarations, hb, BraceKind.holdsDeclarations] at hd

/-! ## What is recorded of a place -/

/-- A lexeme that can be part of a doc comment: a comment, or blanks between comment lines. -/
def IsCommentary (lexeme : Lexeme Kind) : Prop :=
  lexeme.kind = .lineComment ∨ lexeme.kind = .blockComment ∨ Text.allBlank lexeme.text = true

/-- A lexeme that is a comment. -/
def Kind.isComment : Kind → Bool
  | lineComment => true
  | blockComment => true
  | _ => false

/-- A range that is made up by lexemes of a comment, the first of which is one. -/
def Commentary (lexemes : List (Lexeme Kind)) (span : Span) : Prop :=
  ∃ before comment after, lexemes = before ++ (comment ++ after) ∧
    span.start = Text.width (Lexeme.textOf before) ∧
    span.stop = Text.width (Lexeme.textOf (before ++ comment)) ∧
    (∃ first, comment.head? = some first ∧ first.kind.isComment = true) ∧
    ∀ l ∈ comment, IsCommentary l

theorem Commentary.more {span : Span} (h : Commentary lexemes span) (lexeme : Lexeme Kind) :
    Commentary (lexemes ++ [lexeme]) span := by
  obtain ⟨before, comment, after, rfl, h⟩ := h
  exact ⟨before, comment, after ++ [lexeme], by simp only [List.append_assoc], h⟩

/-- A line that continues a run, over blanks, makes up a comment with it. -/
theorem Commentary.extend {run : Span} {lexeme : Lexeme Kind} {rest : Text} {t : State}
    (h : Commentary lexemes run) (hr : Reached dialect source lexemes rest t)
    (hgap : Text.allBlank (Text.slice run.stop (Text.width (Lexeme.textOf lexemes)) source) = true)
    (hl : IsCommentary lexeme) :
    Commentary (lexemes ++ [lexeme])
      ⟨run.start, Text.width (Lexeme.textOf lexemes) + Text.width lexeme.text⟩ := by
  obtain ⟨before, comment, after, rfl, hstart, hstop, ⟨first, hfirst, hkind⟩, hc⟩ := h
  have hsource : source =
      Lexeme.textOf (before ++ comment) ++ (Lexeme.textOf after ++ rest) := by
    rw [hr.text]
    simp only [Lexeme.textOf_append, List.append_assoc]
  have hbetween : Text.slice run.stop
      (Text.width (Lexeme.textOf (before ++ (comment ++ after)))) source = Lexeme.textOf after := by
    rw [hstop, hsource, ← List.append_assoc before, Lexeme.textOf_append (before ++ comment),
      Text.width_append, Text.slice_middle]
  rw [hbetween] at hgap
  refine ⟨before, comment ++ (after ++ [lexeme]), [], by simp only [List.append_assoc,
    List.append_nil], hstart, by simp [Nat.add_assoc], ⟨first, by simp [hfirst], hkind⟩, ?_⟩
  intro l hmem
  rcases List.mem_append.1 hmem with hmem | hmem
  · exact hc l hmem
  rcases List.mem_append.1 hmem with hmem | hmem
  · refine .inr (.inr ?_)
    rw [Text.allBlank, List.all_eq_true] at hgap ⊢
    intro c hcl
    exact hgap c (List.mem_flatten.2 ⟨l.text, List.mem_map.2 ⟨l, hmem, rfl⟩, hcl⟩)
  · exact List.mem_singleton.1 hmem ▸ hl

/-- A routine from one idle place to another, inside the same braces. -/
structure Framed (dialect : Dialect) (source : Text) (lexemes : List (Lexeme Kind)) (n : Node)
    (s s' : State) : Prop where
  start : ∃ first, PlaceOf dialect source lexemes n.span.start s first ∧ first.kind.isHead = true
  stop : Place dialect source lexemes n.span.stop s'
  idle : s.Idle
  idle' : s'.Idle
  braces : s'.braces = s.braces
  declared : holdDeclarations s.braces = true
  found : s'.found = n :: s.found

/-- What is recorded with a node. -/
def Recorded (dialect : Dialect) (source : Text) (lexemes : List (Lexeme Kind)) (n : Node) : Prop :=
  n.span.start ≤ n.span.stop ∧
    match n.kind with
    | .doc => Commentary lexemes n.span
    | .typeDecl _ =>
      ∃ s s', Place dialect source lexemes n.span.start s ∧ Place dialect source lexemes n.span.stop s'
    | .routine _ b =>
      n.span.start ≤ b ∧ b ≤ n.span.stop ∧ (∃ s, Place dialect source lexemes b s) ∧
        ∃ s s', Framed dialect source lexemes n s s'

theorem Recorded.more {n : Node} (h : Recorded dialect source lexemes n) (lexeme : Lexeme Kind) :
    Recorded dialect source (lexemes ++ [lexeme]) n := by
  obtain ⟨hle, hk⟩ := h
  refine ⟨hle, ?_⟩
  cases hn : n.kind with
  | doc =>
    simp only [hn] at hk ⊢
    exact hk.more lexeme
  | typeDecl name =>
    simp only [hn] at hk ⊢
    obtain ⟨s, s', hs, hs'⟩ := hk
    exact ⟨s, s', hs.more lexeme, hs'.more lexeme⟩
  | routine name b =>
    simp only [hn] at hk ⊢
    obtain ⟨hl, hr, ⟨sb, hb⟩, s, s', hf⟩ := hk
    obtain ⟨first, hstart, hhead⟩ := hf.start
    exact ⟨hl, hr, ⟨sb, hb.more lexeme⟩, s, s',
      { hf with start := ⟨first, hstart.more lexeme, hhead⟩, stop := hf.stop.more lexeme }⟩

/-! ## Closing braces -/

theorem eq_of_ofChar_closeBrace {c : Char} (h : Kind.ofChar c = .closeBrace) : c = '}' := by
  unfold Kind.ofChar at h
  repeat' split at h
  all_goals first | assumption | cases h

/-- A closing brace is one byte wide. -/
theorem width_closeBrace {c : Char} {r : Text} {lexeme : Lexeme Kind} {rest : Text}
    (h : front dialect c r = .found lexeme rest) (hk : lexeme.kind = .closeBrace) :
    Text.width lexeme.text = 1 := by
  rcases front_cases h with hc | ⟨rfl, -⟩
  · simp [hk] at hc
  · rw [eq_of_ofChar_closeBrace hk]
    rfl

/-! ## What every lexeme keeps -/

/-- What the state remembers of the lexemes before it. -/
structure State.Sound (dialect : Dialect) (source : Text) (lexemes : List (Lexeme Kind))
    (s : State) : Prop where
  idle : s.header = none → s.parens = 0
  header : ∀ h, s.header = some h → Began dialect source lexemes h s.braces s.found
  nested : Nested dialect source lexemes s.found s.braces
  nodes : ∀ n ∈ s.nodes, Recorded dialect source lexemes n
  run : ∀ r, s.run = some r → Commentary lexemes r

namespace State.Sound

variable {s : State} {offset : Nat}

theorem initial : State.Sound dialect source [] .initial where
  idle := fun _ => rfl
  header := fun _ h => by cases h
  nested := trivial
  nodes := fun _ h => by cases h
  run := fun _ h => by cases h

theorem more (h : s.Sound dialect source lexemes) (lexeme : Lexeme Kind) :
    s.Sound dialect source (lexemes ++ [lexeme]) where
  idle := h.idle
  header := fun b hb => (h.header b hb).more lexeme
  nested := h.nested.more lexeme
  nodes := fun n hn => (h.nodes n hn).more lexeme
  run := fun r hr => (h.run r hr).more lexeme

/-- A header is under way where none was, or was so before. -/
theorem headed {lexeme : Lexeme Kind} (h : s.Sound dialect source lexemes)
    (hp : PlaceOf dialect source lexemes offset s lexeme) (hk : lexeme.kind.isHead = true) :
    Began dialect source lexemes (s.header.getD offset) s.braces s.found := by
  cases hh : s.header with
  | none => exact ⟨s, lexeme, hp, hk, ⟨hh, h.idle hh⟩, rfl, rfl⟩
  | some b => exact h.header b hh

/-- Code keeps or starts the header, whatever it does to the parentheses. -/
theorem mark {lexeme : Lexeme Kind} (h : s.Sound dialect source lexemes)
    (hp : PlaceOf dialect source lexemes offset s lexeme) (hk : lexeme.kind.isHead = true)
    (parens : Nat) : State.Sound dialect source lexemes { s.mark offset with parens } where
  idle := fun hn => by cases hn
  header := fun b hb => by
    cases hb
    exact h.headed hp hk
  nested := h.nested
  nodes := h.nodes
  run := h.run

/-- A doc comment may be recorded at any place. -/
theorem doc (h : s.Sound dialect source lexemes) {span : Span} (hc : Commentary lexemes span)
    {run : Option Span} (hrun : ∀ r, run = some r → Commentary lexemes r) :
    State.Sound dialect source lexemes { s with nodes := .doc span :: s.nodes, run } := by
  have hfound : State.found { s with nodes := .doc span :: s.nodes, run } = s.found :=
    List.filter_cons_of_neg (by simp [Node.doc, Node.declares])
  refine ⟨h.idle, fun b hb => hfound ▸ h.header b hb, hfound ▸ h.nested, ?_, hrun⟩
  intro n hn
  rcases List.mem_cons.1 hn with rfl | hn
  · refine ⟨?_, hc⟩
    obtain ⟨before, comment, after, -, hstart, hstop, -, -⟩ := hc
    simp only [Node.doc, hstart, hstop, Lexeme.textOf_append, Text.width_append]
    exact Nat.le_add_right _ _
  · exact h.nodes n hn

theorem flushRun (h : s.Sound dialect source lexemes) : s.flushRun.Sound dialect source lexemes := by
  unfold State.flushRun
  split
  · next run hrun => exact h.doc (h.run run hrun) (fun _ hr => by cases hr)
  · exact h

theorem withRun (h : s.Sound dialect source lexemes) {run : Span} (hc : Commentary lexemes run) :
    State.Sound dialect source lexemes { s with run := some run } where
  idle := h.idle
  header := h.header
  nested := h.nested
  nodes := h.nodes
  run := fun r hr => by
    cases hr
    exact hc

theorem extendRun {lexeme : Lexeme Kind} {rest : Text} {t : State}
    (h : s.Sound dialect source lexemes) (hr : Reached dialect source lexemes rest t)
    (hk : lexeme.kind = .lineComment) :
    (s.extendRun source ⟨Text.width (Lexeme.textOf lexemes),
      Text.width (Lexeme.textOf lexemes) + Text.width lexeme.text⟩).Sound dialect source
      (lexemes ++ [lexeme]) := by
  have hline : Commentary (lexemes ++ [lexeme]) ⟨Text.width (Lexeme.textOf lexemes),
      Text.width (Lexeme.textOf lexemes) + Text.width lexeme.text⟩ :=
    ⟨lexemes, [lexeme], [], by simp, rfl, by simp, ⟨lexeme, rfl, by simp [hk, Kind.isComment]⟩,
      fun l hmem => List.mem_singleton.1 hmem ▸ .inl hk⟩
  unfold State.extendRun
  split
  · next run hrun =>
    split
    · next hgap =>
      rw [State.isRunGap, Bool.and_eq_true] at hgap
      exact (h.more lexeme).withRun ((h.run run hrun).extend hr hgap.1 (.inl hk))
    · exact (h.more lexeme).flushRun.withRun hline
  · exact (h.more lexeme).withRun hline

theorem openBrace {lexeme : Lexeme Kind} (h : s.Sound dialect source lexemes)
    (hp : PlaceOf dialect source lexemes offset s lexeme) (hk : lexeme.kind = .openBrace)
    (hle : ∀ h, s.header = some h → h ≤ offset) :
    (s.openBrace dialect source offset).Sound dialect source lexemes := by
  unfold State.openBrace
  split
  · next hpos =>
    refine ⟨fun _ => rfl, (fun _ hn => by cases hn), ⟨?_, h.nested⟩, h.nodes, h.run⟩
    refine ⟨Nat.le_refl _, ⟨s, hp.place⟩, ?_⟩
    cases hh : s.header with
    | none => exact absurd (h.idle hh) (by omega)
    | some b => exact ⟨b, rfl, h.header b hh⟩
  · next hpos =>
    have hbegan := h.headed hp (by simp [hk, Kind.isHead])
    have hle : s.header.getD offset ≤ offset := by
      cases hh : s.header with
      | none => exact Nat.le_refl _
      | some b => exact hle b hh
    refine ⟨(fun _ => by simpa using hpos), (fun _ hn => by cases hn), ⟨?_, h.nested⟩, h.nodes, h.run⟩
    refine ⟨hle, ⟨s, hp.place⟩, ?_⟩
    by_cases hd : holdDeclarations s.braces = true
    · rw [holdDeclarations] at hd
      simp only [hd, if_true]
      cases Header.ofText (dialect == .cSharp) (Text.slice (s.header.getD offset) offset source) with
      | package => exact ⟨hd, _, hbegan⟩
      | typeDecl name signature => exact ⟨hd, _, hbegan⟩
      | routine name signature => exact ⟨hd, hbegan⟩
      | block => exact ⟨_, hbegan⟩
    · rw [holdDeclarations] at hd
      simp only [hd]
      exact ⟨_, hbegan⟩

theorem closeBrace {s' : State} {lexeme : Lexeme Kind} {rest : Text}
    (h : s.Sound dialect source lexemes) (hl : Text.width lexeme.text = 1)
    (hoff : offset = Text.width (Lexeme.textOf lexemes)) (hs : s.closeBrace? offset = some s')
    (hr : Reached dialect source (lexemes ++ [lexeme]) rest s') :
    s'.Sound dialect source (lexemes ++ [lexeme]) := by
  have hm := h.more lexeme
  have hstop : Place dialect source (lexemes ++ [lexeme]) (offset + 1) s' := by
    simpa [hoff, hl] using hr.place
  unfold State.closeBrace? at hs
  split at hs
  · cases hs
  next inner outer hbraces =>
  have hnest := hm.nested
  rw [hbraces] at hnest
  obtain ⟨⟨hle, ⟨sb, hbrace⟩, hkind⟩, houter⟩ := hnest
  have hbraceLe : inner.brace ≤ offset + 1 := by
    have := hbrace.le
    simp only [Lexeme.textOf_append, Text.width_append, Lexeme.textOf_cons, Lexeme.textOf_nil,
      hl, ← hoff, Text.width_nil] at this
    omega
  cases hk : inner.kind with
  | inline header parens =>
    simp only [hk] at hs hkind
    cases hs
    obtain ⟨b, rfl, hbegan⟩ := hkind
    refine ⟨(fun hn => by cases hn), fun b' hb' => ?_, houter, hm.nodes, hm.run⟩
    cases hb'
    exact hbegan
  | package =>
    simp only [hk] at hs
    cases hs
    exact ⟨fun _ => rfl, (fun _ hn => by cases hn), houter, hm.nodes, hm.run⟩
  | block =>
    simp only [hk] at hs
    cases hs
    exact ⟨fun _ => rfl, (fun _ hn => by cases hn), houter, hm.nodes, hm.run⟩
  | typeDecl name signature =>
    simp only [hk] at hs hkind
    cases hs
    obtain ⟨hd, k, sb', first, hbegan, -⟩ := hkind
    refine ⟨fun _ => rfl, (fun _ hn => by cases hn), houter.recount hd _, ?_, hm.run⟩
    intro n hn
    rcases List.mem_cons.1 hn with rfl | hn
    · refine ⟨?_, sb', _, hbegan.place, hstop⟩
      simp only [Node.typeDecl]
      omega
    · exact hm.nodes n hn
  | routine name signature =>
    simp only [hk] at hs hkind
    cases hs
    obtain ⟨hd, sb', first, hbegan, hhead, hidle, hsame, hfound⟩ := hkind
    refine ⟨fun _ => rfl, (fun _ hn => by cases hn), houter.recount hd _, ?_, hm.run⟩
    intro n hn
    rcases List.mem_cons.1 hn with rfl | hn
    · refine ⟨?_, hle, hbraceLe, ⟨sb, hbrace⟩, sb', _, ⟨⟨first, hbegan, hhead⟩, hstop, hidle,
        ⟨rfl, rfl⟩, hsame.symm, hsame ▸ hd, ?_⟩⟩
      · simp only [Node.routine]
        omega
      · rw [hfound]
        exact List.filter_cons_of_pos rfl
    · exact hm.nodes n hn

/-- **Every lexeme keeps what the state remembers**. -/
theorem next {c : Char} {r rest : Text} {lexeme : Lexeme Kind} {s' : State}
    (h : s.Sound dialect source lexemes) (hr : Reached dialect source lexemes (c :: r) s)
    (hf : (rule dialect).front c r = .found lexeme rest)
    (hs : s.step dialect source (Text.width (Lexeme.textOf lexemes)) lexeme = .ok s') :
    s'.Sound dialect source (lexemes ++ [lexeme]) := by
  have hm := h.more lexeme
  have hp := hr.placeOf lexeme
  have hhead (he : lexeme.kind.isHead = true) := hm.mark hp he
  cases hk : lexeme.kind with
  | lineComment =>
    simp only [State.step, hk] at hs
    split at hs
    · cases hs
      exact h.extendRun hr hk
    · cases hs
      exact hm
  | blockComment =>
    simp only [State.step, hk] at hs
    split at hs
    · cases hs
      refine hm.doc ⟨lexemes, [lexeme], [], by simp, rfl, by simp,
        ⟨lexeme, rfl, by simp [hk, Kind.isComment]⟩, ?_⟩ hm.run
      intro l hl
      exact List.mem_singleton.1 hl ▸ .inr (.inl hk)
    · cases hs
      exact hm
  | literal =>
    simp only [State.step, hk] at hs
    cases hs
    exact hhead (by simp [hk, Kind.isHead]) s.parens
  | openBrace =>
    simp only [State.step, hk] at hs
    cases hs
    refine hm.openBrace hp hk fun b hb => ?_
    obtain ⟨t, first, ht, -⟩ := h.header b hb
    exact ht.place.le
  | closeBrace =>
    have hreach := hr.next hf hs
    simp only [State.step, hk] at hs
    split at hs
    · next s₁ hclose =>
      cases hs
      exact h.closeBrace (width_closeBrace hf hk) rfl hclose hreach
    · cases hs
  | openParen =>
    simp only [State.step, hk] at hs
    cases hs
    exact hhead (by simp [hk, Kind.isHead]) (s.parens + 1)
  | closeParen =>
    simp only [State.step, hk] at hs
    cases hs
    refine ⟨fun hn => ?_, hm.header, hm.nested, hm.nodes, hm.run⟩
    rw [h.idle hn]
  | semicolon =>
    simp only [State.step, hk] at hs
    split at hs
    · next hparens =>
      cases hs
      exact ⟨fun _ => hparens, (fun _ hn => by cases hn), hm.nested, hm.nodes, hm.run⟩
    · cases hs
      exact hm
  | blank =>
    simp only [State.step, hk] at hs
    cases hs
    exact hm
  | code =>
    simp only [State.step, hk] at hs
    cases hs
    exact hhead (by simp [hk, Kind.isHead]) s.parens

/-- **What is reached remembers the text before it**. -/
theorem of_reached {rest : Text} (h : Reached dialect source lexemes rest s) :
    s.Sound dialect source lexemes :=
  h.induct (I := fun lexemes _ s => s.Sound dialect source lexemes) .initial
    (fun _ _ _ _ _ _ _ hr hI hf hs => hI.next hr hf hs)

end State.Sound

/-! ## The places of an outline -/

theorem Recorded.fits {n : Node} (h : Recorded dialect source lexemes n)
    (hsource : Lexeme.textOf lexemes <+: source) : n.Fits source := by
  obtain ⟨rest, rfl⟩ := hsource
  obtain ⟨hle, hk⟩ := h
  obtain ⟨kind, signature, span⟩ := n
  cases kind with
  | doc =>
    obtain ⟨before, comment, after, rfl, hstart, hstop, -, -⟩ := hk
    refine ⟨⟨hle, ?_, ?_⟩, fun _ _ hn => by cases hn⟩
    · rw [hstart, Lexeme.textOf_append, List.append_assoc]
      exact IsCut.of_append _ _
    · rw [hstop, ← List.append_assoc before, Lexeme.textOf_append (before ++ comment),
        List.append_assoc]
      exact IsCut.of_append _ _
  | typeDecl name =>
    obtain ⟨s, s', hs, hs'⟩ := hk
    exact ⟨⟨hle, hs.isCut, hs'.isCut⟩, fun _ _ hn => by cases hn⟩
  | routine name b =>
    obtain ⟨hl, hr, ⟨sb, hb⟩, s, s', hf⟩ := hk
    obtain ⟨first, hstart, -⟩ := hf.start
    refine ⟨⟨hle, hstart.place.isCut, hf.stop.isCut⟩, fun _ _ hn => ?_⟩
    cases hn
    exact ⟨hl, hr, hb.isCut⟩

/-- A text that has an outline has been read to its end, and what the outline says has been
recorded. -/
theorem outline_reached {o : Outline} (h : outline dialect source = .ok o) :
    ∃ lexemes s, Reached dialect source lexemes [] s ∧ s.braces = [] ∧
      o = .ofNodes source s.flushRun.nodes.reverse ∧
      ∀ n ∈ o.nodes, Recorded dialect source lexemes n := by
  unfold outline at h
  obtain ⟨s, hrun, h⟩ := bind_eq_ok.1 h
  obtain ⟨nodes, hfinish, h⟩ := bind_eq_ok.1 h
  have hr : Reached dialect source _ [] s := .of_run hrun
  unfold State.finish at hfinish
  split at hfinish
  · next hbraces =>
    cases hfinish
    cases h
    refine ⟨_, s, hr, hbraces, rfl, fun n hn => ?_⟩
    have hmem : n ∈ s.flushRun.nodes := by
      simpa [Outline.ofNodes, List.mem_mergeSort] using hn
    exact (State.Sound.of_reached hr).flushRun.nodes n hmem
  · cases hfinish

/-- **The outline of a brace language is in place**. -/
theorem outline_fits {o : Outline} (h : outline dialect source = .ok o) :
    o.source = source ∧ o.Fits := by
  obtain ⟨lexemes, s, hr, -, rfl, hrec⟩ := outline_reached h
  refine ⟨rfl, Outline.ofNodes_fits fun n hn => ?_⟩
  exact (hrec n (by simpa [Outline.ofNodes, List.mem_mergeSort] using hn)).fits
    ⟨[], hr.text.symm⟩

end Braced

end Scholia.Source
