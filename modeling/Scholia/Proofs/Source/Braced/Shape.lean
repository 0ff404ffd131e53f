import Scholia.Proofs.Source.Braced.History
/-!
# Shapes

What the state between two lexemes comes to when all places are forgotten: a header is its text, an
open brace what it has opened. The shape behind a lexeme follows from the shape before it and the
lexeme alone, so two texts are scanned alike as far as their lexemes agree, wherever these stand.

A brace inside parentheses gives the header back that it interrupts, with all that stood inside. For
this its frame keeps the text of the header, and every lexeme is added there.
-/

namespace Scholia.Source

namespace Braced

/-- What an open brace has opened. -/
inductive Frame where
  | package
  | typeDecl (name signature : Text)
  | routine (name signature : Text)
  | block
  /-- Inside parentheses, with the text of the header and the parentheses that it interrupts. -/
  | inline (header : Option Text) (parens : Nat)
  deriving Repr, DecidableEq

namespace Frame

/-- Whether declarations may stand directly inside. -/
def holdsDeclarations : Frame → Bool
  | package => true
  | typeDecl .. => true
  | _ => false

/-- A frame when a lexeme of this text has been read. -/
def extend (text : Text) : Frame → Frame
  | inline header parens => inline (header.map (· ++ text)) parens
  | frame => frame

/-- What opens behind a header. -/
def ofHeader (dialect : Dialect) (header : Text) : Frame :=
  match Header.ofText (dialect == .cSharp) header with
  | .package => .package
  | .typeDecl name signature => .typeDecl name signature
  | .routine name signature => .routine name signature
  | .block => .block

end Frame

/-- A state apart from places. -/
structure Shape where
  /-- The text of the header, once it has begun. -/
  header : Option Text
  parens : Nat
  /-- What is open, innermost first. -/
  frames : List Frame
  deriving Repr, DecidableEq

namespace Shape

def initial : Shape := ⟨none, 0, []⟩

/-- Whether declarations may stand here. -/
def holdsDeclarations (s : Shape) : Bool :=
  (s.frames.head?.map Frame.holdsDeclarations).getD true

/-- The shape when a lexeme of this text has been read. -/
def extend (text : Text) (s : Shape) : Shape :=
  { s with header := s.header.map (· ++ text), frames := s.frames.map (Frame.extend text) }

/-- A header is under way. -/
def mark (s : Shape) : Shape :=
  { s with header := some (s.header.getD []) }

/-- A brace opens. -/
def openBrace (dialect : Dialect) (s : Shape) : Shape :=
  if s.parens > 0 then ⟨none, 0, .inline s.header s.parens :: s.frames⟩
  else
    let frame :=
      if s.holdsDeclarations then Frame.ofHeader dialect (s.header.getD []) else .block
    ⟨none, s.parens, frame :: s.frames⟩

/-- A brace closes, if one is open; it may end a declaration. -/
def closeBrace? (s : Shape) : Option (Shape × List Declared) :=
  match s.frames with
  | [] => none
  | .inline header parens :: outer => some (⟨header, parens, outer⟩, [])
  | .typeDecl name signature :: outer => some (⟨none, 0, outer⟩, [⟨false, name, signature⟩])
  | .routine name signature :: outer => some (⟨none, 0, outer⟩, [⟨true, name, signature⟩])
  | _ :: outer => some (⟨none, 0, outer⟩, [])

/-- What a kind of lexeme does, apart from its text. -/
def next (dialect : Dialect) (s : Shape) : Kind → Option (Shape × List Declared)
  | .literal => some (s.mark, [])
  | .code => some (s.mark, [])
  | .openParen => some ({ s.mark with parens := s.parens + 1 }, [])
  | .closeParen => some ({ s with parens := s.parens - 1 }, [])
  | .semicolon => some (if s.parens = 0 then { s with header := none } else s, [])
  | .openBrace => some (s.openBrace dialect, [])
  | .closeBrace => s.closeBrace?
  | _ => some (s, [])

/-- One lexeme, and what it ends. -/
def step (dialect : Dialect) (s : Shape) (lexeme : Lexeme Kind) : Option (Shape × List Declared) :=
  (s.next dialect lexeme.kind).map fun (s, declared) => (s.extend lexeme.text, declared)

/-- Some lexemes, and what they end. -/
def run (dialect : Dialect) : Shape → List (Lexeme Kind) → Option (Shape × List Declared)
  | s, [] => some (s, [])
  | s, lexeme :: rest => do
    let (s, declared) ← s.step dialect lexeme
    let (s, more) ← s.run dialect rest
    return (s, declared ++ more)

/-- No header is under way. -/
def Idle (s : Shape) : Prop :=
  s.header = none ∧ s.parens = 0

end Shape

variable {dialect : Dialect} {source : Text} {lexemes : List (Lexeme Kind)}

/-! ## Runs -/

theorem Shape.run_cons {s t : Shape} {lexeme : Lexeme Kind} {rest : List (Lexeme Kind)}
    {declared : List Declared} :
    s.run dialect (lexeme :: rest) = some (t, declared) ↔
      ∃ u first more, s.step dialect lexeme = some (u, first) ∧ u.run dialect rest = some (t, more) ∧
        declared = first ++ more := by
  simp only [Shape.run, Option.bind_eq_bind, Option.bind_eq_some_iff, Prod.exists, Option.pure_def,
    Option.some.injEq, Prod.mk.injEq]
  constructor
  · rintro ⟨u, first, hs, v, more, hr, rfl, rfl⟩
    exact ⟨u, first, more, hs, hr, rfl⟩
  · rintro ⟨u, first, more, hs, hr, rfl⟩
    exact ⟨u, first, hs, t, more, hr, rfl, rfl⟩

/-- A run in two parts. -/
theorem Shape.run_append {s t : Shape} {more : List (Lexeme Kind)} {declared : List Declared} :
    s.run dialect (lexemes ++ more) = some (t, declared) ↔
      ∃ u first second, s.run dialect lexemes = some (u, first) ∧
        u.run dialect more = some (t, second) ∧ declared = first ++ second := by
  induction lexemes generalizing s declared with
  | nil =>
    constructor
    · intro h
      exact ⟨s, [], declared, rfl, h, rfl⟩
    · rintro ⟨u, first, second, hs, hr, rfl⟩
      cases hs
      exact hr
  | cons lexeme rest ih =>
    rw [List.cons_append, Shape.run_cons]
    constructor
    · rintro ⟨u, first, second, hs, hr, rfl⟩
      obtain ⟨v, third, fourth, hv, ht, rfl⟩ := ih.1 hr
      exact ⟨v, first ++ third, fourth, Shape.run_cons.2 ⟨u, first, third, hs, hv, rfl⟩, ht,
        (List.append_assoc _ _ _).symm⟩
    · rintro ⟨v, first, second, hv, ht, rfl⟩
      obtain ⟨u, third, fourth, hs, hr, rfl⟩ := Shape.run_cons.1 hv
      exact ⟨u, third, fourth ++ second, hs, ih.2 ⟨v, fourth, second, hr, ht, rfl⟩,
        List.append_assoc _ _ _⟩

/-! ## Frames below -/

/-- A shape with more open below it. -/
def Shape.atop (s : Shape) (base : List Frame) : Shape :=
  { s with frames := s.frames ++ base }

theorem Frame.extend_of_holdsDeclarations {frame : Frame} (text : Text)
    (h : frame.holdsDeclarations = true) : frame.extend text = frame := by
  cases frame with
  | inline header parens => cases h
  | _ => rfl

theorem Shape.extend_atop {base : List Frame} (hb : ∀ f ∈ base, f.holdsDeclarations = true)
    (text : Text) (s : Shape) : (s.atop base).extend text = (s.extend text).atop base := by
  have hbase : base.map (Frame.extend text) = base := by
    rw [List.map_congr_left fun f hf => Frame.extend_of_holdsDeclarations text (hb f hf)]
    exact List.map_id' base
  simp only [Shape.atop, Shape.extend, List.map_append, hbase]

/-- **Where declarations may stand, what is open below makes no difference**. -/
theorem Shape.step_atop {base : List Frame} (hb : ∀ f ∈ base, f.holdsDeclarations = true)
    {s t : Shape} {lexeme : Lexeme Kind} {declared : List Declared}
    (h : s.step dialect lexeme = some (t, declared)) :
    (s.atop base).step dialect lexeme = some (t.atop base, declared) := by
  have hnext : ∀ u first, s.next dialect lexeme.kind = some (u, first) →
      (s.atop base).next dialect lexeme.kind = some (u.atop base, first) := by
    intro u first hu
    cases hk : lexeme.kind with
    | openBrace =>
      simp only [Shape.next, hk, Option.some.injEq, Prod.mk.injEq] at hu ⊢
      obtain ⟨rfl, rfl⟩ := hu
      refine ⟨?_, rfl⟩
      have hsame : (s.atop base).holdsDeclarations = s.holdsDeclarations := by
        unfold Shape.holdsDeclarations Shape.atop
        cases hf : s.frames with
        | cons frame outer => rfl
        | nil =>
          cases hbase : base with
          | nil => rfl
          | cons frame outer => exact hb frame (hbase ▸ List.mem_cons_self)
      unfold Shape.openBrace
      rw [hsame]
      by_cases hp : s.parens > 0
      · rw [if_pos hp, if_pos (show (s.atop base).parens > 0 from hp)]
        rfl
      · rw [if_neg hp, if_neg (show ¬ (s.atop base).parens > 0 from hp)]
        rfl
    | closeBrace =>
      simp only [Shape.next, hk] at hu ⊢
      unfold Shape.closeBrace? at hu ⊢
      cases hf : s.frames with
      | nil =>
        rw [hf] at hu
        cases hu
      | cons frame outer =>
        simp only [Shape.atop, hf, List.cons_append] at hu ⊢
        cases frame with
        | _ =>
          cases hu
          rfl
    | semicolon =>
      simp only [Shape.next, hk, Option.some.injEq, Prod.mk.injEq] at hu ⊢
      obtain ⟨rfl, rfl⟩ := hu
      refine ⟨?_, rfl⟩
      by_cases hp : s.parens = 0
      · rw [if_pos hp, if_pos (show (s.atop base).parens = 0 from hp)]
        rfl
      · rw [if_neg hp, if_neg (show ¬ (s.atop base).parens = 0 from hp)]
    | _ =>
      simp only [Shape.next, hk, Option.some.injEq, Prod.mk.injEq] at hu ⊢
      obtain ⟨rfl, rfl⟩ := hu
      exact ⟨rfl, rfl⟩
  simp only [Shape.step, Option.map_eq_some_iff, Prod.exists] at h ⊢
  obtain ⟨u, first, hu, he⟩ := h
  cases he
  exact ⟨u.atop base, declared, hnext u declared hu, by rw [Shape.extend_atop hb]⟩

theorem Shape.run_atop {base : List Frame} (hb : ∀ f ∈ base, f.holdsDeclarations = true)
    {s t : Shape} {declared : List Declared} (h : s.run dialect lexemes = some (t, declared)) :
    (s.atop base).run dialect lexemes = some (t.atop base, declared) := by
  induction lexemes generalizing s declared with
  | nil =>
    cases h
    rfl
  | cons lexeme rest ih =>
    obtain ⟨u, first, more, hs, hr, rfl⟩ := Shape.run_cons.1 h
    exact Shape.run_cons.2 ⟨_, first, more, Shape.step_atop hb hs, ih hr, rfl⟩

/-! ## The shape of a state -/

/-- What an open brace has opened, when the text has been read up to a byte. -/
def OpenBrace.frame (source : Text) (offset : Nat) (b : OpenBrace) : Frame :=
  match b.kind with
  | .package => .package
  | .typeDecl name signature => .typeDecl name signature
  | .routine name signature => .routine name signature
  | .block => .block
  | .inline header parens => .inline (header.map fun h => Text.slice h offset source) parens

namespace State

/-- A state apart from places, when the text has been read up to a byte. -/
def shape (source : Text) (offset : Nat) (s : State) : Shape where
  header := s.header.map fun h => Text.slice h offset source
  parens := s.parens
  frames := s.braces.map (OpenBrace.frame source offset)

/-- What has been declared, in the order of the ends. -/
def declared (s : State) : List Declared :=
  (s.nodes.filterMap Node.declared?).reverse

/-- Every header that the state remembers began at a place. -/
structure Anchored (dialect : Dialect) (source : Text) (lexemes : List (Lexeme Kind))
    (s : State) : Prop where
  header : ∀ h, s.header = some h → ∃ t, Place dialect source lexemes h t
  inline : ∀ b ∈ s.braces, ∀ h parens, b.kind = .inline (some h) parens →
    ∃ t, Place dialect source lexemes h t

variable {s s' : State} {offset : Nat} {lexeme : Lexeme Kind} {rest : Text}

theorem Sound.anchored (h : s.Sound dialect source lexemes) :
    s.Anchored dialect source lexemes := by
  have hnested : ∀ braces, Nested dialect source lexemes s.found braces → ∀ b ∈ braces,
      ∀ h parens, b.kind = .inline (some h) parens → ∃ t, Place dialect source lexemes h t := by
    intro braces hn
    induction braces with
    | nil => simp
    | cons inner outer ih =>
      intro b hb header parens hk
      rcases List.mem_cons.1 hb with rfl | hb
      · obtain ⟨⟨-, -, hkind⟩, -⟩ := hn
        simp only [hk] at hkind
        obtain ⟨h, hh, t, first, ht, -⟩ := hkind
        cases hh
        exact ⟨t, ht.place⟩
      · exact ih hn.2 b hb header parens hk
  refine ⟨fun b hb => ?_, hnested s.braces h.nested⟩
  obtain ⟨t, first, ht, -⟩ := h.header b hb
  exact ⟨t, ht.place⟩

/-- What stands behind a place grows by each lexeme. -/
theorem slice_place {h : Nat} {t : State} (hp : Place dialect source lexemes h t)
    (hsource : source = Lexeme.textOf lexemes ++ (lexeme.text ++ rest)) :
    Text.slice h (Text.width (Lexeme.textOf lexemes) + Text.width lexeme.text) source =
      Text.slice h (Text.width (Lexeme.textOf lexemes)) source ++ lexeme.text := by
  obtain ⟨before, after, left, rfl, -, rfl⟩ := hp
  rw [Lexeme.textOf_append, List.append_assoc] at hsource
  have hsource' : source = Lexeme.textOf before ++
      ((Lexeme.textOf after ++ lexeme.text) ++ rest) := by
    rw [hsource, List.append_assoc]
  rw [Lexeme.textOf_append, Text.width_append, Nat.add_assoc, ← Text.width_append]
  calc _ = Lexeme.textOf after ++ lexeme.text := by rw [hsource', Text.slice_middle]
    _ = _ := by rw [hsource, Text.slice_middle]

/-- Reading a lexeme extends the shape. -/
theorem Anchored.shape_extend (h : s.Anchored dialect source lexemes)
    (hsource : source = Lexeme.textOf lexemes ++ (lexeme.text ++ rest)) :
    s.shape source (Text.width (Lexeme.textOf lexemes) + Text.width lexeme.text) =
      (s.shape source (Text.width (Lexeme.textOf lexemes))).extend lexeme.text := by
  have hheader : (s.header.map fun h => Text.slice h
        (Text.width (Lexeme.textOf lexemes) + Text.width lexeme.text) source) =
      (s.header.map fun h => Text.slice h (Text.width (Lexeme.textOf lexemes)) source).map
        (· ++ lexeme.text) := by
    cases hh : s.header with
    | none => rfl
    | some b =>
      obtain ⟨t, ht⟩ := h.header b hh
      exact congrArg some (slice_place ht hsource)
  have hframes : s.braces.map (OpenBrace.frame source
        (Text.width (Lexeme.textOf lexemes) + Text.width lexeme.text)) =
      (s.braces.map (OpenBrace.frame source (Text.width (Lexeme.textOf lexemes)))).map
        (Frame.extend lexeme.text) := by
    rw [List.map_map]
    refine List.map_congr_left fun b hb => ?_
    rw [Function.comp]
    unfold OpenBrace.frame
    cases hk : b.kind with
    | inline header parens =>
      cases header with
      | none => rfl
      | some header =>
        obtain ⟨t, ht⟩ := h.inline b hb header parens hk
        exact congrArg (Frame.inline · parens) (congrArg some (slice_place ht hsource))
    | _ => rfl
  simp only [State.shape, Shape.extend, hheader, hframes]

/-- Neither a comment nor the end of a run of comment lines is anything to the shape. -/
theorem shape_extendRun (dialect : Dialect) (s : State) (line : Span) :
    (s.extendRun source line).shape source offset = s.shape source offset ∧
      (s.extendRun source line).declared = s.declared ∧
      ∀ lexemes, s.Anchored dialect source lexemes →
        (s.extendRun source line).Anchored dialect source lexemes := by
  have hflush : s.flushRun.header = s.header ∧ s.flushRun.parens = s.parens ∧
      s.flushRun.braces = s.braces ∧ s.flushRun.declared = s.declared := by
    unfold State.flushRun
    split
    · exact ⟨rfl, rfl, rfl, rfl⟩
    · exact ⟨rfl, rfl, rfl, rfl⟩
  obtain ⟨hheader, hparens, hbraces, hdeclared⟩ := hflush
  unfold State.extendRun
  split
  · split
    · exact ⟨rfl, rfl, fun _ h => ⟨h.header, h.inline⟩⟩
    · refine ⟨?_, hdeclared, fun _ h => ⟨?_, ?_⟩⟩
      · simp only [State.shape, hheader, hparens, hbraces]
      · rw [hheader]
        exact h.header
      · rw [hbraces]
        exact h.inline
  · exact ⟨rfl, rfl, fun _ h => ⟨h.header, h.inline⟩⟩

/-- Code marks the shape where it marks the state. -/
theorem Anchored.shape_mark (h : s.Anchored dialect source lexemes)
    (hr : Reached dialect source lexemes rest s) :
    (s.mark (Text.width (Lexeme.textOf lexemes))).shape source (Text.width (Lexeme.textOf lexemes)) =
        (s.shape source (Text.width (Lexeme.textOf lexemes))).mark ∧
      (s.mark (Text.width (Lexeme.textOf lexemes))).Anchored dialect source lexemes := by
  constructor
  · unfold State.mark State.shape Shape.mark
    cases hh : s.header with
    | none =>
      have hnone := Text.slice_self hr.isCut
      simp only [Option.getD_none, Option.map_some, Option.map_none, hnone]
    | some b => rfl
  · refine ⟨fun b hb => ?_, h.inline⟩
    cases hh : s.header with
    | none =>
      simp only [State.mark, hh, Option.getD_none, Option.some.injEq] at hb
      exact hb ▸ ⟨s, hr.place⟩
    | some b' =>
      simp only [State.mark, hh, Option.getD_some, Option.some.injEq] at hb
      exact hb ▸ h.header b' hh

theorem Anchored.shape_openBrace (h : s.Anchored dialect source lexemes)
    (hr : Reached dialect source lexemes rest s) :
    (s.openBrace dialect source (Text.width (Lexeme.textOf lexemes))).shape source
          (Text.width (Lexeme.textOf lexemes)) =
        (s.shape source (Text.width (Lexeme.textOf lexemes))).openBrace dialect ∧
      (s.openBrace dialect source (Text.width (Lexeme.textOf lexemes))).Anchored dialect source
        lexemes := by
  unfold State.openBrace Shape.openBrace
  by_cases hp : s.parens > 0
  · rw [if_pos hp, if_pos (show (s.shape source _).parens > 0 from hp)]
    refine ⟨rfl, (fun b hb => by cases hb), List.forall_mem_cons.2 ⟨fun b parens hk => ?_, h.inline⟩⟩
    exact h.header b (BraceKind.inline.inj hk).1
  · rw [if_neg hp, if_neg (show ¬ (s.shape source _).parens > 0 from hp)]
    have hallowed : (s.shape source (Text.width (Lexeme.textOf lexemes))).holdsDeclarations =
        holdDeclarations s.braces := by
      unfold Shape.holdsDeclarations holdDeclarations State.shape
      cases hb : s.braces with
      | nil => rfl
      | cons b outer =>
        simp only [List.map_cons, List.head?_cons, Option.map_some, Option.getD_some]
        unfold OpenBrace.frame
        cases b.kind <;> rfl
    have htext : ((s.shape source (Text.width (Lexeme.textOf lexemes))).header).getD [] =
        Text.slice (s.header.getD (Text.width (Lexeme.textOf lexemes)))
          (Text.width (Lexeme.textOf lexemes)) source := by
      unfold State.shape
      cases hh : s.header with
      | none => exact (Text.slice_self hr.isCut).symm
      | some b => rfl
    rw [hallowed, htext]
    refine ⟨?_, (fun b hb => by cases hb), List.forall_mem_cons.2 ⟨fun b parens hk => ?_, h.inline⟩⟩
    · unfold holdDeclarations Frame.ofHeader
      simp only [State.shape, List.map_cons, Option.map_none]
      refine congrArg (Shape.mk none s.parens) (congrArg (· :: _) ?_)
      by_cases hd : (s.braces.head?.map (·.kind.holdsDeclarations)).getD true = true
      · simp only [hd, if_true]
        generalize Header.ofText _ _ = header
        cases header <;> rfl
      · simp only [hd]
        rfl
    · simp only at hk
      split at hk
      · generalize Header.ofText _ _ = header at hk
        cases header <;> cases hk
      · cases hk

theorem Anchored.shape_closeBrace (h : s.Anchored dialect source lexemes) :
    (∀ s', s.closeBrace? (Text.width (Lexeme.textOf lexemes)) = some s' →
      ∃ d, (s.shape source (Text.width (Lexeme.textOf lexemes))).closeBrace? =
          some (s'.shape source (Text.width (Lexeme.textOf lexemes)), d) ∧
        s'.declared = s.declared ++ d ∧ s'.Anchored dialect source lexemes) ∧
      (s.closeBrace? (Text.width (Lexeme.textOf lexemes)) = none →
        (s.shape source (Text.width (Lexeme.textOf lexemes))).closeBrace? = none) := by
  unfold State.closeBrace? Shape.closeBrace? State.shape
  cases hb : s.braces with
  | nil => exact ⟨(fun _ he => by cases he), fun _ => rfl⟩
  | cons b outer =>
    have houter : ∀ b ∈ outer, ∀ h parens, b.kind = .inline (some h) parens →
        ∃ t, Place dialect source lexemes h t := fun b' hb' =>
      h.inline b' (hb ▸ List.mem_cons_of_mem _ hb')
    obtain ⟨kind, start, brace⟩ := b
    cases kind with
    | inline header parens =>
      refine ⟨fun s' he => ?_, fun he => by cases he⟩
      cases he
      refine ⟨[], rfl, (List.append_nil _).symm, fun b hh => ?_, houter⟩
      cases hh
      exact h.inline _ (hb ▸ List.mem_cons_self) b parens rfl
    | package =>
      refine ⟨fun s' he => ?_, fun he => by cases he⟩
      cases he
      exact ⟨[], rfl, (List.append_nil _).symm, (fun _ hh => by cases hh), houter⟩
    | block =>
      refine ⟨fun s' he => ?_, fun he => by cases he⟩
      cases he
      exact ⟨[], rfl, (List.append_nil _).symm, (fun _ hh => by cases hh), houter⟩
    | typeDecl name signature =>
      refine ⟨fun s' he => ?_, fun he => by cases he⟩
      cases he
      exact ⟨[⟨false, name, signature⟩], rfl, List.reverse_cons, (fun _ hh => by cases hh), houter⟩
    | routine name signature =>
      refine ⟨fun s' he => ?_, fun he => by cases he⟩
      cases he
      exact ⟨[⟨true, name, signature⟩], rfl, List.reverse_cons, (fun _ hh => by cases hh), houter⟩

/-- **The shape behind a lexeme follows from the shape before it and the lexeme**. -/
theorem Sound.shape_step (h : s.Sound dialect source lexemes)
    (hr : Reached dialect source lexemes (lexeme.text ++ rest) s) :
    (∀ s', s.step dialect source (Text.width (Lexeme.textOf lexemes)) lexeme = .ok s' →
      ∃ d, (s.shape source (Text.width (Lexeme.textOf lexemes))).step dialect lexeme =
          some (s'.shape source (Text.width (Lexeme.textOf (lexemes ++ [lexeme]))), d) ∧
        s'.declared = s.declared ++ d) ∧
      (∀ fault, s.step dialect source (Text.width (Lexeme.textOf lexemes)) lexeme = .error fault →
        (s.shape source (Text.width (Lexeme.textOf lexemes))).step dialect lexeme = none) := by
  have ha := h.anchored
  have hwidth : Text.width (Lexeme.textOf (lexemes ++ [lexeme])) =
      Text.width (Lexeme.textOf lexemes) + Text.width lexeme.text := by
    simp
  have hextend : ∀ s' : State, s'.Anchored dialect source lexemes → ∀ d,
      (s.shape source (Text.width (Lexeme.textOf lexemes))).next dialect lexeme.kind =
        some (s'.shape source (Text.width (Lexeme.textOf lexemes)), d) →
      (s.shape source (Text.width (Lexeme.textOf lexemes))).step dialect lexeme =
        some (s'.shape source (Text.width (Lexeme.textOf (lexemes ++ [lexeme]))), d) := by
    intro s' hs' d hnext
    rw [Shape.step, hnext, Option.map_some, hwidth, hs'.shape_extend hr.text]
  -- Only a closing brace ends a declaration or fails.
  have hgoes : ∀ s' : State,
      s.step dialect source (Text.width (Lexeme.textOf lexemes)) lexeme = .ok s' →
      s'.Anchored dialect source lexemes → s'.declared = s.declared →
      (s.shape source (Text.width (Lexeme.textOf lexemes))).next dialect lexeme.kind =
        some (s'.shape source (Text.width (Lexeme.textOf lexemes)), []) →
      (∀ t, s.step dialect source (Text.width (Lexeme.textOf lexemes)) lexeme = .ok t →
        ∃ d, (s.shape source (Text.width (Lexeme.textOf lexemes))).step dialect lexeme =
            some (t.shape source (Text.width (Lexeme.textOf (lexemes ++ [lexeme]))), d) ∧
          t.declared = s.declared ++ d) ∧
        (∀ fault, s.step dialect source (Text.width (Lexeme.textOf lexemes)) lexeme =
          .error fault →
          (s.shape source (Text.width (Lexeme.textOf lexemes))).step dialect lexeme = none) := by
    intro s' hstep hs' hd hnext
    rw [hstep]
    refine ⟨fun t he => ?_, fun _ he => by cases he⟩
    cases he
    exact ⟨[], hextend s' hs' [] hnext, by rw [hd, List.append_nil]⟩
  obtain ⟨hmark, hmarked⟩ := ha.shape_mark hr
  cases hk : lexeme.kind with
  | lineComment =>
    by_cases hdoc : (dialect = .cSharp && isDocLine lexeme.text) = true
    · obtain ⟨hshape, hd, hanchored⟩ := shape_extendRun dialect s
        ⟨Text.width (Lexeme.textOf lexemes), Text.width (Lexeme.textOf lexemes) +
          Text.width lexeme.text⟩
      refine hgoes _ (by simp only [State.step, hk, if_pos hdoc]) (hanchored _ ha) hd ?_
      rw [hk, hshape]
      rfl
    · exact hgoes s (by simp only [State.step, hk, if_neg hdoc]) ha rfl (by rw [hk]; rfl)
  | blockComment =>
    by_cases hdoc : (dialect = .java && isDocBlock lexeme.text) = true
    · exact hgoes { s with nodes := .doc ⟨_, _⟩ :: s.nodes }
        (by simp only [State.step, hk, if_pos hdoc]; rfl) ⟨ha.header, ha.inline⟩ rfl (by rw [hk]; rfl)
    · exact hgoes s (by simp only [State.step, hk, if_neg hdoc]) ha rfl (by rw [hk]; rfl)
  | blank => exact hgoes s (by simp only [State.step, hk]) ha rfl (by rw [hk]; rfl)
  | closeParen =>
    exact hgoes { s with parens := s.parens - 1 } (by simp only [State.step, hk])
      ⟨ha.header, ha.inline⟩ rfl (by rw [hk]; rfl)
  | semicolon =>
    by_cases hp : s.parens = 0
    · refine hgoes { s with header := none } (by simp only [State.step, hk, if_pos hp])
        ⟨(fun _ hh => by cases hh), ha.inline⟩ rfl ?_
      rw [hk, Shape.next, if_pos (show (s.shape source _).parens = 0 from hp)]
      rfl
    · refine hgoes s (by simp only [State.step, hk, if_neg hp]) ha rfl ?_
      rw [hk, Shape.next, if_neg (show ¬ (s.shape source _).parens = 0 from hp)]
  | literal =>
    exact hgoes (s.mark _) (by simp only [State.step, hk]) hmarked rfl (by rw [hk, hmark]; rfl)
  | code =>
    exact hgoes (s.mark _) (by simp only [State.step, hk]) hmarked rfl (by rw [hk, hmark]; rfl)
  | openParen =>
    refine hgoes { s.mark _ with parens := s.parens + 1 } (by simp only [State.step, hk])
      ⟨hmarked.header, hmarked.inline⟩ rfl ?_
    rw [hk, Shape.next, ← hmark]
    rfl
  | openBrace =>
    obtain ⟨hshape, hanchored⟩ := ha.shape_openBrace hr
    refine hgoes (s.openBrace dialect source _) (by simp only [State.step, hk]) hanchored ?_
      (by rw [hk, hshape]; rfl)
    unfold State.openBrace
    split
    · rfl
    · rfl
  | closeBrace =>
    obtain ⟨hsome, hnone⟩ := ha.shape_closeBrace
    simp only [State.step, hk]
    cases hc : s.closeBrace? (Text.width (Lexeme.textOf lexemes)) with
    | none =>
      refine ⟨(fun _ he => by cases he), fun _ _ => ?_⟩
      rw [Shape.step, hk, Shape.next, hnone hc]
      rfl
    | some t =>
      refine ⟨fun s' he => ?_, fun _ he => by cases he⟩
      cases he
      obtain ⟨d, hd, hdeclared, hanchored⟩ := hsome t hc
      exact ⟨d, hextend t hanchored d (by rw [hk]; exact hd), hdeclared⟩

end State

/-! ## Texts and their shapes -/

/-- **The shapes run along with the states**, and end where these do. -/
theorem run_shape {before more : List (Lexeme Kind)} {rest rest' : Text} {s : State}
    (hr : Reached dialect source before rest s) (hd : (rule dialect).Divides rest more rest') :
    (∀ s', runLexemes (State.step dialect source) (Text.width (Lexeme.textOf before)) s more =
        .ok s' →
      ∃ d, (s.shape source (Text.width (Lexeme.textOf before))).run dialect more =
          some (s'.shape source (Text.width (Lexeme.textOf (before ++ more))), d) ∧
        s'.declared = s.declared ++ d) ∧
      (∀ fault, runLexemes (State.step dialect source) (Text.width (Lexeme.textOf before)) s more =
          .error fault →
        (s.shape source (Text.width (Lexeme.textOf before))).run dialect more = none) := by
  induction hd generalizing before s with
  | stop rest =>
    refine ⟨fun s' he => ?_, fun _ he => by cases he⟩
    cases he
    rw [List.append_nil]
    exact ⟨[], rfl, (List.append_nil _).symm⟩
  | @take c r lexeme rest more last found _ ih =>
    have htext : c :: r = lexeme.text ++ rest := ((rule dialect).keeps c r lexeme rest found).symm
    obtain ⟨hok, herror⟩ := (State.Sound.of_reached hr).shape_step (htext ▸ hr)
    cases hstep : s.step dialect source (Text.width (Lexeme.textOf before)) lexeme with
    | error fault =>
      constructor
      · intro s' he
        obtain ⟨t, ht, -⟩ := runLexemes_cons_ok he
        rw [hstep] at ht
        cases ht
      · intro _ _
        rw [Shape.run, herror fault hstep]
        rfl
    | ok t =>
      obtain ⟨first, hfirst, hdeclared⟩ := hok t hstep
      have hnext := hr.next found hstep
      have hwidth : Text.width (Lexeme.textOf before) + Text.width lexeme.text =
          Text.width (Lexeme.textOf (before ++ [lexeme])) := by
        simp
      have hrun : runLexemes (State.step dialect source) (Text.width (Lexeme.textOf before)) s
            (lexeme :: more) =
          runLexemes (State.step dialect source)
            (Text.width (Lexeme.textOf (before ++ [lexeme]))) t more := by
        rw [← hwidth, runLexemes, hstep]
        rfl
      obtain ⟨ihok, iherror⟩ := ih hnext
      rw [hrun]
      constructor
      · intro s' he
        obtain ⟨d, hd, hs'⟩ := ihok s' he
        refine ⟨first ++ d, ?_, ?_⟩
        · rw [List.append_cons]
          exact Shape.run_cons.2 ⟨_, first, d, hfirst, hd, rfl⟩
        · rw [hs', hdeclared, List.append_assoc]
      · intro fault he
        rw [Shape.run, hfirst]
        exact congrArg (· >>= _) (iherror fault he)

/-- **A text whose shapes run to the end with nothing open has an outline**. -/
theorem outline_of_run {t : Shape} {declared : List Declared}
    (hd : (rule dialect).Divides source lexemes [])
    (hrun : Shape.initial.run dialect lexemes = some (t, declared)) (ht : t.frames = []) :
    ∃ o s, outline dialect source = .ok o ∧ Reached dialect source lexemes [] s ∧
      o = .ofNodes source s.flushRun.nodes.reverse ∧ s.declared = declared := by
  obtain ⟨hok, herror⟩ := run_shape (.start : Reached dialect source [] source .initial) hd
  have hinitial : State.initial.shape source (Text.width (Lexeme.textOf ([] : List (Lexeme Kind)))) =
      Shape.initial := rfl
  rw [hinitial] at hok herror
  cases hs : runLexemes (State.step dialect source)
      (Text.width (Lexeme.textOf ([] : List (Lexeme Kind)))) .initial lexemes with
  | error fault =>
    rw [herror fault hs] at hrun
    cases hrun
  | ok s =>
    obtain ⟨d, hd', hdeclared⟩ := hok s hs
    rw [hrun] at hd'
    cases hd'
    have hreached : Reached dialect source lexemes [] s := ⟨hd, hs⟩
    have hbraces : s.braces = [] := List.map_eq_nil_iff.1 ht
    have hfinish : s.finish dialect = .ok s.flushRun.nodes.reverse := by
      unfold State.finish
      rw [hbraces]
    refine ⟨_, s, ?_, hreached, rfl, hdeclared⟩
    rw [outline, hreached.run_eq]
    exact bind_eq_ok.2 ⟨s, rfl, bind_eq_ok.2 ⟨_, hfinish, rfl⟩⟩

/-- A text that has an outline has been read to its end, its shapes along with it. -/
theorem run_of_outline {o : Outline} (h : outline dialect source = .ok o) :
    ∃ lexemes s t, Reached dialect source lexemes [] s ∧ s.braces = [] ∧
      o = .ofNodes source s.flushRun.nodes.reverse ∧
      Shape.initial.run dialect lexemes = some (t, s.declared) ∧ t.frames = [] ∧
      t = s.shape source (Text.width (Lexeme.textOf lexemes)) := by
  obtain ⟨lexemes, s, hr, hbraces, ho, -⟩ := outline_reached h
  obtain ⟨hok, -⟩ := run_shape (.start : Reached dialect source [] source .initial) hr.divides
  obtain ⟨d, hd, hdeclared⟩ := hok s hr.runs
  rw [List.nil_append] at hd
  have hd' : s.declared = d := hdeclared
  exact ⟨lexemes, s, _, hr, hbraces, ho, hd' ▸ hd, by rw [State.shape, hbraces]; rfl, rfl⟩

/-- The routines among the nodes of an outline are those that have been declared. -/
theorem countP_isRoutine {s : State} :
    (Outline.ofNodes source s.flushRun.nodes.reverse).nodes.countP Node.isRoutine =
      s.declared.countP Declared.isRoutine := by
  have hflush : s.flushRun.nodes.countP Node.isRoutine = s.nodes.countP Node.isRoutine := by
    unfold State.flushRun
    split
    · exact List.countP_cons_of_neg (by simp [Node.doc, Node.isRoutine])
    · rfl
  have hperm := (List.mergeSort_perm s.flushRun.nodes.reverse
    fun m n : Node => decide (m.span.start ≤ n.span.start)).countP_eq Node.isRoutine
  calc (Outline.ofNodes source s.flushRun.nodes.reverse).nodes.countP Node.isRoutine
    _ = s.flushRun.nodes.reverse.countP Node.isRoutine := hperm
    _ = s.nodes.countP Node.isRoutine := by rw [List.countP_reverse, hflush]
    _ = s.declared.countP Declared.isRoutine := by
      rw [State.declared, List.countP_reverse, Node.countP_declared?]

end Braced

end Scholia.Source
