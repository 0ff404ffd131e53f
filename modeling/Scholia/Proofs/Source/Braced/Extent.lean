import Scholia.Proofs.Source.Braced.Gap
import Scholia.Proofs.Source.Braced.Order
import Scholia.Proofs.Source.Braced.Seam
import Scholia.Proofs.Source.Braced.Shape
/-!
# The extent of a routine

A place is *free* if no header is under way there and declarations may stand in all that is open. A
routine runs from one free place to another, inside the same braces, and one routine is declared
between them: itself.

A text *is whole* if it can be read on its own and ends without a header under way. Read at a free
place it leads to a free place, and what it declares on its own is declared on the way. So a comment
in front of a routine is part of its extent, with all that stands between the two, if this lead
begins at a free place, is whole and holds no routine.
-/

namespace Scholia.Source.Braced

open Layout (endsLine)

variable {dialect : Dialect} {source text rest rest' : Text} {lexemes : List (Lexeme Kind)}
  {s s' : State} {lexeme : Lexeme Kind} {offset : Nat} {base : List Frame}

/-! ## What stands first -/

theorem front_blank {c : Char} (hc : Text.isPlainBlank c = true) (r : Text) :
    front dialect c r = .found ⟨.blank, [c]⟩ r := by
  have hne : ∀ d : Char, Text.isPlainBlank d = false → c ≠ d := by
    rintro d hd rfl
    rw [hc] at hd
    cases hd
  have hkind : Kind.ofChar c = .blank := by
    unfold Kind.ofChar
    rw [if_neg (hne '{' (by decide)), if_neg (hne '}' (by decide)), if_neg (hne ';' (by decide)),
      if_neg (hne '(' (by decide)), if_neg (hne ')' (by decide)), if_pos hc]
  rw [← hkind]
  refine front_other (fun he => absurd he (hne '/' (by decide))) (hne '"' (by decide))
    (hne '\'' (by decide)) fun he => absurd he (hne '@' (by decide))

/-- What begins a header or is a comment does not begin with a blank. -/
theorem first_not_blank {c : Char} {r : Text} (h : front dialect c r = .found lexeme rest)
    (hk : lexeme.kind ≠ .blank) :
    ∃ text, lexeme.text = c :: text ∧ Text.isPlainBlank c = false := by
  have hkeeps := (front_keeps dialect c r lexeme rest h)
  cases ht : lexeme.text with
  | nil => exact absurd ht hkeeps.2
  | cons d text =>
    rw [ht] at hkeeps
    obtain ⟨rfl, -⟩ := List.cons.inj hkeeps.1
    refine ⟨text, rfl, ?_⟩
    cases hc : Text.isPlainBlank d with
    | false => rfl
    | true =>
      rw [front_blank hc] at h
      cases h
      exact absurd rfl hk

theorem first_of_divides {t : Text} (h : (rule dialect).Divides t lexemes rest)
    (hfirst : lexemes.head? = some lexeme) (hk : lexeme.kind ≠ .blank) :
    ∃ c text, Lexeme.textOf lexemes = c :: text ∧ Text.isPlainBlank c = false := by
  cases h with
  | stop => cases hfirst
  | @take c r l mid ls _ found _ =>
    cases hfirst
    obtain ⟨text, ht, hc⟩ := first_not_blank found hk
    exact ⟨c, text ++ Lexeme.textOf ls, by rw [Lexeme.textOf_cons, ht]; rfl, hc⟩

/-! ## What stands last -/

/-- Where no header is under way, the last lexeme was neither code nor a literal. -/
theorem Shape.run_last {t u : Shape} {declared : List Declared}
    (h : t.run dialect lexemes = some (u, declared)) (hu : u.header = none) {l : Lexeme Kind}
    (hl : lexemes.getLast? = some l) : l.kind.isSealed = true ∨ l.kind = .lineComment := by
  obtain ⟨lead, rfl⟩ := List.getLast?_eq_some_iff.1 hl
  obtain ⟨v, first, second, -, hstep, -⟩ := Shape.run_append.1 h
  obtain ⟨w, d, more, hw, hrest, -⟩ := Shape.run_cons.1 hstep
  cases hrest
  simp only [Shape.step, Option.map_eq_some_iff, Prod.exists] at hw
  obtain ⟨x, d', hx, he⟩ := hw
  cases he
  have hmark : ∀ y : Shape, y.header ≠ none → (y.extend l.text).header ≠ none := by
    intro y hy hnone
    exact hy (Option.map_eq_none_iff.1 hnone)
  cases hk : l.kind with
  | lineComment => exact .inr rfl
  | literal =>
    rw [hk] at hx
    cases hx
    exact absurd hu (hmark _ (by simp [Shape.mark]))
  | code =>
    rw [hk] at hx
    cases hx
    exact absurd hu (hmark _ (by simp [Shape.mark]))
  | _ => exact .inl rfl

/-- **Where no header is under way** the text may go on as it pleases, behind a line comment with
the end of the line. -/
theorem Shape.seam {t u : Shape} {declared : List Declared}
    (h : t.run dialect lexemes = some (u, declared)) (hu : u.header = none)
    (hends : endsLine rest' = true) : Seam lexemes rest rest' := by
  intro l hl
  rcases Shape.run_last h hu hl with hsealed | hk
  · exact .inl hsealed
  · exact .inr (.inl ⟨hk, hends⟩)

/-! ## Texts on their own -/

/-- Whether a header is under way at the end of a text. -/
def endsInHeader (dialect : Dialect) (text : Text) : Bool :=
  match ((rule dialect).lex text).run dialect.language (State.step dialect text) .initial with
  | .ok s => s.header.isSome
  | .error _ => true

/-- The number of routines in a text, if it can be read. -/
abbrev routinesIn (dialect : Dialect) (text : Text) : Nat :=
  surveyed .preceding (outline dialect text)

/-- A text that can be read on its own and leaves nothing open. -/
structure IsWhole (dialect : Dialect) (text : Text) : Prop where
  outline : ∃ o, outline dialect text = .ok o
  ended : endsInHeader dialect text = false

/-- **A whole text leads from nowhere to nowhere**, and its routines are declared on the way. -/
theorem IsWhole.run (h : IsWhole dialect text) :
    ∃ declared, (rule dialect).Divides text ((rule dialect).lex text).lexemes [] ∧
      Shape.initial.run dialect ((rule dialect).lex text).lexemes = some (.initial, declared) ∧
      declared.countP Declared.isRoutine = routinesIn dialect text := by
  obtain ⟨o, ho⟩ := h.outline
  have hcount : routinesIn dialect text = o.nodes.countP Node.isRoutine := by
    rw [routinesIn, ho]
    exact (outline_flat ho).length_survey (outline_fits ho).2 .preceding
  obtain ⟨lexemes, s, t, hr, hbraces, rfl, hrun, hframes, rfl⟩ := run_of_outline ho
  have hall : ((rule dialect).lex text).lexemes = lexemes := by
    rw [Rule.lex, hr.divides.lexFrom_eq]
  have hheader : s.header = none := by
    have hended := h.ended
    unfold endsInHeader at hended
    rw [hr.run_eq] at hended
    cases hh : s.header with
    | none => rfl
    | some b =>
      simp only [hh] at hended
      cases hended
  have hshape : s.shape text (Text.width (Lexeme.textOf lexemes)) = .initial := by
    unfold State.shape
    rw [hheader, hbraces, (State.Sound.of_reached hr).idle hheader]
    rfl
  rw [hall]
  exact ⟨s.declared, hr.divides, hshape ▸ hrun, by rw [hcount, countP_isRoutine]⟩

/-! ## Free places -/

/-- Where declarations may stand, they may stand in all that is open. -/
theorem Nested.holdsDeclarations {found : List Node} {braces : List OpenBrace}
    (h : Nested dialect source lexemes found braces) (hd : holdDeclarations braces = true) :
    ∀ b ∈ braces, b.kind.holdsDeclarations = true := by
  induction braces with
  | nil => simp
  | cons b outer ih =>
    obtain ⟨⟨-, -, hk⟩, houter⟩ := h
    have hb : b.kind.holdsDeclarations = true := by simpa [holdDeclarations] using hd
    refine List.forall_mem_cons.2 ⟨hb, ?_⟩
    cases hkind : b.kind with
    | package =>
      simp only [hkind] at hk
      exact ih houter hk.1
    | typeDecl name signature =>
      simp only [hkind] at hk
      exact ih houter hk.1
    | _ =>
      rw [hkind] at hb
      cases hb

/-- A place at which no header is under way, with these frames open. Declarations may stand in all of
them. -/
structure Free (dialect : Dialect) (source : Text) (lexemes : List (Lexeme Kind)) (rest : Text)
    (s : State) (base : List Frame) : Prop where
  reached : Reached dialect source lexemes rest s
  holds : ∀ f ∈ base, f.holdsDeclarations = true
  shape : s.shape source (Text.width (Lexeme.textOf lexemes)) = Shape.initial.atop base

/-- Without a header and inside declarations a place is free, and so are all others inside the same
braces. -/
theorem Reached.free (h : Reached dialect source lexemes rest s) (hidle : s.Idle)
    (hd : holdDeclarations s.braces = true) :
    ∃ base, Free dialect source lexemes rest s base ∧
      ∀ more rest' s', Reached dialect source more rest' s' → s'.Idle → s'.braces = s.braces →
        Free dialect source more rest' s' base := by
  have hall := (State.Sound.of_reached h).nested.holdsDeclarations hd
  have hbase : ∀ f ∈ s.braces.map (OpenBrace.frame source 0), f.holdsDeclarations = true := by
    intro f hf
    obtain ⟨b, hb, rfl⟩ := List.mem_map.1 hf
    have hkind := hall b hb
    unfold OpenBrace.frame
    cases hk : b.kind <;> simp_all [BraceKind.holdsDeclarations, Frame.holdsDeclarations]
  -- the frame of a brace in which declarations may stand remembers no place
  have hframes : ∀ offset, s.braces.map (OpenBrace.frame source offset) =
      s.braces.map (OpenBrace.frame source 0) := by
    intro offset
    refine List.map_congr_left fun b hb => ?_
    have hkind := hall b hb
    unfold OpenBrace.frame
    cases hk : b.kind <;> simp_all [BraceKind.holdsDeclarations]
  have hshape : ∀ (s' : State) (offset : Nat), s'.Idle → s'.braces = s.braces →
      s'.shape source offset = Shape.initial.atop (s.braces.map (OpenBrace.frame source 0)) := by
    intro s' offset hs' hb
    unfold State.shape
    rw [hs'.1, hs'.2, hb, hframes]
    rfl
  exact ⟨_, ⟨h, hbase, hshape s _ hidle rfl⟩,
    fun more rest' s' hr hs' hb => ⟨hr, hbase, hshape s' _ hs' hb⟩⟩

namespace Free

theorem header (h : Free dialect source lexemes rest s base) : s.header = none :=
  Option.map_eq_none_iff.1 (congrArg Shape.header h.shape)

/-- What is open at a place is determined by the place. -/
theorem base_unique {base' : List Frame} {rest' : Text}
    (h : Free dialect source lexemes rest s base) (h' : Free dialect source lexemes rest' s base') :
    base = base' :=
  congrArg Shape.frames (h.shape.symm.trans h'.shape)

/-- **What leads from nowhere to nowhere leads from a free place to a free place**, with the same
frames open. -/
theorem read {mid : Text} {more : List (Lexeme Kind)} {declared : List Declared}
    (h : Free dialect source lexemes mid s base) (hd : (rule dialect).Divides mid more rest)
    (hrun : Shape.initial.run dialect more = some (.initial, declared)) :
    ∃ u, Free dialect source (lexemes ++ more) rest u base ∧
      u.declared = s.declared ++ declared := by
  obtain ⟨hok, herror⟩ := run_shape h.reached hd
  rw [h.shape, Shape.run_atop h.holds hrun] at hok herror
  cases hu : runLexemes (State.step dialect source) (Text.width (Lexeme.textOf lexemes)) s more with
  | error fault => cases herror fault hu
  | ok u =>
    obtain ⟨d, hrun, hdeclared⟩ := hok u hu
    obtain ⟨hshape, rfl⟩ := Prod.mk.inj (Option.some.inj hrun)
    refine ⟨u, ⟨⟨h.reached.divides.append hd, ?_⟩, h.holds, hshape.symm⟩, hdeclared⟩
    rw [runLexemes_append, h.reached.runs, Nat.zero_add]
    exact hu

end Free

/-- Whether no header is under way at a byte and declarations may stand there. -/
def isFree (dialect : Dialect) (source : Text) (byte : Nat) : Bool :=
  match runLexemes (State.step dialect source) 0 .initial (lexemesIn dialect source ⟨0, byte⟩) with
  | .ok s => s.header.isNone && holdDeclarations s.braces
  | .error _ => false

theorem free_of_isFree {before after : List (Lexeme Kind)}
    (hs : Reached dialect source before rest s)
    (hall : ((rule dialect).lex source).lexemes = before ++ after)
    (hpos : ∀ l ∈ before ++ after, 0 < Text.width l.text)
    (hfree : isFree dialect source (Text.width (Lexeme.textOf before)) = true) :
    ∃ base, Free dialect source before rest s base := by
  have hin : lexemesIn dialect source ⟨0, Text.width (Lexeme.textOf before)⟩ = before := by
    rw [lexemesIn, hall]
    exact Lexeme.between_places (show ∀ l ∈ [] ++ (before ++ after), _ from hpos)
  unfold isFree at hfree
  rw [hin, hs.runs, Bool.and_eq_true, Option.isNone_iff_eq_none] at hfree
  obtain ⟨base, hbase, -⟩ :=
    hs.free ⟨hfree.1, (State.Sound.of_reached hs).idle hfree.1⟩ hfree.2
  exact ⟨base, hbase⟩

/-! ## The extent -/

/-- What has been found is what has been declared. -/
theorem State.countP_declared (s : State) :
    s.declared.countP Declared.isRoutine = s.found.countP Node.isRoutine := by
  rw [State.declared, List.countP_reverse, Node.countP_declared?, State.found, List.countP_filter]
  refine List.countP_congr fun n _ => ?_
  rw [Bool.and_eq_true]
  exact ⟨fun h => ⟨h, Node.declares_of_isRoutine h⟩, And.left⟩

/-- A stretch of lexemes between two free places, in which one routine is declared. -/
structure Enclosed (dialect : Dialect) (source : Text) (before inner : List (Lexeme Kind))
    (rest : Text) (s s' : State) (base : List Frame) : Prop where
  start : Free dialect source before (Lexeme.textOf inner ++ rest) s base
  stop : Free dialect source (before ++ inner) rest s' base
  count : s'.declared.countP Declared.isRoutine = s.declared.countP Declared.isRoutine + 1
  first : ∃ c text, Lexeme.textOf inner = c :: text ∧ Text.isPlainBlank c = false

/-- A routine on its own, from its first lexeme on. -/
theorem Framed.enclosed {n : Node} {last : State} (h : Framed dialect source lexemes n s s')
    (hr : Reached dialect source lexemes rest last) (hn : n.isRoutine = true)
    (hle : n.span.start ≤ n.span.stop) :
    ∃ before inner more base, lexemes = before ++ (inner ++ more) ∧
      Enclosed dialect source before inner (Lexeme.textOf more ++ rest) s s' base ∧
      n.span.start = Text.width (Lexeme.textOf before) ∧
      n.span.stop = Text.width (Lexeme.textOf (before ++ inner)) := by
  obtain ⟨first, ⟨before, after, mid, hlex, hs, hstart⟩, hhead⟩ := h.start
  obtain ⟨before', more, mid', hlex', hs', hstop⟩ := h.stop
  have hpos : ∀ l ∈ before, 0 < Text.width l.text := fun l hl => hs.divides.width_pos hl
  obtain ⟨inner, rfl⟩ := Lexeme.append_of_width_le (hlex.symm.trans hlex') hpos
    (by rw [← hstart, ← hstop]; exact hle)
  rw [List.append_assoc] at hlex'
  have hinner : inner.head? = some first := by
    have hsame : first :: after = inner ++ more := List.append_cancel_left (hlex.symm.trans hlex')
    cases inner with
    | nil =>
      -- between the two places the routine has been declared
      rw [List.append_nil] at hs'
      have hsame : s = s' := Except.ok.inj (hs.runs.symm.trans hs'.runs)
      have hfound := congrArg List.length (hsame ▸ h.found)
      simp at hfound
    | cons l inner => rw [(List.cons.inj hsame).1]; rfl
  obtain ⟨mid'', t, ht, hd, -⟩ := hs'.split
  have hmid : mid' = Lexeme.textOf more ++ rest := by
    have htext := hr.text
    rw [hlex', ← List.append_assoc, Lexeme.textOf_append, List.append_assoc] at htext
    exact List.append_cancel_left (hs'.text.symm.trans htext)
  have hmid'' : mid = Lexeme.textOf inner ++ mid' := by
    rw [hs.divides.rest_unique ht.divides]
    exact hd.text
  obtain ⟨base, hbase, hsame⟩ := Reached.free (hmid ▸ hmid'' ▸ hs) h.idle h.declared
  refine ⟨before, inner, more, base, hlex', ⟨hbase, hsame _ _ s' (hmid ▸ hs') h.idle' h.braces,
    ?_, ?_⟩, hstart, hstop⟩
  · rw [State.countP_declared, State.countP_declared, h.found, List.countP_cons_of_pos hn]
  · refine first_of_divides hd hinner ?_
    intro hk
    rw [hk] at hhead
    cases hhead

/-- **A whole text without a routine in front of a routine makes no difference**, if it begins at a
free place. -/
theorem Enclosed.lead {before lead inner : List (Lexeme Kind)} {t : State} {outer : List Frame}
    (h : Enclosed dialect source (before ++ lead) inner rest s s' base)
    (ht : Free dialect source before (Lexeme.textOf lead ++ (Lexeme.textOf inner ++ rest)) t outer)
    (hwhole : IsWhole dialect (Lexeme.textOf lead))
    (hnone : routinesIn dialect (Lexeme.textOf lead) = 0)
    (hfirst : ∃ c text, Lexeme.textOf lead = c :: text ∧ Text.isPlainBlank c = false) :
    Enclosed dialect source before (lead ++ inner) rest t s' base := by
  obtain ⟨mid, t', ht', hd, hrun⟩ := h.start.reached.split
  obtain rfl : t = t' := Except.ok.inj (ht.reached.runs.symm.trans ht'.runs)
  rw [hd.text] at ht'
  -- cut off from the routine, the lead has the same lexemes
  obtain ⟨d, hshape, -⟩ := (run_shape ht' (hd.text ▸ hd)).1 s hrun
  have hheader : (s.shape source (Text.width (Lexeme.textOf (before ++ lead)))).header = none :=
    Option.map_eq_none_iff.2 h.start.header
  have halone := divides_behind hd (Shape.seam hshape hheader (rfl : endsLine [] = true))
  rw [List.append_nil] at halone
  obtain ⟨declared, -, hlead, hcount⟩ := hwhole.run
  rw [Rule.lex, halone.lexFrom_eq] at hlead
  obtain ⟨u, hu, hdeclared⟩ := ht.read (hd.text ▸ hd) hlead
  obtain rfl : u = s := Except.ok.inj (hu.reached.runs.symm.trans h.start.reached.runs)
  obtain rfl : outer = base := hu.base_unique h.start
  refine ⟨?_, ?_, ?_, ?_⟩
  · rw [Lexeme.textOf_append, List.append_assoc]
    exact ht
  · rw [← List.append_assoc]
    exact h.stop
  · rw [h.count, hdeclared, List.countP_append, hcount, hnone]
  · obtain ⟨c, text, htext, hc⟩ := hfirst
    refine ⟨c, text ++ Lexeme.textOf inner, ?_, hc⟩
    rw [Lexeme.textOf_append, htext]
    rfl

/-- What stands between the begin of a comment and its routine: it begins at a free place, is whole
and holds no routine. -/
structure IsLead (dialect : Dialect) (source : Text) (span : Span) : Prop where
  free : isFree dialect source span.start = true
  whole : IsWhole dialect (span.of source)
  none : routinesIn dialect (span.of source) = 0

/-- **With its comment a routine is enclosed**, if the two of them have a lead. -/
theorem extent_enclosed {o : Outline} (h : outline dialect source = .ok o) {r : Routine}
    (hr : r.Stands o .preceding)
    (hlead : ∀ c, r.commentSpan = some c → IsLead dialect source ⟨c.start, r.span.start⟩) :
    ∃ before inner more s s' base,
      ((rule dialect).lex source).lexemes = before ++ (inner ++ more) ∧
      Enclosed dialect source before inner (Lexeme.textOf more) s s' base ∧
      r.extent.start = Text.width (Lexeme.textOf before) ∧
      r.extent.stop = Text.width (Lexeme.textOf (before ++ inner)) := by
  obtain ⟨lexemes, last, hreach, -, -, hrec⟩ := outline_reached h
  have hall : ((rule dialect).lex source).lexemes = lexemes := by
    rw [Rule.lex, hreach.divides.lexFrom_eq]
  obtain ⟨b, hmem, -, hcomment⟩ := hr.node
  obtain ⟨hle, -, -, -, s, s', hframed⟩ := hrec _ hmem
  obtain ⟨head, inner, more, base, hlex, henclosed, hstart, hstop⟩ := hframed.enclosed hreach rfl hle
  rw [List.append_nil] at henclosed
  rw [hall, Routine.Fits.extent_stop]
  rcases Routine.Fits.extent_start r with he | ⟨c, hc, he⟩
  · exact ⟨head, inner, more, s, s', base, hlex, henclosed, he.trans hstart, hstop⟩
  · obtain ⟨⟨d, hd, hdoc, rfl⟩, hjoin⟩ := hcomment c hc
    have hjoin := isAdjacent_le hjoin
    have hrecd := (hrec d hd).2
    rw [hdoc] at hrecd
    obtain ⟨before, comment, after, hlex', hcstart, hcstop, ⟨first, hfirst, hfirst'⟩, -⟩ := hrecd
    have hpos : ∀ l ∈ lexemes, 0 < Text.width l.text := fun l hl => hreach.divides.width_pos hl
    rw [← List.append_assoc] at hlex'
    obtain ⟨gap, rfl⟩ := Lexeme.append_of_width_le (hlex'.symm.trans hlex)
      (fun l hl => hpos l (hlex' ▸ List.mem_append_left _ hl))
      (by rw [← hcstop, ← hstart]; exact hjoin)
    rw [List.append_assoc before] at hlex hstart hstop henclosed
    obtain ⟨mid, t, ht, hdivides, -⟩ := henclosed.start.reached.split
    obtain ⟨hfree, hwhole, hnone⟩ := hlead d.span hc
    have hslice : Span.of ⟨d.span.start, r.span.start⟩ source = Lexeme.textOf (comment ++ gap) := by
      rw [Span.of, hcstart, show r.span.start = _ from hstart, ht.text, hdivides.text,
        Lexeme.textOf_append before, Text.width_append, Text.slice_middle]
    rw [hslice] at hwhole hnone
    rw [List.append_assoc before] at hlex
    obtain ⟨outer, hfree⟩ := free_of_isFree ht (hall.trans hlex) (hlex ▸ hpos) (hcstart ▸ hfree)
    have hkind : first.kind ≠ .blank := by
      intro hk
      rw [hk] at hfirst'
      cases hfirst'
    have hfirst := first_of_divides hdivides (by rw [List.head?_append, hfirst]; rfl) hkind
    have hextent := henclosed.lead (hdivides.text ▸ hfree) hwhole hnone hfirst
    refine ⟨before, (comment ++ gap) ++ inner, more, t, s', base, ?_, hextent, he.trans hcstart, ?_⟩
    · rw [hlex, List.append_assoc (comment ++ gap)]
    · rw [← List.append_assoc]
      exact hstop

end Scholia.Source.Braced
