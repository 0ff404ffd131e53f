import Scholia.Harvest
import Scholia.Proofs.Comment.Worn
import Scholia.Proofs.Layout.Loss
import Scholia.Proofs.Source.Walk
/-!
# The loss of a blank and the survey

If the places of an outline move with the text when a blank before a line feed is lost, the survey
finds the same routines, with comments that say the same.

That the places move in this way is the matter of each language's scanner. What is asked of them is
that declarations and comments start with something that is no blank, and that comments stop on the
line of such a thing.
-/

namespace Scholia.Source

open Layout (Loss IsStart IsStop)
open Text (IsCut Worn)

/-! ## Moved places -/

/-- A range whose ends have moved. -/
def Span.moved (f : Nat → Nat) (span : Span) : Span :=
  ⟨f span.start, f span.stop⟩

def NodeKind.moved (f : Nat → Nat) : NodeKind → NodeKind
  | routine name bodyStart => routine name (f bodyStart)
  | kind => kind

/-- A node whose places have moved. -/
def Node.moved (f : Nat → Nat) (n : Node) : Node :=
  ⟨n.kind.moved f, n.signature, n.span.moved f⟩

def Scope.moved (f : Nat → Nat) : Scope → Scope
  | typeDecl stop => typeDecl (f stop)
  | routine name signature span bodyStart comment =>
    routine name signature (span.moved f) (f bodyStart) (comment.map (Span.moved f))
  | inner stop => inner (f stop)

@[simp] theorem Scope.stop_moved (f : Nat → Nat) (s : Scope) : (s.moved f).stop = f s.stop := by
  cases s <;> rfl

@[simp] theorem Scope.isBody_moved (f : Nat → Nat) (s : Scope) : (s.moved f).isBody = s.isBody := by
  cases s <;> rfl

/-- What the documentation of a text has of a routine. -/
def Routine.entry (language : Language) (r : Routine) : Text × Except Undocumented (List Doc.Line) :=
  (r.signature, r.document language)

theorem Routine.entry_eq {language : Language} {r r' : Routine}
    (hsignature : r.signature = r'.signature) (hempty : r.comment.isEmpty = r'.comment.isEmpty)
    (hread : Comment.read language r.comment = Comment.read language r'.comment) :
    r.entry language = r'.entry language := by
  unfold Routine.entry Routine.document Routine.hasComment
  rw [hsignature, hempty, hread]

variable {e : Loss} {language : Language}

/-- A comment says the same without the blank. -/
structure Reads (e : Loss) (language : Language) (comment : Span) : Prop where
  isEmpty : (comment.of e.whole).isEmpty = ((comment.moved e.place).of e.left).isEmpty
  read : Comment.read language (comment.of e.whole) =
    Comment.read language ((comment.moved e.place).of e.left)

/-- What the survey needs to know of a node. -/
structure Node.Marked (e : Loss) (language : Language) (n : Node) : Prop where
  start : IsStart e.whole n.span.start
  doc : n.kind = .doc → IsStop e.whole n.span.stop ∧ Reads e language n.span
  body : language.attachment = .firstStatement → ∀ name b, n.kind = .routine name b →
    IsStop e.whole b

/-! ## Which comment belongs to a routine -/

theorem isGapLine_trimEnd (line : Text) : isGapLine (Text.trimEnd line) = isGapLine line := by
  unfold isGapLine
  rw [Text.trim_trimEnd]

theorem isAdjacent_place {stop start : Nat} (hstop : IsStop e.whole stop)
    (hstart : IsStart e.whole start) :
    isAdjacent e.left (e.place stop) (e.place start) = isAdjacent e.whole stop start := by
  have hle := Loss.place_le_iff (e := e) (m := stop) (.inr (Loss.ne_of_isStart hstart))
  unfold isAdjacent
  by_cases h : stop ≤ start
  · rw [(Loss.worn_slice (.inr hstop) hstart h).all_lines isGapLine_trimEnd]
    simp only [h, hle.2 h]
  · have h' : ¬ e.place stop ≤ e.place start := fun he => h (hle.1 he)
    simp only [h, h', decide_false, Bool.false_and]

/-- Blanks may stand anywhere at the end of a header, and line feeds behind its comments. -/
theorem onlyHeaderEnd_worn {s t : Text} (h : Worn s t) (inComment : Bool) :
    onlyHeaderEnd inComment s = onlyHeaderEnd inComment t := by
  cases h with
  | same => rfl
  | @lost u x v hx hu =>
    have hlost : ∀ inComment, onlyHeaderEnd inComment (x :: '\n' :: v) =
        onlyHeaderEnd inComment ('\n' :: v) := by
      intro inComment
      rcases Text.isLayout_iff.1 hx with rfl | rfl | rfl | rfl <;> cases inComment <;> rfl
    clear hu
    induction u generalizing inComment with
    | nil => exact hlost inComment
    | cons c u ih =>
      by_cases hc : c = '\n'
      · subst hc
        exact ih false
      · have hcons : ∀ r, onlyHeaderEnd inComment (c :: r) =
            if inComment then onlyHeaderEnd true r
            else if c == '#' then onlyHeaderEnd true r
            else (Text.isBlank c || c == ':') && onlyHeaderEnd false r := by
          intro r
          rw [onlyHeaderEnd]
          exact fun he => hc he
        rw [List.cons_append, List.cons_append, hcons, hcons, ih, ih]

theorem isFirstStatement_place {bodyStart start : Nat} (hbody : IsStop e.whole bodyStart)
    (hstart : IsStart e.whole start) :
    isFirstStatement e.left (e.place bodyStart) (e.place start) =
      isFirstStatement e.whole bodyStart start := by
  have hle := Loss.place_le_iff (e := e) (m := bodyStart) (.inr (Loss.ne_of_isStart hstart))
  unfold isFirstStatement
  by_cases h : bodyStart ≤ start
  · rw [onlyHeaderEnd_worn (Loss.worn_slice (.inr hbody) hstart h)]
    simp only [h, hle.2 h]
  · have h' : ¬ e.place bodyStart ≤ e.place start := fun he => h (hle.1 he)
    simp only [h, h', decide_false, Bool.false_and]

/-! ## The walk -/

/-- What the walk remembers with an open scope. -/
def Scope.Marked (e : Loss) (language : Language) : Scope → Prop
  | routine _ _ _ bodyStart comment =>
    (∀ c, comment = some c → Reads e language c) ∧
      (language.attachment = .firstStatement → IsStop e.whole bodyStart)
  | _ => True

/-- A scope yields the same entry. -/
theorem Scope.entry_moved {s : Scope} (h : s.Marked e language) :
    ((s.moved e.place).closed? e.left).map (Routine.entry language) =
      (s.closed? e.whole).map (Routine.entry language) := by
  cases s with
  | typeDecl stop => rfl
  | inner stop => rfl
  | routine name signature span bodyStart comment =>
    cases comment with
    | none => rfl
    | some c =>
      obtain ⟨hempty, hread⟩ := h.1 c rfl
      exact congrArg some (Routine.entry_eq rfl hempty.symm hread.symm)

theorem Scope.entries_moved {scopes : List Scope} (h : ∀ s ∈ scopes, s.Marked e language) :
    ((scopes.map (Scope.moved e.place)).filterMap (Scope.closed? e.left)).map
        (Routine.entry language) =
      (scopes.filterMap (Scope.closed? e.whole)).map (Routine.entry language) := by
  rw [List.map_filterMap, List.map_filterMap, List.filterMap_map]
  induction scopes with
  | nil => rfl
  | cons s scopes ih =>
    rw [List.filterMap_cons, List.filterMap_cons, ih fun s' hs' => h s' (List.mem_cons_of_mem _ hs')]
    have hs := Scope.entry_moved (h s List.mem_cons_self)
    simp only [Function.comp_def, hs]

/-- Two walks, over the whole text and over what is left of it. -/
structure Walk.Alike (e : Loss) (language : Language) (w w' : Walk) : Prop where
  scopes : w'.scopes = w.scopes.map (Scope.moved e.place)
  pending : w'.pending = w.pending.map (Span.moved e.place)
  entries : w'.routines.map (Routine.entry language) = w.routines.map (Routine.entry language)
  marked : ∀ s ∈ w.scopes, s.Marked e language
  comment : ∀ c, w.pending = some c → IsStop e.whole c.stop ∧ Reads e language c

namespace Walk.Alike

variable {w w' : Walk}

theorem found (h : w.Alike e language w') :
    (w'.found e.left).map (Routine.entry language) =
      (w.found e.whole).map (Routine.entry language) := by
  rw [Walk.found, Walk.found, List.map_append, List.map_append, h.entries, h.scopes,
    Scope.entries_moved h.marked]

theorem inBody (h : w.Alike e language w') :
    w'.scopes.any Scope.isBody = w.scopes.any Scope.isBody := by
  rw [h.scopes, List.any_map]
  simp only [Function.comp_def, Scope.isBody_moved]

/-- Scopes close at the same places. -/
theorem close (h : w.Alike e language w') {ended ended' : Scope → Bool}
    (hended : ∀ s ∈ w.scopes, ended' (s.moved e.place) = ended s) :
    (w.close e.whole ended).Alike e language (w'.close e.left ended') := by
  have hall : ∀ scopes : List Scope, (∀ s ∈ scopes, ended' (s.moved e.place) = ended s) →
      (scopes.map (Scope.moved e.place)).takeWhile ended' =
          (scopes.takeWhile ended).map (Scope.moved e.place) ∧
        (scopes.map (Scope.moved e.place)).dropWhile ended' =
          (scopes.dropWhile ended).map (Scope.moved e.place) := by
    intro scopes
    induction scopes with
    | nil => exact fun _ => ⟨rfl, rfl⟩
    | cons s scopes ih =>
      intro hs
      obtain ⟨htake, hdrop⟩ := ih fun s' hs' => hs s' (List.mem_cons_of_mem _ hs')
      rw [List.map_cons, List.takeWhile_cons, List.dropWhile_cons, List.takeWhile_cons,
        List.dropWhile_cons, hs s List.mem_cons_self, htake, hdrop]
      cases ended s <;> exact ⟨rfl, rfl⟩
  obtain ⟨htake, hdrop⟩ := hall w.scopes hended
  have hmarked : ∀ s ∈ w.scopes.takeWhile ended, s.Marked e language :=
    fun s hs => h.marked s ((List.takeWhile_sublist _).subset hs)
  refine ⟨?_, h.pending, ?_, ?_, h.comment⟩
  · simp only [Walk.close, Walk.closeWhile_eq, h.scopes, hdrop]
  · simp only [Walk.close, Walk.closeWhile_eq, h.scopes, htake, List.map_append, h.entries,
      Scope.entries_moved hmarked]
  · simp only [Walk.close, Walk.closeWhile_eq]
    exact fun s hs => h.marked s ((List.dropWhile_sublist _).subset hs)

/-- A scope that opens, in both walks. -/
theorem push (h : w.Alike e language w') (scope : Scope) (hs : scope.Marked e language)
    (types types' : List TypeDecl) :
    Walk.Alike e language { w with pending := none, scopes := scope :: w.scopes, types }
      { w' with pending := none, scopes := scope.moved e.place :: w'.scopes, types := types' } where
  scopes := by rw [h.scopes, List.map_cons]
  pending := rfl
  entries := h.entries
  marked := fun s hmem => by
    rcases List.mem_cons.1 hmem with rfl | hmem
    · exact hs
    · exact h.marked s hmem
  comment := fun _ hc => by cases hc

/-- A literal is taken by the same scopes. -/
theorem withLiteral_moved {scope : Scope} {literal : Span}
    (h : language.attachment = .firstStatement) (hs : scope.Marked e language)
    (hstart : IsStart e.whole literal.start) :
    (scope.moved e.place).withLiteral e.left (literal.moved e.place) =
      (scope.withLiteral e.whole literal).moved e.place := by
  cases scope with
  | typeDecl stop => rfl
  | inner stop => rfl
  | routine name signature span bodyStart comment =>
    cases comment with
    | some c => rfl
    | none =>
      have hfirst := isFirstStatement_place (hs.2 h) hstart
      simp only [Scope.moved, Option.map_none, Scope.withLiteral]
      rw [show (literal.moved e.place).start = e.place literal.start from rfl, hfirst]
      split <;> rfl

theorem withLiteral_marked {scope : Scope} {literal : Span} (hs : scope.Marked e language)
    (hread : Reads e language literal) : (scope.withLiteral e.whole literal).Marked e language := by
  cases scope with
  | typeDecl stop => trivial
  | inner stop => trivial
  | routine name signature span bodyStart comment =>
    cases comment with
    | some c => exact hs
    | none =>
      refine ⟨fun c hc => ?_, hs.2⟩
      split at hc
      · cases hc
        exact hread
      · cases hc

/-- **A node is entered alike**. -/
theorem enter (h : w.Alike e language w') {n : Node} (hn : n.Marked e language) :
    (w.enter e.whole language.attachment n).Alike e language
      (w'.enter e.left language.attachment (n.moved e.place)) := by
  obtain ⟨kind, signature, span⟩ := n
  unfold Walk.enter
  simp only [h.inBody]
  cases kind with
  | doc =>
    obtain ⟨hstop, hread⟩ := hn.doc rfl
    cases hattach : language.attachment with
    | preceding =>
      simp only [Node.moved, NodeKind.moved]
      split
      · exact h
      · exact ⟨h.scopes, rfl, h.entries, h.marked, fun c hc => by cases hc; exact ⟨hstop, hread⟩⟩
    | firstStatement =>
      simp only [Node.moved, NodeKind.moved, h.scopes]
      cases hscopes : w.scopes with
      | nil => exact h
      | cons scope outer =>
        have hmarked : ∀ s ∈ scope :: outer, s.Marked e language := hscopes ▸ h.marked
        refine ⟨?_, h.pending, h.entries, fun s hs => ?_, h.comment⟩
        · simp only [List.map_cons]
          rw [withLiteral_moved hattach (hmarked scope List.mem_cons_self) hn.start]
        · rcases List.mem_cons.1 hs with rfl | hs
          · exact withLiteral_marked (hmarked scope List.mem_cons_self) hread
          · exact hmarked s (List.mem_cons_of_mem _ hs)
  | typeDecl name =>
    simp only [Node.moved, NodeKind.moved]
    split
    · exact h.push (.inner span.stop) trivial w.types w'.types
    · exact h.push (.typeDecl span.stop) trivial _ _
  | routine name bodyStart =>
    simp only [Node.moved, NodeKind.moved]
    split
    · exact h.push (.inner span.stop) trivial w.types w'.types
    · have hbody : language.attachment = .firstStatement → IsStop e.whole bodyStart :=
        fun ha => hn.body ha name bodyStart rfl
      cases hattach : language.attachment with
      | firstStatement =>
        exact h.push (.routine name signature span bodyStart none)
          ⟨(fun c hc => by cases hc), hbody⟩ w.types w'.types
      | preceding =>
        have hcomment : (w'.pending.filter fun c =>
              isAdjacent e.left c.stop (span.moved e.place).start) =
            (w.pending.filter fun c => isAdjacent e.whole c.stop span.start).map
              (Span.moved e.place) := by
          rw [h.pending]
          cases hp : w.pending with
          | none => rfl
          | some c =>
            have hadj := isAdjacent_place (h.comment c hp).1 hn.start
            simp only [Option.map_some, Option.filter_some]
            rw [show (c.moved e.place).stop = e.place c.stop from rfl,
              show (span.moved e.place).start = e.place span.start from rfl, hadj]
            split <;> rfl
        simp only [hcomment]
        refine h.push (.routine name signature span bodyStart
          (w.pending.filter fun c => isAdjacent e.whole c.stop span.start))
          ⟨fun c hc => ?_, hbody⟩ w.types w'.types
        exact (h.comment c (Option.filter_eq_some_iff.1 hc).1).2

theorem step (h : w.Alike e language w') {n : Node} (hn : n.Marked e language) :
    (w.step e.whole language.attachment n).Alike e language
      (w'.step e.left language.attachment (n.moved e.place)) := by
  refine (h.close fun s _ => ?_).enter hn
  have hle := Loss.place_le_iff (e := e) (m := s.stop) (.inr (Loss.ne_of_isStart hn.start))
  rw [Scope.stop_moved]
  exact decide_eq_decide.2 hle

theorem foldl (h : w.Alike e language w') {nodes : List Node}
    (hn : ∀ n ∈ nodes, n.Marked e language) :
    (nodes.foldl (Walk.step e.whole language.attachment) w).Alike e language
      ((nodes.map (Node.moved e.place)).foldl (Walk.step e.left language.attachment) w') := by
  induction nodes generalizing w w' with
  | nil => exact h
  | cons n nodes ih =>
    exact ih (h.step (hn n List.mem_cons_self)) fun m hm => hn m (List.mem_cons_of_mem _ hm)

end Walk.Alike

/-! ## The survey -/

/-- Moved nodes stand in the same order. -/
theorem ofNodes_moved {nodes : List Node} (hn : ∀ n ∈ nodes, n.Marked e language) :
    (Outline.ofNodes e.left (nodes.map (Node.moved e.place))).nodes =
      (Outline.ofNodes e.whole nodes).nodes.map (Node.moved e.place) := by
  refine (List.map_mergeSort fun m hm n hn' => ?_).symm
  exact decide_eq_decide.2
    (Loss.place_le_iff (.inr (Loss.ne_of_isStart (hn n hn').start))).symm

/-- **The survey finds the same routines with the same documentation**. -/
theorem entries_survey {nodes : List Node} (hn : ∀ n ∈ nodes, n.Marked e language)
    (hfits : (Outline.ofNodes e.whole nodes).Fits)
    (hfits' : (Outline.ofNodes e.left (nodes.map (Node.moved e.place))).Fits) :
    ((Outline.ofNodes e.left (nodes.map (Node.moved e.place))).survey
        language.attachment).1.map (Routine.entry language) =
      ((Outline.ofNodes e.whole nodes).survey language.attachment).1.map
        (Routine.entry language) := by
  obtain ⟨-, w, -, rfl, hw⟩ := hfits.survey_last language.attachment
  obtain ⟨-, w', -, rfl, hw'⟩ := hfits'.survey_last language.attachment
  have hinitial : Walk.Alike e language ⟨[], none, [], []⟩ ⟨[], none, [], []⟩ :=
    ⟨rfl, rfl, rfl, (fun s hs => by cases hs), fun c hc => by cases hc⟩
  rw [hw, hw', ofNodes_moved hn]
  exact (hinitial.foldl fun n hmem => hn n (List.mem_mergeSort.1 hmem)).found

end Scholia.Source
