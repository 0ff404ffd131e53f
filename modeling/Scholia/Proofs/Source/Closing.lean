import Mathlib.Data.List.Basic
import Scholia.Harvest
import Scholia.Proofs.Source.Braced.Seam
import Scholia.Proofs.Source.Procedural.Lines
import Scholia.Proofs.Source.Slices
import Scholia.Proofs.Text.Worn
/-!
# A line feed at the end of a text

Whether the last line of a text is ended by a line feed does not matter: the text has the same
outline with it, and the walk over the outline finds the same routines.

The one exception is a backslash that ends a text of the indented language. It is code there, and
with a line feed behind it an end of line that is covered.
-/

namespace Scholia.Source

/-! ## The walk over a longer text -/

section Walk

variable {o : Outline} {attachment : Attachment} {pos : Nat} {w : Walk}

theorem Walk.Sound.closed?_append (h : w.Sound o attachment pos)
    (hn : ∀ n ∈ o.nodes, n.Fits o.source) (t : Text) {scope : Scope} (hs : scope ∈ w.scopes) :
    scope.closed? (o.source ++ t) = scope.closed? o.source := by
  cases scope with
  | typeDecl stop => rfl
  | inner stop => rfl
  | routine name signature span b comment =>
    have hnode := hn _ (h.opened name signature span b comment hs)
    obtain ⟨-, hstop, hcut⟩ := hnode.body name b rfl
    have hbody : Span.Fits o.source ⟨b, span.stop⟩ := ⟨hstop, hcut, hnode.span.stop_cut⟩
    have hbody := hbody.of_append t
    simp only [Span.of] at hbody
    simp only [Scope.closed?, hbody]
    cases comment with
    | none => rfl
    | some c =>
      have hmem : _ ∈ w.found o.source :=
        List.mem_append_right _ (List.mem_filterMap.2 ⟨_, hs, rfl⟩)
      have hcomment := ((h.stands _ hmem).fits hn).commentSpan c rfl
      simp only [Option.map_some, hcomment.of_append t]

theorem Walk.Sound.close_append (h : w.Sound o attachment pos)
    (hn : ∀ n ∈ o.nodes, n.Fits o.source) (t : Text) (ended : Scope → Bool) :
    w.close (o.source ++ t) ended = w.close o.source ended := by
  have hclosed : (w.scopes.takeWhile ended).filterMap (Scope.closed? (o.source ++ t)) =
      (w.scopes.takeWhile ended).filterMap (Scope.closed? o.source) :=
    List.filterMap_congr fun s hs =>
      h.closed?_append hn t ((List.takeWhile_sublist ended).subset hs)
  simp only [Walk.close, Walk.closeWhile_eq, hclosed]

theorem Walk.Sound.step_append (h : w.Sound o attachment pos)
    (hn : ∀ n ∈ o.nodes, n.Fits o.source) (t : Text) {node : Node} (hnode : node ∈ o.nodes)
    (hpos : pos ≤ node.span.start) :
    w.step (o.source ++ t) attachment node = w.step o.source attachment node := by
  rw [Walk.step, Walk.step, h.close_append hn]
  exact Walk.enter_congr fun span hspan =>
    ((h.close hn hpos).slices_fit hn hnode span hspan).of_append t

/-- **The survey reads nothing behind the text**. -/
theorem Outline.Fits.survey_append (h : o.Fits) (attachment : Attachment) (t : Text) :
    Outline.survey ⟨o.source ++ t, o.nodes⟩ attachment = o.survey attachment := by
  have key : ∀ nodes : List Node, (∀ n ∈ nodes, n ∈ o.nodes) →
      nodes.Pairwise (fun m n => m.span.start ≤ n.span.start) → ∀ pos w,
      (∀ n ∈ nodes, pos ≤ n.span.start) → Walk.Sound o attachment pos w →
      nodes.foldl (Walk.step (o.source ++ t) attachment) w =
        nodes.foldl (Walk.step o.source attachment) w := by
    intro nodes
    induction nodes with
    | nil => exact fun _ _ _ _ _ _ => rfl
    | cons node rest ih =>
      intro hsub hsorted pos w hpos hw
      have hnode := hsub node List.mem_cons_self
      have hle := hpos node List.mem_cons_self
      rw [List.pairwise_cons] at hsorted
      rw [List.foldl_cons, List.foldl_cons, hw.step_append h.nodes t hnode hle]
      exact ih (fun n hn => hsub n (List.mem_cons_of_mem _ hn)) hsorted.2 _ _ hsorted.1
        (hw.step h.nodes hnode hle)
  have hfold := key o.nodes (fun _ hn => hn) h.sorted 0 _ (fun _ _ => Nat.zero_le _)
    (Walk.Sound.initial o attachment)
  obtain ⟨last, w, hsound, hw, -⟩ := h.survey_last attachment
  simp only [Outline.survey]
  rw [hfold, ← hw, hsound.close_append h.nodes]

end Walk

/-! ## Lexemes and the last line feed -/

variable {κ σ : Type}

/-- What is found at the front of a text when a line feed ends the text. -/
def Front.closed : Front κ → Front κ
  | found lexeme rest => found lexeme (rest ++ ['\n'])
  | unterminated what ahead => unterminated what ahead

/-- What is found is found with the line feed behind it, or it takes the line feed and steps do the
same with it. -/
def Front.Closes (step : σ → Nat → Lexeme κ → Except Fault σ) (f f' : Front κ) : Prop :=
  f' = f.closed ∨ ∃ l l', f = .found l [] ∧ f' = .found l' [] ∧ ∀ s n, step s n l' = step s n l

/-- Carries a state over all lexemes from a byte on. -/
def Lexing.runFrom (language : Language) (step : σ → Nat → Lexeme κ → Except Fault σ)
    (offset : Nat) (state : σ) (lexing : Lexing κ) : Except Fault σ := do
  let state ← runLexemes step offset state lexing.lexemes
  match lexing.open? with
  | some (what, offset) => .error (.unterminated language what offset)
  | none => .ok state

theorem Rule.runFrom_found {rule : Rule κ} {c : Char} {r rest : Text} {l : Lexeme κ}
    (h : rule.front c r = .found l rest) (language : Language)
    (step : σ → Nat → Lexeme κ → Except Fault σ) (offset : Nat) (state : σ) :
    (rule.lexFrom offset (c :: r)).runFrom language step offset state = step state offset l >>=
      fun state => (rule.lexFrom (offset + Text.width l.text) rest).runFrom language step
        (offset + Text.width l.text) state := by
  rw [Rule.lexFrom]
  split
  · next hf =>
    rw [h] at hf
    cases hf
  · next hf =>
    rw [h] at hf
    cases hf
    simp only [Lexing.runFrom, runLexemes, bind_assoc]

theorem Rule.runFrom_unterminated {rule : Rule κ} {c : Char} {r : Text} {what : Literal}
    {ahead : Nat} (h : rule.front c r = .unterminated what ahead) (language : Language)
    (step : σ → Nat → Lexeme κ → Except Fault σ) (offset : Nat) (state : σ) :
    (rule.lexFrom offset (c :: r)).runFrom language step offset state =
      .error (.unterminated language what (offset + ahead)) := by
  rw [Rule.lexFrom]
  split
  · next hf =>
    rw [h] at hf
    cases hf
    rfl
  · next hf =>
    rw [h] at hf
    cases hf

/-- **A line feed at the end of a text changes nothing in the end**, if it ends with nothing that
the line feed belongs to. -/
theorem Rule.run_closed {α : Type} (rule : Rule κ) (step : σ → Nat → Lexeme κ → Except Fault σ)
    (finish : σ → Except Fault α) {s : Text} (language : Language) (state : σ) {kind : κ}
    (hfront : ∀ c r, c :: r <:+ s → (rule.front c r).Closes step (rule.front c (r ++ ['\n'])))
    (hnewline : rule.front '\n' [] = .found ⟨kind, ['\n']⟩ [])
    (hend : ∀ s n, step s n ⟨kind, ['\n']⟩ >>= finish = finish s) :
    (rule.lex (s ++ ['\n'])).run language step state >>= finish =
      (rule.lex s).run language step state >>= finish := by
  have hnil : ∀ offset state, (rule.lexFrom offset []).runFrom language step offset state =
      .ok state := by
    intro offset state
    rw [Rule.lexFrom]
    rfl
  have key : ∀ n, ∀ t : Text, t.length = n → t <:+ s → ∀ offset state,
      (rule.lexFrom offset (t ++ ['\n'])).runFrom language step offset state >>= finish =
        (rule.lexFrom offset t).runFrom language step offset state >>= finish := by
    intro n
    induction n using Nat.strongRecOn with
    | ind n ih =>
      intro t hn ht offset state
      cases t with
      | nil =>
        rw [List.nil_append, runFrom_found hnewline, hnil, bind_assoc]
        simp only [hnil]
        exact hend state offset
      | cons c r =>
        rw [List.cons_append]
        rcases hfront c r ht with hclosed | ⟨l, l', hl, hl', hsame⟩
        · cases hf : rule.front c r with
          | unterminated what ahead =>
            rw [hf] at hclosed
            rw [runFrom_unterminated hf, runFrom_unterminated hclosed]
          | found l rest =>
            rw [hf] at hclosed
            rw [runFrom_found hf, runFrom_found hclosed, bind_assoc, bind_assoc]
            refine congrArg (bind _) (funext fun state => ?_)
            have hkeeps := rule.keeps c r l rest hf
            refine ih rest.length ?_ rest rfl ?_ _ _
            · exact hn ▸ rule.rest_shorter hf
            · exact List.IsSuffix.trans ⟨l.text, hkeeps⟩ ht
        · rw [runFrom_found hl, runFrom_found hl', hsame, bind_assoc, bind_assoc]
          simp only [hnil]
  exact key _ s rfl (List.suffix_refl s) 0 state

/-- Carrying a state over lexemes reads nothing of the source but what it cuts out. -/
theorem runLexemes_congr {source source' : Text}
    {step step' : σ → Nat → Lexeme κ → Except Fault σ} (cut : σ → Nat → Lexeme κ → List Span)
    (hstep : ∀ s n l, (∀ span ∈ cut s n l, span.of source = span.of source') →
      step s n l = step' s n l) (offset : Nat) (state : σ) (lexemes : List (Lexeme κ))
    (h : ∀ span ∈ slicesOver step cut offset state lexemes, span.of source = span.of source') :
    runLexemes step offset state lexemes = runLexemes step' offset state lexemes := by
  induction lexemes generalizing offset state with
  | nil => rfl
  | cons l rest ih =>
    have hhead := hstep state offset l fun span hspan => h span (List.mem_append_left _ hspan)
    rw [runLexemes, runLexemes, ← hhead]
    cases hs : step state offset l with
    | error fault => rfl
    | ok state' =>
      refine ih _ state' fun span hspan => h span (List.mem_append_right _ ?_)
      rw [hs]
      exact hspan

/-! ## Scans of literals -/

/-- What a scan finds stands before the last line feed. -/
def ScanCloses (scan : Text → Option (Text × Text)) : Prop :=
  ∀ r, scan (r ++ ['\n']) = (scan r).map fun (inner, rest) => (inner, rest ++ ['\n'])

theorem cutAt?_closed {p : Text} (hp : '\n' ∉ p) (hne : p ≠ []) : ScanCloses (Text.cutAt? p) := by
  have hnil : Text.cutAt? p [] = none := by
    cases p with
    | nil => exact absurd rfl hne
    | cons d p => rfl
  intro r
  rw [Text.cutAt?_append hp hne, hnil]
  cases Text.cutAt? p r <;> rfl

theorem quoted_closed (q : Char) : ScanCloses (quoted q) := by
  intro r
  fun_induction quoted q r with
  | case1 => rw [List.nil_append, quoted_cons (by decide), if_pos rfl, Option.map_none]
  | case2 => rfl
  | case3 c r ih =>
    rw [List.cons_append, List.cons_append, quoted, ih]
    cases quoted q r <;> rfl
  | case4 r _ _ => rw [List.cons_append, quoted_cons (by decide), if_pos rfl, Option.map_none]
  | case5 r hr hr' hc =>
    have hslash := ne_backslash hr hr'
    rw [List.cons_append, quoted_cons hslash, if_neg hc, if_pos rfl, Option.map_some]
  | case6 c r hr hr' hc hcq ih =>
    have hslash := ne_backslash hr hr'
    rw [List.cons_append, quoted_cons hslash, if_neg hc, if_neg hcq, ih]
    cases quoted q r <;> rfl

theorem takeWhile_closed (r : Text) :
    (r ++ ['\n']).takeWhile (· != '\n') = r.takeWhile (· != '\n') :=
  Text.takeWhile_stop (by decide) r []

theorem dropWhile_closed (r : Text) :
    (r ++ ['\n']).dropWhile (· != '\n') = r.dropWhile (· != '\n') ++ ['\n'] := by
  rw [List.dropWhile_append]
  split
  · next h =>
    rw [List.isEmpty_iff.1 h]
    rfl
  · rfl

/-- The last line feed is no part of a pattern without one. -/
theorem append_of_closed {p body r : Text} (hp : '\n' ∉ p) (h : r ++ ['\n'] = p ++ body) :
    ∃ body', r = p ++ body' := by
  rcases List.append_eq_append_iff.1 h with ⟨a, hpr, ha⟩ | ⟨b, hr, -⟩
  · cases a with
    | nil => exact ⟨[], by simpa using hpr.symm⟩
    | cons c a =>
      obtain ⟨rfl, -⟩ := List.cons.inj ha
      exact absurd (hpr ▸ by simp) hp
  · exact ⟨b, hr⟩

theorem head?_closed {r : Text} {d : Char} (hd : d ≠ '\n') (h : r.head? ≠ some d) :
    (r ++ ['\n']).head? ≠ some d := by
  cases r with
  | nil => simpa using hd.symm
  | cons b r => exact h

/-! ## Brace languages -/

namespace Braced

variable {dialect : Dialect}

theorem verbatim_closed : ScanCloses verbatim := by
  intro r
  fun_induction verbatim r with
  | case1 => rfl
  | case2 r ih =>
    rw [List.cons_append, List.cons_append, verbatim, ih]
    cases verbatim r <;> rfl
  | case3 r hr =>
    rw [List.cons_append, verbatim_quote, Option.map_some]
    cases r with
    | nil => simp
    | cons d r =>
      intro hd
      cases hd
      exact hr r rfl
  | case4 c r hr hr' ih =>
    have hc : c ≠ '"' := fun he => hr' he
    rw [List.cons_append, verbatim_cons hc, ih]
    cases verbatim r <;> rfl

theorem literal_closed {scan : Text → Option (Text × Text)} (h : ScanCloses scan) (opening : Text)
    (what : Literal) (ahead : Nat) (r : Text) :
    literal opening what ahead (scan (r ++ ['\n'])) =
      (literal opening what ahead (scan r)).closed := by
  rw [h r]
  cases scan r <;> rfl

/-- **What stands at the front of a text stands there with a line feed at its end**. -/
theorem front_closed (c : Char) (r : Text) :
    front dialect c (r ++ ['\n']) = (front dialect c r).closed := by
  by_cases hquote : c = '"'
  · subst hquote
    by_cases htext : ∃ body, r = '"' :: '"' :: body
    · obtain ⟨body, rfl⟩ := htext
      have hcut := cutAt?_closed (p := ['"', '"', '"']) (by decide) (by decide) body
      simp only [front, List.cons_append, hcut]
      cases Text.cutAt? ['"', '"', '"'] body <;> rfl
    · have hr : ∀ body, r ≠ '"' :: '"' :: body := fun body he => htext ⟨body, he⟩
      have hr' : ∀ body, r ++ ['\n'] ≠ '"' :: '"' :: body := fun body he =>
        htext (append_of_closed (p := ['"', '"']) (by decide) he)
      rw [front_string hr, front_string hr']
      exact literal_closed (quoted_closed '"') _ _ _ r
  by_cases hsingle : c = '\''
  · subst hsingle
    exact literal_closed (quoted_closed '\'') _ _ _ r
  by_cases hline : c = '/' ∧ r.head? = some '/'
  · obtain ⟨rfl, hline⟩ := hline
    obtain ⟨body, rfl⟩ := List.head?_eq_some_iff.1 hline
    show Front.found ⟨Kind.lineComment, ('/' :: '/' :: body ++ ['\n']).takeWhile (· != '\n')⟩
      (('/' :: body ++ ['\n']).dropWhile (· != '\n')) = _
    rw [takeWhile_closed, dropWhile_closed]
    rfl
  by_cases hblock : c = '/' ∧ r.head? = some '*'
  · obtain ⟨rfl, hblock⟩ := hblock
    obtain ⟨body, rfl⟩ := List.head?_eq_some_iff.1 hblock
    have hcut := cutAt?_closed (p := ['*', '/']) (by decide) (by decide) body
    simp only [front, List.cons_append, hcut]
    cases Text.cutAt? ['*', '/'] body <;> rfl
  by_cases hverbatim : c = '@' ∧ r.head? = some '"'
  · obtain ⟨rfl, hverbatim⟩ := hverbatim
    obtain ⟨body, rfl⟩ := List.head?_eq_some_iff.1 hverbatim
    simp only [front, List.cons_append]
    split
    · exact literal_closed verbatim_closed _ _ _ body
    · rfl
  by_cases hdollar : c = '@' ∧ ∃ body, r = '$' :: '"' :: body
  · obtain ⟨rfl, body, rfl⟩ := hdollar
    simp only [front, List.cons_append]
    split
    · exact literal_closed verbatim_closed _ _ _ body
    · rfl
  · rw [not_and] at hline hblock hverbatim hdollar
    have hdollar' : c = '@' → ¬ ∃ body, r ++ ['\n'] = '$' :: '"' :: body := by
      rintro hc ⟨body, he⟩
      exact hdollar hc (append_of_closed (p := ['$', '"']) (by decide) he)
    rw [front_other (fun hc => ⟨hline hc, hblock hc⟩) hquote hsingle fun hc =>
        ⟨hverbatim hc, fun body he => hdollar hc ⟨body, he⟩⟩,
      front_other (fun hc => ⟨head?_closed (by decide) (hline hc),
        head?_closed (by decide) (hblock hc)⟩) hquote hsingle fun hc =>
        ⟨head?_closed (by decide) (hverbatim hc), fun body he => hdollar' hc ⟨body, he⟩⟩,
      Front.closed]

/-- **A line feed at the end of a text leaves its outline**. -/
theorem outline_closed (dialect : Dialect) (source : Text) :
    outline dialect (source ++ ['\n']) =
      (outline dialect source).map fun o => ⟨source ++ ['\n'], o.nodes⟩ := by
  have hclosed := (rule dialect).run_closed (State.step dialect (source ++ ['\n']))
    (State.finish dialect) (s := source) dialect.language .initial
    (fun c r _ => .inl (front_closed c r)) rfl (fun _ _ => rfl)
  have hsame : runLexemes (State.step dialect source) 0 .initial ((rule dialect).lex source).lexemes =
      runLexemes (State.step dialect (source ++ ['\n'])) 0 .initial
        ((rule dialect).lex source).lexemes := by
    refine runLexemes_congr (State.slices dialect source)
      (fun s n l h => State.step_congr h) 0 .initial _ fun span hspan => ?_
    exact ((slices_fit dialect source span hspan).of_append ['\n']).symm
  have hrun : ((rule dialect).lex source).run dialect.language
        (State.step dialect (source ++ ['\n'])) .initial =
      ((rule dialect).lex source).run dialect.language (State.step dialect source) .initial := by
    rw [Lexing.run, Lexing.run, hsame]
  have houtline : ∀ s, outline dialect s = (((rule dialect).lex s).run dialect.language
      (State.step dialect s) .initial >>= State.finish dialect).map (Outline.ofNodes s) :=
    fun s => map_bind_ok (Outline.ofNodes s)
  rw [houtline, houtline, hclosed, hrun]
  cases ((rule dialect).lex source).run dialect.language (State.step dialect source) .initial >>=
      State.finish dialect <;> rfl

end Braced

/-! ## The indented language -/

namespace Indented

variable {source : Text}

theorem tripleQuoted_closed {q : Char} (hq : q ≠ '\n') : ScanCloses (tripleQuoted q) := by
  have hquotes : '\n' ∉ [q, q, q] := by simpa using hq.symm
  intro r
  fun_induction tripleQuoted q r with
  | case1 =>
    rw [List.nil_append, tripleQuoted_cons (by decide), ← List.nil_append ['\n'],
      Text.dropLead?_append hquotes]
    rfl
  | case2 => rfl
  | case3 c r ih =>
    rw [List.cons_append, List.cons_append, tripleQuoted, ih]
    cases tripleQuoted q r <;> rfl
  | case4 c r hr hr' rest hlead =>
    have hslash := ne_backslash hr hr'
    rw [List.cons_append, tripleQuoted_cons hslash, ← List.cons_append,
      Text.dropLead?_append hquotes, hlead]
    rfl
  | case5 c r hr hr' hlead ih =>
    have hslash := ne_backslash hr hr'
    rw [List.cons_append, tripleQuoted_cons hslash, ← List.cons_append,
      Text.dropLead?_append hquotes, hlead, ih]
    cases tripleQuoted q r <;> rfl

theorem string_closed {scan : Text → Option (Text × Text)} (h : ScanCloses scan) (opening : Text)
    (what : Literal) (r : Text) :
    string opening what (scan (r ++ ['\n'])) = (string opening what (scan r)).closed := by
  rw [h r]
  cases scan r <;> rfl

/-- A line ends before the last line feed, or it takes it. -/
theorem throughNewline_closed (r : Text) :
    throughNewline (r ++ ['\n']) = ((throughNewline r).1, (throughNewline r).2 ++ ['\n']) ∨
      throughNewline r = (r, []) ∧ throughNewline (r ++ ['\n']) = (r ++ ['\n'], []) := by
  fun_induction throughNewline r with
  | case1 => exact .inr ⟨rfl, rfl⟩
  | case2 r => exact .inl rfl
  | case3 c r hc line rest hr ih =>
    have hcons : ∀ r, throughNewline (c :: r) = (c :: (throughNewline r).1, (throughNewline r).2) := by
      intro r
      rw [throughNewline]
      exact fun he => hc he
    rw [hr] at ih
    rw [List.cons_append, hcons]
    rcases ih with hclosed | ⟨hall, hclosed⟩
    · exact .inl (by rw [hclosed])
    · obtain ⟨rfl, rfl⟩ := Prod.mk.inj hall
      exact .inr ⟨rfl, by rw [hclosed]⟩

theorem front_closes {c : Char} {r : Text} (h : c = '\\' → r ≠ []) :
    (front c r).Closes LineState.step (front c (r ++ ['\n'])) := by
  unfold front
  by_cases hcomment : c = '#'
  · rw [if_pos hcomment, if_pos hcomment, takeWhile_closed, dropWhile_closed]
    exact .inl rfl
  rw [if_neg hcomment, if_neg hcomment]
  by_cases hback : c = '\\'
  · obtain ⟨d, r, rfl⟩ := List.exists_cons_of_ne_nil (h hback)
    rw [show startsLineEnd (d :: r ++ ['\n']) = startsLineEnd (d :: r) from rfl]
    split
    · rcases throughNewline_closed (d :: r) with hclosed | ⟨hall, hclosed⟩
      · rw [hclosed]
        exact .inl rfl
      · rw [hclosed, hall]
        refine .inr ⟨_, _, rfl, rfl, fun s n => ?_⟩
        obtain ⟨indent, line, lines⟩ := s
        cases line <;> rfl
    · subst hback
      exact .inl rfl
  have hslash : ∀ r : Text, ¬ (c = '\\' && startsLineEnd r) = true := by simp [hback]
  rw [if_neg (hslash _), if_neg (hslash _)]
  by_cases hquote : (c = '"' || c = '\'') = true
  · rw [if_pos hquote, if_pos hquote]
    have hc : c ≠ '\n' := by
      rintro rfl
      cases hquote
    have hlead : Text.dropLead? [c, c] (r ++ ['\n']) =
        (Text.dropLead? [c, c] r).map (· ++ ['\n']) :=
      Text.dropLead?_append (by simpa using hc.symm) r []
    rw [hlead]
    cases Text.dropLead? [c, c] r with
    | some body => exact .inl (string_closed (tripleQuoted_closed hc) _ _ body)
    | none => exact .inl (string_closed (quoted_closed c) _ _ r)
  · rw [if_neg hquote, if_neg hquote]
    exact .inl rfl

theorem logicalLines_closed (h : source.getLast? ≠ some '\\') :
    logicalLines (source ++ ['\n']) = logicalLines source := by
  refine rule.run_closed LineState.step LineState.finish .python .initial
    (fun c r hsuffix => ?_) rfl fun s n => ?_
  · refine front_closes ?_
    rintro rfl rfl
    obtain ⟨x, rfl⟩ := hsuffix
    exact h (List.getLast?_concat)
  · obtain ⟨indent, line, lines⟩ := s
    cases line with
    | none => rfl
    | some line =>
      obtain ⟨start, indent, fresh, brackets, colon, firstString, lastCode⟩ := line
      cases brackets <;> rfl

theorem blockNodes_append {lines : List LogicalLine} (h : ∀ line ∈ lines, line.Fits source)
    (t : Text) : blockNodes (source ++ t) lines = blockNodes source lines := by
  have key : ∀ lines : List LogicalLine, (∀ line ∈ lines, line.Fits source) → ∀ s,
      lines.foldlM (BlockState.step (source ++ t)) s = lines.foldlM (BlockState.step source) s := by
    intro lines
    induction lines with
    | nil => exact fun _ _ => rfl
    | cons line lines ih =>
      intro h s
      have hstep : s.step source line = s.step (source ++ t) line :=
        BlockState.step_congr fun span hspan =>
          (((h line List.mem_cons_self).slices_fit span hspan).of_append t).symm
      rw [List.foldlM_cons, List.foldlM_cons, ← hstep]
      exact congrArg (bind _) (funext fun s => ih (fun l hl => h l (List.mem_cons_of_mem _ hl)) s)
  rw [blockNodes, blockNodes, key lines h]

theorem outline_closed (h : source.getLast? ≠ some '\\') :
    outline (source ++ ['\n']) =
      (outline source).map fun o => ⟨source ++ ['\n'], o.nodes⟩ := by
  unfold outline
  rw [logicalLines_closed h]
  cases hlines : logicalLines source with
  | error fault => rfl
  | ok lines =>
    have hnodes := blockNodes_append (logicalLines_fit hlines).1 ['\n']
    show (blockNodes (source ++ ['\n']) lines >>= fun nodes => _) =
      (blockNodes source lines >>= fun nodes => _).map _
    rw [hnodes]
    cases blockNodes source lines <;> rfl

end Indented

/-! ## The procedural language -/

namespace Procedural

/-- A line feed at the end of a text adds nothing but a blank line. -/
theorem physicalLines_closed (source : Text) :
    ∃ blank : List PhysicalLine, (∀ line ∈ blank, line.text = []) ∧
      physicalLines (source ++ ['\n']) = physicalLines source ++ blank := by
  obtain ⟨p, q, rfl, hp, hq⟩ := Text.exists_line source
  by_cases hnil : q = []
  · subst hnil
    refine ⟨placeLines (1 + (Text.rawLines p).length) (Text.width p) [['\n']], ?_, ?_⟩
    · intro line hl
      rw [List.mem_singleton.1 hl]
      rfl
    · rw [List.append_nil, physicalLines_append hp]
      rfl
  · refine ⟨[], (fun _ hl => by cases hl), ?_⟩
    have hraw : Text.rawLines (q ++ ['\n']) = [q ++ ['\n']] := Text.rawLines_line hq []
    have htrim : Text.trimEnd (q ++ ['\n']) = Text.trimEnd q := Text.trimEnd_append rfl
    rw [List.append_assoc, physicalLines_append hp, physicalLines_append hp, hraw,
      Text.rawLines_last hq hnil, List.append_nil]
    simp only [placeLines, htrim]

theorem finish_blank {s : State} {line : PhysicalLine} (h : line.text = []) :
    s.step line >>= State.finish = s.finish := by
  obtain ⟨continued, procedure, lambdas, types, banner, nodes⟩ := s
  unfold State.step
  rw [h]
  cases continued with
  | no => rfl
  | passed => rfl
  | header => cases procedure <;> rfl

theorem outline_closed (source : Text) :
    outline (source ++ ['\n']) =
      (outline source).map fun o => ⟨source ++ ['\n'], o.nodes⟩ := by
  obtain ⟨blank, hblank, hlines⟩ := physicalLines_closed source
  have hend : ∀ (blank : List PhysicalLine) (s : State), (∀ line ∈ blank, line.text = []) →
      blank.foldlM State.step s >>= State.finish = s.finish := by
    intro blank
    induction blank with
    | nil => exact fun s _ => rfl
    | cons line blank ih =>
      intro s h
      rw [List.foldlM_cons, bind_assoc, ← finish_blank (h line List.mem_cons_self)]
      exact congrArg (bind _) (funext fun s => ih s fun l hl => h l (List.mem_cons_of_mem _ hl))
  have hsame : (physicalLines (source ++ ['\n'])).foldlM State.step .initial >>= State.finish =
      (physicalLines source).foldlM State.step .initial >>= State.finish := by
    rw [hlines, List.foldlM_append, bind_assoc]
    exact congrArg (bind _) (funext fun s => hend blank s hblank)
  have houtline : ∀ s, outline s = ((physicalLines s).foldlM State.step .initial >>=
      State.finish).map (Outline.ofNodes s) := fun s => map_bind_ok (Outline.ofNodes s)
  rw [houtline, houtline, hsame]
  cases (physicalLines source).foldlM State.step .initial >>= State.finish <;> rfl

end Procedural

end Scholia.Source

namespace Scholia

open Source

/-- **A line feed at the end of a text leaves its outline**. -/
theorem Language.outline_closed {language : Language} {source : Text}
    (h : language = .python → source.getLast? ≠ some '\\') :
    language.outline (source ++ ['\n']) =
      (language.outline source).map fun o => ⟨source ++ ['\n'], o.nodes⟩ := by
  cases language with
  | python => exact Indented.outline_closed (h rfl)
  | java => exact Braced.outline_closed .java source
  | cSharp => exact Braced.outline_closed .cSharp source
  | visualBasic => exact Procedural.outline_closed source

/-- **A line feed at the end of a text leaves its documentation**. -/
theorem Language.harvest_closed {language : Language} {source : Text}
    (h : language = .python → source.getLast? ≠ some '\\') :
    language.harvest (source ++ ['\n']) = language.harvest source := by
  unfold Language.harvest Language.routines Language.survey
  rw [outline_closed h]
  cases ho : language.outline source with
  | error fault => rfl
  | ok o =>
    obtain ⟨rfl, hfits⟩ := Language.outline_fits ho
    have hsurvey := hfits.survey_append language.attachment ['\n']
    simp only [Except.map, bind, Except.bind, hsurvey]

end Scholia
