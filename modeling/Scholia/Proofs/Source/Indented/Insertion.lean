import Scholia.Proofs.Source.Indented.Between
/-!
# Text put before the end of a line

Behind a text that can be read on its own, what stood behind the last code of some line changes
nothing: blanks, comments and covered line ends are no code. Two ends have to be minded. A comment
takes up what follows it on its line; and where the text ends outside a line, a covered line end
would begin one.
-/

namespace Scholia.Source.Indented

open Layout (endsLine takeWhile_line)

variable {text tail rest : Text} {lexemes idle closing : List (Lexeme Kind)} {lexeme : Lexeme Kind}
  {offset : Nat} {lines : List LogicalLine} {s s' : LineState}

/-- Whether a lexeme is part of the code of a line. -/
def Kind.isCode : Kind → Bool
  | .string => true
  | .opener _ => true
  | .closer _ => true
  | .colon => true
  | .code _ => true
  | _ => false

/-- Whether a text ends with code. -/
def endsInCode (text : Text) : Bool :=
  (rule.lex text).lexemes.getLast?.any (·.kind.isCode)

/-- Whether a text ends with a backslash, which would cover the end of the line. -/
def continues (text : Text) : Bool :=
  (rule.lex text).lexemes.getLast?.any fun l => l.kind = .continuation || l.kind = .code '\\'

/-! ## Idle lexemes -/

theorem not_newline_of_idle (h : IsIdle lexeme) : lexeme.kind ≠ .newline := by
  rintro hk
  rcases h with h | h | h <;> rw [hk] at h <;> cases h

/-- Idle lexemes keep the lines as they are, if no covered line end begins one. -/
theorem run_idle (hidle : ∀ l ∈ idle, IsIdle l)
    (hopen : s.line = none → ∀ l ∈ idle, l.kind ≠ .continuation) :
    ∃ s', runLexemes LineState.step offset s idle = .ok s' ∧ s'.finish = s.finish := by
  induction idle generalizing s offset with
  | nil => exact ⟨s, rfl, rfl⟩
  | cons l idle ih =>
    have hl := hidle l List.mem_cons_self
    obtain ⟨t, hstep, hfinish, hline⟩ : ∃ t, s.step offset l = .ok t ∧ t.finish = s.finish ∧
        (t.line = none → s.line = none) := by
      obtain ⟨indent, line, done⟩ := s
      cases line with
      | none =>
        rcases hl with hk | hk | hk
        · exact ⟨⟨LineState.column indent l.text, none, done⟩, by simp only [LineState.step, hk], rfl, id⟩
        · exact ⟨⟨0, none, done⟩, by simp only [LineState.step, hk], rfl, id⟩
        · exact absurd hk (hopen rfl l List.mem_cons_self)
      | some line =>
        refine ⟨⟨indent, some { line with fresh := false }, done⟩, ?_, rfl, (fun h => by cases h)⟩
        rw [LineState.step_more rfl fun hk => absurd hk (not_newline_of_idle hl)]
        rcases hl with hk | hk | hk <;> simp only [OpenLine.add, hk] <;> rfl
    obtain ⟨s', hrun, hs'⟩ := ih (fun l hl => hidle l (List.mem_cons_of_mem _ hl)) fun hnone l hl =>
      hopen (hline hnone) l (List.mem_cons_of_mem _ hl)
    exact ⟨s', by rw [runLexemes, hstep]; exact hrun, hs'.trans hfinish⟩

/-- What a comment does does not depend on its text. -/
theorem LineState.step_comment (hk : lexeme.kind = .comment) :
    s.step offset lexeme = match s.line with
      | none => .ok { s with indent := 0 }
      | some line => .ok { s with line := some { line with fresh := false } } := by
  obtain ⟨indent, line, done⟩ := s
  cases line with
  | none => simp only [step, hk]
  | some line =>
    rw [step_more rfl fun h => by rw [hk] at h; cases h]
    simp only [OpenLine.add, hk]
    rfl

/-- A line end closes the last line. -/
theorem step_lineEnd (h : s.finish = .ok lines) :
    s.step offset lineEnd = .ok ⟨0, none, lines.reverse⟩ := by
  obtain ⟨indent, line, done⟩ := s
  cases line with
  | none =>
    cases h
    rw [List.reverse_reverse]
    rfl
  | some line =>
    obtain ⟨start, indent', fresh, brackets, colon, firstString, lastCode⟩ := line
    cases brackets with
    | nil =>
      cases h
      rw [List.reverse_reverse]
      rfl
    | cons bracket outer => cases h

/-- A covered line end begins with its backslash. -/
theorem backslash_of_front {c : Char} {r : Text} (h : front c r = .found lexeme rest)
    (hk : lexeme.kind = .continuation) : c = '\\' := by
  cases front_eq_found_iff.1 h with
  | continuation hc => exact hc
  | char => exact absurd hk (Kind.ofChar_plain c).2.1
  | _ => cases hk

/-- A comment is a number sign and the rest of its line. -/
theorem comment_of_front {c : Char} {r : Text} (h : front c r = .found lexeme rest)
    (hk : lexeme.kind = .comment) :
    c = '#' ∧ lexeme = ⟨.comment, '#' :: r.takeWhile (· != '\n')⟩ ∧ rest = r.dropWhile (· != '\n') := by
  cases front_eq_found_iff.1 h with
  | comment hc => exact ⟨hc, by rw [hc], rfl⟩
  | char => exact absurd hk (Kind.ofChar_plain c).1
  | _ => cases hk

/-- Nothing idle begins with a quote. -/
theorem not_quote_of_front {c : Char} {r : Text} (h : front c r = .found lexeme rest)
    (hk : lexeme.kind ≠ .string) : c ≠ '"' ∧ c ≠ '\'' := by
  cases front_eq_found_iff.1 h with
  | comment hc => exact ⟨by rw [hc]; decide, by rw [hc]; decide⟩
  | continuation hc => exact ⟨by rw [hc]; decide, by rw [hc]; decide⟩
  | char _ _ hquote => exact not_or.1 hquote
  | _ => exact absurd rfl hk

/-- Without a backslash on the line idle lexemes stay on it. -/
theorem idle_oneLine (h : rule.Divides tail (idle ++ closing) rest) (hidle : ∀ l ∈ idle, IsIdle l)
    (hback : '\\' ∉ tail.takeWhile (· != '\n')) :
    ∀ l ∈ idle, '\n' ∉ l.text ∧ l.kind ≠ .continuation := by
  induction idle generalizing tail with
  | nil => simp
  | cons l idle ih =>
    rw [List.cons_append] at h
    cases h with
    | @take c r _ mid _ _ hfound hmore =>
      have hkind : l.kind ≠ .continuation := fun hk => by
        rw [backslash_of_front hfound hk] at hback
        simp at hback
      have hone : '\n' ∉ l.text := oneLine_of_front hfound (by
        rcases hidle l List.mem_cons_self with hk | hk | hk
        · exact .inl hk
        · exact .inr hk
        · exact absurd hk hkind)
      refine List.forall_mem_cons.2 ⟨⟨hone, hkind⟩,
        ih hmore (fun l hl => hidle l (List.mem_cons_of_mem _ hl)) fun hmem => hback ?_⟩
      have hall : ∀ d ∈ l.text, (d != '\n') = true := fun d hd =>
        bne_iff_ne.2 (ne_of_mem_of_not_mem hd hone)
      rw [← rule.keeps c r l mid hfound, List.takeWhile_append_of_pos hall]
      exact List.mem_append_right _ hmem

/-! ## Before what is idle -/

/-- What is idle, or ends a line, does not run into what stands before it, comments and covered line
ends apart. -/
theorem joins_idle (h : rule.Divides tail (idle ++ closing) []) (hidle : ∀ l ∈ idle, IsIdle l)
    (hclosing : ∀ l ∈ closing, l = lineEnd) (hcomment : lexeme.kind ≠ .comment)
    (hcontinues : lexeme.kind ≠ .continuation ∧ lexeme.kind ≠ .code '\\') : Joins lexeme tail := by
  have hquote : tail.head? ≠ some '"' ∧ tail.head? ≠ some '\'' := by
    cases hls : idle ++ closing with
    | nil =>
      rw [hls] at h
      cases h
      exact ⟨by simp, by simp⟩
    | cons l ls =>
      rw [hls] at h
      have hl : l ∈ idle ++ closing := by simp [hls]
      cases h with
      | take hfound _ =>
        have hkind : l.kind ≠ .string := fun hk => by
          rcases List.mem_append.1 hl with hl | hl
          · rcases hidle l hl with hk' | hk' | hk' <;> rw [hk] at hk' <;> cases hk'
          · rw [hclosing l hl] at hk
            cases hk
        obtain ⟨hdouble, hsingle⟩ := not_quote_of_front hfound hkind
        exact ⟨by simpa using hdouble, by simpa using hsingle⟩
  unfold Joins
  cases hk : lexeme.kind with
  | comment => exact absurd hk hcomment
  | continuation => exact hcontinues.1 hk
  | string => exact hquote
  | code c =>
    rintro rfl
    exact hcontinues.2 hk
  | _ => trivial

/-- A comment goes on to the end of its line. -/
theorem divides_comment {x : Text} (h : rule.Divides text (lexemes ++ [lexeme]) [])
    (hk : lexeme.kind = .comment) (hx : '\n' ∉ x) (hrest : endsLine rest = true) :
    rule.Divides (text ++ (x ++ rest)) (lexemes ++ [⟨.comment, lexeme.text ++ x⟩]) rest := by
  obtain ⟨mid, hbefore, hlast⟩ := h.split
  cases hlast with
  | @take c r _ mid' _ _ hfound hmore =>
    obtain ⟨rfl, rfl, hmid⟩ := comment_of_front hfound hk
    cases hmore
    have hall : r.takeWhile (· != '\n') = r := by
      have hsplit := List.takeWhile_append_dropWhile (p := (· != '\n')) (l := r)
      rw [← hmid, List.append_nil] at hsplit
      exact hsplit
    rw [hall]
    have hline : ∀ d ∈ r ++ x, d ≠ '\n' := by
      rintro d hd rfl
      rcases List.mem_append.1 hd with hd | hd
      · rw [← hall] at hd
        exact Layout.ne_newline_of_mem_line hd rfl
      · exact hx hd
    obtain ⟨htake, hdrop⟩ := takeWhile_line hline hrest
    have hfront : rule.front '#' ((r ++ x) ++ rest) = .found ⟨.comment, '#' :: (r ++ x)⟩ rest := by
      show front '#' _ = _
      rw [front_eq_found_iff.2 (.comment rfl), htake, hdrop]
    have htext : text ++ (x ++ rest) = Lexeme.textOf lexemes ++ '#' :: ((r ++ x) ++ rest) := by
      rw [hbefore.text]
      simp only [List.append_assoc, List.cons_append]
    have hbehind : rule.Divides (Lexeme.textOf lexemes ++ '#' :: ((r ++ x) ++ rest)) lexemes
        ('#' :: ((r ++ x) ++ rest)) := divides_behind hbefore fun l _ => .inl rfl
    rw [htext]
    exact hbehind.append (.take hfront (.stop rest))

/-- Behind code a line is open. -/
theorem line_of_code (h : Reached text (lexemes ++ [lexeme]) rest s)
    (hk : lexeme.kind.isCode = true) : s.line ≠ none := by
  obtain ⟨mid, t, -, -, hrun⟩ := h.split
  obtain ⟨u, hstep, hrun⟩ := runLexemes_cons_ok hrun
  cases hrun
  cases LineState.steps hstep with
  | idle indent _ hkind =>
    rcases hkind with ⟨hkind, -⟩ | hkind | hkind <;> rw [hkind] at hk <;> cases hk
  | begin => simp
  | more => simp
  | close _ _ hkind =>
    rw [hkind] at hk
    cases hk

/-- **What is idle behind a text changes none of its lines**. -/
theorem Reached.before_idle (h : Reached text lexemes [] s)
    (hcontinues : ∀ l, lexemes.getLast? = some l → l.kind ≠ .continuation ∧ l.kind ≠ .code '\\')
    (htail : rule.Divides tail (idle ++ closing) []) (hidle : ∀ l ∈ idle, IsIdle l)
    (hclosing : closing = [] ∨ closing = [lineEnd])
    (hline : (∀ l, lexemes.getLast? = some l → l.kind.isCode = false) →
      '\\' ∉ tail.takeWhile (· != '\n')) :
    ∃ more s', rule.Divides (text ++ tail) (more ++ closing) [] ∧
      runLexemes LineState.step 0 .initial more = .ok s' ∧ s'.finish = s.finish := by
  have hends : ∀ l ∈ closing, l = lineEnd := by
    rcases hclosing with rfl | rfl <;> simp
  by_cases hcomment : ∃ l, lexemes.getLast? = some l ∧ l.kind = .comment
  · obtain ⟨l, hl, hk⟩ := hcomment
    obtain ⟨init, rfl⟩ := List.getLast?_eq_some_iff.1 hl
    have hone := idle_oneLine htail hidle (hline fun l' hl' => by
      cases hl.symm.trans hl'
      rw [hk]
      rfl)
    obtain ⟨mid, hquiet, hmid⟩ := htail.split
    have hx : '\n' ∉ Lexeme.textOf idle := by
      intro hmem
      obtain ⟨t, ht, hmem⟩ := List.mem_flatten.1 hmem
      obtain ⟨l, hl, rfl⟩ := List.mem_map.1 ht
      exact (hone l hl).1 hmem
    have hend : endsLine mid = true := by
      rcases hclosing with rfl | rfl
      · cases hmid
        rfl
      · rw [hmid.text]
        rfl
    refine ⟨init ++ [⟨.comment, l.text ++ Lexeme.textOf idle⟩], s, ?_, ?_, rfl⟩
    · rw [hquiet.text]
      exact (divides_comment h.divides hk hx hend).append hmid
    · have hrun := h.runs
      obtain ⟨t, hinit, hlast⟩ := runLexemes_append_ok hrun
      rw [runLexemes_append, hinit]
      obtain ⟨u, hstep, hlast⟩ := runLexemes_cons_ok hlast
      show (runLexemes LineState.step _ t [_]) = _
      rw [runLexemes, LineState.step_comment rfl, ← LineState.step_comment hk, hstep]
      exact hlast
  · have hjoin : ∀ l, lexemes.getLast? = some l → ([] : Text).head? = tail.head? ∨ Joins l tail :=
      fun l hl => .inr (joins_idle htail hidle hends (fun hk => hcomment ⟨l, hl, hk⟩) (hcontinues l hl))
    have htext := h.text
    rw [List.append_nil] at htext
    have hdivides := divides_behind h.divides hjoin
    rw [← htext] at hdivides
    have hopen : s.line = none → ∀ l ∈ idle, l.kind ≠ .continuation := by
      intro hnone l hl
      refine (idle_oneLine htail hidle (hline fun last hlast => ?_) l hl).2
      obtain ⟨init, rfl⟩ := List.getLast?_eq_some_iff.1 hlast
      exact Bool.eq_false_iff.2 fun hk => line_of_code h hk hnone
    obtain ⟨s', hrun, hfinish⟩ := run_idle hidle hopen
    refine ⟨lexemes ++ idle, s', ?_, ?_, hfinish⟩
    · rw [List.append_assoc]
      exact hdivides.append htail
    · rw [runLexemes_append, h.runs]
      exact hrun

end Scholia.Source.Indented
