import Scholia.Proofs.Text.Worn
/-!
# Parts and lines

A text is cut at its line feeds and joined again. What stands at the front of a text stands at the
front of its first part, and what stands at its end at the end of its last part and of its last
line.
-/

namespace Scholia.Text

/-- A text is read line by line. -/
@[elab_as_elim]
theorem line_induction {motive : Text → Prop} (last : ∀ q, '\n' ∉ q → motive q)
    (line : ∀ q v, '\n' ∉ q → motive v → motive (q ++ '\n' :: v)) (s : Text) : motive s := by
  -- the characters that are passed over before the first line feed are collected in `q`
  have key : ∀ q, '\n' ∉ q → motive (q ++ s) := by
    induction s with
    | nil =>
      intro q hq
      rw [List.append_nil]
      exact last q hq
    | cons c s ih =>
      intro q hq
      by_cases hc : c = '\n'
      · subst hc
        exact line q s hq (ih [] List.not_mem_nil)
      · rw [List.append_cons]
        refine ih (q ++ [c]) fun hmem => ?_
        rcases List.mem_append.1 hmem with hmem | hmem
        · exact hq hmem
        · exact hc (List.mem_singleton.1 hmem).symm
  exact key [] List.not_mem_nil

/-- A part before the last stands before a line feed. -/
theorem exists_of_mem_dropLast {ls : List Text} {line : Text} (h : line ∈ ls.dropLast) :
    ∃ a b, join ['\n'] ls = a ++ (line ++ '\n' :: b) := by
  induction ls with
  | nil => cases h
  | cons l ls ih =>
    cases ls with
    | nil => cases h
    | cons m ls =>
      rw [join, List.intercalate_cons_cons, ← join]
      rcases List.mem_cons.1 h with rfl | h
      · exact ⟨[], join ['\n'] (m :: ls), by simp⟩
      · obtain ⟨a, b, he⟩ := ih h
        exact ⟨l ++ '\n' :: a, b, by simp [he]⟩

/-- A character that is no line feed stands first in the first part. -/
theorem splitWhere_head {c : Char} (hc : c ≠ '\n') (r : Text) :
    ∃ part parts, splitWhere (· == '\n') (c :: r) = (c :: part) :: parts := by
  rw [splitWhere, if_neg (by simpa using hc)]
  cases hr : splitWhere (· == '\n') r with
  | nil => exact absurd hr (splitWhere_ne_nil _ _)
  | cons part parts => exact ⟨part, parts, rfl⟩

theorem join_inj {ls ms : List Text} (hls : ls ≠ []) (hms : ms ≠ []) (hl : ∀ l ∈ ls, '\n' ∉ l)
    (hm : ∀ m ∈ ms, '\n' ∉ m) (h : join ['\n'] ls = join ['\n'] ms) : ls = ms := by
  rw [← splitWhere_join hls hl, h, splitWhere_join hms hm]

/-- Joined lines end as the last one does. -/
theorem getLast?_join {ls : List Text} {last : Text} (h : ls.getLast? = some last)
    (hne : last ≠ []) : (join ['\n'] ls).getLast? = last.getLast? := by
  induction ls with
  | nil => cases h
  | cons l ls ih =>
    cases ls with
    | nil =>
      cases h
      rw [join_singleton]
      rfl
    | cons m ls =>
      have hrest := ih (by rwa [List.getLast?_cons_cons] at h)
      rw [join, List.intercalate_cons_cons, List.getLast?_append, ← join, hrest,
        List.getLast?_eq_some_getLast hne, Option.some_or]

/-- The last part of a text is what stands behind its last line feed. -/
theorem splitWhere_last (s : Text) :
    ∃ p q init, s = p ++ q ∧ isWhole p ∧ splitWhere (· == '\n') s = init ++ [q] := by
  obtain ⟨p, q, rfl, hp, hq⟩ := exists_line s
  rcases hp with rfl | ⟨p, rfl⟩
  · exact ⟨[], q, [], rfl, .inl rfl, splitWhere_of_not_mem hq⟩
  · refine ⟨p ++ ['\n'], q, splitWhere (· == '\n') p, rfl, .inr ⟨p, rfl⟩, ?_⟩
    rw [List.append_assoc, List.singleton_append, splitWhere_append rfl, splitWhere_of_not_mem hq]

/-- A text that does not end with a line feed ends as its last part. -/
theorem getLast?_last {p q : Text} {y : Char} (hp : isWhole p) (h : (p ++ q).getLast? = some y)
    (hy : y ≠ '\n') : q.getLast? = some y := by
  cases hq : q.getLast? with
  | some z =>
    rw [List.getLast?_append, hq, Option.some_or] at h
    exact h
  | none =>
    rw [List.getLast?_eq_none_iff] at hq
    rw [hq, List.append_nil] at h
    rcases hp with rfl | ⟨p, rfl⟩
    · cases h
    · rw [List.getLast?_concat] at h
      exact absurd (Option.some.inj h).symm hy

theorem getLast?_closeLines {q : Text} (init : List Text) (hq : q ≠ []) :
    (closeLines (init ++ [q])).getLast? = some q := by
  induction init with
  | nil => rw [List.nil_append, closeLines, if_neg (by simpa using hq)]; rfl
  | cons part init ih =>
    have hne : init ++ [q] ≠ [] := List.append_ne_nil_of_right_ne_nil _ (List.cons_ne_nil q [])
    rw [List.cons_append, closeLines]
    · rw [List.getLast?_cons, ih]
      rfl
    · exact hne

/-- A text that does not end with a line feed ends as its last line. -/
theorem getLast?_lines {s : Text} {y : Char} (h : s.getLast? = some y) (hy : y ≠ '\n') :
    ∃ last, (lines s).getLast? = some last ∧ last.getLast? = some y := by
  obtain ⟨p, q, init, rfl, hp, hinit⟩ := splitWhere_last s
  have hlast := getLast?_last hp h hy
  have hq : q ≠ [] := by
    rintro rfl
    cases hlast
  exact ⟨q, by rw [lines, hinit, getLast?_closeLines init hq], hlast⟩

/-- **Behind a line feed lines start anew**. -/
theorem lines_append_newline (s t : Text) :
    lines (s ++ '\n' :: t) = lines (s ++ ['\n']) ++ lines t := by
  induction s using line_induction with
  | last q hq =>
    rw [lines_line hq, lines_line hq]
    rfl
  | line q v hq ih =>
    rw [List.append_assoc, List.append_assoc, List.cons_append, List.cons_append, lines_line hq,
      lines_line hq, ih, List.cons_append]

/-- Texts that are each ended by a line feed have the lines of one after the other. -/
theorem lines_flatMap_newline (texts : List Text) :
    lines (texts.flatMap (· ++ ['\n'])) = texts.flatMap fun t => lines (t ++ ['\n']) := by
  induction texts with
  | nil => rfl
  | cons t texts ih =>
    rw [List.flatMap_cons, List.append_assoc, List.singleton_append, lines_append_newline, ih,
      List.flatMap_cons]

/-- What stands before a text on one line stands before its first line. -/
theorem lines_behind {lead : Text} (hlead : '\n' ∉ lead) {c : Char} (hn : c ≠ '\n') (hr : c ≠ '\r')
    (s : Text) : ∃ first rest, lines (s ++ ['\n']) = first :: rest ∧
      lines (lead ++ c :: s ++ ['\n']) = (lead ++ c :: first) :: rest := by
  have hbehind {q : Text} (hq : '\n' ∉ q) (v : Text) :
      lines (lead ++ c :: (q ++ '\n' :: v)) = (lead ++ c :: dropReturn q) :: lines v := by
    have hmem : '\n' ∉ lead ++ c :: q := by simp [hlead, Ne.symm hn, hq]
    rw [← List.cons_append, ← List.append_assoc, lines_line hmem, dropReturn_append_cons lead hr]
  rw [List.append_assoc, List.cons_append]
  induction s using line_induction with
  | last q hq => exact ⟨_, _, lines_line hq [], hbehind hq []⟩
  | line q v hq ih =>
    rw [List.append_assoc, List.cons_append]
    exact ⟨_, _, lines_line hq _, hbehind hq _⟩

/-- What stands before joined lines stands before the first. -/
theorem append_join (u first : Text) (rest : List Text) :
    u ++ join ['\n'] (first :: rest) = join ['\n'] ((u ++ first) :: rest) := by
  cases rest with
  | nil => rw [join_singleton, join_singleton]
  | cons l rest =>
    rw [join, join, List.intercalate_cons_cons, List.intercalate_cons_cons]
    simp only [List.append_assoc]

theorem join_cons {d : Char} {ls : List Text} (hne : ls ≠ []) (l : Text) :
    join [d] (l :: ls) = l ++ d :: join [d] ls := by
  obtain ⟨m, ms, rfl⟩ := List.exists_cons_of_ne_nil hne
  rw [join, join, List.intercalate_cons_cons, List.append_assoc]
  rfl

/-- Two rows of parts are joined with a separator between them. -/
theorem join_append_join {d : Char} {ls ms : List Text} (hls : ls ≠ []) (hms : ms ≠ []) :
    join [d] (ls ++ ms) = join [d] ls ++ d :: join [d] ms := by
  induction ls with
  | nil => exact absurd rfl hls
  | cons l ls ih =>
    cases ls with
    | nil => rw [List.singleton_append, join_cons hms, join_singleton]
    | cons k ls =>
      have hk := List.cons_ne_nil k ls
      rw [List.cons_append, join_cons (List.append_ne_nil_of_left_ne_nil hk ms), ih hk,
        join_cons hk, List.append_assoc, List.cons_append]

/-- What stands behind joined lines stands behind the last. -/
theorem join_append (ls : List Text) (last u : Text) :
    join ['\n'] (ls ++ [last ++ u]) = join ['\n'] (ls ++ [last]) ++ u := by
  induction ls with
  | nil => simp [join]
  | cons l ls ih =>
    rw [List.cons_append, List.cons_append, join_cons (by simp), join_cons (by simp), ih]
    simp

/-- Two joined parts may be taken for one. -/
theorem join_glue (d : Char) (u v : Text) (parts : List Text) :
    join [d] ((u ++ d :: v) :: parts) = join [d] (u :: v :: parts) := by
  cases parts with
  | nil => simp [join]
  | cons part parts =>
    rw [join, join, List.intercalate_cons_cons, List.intercalate_cons_cons,
      List.intercalate_cons_cons]
    simp only [List.append_assoc, List.cons_append, List.nil_append]

theorem trimStartWhere_of_head {p : Char → Bool} {s : Text}
    (h : ∀ c, s.head? = some c → p c = false) : trimStartWhere p s = s := by
  cases s with
  | nil => rfl
  | cons c s => exact List.dropWhile_cons_of_neg (by simp [h c rfl])

theorem trimWhere_eq_self {p : Char → Bool} {s : Text} (hhead : ∀ c, s.head? = some c → p c = false)
    (hlast : ∀ c, s.getLast? = some c → p c = false) : trimWhere p s = s := by
  rw [trimWhere, trimStartWhere_of_head hhead, trimEndWhere]
  rcases List.eq_nil_or_concat s with rfl | ⟨init, c, rfl⟩
  · rfl
  · rw [List.concat_eq_append, List.reverse_append, List.reverse_singleton, List.singleton_append,
      List.dropWhile_cons_of_neg (by simp [hlast c (by simp)]), List.reverse_cons,
      List.reverse_reverse]

/-- What is taken away at the end may as well be missing. -/
theorem trimWhere_append {tail : Text} (p : Char → Bool) (htail : tail.all p = true) (s : Text) :
    trimWhere p (s ++ tail) = trimWhere p s := by
  have hnone : tail.dropWhile p = [] := List.dropWhile_eq_nil_iff.2 (List.all_eq_true.1 htail)
  have hend : ∀ t : Text, trimEndWhere p (t ++ tail) = trimEndWhere p t := by
    intro t
    rw [trimEndWhere, List.reverse_append, List.dropWhile_append_of_pos, trimEndWhere]
    exact fun c hc => List.all_eq_true.1 htail c (List.mem_reverse.1 hc)
  rw [trimWhere, trimWhere, trimStartWhere, trimStartWhere, List.dropWhile_append]
  split
  · next hs => rw [hnone, List.isEmpty_iff.1 hs]
  · exact hend _

theorem trimWhere_between {p : Char → Bool} {lead s tail : Text} (hlead : lead.all p = true)
    (htail : tail.all p = true) (hhead : ∀ c, s.head? = some c → p c = false)
    (hlast : ∀ c, s.getLast? = some c → p c = false) :
    trimWhere p (lead ++ (s ++ tail)) = s := by
  have hlead : trimWhere p (lead ++ (s ++ tail)) = trimWhere p (s ++ tail) :=
    congrArg (trimEndWhere p) (List.dropWhile_append_of_pos (List.all_eq_true.1 hlead))
  rw [hlead, trimWhere_append p htail, trimWhere_eq_self hhead hlast]

/-- A text is what is left of it, between what is taken away at its ends. -/
theorem exists_trimWhere (p : Char → Bool) (s : Text) :
    ∃ tail, s = s.takeWhile p ++ (trimWhere p s ++ tail) ∧
      trimStartWhere p s = trimWhere p s ++ tail ∧ tail.all p = true := by
  obtain ⟨tail, hrest, htail⟩ := trimEndWhere_append p (trimStartWhere p s)
  exact ⟨tail, hrest ▸ List.takeWhile_append_dropWhile.symm, hrest, htail⟩

theorem not_of_head?_trimWhere {s : Text} {p : Char → Bool} {c : Char}
    (h : (trimWhere p s).head? = some c) : p c = false := by
  obtain ⟨tail, -, hs, -⟩ := exists_trimWhere p s
  have hnot := List.head?_dropWhile_not p s
  rw [show s.dropWhile p = trimWhere p s ++ tail from hs, List.head?_append, h] at hnot
  simpa using hnot

theorem not_of_getLast?_trimWhere {s : Text} {p : Char → Bool} {c : Char}
    (h : (trimWhere p s).getLast? = some c) : p c = false := by
  have hnot := List.head?_dropWhile_not p (trimStartWhere p s).reverse
  rw [trimWhere, trimEndWhere, List.getLast?_reverse] at h
  rw [h] at hnot
  simpa using hnot

/-- A text has nothing to trim at its end exactly if it does not end with a blank. -/
theorem trimEnd_eq_self_iff {s : Text} :
    trimEnd s = s ↔ ∀ c, s.getLast? = some c → isBlank c = false := by
  constructor
  · intro h c hc
    exact trimEnd_getLast? (h.symm ▸ hc)
  · intro h
    cases hs : s.getLast? with
    | none =>
      rw [List.getLast?_eq_none_iff.1 hs]
      rfl
    | some c => exact trimEnd_of_getLast? hs (h c hs)

/-- Nothing is to trim at the end of a part that reaches to the end. -/
theorem trimEnd_of_suffix {s t : Text} (h : trimEnd s = s) (ht : t <:+ s) : trimEnd t = t := by
  rw [trimEnd_eq_self_iff] at h ⊢
  obtain ⟨u, rfl⟩ := ht
  intro c hc
  refine h c ?_
  rw [List.getLast?_append, hc, Option.some_or]

theorem trimEnd_of_ink {s : Text} (h : ∀ c ∈ s, isBlank c = false) : trimEnd s = s :=
  trimEnd_eq_self_iff.2 fun c hc => h c (List.mem_of_getLast? hc)

theorem trimEnd_of_trimmed {s : Text} (h : trim s = s) : trimEnd s = s := by
  conv => lhs; rw [← h]
  exact (trimEnd_trimEnd _).trans h

/-- A trimmed text begins with no blank. -/
theorem head_of_trimmed {s : Text} (h : trim s = s) {c : Char} (hc : s.head? = some c) :
    isBlank c = false := by
  obtain ⟨tail, he, -⟩ := trimEndWhere_append isBlank (trimStart s)
  rw [show trimEndWhere isBlank (trimStart s) = s from h] at he
  obtain ⟨x, rfl⟩ := List.head?_eq_some_iff.1 hc
  exact not_isBlank_of_trimStart he

theorem trimEnd_append_self {u v : Text} (hv : v ≠ []) (h : trimEnd v = v) :
    trimEnd (u ++ v) = u ++ v := by
  rw [trimEnd_eq_self_iff] at h ⊢
  intro c hc
  rw [List.getLast?_append, List.getLast?_eq_some_getLast hv, Option.some_or] at hc
  exact h c ((List.getLast?_eq_some_getLast hv).trans hc)

theorem trimEnd_append_text {t : Text} (h : allBlank t = false) (s : Text) :
    trimEnd (s ++ t) = s ++ trimEnd t := by
  obtain ⟨tail, ht, htail⟩ := trimEndWhere_append isBlank t
  have hne : trimEnd t ≠ [] := fun hnil => by
    rw [show trimEndWhere isBlank t = [] from hnil, List.nil_append] at ht
    rw [ht, show allBlank tail = true from htail] at h
    cases h
  have hsplit : s ++ t = (s ++ trimEnd t) ++ tail :=
    (congrArg (s ++ ·) ht).trans (List.append_assoc _ _ _).symm
  rw [hsplit, trimEnd_append htail, trimEnd_append_self hne (trimEnd_trimEnd t)]

theorem dropLead?_eq_none {p s : Text} (h : ¬ p <+: s) : dropLead? p s = none := by
  rw [Option.eq_none_iff_forall_ne_some]
  exact fun rest hlead => h ⟨rest, (dropLead?_eq_some_iff.1 hlead).symm⟩

/-- A pattern is found behind a text without its first character. -/
theorem cutAt?_of_not_mem {c : Char} {a : Text} (h : c ∉ a) (p b : Text) :
    cutAt? (c :: p) (a ++ (c :: p ++ b)) = some (a, b) := by
  induction a with
  | nil => exact cutAt?_eq_some_iff.2 ⟨rfl, isFirst_nil _⟩
  | cons d a ih =>
    obtain ⟨hd, ha⟩ := not_or.1 (mt List.mem_cons.2 h)
    have hnone : dropLead? (c :: p) (d :: (a ++ (c :: p ++ b))) = none := if_neg hd
    rw [List.cons_append, cutAt?, hnone, ih ha]
    rfl

/-- **A text holds a pattern if the pattern is a part of it**. -/
theorem holds_iff_isInfix {p s : Text} : holds p s = true ↔ p <:+: s := by
  rw [holds, Option.isSome_iff_exists]
  constructor
  · rintro ⟨⟨before, rest⟩, hcut⟩
    exact ⟨before, rest, (eq_of_cutAt? hcut).symm⟩
  · intro hpart
    induction s with
    | nil =>
      obtain rfl := List.eq_nil_of_infix_nil hpart
      exact ⟨_, rfl⟩
    | cons c s ih =>
      rw [cutAt?]
      split
      · exact ⟨_, rfl⟩
      · next hnone =>
        rcases List.infix_cons_iff.1 hpart with ⟨rest, he⟩ | htail
        · rw [dropLead?_eq_some_iff.2 he.symm] at hnone
          cases hnone
        · obtain ⟨parts, hparts⟩ := ih htail
          exact ⟨_, congrArg (Option.map _) hparts⟩

end Scholia.Text
