import Mathlib.Data.List.Forall2
import Scholia.Proofs.Text.Join
import Scholia.Proofs.Text.Words
/-!
# Texts at another column

A text that is moved to another column changes in front of its lines, and at their ends if blanks
are taken off there. `Shifted a b s t` says that two texts differ in nothing else, and that all
lines but the first have moved by the same amount: where the indentation is `m` in `s` and `n` in
`t`, `m + a = n + b`. The blanks of a blank line may be any.

What is no blank stands in both texts, with parts on either side that are shifted as well
(`Shifted.split`). So a pattern without blanks is found in both texts at the same place or in none.
-/

namespace Scholia.Text

/-- Blanks within a line. -/
structure IsGap (u : Text) : Prop where
  blank : allBlank u = true
  line : '\n' ∉ u

/-- Whether no character of the line is left. -/
def AtLineEnd (s : Text) : Prop :=
  ∀ c, s.head? = some c → c = '\n'

/-- The second text is the first one with other margins. -/
inductive Shifted (a b : Nat) : Text → Text → Prop
  | last {v v' : Text} (hv : IsGap v) (hv' : IsGap v') : Shifted a b v v'
  | keep {c : Char} {s t : Text} (hc : c ≠ '\n') (h : Shifted a b s t) :
    Shifted a b (c :: s) (c :: t)
  | gap {v v' u u' s t : Text} (hv : IsGap v) (hv' : IsGap v') (hu : IsGap u) (hu' : IsGap u')
    (hcol : AtLineEnd s ∧ AtLineEnd t ∨ width u + a = width u' + b) (h : Shifted a b s t) :
    Shifted a b (v ++ '\n' :: (u ++ s)) (v' ++ '\n' :: (u' ++ t))

variable {a b : Nat} {s t u v w x y x' y' : Text} {c c' : Char}

/-! ## Blanks -/

theorem IsGap.nil : IsGap [] :=
  ⟨rfl, List.not_mem_nil⟩

theorem allBlank_append : allBlank (s ++ t) = (allBlank s && allBlank t) :=
  List.all_append

theorem IsGap.around (hv : IsGap v) (hu : IsGap u) : allBlank (v ++ '\n' :: u) = true := by
  rw [allBlank_append, hv.blank]
  exact hu.blank

theorem append_gap (v u s : Text) : v ++ '\n' :: (u ++ s) = (v ++ '\n' :: u) ++ s :=
  (List.append_assoc v ('\n' :: u) s).symm

/-- A text without ink is blank. -/
theorem filter_isInk_eq_nil_iff : s.filter isInk = [] ↔ allBlank s = true := by
  simp [allBlank, isInk]

/-- How many characters of a text are no blanks. -/
def weight (s : Text) : Nat :=
  s.countP isInk

theorem weight_append (s t : Text) : weight (s ++ t) = weight s + weight t :=
  List.countP_append

theorem weight_eq_zero_iff : weight s = 0 ↔ allBlank s = true := by
  simp [weight, allBlank, isInk]

theorem weight_trim (s : Text) : weight (trim s) = weight s := by
  obtain ⟨lead, hs, hlead⟩ := append_trimStartWhere isBlank s
  obtain ⟨tail, ht, htail⟩ := trimEndWhere_append isBlank (trimStartWhere isBlank s)
  have hstart := congrArg weight hs
  have hend := congrArg weight ht
  rw [weight_append, weight_eq_zero_iff.2 hlead, Nat.zero_add] at hstart
  rw [weight_append, weight_eq_zero_iff.2 htail, Nat.add_zero] at hend
  exact (hstart.trans hend).symm

theorem IsGap.filter_isInk (hv : IsGap v) (hu : IsGap u) (s : Text) :
    (v ++ '\n' :: (u ++ s)).filter isInk = s.filter isInk := by
  have hnone := filter_isInk_eq_nil_iff.2 (hv.around hu)
  rw [append_gap, List.filter_append, hnone, List.nil_append]

theorem not_mem_of_allBlank (hc : isBlank c = false) (h : allBlank w = true) : c ∉ w := by
  intro hmem
  rw [List.all_eq_true.1 h c hmem] at hc
  cases hc

theorem ne_newline_of_ink (hc : isBlank c = false) : c ≠ '\n' := by
  rintro rfl
  cases hc

theorem AtLineEnd.of_append (h : AtLineEnd (x ++ c :: y)) : AtLineEnd x := by
  intro d hd
  refine h d ?_
  rw [List.head?_append, hd, Option.some_or]

theorem AtLineEnd.replace (h : AtLineEnd (x ++ c :: y)) (z : Text) : AtLineEnd (x ++ c :: z) := by
  intro d hd
  refine h d ?_
  rw [List.head?_append] at hd ⊢
  exact hd

/-! ## Ink -/

/-- Blanks in front of a text do not reach its ink. -/
theorem exists_of_blanks_append (hw : allBlank w = true) (hc : isBlank c = false)
    (he : w ++ s = x ++ c :: y) : ∃ z, x = w ++ z ∧ s = z ++ c :: y := by
  rcases List.append_eq_append_iff.1 he with ⟨z, hx, hs⟩ | ⟨m, hx, hm⟩
  · exact ⟨z, hx, hs⟩
  · cases m with
    | nil => exact ⟨[], by rw [hx, List.append_nil, List.append_nil], hm.symm⟩
    | cons d m =>
      obtain ⟨rfl, -⟩ := List.cons.inj hm
      exact absurd (hx ▸ List.mem_append_right _ List.mem_cons_self) (not_mem_of_allBlank hc hw)

/-- Nor do the blanks behind it. -/
theorem exists_of_append_blanks (hw : allBlank w = true) (hc : isBlank c = false)
    (he : s ++ w = x ++ c :: y) : ∃ z, s = x ++ c :: z ∧ y = z ++ w := by
  rcases List.append_eq_append_iff.1 he with ⟨m, hx, hm⟩ | ⟨m, hx, hm⟩
  · exact absurd (hm ▸ List.mem_append_right _ List.mem_cons_self) (not_mem_of_allBlank hc hw)
  · cases m with
    | nil =>
      have hmem : c ∈ w := by
        rw [← List.nil_append w, ← hm]
        exact List.mem_cons_self
      exact absurd hmem (not_mem_of_allBlank hc hw)
    | cons d m =>
      obtain ⟨rfl, hy⟩ := List.cons.inj hm
      exact ⟨m, hx, hy⟩

/-- **A place in a text is told by the ink before it**, if ink stands there. -/
theorem eq_of_ink (hc : isBlank c = false) (hc' : isBlank c' = false)
    (he : x ++ c :: y = x' ++ c' :: y') (hink : x.filter isInk = x'.filter isInk) :
    x = x' ∧ c = c' ∧ y = y' := by
  have hsame : ∀ {x m : Text} {c : Char}, isBlank c = false →
      x.filter isInk ≠ (x ++ c :: m).filter isInk := by
    intro x m c hc hx
    rw [List.filter_append, List.filter_cons_of_pos (by simp [isInk, hc])] at hx
    have hlen := congrArg List.length hx
    simp at hlen
  rcases List.append_eq_append_iff.1 he with ⟨m, rfl, hm⟩ | ⟨m, rfl, hm⟩
  · cases m with
    | nil =>
      obtain ⟨rfl, rfl⟩ := List.cons.inj hm
      exact ⟨(List.append_nil x).symm, rfl, rfl⟩
    | cons d m =>
      obtain ⟨rfl, -⟩ := List.cons.inj hm
      exact absurd hink (hsame hc)
  · cases m with
    | nil =>
      obtain ⟨rfl, rfl⟩ := List.cons.inj hm
      exact ⟨List.append_nil x', rfl, rfl⟩
    | cons d m =>
      obtain ⟨rfl, -⟩ := List.cons.inj hm
      exact absurd hink.symm (hsame hc')

/-- The first ink of a text that is not blank. -/
theorem exists_first_ink (h : allBlank s = false) :
    ∃ lead c r, s = lead ++ c :: r ∧ allBlank lead = true ∧ isBlank c = false := by
  obtain ⟨lead, hs, hlead⟩ := append_trimStartWhere isBlank s
  have hhead := List.head?_dropWhile_not isBlank s
  cases hr : trimStartWhere isBlank s with
  | nil =>
    rw [hr, List.append_nil] at hs
    rw [hs, show allBlank lead = true from hlead] at h
    cases h
  | cons c r =>
    rw [show s.dropWhile isBlank = c :: r from hr] at hhead
    exact ⟨lead, c, r, hr ▸ hs, hlead, by simpa using hhead⟩

/-- The last ink of a text that is not blank. -/
theorem exists_last_ink (h : allBlank s = false) :
    ∃ init c tail, s = init ++ c :: tail ∧ allBlank tail = true ∧ isBlank c = false := by
  obtain ⟨tail, hs, htail⟩ := trimEndWhere_append isBlank s
  rcases List.eq_nil_or_concat (trimEnd s) with hnil | ⟨init, c, hinit⟩
  · rw [show trimEndWhere isBlank s = [] from hnil, List.nil_append] at hs
    rw [hs, show allBlank tail = true from htail] at h
    cases h
  · rw [List.concat_eq_append] at hinit
    have hlast : (trimEnd s).getLast? = some c := by rw [hinit, List.getLast?_concat]
    refine ⟨init, c, tail, ?_, htail, trimEnd_getLast? hlast⟩
    rw [show trimEndWhere isBlank s = init ++ [c] from hinit, List.append_assoc] at hs
    exact hs

theorem trimStart_ink (hw : allBlank w = true) (hc : isBlank c = false) (s : Text) :
    trimStart (w ++ c :: s) = c :: s := by
  rw [trimStart, trimStartWhere, List.dropWhile_append_of_pos (List.all_eq_true.1 hw),
    List.dropWhile_cons_of_neg (by simp [hc])]

theorem trimEnd_ink (hw : allBlank w = true) (hc : isBlank c = false) (s : Text) :
    trimEnd (s ++ c :: w) = s ++ [c] := by
  rw [List.append_cons, trimEnd_append hw]
  exact trimEnd_of_getLast? List.getLast?_concat hc

namespace Shifted

theorem nil : Shifted a b [] [] :=
  .last .nil .nil

theorem symm (h : Shifted a b s t) : Shifted b a t s := by
  induction h with
  | last hv hv' => exact .last hv' hv
  | keep hc _ ih => exact .keep hc ih
  | gap hv hv' hu hu' hcol _ ih => exact .gap hv' hv hu' hu (hcol.imp And.symm Eq.symm) ih

/-- **Both texts have the same ink**. -/
theorem ink (h : Shifted a b s t) : s.filter isInk = t.filter isInk := by
  induction h with
  | last hv hv' =>
    rw [filter_isInk_eq_nil_iff.2 hv.blank, filter_isInk_eq_nil_iff.2 hv'.blank]
  | keep _ _ ih => rw [List.filter_cons, List.filter_cons, ih]
  | gap hv hv' hu hu' _ _ ih => rw [hv.filter_isInk hu, hv'.filter_isInk hu', ih]

theorem allBlank (h : Shifted a b s t) : allBlank s = allBlank t := by
  rw [Bool.eq_iff_iff, ← filter_isInk_eq_nil_iff, ← filter_isInk_eq_nil_iff, h.ink]

/-- What is written within the line stays. -/
theorem append_left (hx : '\n' ∉ x) (h : Shifted a b s t) : Shifted a b (x ++ s) (x ++ t) := by
  induction x with
  | nil => exact h
  | cons c x ih =>
    rw [List.mem_cons, not_or] at hx
    exact .keep (Ne.symm hx.1) (ih hx.2)

/-- Ink at the front stays. -/
theorem of_cons (hc : isBlank c = false) (h : Shifted a b (c :: s) t) :
    ∃ t', t = c :: t' ∧ Shifted a b s t' := by
  generalize hs : c :: s = whole at h
  cases h with
  | last hv hv' => exact absurd (hs ▸ List.mem_cons_self) (not_mem_of_allBlank hc hv.blank)
  | keep hd h =>
    obtain ⟨rfl, rfl⟩ := List.cons.inj hs
    exact ⟨_, rfl, h⟩
  | gap hv hv' hu hu' hcol h =>
    rw [append_gap] at hs
    obtain ⟨z, hz, -⟩ := exists_of_blanks_append (x := []) (hv.around hu) hc hs.symm
    simp at hz

theorem of_append {p : Text} (hp : ∀ c ∈ p, isBlank c = false) (h : Shifted a b (p ++ s) t) :
    ∃ t', t = p ++ t' ∧ Shifted a b s t' := by
  induction p generalizing t with
  | nil => exact ⟨t, rfl, h⟩
  | cons c p ih =>
    obtain ⟨hc, hp⟩ := List.forall_mem_cons.1 hp
    obtain ⟨r, rfl, hr⟩ := h.of_cons hc
    obtain ⟨t', rfl, h'⟩ := ih hp hr
    exact ⟨t', rfl, h'⟩

/-- **Ink stands between parts that are shifted as well**, and what follows it may be exchanged. -/
theorem split (hc : isBlank c = false) (h : Shifted a b (x ++ c :: y) t) :
    ∃ x' y', t = x' ++ c :: y' ∧ Shifted a b x x' ∧ Shifted a b y y' ∧
      ∀ z z', Shifted a b z z' → Shifted a b (x ++ c :: z) (x' ++ c :: z') := by
  generalize hs : x ++ c :: y = s at h
  induction h generalizing x with
  | last hv hv' =>
    exact absurd (hs ▸ List.mem_append_right _ List.mem_cons_self) (not_mem_of_allBlank hc hv.blank)
  | keep hd h ih =>
    cases x with
    | nil =>
      obtain ⟨rfl, rfl⟩ := List.cons.inj hs
      exact ⟨[], _, rfl, .nil, h, fun _ _ hz => .keep hd hz⟩
    | cons d x =>
      obtain ⟨rfl, rfl⟩ := List.cons.inj hs
      obtain ⟨x', y', rfl, hx, hy, hz⟩ := ih rfl
      exact ⟨d :: x', y', rfl, .keep hd hx, hy, fun z z' h => .keep hd (hz z z' h)⟩
  | @gap v v' u u' s t hv hv' hu hu' hcol h ih =>
    rw [append_gap] at hs
    obtain ⟨m, rfl, rfl⟩ := exists_of_blanks_append (hv.around hu) hc hs.symm
    obtain ⟨x', y', rfl, hx, hy, hz⟩ := ih rfl
    refine ⟨v' ++ '\n' :: (u' ++ x'), y', ?_, ?_, hy, fun z z' h => ?_⟩
    · simp only [List.append_assoc, List.cons_append]
    · rw [← append_gap]
      exact .gap hv hv' hu hu' (hcol.imp (And.imp AtLineEnd.of_append AtLineEnd.of_append) id) hx
    · simp only [List.append_assoc, List.cons_append]
      exact .gap hv hv' hu hu'
        (hcol.imp (And.imp (fun h => h.replace z) fun h => h.replace z') id) (hz z z' h)

/-- Ink that is told by the ink before it. -/
theorem split_of_ink (hc : isBlank c = false) (hc' : isBlank c' = false)
    (hink : x.filter isInk = x'.filter isInk) (h : Shifted a b (x ++ c :: y) (x' ++ c' :: y')) :
    c = c' ∧ Shifted a b y y' ∧
      ∀ z z', Shifted a b z z' → Shifted a b (x ++ c :: z) (x' ++ c :: z') := by
  obtain ⟨x'', y'', he, hx, hy, hz⟩ := h.split hc
  obtain ⟨rfl, rfl, rfl⟩ := eq_of_ink hc' hc he (hink.symm.trans hx.ink)
  exact ⟨rfl, hy, hz⟩

theorem trimStart (h : Shifted a b s t) : Shifted a b (trimStart s) (trimStart t) := by
  cases hs : Text.allBlank s with
  | true =>
    rw [trimStart_of_allBlank hs, trimStart_of_allBlank (h.allBlank ▸ hs)]
    exact .nil
  | false =>
    obtain ⟨lead, c, r, rfl, hlead, hc⟩ := exists_first_ink hs
    obtain ⟨lead', r', rfl, hlead', hr, -⟩ := h.split hc
    rw [trimStart_ink hlead hc, trimStart_ink (hlead'.allBlank ▸ hlead) hc]
    exact hr.append_left (x := [c]) (by simpa [eq_comm] using ne_newline_of_ink hc)

theorem trimEnd (h : Shifted a b s t) : Shifted a b (trimEnd s) (trimEnd t) := by
  cases hs : Text.allBlank s with
  | true =>
    rw [trimEnd_of_allBlank hs, trimEnd_of_allBlank (h.allBlank ▸ hs)]
    exact .nil
  | false =>
    obtain ⟨init, c, tail, rfl, htail, hc⟩ := exists_last_ink hs
    obtain ⟨init', tail', rfl, -, htail', hend⟩ := h.split hc
    rw [trimEnd_ink htail hc, trimEnd_ink (htail'.allBlank ▸ htail) hc]
    exact hend [] [] .nil

theorem trim (h : Shifted a b s t) : Shifted a b (trim s) (trim t) :=
  h.trimStart.trimEnd

/-- No blanks stand at the end of a text that is trimmed. -/
theorem eq_nil_of_suffix (h : Shifted a b [] s) (ht : Text.trimEnd t = t) (hs : s <:+ t) :
    s = [] := by
  rw [← trimEnd_of_suffix ht hs, trimEnd_of_allBlank h.allBlank.symm]

/-- A class without blanks leads both texts alike. -/
theorem dropWhile {p : Char → Bool} (hp : ∀ c, isBlank c = true → p c = false)
    (h : Shifted a b s t) : Shifted a b (s.dropWhile p) (t.dropWhile p) := by
  have hstay : ∀ {w : Text}, Text.allBlank w = true → ∀ r,
      (w ++ r).dropWhile p = w ++ r ∨ w = [] := by
    intro w hw r
    cases w with
    | nil => exact .inr rfl
    | cons c w =>
      have hc := hp c (List.all_eq_true.1 hw c List.mem_cons_self)
      exact .inl (List.dropWhile_cons_of_neg (by simp [hc]))
  have hgap : ∀ {v u : Text}, IsGap v → IsGap u → ∀ s,
      (v ++ '\n' :: (u ++ s)).dropWhile p = v ++ '\n' :: (u ++ s) := by
    intro v u hv hu s
    rw [append_gap]
    exact (hstay (hv.around hu) s).resolve_right (by simp)
  have hlast : ∀ {v : Text}, IsGap v → v.dropWhile p = v := by
    intro v hv
    rcases hstay hv.blank [] with he | rfl
    · rwa [List.append_nil] at he
    · rfl
  induction h with
  | last hv hv' =>
    rw [hlast hv, hlast hv']
    exact .last hv hv'
  | keep hc h ih =>
    rw [List.dropWhile_cons, List.dropWhile_cons]
    split
    · exact ih
    · exact .keep hc h
  | gap hv hv' hu hu' hcol h =>
    rw [hgap hv hu, hgap hv' hu']
    exact .gap hv hv' hu hu' hcol h

/-! ## Patterns -/

section

variable {p : Text} (hp : ∀ c ∈ p, isBlank c = false)

include hp

/-- **A pattern of ink leads both texts or none**. -/
theorem dropLead? (h : Shifted a b s t) :
    Option.Rel (Shifted a b) (dropLead? p s) (dropLead? p t) := by
  cases hs : Text.dropLead? p s with
  | some r =>
    rw [dropLead?_eq_some_iff.1 hs] at h
    obtain ⟨r', rfl, hr⟩ := h.of_append hp
    rw [dropLead?_eq_some_iff.2 rfl]
    exact .some hr
  | none =>
    cases ht : Text.dropLead? p t with
    | none => exact .none
    | some r =>
      rw [dropLead?_eq_some_iff.1 ht] at h
      obtain ⟨r', rfl, -⟩ := h.symm.of_append hp
      rw [dropLead?_eq_some_iff.2 rfl] at hs
      cases hs

theorem isPrefixOf (h : Shifted a b s t) : p.isPrefixOf s = p.isPrefixOf t := by
  have hlead : ∀ {a b : Nat} {s t : Text}, Shifted a b s t → p <+: s → p <+: t := by
    rintro a b s t h ⟨r, rfl⟩
    obtain ⟨r', rfl, -⟩ := h.of_append hp
    exact List.prefix_append p r'
  rw [Bool.eq_iff_iff, List.isPrefixOf_iff_prefix, List.isPrefixOf_iff_prefix]
  exact ⟨hlead h, hlead h.symm⟩

/-- **A pattern of ink ends both texts or none**, if they do not end with blanks. -/
theorem isSuffixOf (h : Shifted a b s t) (hs : Text.trimEnd s = s) (ht : Text.trimEnd t = t) :
    p.isSuffixOf s = p.isSuffixOf t := by
  have hend : ∀ {a b : Nat} {s t : Text}, Shifted a b s t → Text.trimEnd t = t →
      p <:+ s → p <:+ t := by
    rintro a b s t h ht ⟨x, rfl⟩
    cases p with
    | nil => exact List.nil_suffix
    | cons c p =>
      obtain ⟨hc, hp⟩ := List.forall_mem_cons.1 hp
      obtain ⟨x', y', rfl, -, hy, -⟩ := h.split hc
      rw [← List.append_nil p] at hy
      obtain ⟨r, rfl, hr⟩ := hy.of_append hp
      exact ⟨x', by rw [hr.eq_nil_of_suffix ht ⟨x' ++ c :: p, by simp⟩, List.append_nil]⟩
  rw [Bool.eq_iff_iff, List.isSuffixOf_iff_suffix, List.isSuffixOf_iff_suffix]
  exact ⟨hend h ht, hend h.symm hs⟩

end

end Shifted

/-- Two texts that have been cut. -/
def Cuts (a b : Nat) (p q : Text × Text) : Prop :=
  Shifted a b p.1 q.1 ∧ Shifted a b p.2 q.2

/-- A scan for a place in a text that passes over blanks and stops at ink. -/
structure StopsAtInk (scan : Text → Option (Text × Text)) : Prop where
  passes : ∀ {c : Char}, isBlank c = true → ∀ s,
    scan (c :: s) = (scan s).map fun (before, rest) => (c :: before, rest)
  stops : ∀ {s before rest : Text}, scan s = some (before, rest) →
    ∃ c r, isBlank c = false ∧ s = before ++ c :: r

namespace StopsAtInk

variable {scan : Text → Option (Text × Text)}

theorem append (h : StopsAtInk scan) (hw : allBlank w = true) (s : Text) :
    scan (w ++ s) = (scan s).map fun (before, rest) => (w ++ before, rest) := by
  induction w with
  | nil => exact Option.map_id'.symm
  | cons c w ih =>
    rw [allBlank, List.all_cons, Bool.and_eq_true] at hw
    rw [List.cons_append, h.passes hw.1, ih hw.2, Option.map_map]
    rfl

theorem eq_none (h : StopsAtInk scan) (hs : allBlank s = true) : scan s = none := by
  cases hscan : scan s with
  | none => rfl
  | some p =>
    obtain ⟨c, r, hc, rfl⟩ := h.stops hscan
    exact absurd (List.mem_append_right _ List.mem_cons_self) (not_mem_of_allBlank hc hs)

/-- **Behind a gap both texts are cut or none**, if this is so of what follows. -/
theorem gap {v' u' : Text} (h : StopsAtInk scan) (hv : IsGap v) (hv' : IsGap v') (hu : IsGap u)
    (hu' : IsGap u') (hcol : AtLineEnd s ∧ AtLineEnd t ∨ width u + a = width u' + b)
    (hcut : Option.Rel (Cuts a b) (scan s) (scan t)) :
    Option.Rel (Cuts a b) (scan (v ++ '\n' :: (u ++ s))) (scan (v' ++ '\n' :: (u' ++ t))) := by
  rw [append_gap, append_gap, h.append (hv.around hu), h.append (hv'.around hu')]
  cases hs : scan s with
  | none =>
    cases ht : scan t with
    | none => exact .none
    | some q =>
      rw [hs, ht] at hcut
      cases hcut
  | some p =>
    cases ht : scan t with
    | none =>
      rw [hs, ht] at hcut
      cases hcut
    | some q =>
      rw [hs, ht] at hcut
      obtain ⟨hbefore, hrest⟩ : Cuts a b p q := by
        cases hcut
        assumption
      obtain ⟨c, r, -, rfl⟩ := h.stops hs
      obtain ⟨c', r', -, rfl⟩ := h.stops ht
      refine .some ⟨?_, hrest⟩
      show Shifted a b ((v ++ '\n' :: u) ++ p.1) ((v' ++ '\n' :: u') ++ q.1)
      rw [← append_gap, ← append_gap]
      exact .gap hv hv' hu hu'
        (hcol.imp (And.imp AtLineEnd.of_append AtLineEnd.of_append) id) hbefore

end StopsAtInk

theorem not_mem_of_ink {p : Text} (hp : ∀ c ∈ p, isBlank c = false) (hc : isBlank c = true) :
    c ∉ p := by
  intro hmem
  rw [hp c hmem] at hc
  cases hc

section

variable {p : Text} (hne : p ≠ []) (hp : ∀ c ∈ p, isBlank c = false)

include hne hp

theorem dropLead?_blank (hc : isBlank c = true) (s : Text) : dropLead? p (c :: s) = none := by
  cases p with
  | nil => exact absurd rfl hne
  | cons d p =>
    have hd : d ≠ c := fun he => not_mem_of_ink hp hc (he ▸ List.mem_cons_self)
    rw [dropLead?, if_neg hd]

theorem exists_head (before rest : Text) :
    ∃ c r, isBlank c = false ∧ before ++ p ++ rest = before ++ c :: r := by
  cases p with
  | nil => exact absurd rfl hne
  | cons d p =>
    exact ⟨d, p ++ rest, hp d List.mem_cons_self, List.append_assoc before (d :: p) rest⟩

theorem stopsAtInk_cutAt? : StopsAtInk (cutAt? p) where
  passes hc s := by rw [cutAt?, dropLead?_blank hne hp hc]
  stops hcut := eq_of_cutAt? hcut ▸ exists_head hne hp _ _

theorem stopsAtInk_cutAtLast? : StopsAtInk (cutAtLast? p) where
  passes hc s := by
    rw [cutAtLast?, dropLead?_blank hne hp hc]
    cases cutAtLast? p s <;> rfl
  stops hcut := eq_of_cutAtLast? hcut ▸ exists_head hne hp _ _

/-- Blanks behind a text do not move the first place of a pattern of ink. -/
theorem cutAt?_append_blanks (hw : allBlank w = true) (s : Text) :
    cutAt? p (s ++ w) = (cutAt? p s).map fun (before, rest) => (before, rest ++ w) := by
  cases w with
  | nil =>
    simp only [List.append_nil]
    exact Option.map_id'.symm
  | cons c w =>
    rw [allBlank, List.all_cons, Bool.and_eq_true] at hw
    rw [cutAt?_append (not_mem_of_ink hp hw.1) hne, (stopsAtInk_cutAt? hne hp).eq_none hw.2]
    cases cutAt? p s <;> rfl

/-- Nor the last place. -/
theorem cutAtLast?_append_blanks (hw : allBlank w = true) (s : Text) :
    cutAtLast? p (s ++ w) = (cutAtLast? p s).map fun (before, rest) => (before, rest ++ w) := by
  cases w with
  | nil =>
    simp only [List.append_nil]
    exact Option.map_id'.symm
  | cons c w =>
    rw [allBlank, List.all_cons, Bool.and_eq_true] at hw
    rw [cutAtLast?_append (not_mem_of_ink hp hw.1) hne, (stopsAtInk_cutAtLast? hne hp).eq_none hw.2]

/-- **The first place of a pattern of ink** is the same in both texts. -/
theorem Shifted.cutAt? (h : Shifted a b s t) :
    Option.Rel (Cuts a b) (cutAt? p s) (cutAt? p t) := by
  have hscan := stopsAtInk_cutAt? hne hp
  induction h with
  | last hv hv' =>
    rw [hscan.eq_none hv.blank, hscan.eq_none hv'.blank]
    exact .none
  | @keep c s t hc h ih =>
    rw [Text.cutAt?, Text.cutAt?]
    have hlead := (h.keep hc).dropLead? hp
    revert hlead
    generalize Text.dropLead? p (c :: s) = x, Text.dropLead? p (c :: t) = y
    rintro (hrest | _)
    · exact .some ⟨.nil, hrest⟩
    · revert ih
      generalize Text.cutAt? p s = x, Text.cutAt? p t = y
      rintro (hcut | _)
      · exact .some ⟨.keep hc hcut.1, hcut.2⟩
      · exact .none
  | gap hv hv' hu hu' hcol h ih => exact hscan.gap hv hv' hu hu' hcol ih

/-- **The last place of a pattern of ink** is the same in both texts. -/
theorem Shifted.cutAtLast? (h : Shifted a b s t) :
    Option.Rel (Cuts a b) (cutAtLast? p s) (cutAtLast? p t) := by
  have hscan := stopsAtInk_cutAtLast? hne hp
  induction h with
  | last hv hv' =>
    rw [hscan.eq_none hv.blank, hscan.eq_none hv'.blank]
    exact .none
  | @keep c s t hc h ih =>
    rw [Text.cutAtLast?, Text.cutAtLast?]
    revert ih
    generalize Text.cutAtLast? p s = x, Text.cutAtLast? p t = y
    rintro (hcut | _)
    · exact .some ⟨.keep hc hcut.1, hcut.2⟩
    · have hlead := (h.keep hc).dropLead? hp
      revert hlead
      generalize Text.dropLead? p (c :: s) = x, Text.dropLead? p (c :: t) = y
      rintro (hrest | _)
      · exact .some ⟨.nil, hrest⟩
      · exact .none
  | gap hv hv' hu hu' hcol h ih => exact hscan.gap hv hv' hu hu' hcol ih

end

end Scholia.Text
