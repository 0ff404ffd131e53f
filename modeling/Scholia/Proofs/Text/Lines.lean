import Scholia.Proofs.Text.Cut
import Scholia.Text.Lines
/-!
# Parts and lines

A text is split at a separator and joined again. Nothing is lost either way: parts joined make up
the text, and joined texts are the parts of what they make up, as long as none of them holds the
separator.

A text that ends with a line end, or is empty, has its lines to itself: what follows it adds its own.
Blanks behind a text may lengthen its last line or add blank ones. Without the blanks at their ends,
its lines stay what they were. The rest of a line goes on to its line feed, or to the end of the text.
-/

namespace Scholia.Text

/-- Behind a separator parts start anew. -/
theorem splitWhere_append {p : Char → Bool} {c : Char} (hc : p c = true) (before s : Text) :
    splitWhere p (before ++ c :: s) = splitWhere p before ++ splitWhere p s := by
  induction before with
  | nil =>
    show splitWhere p (c :: s) = [] :: splitWhere p s
    rw [splitWhere, if_pos hc]
  | cons d before ih =>
    rw [List.cons_append, splitWhere, splitWhere, ih]
    by_cases hd : p d = true
    · rw [if_pos hd, if_pos hd]
      rfl
    · rw [if_neg hd, if_neg hd]
      cases hb : splitWhere p before with
      | nil => exact absurd hb (splitWhere_ne_nil _ _)
      | cons first parts => rfl

/-- A text without separators is one part. -/
theorem splitWhere_eq_singleton {p : Char → Bool} {q : Text} (hq : ∀ c ∈ q, p c = false) :
    splitWhere p q = [q] := by
  induction q with
  | nil => rfl
  | cons c q ih =>
    obtain ⟨hc, hq⟩ := List.forall_mem_cons.1 hq
    rw [splitWhere, hc, ih hq]
    rfl

theorem splitWhere_of_not_mem {d : Char} {q : Text} (hq : d ∉ q) : splitWhere (· == d) q = [q] :=
  splitWhere_eq_singleton fun _ hc => beq_eq_false_iff_ne.2 fun he => hq (he ▸ hc)

/-- A part is made of characters of the text. -/
theorem mem_of_mem_splitWhere {p : Char → Bool} {c : Char} {s part : Text}
    (hpart : part ∈ splitWhere p s) (hc : c ∈ part) : c ∈ s := by
  induction s generalizing part with
  | nil => simp_all [splitWhere]
  | cons d s ih =>
    simp only [splitWhere] at hpart
    split at hpart
    · rcases List.mem_cons.1 hpart with rfl | hpart
      · cases hc
      · exact List.mem_cons_of_mem d (ih hpart hc)
    · split at hpart
      · next he => exact absurd he (splitWhere_ne_nil p s)
      · next first parts he =>
        rcases List.mem_cons.1 hpart with rfl | hpart
        · rcases List.mem_cons.1 hc with rfl | hc
          · exact List.mem_cons_self
          · exact List.mem_cons_of_mem d (ih (he ▸ List.mem_cons_self) hc)
        · exact List.mem_cons_of_mem d (ih (he ▸ List.mem_cons_of_mem first hpart) hc)

/-- **Parts joined make up the text they were cut from**. -/
theorem join_splitWhere (d : Char) (s : Text) : join [d] (splitWhere (· == d) s) = s := by
  induction s with
  | nil => rfl
  | cons c s ih =>
    have hne := splitWhere_ne_nil (· == d) s
    cases hs : splitWhere (· == d) s with
    | nil => exact absurd hs hne
    | cons part parts =>
      rw [hs] at ih
      by_cases hc : c = d
      · rw [splitWhere, if_pos (by simpa using hc), hs, join, List.intercalate_cons_cons, hc]
        exact congrArg (d :: ·) ih
      · rw [splitWhere, if_neg (by simpa using hc), hs]
        exact (List.intercalate_cons_cons_left).trans (congrArg (c :: ·) ih)

theorem join_singleton (separator part : Text) : join separator [part] = part :=
  List.intercalate_singleton

/-- A joined text is made of characters of the separator and of the parts. -/
theorem mem_join {c : Char} {separator : Text} {parts : List Text} (h : c ∈ join separator parts) :
    c ∈ separator ∨ ∃ part ∈ parts, c ∈ part := by
  induction parts with
  | nil => cases h
  | cons part parts ih =>
    cases parts with
    | nil =>
      rw [join_singleton] at h
      exact .inr ⟨part, List.mem_cons_self, h⟩
    | cons next parts =>
      rw [join, List.intercalate_cons_cons, List.mem_append, List.mem_append] at h
      rcases h with (h | h) | h
      · exact .inr ⟨part, List.mem_cons_self, h⟩
      · exact .inl h
      · exact (ih h).imp_right fun ⟨p, hp, hc⟩ => ⟨p, List.mem_cons_of_mem part hp, hc⟩

/-- **Parts that are joined can be told apart**. -/
theorem splitWhere_join {d : Char} {ls : List Text} (hne : ls ≠ []) (h : ∀ l ∈ ls, d ∉ l) :
    splitWhere (· == d) (join [d] ls) = ls := by
  induction ls with
  | nil => exact absurd rfl hne
  | cons l ls ih =>
    have hl := h l List.mem_cons_self
    cases ls with
    | nil =>
      rw [join_singleton]
      exact splitWhere_of_not_mem hl
    | cons m ls =>
      have hrest := ih (List.cons_ne_nil m ls) fun k hk => h k (List.mem_cons_of_mem _ hk)
      rw [join, List.intercalate_cons_cons, List.append_assoc, List.singleton_append]
      calc splitWhere (· == d) (l ++ d :: join [d] (m :: ls))
        _ = splitWhere (· == d) l ++ splitWhere (· == d) (join [d] (m :: ls)) :=
          @splitWhere_append (· == d) d (beq_self_eq_true d) l _
        _ = l :: m :: ls := by rw [splitWhere_of_not_mem hl, hrest, List.singleton_append]

/-- A line is made of characters of the text. -/
theorem mem_of_mem_lines {c : Char} {s line : Text} (hline : line ∈ lines s) (hc : c ∈ line) :
    c ∈ s := by
  have key : ∀ parts : List Text, line ∈ closeLines parts → ∃ part ∈ parts, c ∈ part := by
    intro parts
    fun_induction closeLines parts with
    | case1 => simp
    | case2 last hlast => simp
    | case3 last hlast =>
      intro hline
      exact ⟨last, List.mem_singleton_self last, List.mem_singleton.1 hline ▸ hc⟩
    | case4 part parts hne ih =>
      intro hline
      rcases List.mem_cons.1 hline with rfl | hline
      · exact ⟨part, List.mem_cons_self, mem_dropReturn hc⟩
      · obtain ⟨other, hother, hmem⟩ := ih hline
        exact ⟨other, List.mem_cons_of_mem part hother, hmem⟩
  obtain ⟨part, hpart, hmem⟩ := key _ hline
  exact mem_of_mem_splitWhere hpart hmem

/-! ## Whole lines -/

theorem trimStart_of_allBlank {s : Text} (h : allBlank s = true) : trimStart s = [] := by
  have hdrop : (s ++ []).dropWhile isBlank = [].dropWhile isBlank :=
    List.dropWhile_append_of_pos (List.all_eq_true.1 h)
  rwa [List.append_nil] at hdrop

/-- What is left of a text without the blanks at its start begins with none. -/
theorem not_isBlank_of_trimStart {s x : Text} {c : Char} (h : trimStart s = c :: x) :
    isBlank c = false := by
  have hhead := List.head?_dropWhile_not isBlank s
  rw [show s.dropWhile isBlank = c :: x from h] at hhead
  simpa using hhead

/-- Whether a text is empty or ends with a line feed. -/
def isWhole (s : Text) : Prop :=
  s = [] ∨ ∃ t, s = t ++ ['\n']

/-- What is left of a text that ends its line ends it too. -/
theorem isWhole.right {s t : Text} (h : isWhole (s ++ t)) : isWhole t := by
  rcases List.eq_nil_or_concat t with rfl | ⟨u, c, rfl⟩
  · exact .inl rfl
  · rcases h with h | ⟨v, h⟩
    · simp at h
    · rw [List.concat_eq_append, ← List.append_assoc] at h
      obtain ⟨-, hc⟩ := List.append_inj' h rfl
      cases hc
      exact .inr ⟨u, List.concat_eq_append⟩

theorem rawLines_ne_nil {s : Text} (h : s ≠ []) : rawLines s ≠ [] := by
  intro he
  have := flatten_rawLines s
  rw [he] at this
  exact h this.symm

theorem rawLines_cons {c : Char} (hc : c ≠ '\n') (s : Text) :
    rawLines (c :: s) = (match rawLines s with
      | [] => [[c]]
      | line :: rest => (c :: line) :: rest) := by
  rewrite [rawLines]
  · rfl
  · exact fun he => hc he

/-- **Behind a line end lines start anew**. -/
theorem rawLines_append {s : Text} (h : isWhole s) (t : Text) :
    rawLines (s ++ t) = rawLines s ++ rawLines t := by
  rcases h with rfl | ⟨s, rfl⟩
  · rfl
  induction s with
  | nil => rfl
  | cons c s ih =>
    by_cases hc : c = '\n'
    · subst hc
      exact congrArg (['\n'] :: ·) ih
    · rw [List.cons_append, List.cons_append, rawLines_cons hc, rawLines_cons hc, ih]
      cases hs : rawLines (s ++ ['\n']) with
      | nil => exact absurd hs (rawLines_ne_nil (by simp))
      | cons line rest => rfl

/-- The first raw line and the others are lines of their own. -/
theorem rawLines_tail {s line : Text} {rest : List Text} (h : rawLines s = line :: rest) :
    rawLines line = [line] ∧ rawLines rest.flatten = rest ∧
      (rest ≠ [] → ∃ l, line = l ++ ['\n']) := by
  fun_induction rawLines s generalizing line rest with
  | case1 => cases h
  | case2 r ih =>
    cases h
    refine ⟨rfl, ?_, fun _ => ⟨[], rfl⟩⟩
    rw [flatten_rawLines]
  | case3 c r hc hr ih =>
    cases h
    refine ⟨?_, rfl, fun he => absurd rfl he⟩
    rw [rawLines_cons (fun he => hc he)]
    rfl
  | case4 c r hc line' rest' hr ih =>
    cases h
    obtain ⟨hline, hrest, hends⟩ := ih hr
    refine ⟨?_, hrest, fun hne => ?_⟩
    · rw [rawLines_cons (fun he => hc he), hline]
    · obtain ⟨l, rfl⟩ := hends hne
      exact ⟨c :: l, rfl⟩

/-- **A text can be cut between its raw lines**. -/
theorem rawLines_split {s : Text} {first rest : List Text} (h : rawLines s = first ++ rest) :
    rawLines first.flatten = first ∧ rawLines rest.flatten = rest ∧
      (rest ≠ [] → isWhole first.flatten) := by
  induction first generalizing s with
  | nil =>
    refine ⟨rfl, ?_, fun _ => .inl rfl⟩
    rw [List.nil_append] at h
    rw [← h, flatten_rawLines]
  | cons line first ih =>
    obtain ⟨hline, hmore, hends⟩ := rawLines_tail h
    obtain ⟨hfirst, hrest, hwhole⟩ := ih hmore
    have hwhole' : first ++ rest ≠ [] → isWhole line := fun hne => .inr (hends hne)
    refine ⟨?_, hrest, fun hne => ?_⟩
    · cases first with
      | nil =>
        rw [List.flatten_singleton]
        exact hline
      | cons second first =>
        rw [List.flatten_cons, rawLines_append (hwhole' (by simp)), hline, hfirst]
        rfl
    · rw [List.flatten_cons]
      rcases hwhole hne with he | ⟨t, he⟩
      · rw [he, List.append_nil]
        exact hwhole' (by simp [hne])
      · exact .inr ⟨line ++ t, by rw [he, List.append_assoc]⟩

/-- A line feed stands only at the end of a raw line. -/
theorem not_newline_of_mem_rawLines {s line : Text} (h : line ∈ rawLines s) {a b : Text}
    (hline : line = a ++ b) (hb : b ≠ []) : '\n' ∉ a := by
  fun_induction rawLines s generalizing line a with
  | case1 => cases h
  | case2 r ih =>
    rcases List.mem_cons.1 h with rfl | h
    · cases a with
      | nil => simp
      | cons c a =>
        have hnil := (List.cons.inj hline).2
        exact absurd (List.append_eq_nil_iff.1 hnil.symm).2 hb
    · exact ih h hline
  | case3 c r hc hr ih =>
    rw [List.mem_singleton.1 h] at hline
    cases a with
    | nil => simp
    | cons d a =>
      have hnil := (List.cons.inj hline).2
      exact absurd (List.append_eq_nil_iff.1 hnil.symm).2 hb
  | case4 c r hc first rest hr ih =>
    rcases List.mem_cons.1 h with rfl | h
    · cases a with
      | nil => simp
      | cons d a =>
        obtain ⟨rfl, hfirst⟩ := List.cons.inj hline
        rw [List.mem_cons, not_or]
        exact ⟨fun he => hc he.symm, ih (hr ▸ List.mem_cons_self) hfirst⟩
    · exact ih (hr ▸ List.mem_cons_of_mem _ h) hline

/-! ## Lines without the blanks at their ends -/

theorem trimEnd_append {s tail : Text} (h : allBlank tail = true) : trimEnd (s ++ tail) = trimEnd s := by
  unfold trimEnd trimEndWhere
  rw [List.reverse_append, List.dropWhile_append_of_pos]
  intro c hc
  exact List.all_eq_true.1 h c (List.mem_reverse.1 hc)

theorem trimEnd_cons (c : Char) (s : Text) : trimEnd (c :: s) = trimEnd (c :: trimEnd s) := by
  obtain ⟨tail, hs, htail⟩ := trimEndWhere_append isBlank s
  have hs' : c :: s = (c :: trimEnd s) ++ tail := congrArg (c :: ·) hs
  rw [hs', trimEnd_append htail]

/-- The raw lines of a text without the blanks at their ends. -/
def lineTexts (s : Text) : List Text :=
  (rawLines s).map trimEnd

theorem lineTexts_append {s : Text} (h : isWhole s) (t : Text) :
    lineTexts (s ++ t) = lineTexts s ++ lineTexts t := by
  rw [lineTexts, rawLines_append h, List.map_append]
  rfl

/-- **Blanks behind a text add nothing but blank lines**. -/
theorem lineTexts_blanks (s : Text) {blanks : Text} (h : allBlank blanks = true) :
    ∃ k, lineTexts (s ++ blanks) = lineTexts s ++ List.replicate k [] := by
  have hone : ∀ s c, isBlank c = true →
      ∃ k, lineTexts (s ++ [c]) = lineTexts s ++ List.replicate k [] := by
    intro s c hc
    have hblank : trimEnd [c] = [] := by
      rw [← List.nil_append [c], trimEnd_append (by simp [allBlank, hc])]
      rfl
    induction s with
    | nil =>
      refine ⟨1, ?_⟩
      by_cases hn : c = '\n'
      · subst hn
        rfl
      · rw [List.nil_append, lineTexts, rawLines_cons hn]
        show [trimEnd [c]] = [[]]
        rw [hblank]
    | cons d s ih =>
      obtain ⟨k, hk⟩ := ih
      by_cases hd : d = '\n'
      · subst hd
        exact ⟨k, congrArg (trimEnd ['\n'] :: ·) hk⟩
      · unfold lineTexts at hk ⊢
        rw [List.cons_append, rawLines_cons hd, rawLines_cons hd]
        cases hs : rawLines s with
        | nil =>
          have hnil : s = [] := by
            by_cases he : s = []
            · exact he
            · exact absurd hs (rawLines_ne_nil he)
          subst hnil
          refine ⟨0, ?_⟩
          by_cases hn : c = '\n'
          · subst hn
            show [trimEnd ([d] ++ ['\n'])] = [trimEnd [d]]
            rw [trimEnd_append (by decide)]
          · rw [List.nil_append, rawLines_cons hn]
            show [trimEnd ([d] ++ [c])] = [trimEnd [d]]
            rw [trimEnd_append (by simp [allBlank, hc])]
        | cons line rest =>
          rw [hs] at hk
          cases hsc : rawLines (s ++ [c]) with
          | nil => exact absurd hsc (rawLines_ne_nil (by simp))
          | cons line' rest' =>
            rw [hsc] at hk
            obtain ⟨hline, hrest⟩ := List.cons.inj hk
            refine ⟨k, ?_⟩
            simp only [List.map_cons, List.cons_append]
            rw [hrest, trimEnd_cons d line', trimEnd_cons d line, hline]
            rfl
  induction blanks generalizing s with
  | nil => exact ⟨0, by simp⟩
  | cons c blanks ih =>
    rw [allBlank, List.all_cons, Bool.and_eq_true] at h
    obtain ⟨k, hk⟩ := hone s c h.1
    obtain ⟨k', hk'⟩ := ih (s ++ [c]) h.2
    refine ⟨k + k', ?_⟩
    rw [List.append_cons, hk', hk, List.append_assoc, List.replicate_append_replicate]

end Scholia.Text

namespace Scholia.Layout

/-! ## The rest of a line -/

/-- Whether a text begins with a line feed or is empty. -/
def endsLine : Text → Bool
  | [] => true
  | c :: _ => c == '\n'

theorem endsLine_dropWhile (s : Text) : endsLine (s.dropWhile (· != '\n')) = true := by
  have hhead := List.head?_dropWhile_not (· != '\n') s
  cases hdrop : s.dropWhile (· != '\n') with
  | nil => rfl
  | cons d rest =>
    rw [hdrop] at hhead
    show (d == '\n') = true
    simpa using hhead

/-- Nothing that stands on a line ends it. -/
theorem ne_newline_of_mem_line {s : Text} {c : Char} (h : c ∈ s.takeWhile (· != '\n')) : c ≠ '\n' :=
  bne_iff_ne.1 (List.all_eq_true.1 List.all_takeWhile c h)

theorem takeWhile_line {x rest : Text} (hx : ∀ c ∈ x, c ≠ '\n') (hrest : endsLine rest = true) :
    (x ++ rest).takeWhile (· != '\n') = x ∧ (x ++ rest).dropWhile (· != '\n') = rest := by
  have hall : ∀ c ∈ x, (c != '\n') = true := fun c hc => bne_iff_ne.2 (hx c hc)
  rw [List.takeWhile_append_of_pos hall, List.dropWhile_append_of_pos hall]
  cases rest with
  | nil => simp
  | cons c r =>
    have : c = '\n' := eq_of_beq hrest
    subst this
    simp

end Scholia.Layout
