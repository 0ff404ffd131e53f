import Scholia.Proofs.Layout.Splice
import Scholia.Proofs.Source.Indented.Blocks
import Scholia.Proofs.Text.Join
/-!
# A routine put back as it was shown

A routine is shown at the left margin (`Layout.dedented`) and put back at the column it stood at
(`Layout.splice`). Both go by the smallest indentation of its lines. That is the indentation of its
first line, unless a further line begins further left, as a line of a long string may.

**The law** (`Layout.reindent_dedent_iff`): putting a piece back gives the piece exactly if all its
further lines that are not empty begin with the indentation of the first, and it does not end with a
blank. For routines of an indented text this is `Language.splice_dedented_iff`.
-/

namespace Scholia

open Text (isBlank isIndent isLineEnd splitWhere trimEnd)

namespace Layout

/-- Lines without blanks at their ends. -/
structure Trimmed (ls : List Text) : Prop where
  whole : ∀ l ∈ ls, '\n' ∉ l
  trimmed : ∀ l ∈ ls, trimEnd l = l

/-! ## The common indentation -/

theorem isBlank_of_isIndent {c : Char} (h : isIndent c = true) : isBlank c = true := by
  simp only [isIndent, Bool.or_eq_true, beq_iff_eq] at h
  rcases h with rfl | rfl <;> rfl

theorem isBlank_of_isLineEnd {c : Char} (h : isLineEnd c = true) : isBlank c = true := by
  simp only [isLineEnd, Bool.or_eq_true, beq_iff_eq] at h
  rcases h with rfl | rfl <;> rfl

theorem not_isLineEnd_of_ink {c : Char} (h : isBlank c = false) : isLineEnd c = false :=
  Bool.eq_false_iff.2 fun he => by
    rw [isBlank_of_isLineEnd he] at h
    cases h

theorem not_isLineEnd_of_isIndent {c : Char} (h : isIndent c = true) : isLineEnd c = false := by
  simp only [isIndent, Bool.or_eq_true, beq_iff_eq] at h
  rcases h with rfl | rfl <;> rfl

theorem leading_le (l : Text) : leading l ≤ l.length :=
  (List.takeWhile_sublist _).length_le

/-- A line that is not blank has more than its indentation. -/
theorem leading_lt {l : Text} (h : Text.allBlank l = false) : leading l < l.length := by
  refine Nat.lt_of_le_of_ne (leading_le l) fun he => ?_
  have hl : l.takeWhile isIndent = l := (List.takeWhile_prefix _).eq_of_length he
  have hall : Text.allBlank l = true := List.all_eq_true.2 fun c hc =>
    isBlank_of_isIndent (List.all_eq_true.1 (hl ▸ List.all_takeWhile) c hc)
  rw [h] at hall
  cases hall

theorem leading_append {indent l : Text} (h : indent.all isIndent = true) :
    leading (indent ++ l) = indent.length + leading l := by
  rw [leading, List.takeWhile_append_of_pos (List.all_eq_true.1 h), List.length_append]
  rfl

theorem all_isIndent_take {l : Text} {n : Nat} (h : n ≤ leading l) :
    (l.take n).all isIndent = true := by
  have hpre : l.take n <+: l.takeWhile isIndent :=
    List.prefix_of_prefix_length_le (List.take_prefix n l) (List.takeWhile_prefix _)
      (Nat.le_trans (List.length_take_le n l) h)
  exact List.all_eq_true.2 fun c hc => List.all_eq_true.1 List.all_takeWhile c (hpre.subset hc)

theorem leading_drop {l : Text} {n : Nat} (h : n ≤ leading l) : leading (l.drop n) = leading l - n := by
  have hsplit : l = l.take n ++ l.drop n := (List.take_append_drop n l).symm
  have hall := all_isIndent_take h
  have hlen : (l.take n).length = n := List.length_take_of_le (Nat.le_trans h (leading_le l))
  have := leading_append (l := l.drop n) hall
  rw [← hsplit, hlen] at this
  omega

/-- **No line that is not blank begins left of the common indentation**. -/
theorem commonIndent_le {ls : List Text} {l : Text} (hl : l ∈ ls) (hb : Text.allBlank l = false) :
    commonIndent ls ≤ leading l := by
  have hmem : leading l ∈ (ls.filter (!Text.allBlank ·)).map leading :=
    List.mem_map_of_mem (List.mem_filter.2 ⟨hl, by simp [hb]⟩)
  cases hmin : ((ls.filter (!Text.allBlank ·)).map leading).min? with
  | none =>
    rw [List.min?_eq_none_iff] at hmin
    rw [hmin] at hmem
    cases hmem
  | some n =>
    rw [commonIndent, hmin]
    exact (List.min?_eq_some_iff.1 hmin).2 _ hmem

/-- **Some line begins at the common indentation**. -/
theorem exists_commonIndent {ls : List Text} (h : ∃ l ∈ ls, Text.allBlank l = false) :
    ∃ l ∈ ls, Text.allBlank l = false ∧ leading l = commonIndent ls := by
  obtain ⟨l, hl, hb⟩ := h
  cases hmin : ((ls.filter (!Text.allBlank ·)).map leading).min? with
  | none =>
    rw [List.min?_eq_none_iff, List.map_eq_nil_iff, List.filter_eq_nil_iff] at hmin
    exact absurd (by simp [hb]) (hmin l hl)
  | some n =>
    obtain ⟨m, hm, hn⟩ := List.mem_map.1 (List.min?_eq_some_iff.1 hmin).1
    obtain ⟨hm, hmb⟩ := List.mem_filter.1 hm
    refine ⟨m, hm, by simpa using hmb, ?_⟩
    rw [commonIndent, hmin]
    exact hn

/-! ## Pieces with trimmed lines -/

/-- A line without as much of its indentation. -/
def clip (common : Nat) (line : Text) : Text :=
  line.drop (min common (leading line))

theorem clip_suffix (common : Nat) (line : Text) : clip common line <:+ line :=
  List.drop_suffix _ _

theorem outdent_eq_clip {line : Text} (h : trimEnd line = line) (common : Nat) :
    outdent common line = clip common line := by
  rw [outdent, h]
  rfl

theorem leading_clip (common : Nat) (line : Text) :
    leading (clip common line) = leading line - common := by
  rw [clip, leading_drop (Nat.min_le_right _ _)]
  omega

namespace Trimmed

variable {ls : List Text}

theorem not_allBlank (h : Trimmed ls) {l : Text} (hl : l ∈ ls) (hne : l ≠ []) :
    Text.allBlank l = false := by
  have hlast := List.getLast?_eq_some_getLast hne
  have hb := Text.trimEnd_eq_self_iff.1 (h.trimmed l hl) _ hlast
  refine Bool.eq_false_iff.2 fun hall => ?_
  have := List.all_eq_true.1 hall _ (List.getLast_mem hne)
  rw [hb] at this
  cases this

theorem clip_ne_nil (h : Trimmed ls) {l : Text} (hl : l ∈ ls) (hne : l ≠ []) (common : Nat) :
    clip common l ≠ [] := by
  have hlt := leading_lt (h.not_allBlank hl hne)
  intro he
  have := List.drop_eq_nil_iff.1 he
  omega

theorem getLast?_map_clip (h : Trimmed ls) (hend : ls.getLast? ≠ some []) (common : Nat) :
    (ls.map (clip common)).getLast? ≠ some [] := by
  rw [List.getLast?_map]
  intro he
  obtain ⟨last, hlast, hclip⟩ := Option.map_eq_some_iff.1 he
  have hne : last ≠ [] := by
    rintro rfl
    exact hend hlast
  exact h.clip_ne_nil (List.mem_of_getLast? hlast) hne common hclip

theorem map_clip (h : Trimmed ls) (common : Nat) : Trimmed (ls.map (clip common)) where
  whole := fun l hl hn => by
    obtain ⟨m, hm, rfl⟩ := List.mem_map.1 hl
    exact h.whole m hm ((clip_suffix common m).subset hn)
  trimmed := fun l hl => by
    obtain ⟨m, hm, rfl⟩ := List.mem_map.1 hl
    exact Text.trimEnd_of_suffix (h.trimmed m hm) (clip_suffix common m)

/-- **Without their common indentation lines have none in common**. -/
theorem commonIndent_clip (h : Trimmed ls) (hne : ∃ l ∈ ls, l ≠ []) :
    commonIndent (ls.map (clip (commonIndent ls))) = 0 := by
  obtain ⟨l, hl, hne⟩ := hne
  obtain ⟨m, hm, hmb, hmin⟩ := exists_commonIndent ⟨l, hl, h.not_allBlank hl hne⟩
  have hmne : m ≠ [] := by
    rintro rfl
    cases hmb
  have hclip : clip (commonIndent ls) m ∈ ls.map (clip (commonIndent ls)) := List.mem_map_of_mem hm
  have hle := commonIndent_le hclip
    ((h.map_clip _).not_allBlank hclip (h.clip_ne_nil hm hmne _))
  rw [leading_clip] at hle
  omega

theorem tail {line : Text} (h : Trimmed (line :: ls)) : Trimmed ls where
  whole := fun l hl => h.whole l (List.mem_cons_of_mem _ hl)
  trimmed := fun l hl => h.trimmed l (List.mem_cons_of_mem _ hl)

/-- A trimmed line ends with no carriage return. -/
theorem dropReturn {line : Text} (h : Trimmed (line :: ls)) : Text.dropReturn line = line := by
  refine if_neg fun hr => ?_
  have := Text.trimEnd_eq_self_iff.1 (h.trimmed line List.mem_cons_self) _ hr
  cases this

theorem closeLines (h : Trimmed ls) (hlast : ls.getLast? ≠ some []) : Text.closeLines ls = ls := by
  induction ls with
  | nil => rfl
  | cons l ls ih =>
    cases ls with
    | nil =>
      refine if_neg fun he => hlast ?_
      rw [List.isEmpty_iff.1 he]
      rfl
    | cons m ls =>
      rw [Text.closeLines, h.dropReturn, ih h.tail (by rwa [List.getLast?_cons_cons] at hlast)]
      exact fun he => absurd he (List.cons_ne_nil m ls)

/-- **A piece with trimmed lines is moved line by line**. -/
theorem reindent (h : Trimmed ls) {first : Text} (hfirst : ls.head? = some first)
    (hhead : ∃ c, first.head? = some c ∧ isLineEnd c = false) (hend : ls.getLast? ≠ some [])
    (indent : Text) :
    Layout.reindent (Text.join ['\n'] ls) indent =
      Text.join ['\n'] (hang indent (ls.map (clip (commonIndent ls)))) := by
  have hlsne : ls ≠ [] := by
    rintro rfl
    cases hfirst
  have hlast := List.getLast?_eq_some_getLast hlsne
  have hne : ls.getLast hlsne ≠ [] := fun he => hend (he ▸ hlast)
  have htrim : Text.trimWhere isLineEnd (Text.join ['\n'] ls) = Text.join ['\n'] ls := by
    refine Text.trimWhere_eq_self (fun c hc => ?_) (fun c hc => ?_)
    · obtain ⟨d, hd, hplain⟩ := hhead
      obtain ⟨rest, rfl⟩ : ∃ rest, ls = first :: rest := by
        cases ls with
        | nil => cases hfirst
        | cons l rest =>
          cases hfirst
          exact ⟨rest, rfl⟩
      obtain ⟨tail, rfl⟩ : ∃ tail, first = d :: tail := by
        cases first with
        | nil => cases hd
        | cons e tail =>
          cases hd
          exact ⟨tail, rfl⟩
      rw [Text.join, List.intercalate_cons_cons_left] at hc
      cases hc
      exact hplain
    · rw [Text.getLast?_join hlast hne] at hc
      exact not_isLineEnd_of_ink
        (Text.trimEnd_eq_self_iff.1 (h.trimmed _ (List.getLast_mem hlsne)) c hc)
  have hlines : Text.lines (Text.join ['\n'] ls) = ls := by
    rw [Text.lines, Text.splitWhere_join hlsne h.whole, h.closeLines hend]
  have hmap : ls.map (outdent (commonIndent ls)) = ls.map (clip (commonIndent ls)) :=
    List.map_congr_left fun l hl => outdent_eq_clip (h.trimmed l hl) _
  simp only [Layout.reindent, htrim, hlines, hmap]

end Trimmed

/-! ## A piece that is put back -/

theorem hang_nil (ls : List Text) : hang [] ls = ls := by
  have hid : indentLine [] = id := by
    funext line
    cases line <;> rfl
  cases ls with
  | nil => rfl
  | cons first rest => rw [hang, hid, List.map_id]

theorem clip_zero (line : Text) : clip 0 line = line := by
  rw [clip, Nat.zero_min, List.drop_zero]

theorem not_newline_of_isIndent {indent : Text} (h : indent.all isIndent = true) : '\n' ∉ indent :=
  fun hn => absurd (List.all_eq_true.1 h _ hn) (by decide)

/-- A line with an indentation before it, and lines after it. -/
theorem Trimmed.indented {first : Text} {rest : List Text} (h : Trimmed (first :: rest))
    (hne : first ≠ []) {indent : Text} (hindent : indent.all isIndent = true) :
    Trimmed ((indent ++ first) :: rest) where
  whole := fun l hl hn => by
    rcases List.mem_cons.1 hl with rfl | hl
    · rcases List.mem_append.1 hn with hn | hn
      · exact not_newline_of_isIndent hindent hn
      · exact h.whole first List.mem_cons_self hn
    · exact h.whole l (List.mem_cons_of_mem _ hl) hn
  trimmed := fun l hl => by
    rcases List.mem_cons.1 hl with rfl | hl
    · rw [Text.trimEnd_eq_self_iff]
      intro c hc
      rw [List.getLast?_append, List.getLast?_eq_some_getLast hne, Option.some_or] at hc
      cases hc
      exact Text.trimEnd_eq_self_iff.1 (h.trimmed first List.mem_cons_self) _
        (List.getLast?_eq_some_getLast hne)
    · exact h.trimmed l (List.mem_cons_of_mem _ hl)

/-- A line with an indentation before it begins with no line end. -/
theorem head?_indented {indent first : Text} (hindent : indent.all isIndent = true)
    (hhead : ∃ c, first.head? = some c ∧ isBlank c = false) :
    ∃ d, (indent ++ first).head? = some d ∧ isLineEnd d = false := by
  obtain ⟨c, hc, hcb⟩ := hhead
  cases indent with
  | nil => exact ⟨c, hc, not_isLineEnd_of_ink hcb⟩
  | cons d indent =>
    exact ⟨d, rfl, not_isLineEnd_of_isIndent (List.all_eq_true.1 hindent d List.mem_cons_self)⟩

theorem leading_indented {indent first : Text} (hindent : indent.all isIndent = true)
    (hhead : ∃ c, first.head? = some c ∧ isBlank c = false) :
    leading (indent ++ first) = indent.length := by
  obtain ⟨c, hc, hcb⟩ := hhead
  obtain ⟨tail, rfl⟩ := List.head?_eq_some_iff.1 hc
  have hci : isIndent c = false := Bool.eq_false_iff.2 fun he => by
    rw [isBlank_of_isIndent he] at hcb
    cases hcb
  rw [leading_append hindent, leading, List.takeWhile_cons_of_neg (by simp [hci])]
  rfl

theorem ne_nil_of_head? {first : Text} (hhead : ∃ c, first.head? = some c ∧ isBlank c = false) :
    first ≠ [] := by
  rintro rfl
  obtain ⟨c, hc, -⟩ := hhead
  cases hc

section Piece

variable {indent first : Text} {rest : List Text}

/-- The indentation that the lines of a piece have in common, the first one as it stands in its
text. -/
def shared (indent first : Text) (rest : List Text) : Nat :=
  commonIndent ((indent ++ first) :: rest)

theorem shared_le (h : Trimmed (first :: rest)) (hindent : indent.all isIndent = true)
    (hhead : ∃ c, first.head? = some c ∧ isBlank c = false) :
    shared indent first rest ≤ indent.length := by
  have hne := ne_nil_of_head? hhead
  rw [← leading_indented hindent hhead]
  exact commonIndent_le List.mem_cons_self ((h.indented hne hindent).not_allBlank
    List.mem_cons_self (List.append_ne_nil_of_right_ne_nil _ hne))

/-- **Every line but the first gets the indentation that the first had**; the first line keeps what
the others do not share. -/
theorem reindent_reindent (h : Trimmed (first :: rest)) (hindent : indent.all isIndent = true)
    (hhead : ∃ c, first.head? = some c ∧ isBlank c = false)
    (hend : (first :: rest).getLast? ≠ some []) :
    reindent (reindent (indent ++ Text.join ['\n'] (first :: rest)) []) indent =
      Text.join ['\n'] ((indent.drop (shared indent first rest) ++ first) ::
        rest.map fun l => indentLine indent (clip (shared indent first rest) l)) := by
  have hne : indent ++ first ≠ [] :=
    List.append_ne_nil_of_right_ne_nil _ (ne_nil_of_head? hhead)
  have htrimmed := h.indented (ne_nil_of_head? hhead) hindent
  have hend' : ((indent ++ first) :: rest).getLast? ≠ some [] := by
    cases rest with
    | nil => exact fun he => hne (Option.some.inj he)
    | cons l rest => exact hend
  have hclip : clip (shared indent first rest) (indent ++ first) =
      indent.drop (shared indent first rest) ++ first := by
    have hle := shared_le h hindent hhead
    rw [clip, leading_indented hindent hhead, Nat.min_eq_left hle,
      List.drop_append_of_le_length hle]
  have hdrop : (indent.drop (shared indent first rest)).all isIndent = true :=
    List.all_eq_true.2 fun d hd => List.all_eq_true.1 hindent d (List.mem_of_mem_drop hd)
  -- the lines as they are shown are trimmed as well, and begin together at the margin
  have hback := htrimmed.map_clip (shared indent first rest)
  have hzero : commonIndent (((indent ++ first) :: rest).map (clip (shared indent first rest))) = 0 :=
    htrimmed.commonIndent_clip ⟨_, List.mem_cons_self, hne⟩
  have hendback := htrimmed.getLast?_map_clip hend' (shared indent first rest)
  rw [Text.append_join, htrimmed.reindent rfl (head?_indented hindent hhead) hend', hang_nil]
  rw [← shared, List.map_cons, hclip] at *
  rw [hback.reindent rfl (head?_indented hdrop hhead) hendback, hzero,
    show clip 0 = id from funext clip_zero, List.map_id, hang, List.map_map]
  rfl

/-- **A trimmed piece comes back exactly if its lines begin with the indentation of the first**. -/
theorem Trimmed.reindent_dedent_iff (h : Trimmed (first :: rest))
    (hindent : indent.all isIndent = true)
    (hhead : ∃ c, first.head? = some c ∧ isBlank c = false)
    (hend : (first :: rest).getLast? ≠ some []) :
    Layout.reindent (Layout.reindent (indent ++ Text.join ['\n'] (first :: rest)) []) indent =
        Text.join ['\n'] (first :: rest) ↔
      ∀ line ∈ rest, line ≠ [] → indent <+: line := by
  have hle := shared_le h hindent hhead
  have hclipne : ∀ line ∈ rest, line ≠ [] → clip (shared indent first rest) line ≠ [] :=
    fun line hl hne => h.clip_ne_nil (List.mem_cons_of_mem _ hl) hne _
  have hmoved : ∀ line ∈ rest, line ≠ [] →
      indentLine indent (clip (shared indent first rest) line) =
        indent ++ clip (shared indent first rest) line := fun line hl hne =>
    if_neg (by simpa using hclipne line hl hne)
  rw [reindent_reindent h hindent hhead hend]
  constructor
  · intro he line hl hne
    have hlines := Text.join_inj (List.cons_ne_nil _ _) (List.cons_ne_nil _ _) ?_ h.whole he
    · obtain ⟨-, hrest⟩ := List.cons_eq_cons.1 hlines
      have hid := List.map_inj_left.1 (hrest.trans (List.map_id rest).symm) line hl
      rw [hmoved line hl hne] at hid
      exact ⟨_, hid⟩
    · intro l hl hn
      rcases List.mem_cons.1 hl with rfl | hl
      · rcases List.mem_append.1 hn with hn | hn
        · exact not_newline_of_isIndent hindent (List.mem_of_mem_drop hn)
        · exact h.whole first List.mem_cons_self hn
      · obtain ⟨m, hm, rfl⟩ := List.mem_map.1 hl
        have hmn : '\n' ∉ clip (shared indent first rest) m := fun hn =>
          h.whole m (List.mem_cons_of_mem _ hm) ((clip_suffix _ m).subset hn)
        unfold indentLine at hn
        split at hn
        · cases hn
        · exact (List.mem_append.1 hn).elim (not_newline_of_isIndent hindent) hmn
  · intro hlines
    have hshared : shared indent first rest = indent.length := by
      refine Nat.le_antisymm hle ?_
      have hne := ne_nil_of_head? hhead
      have hfirst : Text.allBlank (indent ++ first) = false :=
        (h.indented hne hindent).not_allBlank List.mem_cons_self
          (List.append_ne_nil_of_right_ne_nil _ hne)
      obtain ⟨m, hm, hmb, hmin⟩ : ∃ m ∈ (indent ++ first) :: rest, Text.allBlank m = false ∧
          leading m = commonIndent ((indent ++ first) :: rest) :=
        exists_commonIndent ⟨_, List.mem_cons_self, hfirst⟩
      rw [shared, ← hmin]
      rcases List.mem_cons.1 hm with rfl | hm
      · exact Nat.le_of_eq (leading_indented hindent hhead).symm
      · have hmne : m ≠ [] := by
          rintro rfl
          cases hmb
        obtain ⟨l, rfl⟩ := hlines m hm hmne
        rw [leading_append hindent]
        exact Nat.le_add_right _ _
    rw [hshared] at hmoved ⊢
    rw [List.drop_length, List.nil_append]
    refine congrArg (fun lines => Text.join ['\n'] (first :: lines)) ?_
    refine (List.map_congr_left fun line hl => ?_).trans (List.map_id rest)
    by_cases hne : line = []
    · rw [hne, clip, List.drop_nil]
      rfl
    · rw [hmoved line hl hne]
      obtain ⟨l, rfl⟩ := hlines line hl hne
      rw [clip, leading_append hindent, Nat.min_eq_left (Nat.le_add_right _ _), List.drop_left]
      rfl

end Piece

/-! ## What a moved piece ends with -/

/-- No line of a text ends with a blank. -/
def TrimmedLines (s : Text) : Prop :=
  ∀ u x v, s = u ++ x :: v → (v = [] ∨ v.head? = some '\n') → isBlank x = true → x = '\n'

theorem TrimmedLines.right {s t : Text} (h : TrimmedLines (s ++ t)) : TrimmedLines t :=
  fun u x v he hv hx => h (s ++ u) x v (by rw [he, List.append_assoc]) hv hx

theorem TrimmedLines.of_line {l : Text} (hn : '\n' ∉ l) (ht : trimEnd l = l) {u v : Text} {x : Char}
    (hl : l = u ++ x :: v) (hv : v = [] ∨ v.head? = some '\n') : isBlank x = false := by
  subst hl
  rcases hv with rfl | hv
  · exact Text.trimEnd_eq_self_iff.1 ht x (by simp)
  · obtain ⟨r, rfl⟩ := List.head?_eq_some_iff.1 hv
    exact absurd (by simp) hn

theorem TrimmedLines.of_join {ls : List Text} (h : Trimmed ls) :
    TrimmedLines (Text.join ['\n'] ls) := by
  induction ls with
  | nil =>
    intro u x v he
    rw [Text.join, List.intercalate_nil] at he
    simp at he
  | cons l ls ih =>
    have hl := h.whole l List.mem_cons_self
    have ht := h.trimmed l List.mem_cons_self
    intro u x v he hv hx
    cases ls with
    | nil =>
      rw [Text.join_singleton] at he
      rw [of_line hl ht he hv] at hx
      cases hx
    | cons m ls =>
      rw [Text.join, List.intercalate_cons_cons, List.append_assoc, List.singleton_append] at he
      rcases List.append_eq_append_iff.1 he with ⟨mid, rfl, hmid⟩ | ⟨mid, rfl, hmid⟩
      · cases mid with
        | nil => exact (List.cons.inj hmid).1.symm
        | cons d mid => exact ih h.tail mid x v (List.cons.inj hmid).2 hv hx
      · cases mid with
        | nil => exact (List.cons.inj hmid).1
        | cons d mid =>
          obtain ⟨rfl, rfl⟩ := List.cons.inj hmid
          have hmid : mid = [] ∨ mid.head? = some '\n' := by
            cases mid with
            | nil => exact .inl rfl
            | cons e mid => exact .inr (hv.resolve_left (List.cons_ne_nil _ _))
          rw [of_line hl ht rfl hmid] at hx
          cases hx

/-- Without the line ends around it, a text whose lines end with no blank ends with no blank. -/
theorem TrimmedLines.trimEnd_trimWhere {s : Text} (h : TrimmedLines s) :
    trimEnd (Text.trimWhere isLineEnd s) = Text.trimWhere isLineEnd s := by
  have key : ∀ t : Text, TrimmedLines t.reverse →
      trimEnd (t.dropWhile isLineEnd).reverse = (t.dropWhile isLineEnd).reverse := by
    intro t ht
    induction t with
    | nil => rfl
    | cons x t ih =>
      rw [List.reverse_cons] at ht
      by_cases hx : isLineEnd x = true
      · rw [List.dropWhile_cons_of_pos hx]
        refine ih fun u y v he hv hy => ?_
        refine ht u y (v ++ [x]) (by rw [he, List.append_assoc]; rfl) (.inr ?_) hy
        rcases hv with rfl | hv
        · rw [ht _ x [] rfl (.inl rfl) (isBlank_of_isLineEnd hx)]
          rfl
        · rw [List.head?_append, hv]
          rfl
      · rw [List.dropWhile_cons_of_neg hx, List.reverse_cons, Text.trimEnd_eq_self_iff]
        intro c hc
        rw [List.getLast?_concat] at hc
        cases hc
        refine Bool.eq_false_iff.2 fun hb => hx ?_
        rw [ht _ x [] rfl (.inl rfl) hb]
        rfl
  obtain ⟨lead, hs, -⟩ := Text.append_trimStartWhere isLineEnd s
  refine key (Text.trimStartWhere isLineEnd s).reverse ?_
  rw [List.reverse_reverse]
  rw [hs] at h
  exact h.right

theorem getLast?_outdent {line : Text} {y : Char} (h : line.getLast? = some y)
    (hy : isBlank y = false) (common : Nat) : (outdent common line).getLast? = some y := by
  have ht := Text.trimEnd_of_getLast? h hy
  have hb : Text.allBlank line = false := Bool.eq_false_iff.2 fun hall => by
    rw [List.all_eq_true.1 hall y (List.mem_of_getLast? h)] at hy
    cases hy
  have hlt := leading_lt hb
  rw [outdent_eq_clip ht, clip, List.getLast?_drop, if_neg (by omega), h]

theorem getLast?_hang {ls : List Text} {last : Text} {y : Char} (h : ls.getLast? = some last)
    (hy : last.getLast? = some y) (indent : Text) :
    ∃ line, (hang indent ls).getLast? = some line ∧ line.getLast? = some y := by
  cases ls with
  | nil => cases h
  | cons first rest =>
    rcases List.eq_nil_or_concat rest with rfl | ⟨init, l, rfl⟩
    · cases h
      exact ⟨_, rfl, hy⟩
    · rw [List.concat_eq_append, ← List.cons_append, List.getLast?_concat] at h
      cases h
      refine ⟨indentLine indent last, ?_, ?_⟩
      · rw [hang, List.concat_eq_append, List.map_append, List.map_singleton, ← List.cons_append,
          List.getLast?_concat]
      · have hne : last ≠ [] := by
          rintro rfl
          cases hy
        rw [indentLine, if_neg (by simpa using hne), List.getLast?_append, hy, Option.some_or]

/-- A text that ends with no blank, moved, ends with none. -/
theorem trimEnd_reindent {code : Text}
    (h : trimEnd (Text.trimWhere isLineEnd code) = Text.trimWhere isLineEnd code) (indent : Text) :
    trimEnd (reindent code indent) = reindent code indent := by
  unfold reindent
  generalize Text.trimWhere isLineEnd code = piece at h
  cases hlast : piece.getLast? with
  | none =>
    rw [List.getLast?_eq_none_iff] at hlast
    rw [hlast]
    rfl
  | some y =>
    have hy := Text.trimEnd_eq_self_iff.1 h y hlast
    have hyn : y ≠ '\n' := by
      rintro rfl
      cases hy
    obtain ⟨last, hl, hly⟩ := Text.getLast?_lines hlast hyn
    have hmap : ((Text.lines piece).map (outdent (commonIndent (Text.lines piece)))).getLast? =
        some (outdent (commonIndent (Text.lines piece)) last) := by
      rw [List.getLast?_map, hl]
      rfl
    obtain ⟨line, hline, hyline⟩ := getLast?_hang hmap (getLast?_outdent hly hy _) indent
    have hne : line ≠ [] := by
      rintro rfl
      cases hyline
    refine Text.trimEnd_of_getLast? (c := y) ?_ hy
    show (Text.join ['\n'] (hang indent _)).getLast? = some y
    rw [Text.getLast?_join hline hne, hyline]

/-- **A piece that is shown and put back does not end with a blank**. -/
theorem trimEnd_reindent_reindent (code indent : Text) :
    trimEnd (reindent (reindent code []) indent) = reindent (reindent code []) indent := by
  refine trimEnd_reindent (TrimmedLines.trimEnd_trimWhere ?_) indent
  simp only [reindent, hang_nil]
  refine .of_join ⟨fun l hl hn => ?_, fun l hl => ?_⟩
  · obtain ⟨m, hm, rfl⟩ := List.mem_map.1 hl
    obtain ⟨tail, hs, -⟩ := Text.trimEndWhere_append isBlank m
    refine Text.not_newline_of_mem_lines hm ?_
    rw [hs]
    exact List.mem_append_left _ ((List.drop_suffix _ _).subset hn)
  · obtain ⟨m, -, rfl⟩ := List.mem_map.1 hl
    exact Text.trimEnd_of_suffix (Text.trimEnd_trimEnd m) (List.drop_suffix _ _)

/-- Nothing but indentation comes to nothing. -/
theorem reindent_indent {indent : Text} (h : indent.all isIndent = true) :
    reindent (reindent indent []) indent = [] := by
  have hblank : Text.allBlank indent = true :=
    List.all_eq_true.2 fun c hc => isBlank_of_isIndent (List.all_eq_true.1 h c hc)
  have hplain : ∀ c ∈ indent, isLineEnd c = false := fun c hc =>
    not_isLineEnd_of_isIndent (List.all_eq_true.1 h c hc)
  have htrim : Text.trimWhere isLineEnd indent = indent :=
    Text.trimWhere_eq_self (fun c hc => hplain c (List.mem_of_head? hc))
      (fun c hc => hplain c (List.mem_of_getLast? hc))
  have houtdent (common : Nat) : outdent common indent = [] := by
    rw [outdent, Text.trimEnd_of_allBlank hblank]
    exact List.drop_nil
  have hshown : reindent indent [] = [] := by
    simp only [reindent, htrim, hang_nil]
    by_cases hne : indent = []
    · rw [hne]
      rfl
    · rw [Text.lines_last (not_newline_of_isIndent h) hne, List.map_singleton, houtdent,
        Text.join_singleton]
  rw [hshown]
  rfl

/-- The lines of a piece that ends with no blank, when no line before the last does. -/
theorem Trimmed.of_piece {piece : Text} (hne : piece ≠ []) (hend : trimEnd piece = piece)
    (htrimmed : ∀ line ∈ (splitWhere (· == '\n') piece).dropLast, trimEnd line = line) :
    Trimmed (splitWhere (· == '\n') piece) ∧
      (splitWhere (· == '\n') piece).getLast? ≠ some [] := by
  obtain ⟨p, q, init, hpiece, hp, hinit⟩ := Text.splitWhere_last piece
  have hlast := List.getLast?_eq_some_getLast hne
  have hb := Text.trimEnd_eq_self_iff.1 hend _ hlast
  generalize piece.getLast hne = y at hlast hb
  have hy : y ≠ '\n' := by
    rintro rfl
    cases hb
  have hq := Text.getLast?_last hp (hpiece ▸ hlast) hy
  rw [hinit, List.dropLast_concat] at htrimmed
  refine ⟨⟨fun l hl => Text.not_mem_of_mem_splitWhere hl, fun l hl => ?_⟩, fun he => ?_⟩
  · rw [hinit] at hl
    rcases List.mem_append.1 hl with hl | hl
    · exact htrimmed l hl
    · rw [List.mem_singleton.1 hl]
      exact Text.trimEnd_of_suffix hend ⟨p, hpiece.symm⟩
  · rw [hinit, List.getLast?_concat] at he
    cases he
    cases hq

/-- **A piece comes back exactly if** its lines begin with the indentation of the first and it does
not end with a blank. Of the blanks before its line feeds it is asked that there are none. -/
theorem reindent_dedent_iff {indent piece : Text} (hindent : indent.all isIndent = true)
    (hhead : ∀ c, piece.head? = some c → isBlank c = false)
    (htrimmed : ∀ line ∈ (splitWhere (· == '\n') piece).dropLast, trimEnd line = line) :
    reindent (reindent (indent ++ piece) []) indent = piece ↔
      (∀ line ∈ (splitWhere (· == '\n') piece).tail, line ≠ [] → indent <+: line) ∧
        trimEnd piece = piece := by
  cases piece with
  | nil =>
    rw [List.append_nil, reindent_indent hindent]
    exact ⟨fun _ => ⟨fun _ hl => (by cases hl), rfl⟩, fun _ => rfl⟩
  | cons c r =>
    have hc := hhead c rfl
    have hcn : c ≠ '\n' := by
      rintro rfl
      cases hc
    by_cases hend : trimEnd (c :: r) = c :: r
    · obtain ⟨hls, hlast⟩ := Trimmed.of_piece (List.cons_ne_nil c r) hend htrimmed
      obtain ⟨part, rest, hsplit⟩ := Text.splitWhere_head hcn r
      have hpiece := Text.join_splitWhere '\n' (c :: r)
      rw [hsplit] at hls hlast hpiece ⊢
      have hiff := hls.reindent_dedent_iff hindent ⟨c, rfl, hc⟩ hlast
      rw [hpiece] at hiff
      rw [hiff]
      exact ⟨fun h => ⟨h, hend⟩, fun h => h.1⟩
    · refine ⟨fun h => absurd ?_ hend, fun h => absurd h.2 hend⟩
      rw [← h]
      exact trimEnd_reindent_reindent _ _

/-- The lines of a part of a text with trimmed lines are trimmed, but for the last. -/
theorem trimEnd_of_mem_slice {source u piece v : Text} (hsource : source = u ++ (piece ++ v))
    (h : ∀ line ∈ splitWhere (· == '\n') source, trimEnd line = line) :
    ∀ line ∈ (splitWhere (· == '\n') piece).dropLast, trimEnd line = line := by
  have htrimmed : TrimmedLines source := by
    have := TrimmedLines.of_join ⟨fun l hl => Text.not_mem_of_mem_splitWhere hl, h⟩
    rwa [Text.join_splitWhere] at this
  intro line hline
  have hn := Text.not_mem_of_mem_splitWhere ((List.dropLast_sublist _).subset hline)
  obtain ⟨a, b, hpiece⟩ := Text.exists_of_mem_dropLast hline
  rw [Text.join_splitWhere] at hpiece
  rw [Text.trimEnd_eq_self_iff]
  intro c hc
  obtain ⟨init, rfl⟩ := List.getLast?_eq_some_iff.1 hc
  refine Bool.eq_false_iff.2 fun hb => hn ?_
  have he : source = (u ++ a ++ init) ++ c :: ('\n' :: b ++ v) := by
    rw [hsource, hpiece]
    simp
  rw [htrimmed _ c _ he (.inr rfl) hb]
  simp

end Layout

/-! ## Routines of the indented language -/

namespace Language

open Layout (dedented lineIndent splice)
open Source (Routine)

variable {source : Text} {routines : List Routine} {r : Routine}

/-- The documentation of a routine stands inside it. -/
theorem extent_python (h : python.routines source = .ok routines) (hr : r ∈ routines) :
    r.extent = r.span := by
  obtain ⟨o, -, rfl, hfits, rfl⟩ := outline_of_routines h
  exact (hfits.survey_stands _ r hr).extent_eq_span hfits.nodes

/-- A routine begins with no blank. -/
theorem head?_python (h : python.routines source = .ok routines) (hr : r ∈ routines) :
    ∀ c, (r.span.of source).head? = some c → isBlank c = false := by
  obtain ⟨o, ho, hsource, hfits, rfl⟩ := outline_of_routines h
  obtain ⟨b, hmem, -⟩ := (hfits.survey_stands _ r hr).node
  obtain ⟨u, d, rest, he, hstart, hd⟩ := Source.Indented.outline_begin ho _ hmem nofun
  intro c hc
  have hstart : r.span.start = Text.width u := hstart
  rw [Source.Span.of, Text.slice, hstart, he, Text.dropBytes_width_append, Text.takeBytes] at hc
  split at hc
  · cases hc
    exact hd
  · cases hc

theorem all_isIndent_lineIndent (source : Text) (offset : Nat) :
    (lineIndent source offset).all isIndent = true := by
  unfold lineIndent
  simp only
  split
  · assumption
  · rfl

/-- **A replaced range stands between what stood around it**. -/
theorem splice_one {span : Source.Span} (h : span.Fits source) (code : Text) :
    ∃ before after, source = before ++ (span.of source ++ after) ∧
      splice source [⟨span, some code⟩] =
        before ++ (Layout.reindent code (lineIndent source span.start) ++ after) := by
  have hrow : Source.Row source [span] :=
    ⟨fun s hs => List.mem_singleton.1 hs ▸ h, List.pairwise_singleton _ _⟩
  exact ⟨_, _, (Layout.weave_gaps hrow).symm, Layout.splice_eq_weave hrow⟩

/-- **A routine that is put back as it was shown leaves the text as it was exactly if** its further
lines, unless they are empty, begin with the indentation of its first line, and no blank stands at
its end. -/
theorem splice_dedented_iff (htrimmed : ∀ line ∈ splitWhere (· == '\n') source, trimEnd line = line)
    (h : python.routines source = .ok routines) (hr : r ∈ routines) :
    splice source [⟨r.extent, some (dedented source r.span.start r.span.stop)⟩] = source ↔
      (∀ line ∈ (splitWhere (· == '\n') (r.span.of source)).tail, line ≠ [] →
          lineIndent source r.span.start <+: line) ∧
        trimEnd (r.span.of source) = r.span.of source := by
  rw [extent_python h hr]
  obtain ⟨before, after, hsource, hsplice⟩ :=
    splice_one (routines_fit h r hr).span (dedented source r.span.start r.span.stop)
  rw [hsplice]
  refine Iff.trans ?_ (Layout.reindent_dedent_iff (all_isIndent_lineIndent source r.span.start)
    (head?_python h hr) (Layout.trimEnd_of_mem_slice hsource htrimmed))
  constructor
  · intro he
    exact List.append_cancel_right (List.append_cancel_left (he.trans hsource))
  · intro he
    exact (congrArg (fun piece => before ++ (piece ++ after)) he).trans hsource.symm

/-- A decorated method with documentation and an empty line. -/
def sampleMethod : Text :=
  "class A:\n    @pure\n    def one(self):\n        \"\"\"One.\"\"\"\n\n        return 1\n".toList

/-- The routine of `sampleMethod`. -/
def sampleOne : Routine where
  name := "one".toList
  signature := "def one(self)".toList
  body := "\n        \"\"\"One.\"\"\"\n\n        return 1".toList
  span := ⟨13, 74⟩
  comment := "\"\"\"One.\"\"\"".toList
  commentSpan := some ⟨46, 56⟩

theorem splice_dedented_iff_sampleMethod :
    (∀ line ∈ splitWhere (· == '\n') sampleMethod, trimEnd line = line) ∧
      python.routines sampleMethod = .ok [sampleOne] ∧
      splice sampleMethod
        [⟨sampleOne.extent, some (dedented sampleMethod sampleOne.span.start sampleOne.span.stop)⟩] =
        sampleMethod := by
  have htrimmed : ∀ line ∈ splitWhere (· == '\n') sampleMethod, trimEnd line = line := by
    decide +kernel
  have h : python.routines sampleMethod = .ok [sampleOne] := by
    rw [routines_eq_compute]
    decide +kernel
  refine ⟨htrimmed, h, (splice_dedented_iff htrimmed h List.mem_cons_self).2 ⟨?_, ?_⟩⟩
  · decide +kernel
  · decide +kernel

/-- A method with a string whose lines begin at the margin. -/
def marginString : Text :=
  "class A:\n    def f(self):\n        x = \"\"\"\ntext\n\"\"\"\n        return x\n".toList

/-- The routine of `marginString`. -/
def marginMethod : Routine where
  name := "f".toList
  signature := "def f(self)".toList
  body := "\n        x = \"\"\"\ntext\n\"\"\"\n        return x".toList
  span := ⟨13, 67⟩
  comment := []
  commentSpan := none

theorem splice_dedented_marginString :
    (∀ line ∈ splitWhere (· == '\n') marginString, trimEnd line = line) ∧
      python.routines marginString = .ok [marginMethod] ∧
      splice marginString [⟨marginMethod.extent,
          some (dedented marginString marginMethod.span.start marginMethod.span.stop)⟩] =
        "class A:\n        def f(self):\n            x = \"\"\"\n    text\n    \"\"\"\n            return x\n".toList ∧
      splice marginString [⟨marginMethod.extent,
          some (dedented marginString marginMethod.span.start marginMethod.span.stop)⟩] ≠
        marginString := by
  refine ⟨by decide +kernel, ?_, by decide +kernel, by decide +kernel⟩
  rw [routines_eq_compute]
  decide +kernel

end Language

end Scholia
