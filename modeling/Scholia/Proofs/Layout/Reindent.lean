import Scholia.Proofs.Comment.Column
import Scholia.Proofs.Layout.Normal
/-!
# A piece of code at another column

Code is put behind an indentation row by row: a row is what stands between two line feeds. Every row
loses the indentation that the rows with text have in common, and every one but the first gets the
new indentation (`reindent_eq_join`).

The column at which the code stood makes no difference, with one exception. Line ends in front of the
code are dropped, carriage returns without a line feed among them; but such a carriage return belongs
to the first row, and behind spaces or tabs it stands within the row and is kept.

**The law** (`reindent_relative`): spaces and tabs in front of every row with text make no difference
exactly if there are none, or no carriage return stands directly before a first row with text.
-/

namespace Scholia.Layout

open Text (allBlank isBlank isIndent isLineEnd isWhole splitWhere trimEnd trimStartWhere trimWhere)

variable {code indent lead margin row s tail : Text} {common : Nat} {rows : List Text}

/-! ## Rows at another column -/

/-- Row `k` of a piece of code, moved from the column `common` behind an indentation. The first row
continues a line that is already indented; a blank row becomes empty. -/
def movedRow (indent : Text) (common k : Nat) (row : Text) : Text :=
  if allBlank row then []
  else (if k = 0 then [] else indent) ++ trimEnd (Text.dropBytes common row)

/-- The rows of a piece of code without the indentation they have in common, behind another one. -/
def movedRows (indent : Text) (rows : List Text) : List Text :=
  rows.mapIdx (movedRow indent (commonIndent rows))

theorem not_newline_movedRow {k : Nat} (hindent : k = 0 ∨ '\n' ∉ indent) (hrow : '\n' ∉ row) :
    '\n' ∉ movedRow indent common k row := by
  intro hn
  unfold movedRow at hn
  split at hn
  · cases hn
  · rcases List.mem_append.1 hn with hn | hn
    · split at hn
      · cases hn
      · next hk => exact hindent.resolve_left hk hn
    · obtain ⟨tail, he, -⟩ := Text.trimEndWhere_append isBlank (Text.dropBytes common row)
      rw [← Text.takeBytes_append_dropBytes common row, he] at hrow
      exact hrow (List.mem_append_right _ (List.mem_append_left _ hn))

theorem outdent_of_allBlank (h : allBlank row = true) (common : Nat) : outdent common row = [] := by
  rw [outdent, Text.trimEnd_of_allBlank h, List.drop_nil]

theorem outdent_ne_nil (h : allBlank row = false) (common : Nat) : outdent common row ≠ [] := by
  have htrim : allBlank (trimEnd row) = false := by rw [Text.allBlank_trimEnd, h]
  have := leading_lt htrim
  rw [outdent, ne_eq, List.drop_eq_nil_iff]
  omega

theorem trimEnd_outdent (common : Nat) (row : Text) :
    trimEnd (outdent common row) = outdent common row :=
  Text.trimEnd_of_suffix (Text.trimEnd_trimEnd row) (List.drop_suffix _ _)

/-- A row with text loses as many bytes as its column says. -/
theorem outdent_eq_trimEnd (hrow : '\n' ∉ row) (h : allBlank row = false)
    (hcommon : common ≤ leading row) :
    outdent common row = trimEnd (Text.dropBytes common row) := by
  obtain ⟨u, v, -, hv, he, -, hcol⟩ := exists_margins hrow rfl fun _ => hcommon
  obtain ⟨-, hwidth⟩ := hcol.resolve_left fun hnone => outdent_ne_nil h common hnone.1
  have hbytes : Text.dropBytes common row = outdent common row ++ v := by
    have := Text.dropBytes_width_append u (outdent common row ++ v)
    rwa [← he, hwidth] at this
  rw [hbytes, Text.trimEnd_append hv.blank, trimEnd_outdent]

theorem movedRow_first (hrow : '\n' ∉ row) (hcommon : allBlank row = false → common ≤ leading row) :
    movedRow indent common 0 row = outdent common row := by
  unfold movedRow
  cases h : allBlank row with
  | true => rw [if_pos rfl, outdent_of_allBlank h]
  | false =>
    rw [if_neg Bool.false_ne_true, if_pos rfl, List.nil_append,
      outdent_eq_trimEnd hrow h (hcommon h)]

theorem movedRow_further (hrow : '\n' ∉ row)
    (hcommon : allBlank row = false → common ≤ leading row) (k : Nat) :
    movedRow indent common (k + 1) row = indentLine indent (outdent common row) := by
  unfold movedRow
  cases h : allBlank row with
  | true =>
    rw [if_pos rfl, outdent_of_allBlank h]
    rfl
  | false =>
    rw [if_neg Bool.false_ne_true, if_neg (Nat.succ_ne_zero k), indentLine,
      if_neg (by simpa using outdent_ne_nil h common), outdent_eq_trimEnd hrow h (hcommon h)]

/-- **Rows are moved as lines are**. -/
theorem hang_outdent (hrows : ∀ row ∈ rows, '\n' ∉ row) (indent : Text) :
    hang indent (rows.map (outdent (commonIndent rows))) = movedRows indent rows := by
  have hcommon : ∀ row ∈ rows, allBlank row = false → commonIndent rows ≤ leading row :=
    fun row => commonIndent_le
  unfold movedRows
  generalize commonIndent rows = common at hcommon
  cases rows with
  | nil => rfl
  | cons first rest =>
    obtain ⟨hfirst, hrest⟩ := List.forall_mem_cons.1 hcommon
    obtain ⟨hwhole, hrows⟩ := List.forall_mem_cons.1 hrows
    rw [List.map_cons, hang, List.mapIdx_cons, movedRow_first hwhole hfirst, List.map_map]
    refine congrArg (_ :: ·) (List.ext_getElem (by simp) fun k hk _ => ?_)
    rw [List.getElem_map, List.getElem_mapIdx, movedRow_further (hrows _ (List.getElem_mem _))
      (hrest _ (List.getElem_mem _))]
    rfl

theorem commonIndent_map_trimEnd (rows : List Text) :
    commonIndent (rows.map trimEnd) = commonIndent rows := by
  rw [commonIndent, commonIndent, filter_map_trimEnd, List.map_map]
  refine congrArg (fun ns => (List.min? ns).getD 0) (List.map_congr_left fun row hrow => ?_)
  exact leading_trimEnd (by simpa using (List.mem_filter.1 hrow).2)

theorem map_outdent_trimEnd (common : Nat) (rows : List Text) :
    (rows.map trimEnd).map (outdent common) = rows.map (outdent common) := by
  rw [List.map_map]
  refine List.map_congr_left fun row _ => ?_
  rw [Function.comp_apply, outdent, Text.trimEnd_trimEnd, outdent]

/-- **Code at another column, row by row**. -/
theorem reindent_eq_join (code indent : Text) :
    reindent code indent =
      Text.join ['\n'] (movedRows indent (splitWhere (· == '\n') (trimWhere isLineEnd code))) := by
  have hlast := getLast?_trimWhere code
  rw [← hang_outdent fun row => Text.not_mem_of_mem_splitWhere, reindent]
  generalize trimWhere isLineEnd code = piece at hlast
  by_cases hpiece : piece = []
  · subst hpiece
    rfl
  · -- lines and rows differ in blanks at their ends
    have hrows := forall₂_closeLines (getLast?_splitWhere hpiece hlast)
    have htrim : (Text.lines piece).map trimEnd = (splitWhere (· == '\n') piece).map trimEnd := by
      have := List.forall₂_map_right_iff.2 (List.forall₂_map_left_iff.2 (hrows.imp fun _ _ h => h.symm))
      exact (List.forall₂_eq_eq_eq ▸ this).symm
    rw [← commonIndent_map_trimEnd (Text.lines piece), ← map_outdent_trimEnd _ (Text.lines piece),
      htrim, commonIndent_map_trimEnd, map_outdent_trimEnd]

/-- **An indentation without line feeds leaves the rows apart**. -/
theorem splitWhere_reindent (hindent : '\n' ∉ indent) (code : Text) :
    splitWhere (· == '\n') (reindent code indent) =
      movedRows indent (splitWhere (· == '\n') (trimWhere isLineEnd code)) := by
  have hne := Text.splitWhere_ne_nil (· == '\n') (trimWhere isLineEnd code)
  have hwhole : ∀ row ∈ splitWhere (· == '\n') (trimWhere isLineEnd code), '\n' ∉ row :=
    fun row => Text.not_mem_of_mem_splitWhere
  rw [reindent_eq_join]
  generalize splitWhere (· == '\n') (trimWhere isLineEnd code) = rows at hne hwhole
  refine Text.splitWhere_join (by simpa [movedRows] using hne) fun row hrow => ?_
  obtain ⟨k, hk, rfl⟩ := List.mem_mapIdx.1 hrow
  exact not_newline_movedRow (.inr hindent) (hwhole _ (List.getElem_mem hk))

/-! ## Rows behind a margin -/

theorem not_newline_pushedRow (h : '\n' ∉ margin) (hrow : '\n' ∉ row) :
    '\n' ∉ pushedRow margin row := by
  unfold pushedRow
  split
  · exact hrow
  · exact fun hn => (List.mem_append.1 hn).elim h hrow

/-- A text with `margin` in front of each of its rows that is not blank. -/
def pushedAll (margin s : Text) : Text :=
  Text.join ['\n'] ((splitWhere (· == '\n') s).map (pushedRow margin))

theorem splitWhere_pushedAll (h : '\n' ∉ margin) (s : Text) :
    splitWhere (· == '\n') (pushedAll margin s) =
      (splitWhere (· == '\n') s).map (pushedRow margin) := by
  refine Text.splitWhere_join (by simpa using Text.splitWhere_ne_nil _ s) fun row hrow => ?_
  obtain ⟨part, hpart, rfl⟩ := List.mem_map.1 hrow
  exact not_newline_pushedRow h (Text.not_mem_of_mem_splitWhere hpart)

theorem allBlank_pushedRow (h : allBlank margin = true) (row : Text) :
    allBlank (pushedRow margin row) = allBlank row := by
  unfold pushedRow
  split
  · rfl
  · rw [Text.allBlank_append, h, Bool.true_and]

/-- **Behind a margin the common indentation is as much larger**. -/
theorem commonIndent_map_pushedRow (h : margin.all isIndent = true)
    (htext : ∃ row ∈ rows, allBlank row = false) :
    commonIndent (rows.map (pushedRow margin)) = margin.length + commonIndent rows := by
  have hblank := (isGap_of_isIndent h).blank
  have hlead : ∀ {row : Text}, allBlank row = false →
      leading (pushedRow margin row) = margin.length + leading row := by
    intro row hrow
    rw [pushedRow, if_neg (by simp [hrow]), leading_append h]
  obtain ⟨first, hfirst, hfirstText, hmin⟩ := exists_commonIndent htext
  obtain ⟨second, hsecond, hsecondText, hmin'⟩ : ∃ l ∈ rows.map (pushedRow margin),
      allBlank l = false ∧ leading l = commonIndent (rows.map (pushedRow margin)) := by
    refine exists_commonIndent ⟨_, List.mem_map_of_mem hfirst, ?_⟩
    rw [allBlank_pushedRow hblank, hfirstText]
  obtain ⟨row, hrow, rfl⟩ := List.mem_map.1 hsecond
  rw [allBlank_pushedRow hblank] at hsecondText
  refine Nat.le_antisymm ?_ ?_
  · rw [← hmin, ← hlead hfirstText]
    exact commonIndent_le (List.mem_map_of_mem hfirst) (by rw [allBlank_pushedRow hblank, hfirstText])
  · rw [← hmin', hlead hsecondText]
    exact Nat.add_le_add_left (commonIndent_le hrow hsecondText) _

theorem movedRow_pushedRow (h : margin.all isIndent = true) (indent : Text) (common k : Nat)
    (row : Text) :
    movedRow indent (margin.length + common) k (pushedRow margin row) =
      movedRow indent common k row := by
  unfold movedRow
  rw [allBlank_pushedRow (isGap_of_isIndent h).blank]
  split
  · rfl
  · next htext =>
    rw [pushedRow, if_neg htext, ← width_of_isIndent h, Text.dropBytes_add]

/-- **A margin in front of the rows makes no difference to what they become**. -/
theorem movedRows_map_pushedRow (h : margin.all isIndent = true) (indent : Text)
    (rows : List Text) : movedRows indent (rows.map (pushedRow margin)) = movedRows indent rows := by
  by_cases htext : ∃ row ∈ rows, allBlank row = false
  · rw [movedRows, movedRows, commonIndent_map_pushedRow h htext]
    refine List.ext_getElem (by simp) fun k _ _ => ?_
    rw [List.getElem_mapIdx, List.getElem_mapIdx, List.getElem_map, movedRow_pushedRow h]
  · have hblank : ∀ row ∈ rows, pushedRow margin row = row := fun row hrow =>
      if_pos (by simpa using fun hrowText => htext ⟨row, hrow, hrowText⟩)
    rw [List.map_congr_left hblank, List.map_id']

/-! ## A margin in front of a text -/

/-- The first row of a text. -/
def firstRow (s : Text) : Text :=
  s.takeWhile (· != '\n')

theorem not_newline_firstRow (s : Text) : '\n' ∉ firstRow s := fun hn => by
  have := List.all_eq_true.1 List.all_takeWhile _ hn
  simp at this

theorem firstRow_cons {c : Char} (hc : c ≠ '\n') (s : Text) : firstRow (c :: s) = c :: firstRow s :=
  List.takeWhile_cons_of_pos (by simpa using hc)

theorem splitWhere_firstRow (s : Text) : ∃ rest, splitWhere (· == '\n') s = firstRow s :: rest := by
  induction s with
  | nil => exact ⟨[], rfl⟩
  | cons c s ih =>
    by_cases hc : c = '\n'
    · subst hc
      exact ⟨_, rfl⟩
    · obtain ⟨q, ls, hs, hq⟩ := Text.splitWhere_cons hc s
      obtain ⟨rest, hrest⟩ := ih
      obtain ⟨rfl, -⟩ := List.cons.inj (hs.symm.trans hrest)
      exact ⟨ls, by rw [hq, firstRow_cons hc]⟩

theorem firstRow_append (h : '\n' ∉ s) (t : Text) : firstRow (s ++ t) = s ++ firstRow t :=
  List.takeWhile_append_of_pos fun c hc => by
    have : c ≠ '\n' := fun he => h (he ▸ hc)
    simpa using this

/-- Blanks behind a text are behind its first row or do not belong to it. -/
theorem trimEnd_firstRow_append (h : allBlank tail = true) (s : Text) :
    trimEnd (firstRow (s ++ tail)) = trimEnd (firstRow s) := by
  induction s with
  | nil =>
    have hblank : allBlank (firstRow tail) = true := List.all_eq_true.2 fun c hc =>
      List.all_eq_true.1 h c ((List.takeWhile_sublist _).subset hc)
    exact Text.trimEnd_of_allBlank hblank
  | cons c s ih =>
    by_cases hc : c = '\n'
    · subst hc
      rfl
    · rw [List.cons_append, firstRow_cons hc, firstRow_cons hc, Text.trimEnd_cons, ih,
        ← Text.trimEnd_cons]

/-- A first row ends where lines are joined. -/
theorem firstRow_join (h : '\n' ∉ row) (rest : List Text) :
    firstRow (Text.join ['\n'] (row :: rest)) = row := by
  rw [← List.append_nil row, ← Text.append_join, firstRow_append h]
  cases rest with
  | nil => rfl
  | cons next rest =>
    rw [Text.join_cons (List.cons_ne_nil _ _)]
    rfl

section Pushed

variable (margin)

theorem pushedRow_of_allBlank (h : allBlank row = true) : pushedRow margin row = row :=
  if_pos h

theorem pushedAll_nil_margin (s : Text) : pushedAll [] s = s := by
  have hrow : pushedRow [] = id := by
    funext row
    exact ite_self row
  rw [pushedAll, hrow, List.map_id, Text.join_splitWhere]

theorem pushedAll_row (h : '\n' ∉ row) : pushedAll margin row = pushedRow margin row := by
  rw [pushedAll, Text.splitWhere_of_not_mem h, List.map_singleton, Text.join_singleton]

theorem pushedAll_append (s t : Text) :
    pushedAll margin (s ++ '\n' :: t) = pushedAll margin s ++ '\n' :: pushedAll margin t := by
  rw [pushedAll, Text.splitWhere_append rfl, List.map_append]
  exact Text.join_append_join (by simpa using Text.splitWhere_ne_nil _ s)
    (by simpa using Text.splitWhere_ne_nil _ t)

theorem pushedAll_of_allBlank (h : allBlank s = true) : pushedAll margin s = s := by
  have hrows : ∀ row ∈ splitWhere (· == '\n') s, pushedRow margin row = row := fun row hrow =>
    pushedRow_of_allBlank margin (List.all_eq_true.2 fun c hc =>
      List.all_eq_true.1 h c (Text.mem_of_mem_splitWhere hrow hc))
  rw [pushedAll, List.map_congr_left hrows, List.map_id', Text.join_splitWhere]

theorem pushedAll_nil : pushedAll margin [] = [] :=
  pushedAll_of_allBlank margin rfl

/-- Rows behind whole ones are pushed by themselves. -/
theorem pushedAll_whole {p : Text} (h : isWhole p) (s : Text) :
    pushedAll margin (p ++ s) = pushedAll margin p ++ pushedAll margin s := by
  rcases h with rfl | ⟨p, rfl⟩
  · rfl
  · rw [List.append_assoc, List.singleton_append, pushedAll_append, pushedAll_append,
      pushedAll_nil, List.append_assoc]
    rfl

/-- Blanks in front of a blank first row stay there. -/
theorem pushedAll_within {u : Text} (hwhole : '\n' ∉ u) (hu : allBlank u = true)
    (hs : allBlank (firstRow s) = true) :
    pushedAll margin (u ++ s) = u ++ pushedAll margin s := by
  obtain ⟨q, ls, hsplit, hsplit'⟩ := Text.splitWhere_within hwhole s
  obtain ⟨rest, hfirst⟩ := splitWhere_firstRow s
  obtain ⟨rfl, -⟩ := List.cons.inj (hfirst.symm.trans hsplit)
  rw [pushedAll, pushedAll, hsplit, hsplit', List.map_cons, List.map_cons,
    pushedRow_of_allBlank margin hs,
    pushedRow_of_allBlank margin (by rw [Text.allBlank_append, hu, hs]; rfl), Text.append_join]

/-- **Blanks behind a text stay behind it**. -/
theorem pushedAll_append_blanks (h : allBlank tail = true) (s : Text) :
    pushedAll margin (s ++ tail) = pushedAll margin s ++ tail := by
  obtain ⟨p, q, rfl, hp, hq⟩ := Text.exists_line s
  rw [List.append_assoc, pushedAll_whole margin hp, pushedAll_whole margin hp, List.append_assoc]
  refine congrArg (pushedAll margin p ++ ·) ?_
  obtain ⟨part, ls, htail, hsplit⟩ := Text.splitWhere_within hq tail
  have hblank : ∀ row ∈ part :: ls, allBlank row = true := fun row hrow =>
    List.all_eq_true.2 fun c hc =>
      List.all_eq_true.1 h c (Text.mem_of_mem_splitWhere (htail ▸ hrow) hc)
  obtain ⟨hpart, hrest⟩ := List.forall_mem_cons.1 hblank
  have hlast : pushedRow margin (q ++ part) = pushedRow margin q ++ part := by
    unfold pushedRow
    rw [Text.allBlank_append, hpart, Bool.and_true]
    split
    · rfl
    · rw [List.append_assoc]
  have hmap : ls.map (pushedRow margin) = ls :=
    (List.map_congr_left fun row hrow => pushedRow_of_allBlank margin (hrest row hrow)).trans
      (List.map_id' ls)
  calc pushedAll margin (q ++ tail)
    _ = Text.join ['\n'] ((pushedRow margin q ++ part) :: ls) := by
      rw [pushedAll, hsplit, List.map_cons, hlast, hmap]
    _ = pushedRow margin q ++ tail := by
      rw [← Text.append_join, ← htail, Text.join_splitWhere]
    _ = pushedAll margin q ++ tail := by rw [pushedAll_row margin hq]

theorem getLast?_pushedAll (s : Text) : (pushedAll margin s).getLast? = s.getLast? := by
  obtain ⟨p, q, rfl, hp, hq⟩ := Text.exists_line s
  rw [pushedAll_whole margin hp, List.getLast?_append, List.getLast?_append]
  have hlast : (pushedAll margin q).getLast? = q.getLast? := by
    rw [pushedAll_row margin hq, pushedRow]
    split
    · rfl
    · next htext =>
      have hne : q ≠ [] := by
        rintro rfl
        exact htext rfl
      rw [List.getLast?_append, List.getLast?_eq_some_getLast hne, Option.some_or]
  rw [hlast]
  refine congrArg (q.getLast?.or ·) ?_
  rcases hp with rfl | ⟨p, rfl⟩
  · rfl
  · rw [pushedAll_append, pushedAll_nil, List.getLast?_concat, List.getLast?_concat]

theorem firstRow_pushedAll (h : '\n' ∉ margin) (s : Text) :
    firstRow (pushedAll margin s) = pushedRow margin (firstRow s) := by
  obtain ⟨rest, hrest⟩ := splitWhere_firstRow s
  rw [pushedAll, hrest, List.map_cons,
    firstRow_join (not_newline_pushedRow h (not_newline_firstRow s))]

/-- A text whose first row is not blank begins with the margin. -/
theorem exists_pushedAll (h : allBlank (firstRow s) = false) :
    ∃ t, pushedAll margin s = margin ++ t := by
  obtain ⟨rest, hrest⟩ := splitWhere_firstRow s
  rw [pushedAll, hrest, List.map_cons, pushedRow, if_neg (by simp [h]), ← Text.append_join]
  exact ⟨_, rfl⟩

end Pushed

/-- The first row is the same, up to blanks, if line ends are dropped at the end as well. -/
theorem trimEnd_firstRow_trimWhere (s : Text) :
    trimEnd (firstRow (trimWhere isLineEnd s)) = trimEnd (firstRow (trimStartWhere isLineEnd s)) := by
  obtain ⟨tail, -, hs, htail⟩ := Text.exists_trimWhere isLineEnd s
  rw [hs, trimEnd_firstRow_append (allBlank_of_isLineEnd htail)]

/-! ## A carriage return before the first row -/

/-- Whether a carriage return stands directly before what is left of the code without the line ends in
front of it, and the first row of that is not blank. -/
def StartsBehindReturn (code : Text) : Prop :=
  (code.takeWhile isLineEnd).getLast? = some '\r' ∧
    allBlank (firstRow (trimStartWhere isLineEnd code)) = false

instance : DecidablePred StartsBehindReturn := fun _ => inferInstanceAs (Decidable (_ ∧ _))

/-- Line ends up to the last line feed, and the carriage returns behind it. -/
theorem exists_returns (hlead : lead.all isLineEnd = true) :
    ∃ whole returns, lead = whole ++ returns ∧ isWhole whole ∧ whole.all isLineEnd = true ∧
      '\n' ∉ returns ∧ returns.all isLineEnd = true ∧
      (returns = [] ∧ lead.getLast? ≠ some '\r' ∨
        returns.head? = some '\r' ∧ lead.getLast? = some '\r') := by
  obtain ⟨whole, returns, rfl, hwhole, hline⟩ := Text.exists_line lead
  rw [List.all_append, Bool.and_eq_true] at hlead
  refine ⟨whole, returns, rfl, hwhole, hlead.1, hline, hlead.2, ?_⟩
  have hreturn : ∀ c ∈ returns, c = '\r' := fun c hc => by
    have hend := List.all_eq_true.1 hlead.2 c hc
    simp only [isLineEnd, Bool.or_eq_true, beq_iff_eq] at hend
    exact hend.resolve_left fun he => hline (he ▸ hc)
  by_cases hne : returns = []
  · subst hne
    rcases hwhole with rfl | ⟨whole, rfl⟩
    · exact .inl ⟨rfl, by simp⟩
    · exact .inl ⟨rfl, by simp⟩
  · right
    rw [List.getLast?_append, List.getLast?_eq_some_getLast hne, List.head?_eq_some_head hne,
      Option.some_or, hreturn _ (List.getLast_mem hne), hreturn _ (List.head_mem hne)]
    exact ⟨rfl, rfl⟩

/-- **Line ends in front of a text stay there**, unless the first row has text and carriage returns
directly before it. -/
theorem pushedAll_lead (margin : Text) (hlead : lead.all isLineEnd = true)
    (h : lead.getLast? = some '\r' → allBlank (firstRow s) = true) :
    pushedAll margin (lead ++ s) = lead ++ pushedAll margin s := by
  obtain ⟨whole, returns, rfl, hwhole, hends, hline, hreturns, hlast⟩ := exists_returns hlead
  rw [List.append_assoc, pushedAll_whole margin hwhole,
    pushedAll_of_allBlank margin (allBlank_of_isLineEnd hends), List.append_assoc]
  refine congrArg (whole ++ ·) ?_
  rcases hlast with ⟨rfl, -⟩ | ⟨-, hlast⟩
  · rfl
  · exact pushedAll_within margin hline (allBlank_of_isLineEnd hreturns) (h hlast)

theorem head?_pushedAll (hmargin : margin.all isIndent = true)
    (hhead : ∀ c, s.head? = some c → isLineEnd c = false) :
    ∀ c, (pushedAll margin s).head? = some c → isLineEnd c = false := by
  cases s with
  | nil => exact hhead
  | cons d s =>
    have hd : d ≠ '\n' := by
      rintro rfl
      exact absurd (hhead _ rfl) (by decide)
    obtain ⟨part, parts, hsplit⟩ := Text.splitWhere_head hd s
    rw [pushedAll, hsplit, List.map_cons, pushedRow]
    intro c hc
    split at hc
    · rw [show d :: part = [d] ++ part from rfl, ← Text.append_join] at hc
      exact hhead c hc
    · rw [show margin ++ d :: part = (margin ++ [d]) ++ part by simp, ← Text.append_join] at hc
      cases margin with
      | nil => exact hhead c hc
      | cons e margin =>
        cases hc
        exact not_isLineEnd_of_isIndent (List.all_eq_true.1 hmargin c List.mem_cons_self)

/-- **A margin and the line ends around a text do not meet**, unless a carriage return stands between
them. -/
theorem trimWhere_pushedAll (hmargin : margin.all isIndent = true)
    (h : ¬ StartsBehindReturn code) :
    trimWhere isLineEnd (pushedAll margin code) = pushedAll margin (trimWhere isLineEnd code) := by
  obtain ⟨tail, hcode, hstart, htail⟩ := Text.exists_trimWhere isLineEnd code
  have hfirst : (code.takeWhile isLineEnd).getLast? = some '\r' →
      allBlank (firstRow (trimWhere isLineEnd code ++ tail)) = true := fun hreturn => by
    rw [← hstart]
    exact Bool.of_not_eq_false fun htext => h ⟨hreturn, htext⟩
  have hpushed : pushedAll margin code = code.takeWhile isLineEnd ++
      (pushedAll margin (trimWhere isLineEnd code) ++ tail) := by
    conv_lhs => rw [hcode]
    rw [pushedAll_lead margin List.all_takeWhile hfirst,
      pushedAll_append_blanks margin (allBlank_of_isLineEnd htail)]
  rw [hpushed]
  refine Text.trimWhere_between List.all_takeWhile htail
    (head?_pushedAll hmargin fun c => Text.not_of_head?_trimWhere) fun c hc => ?_
  rw [getLast?_pushedAll] at hc
  exact Text.not_of_getLast?_trimWhere hc

/-- **A margin makes no difference** if no carriage return stands directly before it. -/
theorem reindent_pushedAll (hmargin : margin.all isIndent = true) (h : ¬ StartsBehindReturn code)
    (indent : Text) : reindent (pushedAll margin code) indent = reindent code indent := by
  rw [reindent_eq_join, reindent_eq_join, trimWhere_pushedAll hmargin h,
    splitWhere_pushedAll (not_newline_of_isIndent hmargin), movedRows_map_pushedRow hmargin]

/-- The first row of code at another column. -/
theorem firstRow_reindent (code indent : Text) :
    ∃ common, firstRow (reindent code indent) =
      outdent common (firstRow (trimStartWhere isLineEnd code)) := by
  obtain ⟨rest, hrows⟩ := splitWhere_firstRow (trimWhere isLineEnd code)
  have hwhole := not_newline_firstRow (trimWhere isLineEnd code)
  have hsame := trimEnd_firstRow_trimWhere code
  rw [reindent_eq_join, hrows]
  generalize firstRow (trimWhere isLineEnd code) = first at hwhole hsame
  have hfirst : movedRow indent (commonIndent (first :: rest)) 0 first =
      outdent (commonIndent (first :: rest)) first :=
    movedRow_first hwhole (commonIndent_le List.mem_cons_self)
  refine ⟨commonIndent (first :: rest), ?_⟩
  rw [movedRows, List.mapIdx_cons, firstRow_join (not_newline_movedRow (.inl rfl) hwhole), hfirst,
    outdent, hsame, outdent]

/-- With a carriage return before the first row that row is longer behind a margin. -/
theorem firstRow_pushedAll_return (hmargin : margin.all isIndent = true) (hne : margin ≠ [])
    (h : StartsBehindReturn code) :
    ∃ returns, returns.head? = some '\r' ∧
      firstRow (trimStartWhere isLineEnd (pushedAll margin code)) =
        margin ++ (returns ++ firstRow (trimStartWhere isLineEnd code)) := by
  obtain ⟨whole, returns, hlead, hwhole, hends, hline, -, hreturn⟩ :=
    exists_returns (show (code.takeWhile isLineEnd).all isLineEnd = true from List.all_takeWhile)
  obtain ⟨hreturn, -⟩ := hreturn.resolve_left fun hnone => hnone.2 h.1
  have htext : allBlank (firstRow (returns ++ trimStartWhere isLineEnd code)) = false := by
    rw [firstRow_append hline, Text.allBlank_append, h.2, Bool.and_false]
  have hcode : code = whole ++ (returns ++ trimStartWhere isLineEnd code) := by
    rw [← List.append_assoc, ← hlead]
    exact List.takeWhile_append_dropWhile.symm
  obtain ⟨t, ht⟩ := exists_pushedAll margin htext
  have hstart : trimStartWhere isLineEnd (pushedAll margin code) =
      pushedAll margin (returns ++ trimStartWhere isLineEnd code) := by
    conv_lhs => rw [hcode]
    rw [pushedAll_whole margin hwhole, pushedAll_of_allBlank margin (allBlank_of_isLineEnd hends)]
    refine (List.dropWhile_append_of_pos (List.all_eq_true.1 hends)).trans
      (Text.trimStartWhere_of_head fun c hc => ?_)
    rw [ht, List.head?_append_of_ne_nil _ hne] at hc
    exact not_isLineEnd_of_isIndent (List.all_eq_true.1 hmargin c (List.mem_of_mem_head? hc))
  refine ⟨returns, hreturn, ?_⟩
  rw [hstart, firstRow_pushedAll margin (not_newline_of_isIndent hmargin), pushedRow,
    if_neg (by simp [htext]), firstRow_append hline]

/-- **A margin makes a difference** if a carriage return stands directly behind it: the first row
keeps it. -/
theorem reindent_pushedAll_ne (hmargin : margin.all isIndent = true) (hne : margin ≠ [])
    (h : StartsBehindReturn code) (indent : Text) :
    reindent (pushedAll margin code) indent ≠ reindent code indent := by
  intro hsame
  obtain ⟨returns, hreturn, hrow⟩ := firstRow_pushedAll_return hmargin hne h
  obtain ⟨common, hbefore⟩ := firstRow_reindent code indent
  obtain ⟨common', hbehind⟩ := firstRow_reindent (pushedAll margin code) indent
  rw [hsame, hbefore, hrow] at hbehind
  have htext := h.2
  generalize firstRow (trimStartWhere isLineEnd code) = first at hbehind htext
  obtain ⟨rest, rfl⟩ := List.head?_eq_some_iff.1 hreturn
  have htrim : trimEnd (margin ++ ('\r' :: rest ++ first)) =
      margin ++ '\r' :: (rest ++ trimEnd first) := by
    rw [← List.append_assoc, Text.trimEnd_append_text htext, List.append_assoc]
    rfl
  have hlead : leading (margin ++ '\r' :: (rest ++ trimEnd first)) = margin.length := by
    rw [leading_append hmargin]
    rfl
  have hlen := congrArg List.length hbehind
  simp only [outdent, htrim, hlead, List.length_drop, List.length_append, List.length_cons] at hlen
  omega

/-- **Code at another column**. Spaces and tabs in front of every row that is not blank make no
difference exactly if there are none, or no carriage return stands directly before a first row with
text. Row by row the piece between the line ends around the code loses the indentation that its rows
have in common, and gets the other one in front of each but the first. -/
theorem reindent_relative (hmargin : margin.all isIndent = true) (code indent : Text) :
    (reindent (pushedAll margin code) indent = reindent code indent ↔
      margin = [] ∨ ¬ StartsBehindReturn code) ∧
    reindent code indent =
      Text.join ['\n'] (movedRows indent (splitWhere (· == '\n') (trimWhere isLineEnd code))) ∧
    ('\n' ∉ indent → splitWhere (· == '\n') (reindent code indent) =
      movedRows indent (splitWhere (· == '\n') (trimWhere isLineEnd code))) := by
  refine ⟨⟨fun hsame => ?_, fun h => ?_⟩, reindent_eq_join code indent,
    fun hindent => splitWhere_reindent hindent code⟩
  · by_contra hnone
    obtain ⟨hne, hreturn⟩ := not_or.1 hnone
    exact reindent_pushedAll_ne hmargin hne (not_not.1 hreturn) indent hsame
  · rcases h with rfl | hreturn
    · rw [pushedAll_nil_margin]
    · exact reindent_pushedAll hmargin hreturn indent

/-- Rows at several columns, one of them blank, between line ends. -/
def looseRows : Text :=
  "\r\n\n  a:\r\n\n \t b\t \r\n \u3000\n    c\n\r".toList

theorem reindent_relative_looseRows :
    [' ', '\t'].all isIndent = true ∧ ¬ StartsBehindReturn looseRows ∧
      reindent (pushedAll [' ', '\t'] looseRows) ['\t'] = reindent looseRows ['\t'] ∧
      splitWhere (· == '\n') (reindent looseRows ['\t']) =
        ["a:".toList, [], "\t b".toList, [], "\t  c".toList] := by
  have hindent : [' ', '\t'].all isIndent = true := by decide
  have hreturn : ¬ StartsBehindReturn looseRows := by decide +kernel
  obtain ⟨hsame, -, hrows⟩ := reindent_relative hindent looseRows ['\t']
  refine ⟨hindent, hreturn, hsame.2 (.inr hreturn), ?_⟩
  rw [hrows (by decide)]
  decide +kernel

/-- A carriage return before the first row is dropped, but not from behind a space; and an indentation
with a line feed in it makes more rows. -/
theorem not_reindent_relative_return :
    [' '].all isIndent = true ∧ pushedAll [' '] ['\r', 'x'] = [' ', '\r', 'x'] ∧
      reindent [' ', '\r', 'x'] [] = ['\r', 'x'] ∧ reindent ['\r', 'x'] [] = ['x'] ∧
      splitWhere (· == '\n') (trimWhere isLineEnd ['a', '\n', 'b']) = [['a'], ['b']] ∧
      splitWhere (· == '\n') (reindent ['a', '\n', 'b'] ['\n']) = [['a'], [], ['b']] := by
  decide +kernel

end Scholia.Layout
