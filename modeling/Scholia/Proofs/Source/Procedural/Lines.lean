import Scholia.Proofs.Source.Procedural.Order
/-!
# Lines and texts

The lines of a text can be told apart in the text itself: behind some of them the text is cut, and
each part has its lines to itself. So a range of lines is a part of the text with blanks around it.
-/

namespace Scholia.Source.Procedural

open Text (isWhole rawLines lineTexts)

variable {source : Text} {before more : List PhysicalLine} {line : PhysicalLine}

theorem placeLines_append (number offset : Nat) (first rest : List Text) :
    placeLines number offset (first ++ rest) = placeLines number offset first ++
      placeLines (number + first.length) (offset + Text.width first.flatten) rest := by
  induction first generalizing number offset with
  | nil => rfl
  | cons raw first ih =>
    simp only [List.cons_append, placeLines, ih, List.flatten_cons, Text.width_append,
      List.length_cons, Nat.add_assoc, Nat.add_comm 1]

theorem placeLines_length (number offset : Nat) (raws : List Text) :
    (placeLines number offset raws).length = raws.length := by
  induction raws generalizing number offset with
  | nil => rfl
  | cons raw raws ih => simp only [placeLines, List.length_cons, ih]

theorem placeLines_text (number offset : Nat) (raws : List Text) :
    (placeLines number offset raws).map PhysicalLine.text = raws.map Text.trimEnd := by
  induction raws generalizing number offset with
  | nil => rfl
  | cons raw raws ih => simp only [placeLines, List.map_cons, ih]

/-- The texts of the lines are those of the raw lines without the blanks at their ends. -/
theorem physicalLines_text (s : Text) : (physicalLines s).map PhysicalLine.text = lineTexts s :=
  placeLines_text 1 0 _

/-- Lines behind whole lines. -/
theorem physicalLines_append {p : Text} (hp : isWhole p) {t : Text} :
    physicalLines (p ++ t) = physicalLines p ++
      placeLines (1 + (rawLines p).length) (Text.width p) (rawLines t) := by
  rw [physicalLines, Text.rawLines_append hp, placeLines_append, Text.flatten_rawLines,
    Nat.zero_add]
  rfl

/-- **A text can be cut between its lines**. -/
theorem physicalLines_split (h : physicalLines source = before ++ more) :
    ∃ a b, source = a ++ b ∧ physicalLines a = before ∧
      more = placeLines (1 + (rawLines a).length) (Text.width a) (rawLines b) ∧
      rawLines source = rawLines a ++ rawLines b ∧ (more ≠ [] → isWhole a) := by
  let first := (rawLines source).take before.length
  let rest := (rawLines source).drop before.length
  have hsplit : rawLines source = first ++ rest := (List.take_append_drop _ _).symm
  obtain ⟨hfirst, hrest, hwhole⟩ := Text.rawLines_split hsplit
  have hlength : before.length ≤ (rawLines source).length := by
    have hlen := congrArg List.length h
    rw [physicalLines, placeLines_length, List.length_append] at hlen
    omega
  have hplaced : placeLines 1 0 first ++
      placeLines (1 + first.length) (0 + Text.width first.flatten) rest = before ++ more := by
    rw [← placeLines_append, ← hsplit]
    exact h
  obtain ⟨hbefore, hmore⟩ := List.append_inj hplaced (by
    rw [placeLines_length]
    exact List.length_take_of_le hlength)
  refine ⟨first.flatten, rest.flatten, ?_, ?_, ?_, ?_, fun hne => ?_⟩
  · rw [← List.flatten_append, ← hsplit, Text.flatten_rawLines]
  · rw [physicalLines, hfirst]
    exact hbefore
  · rw [hfirst, hrest, ← hmore, Nat.zero_add]
  · rw [hfirst, hrest]
    exact hsplit
  · refine hwhole fun he => hne ?_
    rw [← hmore, he]
    rfl

/-- **A line stands behind whole lines**, its code between blanks. -/
theorem line_placed (h : physicalLines source = before ++ line :: more) :
    ∃ a lead code rest, source = a ++ (lead ++ (code ++ rest)) ∧ physicalLines a = before ∧
      isWhole a ∧ Text.allBlank lead = true ∧ Text.trimStart line.text = code ∧
      line.start = Text.width (a ++ lead) ∧ line.stop = Text.width (a ++ (lead ++ code)) := by
  obtain ⟨a, b, rfl, ha, hb, -, hwhole⟩ := physicalLines_split h
  cases hraws : rawLines b with
  | nil =>
    rw [hraws] at hb
    cases hb
  | cons raw raws =>
    obtain ⟨lead, code, tail, hraw, hlead, -, hcode, he⟩ :=
      placeLines_cons (1 + (rawLines a).length) (Text.width a) raw raws
    have htrim : Text.trimEnd raw = lead ++ code := congrArg PhysicalLine.text (List.cons.inj he).1
    rw [hraws, he] at hb
    obtain ⟨rfl, -⟩ := List.cons.inj hb
    refine ⟨a, lead, code, tail ++ raws.flatten, ?_, ha, hwhole (by simp), hlead, ?_, ?_, ?_⟩
    · rw [← Text.flatten_rawLines b, hraws, List.flatten_cons, hraw]
      simp only [List.append_assoc]
    · show Text.trimStart (lead ++ code) = code
      rw [← htrim]
      exact hcode.symm
    · rw [Text.width_append]
    · simp only [Text.width_append, Nat.add_assoc]

/-- The last line stops where nothing but blanks are left, behind a character that is none. -/
theorem placeLines_last {number offset : Nat} {raws : List Text} {last : PhysicalLine}
    (h : (placeLines number offset raws).getLast? = some last) :
    ∃ text tail, raws.flatten = text ++ tail ∧ Text.allBlank tail = true ∧
      last.stop = offset + Text.width text ∧
      (last.HasText → ∃ x c, text = x ++ [c] ∧ Text.isBlank c = false) := by
  induction raws generalizing number offset with
  | nil => cases h
  | cons raw rest ih =>
    obtain ⟨lead, code, tail, hraw, -, htail, -, he⟩ := placeLines_cons number offset raw rest
    rw [he] at h
    cases hrest : placeLines (number + 1) (offset + Text.width raw) rest with
    | nil =>
      have hnil : rest = [] := by
        have hlength := congrArg List.length hrest
        rw [placeLines_length] at hlength
        exact List.length_eq_zero_iff.1 hlength
      subst hnil
      have htrim : Text.trimEnd raw = lead ++ code :=
        congrArg PhysicalLine.text (List.cons.inj he).1
      rw [hrest, List.getLast?_singleton] at h
      cases h
      refine ⟨lead ++ code, tail, ?_, htail, ?_, fun htext => ?_⟩
      · rw [List.flatten_singleton, hraw, List.append_assoc]
      · rw [Text.width_append, ← Nat.add_assoc]
      · have hne : lead ++ code ≠ [] := by
          intro hnil
          have hlt : offset + Text.width lead < offset + Text.width lead + Text.width code := htext
          rw [(List.append_eq_nil_iff.1 hnil).2] at hlt
          exact Nat.lt_irrefl _ hlt
        refine ⟨_, _, (List.dropLast_concat_getLast hne).symm, Text.trimEnd_getLast? (s := raw) ?_⟩
        rw [htrim]
        exact List.getLast?_eq_some_getLast hne
    | cons second more =>
      rw [hrest, List.getLast?_cons_cons, ← hrest] at h
      obtain ⟨text, tail', htext, htail', hstop, hlast⟩ := ih h
      refine ⟨raw ++ text, tail', ?_, htail', ?_, fun hl => ?_⟩
      · rw [List.flatten_cons, htext, List.append_assoc]
      · rw [hstop, Text.width_append, Nat.add_assoc]
      · obtain ⟨x, c, rfl, hc⟩ := hlast hl
        exact ⟨raw ++ x, c, (List.append_assoc _ _ _).symm, hc⟩

/-- A line stops no later than the lines behind it. -/
theorem stop_le_last {last : PhysicalLine} (h : physicalLines source = before ++ line :: more)
    (hlast : (line :: more).getLast? = some last) (htext : last.HasText) : line.stop ≤ last.stop := by
  have hrow := List.pairwise_map.1 (physicalLines_row source).apart
  rw [h] at hrow
  obtain ⟨hline, -⟩ := List.pairwise_cons.1 (List.pairwise_append.1 hrow).2.1
  rcases List.mem_cons.1 (List.mem_of_getLast? hlast) with rfl | hmem
  · exact Nat.le_refl _
  · exact Nat.le_of_lt (Nat.lt_of_le_of_lt (hline last hmem) htext)

/-- A part of a text, with the blanks around it on its lines. -/
structure Lined (source a lead inner tail b : Text) : Prop where
  text : source = a ++ ((lead ++ (inner ++ tail)) ++ b)
  whole : isWhole a
  whole' : b ≠ [] → isWhole (a ++ (lead ++ (inner ++ tail)))
  oneLine : '\n' ∉ lead
  indent : Text.allBlank lead = true
  blanks : Text.allBlank tail = true
  first : ∃ c x, inner = c :: x ∧ Text.isBlank c = false
  last : ∃ x c, inner = x ++ [c] ∧ Text.isBlank c = false

/-- **A range of lines is a part of the text with blanks around it**. -/
theorem range_lined {pre mid post : List PhysicalLine} {last : PhysicalLine}
    (h : physicalLines source = pre ++ line :: mid ++ post) (htext : line.HasText)
    (hlast : (line :: mid).getLast? = some last) (htext' : last.HasText) :
    ∃ a lead inner tail b, Lined source a lead inner tail b ∧ physicalLines a = pre ∧
      physicalLines (a ++ (lead ++ (inner ++ tail))) = pre ++ line :: mid ∧
      line.start = Text.width (a ++ lead) ∧ last.stop = Text.width (a ++ (lead ++ inner)) := by
  obtain ⟨ab, b, hsource, hab, hpost, -, hwhole'⟩ := physicalLines_split h
  obtain ⟨a, m, hm, ha, hmid, -, hwhole⟩ := physicalLines_split hab
  obtain ⟨text, tail, hflatten, htail, hstop, hend⟩ := placeLines_last (hmid ▸ hlast)
  rw [Text.flatten_rawLines] at hflatten
  cases hraws : rawLines m with
  | nil =>
    rw [hraws] at hmid
    cases hmid
  | cons raw raws =>
    obtain ⟨lead, code, behind, hraw, hindent, -, hcode, he⟩ :=
      placeLines_cons (1 + (rawLines a).length) (Text.width a) raw raws
    rw [hraws, he] at hmid
    obtain ⟨hline, -⟩ := List.cons.inj hmid
    have hstart : line.start = Text.width a + Text.width lead := congrArg PhysicalLine.start hline
    have hne : code ≠ [] := by
      intro hnil
      have hlt : line.start < line.stop := htext
      rw [hline, hnil, Text.width_nil] at hlt
      exact Nat.lt_irrefl _ hlt
    have hmtext : m = lead ++ (code ++ (behind ++ raws.flatten)) := by
      rw [← Text.flatten_rawLines m, hraws, List.flatten_cons, hraw]
      simp only [List.append_assoc]
    have hle : Text.width lead < Text.width text := by
      have hlt : line.start < line.stop := htext
      have := stop_le_last hab hlast htext'
      omega
    obtain ⟨inner, rfl⟩ : ∃ inner, text = lead ++ inner := by
      rcases List.append_eq_append_iff.1 (hmtext.symm.trans hflatten) with ⟨x, hx, -⟩ | ⟨x, hx, -⟩
      · exact ⟨x, hx⟩
      · rw [hx, Text.width_append] at hle
        omega
    have hinner : inner ++ tail = code ++ (behind ++ raws.flatten) := by
      rw [hflatten, List.append_assoc] at hmtext
      exact List.append_cancel_left hmtext
    have hfirst : ∃ c x, inner = c :: x ∧ Text.isBlank c = false := by
      cases hc : code with
      | nil => exact absurd hc hne
      | cons c x =>
        cases hi : inner with
        | nil =>
          rw [hi, List.append_nil] at hle
          exact absurd hle (Nat.lt_irrefl _)
        | cons d y =>
          rw [hi, hc] at hinner
          refine ⟨d, y, rfl, ?_⟩
          rw [(List.cons.inj hinner).1]
          exact Text.not_isBlank_of_trimStart (hcode.symm.trans hc)
    have hassoc : m = lead ++ (inner ++ tail) := by rw [hflatten, List.append_assoc]
    have hlast : ∃ x c, inner = x ++ [c] ∧ Text.isBlank c = false := by
      obtain ⟨x, c, hx, hc⟩ := hend htext'
      rcases List.eq_nil_or_concat inner with rfl | ⟨y, d, rfl⟩
      · obtain ⟨_, _, he, -⟩ := hfirst
        cases he
      · rw [List.concat_eq_append, ← List.append_assoc] at hx
        obtain ⟨-, hd⟩ := List.append_inj' hx rfl
        cases hd
        exact ⟨y, c, List.concat_eq_append, hc⟩
    refine ⟨a, lead, inner, tail, b, ⟨?_, hwhole (by simp), ?_, ?_, hindent, htail, hfirst, hlast⟩,
      ha, ?_, ?_, ?_⟩
    · rw [hsource, hm, hassoc, List.append_assoc]
    · intro hb
      rw [← hassoc, ← hm]
      refine hwhole' fun hnone => Text.rawLines_ne_nil hb ?_
      have hlength := congrArg List.length (hpost.symm.trans hnone)
      rw [placeLines_length] at hlength
      exact List.length_eq_zero_iff.1 hlength
    · refine Text.not_newline_of_mem_rawLines (s := m) (hraws ▸ List.mem_cons_self) hraw ?_
      simp [hne]
    · rw [← hassoc, ← hm]
      exact hab
    · rw [hstart, Text.width_append]
    · rw [hstop]
      simp only [Text.width_append]

end Scholia.Source.Procedural
