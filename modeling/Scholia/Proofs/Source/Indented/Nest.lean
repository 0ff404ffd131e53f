import Scholia.Proofs.Source.Indented.Blocks
import Scholia.Proofs.Source.Indented.Headed
/-!
# Outermost routines, line by line

Whether a header is that of an outermost routine is told by two things: the column of the outermost
block that is, or is part of, the body of a routine, and for annotations whether the first of them
stands in a body. A line in which a body goes on is indented deeper than that column. What is
annotated inside a body is part of it, also where the header itself stands outside.
-/

namespace Scholia.Source.Indented

variable {source : Text} {all : List Node} {lines rest : List LogicalLine} {line : LogicalLine}
  {note : Option Nat} {pos : Nat}

/-- What is known of the bodies around a line. -/
structure Nest where
  /-- The column of the outermost block that is a body. -/
  body : Option Nat
  /-- Whether the first of the annotations directly before stands in a body. -/
  note : Option Bool
  deriving Repr, DecidableEq

namespace Nest

/-- Outside all bodies. -/
def initial : Nest := ⟨none, none⟩

/-- The column of the body that a line at this indentation is part of. -/
def within (n : Nest) (indent : Nat) : Option Nat :=
  n.body.filter (· < indent)

/-- Whether what starts with a line, or with the annotations before it, is part of a body. -/
def inner (n : Nest) (line : BareLine) : Bool :=
  n.note.getD (n.within line.indent).isSome

/-- What is known behind a line. -/
def next (n : Nest) (line : BareLine) : Nest :=
  if line.isNote then ⟨n.within line.indent, some (n.inner line)⟩
  else
    match line.header? with
    | none => ⟨n.within line.indent, none⟩
    | some header =>
      ⟨(n.within line.indent).or (if header.isRoutine || n.inner line then some line.indent else none),
        none⟩

theorem next_note {n : Nest} {line : BareLine} (h : line.isNote = true) :
    n.next line = ⟨n.within line.indent, some (n.inner line)⟩ :=
  if_pos h

theorem next_plain {n : Nest} {line : BareLine} (hn : ¬ line.isNote = true)
    (h : line.header? = none) : n.next line = ⟨n.within line.indent, none⟩ := by
  rw [next, if_neg hn, h]

theorem next_header {n : Nest} {line : BareLine} {header : Header}
    (h : line.header? = some header) :
    n.next line = ⟨(n.within line.indent).or
      (if header.isRoutine || n.inner line then some line.indent else none), none⟩ := by
  have hn : ¬ line.isNote = true := fun hn => by
    rw [BareLine.header?_of_note hn] at h
    cases h
  rw [next, if_neg hn, h]

/-- Whether a line declares an outermost routine. -/
def declares (n : Nest) (line : BareLine) : Bool :=
  line.header?.any Header.isRoutine && !n.inner line

/-- What is known behind some lines. -/
def run (n : Nest) (lines : List BareLine) : Nest :=
  lines.foldl next n

/-- The number of outermost routines that some lines declare. -/
def count : Nest → List BareLine → Nat
  | _, [] => 0
  | n, line :: rest => (n.declares line).toNat + (n.next line).count rest

theorem run_append (n : Nest) (lines more : List BareLine) :
    n.run (lines ++ more) = (n.run lines).run more :=
  List.foldl_append

theorem count_append (n : Nest) (lines more : List BareLine) :
    n.count (lines ++ more) = n.count lines + (n.run lines).count more := by
  induction lines generalizing n with
  | nil => exact (Nat.zero_add _).symm
  | cons line rest ih =>
    rw [List.cons_append, count, count, ih, Nat.add_assoc]
    rfl

end Nest

theorem OpenBlock.close_span (b : OpenBlock) : b.close.span = ⟨b.start, b.stop⟩ := by
  unfold close
  split <;> rfl

theorem OpenBlock.isRoutine_close (b : OpenBlock) : b.close.isRoutine = b.header.isRoutine := by
  unfold close
  split
  · next h => exact h.symm
  · next h => exact (Bool.not_eq_true _ ▸ h : b.header.isRoutine = false).symm

/-! ## Lines in a row -/

/-- Lines that stand one after the other behind a byte. -/
structure Follow (pos : Nat) (lines : List LogicalLine) : Prop where
  ahead : ∀ l ∈ lines, pos ≤ l.start
  ordered : ∀ l ∈ lines, l.start ≤ l.stop
  apart : lines.Pairwise fun l m => l.stop ≤ m.start

theorem Follow.head (h : Follow pos (line :: rest)) : pos ≤ line.start ∧ line.start ≤ line.stop :=
  ⟨h.ahead line List.mem_cons_self, h.ordered line List.mem_cons_self⟩

theorem Follow.tail (h : Follow pos (line :: rest)) : Follow line.stop rest :=
  ⟨(List.pairwise_cons.1 h.apart).1, fun l hl => h.ordered l (List.mem_cons_of_mem _ hl),
    (List.pairwise_cons.1 h.apart).2⟩

/-- The lines from the first one on. -/
theorem Follow.here (h : Follow pos (line :: rest)) : Follow line.start (line :: rest) :=
  ⟨List.forall_mem_cons.2 ⟨Nat.le_refl _, fun l hl =>
    Nat.le_trans h.head.2 (h.tail.ahead l hl)⟩, h.ordered, h.apart⟩

theorem Follow.of_row (h : Row source (lines.map LogicalLine.span)) : Follow 0 lines where
  ahead := fun _ _ => Nat.zero_le _
  ordered := fun l hl => (h.fits l.span (List.mem_map.2 ⟨l, hl, rfl⟩)).ordered
  apart := List.pairwise_map.1 h.apart

theorem le_reach {column : Nat} (h : Follow pos lines) : pos ≤ reach column pos lines := by
  rw [reach]
  cases hlast : (lines.takeWhile (column < ·.indent)).getLast? with
  | none => exact Nat.le_refl _
  | some l =>
    have hl : l ∈ lines := (List.takeWhile_sublist _).subset (List.mem_of_getLast? hlast)
    exact Nat.le_trans (h.ahead l hl) (h.ordered l hl)

theorem lt_of_head? {start stop : Nat} {c : Char}
    (h : (Text.slice start stop source).head? = some c) : start < stop := by
  by_contra hle
  rw [Text.slice, Nat.sub_eq_zero_of_le (Nat.not_lt.1 hle)] at h
  cases hd : Text.dropBytes start source with
  | nil =>
    rw [hd] at h
    cases h
  | cons d rest =>
    rw [hd, Text.takeBytes, if_neg (Nat.not_le.2 d.utf8Size_pos)] at h
    cases h

/-- A line that annotates or declares is not empty. -/
theorem lt_of_note (h : (line.bare source).isNote = true) : line.start < line.stop :=
  lt_of_head? (of_decide_eq_true h)

theorem lt_of_header {header : Header} (h : (line.bare source).header? = some header) :
    line.start < line.stop := by
  rw [BareLine.header?] at h
  split at h
  · cases h
  · obtain ⟨c, hc, -⟩ := Header.head?_of_ofLine? h
    exact lt_of_head? hc

/-- What is declared behind a byte starts behind it. -/
theorem le_of_mem_headed {x : Nat} (h : Follow pos lines) (hpos : x ≤ pos)
    (hnote : ∀ a, note = some a → x ≤ a) : ∀ m ∈ headed source note lines, x ≤ m.span.start := by
  induction lines generalizing note pos with
  | nil => exact fun _ hm => by cases hm
  | cons line rest ih =>
    have hstop : x ≤ line.stop := Nat.le_trans hpos (Nat.le_trans h.head.1 h.head.2)
    have hstart : x ≤ note.getD line.start := by
      cases note with
      | none => exact Nat.le_trans hpos h.head.1
      | some a => exact hnote a rfl
    intro m hm
    rw [headed] at hm
    split at hm
    · exact ih h.tail hstop (fun a ha => by cases ha; exact hstart) m hm
    · rcases List.mem_append.1 hm with hm | hm
      · obtain ⟨header, -, rfl⟩ := Option.map_eq_some_iff.1 (Option.mem_toList.1 hm)
        rw [OpenBlock.close_start]
        exact hstart
      · exact ih h.tail hstop (fun a ha => by cases ha) m hm

/-- Headers declare one after the other. -/
theorem headed_pairwise (h : Follow pos lines) (hnote : ∀ a, note = some a → a < pos) :
    (headed source note lines).Pairwise fun m n => m.span.start < n.span.start := by
  induction lines generalizing note pos with
  | nil => exact .nil
  | cons line rest ih =>
    have hstart : note.getD line.start ≤ line.start := by
      cases note with
      | none => exact Nat.le_refl _
      | some a => exact Nat.le_of_lt (Nat.lt_of_lt_of_le (hnote a rfl) h.head.1)
    rw [headed]
    split
    · next hn =>
      exact ih h.tail fun a ha => by
        cases ha
        exact Nat.lt_of_le_of_lt hstart (lt_of_note hn)
    · refine List.pairwise_append.2 ⟨?_, ih h.tail (fun a ha => by cases ha), fun m hm n hn => ?_⟩
      · cases (line.bare source).header? with
        | none => exact .nil
        | some header => exact List.pairwise_singleton _ _
      · obtain ⟨header, hheader, rfl⟩ := Option.map_eq_some_iff.1 (Option.mem_toList.1 hm)
        have hn := le_of_mem_headed h.tail (Nat.le_refl _) (fun a ha => by cases ha) n hn
        rw [OpenBlock.close_start]
        exact Nat.lt_of_lt_of_le (Nat.lt_of_le_of_lt hstart (lt_of_header hheader)) hn

/-! ## What is known of bodies -/

/-- What starts at a byte is part of a body. -/
def CoveredAt (all : List Node) (byte : Nat) : Prop :=
  Covered all (.doc ⟨byte, byte⟩)

theorem coveredAt_iff {m : Node} : Covered all m ↔ CoveredAt all m.span.start := by
  rw [CoveredAt, covered_iff, covered_iff]
  rfl

/-- What is known of the bodies around a line is so: `all` is what all lines declare, `before` what
those before it do, with the columns of their headers. -/
structure Nest.Tells (source : Text) (all : List Node) (pos : Nat) (before : List (Nat × Node))
    (note : Option Nat) (lines : List LogicalLine) (n : Nest) : Prop where
  split : all = before.map Prod.snd ++ headed source note lines
  declares : ∀ m ∈ all, m.declares = true
  follow : Follow pos lines
  started : ∀ x ∈ before, x.2.span.start < pos ∧ ∀ a, note = some a → x.2.span.start < a
  /-- A body has ended, or goes on inside the outermost one. -/
  bodies : ∀ x ∈ before, IsBody all x.2 → x.2.span.stop ≤ pos ∨
    x.2.span.stop = reach x.1 pos lines ∧ ∃ column, n.body = some column ∧ column ≤ x.1
  body : ∀ column, n.body = some column → ∃ m, (column, m) ∈ before ∧ IsBody all m ∧
    m.span.stop = reach column pos lines
  noted : ∀ a, note = some a → a < pos ∧ ∃ b, n.note = some b ∧ (b = true ↔ CoveredAt all a)
  quiet : note = none → n.note = none

namespace Nest.Tells

variable {before : List (Nat × Node)} {n : Nest}

/-- **A line stands in a body exactly where a node that starts with it would be covered**. -/
theorem within_iff (h : n.Tells source all pos before none (line :: rest))
    (hline : line.start < line.stop) :
    (n.within line.indent).isSome = true ↔ CoveredAt all line.start := by
  have hfollow := h.follow
  rw [CoveredAt, covered_iff]
  constructor
  · intro hsome
    obtain ⟨column, hcolumn⟩ := Option.isSome_iff_exists.1 hsome
    obtain ⟨hbody, hlt⟩ := Option.filter_eq_some_iff.1 hcolumn
    obtain ⟨m, hm, hb, hstop⟩ := h.body column hbody
    have hstart := (h.started _ hm).1
    rw [reach_deeper (by simpa using hlt)] at hstop
    have hle : line.stop ≤ reach column line.stop rest := le_reach hfollow.tail
    have hmem : m ∈ all := by
      rw [h.split]
      exact List.mem_append_left _ (List.mem_map.2 ⟨_, hm, rfl⟩)
    refine ⟨m, hmem, h.declares m hmem, hb, Nat.lt_of_lt_of_le hstart hfollow.head.1, ?_⟩
    show line.start < m.span.stop
    omega
  · rintro ⟨m, hm, -, hb, hstart, hstop⟩
    have hstart : m.span.start < line.start := hstart
    have hstop : line.start < m.span.stop := hstop
    rw [h.split] at hm
    rcases List.mem_append.1 hm with hm | hm
    · obtain ⟨x, hx, rfl⟩ := List.mem_map.1 hm
      rcases h.bodies x hx hb with hle | ⟨hreach, column, hcolumn, hle⟩
      · have := hfollow.head.1
        omega
      · by_cases hlt : x.1 < line.indent
        · rw [within, hcolumn, Option.filter_some_pos (by simpa using Nat.lt_of_le_of_lt hle hlt)]
          rfl
        · rw [reach_left (Nat.not_lt.1 hlt)] at hreach
          have := hfollow.head.1
          omega
    · have hle := le_of_mem_headed hfollow.here (Nat.le_refl _) (fun a ha => by cases ha) m hm
      omega

/-- What starts with a line, or the annotations before it, is covered where the line stands in a
body. -/
theorem inner_iff (h : n.Tells source all pos before note (line :: rest))
    (hline : line.start < line.stop) :
    n.inner (line.bare source) = true ↔ CoveredAt all (note.getD line.start) := by
  cases note with
  | none =>
    rw [inner, h.quiet rfl]
    exact h.within_iff hline
  | some a =>
    obtain ⟨-, b, hb, hiff⟩ := h.noted a rfl
    rw [inner, hb]
    exact hiff

/-- Bodies end at a line, or go on with it. -/
theorem bodies_next (h : n.Tells source all pos before note (line :: rest)) :
    ∀ x ∈ before, IsBody all x.2 → x.2.span.stop ≤ line.stop ∨
      x.2.span.stop = reach x.1 line.stop rest ∧
        ∃ column, n.within line.indent = some column ∧ column ≤ x.1 := by
  intro x hx hb
  have hhead := h.follow.head
  rcases h.bodies x hx hb with hle | ⟨hreach, column, hcolumn, hle⟩
  · exact .inl (by omega)
  · by_cases hlt : x.1 < line.indent
    · rw [reach_deeper hlt] at hreach
      refine .inr ⟨hreach, column, ?_, hle⟩
      rw [within, hcolumn, Option.filter_some_pos (by simpa using Nat.lt_of_le_of_lt hle hlt)]
    · rw [reach_left (Nat.not_lt.1 hlt)] at hreach
      exact .inl (by omega)

theorem body_next (h : n.Tells source all pos before note (line :: rest)) :
    ∀ column, n.within line.indent = some column → ∃ m, (column, m) ∈ before ∧ IsBody all m ∧
      m.span.stop = reach column line.stop rest := by
  intro column hcolumn
  obtain ⟨hbody, hlt⟩ := Option.filter_eq_some_iff.1 hcolumn
  obtain ⟨m, hm, hb, hstop⟩ := h.body column hbody
  rw [reach_deeper (by simpa using hlt)] at hstop
  exact ⟨m, hm, hb, hstop⟩

/-- **Every line keeps what is known of the bodies**. -/
theorem next (h : n.Tells source all pos before note (line :: rest)) :
    ∃ before', (n.next (line.bare source)).Tells source all line.stop before'
      (if (line.bare source).isNote then some (note.getD line.start) else none) rest := by
  have hhead := h.follow.head
  have hstart : note.getD line.start ≤ line.start := by
    cases note with
    | none => exact Nat.le_refl _
    | some a =>
      have := (h.noted a rfl).1
      show a ≤ line.start
      omega
  have hstarted : ∀ x ∈ before, x.2.span.start < line.stop := fun x hx => by
    have := (h.started x hx).1
    omega
  have hsplit := h.split
  rw [headed] at hsplit
  by_cases hnote : (line.bare source).isNote = true
  · have hlt := lt_of_note hnote
    rw [if_pos hnote] at hsplit
    rw [next_note hnote, if_pos hnote]
    refine ⟨before, hsplit, h.declares, h.follow.tail, fun x hx => ⟨hstarted x hx, fun a ha => ?_⟩,
      h.bodies_next, h.body_next, fun a ha => ?_, (fun he => by cases he)⟩
    · cases ha
      cases note with
      | none => exact Nat.lt_of_lt_of_le (h.started x hx).1 hhead.1
      | some a => exact (h.started x hx).2 a rfl
    · cases ha
      exact ⟨Nat.lt_of_le_of_lt hstart hlt, _, rfl, h.inner_iff hlt⟩
  · rw [if_neg hnote] at hsplit
    cases hheader : (line.bare source).header? with
    | none =>
      rw [hheader] at hsplit
      rw [next_plain hnote hheader, if_neg hnote]
      exact ⟨before, hsplit, h.declares, h.follow.tail,
        fun x hx => ⟨hstarted x hx, fun a ha => by cases ha⟩, h.bodies_next, h.body_next,
        (fun a ha => by cases ha), fun _ => rfl⟩
    | some header =>
      have hlt := lt_of_header hheader
      rw [hheader] at hsplit
      let m := ((header.block source line (note.getD line.start)).grown rest).close
      have hm : m.span = ⟨note.getD line.start, reach line.indent line.stop rest⟩ :=
        OpenBlock.close_span _
      have hbody : IsBody all m ↔ (header.isRoutine || n.inner (line.bare source)) = true := by
        rw [IsBody, OpenBlock.isRoutine_close, coveredAt_iff, hm, ← h.inner_iff hlt, Bool.or_eq_true]
        rfl
      have hnext : n.next (line.bare source) = ⟨(n.within line.indent).or
          (if header.isRoutine || n.inner (line.bare source) then some line.indent else none),
          none⟩ := next_header hheader
      rw [hnext, if_neg hnote]
      refine ⟨before ++ [(line.indent, m)], ?_, h.declares, h.follow.tail, ?_, ?_, ?_,
        (fun a ha => by cases ha), fun _ => rfl⟩
      · rw [hsplit, List.map_append, List.append_assoc]
        rfl
      · intro x hx
        refine ⟨?_, fun a ha => by cases ha⟩
        rcases List.mem_append.1 hx with hx | hx
        · exact hstarted x hx
        · rw [List.mem_singleton.1 hx, hm]
          exact Nat.lt_of_le_of_lt hstart hlt
      · intro x hx hb
        rcases List.mem_append.1 hx with hx | hx
        · refine (h.bodies_next x hx hb).imp_right fun hopen => ?_
          obtain ⟨hreach, column, hcolumn, hle⟩ := hopen
          exact ⟨hreach, column, by simp only [hcolumn, Option.some_or], hle⟩
        · rw [List.mem_singleton.1 hx] at hb ⊢
          refine .inr ⟨by rw [hm], ?_⟩
          simp only [if_pos (hbody.1 hb)]
          cases hcolumn : n.within line.indent with
          | none => exact ⟨line.indent, rfl, Nat.le_refl _⟩
          | some column =>
            have hcolumn := (Option.filter_eq_some_iff.1 hcolumn).2
            exact ⟨column, rfl, Nat.le_of_lt (by simpa using hcolumn)⟩
      · intro column hcolumn
        rcases Option.or_eq_some_iff.1 hcolumn with hcolumn | ⟨-, hcolumn⟩
        · obtain ⟨m', hm', hb, hstop⟩ := h.body_next column hcolumn
          exact ⟨m', List.mem_append_left _ hm', hb, hstop⟩
        · split at hcolumn
          · next hinner =>
            cases hcolumn
            refine ⟨m, List.mem_append_right _ (List.mem_singleton_self _), hbody.2 hinner, ?_⟩
            rw [hm]
          · cases hcolumn

theorem initial (h : Row source (lines.map LogicalLine.span)) :
    Nest.initial.Tells source (headed source none lines) 0 [] none lines where
  split := rfl
  declares := declares_headed none
  follow := .of_row h
  started := by simp
  bodies := by simp
  body := fun _ hc => by cases hc
  noted := fun _ ha => by cases ha
  quiet := fun _ => rfl

/-- Some lines further on; annotations wait only behind one of them. -/
theorem run {pre : List LogicalLine} (h : n.Tells source all pos before note (pre ++ rest)) :
    ∃ pos' before' note', (n.run (pre.map (LogicalLine.bare source))).Tells source all pos' before'
      note' rest ∧ (pre = [] → note' = note) ∧
        ∀ l, pre.getLast? = some l → (l.bare source).isNote = false → note' = none := by
  induction pre generalizing n pos before note with
  | nil => exact ⟨pos, before, note, h, fun _ => rfl, fun _ hl => by cases hl⟩
  | cons line pre ih =>
    obtain ⟨before', hnext⟩ := h.next
    obtain ⟨pos'', before'', note'', htells, hnil, hlast⟩ := ih hnext
    refine ⟨pos'', before'', note'', htells, (fun he => by cases he), fun l hl hn => ?_⟩
    cases pre with
    | nil =>
      cases hl
      have hn : (line.bare source).isNote = false := hn
      rw [hnil rfl, if_neg (by rw [hn]; decide)]
    | cons l' pre => exact hlast l hl hn

open Classical in
/-- **The outermost routines among what some lines declare are counted line by line**. -/
theorem count (h : n.Tells source all pos before note lines) :
    (headed source note lines).countP (fun m => m.isRoutine && !decide (Covered all m)) =
      n.count (lines.map (LogicalLine.bare source)) := by
  induction lines generalizing n pos before note with
  | nil => rfl
  | cons line rest ih =>
    obtain ⟨before', hnext⟩ := h.next
    rw [List.map_cons, Nest.count, ← ih hnext, headed]
    by_cases hnote : (line.bare source).isNote = true
    · rw [if_pos hnote, if_pos hnote, Nest.declares, BareLine.header?_of_note hnote]
      exact (Nat.zero_add _).symm
    · rw [if_neg hnote, if_neg hnote, List.countP_append]
      refine congrArg (· + _) ?_
      cases hheader : (line.bare source).header? with
      | none =>
        rw [Nest.declares, hheader]
        rfl
      | some header =>
        have hinner := h.inner_iff (lt_of_header hheader)
        have hstart : (((header.block source line (note.getD line.start)).grown rest).close).span.start =
            note.getD line.start := OpenBlock.close_start _
        have hroutine : (((header.block source line (note.getD line.start)).grown rest).close).isRoutine =
            header.isRoutine := OpenBlock.isRoutine_close _
        rw [Option.map_some, Option.toList_some, List.countP_singleton, hroutine, Nest.declares,
          hheader, Option.any_some]
        cases hi : n.inner (line.bare source) with
        | true =>
          have hcovered := coveredAt_iff.2 (hstart ▸ hinner.1 hi)
          simp [hcovered]
        | false =>
          have hcovered : ¬ Covered all
              ((header.block source line (note.getD line.start)).grown rest).close := fun hc => by
            rw [hinner.2 (hstart ▸ coveredAt_iff.1 hc)] at hi
            cases hi
          cases header.isRoutine <;> simp [hcovered]

end Nest.Tells

/-- The declarations of an outline in the indented language start one after the other. -/
theorem outline_distinct {o : Outline} (h : outline source = .ok o) :
    o.nodes.Pairwise fun m n => m.declares = true → n.declares = true →
      m.span.start < n.span.start := by
  obtain ⟨lines, hlines, -⟩ := bind_eq_ok.1 h
  obtain ⟨-, hrow⟩ := logicalLines_fit hlines
  have hperm := outline_headed h hlines
  have hnone : ∀ a, (none : Option Nat) = some a → a < 0 := fun _ ha => by cases ha
  have hapart : (headed source none lines).Pairwise fun m n => m.span.start ≠ n.span.start :=
    (headed_pairwise (Follow.of_row hrow) hnone).imp Nat.ne_of_lt
  have hdistinct := hperm.symm.pairwise hapart fun h => h.symm
  have hsorted := (outline_fits h).2.sorted.filter Node.declares
  exact List.pairwise_filter.1 ((hsorted.and hdistinct).imp fun h => Nat.lt_of_le_of_ne h.1 h.2)

/-- What is covered is so by what is declared. -/
theorem covered_filter {nodes : List Node} {m : Node} :
    Covered nodes m ↔ Covered (nodes.filter Node.declares) m := by
  refine ⟨fun h => ?_, fun h => h.mono fun m hm => (List.mem_filter.1 hm).1⟩
  induction h with
  | routine hm hr h => exact .routine (List.mem_filter.2 ⟨hm, Node.declares_of_isRoutine hr⟩) hr h
  | inner hm hd _ h ih => exact .inner (List.mem_filter.2 ⟨hm, hd⟩) hd ih h

/-- **The routines that are found in an indented text are counted line by line**. -/
theorem length_survey {o : Outline} (h : outline source = .ok o)
    (hlines : logicalLines source = .ok lines) (attachment : Attachment) :
    (o.survey attachment).1.length = Nest.initial.count (lines.map (LogicalLine.bare source)) := by
  classical
  have hkeys := congrArg List.length
    ((outline_fits h).2.survey_outermost (outline_distinct h) attachment)
  rw [List.length_map, List.length_map] at hkeys
  have hperm := outline_headed h hlines
  have hcovered : ∀ m, Covered o.nodes m ↔ Covered (headed source none lines) m := fun m => by
    rw [covered_filter]
    exact ⟨fun h => h.mono fun m hm => hperm.mem_iff.1 hm,
      fun h => h.mono fun m hm => hperm.mem_iff.2 hm⟩
  rw [hkeys, ← (Nest.Tells.initial (logicalLines_fit hlines).2).count, ← hperm.countP_eq,
    List.countP_filter, outermost, ← List.countP_eq_length_filter]
  refine List.countP_congr fun m _ => ?_
  have hsame : decide (Covered o.nodes m) = decide (Covered (headed source none lines) m) :=
    decide_eq_decide.2 (hcovered m)
  rw [hsame]
  cases hr : m.isRoutine with
  | false => simp
  | true => simp [Node.declares_of_isRoutine hr]

end Scholia.Source.Indented
