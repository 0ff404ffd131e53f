import Scholia.Proofs.Evaluation
import Scholia.Proofs.Source.Comments
import Scholia.Proofs.Source.Indented.Blocks
import Scholia.Proofs.Source.Indented.Documents
import Scholia.Proofs.Source.Indented.Headed
import Scholia.Proofs.Text.Words
/-!
# Routines by indentation

**What is found in an indented text is told by its logical lines**: the headers of routines that
belong to no routine, each with the annotations directly before it, the lines after it that are
indented deeper, and the literal with which its block begins.

A literal introduces the routine whose header it follows, since only silence parts the two, and no
other routine: another one that is around it ends before the header or holds that header.
-/

/-!
## Lines that define a routine

The header of a routine is told by its words alone: the keyword, behind another one or not, and the
name behind a gap. The scanner asks for one blank behind a keyword, drops all there are, and takes
the longest word for the name. So it finds a name exactly where a line can be divided like that.
-/

namespace Scholia.Source.Indented

open Text (isBlank allBlank isWordChar)

theorem afterWord?_eq_some_iff {word s t : Text} : afterWord? word s = some t ↔
    ∃ gap, s = word ++ (gap ++ t) ∧ gap ≠ [] ∧ allBlank gap = true ∧
      ∀ c, t.head? = some c → isBlank c = false := by
  constructor
  · intro h
    rw [afterWord?_eq] at h
    obtain ⟨rest, hrest, h⟩ := Option.bind_eq_some_iff.1 h
    obtain ⟨hblank, h⟩ := Option.ite_none_right_eq_some.1 h
    have hs : s = word ++ rest := Text.dropLead?_eq_some_iff.1 hrest
    obtain rfl : Text.trimStart rest = t := Option.some_inj.1 h
    refine ⟨rest.takeWhile isBlank, ?_, fun hnil => ?_, List.all_takeWhile, fun c hc => ?_⟩
    · rw [hs, Text.trimStart, Text.trimStartWhere, List.takeWhile_append_dropWhile]
    · cases rest with
      | nil => cases hblank
      | cons c rest =>
        have hc : isBlank c = true := hblank
        rw [List.takeWhile_cons_of_pos hc] at hnil
        cases hnil
    · have := List.head?_dropWhile_not isBlank rest
      rw [Text.trimStart, Text.trimStartWhere] at hc
      simpa [hc] using this
  · rintro ⟨gap, rfl, hne, hblank, hhead⟩
    have htrim : Text.trimStart (gap ++ t) = t := by
      rw [Text.trimStart, Text.trimStartWhere,
        List.dropWhile_append_of_pos (List.all_eq_true.1 hblank)]
      cases t with
      | nil => rfl
      | cons c t => rw [List.dropWhile_cons_of_neg (by simp [hhead c rfl])]
    have hfirst : (((gap ++ t).head?.map isBlank).getD false) = true := by
      cases gap with
      | nil => exact absurd rfl hne
      | cons c gap => exact List.all_eq_true.1 hblank c List.mem_cons_self
    rw [afterWord?_eq, Text.dropLead?_eq_some_iff.2 rfl, Option.bind_some, if_pos hfirst, htrim]

theorem leadingName?_eq_some_iff {s name : Text} : leadingName? s = some name ↔
    ∃ rest, s = name ++ rest ∧ name ≠ [] ∧ (∀ c ∈ name, isWordChar c = true) ∧
      Text.atWordEnd rest = true := by
  have hname : leadingName? s = some name ↔ s.takeWhile isWordChar = name ∧ name ≠ [] := by
    rw [leadingName?, Text.spanWord]
    cases s.takeWhile isWordChar with
    | nil => exact iff_of_false (by simp) fun h => h.2 h.1.symm
    | cons c word =>
      rw [Option.some_inj]
      exact ⟨fun h => ⟨h, by rw [← h]; exact List.cons_ne_nil c word⟩, And.left⟩
  rw [hname]
  constructor
  · rintro ⟨rfl, hne⟩
    refine ⟨s.dropWhile isWordChar, List.takeWhile_append_dropWhile.symm, hne,
      List.all_eq_true.1 List.all_takeWhile, ?_⟩
    have := List.head?_dropWhile_not isWordChar s
    unfold Text.atWordEnd
    split
    · rfl
    · next c rest he =>
      rw [he] at this
      simpa using this
  · rintro ⟨rest, rfl, hne, hword, hend⟩
    refine ⟨?_, hne⟩
    rw [List.takeWhile_append_of_pos hword]
    cases rest with
    | nil => exact List.append_nil _
    | cons c rest =>
      have hc : isWordChar c = false := by simpa [Text.atWordEnd] using hend
      rw [List.takeWhile_cons_of_neg (by simp [hc]), List.append_nil]

/-- What is left of a line behind the word that may stand before the keyword of a routine. -/
def afterPrelude (line : Text) : Text :=
  (afterWord? "async".toList line).getD line

/-- What may stand before the keyword of a routine: nothing, or a word with a gap behind it. -/
def IsPrelude (lead : Text) : Prop :=
  lead = [] ∨ ∃ gap, lead = "async".toList ++ gap ∧ gap ≠ [] ∧ allBlank gap = true

theorem exists_prelude (line : Text) : ∃ lead, IsPrelude lead ∧ line = lead ++ afterPrelude line := by
  rw [afterPrelude]
  cases hasync : afterWord? "async".toList line with
  | none => exact ⟨[], .inl rfl, rfl⟩
  | some s =>
    obtain ⟨gap, hline, hgap, hblank, -⟩ := afterWord?_eq_some_iff.1 hasync
    refine ⟨"async".toList ++ gap, .inr ⟨gap, rfl, hgap, hblank⟩, ?_⟩
    rw [hline, List.append_assoc]
    rfl

theorem afterPrelude_append {lead s : Text} (h : IsPrelude lead) (hs : s.head? = some 'd') :
    afterPrelude (lead ++ s) = s := by
  obtain ⟨s, rfl⟩ := List.head?_eq_some_iff.1 hs
  rcases h with rfl | ⟨gap, rfl, hgap, hblank⟩
  · rfl
  · have hasync : afterWord? "async".toList ("async".toList ++ gap ++ 'd' :: s) = some ('d' :: s) := by
      refine afterWord?_eq_some_iff.2 ⟨gap, List.append_assoc _ _ _, hgap, hblank, fun c hc => ?_⟩
      cases hc
      decide
    rw [afterPrelude, hasync, Option.getD_some]

theorem ofLine?_routine_eq {line name : Text} : Header.ofLine? line = some ⟨true, name⟩ ↔
    (afterWord? "def".toList (afterPrelude line)).bind leadingName? = some name := by
  simp only [Header.ofLine?]
  split
  · next found hfound =>
    have hroutine : (afterWord? "def".toList (afterPrelude line)).bind leadingName? = some found :=
      hfound
    rw [hroutine]
    simp
  · next hnone =>
    have hroutine : (afterWord? "def".toList (afterPrelude line)).bind leadingName? = none := hnone
    rw [hroutine]
    refine iff_of_false (fun h => ?_) (by simp)
    obtain ⟨other, -, he⟩ := Option.map_eq_some_iff.1 h
    cases he

/-- A line that defines a routine: the keyword, with another one before it or not, a gap, and the
longest word behind that for the name. -/
structure Defines (line name : Text) : Prop where
  named : name ≠ [] ∧ ∀ c ∈ name, isWordChar c = true
  written : ∃ lead gap rest, line = lead ++ ("def".toList ++ (gap ++ (name ++ rest))) ∧
    IsPrelude lead ∧ gap ≠ [] ∧ allBlank gap = true ∧ Text.atWordEnd rest = true

/-- A name does not begin with a blank. -/
theorem Defines.not_isBlank {line name : Text} (h : Defines line name) (rest : Text) (c : Char)
    (hc : (name ++ rest).head? = some c) : isBlank c = false := by
  obtain ⟨⟨hne, hword⟩, -⟩ := h
  cases name with
  | nil => exact absurd rfl hne
  | cons d name =>
    obtain rfl : d = c := Option.some_inj.1 hc
    cases hb : isBlank d with
    | false => rfl
    | true =>
      have hd := hword d List.mem_cons_self
      rw [Text.isWordChar_of_isBlank hb] at hd
      cases hd

/-- **The headers of routines are the lines that define one**. -/
theorem ofLine?_routine_iff {line name : Text} :
    Header.ofLine? line = some ⟨true, name⟩ ↔ Defines line name := by
  rw [ofLine?_routine_eq]
  constructor
  · intro h
    obtain ⟨t, hdef, hname⟩ := Option.bind_eq_some_iff.1 h
    obtain ⟨gap, htext, hgap, hblank, -⟩ := afterWord?_eq_some_iff.1 hdef
    obtain ⟨rest, rfl, hne, hword, hend⟩ := leadingName?_eq_some_iff.1 hname
    obtain ⟨lead, hlead, hline⟩ := exists_prelude line
    rw [htext] at hline
    exact ⟨⟨hne, hword⟩, lead, gap, rest, hline, hlead, hgap, hblank, hend⟩
  · intro h
    obtain ⟨lead, gap, rest, rfl, hlead, hgap, hblank, hend⟩ := h.written
    have hdef : afterWord? "def".toList ("def".toList ++ (gap ++ (name ++ rest))) =
        some (name ++ rest) :=
      afterWord?_eq_some_iff.2 ⟨gap, rfl, hgap, hblank, h.not_isBlank rest⟩
    rw [afterPrelude_append hlead rfl, hdef, Option.bind_some]
    exact leadingName?_eq_some_iff.2 ⟨rest, rfl, h.named.1, h.named.2, hend⟩

theorem Defines.head? {line name : Text} (h : Defines line name) :
    line.head? = some 'a' ∨ line.head? = some 'd' := by
  obtain ⟨lead, gap, rest, rfl, rfl | ⟨pause, rfl, -⟩, -⟩ := h.written
  · exact .inr rfl
  · exact .inl rfl

/-- **A logical line is the header of a routine if it defines one**: such a line is no annotation. -/
theorem BareLine.header?_routine_iff {l : BareLine} {name : Text} :
    l.header? = some ⟨true, name⟩ ↔ Defines l.text name := by
  rw [← ofLine?_routine_iff, BareLine.header?]
  split
  · next hnote =>
    refine iff_of_false (by simp) fun h => ?_
    have hat : l.text.head? = some '@' := of_decide_eq_true hnote
    rcases (ofLine?_routine_iff.1 h).head? with ha | hd
    · rw [ha] at hat
      cases hat
    · rw [hd] at hat
      cases hat
  · exact Iff.rfl

end Scholia.Source.Indented

namespace Scholia.Source.Indented

variable {source : Text} {lines : List LogicalLine} {o : Outline} {p q : LinePlace} {f m : Node}

namespace LinePlace

/-- A line is the documentation of a header: it is the first one of its block, and a literal, and
behind the colon of the header nothing but a comment stands on its line. -/
structure DocumentedBy (source : Text) (p : LinePlace) (first : LogicalLine) : Prop where
  ends : ∃ colon, p.line.colon = some colon ∧ p.line.stop ≤ colon + 1
  follows : p.after.head? = some first
  deeper : p.line.indent < first.indent
  literal : first.IsLiteral (rule.lex source).lexemes

/-- **What is found at the header of a routine**. -/
structure Declares (source : Text) (p : LinePlace) (r : Routine) : Prop where
  header : Defines (Text.slice p.line.start p.line.stop source) r.name
  start : r.span.start = p.start source
  stop : r.span.stop = reach p.line.indent p.line.stop p.after
  documented : ∀ first, p.DocumentedBy source first →
    r.comment = Text.slice first.start first.stop source
  undocumented : (¬ ∃ first, p.DocumentedBy source first) → r.comment = []

/-- The documentation of a place is that of its header. -/
theorem comment?_eq_some (hlines : logicalLines source = .ok lines) (hp : p ∈ linePlaces [] lines)
    (hroutine : (p.line.bare source).isRoutine = true) {t : Span} :
    p.comment? source = some t ↔
      ∃ first, p.DocumentedBy source first ∧ t = ⟨first.start, first.stop⟩ := by
  obtain ⟨pre, -, hsplit, -⟩ := exists_of_mem_sites hp
  have hends : p.line.endsHeader = true ↔
      ∃ colon, p.line.colon = some colon ∧ p.line.stop ≤ colon + 1 := by
    simp [LogicalLine.endsHeader, Option.any_eq_true]
  rw [comment?, hroutine, Bool.true_and]
  constructor
  · intro h
    split at h
    · next he =>
      cases hafter : p.after with
      | nil =>
        rw [hafter] at h
        cases h
      | cons first rest =>
        rw [hafter, firstLiteral] at h
        split at h
        · next hlt =>
          have hmem : first ∈ lines := by rw [hsplit, hafter]; simp
          obtain ⟨rfl, hliteral⟩ := (loneString_iff hlines hmem).1 h
          exact ⟨first, ⟨hends.1 he, by rw [hafter]; rfl, hlt, hliteral⟩, rfl⟩
        · cases h
    · cases h
  · rintro ⟨first, hdoc, rfl⟩
    obtain ⟨rest, hafter⟩ := List.head?_eq_some_iff.1 hdoc.follows
    have hmem : first ∈ lines := by rw [hsplit, hafter]; simp
    rw [if_pos (hends.2 hdoc.ends), hafter, firstLiteral, if_pos hdoc.deeper]
    exact (loneString_iff hlines hmem).2 ⟨rfl, hdoc.literal⟩

/-- The body of a routine starts behind the colon of its header. -/
theorem bodyStart_eq {colon : Nat} (hnode : p.node? source = some f)
    (hroutine : (p.line.bare source).isRoutine = true) (hcolon : p.line.colon = some colon) :
    f.bodyStart = colon + 1 := by
  obtain ⟨header, hheader, rfl⟩ := Option.map_eq_some_iff.1 hnode
  have hr : header.isRoutine = true := by
    rw [BareLine.isRoutine, hheader] at hroutine
    exact hroutine
  simp only [Header.block, OpenBlock.grown, OpenBlock.close, hr, if_true, hcolon, Option.getD_some,
    Node.bodyStart, Node.routine]

end LinePlace

theorem LogicalLine.exists_header {line : LogicalLine}
    (h : (line.bare source).isRoutine = true) :
    ∃ name, (line.bare source).header? = some ⟨true, name⟩ := by
  obtain ⟨⟨routine, name⟩, hheader, hroutine⟩ := (Option.any_eq_true _ _).1 h
  obtain rfl : routine = true := hroutine
  exact ⟨name, hheader⟩

/-! ## Literals introduce the routines whose headers they follow -/

/-- The lines behind one of some lines. -/
theorem Follow.behind {pos : Nat} {pre rest : List LogicalLine} {line : LogicalLine}
    (h : Follow pos (pre ++ line :: rest)) : Follow line.stop rest := by
  obtain ⟨-, hlast, -⟩ := List.pairwise_append.1 h.apart
  refine ⟨(List.pairwise_cons.1 hlast).1, fun l hl => h.ordered l ?_, (List.pairwise_cons.1 hlast).2⟩
  exact List.mem_append_right _ (List.mem_cons_of_mem _ hl)

section

variable (hlines : logicalLines source = .ok lines)

include hlines

/-- Places that declare at one byte are one place. -/
theorem eq_of_node_start (hp : p ∈ linePlaces [] lines) (hq : q ∈ linePlaces [] lines)
    (hf : p.node? source = some f) (hm : q.node? source = some m)
    (he : f.span.start = m.span.start) : p = q := by
  have hne : (linePlaces [] lines).Pairwise fun p q => ∀ f, p.node? source = some f →
      ∀ m, q.node? source = some m → f.span.start ≠ m.span.start :=
    (List.pairwise_filterMap.1 (nodes_pairwise hlines)).imp fun {p q} hlt f hf m hm =>
      Nat.ne_of_lt (hlt f hf m hm)
  have : Std.Symm fun p q : LinePlace => ∀ f, p.node? source = some f →
      ∀ m, q.node? source = some m → f.span.start ≠ m.span.start :=
    ⟨fun _ _ h m hm f hf => (h f hf m hm).symm⟩
  by_contra hother
  exact hne.forall hp hq hother f hf m hm he

/-- A block starts no later than its header. -/
theorem start_le (hp : p ∈ linePlaces [] lines) : p.start source ≤ p.line.start := by
  obtain ⟨pre, -, hsplit, hbefore, -⟩ := exists_of_mem_sites hp
  have hfollow := Follow.of_row (logicalLines_fit hlines).2
  rw [LinePlace.start]
  cases hnote : noteStart source p.before with
  | none => exact Nat.le_refl _
  | some a =>
    obtain ⟨l, hl, rfl⟩ := Option.map_eq_some_iff.1 hnote
    have hmem : l ∈ pre := by
      have hl := (List.takeWhile_sublist _).subset (List.mem_of_getLast? hl)
      rwa [hbefore, List.append_nil, List.mem_reverse] at hl
    rw [hsplit] at hfollow
    have hle := (List.pairwise_append.1 hfollow.apart).2.2 l hmem p.line List.mem_cons_self
    exact Nat.le_trans (hfollow.ordered l (List.mem_append_left _ hmem)) hle

/-- A header that ends with its colon has its body behind its last character. -/
theorem bodyStart_eq_stop (hp : p ∈ linePlaces [] lines) (hf : p.node? source = some f)
    (hroutine : (p.line.bare source).isRoutine = true)
    (hends : ∃ colon, p.line.colon = some colon ∧ p.line.stop ≤ colon + 1) :
    f.bodyStart = p.line.stop := by
  obtain ⟨pre, -, hsplit, -⟩ := exists_of_mem_sites hp
  obtain ⟨colon, hcolon, hle⟩ := hends
  obtain ⟨lexemes, s, -, hstand, -⟩ := logicalLines_stand hlines
  obtain ⟨ended, hstand⟩ := hstand p.line (by rw [hsplit]; simp)
  rw [LinePlace.bodyStart_eq hf hroutine hcolon]
  exact Nat.le_antisymm (hstand.colon colon hcolon).2.1 hle

variable (h : outline source = .ok o)

include h

/-- What starts no later than the first line of a block is declared no later than its header. -/
theorem start_le_of_declares (hp : p ∈ linePlaces [] lines) (hf : p.node? source = some f)
    {first : LogicalLine} (hfirst : p.after.head? = some first) (hm : m ∈ o.nodes)
    (hd : m.declares = true) (hlt : m.span.start < first.start) :
    m.span.start ≤ f.span.start := by
  obtain ⟨pre, places, hsplit, -, hplaces⟩ := exists_of_mem_sites hp
  obtain ⟨rest, hafter⟩ := List.head?_eq_some_iff.1 hfirst
  have hfollow := Follow.of_row (logicalLines_fit hlines).2
  have hsorted := nodes_pairwise hlines
  have hmem : m ∈ o.nodes.filter Node.declares := List.mem_filter.2 ⟨hm, hd⟩
  rw [outline_declares h hlines] at hmem
  rw [linePlaces, hplaces, List.filterMap_append, List.filterMap_cons_some hf] at hsorted hmem
  rcases List.mem_append.1 hmem with hmem | hmem
  · have hbefore := (List.pairwise_append.1 hsorted).2.2 m hmem f List.mem_cons_self
    exact Nat.le_of_lt hbefore
  rcases List.mem_cons.1 hmem with rfl | hmem
  · exact Nat.le_refl _
  · have hnote : ¬ (p.line.bare source).isNote = true := fun hn => by
      rw [LinePlace.node?, BareLine.header?_of_note hn] at hf
      cases hf
    rw [← headed_eq, noteStart_cons, if_neg hnote, hafter] at hmem
    rw [hsplit, hafter] at hfollow
    have hle := le_of_mem_headed hfollow.behind.here (Nat.le_refl _) (fun a ha => by cases ha) m hmem
    exact absurd hlt (Nat.not_lt.2 hle)

/-- **A literal introduces the routine whose header it follows**. -/
theorem introduces_of_comment (haligned : Aligned source lines)
    (hplain : ∀ l ∈ (rule.lex source).lexemes, l.kind ≠ .continuation)
    (hp : p ∈ linePlaces [] lines) (hf : p.node? source = some f)
    (hroutine : (p.line.bare source).isRoutine = true) {first : LogicalLine}
    (hdoc : p.DocumentedBy source first) :
    Node.doc ⟨first.start, first.stop⟩ ∈ o.nodes ∧
      (Node.doc ⟨first.start, first.stop⟩).Introduces source o.nodes f := by
  obtain ⟨pre, -, hsplit, -⟩ := exists_of_mem_sites hp
  obtain ⟨rest, hafter⟩ := List.head?_eq_some_iff.1 hdoc.follows
  rw [hafter] at hsplit
  have hdivides := divides_of_logicalLines hlines
  have hmem : Node.doc ⟨first.start, first.stop⟩ ∈ o.nodes := by
    refine (List.mem_filter.1 ((outline_comments h hlines).mem_iff.2 ?_)).1
    refine List.mem_map.2 ⟨_, List.mem_filterMap.2 ⟨p, hp, ?_⟩, rfl⟩
    exact (LinePlace.comment?_eq_some hlines hp hroutine).2 ⟨first, hdoc, rfl⟩
  obtain ⟨-, -, hspan⟩ := LinePlace.node?_eq_some hf
  have hstart : p.start source ≤ p.line.start := start_le hlines hp
  have hfollow := Follow.of_row (logicalLines_fit hlines).2
  rw [hsplit] at hfollow
  have hbehind := hfollow.behind
  have hordered : p.line.start ≤ p.line.stop := hfollow.ordered p.line (by simp)
  have hfirst : first.start < first.stop := (hdoc.literal.head hdivides).1
  have hnext : p.line.stop ≤ first.start := hbehind.head.1
  have hbody := bodyStart_eq_stop hlines hp hf hroutine hdoc.ends
  refine ⟨hmem, rfl, ⟨?_, ?_⟩, fun m hm hd haround => ?_, ?_, ?_⟩
  · rw [hspan]
    show p.start source ≤ first.start
    omega
  · rw [hspan, hafter, reach_deeper hdoc.deeper]
    exact Nat.lt_of_lt_of_le hfirst (le_reach hbehind.tail)
  · refine start_le_of_declares hlines h hp hf hdoc.follows hm hd ?_
    refine Nat.lt_of_le_of_ne haround.1 fun he => ?_
    rw [(outline_wellNested h hlines haligned).eq_of_start hm hmem he] at hd
    cases hd
  · rw [hbody]
    exact hnext
  · have hsilent : Silent (rule.lex source).lexemes p.line.stop first.start := by
      have hspaced := logicalLines_spaced hlines
      rw [hsplit] at hspaced
      exact (List.isChain_append_cons_cons.1 hspaced).2.1
    rw [hbody]
    exact (isFirstStatement_iff.1 (isFirstStatement_of_silent hdivides hsilent hplain)).2

theorem mem_of_node (hp : p ∈ linePlaces [] lines) (hf : p.node? source = some f) :
    f ∈ o.nodes ∧ f.declares = true := by
  have hmem : f ∈ (linePlaces [] lines).filterMap (LinePlace.node? source) :=
    List.mem_filterMap.2 ⟨p, hp, hf⟩
  rw [← outline_declares h hlines] at hmem
  exact List.mem_filter.1 hmem

/-- What introduces a routine is the literal with which its block begins: it introduces the routine
of that header, and both are innermost around it. -/
theorem documentedBy_of_introduces (haligned : Aligned source lines)
    (hplain : ∀ l ∈ (rule.lex source).lexemes, l.kind ≠ .continuation)
    (hp : p ∈ linePlaces [] lines) (hf : p.node? source = some f) {d : Node} (hd : d ∈ o.nodes)
    (hi : d.Introduces source o.nodes f) :
    ∃ first, p.DocumentedBy source first ∧ d.span = ⟨first.start, first.stop⟩ := by
  have hcomment : d ∈ o.nodes.filter fun n => !n.declares :=
    List.mem_filter.2 ⟨hd, by rw [Node.declares_eq_false.2 hi.doc]; rfl⟩
  obtain ⟨t, ht, rfl⟩ := List.mem_map.1 ((outline_comments h hlines).mem_iff.1 hcomment)
  obtain ⟨q, hq, hcomment⟩ := List.mem_filterMap.1 ht
  have hroutine : (q.line.bare source).isRoutine = true := by
    rw [LinePlace.comment?] at hcomment
    split at hcomment
    · next hq => exact (Bool.and_eq_true _ _ ▸ hq).1
    · cases hcomment
  obtain ⟨first, hdoc, rfl⟩ := (LinePlace.comment?_eq_some hlines hq hroutine).1 hcomment
  obtain ⟨g, hg⟩ : ∃ g, q.node? source = some g := by
    obtain ⟨name, hheader⟩ := q.line.exists_header hroutine
    exact ⟨_, by rw [LinePlace.node?, hheader]; rfl⟩
  obtain ⟨-, hown⟩ := introduces_of_comment hlines h haligned hplain hq hg hroutine hdoc
  obtain ⟨hfmem, hfd⟩ := mem_of_node hlines h hp hf
  obtain ⟨hgmem, hgd⟩ := mem_of_node hlines h hq hg
  have hle := hi.innermost g hgmem hgd hown.inside
  have hge := hown.innermost f hfmem hfd hi.inside
  obtain rfl := eq_of_node_start hlines hp hq hf hg (Nat.le_antisymm hge hle)
  exact ⟨first, hdoc, rfl⟩

/-- **A routine carries the literal with which its block begins**, and nothing else. -/
theorem carries_iff (haligned : Aligned source lines)
    (hplain : ∀ l ∈ (rule.lex source).lexemes, l.kind ≠ .continuation)
    (hp : p ∈ linePlaces [] lines) (hf : p.node? source = some f)
    (hroutine : (p.line.bare source).isRoutine = true) {c : Span} :
    (∃ d ∈ o.nodes, d.span = c ∧ f.Carries .firstStatement source o.nodes d) ↔
      ∃ first, p.DocumentedBy source first ∧ c = ⟨first.start, first.stop⟩ := by
  constructor
  · rintro ⟨d, hd, rfl, hi, -⟩
    exact documentedBy_of_introduces hlines h haligned hplain hp hf hd hi
  · rintro ⟨first, hdoc, rfl⟩
    obtain ⟨hmem, hown⟩ := introduces_of_comment hlines h haligned hplain hp hf hroutine hdoc
    refine ⟨_, hmem, rfl, hown, fun e he hi => ?_⟩
    obtain ⟨first', hdoc', hspan⟩ :=
      documentedBy_of_introduces hlines h haligned hplain hp hf he hi
    obtain rfl : first = first' := Option.some_inj.1 (hdoc.follows.symm.trans hdoc'.follows)
    rw [hspan]
    exact Nat.le_refl _

end

/-- What is found has the name and the range of the place that declares it, and the comment that
its node carries. -/
theorem declares_of_key (h : outline source = .ok o) (hlines : logicalLines source = .ok lines)
    (haligned : Aligned source lines)
    (hplain : ∀ l ∈ (rule.lex source).lexemes, l.kind ≠ .continuation)
    (hp : p ∈ linePlaces [] lines) (hroutine : (p.line.bare source).isRoutine = true) {r : Routine}
    (hr : r ∈ (o.survey .firstStatement).1)
    (hkey : (p.node? source).map Node.key = some r.key) : p.Declares source r := by
  obtain ⟨hsource, hfits⟩ := outline_fits h
  have hnested := outline_wellNested h hlines haligned
  obtain ⟨f, hf, hfkey⟩ := Option.map_eq_some_iff.1 hkey
  obtain ⟨g, hg, -, hgkey, hcarries⟩ := hnested.survey_comment hfits hr
  have hspan : f.span = r.span := congrArg (fun key => key.2.2) hfkey
  obtain rfl : f = g := hnested.eq_of_start (mem_of_node hlines h hp hf).1 hg
    (congrArg (fun key => key.2.2.start) (hfkey.trans hgkey.symm))
  have hcomment : ∀ c, r.commentSpan = some c ↔
      ∃ first, p.DocumentedBy source first ∧ c = ⟨first.start, first.stop⟩ := fun c => by
    rw [hcarries, hsource]
    exact carries_iff hlines h haligned hplain hp hf hroutine
  have htext : r.comment = (r.commentSpan.map (·.of source)).getD [] :=
    hsource ▸ (hfits.survey_stands _ r hr).comment
  rw [(LinePlace.node?_eq_some hf).2.2] at hspan
  refine ⟨?_, congrArg Span.start hspan.symm, congrArg Span.stop hspan.symm, fun first hdoc => ?_,
    fun hno => ?_⟩
  · obtain ⟨name, hheader⟩ := p.line.exists_header hroutine
    have hname : f.name = r.name := congrArg (fun key => key.1) hfkey
    rw [LinePlace.node?, hheader] at hf
    cases hf
    have hbare : (p.line.bare source).header? = some ⟨true, r.name⟩ := by
      rw [hheader, ← hname]
      rfl
    exact BareLine.header?_routine_iff.1 hbare
  · rw [htext, (hcomment _).2 ⟨first, hdoc, rfl⟩]
    rfl
  · cases hspan : r.commentSpan with
    | none =>
      rw [htext, hspan]
      rfl
    | some c =>
      obtain ⟨first, hdoc, -⟩ := (hcomment c).1 hspan
      exact absurd ⟨first, hdoc⟩ hno

/-- **What is found in an indented text**. If it has no continuation, and annotations are indented
like the lines after them, then its routines are, in order and each once, those whose headers belong
to no routine. Each starts with the annotations directly before its header, ends with the last line
behind that which is indented deeper, and has for its comment the literal with which its block
begins. -/
theorem survey_by_indentation {routines : List Routine} {types : List TypeDecl}
    (h : Language.python.survey source = .ok (routines, types))
    (hlines : logicalLines source = .ok lines)
    (hplain : ∀ l ∈ (rule.lex source).lexemes, l.kind ≠ .continuation)
    (haligned : Aligned source lines) :
    List.Forall₂ (fun r p => p.Declares source r) routines (outermostPlaces source lines) := by
  obtain ⟨o, ho, hsurvey⟩ := bind_eq_ok.1 h
  have hsurvey : o.survey .firstStatement = (routines, types) := Except.ok.inj hsurvey
  have hkeys := (outline_fits ho).2.survey_outermost (outline_distinct ho) .firstStatement
  rw [hsurvey, outermost_places ho hlines haligned] at hkeys
  have hmem : ∀ p ∈ outermostPlaces source lines,
      p ∈ linePlaces [] lines ∧ (p.line.bare source).isRoutine = true := by
    intro p hp
    rw [outermostPlaces, List.mem_filter, Bool.and_eq_true] at hp
    exact ⟨hp.1, hp.2.1⟩
  rw [List.map_filterMap] at hkeys
  refine forall₂_of_map_eq_filterMap hkeys (fun p hp => ?_) fun r hr p hp hkey => ?_
  · obtain ⟨name, hheader⟩ := p.line.exists_header (hmem p hp).2
    rw [LinePlace.node?, hheader]
    rfl
  · exact declares_of_key ho hlines haligned hplain (hmem p hp).1 (hmem p hp).2
      (by rw [hsurvey]; exact hr) hkey

/-- A routine with an annotation, documentation behind a remark and a routine of its own, and a
method behind it. -/
def areaText : Text :=
  ("@memo\ndef area(w):  # box\n  \"\"\"Area.\"\"\"\n  def grow(): pass\nclass Box:\n" ++
    "  async def open(self): pass\n").toList

/-- The logical lines of `areaText`. -/
def areaLines : List LogicalLine :=
  [⟨0, 5, 0, none, none⟩, ⟨6, 18, 0, some 17, none⟩, ⟨28, 39, 2, none, some ⟨28, 39⟩⟩,
    ⟨42, 58, 2, some 52, none⟩, ⟨59, 69, 0, some 68, none⟩, ⟨72, 98, 2, some 92, none⟩]

/-- In `areaText` one routine starts with its annotation and is documented, and the other one is the
method. -/
theorem survey_by_indentation_areaText :
    logicalLines areaText = .ok areaLines ∧
      (∀ l ∈ (rule.lex areaText).lexemes, l.kind ≠ .continuation) ∧ Aligned areaText areaLines ∧
      ∃ area method types, Language.python.survey areaText = .ok ([area, method], types) ∧
        area.name = "area".toList ∧ area.span = ⟨0, 58⟩ ∧
        area.comment = "\"\"\"Area.\"\"\"".toList ∧
        method.name = "open".toList ∧ method.span = ⟨72, 98⟩ ∧ method.comment = [] := by
  have hlines : logicalLines areaText = .ok areaLines := by
    rw [logicalLines, Rule.lex_eq_lexWithin]
    decide +kernel
  have hplain : ∀ l ∈ (rule.lex areaText).lexemes, l.kind ≠ .continuation := by
    rw [Rule.lex_eq_lexWithin]
    decide +kernel
  have haligned : Aligned areaText areaLines := by decide +kernel
  have hplaces : outermostPlaces areaText areaLines =
      [⟨[⟨0, 5, 0, none, none⟩], ⟨6, 18, 0, some 17, none⟩, areaLines.drop 2⟩,
        ⟨(areaLines.take 5).reverse, ⟨72, 98, 2, some 92, none⟩, []⟩] := by
    decide +kernel
  have hheaders : Header.ofLine? (Text.slice 6 18 areaText) = some ⟨true, "area".toList⟩ ∧
      Header.ofLine? (Text.slice 72 98 areaText) = some ⟨true, "open".toList⟩ := by
    decide +kernel
  obtain ⟨⟨routines, types⟩, h⟩ : ∃ found, Language.python.survey areaText = .ok found := by
    have hfound : (Language.python.routines areaText).toOption.isSome = true := by
      rw [Language.routines_eq_compute]
      decide +kernel
    rw [Language.routines] at hfound
    cases hsurvey : Language.python.survey areaText with
    | ok found => exact ⟨found, rfl⟩
    | error fault =>
      rw [hsurvey] at hfound
      cases hfound
  have hdeclares := survey_by_indentation h hlines hplain haligned
  rw [hplaces] at hdeclares
  cases hdeclares with
  | @cons area _ _ _ harea hrest =>
    cases hrest with
    | @cons method _ _ _ hmethod hnil =>
      cases hnil
      refine ⟨hlines, hplain, haligned, area, method, types, h, ?_, ?_, ?_, ?_, ?_, ?_⟩
      · have hheader := ofLine?_routine_iff.2 harea.header
        exact congrArg Header.name (Option.some_inj.1 (hheader.symm.trans hheaders.1))
      · exact congrArg₂ Span.mk (harea.start.trans (by decide +kernel)) harea.stop
      · refine (harea.documented ⟨28, 39, 2, none, some ⟨28, 39⟩⟩ ⟨⟨17, rfl, by decide⟩, rfl,
          by decide, ?_⟩).trans (by decide +kernel)
        exact ((loneString_iff hlines (by decide)).1 rfl).2
      · have hheader := ofLine?_routine_iff.2 hmethod.header
        exact congrArg Header.name (Option.some_inj.1 (hheader.symm.trans hheaders.2))
      · exact congrArg₂ Span.mk (hmethod.start.trans (by decide +kernel)) hmethod.stop
      · refine hmethod.undocumented ?_
        rintro ⟨first, hdoc⟩
        cases hdoc.follows

end Scholia.Source.Indented
