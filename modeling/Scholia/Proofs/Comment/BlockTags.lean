import Scholia.Proofs.Comment.Moved
/-!
# Block tags as they are written

A comment with block tags is written line by line, each line behind a star: a description, then
blocks, each a tag with what is said on its line and lines that go on with it. `written` sets a
comment down in this way, and `documentation` is what it says: the description, and one point for
each block of a topic, in the order of the blocks. Main statement: **a comment that is written says
what it was written from** (`read_written`). As `documentation` looks at one topic at a time, blocks
of different topics may change places.

An empty line says nothing, in the description and in a block, so two paragraphs of a description
run on as one (`not_read_joined`).

What the main statement asks of a comment is that its texts can be told apart again: each stands
trimmed on its line, a line that is no tag does not begin with `@`, and a name is one word.
-/

namespace Scholia.Comment.Javadoc

open Doc (Line entry)
open Text (isBlank isWordChar join trim)

/-! ## Comments -/

/-- What a tag is about. -/
inductive Topic where
  | param
  | returns
  | throws
  | other
  deriving Repr, DecidableEq

namespace Topic

/-- The tags of a topic; any other word is a tag about something else. -/
def tags : Topic → List Text
  | param => ["param".toList]
  | returns => ["return".toList, "returns".toList]
  | throws => ["throws".toList, "exception".toList]
  | other => []

def Allows : Topic → Text → Prop
  | other, tag => tag ≠ [] ∧ (∀ c ∈ tag, isWordChar c = true) ∧ ∀ topic : Topic, tag ∉ topic.tags
  | topic, tag => tag ∈ topic.tags

/-- Whether a tag of this topic names what it is about: a parameter, or the type of an exception. -/
def isNamed : Topic → Bool
  | param | throws => true
  | returns | other => false

end Topic

/-- A tag with what is said on its line, and the lines that go on with it. -/
structure Block where
  topic : Topic
  tag : Text
  name : Text
  text : Text
  more : List Text
  deriving Repr, DecidableEq

/-- A text on one line, without blanks at its ends. -/
structure IsOneLine (s : Text) : Prop where
  trimmed : trim s = s
  line : '\n' ∉ s

/-- A line that is no tag. -/
structure IsFree (s : Text) : Prop extends IsOneLine s where
  head : s.head? ≠ some '@'

instance (s : Text) : Decidable (IsFree s) :=
  decidable_of_iff (trim s = s ∧ '\n' ∉ s ∧ s.head? ≠ some '@')
    ⟨fun ⟨trimmed, line, head⟩ => ⟨⟨trimmed, line⟩, head⟩, fun h => ⟨h.trimmed, h.line, h.head⟩⟩

/-- The parts of a block can be told apart on its lines. -/
structure Block.IsLegible (b : Block) : Prop where
  tag : b.topic.Allows b.tag
  name : if b.topic.isNamed then b.name ≠ [] ∧ ∀ c ∈ b.name, isBlank c = false else b.name = []
  text : IsOneLine b.text
  more : ∀ line ∈ b.more, IsFree line

/-- The line of the tag: what is empty is left out with the space before it. -/
def Block.head (b : Block) : Text :=
  '@' :: (b.tag ++ ([b.name, b.text].filter (!·.isEmpty)).flatMap (' ' :: ·))

def Block.lines (b : Block) : List Text :=
  b.head :: b.more

/-- What a block says, on one line. -/
def Block.said (b : Block) : Text :=
  join [' '] ((b.text :: b.more).filter (!·.isEmpty))

/-- A line behind its star. -/
def starred (line : Text) : Text :=
  " * ".toList ++ line

/-- A comment with a description and blocks, one line after the other. -/
def written (description : List Text) (blocks : List Block) : Text :=
  join ['\n']
    ("/**".toList :: ((description ++ blocks.flatMap Block.lines).map starred ++ [" */".toList]))

/-- The blocks of a topic, each as a point about what it names. -/
def points (topic : Topic) (blocks : List Block) : List Line :=
  (blocks.filter (·.topic = topic)).map fun b => .bullet (entry b.name b.said)

/-- What a comment with this description and these blocks says. -/
def documentation (description : List Text) (blocks : List Block) : List Line :=
  sections
    [ ("Description:".toList, descriptionLines (description.filter (!·.isEmpty))),
      ("Arguments:".toList, points .param blocks),
      ("Return:".toList,
        (((blocks.filter (·.topic = .returns)).map Block.said).filter (!·.isEmpty)).map .bullet),
      ("Exceptions:".toList, points .throws blocks) ]

/-! ## Lines -/

variable {s : State} {b : Block} {line : Text}

theorem content_starred (h : IsOneLine line) : content (starred line) = line := by
  have htrim : trim (starred line) = '*' :: Text.trimEnd (' ' :: line) :=
    Text.trimEnd_stop (by decide) [] (' ' :: line)
  rw [content, htrim]
  calc trim (Text.trimEnd (' ' :: line))
    _ = trim (' ' :: line) := Text.trim_trimEnd _
    _ = trim line := Text.trim_blanks (w := [' ']) rfl line
    _ = line := h.trimmed

theorem tag?_of_free (h : IsFree line) : tag? line = none := by
  cases line with
  | nil => rfl
  | cons c r =>
    have hc : c ≠ '@' := fun he => h.head (he ▸ rfl)
    unfold tag?
    split
    · next he => exact absurd (List.cons.inj he).1 hc
    · rfl

/-- A text that goes on with a line, if the line is not empty. -/
def goOn (text line : Text) : Text :=
  if line.isEmpty then text else continueWith text line

/-- Lines that go on with a text are joined to it by single spaces. -/
theorem foldl_goOn (text : Text) (more : List Text) :
    more.foldl goOn text = join [' '] ((text :: more).filter (!·.isEmpty)) := by
  induction more generalizing text with
  | nil => cases text <;> simp [join]
  | cons line more ih =>
    rw [List.foldl_cons, ih, goOn]
    cases line with
    | nil => rfl
    | cons c line =>
      cases text with
      | nil => rfl
      | cons d text =>
        have hglued : (d :: text) ++ ' ' :: c :: line ≠ [] := by simp
        simp only [List.isEmpty_cons, Bool.false_eq_true, if_false, continueWith]
        rw [List.filter_cons_of_pos (by simp), List.filter_cons_of_pos (by simp),
          List.filter_cons_of_pos (by simp), Text.join_glue]

/-- A line of the description. -/
theorem step_text (hs : s.current = .description) (h : IsFree line) :
    s.step (starred line) =
      { s with description := [line].filter (!·.isEmpty) ++ s.description } := by
  rw [State.step, content_starred h.toIsOneLine]
  cases line with
  | nil => rfl
  | cons c r =>
    simp only [tag?_of_free h, State.addText, hs]
    rfl

/-! ## Blocks -/

/-- The state behind the line of a tag, when so much has been said about what it names. -/
def State.open (s : State) (topic : Topic) (name text : Text) : State :=
  match topic with
  | .param => { s with current := .param, params := (name, text) :: s.params }
  | .returns => { s with current := .returns, returns := text :: s.returns }
  | .throws => { s with current := .throws, throws := (name, text) :: s.throws }
  | .other => { s with current := .ignored }

/-- **A line goes on with the block that is open**, and with no other. -/
theorem step_open (topic : Topic) (name text : Text) (h : IsFree line) :
    (s.open topic name text).step (starred line) = s.open topic name (goOn text line) := by
  rw [State.step, content_starred h.toIsOneLine, goOn]
  cases line with
  | nil => rfl
  | cons c r =>
    simp only [tag?_of_free h]
    cases topic <;> rfl

theorem foldl_open (topic : Topic) (name text : Text) {more : List Text}
    (h : ∀ line ∈ more, IsFree line) : (more.map starred).foldl State.step (s.open topic name text) =
      s.open topic name (more.foldl goOn text) := by
  induction more generalizing text with
  | nil => rfl
  | cons line more ih =>
    obtain ⟨hline, hmore⟩ := List.forall_mem_cons.1 h
    rw [List.map_cons, List.foldl_cons, step_open topic name text hline, ih _ hmore, List.foldl_cons]

theorem Topic.Allows.word {topic : Topic} {tag : Text} (h : topic.Allows tag) :
    tag ≠ [] ∧ ∀ c ∈ tag, isWordChar c = true := by
  have hknown : ∀ topic : Topic, ∀ tag ∈ topic.tags, tag ≠ [] ∧ ∀ c ∈ tag, isWordChar c = true := by
    intro topic
    cases topic <;> decide
  cases topic with
  | other => exact ⟨h.1, h.2.1⟩
  | param => exact hknown .param tag h
  | returns => exact hknown .returns tag h
  | throws => exact hknown .throws tag h

/-- What stands behind a tag begins with a space, so the tag ends there. -/
theorem spanWord_tag {tag : Text} (h : ∀ c ∈ tag, isWordChar c = true) (parts : List Text) :
    Text.spanWord (tag ++ parts.flatMap (' ' :: ·)) = (tag, parts.flatMap (' ' :: ·)) := by
  refine Text.spanWord_append h fun c hc => ?_
  cases parts with
  | nil => cases hc
  | cons part parts =>
    cases hc
    rfl

theorem tag?_head (h : b.IsLegible) : tag? b.head =
    some (b.tag, trim (([b.name, b.text].filter (!·.isEmpty)).flatMap (' ' :: ·))) := by
  obtain ⟨hne, hword⟩ := h.tag.word
  rw [Block.head, tag?, spanWord_tag hword]
  cases htag : b.tag with
  | nil => exact absurd htag hne
  | cons c r => rfl

theorem IsOneLine.trimEnd {s : Text} (h : IsOneLine s) : Text.trimEnd s = s :=
  Text.trimEnd_of_trimmed h.trimmed

theorem Block.IsLegible.trimEnd_name (h : b.IsLegible) : Text.trimEnd b.name = b.name := by
  have hname := h.name
  split at hname
  · exact Text.trimEnd_of_ink hname.2
  · rw [hname]
    rfl

/-- Parts behind spaces end as the last of them does. -/
theorem trimEnd_spaced {u : Text} {parts : List Text} (hu : Text.trimEnd u = u)
    (h : ∀ part ∈ parts, part ≠ [] ∧ Text.trimEnd part = part) :
    Text.trimEnd (u ++ parts.flatMap (' ' :: ·)) = u ++ parts.flatMap (' ' :: ·) := by
  induction parts generalizing u with
  | nil => rwa [List.flatMap_nil, List.append_nil]
  | cons part parts ih =>
    obtain ⟨⟨hpart, htrim⟩, hparts⟩ := List.forall_mem_cons.1 h
    have hnext := ih (u := (u ++ [' ']) ++ part) (Text.trimEnd_append_self hpart htrim) hparts
    simpa using hnext

/-- The line of a tag stands trimmed on its line like any other. -/
theorem isOneLine_head (h : b.IsLegible) : IsOneLine b.head := by
  obtain ⟨hne, hword⟩ := h.tag.word
  have hink : ∀ c ∈ b.tag, isBlank c = false := by
    intro c hc
    rw [← Bool.not_eq_true]
    exact fun hb => absurd (hword c hc) (by rw [Text.isWordChar_of_isBlank hb]; decide)
  have hline : ∀ part ∈ [b.name, b.text].filter (!·.isEmpty),
      part ≠ [] ∧ Text.trimEnd part = part := by
    intro part hpart
    obtain ⟨hmem, hfull⟩ := List.mem_filter.1 hpart
    refine ⟨by simpa using hfull, ?_⟩
    simp only [List.mem_cons, List.not_mem_nil, or_false] at hmem
    rcases hmem with rfl | rfl
    · exact h.trimEnd_name
    · exact h.text.trimEnd
  refine ⟨?_, ?_⟩
  · have htag := Text.trimEnd_append_self (u := ['@']) hne (Text.trimEnd_of_ink hink)
    exact trimEnd_spaced (u := '@' :: b.tag) htag hline
  · have hname : '\n' ∉ b.name := by
      have hname := h.name
      split at hname
      · exact fun hn => absurd (hname.2 _ hn) (by decide)
      · simp [hname]
    have htag : '\n' ∉ b.tag := fun hn => absurd (hink _ hn) (by decide)
    simp [Block.head, htag, hname, h.text.line]

/-- What is said behind a name. -/
theorem trim_spaced {text : Text} (h : trim text = text) :
    trim (([text].filter (!·.isEmpty)).flatMap (' ' :: ·)) = text := by
  cases text with
  | nil => rfl
  | cons c r =>
    have hone : ([c :: r].filter (!·.isEmpty)).flatMap (' ' :: ·) = [' '] ++ c :: r := by simp
    rw [hone, Text.trim_blanks rfl, h]

/-- The first word behind a tag is the name. -/
theorem firstWord_named {name text : Text} (hne : name ≠ []) (hname : ∀ c ∈ name, isBlank c = false)
    (htext : IsOneLine text) :
    Text.firstWord (trim (([name, text].filter (!·.isEmpty)).flatMap (' ' :: ·))) = (name, text) := by
  have hparts : ([name, text].filter (!·.isEmpty)).flatMap (' ' :: ·) =
      [' '] ++ (name ++ ([text].filter (!·.isEmpty)).flatMap (' ' :: ·)) := by
    rw [List.filter_cons_of_pos (by simpa using hne)]
    simp
  have hstart : ∀ t : Text, Text.trimStart (name ++ t) = name ++ t := by
    obtain ⟨c, r, rfl⟩ := List.exists_cons_of_ne_nil hne
    exact fun t => List.dropWhile_cons_of_neg (by simp [hname c List.mem_cons_self])
  have hend : Text.trimEnd (name ++ ([text].filter (!·.isEmpty)).flatMap (' ' :: ·)) =
      name ++ ([text].filter (!·.isEmpty)).flatMap (' ' :: ·) := by
    refine trimEnd_spaced (Text.trimEnd_of_ink hname) fun part hpart => ?_
    obtain ⟨hmem, hfull⟩ := List.mem_filter.1 hpart
    rw [List.mem_singleton.1 hmem] at hfull ⊢
    exact ⟨by simpa using hfull, htext.trimEnd⟩
  have hword : ∀ c ∈ name, (!isBlank c) = true := fun c hc => by rw [hname c hc]; rfl
  have hstop : (([text].filter (!·.isEmpty)).flatMap (' ' :: ·)).takeWhile (!isBlank ·) = [] ∧
      (([text].filter (!·.isEmpty)).flatMap (' ' :: ·)).dropWhile (!isBlank ·) =
        ([text].filter (!·.isEmpty)).flatMap (' ' :: ·) := by
    cases text <;> exact ⟨rfl, rfl⟩
  rw [hparts, Text.trim_blanks rfl, trim, hstart, hend, Text.firstWord,
    List.takeWhile_append_of_pos hword, List.dropWhile_append_of_pos hword, hstop.1, hstop.2,
    List.append_nil, trim_spaced htext.trimmed]

/-- A tag that names something, with a name. -/
theorem addTag_named {tag text : Text} (hne : (Text.firstWord text).1 ≠ []) :
    (tag ∈ Topic.param.tags → s.addTag tag text =
      s.open .param (Text.firstWord text).1 (Text.firstWord text).2) ∧
    (tag ∈ Topic.throws.tags → s.addTag tag text =
      s.open .throws (Text.firstWord text).1 (Text.firstWord text).2) := by
  have hfull : text.isEmpty = false := by
    cases text with
    | nil => exact absurd rfl hne
    | cons c r => rfl
  refine ⟨fun htag => ?_, fun htag => ?_⟩
  · rw [List.mem_singleton.1 htag, State.addTag, if_pos rfl, hfull]
    rfl
  · simp only [Topic.tags, List.mem_cons, List.not_mem_nil, or_false] at htag
    rcases htag with rfl | rfl
    all_goals
      rw [State.addTag, if_neg (by decide), if_neg (by decide), if_pos (by decide), hfull]
      rfl

theorem addTag_returns {tag : Text} (h : tag ∈ Topic.returns.tags) (name text : Text) :
    s.addTag tag text = s.open .returns name text := by
  simp only [Topic.tags, List.mem_cons, List.not_mem_nil, or_false] at h
  rcases h with rfl | rfl
  all_goals
    rw [State.addTag, if_neg (by decide), if_pos (by decide)]
    rfl

/-- A tag about something else closes what was open. -/
theorem addTag_other {tag : Text} (h : ∀ topic : Topic, tag ∉ topic.tags) (name text text' : Text) :
    s.addTag tag text = s.open .other name text' := by
  have hparam := h .param
  have hreturns := h .returns
  have hthrows := h .throws
  simp only [Topic.tags, List.mem_cons, List.not_mem_nil, or_false] at hparam hreturns hthrows
  rw [State.addTag, if_neg hparam, if_neg, if_neg]
  · rfl
  · simpa only [Bool.or_eq_true, decide_eq_true_eq] using hthrows
  · simpa only [Bool.or_eq_true, decide_eq_true_eq] using hreturns

/-- **The line of a tag opens its block**. -/
theorem step_head (h : b.IsLegible) : s.step (starred b.head) = s.open b.topic b.name b.text := by
  rw [State.step, content_starred (isOneLine_head h), tag?_head h]
  show s.addTag b.tag _ = _
  have htag := h.tag
  have hname := h.name
  revert htag hname
  cases b.topic with
  | param =>
    rintro htag ⟨hne, hink⟩
    have hword := firstWord_named hne hink h.text
    rw [(addTag_named (by rw [hword]; exact hne)).1 htag, hword]
  | returns =>
    intro htag hname
    rw [addTag_returns htag b.name, hname, List.filter_cons_of_neg (by simp),
      trim_spaced h.text.trimmed]
  | throws =>
    rintro htag ⟨hne, hink⟩
    have hword := firstWord_named hne hink h.text
    rw [(addTag_named (by rw [hword]; exact hne)).2 htag, hword]
  | other => exact fun htag _ => addTag_other htag.2.2 b.name _ b.text

/-- The state behind a block. -/
def State.add (s : State) (b : Block) : State :=
  s.open b.topic b.name b.said

/-- **A block is read whole**: its lines leave what it says, and nothing else. -/
theorem foldl_block (h : b.IsLegible) : (b.lines.map starred).foldl State.step s = s.add b := by
  rw [Block.lines, List.map_cons, List.foldl_cons, step_head h, foldl_open _ _ _ h.more, foldl_goOn]
  rfl

theorem foldl_blocks {blocks : List Block} (h : ∀ b ∈ blocks, b.IsLegible) :
    ((blocks.flatMap Block.lines).map starred).foldl State.step s = blocks.foldl State.add s := by
  induction blocks generalizing s with
  | nil => rfl
  | cons b blocks ih =>
    obtain ⟨hb, hblocks⟩ := List.forall_mem_cons.1 h
    rw [List.flatMap_cons, List.map_append, List.foldl_append, foldl_block hb, ih hblocks,
      List.foldl_cons]

theorem foldl_text {description : List Text} (hs : s.current = .description)
    (h : ∀ line ∈ description, IsFree line) : (description.map starred).foldl State.step s =
      { s with description := (description.filter (!·.isEmpty)).reverse ++ s.description } := by
  induction description generalizing s with
  | nil => rfl
  | cons line description ih =>
    obtain ⟨hline, hdescription⟩ := List.forall_mem_cons.1 h
    rw [List.map_cons, List.foldl_cons, step_text hs hline]
    have hnext := ih (s := { s with description := [line].filter (!·.isEmpty) ++ s.description }) hs
      hdescription
    rw [hnext]
    cases line <;> simp

/-- What has been read of blocks, topic by topic. -/
structure State.Holds (s t : State) (blocks : List Block) : Prop where
  description : t.description = s.description
  params : t.params =
    ((blocks.filter (·.topic = .param)).map fun b => (b.name, b.said)).reverse ++ s.params
  returns : t.returns = ((blocks.filter (·.topic = .returns)).map Block.said).reverse ++ s.returns
  throws : t.throws =
    ((blocks.filter (·.topic = .throws)).map fun b => (b.name, b.said)).reverse ++ s.throws

/-- **Blocks are kept topic by topic**, each topic in their order. -/
theorem holds_foldl (s : State) (blocks : List Block) :
    s.Holds (blocks.foldl State.add s) blocks := by
  induction blocks generalizing s with
  | nil => exact ⟨rfl, rfl, rfl, rfl⟩
  | cons b blocks ih =>
    obtain ⟨hdescription, hparams, hreturns, hthrows⟩ := ih (s.add b)
    rw [List.foldl_cons]
    obtain ⟨topic, tag, name, text, more⟩ := b
    cases topic <;>
      exact ⟨hdescription, by simpa [State.add, State.open] using hparams,
        by simpa [State.add, State.open] using hreturns,
        by simpa [State.add, State.open] using hthrows⟩

/-! ## Whole comments -/

variable {description : List Text} {blocks : List Block}

/-- The rows of a comment, from behind its opening to before its end. -/
def inner (description : List Text) (blocks : List Block) : List Text :=
  [] :: ((description ++ blocks.flatMap Block.lines).map starred ++ [[' ']])

theorem written_eq (description : List Text) (blocks : List Block) :
    written description blocks =
      "/**".toList ++ (join ['\n'] (inner description blocks) ++ "*/".toList) := by
  rw [inner, ← List.cons_append, ← Text.join_append, List.cons_append, Text.append_join]
  rfl

theorem isOneLine_of_mem_lines (h : b.IsLegible) (hline : line ∈ b.lines) : IsOneLine line := by
  rcases List.mem_cons.1 hline with rfl | hmore
  · exact isOneLine_head h
  · exact (h.more line hmore).toIsOneLine

theorem inner_rows (hdescription : ∀ line ∈ description, IsFree line)
    (hblocks : ∀ b ∈ blocks, b.IsLegible) : ∀ row ∈ inner description blocks, '\n' ∉ row := by
  have hlines : ∀ line ∈ description ++ blocks.flatMap Block.lines, '\n' ∉ line := by
    intro line hline
    rcases List.mem_append.1 hline with hline | hline
    · exact (hdescription line hline).line
    · obtain ⟨b, hb, hline⟩ := List.mem_flatMap.1 hline
      exact (isOneLine_of_mem_lines (hblocks b hb) hline).line
  intro row hrow
  rcases List.mem_cons.1 hrow with rfl | hrow
  · exact List.not_mem_nil
  · rcases List.mem_append.1 hrow with hrow | hrow
    · obtain ⟨line, hline, rfl⟩ := List.mem_map.1 hrow
      simpa [starred] using hlines line hline
    · rw [List.mem_singleton.1 hrow]
      decide

/-- What is left of a comment when its lines have been read. -/
theorem finish_foldl_inner (hdescription : ∀ line ∈ description, IsFree line)
    (hblocks : ∀ b ∈ blocks, b.IsLegible) :
    ((inner description blocks).foldl State.step .initial).finish =
      documentation description blocks := by
  have hempty : ∀ s : State, s.step [] = s ∧ s.step [' '] = s := fun _ => ⟨rfl, rfl⟩
  rw [inner, List.foldl_cons, (hempty _).1, List.foldl_append, List.foldl_cons, List.foldl_nil,
    (hempty _).2, List.map_append, List.foldl_append, foldl_text rfl hdescription,
    foldl_blocks hblocks]
  obtain ⟨hdesc, hparams, hreturns, hthrows⟩ := holds_foldl
    { State.initial with
      description := (description.filter (!·.isEmpty)).reverse ++ State.initial.description } blocks
  rw [State.finish, hdesc, hparams, hreturns, hthrows, documentation, points, points]
  simp [State.initial, Function.comp_def]

theorem read_body {u body rest : Text} (h : Text.cutAtLast? ['*', '/'] u = some (body, rest)) :
    Comment.read .java ("/**".toList ++ u) =
      .ok ((Text.lines body).foldl State.step .initial).finish := by
  have hread : Comment.read .java ("/**".toList ++ u) = Javadoc.read ("/**".toList ++ u) := rfl
  have hcut : Text.cutAt? ['/', '*', '*'] ("/**".toList ++ u) = some ([], u) := rfl
  rw [hread, Javadoc.read, hcut]
  simp only [h]

/-- What is read of a comment is what it was written from. -/
theorem read_eq_documentation (hdescription : ∀ line ∈ description, IsFree line)
    (hblocks : ∀ b ∈ blocks, b.IsLegible) :
    Comment.read .java (written description blocks) = .ok (documentation description blocks) := by
  have hend : Text.cutAtLast? ['*', '/'] (join ['\n'] (inner description blocks) ++ "*/".toList) =
      some (join ['\n'] (inner description blocks), []) := Text.cutAtLast?_end (by decide) _
  have hsplit : Text.splitWhere (· == '\n') (join ['\n'] (inner description blocks)) =
      inner description blocks :=
    Text.splitWhere_join (List.cons_ne_nil _ _) (inner_rows hdescription hblocks)
  have hrows :
      ((Text.lines (join ['\n'] (inner description blocks))).foldl State.step .initial).finish =
        ((inner description blocks).foldl State.step .initial).finish := by
    refine (Text.foldl_lines State.step_trimEnd (fun _ => rfl) _ _).trans ?_
    rw [hsplit]
  rw [written_eq, read_body hend, hrows, finish_foldl_inner hdescription hblocks]

/-- **A written comment is read back**: the reader finds the lines of the description and one point
for each block of a topic, with what the block says on all of its lines. Blocks of different topics
may stand in any order among each other, and with any blocks about something else between them. -/
theorem read_written (hdescription : ∀ line ∈ description, IsFree line)
    (hblocks : ∀ b ∈ blocks, b.IsLegible) :
    Comment.read .java (written description blocks) = .ok (documentation description blocks) ∧
      ∀ blocks' : List Block, (∀ b ∈ blocks', b.IsLegible) →
        (∀ topic ≠ .other, blocks'.filter (·.topic = topic) = blocks.filter (·.topic = topic)) →
        Comment.read .java (written description blocks') =
          Comment.read .java (written description blocks) := by
  refine ⟨read_eq_documentation hdescription hblocks, fun blocks' hblocks' hsame => ?_⟩
  rw [read_eq_documentation hdescription hblocks', read_eq_documentation hdescription hblocks]
  simp only [documentation, points, hsame .param (by decide), hsame .returns (by decide),
    hsame .throws (by decide)]

/-- The blocks of a sum, with a block about something else between those of its parameters. -/
def sumBlocks : List Block :=
  [ ⟨.param, "param".toList, "a".toList, "the first operand".toList, []⟩,
    ⟨.other, "since".toList, [], "1.2".toList, ["and later".toList]⟩,
    ⟨.throws, "exception".toList, "ArithmeticException".toList, "on overflow".toList, []⟩,
    ⟨.param, "param".toList, "b".toList, [], ["the second operand,".toList, "if any".toList]⟩,
    ⟨.returns, "return".toList, [], "the sum".toList, []⟩ ]

theorem isLegible_sumBlocks : ∀ b ∈ sumBlocks, b.IsLegible := by
  intro b hb
  simp only [sumBlocks, List.mem_cons, List.not_mem_nil, or_false] at hb
  rcases hb with rfl | rfl | rfl | rfl | rfl
  · exact ⟨.head _, by decide, ⟨by decide, by decide⟩, by decide⟩
  · refine ⟨⟨by decide, by decide, fun topic => ?_⟩, by decide, ⟨by decide, by decide⟩, by decide⟩
    cases topic <;> decide
  · exact ⟨.tail _ (.head _), by decide, ⟨by decide, by decide⟩, by decide⟩
  · exact ⟨.head _, by decide, ⟨by decide, by decide⟩, by decide⟩
  · exact ⟨.head _, by decide, ⟨by decide, by decide⟩, by decide⟩

/-- The blocks of the sum, grouped by topic. -/
def groupedSumBlocks : List Block :=
  [.throws, .returns, .param].flatMap fun topic => sumBlocks.filter (·.topic = topic)

/-- A comment on a sum is read back, and its blocks may as well stand grouped. -/
theorem read_written_sumBlocks :
    written ["Adds.".toList] sumBlocks =
      join ['\n'] (["/**", " * Adds.", " * @param a the first operand", " * @since 1.2",
        " * and later", " * @exception ArithmeticException on overflow", " * @param b", " * the second operand,",
        " * if any", " * @return the sum", " */"].map (·.toList)) ∧
    Comment.read .java (written ["Adds.".toList] sumBlocks) =
      .ok [.bold "Description:".toList, .text "Adds.".toList, .bold "Arguments:".toList,
        .bullet "a. the first operand".toList, .bullet "b. the second operand, if any".toList,
        .bold "Return:".toList, .bullet "the sum".toList, .bold "Exceptions:".toList,
        .bullet "ArithmeticException. on overflow".toList] ∧
    Comment.read .java (written ["Adds.".toList] groupedSumBlocks) =
      Comment.read .java (written ["Adds.".toList] sumBlocks) := by
  obtain ⟨hread, hgrouped⟩ := @read_written ["Adds.".toList] sumBlocks (by decide) isLegible_sumBlocks
  refine ⟨by decide +kernel, ?_, hgrouped _ (fun b hb => ?_) fun topic htopic => ?_⟩
  · rw [hread]
    decide
  · obtain ⟨topic, -, hb⟩ := List.mem_flatMap.1 hb
    exact isLegible_sumBlocks b (List.mem_filter.1 hb).1
  · cases topic with
    | other => exact absurd rfl htopic
    | param => decide
    | returns => decide
    | throws => decide

/-- An empty line is no line of the description, and leaves no trace between two others. -/
theorem not_read_joined :
    ¬ ∀ description : List Text, (∀ line ∈ description, IsFree line) →
      Comment.read .java (written description []) =
        .ok (sections [("Description:".toList, descriptionLines description)]) := by
  intro h
  exact absurd (h ["a".toList, [], "b".toList] (by decide)) (by decide +kernel)

end Scholia.Comment.Javadoc
