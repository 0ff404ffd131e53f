import Scholia.Proofs.Text.Join
import Scholia.Reply.Acceptance
/-!
# Code blocks as they are fenced

A block is told from the text around it by rules that do not mention the scan: a fence, a tag, blanks
and a line end, a body, and the next fence. The scan for a block at one place is exact
(`blockAt?_eq_some_iff`), and so is the search for the first place (`firstBlock?_eq_none_iff`). Main
statement: **code between fences survives** (`codeBlock_fenced`), whatever prose stands before it and
whatever follows it, as long as neither the prose nor the code holds a fence. Prose or code that ends
with one backtick or two does no harm, for a fence that begins there is followed by a backtick and
opens no block, and the line feed behind the code keeps its backticks from the fence.
-/

namespace Scholia.Reply

open Text (IsFirst cutAt? dropLead? isIndent isLineEnd trimEndWhere)

/-! ## Blocks -/

/-- What stands between a fence and the body of its block: the tag, blanks and a line end. -/
def IsHead (tag head : Text) : Prop :=
  ∃ gap lineEnd, head = tag ++ (gap ++ lineEnd) ∧ (∀ c ∈ tag, isTagChar c = true) ∧
    (∀ c ∈ gap, isIndent c = true) ∧ (lineEnd = ['\n'] ∨ lineEnd = ['\r', '\n'])

/-- A text that begins with a block of this tag and body. -/
def Begins (tag body s : Text) : Prop :=
  ∃ head rest, IsHead tag head ∧ s = fence ++ (head ++ (body ++ (fence ++ rest)))

/-- Whether there is a block in a reply. -/
def HasBlock (reply : Text) : Prop :=
  ∃ prose s tag body, reply = prose ++ s ∧ Begins tag body s

variable {tag body code prose s head u : Text}

theorem afterLineEnd?_eq_some_iff : afterLineEnd? s = some u ↔
    ∃ lineEnd, (lineEnd = ['\n'] ∨ lineEnd = ['\r', '\n']) ∧ s = lineEnd ++ u := by
  constructor
  · intro h
    unfold afterLineEnd? at h
    split at h
    · cases h
      exact ⟨_, .inl rfl, rfl⟩
    · cases h
      exact ⟨_, .inr rfl, rfl⟩
    · cases h
  · rintro ⟨lineEnd, rfl | rfl, rfl⟩ <;> rfl

/-- A character that blanks are made of is no part of a tag. -/
theorem isTagChar_of_isIndent {c : Char} (h : isIndent c = true) : isTagChar c = false := by
  simp only [isIndent, Bool.or_eq_true, beq_iff_eq] at h
  rcases h with rfl | rfl <;> decide

/-- **The head of a block is told from what follows it**. -/
theorem isHead_iff : (∃ head, IsHead tag head ∧ s = head ++ u) ↔
    s.takeWhile isTagChar = tag ∧
      afterLineEnd? ((s.dropWhile isTagChar).dropWhile isIndent) = some u := by
  constructor
  · rintro ⟨head, ⟨gap, lineEnd, rfl, htag, hgap, hend⟩, rfl⟩
    have hstop : ∀ u : Text, (lineEnd ++ u).takeWhile isTagChar = [] ∧
        (lineEnd ++ u).dropWhile isTagChar = lineEnd ++ u ∧
        (lineEnd ++ u).dropWhile isIndent = lineEnd ++ u ∧ afterLineEnd? (lineEnd ++ u) = some u := by
      rcases hend with rfl | rfl <;> exact fun u => ⟨rfl, rfl, rfl, rfl⟩
    obtain ⟨htake, hdrop, hindent, hafter⟩ := hstop u
    have hgaptake : (gap ++ (lineEnd ++ u)).takeWhile isTagChar = [] ∧
        (gap ++ (lineEnd ++ u)).dropWhile isTagChar = gap ++ (lineEnd ++ u) := by
      cases gap with
      | nil => exact ⟨htake, hdrop⟩
      | cons c gap =>
        have hc := isTagChar_of_isIndent (hgap c List.mem_cons_self)
        exact ⟨List.takeWhile_cons_of_neg (by simp [hc]), List.dropWhile_cons_of_neg (by simp [hc])⟩
    rw [List.append_assoc, List.append_assoc, List.takeWhile_append_of_pos htag,
      List.dropWhile_append_of_pos htag, hgaptake.1, hgaptake.2, List.dropWhile_append_of_pos hgap,
      hindent, List.append_nil]
    exact ⟨rfl, hafter⟩
  · rintro ⟨rfl, hafter⟩
    obtain ⟨lineEnd, hend, hrest⟩ := afterLineEnd?_eq_some_iff.1 hafter
    refine ⟨_, ⟨(s.dropWhile isTagChar).takeWhile isIndent, lineEnd, rfl, ?_, ?_, hend⟩, ?_⟩
    · exact fun c hc => List.mem_takeWhile_imp hc
    · exact fun c hc => List.mem_takeWhile_imp hc
    · rw [List.append_assoc, List.append_assoc, ← hrest, List.takeWhile_append_dropWhile,
        List.takeWhile_append_dropWhile]

/-- **A block is found at a place exactly if one begins there**, and its body ends at the first fence
behind its head. -/
theorem blockAt?_eq_some_iff :
    blockAt? s = some (tag, body) ↔ IsFirst fence body ∧ Begins tag body s := by
  constructor
  · intro h
    simp only [blockAt?, Option.bind_eq_bind, Option.bind_eq_some_iff, Prod.exists,
      Option.pure_def, Option.some.injEq, Prod.mk.injEq] at h
    obtain ⟨t, hlead, v, hafter, b, rest, hcut, htag, rfl⟩ := h
    obtain ⟨rfl, hfirst⟩ := Text.cutAt?_eq_some_iff.1 hcut
    obtain ⟨head, hhead, rfl⟩ := isHead_iff.2 ⟨htag, hafter⟩
    exact ⟨hfirst, head, rest, hhead, Text.dropLead?_eq_some_iff.1 hlead⟩
  · rintro ⟨hfirst, head, rest, hhead, rfl⟩
    obtain ⟨htake, hafter⟩ :=
      (isHead_iff (u := body ++ (fence ++ rest))).1 ⟨head, hhead, rfl⟩
    have hlead : dropLead? fence (fence ++ (head ++ (body ++ (fence ++ rest)))) =
        some (head ++ (body ++ (fence ++ rest))) := Text.dropLead?_eq_some_iff.2 rfl
    have hcut : cutAt? fence (body ++ (fence ++ rest)) = some (body, rest) :=
      Text.cutAt?_eq_some_iff.2 ⟨rfl, hfirst⟩
    simp only [blockAt?, hlead, hafter, hcut, htake, Option.bind_eq_bind, Option.bind_some,
      Option.pure_def]

/-- A block that begins somewhere is found there, if only with a shorter body. -/
theorem Begins.isSome (h : Begins tag body s) : (blockAt? s).isSome = true := by
  obtain ⟨head, rest, hhead, rfl⟩ := h
  have hfence : fence <:+: body ++ (fence ++ rest) := ⟨body, rest, List.append_assoc ..⟩
  obtain ⟨⟨first, after⟩, hcut⟩ := Option.isSome_iff_exists.1 (Text.holds_iff_isInfix.2 hfence)
  obtain ⟨he, hfirst⟩ := Text.cutAt?_eq_some_iff.1 hcut
  rw [he, blockAt?_eq_some_iff.2 ⟨hfirst, head, after, hhead, rfl⟩]
  rfl

/-- **No block is found exactly if there is none**. -/
theorem firstBlock?_eq_none_iff : firstBlock? s = none ↔ ¬ HasBlock s := by
  have hnil : ∀ {tag body : Text}, ¬ Begins tag body [] := by
    rintro tag body ⟨head, rest, -, he⟩
    cases he
  induction s with
  | nil =>
    refine iff_of_true rfl ?_
    rintro ⟨prose, t, tag, body, he, hbegins⟩
    rw [(List.append_eq_nil_iff.1 he.symm).2] at hbegins
    exact hnil hbegins
  | cons c r ih =>
    rw [firstBlock?, Option.or_eq_none_iff]
    constructor
    · rintro ⟨hhere, hthere⟩ ⟨prose, t, tag, body, he, hbegins⟩
      cases prose with
      | nil =>
        have hsome := hbegins.isSome
        rw [← (show c :: r = t from he), hhere] at hsome
        cases hsome
      | cons d prose => exact ih.1 hthere ⟨prose, t, tag, body, (List.cons.inj he).2, hbegins⟩
    · intro h
      constructor
      · cases hblock : blockAt? (c :: r) with
        | none => rfl
        | some block =>
          exact absurd ⟨[], c :: r, block.1, block.2, rfl, (blockAt?_eq_some_iff.1 hblock).2⟩ h
      · refine ih.2 fun ⟨prose, t, tag, body, he, hbegins⟩ => h ?_
        exact ⟨c :: prose, t, tag, body, congrArg (c :: ·) he, hbegins⟩

/-! ## Prose before a block -/

theorem IsHead.head?_ne (h : IsHead tag head) : ∀ u : Text, (head ++ u).head? ≠ some '`' := by
  obtain ⟨gap, lineEnd, rfl, htag, hgap, hend⟩ := h
  intro u hu
  cases tag with
  | cons c tag =>
    obtain rfl : c = '`' := Option.some.inj hu
    exact absurd (htag '`' List.mem_cons_self) (by decide)
  | nil =>
    cases gap with
    | cons c gap =>
      obtain rfl : c = '`' := Option.some.inj hu
      exact absurd (hgap '`' List.mem_cons_self) (by decide)
    | nil => rcases hend with rfl | rfl <;> cases hu

/-- **No block begins in prose**: three backticks that begin there and reach into the fence behind it
are followed by one more. -/
theorem blockAt?_prose (hprose : ¬ fence <:+: prose) (hne : prose ≠ []) (u : Text) :
    blockAt? (prose ++ (fence ++ u)) = none := by
  rw [Option.eq_none_iff_forall_ne_some]
  rintro ⟨tag, body⟩ hblock
  obtain ⟨-, head, rest, hhead, he⟩ := blockAt?_eq_some_iff.1 hblock
  have htick := hhead.head?_ne (body ++ (fence ++ rest))
  match prose, hne with
  | [a], _ =>
    have hrest : '`' :: u = head ++ (body ++ (fence ++ rest)) :=
      (List.append_inj (show [a, '`', '`'] ++ _ = fence ++ _ from he) rfl).2
    exact htick (hrest ▸ rfl)
  | [a, b], _ =>
    have hrest : '`' :: '`' :: u = head ++ (body ++ (fence ++ rest)) :=
      (List.append_inj (show [a, b, '`'] ++ _ = fence ++ _ from he) rfl).2
    exact htick (hrest ▸ rfl)
  | a :: b :: c :: more, _ =>
    have hfence : [a, b, c] = fence :=
      (List.append_inj (show [a, b, c] ++ (more ++ _) = fence ++ _ from he) rfl).1
    exact hprose ⟨[], more, congrArg (· ++ more) hfence.symm⟩

theorem firstBlock?_prose (hprose : ¬ fence <:+: prose) (u : Text) :
    firstBlock? (prose ++ (fence ++ u)) = firstBlock? (fence ++ u) := by
  induction prose with
  | nil => rfl
  | cons c prose ih =>
    have hrest : ¬ fence <:+: prose := fun h => hprose (List.infix_cons h)
    have hnone := blockAt?_prose hprose (List.cons_ne_nil c prose) u
    rw [List.cons_append] at hnone ⊢
    rw [firstBlock?, hnone, Option.none_or, ih hrest]

/-- The line feed behind code keeps backticks at its end from the fence. -/
theorem isFirst_code (hcode : ¬ fence <:+: code) : IsFirst fence (code ++ ['\n']) := by
  have hnone : cutAt? fence code = none := by
    rw [← Option.not_isSome_iff_eq_none]
    exact fun h => hcode (Text.holds_iff_isInfix.1 h)
  have hcut : cutAt? fence (code ++ '\n' :: (fence ++ [])) = some (code ++ ['\n'], []) := by
    rw [Text.cutAt?_append (by decide) (by decide), hnone]
    rfl
  exact (Text.cutAt?_eq_some_iff.1 hcut).2

/-- **The first block of a reply** with prose before it. -/
theorem firstBlock?_fenced (hprose : ¬ fence <:+: prose) (htag : ∀ c ∈ tag, isTagChar c = true)
    (hcode : ¬ fence <:+: code) (suffix : Text) :
    firstBlock? (prose ++ (fence ++ (tag ++ '\n' :: (code ++ '\n' :: (fence ++ suffix))))) =
      some (tag, code ++ ['\n']) := by
  have hblock : blockAt? (fence ++ (tag ++ '\n' :: (code ++ '\n' :: (fence ++ suffix)))) =
      some (tag, code ++ ['\n']) := by
    refine blockAt?_eq_some_iff.2 ⟨isFirst_code hcode, tag ++ ['\n'], suffix, ?_, ?_⟩
    · exact ⟨[], ['\n'], rfl, htag, fun c hc => absurd hc List.not_mem_nil, .inl rfl⟩
    · simp
  rw [firstBlock?_prose hprose]
  change firstBlock? ('`' :: _) = _
  rw [firstBlock?]
  exact congrArg (Option.or · _) hblock

/-! ## Code -/

/-- Code without the line ends at its end. -/
def bare (code : Text) : Text :=
  trimEndWhere isLineEnd code

def firstLine (s : Text) : Text :=
  s.takeWhile (· ≠ '\n')

/-- The text behind the first line. -/
def otherLines (s : Text) : Text :=
  (s.dropWhile (· ≠ '\n')).tail

theorem cutAt?_newline (s : Text) :
    (cutAt? ['\n'] s).getD (s, []) = (firstLine s, otherLines s) := by
  have hplain : ∀ {a : Text}, '\n' ∉ a → ∀ c ∈ a, decide (c ≠ '\n') = true := fun ha c hc =>
    decide_eq_true fun he => ha (he ▸ hc)
  by_cases hs : '\n' ∈ s
  · obtain ⟨a, b, rfl, ha⟩ := List.eq_append_cons_of_mem hs
    have hcut : cutAt? ['\n'] (a ++ '\n' :: b) = some (a, b) := Text.cutAt?_of_not_mem ha [] b
    rw [hcut, firstLine, otherLines, List.takeWhile_append_of_pos (hplain ha),
      List.dropWhile_append_of_pos (hplain ha)]
    simp
  · have hcut : cutAt? ['\n'] s = none := by
      rw [← Option.not_isSome_iff_eq_none]
      intro hsome
      exact hs ((Text.holds_iff_isInfix.1 hsome).subset (List.mem_singleton_self '\n'))
    have htake : s.takeWhile (· ≠ '\n') = s := List.takeWhile_eq_self_iff.2 (hplain hs)
    have hdrop : s.dropWhile (· ≠ '\n') = [] := List.dropWhile_eq_nil_iff.2 (hplain hs)
    rw [hcut, firstLine, otherLines, htake, hdrop]
    rfl

/-- Whether a line looks like code. -/
def Hints (line : Text) : Prop :=
  ∃ word ∈ codeWords, word <:+: line

theorem looksLikeCode_iff {line : Text} : looksLikeCode line = true ↔ Hints line := by
  simp only [looksLikeCode, List.any_eq_true, Text.holds_iff_isInfix, Hints]

theorem bare_newline (code : Text) : bare (code ++ ['\n']) = bare code := by
  simp [bare, trimEndWhere, isLineEnd]

/-- The block of code that a line feed has been put behind. -/
theorem of_code (tag code : Text) : CodeBlock.of tag (code ++ ['\n']) =
    { declaredLanguage := if tag.isEmpty then none else some tag
      code :=
        if tag.isEmpty && !looksLikeCode (firstLine (bare code)) then otherLines (bare code)
        else bare code
      description := trimEndWhere (· == '\r') (firstLine (bare code)) } := by
  have hbare : trimEndWhere isLineEnd (code ++ ['\n']) = bare code := bare_newline code
  simp only [CodeBlock.of, hbare, cutAt?_newline]

/-- **Code between fences survives**. The tag is the declared language, and all of the code is
returned but the line ends behind it; without a tag, a first line that does not look like code is
taken for prose. A reply without a block is refused, and no other. -/
theorem codeBlock_fenced (context : Context) (hprose : ¬ fence <:+: prose)
    (htag : ∀ c ∈ tag, isTagChar c = true) (hcode : ¬ fence <:+: code) (suffix : Text) :
    (∃ block, codeBlock context
        (prose ++ (fence ++ (tag ++ '\n' :: (code ++ '\n' :: (fence ++ suffix))))) = .ok block ∧
      block.declaredLanguage = (if tag = [] then none else some tag) ∧
      (tag ≠ [] ∨ Hints (firstLine (bare code)) → block.code = bare code) ∧
      (¬ (tag ≠ [] ∨ Hints (firstLine (bare code))) → block.code = otherLines (bare code)) ∧
      block.description = trimEndWhere (· == '\r') (firstLine (bare code))) ∧
    ∀ reply, codeBlock context reply = .error (.noCodeBlock context) ↔ ¬ HasBlock reply := by
  refine ⟨⟨.of tag (code ++ ['\n']), ?_, ?_⟩, fun reply => ?_⟩
  · rw [codeBlock, CodeBlock.ofReply?, firstBlock?_fenced hprose htag hcode]
    rfl
  · rw [of_code]
    refine ⟨by cases tag <;> rfl, fun hkept => if_neg ?_, fun hdropped => if_pos ?_, rfl⟩
    · rw [Bool.and_eq_true, List.isEmpty_iff, Bool.not_eq_true', ← Bool.not_eq_true,
        looksLikeCode_iff]
      exact fun ⟨hnil, hplain⟩ => hkept.elim (· hnil) hplain
    · obtain ⟨htag, hplain⟩ := not_or.1 hdropped
      rw [Bool.and_eq_true, List.isEmpty_iff, Bool.not_eq_true', ← Bool.not_eq_true,
        looksLikeCode_iff]
      exact ⟨not_not.1 htag, hplain⟩
  · rw [← firstBlock?_eq_none_iff, codeBlock, CodeBlock.ofReply?]
    cases firstBlock? reply <;> simp

/-- Prose and code that end with two backticks, in a block without a tag. -/
theorem codeBlock_fenced_ticks :
    (¬ fence <:+: "``".toList ∧ (∀ c ∈ ([] : Text), isTagChar c = true) ∧
      ¬ fence <:+: "Set\r\ny = ``\r\n".toList) ∧
    codeBlock .routine "`````\nSet\r\ny = ``\r\n\n```\n```java\nz\n```".toList =
      .ok ⟨none, "y = ``".toList, "Set".toList⟩ ∧
    codeBlock .routine "```java int x;```".toList = .error (.noCodeBlock .routine) := by
  have hplain : ∀ {s : Text}, Text.holds fence s = false → ¬ fence <:+: s := fun hs hpart =>
    Bool.false_ne_true (hs.symm.trans (Text.holds_iff_isInfix.2 hpart))
  have hprose : ¬ fence <:+: "``".toList := hplain (by decide)
  have htag : ∀ c ∈ ([] : Text), isTagChar c = true := by decide
  have hcode : ¬ fence <:+: "Set\r\ny = ``\r\n".toList := hplain (by decide)
  have hprosaic : ¬ Hints (firstLine (bare "Set\r\ny = ``\r\n".toList)) := by
    rw [← looksLikeCode_iff]
    decide
  obtain ⟨⟨block, hblock, hlanguage, -, hdropped, hdescription⟩, hnone⟩ :=
    codeBlock_fenced .routine hprose htag hcode "\n```java\nz\n```".toList
  refine ⟨⟨hprose, htag, hcode⟩, hblock.trans (congrArg _ ?_), (hnone _).2 ?_⟩
  · have hcode := hdropped (not_or.2 ⟨not_not.2 rfl, hprosaic⟩)
    cases block
    simp only [CodeBlock.mk.injEq]
    exact ⟨hlanguage, hcode, hdescription⟩
  · rw [← firstBlock?_eq_none_iff]
    decide

end Scholia.Reply
