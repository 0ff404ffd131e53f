import Mathlib.Data.Option.Basic
import Scholia.Proofs.Source.Braced.Annotations
import Scholia.Proofs.Source.Braced.Members
/-!
# Methods

A method is its modifiers, its type, its name, type parameters, parameters, constraints and a body. Its
header is read by words and brackets, not by this grammar: the name is the last word before the first
parenthesis, up to an angle bracket. So a method is read as a routine of its name exactly if its header
is *legible* (`Method.ofText_iff_legible`): the words before the name are no declaration, no
parenthesis stands before the parameters, the name ends the last word, and behind the parenthesis that
closes the parameters in the raw text follows a clause or nothing.
-/

namespace Scholia.Source.Braced

open Text (ClosesOff)

/-! ## What a header declares -/

/-- Whether a text may follow the parameters of a routine is told by its first word. -/
theorem isRoutineTail_trim_iff {tail : Text} : isRoutineTail (Text.trim tail) = true ↔
    Text.words tail = [] ∨ ∃ w ws, Text.words tail = w :: ws ∧
      ("throws".toList <+: w ∨ "where".toList <+: w ∨ [':'] <+: w) := by
  have hprefix : ∀ p : Text, p ≠ [] → (∀ c ∈ p, Text.isBlank c = false) →
      (p.isPrefixOf (Text.trim tail) = true ↔ ∃ w ws, Text.words tail = w :: ws ∧ p <+: w) :=
    fun p hne hp => List.isPrefixOf_iff_prefix.trans (Text.prefix_trim_iff hne hp)
  have hempty : (Text.trim tail).isEmpty = true ↔ Text.words tail = [] := by
    rw [List.isEmpty_iff]
    refine ⟨fun h => ?_, Text.trim_of_words_eq_nil⟩
    cases hwords : Text.words tail with
    | nil => rfl
    | cons w ws =>
      have hw := Text.takeWhile_trim_of_words hwords
      rw [h] at hw
      have hmem : w ∈ Text.words tail := hwords ▸ List.mem_cons_self
      exact absurd (List.mem_filter.1 hmem).2 (by simp [← hw])
  rw [isRoutineTail, Bool.or_eq_true, Bool.or_eq_true, Bool.or_eq_true, hempty,
    hprefix _ (by decide) (by decide), hprefix _ (by decide) (by decide),
    hprefix _ (by decide) (by decide)]
  constructor
  · rintro (((h | ⟨w, ws, h, hw⟩) | ⟨w, ws, h, hw⟩) | ⟨w, ws, h, hw⟩)
    · exact .inl h
    · exact .inr ⟨w, ws, h, .inl hw⟩
    · exact .inr ⟨w, ws, h, .inr (.inl hw)⟩
    · exact .inr ⟨w, ws, h, .inr (.inr hw)⟩
  · rintro (h | ⟨w, ws, h, hw | hw | hw⟩)
    · exact .inl (.inl (.inl h))
    · exact .inl (.inl (.inr ⟨w, ws, h, hw⟩))
    · exact .inl (.inr ⟨w, ws, h, hw⟩)
    · exact .inr ⟨w, ws, h, hw⟩

/-- The parenthesis that closes one that is open is found, and behind it a clause follows or nothing. -/
def ClosesBefore (list : Text) : Prop :=
  ∃ tail, Text.afterParen? 1 list = some tail ∧ isRoutineTail (Text.trim tail) = true

theorem ClosesBefore.of_words {list list' : Text} (h : ClosesBefore list)
    (hwords : Text.words list = Text.words list') : ClosesBefore list' := by
  obtain ⟨tail, htail, hend⟩ := h
  obtain ⟨tail', htail', he⟩ := Text.exists_afterParen? hwords htail
  refine ⟨tail', htail', ?_⟩
  rw [isRoutineTail_trim_iff] at hend ⊢
  rwa [he]

/-- What stands before the first parenthesis of a header and behind it, by which the header is read as a
routine of a name. -/
structure ReadsRoutine (before list name : Text) : Prop where
  noType : typeName? (Text.words before) = none
  words : ∀ w ∈ Text.words before, w ≠ "namespace".toList ∧ w ≠ "new".toList
  last : (Text.words before).getLast?.map declaredName = some name
  name : isRoutineName name = true
  list : ClosesBefore list

theorem ReadsRoutine.of_words {before before' list list' name : Text}
    (h : ReadsRoutine before list name) (hbefore : Text.words before = Text.words before')
    (hlist : Text.words list = Text.words list') : ReadsRoutine before' list' name where
  noType := hbefore ▸ h.noType
  words := hbefore ▸ h.words
  last := hbefore ▸ h.last
  name := h.name
  list := h.list.of_words hlist

theorem takeWhile_before {before : Text} (hparen : '(' ∉ before) (list : Text) :
    (before ++ '(' :: list).takeWhile (· != '(') = before := by
  rw [Text.takeWhile_stop (by decide)]
  refine List.takeWhile_eq_self_iff.2 fun c hc => bne_iff_ne.2 ?_
  rintro rfl
  exact hparen hc

/-- The name in a signature, where nothing is assigned before the first parenthesis. -/
theorem routineName?_eq_some_iff {before list : Text} (name : Text) (hparen : '(' ∉ before)
    (hequals : '=' ∉ before) (hminus : '-' ∉ before) :
    routineName? (before ++ '(' :: list) = some name ↔ "new".toList ∉ Text.words before ∧
      (Text.words before).getLast?.map declaredName = some name ∧ isRoutineName name = true ∧
      ClosesBefore list := by
  have harrow : Text.holds ['-', '>'] before = false := by
    cases hh : Text.holds ['-', '>'] before with
    | false => rfl
    | true =>
      obtain ⟨⟨a, b⟩, hcut⟩ := Option.isSome_iff_exists.1 hh
      exact absurd (by rw [Text.eq_of_cutAt? hcut]; simp) hminus
  have hassign : before.contains '=' = false := by simpa using hequals
  unfold routineName? ClosesBefore
  rw [takeWhile_before hparen]
  dsimp only
  rw [List.drop_left, Text.afterParen?_open, hassign, harrow]
  simp only [Option.bind_eq_bind, Option.bind_eq_some_iff, Option.guard_eq_some', Option.map_eq_some_iff]
  constructor
  · rintro ⟨tail, htail, -, hend, -, -, -, hnew, word, hword, -, hname, he⟩
    obtain rfl := Option.some.inj he
    exact ⟨by simpa using hnew, ⟨word, hword, rfl⟩, hname, tail, htail, hend⟩
  · rintro ⟨hnew, ⟨word, hword, rfl⟩, hname, tail, htail, hend⟩
    exact ⟨tail, htail, (), hend, (), rfl, (), by simpa using hnew, word, hword, (), hname, rfl⟩

/-- A header declares a routine if no word before the first parenthesis of its signature declares
something else, and the signature names one. -/
theorem ofText_eq_routine_iff {header signature name : Text}
    (hsignature : Text.collapse (stripAnnotations true header) = signature) (hne : signature ≠ []) :
    (∃ signature, Header.ofText true header = .routine name signature) ↔
      typeName? (Text.words (signature.takeWhile (· != '('))) = none ∧
        "namespace".toList ∉ Text.words (signature.takeWhile (· != '(')) ∧
        routineName? signature = some name := by
  have hempty : signature.isEmpty = false := List.isEmpty_eq_false_iff.2 hne
  unfold Header.ofText
  rw [hsignature]
  dsimp only
  rw [hempty, if_neg (by decide), List.contains_eq_mem]
  cases typeName? (Text.words (signature.takeWhile (· != '('))) with
  | some name' => exact ⟨fun ⟨_, he⟩ => (nomatch he), fun h => (nomatch h.1)⟩
  | none =>
    dsimp only
    by_cases hmem : "namespace".toList ∈ Text.words (signature.takeWhile (· != '('))
    · rw [if_pos (decide_eq_true hmem)]
      exact ⟨fun ⟨_, he⟩ => (nomatch he), fun h => absurd hmem h.2.1⟩
    · rw [if_neg (mt of_decide_eq_true hmem)]
      cases routineName? signature with
      | none => exact ⟨fun ⟨_, he⟩ => (nomatch he), fun h => (nomatch h.2.2)⟩
      | some name' =>
        constructor
        · rintro ⟨_, he⟩
          cases he
          exact ⟨rfl, hmem, rfl⟩
        · rintro ⟨-, -, he⟩
          cases he
          exact ⟨_, rfl⟩

/-- **A header is read as a routine of a name** exactly if the words before its first parenthesis and
what follows it say so. -/
theorem ofText_routine_iff (name : Text) {header before list : Text}
    (hstrip : stripAnnotations true header = before ++ '(' :: list) (hparen : '(' ∉ before)
    (hequals : '=' ∉ before) (hminus : '-' ∉ before) :
    (∃ signature, Header.ofText true header = .routine name signature) ↔
      ReadsRoutine before list name := by
  -- on one line the header is cut at the same parenthesis
  obtain ⟨before', list', hcut, hbefore, hlist⟩ := Text.words_cut (c := '(') (by decide)
    (Text.words_collapse (before ++ '(' :: list)).symm
  have habsent : ∀ d : Char, Text.isBlank d = false → d ∉ before → d ∉ before' := fun d hd hmem =>
    mt (Text.mem_of_words hd hbefore).1 hmem
  have hparen' : '(' ∉ before' := habsent _ (by decide) hparen
  rw [ofText_eq_routine_iff (hstrip ▸ hcut) (by simp), takeWhile_before hparen', hbefore,
    routineName?_eq_some_iff name hparen' (habsent _ (by decide) hequals)
      (habsent _ (by decide) hminus), hbefore]
  constructor
  · rintro ⟨htype, hnamespace, hnew, hlast, hname, hlist'⟩
    refine ⟨htype, fun w hw => ⟨?_, ?_⟩, hlast, hname, hlist'.of_words hlist⟩
    · rintro rfl
      exact hnamespace hw
    · rintro rfl
      exact hnew hw
  · intro h
    exact ⟨h.noType, fun hmem => (h.words _ hmem).1 rfl, fun hmem => (h.words _ hmem).2 rfl, h.last,
      h.name, h.list.of_words hlist.symm⟩

/-- A word behind words that declare no type names none. -/
theorem typeName?_eq_none {front : List Text} (word : Text) (h : ∀ w ∈ front, w ∉ typeWords) :
    typeName? (front ++ [word]) = none := by
  have hnone : ((front ++ [word]).dropWhile (!typeWords.contains ·)).drop 1 = [] := by
    rw [List.dropWhile_append_of_pos fun w hw => by simpa using h w hw]
    rw [List.dropWhile_cons]
    split <;> rfl
  rw [typeName?, hnone]
  rfl

/-! ## Clauses -/

/-- Without attributes a clause is a clause. -/
theorem exists_clause (written : Text) {space tail : Text}
    (hspace : ∀ c ∈ space, Text.isPlainBlank c = true)
    (htail : tail = [] ∨ "where".toList <+: tail) :
    ∃ behind, stripFrom true 0 written (space ++ tail) = written.reverse ++ behind ∧
      isRoutineTail (Text.trim behind) = true := by
  have hplain : ∀ u : Text, (∀ c ∈ u, c ≠ '@' ∧ c ≠ '[') → ∀ rest,
      stripFrom true 0 written (u ++ rest) = stripFrom true 0 (u.reverse ++ written) rest := by
    refine fun u hu rest => stripFrom_plain (fun h => (hu _ h).1 rfl) (fun v w he => ?_) rest
    exact absurd rfl (hu '[' (he ▸ List.mem_append_right v List.mem_cons_self)).2
  have hblank : ∀ c ∈ space, c ≠ '@' ∧ c ≠ '[' := by
    intro c hc
    constructor <;> rintro rfl <;> exact absurd (hspace _ hc) (by decide)
  have hwords : ∀ r : Text, Text.words (space ++ r) = Text.words r :=
    Text.Reflow.words_front fun c hc => Text.isBlank_of_isPlainBlank (hspace c hc)
  rcases htail with rfl | ⟨more, rfl⟩
  · have hnone : Text.words space = [] := by
      have := hwords []
      rwa [List.append_nil] at this
    refine ⟨space, ?_, isRoutineTail_trim_iff.2 (.inl hnone)⟩
    rw [hplain space hblank]
    show (space.reverse ++ written).reverse = _
    rw [List.reverse_append, List.reverse_reverse]
  · have hletters : ∀ c ∈ space ++ "where".toList, c ≠ '@' ∧ c ≠ '[' :=
      List.forall_mem_append.2 ⟨hblank, by decide⟩
    obtain ⟨left, he⟩ := exists_stripFrom true 0 ((space ++ "where".toList).reverse ++ written) more
    refine ⟨space ++ "where".toList ++ left, ?_, isRoutineTail_trim_iff.2 (.inr ?_)⟩
    · rw [← List.append_assoc, hplain _ hletters, he, List.reverse_append, List.reverse_reverse,
        List.append_assoc]
    · rw [List.append_assoc, hwords]
      have hw : Text.words ("where".toList ++ left) = _ :=
        Text.words_ink (c := 'w') (by decide) ("here".toList ++ left)
      refine ⟨_, _, hw, .inr (.inl (List.cons_prefix_cons.2 ⟨rfl, ?_⟩))⟩
      rw [List.takeWhile_append_of_pos (by decide)]
      exact List.prefix_append _ _

/-! ## The parts of a method -/

/-- A character that can stand in a type: with the others, braces, literals, comments and operators are
written. -/
def isTypeChar (c : Char) : Bool :=
  !"\x7b\x7d;\"'/=-".toList.contains c

/-- Words that may stand before the type of a method. -/
def methodModifiers : List Text :=
  ["abstract", "async", "extern", "internal", "new", "override", "partial", "private", "protected",
    "public", "readonly", "sealed", "static", "unsafe", "virtual"].map String.toList

/-- Words that are no identifiers. -/
def reservedWords : List Text :=
  ["abstract", "as", "base", "bool", "break", "byte", "case", "catch", "char", "checked", "class",
    "const", "continue", "decimal", "default", "delegate", "do", "double", "else", "enum", "event",
    "explicit", "extern", "false", "finally", "fixed", "float", "for", "foreach", "goto", "if",
    "implicit", "in", "int", "interface", "internal", "is", "lock", "long", "namespace", "new",
    "null", "object", "operator", "out", "override", "params", "private", "protected", "public",
    "readonly", "ref", "return", "sbyte", "sealed", "short", "sizeof", "stackalloc", "static",
    "string", "struct", "switch", "this", "throw", "true", "try", "typeof", "uint", "ulong",
    "unchecked", "unsafe", "ushort", "using", "virtual", "void", "volatile",
    "while"].map String.toList

/-- A name that a declaration can give. -/
def IsIdentifier (name : Text) : Prop :=
  name ≠ [] ∧ (∀ c ∈ name, isNameChar c = true) ∧
    (name.head?.map Char.isDigit).getD false = false ∧ name ∉ reservedWords

/-- Some blanks of source layout. -/
def IsGap (gap : Text) : Prop :=
  gap ≠ [] ∧ ∀ c ∈ gap, Text.isPlainBlank c = true

/-- A method as it is written. -/
structure Method where
  /-- The modifiers, each with the blanks behind it. -/
  modifiers : List (Text × Text)
  type : Text
  /-- The blanks between type and name. -/
  gap : Text
  name : Text
  typeParameters : List Text
  /-- What stands between the parentheses. -/
  parameters : Text
  /-- The blanks behind the parameters. -/
  space : Text
  /-- The constraints on type parameters, and all between them and the body; empty if there are none. -/
  constraints : Text
  /-- What stands between the braces. -/
  body : Text

namespace Method

/-- The name with the type parameters. -/
def word (m : Method) : Text :=
  m.name ++
    if m.typeParameters.isEmpty then [] else '<' :: (Text.join [',', ' '] m.typeParameters ++ ['>'])

/-- What stands before the name. -/
def specifiers (m : Method) : Text :=
  m.modifiers.flatMap (fun w => w.1 ++ w.2) ++ m.type

/-- What follows the parenthesis before the parameters. -/
def list (m : Method) : Text :=
  m.parameters ++ ')' :: (m.space ++ m.constraints)

def header (m : Method) : Text :=
  m.specifiers ++ (m.gap ++ (m.word ++ '(' :: m.list))

def text (m : Method) : Text :=
  m.header ++ '{' :: (m.body ++ ['}'])

/-- A method with a body in C#. Of the type only this is asked: it begins with no blank, holds nothing
that no type holds, and its brackets are nested. -/
structure IsMethod (m : Method) : Prop where
  modifiers : ∀ w ∈ m.modifiers, w.1 ∈ methodModifiers ∧ IsGap w.2
  type : (m.type.head?.map Text.isBlank).getD true = false ∧ (∀ c ∈ m.type, isTypeChar c = true) ∧
    ClosesOff [] m.type
  gap : IsGap m.gap
  name : IsIdentifier m.name
  typeParameters : ∀ t ∈ m.typeParameters, IsIdentifier t
  parameters : ∃ lexemes, ReadsBefore .cSharp ')' m.parameters lexemes ∧ Balanced lexemes
  space : ∀ c ∈ m.space, Text.isPlainBlank c = true
  constraints : m.constraints = [] ∨ "where".toList <+: m.constraints
  clause : ∃ lexemes, ReadsBefore .cSharp '{' m.constraints lexemes ∧ HeaderBody lexemes
  body : ∃ lexemes, ReadsBefore .cSharp '\x7d' m.body lexemes ∧ Matched lexemes

/-- The words before the name, without annotations. -/
def seen (m : Method) : List Text :=
  Text.words (stripAnnotations true m.specifiers)

/-- What stands behind the first parenthesis, without attributes. -/
def listed (m : Method) : Text :=
  (stripFrom true 0 ['('] m.list).tail

/-- The header of a method can be told by words and brackets. -/
structure Legible (m : Method) : Prop where
  /-- No parenthesis stands before the parameters. -/
  type : '(' ∉ m.type
  /-- No word before the name declares something. -/
  words : ∀ w ∈ m.seen, w ≠ "namespace".toList ∧ w ≠ "new".toList
  noType : typeName? (m.seen ++ [m.word]) = none
  /-- Between two type parameters stands a blank. -/
  typeParameters : m.typeParameters.length ≤ 1
  name : m.name ∉ controlWords
  /-- The parenthesis that closes the parameters can be told in the raw text. -/
  closes : ClosesBefore m.listed

end Method

/-! ## What stands before the parameters -/

theorem not_mem_of_isNameChar {c : Char} {special : Text}
    (hspecial : ∀ d ∈ special, isNameChar d = false) (h : isNameChar c = true) : c ∉ special := by
  intro hmem
  rw [hspecial c hmem] at h
  cases h

theorem isBlank_of_isNameChar {c : Char} (h : isNameChar c = true) : Text.isBlank c = false := by
  cases hb : Text.isBlank c with
  | false => rfl
  | true =>
    have hunder : c ≠ '_' := by rintro rfl; cases hb
    have hdollar : c ≠ '$' := by rintro rfl; cases hb
    simp [isNameChar, Text.isAlphanumeric_of_isBlank hb, hunder, hdollar] at h

/-- The modifiers of methods are names that declare nothing. -/
theorem methodModifiers_plain : ∀ w ∈ methodModifiers,
    w ≠ [] ∧ (∀ c ∈ w, isNameChar c = true) ∧ w ∉ typeWords ∧ w ≠ "namespace".toList := by
  decide

/-- The last of several words with separators between them stands behind a blank. -/
theorem exists_join_blank (first : Text) (init : List Text) (last : Text) :
    ∃ u, Text.join [',', ' '] (first :: (init ++ [last])) = u ++ ' ' :: last := by
  induction init generalizing first with
  | nil => exact ⟨first ++ [','], by simp [Text.join]⟩
  | cons next init ih =>
    obtain ⟨u, hu⟩ := ih next
    refine ⟨first ++ [',', ' '] ++ u, ?_⟩
    rw [Text.join] at hu ⊢
    rw [List.cons_append, List.intercalate_cons_cons, hu]
    simp

namespace Method

variable {m : Method}

/-- Every character before the type stands in a modifier or is a blank. -/
theorem IsMethod.mem_modifiers (h : m.IsMethod) {c : Char}
    (hc : c ∈ m.modifiers.flatMap fun w => w.1 ++ w.2) :
    isNameChar c = true ∨ Text.isPlainBlank c = true := by
  obtain ⟨w, hw, hc⟩ := List.mem_flatMap.1 hc
  obtain ⟨hmodifier, hgap⟩ := h.modifiers w hw
  exact (List.mem_append.1 hc).imp ((methodModifiers_plain _ hmodifier).2.1 c) (hgap.2 c)

theorem IsMethod.closesOff_specifiers (h : m.IsMethod) : ClosesOff [] m.specifiers := by
  refine (Text.closesOff_plain fun c hc => ?_).2 h.type.2.2
  cases hb : Text.Bracket.ofListChar? c with
  | none => rfl
  | some b =>
    obtain ⟨rfl, -⟩ := Text.Bracket.ofListChar?_eq_some_iff.1 hb
    obtain ⟨k, opens⟩ := b
    rcases h.mem_modifiers hc with hc | hc <;> cases k <;> cases opens <;>
      exact absurd hc (by decide)

/-- A name begins with a letter. -/
theorem IsMethod.word_cons (h : m.IsMethod) :
    ∃ c more, m.word = c :: more ∧ isNameChar c = true := by
  obtain ⟨c, more, hname⟩ := List.exists_cons_of_ne_nil h.name.1
  exact ⟨c, more ++ _, by rw [word, hname]; rfl, h.name.2.1 c (hname ▸ List.mem_cons_self)⟩

/-- Nothing but names, and what stands around and between type parameters. -/
theorem IsMethod.word_plain (h : m.IsMethod) :
    ∀ c ∈ m.word, isNameChar c = true ∨ c ∈ ['<', ',', ' ', '>'] := by
  intro c hc
  rcases List.mem_append.1 hc with hc | hc
  · exact .inl (h.name.2.1 c hc)
  split at hc
  · cases hc
  rcases List.mem_cons.1 hc with rfl | hc
  · exact .inr (by decide)
  rcases List.mem_append.1 hc with hc | hc
  · rcases Text.mem_join hc with hc | ⟨t, ht, hc⟩
    · refine .inr ?_
      rcases List.mem_cons.1 hc with rfl | hc
      · decide
      · rw [List.mem_singleton.1 hc]
        decide
    · exact .inl ((h.typeParameters t ht).2.1 c hc)
  · exact .inr (by rw [List.mem_singleton.1 hc]; decide)

/-- No annotation or attribute stands between the type and the parameters. -/
theorem IsMethod.ne_of_mem_gap_word (h : m.IsMethod) {c d : Char} (hc : c ∈ m.gap ++ m.word)
    (hname : isNameChar d = false) (hblank : Text.isPlainBlank d = false)
    (hd : d ∉ ['<', ',', ' ', '>']) : c ≠ d := by
  rintro rfl
  rcases List.mem_append.1 hc with hc | hc
  · rw [h.gap.2 c hc] at hblank
    cases hblank
  rcases h.word_plain c hc with hc | hc
  · rw [hc] at hname
    cases hname
  · exact hd hc

/-- **Without annotations and attributes** a method has its name between the words before it and its
parameters. -/
theorem IsMethod.stripAnnotations_header (h : m.IsMethod) : stripAnnotations true m.header =
    stripAnnotations true m.specifiers ++ (m.gap ++ m.word) ++ '(' :: m.listed := by
  obtain ⟨b, more, hgap⟩ := List.exists_cons_of_ne_nil h.gap.1
  obtain ⟨c, letters, hword, hc⟩ := h.word_cons
  have hblank : ∀ c ∈ m.gap, Text.isBlank c = true := fun c hc =>
    Text.isBlank_of_isPlainBlank (h.gap.2 c hc)
  have hapart : Apart (m.gap ++ (m.word ++ '(' :: m.list)) := by
    refine ⟨fun d hd => ?_, fun d hd => ?_⟩
    · rw [hgap] at hd
      cases hd
      have hb := h.gap.2 b (hgap ▸ List.mem_cons_self)
      simp only [Text.isPlainBlank, Bool.or_eq_true, beq_iff_eq] at hb
      rcases hb with (((rfl | rfl) | rfl) | rfl) | rfl <;> decide
    · rw [List.dropWhile_append_of_pos hblank, hword, List.cons_append,
        List.dropWhile_cons_of_neg (by simp [isBlank_of_isNameChar hc])] at hd
      cases hd
      rintro rfl
      cases hc
  have hplain : ∀ (written rest : Text), stripFrom true 0 written ((m.gap ++ m.word) ++ rest) =
      stripFrom true 0 ((m.gap ++ m.word).reverse ++ written) rest := by
    refine fun written rest => stripFrom_plain (fun hat => ?_) (fun u v he => ?_) rest
    · exact h.ne_of_mem_gap_word hat (by decide) (by decide) (by decide) rfl
    · exact absurd rfl (h.ne_of_mem_gap_word (he ▸ List.mem_append_right u List.mem_cons_self)
        (by decide) (by decide) (by decide))
  obtain ⟨left, hleft⟩ := exists_stripFrom true 0 ['('] m.list
  have hlisted : stripFrom true 0 ['('] m.list = '(' :: m.listed := by
    rw [listed, hleft]
    rfl
  rw [stripAnnotations, header, stripFrom_append h.closesOff_specifiers hapart, ← List.append_assoc,
    hplain, stripFrom_cons, if_neg (by simp), if_neg (by simp)]
  refine (stripFrom_ink (c := '(') (by decide) 0 [] _ m.list).trans ?_
  rw [List.nil_append, hlisted, List.reverse_append, List.reverse_reverse, List.reverse_reverse]

/-- What is absent before the parameters is absent there without annotations. -/
theorem IsMethod.not_mem_before (h : m.IsMethod) {d : Char} (htype : d ∉ m.type)
    (hname : isNameChar d = false) (hblank : Text.isPlainBlank d = false)
    (hd : d ∉ ['<', ',', ' ', '>']) :
    d ∉ stripAnnotations true m.specifiers ++ (m.gap ++ m.word) := by
  intro hmem
  rcases List.mem_append.1 hmem with hmem | hmem
  · rcases mem_stripFrom hmem with hmem | hmem | rfl
    · cases hmem
    · rcases List.mem_append.1 hmem with hmem | hmem
      · rcases h.mem_modifiers hmem with hmem | hmem
        · rw [hmem] at hname
          cases hname
        · rw [hmem] at hblank
          cases hblank
      · exact htype hmem
    · exact hd (by decide)
  · exact h.ne_of_mem_gap_word hmem hname hblank hd rfl

theorem IsMethod.words_before (h : m.IsMethod) :
    Text.words (stripAnnotations true m.specifiers ++ (m.gap ++ m.word)) = m.seen ++ Text.words m.word := by
  obtain ⟨b, more, hgap⟩ := List.exists_cons_of_ne_nil h.gap.1
  have hblank : ∀ c ∈ b :: more, Text.isBlank c = true := fun c hc =>
    Text.isBlank_of_isPlainBlank (h.gap.2 c (hgap ▸ hc))
  rw [hgap, List.cons_append, Text.words_append (hblank b List.mem_cons_self),
    Text.Reflow.words_front fun c hc => hblank c (List.mem_cons_of_mem b hc)]
  rfl

/-- With one type parameter at most, the name and its type parameters are one word. -/
theorem IsMethod.words_word (h : m.IsMethod) (hone : m.typeParameters.length ≤ 1) :
    Text.words m.word = [m.word] := by
  obtain ⟨c, more, hcons, -⟩ := h.word_cons
  refine Text.words_word (by rw [hcons]; exact List.cons_ne_nil c more) fun c hc => ?_
  rcases List.mem_append.1 hc with hc | hc
  · exact isBlank_of_isNameChar (h.name.2.1 c hc)
  cases ht : m.typeParameters with
  | nil =>
    rw [ht] at hc
    cases hc
  | cons t more =>
    rw [ht, List.length_cons] at hone
    obtain rfl : more = [] := List.eq_nil_of_length_eq_zero (by omega)
    rw [ht, if_neg (by simp), show Text.join [',', ' '] [t] = t by simp [Text.join]] at hc
    rcases List.mem_cons.1 hc with rfl | hc
    · decide
    rcases List.mem_append.1 hc with hc | hc
    · exact isBlank_of_isNameChar ((h.typeParameters t (ht ▸ List.mem_cons_self)).2.1 c hc)
    · rw [List.mem_singleton.1 hc]
      decide

/-- With two, the last word ends a list of type parameters and names nothing. -/
theorem IsMethod.getLast?_words_word (h : m.IsMethod) (htwo : 2 ≤ m.typeParameters.length) :
    ∃ name, (Text.words m.word).getLast?.map declaredName = some name ∧ isRoutineName name = false := by
  obtain ⟨first, more, hfirst⟩ : ∃ first more, m.typeParameters = first :: more := by
    cases ht : m.typeParameters with
    | nil =>
      rw [ht] at htwo
      cases htwo
    | cons first more => exact ⟨first, more, rfl⟩
  obtain ⟨init, last, rfl⟩ : ∃ init last, more = init ++ [last] := by
    refine (List.eq_nil_or_concat' more).resolve_left ?_
    rintro rfl
    rw [hfirst] at htwo
    exact absurd htwo (by simp)
  obtain ⟨hne, hchars, -⟩ := h.typeParameters last (by simp [hfirst])
  obtain ⟨u, hu⟩ := exists_join_blank first init last
  have hwords : Text.words m.word = Text.words (m.name ++ '<' :: u) ++ [last ++ ['>']] := by
    have hend : ∀ c ∈ last ++ ['>'], Text.isBlank c = false :=
      List.forall_mem_append.2 ⟨fun c hc => isBlank_of_isNameChar (hchars c hc), by decide⟩
    have hsplit : m.word = (m.name ++ '<' :: u) ++ ' ' :: (last ++ ['>']) := by
      rw [word, hfirst, if_neg (by simp), hu]
      simp
    rw [hsplit, Text.words_append (by decide), Text.words_word (by simp) hend]
  have htake : (last ++ ['>']).takeWhile (· != '<') = last ++ ['>'] := by
    refine List.takeWhile_eq_self_iff.2 (List.forall_mem_append.2 ⟨fun c hc => ?_, by decide⟩)
    refine bne_iff_ne.2 ?_
    rintro rfl
    cases hchars _ hc
  have hdot : Text.cutAtLast? ['.'] (last ++ ['>']) = none := by
    cases hc : Text.cutAtLast? ['.'] (last ++ ['>']) with
    | none => rfl
    | some parts =>
      have hmem : '.' ∈ last ++ ['>'] := by
        rw [Text.eq_of_cutAtLast? hc]
        simp
      rcases List.mem_append.1 hmem with hmem | hmem
      · cases hchars _ hmem
      · exact absurd (List.mem_singleton.1 hmem) (by decide)
  refine ⟨last ++ ['>'], ?_, ?_⟩
  · rw [hwords, List.getLast?_concat, Option.map_some, declaredName, htake, afterLastDot, hdot]
    rfl
  · have hall : (last ++ ['>']).all isNameChar = false := by
      rw [List.all_append, Bool.and_eq_false_iff]
      exact .inr rfl
    rw [isRoutineName, hall, Bool.and_false]
    rfl

theorem IsMethod.declaredName_word (h : m.IsMethod) : declaredName m.word = m.name := by
  have htake : m.word.takeWhile (· != '<') = m.name := by
    have hall : ∀ c ∈ m.name, (c != '<') = true := by
      intro c hc
      refine bne_iff_ne.2 ?_
      rintro rfl
      cases h.name.2.1 _ hc
    rw [word, List.takeWhile_append_of_pos hall]
    split <;> simp
  have hdot : Text.cutAtLast? ['.'] m.name = none := by
    cases hc : Text.cutAtLast? ['.'] m.name with
    | none => rfl
    | some parts =>
      have hmem : '.' ∈ m.name := by
        rw [Text.eq_of_cutAtLast? hc]
        simp
      cases h.name.2.1 _ hmem
  rw [declaredName, htake, afterLastDot, hdot]
  rfl

/-- No name is a word that is reserved, and neither is a name with type parameters. -/
theorem IsMethod.word_ne (h : m.IsMethod) {w : Text} (hw : w ∈ reservedWords)
    (hdeclared : declaredName w = w) : m.word ≠ w := by
  rintro rfl
  rw [h.declaredName_word] at hdeclared
  exact h.name.2.2.2 (hdeclared ▸ hw)

/-! ## Legible methods -/

/-- **The header of a method is read as a routine of its name** exactly if it is legible; a type with
parentheses apart, which a header is cut at. -/
theorem IsMethod.ofText_iff_legible (h : m.IsMethod) (hparen : '(' ∉ m.type) :
    (∃ signature, Header.ofText true m.header = .routine m.name signature) ↔ m.Legible := by
  have htype : ∀ d : Char, isTypeChar d = false → d ∉ m.type := fun d hd hmem => by
    rw [h.type.2.1 d hmem] at hd
    cases hd
  have hread := ofText_routine_iff m.name h.stripAnnotations_header
    (h.not_mem_before hparen (by decide) (by decide) (by decide))
    (h.not_mem_before (htype '=' (by decide)) (by decide) (by decide) (by decide))
    (h.not_mem_before (htype '-' (by decide)) (by decide) (by decide) (by decide))
  rw [hread]
  have hwords := h.words_before
  constructor
  · intro hr
    have hone : m.typeParameters.length ≤ 1 := by
      by_contra htwo
      obtain ⟨name, hlast, hname⟩ := h.getLast?_words_word (by omega)
      obtain ⟨word, hword, -⟩ := Option.map_eq_some_iff.1 hlast
      have := hr.last
      rw [hwords, List.getLast?_append, hword, Option.some_or, ← hword, hlast] at this
      obtain rfl := Option.some.inj this
      rw [hr.name] at hname
      cases hname
    rw [h.words_word hone] at hwords
    have hcontrol : m.name ∉ controlWords := by
      have := hr.name
      simp only [isRoutineName, Bool.and_eq_true, Bool.not_eq_true', List.contains_eq_mem,
        decide_eq_false_iff_not] at this
      exact this.2
    exact ⟨hparen, fun w hw => hr.words w (hwords ▸ List.mem_append_left _ hw), hwords ▸ hr.noType,
      hone, hcontrol, hr.list⟩
  · intro hl
    rw [h.words_word hl.typeParameters] at hwords
    refine ⟨hwords ▸ hl.noType, ?_, ?_, ?_, hl.closes⟩
    · rw [hwords]
      refine List.forall_mem_append.2 ⟨hl.words, List.forall_mem_singleton.2 ?_⟩
      exact ⟨h.word_ne (by decide) (by decide), h.word_ne (by decide) (by decide)⟩
    · rw [hwords, List.getLast?_concat, Option.map_some, h.declaredName_word]
    · obtain ⟨hne, hchars, hdigit, -⟩ := h.name
      simp [isRoutineName, hne, hdigit, hl.name]
      exact hchars

/-- A method is legible if no word before its name declares something, and if the brackets among its
parameters are nested in the raw text. -/
theorem IsMethod.legible (h : m.IsMethod) (htype : '(' ∉ m.type)
    (hseen : ∀ w ∈ m.seen, w ∉ typeWords ∧ w ≠ "namespace".toList ∧ w ≠ "new".toList)
    (hone : m.typeParameters.length ≤ 1) (hname : m.name ∉ controlWords)
    (hparameters : ClosesOff [] m.parameters) : m.Legible where
  type := htype
  words := fun w hw => (hseen w hw).2
  noType := typeName?_eq_none _ fun w hw => (hseen w hw).1
  typeParameters := hone
  name := hname
  closes := by
    obtain ⟨left, hleft, hsame⟩ := stripFrom_closesOff hparameters ['(']
    obtain ⟨behind, hbehind, hclause⟩ :=
      exists_clause (')' :: (left.reverse ++ ['('])) h.space h.constraints
    have hlisted : m.listed = left ++ ')' :: behind := by
      rw [listed, list, hsame _ (.closeParen _), List.nil_append, stripFrom_cons, if_neg (by simp),
        if_neg (by simp), hbehind]
      simp
    refine ⟨behind, ?_, hclause⟩
    rw [hlisted]
    exact hleft.afterParen? behind

end Method

end Scholia.Source.Braced
