import Mathlib.Data.List.Basic
import Scholia.Proofs.Evaluation
import Scholia.Proofs.Source.Braced.Methods
/-!
# The methods of a class

The characters of a type are lexemes of their own, so a method is divided into those before the
parameters, the parameters, the clause and the body, wherever it stands. A legible one declares itself
and nothing else (`Method.declares`), and a survey of a class finds one routine for each of its methods
(`survey_methods`). A method that is not legible is read as something else.
-/

namespace Scholia.Source.Braced

variable {dialect : Dialect}

/-- A character as a lexeme of its own. -/
def charLexeme (c : Char) : Lexeme Kind :=
  ⟨Kind.ofChar c, [c]⟩

/-- A character of a type, unless it is a parenthesis. -/
def isPlainTypeChar (c : Char) : Bool :=
  isTypeChar c && !"()".toList.contains c

theorem ne_of_isPlainTypeChar {c d : Char} (h : isPlainTypeChar c = true)
    (hd : isPlainTypeChar d = false) : c ≠ d := by
  rintro rfl
  rw [h] at hd
  cases hd

theorem isPlainTypeChar_of_isNameChar {c : Char} (h : isNameChar c = true) :
    isPlainTypeChar c = true := by
  have hnot : ∀ special : Text, (∀ d ∈ special, isNameChar d = false) →
      (!special.contains c) = true := by
    intro special hspecial
    simpa using not_mem_of_isNameChar hspecial h
  exact Bool.and_eq_true_iff.2 ⟨hnot _ (by decide), hnot _ (by decide)⟩

theorem isPlainTypeChar_of_isPlainBlank {c : Char} (h : Text.isPlainBlank c = true) :
    isPlainTypeChar c = true := by
  simp only [Text.isPlainBlank, Bool.or_eq_true, beq_iff_eq] at h
  rcases h with (((rfl | rfl) | rfl) | rfl) | rfl <;> decide

theorem kind_of_isPlainTypeChar {c : Char} (h : isPlainTypeChar c = true) :
    Kind.ofChar c = if Text.isPlainBlank c then .blank else .code := by
  have hne : ∀ {d : Char}, isPlainTypeChar d = false → c ≠ d := ne_of_isPlainTypeChar h
  rw [Kind.ofChar, if_neg (hne (by decide)), if_neg (hne (by decide)), if_neg (hne (by decide)),
    if_neg (hne (by decide)), if_neg (hne (by decide))]

/-- The characters of a type are divided one by one, whatever follows but what makes a literal with an
`@` before it. -/
theorem divides_chars {s rest : Text} (h : ∀ c ∈ s, isPlainTypeChar c = true)
    (hrest : ∀ c ∈ rest.head?, c ≠ '"' ∧ c ≠ '$') :
    (rule dialect).Divides (s ++ rest) (s.map charLexeme) rest := by
  have hquote : ∀ s : Text, (∀ c ∈ s, isPlainTypeChar c = true) → (s ++ rest).head? ≠ some '"' := by
    intro s h he
    cases s with
    | nil => exact (hrest _ he).1 rfl
    | cons c s =>
      obtain rfl : c = '"' := Option.some.inj he
      exact absurd (h _ List.mem_cons_self) (by decide)
  induction s with
  | nil => exact .stop rest
  | cons c s ih =>
    obtain ⟨hc, hs⟩ := List.forall_mem_cons.1 h
    have hne : ∀ {d : Char}, isPlainTypeChar d = false → c ≠ d := ne_of_isPlainTypeChar hc
    have hsigned : ∀ x, s ++ rest ≠ '$' :: '"' :: x := by
      intro x he
      cases s with
      | nil => exact (hrest '$' (by rw [show rest = _ from he]; rfl)).2 rfl
      | cons d s =>
        exact hquote s (List.forall_mem_cons.1 hs).2 (congrArg List.head? (List.cons.inj he).2)
    have hfront : front dialect c (s ++ rest) = .found (charLexeme c) (s ++ rest) :=
      front_other (fun he => absurd he (hne (by decide))) (hne (by decide)) (hne (by decide))
        fun _ => ⟨hquote s hs, hsigned⟩
    exact .take hfront (ih hs)

theorem headerBody_chars {s : Text} (h : ∀ c ∈ s, isPlainTypeChar c = true) :
    HeaderBody (s.map charLexeme) := by
  refine HeaderBody.of_plain fun l hl => ?_
  obtain ⟨c, hc, rfl⟩ := List.mem_map.1 hl
  rw [show (charLexeme c).kind = _ from kind_of_isPlainTypeChar (h c hc)]
  split <;> decide

namespace Method

variable {m : Method}

/-- A method begins with a letter of its first modifier or of its type. -/
theorem IsMethod.exists_specifiers (h : m.IsMethod) :
    ∃ c more, m.specifiers = c :: more ∧ Text.isPlainBlank c = false := by
  have hblank : ∀ {c : Char}, Text.isBlank c = false → Text.isPlainBlank c = false := by
    intro c hc
    cases hp : Text.isPlainBlank c with
    | false => rfl
    | true => exact absurd (Text.isBlank_of_isPlainBlank hp) (by simp [hc])
  cases hmodifiers : m.modifiers with
  | cons w modifiers =>
    obtain ⟨hne, hchars, -⟩ :=
      methodModifiers_plain w.1 (h.modifiers w (hmodifiers ▸ List.mem_cons_self)).1
    obtain ⟨c, more, hw⟩ := List.exists_cons_of_ne_nil hne
    have hc := hblank (isBlank_of_isNameChar (hchars c (hw ▸ List.mem_cons_self)))
    refine ⟨c, more ++ w.2 ++ (modifiers.flatMap fun w => w.1 ++ w.2) ++ m.type, ?_, hc⟩
    rw [specifiers, hmodifiers, List.flatMap_cons, hw]
    rfl
  | nil =>
    obtain ⟨htype, -⟩ := h.type
    cases ht : m.type with
    | nil =>
      rw [ht] at htype
      cases htype
    | cons c more =>
      rw [ht] at htype
      refine ⟨c, more, ?_, hblank htype⟩
      rw [specifiers, hmodifiers, ht]
      rfl

/-- If the type has no parenthesis, none stands before the parameters. -/
theorem IsMethod.plain_before (h : m.IsMethod) (hparen : '(' ∉ m.type) :
    ∀ c ∈ m.specifiers ++ (m.gap ++ m.word), isPlainTypeChar c = true := by
  have hclose : ')' ∉ m.type :=
    h.type.2.2.not_mem_closing (k := .round) (by decide) List.not_mem_nil hparen
  have htype : ∀ c ∈ m.type, isPlainTypeChar c = true := by
    intro c hc
    rw [isPlainTypeChar, h.type.2.1 c hc, Bool.true_and]
    have hne : c ≠ '(' ∧ c ≠ ')' := ⟨fun he => hparen (he ▸ hc), fun he => hclose (he ▸ hc)⟩
    simp [hne]
  refine List.forall_mem_append.2 ⟨List.forall_mem_append.2 ⟨fun c hc => ?_, htype⟩,
    List.forall_mem_append.2 ⟨fun c hc => ?_, fun c hc => ?_⟩⟩
  · exact (h.mem_modifiers hc).elim isPlainTypeChar_of_isNameChar isPlainTypeChar_of_isPlainBlank
  · exact isPlainTypeChar_of_isPlainBlank (h.gap.2 c hc)
  · rcases h.word_plain c hc with hc | hc
    · exact isPlainTypeChar_of_isNameChar hc
    · have hplain : ∀ c ∈ ['<', ',', ' ', '>'], isPlainTypeChar c = true := by decide
      exact hplain c hc

/-- **The header of a method is a header**; a type with parentheses apart. -/
theorem IsMethod.readsAsHeader (h : m.IsMethod) (hparen : '(' ∉ m.type) :
    ReadsAsHeader .cSharp m.header := by
  obtain ⟨parameters, hparameters, hbalanced⟩ := h.parameters
  obtain ⟨clause, hclause, hbody⟩ := h.clause
  obtain ⟨c, more, hc, hfirst⟩ := h.exists_specifiers
  have hchars := h.plain_before hparen
  have hspace : ∀ c ∈ m.space, isPlainTypeChar c = true := fun c hc =>
    isPlainTypeChar_of_isPlainBlank (h.space c hc)
  have hopen : ∀ rest : Text, (rule .cSharp).Divides ('(' :: rest) [charLexeme '('] rest := by
    intro rest
    have hfront : front .cSharp '(' rest = .found (charLexeme '(') rest :=
      front_other (fun he => absurd he (by decide)) (by decide) (by decide)
        fun he => absurd he (by decide)
    exact .take hfront (.stop rest)
  have hwhere : ∀ c ∈ (m.constraints ++ '{' :: []).head?, c ≠ '"' ∧ c ≠ '$' := by
    rcases h.constraints with he | ⟨more, he⟩
    · rw [he]
      rintro c hc
      cases hc
      decide
    · rw [← he]
      rintro c hc
      cases hc
      decide
  refine ⟨charLexeme c, (more ++ (m.gap ++ m.word)).map charLexeme ++ charLexeme '(' ::
    (parameters ++ charLexeme ')' :: (m.space.map charLexeme ++ clause)), ?_, ?_, ?_⟩
  · have hdivides := (divides_chars hchars (by simp)).append ((hopen _).append
      ((hparameters.divides rfl _).append ((divides_chars hspace hwhere).append
        (hclause.divides rfl []))))
    rw [hc] at hdivides
    refine scans_iff.2 ?_
    rw [header, hc]
    simpa [charLexeme, list] using hdivides
  · rw [show (charLexeme c).kind = _ from kind_of_isPlainTypeChar
      (hchars c (List.mem_append_left _ (hc ▸ List.mem_cons_self))), hfirst]
    rfl
  · have hbefore := headerBody_chars hchars
    rw [hc] at hbefore
    exact hbefore.append (.parens rfl rfl hbalanced ((headerBody_chars hspace).append hbody))

/-- **A legible method declares a routine of its name**, and nothing else. -/
theorem declares (h : m.IsMethod) (hl : m.Legible) :
    ∃ signature, Declares .cSharp m.text [⟨true, m.name, signature⟩] := by
  obtain ⟨signature, hread⟩ := (h.ofText_iff_legible hl.type).2 hl
  obtain ⟨lexemes, hbody, hmatched⟩ := h.body
  exact ⟨signature, .routine (h.readsAsHeader hl.type) hread hbody hmatched⟩

end Method

/-- A class as it is written: its header, its members, each with the layout and comments before it, and
what stands behind the last one. -/
def classText (header : Text) (members : List (Text × Method)) (last : Text) : Text :=
  header ++ '{' :: (members.flatMap (fun p => p.1 ++ p.2.text) ++ last ++ ['}'])

/-- **A survey of a class finds its methods** if they are legible: one routine for each, in their
order, with its name. And the header of a method is read as a routine of its name only if the method is
legible, types with parentheses apart. -/
theorem survey_methods {lead header name signature last tail : Text}
    {members : List (Text × Method)} (hlead : IsSpace .cSharp lead)
    (hheader : ReadsAsHeader .cSharp header)
    (hread : Header.ofText true header = .typeDecl name signature)
    (hmembers : ∀ p ∈ members, IsSpace .cSharp p.1 ∧ p.2.IsMethod)
    (hlast : IsSpace .cSharp last) (htail : IsSpace .cSharp tail) :
    ((∀ p ∈ members, p.2.Legible) → ∃ found,
        Language.cSharp.survey (lead ++ (classText header members last ++ tail)) = .ok found ∧
          found.1.map Routine.name = members.map (·.2.name)) ∧
      ∀ p ∈ members, '(' ∉ p.2.type →
        ((∃ signature, Header.ofText true p.2.header = .routine p.2.name signature) ↔ p.2.Legible) := by
  refine ⟨fun hlegible => ?_, fun p hp hparen => (hmembers p hp).2.ofText_iff_legible hparen⟩
  -- the signatures are those that the headers are read with
  obtain ⟨declared, hdeclares, hnames⟩ : ∃ declared : List Declared,
      Declares .cSharp (members.flatMap fun p => p.1 ++ p.2.text) declared ∧
        (declared.filterMap Declared.title?).map (·.1) = members.map (·.2.name) := by
    induction members with
    | nil => exact ⟨[], .nil, rfl⟩
    | cons p members ih =>
      obtain ⟨⟨hspace, hmethod⟩, hmore⟩ := List.forall_mem_cons.1 hmembers
      obtain ⟨hfirst, hrest⟩ := List.forall_mem_cons.1 hlegible
      obtain ⟨declared, hdeclares, hnames⟩ := ih hmore hrest
      obtain ⟨signature, hone⟩ := Method.declares hmethod hfirst
      exact ⟨_, ((Declares.space hspace).append hone).append hdeclares,
        congrArg (p.2.name :: ·) hnames⟩
  obtain ⟨o, ho, htitles⟩ := ((Declares.space hlead).append
    ((Declares.typeDecl hheader hread (hdeclares.append (.space hlast))).append
      (.space htail))).survey
  refine ⟨o.survey .preceding, ?_, ?_⟩
  · show (Language.cSharp.outline _ >>= fun o => pure (o.survey .preceding)) = _
    rw [show Language.cSharp.outline (lead ++ (classText header members last ++ tail)) = .ok o from ho]
    rfl
  · have hfirst := congrArg (List.map Prod.fst) htitles
    rw [List.map_map] at hfirst
    refine hfirst.trans (Eq.trans ?_ hnames)
    simp [Declared.title?]

/-! ## Sample classes -/

/-- A division that is computed is one. -/
theorem scans_of_lexWithin {text : Text} {lexemes : List (Lexeme Kind)}
    (h : (rule dialect).lexWithin text.length 0 text = ⟨lexemes, none⟩) :
    Scans dialect text lexemes [] := by
  have hlex : (rule dialect).lexFrom 0 text = ⟨lexemes, none⟩ :=
    ((rule dialect).lexWithin_eq (Nat.le_refl _)).symm.trans h
  obtain ⟨rest, hdivides, hrest⟩ := (rule dialect).lexFrom_divides 0 text
  rw [hlex] at hdivides hrest
  exact scans_iff.2 (hrest rfl ▸ hdivides)

/-- Plain lexemes before balanced ones. -/
theorem Balanced.behind {lexemes more : List (Lexeme Kind)}
    (h : ∀ l ∈ lexemes, isBracket l = false) (hmore : Balanced more) : Balanced (lexemes ++ more) := by
  induction lexemes with
  | nil => exact hmore
  | cons l lexemes ih =>
    obtain ⟨hl, hls⟩ := List.forall_mem_cons.1 h
    exact .plain hl (ih hls)

theorem isSpace_of_blanks {text : Text} (h : ∀ c ∈ text, Text.isPlainBlank c = true) :
    IsSpace dialect text := by
  have hdivides : (rule dialect).Divides (text ++ []) (text.map charLexeme) [] :=
    divides_chars (fun c hc => isPlainTypeChar_of_isPlainBlank (h c hc)) nofun
  rw [List.append_nil] at hdivides
  have hkinds : ∀ l ∈ text.map charLexeme, l.kind = .blank := by
    intro l hl
    obtain ⟨c, hc, rfl⟩ := List.mem_map.1 hl
    refine (kind_of_isPlainTypeChar (isPlainTypeChar_of_isPlainBlank (h c hc))).trans ?_
    rw [h c hc]
    rfl
  refine ⟨_, scans_iff.2 hdivides, fun l hl => .inr (.inr (hkinds l hl)), fun l hl => ?_⟩
  rw [hkinds l (List.mem_of_getLast? hl)]
  decide

instance (name : Text) : Decidable (IsIdentifier name) :=
  inferInstanceAs (Decidable (_ ∧ _ ∧ _ ∧ _))

instance (text : Text) : Decidable (Text.ClosesOff [] text) :=
  inferInstanceAs (Decidable (_ = _))

/-- A method with an attribute among its parameters, a constraint, and braces in its body. -/
def wrapMethod : Method :=
  ⟨[("public".toList, [' ']), ("static".toList, [' '])], "List<T>[]".toList, [' '], "Wrap".toList,
    ["T".toList], "[In] T[] xs".toList, [' '], "where T : class ".toList,
    " if (xs == null) \x7b return null; \x7d ".toList⟩

theorem isMethod_wrapMethod : wrapMethod.IsMethod where
  modifiers := by simp [wrapMethod, IsGap, methodModifiers, Text.isPlainBlank]
  type := by decide
  gap := by simp [wrapMethod, IsGap, Text.isPlainBlank]
  name := by decide
  typeParameters := by decide
  parameters := by
    refine ⟨"[In] T[] xs".toList.map charLexeme, scans_of_lexWithin (by decide), ?_⟩
    have hpairs : Pairs (charLexeme '[') (charLexeme ']') := .inr (.inr ⟨rfl, rfl⟩)
    have hname : Balanced (" xs".toList.map charLexeme ++ []) := .behind (by decide) .nil
    have htype : Balanced (" T".toList.map charLexeme ++
        charLexeme '[' :: ([] ++ charLexeme ']' :: (" xs".toList.map charLexeme ++ []))) :=
      .behind (by decide) (.group hpairs .nil hname)
    have hattribute : Balanced ("In".toList.map charLexeme ++ []) := .behind (by decide) .nil
    exact .group hpairs hattribute htype
  space := by decide
  constraints := .inr (by decide)
  clause := ⟨"where T : class ".toList.map charLexeme, scans_of_lexWithin rfl,
    .of_plain (by decide)⟩
  body := by
    refine ⟨" if (xs == null) \x7b return null; \x7d ".toList.map charLexeme,
      scans_of_lexWithin (by decide), fun front hfront => ?_, by decide⟩
    have hall : ∀ n ≤ 34, closes ((wrapMethod.body.map charLexeme).take n) ≤
        opens ((wrapMethod.body.map charLexeme).take n) := by decide
    rw [List.prefix_iff_eq_take.1 hfront]
    exact hall _ hfront.length_le

/-- A method with a type that is written like an annotation, and a literal with a bracket among its
parameters. -/
def findMethod : Method :=
  ⟨[("public".toList, [' '])], "@record".toList, [' '], "Find".toList, [], "char end = ']'".toList,
    [' '], [], []⟩

theorem isMethod_findMethod : findMethod.IsMethod where
  modifiers := by simp [findMethod, IsGap, methodModifiers, Text.isPlainBlank]
  type := by decide
  gap := by simp [findMethod, IsGap, Text.isPlainBlank]
  name := by decide
  typeParameters := by decide
  parameters := by
    refine ⟨"char end = ".toList.map charLexeme ++ [⟨.literal, "']'".toList⟩],
      scans_of_lexWithin (by decide), ?_⟩
    exact .behind (by decide) (.plain (by decide) .nil)
  space := by decide
  constraints := .inl rfl
  clause := ⟨[], show Scans _ ['{'] _ [] from scans_of_lexWithin rfl, .nil⟩
  body := ⟨[], show Scans _ ['\x7d'] _ [] from scans_of_lexWithin rfl, .nil⟩

theorem legible_findMethod : findMethod.Legible where
  type := by decide
  words := by decide
  noType := by decide
  typeParameters := by decide
  name := by decide
  closes := ⟨[' '], by decide, by decide⟩

/-- The class of the two has them. -/
theorem survey_methods_wrapMethod : ∃ found,
    Language.cSharp.survey (classText "class A ".toList
        [("\n  ".toList, wrapMethod), ("\n  ".toList, findMethod)] ['\n'] ++ ['\n']) = .ok found ∧
      found.1.map Routine.name = ["Wrap".toList, "Find".toList] := by
  have hlead : IsSpace .cSharp [] := isSpace_of_blanks nofun
  have hheader : ReadsAsHeader .cSharp "class A ".toList :=
    ⟨charLexeme 'c', "lass A ".toList.map charLexeme, scans_of_lexWithin (by decide +kernel), rfl,
      .of_plain (by decide)⟩
  have hread : Header.ofText true "class A ".toList = .typeDecl "A".toList "class A".toList := by
    decide +kernel
  have hspace : IsSpace .cSharp "\n  ".toList := isSpace_of_blanks (by decide)
  have hmembers : ∀ p ∈ [("\n  ".toList, wrapMethod), ("\n  ".toList, findMethod)],
      IsSpace .cSharp p.1 ∧ p.2.IsMethod :=
    List.forall_mem_cons.2 ⟨⟨hspace, isMethod_wrapMethod⟩,
      List.forall_mem_singleton.2 ⟨hspace, isMethod_findMethod⟩⟩
  have hwrap : wrapMethod.Legible := isMethod_wrapMethod.legible (by decide) (by decide) (by decide)
    (by decide) (by decide)
  have hbreak : IsSpace .cSharp ['\n'] := isSpace_of_blanks (by decide)
  have hfound := (survey_methods hlead hheader hread hmembers hbreak hbreak).1
    (List.forall_mem_cons.2 ⟨hwrap, List.forall_mem_singleton.2 legible_findMethod⟩)
  rwa [List.nil_append] at hfound

/-- A method without parameters and with an empty body. -/
def bareMethod (modifier type name : String) (typeParameters : List String) : Method :=
  ⟨[(modifier.toList, [' '])], type.toList, [' '], name.toList, typeParameters.map String.toList,
    [], [' '], [], []⟩

theorem isMethod_bareMethod {modifier type name : String} {typeParameters : List String}
    (hmodifier : modifier.toList ∈ methodModifiers)
    (htype : (type.toList.head?.map Text.isBlank).getD true = false ∧
      (∀ c ∈ type.toList, isTypeChar c = true) ∧ Text.ClosesOff [] type.toList)
    (hname : IsIdentifier name.toList)
    (htypeParameters : ∀ t ∈ typeParameters.map String.toList, IsIdentifier t) :
    (bareMethod modifier type name typeParameters).IsMethod where
  modifiers := by simpa [bareMethod, IsGap] using ⟨hmodifier, rfl⟩
  type := htype
  gap := by simp [bareMethod, IsGap, Text.isPlainBlank]
  name := hname
  typeParameters := htypeParameters
  parameters := ⟨[], show Scans _ [')'] _ [] from scans_of_lexWithin rfl, .nil⟩
  space := by simp [bareMethod, Text.isPlainBlank]
  constraints := .inl rfl
  clause := ⟨[], show Scans _ ['{'] _ [] from scans_of_lexWithin rfl, .nil⟩
  body := ⟨[], show Scans _ ['\x7d'] _ [] from scans_of_lexWithin rfl, .nil⟩

/-- Methods of which nothing is found: one that hides another, one with a type that is a tuple or has
the name of a declaring word, one with two type parameters, and one named like a word that begins
another construct. -/
def illegibleMethods : List Method :=
  [bareMethod "new" "void" "F" [], bareMethod "public" "(int, int)" "F" [],
    bareMethod "public" "record" "F" [], bareMethod "public" "void" "F" ["K", "V"],
    bareMethod "public" "void" "synchronized" []]

/-- **Methods that are not legible are not found**. -/
theorem survey_illegibleMethods :
    illegibleMethods.Forall fun m => m.IsMethod ∧
      Language.cSharp.routines (classText "class A ".toList [([' '], m)] [' ']) = .ok [] := by
  have hmethods : ∀ m ∈ illegibleMethods, m.IsMethod := by
    simp only [illegibleMethods, List.forall_mem_cons]
    refine ⟨?_, ?_, ?_, ?_, ?_, nofun⟩ <;>
      refine isMethod_bareMethod ?_ ?_ ?_ ?_ <;> decide
  refine List.forall_iff_forall_mem.2 fun m hm => ⟨hmethods m hm, ?_⟩
  rw [Language.routines_eq_compute]
  revert m
  decide +kernel

end Scholia.Source.Braced
