import Scholia.Proofs.Source.Procedural.History
/-!
# What one line does

A line opens a procedure or closes one, opens a type or closes one, or leaves what is open and what
has been found alone. It opens a procedure if it is the header of one that goes on with no other
header, has a body, and does not stand in an interface.
-/

namespace Scholia.Source.Procedural

open Text (foldLatin sameFold)

variable {s t : State} {line : PhysicalLine} {text : Text} {keywords words : List Text}

/-! ## Words at the front of a line -/

theorem leadingWord?_nil (words : List Text) : leadingWord? words [] = none := by
  rw [leadingWord?, List.findSome?_eq_none_iff]
  intro word _
  cases word <;> rfl

/-- Words that begin with other letters are not at the front of a text. -/
theorem leadingWord?_eq_none {c : Char} (r : Text)
    (h : ∀ word ∈ words, ∃ k ks, word = k :: ks ∧ sameFold k c = false) :
    leadingWord? words (c :: r) = none := by
  rw [leadingWord?, List.findSome?_eq_none_iff]
  intro word hword
  obtain ⟨k, ks, rfl, hk⟩ := h word hword
  rw [Text.dropKeyword?, hk]
  rfl

theorem declarator?_of_front {s : Text} (hs : Text.trimStart text = s)
    (hattribute : afterAttribute? s = none) (hmodifier : leadingWord? modifierWords s = none)
    (hkeyword : leadingWord? keywords s = none) : declarator? keywords text = none := by
  have hdrop : dropAttributes s = s := by
    rw [dropAttributes]
    split <;> simp_all
  have hspan : spanModifiers s = ([], s) := by
    rw [spanModifiers]
    split <;> simp_all
  rw [declarator?, hs, hdrop, hspan]
  show (leadingWord? keywords s).bind _ = none
  rw [hkeyword, Option.bind_none]

/-- A blank line declares nothing. -/
theorem declarator?_of_allBlank (h : Text.allBlank text = true) : declarator? keywords text = none :=
  declarator?_of_front (Text.trimStart_of_allBlank h) rfl (leadingWord?_nil _) (leadingWord?_nil _)

/-- The end of a declaration begins with the letter of its first word, in either case. -/
theorem exists_front_of_ending? {keyword : Text} (h : ending? words text = some keyword) :
    ∃ c r, Text.trimStart text = c :: r ∧ foldLatin c = 'e' := by
  obtain ⟨⟨written, rest⟩, hlead, -⟩ := Option.bind_eq_some_iff.1 h
  cases hfront : Text.trimStart text with
  | nil =>
    rw [hfront, leadingWord?_nil] at hlead
    cases hlead
  | cons c r =>
    refine ⟨c, r, rfl, Decidable.byContradiction fun hne => ?_⟩
    have hother : sameFold 'E' c = false := by
      rw [sameFold, beq_eq_false_iff_ne]
      exact fun he => hne (he.symm.trans (by decide))
    rw [hfront, leadingWord?_eq_none r (by simpa using hother)] at hlead
    cases hlead

/-- **The end of a declaration declares nothing**: no keyword begins with the letter that it begins
with. -/
theorem declarator?_of_ending? (h : (ending? words text).isSome = true)
    (hkeywords : ∀ word ∈ keywords, ∃ k ks, word = k :: ks ∧ foldLatin k ≠ 'e') :
    declarator? keywords text = none := by
  obtain ⟨keyword, h⟩ := Option.isSome_iff_exists.1 h
  obtain ⟨c, r, hfront, hc⟩ := exists_front_of_ending? h
  have hnone {words : List Text}
      (hwords : ∀ word ∈ words, ∃ k ks, word = k :: ks ∧ foldLatin k ≠ 'e') :
      leadingWord? words (c :: r) = none := by
    refine leadingWord?_eq_none r fun word hword => ?_
    obtain ⟨k, ks, hk, hne⟩ := hwords word hword
    exact ⟨k, ks, hk, by rw [sameFold, hc]; exact beq_eq_false_iff_ne.2 hne⟩
  have hattribute : afterAttribute? (c :: r) = none := by
    unfold afterAttribute?
    split
    · next he =>
      cases he
      exact absurd hc (by decide)
    · rfl
  refine declarator?_of_front hfront hattribute (hnone fun word hword => ?_) (hnone hkeywords)
  have hmodifiers : ∀ word ∈ modifierWords, word.head?.any (foldLatin · ≠ 'e') = true := by decide
  have hfirst := hmodifiers word hword
  cases word with
  | nil => cases hfirst
  | cons k ks => exact ⟨k, ks, rfl, of_decide_eq_true hfirst⟩

/-! ## Headers -/

/-- The header of a procedure that a line is, if it is one: it is no comment, and not blank. -/
def PhysicalLine.header? (line : PhysicalLine) : Option Declarator :=
  if isComment line.text || Text.allBlank line.text then none
  else declarator? procedureWords line.text

/-- A procedure that has no body. -/
def Declarator.isAbstract (d : Declarator) : Bool :=
  d.modifiers.any (Text.sameLetters "mustoverride".toList)

theorem PhysicalLine.header?_of_ending? (h : (ending? procedureWords line.text).isSome = true) :
    line.header? = none := by
  have hwords : ∀ word ∈ procedureWords, ∃ k ks, word = k :: ks ∧ foldLatin k ≠ 'e' := by
    simp only [procedureWords, List.map_cons, List.map_nil, List.forall_mem_cons]
    exact ⟨⟨'F', _, rfl, by decide⟩, ⟨'S', _, rfl, by decide⟩, by simp⟩
  rw [header?, declarator?_of_ending? h hwords, ite_self]

/-- What has been read of a procedure that has begun. -/
structure Begun where
  keyword : Text
  name : Text
  start : Nat
  deriving Repr, DecidableEq

/-- The procedure that a header begins. -/
def Declarator.begun (d : Declarator) (line : PhysicalLine) : Begun :=
  ⟨d.keyword, d.name, line.start⟩

def State.begun (s : State) : Option Begun :=
  s.procedure.map fun p => ⟨p.keyword, p.name, p.start⟩

/-- A line opens a procedure: it is the header of one and goes on with no other header, and the
procedure has a body and does not stand in an interface. -/
structure State.Opens (s : State) (line : PhysicalLine) (d : Declarator) : Prop where
  continued : s.continued = .no
  header : line.header? = some d
  concrete : d.isAbstract = false
  outside : State.inInterface s.types = false

/-! ## Lines -/

/-- What a line does: to the procedure that is open, to the types that are, and to what has been
found. -/
inductive Move (line : PhysicalLine) (s t : State) : Prop where
  | stay (hquiet : ∀ d, ¬ s.Opens line d) (hbegun : t.begun = s.begun) (htypes : t.types = s.types)
    (hfound : t.found = s.found)
  | opens (d : Declarator) (hopens : s.Opens line d) (hnone : s.begun = none)
    (hbegun : t.begun = some (d.begun line)) (htypes : t.types = s.types) (hfound : t.found = s.found)
  | closes (b : Begun) (keyword signature : Text) (bodyStart : Nat) (hheader : line.header? = none)
    (hbegun : s.begun = some b) (hending : ending? procedureWords line.text = some keyword)
    (hsame : Text.sameLetters b.keyword keyword = true) (hnone : t.begun = none)
    (htypes : t.types = s.types)
    (hfound : t.found = .routine b.name signature ⟨b.start, line.stop⟩ bodyStart :: s.found)
  | opensType (d : Declarator) (o : OpenType) (hheader : line.header? = none)
    (hdeclarator : declarator? typeWords line.text = some d) (hstart : o.start = line.start)
    (hinterface : o.isInterface = Text.sameLetters d.keyword "interface".toList)
    (hbegun : t.begun = s.begun) (htypes : t.types = o :: s.types) (hfound : t.found = s.found)
  | closesType (o : OpenType) (hheader : line.header? = none) (hbegun : t.begun = s.begun)
    (htypes : s.types = o :: t.types)
    (hfound : t.found = .typeDecl o.name o.signature ⟨o.start, line.stop⟩ :: s.found)

/-- Whether a line goes on with a header is told by the line before it: that goes on, and is the
header of a procedure or goes on with one itself. -/
def GoesOn (line : PhysicalLine) (s t : State) : Prop :=
  t.continued ≠ .no ↔
    State.isContinued line.text = true ∧ (s.continued ≠ .no ∨ line.header?.isSome = true)

theorem GoesOn.of_plain (hs : s.continued = .no) (ht : t.continued = .no)
    (hheader : line.header? = none) : GoesOn line s t := by
  rw [GoesOn, hs, ht, hheader]
  simp

/-- A line of a header goes on if it says so. -/
theorem GoesOn.of_header {goesOn : Continued} (hs : s.continued ≠ .no ∨ line.header?.isSome = true)
    (ht : t.continued = if State.isContinued line.text then goesOn else .no) (hgoesOn : goesOn ≠ .no) :
    GoesOn line s t := by
  rw [GoesOn, ht]
  cases State.isContinued line.text with
  | true => exact iff_of_true hgoesOn ⟨rfl, hs⟩
  | false => simp

theorem State.not_opens (hheader : line.header? = none) (d : Declarator) : ¬ s.Opens line d :=
  fun h => by cases hheader.symm.trans h.header

/-- **Every line moves the state**, and says whether the next one goes on with a header. -/
theorem step_moves (h : s.step line = .ok t) : Move line s t ∧ GoesOn line s t := by
  have hbusy (hs : s.continued ≠ .no) : ∀ d, ¬ s.Opens line d := fun d hopens =>
    hs hopens.continued
  have hskipped (hskip : (isComment line.text || Text.allBlank line.text) = true) :
      line.header? = none := if_pos hskip
  have hcoded (hcode : s.AtCode line) : line.header? = declarator? procedureWords line.text :=
    if_neg (Bool.eq_false_iff.1 hcode.code)
  -- a line that is no header and leaves everything as it was
  have hstay (hs : s.continued = .no) (hheader : line.header? = none) {t : State}
      (hbegun : t.begun = s.begun) (htypes : t.types = s.types) (hfound : t.found = s.found)
      (ht : t.continued = .no) : Move line s t ∧ GoesOn line s t :=
    ⟨.stay (State.not_opens hheader) hbegun htypes hfound, .of_plain hs ht hheader⟩
  cases State.step_eq_ok_iff.1 h with
  | passed hc =>
    have hs : s.continued ≠ .no := by rw [hc]; decide
    exact ⟨.stay (hbusy hs) rfl rfl rfl, .of_header (.inl hs) rfl (by decide)⟩
  | header hc =>
    have hs : s.continued ≠ .no := by rw [hc]; decide
    refine ⟨.stay (hbusy hs) ?_ rfl rfl, .of_header (.inl hs) rfl (by decide)⟩
    rw [State.begun, State.begun, Option.map_map]
    rfl
  | openBanner hc hbanner =>
    exact hstay hc (hskipped (by rw [isComment_of_isBanner hbanner]; rfl)) rfl rfl rfl hc
  | closeBanner hc hbanner =>
    exact hstay hc (hskipped (by rw [isComment_of_isBanner hbanner]; rfl)) rfl rfl
      (List.filter_cons_of_neg (by simp [Node.doc, Node.declares])) hc
  | skip hc _ hskip => exact hstay hc (hskipped hskip) rfl rfl rfl hc
  | endLambda hcode hending =>
    have hheader : line.header? = none := PhysicalLine.header?_of_ending? (by rw [hending]; rfl)
    exact hstay hcode.continued hheader rfl rfl rfl hcode.continued
  | @endProcedure keyword p hcode hending _ hopen hsame =>
    have hheader : line.header? = none := PhysicalLine.header?_of_ending? (by rw [hending]; rfl)
    refine ⟨.closes ⟨p.keyword, p.name, p.start⟩ keyword _ p.bodyStart hheader ?_ hending hsame rfl rfl
      rfl, .of_plain hcode.continued hcode.continued hheader⟩
    rw [State.begun, hopen]
    rfl
  | @member d hcode _ hheader hbodiless =>
    have hheader : line.header? = some d := (hcoded hcode).trans hheader
    refine ⟨.stay (fun d' hopens => ?_) rfl rfl rfl,
      .of_header (.inr (by rw [hheader]; rfl)) rfl (by decide)⟩
    cases hheader.symm.trans hopens.header
    rcases Bool.or_eq_true _ _ ▸ hbodiless with habstract | hinterface
    · exact absurd (hopens.concrete.symm.trans habstract) (by decide)
    · exact absurd (hopens.outside.symm.trans hinterface) (by decide)
  | @beginProcedure d hcode _ hheader hbody hnone =>
    have hheader : line.header? = some d := (hcoded hcode).trans hheader
    obtain ⟨hconcrete, houtside⟩ := Bool.or_eq_false_iff.1 hbody
    refine ⟨.opens d ⟨hcode.continued, hheader, hconcrete, houtside⟩ ?_ rfl rfl rfl,
      .of_header (.inr (by rw [hheader]; rfl)) rfl (by decide)⟩
    rw [State.begun, hnone]
    rfl
  | inside hplain =>
    have hheader : line.header? = none := (hcoded hplain.toAtCode).trans hplain.header
    exact hstay hplain.continued hheader rfl rfl rfl hplain.continued
  | @beginType d hplain _ htype =>
    have hheader : line.header? = none := (hcoded hplain.toAtCode).trans hplain.header
    exact ⟨.opensType d _ hheader htype rfl rfl rfl rfl rfl,
      .of_plain hplain.continued hplain.continued hheader⟩
  | @endType _ o _ hplain _ _ _ hopen =>
    have hheader : line.header? = none := (hcoded hplain.toAtCode).trans hplain.header
    exact ⟨.closesType o hheader rfl hopen rfl,
      .of_plain hplain.continued hplain.continued hheader⟩
  | outside hplain =>
    have hheader : line.header? = none := (hcoded hplain.toAtCode).trans hplain.header
    exact hstay hplain.continued hheader rfl rfl rfl hplain.continued

/-- The header of a procedure leaves the types alone that are open, and what has been found. -/
theorem step_of_header (h : s.step line = .ok t) (hheader : line.header?.isSome = true) :
    t.types = s.types ∧ t.found = s.found := by
  cases (step_moves h).1 with
  | stay _ _ htypes hfound => exact ⟨htypes, hfound⟩
  | opens _ _ _ _ htypes hfound => exact ⟨htypes, hfound⟩
  | closes _ _ _ _ hnone =>
    rw [hnone] at hheader
    cases hheader
  | opensType _ _ hnone =>
    rw [hnone] at hheader
    cases hheader
  | closesType _ hnone =>
    rw [hnone] at hheader
    cases hheader

end Scholia.Source.Procedural
