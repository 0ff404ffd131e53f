import Scholia.Proofs.Source.Placement
/-!
# Attributes of the procedural language

An attribute stands between angle brackets; inside it an angle bracket closes nothing that stands in
parentheses or in a string. A line with attributes may be continued by an underscore. Whether a gap
holds nothing else is decided in one pass, with the open parentheses counted.
-/

namespace Scholia.Source.Procedural

/-- The inside of an attribute with so many parentheses to close. -/
inductive AttributeBody : Nat → Text → Prop
  | done : AttributeBody 0 []
  | plain {n : Nat} {c : Char} {s : Text} (hc : c ≠ '"' ∧ c ≠ '(' ∧ c ≠ ')' ∧ c ≠ '>')
    (more : AttributeBody n s) : AttributeBody n (c :: s)
  | angle {n : Nat} {s : Text} (more : AttributeBody (n + 1) s) : AttributeBody (n + 1) ('>' :: s)
  | openParen {n : Nat} {s : Text} (more : AttributeBody (n + 1) s) : AttributeBody n ('(' :: s)
  | closeParen {n : Nat} {s : Text} (more : AttributeBody n s) : AttributeBody (n + 1) (')' :: s)
  | quoted {n : Nat} {q s : Text} (hq : ∀ c ∈ q, c ≠ '"') (more : AttributeBody n s) :
    AttributeBody n ('"' :: (q ++ '"' :: s))

/-- Nothing but blanks, complete attributes and underscores at the end of a line. -/
inductive OnlyAttributes : Text → Prop
  | nil : OnlyAttributes []
  | blank {c : Char} {s : Text} (hc : Text.isBlank c = true) (more : OnlyAttributes s) :
    OnlyAttributes (c :: s)
  | continued {lead s : Text} (hlead : ∀ c ∈ lead, c ≠ '\n' ∧ Text.isBlank c = true)
    (more : OnlyAttributes s) : OnlyAttributes ('_' :: (lead ++ '\n' :: s))
  | bracketed {body s : Text} (hbody : AttributeBody 0 body) (more : OnlyAttributes s) :
    OnlyAttributes ('<' :: (body ++ '>' :: s))

/-- Where in a gap a character is read. -/
inductive Reading where
  | between
  /-- Behind an underscore. -/
  | continued
  /-- In an attribute, with so many parentheses to close. -/
  | inside (parens : Nat)
  | quoted (parens : Nat)
  deriving Repr, DecidableEq

/-- What is read after a character, unless it cannot stand there. -/
def Reading.next? : Reading → Char → Option Reading
  | .between, c =>
    if c = '<' then some (.inside 0)
    else if c = '_' then some .continued
    else if Text.isBlank c then some .between
    else none
  | .continued, c =>
    if c = '\n' then some .between
    else if Text.isBlank c then some .continued
    else none
  | .inside n, c =>
    if c = '"' then some (.quoted n)
    else if c = '(' then some (.inside (n + 1))
    else if c = ')' then if n = 0 then none else some (.inside (n - 1))
    else if c = '>' then if n = 0 then some .between else some (.inside n)
    else some (.inside n)
  | .quoted n, c => some (if c = '"' then .inside n else .quoted n)

/-- Whether a text read from here on holds only attributes. -/
def onlyAttributes : Reading → Text → Bool
  | reading, [] => reading == .between
  | reading, c :: r =>
    match reading.next? c with
    | some next => onlyAttributes next r
    | none => false

/-- What is left to read from here on. -/
def Reading.Rest : Reading → Text → Prop
  | .between, s => OnlyAttributes s
  | .continued, s => ∃ lead rest, s = lead ++ '\n' :: rest ∧
      (∀ c ∈ lead, c ≠ '\n' ∧ Text.isBlank c = true) ∧ OnlyAttributes rest
  | .inside n, s => ∃ body rest, s = body ++ '>' :: rest ∧ AttributeBody n body ∧
      OnlyAttributes rest
  | .quoted n, s => ∃ q body rest, s = q ++ '"' :: (body ++ '>' :: rest) ∧ (∀ c ∈ q, c ≠ '"') ∧
      AttributeBody n body ∧ OnlyAttributes rest

/-- A character of the rest is put before it. -/
theorem Reading.Rest.cons {reading next : Reading} {c : Char} {s : Text} (h : next.Rest s)
    (hnext : reading.next? c = some next) : reading.Rest (c :: s) := by
  cases reading with
  | between =>
    simp only [Reading.next?] at hnext
    split at hnext
    · next hc =>
      cases hnext
      obtain ⟨body, rest, rfl, hbody, hrest⟩ := h
      exact hc ▸ .bracketed hbody hrest
    split at hnext
    · next hc =>
      cases hnext
      obtain ⟨lead, rest, rfl, hlead, hrest⟩ := h
      exact hc ▸ .continued hlead hrest
    split at hnext
    · next hc =>
      cases hnext
      exact .blank hc h
    · cases hnext
  | continued =>
    simp only [Reading.next?] at hnext
    split at hnext
    · next hc =>
      cases hnext
      exact ⟨[], s, by rw [hc]; rfl, by simp, h⟩
    · next hn =>
      split at hnext
      · next hc =>
        cases hnext
        obtain ⟨lead, rest, rfl, hlead, hrest⟩ := h
        exact ⟨c :: lead, rest, rfl, List.forall_mem_cons.2 ⟨⟨hn, hc⟩, hlead⟩, hrest⟩
      · cases hnext
  | inside n =>
    simp only [Reading.next?] at hnext
    by_cases hq : c = '"'
    · rw [if_pos hq] at hnext
      cases hnext
      obtain ⟨q, body, rest, rfl, hquote, hbody, hrest⟩ := h
      refine ⟨'"' :: (q ++ '"' :: body), rest, ?_, .quoted hquote hbody, hrest⟩
      rw [hq]
      simp
    rw [if_neg hq] at hnext
    by_cases ho : c = '('
    · rw [if_pos ho] at hnext
      cases hnext
      obtain ⟨body, rest, rfl, hbody, hrest⟩ := h
      exact ⟨'(' :: body, rest, by rw [ho]; rfl, .openParen hbody, hrest⟩
    rw [if_neg ho] at hnext
    by_cases hcl : c = ')'
    · rw [if_pos hcl] at hnext
      split at hnext
      · cases hnext
      · next hn =>
        cases hnext
        obtain ⟨body, rest, rfl, hbody, hrest⟩ := h
        refine ⟨')' :: body, rest, by rw [hcl]; rfl, ?_, hrest⟩
        have := hbody.closeParen
        rwa [Nat.sub_add_cancel (Nat.one_le_iff_ne_zero.2 hn)] at this
    rw [if_neg hcl] at hnext
    by_cases ha : c = '>'
    · rw [if_pos ha] at hnext
      split at hnext
      · next hn =>
        cases hnext
        exact ⟨[], s, by rw [ha]; rfl, hn ▸ .done, h⟩
      · next hn =>
        cases hnext
        obtain ⟨body, rest, rfl, hbody, hrest⟩ := h
        obtain ⟨m, rfl⟩ := Nat.exists_eq_succ_of_ne_zero hn
        exact ⟨'>' :: body, rest, by rw [ha]; rfl, hbody.angle, hrest⟩
    · rw [if_neg ha] at hnext
      cases hnext
      obtain ⟨body, rest, rfl, hbody, hrest⟩ := h
      exact ⟨c :: body, rest, rfl, .plain ⟨hq, ho, hcl, ha⟩ hbody, hrest⟩
  | quoted n =>
    cases hnext
    split at h
    · next hc =>
      obtain ⟨body, rest, rfl, hbody, hrest⟩ := h
      exact ⟨[], body, rest, by rw [hc]; rfl, by simp, hbody, hrest⟩
    · next hc =>
      obtain ⟨q, body, rest, rfl, hquote, hbody, hrest⟩ := h
      exact ⟨c :: q, body, rest, rfl, List.forall_mem_cons.2 ⟨hc, hquote⟩, hbody, hrest⟩

theorem rest_of_onlyAttributes {reading : Reading} {s : Text}
    (h : onlyAttributes reading s = true) : reading.Rest s := by
  induction s generalizing reading with
  | nil =>
    rw [eq_of_beq (show (reading == .between) = true from h)]
    exact OnlyAttributes.nil
  | cons c s ih =>
    rw [onlyAttributes] at h
    split at h
    · next next hnext => exact (ih h).cons hnext
    · cases h

/-! ## The other way round -/

/-- A character that may stand here is read on. -/
theorem onlyAttributes_cons {reading : Reading} (next : Reading) {c : Char} (s : Text)
    (h : reading.next? c = some next) : onlyAttributes reading (c :: s) = onlyAttributes next s := by
  rw [onlyAttributes, h]

theorem onlyAttributes_continued {lead : Text} (s : Text)
    (h : ∀ c ∈ lead, c ≠ '\n' ∧ Text.isBlank c = true) :
    onlyAttributes .continued (lead ++ '\n' :: s) = onlyAttributes .between s := by
  induction lead with
  | nil => rfl
  | cons c lead ih =>
    obtain ⟨⟨hn, hc⟩, hlead⟩ := List.forall_mem_cons.1 h
    rw [List.cons_append, onlyAttributes_cons .continued, ih hlead]
    rw [Reading.next?, if_neg hn, if_pos hc]

theorem onlyAttributes_quoted {n : Nat} {q : Text} (s : Text) (h : ∀ c ∈ q, c ≠ '"') :
    onlyAttributes (.quoted n) (q ++ '"' :: s) = onlyAttributes (.inside n) s := by
  induction q with
  | nil => rfl
  | cons c q ih =>
    obtain ⟨hc, hq⟩ := List.forall_mem_cons.1 h
    rw [List.cons_append, onlyAttributes_cons (.quoted n), ih hq]
    rw [Reading.next?, if_neg hc]

theorem AttributeBody.onlyAttributes {n : Nat} {body : Text} (h : AttributeBody n body) (s : Text) :
    onlyAttributes (.inside n) (body ++ '>' :: s) = onlyAttributes .between s := by
  induction h with
  | done => rfl
  | @plain n c _ hc _ ih =>
    rw [List.cons_append, onlyAttributes_cons (.inside n), ih]
    rw [Reading.next?, if_neg hc.1, if_neg hc.2.1, if_neg hc.2.2.1, if_neg hc.2.2.2]
  | angle _ ih => exact ih
  | openParen _ ih => exact ih
  | closeParen _ ih => exact ih
  | quoted hq _ ih =>
    rw [List.cons_append, List.append_assoc]
    exact (onlyAttributes_quoted _ hq).trans ih

/-- **One pass decides whether a text holds only attributes**. -/
theorem onlyAttributes_iff (s : Text) : onlyAttributes .between s = true ↔ OnlyAttributes s := by
  refine ⟨rest_of_onlyAttributes, fun h => ?_⟩
  induction h with
  | nil => rfl
  | @blank c s hc _ ih =>
    have hne : ∀ d, Text.isBlank d = false → c ≠ d := by
      intro d hd he
      rw [he, hd] at hc
      cases hc
    rw [onlyAttributes_cons .between, ih]
    rw [Reading.next?, if_neg (hne '<' rfl), if_neg (hne '_' rfl), if_pos hc]
  | continued hlead _ ih => exact (onlyAttributes_continued _ hlead).trans ih
  | bracketed hbody _ ih => exact (hbody.onlyAttributes _).trans ih

end Scholia.Source.Procedural
