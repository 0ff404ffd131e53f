import Scholia.Json.Decode
import Scholia.Proofs.Except
/-!
# Structures read from objects

`valuesOf` lists the values that an object gives a name. A structure is read from an object exactly
by these lists: each field of the structure has at most one value, which passes its test, and the
fields make up the structure (`Record.Reads`). How a structure is put together from fields is
followed step by step (`Reads.seq`, `Reads.map`), so that for a structure only its fields have to be
looked at.

**The law** (`Record.Reads.read`): such an object is read as the structure, whatever other fields it
has.
-/

namespace Scholia.Json

variable {α β : Type} {fields : List (Text × Json)}

/-! ## What is written of a value -/

namespace Written

mutual

theorem isWhole_ofJson (j : Json) : (ofJson j).isWhole = true := by
  cases j with
  | array items => rw [ofJson, isWhole, areWhole_ofItems items]
  | object fields => rw [ofJson, isWhole, fieldsAreWhole_ofFields fields]
  | _ => rfl

theorem areWhole_ofItems (items : List Json) : areWhole (ofItems items) = true := by
  cases items with
  | nil => rfl
  | cons item items =>
    rw [ofItems, areWhole, isWhole_ofJson item, areWhole_ofItems items, Bool.true_and]

theorem fieldsAreWhole_ofFields (fields : List (Text × Json)) :
    fieldsAreWhole (ofFields fields) = true := by
  match fields with
  | [] => rfl
  | (name, value) :: fields =>
    rw [ofFields, fieldsAreWhole, isWhole_ofJson value, fieldsAreWhole_ofFields fields]
    rfl

end

mutual

/-- **What has a value is what is written of it**. -/
theorem eq_ofJson {w : Written} {j : Json} (h : w.value? = some j) : w = ofJson j := by
  match w with
  | .null | .bool _ | .number _ | .string (some _) =>
    cases h
    rfl
  | .string none | .broken => cases h
  | .array items =>
    obtain ⟨values, hvalues, rfl⟩ := Option.map_eq_some_iff.1 h
    rw [ofJson, eq_ofItems hvalues]
  | .object fields =>
    obtain ⟨values, hvalues, rfl⟩ := Option.map_eq_some_iff.1 h
    rw [ofJson, eq_ofFields hvalues]

theorem eq_ofItems {items : List Written} {values : List Json} (h : values? items = some values) :
    items = ofItems values := by
  match items with
  | [] =>
    cases h
    rfl
  | item :: items =>
    obtain ⟨value, hvalue, hrest⟩ := Option.bind_eq_some_iff.1 h
    obtain ⟨rest, hitems, hvalues⟩ := Option.bind_eq_some_iff.1 hrest
    cases hvalues
    rw [ofItems, ← eq_ofJson hvalue, ← eq_ofItems hitems]

theorem eq_ofFields {fields : List (Written × Written)} {values : List (Text × Json)}
    (h : fieldValues? fields = some values) : fields = ofFields values := by
  match fields with
  | [] =>
    cases h
    rfl
  | (.string (some name), value) :: fields =>
    obtain ⟨first, hfirst, hrest⟩ := Option.bind_eq_some_iff.1 h
    obtain ⟨rest, hfields, hvalues⟩ := Option.bind_eq_some_iff.1 hrest
    cases hvalues
    rw [ofFields, ← eq_ofJson hfirst, ← eq_ofFields hfields]

end

end Written

open Written (ofJson ofFields ofItems)

/-- **A text is read by its value**, if it has one. -/
theorem read?_of_parse? {s : Text} {j : Json} (h : parse? s = some j) (reader : Reader α) :
    read? reader s = (reader (ofJson j)).toOption := by
  obtain ⟨w, hw, hvalue⟩ := Option.bind_eq_some_iff.1 h
  rw [read?, hw, ← Written.eq_ofJson hvalue]
  rfl

/-! ## Fields of an object -/

/-- The values that an object gives a name. -/
def valuesOf (name : Text) (fields : List (Text × Json)) : List Json :=
  (fields.filter (·.1 == name)).map (·.2)

theorem valuesOf_cons_self (name : Text) (value : Json) (fields : List (Text × Json)) :
    valuesOf name ((name, value) :: fields) = value :: valuesOf name fields := by
  simp [valuesOf]

theorem valuesOf_cons_of_ne {name other : Text} (h : other ≠ name) (value : Json)
    (fields : List (Text × Json)) :
    valuesOf name ((other, value) :: fields) = valuesOf name fields := by
  simp [valuesOf, h]

/-- A field in front takes no value away. -/
theorem valuesOf_sublist (name : Text) (field : Text × Json) (fields : List (Text × Json)) :
    (valuesOf name fields).Sublist (valuesOf name (field :: fields)) :=
  ((List.sublist_cons_self field fields).filter _).map _

namespace Record

/-- The fields of an object that a structure knows. -/
def kept (known : List (Text × Reader Unit)) (fields : List (Text × Json)) :
    List (Text × Written) :=
  (fields.filter fun f => (known.find? (·.1 == f.1)).isSome).map fun f => (f.1, ofJson f.2)

variable {known : List (Text × Reader Unit)} {seen : List Text}

theorem kept_cons_known {name : Text} (h : (known.find? (·.1 == name)).isSome = true)
    (value : Json) (fields : List (Text × Json)) :
    kept known ((name, value) :: fields) = (name, ofJson value) :: kept known fields := by
  rw [kept, List.filter_cons, if_pos h]
  rfl

theorem kept_cons_other {name : Text} (h : (known.find? (·.1 == name)).isSome = false)
    (value : Json) (fields : List (Text × Json)) :
    kept known ((name, value) :: fields) = kept known fields := by
  rw [kept, List.filter_cons, if_neg (Bool.not_eq_true _ ▸ h)]
  rfl

theorem isSome_find?_iff {name : Text} :
    (known.find? (·.1 == name)).isSome = true ↔ ∃ test, (name, test) ∈ known := by
  rw [List.find?_isSome]
  constructor
  · rintro ⟨⟨other, test⟩, hmem, he⟩
    exact ⟨test, beq_iff_eq.1 he ▸ hmem⟩
  · rintro ⟨test, hmem⟩
    exact ⟨(name, test), hmem, beq_self_eq_true name⟩

/-- A known name has the value that is found first. -/
theorem find?_kept {name : Text} (h : ∃ test, (name, test) ∈ known) :
    ((kept known fields).find? (·.1 == name)).map (·.2) =
      (valuesOf name fields).head?.map ofJson := by
  induction fields with
  | nil => rfl
  | cons f fields ih =>
    obtain ⟨other, value⟩ := f
    by_cases hname : other = name
    · subst hname
      rw [kept_cons_known (isSome_find?_iff.2 h), valuesOf_cons_self, List.find?_cons,
        beq_self_eq_true]
      rfl
    · rw [valuesOf_cons_of_ne hname, ← ih]
      cases hknown : (known.find? (·.1 == other)).isSome with
      | true => rw [kept_cons_known hknown, List.find?_cons, beq_eq_false_iff_ne.2 hname]
      | false => rw [kept_cons_other hknown]

/-- One field of an object is tested. -/
theorem testFields_cons (name : Text) (value : Json) (fields : List (Text × Json)) :
    testFields known seen (ofFields ((name, value) :: fields)) =
      match known.find? (·.1 == name) with
      | some (_, test) =>
        if seen.contains name then .error .misfit
        else do
          test (ofJson value)
          return (name, ofJson value) :: (← testFields known (name :: seen) (ofFields fields))
      | none => testFields known seen (ofFields fields) := by
  have hany : asAny (ofJson value) = .ok (ofJson value) := if_pos (Written.isWhole_ofJson value)
  rw [ofFields, testFields]
  show (match known.find? (·.1 == name) with
      | some (_, test) => _
      | none => do
        let _ ← asAny (ofJson value)
        testFields known seen (ofFields fields)) = _
  rw [hany]
  rfl

/-- **Whatever passes its tests is kept**. -/
theorem eq_kept_of_testFields {found : List (Text × Written)}
    (h : testFields known seen (ofFields fields) = .ok found) : found = kept known fields := by
  induction fields generalizing seen found with
  | nil =>
    cases h
    rfl
  | cons f fields ih =>
    obtain ⟨name, value⟩ := f
    rw [testFields_cons] at h
    cases hfind : known.find? (·.1 == name) with
    | none =>
      rw [hfind] at h
      rw [ih h, kept_cons_other (congrArg Option.isSome hfind)]
    | some entry =>
      rw [hfind] at h
      dsimp only at h
      split at h
      · cases h
      · obtain ⟨-, -, hrest⟩ := bind_eq_ok.1 h
        obtain ⟨later, hlater, hfound⟩ := bind_eq_ok.1 hrest
        cases hfound
        rw [ih hlater, kept_cons_known (congrArg Option.isSome hfind)]

/-- The known fields of an object are each there at most once and pass their tests. -/
structure Fits (known : List (Text × Reader Unit)) (fields : List (Text × Json)) : Prop where
  once : ∀ {name test}, (name, test) ∈ known → (valuesOf name fields).length ≤ 1
  passes : ∀ {name test}, (name, test) ∈ known →
    ∀ value ∈ valuesOf name fields, test (ofJson value) = .ok ()

theorem Fits.tail {f : Text × Json} (h : Fits known (f :: fields)) : Fits known fields where
  once hmem := Nat.le_trans (valuesOf_sublist _ f fields).length_le (h.once hmem)
  passes hmem value hvalue := h.passes hmem value ((valuesOf_sublist _ f fields).subset hvalue)

/-- **Fields that fit are kept**. -/
theorem Fits.testFields (h : Fits known fields)
    (hseen : ∀ name ∈ seen, valuesOf name fields = []) :
    testFields known seen (ofFields fields) = .ok (kept known fields) := by
  induction fields generalizing seen with
  | nil => rfl
  | cons f fields ih =>
    obtain ⟨name, value⟩ := f
    have hrest : ∀ other ∈ seen, valuesOf other fields = [] := fun other hmem =>
      List.eq_nil_of_subset_nil ((hseen other hmem) ▸ (valuesOf_sublist other (name, value) fields).subset)
    rw [testFields_cons]
    cases hfind : known.find? (·.1 == name) with
    | none => rw [ih h.tail hrest, kept_cons_other (congrArg Option.isSome hfind)]
    | some entry =>
      obtain ⟨other, test⟩ := entry
      have hother := List.find?_some hfind
      obtain rfl : other = name := by simpa using hother
      have hmem := List.mem_of_find?_eq_some hfind
      have hfresh : seen.contains other = false := by
        rw [← Bool.not_eq_true, List.contains_iff_mem]
        intro hold
        have hnone := hseen other hold
        rw [valuesOf_cons_self] at hnone
        cases hnone
      have hpass : test (ofJson value) = .ok () :=
        h.passes hmem value (valuesOf_cons_self other value fields ▸ List.mem_cons_self)
      have hlast : valuesOf other fields = [] := by
        have honce := h.once hmem
        rw [valuesOf_cons_self, List.length_cons] at honce
        exact List.length_eq_zero_iff.1 (Nat.le_zero.1 (Nat.le_of_succ_le_succ honce))
      have hlater := ih h.tail (List.forall_mem_cons.2 ⟨hlast, hrest⟩)
      rw [kept_cons_known (congrArg Option.isSome hfind)]
      simp only [hfresh, hpass, hlater]
      rfl

/-! ## Structures of fields -/

/-- What fields say of an object's values. -/
def Found (names : List Text) (fields : List (Text × Json)) (f : Fields) : Prop :=
  f.positional = false ∧ ∀ name : String, name.toList ∈ names →
    f.get? name = (valuesOf name.toList fields).head?.map ofJson

/-- The fields of an object make up a structure. -/
structure Reads (r : Record α) (fields : List (Text × Json)) (a : α) : Prop where
  fits : Fits r.fields fields
  build : ∀ f, Found (r.fields.map (·.1)) fields f → r.build f = .ok a

/-- What is read from an object is made of what its fields say. -/
theorem found_of_read {r : Record α} {a : α} (h : r.read (ofJson (.object fields)) = .ok a) :
    ∃ f, Found (r.fields.map (·.1)) fields f ∧ r.build f = .ok a := by
  rw [ofJson, Record.read] at h
  obtain ⟨found, hfound, hbuild⟩ := bind_eq_ok.1 h
  refine ⟨⟨false, found⟩, ⟨rfl, fun name hname => ?_⟩, hbuild⟩
  obtain ⟨⟨_, test⟩, hmem, rfl⟩ := List.mem_map.1 hname
  rw [eq_kept_of_testFields hfound]
  exact find?_kept ⟨test, hmem⟩

namespace Reads

variable {name : String} {reader : Reader α} {missing : Fields → Except Flaw α} {value : Json} {a : α}

/-- **An object is read as the structure that its fields make up**. -/
theorem read {r : Record α} (h : r.Reads fields a) : r.read (ofJson (.object fields)) = .ok a := by
  rw [ofJson, Record.read, h.fits.testFields (List.forall_mem_nil _)]
  refine h.build _ ⟨rfl, fun name hname => ?_⟩
  obtain ⟨⟨_, test⟩, hmem, rfl⟩ := List.mem_map.1 hname
  exact find?_kept ⟨test, hmem⟩

theorem pure (a : α) : (Pure.pure a : Record α).Reads fields a where
  fits :=
    { once := fun hmem => absurd hmem List.not_mem_nil
      passes := fun hmem => absurd hmem List.not_mem_nil }
  build _ _ := rfl

theorem seq {f : Record (α → β)} {x : Record α} {g : α → β} (hf : f.Reads fields g)
    (hx : x.Reads fields a) : (f <*> x).Reads fields (g a) where
  fits :=
    { once := fun hmem => (List.mem_append.1 hmem).elim hf.fits.once hx.fits.once
      passes := fun hmem => (List.mem_append.1 hmem).elim hf.fits.passes hx.fits.passes }
  build found hfound := by
    obtain ⟨hpos, hget⟩ := hfound
    have hnames : ((f <*> x).fields.map (·.1)) = f.fields.map (·.1) ++ x.fields.map (·.1) :=
      List.map_append
    have hg := hf.build found ⟨hpos, fun name hname =>
      hget name (hnames ▸ List.mem_append_left _ hname)⟩
    have ha := hx.build found ⟨hpos, fun name hname =>
      hget name (hnames ▸ List.mem_append_right _ hname)⟩
    show (do return (← f.build found) (← x.build found)) = _
    rw [hg, ha]
    rfl

theorem map {x : Record α} (g : α → β) (hx : x.Reads fields a) : (g <$> x).Reads fields (g a) :=
  seq (pure g) hx

/-- A field that is there. -/
theorem present (hvalue : valuesOf name.toList fields = [value])
    (hread : reader (ofJson value) = .ok a) : (field name reader missing).Reads fields a where
  fits := by
    constructor
    · intro other test hmem
      cases List.mem_singleton.1 hmem
      rw [hvalue]
      exact Nat.le_refl 1
    · intro other test hmem v hv
      cases List.mem_singleton.1 hmem
      rw [hvalue] at hv
      rw [List.mem_singleton.1 hv]
      exact congrArg (Except.map _) hread
  build found hfound := by
    have hget := hfound.2 name List.mem_cons_self
    rw [hvalue] at hget
    show (found.get? name).elim (missing found) reader = _
    rw [hget]
    exact hread

/-- A field that is not there. -/
theorem absent (hvalue : valuesOf name.toList fields = [])
    (hmissing : ∀ f : Fields, f.positional = false → missing f = .ok a) :
    (field name reader missing).Reads fields a where
  fits := by
    constructor
    · intro other test hmem
      cases List.mem_singleton.1 hmem
      rw [hvalue]
      exact Nat.zero_le 1
    · intro other test hmem v hv
      cases List.mem_singleton.1 hmem
      rw [hvalue] at hv
      cases hv
  build found hfound := by
    have hget := hfound.2 name List.mem_cons_self
    rw [hvalue] at hget
    show (found.get? name).elim (missing found) reader = _
    rw [hget]
    exact hmissing found hfound.1

end Reads

/-! ## What holds of all structures that are read -/

/-- Whatever a structure is built of, it has the property. -/
def Builds (r : Record α) (P : α → Prop) : Prop :=
  ∀ f a, r.build f = .ok a → P a

namespace Builds

variable {P : α → Prop} {R : β → Prop}

theorem any (r : Record α) : r.Builds fun _ => True :=
  fun _ _ _ => trivial

theorem field {name : String} {reader : Reader α} {missing : Fields → Except Flaw α}
    (hreader : ∀ w a, reader w = .ok a → P a) (hmissing : ∀ f a, missing f = .ok a → P a) :
    (field name reader missing).Builds P := by
  intro f a h
  change (f.get? name).elim (missing f) reader = .ok a at h
  cases hget : f.get? name with
  | none => exact hmissing f a (by rwa [hget] at h)
  | some w => exact hreader w a (by rwa [hget] at h)

theorem seq {f : Record (α → β)} {x : Record α} (hf : f.Builds fun g => ∀ a, P a → R (g a))
    (hx : x.Builds P) : (f <*> x).Builds R := by
  intro fields b h
  obtain ⟨g, hg, hrest⟩ := bind_eq_ok.1 h
  obtain ⟨a, ha, hb⟩ := bind_eq_ok.1 hrest
  cases hb
  exact hf fields g hg a (hx fields a ha)

theorem map {x : Record α} {g : α → β} (hg : ∀ a, P a → R (g a)) (hx : x.Builds P) :
    (g <$> x).Builds R := by
  refine seq (f := Pure.pure g) (fun _ _ h => ?_) hx
  cases h
  exact hg

/-- **What holds of all that is built holds of all that is read**. -/
theorem read {r : Record α} (h : r.Builds P) {w : Written} {a : α} (hread : r.read w = .ok a) :
    P a := by
  cases w with
  | object fields =>
    obtain ⟨found, -, hbuild⟩ := bind_eq_ok.1 hread
    exact h _ a hbuild
  | array items =>
    obtain ⟨found, -, hbuild⟩ := bind_eq_ok.1 hread
    exact h _ a hbuild
  | _ => cases hread

end Builds

end Record

/-- A value that is not null has been read. -/
theorem asOption_eq_some {reader : Reader α} {w : Written} {a : α}
    (h : asOption reader w = .ok (some a)) : reader w = .ok a := by
  unfold asOption at h
  split at h
  · cases h
  · cases hread : reader w with
    | error flaw =>
      rw [hread] at h
      cases h
    | ok b =>
      rw [hread] at h
      cases h
      rfl

/-! ## Numbers with a limit -/

theorem nat?_le {limit n : Nat} {literal : Text} (h : nat? limit literal = some n) : n ≤ limit := by
  simp only [nat?] at h
  split at h
  · cases h
  · next hfits =>
    cases h
    simp only [Bool.or_eq_true, decide_eq_true_eq, not_or] at hfits
    exact Nat.le_of_not_lt hfits.2

theorem asNat_le {limit n : Nat} {w : Written} (h : asNat limit w = .ok n) : n ≤ limit := by
  cases w with
  | number literal =>
    rw [asNat] at h
    cases hn : nat? limit literal with
    | none =>
      rw [hn] at h
      cases h
    | some m =>
      rw [hn] at h
      cases h
      exact nat?_le hn
  | _ => cases h

/-! ## Texts that may be missing -/

/-- An object gives a name a text, or null, or nothing. -/
inductive MaybeText (name : Text) (fields : List (Text × Json)) : Option Text → Prop
  | missing (h : valuesOf name fields = []) : MaybeText name fields none
  | null (h : valuesOf name fields = [.null]) : MaybeText name fields none
  | given {t : Text} (h : valuesOf name fields = [.string t]) : MaybeText name fields (some t)

theorem MaybeText.reads {name : String} {t : Option Text} (h : MaybeText name.toList fields t) :
    (Record.optional name asText).Reads fields t := by
  cases h with
  | missing h => exact .absent h fun f hf => by rw [hf]; rfl
  | null h => exact .present h rfl
  | given h => exact .present h rfl

end Scholia.Json
