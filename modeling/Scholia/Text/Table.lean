import Scholia.Text.Basic
/-!
# Tables of text

A table gives a text for each of its keys, in ascending order of the keys. A key that is put again
loses its former text.
-/

namespace Scholia.Text

/-- Keys with their texts, in ascending order of the keys. -/
abbrev Table := List (Text × Text)

/-- Whether a text comes before another, by code points. -/
def before : Text → Text → Bool
  | _, [] => false
  | [], _ :: _ => true
  | c :: r, d :: s => if c = d then before r s else c.toNat < d.toNat

/-- The table with a text put under a key. -/
def Table.put (key value : Text) : Table → Table
  | [] => [(key, value)]
  | (k, v) :: rest =>
    if key = k then (key, value) :: rest
    else if before key k then (key, value) :: (k, v) :: rest
    else (k, v) :: Table.put key value rest

/-- The text under a key. -/
def Table.get? (key : Text) (t : Table) : Option Text :=
  (t.find? (·.1 == key)).map (·.2)

theorem Table.get?_put (key value key' : Text) (t : Table) :
    (t.put key value).get? key' = if key = key' then some value else t.get? key' := by
  induction t with
  | nil => by_cases h : key = key' <;> simp [put, get?, h]
  | cons entry t ih =>
    obtain ⟨k, v⟩ := entry
    unfold get? at ih ⊢
    simp only [put]
    split
    · next hk =>
      subst hk
      by_cases h : key = key' <;> simp [h]
    · next hk =>
      split
      · by_cases h : key = key' <;> simp [h]
      · by_cases hk' : k = key'
        · subst hk'
          simp [hk]
        · simp [hk', ih]

end Scholia.Text
