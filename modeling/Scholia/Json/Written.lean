import Scholia.Json.Basic
/-!
# JSON as it is written

What a text writes, as far as it is JSON. Where a text stops being JSON, the value is `broken` and
the text ends; what stands before that place is kept. So whoever reads such a value in the order of
the text meets what is wrong with it in that order, be it that the text is no JSON or that it is not
the JSON that was wanted.
-/

namespace Scholia.Json

/-- What a text writes. -/
inductive Written where
  | null
  | bool (value : Bool)
  /-- A number, as its literal. -/
  | number (literal : Text)
  /-- A string; none if one of its escapes names no character. -/
  | string (text : Option Text)
  | array (items : List Written)
  /-- The fields of an object, each with what stands in the place of its name. -/
  | object (fields : List (Written × Written))
  /-- Here the text is not JSON. -/
  | broken
  deriving Repr

namespace Written

mutual

/-- Whether the text is JSON to the end of the value. -/
def isWhole : Written → Bool
  | .array items => areWhole items
  | .object fields => fieldsAreWhole fields
  | .broken => false
  | .null | .bool _ | .number _ | .string _ => true

/-- Whether the text is JSON to the end of the items. -/
def areWhole : List Written → Bool
  | [] => true
  | item :: items => item.isWhole && areWhole items

/-- Whether the text is JSON to the end of the fields. -/
def fieldsAreWhole : List (Written × Written) → Bool
  | [] => true
  | (name, value) :: fields => name.isWhole && value.isWhole && fieldsAreWhole fields

end

mutual

/-- The value that is written, if it is whole and all its strings have characters. -/
def value? : Written → Option Json
  | .null => some .null
  | .bool b => some (.bool b)
  | .number literal => some (.number literal)
  | .string text => text.map .string
  | .array items => (values? items).map .array
  | .object fields => (fieldValues? fields).map .object
  | .broken => none

/-- The value of each item. -/
def values? : List Written → Option (List Json)
  | [] => some []
  | item :: items => do return (← item.value?) :: (← values? items)

/-- The name and the value of each field. -/
def fieldValues? : List (Written × Written) → Option (List (Text × Json))
  | [] => some []
  | (.string (some name), value) :: fields => do
    return (name, ← value.value?) :: (← fieldValues? fields)
  | _ :: _ => none

end

mutual

/-- A value as it is written. -/
def ofJson : Json → Written
  | .null => .null
  | .bool b => .bool b
  | .number literal => .number literal
  | .string text => .string (some text)
  | .array items => .array (ofItems items)
  | .object fields => .object (ofFields fields)

/-- Each item as it is written. -/
def ofItems : List Json → List Written
  | [] => []
  | item :: items => ofJson item :: ofItems items

/-- Each field as it is written. -/
def ofFields : List (Text × Json) → List (Written × Written)
  | [] => []
  | (name, value) :: fields => (.string (some name), ofJson value) :: ofFields fields

end

mutual

/-- A value is what is written of it. -/
theorem value?_ofJson (j : Json) : (ofJson j).value? = some j := by
  cases j with
  | array items => simp [ofJson, value?, values?_ofItems items]
  | object fields => simp [ofJson, value?, fieldValues?_ofFields fields]
  | _ => simp [ofJson, value?]

theorem values?_ofItems (items : List Json) : values? (ofItems items) = some items := by
  cases items with
  | nil => rfl
  | cons item items => simp [ofItems, values?, value?_ofJson item, values?_ofItems items]

theorem fieldValues?_ofFields (fields : List (Text × Json)) :
    fieldValues? (ofFields fields) = some fields := by
  match fields with
  | [] => rfl
  | (name, value) :: fields =>
    simp [ofFields, fieldValues?, value?_ofJson value, fieldValues?_ofFields fields]

end

end Written

end Scholia.Json
