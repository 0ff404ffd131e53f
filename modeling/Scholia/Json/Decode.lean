import Scholia.Json.Number
import Scholia.Json.Parse
import Scholia.Text.Table
/-!
# Reading values from JSON

Readers for the kinds of value that data consists of. A structure is written as an object, in which
fields of other names are passed over and a field may not be repeated, or as an array of its fields
in their order, from which fields at the end may be missing if they have a default.

A reader that fails tells the flaw that it meets first, in the order of the text: whether the text
is no JSON, or the value is not the one that is wanted. An array or an object in the place of
another value is not the one that is wanted, whatever stands in it.
-/

namespace Scholia.Json

/-- What is wrong with a value. -/
inductive Flaw where
  /-- The text is not JSON, or a text has no characters, or a number is beyond all doubles. -/
  | malformed
  /-- The value is not what is wanted. -/
  | misfit
  deriving Repr, DecidableEq

/-- What is wrong with a value of another kind than is wanted. -/
def Written.flaw : Written → Flaw
  | .broken | .string none => .malformed
  | .number literal => if (float? literal).isSome then .misfit else .malformed
  | _ => .misfit

/-- A way of reading a value. -/
abbrev Reader (α : Type) := Written → Except Flaw α

def asNull : Reader Unit
  | .null => .ok ()
  | value => .error value.flaw

def asText : Reader Text
  | .string (some s) => .ok s
  | value => .error value.flaw

def asBool : Reader Bool
  | .bool b => .ok b
  | value => .error value.flaw

/-- A natural number of at most `limit`. -/
def asNat (limit : Nat) : Reader Nat
  | .number literal => (nat? limit literal).elim (.error (Written.number literal).flaw) .ok
  | value => .error value.flaw

/-- The greatest number of 64 bits. -/
def maxWord : Nat := 0xFFFFFFFFFFFFFFFF

/-- The greatest number of 32 bits. -/
def maxHalfWord : Nat := 0xFFFFFFFF

def asFloat : Reader Float
  | .number literal => (float? literal).elim (.error .malformed) .ok
  | value => .error value.flaw

/-- A value or null. -/
def asOption {α : Type} (reader : Reader α) : Reader (Option α)
  | .null => .ok none
  | value => (reader value).map some

def asList {α : Type} (reader : Reader α) : Reader (List α)
  | .array items => items.mapM reader
  | value => .error value.flaw

/-- A value that is passed over: it only has to be JSON. -/
def asAny : Reader Written := fun value =>
  if value.isWhole then .ok value else .error .malformed

/-- The name of a field. -/
def asName : Reader Text
  | .string (some s) => .ok s
  | _ => .error .malformed

/-- An object of texts; of repeated keys the last one counts. -/
def asTable : Reader Text.Table
  | .object fields => do
    let entries ← fields.mapM fun (name, value) => do return (← asName name, ← asText value)
    return entries.foldl (fun t (name, value) => t.put name value) []
  | value => .error value.flaw

/-- The member of an enumeration that has the name. -/
def memberOf {α : Type} (key : α → Text) (members : List α) (name : Text) : Except Flaw α :=
  (members.find? (key · == name)).elim (.error .misfit) .ok

/-- A member of an enumeration: its name, or an object that gives null to that name. -/
def asMember {α : Type} (key : α → Text) (members : List α) : Reader α
  | .string (some name) => memberOf key members name
  | .object ((name, value) :: rest) => do
    let member ← memberOf key members (← asText name)
    asNull value
    if rest.isEmpty then return member else throw .malformed
  | _ => .error .malformed

/-! ## Structures -/

/-- The fields of a structure as they have been found. -/
structure Fields where
  /-- Whether they were written as an array. -/
  positional : Bool
  found : List (Text × Written)

def Fields.get? (f : Fields) (name : String) : Option Written :=
  (f.found.find? (·.1 == name.toList)).map (·.2)

/-- A way of reading a structure. -/
structure Record (α : Type) where
  /-- The names of the fields in their order, each with a test of its value. -/
  fields : List (Text × Reader Unit)
  /-- The structure of fields that pass their tests. -/
  build : Fields → Except Flaw α

namespace Record

variable {α β : Type}

instance : Applicative Record where
  pure a := ⟨[], fun _ => .ok a⟩
  seq f x :=
    ⟨f.fields ++ (x ()).fields, fun fields => do return (← f.build fields) (← (x ()).build fields)⟩

/-- A structure of one field; `missing` is what counts if it is not there. -/
def field (name : String) (reader : Reader α) (missing : Fields → Except Flaw α) : Record α where
  fields := [(name.toList, fun value => (reader value).map fun _ => ())]
  build fields := (fields.get? name).elim (missing fields) reader

/-- A field that has to be there. -/
def required (name : String) (reader : Reader α) : Record α :=
  field name reader fun _ => .error .misfit

/-- A field that may be null, and in an object may be missing. -/
def optional (name : String) (reader : Reader α) : Record (Option α) :=
  field name (asOption reader) fun fields =>
    if fields.positional then .error .misfit else .ok none

/-- A field that has a default. -/
def withDefault (name : String) (reader : Reader α) (default : α) : Record α :=
  field name reader fun _ => .ok default

/-- The known fields of an object, or the first flaw; the fields `seen` stand before. -/
def testFields (known : List (Text × Reader Unit)) (seen : List Text) :
    List (Written × Written) → Except Flaw (List (Text × Written))
  | [] => .ok []
  | (name, value) :: rest => do
    let name ← asName name
    match known.find? (·.1 == name) with
    | some (_, test) =>
      if seen.contains name then throw .misfit
      else
        test value
        return (name, value) :: (← testFields known (name :: seen) rest)
    | none =>
      let _ ← asAny value
      testFields known seen rest

/-- The items of an array as the known fields, or the first flaw. -/
def testItems : List (Text × Reader Unit) → List Written → Except Flaw (List (Text × Written))
  | _, [] => .ok []
  | [], _ :: _ => .error .malformed
  | (name, test) :: known, item :: items => do
    test item
    return (name, item) :: (← testItems known items)

/-- The structure that an object or an array writes. -/
def read (r : Record α) : Reader α
  | .object fields => do r.build ⟨false, ← testFields r.fields [] fields⟩
  | .array items => do r.build ⟨true, ← testItems r.fields items⟩
  | value => .error value.flaw

end Record

/-- What a reader makes of a text of one value. -/
def read? {α : Type} (reader : Reader α) (text : Text) : Option α := do
  (reader (← written? text)).toOption

end Scholia.Json
