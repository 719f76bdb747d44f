import HeapScript.Decimal.Reading
import HeapScript.Json.Value

/-!
Readers from JSON values to the types of the library.

A *record* is an object with named fields, or the array of its fields in their order. Fields that
are not known are skipped, and a known field must not occur twice. A *variant* is the name of a
case, or an object whose one key is that name and whose value is its data. A *table* is an object
used as a map: a key that occurs again keeps its place and takes the later value.
-/

namespace HeapScript

namespace Json

/-! ## Plain values -/

def string? : Json → Option String
  | .string value => some value
  | _ => none

def bool? : Json → Option Bool
  | .bool value => some value
  | _ => none

/-- A natural number below `bound`, written without sign, fraction and exponent. -/
def natBelow? (bound : Nat) : Json → Option Nat
  | .number ⟨false, ⟨value, scale⟩, true⟩ =>
    if scale = 0 ∧ value < bound then some value else none
  | _ => none

def word? : Json → Option Nat :=
  natBelow? UInt32.size

def double? : Json → Option Double
  | .number value => Double.ofDecimal? value.negative value.decimal
  | _ => none

def list? (read : Json → Option α) : Json → Option (List α)
  | .array items => items.mapM read
  | _ => none

def nullable? (read : Json → Option α) : Json → Option (Option α)
  | .null => some none
  | json => (read json).map some

def pair? {α β : Type} (first : Json → Option α) (second : Json → Option β) : Json → Option (α × β)
  | .array [left, right] => do return (← first left, ← second right)
  | _ => none

/-! ## Tables -/

def putEntry (key : String) (value : α) : List (String × α) → List (String × α)
  | [] => [(key, value)]
  | (other, old) :: rest =>
    if other = key then (key, value) :: rest else (other, old) :: putEntry key value rest

def table? (read : Json → Option α) : Json → Option (List (String × α))
  | .object entries =>
    entries.foldlM (fun table (key, json) => (read json).map (putEntry key · table)) []
  | _ => none

/-! ## Records -/

/-- The fields of a record, by name. They are `positional` when the record was an array, which
gives them their names by their order. -/
structure Fields where
  entries : List (String × Json)
  positional : Bool

def fields? (names : List String) : Json → Option Fields
  | .object entries => some ⟨entries, false⟩
  | .array items => if items.length ≤ names.length then some ⟨names.zip items, true⟩ else none
  | _ => none

namespace Fields

/-- The values written for a field, of which a well-formed record has at most one. -/
def occurrences (fields : Fields) (name : String) : List Json :=
  (fields.entries.filter fun (key, _) => key == name).map (·.2)

def required (fields : Fields) (name : String) (read : Json → Option α) : Option α :=
  match fields.occurrences name with
  | [json] => read json
  | _ => none

def withDefault (fields : Fields) (name : String) (read : Json → Option α) (default : α) :
    Option α :=
  match fields.occurrences name with
  | [] => some default
  | [json] => read json
  | _ => none

def optional (fields : Fields) (name : String) (read : Json → Option α) : Option (Option α) :=
  fields.withDefault name (nullable? read) none

/-- A field that may be `null`, and may be missing from an object but not from an array. -/
def nullable (fields : Fields) (name : String) (read : Json → Option α) : Option (Option α) :=
  if fields.positional then fields.required name (nullable? read) else fields.optional name read

end Fields

/-! ## Variants -/

def variant? : Json → Option (String × Option Json)
  | .string name => some (name, none)
  | .object [(name, data)] => some (name, some data)
  | _ => none

/-- Whether a case without data was written properly: as a name alone or with `null`. -/
def isBare : Option Json → Bool
  | none | some .null => true
  | _ => false

def bareCase (data : Option Json) (value : α) : Option α :=
  if isBare data then some value else none

def choice? (cases : List (String × α)) (json : Json) : Option α := do
  let (name, data) ← json.variant?
  let value ← cases.lookup name
  bareCase data value

end Json

end HeapScript
