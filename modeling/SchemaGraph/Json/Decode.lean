import SchemaGraph.Json.Written
import SchemaGraph.NameSet

/-!
Reading typed values from JSON. A decoder is given how many lists and objects may still be around
its parts. A record is an object, or a list of its fields in order; other fields of the object are
ignored, but one of its own that is there twice is refused.
-/

namespace SchemaGraph

/-- A reader of values of one type; the number bounds the nesting of lists and objects. -/
abbrev Decoder (α : Type) := Nat → Written → Option α

namespace Decoder

variable {α β : Type}

/-! ### Plain values -/

def nat : Decoder Nat
  | _, .number (some (.int value)) => if 0 ≤ value then some value.toNat else none
  | _, _ => none

/-- A natural number of at most 32 binary digits. -/
def word32 : Decoder UInt32 := fun levels w =>
  (nat levels w).bind fun n => if n < UInt32.size then some (.ofNat n) else none

def text : Decoder String
  | _, .text value => value
  | _, _ => none

def bool : Decoder Bool
  | _, .bool value => some value
  | _, _ => none

def json : Decoder Json := Written.toJson?

def map (f : α → β) (d : Decoder α) : Decoder β := fun levels w => (d levels w).map f

/-- `null` for no value. -/
def optional (d : Decoder α) : Decoder (Option α)
  | _, .null => some none
  | levels, w => (d levels w).map some

/-! ### Lists and maps -/

def list (d : Decoder α) : Decoder (List α)
  | levels + 1, .list items => items.mapM (d levels)
  | _, _ => none

/-- A set of names, in any order and as often as they come. -/
def names : Decoder NameSet := (list text).map NameSet.ofList

def insertFields (d : Decoder α) (levels : Nat) (m : OrderedMap α) :
    List (Option String × Written) → Option (OrderedMap α)
  | [] => some m
  | (name, field) :: fields => do
    let name ← name
    let value ← d levels field
    insertFields d levels (m.insert name value) fields

def object (d : Decoder α) : Decoder (OrderedMap α)
  | levels + 1, .object fields => insertFields d levels .empty fields
  | _, _ => none

/-! ### Records and variants -/

abbrev Fields := List (String × Written)

/-- The fields with the given names; none if one of them comes twice or any name has no value. -/
def pickFields (names : List String) : List (Option String × Written) → Option Fields
  | [] => some []
  | (name, field) :: rest => do
    let name ← name
    let picked ← pickFields names rest
    if name ∈ names then
      if (Entries.find? name picked).isSome then none else some ((name, field) :: picked)
    else some picked

/-- A record with these fields. Written as a list it has to have the first `least` of them. -/
def record (names : List String) (least : Nat) (build : Nat → Fields → Option α) : Decoder α
  | levels + 1, .object fields => (pickFields names fields).bind (build levels)
  | levels + 1, .list items =>
    if least ≤ items.length ∧ items.length ≤ names.length then build levels (names.zip items)
    else none
  | _, _ => none

def required (name : String) (d : Decoder α) (levels : Nat) (fields : Fields) : Option α :=
  (Entries.find? name fields).bind (d levels)

/-- A field that may be left out. -/
def withDefault (name : String) (value : α) (d : Decoder α) (levels : Nat) (fields : Fields) :
    Option α :=
  match Entries.find? name fields with
  | some w => d levels w
  | none => some value

/-- An object with one field, whose name says how its value is read. -/
def variant (read : String → Nat → Written → Option α) : Decoder α
  | levels + 1, .object [(some name, w)] => read name levels w
  | _, _ => none

def ofText? (d : Decoder α) (text : String) : Option α :=
  (Written.ofText? text).bind (d Written.maxDepth)

end Decoder

end SchemaGraph
