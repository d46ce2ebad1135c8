import SchemaGraph.Schema.Kind

/-!
The table of child locations: for each kind the keys under which its nodes hold schemas, in the
order in which walks visit them, and the shape stored under each.
-/

namespace SchemaGraph

/-! ### Keys with a meaning of their own -/

namespace Key

abbrev tag : String := "type"
abbrev name : String := "ref"
abbrev target : String := "schema_ref"
abbrev metadata : String := "metadata"

/-- The serialization attachment, which any kind may have. It comes after the slots. -/
abbrev serialization : String := "serialization"

/-- The definitions that a `definitions` schema or a document lists. -/
abbrev definitions : String := "definitions"

/-- The schema that a `definitions` schema or a document stands for. -/
abbrev inner : String := "schema"

end Key

/-! ### Child locations -/

/-- How the schemas under a key are arranged. -/
inductive Shape where
  | one
  | many
  | choices
  | keyed
deriving DecidableEq, Repr

namespace Shape

def all : List Shape := [.one, .many, .choices, .keyed]

def description : Shape → String
  | .one => "schema"
  | .many => "schema sequence"
  | .choices => "union choices"
  | .keyed => "keyed schemas"

end Shape

/-- A child location. Entries of a list may leave out their tag if a kind is implied. -/
structure Slot where
  key : String
  shape : Shape
  implied : Option Kind := none
deriving DecidableEq, Repr

namespace Kind

/-- The child locations of a kind in order. -/
def slots : Kind → List Slot
  | .list | .set | .frozenset | .generator => [⟨"items_schema", .one, .none⟩]
  | .tuple => [⟨"items_schema", .many, .none⟩]
  | .dict => [⟨"keys_schema", .one, .none⟩, ⟨"values_schema", .one, .none⟩]
  | .functionBefore | .functionAfter | .default | .nullable | .model | .dataclass | .json
  | .customError | .modelField | .typedDictField | .dataclassField | .argumentsParameter =>
    [⟨"schema", .one, .none⟩]
  | .functionWrap => [⟨"return_schema", .one, .none⟩, ⟨"schema", .one, .none⟩]
  | .functionPlain | .computedField => [⟨"return_schema", .one, .none⟩]
  | .union => [⟨"choices", .choices, .none⟩]
  | .taggedUnion => [⟨"choices", .keyed, .none⟩]
  | .chain => [⟨"steps", .many, .none⟩]
  | .laxOrStrict => [⟨"lax_schema", .one, .none⟩, ⟨"strict_schema", .one, .none⟩]
  | .jsonOrPython => [⟨"json_schema", .one, .none⟩, ⟨"python_schema", .one, .none⟩]
  | .modelFields | .typedDict =>
    [⟨"extras_schema", .one, .none⟩, ⟨"computed_fields", .many, .none⟩,
     ⟨"fields", .keyed, .none⟩]
  | .dataclassArgs => [⟨"computed_fields", .many, .none⟩, ⟨"fields", .many, .none⟩]
  | .arguments =>
    [⟨"arguments_schema", .many, some .argumentsParameter⟩, ⟨"var_args_schema", .one, .none⟩,
     ⟨"var_kwargs_schema", .one, .none⟩]
  | .call => [⟨"arguments_schema", .one, .none⟩, ⟨"return_schema", .one, .none⟩]
  | .definitions => [⟨"definitions", .many, .none⟩, ⟨"schema", .one, .none⟩]
  | .any | .none | .bool | .int | .float | .decimal | .str | .bytes | .date | .time | .datetime
  | .timedelta | .literal | .enum | .isInstance | .isSubclass | .callable | .uuid | .url
  | .multiHostUrl | .complex | .missingSentinel | .definitionRef | .plain | .format | .toStr
  | .includeExcludeSequence | .includeExcludeDict => []

def slot? (kind : Kind) (key : String) : Option Slot :=
  kind.slots.find? fun slot => slot.key == key

theorem nodup_slot_keys (kind : Kind) : (kind.slots.map Slot.key).Nodup := by
  cases kind <;> decide

theorem key_of_slot? {kind : Kind} {key : String} {slot : Slot} (h : kind.slot? key = some slot) :
    slot.key = key := by
  have := List.find?_some h
  simpa using this

theorem mem_slots_of_slot? {kind : Kind} {key : String} {slot : Slot}
    (h : kind.slot? key = some slot) : slot ∈ kind.slots :=
  List.mem_of_find?_eq_some h

end Kind

end SchemaGraph
