import SchemaGraph.Number.Literal
import SchemaGraph.OrderedMap

/-!
JSON values. An object is the list of its fields in order; in a well-formed value no object has two
fields of one name.
-/

namespace SchemaGraph

inductive Json where
  | null
  | bool (value : Bool)
  | number (value : Number)
  | text (value : String)
  | list (items : List Json)
  | object (fields : List (String × Json))
deriving Inhabited

namespace Json

/-! ### Equality -/

mutual

def decEq : (a b : Json) → Decidable (a = b)
  | .null, .null => .isTrue rfl
  | .bool a, .bool b =>
    if h : a = b then .isTrue (by rw [h]) else .isFalse fun e => h (by injection e)
  | .number a, .number b =>
    if h : a = b then .isTrue (by rw [h]) else .isFalse fun e => h (by injection e)
  | .text a, .text b =>
    if h : a = b then .isTrue (by rw [h]) else .isFalse fun e => h (by injection e)
  | .list a, .list b =>
    match decEqItems a b with
    | .isTrue h => .isTrue (by rw [h])
    | .isFalse h => .isFalse fun e => h (by injection e)
  | .object a, .object b =>
    match decEqFields a b with
    | .isTrue h => .isTrue (by rw [h])
    | .isFalse h => .isFalse fun e => h (by injection e)
  | .null, .bool _ | .null, .number _ | .null, .text _ | .null, .list _ | .null, .object _
  | .bool _, .null | .bool _, .number _ | .bool _, .text _ | .bool _, .list _ | .bool _, .object _
  | .number _, .null | .number _, .bool _ | .number _, .text _ | .number _, .list _
  | .number _, .object _
  | .text _, .null | .text _, .bool _ | .text _, .number _ | .text _, .list _ | .text _, .object _
  | .list _, .null | .list _, .bool _ | .list _, .number _ | .list _, .text _ | .list _, .object _
  | .object _, .null | .object _, .bool _ | .object _, .number _ | .object _, .text _
  | .object _, .list _ => .isFalse fun e => by injection e

def decEqItems : (a b : List Json) → Decidable (a = b)
  | [], [] => .isTrue rfl
  | [], _ :: _ => .isFalse fun e => by injection e
  | _ :: _, [] => .isFalse fun e => by injection e
  | a :: as, b :: bs =>
    match decEq a b with
    | .isFalse h => .isFalse fun e => h (by injection e)
    | .isTrue h =>
      match decEqItems as bs with
      | .isTrue hs => .isTrue (by rw [h, hs])
      | .isFalse hs => .isFalse fun e => hs (by injection e)

def decEqFields : (a b : List (String × Json)) → Decidable (a = b)
  | [], [] => .isTrue rfl
  | [], _ :: _ => .isFalse fun e => by injection e
  | _ :: _, [] => .isFalse fun e => by injection e
  | (m, a) :: as, (n, b) :: bs =>
    if hn : m = n then
      match decEq a b with
      | .isFalse h => .isFalse fun e => h (by injection e with e _; injection e)
      | .isTrue h =>
        match decEqFields as bs with
        | .isTrue hs => .isTrue (by rw [hn, h, hs])
        | .isFalse hs => .isFalse fun e => hs (by injection e)
    else .isFalse fun e => hn (by injection e with e _; injection e)

end

instance : DecidableEq Json := decEq

/-! ### Parts of a value -/

/-- The field `key` of an object. -/
def field? (key : String) : Json → Option Json
  | .object fields => Entries.find? key fields
  | _ => none

def text? : Json → Option String
  | .text s => some s
  | _ => none

def ofNat (n : Nat) : Json := .number (.int n)

/-! ### Well-formed values -/

mutual

/-- In every object inside the value the field names are distinct. -/
def WellFormed : Json → Prop
  | .list items => WellFormedItems items
  | .object fields => (Entries.names fields).Nodup ∧ WellFormedFields fields
  | _ => True

def WellFormedItems : List Json → Prop
  | [] => True
  | item :: items => item.WellFormed ∧ WellFormedItems items

def WellFormedFields : List (String × Json) → Prop
  | [] => True
  | (_, value) :: fields => value.WellFormed ∧ WellFormedFields fields

end

theorem wellFormedFields_iff : ∀ fields : List (String × Json),
    WellFormedFields fields ↔ ∀ field ∈ fields, field.2.WellFormed
  | [] => by simp [WellFormedFields]
  | (_, value) :: fields => by
    simp [WellFormedFields, wellFormedFields_iff fields]

end Json

end SchemaGraph
