import SchemaGraph.Json.Basic
import SchemaGraph.Json.Token
import SchemaGraph.OrderedMap

/-!
JSON as it is written: fields are kept as often as they occur, and a number or text without a value
is kept as such. `Written.ofText?` reads it, `Written.toJson?` makes a value of it. What is never
looked at, such as a field that a record does not have, only needs to be written correctly.
-/

namespace SchemaGraph

inductive Written where
  | null
  | bool (value : Bool)
  | number (value : Option Number)
  | text (value : Option String)
  | list (items : List Written)
  | object (fields : List (Option String × Written))
deriving Inhabited

namespace Written

/-! ### Reading -/

/-- A list or object that is not closed yet, with what it has so far, the last first. An object
waits for the value of its last name. -/
inductive Frame where
  | items (done : List Written)
  | fields (done : List (Option String × Written)) (name : Option String)

mutual

/-- Reads on where a value is due. -/
def readValue (stack : List Frame) : List Token → Option Written
  | .null :: rest => readNext stack .null rest
  | .bool value :: rest => readNext stack (.bool value) rest
  | .number value :: rest => readNext stack (.number value) rest
  | .text value :: rest => readNext stack (.text value) rest
  | .openList :: .closeList :: rest => readNext stack (.list []) rest
  | .openList :: rest => readValue (.items [] :: stack) rest
  | .openObject :: .closeObject :: rest => readNext stack (.object []) rest
  | .openObject :: .text name :: .colon :: rest => readValue (.fields [] name :: stack) rest
  | _ => none

/-- Reads on after a value: it is the whole, or the next part of the innermost open one. -/
def readNext (stack : List Frame) (value : Written) : List Token → Option Written
  | [] =>
    match stack with
    | [] => some value
    | _ :: _ => none
  | .comma :: rest =>
    match stack with
    | .items done :: stack => readValue (.items (value :: done) :: stack) rest
    | .fields done name :: stack =>
      match rest with
      | .text next :: .colon :: rest =>
        readValue (.fields ((name, value) :: done) next :: stack) rest
      | _ => none
    | [] => none
  | .closeList :: rest =>
    match stack with
    | .items done :: stack => readNext stack (.list (value :: done).reverse) rest
    | _ => none
  | .closeObject :: rest =>
    match stack with
    | .fields done name :: stack => readNext stack (.object ((name, value) :: done).reverse) rest
    | _ => none
  | _ :: _ => none

end

/-- Reads a whole text as one value with blanks around it. -/
def ofText? (text : String) : Option Written :=
  (Token.ofChars? text.toList).bind (readValue [])

/-! ### Values -/

/-- How deep lists and objects may nest. -/
def maxDepth : Nat := 127

mutual

/-- The value, if every number and text in it has one and at most `levels` lists and objects are
around each part. A name that comes again keeps its place and takes the last value. -/
def toJson? (levels : Nat) : Written → Option Json
  | .null => some .null
  | .bool value => some (.bool value)
  | .number value => value.map .number
  | .text value => value.map .text
  | .list items =>
    match levels with
    | 0 => none
    | levels + 1 => (itemsToJson? levels items).map .list
  | .object fields =>
    match levels with
    | 0 => none
    | levels + 1 => (fieldsToJson? levels .empty fields).map fun m => .object m.entries

def itemsToJson? (levels : Nat) : List Written → Option (List Json)
  | [] => some []
  | item :: items => do
    let value ← toJson? levels item
    let values ← itemsToJson? levels items
    some (value :: values)

def fieldsToJson? (levels : Nat) (done : OrderedMap Json) :
    List (Option String × Written) → Option (OrderedMap Json)
  | [] => some done
  | (name, field) :: fields => do
    let name ← name
    let value ← toJson? levels field
    fieldsToJson? levels (done.insert name value) fields

end

end Written

def Json.ofText? (text : String) : Option Json :=
  (Written.ofText? text).bind (Written.toJson? Written.maxDepth)

end SchemaGraph
