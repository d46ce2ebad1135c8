import SchemaGraph.Json.Basic
import SchemaGraph.Json.Quoted
import SchemaGraph.Number.Shortest

/-!
JSON text, compact or with one line for each item and field. Fields are written in their order.
-/

namespace SchemaGraph

namespace Json

/-- What stands in front of an item at a depth, and between a name and its value. -/
structure Layout where
  lineBreak : Nat → List Char
  colon : List Char

/-- No blanks at all. -/
def Layout.compact : Layout := ⟨fun _ => [], [':']⟩

/-- A line for each item, two spaces further in for each depth. -/
def Layout.pretty : Layout :=
  ⟨fun depth => '\n' :: List.replicate (2 * depth) ' ', [':', ' ']⟩

/-- Numbers of at least `1e-5` and less than `1e16` are written without an exponent. -/
def decimalLayout : DecimalLayout := ⟨-5, 16⟩

def renderNumber : Number → List Char
  | .int value => (toString value).toList
  | .float value => value.render decimalLayout

/-- The parts between brackets, separated by commas; an empty list of parts takes no line. -/
def block (layout : Layout) (depth : Nat) (opening closing : Char) : List (List Char) → List Char
  | [] => [opening, closing]
  | part :: parts =>
    opening :: (layout.lineBreak (depth + 1) ++ part
      ++ parts.flatMap (fun part => ',' :: (layout.lineBreak (depth + 1) ++ part))
      ++ layout.lineBreak depth ++ [closing])

mutual

def render (layout : Layout) (depth : Nat) : Json → List Char
  | .null => ['n', 'u', 'l', 'l']
  | .bool true => ['t', 'r', 'u', 'e']
  | .bool false => ['f', 'a', 'l', 's', 'e']
  | .number value => renderNumber value
  | .text value => Quoted.encode value.toList
  | .list items => block layout depth '[' ']' (renderItems layout (depth + 1) items)
  | .object fields => block layout depth '{' '}' (renderFields layout (depth + 1) fields)

def renderItems (layout : Layout) (depth : Nat) : List Json → List (List Char)
  | [] => []
  | item :: items => render layout depth item :: renderItems layout depth items

def renderFields (layout : Layout) (depth : Nat) : List (String × Json) → List (List Char)
  | [] => []
  | (name, value) :: fields =>
    (Quoted.encode name.toList ++ layout.colon ++ render layout depth value)
      :: renderFields layout depth fields

end

def compact (value : Json) : String := String.ofList (value.render .compact 0)

/-- The text with one line for each item and field, without a line break at the end. -/
def pretty (value : Json) : String := String.ofList (value.render .pretty 0)

end Json

end SchemaGraph
