import SchemaGraph.Schema.Load
import SchemaGraph.Json.Written
import SchemaGraph.Traversal.Preorder

/-!
Schema documents: a schema alone, or an object with the schema and an object of its definitions.
Without the latter the definitions are those that the schema itself declares.
-/

namespace SchemaGraph

/-- A loaded schema with its definitions. -/
structure Document where
  store : Store
  root : NodeId
  definitions : Definitions

namespace Document

def load {σ : Type} (value : Json) : Pass σ (NodeId × Definitions) :=
  match value.field? Key.tag, value.field? Key.inner with
  | none, some schema => do
    let root ← Wire.loadSchema schema
    match value.field? Key.definitions with
    | some given => do
      let definitions ← Wire.loadDefinitions given
      pure (root, definitions)
    | none => do
      let definitions ← Pass.look (·.collectDefinitions root)
      pure (root, definitions)
  | _, _ => do
    let root ← Wire.loadSchema value
    let definitions ← Pass.look (·.collectDefinitions root)
    pure (root, definitions)

def ofJson (value : Json) : Except Error Document :=
  match load value (Store.empty, ()) with
  | .ok (root, definitions) (store, _) => .ok { store, root, definitions }
  | .error e _ => .error e

def ofText (text : String) : Except Error Document :=
  match Json.ofText? text with
  | some value => ofJson value
  | none => .error .notJson

/-- The document in a file, given the text that could be read from it. -/
def ofFile (content : Option String) : Except Error Document :=
  match content with
  | some text => ofText text
  | none => .error .unreadable

end Document

end SchemaGraph
