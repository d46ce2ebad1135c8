import SchemaGraph.Json.Basic
import SchemaGraph.Schema.Slot

/-!
Nodes of a schema graph. A node holds the ids of its children, not the children, so that nodes can
be shared and a reference that was found once can be replaced later.
-/

namespace SchemaGraph

/-- The position of a node in its store. It is the node's identity: two nodes with equal content
are different nodes. -/
structure NodeId where
  index : Nat
deriving DecidableEq, Repr, Inhabited

/-- The id as it stands in messages. -/
def NodeId.label (id : NodeId) : String := "#" ++ toString id.index

/-- Named definitions: for each name the node that it stands for. -/
abbrev Definitions := OrderedMap NodeId

/-- One choice of a union, with a label if it has one. -/
structure Choice where
  schema : NodeId
  label : Option String := none
deriving DecidableEq

/-- What a node holds in one child location. -/
inductive Child where
  | one (schema : NodeId)
  | many (schemas : List NodeId)
  | choices (choices : List Choice)
  | keyed (schemas : OrderedMap NodeId)
deriving DecidableEq

namespace Child

def shape : Child → Shape
  | .one _ => .one
  | .many _ => .many
  | .choices _ => .choices
  | .keyed _ => .keyed

def ids : Child → List NodeId
  | .one id => [id]
  | .many ids => ids
  | .choices cs => cs.map Choice.schema
  | .keyed schemas => schemas.values

/-- The same arrangement with the ids replaced in order. -/
def relink (ids : List NodeId) : Child → Child
  | .one id => .one (ids.headD id)
  | .many _ => .many ids
  | .choices cs => .choices (List.zipWith (fun choice id => { choice with schema := id }) cs ids)
  | .keyed schemas => .keyed (schemas.withValues ids)

end Child

/-- A node. Its kind is named by `tag`, which may be outside the catalog; `name` is the name that
it defines, `target` the name that it refers to, `attrs` holds everything without meaning here. -/
structure Node where
  tag : String
  name : Option String := none
  target : Option String := none
  metadata : Option (OrderedMap Json) := none
  serialization : Option NodeId := none
  children : OrderedMap Child := .empty
  attrs : OrderedMap Json := .empty
deriving DecidableEq

namespace Node

instance : Inhabited Node := ⟨{ tag := "" }⟩

/-! ### Building -/

/-- A node of a kind with nothing else. -/
def ofKind (kind : Kind) : Node := { tag := kind.tag }

/-- An occurrence of the definition `target`. -/
def reference (target : String) : Node := { ofKind .definitionRef with target := some target }

def withName (node : Node) (name : String) : Node := { node with name := some name }

def withChild (node : Node) (key : String) (child : Child) : Node :=
  { node with children := node.children.insert key child }

def withAttr (node : Node) (key : String) (value : Json) : Node :=
  { node with attrs := node.attrs.insert key value }

def withMetadata (node : Node) (key : String) (value : Json) : Node :=
  { node with metadata := some ((node.metadata.getD .empty).insert key value) }

def withSerialization (node : Node) (id : NodeId) : Node := { node with serialization := some id }

/-! ### Looking -/

def kind? (node : Node) : Option Kind := Kind.ofTag? node.tag

def isReference (node : Node) : Bool := node.tag == Kind.definitionRef.tag

def metadataValue? (node : Node) (key : String) : Option Json :=
  node.metadata.bind fun metadata => metadata.get? key

/-- All ids that the node holds, in stored order. -/
def storedIds (node : Node) : List NodeId :=
  node.children.values.flatMap Child.ids ++ node.serialization.toList

end Node

end SchemaGraph
