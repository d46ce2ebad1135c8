import SchemaGraph.Schema.Store

/-!
The JSON of a schema in a store. The fields of a node come in a fixed order: tag, names, children,
other keys, metadata, serialization. A key that comes twice keeps its place and takes the later
value.
-/

namespace SchemaGraph

namespace Child

/-- The JSON of a child location, given that of each schema in it. -/
def renderWith (render : NodeId → Except Error Json) : Child → Except Error Json
  | .one id => render id
  | .many ids => do
    let items ← ids.mapM render
    pure (.list items)
  | .choices cs => do
    let items ← cs.mapM fun choice => do
      let schema ← render choice.schema
      pure (match choice.label with
        | some label => .list [schema, .text label]
        | none => schema)
    pure (.list items)
  | .keyed schemas => do
    let fields ← schemas.entries.mapM fun entry => do
      let schema ← render entry.2
      pure (entry.1, schema)
    pure (.object fields)

end Child

namespace Node

/-- The fields of a node in order, given the JSON of its children and its serialization. -/
def fields (node : Node) (children : List (String × Json)) (serialization : Option Json) :
    List (String × Json) :=
  [(Key.tag, .text node.tag)]
    ++ (node.name.map fun name => (Key.name, Json.text name)).toList
    ++ (node.target.map fun target => (Key.target, Json.text target)).toList
    ++ children
    ++ node.attrs.entries
    ++ (node.metadata.map fun metadata => (Key.metadata, Json.object metadata.entries)).toList
    ++ (serialization.map fun value => (Key.serialization, value)).toList

end Node

namespace Store

/-- The JSON of the schema at `id`, which nests at most `depth` nodes. -/
def renderWithin (s : Store) : (depth : Nat) → NodeId → Except Error Json
  | 0, id => .error (.tooDeep id)
  | depth + 1, id => do
    let node ← s.node id
    let children ← node.children.entries.mapM fun entry => do
      let value ← entry.2.renderWith (s.renderWithin depth)
      pure (entry.1, value)
    let serialization ← match node.serialization with
      | some id => do
        let value ← s.renderWithin depth id
        pure (some value)
      | none => pure none
    pure (.object (OrderedMap.ofList (node.fields children serialization)).entries)

def render (s : Store) (id : NodeId) : Except Error Json := s.renderWithin s.depthLimit id

end Store

end SchemaGraph
