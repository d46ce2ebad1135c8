import SchemaGraph.Schema.Store

/-!
The children of a node in walking order, rebuilding a node with other children, and walks with a
visitor. A node whose stored children do not fit its kind has no children to walk: it is refused
with the first key that does not fit. A visitor decides at each node whether and when to go on to
its children; what it returns takes the node's place in the parent.
-/

namespace SchemaGraph

namespace Node

/-- What is wrong with a stored child, if anything. -/
def childDefect? (kind : Kind) (key : String) (child : Child) : Option Defect :=
  match kind.slot? key with
  | some slot =>
    if slot.shape = child.shape then none else some (.wrongShape kind slot.shape key)
  | none => some (.notSlot kind key)

/-- The first stored child that does not fit the kind, with what is wrong about it. -/
def misfit? (kind : Kind) (node : Node) : Option (String × Defect) :=
  node.children.entries.findSome? fun entry =>
    (childDefect? kind entry.1 entry.2).map fun defect => (entry.1, defect)

def checkSlots (kind : Kind) (node : Node) (id : NodeId) : Except Error Unit :=
  match node.misfit? kind with
  | some (key, defect) => .error (.malformed defect (.child id key))
  | none => .ok ()

/-- The ids under the kind's locations in table order, the serialization attachment last. -/
def orderedChildren (kind : Kind) (node : Node) : List NodeId :=
  (kind.slots.flatMap fun slot =>
    match node.children.get? slot.key with
    | some child => child.ids
    | none => []) ++ node.serialization.toList

/-- Hands out the ids to the children under the given locations, in order, and returns those that
are left. -/
def relinkSlots : List Slot → List NodeId → OrderedMap Child → OrderedMap Child × List NodeId
  | [], ids, children => (children, ids)
  | slot :: slots, ids, children =>
    match children.get? slot.key with
    | some child =>
      let count := child.ids.length
      relinkSlots slots (ids.drop count) (children.insert slot.key (child.relink (ids.take count)))
    | none => relinkSlots slots ids children

/-- The node with the children and serialization of `shape`, their ids replaced in walking order. -/
def relink (node : Node) (kind : Kind) (shape : Node) (ids : List NodeId) : Node :=
  let (children, rest) := relinkSlots kind.slots ids shape.children
  { node with children, serialization := rest.head? }

end Node

namespace Store

/-- The kind of the node at `id`; a tag outside the catalog is refused. -/
def kindOf (node : Node) (id : NodeId) : Except Error Kind :=
  match node.kind? with
  | some kind => .ok kind
  | none => .error (.unknownKind node.tag id)

/-- A node that walks may enter, with its kind. -/
def wellShaped (s : Store) (id : NodeId) : Except Error (Node × Kind) := do
  let node ← s.node id
  let kind ← kindOf node id
  node.checkSlots kind id
  pure (node, kind)

/-- The children of the node at `id` in walking order. -/
def childIds (s : Store) (id : NodeId) : Except Error (List NodeId) := do
  let (node, kind) ← s.wellShaped id
  pure (node.orderedChildren kind)

end Store

/-- Visits the children of the node at `id` in walking order. If all come back as they are, so does
the node; else a copy with the new children is added and the node itself stays untouched. -/
def mapChildren {σ : Type} (visit : NodeId → Pass σ NodeId) (id : NodeId) : Pass σ NodeId := do
  let (node, kind) ← Pass.look (·.wellShaped id)
  let ids := node.orderedChildren kind
  let visited ← ids.mapM visit
  if visited = ids then pure id
  else
    let current ← Pass.node id
    Pass.insert (current.relink kind node visited)

/-! ### Visitors -/

/-- What is done at a node, given how other nodes are visited. `mapChildren visit` goes on to the
children of a node. -/
abbrev Visitor (σ : Type) := (visit : NodeId → Pass σ NodeId) → NodeId → Pass σ NodeId

namespace Visitor

variable {σ : Type}

/-- Visits a node, and from there others, at most `depth` of them inside each other. -/
def walkWithin (visitor : Visitor σ) : (depth : Nat) → NodeId → Pass σ NodeId
  | 0, id => throw (.tooDeep id)
  | depth + 1, id => visitor (visitor.walkWithin depth) id

/-- Visits the node at `root` and all that the visitor goes on to. -/
def walk (visitor : Visitor σ) (root : NodeId) : Pass σ NodeId := fun state =>
  visitor.walkWithin state.1.depthLimit root state

/-- The visitor that goes everywhere and changes nothing. -/
def identity : Visitor σ := mapChildren

end Visitor

end SchemaGraph
