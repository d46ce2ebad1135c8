import SchemaGraph.Schema.Store

/-!
Reading schemas from JSON into a store. The kind decides which keys hold schemas; every key without
a meaning is kept as it is. Children are stored before the node that holds them, so they have
smaller ids. A document that is no schema is refused at the first fault in the order of its keys.
-/

namespace SchemaGraph

namespace Wire

/-! ### The roles of keys -/

/-- What a key of a schema object holds. -/
inductive Role where
  | tag
  | name
  | target
  | metadata
  | serialization
  | child (slot : Slot)
  | attr
deriving DecidableEq, Repr

/-- The role of a key in schemas of a kind; without a kind only the tag has a meaning. -/
def role (kind : Option Kind) (key : String) : Role :=
  if key = Key.tag then .tag
  else
    match kind with
    | none => .attr
    | some kind =>
      if key = Key.name then .name
      else if key = Key.target ∧ kind = .definitionRef then .target
      else if key = Key.metadata then .metadata
      else if key = Key.serialization then .serialization
      else
        match kind.slot? key with
        | some slot => .child slot
        | none => .attr

/-! ### Expected parts -/

variable {σ α : Type}

/-- Refuses the document at a place in it. -/
def refuse (defect : Defect) (path : List Step) : Pass σ α :=
  throw (.malformed defect (.document path))

def expectText (path : List Step) (value : Json) : Pass σ String :=
  match value with
  | .text s => pure s
  | _ => refuse .notText path

def expectMetadata (path : List Step) (value : Json) : Pass σ (OrderedMap Json) :=
  match value with
  | .object fields => pure (.ofList fields)
  | _ => refuse .metadataNotObject path

/-- The tag of a schema object, or the one of the implied kind if it has none. -/
def tagOf (implied : Option Kind) (path : List Step) (fields : List (String × Json)) :
    Pass σ String :=
  match Entries.find? Key.tag fields, implied with
  | some (.text tag), _ => pure tag
  | some _, _ => refuse .tagNotText path
  | none, some kind => pure kind.tag
  | none, none => refuse .tagMissing path

/-! ### Schemas -/

mutual

def load (implied : Option Kind) (path : List Step) : Json → Pass σ NodeId
  | .object fields => do
    let tag ← tagOf implied path fields
    let node ← loadFields (Kind.ofTag? tag) path { tag } fields
    if node.isReference ∧ node.target = none then refuse .targetMissing path
    else Pass.insert node
  | _ => refuse .notSchema path

/-- Loads the fields of a schema object into its node, in their order. -/
def loadFields (kind : Option Kind) (path : List Step) (node : Node) :
    List (String × Json) → Pass σ Node
  | [] => pure node
  | (key, field) :: fields => do
    let here := path ++ [.key key]
    let node ← match role kind key with
      | .tag => pure node
      | .name => do
        let name ← expectText here field
        pure { node with name := some name }
      | .target => do
        let target ← expectText here field
        pure { node with target := some target }
      | .metadata => do
        let metadata ← expectMetadata here field
        pure { node with metadata := some metadata }
      | .serialization => do
        let id ← load none here field
        pure { node with serialization := some id }
      | .child slot => do
        let child ← match slot.shape, field with
          | .one, value => do
            let id ← load none here value
            pure (Child.one id)
          | .many, .list items => do
            let ids ← loadItems slot.implied here 0 items
            pure (Child.many ids)
          | .choices, .list items => do
            let choices ← loadChoices here 0 items
            pure (Child.choices choices)
          | .keyed, .object entries => do
            let schemas ← loadKeyed here .empty entries
            pure (Child.keyed schemas)
          | .keyed, _ => refuse .notSchemaObject here
          | _, _ => refuse .notSchemaList here
        pure { node with children := node.children.insert key child }
      | .attr => pure { node with attrs := node.attrs.insert key field }
    loadFields kind path node fields

/-- Loads the schemas of a list, the first of which is at `position`. -/
def loadItems (implied : Option Kind) (path : List Step) (position : Nat) :
    List Json → Pass σ (List NodeId)
  | [] => pure []
  | item :: items => do
    let id ← load implied (path ++ [.index position]) item
    let ids ← loadItems implied path (position + 1) items
    pure (id :: ids)

/-- Loads the choices of a union; a list is a schema with its label. -/
def loadChoices (path : List Step) (position : Nat) : List Json → Pass σ (List Choice)
  | [] => pure []
  | item :: items => do
    let here := path ++ [.index position]
    let choice ← match item with
      | .list [schema, label] => do
        let id ← load none (here ++ [.index 0]) schema
        let label ← expectText (here ++ [.index 1]) label
        pure { schema := id, label := some label }
      | .list _ => refuse .notChoice here
      | schema => do
        let id ← load none here schema
        pure { schema := id }
    let choices ← loadChoices path (position + 1) items
    pure (choice :: choices)

/-- Loads the schemas of an object under their keys. -/
def loadKeyed (path : List Step) (done : OrderedMap NodeId) :
    List (String × Json) → Pass σ (OrderedMap NodeId)
  | [] => pure done
  | (key, field) :: fields => do
    let id ← load none (path ++ [.key key]) field
    loadKeyed path (done.insert key id) fields

end

def loadSchema (value : Json) : Pass σ NodeId := load none [] value

def loadDefinitions (value : Json) : Pass σ Definitions :=
  match value with
  | .object fields => loadKeyed [] .empty fields
  | _ => refuse .definitionsNotObject []

end Wire

end SchemaGraph
