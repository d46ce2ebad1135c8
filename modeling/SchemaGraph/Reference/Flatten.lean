import SchemaGraph.NameSet
import SchemaGraph.Traversal.Children

/-!
Moving definitions out of a schema. Every named node below the root becomes an entry of the
definitions and leaves a reference behind; `definitions` nodes give way to their inner schema. A
body found inside a schema wins over a given definition of its name.
-/

namespace SchemaGraph

/-- The definitions so far, and the names whose bodies were found inside the walked schemas. -/
structure Flattening where
  definitions : Definitions
  hoisted : NameSet := .empty

namespace Flattening

/-- Takes the body of a name that was found inside a schema. -/
def hoist (name : String) (body : NodeId) (f : Flattening) : Flattening where
  definitions := f.definitions.insert name body
  hoisted := f.hoisted.insert name

/-- Takes the body of a given definition, unless one was found inside a schema. -/
def settle (name : String) (body : NodeId) (f : Flattening) : Flattening :=
  if name ∈ f.hoisted then f else f.hoist name body

end Flattening

def Node.listedDefinitions (node : Node) : List NodeId :=
  match node.children.get? Key.definitions with
  | some (.many ids) => ids
  | _ => []

/-- The schema that a `definitions` node stands for. -/
def Node.innerSchema? (node : Node) : Option NodeId :=
  match node.children.get? Key.inner with
  | some (.one inner) => some inner
  | _ => none

namespace Node

variable {node : Node} {child : NodeId}

theorem mem_storedIds_of_innerSchema? (h : node.innerSchema? = some child) :
    child ∈ node.storedIds := by
  unfold innerSchema? at h
  split at h
  · rename_i inner hinner
    cases h
    refine List.mem_append_left _ (List.mem_flatMap.2 ⟨.one child, ?_, List.mem_singleton.2 rfl⟩)
    exact List.mem_map.2 ⟨_, OrderedMap.mem_entries_iff.2 hinner, rfl⟩
  · cases h

theorem mem_storedIds_of_listed (h : child ∈ node.listedDefinitions) : child ∈ node.storedIds := by
  unfold listedDefinitions at h
  split at h
  · rename_i ids hids
    refine List.mem_append_left _ (List.mem_flatMap.2 ⟨.many ids, ?_, h⟩)
    exact List.mem_map.2 ⟨_, OrderedMap.mem_entries_iff.2 hids, rfl⟩
  · cases h

end Node

/-- Visits the definitions listed in a `definitions` node, each of which has to be named. -/
def visitListed (visit : NodeId → Pass Flattening NodeId) : List NodeId → Pass Flattening Unit
  | [] => pure ()
  | id :: ids => do
    let node ← Pass.node id
    if node.name = none then throw (.malformed .nameMissing (.node id))
    else
      let _ ← visit id
      visitListed visit ids

/-- Children come first, so a body is flat before it is moved out. -/
def flattenVisitor : Visitor Flattening := fun visit id => do
  let node ← Pass.node id
  if node.kind? = some .definitions then
    match node.innerSchema? with
    | none => throw (.malformed .innerMissing (.node id))
    | some inner =>
      visitListed visit node.listedDefinitions
      visit inner
  else
    let id ← mapChildren visit id
    let node ← Pass.node id
    match node.name with
    | none => pure id
    | some name =>
      Pass.modifyOwn (.hoist name id)
      Pass.insert (.reference name)

/-- Flattens what is below the body of a given definition; the body keeps its own name. -/
def flattenBody (body : NodeId) : Pass Flattening NodeId := do
  let node ← Pass.node body
  if node.kind? = some .definitions then flattenVisitor.walk body
  else mapChildren flattenVisitor.walk body

/-- Flattens the bodies of the given definitions that were not found inside a schema. -/
def flattenGiven : List (String × NodeId) → Pass Flattening Unit
  | [] => pure ()
  | (name, body) :: given => do
    let f ← Pass.own
    if name ∈ f.hoisted then flattenGiven given
    else
      let flat ← flattenBody body
      Pass.modifyOwn (.settle name flat)
      flattenGiven given

/-- Moves the definitions out of the schema at `root` and out of the given bodies. Returns the new
root and all definitions. The nodes that were there stay as they are. -/
def flattenReferences {σ : Type} (root : NodeId) (definitions : Definitions) :
    Pass σ (NodeId × Definitions) := do
  let (root, f) ← Pass.within { definitions } do
    let root ← flattenVisitor.walk root
    flattenGiven definitions.entries
    pure root
  pure (root, f.definitions)

end SchemaGraph
