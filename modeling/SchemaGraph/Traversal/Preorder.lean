import SchemaGraph.NameSet
import SchemaGraph.Traversal.Children

/-!
All nodes below a root in pre-order, found with an explicit list of nodes still to do, and what is
read off them: declared names and definitions. References are not followed.
-/

namespace SchemaGraph

namespace Store

/-! ### The walk -/

/-- The nodes of the tree at `id` in pre-order, down to a depth. -/
def treeWithin (s : Store) : (depth : Nat) → NodeId → List NodeId
  | 0, _ => []
  | depth + 1, id => id :: ((s.childIds id).toOption.getD []).flatMap (s.treeWithin depth)

theorem treeWithin_succ {s : Store} {depth : Nat} {id : NodeId} {ids : List NodeId}
    (h : s.childIds id = .ok ids) :
    s.treeWithin (depth + 1) id = id :: ids.flatMap (s.treeWithin depth) := by
  rw [treeWithin, h]
  rfl

/-- Appends to `done` the nodes of a walk over `work`; each node to do comes with how deep the walk
may go below it. -/
def preorderLoop (s : Store) (work : List (Nat × NodeId)) (done : Array NodeId) :
    Except Error (Array NodeId) :=
  match work with
  | [] => .ok done
  | (0, id) :: _ => .error (.tooDeep id)
  | (depth + 1, id) :: rest =>
    match _h : s.childIds id with
    | .error e => .error e
    | .ok ids => preorderLoop s (ids.map (fun child => (depth, child)) ++ rest) (done.push id)
termination_by (work.flatMap fun todo => s.treeWithin todo.1 todo.2).length
decreasing_by
  simp [List.flatMap_append, List.flatMap_map, treeWithin_succ _h]

/-- The nodes below `root` in pre-order, `root` first; a shared node comes as often as it is met. -/
def preorder (s : Store) (root : NodeId) : Except Error (List NodeId) :=
  (s.preorderLoop [(s.depthLimit, root)] #[]).map Array.toList

/-! ### Collections -/

def declarations (s : Store) (root : NodeId) : Except Error (List (String × NodeId)) := do
  let ids ← s.preorder root
  pure (ids.filterMap fun id => ((s.get? id).bind Node.name).map fun name => (name, id))

/-- The definitions that the nodes below `root` declare. A name that comes again keeps its place and
takes the later node. -/
def collectDefinitions (s : Store) (root : NodeId) : Except Error Definitions := do
  let declared ← s.declarations root
  pure (.ofList declared)

def collectNames (s : Store) (root : NodeId) : Except Error NameSet := do
  let declared ← s.declarations root
  pure (.ofList (declared.map Prod.fst))

end Store

end SchemaGraph
