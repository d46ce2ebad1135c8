import SchemaGraph.Schema.Error

/-!
The store of a schema graph: nodes by id. Nodes are added at the end and never taken away, so an id
stays valid. A pass works on a store and on data of its own; when it fails, both keep what it had
done so far.
-/

namespace SchemaGraph

structure Store where
  nodes : Array Node := #[]
deriving DecidableEq

namespace Store

def empty : Store := {}

instance : EmptyCollection Store := ⟨empty⟩

instance : Inhabited Store := ⟨empty⟩

def size (s : Store) : Nat := s.nodes.size

def isEmpty (s : Store) : Bool := s.nodes.isEmpty

def get? (s : Store) (id : NodeId) : Option Node := s.nodes[id.index]?

def node (s : Store) (id : NodeId) : Except Error Node :=
  match s.get? id with
  | some node => .ok node
  | none => .error (.unknownNode id)

def nextId (s : Store) : NodeId := ⟨s.nodes.size⟩

def insert (s : Store) (node : Node) : Store := ⟨s.nodes.push node⟩

def set (s : Store) (id : NodeId) (node : Node) : Store :=
  ⟨s.nodes.setIfInBounds id.index node⟩

/-- A bound on how deep a walk can go that comes to an end. Without a cycle no path is longer than
the store has nodes; the square leaves room for nodes that a pass adds on its way. -/
def depthLimit (s : Store) : Nat := (s.size + 1) * (s.size + 1)

@[simp]
theorem size_insert (s : Store) (node : Node) : (s.insert node).size = s.size + 1 := by
  simp [insert, size]

@[simp]
theorem size_set (s : Store) (id : NodeId) (node : Node) : (s.set id node).size = s.size := by
  simp [set, size]

theorem get?_insert_of_lt {s : Store} {id : NodeId} (node : Node) (h : id.index < s.size) :
    (s.insert node).get? id = s.get? id := by
  simp only [insert, get?, size] at *
  rw [Array.getElem?_push]
  simp [Nat.ne_of_lt h]

@[simp]
theorem get?_insert_nextId (s : Store) (node : Node) :
    (s.insert node).get? s.nextId = some node := by
  simp [insert, get?, nextId]

theorem get?_set_self {s : Store} {id : NodeId} (node : Node) (h : id.index < s.size) :
    (s.set id node).get? id = some node := by
  simp only [set, get?, size] at *
  simp [h]

theorem get?_set_of_ne {s : Store} {id other : NodeId} (node : Node) (h : other ≠ id) :
    (s.set id node).get? other = s.get? other := by
  have : id.index ≠ other.index := fun e => h (by cases id; cases other; simp_all)
  simp [set, get?, this]

theorem get?_eq_none {s : Store} {id : NodeId} : s.get? id = none ↔ s.size ≤ id.index := by
  simp [get?, size]

end Store

/-! ### Passes -/

/-- A computation on a store and data of type `σ`. -/
abbrev Pass (σ : Type) := EStateM Error (Store × σ)

namespace Pass

variable {σ α : Type}

/-- Reads something off the store. -/
def look (f : Store → Except Error α) : Pass σ α := fun state =>
  match f state.1 with
  | .ok a => .ok a state
  | .error e => .error e state

def node (id : NodeId) : Pass σ Node := look (·.node id)

def insert (node : Node) : Pass σ NodeId := fun (s, own) =>
  let id := s.nextId
  .ok id (s.insert node, own)

/-- Puts another node in the place of the one at `id`, which has to be there, and returns the old
one. -/
def replace (id : NodeId) (node : Node) : Pass σ Node := fun (s, own) =>
  match s.get? id with
  | some old => .ok old (s.set id node, own)
  | none => .error (.unknownNode id) (s, own)

def own : Pass σ σ := fun state => .ok state.2 state

def modifyOwn (f : σ → σ) : Pass σ Unit := fun (s, own) => .ok () (s, f own)

/-- Runs a pass with data of its own inside one with other data. -/
def within {τ : Type} (start : τ) (pass : Pass τ α) : Pass σ (α × τ) := fun (s, own) =>
  match pass (s, start) with
  | .ok a (s, result) => .ok (a, result) (s, own)
  | .error e (s, _) => .error e (s, own)

end Pass

/-- A computation on a store alone. -/
abbrev StoreM := Pass Unit

end SchemaGraph
