import SchemaGraph.Traversal.Preorder

/-!
Nodes that carry a mark in their metadata: listing them, and replacing those that a discriminator
marks. Nodes are replaced in place and children first, so ids recorded before lead to the new nodes.
Tagged unions are left alone.
-/

namespace SchemaGraph

namespace Store

/-- The nodes below `root`, in pre-order, whose metadata has the key. -/
def collectMarked (s : Store) (root : NodeId) (key : String) : Except Error (List NodeId) := do
  let ids ← s.preorder root
  pure (ids.filter fun id => ((s.get? id).bind fun node => node.metadataValue? key).isSome)

end Store

/-! ### Replacing -/

variable {σ : Type}

/-- Gives the node for a marked one: it may look at the store and at its own data. -/
abbrev Replacement (σ : Type) := Store → NodeId → Json → EStateM Error σ Node

/-- Asks for the node in the place of a marked one. -/
def Replacement.ask (replacement : Replacement σ) (id : NodeId) (discriminator : Json) :
    Pass σ Node := fun (s, own) =>
  match replacement s id discriminator own with
  | .ok node own => .ok node (s, own)
  | .error e own => .error e (s, own)

/-- Goes to the children, then replaces the node if it is marked with `key`. -/
def discriminatorVisitor (key : String) (replacement : Replacement σ) : Visitor σ :=
  fun visit id => do
    let id ← mapChildren visit id
    let node ← Pass.node id
    if node.kind? = some .taggedUnion then pure id
    else
      match node.metadataValue? key with
      | none => pure id
      | some discriminator =>
        let new ← replacement.ask id discriminator
        let _ ← Pass.replace id new
        pure id

def applyDiscriminators (root : NodeId) (key : String) (replacement : Replacement σ) :
    Pass σ NodeId :=
  (discriminatorVisitor key replacement).walk root

end SchemaGraph
