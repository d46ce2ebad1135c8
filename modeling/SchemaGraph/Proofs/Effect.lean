import Mathlib.Order.Defs.Unbundled
import SchemaGraph.Traversal.Children
import SchemaGraph.Proofs.Pass

/-!
What a pass does to the store, whether it goes through or fails on its way.

* `Pass.Moves` — the store in which the pass ends is related to the one in which it starts;
* `Growth` — the relations that allow more nodes at the end, so that walks keep to them;
* `Pass.OnlyInserts` — the passes that leave every node as it is.
-/

namespace SchemaGraph

/-! ### Relations between stores -/

instance : IsPreorder Store Store.Extends where
  refl := Store.Extends.refl
  trans _ _ _ := Store.Extends.trans

/-- A preorder on stores that leads from each store to the same with one more node. -/
class Growth (R : Store → Store → Prop) : Prop extends IsPreorder Store R where
  insert : ∀ s node, R s (s.insert node)

instance : Growth Store.Extends where
  insert := Store.extends_insert

namespace Pass

variable {σ τ α β : Type}

def endState : EStateM.Result Error (Store × σ) α → Store × σ
  | .ok _ st => st
  | .error _ st => st

def storeAfter (x : Pass σ α) (own : σ) (s : Store) : Store := (endState (x (s, own))).1

/-- However the pass ends, the store is then related to the one from which it started. -/
def Moves (R : Store → Store → Prop) (x : Pass σ α) : Prop :=
  ∀ st : Store × σ, R st.1 (endState (x st)).1

/-- From every state the pass ends in one where all nodes are still at their places. -/
abbrev OnlyInserts (x : Pass σ α) : Prop := Moves Store.Extends x

theorem bind_eq_error {x : Pass σ α} {f : α → Pass σ β} {e : Error} {st st' : Store × σ} :
    (x >>= f) st = .error e st' ↔
      x st = .error e st' ∨ ∃ a mid, x st = .ok a mid ∧ f a mid = .error e st' := by
  simp only [bind, EStateM.bind]
  cases x st with
  | ok a mid =>
    constructor
    · exact fun h => .inr ⟨a, mid, rfl, h⟩
    · rintro (h | ⟨a', mid', h, h'⟩)
      · cases h
      · cases h
        exact h'
  | error e' mid => simp

namespace Moves

variable {R : Store → Store → Prop} {x : Pass σ α} {f : α → Pass σ β} {st st' : Store × σ}

theorem storeAfter (h : Moves R x) (own : σ) (s : Store) : R s (x.storeAfter own s) := h (s, own)

theorem of_ok {a : α} (h : Moves R x) (hx : x st = .ok a st') : R st.1 st'.1 := by
  have hst := h st
  rwa [hx] at hst

theorem of_error {e : Error} (h : Moves R x) (hx : x st = .error e st') : R st.1 st'.1 := by
  have hst := h st
  rwa [hx] at hst

/-! ### Steps -/

section Steps

variable [IsPreorder Store R]

protected theorem pure {a : α} : Moves R (pure a : Pass σ α) := fun st => refl_of R st.1

protected theorem throw {e : Error} : Moves R (throw e : Pass σ α) := fun st => refl_of R st.1

protected theorem bind (hx : Moves R x) (hf : ∀ a, Moves R (f a)) : Moves R (x >>= f) := by
  intro st
  have hfirst := hx st
  simp only [Bind.bind, EStateM.bind]
  cases hrun : x st with
  | error e mid =>
    rw [hrun] at hfirst
    exact hfirst
  | ok a mid =>
    rw [hrun] at hfirst
    exact trans_of R hfirst (hf a mid)

protected theorem look {g : Store → Except Error α} : Moves R (look g : Pass σ α) := by
  intro st
  unfold Pass.look
  cases g st.1 <;> exact refl_of R st.1

protected theorem node {id : NodeId} : Moves R (Pass.node id : Pass σ Node) := .look

protected theorem own : Moves R (Pass.own : Pass σ σ) := fun st => refl_of R st.1

protected theorem modifyOwn {g : σ → σ} : Moves R (Pass.modifyOwn g) := fun st => refl_of R st.1

protected theorem mapM {visit : α → Pass σ β} (h : ∀ a, Moves R (visit a)) :
    ∀ xs : List α, Moves R (xs.mapM visit)
  | [] => by
    rw [List.mapM_nil]
    exact .pure
  | x :: xs => by
    rw [List.mapM_cons]
    exact (h x).bind fun _ => (Moves.mapM h xs).bind fun _ => .pure

end Steps

protected theorem within {start : τ} {y : Pass τ α} (hy : Moves R y) :
    Moves R (Pass.within start y : Pass σ (α × τ)) := by
  rintro ⟨s, own⟩
  have hinner := hy (s, start)
  simp only [Pass.within]
  cases hrun : y (s, start) with
  | ok a st =>
    rw [hrun] at hinner
    exact hinner
  | error e st =>
    rw [hrun] at hinner
    exact hinner

/-! ### Walks -/

section Walks

variable [Growth R]

protected theorem insert {node : Node} : Moves R (Pass.insert node : Pass σ NodeId) :=
  fun st => Growth.insert st.1 node

protected theorem mapChildren {visit : NodeId → Pass σ NodeId} (h : ∀ id, Moves R (visit id))
    (id : NodeId) : Moves R (mapChildren visit id) := by
  refine .bind .look fun _ => .bind (.mapM h _) fun visited => ?_
  split
  · exact .pure
  · exact .bind .node fun _ => .insert

/-- A walk keeps to a relation if its visitor does wherever the visits that it makes do. -/
protected theorem walkWithin {visitor : Visitor σ}
    (h : ∀ visit, (∀ id, Moves R (visit id)) → ∀ id, Moves R (visitor visit id)) :
    ∀ depth id, Moves R (visitor.walkWithin depth id)
  | 0, _ => .throw
  | depth + 1, id => h _ (Moves.walkWithin h depth) id

protected theorem walk {visitor : Visitor σ}
    (h : ∀ visit, (∀ id, Moves R (visit id)) → ∀ id, Moves R (visitor visit id))
    (id : NodeId) : Moves R (visitor.walk id) :=
  fun st => Moves.walkWithin h st.1.depthLimit id st

end Walks

end Moves

end Pass

end SchemaGraph
