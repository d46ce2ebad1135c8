import Mathlib.Logic.Relation
import SchemaGraph.Traversal.Preorder
import SchemaGraph.Proofs.Pass

/-!
The tree below a node: all nodes that steps to children lead to. References are not followed.
`Store.mem_preorder` says that the walk in pre-order lists exactly these nodes.
-/

namespace SchemaGraph

theorem Node.checkSlots_eq_ok {node : Node} {kind : Kind} {id : NodeId} :
    node.checkSlots kind id = .ok () ↔ node.misfit? kind = none := by
  unfold checkSlots
  cases node.misfit? kind <;> simp

namespace Store

/-- `child` is one of the children of the node at `id`, which walks may enter. -/
def IsChild (s : Store) (id child : NodeId) : Prop := ∃ ids, s.childIds id = .ok ids ∧ child ∈ ids

/-- `id` is a node of the tree at `root`. -/
def Below (s : Store) : NodeId → NodeId → Prop := Relation.ReflTransGen s.IsChild

variable {s : Store}

theorem wellShaped_eq_ok {id : NodeId} {node : Node} {kind : Kind} :
    s.wellShaped id = .ok (node, kind) ↔
      s.get? id = some node ∧ node.kind? = some kind ∧ node.misfit? kind = none := by
  unfold wellShaped kindOf Node.checkSlots
  simp only [bind_eq_ok, pure_eq_ok, Store.node_eq_ok]
  constructor
  · rintro ⟨node', hnode, kind', hkind, ⟨⟩, hslots, e⟩
    cases e
    refine ⟨hnode, ?_, ?_⟩
    · cases hk : node.kind? <;> simp_all
    · cases hm : node.misfit? kind <;> simp_all
  · rintro ⟨hnode, hk, hm⟩
    exact ⟨node, hnode, kind, by simp [hk], (), by simp [hm], rfl⟩

theorem childIds_eq_ok {id : NodeId} {ids : List NodeId} :
    s.childIds id = .ok ids ↔ ∃ node kind, s.get? id = some node ∧ node.kind? = some kind ∧
      node.misfit? kind = none ∧ node.orderedChildren kind = ids := by
  unfold childIds
  simp only [bind_eq_ok, pure_eq_ok, Prod.exists, wellShaped_eq_ok, and_assoc]

theorem childIds_parts {id : NodeId} {ids : List NodeId} {node : Node}
    (h : s.childIds id = .ok ids) (hnode : s.get? id = some node) :
    ∃ kind, node.kind? = some kind ∧ node.misfit? kind = none ∧ node.orderedChildren kind = ids := by
  obtain ⟨node', kind, hnode', hparts⟩ := childIds_eq_ok.1 h
  rw [hnode] at hnode'
  cases hnode'
  exact ⟨kind, hparts⟩

theorem below_iff {root id : NodeId} :
    s.Below root id ↔ id = root ∨ ∃ ids, s.childIds root = .ok ids ∧ ∃ child ∈ ids, s.Below child id := by
  constructor
  · intro h
    rcases Relation.ReflTransGen.cases_head h with rfl | ⟨child, ⟨ids, hids, hmem⟩, h⟩
    · exact .inl rfl
    · exact .inr ⟨ids, hids, child, hmem, h⟩
  · rintro (rfl | ⟨ids, hids, child, hmem, h⟩)
    · exact .refl
    · exact .head ⟨ids, hids, hmem⟩ h

theorem below_of_childIds {root id : NodeId} {ids : List NodeId} (h : s.childIds root = .ok ids) :
    s.Below root id ↔ id = root ∨ ∃ child ∈ ids, s.Below child id := by
  rw [below_iff, h]
  simp

theorem mem_preorderLoop {work : List (Nat × NodeId)} {done out : Array NodeId} {id : NodeId}
    (h : s.preorderLoop work done = .ok out) :
    id ∈ out ↔ id ∈ done ∨ ∃ todo ∈ work, s.Below todo.2 id := by
  induction work, done using Store.preorderLoop.induct s with
  | case1 done =>
    rw [preorderLoop] at h
    cases h
    simp
  | case2 done root rest =>
    rw [preorderLoop] at h
    cases h
  | case3 done depth root rest e hids =>
    rw [preorderLoop] at h
    split at h
    · cases h
    · rename_i ids hids'
      rw [hids] at hids'
      cases hids'
  | case4 done depth root rest ids hids ih =>
    rw [preorderLoop] at h
    split at h
    · rename_i e hids'
      rw [hids] at hids'
      cases hids'
    · rename_i ids' hids'
      rw [hids] at hids'
      cases hids'
      rw [ih h]
      simp only [Array.mem_push, List.mem_append, List.mem_map, List.mem_cons, exists_eq_or_imp,
        below_of_childIds hids]
      constructor
      · rintro ((hd | rfl) | ⟨todo, ⟨child, hc, rfl⟩ | hrest, hb⟩)
        · exact .inl hd
        · exact .inr (.inl (.inl rfl))
        · exact .inr (.inl (.inr ⟨child, hc, hb⟩))
        · exact .inr (.inr ⟨todo, hrest, hb⟩)
      · rintro (hd | (rfl | ⟨child, hc, hb⟩) | ⟨todo, hrest, hb⟩)
        · exact .inl (.inl hd)
        · exact .inl (.inr rfl)
        · exact .inr ⟨(depth, child), .inl ⟨child, hc, rfl⟩, hb⟩
        · exact .inr ⟨todo, .inr hrest, hb⟩

/-- **The walk in pre-order lists the nodes of the tree.** -/
theorem mem_preorder {root id : NodeId} {ids : List NodeId} (h : s.preorder root = .ok ids) :
    id ∈ ids ↔ s.Below root id := by
  unfold preorder at h
  cases hloop : s.preorderLoop [(s.depthLimit, root)] #[] with
  | error e =>
    rw [hloop] at h
    cases h
  | ok out =>
    rw [hloop] at h
    cases h
    simp [mem_preorderLoop hloop]

end Store

end SchemaGraph
