import SchemaGraph.Proofs.Grounded

/-!
Trees without shared nodes. Where no node below the root is held twice, of two nodes that lead to a
third one lies below the other, and the walk in pre-order comes to each node once
(`Store.Unshared.nodup_preorder`).
-/

namespace SchemaGraph

namespace Store

/-- No two nodes below `root` hold the same one, and none holds one twice. -/
structure Unshared (s : Store) (root : NodeId) : Prop where
  nodup : ∀ id node, s.Below root id → s.get? id = some node → node.storedIds.Nodup
  parent_unique : ∀ id other child, s.Below root id → s.Below root other → s.Holds id child →
    s.Holds other child → id = other

variable {s : Store} {P : Node → Prop} {root a b x : NodeId}

/-- Of two nodes that lead to the same one the first lies below the second or the other way round. -/
theorem Unshared.comparable (h : s.Unshared root) (ha : s.Below root a) (hb : s.Below root b)
    (hax : s.Below a x) (hbx : s.Below b x) : s.Below a b ∨ s.Below b a := by
  -- the way up from a node is determined
  let up : NodeId → NodeId → Prop := fun child id => s.Below root id ∧ s.IsChild id child
  have hunique : Relator.RightUnique up := fun child id other hid hother =>
    h.parent_unique id other child hid.1 hother.1 hid.2.holds hother.2.holds
  have hup : ∀ {id y : NodeId}, s.Below root id → s.Below id y → Relation.ReflTransGen up y id := by
    intro id y hid hy
    induction hy with
    | refl => exact .refl
    | tail hpath hchild ih => exact .head ⟨hid.trans hpath, hchild⟩ ih
  have hdown : ∀ {y id : NodeId}, Relation.ReflTransGen up y id → s.Below id y := by
    intro y id hy
    induction hy with
    | refl => exact .refl
    | tail _ hstep ih => exact .head hstep.2 ih
  rcases Relation.ReflTransGen.total_of_right_unique hunique (hup ha hax) (hup hb hbx) with hab | hba
  · exact .inr (hdown hab)
  · exact .inl (hdown hba)

theorem Unshared.sibling_not_below (h : s.Unshared root) (hg : s.Grounded P root) {id : NodeId}
    (hid : s.Below root id) (ha : s.IsChild id a) (hb : s.IsChild id b) (hne : a ≠ b) :
    ¬ s.Below a b := by
  intro hpath
  -- the way would come to `id` again
  rcases Relation.ReflTransGen.cases_tail hpath with e | ⟨top, hpath, hlast⟩
  · exact hne e.symm
  · obtain rfl : top = id := h.parent_unique top id b ((hid.tail ha).trans hpath) hid
      hlast.holds hb.holds
    exact (hg.of_below hid).not_transGen_isChild (.head' ha hpath)

theorem Unshared.disjoint (h : s.Unshared root) (hg : s.Grounded P root) {id : NodeId}
    (hid : s.Below root id) (ha : s.IsChild id a) (hb : s.IsChild id b) (hne : a ≠ b)
    (hax : s.Below a x) : ¬ s.Below b x := by
  intro hbx
  rcases h.comparable (hid.tail ha) (hid.tail hb) hax hbx with hab | hba
  · exact h.sibling_not_below hg hid ha hb hne hab
  · exact h.sibling_not_below hg hid hb ha hne.symm hba

theorem Unshared.pairwise_disjoint (h : s.Unshared root) (hg : s.Grounded P root) {id : NodeId}
    {ids : List NodeId} (hid : s.Below root id) (hids : s.childIds id = .ok ids) :
    ids.Pairwise fun a b => ∀ x, s.Below a x → ¬ s.Below b x := by
  obtain ⟨node, kind, hnode, -, -, rfl⟩ := childIds_eq_ok.1 hids
  refine (Node.nodup_orderedChildren kind (h.nodup id node hid hnode)).imp_of_mem ?_
  intro a b ha hb hne x
  exact h.disjoint hg hid ⟨_, hids, ha⟩ ⟨_, hids, hb⟩ hne

theorem below_of_mem_treeWithin : ∀ {depth : Nat} {id : NodeId}, x ∈ s.treeWithin depth id →
    s.Below id x
  | 0, _, h => by cases h
  | depth + 1, id, h => by
    rcases List.mem_cons.1 h with rfl | h
    · exact .refl
    · obtain ⟨child, hchild, hx⟩ := List.mem_flatMap.1 h
      cases hids : s.childIds id with
      | error e =>
        rw [hids] at hchild
        cases hchild
      | ok ids =>
        rw [hids] at hchild
        exact .head ⟨ids, hids, hchild⟩ (below_of_mem_treeWithin hx)

theorem Unshared.nodup_treeWithin (h : s.Unshared root) (hg : s.Grounded P root) :
    ∀ (depth : Nat) {id : NodeId}, s.Below root id → (s.treeWithin depth id).Nodup
  | 0, _, _ => List.nodup_nil
  | depth + 1, id, hid => by
    have hhere := hg.of_below hid
    obtain ⟨ids, hids, -⟩ := hhere.childIds
    have hchild : ∀ child ∈ ids, s.IsChild id child := fun child hmem => ⟨_, hids, hmem⟩
    rw [treeWithin_succ hids]
    refine List.nodup_cons.2 ⟨fun hmem => ?_, List.nodup_flatMap.2 ⟨fun child hmem => ?_, ?_⟩⟩
    · obtain ⟨child, hmem, hback⟩ := List.mem_flatMap.1 hmem
      exact hhere.not_transGen_isChild (.head' (hchild child hmem) (below_of_mem_treeWithin hback))
    · exact h.nodup_treeWithin hg depth (hid.tail (hchild child hmem))
    · refine (h.pairwise_disjoint hg hid hids).imp fun hdisjoint w hyw hzw => ?_
      exact hdisjoint w (below_of_mem_treeWithin hyw) (below_of_mem_treeWithin hzw)

/-- **The walk in pre-order comes to each node of an unshared tree once.** -/
theorem Unshared.nodup_preorder (h : s.Unshared root) {ids : List NodeId}
    (hids : s.preorder root = .ok ids) : ids.Nodup := by
  have hg := grounded_iff.2 ⟨ids, hids⟩
  rw [hg.preorder_eq] at hids
  cases hids
  exact h.nodup_treeWithin hg _ .refl

end Store

end SchemaGraph
