import Mathlib.Data.List.Nodup
import Mathlib.Data.List.Perm.Subperm
import Mathlib.Data.Fintype.EquivFin
import Mathlib.Order.WellFounded
import SchemaGraph.Proofs.Trees

/-!
Stores in which no node is below itself. Nodes may be shared there, but a path of children has no
node twice, so it is no longer than the store is large (`Acyclic.reach_depthLimit`), and walks do
not come to the bound on their depth.
-/

namespace SchemaGraph

namespace Store

/-- No node is reached from itself by steps to children. -/
def Acyclic (s : Store) : Prop := ∀ id, ¬ Relation.TransGen s.IsChild id id

/-- Paths of children from `id` have fewer than `depth` steps. -/
inductive Reach (s : Store) : (depth : Nat) → NodeId → Prop where
  | node {depth : Nat} {id : NodeId} (h : ∀ child, s.IsChild id child → Reach s depth child) :
      Reach s (depth + 1) id

variable {s : Store} {id x : NodeId}

theorem IsChild.lt_size (h : s.IsChild id x) : id.index < s.size := by
  obtain ⟨ids, hids, -⟩ := h
  obtain ⟨node, -, hnode, -⟩ := childIds_eq_ok.1 hids
  exact lt_size_of_get? hnode

theorem Reach.child {depth : Nat} (h : s.Reach (depth + 1) id) (hchild : s.IsChild id x) :
    s.Reach depth x := by
  cases h with
  | node h => exact h x hchild

theorem not_reach_zero : ¬ s.Reach 0 id := by
  intro h
  cases h

/-- A store whose children have a smaller rank than the nodes that hold them. -/
theorem acyclic_of_rank (rank : NodeId → Nat)
    (h : ∀ id child, s.IsChild id child → rank child < rank id) : s.Acyclic := by
  have hpath : ∀ {id x : NodeId}, Relation.TransGen s.IsChild id x → rank x < rank id := by
    intro id x hx
    induction hx with
    | single hchild => exact h _ _ hchild
    | tail _ hchild ih => exact Nat.lt_trans (h _ _ hchild) ih
  exact fun id hid => Nat.lt_irrefl _ (hpath hid)

theorem acyclic_of_forall (rank : NodeId → Nat)
    (h : ∀ index < s.size, ∀ child ∈ (s.childIds ⟨index⟩).toOption.getD [],
      rank child < rank ⟨index⟩) : s.Acyclic := by
  refine acyclic_of_rank rank fun id child hchild => ?_
  have hlt := hchild.lt_size
  obtain ⟨ids, hids, hmem⟩ := hchild
  exact h id.index hlt child (by rw [hids]; exact hmem)

theorem length_le_size {ids : List NodeId} (hnodup : ids.Nodup)
    (h : ∀ id ∈ ids, id.index < s.size) : ids.length ≤ s.size := by
  have hindices : (ids.map NodeId.index).Nodup := by
    refine hnodup.map fun a b e => ?_
    cases a
    cases b
    exact congrArg NodeId.mk e
  have hsub : ids.map NodeId.index ⊆ List.range s.size := by
    intro index hindex
    obtain ⟨id, hid, rfl⟩ := List.mem_map.1 hindex
    exact List.mem_range.2 (h id hid)
  simpa using (List.subperm_of_subset hindices hsub).length_le

/-- `above` are the nodes of a path that leads to `id`, below which no node is below itself; the
longer the path is, the shorter are the paths from `id`. -/
theorem reach_of_path {depth : Nat} :
    ∀ {above : List NodeId} {id : NodeId},
      (∀ x, s.Below id x → ¬ Relation.TransGen s.IsChild x x) → above.Nodup →
      (∀ x ∈ above, x.index < s.size ∧ Relation.TransGen s.IsChild x id) →
        s.size < depth + above.length → s.Reach depth id := by
  induction depth with
  | zero =>
    intro above id _ hnodup habove hlength
    have := length_le_size hnodup fun x hx => (habove x hx).1
    omega
  | succ depth ih =>
    intro above id hbelow hnodup habove hlength
    refine .node fun child hchild => @ih (id :: above) child
      (fun x hx => hbelow x (.head hchild hx)) ?_ ?_ ?_
    · exact List.nodup_cons.2 ⟨fun hid => hbelow id .refl (habove id hid).2, hnodup⟩
    · intro x hx
      rcases List.mem_cons.1 hx with rfl | hx
      · exact ⟨hchild.lt_size, .single hchild⟩
      · exact ⟨(habove x hx).1, (habove x hx).2.tail hchild⟩
    · simp only [List.length_cons]
      omega

/-- Where no node below is below itself no path comes to the depth limit. -/
theorem reach_depthLimit (h : ∀ x, s.Below id x → ¬ Relation.TransGen s.IsChild x x) :
    s.Reach s.depthLimit id := by
  have hlimit : s.size < s.depthLimit := Nat.le_mul_of_pos_right (s.size + 1) (Nat.succ_pos _)
  exact reach_of_path h List.nodup_nil (by simp) hlimit

/-- **Without a cycle of children no path comes to the depth limit.** -/
theorem Acyclic.reach_depthLimit (h : s.Acyclic) (id : NodeId) : s.Reach s.depthLimit id :=
  Store.reach_depthLimit fun x _ => h x

/-- A relation that leads only from finitely many ids and never back has no infinite path. -/
theorem wellFounded_of_irrefl {R : NodeId → NodeId → Prop} {n : Nat}
    (hbound : ∀ x y, R x y → x.index < n) (hirrefl : ∀ x, ¬ Relation.TransGen R x x) :
    WellFounded fun y x => Relation.TransGen R x y := by
  let inside := {x : NodeId // x.index < n}
  have hinjective : Function.Injective fun x : inside => (⟨x.1.index, x.2⟩ : Fin n) := by
    rintro ⟨⟨a⟩, ha⟩ ⟨⟨b⟩, hb⟩ h
    cases h
    rfl
  have hfinite : Finite inside := Finite.of_injective _ hinjective
  let after := fun y x : inside => Relation.TransGen R x.1 y.1
  have htrans : IsTrans inside after := ⟨fun _ _ _ h h' => Relation.TransGen.trans h' h⟩
  have hnone : Std.Irrefl after := ⟨fun x => hirrefl x.1⟩
  have hwf : WellFounded after := Finite.wellFounded_of_trans_of_irrefl after
  have houtside : ∀ x : NodeId, ¬ x.index < n → Acc (fun y x => Relation.TransGen R x y) x := by
    intro x hx
    refine .intro x fun y hxy => absurd ?_ hx
    obtain ⟨z, hstep, -⟩ := Relation.TransGen.head'_iff.1 hxy
    exact hbound x z hstep
  have hall : ∀ x : inside, Acc (fun y x => Relation.TransGen R x y) x.1 := by
    intro x
    induction x using hwf.induction with
    | _ x ih =>
      refine .intro x.1 fun y hxy => ?_
      by_cases hy : y.index < n
      · exact ih ⟨y, hy⟩ hxy
      · exact houtside y hy
  refine ⟨fun x => ?_⟩
  by_cases hx : x.index < n
  · exact hall ⟨x, hx⟩
  · exact houtside x hx

end Store

end SchemaGraph
