import SchemaGraph.Traversal.Children
import SchemaGraph.Proofs.Acyclic
import SchemaGraph.Proofs.Loading
import SchemaGraph.Proofs.Wire.Shown

/-!
Trees that come to an end. `Store.Grounded P id` says of all nodes that the tree at `id` has: they
are there, fit their kinds, have the property `P`, and the tree is finite. Nodes may be shared.

* `Store.grounded_iff` — these are the trees that the walk in pre-order goes through;
* `Store.Grounded.preorder_cons` — the walk lists a node and then the trees of its children;
* `Store.Grounded.render`, `Store.Grounded.walk_identity` — other walks go through as well.
-/

namespace SchemaGraph

theorem Store.IsChild.holds {s : Store} {id child : NodeId} (h : s.IsChild id child) :
    s.Holds id child := by
  obtain ⟨ids, hids, hchild⟩ := h
  obtain ⟨node, kind, hnode, -, hfits, rfl⟩ := Store.childIds_eq_ok.1 hids
  exact ⟨node, hnode, (Node.mem_orderedChildren hfits).1 hchild⟩

namespace Store

/-- The tree at `id` is finite, walks may enter each of its nodes, and each has the property `P`. -/
inductive Grounded (s : Store) (P : Node → Prop) : NodeId → Prop where
  | node {id : NodeId} {node : Node} {kind : Kind} (hnode : s.get? id = some node)
      (hkind : node.kind? = some kind) (hfits : node.misfit? kind = none) (hP : P node)
      (hkids : ∀ child ∈ node.storedIds, Grounded s P child) : Grounded s P id

variable {s s' : Store} {P Q : Node → Prop} {id x : NodeId}

namespace Grounded

theorem mono (h : s.Grounded P id) (hPQ : ∀ node, P node → Q node) : s.Grounded Q id := by
  induction h with
  | node hnode hkind hfits hP _ ih => exact .node hnode hkind hfits (hPQ _ hP) ih

theorem of_extends (h : s.Grounded P id) (hext : s.Extends s') : s'.Grounded P id := by
  induction h with
  | node hnode hkind hfits hP _ ih => exact .node (hext.get?_of_some hnode) hkind hfits hP ih

theorem of_holds (h : s.Grounded P id) (hx : s.Holds id x) : s.Grounded P x := by
  cases h with
  | node hnode _ _ _ hkids =>
    obtain ⟨node, hnode', hx⟩ := hx
    rw [hnode] at hnode'
    cases hnode'
    exact hkids x hx

theorem of_path (h : s.Grounded P id) (hx : Relation.ReflTransGen s.Holds id x) :
    s.Grounded P x := by
  induction hx with
  | refl => exact h
  | tail _ hchild ih => exact ih.of_holds hchild

theorem of_below (h : s.Grounded P id) (hx : s.Below id x) : s.Grounded P x :=
  h.of_path (Relation.ReflTransGen.mono (fun _ _ hchild => hchild.holds) _ _ hx)

theorem childIds (h : s.Grounded P id) :
    ∃ ids, s.childIds id = .ok ids ∧ ∀ child ∈ ids, s.Grounded P child := by
  cases h with
  | @node id node kind hnode hkind hfits _ hkids =>
    refine ⟨node.orderedChildren kind, childIds_eq_ok.2 ⟨_, _, hnode, hkind, hfits, rfl⟩, ?_⟩
    intro child hchild
    exact hkids child ((Node.mem_orderedChildren hfits).1 hchild)

theorem isChild (h : s.Grounded P id) (hx : s.Holds id x) : s.IsChild id x := by
  cases h with
  | @node id node kind hnode hkind hfits _ _ =>
    obtain ⟨node', hnode', hx⟩ := hx
    rw [hnode] at hnode'
    cases hnode'
    exact ⟨_, childIds_eq_ok.2 ⟨node, kind, hnode, hkind, hfits, rfl⟩,
      (Node.mem_orderedChildren hfits).2 hx⟩

theorem exists_node (h : s.Grounded P id) : ∃ node, s.get? id = some node ∧ P node := by
  cases h with
  | node hnode _ _ hP _ => exact ⟨_, hnode, hP⟩

theorem property {node : Node} (h : s.Grounded P id) (hnode : s.get? id = some node) : P node := by
  obtain ⟨other, hother, hP⟩ := h.exists_node
  rw [hnode] at hother
  cases hother
  exact hP

/-! ### No way back -/

theorem not_transGen (h : s.Grounded P id) : ¬ Relation.TransGen s.Holds id id := by
  induction h with
  | @node id node kind hnode _ _ _ _ ih =>
    intro hround
    obtain ⟨child, ⟨node', hnode', hchild⟩, hback⟩ := Relation.TransGen.head'_iff.1 hround
    rw [hnode] at hnode'
    cases hnode'
    exact ih child hchild (.tail' hback ⟨node, hnode, hchild⟩)

theorem not_transGen_isChild (h : s.Grounded P id) : ¬ Relation.TransGen s.IsChild id id :=
  fun hround => h.not_transGen (Relation.TransGen.mono (fun _ _ hchild => hchild.holds) _ _ hround)

theorem reach_depthLimit (h : s.Grounded P id) : s.Reach s.depthLimit id :=
  Store.reach_depthLimit fun _ hx => (h.of_below hx).not_transGen_isChild

end Grounded

/-! ### The walk in pre-order -/

/-- Depth does not matter where paths end before it. -/
theorem treeWithin_eq {depth : Nat} : ∀ {other : Nat} {id : NodeId}, s.Reach depth id →
    s.Reach other id → s.treeWithin depth id = s.treeWithin other id := by
  induction depth with
  | zero => exact fun h => absurd h not_reach_zero
  | succ depth ih =>
    intro other id h h'
    cases other with
    | zero => exact absurd h' not_reach_zero
    | succ other =>
      cases hids : s.childIds id with
      | error e => simp only [treeWithin, hids]; rfl
      | ok ids =>
        rw [treeWithin_succ hids, treeWithin_succ hids]
        congr 1
        refine List.flatMap_congr fun child hchild => ?_
        exact ih (h.child ⟨ids, hids, hchild⟩) (h'.child ⟨ids, hids, hchild⟩)

theorem preorderLoop_eq {work : List (Nat × NodeId)} {done : Array NodeId}
    (h : ∀ todo ∈ work, s.Grounded P todo.2 ∧ s.Reach todo.1 todo.2) :
    s.preorderLoop work done =
      .ok (done ++ (work.flatMap fun todo => s.treeWithin todo.1 todo.2).toArray) := by
  induction work, done using preorderLoop.induct s with
  | case1 done =>
    rw [preorderLoop]
    simp
  | case2 done root rest => exact absurd (h _ List.mem_cons_self).2 not_reach_zero
  | case3 done depth root rest e hids =>
    obtain ⟨ids, hok, -⟩ := (h _ List.mem_cons_self).1.childIds
    rw [hids] at hok
    cases hok
  | case4 done depth root rest ids hids ih =>
    have hroot := h _ List.mem_cons_self
    rw [preorderLoop]
    split
    · rename_i e hids'
      rw [hids] at hids'
      cases hids'
    · rename_i ids' hids'
      rw [hids] at hids'
      cases hids'
      rw [ih]
      · simp [treeWithin_succ hids, List.flatMap_map]
      · intro todo htodo
        rcases List.mem_append.1 htodo with htodo | htodo
        · obtain ⟨child, hchild, rfl⟩ := List.mem_map.1 htodo
          exact ⟨hroot.1.of_holds (IsChild.holds ⟨ids, hids, hchild⟩),
            hroot.2.child ⟨ids, hids, hchild⟩⟩
        · exact h todo (List.mem_cons_of_mem _ htodo)

theorem Grounded.preorder_eq (h : s.Grounded P id) :
    s.preorder id = .ok (s.treeWithin s.depthLimit id) := by
  have hloop : s.preorderLoop [(s.depthLimit, id)] #[] = .ok _ :=
    preorderLoop_eq fun todo htodo => by
      rw [List.mem_singleton.1 htodo]
      exact ⟨h, h.reach_depthLimit⟩
  rw [preorder, hloop]
  simp [Except.map]

/-- **The walk in pre-order lists a node and then the trees of its children.** -/
theorem Grounded.preorder_cons (h : s.Grounded P id) :
    ∃ ids trees, s.childIds id = .ok ids ∧
      List.Forall₂ (fun child tree => s.preorder child = .ok tree) ids trees ∧
      s.preorder id = .ok (id :: trees.flatten) := by
  obtain ⟨ids, hids, hkids⟩ := h.childIds
  refine ⟨ids, ids.map (s.treeWithin s.depthLimit), hids, ?_, ?_⟩
  · rw [List.forall₂_map_right_iff, List.forall₂_same]
    exact fun child hchild => (hkids child hchild).preorder_eq
  · have hreach := h.reach_depthLimit
    cases hdepth : s.depthLimit with
    | zero => exact absurd (hdepth ▸ hreach) not_reach_zero
    | succ depth =>
      rw [h.preorder_eq, hdepth, treeWithin_succ hids, ← List.flatMap_def]
      congr 2
      refine List.flatMap_congr fun child hchild => treeWithin_eq ?_ ?_
      · rw [hdepth] at hreach
        exact hreach.child ⟨ids, hids, hchild⟩
      · rw [← hdepth]
        exact (hkids child hchild).reach_depthLimit

/-- A walk that goes through has been at nodes of finite trees only. -/
theorem grounded_of_preorderLoop {work : List (Nat × NodeId)} {done out : Array NodeId}
    (h : s.preorderLoop work done = .ok out) :
    ∀ todo ∈ work, s.Grounded (fun _ => True) todo.2 := by
  induction work, done using preorderLoop.induct s with
  | case1 done => simp
  | case2 done root rest =>
    rw [preorderLoop] at h
    cases h
  | case3 done depth root rest e hids =>
    rw [preorderLoop] at h
    split at h
    · cases h
    · rename_i ids hids'
      rw [hids] at hids'
      cases hids'
  | case4 done depth root rest ids hids ih =>
    rw [preorderLoop] at h
    split at h
    · rename_i e hids'
      rw [hids] at hids'
      cases hids'
    · rename_i ids' hids'
      rw [hids] at hids'
      cases hids'
      have hall := ih h
      obtain ⟨node, kind, hnode, hkind, hfits, rfl⟩ := childIds_eq_ok.1 hids
      intro todo htodo
      rcases List.mem_cons.1 htodo with rfl | htodo
      · refine .node hnode hkind hfits trivial fun child hchild => ?_
        refine hall (depth, child) (List.mem_append_left _ (List.mem_map.2 ⟨child, ?_, rfl⟩))
        exact (Node.mem_orderedChildren hfits).2 hchild
      · exact hall todo (List.mem_append_right _ htodo)

/-- **The walk in pre-order goes through exactly on finite trees of nodes that fit their kinds.** -/
theorem grounded_iff :
    s.Grounded (fun _ => True) id ↔ ∃ ids, s.preorder id = .ok ids := by
  constructor
  · exact fun h => ⟨_, h.preorder_eq⟩
  · rintro ⟨ids, h⟩
    unfold preorder at h
    cases hloop : s.preorderLoop [(s.depthLimit, id)] #[] with
    | error e =>
      rw [hloop] at h
      cases h
    | ok out => exact grounded_of_preorderLoop hloop (s.depthLimit, id) List.mem_cons_self

/-! ### Other walks -/

/-- If each id that a node holds is shown, so are the parts of the node. -/
theorem exists_shownAs {R : NodeId → Json → Prop} {node : Node}
    (h : ∀ child ∈ node.storedIds, ∃ w, R child w) :
    ∃ children serialization, node.ShownAs R children serialization := by
  have hchild : ∀ entry ∈ node.children.entries, ∃ w, entry.2.ShownAs R w := by
    rintro ⟨key, child⟩ hentry
    have hids : ∀ x ∈ child.ids, ∃ w, R x w := fun x hx => h x
      (List.mem_append_left _ (List.mem_flatMap.2 ⟨child, List.mem_map.2 ⟨_, hentry, rfl⟩, hx⟩))
    cases child with
    | one x =>
      obtain ⟨w, hw⟩ := hids x (List.mem_singleton.2 rfl)
      exact ⟨w, .one hw⟩
    | many xs =>
      obtain ⟨ws, hws⟩ := exists_forall₂ hids
      exact ⟨_, .many hws⟩
    | choices cs =>
      have hcs : ∀ choice ∈ cs, ∃ w, choice.ShownAs R w := by
        rintro ⟨x, label⟩ hmem
        obtain ⟨w, hw⟩ := hids x (List.mem_map.2 ⟨_, hmem, rfl⟩)
        cases label with
        | none => exact ⟨w, .plain hw⟩
        | some label => exact ⟨_, .labelled hw⟩
      obtain ⟨ws, hws⟩ := exists_forall₂ hcs
      exact ⟨_, .choices hws⟩
    | keyed schemas =>
      have hfields : ∀ field ∈ schemas.entries, ∃ other : String × Json,
          other.1 = field.1 ∧ R field.2 other.2 := by
        intro field hmem
        obtain ⟨w, hw⟩ := hids field.2 (List.mem_map.2 ⟨field, hmem, rfl⟩)
        exact ⟨(field.1, w), rfl, hw⟩
      obtain ⟨fields, hrelated⟩ := exists_forall₂ hfields
      exact ⟨_, .keyed hrelated⟩
  have hentries : ∀ entry ∈ node.children.entries, ∃ other : String × Json,
      other.1 = entry.1 ∧ entry.2.ShownAs R other.2 := by
    intro entry hentry
    obtain ⟨w, hw⟩ := hchild entry hentry
    exact ⟨(entry.1, w), rfl, hw⟩
  obtain ⟨children, hchildren⟩ := exists_forall₂ hentries
  cases hserialization : node.serialization with
  | none => exact ⟨children, none, hchildren, hserialization ▸ .none⟩
  | some x =>
    obtain ⟨w, hw⟩ := h x (List.mem_append_right _ (by simp [hserialization]))
    exact ⟨children, some w, hchildren, hserialization ▸ .some hw⟩

theorem exists_renderWithin {depth : Nat} {node : Node} (hnode : s.get? id = some node)
    (h : ∀ child ∈ node.storedIds, ∃ w, s.renderWithin depth child = .ok w) :
    ∃ w, s.renderWithin (depth + 1) id = .ok w := by
  obtain ⟨children, serialization, hshown⟩ :=
    exists_shownAs (R := fun child w => s.renderWithin depth child = .ok w) h
  exact ⟨_, Store.renderWithin_eq_ok.2 ⟨node, children, serialization, hnode, hshown, rfl⟩⟩

namespace Grounded

theorem renderWithin (h : s.Grounded P id) {depth : Nat} (hreach : s.Reach depth id) :
    ∃ w, s.renderWithin depth id = .ok w := by
  induction h generalizing depth with
  | @node id node kind hnode hkind hfits _ _ ih =>
    cases depth with
    | zero => exact absurd hreach not_reach_zero
    | succ depth =>
      refine exists_renderWithin hnode fun child hchild => ih child hchild (hreach.child
        ⟨node.orderedChildren kind, ?_, ?_⟩)
      · exact childIds_eq_ok.2 ⟨node, kind, hnode, hkind, hfits, rfl⟩
      · exact (Node.mem_orderedChildren hfits).2 hchild

theorem render (h : s.Grounded P id) : ∃ w, s.render id = .ok w := h.renderWithin h.reach_depthLimit

theorem mapM_eq_self {σ : Type} {visit : NodeId → Pass σ NodeId} {st : Store × σ} :
    ∀ {ids : List NodeId}, (∀ x ∈ ids, visit x st = .ok x st) → ids.mapM visit st = .ok ids st
  | [], _ => by
    rw [List.mapM_nil]
    exact Pass.pure_eq_ok.2 ⟨rfl, rfl⟩
  | x :: ids, h => by
    rw [List.mapM_cons]
    refine Pass.bind_eq_ok.2 ⟨x, st, h x List.mem_cons_self, Pass.bind_eq_ok.2 ⟨ids, st, ?_, ?_⟩⟩
    · exact mapM_eq_self fun y hy => h y (List.mem_cons_of_mem _ hy)
    · exact Pass.pure_eq_ok.2 ⟨rfl, rfl⟩

theorem childIds_of_extends {ids : List NodeId} (h : s.childIds id = .ok ids) (hext : s.Extends s') :
    s'.childIds id = .ok ids := by
  obtain ⟨node, kind, hnode, hrest⟩ := childIds_eq_ok.1 h
  exact childIds_eq_ok.2 ⟨node, kind, hext.get?_of_some hnode, hrest⟩

theorem mapChildren_eq_self {σ : Type} {visit : NodeId → Pass σ NodeId} {st : Store × σ}
    {ids : List NodeId} (hids : st.1.childIds id = .ok ids)
    (h : ∀ x ∈ ids, visit x st = .ok x st) : mapChildren visit id st = .ok id st := by
  obtain ⟨node, kind, hnode, hkind, hfits, rfl⟩ := childIds_eq_ok.1 hids
  refine Pass.bind_eq_ok.2 ⟨(node, kind), st, Pass.look_eq_ok.2 ⟨?_, rfl⟩,
    Pass.bind_eq_ok.2 ⟨_, st, mapM_eq_self h, ?_⟩⟩
  · exact wellShaped_eq_ok.2 ⟨hnode, hkind, hfits⟩
  · rw [if_pos rfl]
    exact Pass.pure_eq_ok.2 ⟨rfl, rfl⟩

theorem walkWithin_identity {σ : Type} {own : σ} {depth : Nat} : ∀ {id : NodeId},
    s.Grounded P id → s.Reach depth id →
      Visitor.identity.walkWithin depth id (s, own) = .ok id (s, own) := by
  induction depth with
  | zero => exact fun _ hreach => absurd hreach not_reach_zero
  | succ depth ih =>
    intro id h hreach
    obtain ⟨ids, hids, hkids⟩ := h.childIds
    exact mapChildren_eq_self hids fun child hchild =>
      ih (hkids child hchild) (hreach.child ⟨_, hids, hchild⟩)

/-- The visitor that changes nothing goes through a finite tree and leaves everything as it is. -/
theorem walk_identity {σ : Type} {own : σ} (h : s.Grounded P id) :
    Visitor.identity.walk id (s, own) = .ok id (s, own) :=
  h.walkWithin_identity h.reach_depthLimit

end Grounded

end Store

end SchemaGraph
