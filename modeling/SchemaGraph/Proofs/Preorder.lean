import SchemaGraph.Traversal.Children
import SchemaGraph.Proofs.Acyclic

/-!
Pre-order three times: as a recursion over the children, as the walk with a list of nodes still to
do, and as the order in which a visitor that always goes on to the children comes to the nodes.

* `Store.preorderLoop_eq_trees` — on any store the work list gives the trees of its nodes one after
  the other, or the first error among them;
* `Visitor.noting_walkWithin` — a visitor that notes each node and goes on notes the same list, comes
  back with the node it started from, and leaves the store as it was, also when it fails;
* `Store.Acyclic.preorder_eq_walk` — without a cycle of children the three agree on every root.
-/

namespace SchemaGraph

section MapM

variable {ε α β : Type}

theorem mapM_congr {f g : α → Except ε β} : ∀ {xs : List α}, (∀ x ∈ xs, f x = g x) →
    xs.mapM f = xs.mapM g
  | [], _ => rfl
  | x :: xs, h => by
    rw [List.mapM_cons, List.mapM_cons, h x List.mem_cons_self,
      mapM_congr fun y hy => h y (List.mem_cons_of_mem _ hy)]

theorem exists_error_of_mapM {f : α → Except ε β} {e : ε} : ∀ {xs : List α},
    xs.mapM f = .error e → ∃ x ∈ xs, f x = .error e
  | [], h => by cases h
  | x :: xs, h => by
    rw [List.mapM_cons] at h
    rcases bind_eq_error.1 h with hx | ⟨y, -, h⟩
    · exact ⟨x, List.mem_cons_self, hx⟩
    · rcases bind_eq_error.1 h with hxs | ⟨ys, -, h⟩
      · obtain ⟨z, hz, hfail⟩ := exists_error_of_mapM hxs
        exact ⟨z, List.mem_cons_of_mem _ hz, hfail⟩
      · cases h

end MapM

namespace Store

variable {s : Store} {id root : NodeId}

/-! ### The recursion and the work list -/

/-- The node at `id` and then the trees of its children in walking order, or the first error that is
met on the way; at most `depth` nodes deep. -/
def treeUpTo (s : Store) : (depth : Nat) → NodeId → Except Error (List NodeId)
  | 0, id => .error (.tooDeep id)
  | depth + 1, id => do
    let ids ← s.childIds id
    let trees ← ids.mapM (s.treeUpTo depth)
    pure (id :: trees.flatten)

/-- **The work list gives the trees of its nodes one after the other.** -/
theorem preorderLoop_eq_trees {work : List (Nat × NodeId)} {done : Array NodeId} :
    s.preorderLoop work done =
      (work.mapM fun todo => s.treeUpTo todo.1 todo.2).map fun trees =>
        done ++ trees.flatten.toArray := by
  induction work, done using preorderLoop.induct s with
  | case1 done =>
    rw [preorderLoop, List.mapM_nil]
    simp [pure, Except.pure, Except.map]
  | case2 done id rest =>
    rw [preorderLoop, List.mapM_cons]
    rfl
  | case3 done depth id rest e hids =>
    rw [preorderLoop, List.mapM_cons]
    split
    · simp_all [treeUpTo, bind, Except.bind, Except.map]
    · simp_all
  | case4 done depth id rest ids hids ih =>
    rw [preorderLoop, List.mapM_cons]
    split
    · simp_all
    rename_i ids' hids'
    rw [hids] at hids'
    cases hids'
    rw [ih, List.mapM_append, List.mapM_map]
    simp only [treeUpTo, hids, Function.comp_def, bind, Except.bind, pure, Except.pure]
    -- the trees of the children fail, those of the rest fail, or neither does
    cases ids.mapM (s.treeUpTo depth) with
    | error e => rfl
    | ok trees =>
      cases rest.mapM fun todo => s.treeUpTo todo.1 todo.2 with
      | error e => rfl
      | ok others => simp [Except.map]

theorem preorder_eq_treeUpTo : s.preorder root = s.treeUpTo s.depthLimit root := by
  rw [preorder, preorderLoop_eq_trees, List.mapM_cons, List.mapM_nil]
  cases s.treeUpTo s.depthLimit root with
  | error e => rfl
  | ok ids => simp [bind, Except.bind, pure, Except.pure, Except.map]

/-! ### Depths -/

/-- Depth does not matter where paths end before it. -/
theorem treeUpTo_eq {depth : Nat} : ∀ {other : Nat} {id : NodeId}, s.Reach depth id →
    s.Reach other id → s.treeUpTo depth id = s.treeUpTo other id := by
  induction depth with
  | zero => exact fun h => absurd h not_reach_zero
  | succ depth ih =>
    intro other id h h'
    cases other with
    | zero => exact absurd h' not_reach_zero
    | succ other =>
      simp only [treeUpTo]
      cases hids : s.childIds id with
      | error e => rfl
      | ok ids =>
        have hkids : ids.mapM (s.treeUpTo depth) = ids.mapM (s.treeUpTo other) :=
          mapM_congr fun child hchild =>
            ih (h.child ⟨ids, hids, hchild⟩) (h'.child ⟨ids, hids, hchild⟩)
        simp only [bind, Except.bind, hkids]

/-- A tree with short paths fails only at a node whose children cannot be read. -/
theorem exists_childIds_error {depth : Nat} {e : Error} : ∀ {id : NodeId}, s.Reach depth id →
    s.treeUpTo depth id = .error e → ∃ x, s.Below id x ∧ s.childIds x = .error e := by
  induction depth with
  | zero => exact fun h => absurd h not_reach_zero
  | succ depth ih =>
    intro id hreach h
    rw [treeUpTo] at h
    rcases bind_eq_error.1 h with hid | ⟨ids, hids, h⟩
    · exact ⟨id, .refl, hid⟩
    rcases bind_eq_error.1 h with hkids | ⟨trees, -, h⟩
    · obtain ⟨child, hchild, hfail⟩ := exists_error_of_mapM hkids
      obtain ⟨x, hx, hfail⟩ := ih (hreach.child ⟨ids, hids, hchild⟩) hfail
      exact ⟨x, .head ⟨ids, hids, hchild⟩ hx, hfail⟩
    · cases h

/-- Without a cycle of children the walk lists a node and then the trees of its children. -/
theorem Acyclic.preorder_unfold (h : s.Acyclic) (root : NodeId) :
    s.preorder root = (do
      let ids ← s.childIds root
      let trees ← ids.mapM s.preorder
      pure (root :: trees.flatten)) := by
  have hreach := h.reach_depthLimit
  rw [preorder_eq_treeUpTo]
  obtain ⟨depth, hdepth⟩ : ∃ depth, s.depthLimit = depth + 1 :=
    Nat.exists_eq_succ_of_ne_zero fun hzero => not_reach_zero (hzero ▸ hreach root)
  rw [hdepth, treeUpTo]
  cases hids : s.childIds root with
  | error e => rfl
  | ok ids =>
    have hkids : ids.mapM (s.treeUpTo depth) = ids.mapM s.preorder :=
      mapM_congr fun child hchild => by
        rw [preorder_eq_treeUpTo]
        exact treeUpTo_eq ((hdepth ▸ hreach root).child ⟨ids, hids, hchild⟩) (hreach child)
    simp only [bind, Except.bind, hkids]

end Store

/-! ### Visitors that always go on -/

namespace Visitor

variable {σ : Type} {note : NodeId → σ → σ} {s : Store}

/-- The visitor that notes each node it comes to and goes on to the children. -/
def noting (note : NodeId → σ → σ) : Visitor σ := fun visit id => do
  Pass.modifyOwn (note id)
  mapChildren visit id

/-- A pass on `s` that was to come to the listed nodes has noted them and returns `a`, or fails as
the listing does when it has noted some; the store is left as it was. -/
def Noted {α : Type} (note : NodeId → σ → σ) (s : Store) (own : σ)
    (listing : Except Error (List NodeId)) (a : α) :
    EStateM.Result Error (Store × σ) α → Prop
  | .ok b st => b = a ∧ st.1 = s ∧
      ∃ ids, listing = .ok ids ∧ st.2 = ids.foldl (fun own id => note id own) own
  | .error e st => listing = .error e ∧ st.1 = s ∧
      ∃ ids : List NodeId, st.2 = ids.foldl (fun own id => note id own) own

namespace Noted

variable {α β : Type} {own : σ} {a : α} {b : β} {x : Pass σ α} {f : α → Pass σ β}
  {listing others all : Except Error (List NodeId)}

theorem pure : Noted note s own (.ok []) a ((Pure.pure a : Pass σ α) (s, own)) :=
  ⟨rfl, rfl, [], rfl, rfl⟩

/-- What comes later is noted after what comes first. -/
theorem bind (h : Noted note s own listing a (x (s, own)))
    (hf : ∀ own, Noted note s own others b (f a (s, own)))
    (hall : all = do return (← listing) ++ (← others)) :
    Noted note s own all b ((x >>= f) (s, own)) := by
  subst hall
  have hrun : (x >>= f) (s, own) =
      match x (s, own) with
      | .ok a st => f a st
      | .error e st => .error e st := by
    simp only [Bind.bind, EStateM.bind]
    cases x (s, own) <;> rfl
  rw [hrun]
  cases hx : x (s, own) with
  | error e st =>
    rw [hx] at h
    obtain ⟨rfl, hst⟩ := h
    exact ⟨rfl, hst⟩
  | ok a' st =>
    obtain ⟨s', own'⟩ := st
    rw [hx] at h
    obtain ⟨rfl, rfl, ids, rfl, rfl⟩ := h
    have hrest := hf (ids.foldl (fun own id => note id own) own)
    dsimp only
    dsimp only at hrest
    cases hy : f a' (s', ids.foldl (fun own id => note id own) own) with
    | error e st =>
      rw [hy] at hrest
      obtain ⟨rfl, hst, later, hown⟩ := hrest
      exact ⟨rfl, hst, ids ++ later, by rw [List.foldl_append]; exact hown⟩
    | ok b' st =>
      rw [hy] at hrest
      obtain ⟨rfl, hst, later, rfl, hown⟩ := hrest
      exact ⟨rfl, hst, ids ++ later, rfl, by rw [List.foldl_append]; exact hown⟩

theorem eq_ok {ids : List NodeId} {result : EStateM.Result Error (Store × σ) α}
    (h : Noted note s own (.ok ids) a result) :
    result = .ok a (s, ids.foldl (fun own id => note id own) own) := by
  cases result with
  | error e st => cases h.1
  | ok b st =>
    obtain ⟨s', own'⟩ := st
    obtain ⟨rfl, rfl, ids', hids, rfl⟩ := h
    cases hids
    rfl

theorem eq_error {e : Error} {result : EStateM.Result Error (Store × σ) α}
    (h : Noted note s own (.error e) a result) :
    ∃ ids : List NodeId, result = .error e (s, ids.foldl (fun own id => note id own) own) := by
  cases result with
  | ok b st =>
    obtain ⟨-, -, ids, hids, -⟩ := h
    cases hids
  | error e' st =>
    obtain ⟨s', own'⟩ := st
    obtain ⟨he, rfl, ids, rfl⟩ := h
    cases he
    exact ⟨ids, rfl⟩

end Noted

theorem noted_mapM {visit : NodeId → Pass σ NodeId} {tree : NodeId → Except Error (List NodeId)} :
    ∀ (ids : List NodeId) (own : σ),
      (∀ id ∈ ids, ∀ own, Noted note s own (tree id) id (visit id (s, own))) →
      Noted note s own ((ids.mapM tree).map List.flatten) ids (ids.mapM visit (s, own))
  | [], own, _ => .pure
  | id :: ids, own, h => by
    have hids := fun own => noted_mapM ids own fun y hy => h y (List.mem_cons_of_mem _ hy)
    rw [List.mapM_cons, List.mapM_cons]
    refine (h id List.mem_cons_self own).bind (fun own => (hids own).bind (fun own => .pure) rfl) ?_
    cases tree id with
    | error e => rfl
    | ok nodes =>
      cases ids.mapM tree with
      | error e => rfl
      | ok trees => simp [Bind.bind, Except.bind, Pure.pure, Except.pure, Except.map]

theorem noted_mapChildren {visit : NodeId → Pass σ NodeId}
    {tree : NodeId → Except Error (List NodeId)} {id : NodeId} {own : σ}
    (h : ∀ id own, Noted note s own (tree id) id (visit id (s, own))) :
    Noted note s own (do return (← (← s.childIds id).mapM tree).flatten) id
      (mapChildren visit id (s, own)) := by
  cases hshape : s.wellShaped id with
  | error e =>
    simp only [mapChildren, Store.childIds, hshape, Pass.look, bind, EStateM.bind, Except.bind]
    exact ⟨rfl, rfl, [], rfl⟩
  | ok shape =>
    obtain ⟨node, kind⟩ := shape
    have hlook : Noted note s own (.ok []) (node, kind)
        ((Pass.look (·.wellShaped id) : Pass σ (Node × Kind)) (s, own)) := by
      simp only [Pass.look, hshape]
      exact ⟨rfl, rfl, [], rfl, rfl⟩
    have hids := fun own => noted_mapM (node.orderedChildren kind) own fun id _ => h id
    refine hlook.bind (fun own => (hids own).bind
      (fun own => (?_ : Noted note s own (.ok []) id _)) rfl) ?_
    · rw [if_pos rfl]
      exact .pure
    · rw [Store.childIds, hshape]
      cases htrees : (node.orderedChildren kind).mapM tree with
      | error e => simp [Bind.bind, Except.bind, Pure.pure, Except.pure, Except.map, htrees]
      | ok trees => simp [Bind.bind, Except.bind, Pure.pure, Except.pure, Except.map, htrees]

/-- **A visitor that always goes on comes to the nodes in pre-order.** It comes back with the node it
started from, and changes nothing. -/
theorem noting_walkWithin (note : NodeId → σ → σ) (s : Store) (depth : Nat) (id : NodeId) (own : σ) :
    Noted note s own (s.treeUpTo depth id) id ((noting note).walkWithin depth id (s, own)) := by
  induction depth generalizing id own with
  | zero => exact ⟨rfl, rfl, [], rfl⟩
  | succ depth ih =>
    have hnote : Noted note s own (.ok [id]) () (Pass.modifyOwn (note id) (s, own)) :=
      ⟨rfl, rfl, [id], rfl, rfl⟩
    refine hnote.bind (fun own => noted_mapChildren ih) ?_
    rw [Store.treeUpTo]
    cases s.childIds id with
    | error e => rfl
    | ok ids =>
      cases htrees : ids.mapM (s.treeUpTo depth) with
      | error e => simp [Bind.bind, Except.bind, htrees]
      | ok trees => simp [Bind.bind, Except.bind, Pure.pure, Except.pure, htrees]

/-- The visitor that changes nothing is one that notes nothing. -/
theorem identity_walkWithin {depth : Nat} :
    (identity : Visitor σ).walkWithin depth = (noting fun _ own => own).walkWithin depth := by
  induction depth with
  | zero => rfl
  | succ depth ih =>
    funext id
    simp only [walkWithin, ih]
    rfl

end Visitor

namespace Store

variable {σ : Type} {s : Store}

/-- **Three walks agree.** Without a cycle of children the walk in pre-order lists the root and then
what it lists for its children in walking order, or fails with the first error that comes, which is
that of a node of the tree. The visitor that always goes on comes to the listed nodes in this order,
returns the root, and leaves the store as it was; it fails where the listing fails, in the same way,
and changes nothing then either. -/
theorem Acyclic.preorder_eq_walk (h : s.Acyclic) (root : NodeId) (note : NodeId → σ → σ) (own : σ) :
    s.preorder root = (do
      let ids ← s.childIds root
      let trees ← ids.mapM s.preorder
      pure (root :: trees.flatten)) ∧
    match s.preorder root with
    | .ok ids =>
      (Visitor.noting note).walk root (s, own) =
          .ok root (s, ids.foldl (fun own id => note id own) own) ∧
        Visitor.identity.walk root (s, own) = .ok root (s, own)
    | .error e =>
      (∃ id, s.Below root id ∧ s.childIds id = .error e) ∧
        (∃ own', (Visitor.noting note).walk root (s, own) = .error e (s, own')) ∧
        Visitor.identity.walk root (s, own) = .error e (s, own) := by
  refine ⟨h.preorder_unfold root, ?_⟩
  have hnoting := Visitor.noting_walkWithin note s s.depthLimit root own
  have hidentity := Visitor.noting_walkWithin (fun _ own => own) s s.depthLimit root own
  rw [← Visitor.identity_walkWithin] at hidentity
  rw [preorder_eq_treeUpTo]
  simp only [Visitor.walk]
  cases htree : s.treeUpTo s.depthLimit root with
  | error e =>
    rw [htree] at hnoting hidentity
    obtain ⟨noted, hnoting⟩ := hnoting.eq_error
    obtain ⟨_, hidentity⟩ := hidentity.eq_error
    refine ⟨exists_childIds_error (h.reach_depthLimit root) htree, ⟨_, hnoting⟩, ?_⟩
    rw [hidentity, List.foldl_fixed]
  | ok ids =>
    rw [htree] at hnoting hidentity
    refine ⟨hnoting.eq_ok, ?_⟩
    rw [hidentity.eq_ok, List.foldl_fixed]

/-- A tuple of two items: one holds an integer twice, as one shared node, the other a node that is not
there. -/
def tornStore : Store where
  nodes := #[
    .ofKind .int,
    (Node.ofKind .tuple).withChild "items_schema" (.many [⟨0⟩, ⟨0⟩]),
    (Node.ofKind .list).withChild "items_schema" (.one ⟨9⟩),
    (Node.ofKind .tuple).withChild "items_schema" (.many [⟨1⟩, ⟨2⟩])]

theorem tornStore_acyclic : tornStore.Acyclic := by
  let rank : NodeId → Nat := fun id => if id.index < 4 then id.index + 1 else 0
  exact acyclic_of_forall rank (by decide +kernel)

/-- From the first item the shared node is met twice; from the tuple all walks come to the missing
node. -/
theorem tornStore_walks :
    tornStore.Acyclic ∧ tornStore.preorder ⟨1⟩ = .ok [⟨1⟩, ⟨0⟩, ⟨0⟩] ∧
      (Visitor.noting List.cons).walk ⟨1⟩ (tornStore, []) =
        .ok ⟨1⟩ (tornStore, [⟨0⟩, ⟨0⟩, ⟨1⟩]) ∧
      tornStore.preorder ⟨3⟩ = .error (.unknownNode ⟨9⟩) ∧
      Visitor.identity.walk ⟨3⟩ (tornStore, ()) = .error (.unknownNode ⟨9⟩) (tornStore, ()) := by
  have hitem : tornStore.preorder ⟨1⟩ = .ok [⟨1⟩, ⟨0⟩, ⟨0⟩] := by
    rw [preorder_eq_treeUpTo]
    decide +kernel
  have htuple : tornStore.preorder ⟨3⟩ = .error (.unknownNode ⟨9⟩) := by
    rw [preorder_eq_treeUpTo]
    decide +kernel
  have hitems := (tornStore_acyclic.preorder_eq_walk ⟨1⟩ List.cons []).2
  have htuples := (tornStore_acyclic.preorder_eq_walk ⟨3⟩ (fun _ own => own) ()).2
  rw [hitem] at hitems
  rw [htuple] at htuples
  exact ⟨tornStore_acyclic, hitem, hitems.1, htuple, htuples.2.2⟩

end Store

end SchemaGraph
