import SchemaGraph.Traversal.Discriminators
import SchemaGraph.Proofs.Gather.Meets
import SchemaGraph.Proofs.Wire.Twins

/-!
Reading in a larger store. What was read off a schema before nodes were appended and definitions
added is read off it afterwards as well: a reading that goes through has only met nodes and names that
are still there. The larger store may hold anything else, and so may the added definitions.

* `Kept` — what one reading returns another returns as well;
* `Scope.Extends` — a scope with more nodes and more definitions;
* `Scope.Walks.extends` — a walk is one in every larger scope;
* `Scope.kept_of_extends` — **readings are kept in a larger scope**.
-/

namespace SchemaGraph

/-- What `x` returns, `y` returns as well. -/
def Kept {α : Type} (x y : Except Error α) : Prop := ∀ a, x = .ok a → y = .ok a

/-! ### Trees -/

namespace Store

variable {s s' : Store} {P : Node → Prop} {root id : NodeId} {ids : List NodeId}

theorem Extends.childIds (hext : s.Extends s') (id : NodeId) :
    Kept (s.childIds id) (s'.childIds id) := fun _ h => Grounded.childIds_of_extends h hext

/-- A finite tree has the same nodes in a larger store, at all depths from where its paths end. -/
theorem Extends.treeWithin_eq (hext : s.Extends s') (h : s.Grounded P id) :
    ∀ {depth other : Nat}, s.Reach depth id → s'.Reach other id →
      s'.treeWithin other id = s.treeWithin depth id := by
  induction h with
  | @node id node kind hnode hkind hfits _ _ ih =>
    intro depth other hreach hreach'
    have hids : s.childIds id = .ok (node.orderedChildren kind) :=
      childIds_eq_ok.2 ⟨node, kind, hnode, hkind, hfits, rfl⟩
    have hids' := hext.childIds id _ hids
    cases depth with
    | zero => exact absurd hreach not_reach_zero
    | succ depth =>
      cases other with
      | zero => exact absurd hreach' not_reach_zero
      | succ other =>
        rw [treeWithin_succ hids, treeWithin_succ hids']
        congr 1
        refine List.flatMap_congr fun child hchild => ?_
        apply ih child ((Node.mem_orderedChildren hfits).1 hchild)
        · exact hreach.child ⟨_, hids, hchild⟩
        · exact hreach'.child ⟨_, hids', hchild⟩

theorem Extends.preorder (hext : s.Extends s') (root : NodeId) :
    Kept (s.preorder root) (s'.preorder root) := by
  intro ids h
  have hfinite := grounded_iff.2 ⟨ids, h⟩
  have hfinite' := hfinite.of_extends hext
  rw [hfinite.preorder_eq] at h
  rw [hfinite'.preorder_eq,
    hext.treeWithin_eq hfinite hfinite.reach_depthLimit hfinite'.reach_depthLimit]
  exact h

/-- The nodes that are listed are there, so the larger store has the same ones at these ids. -/
theorem Extends.get?_of_mem_preorder (hext : s.Extends s') (h : s.preorder root = .ok ids)
    (hid : id ∈ ids) : s'.get? id = s.get? id := by
  have hfinite := (grounded_iff.2 ⟨ids, h⟩).of_below ((mem_preorder h).1 hid)
  obtain ⟨node, hnode, -⟩ := hfinite.exists_node
  rw [hnode]
  exact hext.get?_of_some hnode

theorem Extends.declarations (hext : s.Extends s') (root : NodeId) :
    Kept (s.declarations root) (s'.declarations root) := by
  intro declared h
  obtain ⟨ids, hids, h⟩ := bind_eq_ok.1 h
  cases pure_eq_ok.1 h
  refine bind_eq_ok.2 ⟨ids, hext.preorder root ids hids, pure_eq_ok.2 ?_⟩
  apply List.filterMap_congr
  intro id hid
  rw [hext.get?_of_mem_preorder hids hid]

theorem Extends.collectDefinitions (hext : s.Extends s') (root : NodeId) :
    Kept (s.collectDefinitions root) (s'.collectDefinitions root) := by
  intro definitions h
  obtain ⟨declared, hdeclared, h⟩ := bind_eq_ok.1 h
  exact bind_eq_ok.2 ⟨declared, hext.declarations root declared hdeclared, h⟩

theorem Extends.collectNames (hext : s.Extends s') (root : NodeId) :
    Kept (s.collectNames root) (s'.collectNames root) := by
  intro names h
  obtain ⟨declared, hdeclared, h⟩ := bind_eq_ok.1 h
  exact bind_eq_ok.2 ⟨declared, hext.declarations root declared hdeclared, h⟩

theorem Extends.collectMarked (hext : s.Extends s') (root : NodeId) (key : String) :
    Kept (s.collectMarked root key) (s'.collectMarked root key) := by
  intro marked h
  obtain ⟨ids, hids, h⟩ := bind_eq_ok.1 h
  cases pure_eq_ok.1 h
  refine bind_eq_ok.2 ⟨ids, hext.preorder root ids hids, pure_eq_ok.2 ?_⟩
  apply List.filter_congr
  intro id hid
  rw [hext.get?_of_mem_preorder hids hid]

theorem Extends.depthLimit_le (hext : s.Extends s') : s.depthLimit ≤ s'.depthLimit := by
  have hsize := Nat.succ_le_succ hext.size_le
  exact Nat.mul_le_mul hsize hsize

theorem Extends.render (hext : s.Extends s') (root : NodeId) :
    Kept (s.render root) (s'.render root) :=
  fun _ h => renderWithin_le hext.depthLimit_le (hext.renderWithin_eq_ok h)

end Store

/-! ### Reference graphs -/

namespace Scope

variable {scope other : Scope} {root id : NodeId} {node : Node} {ids : List NodeId}
  {p q entered : Progress}

/-- **A larger scope**: its store has appended nodes, its definitions are those of the other, in some
order, and possibly more, and its markers have the same key. -/
structure Extends (scope other : Scope) : Prop where
  store : scope.store.Extends other.store
  definitions : scope.definitions.entries ⊆ other.definitions.entries
  discriminatorKey : other.discriminatorKey = scope.discriminatorKey

namespace Extends

theorem definition_of_some (hext : scope.Extends other) {name : String} {body : NodeId}
    (h : scope.definitions.get? name = some body) : other.definitions.get? name = some body := by
  have hentry := hext.definitions (OrderedMap.mem_entries_iff.2 h)
  exact OrderedMap.mem_entries_iff.1 hentry

theorem opens_eq (hext : scope.Extends other) (id : NodeId) (node : Node) (name : String)
    (p : Progress) : other.opens id node name p = scope.opens id node name p := by
  unfold opens
  rw [hext.discriminatorKey]

end Extends

theorem Enters.extends (h : scope.Enters id node p entered) (hext : scope.Extends other) :
    other.Enters id node p entered := by
  cases h with
  | plain href =>
    rw [← hext.discriminatorKey]
    exact .plain href
  | known name href htarget hstate =>
    rw [← hext.discriminatorKey]
    exact .known name href htarget hstate
  | closing name href htarget hstate =>
    rw [← hext.discriminatorKey]
    exact .closing name href htarget hstate

/-- **A walk is one in every larger scope.** It only looks at nodes and names that are there. -/
theorem Walks.extends (h : scope.Walks ids p q) (hext : scope.Extends other) :
    other.Walks ids p q := by
  induction h with
  | nil p => exact .nil p
  | enter hnode hids henter _ _ ihbelow ihrest =>
    apply Walks.enter
    · exact hext.store.get?_of_some hnode
    · exact hext.store.childIds _ _ hids
    · exact henter.extends hext
    · exact ihbelow
    · exact ihrest
  | expand hnode hids href htarget hnew hbody _ _ _ ihinner ihbelow ihrest =>
    rw [← hext.opens_eq] at ihinner
    apply Walks.expand _ _ href htarget hnew _ ihinner ihbelow ihrest
    · exact hext.store.get?_of_some hnode
    · exact hext.store.childIds _ _ hids
    · exact hext.definition_of_some hbody

theorem Extends.gather (hext : scope.Extends other) (root : NodeId) :
    Kept (scope.gather root) (other.gather root) := by
  intro found h
  obtain ⟨p, hwalk, rfl⟩ := walks_of_gather h
  exact gather_of_walks (hwalk.extends hext)

/-- **Readings are kept in a larger scope.** What the children of a node, the walk in pre-order, the
JSON of a schema, its declared definitions and names, its marked nodes and its reference graph were
read to be, they are read to be after nodes were appended and definitions added. -/
theorem kept_of_extends (hext : scope.Extends other) (root : NodeId) (key : String) :
    Kept (scope.store.childIds root) (other.store.childIds root) ∧
      Kept (scope.store.preorder root) (other.store.preorder root) ∧
      Kept (scope.store.render root) (other.store.render root) ∧
      Kept (scope.store.collectDefinitions root) (other.store.collectDefinitions root) ∧
      Kept (scope.store.collectNames root) (other.store.collectNames root) ∧
      Kept (scope.store.collectMarked root key) (other.store.collectMarked root key) ∧
      Kept (scope.gather root) (other.gather root) := by
  have hstore := hext.store
  exact ⟨hstore.childIds root, hstore.preorder root, hstore.render root,
    hstore.collectDefinitions root, hstore.collectNames root, hstore.collectMarked root key,
    hext.gather root⟩

/-- `A` and `B` refer to each other; between their occurrences stands a marked node. -/
def earlierStore : Store := ⟨#[
  (Node.ofKind .tuple).withChild "items_schema" (.many [⟨1⟩, ⟨2⟩, ⟨4⟩]),
  Node.reference "B",
  ((Node.ofKind .int).withName "N").withMetadata "union_discriminator" (.text "kind"),
  (Node.ofKind .list).withChild "items_schema" (.one ⟨4⟩),
  Node.reference "A",
  (Node.ofKind .list).withChild "items_schema" (.one ⟨6⟩),
  Node.reference "B"]⟩

def earlierScope : Scope where
  store := earlierStore
  definitions := .ofList [("A", ⟨5⟩), ("B", ⟨3⟩)]

/-- A node of an unknown tag and one that holds itself are appended, and there are definitions of
more names, one without a node. -/
def laterScope : Scope where
  store := (earlierStore.insert { tag := "bogus" }).insert
    ((Node.ofKind .list).withChild "items_schema" (.one ⟨8⟩))
  definitions := .ofList [("C", ⟨99⟩), ("B", ⟨3⟩), ("D", ⟨8⟩), ("A", ⟨5⟩)]

/-- In the larger scope, where the walks below the appended nodes fail, the reference graph of the old
root is what it was, and so is the order of its nodes. -/
theorem laterScope_kept :
    earlierScope.Extends laterScope ∧
      laterScope.store.preorder ⟨0⟩ = .ok [⟨0⟩, ⟨1⟩, ⟨2⟩, ⟨4⟩] ∧
      laterScope.gather ⟨0⟩ = .ok
        { occurrences := .ofList [("B", [⟨1⟩, ⟨6⟩]), ("A", [⟨4⟩])]
          recursive := .ofList ["A", "B"]
          deferred := [⟨⟨2⟩, .text "kind"⟩] } := by
  have hext : earlierScope.Extends laterScope := by
    refine ⟨?store, by decide +kernel, rfl⟩
    exact (Store.extends_insert _ _).trans (Store.extends_insert _ _)
  have hgather : earlierScope.gather ⟨0⟩ = .ok
      { occurrences := .ofList [("B", [⟨1⟩, ⟨6⟩]), ("A", [⟨4⟩])]
        recursive := .ofList ["A", "B"]
        deferred := [⟨⟨2⟩, .text "kind"⟩] } :=
    gather_of_runWithin 20 (by decide +kernel)
  have hpreorder : earlierScope.store.preorder ⟨0⟩ = .ok [⟨0⟩, ⟨1⟩, ⟨2⟩, ⟨4⟩] := by
    decide +kernel
  obtain ⟨-, hlisted, -, -, -, -, hgathered⟩ :=
    kept_of_extends hext ⟨0⟩ defaultDiscriminatorKey
  exact ⟨hext, hlisted _ hpreorder, hgathered _ hgather⟩

end Scope

end SchemaGraph
