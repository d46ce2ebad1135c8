import SchemaGraph.Proofs.Gather.Failing
import SchemaGraph.Proofs.Gather.Order

/-!
When `gather` goes through. It asks the same of each covered node: the node is there, its tag is in
the catalog, its children fit, and if it is a reference it names a definition. What lies behind a body
that is not walked again is no exception, and what is not covered may be as it likes.

* `Scope.Sound` — what `gather` asks of a node;
* `Scope.Fault` — what is wrong with a node that is not sound, as it is told by an error;
* `Scope.gather_iff_sound` — **`gather` goes through exactly if all covered nodes are sound**.
-/

namespace SchemaGraph

/-- The node that an error is about. -/
def Error.node? : Error → Option NodeId
  | .unknownKind _ id | .missingDefinition _ id | .unknownNode id | .tooDeep id => some id
  | .malformed _ (.node id) | .malformed _ (.child id _) => some id
  | .malformed _ (.document _) | .settings _ | .unreadable | .notJson => none

theorem Node.exists_of_misfit? {node : Node} {kind : Kind} {key : String} {defect : Defect}
    (h : node.misfit? kind = some (key, defect)) :
    ∃ child, node.children.get? key = some child ∧ childDefect? kind key child = some defect := by
  obtain ⟨⟨other, child⟩, hentry, hfound⟩ := List.exists_of_findSome?_eq_some h
  obtain ⟨_, hdefect, e⟩ := Option.map_eq_some_iff.1 hfound
  cases e
  exact ⟨child, OrderedMap.mem_entries_iff.1 hentry, hdefect⟩

namespace Scope

variable {scope : Scope} {root id : NodeId} {e : Error}

/-- **What `gather` asks of a node**: it is there, its tag is in the catalog and its children fit; and
if it is a reference it says to what, and that is defined. -/
structure Sound (scope : Scope) (id : NodeId) : Prop where
  enterable : ∃ node kind, scope.store.get? id = some node ∧ node.kind? = some kind ∧
    node.checkSlots kind id = .ok ()
  defined : ∀ node, scope.store.get? id = some node → node.isReference = true →
    ∃ name body, node.target = some name ∧ scope.definitions.get? name = some body

/-- **What is wrong with the node at `id`**, and the error that tells it. -/
inductive Fault (scope : Scope) (id : NodeId) : Error → Prop where
  | absent (hnone : scope.store.get? id = none) : Fault scope id (.unknownNode id)
  | tag {node : Node} (hnode : scope.store.get? id = some node) (hkind : node.kind? = none) :
      Fault scope id (.unknownKind node.tag id)
  | child {node : Node} {kind : Kind} {key : String} {child : Child} {defect : Defect}
      (hnode : scope.store.get? id = some node) (hkind : node.kind? = some kind)
      (hchild : node.children.get? key = some child)
      (hdefect : Node.childDefect? kind key child = some defect) :
      Fault scope id (.malformed defect (.child id key))
  | target {node : Node} (hnode : scope.store.get? id = some node)
      (href : node.isReference = true) (htarget : node.target = none) :
      Fault scope id (.malformed .targetMissing (.node id))
  | definition {node : Node} {name : String} (hnode : scope.store.get? id = some node)
      (href : node.isReference = true) (htarget : node.target = some name)
      (hbody : scope.definitions.get? name = none) : Fault scope id (.missingDefinition name id)

theorem Fault.node?_eq (h : scope.Fault id e) : e.node? = some id := by
  cases h <;> rfl

theorem Fault.not_sound (h : scope.Fault id e) : ¬ scope.Sound id := by
  rintro ⟨⟨node, kind, hnode, hkind, hslots⟩, hdefined⟩
  cases h with
  | absent hnone =>
    rw [hnone] at hnode
    cases hnode
  | tag hnode' hnone =>
    rw [hnode] at hnode'
    cases hnode'
    rw [hnone] at hkind
    cases hkind
  | child hnode' hkind' hchild hdefect =>
    rw [hnode] at hnode'
    cases hnode'
    rw [hkind] at hkind'
    cases hkind'
    obtain ⟨slot, hslot, hshape⟩ :=
      Node.fits_iff.1 (Node.checkSlots_eq_ok.1 hslots) _ _ hchild
    simp [Node.childDefect?, hslot, hshape] at hdefect
  | target hnode' href hnone =>
    obtain ⟨name, body, hname, -⟩ := hdefined _ hnode' href
    rw [hnone] at hname
    cases hname
  | definition hnode' href htarget hnone =>
    obtain ⟨name, body, hname, hbody⟩ := hdefined _ hnode' href
    rw [htarget] at hname
    cases hname
    rw [hnone] at hbody
    cases hbody

theorem fault_of_childIds (h : scope.store.childIds id = .error e) : scope.Fault id e := by
  unfold Store.childIds Store.wellShaped at h
  cases hnode : scope.store.get? id with
  | none =>
    simp only [Store.node, hnode, bind, Except.bind] at h
    cases h
    exact .absent hnode
  | some node =>
    cases hkind : node.kind? with
    | none =>
      simp only [Store.node, hnode, Store.kindOf, hkind, bind, Except.bind] at h
      cases h
      exact .tag hnode hkind
    | some kind =>
      cases hmisfit : node.misfit? kind with
      | none =>
        simp [Store.node, hnode, Store.kindOf, hkind, Node.checkSlots, hmisfit, bind, Except.bind,
          pure, Except.pure] at h
      | some found =>
        obtain ⟨key, defect⟩ := found
        simp only [Store.node, hnode, Store.kindOf, hkind, Node.checkSlots, hmisfit, bind,
          Except.bind] at h
        cases h
        obtain ⟨child, hchild, hdefect⟩ := Node.exists_of_misfit? hmisfit
        exact .child hnode hkind hchild hdefect

theorem Refuses.fault {expansions : OrderedMap Expansion} (h : scope.Refuses expansions id e) :
    scope.Fault id e := by
  cases h with
  | children hids => exact fault_of_childIds hids
  | target hnode _ href htarget => exact .target hnode href htarget
  | definition hnode _ href htarget _ hbody => exact .definition hnode href htarget hbody

/-- A walk that goes through has found each covered node sound, however it came to it. -/
theorem sound_of_gather {found : Gathered} (h : scope.gather root = .ok found)
    (hid : scope.Covered root id) : scope.Sound id := by
  obtain ⟨p, hwalk, -⟩ := walks_of_gather h
  have hnoted := noted_of_covered hwalk hid
  constructor
  · obtain ⟨ids, hids⟩ := hnoted.entered
    obtain ⟨node, kind, hnode, hkind, hfits, -⟩ := Store.childIds_eq_ok.1 hids
    exact ⟨node, kind, hnode, hkind, Node.checkSlots_eq_ok.2 hfits⟩
  · intro node hnode href
    obtain ⟨name, htarget, -, -⟩ := hnoted.occurrence node hnode href
    obtain ⟨body, hbody⟩ := exists_body h ⟨id, hid, node, hnode, href, htarget⟩
    exact ⟨name, body, htarget, hbody⟩

/-- **`gather` goes through exactly if all covered nodes are sound.** If it fails, the node that the
error names is covered and not sound, and the error tells what is wrong with it. -/
theorem gather_iff_sound (hacyclic : scope.store.Acyclic) (root : NodeId) :
    ((∃ found, scope.gather root = .ok found) ↔ ∀ id, scope.Covered root id → scope.Sound id) ∧
      ∀ e, scope.gather root = .error e →
        ∃ id, e.node? = some id ∧ scope.Covered root id ∧ ¬ scope.Sound id ∧ scope.Fault id e := by
  have hfails : ∀ e, scope.gather root = .error e → ∃ id, e.node? = some id ∧
      scope.Covered root id ∧ ¬ scope.Sound id ∧ scope.Fault id e := by
    intro e h
    obtain ⟨expansions, id, hid, hrefuses⟩ := refuses_of_gather hacyclic h
    have hfault := hrefuses.fault
    exact ⟨id, hfault.node?_eq, hid, hfault.not_sound, hfault⟩
  refine ⟨⟨?_, fun hsound => ?_⟩, hfails⟩
  · rintro ⟨found, h⟩ id hid
    exact sound_of_gather h hid
  · cases h : scope.gather root with
    | ok found => exact ⟨found, rfl⟩
    | error e =>
      obtain ⟨id, -, hid, hnot, -⟩ := hfails e h
      exact absurd (hsound id hid) hnot

/-- `A` and `B` refer to each other. The second occurrence of `A`, whose body is not walked again, has
a serialization that refers to `C`. A node that nothing leads to has an unknown tag. -/
def strandedStore : Store := ⟨#[
  Node.reference "A",
  (Node.ofKind .list).withChild "items_schema" (.one ⟨2⟩),
  Node.reference "B",
  (Node.ofKind .tuple).withChild "items_schema" (.many [⟨4⟩]),
  (Node.reference "A").withSerialization ⟨5⟩,
  Node.reference "C",
  { tag := "bogus" }]⟩

theorem strandedStore_acyclic : strandedStore.Acyclic :=
  Store.acyclic_of_forall (fun id => if id.index = 1 ∨ id.index = 3 then 2
    else if id.index = 4 then 1 else 0) (by decide +kernel)

def strandedScope (more : List (String × NodeId)) : Scope where
  store := strandedStore
  definitions := .ofList ([("A", ⟨1⟩), ("B", ⟨3⟩)] ++ more)

/-- Without a definition of `C` the walk fails at the reference to it; with one it goes through, and
all that it covers is sound. -/
theorem strandedScope_sound :
    (∃ id, Error.node? (.missingDefinition "C" ⟨5⟩) = some id ∧
      (strandedScope []).Covered ⟨0⟩ id ∧
      ¬ (strandedScope []).Sound id ∧
      (strandedScope []).Fault id (.missingDefinition "C" ⟨5⟩)) ∧
    ∀ id, (strandedScope [("C", ⟨0⟩)]).Covered ⟨0⟩ id →
      (strandedScope [("C", ⟨0⟩)]).Sound id := by
  have hfails : (strandedScope []).gather ⟨0⟩ =
      .error (.missingDefinition "C" ⟨5⟩) :=
    gather_of_runWithin 20 (by decide +kernel)
  have hgoes : (strandedScope [("C", ⟨0⟩)]).gather ⟨0⟩ = .ok
      { occurrences := .ofList [("A", [⟨0⟩, ⟨4⟩]), ("B", [⟨2⟩]), ("C", [⟨5⟩])]
        recursive := .ofList ["A", "B", "C"] } :=
    gather_of_runWithin 20 (by decide +kernel)
  refine ⟨(gather_iff_sound strandedStore_acyclic ⟨0⟩).2 _ hfails, ?_⟩
  exact (gather_iff_sound strandedStore_acyclic ⟨0⟩).1.1 ⟨_, hgoes⟩

end Scope

end SchemaGraph
