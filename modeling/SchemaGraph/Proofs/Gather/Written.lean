import SchemaGraph.Proofs.Unshared
import SchemaGraph.Proofs.Gather.Failing
import SchemaGraph.Proofs.Gather.Order
import SchemaGraph.Proofs.Wire.Legible

/-!
References as they are written. In a document that brings no definitions along the bodies are nodes
of the schema's own tree. The walk enters them there and from their occurrences, in either order;
still it finds each reference of the tree once and nothing else, and fails only where a reference is
to a name that the tree does not declare.

* `Scope.Collected` — the definitions are the named nodes of the tree;
* `Document.gather_written` — **what `gather` finds in such a document, and when it fails**.
-/

namespace SchemaGraph

/-! ### Names in a tree -/

namespace Store

variable {s : Store} {id : NodeId} {name : String}

/-- A node of the list bears the name. -/
def DeclaredAmong (s : Store) (ids : List NodeId) (name : String) : Prop :=
  ∃ id ∈ ids, ∃ node, s.get? id = some node ∧ node.name = some name

def isReferenceAt (s : Store) (id : NodeId) : Bool := (s.get? id).any Node.isReference

def refersTo (s : Store) (name : String) (id : NodeId) : Bool :=
  (s.get? id).any fun node => node.isReference && decide (node.target = some name)

theorem isReferenceAt_iff : s.isReferenceAt id = true ↔
    ∃ node, s.get? id = some node ∧ node.isReference = true := by
  simp [isReferenceAt, Option.any_eq_true]

theorem refersTo_iff : s.refersTo name id = true ↔ s.Mentions id name := by
  simp [refersTo, Mentions, Option.any_eq_true]

end Store

/-! ### Definitions from the tree -/

namespace Scope

/-- The definitions of the scope are the named nodes of the tree at `root`, of which `ids` are the
nodes in pre-order. -/
structure Collected (scope : Scope) (root : NodeId) (ids : List NodeId) : Prop where
  preorder : scope.store.preorder root = .ok ids
  bodies : ∀ name body, scope.definitions.get? name = some body → body ∈ ids
  declared : ∀ name, (∃ body, scope.definitions.get? name = some body) ↔
    scope.store.DeclaredAmong ids name

theorem collected_of_collectDefinitions {scope : Scope} {root : NodeId}
    (h : scope.store.collectDefinitions root = .ok scope.definitions) :
    ∃ ids, scope.Collected root ids := by
  obtain ⟨ids, entries, hids, hdefinitions, hentry⟩ := Store.collected_of_collectDefinitions h
  refine ⟨ids, hids, fun name body hbody => ?_, fun name => ?_⟩
  · rw [hdefinitions] at hbody
    rcases OrderedMap.get?_insertMany _ hbody with hnone | hmem
    · simp at hnone
    · exact ((hentry name body).1 hmem).1
  · rw [hdefinitions, ← Option.isSome_iff_exists, ← OrderedMap.mem_keys_iff, OrderedMap.ofList,
      OrderedMap.mem_keys_insertMany]
    constructor
    · rintro (hnone | hname)
      · cases hnone
      · obtain ⟨⟨_, body⟩, hmem, rfl⟩ := List.mem_map.1 hname
        obtain ⟨hbody, hnode⟩ := (hentry _ body).1 hmem
        exact ⟨body, hbody, hnode⟩
    · rintro ⟨body, hbody, hnode⟩
      exact .inr (List.mem_map.2 ⟨(name, body), (hentry name body).2 ⟨hbody, hnode⟩, rfl⟩)

namespace Collected

variable {scope : Scope} {root x : NodeId} {ids : List NodeId} {found : Gathered} {name : String}

/-- The bodies lie in the tree, so the walk covers the tree and no more. -/
theorem covered_iff (h : scope.Collected root ids) : scope.Covered root x ↔ x ∈ ids := by
  rw [Store.mem_preorder h.preorder]
  constructor
  · intro hx
    induction hx with
    | root => exact .refl
    | child _ hchild ih => exact ih.tail hchild
    | body _ _ hbody _ => exact (Store.mem_preorder h.preorder).1 (h.bodies _ _ hbody)
  · exact Covered.of_below .root

/-- Where the walk goes through, the names that are referred to are declared. -/
theorem declared_of_gather (h : scope.Collected root ids) (hgather : scope.gather root = .ok found)
    (hx : x ∈ ids) (hname : scope.store.Mentions x name) : scope.store.DeclaredAmong ids name :=
  (h.declared name).1 (exists_body hgather ⟨x, h.covered_iff.2 hx, hname⟩)

/-- Where the references of the tree say to what they refer, the walk fails for want of a definition
alone. -/
theorem missing_of_gather (h : scope.Collected root ids) (hacyclic : scope.store.Acyclic)
    (htarget : ∀ id ∈ ids, ∀ node, scope.store.get? id = some node → node.isReference = true →
      node.target.isSome) {e : Error} (hgather : scope.gather root = .error e) :
    ∃ id ∈ ids, ∃ name, e = .missingDefinition name id ∧ scope.store.Mentions id name ∧
      ¬ scope.store.DeclaredAmong ids name := by
  obtain ⟨expansions, id, hcovered, hrefuses⟩ := refuses_of_gather hacyclic hgather
  have hid := h.covered_iff.1 hcovered
  cases hrefuses with
  | children hids =>
    have hgrounded := Store.grounded_iff.2 ⟨ids, h.preorder⟩
    obtain ⟨kids, hkids, -⟩ :=
      (hgrounded.of_below ((Store.mem_preorder h.preorder).1 hid)).childIds
    rw [hids] at hkids
    cases hkids
  | @target node _ hnode _ href hnone =>
    have hsome := htarget id hid node hnode href
    rw [hnone] at hsome
    cases hsome
  | @definition node _ name hnode _ href hname _ hbody =>
    refine ⟨id, hid, name, rfl, ⟨node, hnode, href, hname⟩, fun hdeclared => ?_⟩
    obtain ⟨body, hsome⟩ := (h.declared name).2 hdeclared
    rw [hbody] at hsome
    cases hsome

/-- The occurrences of a name are the references to it in the tree. -/
theorem perm_occurrencesOf (h : scope.Collected root ids) (hids : ids.Nodup)
    (hgather : scope.gather root = .ok found) (name : String) :
    (found.occurrencesOf name).Perm (ids.filter (scope.store.refersTo name)) := by
  refine (List.perm_ext_iff_of_nodup ((accurate_of_gather hgather).occurrences_nodup name)
    (hids.filter _)).2 fun x => ?_
  rw [mem_occurrencesOf_iff hgather, h.covered_iff, List.mem_filter, Store.refersTo_iff]

theorem perm_occurrences (h : scope.Collected root ids) (hids : ids.Nodup)
    (htarget : ∀ id ∈ ids, ∀ node, scope.store.get? id = some node → node.isReference = true →
      node.target.isSome) (hgather : scope.gather root = .ok found) :
    found.occurrences.values.flatten.Perm (ids.filter scope.store.isReferenceAt) := by
  refine (List.perm_ext_iff_of_nodup (accurate_of_gather hgather).nodup_flatten
    (hids.filter _)).2 fun x => ?_
  simp only [mem_flatten_occurrences, mem_occurrencesOf_iff hgather, h.covered_iff,
    List.mem_filter, Store.isReferenceAt_iff]
  constructor
  · rintro ⟨name, hx, node, hnode, href, -⟩
    exact ⟨hx, node, hnode, href⟩
  · rintro ⟨hx, node, hnode, href⟩
    obtain ⟨name, hname⟩ := Option.isSome_iff_exists.1 (htarget x hx node hnode href)
    exact ⟨name, hx, node, hnode, href, hname⟩

end Collected

end Scope

/-! ### Documents -/

namespace Document

variable {value : Json} {d : Document}

/-- Definitions that are not given are collected. -/
theorem collected_of_ofJson (h : ofJson value = .ok d) (hgiven : ¬ GivesDefinitions value) :
    d.store.collectDefinitions d.root = .ok d.definitions := by
  cases loadedFrom_of_ofJson h with
  | given hyes => exact absurd hyes hgiven
  | alone _ _ hcollected => exact hcollected

theorem acyclic_of_forest (h : d.Forest) : d.store.Acyclic :=
  Store.acyclic_of_rank NodeId.index fun id child hchild => h.inside id child hchild.holds

theorem unshared_of_ofJson (h : ofJson value = .ok d) (root : NodeId) : d.store.Unshared root where
  nodup _ _ _ hnode := nodup_of_ofJson h hnode
  parent_unique id other child _ _ := (forest_of_ofJson h).parent_unique id other child

def scope (d : Document) (discriminatorKey : String) : Scope :=
  { store := d.store, definitions := d.definitions, discriminatorKey }

/-- **References as they are written.** In a document that brings no definitions along, `gather` goes
through if each reference in the tree of the schema is to a name that the tree declares. Otherwise it
fails at a reference of the tree, for want of a definition of a name that the tree does not declare.
If it goes through, the occurrences that it lists are the references of the tree, each once. -/
theorem gather_written (h : ofJson value = .ok d) (hgiven : ¬ GivesDefinitions value)
    (key : String) :
    ∃ ids, d.store.preorder d.root = .ok ids ∧
      ((∃ found, (d.scope key).gather d.root = .ok found) ↔
        ∀ id ∈ ids, ∀ node, d.store.get? id = some node → node.isReference = true →
          ∃ name, node.target = some name ∧ d.store.DeclaredAmong ids name) ∧
      (∀ e, (d.scope key).gather d.root = .error e →
        ∃ id ∈ ids, ∃ name, e = .missingDefinition name id ∧ d.store.Mentions id name ∧
          ¬ d.store.DeclaredAmong ids name) ∧
      ∀ found, (d.scope key).gather d.root = .ok found →
        found.occurrences.values.flatten.Perm (ids.filter d.store.isReferenceAt) ∧
          ∀ name, (found.occurrencesOf name).Perm (ids.filter (d.store.refersTo name)) := by
  obtain ⟨ids, hc⟩ : ∃ ids, (d.scope key).Collected d.root ids :=
    Scope.collected_of_collectDefinitions (collected_of_ofJson h hgiven)
  have hacyclic : d.store.Acyclic := acyclic_of_forest (forest_of_ofJson h)
  have htarget : ∀ id ∈ ids, ∀ node, d.store.get? id = some node → node.isReference = true →
      node.target.isSome := fun id _ node hnode => (legible_of_ofJson h hnode).target
  have hnodup : ids.Nodup := (unshared_of_ofJson h d.root).nodup_preorder hc.preorder
  have hmissing : ∀ e, (d.scope key).gather d.root = .error e →
      ∃ id ∈ ids, ∃ name, e = .missingDefinition name id ∧ d.store.Mentions id name ∧
        ¬ d.store.DeclaredAmong ids name := fun e => hc.missing_of_gather hacyclic htarget
  refine ⟨ids, hc.preorder, ⟨?_, fun hdeclared => ?_⟩, hmissing, fun found hgather =>
    ⟨hc.perm_occurrences hnodup htarget hgather, hc.perm_occurrencesOf hnodup hgather⟩⟩
  · rintro ⟨found, hgather⟩ id hid node hnode href
    obtain ⟨name, hname⟩ := Option.isSome_iff_exists.1 (htarget id hid node hnode href)
    exact ⟨name, hname, hc.declared_of_gather hgather hid ⟨node, hnode, href, hname⟩⟩
  · cases hgather : (d.scope key).gather d.root with
    | ok found => exact ⟨found, rfl⟩
    | error e =>
      obtain ⟨id, hid, name, -, ⟨node, hnode, href, hname⟩, hnot⟩ := hmissing e hgather
      obtain ⟨other, hother, hyes⟩ := hdeclared id hid node hnode href
      rw [hname] at hother
      cases hother
      exact absurd hyes hnot

/-- The body of `A` lies in a list of definitions; it declares `B` behind a reference to it, and
refers to `A` in the end. -/
def nestedValue : Json :=
  .object [("type", .text "definitions"), ("definitions", .list [
    .object [("type", .text "tuple"), ("ref", .text "A"), ("items_schema", .list [
      .object [("type", .text "definition-ref"), ("schema_ref", .text "B")],
      .object [("type", .text "int"), ("ref", .text "B")],
      .object [("type", .text "definition-ref"), ("schema_ref", .text "A")]])]]),
    ("schema", .object [("type", .text "definition-ref"), ("schema_ref", .text "A")])]

def nestedDocument : Document where
  store := ⟨#[
    .reference "B",
    (Node.ofKind .int).withName "B",
    .reference "A",
    ((Node.ofKind .tuple).withChild "items_schema" (.many [⟨0⟩, ⟨1⟩, ⟨2⟩])).withName "A",
    .reference "A",
    ((Node.ofKind .definitions).withChild "definitions" (.many [⟨3⟩])).withChild "schema"
      (.one ⟨4⟩)]⟩
  root := ⟨5⟩
  definitions := .ofList [("A", ⟨3⟩), ("B", ⟨1⟩)]

theorem ofJson_nestedValue : ofJson nestedValue = .ok nestedDocument := by decide +kernel

theorem gather_nestedDocument :
    (nestedDocument.scope defaultDiscriminatorKey).gather nestedDocument.root = .ok
      { occurrences := .ofList [("B", [⟨0⟩]), ("A", [⟨2⟩, ⟨4⟩])], recursive := .ofList ["A"] } :=
  Scope.gather_of_runWithin 20 (by decide +kernel)

/-- A list of references to a name that nothing declares. -/
def strayValue : Json :=
  .object [("type", .text "list"),
    ("items_schema", .object [("type", .text "definition-ref"), ("schema_ref", .text "C")])]

def strayDocument : Document where
  store := ⟨#[.reference "C", (Node.ofKind .list).withChild "items_schema" (.one ⟨0⟩)]⟩
  root := ⟨1⟩
  definitions := .empty

theorem ofJson_strayValue : ofJson strayValue = .ok strayDocument := by decide +kernel

theorem gather_strayDocument :
    (strayDocument.scope defaultDiscriminatorKey).gather strayDocument.root =
      .error (.missingDefinition "C" ⟨0⟩) :=
  Scope.gather_of_runWithin 20 (by decide +kernel)

/-- Each of the three references is found once, though two are entered twice; the stray one is where
the walk fails. -/
theorem nestedDocument_written :
    (∃ ids, nestedDocument.store.preorder nestedDocument.root = .ok ids ∧
      [⟨0⟩, ⟨2⟩, ⟨4⟩].Perm (ids.filter nestedDocument.store.isReferenceAt)) ∧
    ∃ ids, strayDocument.store.preorder strayDocument.root = .ok ids ∧
      ∃ id ∈ ids, strayDocument.store.Mentions id "C" ∧
        ¬ strayDocument.store.DeclaredAmong ids "C" := by
  obtain ⟨ids, hids, -, -, hfound⟩ :=
    gather_written ofJson_nestedValue (by decide +kernel) defaultDiscriminatorKey
  obtain ⟨others, hothers, -, hmissing, -⟩ :=
    gather_written ofJson_strayValue (by decide +kernel) defaultDiscriminatorKey
  refine ⟨⟨ids, hids, (hfound _ gather_nestedDocument).1⟩, others, hothers, ?_⟩
  obtain ⟨id, hid, name, e, hname, hnot⟩ := hmissing _ gather_strayDocument
  cases e
  exact ⟨_, hid, hname, hnot⟩

end Document

end SchemaGraph
