import SchemaGraph.Proofs.Unshared
import SchemaGraph.Proofs.Wire.Attached
import SchemaGraph.Proofs.Wire.Legible

/-!
The tree that a loaded schema is. Its nodes are the ones that were added, the schema's own the last
of them; each other is held once, by a later one, and all are as their kinds ask. So the children in
a store that was built by loading make no cycle, and the walk in pre-order from a schema comes to
each of its nodes once.

* `Node.WellMade` — what the kind of a node, known or unknown, asks of it;
* `Store.Tree` — the nodes from some id on up to another one are the tree of that one;
* `Wire.load_builds_trees` — **loading builds such trees**.
-/

namespace SchemaGraph

/-! ### Nodes as their kinds ask -/

/-- A node of a known kind fits it, and if it is a reference it says to what; a node of an unknown
kind has only attributes. -/
structure Node.WellMade (node : Node) : Prop where
  fits : ∀ kind, node.kind? = some kind → ∀ id, node.checkSlots kind id = .ok ()
  target : node.kind? = some .definitionRef → node.target.isSome
  unknown : node.kind? = none → node = { tag := node.tag, attrs := node.attrs }

namespace Wire

theorem slot?_of_role {kind : Kind} {key : String} {slot : Slot}
    (h : role (some kind) key = .child slot) : kind.slot? key = some slot := by
  unfold role at h
  grind

theorem role_none {key : String} {r : Role} (h : role none key = r) : r = .tag ∨ r = .attr := by
  unfold role at h
  split at h
  · exact .inl h.symm
  · exact .inr h.symm

variable {node : Node}

theorem checkSlots_of_inPlace {kind : Kind} (h : InPlace (some kind) node) (id : NodeId) :
    node.checkSlots kind id = .ok () := by
  have hfits : node.misfit? kind = none := by
    refine Node.fits_iff.2 fun key child hchild => ?_
    obtain ⟨slot, hrole, hshape⟩ := h.children key child (OrderedMap.mem_entries_iff.2 hchild)
    exact ⟨slot, slot?_of_role hrole, hshape.symm⟩
  rw [Node.checkSlots, hfits]

/-- Without a kind no key but the tag has a meaning, so the node has nothing but attributes. -/
theorem eq_of_inPlace_none (h : InPlace none node) :
    node = { tag := node.tag, attrs := node.attrs } := by
  have hname : ¬ node.name.isSome := fun hsome => by simpa using role_none (h.name hsome)
  have htarget : ¬ node.target.isSome := fun hsome => by simpa using role_none (h.target hsome)
  have hmetadata : ¬ node.metadata.isSome := fun hsome => by
    simpa using role_none (h.metadata hsome)
  have hserialization : ¬ node.serialization.isSome := fun hsome => by
    simpa using role_none (h.serialization hsome)
  have hchildren : node.children = .empty := by
    refine OrderedMap.ext (List.eq_nil_iff_forall_not_mem.2 ?_)
    rintro ⟨key, child⟩ hentry
    obtain ⟨slot, hrole, -⟩ := h.children key child hentry
    simpa using role_none hrole
  cases node
  simp_all

theorem Legible.wellMade (h : Legible node) : node.WellMade where
  fits _ hkind id := checkSlots_of_inPlace (hkind ▸ h.inPlace) id
  target hkind := h.target (Node.isReference_iff.2 hkind)
  unknown hkind := eq_of_inPlace_none (hkind ▸ h.inPlace)

end Wire

/-! ### Trees -/

def NodeId.upTo (lo : Nat) (id : NodeId) : List NodeId :=
  (List.range' lo (id.index + 1 - lo)).map NodeId.mk

theorem NodeId.mem_upTo {lo : Nat} {id x : NodeId} :
    x ∈ NodeId.upTo lo id ↔ lo ≤ x.index ∧ x.index ≤ id.index := by
  cases x
  simp only [upTo, List.mem_map, List.mem_range'_1, NodeId.mk.injEq, exists_eq_right]
  omega

theorem NodeId.nodup_upTo (lo : Nat) (id : NodeId) : (NodeId.upTo lo id).Nodup :=
  List.Nodup.map (fun _ _ e => congrArg NodeId.index e) List.nodup_range'

namespace Store

def heldBy (s : Store) (ids : List NodeId) : List NodeId :=
  ids.flatMap fun id => ((s.get? id).map Node.storedIds).getD []

/-- The nodes from `lo` on up to the one at `id` are its tree: they hold each other only, the later
ones the earlier, and each but the last is held once. -/
structure Tree (s : Store) (lo : Nat) (id : NodeId) : Prop where
  lo_le : lo ≤ id.index
  lt_size : id.index < s.size
  inside : ∀ x child, lo ≤ x.index → x.index ≤ id.index → s.Holds x child →
    lo ≤ child.index ∧ child.index < x.index
  once : (id :: s.heldBy (NodeId.upTo lo id)).Perm (NodeId.upTo lo id)
  wellMade : ∀ x node, lo ≤ x.index → x.index ≤ id.index → s.get? x = some node → node.WellMade

variable {s s' : Store} {lo : Nat} {id x : NodeId} {ids : List NodeId}

theorem mem_held {child : NodeId} :
    child ∈ ((s.get? id).map Node.storedIds).getD [] ↔ s.Holds id child := by
  unfold Holds
  cases s.get? id <;> simp

theorem mem_heldBy {child : NodeId} : child ∈ s.heldBy ids ↔ ∃ id ∈ ids, s.Holds id child := by
  simp only [heldBy, List.mem_flatMap, mem_held]

theorem Tree.of_extends (h : s.Tree lo id) (hext : s.Extends s') : s'.Tree lo id := by
  have hlt : ∀ {x : NodeId}, x.index ≤ id.index → x.index < s.size := fun hx =>
    Nat.lt_of_le_of_lt hx h.lt_size
  have hheld : s'.heldBy (NodeId.upTo lo id) = s.heldBy (NodeId.upTo lo id) :=
    List.flatMap_congr fun x hx => by rw [hext.get?_eq x (hlt (NodeId.mem_upTo.1 hx).2)]
  constructor
  · exact h.lo_le
  · exact Nat.lt_of_lt_of_le h.lt_size hext.size_le
  · exact fun x child hlo hx hholds => h.inside x child hlo hx ((hext.holds_iff (hlt hx)).1 hholds)
  · rw [hheld]
    exact h.once
  · exact fun x node hlo hx hnode => h.wellMade x node hlo hx (hext.get?_eq x (hlt hx) ▸ hnode)

theorem Tree.bounds (h : s.Tree lo id) (hx : s.Below id x) : lo ≤ x.index ∧ x.index ≤ id.index := by
  induction hx with
  | refl => exact ⟨h.lo_le, Nat.le_refl _⟩
  | tail _ hchild ih =>
    have := h.inside _ _ ih.1 ih.2 hchild.holds
    omega

theorem Tree.unshared (h : s.Tree lo id) : s.Unshared id := by
  have hnodup : (s.heldBy (NodeId.upTo lo id)).Nodup :=
    (List.nodup_cons.1 (h.once.nodup_iff.2 (NodeId.nodup_upTo lo id))).2
  obtain ⟨hown, hapart⟩ := List.nodup_flatMap.1 hnodup
  have hmem : ∀ {y : NodeId}, s.Below id y → y ∈ NodeId.upTo lo id := fun hy =>
    NodeId.mem_upTo.2 (h.bounds hy)
  constructor
  · intro x node hx hnode
    have := hown x (hmem hx)
    rwa [hnode] at this
  · intro x other child hx hother hholds hholds'
    by_contra hne
    have : Std.Symm (Function.onFun List.Disjoint fun y =>
        ((s.get? y).map Node.storedIds).getD []) := ⟨fun _ _ h _ hright hleft => h hleft hright⟩
    exact hapart.forall (hmem hx) (hmem hother) hne (mem_held.2 hholds) (mem_held.2 hholds')

theorem Tree.below {P : Node → Prop} (h : s.Tree lo id) (hg : s.Grounded P id) (hlo : lo ≤ x.index)
    (hx : x.index ≤ id.index) : s.Below id x := by
  -- up to the node that holds it, and on from there
  induction hdistance : id.index - x.index using Nat.strong_induction_on generalizing x with
  | _ distance ih =>
    have hmem := h.once.mem_iff.2 (NodeId.mem_upTo.2 ⟨hlo, hx⟩)
    rcases List.mem_cons.1 hmem with rfl | hheld
    · exact .refl
    · obtain ⟨parent, hparent, hholds⟩ := mem_heldBy.1 hheld
      obtain ⟨hplo, hpx⟩ := NodeId.mem_upTo.1 hparent
      have hlater := (h.inside parent x hplo hpx hholds).2
      have hpath : s.Below id parent := ih (id.index - parent.index) (by omega) hplo hpx rfl
      exact hpath.tail ((hg.of_below hpath).isChild hholds)

/-- **The walk in pre-order comes to each node of the tree once.** -/
theorem Tree.perm_preorder (h : s.Tree lo id) (hids : s.preorder id = .ok ids) :
    ids.Perm (NodeId.upTo lo id) := by
  refine (List.perm_ext_iff_of_nodup (h.unshared.nodup_preorder hids) (NodeId.nodup_upTo lo id)).2
    fun x => ?_
  rw [mem_preorder hids, NodeId.mem_upTo]
  exact ⟨h.bounds, fun hx => h.below (grounded_iff.2 ⟨ids, hids⟩) hx.1 hx.2⟩

end Store

/-! ### Loading -/

namespace Wire

variable {σ : Type} {st st' : Store × σ} {implied : Option Kind} {path : List Step} {id : NodeId}

/-- The node of a schema is the last to be added. -/
theorem size_of_load {value : Json} (h : load implied path value st = .ok id st') :
    st'.1.size = id.index + 1 := by
  cases value with
  | object fields =>
    rw [load] at h
    obtain ⟨tag, start, -, h⟩ := Pass.bind_eq_ok.1 h
    obtain ⟨node, last, -, h⟩ := Pass.bind_eq_ok.1 h
    split at h
    · exact absurd h Pass.throw_ne_ok
    · obtain ⟨rfl, rfl⟩ := Pass.insert_eq_ok.1 h
      exact Store.size_insert _ _
  | _ =>
    rw [load] at h
    · exact absurd h Pass.throw_ne_ok
    · rintro _ ⟨⟩

theorem tree_of_load {value : Json} (hvalue : value.WellFormed)
    (h : load implied path value st = .ok id st') : st'.1.Tree st.1.size id := by
  obtain ⟨hext, hplanted⟩ := load_plants _ h
  have hsize := size_of_load h
  have hlo : st.1.size ≤ id.index := (hplanted.bounds id List.mem_cons_self).1
  have hnodup : (id :: st'.1.heldBy (NodeId.upTo st.1.size id)).Nodup := by
    refine List.nodup_cons.2 ⟨fun hmem => ?_, List.nodup_flatMap.2 ⟨fun x hx => ?_, ?_⟩⟩
    · obtain ⟨x, hx, hholds⟩ := Store.mem_heldBy.1 hmem
      exact hplanted.not_held id List.mem_cons_self x (NodeId.mem_upTo.1 hx).1 hholds
    · cases hnode : st'.1.get? x with
      | none => exact List.nodup_nil
      | some node => exact (load_adds value h).nodup x node (NodeId.mem_upTo.1 hx).1 hnode
    · refine (NodeId.nodup_upTo st.1.size id).imp_of_mem ?_
      intro x y hx hy hne child hheld hheld'
      exact hne (hplanted.parent_unique x y child (NodeId.mem_upTo.1 hx).1 (NodeId.mem_upTo.1 hy).1
        (Store.mem_held.1 hheld) (Store.mem_held.1 hheld'))
  refine ⟨hlo, by omega, fun x child hx _ => hplanted.inside x child hx, ?_, ?_⟩
  · refine (List.perm_ext_iff_of_nodup hnodup (NodeId.nodup_upTo _ _)).2 fun x => ?_
    rw [List.mem_cons, Store.mem_heldBy, NodeId.mem_upTo]
    constructor
    · rintro (rfl | ⟨y, hy, hholds⟩)
      · exact ⟨hlo, Nat.le_refl _⟩
      · have hy := NodeId.mem_upTo.1 hy
        have := hplanted.inside y x hy.1 hholds
        omega
    · rintro ⟨hx, hle⟩
      rcases load_attaches value h hvalue x hx (by omega) with hroot | ⟨y, hy, hholds⟩
      · exact .inl (List.mem_singleton.1 hroot)
      · have := hholds.lt_size
        exact .inr ⟨y, NodeId.mem_upTo.2 ⟨hy, by omega⟩, hholds⟩
  · exact fun x node hx _ hnode => ((load_adds value h).legible x node hx hnode).wellMade

/-- **Loading builds trees.** Where a schema is loaded all old nodes stay as they are and the new ones
are the tree of the last one, which is the schema's; this stays so however the store grows, and the
walk in pre-order, if it goes through, comes to each of them once. In a store that was built by
loading, some of which may have failed, nodes hold earlier ones, so their children make no cycle. -/
theorem load_builds_trees :
    (∀ (value : Json) (st st' : Store × σ) (id : NodeId), value.WellFormed →
      loadSchema value st = .ok id st' → st.1.Extends st'.1 ∧ st'.1.size = id.index + 1 ∧
        ∀ s, st'.1.Extends s → s.Tree st.1.size id ∧
          ∀ ids, s.preorder id = .ok ids → ids.Perm (NodeId.upTo st.1.size id)) ∧
      ∀ s : Store, s.Loaded →
        (∀ id child, s.Holds id child → child.index < id.index) ∧ s.Acyclic := by
  constructor
  · intro value st st' id hvalue h
    refine ⟨(load_plants _ h).extends_, size_of_load h, fun s hext => ?_⟩
    have htree := (tree_of_load hvalue h).of_extends hext
    exact ⟨htree, fun ids hids => htree.perm_preorder hids⟩
  · exact fun s hs => ⟨fun id child hchild => hs.sprouts.lt_of_holds hchild, hs.acyclic⟩

/-- Definitions of which the second is no schema. -/
def brokenDefinitions : Json :=
  .object [("A", .object [("type", .text "int")]), ("B", .null)]

/-- A pair that has a reference and a serialization. -/
def referringPair : Json :=
  .object [("type", .text "tuple"), ("items_schema", .list [.object [("type", .text "int")],
    .object [("type", .text "definition-ref"), ("schema_ref", .text "A")]]),
    ("serialization", .object [("type", .text "to-string")])]

def leftoverStore : Store := ⟨#[Node.ofKind .int]⟩

def pairStore : Store := ⟨#[
  Node.ofKind .int,
  Node.ofKind .int,
  .reference "A",
  Node.ofKind .toStr,
  ((Node.ofKind .tuple).withChild "items_schema" (.many [⟨1⟩, ⟨2⟩])).withSerialization ⟨3⟩]⟩

theorem loadDefinitions_brokenDefinitions :
    loadDefinitions brokenDefinitions (Store.empty, ()) =
      .error (.malformed .notSchema (.document [.key "B"])) (leftoverStore, ()) := by
  decide +kernel

theorem loadSchema_referringPair :
    loadSchema referringPair (leftoverStore, ()) = .ok ⟨4⟩ (pairStore, ()) := by
  decide +kernel

theorem loaded_pairStore : pairStore.Loaded := by
  have h := Store.Loaded.schema referringPair (.definitions brokenDefinitions .empty)
  rwa [Pass.storeAfter, Pass.storeAfter, loadDefinitions_brokenDefinitions, Pass.endState,
    loadSchema_referringPair, Pass.endState] at h

/-- The pair is a tree behind a node that belongs to nothing. -/
theorem pairStore_trees :
    leftoverStore.Extends pairStore ∧ pairStore.Tree 1 ⟨4⟩ ∧
      (∃ ids, pairStore.preorder ⟨4⟩ = .ok ids ∧ ids.Perm [⟨1⟩, ⟨2⟩, ⟨3⟩, ⟨4⟩]) ∧
      pairStore.Acyclic := by
  have hvalue : referringPair.WellFormed := by
    simp [referringPair, Json.WellFormed, Json.WellFormedFields, Json.WellFormedItems,
      Entries.names]
  obtain ⟨hext, -, htree⟩ :=
    load_builds_trees.1 referringPair _ _ _ hvalue loadSchema_referringPair
  have hids : pairStore.preorder ⟨4⟩ = .ok [⟨4⟩, ⟨1⟩, ⟨2⟩, ⟨3⟩] := by decide +kernel
  exact ⟨hext, (htree _ (.refl _)).1, ⟨_, hids, (htree _ (.refl _)).2 _ hids⟩,
    ((load_builds_trees (σ := Unit)).2 _ loaded_pairStore).2⟩

end Wire

end SchemaGraph
