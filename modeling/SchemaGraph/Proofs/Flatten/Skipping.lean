import SchemaGraph.Proofs.Flatten.Normal
import SchemaGraph.Proofs.Flatten.Origin

/-!
What flattening passes over. It enters the listed definitions and the inner schema of a
`definitions` node, but not its serialization attachment; it reads neither the name of the node nor
whether the node fits its kind.

* `Store.NothingLost` — the tree at a node can be walked and all names declared there are defined;
* `Store.Transparent` — nothing is hidden at a `definitions` node;
* `flattenReferences_nothingLost_iff` — **flattening loses nothing exactly if all nodes that it
  enters are transparent**;
* `attachedBogus_lost` — a document of which it passes over a node of unknown kind.
-/

namespace SchemaGraph

/-- The walk in pre-order from `root` goes through, and all names declared there are defined in
`all`. -/
def Store.NothingLost (s : Store) (all : Definitions) (root : NodeId) : Prop :=
  ∃ ids names, s.preorder root = .ok ids ∧ s.collectNames root = .ok names ∧
    ∀ name, name ∈ names → name ∈ all.keys

/-- There is a node at `id`, and if it is a `definitions` node, it fits its kind, its own name is
defined in `all`, and nothing is lost in its serialization attachment. -/
def Store.Transparent (s : Store) (all : Definitions) (id : NodeId) : Prop :=
  ∃ node, s.get? id = some node ∧ (node.kind? = some .definitions →
    node.misfit? .definitions = none ∧ (∀ name, node.name = some name → name ∈ all.keys) ∧
      ∀ attached, node.serialization = some attached → s.NothingLost all attached)

/-- The node bears no name or one that is defined in `all`. -/
def Node.DefinedIn (all : Definitions) (node : Node) : Prop :=
  ∀ name, node.name = some name → name ∈ all.keys

namespace Store

variable {s : Store} {all : Definitions} {P Q : Node → Prop} {root id child : NodeId}

/-! ### Trees in which all names are defined -/

/-- Properties of the nodes of a finite tree come together. -/
theorem Grounded.of_forall (h : s.Grounded P id)
    (hQ : ∀ x node, s.Below id x → s.get? x = some node → Q node) : s.Grounded Q id := by
  induction h with
  | @node id node kind hnode hkind hfits _ _ ih =>
    refine .node hnode hkind hfits (hQ id node .refl hnode) fun child hchild => ?_
    have hstep : s.IsChild id child := ⟨node.orderedChildren kind,
      childIds_eq_ok.2 ⟨node, kind, hnode, hkind, hfits, rfl⟩,
      (Node.mem_orderedChildren hfits).2 hchild⟩
    exact ih child hchild fun x other hx hother => hQ x other (.head hstep hx) hother

theorem mem_collectNames {names : NameSet} (h : s.collectNames root = .ok names) {name : String} :
    name ∈ names ↔ ∃ id node, s.Below root id ∧ s.get? id = some node ∧ node.name = some name := by
  obtain ⟨declared, hdeclared, h⟩ := bind_eq_ok.1 h
  obtain ⟨ids, hids, hdeclared⟩ := bind_eq_ok.1 hdeclared
  cases pure_eq_ok.1 hdeclared
  cases pure_eq_ok.1 h
  simp only [NameSet.ofList, NameSet.mem_insertMany, NameSet.not_mem_empty, or_false, List.mem_map,
    List.mem_filterMap, Option.map_eq_some_iff, Option.bind_eq_some_iff]
  constructor
  · rintro ⟨_, ⟨id, hid, name, ⟨node, hnode, hname⟩, rfl⟩, rfl⟩
    exact ⟨id, node, (mem_preorder hids).1 hid, hnode, hname⟩
  · rintro ⟨id, node, hid, hnode, hname⟩
    exact ⟨(name, id), ⟨id, (mem_preorder hids).2 hid, name, ⟨node, hnode, hname⟩, rfl⟩, rfl⟩

theorem nothingLost_iff : s.NothingLost all root ↔ s.Grounded (Node.DefinedIn all) root := by
  constructor
  · rintro ⟨ids, names, hids, hnames, hall⟩
    refine (grounded_iff.2 ⟨ids, hids⟩).of_forall fun x node hx hnode name hname => ?_
    exact hall name ((mem_collectNames hnames).2 ⟨x, node, hx, hnode, hname⟩)
  · intro h
    have hids := h.preorder_eq
    obtain ⟨names, hnames⟩ : ∃ names, s.collectNames root = .ok names := by
      refine ⟨_, bind_eq_ok.2 ⟨_, bind_eq_ok.2 ⟨_, hids, rfl⟩, rfl⟩⟩
    refine ⟨_, names, hids, hnames, fun name hname => ?_⟩
    obtain ⟨x, node, hx, hnode, hbears⟩ := (mem_collectNames hnames).1 hname
    exact (h.of_below hx).property hnode name hbears

/-! ### The nodes that are entered -/

/-- What it takes for a walk that flattens to go through at `id`: a node other than a `definitions`
node fits its kind and has the property `P`, and so on for the parts that are entered. Nothing is
said of ids that lead nowhere. -/
inductive Entered (s : Store) (P : Node → Prop) : NodeId → Prop where
  | absent {id : NodeId} (h : s.get? id = none) : Entered s P id
  | dissolve {id inner : NodeId} {node : Node} (hnode : s.get? id = some node)
      (hkind : node.kind? = some .definitions) (hinner : node.innerSchema? = some inner)
      (hparts : ∀ child, child ∈ node.listedDefinitions ∨ child = inner → Entered s P child) :
      Entered s P id
  | leave {id : NodeId} {node : Node} {kind : Kind} (hnode : s.get? id = some node)
      (hkind : node.kind? = some kind) (hne : kind ≠ .definitions)
      (hfits : node.misfit? kind = none)
      (hP : P node) (hparts : ∀ child ∈ node.storedIds, Entered s P child) : Entered s P id

theorem Entered.mono (h : s.Entered P id) (hPQ : ∀ node, P node → Q node) : s.Entered Q id := by
  induction h with
  | absent h => exact .absent h
  | dissolve hnode hkind hinner _ ih => exact .dissolve hnode hkind hinner ih
  | leave hnode hkind hne hfits hP _ ih => exact .leave hnode hkind hne hfits (hPQ _ hP) ih

/-- All ids that a `definitions` node holds, if it fits its kind. -/
theorem mem_storedIds_definitions {node : Node} (hfits : node.misfit? .definitions = none)
    (hchild : child ∈ node.storedIds) :
    child ∈ node.listedDefinitions ∨ node.innerSchema? = some child ∨
      node.serialization = some child := by
  rcases List.mem_append.1 hchild with hchild | hchild
  · obtain ⟨stored, hstored, hchild⟩ := List.mem_flatMap.1 hchild
    obtain ⟨⟨key, other⟩, hentry, hother⟩ := List.mem_map.1 hstored
    obtain rfl : other = stored := hother
    have hget := OrderedMap.mem_entries_iff.1 hentry
    obtain ⟨slot, hslot, hshape⟩ := Node.fits_iff.1 hfits key other hget
    have hkey := Kind.key_of_slot? hslot
    subst hkey
    have hslots := Kind.mem_slots_of_slot? hslot
    simp only [Kind.slots, List.mem_cons, List.not_mem_nil, or_false] at hslots
    -- one location lists the definitions, the other holds the inner schema
    rcases hslots with rfl | rfl
    · left
      cases other with
      | many ids => simpa [Node.listedDefinitions, hget, Child.ids] using hchild
      | _ => cases hshape
    · right; left
      cases other with
      | one inner =>
        have hsame : child = inner := by simpa [Child.ids] using hchild
        simp [Node.innerSchema?, hget, hsame]
      | _ => cases hshape
  · exact .inr (.inr (by simpa using hchild))

/-- Where the nodes that are entered hide nothing, the whole tree is finite and its nodes have the
property. -/
theorem Entered.grounded (h : s.Entered (Node.DefinedIn all) root)
    (hparts : ∀ id, Relation.ReflTransGen s.IsPart root id → s.Transparent all id) :
    s.Grounded (Node.DefinedIn all) root := by
  induction h with
  | absent h =>
    obtain ⟨node, hnode, -⟩ := hparts _ .refl
    rw [h] at hnode
    cases hnode
  | @dissolve id inner node hnode hkind hinner _ ih =>
    obtain ⟨node', hnode', hopen⟩ := hparts _ .refl
    rw [hnode] at hnode'
    cases hnode'
    obtain ⟨hfits, hname, hattached⟩ := hopen hkind
    have hpart : ∀ child, child ∈ node.listedDefinitions ∨ child = inner →
        s.Grounded (Node.DefinedIn all) child := by
      intro child hchild
      refine ih child hchild fun x hx => hparts x (.head ?_ hx)
      exact (isPart_definitions_iff hnode hkind hinner).2 hchild
    refine .node hnode hkind hfits hname fun child hchild => ?_
    rcases mem_storedIds_definitions hfits hchild with hlisted | hchild | hchild
    · exact hpart child (.inl hlisted)
    · rw [hinner] at hchild
      exact hpart child (.inr (Option.some.inj hchild).symm)
    · exact nothingLost_iff.1 (hattached child hchild)
  | leave hnode hkind hne hfits hP _ ih =>
    refine .node hnode hkind hfits hP fun child hchild => ih child hchild fun x hx => ?_
    refine hparts x (.head ((isPart_plain_iff hnode fun e => hne ?_).2 hchild) hx)
    rw [hkind] at e
    exact Option.some.inj e

/-- Conversely, nothing is hidden in a tree in which all names are defined. -/
theorem Grounded.transparent (h : s.Grounded (Node.DefinedIn all) root)
    (hid : Relation.ReflTransGen s.IsPart root id) : s.Transparent all id := by
  have hid' : s.Grounded (Node.DefinedIn all) id := by
    induction hid with
    | refl => exact h
    | tail _ hpart ih => exact ih.of_holds hpart.holds
  cases hid' with
  | @node _ node kind hnode hkind hfits hname hkids =>
    refine ⟨node, hnode, fun hdefinitions => ?_⟩
    rw [hkind] at hdefinitions
    cases hdefinitions
    refine ⟨hfits, hname, fun attached hattached => nothingLost_iff.2 (hkids attached ?_)⟩
    exact List.mem_append_right _ (by simp [hattached])

end Store

/-! ### The whole pass -/

variable {s : Store} {ids xs : List NodeId} {st st' : Store × Flattening}

/-- **A walk enters what it visits**: what it hoists are the names of the entered nodes. -/
theorem Flattens.entered (h : Flattens ids st xs st') (hext : s.Extends st.1) :
    ∀ id ∈ ids,
      s.Entered (fun node => ∀ name, node.name = some name → name ∈ st'.2.hoisted) id := by
  induction h with
  | nil => simp
  | @dissolve id inner _ node _ _ _ st mid last st' hnode hkind hinner hlisted hvisit hrest ihlisted
      ihvisit ihrest =>
    have hmid := hext.trans hlisted.grows.store
    have hlast := hmid.trans hvisit.grows.store
    intro other hother
    rcases List.mem_cons.1 hother with rfl | hother
    · cases hbase : s.get? other with
      | none => exact .absent hbase
      | some base =>
        rw [hext.get?_of_some hbase] at hnode
        cases hnode
        refine .dissolve hbase hkind hinner ?_
        rintro child (hchild | rfl)
        · exact (ihlisted hext child hchild).mono fun node hnode name hname =>
            (hvisit.grows.trans hrest.grows).flat.hoisted name (hnode name hname)
        · exact (ihvisit hmid child (by simp)).mono fun node hnode name hname =>
            hrest.grows.flat.hoisted name (hnode name hname)
    · exact ihrest hlast other hother
  | @leave id copy x node kind _ _ _ st mid built left st' hnode hkind hne hfits hkids hcopy hleave
      hrest ihkids ihrest =>
    have hleft := ((hext.trans hkids.grows.store).trans hcopy.grows.store).trans hleave.grows.store
    intro other hother
    rcases List.mem_cons.1 hother with rfl | hother
    · cases hbase : s.get? other with
      | none => exact .absent hbase
      | some base =>
        rw [hext.get?_of_some hbase] at hnode
        cases hnode
        refine .leave hbase hkind hne hfits (fun name hname => ?_) fun child hchild => ?_
        · rw [hname] at hleave
          cases hleave
          exact hrest.grows.flat.hoisted name (NameSet.mem_insert.2 (.inl rfl))
        · refine (ihkids hext child ((Node.mem_orderedChildren hfits).2 hchild)).mono
            fun node hnode name hname => ?_
          exact ((hcopy.grows.trans hleave.grows).trans hrest.grows).flat.hoisted name
            (hnode name hname)
    · exact ihrest hleft other hother

variable {σ : Type} {own : σ} {root flat : NodeId} {definitions all : Definitions} {out : Store × σ}

/-- **What flattening loses.** When it goes through, then the walk in pre-order over the old schema
goes through and all names declared there are among the returned definitions, exactly if at no
`definitions` node that flattening enters something is hidden. -/
theorem flattenReferences_nothingLost_iff
    (h : flattenReferences root definitions (s, own) = .ok (flat, all) out) :
    s.NothingLost all root ↔
      ∀ id, Relation.ReflTransGen s.IsPart root id → s.Transparent all id := by
  constructor
  · exact fun hall id hid => (Store.nothingLost_iff.1 hall).transparent hid
  · intro hparts
    obtain ⟨mid, f, hroot, hgiven, rfl, -⟩ := flattens_of_flattenReferences h
    have hstart : Registered definitions.keys (s, { definitions }) :=
      ⟨fun name hname => .inr hname, fun name hname => absurd hname (NameSet.not_mem_empty name)⟩
    have hend := hgiven.registered (hroot.flat hstart).1
    have hentered := (hroot.entered (.refl s) root (by simp)).mono
      (Q := Node.DefinedIn f.definitions) fun node hnode name hname => by
        have hhoisted := hgiven.grows.flat.hoisted name (hnode name hname)
        obtain ⟨body, hbody, -⟩ := hend.flat name hhoisted
        exact OrderedMap.mem_keys_of_get? hbody
    exact Store.nothingLost_iff.2 (hentered.grounded hparts)

/-- A `definitions` node without definitions around an integer; the serialization attached to it is
of an unknown kind. -/
def attachedBogus : Json :=
  .object [("schema", .object [("type", .text "definitions"), ("definitions", .list []),
    ("schema", .object [("type", .text "int")]),
    ("serialization", .object [("type", .text "bogus")])]), ("definitions", .object [])]

def bogusDocument : Document where
  store := ⟨#[Node.ofKind .int, { tag := "bogus" },
    (((Node.ofKind .definitions).withChild Key.definitions (.many [])).withChild Key.inner
      (.one ⟨0⟩)).withSerialization ⟨1⟩]⟩
  root := ⟨2⟩
  definitions := .empty

theorem ofJson_attachedBogus : Document.ofJson attachedBogus = .ok bogusDocument := by
  decide +kernel

/-- Only the integer is left. -/
theorem flattenReferences_bogusDocument :
    flattenReferences bogusDocument.root bogusDocument.definitions (bogusDocument.store, ()) =
      .ok (⟨0⟩, .empty) (bogusDocument.store, ()) := by
  decide +kernel

/-- What is lost in the document, by the equivalence. -/
theorem bogusDocument_nothingLost_iff :
    ∃ flat all st', flattenReferences bogusDocument.root bogusDocument.definitions
        (bogusDocument.store, ()) = .ok (flat, all) st' ∧
      (bogusDocument.store.NothingLost all bogusDocument.root ↔
        ∀ id, Relation.ReflTransGen bogusDocument.store.IsPart bogusDocument.root id →
          bogusDocument.store.Transparent all id) :=
  ⟨_, _, _, flattenReferences_bogusDocument,
    flattenReferences_nothingLost_iff flattenReferences_bogusDocument⟩

/-- Flattening goes through, the walk in pre-order does not: it comes to the node of unknown kind.
-/
theorem attachedBogus_lost :
    ∃ d flat all st', Document.ofJson attachedBogus = .ok d ∧ d.store.Acyclic ∧
      flattenReferences d.root d.definitions (d.store, ()) = .ok (flat, all) st' ∧
      d.store.preorder d.root = .error (.unknownKind "bogus" ⟨1⟩) := by
  refine ⟨bogusDocument, _, _, _, ofJson_attachedBogus, ?_, flattenReferences_bogusDocument, ?_⟩
  · exact Store.acyclic_of_forall NodeId.index (by decide +kernel)
  · decide +kernel

end SchemaGraph
