import SchemaGraph.Proofs.Wire.Grammar
import SchemaGraph.Proofs.Wire.Grown
import SchemaGraph.Proofs.Wire.Twins

/-!
Loading undoes rendering. What a schema renders to says all about it but which of its nodes are shared:
the key under which something lies and the kind tell what it is, so that loading gives back the
unfolded schema, node by node.

* `Node.WellFormed` — the nodes that have a JSON of their own;
* `Wire.legible_iff` — these are the nodes that can be told from their fields;
* `Store.readable_of_wellFormed` — a schema of such nodes, without cycles, is readable;
* `Wire.unshared_of_load` — what is loaded is a tree;
* `Wire.load_render` — **loading what a schema renders to gives its tree**.
-/

namespace SchemaGraph

/-! ### Well-formed nodes -/

namespace Node

/-- The node fits the kind, says to what it refers if it is a reference and only then, and has no
attribute under a key with a meaning. -/
structure Suits (kind : Kind) (node : Node) : Prop where
  fits : ∀ id, node.checkSlots kind id = .ok ()
  target : node.target.isSome ↔ kind = .definitionRef
  attrs : ∀ key ∈ node.attrs.keys, kind.Free key

/-- The node suits its kind. One of an unknown kind has attributes only, none of them under the key of
the tag. -/
def WellFormed (node : Node) : Prop :=
  match node.kind? with
  | some kind => node.Suits kind
  | none => node = { tag := node.tag, attrs := node.attrs } ∧ Key.tag ∉ node.attrs.keys

variable {node : Node} {kind : Kind}

instance (kind : Kind) (node : Node) : Decidable (node.Suits kind) :=
  decidable_of_iff (node.misfit? kind = none ∧ (node.target.isSome ↔ kind = .definitionRef) ∧
      ∀ key ∈ node.attrs.keys, kind.Free key)
    ⟨fun ⟨hfits, htarget, hattrs⟩ => ⟨fun _ => checkSlots_eq_ok.2 hfits, htarget, hattrs⟩,
      fun h => ⟨checkSlots_eq_ok.1 (h.fits default), h.target, h.attrs⟩⟩

theorem wellFormed_of_kind (h : node.kind? = some kind) : node.WellFormed ↔ node.Suits kind := by
  rw [WellFormed, h]

theorem wellFormed_of_unknown (h : node.kind? = none) : node.WellFormed ↔
    node = { tag := node.tag, attrs := node.attrs } ∧ Key.tag ∉ node.attrs.keys := by
  rw [WellFormed, h]

instance (node : Node) : Decidable node.WellFormed :=
  match h : node.kind? with
  | some _ => decidable_of_iff _ (wellFormed_of_kind h).symm
  | none => decidable_of_iff _ (wellFormed_of_unknown h).symm

end Node

namespace Wire

variable {node : Node}

/-- **Well-formed nodes are those that can be told from their fields.** -/
theorem legible_iff : Legible node ↔ node.WellFormed := by
  cases hkind : node.kind? with
  | none =>
    rw [Node.wellFormed_of_unknown hkind]
    constructor
    · intro h
      refine ⟨h.wellMade.unknown hkind, fun htag => ?_⟩
      have hrole := h.inPlace.attrs _ htag
      rw [role_tag] at hrole
      cases hrole
    · rintro ⟨hnode, htag⟩
      refine ⟨?_, fun href => ?_⟩
      · rw [hkind, hnode]
        refine { inPlace_start none node.tag with attrs := fun key hkey => ?_ }
        have hne : key ≠ Key.tag := fun e => htag (e ▸ hkey)
        exact if_neg hne
      · rw [Node.isReference_iff, hkind] at href
        cases href
  | some kind =>
    rw [Node.wellFormed_of_kind hkind]
    have href : node.isReference ↔ kind = .definitionRef := by
      rw [Node.isReference_iff, hkind, Option.some.injEq]
    constructor
    · intro h
      have hplace : InPlace (some kind) node := hkind ▸ h.inPlace
      refine ⟨checkSlots_of_inPlace hplace, ⟨fun htarget => role_target.1 (hplace.target htarget),
        fun e => h.target (href.2 e)⟩, fun key hkey => role_attr.1 (hplace.attrs key hkey)⟩
    · intro h
      refine ⟨hkind ▸ ⟨fun _ => rfl, fun htarget => role_target.2 (h.target.1 htarget), fun _ => rfl,
        fun _ => rfl, fun key child hentry => ?_, fun key hkey => role_attr.2 (h.attrs key hkey)⟩,
        fun hisref => h.target.2 (href.1 hisref)⟩
      obtain ⟨slot, hslot, hshape⟩ := Node.fits_iff.1 (Node.checkSlots_eq_ok.1 (h.fits default)) key
        child (OrderedMap.mem_entries_iff.1 hentry)
      refine ⟨slot, ?_, hshape.symm⟩
      rw [← Kind.key_of_slot? hslot]
      exact role_slot (Kind.mem_slots_of_slot? hslot)

end Wire

/-! ### Readable schemas -/

namespace Store

variable {s s' : Store} {id x : NodeId} {depth : Nat}

/-- What a legible node holds are its children, if its kind is known; if not, it holds nothing. -/
theorem isChild_of_legible {node : Node} (hnode : s.get? id = some node)
    (hlegible : Wire.Legible node) (hx : x ∈ node.storedIds) : s.IsChild id x := by
  cases hkind : node.kind? with
  | none =>
    rw [hlegible.wellMade.unknown hkind] at hx
    cases hx
  | some kind =>
    have hfits := Node.checkSlots_eq_ok.1 (hlegible.wellMade.fits kind hkind id)
    exact ⟨_, childIds_eq_ok.2 ⟨node, kind, hnode, hkind, hfits, rfl⟩,
      (Node.mem_orderedChildren hfits).2 hx⟩

/-- A schema of well-formed nodes with short paths is readable and renders. -/
theorem readable_of_reach (hreach : s.Reach depth id)
    (h : ∀ x, s.Below id x → ∃ node, s.get? x = some node ∧ node.WellFormed) :
    s.Readable id ∧ ∃ w, s.renderWithin depth id = .ok w := by
  induction hreach with
  | @node depth id _ ih =>
    obtain ⟨node, hnode, hwell⟩ := h id .refl
    have hlegible := Wire.legible_iff.2 hwell
    have hkids : ∀ child ∈ node.storedIds,
        s.Readable child ∧ ∃ w, s.renderWithin depth child = .ok w := by
      intro child hchild
      have hstep := isChild_of_legible hnode hlegible hchild
      exact ih child hstep fun x hx => h x (.head hstep hx)
    exact ⟨.node hnode hlegible fun child hchild => (hkids child hchild).1,
      exists_renderWithin hnode fun child hchild => (hkids child hchild).2⟩

end Store

namespace Wire

variable {σ : Type} {s : Store} {st st' : Store × σ} {implied : Option Kind} {path : List Step}
  {id : NodeId}

/-- **What is loaded is a tree.** -/
theorem unshared_of_load {value : Json} (h : load implied path value st = .ok id st') :
    st'.1.Unshared id := by
  obtain ⟨-, hplanted⟩ := load_plants _ h
  have hnew : ∀ x, st'.1.Below id x → st.1.size ≤ x.index := by
    intro x hx
    induction hx with
    | refl => exact (hplanted.bounds id List.mem_cons_self).1
    | tail _ hchild ih => exact (hplanted.inside _ _ ih hchild.holds).1
  constructor
  · exact fun x node hx hnode => (load_adds value h).nodup x node (hnew x hx) hnode
  · exact fun x other child hx hother => hplanted.parent_unique x other child (hnew x hx) (hnew other hother)

/-- **Loading what a schema renders to gives its tree.** Where no node below `id` is below itself and
each is there and well-formed, `id` renders, and what it renders to can be loaded into any store. The
old nodes stay, no two of the new ones share a node, and node by node they are those at `id`: of equal
content, with children under the same keys in the same order, each of the same shape with the same
names and labels, and with a serialization where there is one. -/
theorem load_render {id : NodeId} (hacyclic : ∀ x, s.Below id x → ¬ Relation.TransGen s.IsChild x x)
    (hnodes : ∀ x, s.Below id x → ∃ node, s.get? x = some node ∧ node.WellFormed)
    (start : Store × σ) :
    ∃ w again last, s.render id = .ok w ∧ loadSchema w start = .ok again last ∧
      start.1.Extends last.1 ∧ s.Twin last.1 id again ∧ last.1.Unshared again := by
  obtain ⟨hreadable, w, hw⟩ := Store.readable_of_reach (Store.reach_depthLimit hacyclic) hnodes
  obtain ⟨again, last, hload, hext, hshows⟩ :=
    Settled.load (hreadable.settled hw) none [] start
  have htwin : s.Twin last.1 id again := Store.twin_of_renderWithin hreadable
    (readable_of_load hload) hw hshows.render
  exact ⟨w, again, last, hw, hload, hext, htwin, unshared_of_load hload⟩

/-- A tagged union over a reference and over a union, which holds a text twice and a node of an unknown
kind and has a serialization. -/
def assortedStore : Store := ⟨#[
  (Node.ofKind .str).withAttr "min_length" (.ofNat 1),
  { tag := "custom", attrs := .ofList [("items_schema", .list []), ("ref", .null)] },
  Node.ofKind .toStr,
  ((Node.ofKind .union).withChild "choices"
    (.choices [⟨⟨0⟩, some "text"⟩, ⟨⟨1⟩, none⟩, ⟨⟨0⟩, none⟩])).withSerialization ⟨2⟩,
  .reference "A",
  (((Node.ofKind .taggedUnion).withChild "choices"
    (.keyed (.ofList [("x", ⟨3⟩), ("y", ⟨4⟩)]))).withName "A").withMetadata "mark" .null]⟩

/-- The schema is loaded behind a node that is there; the text that it holds twice becomes two. -/
theorem assortedStore_read :
    (∀ x, assortedStore.Below ⟨5⟩ x →
      ¬ Relation.TransGen assortedStore.IsChild x x ∧
        ∃ node, assortedStore.get? x = some node ∧ node.WellFormed) ∧
    ∃ w again last, assortedStore.render ⟨5⟩ = .ok w ∧
      loadSchema w (⟨#[Node.ofKind .any]⟩, ()) = .ok again last ∧
      Store.Extends ⟨#[Node.ofKind .any]⟩ last.1 ∧ assortedStore.Twin last.1 ⟨5⟩ again ∧
      last.1.Unshared again := by
  have hchild : ∀ index < 6, ∀ child ∈ (assortedStore.childIds ⟨index⟩).toOption.getD [],
      child.index < index := by decide +kernel
  have hacyclic : assortedStore.Acyclic := Store.acyclic_of_forall NodeId.index hchild
  have hnode : ∀ index < 6, ∃ node ∈ assortedStore.get? ⟨index⟩, node.WellFormed := by
    decide +kernel
  have hnodes : ∀ x, assortedStore.Below ⟨5⟩ x →
      ∃ node, assortedStore.get? x = some node ∧ node.WellFormed := by
    intro x hx
    refine hnode x.index ?_
    induction hx with
    | refl => decide
    | tail _ hstep ih =>
      obtain ⟨ids, hids, hmem⟩ := hstep
      have := hchild _ ih _ (by rw [hids]; exact hmem)
      omega
  exact ⟨fun x hx => ⟨hacyclic x, hnodes x hx⟩, load_render (fun x _ => hacyclic x) hnodes _⟩

end Wire

end SchemaGraph
