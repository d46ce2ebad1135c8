import SchemaGraph.Proofs.Flatten.Separation
import SchemaGraph.Proofs.Gather.Placed

/-!
Flattening shares nothing. In a loaded document each node has one place; the nodes of the flat schema
come from nodes of the document, covered ones from different ones, and so have one place each too.

* `Document.Forest.eq_of_held` — entries that plain nodes hold and that dissolve to the same schema are
  the same;
* `Flattened.eq_of_origin` — **covered nodes that come from the same node are the same**;
* `Flattened.separate` — **the flat scope is separate**.
-/

namespace SchemaGraph

variable {d : Document} {t : Stage} {root x y : NodeId} {name : String}

/-! ### Where nodes come from -/

section Origins

variable {s : Store} {origin : NodeId → Option Origin} {id other : NodeId}

theorem Store.Image.congr (h : s.Image origin id x) (ho : origin y = origin x) :
    s.Image origin id y := by
  obtain ⟨core, node, hcore, hnode, himage⟩ := h
  exact ⟨core, node, hcore, hnode, by rwa [ho]⟩

/-- What has the same image dissolves to the same schema. -/
theorem Store.Image.common (h : s.Image origin id x) (h' : s.Image origin other x) :
    ∃ core, Relation.ReflTransGen s.Inner id core ∧ Relation.ReflTransGen s.Inner other core := by
  obtain ⟨core, _, hcore, -, himage⟩ := h
  obtain ⟨core', _, hcore', -, himage'⟩ := h'
  obtain rfl : core = core' := by
    rcases himage with ⟨-, ho⟩ | ⟨-, ho⟩ <;> rcases himage' with ⟨-, ho'⟩ | ⟨-, ho'⟩ <;>
      cases ho.symm.trans ho' <;> rfl
  exact ⟨core, hcore.path, hcore'.path⟩

end Origins

theorem Document.Hoisted.congr (h : d.Hoisted t name x) (ho : t.origin y = t.origin x) :
    d.Hoisted t name y := by
  rcases h with ⟨id, hid, hbears, hx, hbelow⟩ | ⟨body, hbody, ⟨node, hnode, himage⟩, hbelow⟩
  · exact .inl ⟨id, hid, hbears, ho.trans hx, hbelow⟩
  · refine .inr ⟨body, hbody, ⟨node, hnode, ?_⟩, hbelow⟩
    split at himage
    · rename_i hkind
      rw [if_pos hkind]
      exact himage.congr ho
    · rename_i hkind
      rw [if_neg hkind]
      exact ho.trans himage

/-- The child at a position is the image of the child there of the node that the parent is a copy
of. -/
theorem Flat.childAt (h : Flat d t) {o : Origin} (ho : t.origin x = some o) {position : Nat}
    {child : NodeId} (hchild : t.store.ChildAt x position child) :
    ∃ id base held, t.origin x = some (.copy id) ∧ d.store.get? id = some base ∧
      base.kind? ≠ some .definitions ∧ d.store.ChildAt id position held ∧
      d.store.Image t.origin held child := by
  obtain ⟨ids, hids, hat⟩ := hchild
  cases o with
  | copy id =>
    obtain ⟨base, node, kind, hbase, hnode, hkind, hne, hfits, halike⟩ := h.copy ho
    obtain ⟨kind', hkind', -, rfl⟩ := Store.childIds_parts hids hnode
    obtain rfl : kind = kind' := Option.some.inj (hkind.symm.trans (halike.kind?_eq ▸ hkind'))
    have himages := halike.orderedChildren kind
    obtain ⟨hlt, rfl⟩ := List.getElem?_eq_some_iff.1 hat
    have hlt' := himages.length_eq.symm ▸ hlt
    refine ⟨id, base, (base.orderedChildren kind)[position], ho, hbase, by simpa [hkind] using hne,
      ⟨_, Store.childIds_eq_ok.2 ⟨base, kind, hbase, hkind, hfits, rfl⟩, ?_⟩, himages.get hlt' hlt⟩
    exact List.getElem?_eq_getElem hlt'
  | mention id =>
    obtain ⟨name, -, -, hnode⟩ := h.mention ho
    obtain ⟨kind, -, hfits, rfl⟩ := Store.childIds_parts hids hnode
    cases (Node.mem_orderedChildren hfits).1 (List.mem_of_getElem? hat)

/-! ### Entries of the document -/

namespace Document.Forest

variable {id other parent parent' : NodeId} {node node' : Node}

theorem entry_of_held (hnode : d.store.get? parent = some node)
    (hplain : node.kind? ≠ some .definitions) (hheld : d.store.Holds parent id) : d.Entry id := by
  obtain ⟨_, hsame, hmem⟩ := hheld
  cases hnode.symm.trans hsame
  exact .inr ⟨parent, node, hnode, hplain, hmem⟩

/-- Entries that plain nodes hold and that dissolve to the same schema are the same. -/
theorem eq_of_held (hd : d.Forest) {core : NodeId} (hnode : d.store.get? parent = some node)
    (hplain : node.kind? ≠ some .definitions) (hheld : d.store.Holds parent id)
    (hnode' : d.store.get? parent' = some node') (hplain' : node'.kind? ≠ some .definitions)
    (hheld' : d.store.Holds parent' other) (h : Relation.ReflTransGen d.store.Inner id core)
    (h' : Relation.ReflTransGen d.store.Inner other core) : id = other ∧ parent = parent' := by
  -- the last step to a held entry would make its parent a `definitions` node
  have hend : ∀ {start last holder : NodeId} {held : Node}, d.store.get? holder = some held →
      held.kind? ≠ some .definitions → d.store.Holds holder last →
      Relation.ReflTransGen d.store.Inner start last → start = last := by
    intro start last holder held hget hkind hlast hpath
    rcases Relation.ReflTransGen.cases_tail hpath with rfl | ⟨mid, -, hinner⟩
    · rfl
    · cases hd.parent_unique mid holder last hinner.holds hlast
      obtain ⟨_, hsame, hdefinitions, -⟩ := hinner
      cases hget.symm.trans hsame
      exact absurd hdefinitions hkind
  obtain rfl : id = other := by
    rcases hd.inner_total h h' with h | h
    · exact hend hnode' hplain' hheld' h
    · exact (hend hnode hplain hheld h).symm
  exact ⟨rfl, hd.parent_unique parent parent' id hheld hheld'⟩

end Document.Forest

/-! ### The flat scope -/

namespace Flattened

variable (h : Flattened d t root) (hd : d.Forest) (hnameless : d.NamelessDefinitions)
  (hnodup : ∀ id node, d.store.get? id = some node → node.storedIds.Nodup)

include h hd

theorem origin_ne_root {o : Origin} {position : Nat} {child : NodeId} (ho : t.origin x = some o)
    (hchild : t.store.ChildAt x position child) : t.origin child ≠ t.origin root := by
  intro hsame
  obtain ⟨id, base, held, -, hbase, hplain, hheld, himage⟩ := h.flat.childAt ho hchild
  obtain ⟨core, hroot, hcore⟩ := (h.image.congr hsame).common himage
  have hholds := hheld.isChild.holds
  have hentry := Document.Forest.entry_of_held hbase hplain hholds
  cases hd.eq_of_entry hentry hd.root_not_held hroot hcore
  exact hd.root_not_held id hholds

include hnameless in
theorem origin_ne_body {body id : NodeId} (hbody : t.flat.definitions.get? name = some body)
    (hid : d.Entry id) (himage : d.store.Image t.origin id x) : t.origin x ≠ t.origin body :=
  fun hsame => h.not_image_of_entry hd hnameless hbody hid (himage.congr hsame.symm)

include hnodup in
/-- Children that come from the same node are at the same position of nodes that do. -/
theorem origin_of_childAt {o o' : Origin} {i j : Nat} {child child' : NodeId}
    (ho : t.origin x = some o) (ho' : t.origin y = some o') (hchild : t.store.ChildAt x i child)
    (hchild' : t.store.ChildAt y j child') (hsame : t.origin child' = t.origin child) :
    t.origin y = t.origin x ∧ i = j := by
  obtain ⟨id, base, held, hcopy, hbase, hplain, hheld, himage⟩ := h.flat.childAt ho hchild
  obtain ⟨id', base', held', hcopy', hbase', hplain', hheld', himage'⟩ := h.flat.childAt ho' hchild'
  obtain ⟨core, hpath, hpath'⟩ := himage.common (himage'.congr hsame.symm)
  obtain ⟨rfl, rfl⟩ := hd.eq_of_held hbase hplain hheld.isChild.holds hbase' hplain'
    hheld'.isChild.holds hpath hpath'
  refine ⟨hcopy'.trans hcopy.symm, ?_⟩
  obtain ⟨ids, hids, hat⟩ := hheld
  obtain ⟨_, hids', hat'⟩ := hheld'
  cases hids.symm.trans hids'
  obtain ⟨kind, -, -, rfl⟩ := Store.childIds_parts hids hbase
  obtain ⟨hlt, -⟩ := List.getElem?_eq_some_iff.1 hat
  exact (List.getElem?_inj hlt (Node.nodup_orderedChildren kind (hnodup id base hbase))).1
    (hat.trans hat'.symm)

include hnameless hnodup

/-- **Covered nodes that come from the same node are the same.** By induction on how the first is
covered: a root, a child and the body of a name come from different nodes, and children that come
from the same node are at the same position of parents that do. -/
theorem eq_of_origin (hx : t.scope.Covered root x) :
    ∀ {y}, t.scope.Covered root y → t.origin y = t.origin x → y = x := by
  induction hx with
  | root =>
    intro y hy hsame
    cases hy with
    | root => rfl
    | child hparent hchild =>
      obtain ⟨o, ho⟩ := h.traced_of_covered hparent
      obtain ⟨position, hat⟩ := hchild.childAt
      exact absurd hsame (h.origin_ne_root hd ho hat)
    | body _ _ hbody =>
      exact absurd hsame.symm (h.origin_ne_body hd hnameless hbody (.inl rfl) h.image)
  | @child x child hx hchild ih =>
    intro y hy hsame
    obtain ⟨o, ho⟩ := h.traced_of_covered hx
    obtain ⟨position, hat⟩ := hchild.childAt
    cases hy with
    | root => exact absurd hsame.symm (h.origin_ne_root hd ho hat)
    | @child y _ hy hchild' =>
      obtain ⟨o', ho'⟩ := h.traced_of_covered hy
      obtain ⟨position', hat'⟩ := hchild'.childAt
      obtain ⟨hparents, rfl⟩ := h.origin_of_childAt hd hnodup ho ho' hat hat' hsame
      cases ih hy hparents
      obtain ⟨ids, hids, hat⟩ := hat
      obtain ⟨_, hids', hat'⟩ := hat'
      cases hids.symm.trans hids'
      exact Option.some.inj (hat'.symm.trans hat)
    | body _ _ hbody =>
      obtain ⟨id, hid, himage⟩ := h.flat.entry_of_holds ho hchild.holds
      exact absurd hsame.symm (h.origin_ne_body hd hnameless hbody hid himage)
  | body _ _ hbody =>
    intro y hy hsame
    cases hy with
    | root => exact absurd hsame (h.origin_ne_body hd hnameless hbody (.inl rfl) h.image)
    | child hy hchild =>
      obtain ⟨o, ho⟩ := h.traced_of_covered hy
      obtain ⟨id, hid, himage⟩ := h.flat.entry_of_holds ho hchild.holds
      exact absurd hsame (h.origin_ne_body hd hnameless hbody hid himage)
    | body _ _ hbody' =>
      cases (h.hoisted hbody').injective hd hnameless ((h.hoisted hbody).congr hsame)
      exact Option.some.inj (hbody'.symm.trans hbody)

/-- **The flat scope is separate.** -/
theorem separate : t.scope.Separate root := by
  constructor
  case child =>
    intro x y child i j hx hy hi hj
    obtain ⟨o, ho⟩ := h.traced_of_covered hx
    obtain ⟨o', ho'⟩ := h.traced_of_covered hy
    obtain ⟨hparents, hpositions⟩ := h.origin_of_childAt hd hnodup ho ho' hi hj rfl
    exact ⟨(h.eq_of_origin hd hnameless hnodup hx hy hparents).symm, hpositions⟩
  case not_held =>
    intro x hx hchild
    obtain ⟨o, ho⟩ := h.traced_of_covered hx
    obtain ⟨position, hat⟩ := hchild.childAt
    exact h.origin_ne_root hd ho hat rfl
  case body =>
    intro x name body hx hbody hchild
    obtain ⟨o, ho⟩ := h.traced_of_covered hx
    obtain ⟨id, hid, himage⟩ := h.flat.entry_of_holds ho hchild.holds
    exact h.not_image_of_entry hd hnameless hbody hid himage
  case body_ne =>
    rintro name _ hbody rfl
    exact h.not_image_of_entry hd hnameless hbody (.inl rfl) h.image
  case injective => exact fun name other body => h.body_injective hd hnameless

end Flattened

end SchemaGraph
