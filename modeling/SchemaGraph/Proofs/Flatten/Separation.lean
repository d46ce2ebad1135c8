import SchemaGraph.Proofs.Flatten.Walk
import SchemaGraph.Proofs.Gather.Coverage
import SchemaGraph.Proofs.Grounded

/-!
What flattening a document leaves. All nodes that a walk over the flat schema covers are flat: copies
of nodes that are no `definitions` nodes, or occurrences. And the trees are apart: when no
`definitions` node bears a name, the flat body of a name is no node of the schema's tree nor of the
tree of another body (`Flattened.eq_of_below_body`, `Flattened.not_below_root`).
-/

namespace SchemaGraph

theorem Store.forall_get?_iff {s : Store} {P : Node → Prop} :
    (∀ id node, s.get? id = some node → P node) ↔ ∀ node ∈ s.nodes.toList, P node := by
  constructor
  · intro h node hnode
    obtain ⟨i, hi, rfl⟩ := List.mem_iff_getElem.1 hnode
    exact h ⟨i⟩ _ (Array.getElem?_eq_getElem hi)
  · intro h id node hnode
    exact h node (Array.mem_toList_iff.2 (Array.mem_of_getElem? hnode))

def Document.NamelessDefinitions (d : Document) : Prop :=
  ∀ id node, d.store.get? id = some node → node.kind? = some .definitions → node.name = none

theorem Document.namelessDefinitions_iff {d : Document} : d.NamelessDefinitions ↔
    ∀ node ∈ d.store.nodes.toList, node.kind? = some .definitions → node.name = none :=
  Store.forall_get?_iff

instance (d : Document) : Decidable d.NamelessDefinitions :=
  decidable_of_iff _ Document.namelessDefinitions_iff.symm

variable {d : Document} {t : Stage} {root : NodeId}

/-! ### Flat nodes -/

/-- `id` is where a tree of flat nodes is entered: the root, or a child of a node that is no
`definitions` node. -/
def Document.Entry (d : Document) (id : NodeId) : Prop :=
  id = d.root ∨ ∃ parent node, d.store.get? parent = some node ∧ node.kind? ≠ some .definitions ∧
    id ∈ node.storedIds

/-- A child of a flat node is the image of a child of the node that it is a copy of. -/
theorem Flat.entry_of_holds (h : Flat d t) {x y : NodeId} {o : Origin} (ho : t.origin x = some o)
    (hxy : t.store.Holds x y) : ∃ id, d.Entry id ∧ d.store.Image t.origin id y := by
  obtain ⟨node, hnode, hy⟩ := hxy
  cases o with
  | copy id =>
    obtain ⟨base, node', kind, hbase, hnode', hkind, hne, -, halike⟩ := h.copy ho
    rw [hnode] at hnode'
    cases hnode'
    obtain ⟨child, hchild, himage⟩ := halike.exists_storedId hy
    exact ⟨child, .inr ⟨id, base, hbase, by rw [hkind]; simpa using hne, hchild⟩, himage⟩
  | mention id =>
    obtain ⟨name, -, -, hnode'⟩ := h.mention ho
    rw [hnode] at hnode'
    cases hnode'
    cases hy

theorem Store.Image.traced {s : Store} {origin : NodeId → Option Origin} {id x : NodeId}
    (h : s.Image origin id x) : ∃ o, origin x = some o := by
  obtain ⟨core, node, -, -, ⟨-, ho⟩ | ⟨-, ho⟩⟩ := h
  · exact ⟨_, ho⟩
  · exact ⟨_, ho⟩

/-- What lies below a flat node is the node itself or comes from an entry. -/
theorem Flat.entry_of_below (h : Flat d t) {x y : NodeId} {o : Origin} (ho : t.origin x = some o)
    (hxy : t.store.Below x y) : y = x ∨ ∃ id, d.Entry id ∧ d.store.Image t.origin id y := by
  induction hxy with
  | refl => exact .inl rfl
  | tail _ hchild ih =>
    right
    rcases ih with rfl | ⟨id, -, himage⟩
    · exact h.entry_of_holds ho hchild.holds
    · obtain ⟨o', ho'⟩ := himage.traced
      exact h.entry_of_holds ho' hchild.holds

theorem Flattened.hoisted (h : Flattened d t root) {name : String} {x : NodeId}
    (hx : t.flat.definitions.get? name = some x) : d.Hoisted t name x := by
  have hname : name ∈ t.flat.hoisted := by
    by_contra hname
    exact hname (h.settled name x (h.flat.given name x hname hx))
  obtain ⟨y, hy, hhoisted⟩ := h.flat.hoisted name hname
  rw [hx] at hy
  cases hy
  exact hhoisted

theorem Document.Hoisted.traced {name : String} {x : NodeId} (h : d.Hoisted t name x) :
    ∃ o, t.origin x = some o := by
  rcases h with ⟨id, -, -, ho, -⟩ | ⟨body, -, ⟨node, -, himage⟩, -⟩
  · exact ⟨_, ho⟩
  · split at himage
    · exact himage.traced
    · exact ⟨_, himage⟩

/-- The scope in which the reference graph of the flat schema is gathered. -/
def Stage.scope (t : Stage) : Scope := { store := t.store, definitions := t.flat.definitions }

theorem Flattened.traced_of_covered (h : Flattened d t root) {x : NodeId}
    (hx : t.scope.Covered root x) : ∃ o, t.origin x = some o := by
  induction hx with
  | root => exact h.image.traced
  | child _ hchild ih =>
    obtain ⟨o, ho⟩ := ih
    obtain ⟨id, -, himage⟩ := h.flat.entry_of_holds ho hchild.holds
    exact himage.traced
  | body _ _ hbody _ => exact (h.hoisted hbody).traced

theorem Flat.plain_of_traced (h : Flat d t) {x : NodeId} {o : Origin} (ho : t.origin x = some o) :
    ∃ node, t.store.get? x = some node ∧ node.kind? ≠ some .definitions := by
  cases o with
  | copy id =>
    obtain ⟨base, node, kind, -, hnode, hkind, hne, -, halike⟩ := h.copy ho
    exact ⟨node, hnode, by rw [halike.kind?_eq, hkind]; simpa using hne⟩
  | mention id =>
    obtain ⟨name, -, -, hnode⟩ := h.mention ho
    have href : (Node.reference name).isReference = true := rfl
    exact ⟨_, hnode, by simp [Node.kind?_of_isReference href]⟩

theorem Flattened.plain_of_covered (h : Flattened d t root) {x : NodeId}
    (hx : t.scope.Covered root x) :
    ∃ node, t.scope.store.get? x = some node ∧ node.kind? ≠ some .definitions := by
  obtain ⟨o, ho⟩ := h.traced_of_covered hx
  exact h.flat.plain_of_traced ho

/-! ### Trees of their own -/

/-- `inner` is the inner schema of the `definitions` node at `id`. -/
def Store.Inner (s : Store) (id inner : NodeId) : Prop :=
  ∃ node, s.get? id = some node ∧ node.kind? = some .definitions ∧ node.innerSchema? = some inner

theorem Store.Inner.holds {s : Store} {id inner : NodeId} (h : s.Inner id inner) :
    s.Holds id inner := by
  obtain ⟨node, hnode, -, hinner⟩ := h
  exact ⟨node, hnode, Node.mem_storedIds_of_innerSchema? hinner⟩

theorem Store.Dissolves.path {s : Store} {id core : NodeId} (h : s.Dissolves id core) :
    Relation.ReflTransGen s.Inner id core := by
  induction h with
  | core => exact .refl
  | inner hnode hkind hinner _ ih => exact .head ⟨_, hnode, hkind, hinner⟩ ih

/-- A node that no other holds is reached from itself only. -/
theorem eq_of_inner_path {s : Store} {id top : NodeId} (h : Relation.ReflTransGen s.Inner id top)
    (htop : ∀ parent, ¬ s.Holds parent top) : id = top := by
  rcases Relation.ReflTransGen.cases_tail h with rfl | ⟨parent, -, hinner⟩
  · rfl
  · exact absurd hinner.holds (htop parent)

namespace Document.Forest

/-- Of two nodes that dissolve to the same schema one leads to the other. -/
theorem inner_total (hd : d.Forest) {id other core : NodeId}
    (h : Relation.ReflTransGen d.store.Inner id core)
    (h' : Relation.ReflTransGen d.store.Inner other core) :
    Relation.ReflTransGen d.store.Inner id other ∨ Relation.ReflTransGen d.store.Inner other id := by
  have hunique : Relator.RightUnique (Function.swap d.store.Inner) :=
    fun _ _ _ h h' => hd.parent_unique _ _ _ h.holds h'.holds
  rcases Relation.ReflTransGen.total_of_right_unique hunique
    (Relation.reflTransGen_swap.2 h) (Relation.reflTransGen_swap.2 h') with h | h
  · exact .inr (Relation.reflTransGen_swap.1 h)
  · exact .inl (Relation.reflTransGen_swap.1 h)

/-- A node that no other holds and an entry below it are the same or do not dissolve to the same
schema. -/
theorem eq_of_entry (hd : d.Forest) {top id core : NodeId} (hid : d.Entry id)
    (htop : ∀ parent, ¬ d.store.Holds parent top)
    (h : Relation.ReflTransGen d.store.Inner top core)
    (h' : Relation.ReflTransGen d.store.Inner id core) : id = top := by
  rcases hd.inner_total h h' with h | h
  · rcases Relation.ReflTransGen.cases_tail h with rfl | ⟨parent, -, hinner⟩
    · rfl
    · rcases hid with rfl | ⟨other, node, hnode, hkind, hheld⟩
      · exact absurd hinner.holds (hd.root_not_held parent)
      · -- the entry's only parent is no `definitions` node
        have hparent := hd.parent_unique parent other id hinner.holds ⟨node, hnode, hheld⟩
        subst hparent
        obtain ⟨node', hnode', hkind', -⟩ := hinner
        rw [hnode] at hnode'
        cases hnode'
        exact absurd hkind' hkind
  · exact eq_of_inner_path h htop

end Document.Forest

/-- Where the flat body of a name comes from when no `definitions` node bears a name: from a node of
that name, or from a given definition that stands beside the schema. -/
theorem Document.Hoisted.source (hd : d.Forest) (hnameless : d.NamelessDefinitions) {name : String}
    {x : NodeId} (h : d.Hoisted t name x) :
    (∃ id, d.store.Bears id name ∧ t.origin x = some (.copy id) ∧
        (d.Apart → id = d.root ∨ ∃ parent, d.store.Holds parent id)) ∨
      d.Apart ∧ ∃ body core, d.definitions.get? name = some body ∧
        Relation.ReflTransGen d.store.Inner body core ∧
        (t.origin x = some (.copy core) ∧
            (core = body ∨ ∃ node, d.store.get? core = some node ∧ node.name = none) ∨
          t.origin x = some (.mention core)) := by
  rcases h with ⟨id, hid, hbears, ho, -⟩ | ⟨body, hbody, ⟨node, hnode, himage⟩, -⟩
  · refine .inl ⟨id, hbears, ho, fun _ => ?_⟩
    rcases hid.place with hroot | hheld | ⟨node, hnode, hkind⟩
    · exact .inl hroot
    · exact .inr hheld
    · obtain ⟨node', hnode', hplain, -⟩ := hbears
      rw [hnode] at hnode'
      cases hnode'
      exact absurd hkind hplain
  · rcases hd.definitions with hbearing | hapart
    · obtain ⟨node', hnode', hname⟩ := hbearing name body hbody
      rw [hnode] at hnode'
      cases hnode'
      have hkind : node.kind? ≠ some .definitions := by
        intro hkind
        rw [hnameless body node hnode hkind] at hname
        cases hname
      rw [if_neg hkind] at himage
      by_cases hapart : d.Apart
      · exact .inr ⟨hapart, body, body, hbody, .refl, .inl ⟨himage, .inl rfl⟩⟩
      · exact .inl ⟨body, ⟨node, hnode, hkind, hname⟩, himage, fun h => absurd h hapart⟩
    · refine .inr ⟨hapart, body, ?_⟩
      split at himage
      · obtain ⟨core, base, hcore, hbase, ⟨hname, ho⟩ | ⟨-, ho⟩⟩ := himage
        · exact ⟨core, hbody, hcore.path, .inl ⟨ho, .inr ⟨base, hbase, hname⟩⟩⟩
        · exact ⟨core, hbody, hcore.path, .inr ho⟩
      · exact ⟨body, hbody, .refl, .inl ⟨himage, .inl rfl⟩⟩

theorem Document.Hoisted.injective (hd : d.Forest) (hnameless : d.NamelessDefinitions)
    {name other : String} {x : NodeId} (hx : d.Hoisted t name x) (hx' : d.Hoisted t other x) :
    name = other := by
  -- a named node inside the schema is no given definition beside it
  have hmixed : ∀ {name id body core : _} {other : String}, d.Apart →
      (d.Apart → id = d.root ∨ ∃ parent, d.store.Holds parent id) → d.store.Bears id name →
      t.origin x = some (.copy id) → d.definitions.get? other = some body →
      (t.origin x = some (.copy core) ∧
          (core = body ∨ ∃ node, d.store.get? core = some node ∧ node.name = none) ∨
        t.origin x = some (.mention core)) → False := by
    rintro name id body core other hapart hplace ⟨node, hnode, -, hname⟩ ho hbody hsource
    rw [ho] at hsource
    rcases hsource with ⟨e, hcore⟩ | e
    · cases e
      rcases hcore with rfl | ⟨node', hnode', hname'⟩
      · rcases hplace hapart with hroot | ⟨parent, hparent⟩
        · exact hapart.ne_root other id hbody hroot
        · exact hapart.not_held other id hbody parent hparent
      · rw [hnode] at hnode'
        cases hnode'
        rw [hname] at hname'
        cases hname'
    · cases e
  rcases hx.source hd hnameless with ⟨id, hbears, ho, hplace⟩ |
      ⟨hapart, body, core, hbody, hpath, hsource⟩ <;>
    rcases hx'.source hd hnameless with ⟨id', hbears', ho', hplace'⟩ |
      ⟨hapart', body', core', hbody', hpath', hsource'⟩
  · rw [ho] at ho'
    cases ho'
    exact hbears.unique hbears'
  · exact (hmixed hapart' hplace hbears ho hbody' hsource').elim
  · exact (hmixed hapart hplace' hbears' ho' hbody hsource).elim
  · have he : core' = core := by
      rcases hsource with ⟨ho, -⟩ | ho <;> rw [ho] at hsource' <;>
        rcases hsource' with ⟨e, -⟩ | e <;> cases e <;> rfl
    subst he
    have hbody_eq : body = body' := by
      rcases hd.inner_total hpath hpath' with h | h
      · exact eq_of_inner_path h (hapart.not_held other body' hbody')
      · exact (eq_of_inner_path h (hapart.not_held name body hbody)).symm
    subst hbody_eq
    exact hapart.injective name other body hbody hbody'

namespace Flattened

/-- The flat body of a name is no image of an entry. -/
theorem not_image_of_entry (h : Flattened d t root) (hd : d.Forest)
    (hnameless : d.NamelessDefinitions) {name : String} {x id : NodeId}
    (hx : t.flat.definitions.get? name = some x) (hid : d.Entry id) :
    ¬ d.store.Image t.origin id x := by
  rintro ⟨core, node, hcore, hnode, himage⟩
  rcases (h.hoisted hx).source hd hnameless with ⟨named, ⟨base, hbase, -, hname⟩, ho, -⟩ |
    ⟨hapart, body, core', hbody, hpath, ho⟩
  · rw [ho] at himage
    rcases himage with ⟨hnone, e⟩ | ⟨-, e⟩
    · cases e
      rw [hbase] at hnode
      cases hnode
      rw [hname] at hnone
      cases hnone
    · cases e
  · have he : core' = core := by
      rcases ho with ⟨ho, -⟩ | ho <;> rw [ho] at himage <;>
        rcases himage with ⟨-, e⟩ | ⟨-, e⟩ <;> cases e <;> rfl
    subst he
    have hbody_eq := hd.eq_of_entry hid (hapart.not_held name body hbody) hpath hcore.path
    subst hbody_eq
    rcases hid with hroot | ⟨parent, node', hnode', -, hheld⟩
    · exact hapart.ne_root name id hbody hroot
    · exact hapart.not_held name id hbody parent ⟨node', hnode', hheld⟩

theorem body_injective (h : Flattened d t root) (hd : d.Forest) (hnameless : d.NamelessDefinitions)
    {name other : String} {x : NodeId} (hx : t.flat.definitions.get? name = some x)
    (hx' : t.flat.definitions.get? other = some x) : name = other :=
  (h.hoisted hx).injective hd hnameless (h.hoisted hx')

/-- **The flat body of a name is not in the tree of the schema.** -/
theorem not_below_root (h : Flattened d t root) (hd : d.Forest) (hnameless : d.NamelessDefinitions)
    {name : String} {x : NodeId} (hx : t.flat.definitions.get? name = some x) :
    ¬ t.store.Below root x := by
  intro hbelow
  obtain ⟨o, ho⟩ := h.image.traced
  rcases h.flat.entry_of_below ho hbelow with rfl | ⟨id, hid, himage⟩
  · exact h.not_image_of_entry hd hnameless hx (.inl rfl) h.image
  · exact h.not_image_of_entry hd hnameless hx hid himage

/-- **The flat body of a name is in no other body's tree.** -/
theorem eq_of_below_body (h : Flattened d t root) (hd : d.Forest)
    (hnameless : d.NamelessDefinitions) {name other : String} {x body : NodeId}
    (hx : t.flat.definitions.get? name = some x) (hbody : t.flat.definitions.get? other = some body)
    (hbelow : t.store.Below body x) : other = name := by
  obtain ⟨o, ho⟩ := (h.hoisted hbody).traced
  rcases h.flat.entry_of_below ho hbelow with rfl | ⟨id, hid, himage⟩
  · exact h.body_injective hd hnameless hbody hx
  · exact absurd himage (h.not_image_of_entry hd hnameless hx hid)

end Flattened

end SchemaGraph
