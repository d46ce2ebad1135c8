import SchemaGraph.Proofs.Trees
import SchemaGraph.Document

/-!
What a loaded document looks like: a forest. Every id that a node holds is the id of an earlier node,
no node is held by two others, and the schema and the given definitions are held by none.

* `Planted` — the nodes that were added from some point on are trees with the given roots;
* `Wire.load_plants` — loading a schema plants one tree;
* `Document.LoadedFrom` — the two ways in which a document is loaded;
* `Document.forest_of_ofJson` — what this says of a whole document.
-/

namespace SchemaGraph

/-- The node at `id` holds `child`, in a child location or as its serialization. -/
def Store.Holds (s : Store) (id child : NodeId) : Prop :=
  ∃ node, s.get? id = some node ∧ child ∈ node.storedIds

variable {s s' : Store} {lo : Nat} {roots more : List NodeId} {node : Node}

theorem Store.Extends.holds_iff (h : s.Extends s') {id child : NodeId} (hid : id.index < s.size) :
    s'.Holds id child ↔ s.Holds id child := by
  rw [Store.Holds, Store.Holds, h.get?_eq id hid]

theorem Store.Holds.lt_size {id child : NodeId} (h : s.Holds id child) : id.index < s.size := by
  obtain ⟨node, hnode, -⟩ := h
  exact Store.lt_size_of_get? hnode

/-! ### Forests -/

/-- The nodes from `lo` on are trees; `roots` are roots of different trees. -/
structure Planted (lo : Nat) (s : Store) (roots : List NodeId) : Prop where
  inside : ∀ id child, lo ≤ id.index → s.Holds id child → lo ≤ child.index ∧ child.index < id.index
  parent_unique : ∀ id other child, lo ≤ id.index → lo ≤ other.index → s.Holds id child →
    s.Holds other child → id = other
  bounds : ∀ root ∈ roots, lo ≤ root.index ∧ root.index < s.size
  not_held : ∀ root ∈ roots, ∀ id, lo ≤ id.index → ¬ s.Holds id root
  nodup : roots.Nodup

theorem planted_nil (s : Store) : Planted s.size s [] := by
  have hnone : ∀ id child, s.size ≤ id.index → ¬ s.Holds id child :=
    fun _ _ hid h => absurd h.lt_size (Nat.not_lt.2 hid)
  constructor
  · exact fun id child hid h => absurd h (hnone id child hid)
  · exact fun id _ child hid _ h => absurd h (hnone id child hid)
  · simp
  · simp
  · simp

theorem Planted.append (h : Planted lo s roots) (hext : s.Extends s')
    (h' : Planted s.size s' more) (hlo : lo ≤ s.size) : Planted lo s' (roots ++ more) := by
  -- an old node holds only old ones, a new node only new ones
  have hold : ∀ id child, lo ≤ id.index → id.index < s.size → s'.Holds id child →
      s.Holds id child ∧ lo ≤ child.index ∧ child.index < s.size ∧ child.index < id.index := by
    intro id child hid hlt hholds
    have hholds := (hext.holds_iff hlt).1 hholds
    have := h.inside id child hid hholds
    exact ⟨hholds, by omega⟩
  have hnew : ∀ id child, s.size ≤ id.index → s'.Holds id child →
      s.size ≤ child.index ∧ child.index < id.index := h'.inside
  constructor
  · intro id child hid hholds
    rcases Nat.lt_or_ge id.index s.size with hlt | hge
    · have := hold id child hid hlt hholds
      omega
    · have := hnew id child hge hholds
      omega
  · intro id other child hid hother hholds hholds'
    rcases Nat.lt_or_ge id.index s.size with hlt | hge <;>
      rcases Nat.lt_or_ge other.index s.size with hlt' | hge'
    · exact h.parent_unique id other child hid hother (hold id child hid hlt hholds).1
        (hold other child hother hlt' hholds').1
    · have := hold id child hid hlt hholds
      have := hnew other child hge' hholds'
      omega
    · have := hnew id child hge hholds
      have := hold other child hother hlt' hholds'
      omega
    · exact h'.parent_unique id other child hge hge' hholds hholds'
  · intro root hroot
    have := hext.size_le
    rcases List.mem_append.1 hroot with hroot | hroot
    · have := h.bounds root hroot
      omega
    · have := h'.bounds root hroot
      omega
  · intro root hroot id hid hholds
    rcases List.mem_append.1 hroot with hroot | hroot <;>
      rcases Nat.lt_or_ge id.index s.size with hlt | hge
    · exact h.not_held root hroot id hid (hold id root hid hlt hholds).1
    · have := h.bounds root hroot
      have := hnew id root hge hholds
      omega
    · have := h'.bounds root hroot
      have := hold id root hid hlt hholds
      omega
    · exact h'.not_held root hroot id hge hholds
  · refine List.nodup_append.2 ⟨h.nodup, h'.nodup, fun a ha b hb e => ?_⟩
    have := h.bounds a ha
    have := h'.bounds b hb
    subst e
    omega

/-- A node over some of the roots makes one tree of them. -/
theorem Planted.insert (h : Planted lo s roots) (hlo : lo ≤ s.size)
    (hnode : ∀ id ∈ node.storedIds, id ∈ roots) : Planted lo (s.insert node) [s.nextId] := by
  have hcases : ∀ id child, (s.insert node).Holds id child →
      s.Holds id child ∨ id = s.nextId ∧ child ∈ roots := by
    rintro id child hholds
    rcases Nat.lt_or_ge id.index s.size with hlt | hge
    · exact .inl (((Store.extends_insert s node).holds_iff hlt).1 hholds)
    · obtain rfl := Store.eq_nextId hge hholds.lt_size
      obtain ⟨node', hnode', hchild⟩ := hholds
      rw [Store.get?_insert_nextId] at hnode'
      cases hnode'
      exact .inr ⟨rfl, hnode child hchild⟩
  have hnext : s.nextId.index = s.size := rfl
  constructor
  · intro id child hid hholds
    rcases hcases id child hholds with hholds | ⟨rfl, hroot⟩
    · exact h.inside id child hid hholds
    · rw [hnext]
      exact h.bounds child hroot
  · intro id other child hid hother hholds hholds'
    rcases hcases id child hholds with hholds | ⟨rfl, hroot⟩ <;>
      rcases hcases other child hholds' with hholds' | ⟨rfl, hroot'⟩
    · exact h.parent_unique id other child hid hother hholds hholds'
    · exact absurd hholds (h.not_held child hroot' id hid)
    · exact absurd hholds' (h.not_held child hroot other hother)
    · rfl
  · intro root hroot
    rw [List.mem_singleton.1 hroot, hnext, Store.size_insert]
    omega
  · intro root hroot id hid hholds
    rw [List.mem_singleton.1 hroot] at hholds
    rcases hcases id _ hholds with hholds | ⟨rfl, hroot⟩
    · have := (h.inside id _ hid hholds).2
      have := hholds.lt_size
      omega
    · have := (h.bounds _ hroot).2
      omega
  · simp

/-- From `s` to `s'` nodes were added that are trees; `roots` are roots of different trees. -/
structure Plants (s s' : Store) (roots : List NodeId) : Prop where
  extends_ : s.Extends s'
  planted : Planted s.size s' roots

theorem Plants.refl (s : Store) : Plants s s [] := ⟨.refl s, planted_nil s⟩

theorem Plants.trans {s'' : Store} (h : Plants s s' roots) (h' : Plants s' s'' more) :
    Plants s s'' (roots ++ more) :=
  ⟨h.extends_.trans h'.extends_, h.planted.append h'.extends_ h'.planted h.extends_.size_le⟩

theorem Plants.insert (h : Plants s s' roots) (hnode : ∀ id ∈ node.storedIds, id ∈ roots) :
    Plants s (s'.insert node) [s'.nextId] :=
  ⟨h.extends_.trans (Store.extends_insert _ _), h.planted.insert h.extends_.size_le hnode⟩

/-! ### Loading -/

namespace Wire

/-- The names of `m` stand for different ones of the roots. -/
structure Places (roots : List NodeId) (m : OrderedMap NodeId) : Prop where
  mem : ∀ name id, m.get? name = some id → id ∈ roots
  injective : ∀ name other id, m.get? name = some id → m.get? other = some id → name = other

theorem places_empty (roots : List NodeId) : Places roots .empty :=
  ⟨fun _ _ h => by simp at h, fun _ _ _ h => by simp at h⟩

theorem Places.insert {m : OrderedMap NodeId} (h : Places roots m) {id : NodeId} (key : String)
    (hid : id ∉ roots) : Places (roots ++ [id]) (m.insert key id) where
  mem name x hx := by
    rw [OrderedMap.get?_insert] at hx
    split at hx
    · cases hx
      simp
    · exact List.mem_append_left _ (h.mem name x hx)
  injective name other x hx hx' := by
    rw [OrderedMap.get?_insert] at hx hx'
    split at hx <;> split at hx'
    · rename_i hname hother
      rw [hname, hother]
    · cases hx
      exact absurd (h.mem other _ hx') hid
    · cases hx'
      exact absurd (h.mem name _ hx) hid
    · exact h.injective name other x hx hx'

theorem mem_storedIds_withChild {key : String} {child : Child} {id : NodeId}
    (h : id ∈ (node.withChild key child).storedIds) : id ∈ node.storedIds ∨ id ∈ child.ids := by
  simp only [Node.withChild, Node.storedIds, List.mem_append, List.mem_flatMap, OrderedMap.values,
    List.mem_map, Prod.exists, exists_eq_right] at h ⊢
  rcases h with ⟨held, ⟨name, hentry⟩, hid⟩ | h
  · have hheld := OrderedMap.mem_entries_iff.1 hentry
    rw [OrderedMap.get?_insert] at hheld
    split at hheld
    · cases hheld
      exact .inr hid
    · exact .inl (.inl ⟨held, ⟨name, OrderedMap.mem_entries_iff.2 hheld⟩, hid⟩)
  · exact .inl (.inr h)

theorem mem_storedIds_withSerialization {new id : NodeId}
    (h : id ∈ (node.withSerialization new).storedIds) : id ∈ node.storedIds ∨ id = new := by
  simp only [Node.withSerialization, Node.storedIds, List.mem_append, Option.mem_toList,
    Option.some.injEq] at h ⊢
  rcases h with h | rfl
  · exact .inl (.inl h)
  · exact .inr rfl

theorem storedIds_empty (tag : String) : ({ tag } : Node).storedIds = [] := rfl

variable {σ : Type}

theorem tagOf_eq_ok {st st' : Store × σ} {implied : Option Kind} {path : List Step}
    {fields : List (String × Json)} {tag : String} :
    tagOf implied path fields st = .ok tag st' ↔ st = st' ∧
      (Entries.find? Key.tag fields = some (.text tag) ∨
        Entries.find? Key.tag fields = none ∧ ∃ kind, implied = some kind ∧ tag = kind.tag) := by
  unfold tagOf
  generalize Entries.find? Key.tag fields = found
  rcases found with _ | value
  · cases implied with
    | none => simp [refuse, Pass.throw_ne_ok]
    | some kind => simp [Pass.pure_eq_ok, and_comm, @eq_comm _ tag]
  · cases value with
    | text s => simp [Pass.pure_eq_ok, and_comm]
    | _ => simp [refuse, Pass.throw_ne_ok]

theorem expectText_eq_ok {st st' : Store × σ} {path : List Step} {value : Json} {text : String} :
    expectText path value st = .ok text st' ↔ value = .text text ∧ st = st' := by
  cases value with
  | text s => simp [expectText, Pass.pure_eq_ok]
  | _ => simp [expectText, refuse, Pass.throw_ne_ok]

theorem expectMetadata_state {st st' : Store × σ} {path : List Step} {value : Json}
    {metadata : OrderedMap Json} (h : expectMetadata path value st = .ok metadata st') :
    st' = st := by
  unfold expectMetadata at h
  split at h
  · exact (Pass.pure_eq_ok.1 h).2.symm
  · exact absurd h Pass.throw_ne_ok

mutual

theorem load_plants {st st' : Store × σ} : ∀ (value : Json) {implied : Option Kind}
    {path : List Step} {id : NodeId}, load implied path value st = .ok id st' →
      Plants st.1 st'.1 [id]
  | .object fields, implied, path, id, h => by
    rw [load] at h
    obtain ⟨tag, mid, htag, h⟩ := Pass.bind_eq_ok.1 h
    obtain ⟨node, last, hfields, h⟩ := Pass.bind_eq_ok.1 h
    rw [← (tagOf_eq_ok.1 htag).1] at hfields
    obtain ⟨roots, hplants, hroots⟩ := loadFields_plants _ hfields
    split at h
    · exact absurd h Pass.throw_ne_ok
    · obtain ⟨rfl, rfl⟩ := Pass.insert_eq_ok.1 h
      refine hplants.insert fun id hid => ?_
      rcases hroots id hid with hid | hid
      · rw [storedIds_empty] at hid
        cases hid
      · exact hid
  | .null, _, _, _, h | .bool _, _, _, _, h | .number _, _, _, _, h | .text _, _, _, _, h
  | .list _, _, _, _, h => by
    rw [load] at h
    · exact absurd h Pass.throw_ne_ok
    · intro _ e
      cases e
termination_by value => sizeOf value

theorem loadFields_plants {st st' : Store × σ} : ∀ (fields : List (String × Json))
    {kind : Option Kind} {path : List Step} {node node' : Node},
    loadFields kind path node fields st = .ok node' st' →
      ∃ roots, Plants st.1 st'.1 roots ∧
        ∀ id ∈ node'.storedIds, id ∈ node.storedIds ∨ id ∈ roots
  | [], _, _, _, _, h => by
    rw [loadFields] at h
    obtain ⟨rfl, rfl⟩ := Pass.pure_eq_ok.1 h
    exact ⟨[], .refl _, fun id hid => .inl hid⟩
  | (key, field) :: fields, kind, path, node, node', h => by
    rw [loadFields] at h
    suffices hstep : ∃ next mid roots, loadFields kind path next fields mid = .ok node' st' ∧
        Plants st.1 mid.1 roots ∧ ∀ id ∈ next.storedIds, id ∈ node.storedIds ∨ id ∈ roots by
      obtain ⟨next, mid, roots, hrest, hroots, hids⟩ := hstep
      obtain ⟨more, hmore, hids'⟩ := loadFields_plants _ hrest
      refine ⟨roots ++ more, hroots.trans hmore, fun id hid => ?_⟩
      rcases hids' id hid with hid | hid
      · exact (hids id hid).imp_right (List.mem_append_left _)
      · exact .inr (List.mem_append_right _ hid)
    have hsame : ∀ id ∈ node.storedIds, id ∈ node.storedIds ∨ id ∈ ([] : List NodeId) :=
      fun id hid => .inl hid
    cases hrole : role kind key with
    | tag =>
      simp only [hrole] at h
      exact ⟨_, _, [], h, .refl _, hsame⟩
    | name =>
      simp only [hrole] at h
      obtain ⟨name, mid, hname, h⟩ := Pass.bind_eq_ok.1 h
      rw [← (expectText_eq_ok.1 hname).2] at h
      exact ⟨_, _, [], h, .refl _, hsame⟩
    | target =>
      simp only [hrole] at h
      obtain ⟨target, mid, htarget, h⟩ := Pass.bind_eq_ok.1 h
      rw [← (expectText_eq_ok.1 htarget).2] at h
      exact ⟨_, _, [], h, .refl _, hsame⟩
    | metadata =>
      simp only [hrole] at h
      obtain ⟨metadata, mid, hmetadata, h⟩ := Pass.bind_eq_ok.1 h
      rw [expectMetadata_state hmetadata] at h
      exact ⟨_, _, [], h, .refl _, hsame⟩
    | serialization =>
      simp only [hrole] at h
      obtain ⟨id, mid, hid, h⟩ := Pass.bind_eq_ok.1 h
      refine ⟨_, mid, [id], h, load_plants _ hid, fun x hx => ?_⟩
      exact (mem_storedIds_withSerialization hx).imp_right List.mem_singleton.2
    | child slot =>
      simp only [hrole] at h
      suffices hchild : ∃ child mid roots, loadFields kind path (node.withChild key child) fields
          mid = .ok node' st' ∧ Plants st.1 mid.1 roots ∧ child.ids ⊆ roots by
        obtain ⟨child, mid, roots, h, hplants, hids⟩ := hchild
        exact ⟨_, mid, roots, h, hplants, fun id hid =>
          (mem_storedIds_withChild hid).imp_right fun hid => hids hid⟩
      clear hrole
      revert h
      generalize slot.shape = shape
      intro h
      split at h
      · obtain ⟨id, mid, hid, h⟩ := Pass.bind_eq_ok.1 h
        exact ⟨.one id, mid, [id], h, load_plants _ hid, List.Subset.refl _⟩
      · obtain ⟨ids, mid, hids, h⟩ := Pass.bind_eq_ok.1 h
        exact ⟨.many ids, mid, ids, h, loadItems_plants _ hids, List.Subset.refl _⟩
      · obtain ⟨choices, mid, hchoices, h⟩ := Pass.bind_eq_ok.1 h
        exact ⟨.choices choices, mid, _, h, loadChoices_plants _ hchoices, List.Subset.refl _⟩
      · obtain ⟨schemas, mid, hschemas, h⟩ := Pass.bind_eq_ok.1 h
        obtain ⟨all, hall, hplaces, -⟩ := loadKeyed_plants _ hschemas (.refl _) (places_empty _)
        refine ⟨.keyed schemas, mid, all, h, hall, fun id hid => ?_⟩
        obtain ⟨⟨name, _⟩, hentry, rfl⟩ := List.mem_map.1 hid
        exact hplaces.mem name _ (OrderedMap.mem_entries_iff.1 hentry)
      · obtain ⟨_, _, hthrow, -⟩ := Pass.bind_eq_ok.1 h
        exact absurd hthrow Pass.throw_ne_ok
      · obtain ⟨_, _, hthrow, -⟩ := Pass.bind_eq_ok.1 h
        exact absurd hthrow Pass.throw_ne_ok
    | attr =>
      simp only [hrole] at h
      exact ⟨_, _, [], h, .refl _, hsame⟩
termination_by fields => sizeOf fields

theorem loadItems_plants {st st' : Store × σ} : ∀ (items : List Json) {implied : Option Kind}
    {path : List Step} {position : Nat} {ids : List NodeId},
    loadItems implied path position items st = .ok ids st' → Plants st.1 st'.1 ids
  | [], _, _, _, _, h => by
    rw [loadItems] at h
    obtain ⟨rfl, rfl⟩ := Pass.pure_eq_ok.1 h
    exact .refl _
  | item :: items, _, _, _, _, h => by
    rw [loadItems] at h
    obtain ⟨id, mid, hitem, h⟩ := Pass.bind_eq_ok.1 h
    obtain ⟨ids, last, hitems, h⟩ := Pass.bind_eq_ok.1 h
    obtain ⟨rfl, rfl⟩ := Pass.pure_eq_ok.1 h
    exact (load_plants _ hitem).trans (loadItems_plants _ hitems)
termination_by items => sizeOf items

theorem loadChoices_plants {st st' : Store × σ} : ∀ (items : List Json) {path : List Step}
    {position : Nat} {choices : List Choice},
    loadChoices path position items st = .ok choices st' →
      Plants st.1 st'.1 (choices.map Choice.schema)
  | [], _, _, _, h => by
    rw [loadChoices] at h
    obtain ⟨rfl, rfl⟩ := Pass.pure_eq_ok.1 h
    exact .refl _
  | item :: items, path, position, choices, h => by
    rw [loadChoices.eq_def] at h
    have hjoin : ∀ (choice : Choice) (mid : Store × σ), Plants st.1 mid.1 [choice.schema] →
        (loadChoices path (position + 1) items >>= fun choices => pure (choice :: choices)) mid =
          .ok choices st' → Plants st.1 st'.1 (choices.map Choice.schema) := by
      intro choice mid hplants h
      obtain ⟨rest, last, hrest, h⟩ := Pass.bind_eq_ok.1 h
      obtain ⟨rfl, rfl⟩ := Pass.pure_eq_ok.1 h
      exact hplants.trans (loadChoices_plants _ hrest)
    simp only at h
    split at h
    · obtain ⟨id, mid, hid, h⟩ := Pass.bind_eq_ok.1 h
      obtain ⟨label, last, hlabel, h⟩ := Pass.bind_eq_ok.1 h
      rw [← (expectText_eq_ok.1 hlabel).2] at h
      exact hjoin { schema := id, label := some label } mid (load_plants _ hid) h
    · obtain ⟨_, _, hthrow, -⟩ := Pass.bind_eq_ok.1 h
      exact absurd hthrow Pass.throw_ne_ok
    · obtain ⟨id, mid, hid, h⟩ := Pass.bind_eq_ok.1 h
      exact hjoin { schema := id } mid (load_plants _ hid) h
termination_by items => sizeOf items

theorem loadKeyed_plants {s : Store} {st st' : Store × σ} : ∀ (fields : List (String × Json))
    {path : List Step} {roots : List NodeId} {done schemas : OrderedMap NodeId},
    loadKeyed path done fields st = .ok schemas st' → Plants s st.1 roots → Places roots done →
      ∃ all, Plants s st'.1 all ∧ Places all schemas ∧ roots ⊆ all
  | [], _, roots, _, _, h, hplants, hplaces => by
    rw [loadKeyed] at h
    obtain ⟨rfl, rfl⟩ := Pass.pure_eq_ok.1 h
    exact ⟨roots, hplants, hplaces, List.Subset.refl _⟩
  | (key, field) :: fields, _, roots, _, _, h, hplants, hplaces => by
    rw [loadKeyed] at h
    obtain ⟨id, mid, hfield, hrest⟩ := Pass.bind_eq_ok.1 h
    have hboth := hplants.trans (load_plants _ hfield)
    have hnew : id ∉ roots := fun hid =>
      (List.nodup_append.1 hboth.planted.nodup).2.2 id hid id (by simp) rfl
    obtain ⟨all, hall, hplaces, hsub⟩ :=
      loadKeyed_plants _ hrest hboth (hplaces.insert key hnew)
    exact ⟨all, hall, hplaces, List.Subset.trans (List.subset_append_left _ _) hsub⟩
termination_by fields => sizeOf fields

end

end Wire

/-! ### Documents -/

deriving instance DecidableEq for Document

theorem OrderedMap.get?_insertMany {α : Type} {name : String} {value : α} :
    ∀ (entries : List (String × α)) {m : OrderedMap α},
      (m.insertMany entries).get? name = some value →
        m.get? name = some value ∨ (name, value) ∈ entries
  | [], _, h => .inl h
  | (key, new) :: rest, m, h => by
    rcases get?_insertMany rest h with h | h
    · rw [get?_insert] at h
      split at h
      · rename_i e
        cases h
        exact .inr (e ▸ List.mem_cons_self)
      · exact .inl h
    · exact .inr (List.mem_cons_of_mem _ h)

theorem OrderedMap.mem_keys_insertMany {α : Type} {name : String} :
    ∀ (entries : List (String × α)) {m : OrderedMap α},
      name ∈ (m.insertMany entries).keys ↔ name ∈ m.keys ∨ name ∈ Entries.names entries
  | [], _ => by simp [insertMany, Entries.names]
  | (key, value) :: rest, m => by
    have ih : name ∈ ((m.insert key value).insertMany rest).keys ↔
        name ∈ (m.insert key value).keys ∨ name ∈ Entries.names rest := mem_keys_insertMany rest
    rw [mem_keys_insert] at ih
    refine ih.trans ?_
    simp only [Entries.names, List.map_cons, List.mem_cons]
    tauto

/-- What is collected are the named nodes that the walk in pre-order lists. -/
theorem Store.collected_of_collectDefinitions {root : NodeId} {definitions : Definitions}
    (h : s.collectDefinitions root = .ok definitions) :
    ∃ ids entries, s.preorder root = .ok ids ∧ definitions = .ofList entries ∧
      ∀ name body, (name, body) ∈ entries ↔
        body ∈ ids ∧ ∃ node, s.get? body = some node ∧ node.name = some name := by
  obtain ⟨entries, hentries, h⟩ := bind_eq_ok.1 h
  obtain ⟨ids, hids, hdeclared⟩ := bind_eq_ok.1 hentries
  refine ⟨ids, entries, hids, (pure_eq_ok.1 h).symm, fun name body => ?_⟩
  cases pure_eq_ok.1 hdeclared
  simp only [List.mem_filterMap, Option.map_eq_some_iff, Option.bind_eq_some_iff, Prod.mk.injEq]
  constructor
  · rintro ⟨id, hid, _, hnode, rfl, rfl⟩
    exact ⟨hid, hnode⟩
  · rintro ⟨hbody, hnode⟩
    exact ⟨body, hbody, name, hnode, rfl, rfl⟩

/-- The definitions that a schema declares are nodes of their names. -/
theorem Store.name_of_collectDefinitions {root body : NodeId} {definitions : Definitions}
    {name : String} (h : s.collectDefinitions root = .ok definitions)
    (hbody : definitions.get? name = some body) :
    ∃ node, s.get? body = some node ∧ node.name = some name := by
  obtain ⟨ids, entries, -, rfl, hentry⟩ := collected_of_collectDefinitions h
  rcases OrderedMap.get?_insertMany _ hbody with hbody | hbody
  · simp at hbody
  · exact ((hentry name body).1 hbody).2

namespace Document

/-- The definitions are nodes that bear their names. -/
def Bearing (d : Document) : Prop :=
  ∀ name body, d.definitions.get? name = some body →
    ∃ node, d.store.get? body = some node ∧ node.name = some name

/-- The definitions are trees of their own, beside the schema. -/
structure Apart (d : Document) : Prop where
  bounds : ∀ name body, d.definitions.get? name = some body → body.index < d.store.size
  not_held : ∀ name body, d.definitions.get? name = some body → ∀ id, ¬ d.store.Holds id body
  ne_root : ∀ name body, d.definitions.get? name = some body → body ≠ d.root
  injective : ∀ name other body, d.definitions.get? name = some body →
    d.definitions.get? other = some body → name = other

/-- A document is a forest: nodes hold earlier nodes, each is held by at most one, the root by none,
and the definitions were either collected from the schema or stand beside it. -/
structure Forest (d : Document) : Prop where
  inside : ∀ id child, d.store.Holds id child → child.index < id.index
  parent_unique : ∀ id other child, d.store.Holds id child → d.store.Holds other child → id = other
  root_lt : d.root.index < d.store.size
  root_not_held : ∀ id, ¬ d.store.Holds id d.root
  definitions : d.Bearing ∨ d.Apart

variable {d : Document}

theorem Forest.lt_size (h : d.Forest) {id child : NodeId} (hchild : d.store.Holds id child) :
    child.index < d.store.size :=
  Nat.lt_trans (h.inside id child hchild) hchild.lt_size

theorem forest_of_planted {d : Document} {all : List NodeId} (h : Planted 0 d.store all)
    (hroot : d.root ∈ all) (hdefinitions : d.Bearing ∨ d.Apart) : d.Forest where
  inside id child hchild := (h.inside id child (Nat.zero_le _) hchild).2
  parent_unique id other child := h.parent_unique id other child (Nat.zero_le _) (Nat.zero_le _)
  root_lt := (h.bounds _ hroot).2
  root_not_held id := h.not_held _ hroot id (Nat.zero_le _)
  definitions := hdefinitions

/-! ### How documents are loaded -/

/-- The value is an object of a schema and its definitions. -/
def GivesDefinitions (value : Json) : Prop :=
  value.field? Key.tag = none ∧ (value.field? Key.inner).isSome ∧
    (value.field? Key.definitions).isSome

instance (value : Json) : Decidable (GivesDefinitions value) := by
  unfold GivesDefinitions
  infer_instance

/-- The schema is loaded first, and then the definitions that are given; if none are given, they are
collected from the schema. -/
inductive LoadedFrom (value : Json) (d : Document) : Prop where
  | given {schema : Json} {fields : List (String × Json)} {mid : Store × Unit}
      (hgiven : GivesDefinitions value)
      (hschema : Wire.loadSchema schema (Store.empty, ()) = .ok d.root mid)
      (hfields : Wire.loadKeyed [] .empty fields mid = .ok d.definitions (d.store, ()))
  | alone {schema : Json} (hgiven : ¬ GivesDefinitions value)
      (hschema : Wire.loadSchema schema (Store.empty, ()) = .ok d.root (d.store, ()))
      (hcollected : d.store.collectDefinitions d.root = .ok d.definitions)

theorem loadedFrom_of_ofJson {value : Json} (h : ofJson value = .ok d) : LoadedFrom value d := by
  unfold ofJson at h
  split at h
  next root definitions store own hload =>
    cases h
    have halone : ∀ schema : Json, ¬ GivesDefinitions value → (do
        let root ← Wire.loadSchema schema
        let definitions ← Pass.look (·.collectDefinitions root)
        pure (root, definitions) : Pass Unit (NodeId × Definitions)) (Store.empty, ()) =
          .ok (root, definitions) (store, own) → LoadedFrom value ⟨store, root, definitions⟩ := by
      intro schema hgiven h
      obtain ⟨root', mid, hschema, h⟩ := Pass.bind_eq_ok.1 h
      obtain ⟨definitions', last, hcollect, h⟩ := Pass.bind_eq_ok.1 h
      obtain ⟨hcollected, rfl⟩ := Pass.look_eq_ok.1 hcollect
      obtain ⟨⟨⟩, rfl⟩ := Pass.pure_eq_ok.1 h
      exact .alone hgiven hschema hcollected
    unfold load at hload
    cases htag : value.field? Key.tag with
    | some tag =>
      rw [htag] at hload
      exact halone _ (fun hgiven => by rw [hgiven.1] at htag; cases htag) hload
    | none =>
      cases hinner : value.field? Key.inner with
      | none =>
        rw [htag, hinner] at hload
        exact halone _ (fun hgiven => by simp [GivesDefinitions, hinner] at hgiven) hload
      | some schema =>
        cases hdefinitions : value.field? Key.definitions with
        | none =>
          rw [htag, hinner, hdefinitions] at hload
          exact halone _ (fun hgiven => by simp [GivesDefinitions, hdefinitions] at hgiven) hload
        | some given =>
          rw [htag, hinner, hdefinitions] at hload
          obtain ⟨root', mid, hschema, hload⟩ := Pass.bind_eq_ok.1 hload
          obtain ⟨definitions', last, hgiven, hload⟩ := Pass.bind_eq_ok.1 hload
          obtain ⟨⟨⟩, rfl⟩ := Pass.pure_eq_ok.1 hload
          unfold Wire.loadDefinitions at hgiven
          split at hgiven
          · exact .given ⟨htag, by simp [hinner], by simp [hdefinitions]⟩ hschema hgiven
          · exact absurd hgiven Pass.throw_ne_ok
  next => cases h

/-- **A loaded document is a forest.** -/
theorem forest_of_ofJson {value : Json} (h : ofJson value = .ok d) : d.Forest := by
  cases loadedFrom_of_ofJson h with
  | given _ hschema hfields =>
    -- given definitions are trees beside the schema
    obtain ⟨all, hall, hplaces, -⟩ := Wire.loadKeyed_plants _ hfields (.refl _) (Wire.places_empty _)
    have hboth := ((Wire.load_plants _ hschema).trans hall).planted
    have hbody : ∀ name body, d.definitions.get? name = some body → body ∈ [d.root] ++ all :=
      fun name body h => List.mem_append_right _ (hplaces.mem name body h)
    refine forest_of_planted hboth (by simp) (.inr ⟨fun name body h => ?_, fun name body h id => ?_,
      fun name body h e => ?_, hplaces.injective⟩)
    · exact (hboth.bounds body (hbody name body h)).2
    · exact hboth.not_held body (hbody name body h) id (Nat.zero_le _)
    · exact (List.nodup_append.1 hboth.nodup).2.2 d.root (by simp) body
        (hplaces.mem name body h) e.symm
  | alone _ hschema hcollected =>
    refine forest_of_planted (Wire.load_plants _ hschema).planted (by simp) (.inl fun name body => ?_)
    exact Store.name_of_collectDefinitions hcollected

end Document

end SchemaGraph
