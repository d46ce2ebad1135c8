import Mathlib.Data.List.Nodup
import SchemaGraph.Proofs.Wire.Settled

/-!
Nodes as loading makes them. Each part of such a node lies under a key of its role, a reference says
to what it refers, and no id is held twice.

* `Wire.Legible` — the node can be told from its fields;
* `Wire.load_adds` — loading a schema adds only such nodes;
* `Document.legible_of_ofJson`, `Document.nodup_of_ofJson` — a loaded document has no others.
-/

namespace SchemaGraph

/-! ### Ids held once -/

section NodupIds

variable {α β : Type} {f : α → List β} {key : String} {value : α}

theorem mem_flatMap_put {b : β} : ∀ {entries : List (String × α)},
    b ∈ (Entries.put key value entries).flatMap (fun entry => f entry.2) →
      b ∈ entries.flatMap (fun entry => f entry.2) ∨ b ∈ f value
  | [], h => .inr (by simpa [Entries.put] using h)
  | (name, old) :: rest, h => by
    rw [Entries.put] at h
    split at h
    · rcases List.mem_append.1 (List.flatMap_cons ▸ h) with h | h
      · exact .inr h
      · exact .inl (List.mem_append_right _ h)
    · rcases List.mem_append.1 (List.flatMap_cons ▸ h) with h | h
      · exact .inl (List.mem_append_left _ h)
      · exact (mem_flatMap_put h).imp_left (List.mem_append_right _)

/-- An entry put in the place of another keeps apart what the entries hold. -/
theorem nodup_flatMap_put (hvalue : (f value).Nodup) : ∀ {entries : List (String × α)},
    (entries.flatMap fun entry => f entry.2).Nodup →
      (∀ b ∈ f value, b ∉ entries.flatMap fun entry => f entry.2) →
        ((Entries.put key value entries).flatMap fun entry => f entry.2).Nodup
  | [], _, _ => by simpa [Entries.put] using hvalue
  | (name, old) :: rest, h, hnew => by
    rw [List.flatMap_cons] at h hnew
    obtain ⟨hold, hrest, hapart⟩ := List.nodup_append.1 h
    rw [Entries.put]
    split
    · refine List.nodup_append.2 ⟨hvalue, hrest, fun b hb c hc e => ?_⟩
      exact hnew b hb (List.mem_append_right _ (e ▸ hc))
    · refine List.nodup_append.2 ⟨hold, nodup_flatMap_put hvalue hrest fun b hb hmem =>
        hnew b hb (List.mem_append_right _ hmem), fun b hb c hc e => ?_⟩
      rcases mem_flatMap_put hc with hc | hc
      · exact hapart b hb c hc e
      · exact hnew c hc (List.mem_append_left _ (e ▸ hb))

end NodupIds

namespace Wire

variable {s s' s'' : Store} {node next : Node} {kind : Option Kind} {key : String} {id : NodeId}

/-- The parts of the node lie in place and, if it is a reference, it says to what. -/
structure Legible (node : Node) : Prop where
  inPlace : InPlace node.kind? node
  target : node.isReference → node.target.isSome

/-! ### Nodes that are added -/

/-- The nodes that are in `s'` and were not in `s` are legible and hold no id twice. -/
structure Adds (s s' : Store) : Prop where
  legible : ∀ id node, s.size ≤ id.index → s'.get? id = some node → Legible node
  nodup : ∀ id node, s.size ≤ id.index → s'.get? id = some node → node.storedIds.Nodup

theorem Adds.refl (s : Store) : Adds s s where
  legible _ _ hid hnode := absurd (Store.lt_size_of_get? hnode) (Nat.not_lt.2 hid)
  nodup _ _ hid hnode := absurd (Store.lt_size_of_get? hnode) (Nat.not_lt.2 hid)

theorem Adds.trans (h : Adds s s') (h' : Adds s' s'') (hext : s'.Extends s'') : Adds s s'' where
  legible id node hid hnode := by
    by_cases hlt : id.index < s'.size
    · exact h.legible id node hid (hext.get?_eq id hlt ▸ hnode)
    · exact h'.legible id node (Nat.not_lt.1 hlt) hnode
  nodup id node hid hnode := by
    by_cases hlt : id.index < s'.size
    · exact h.nodup id node hid (hext.get?_eq id hlt ▸ hnode)
    · exact h'.nodup id node (Nat.not_lt.1 hlt) hnode

theorem adds_insert (hlegible : Legible node) (hnodup : node.storedIds.Nodup) :
    Adds s (s.insert node) := by
  have hnew : ∀ id other, s.size ≤ id.index → (s.insert node).get? id = some other →
      other = node := by
    intro id other hid hother
    obtain rfl := Store.eq_nextId hid (Store.lt_size_of_get? hother)
    rw [Store.get?_insert_nextId] at hother
    exact (Option.some.inj hother).symm
  exact ⟨fun id other hid hother => hnew id other hid hother ▸ hlegible,
    fun id other hid hother => hnew id other hid hother ▸ hnodup⟩

/-! ### A node while its fields are read -/

/-- What is known of the node after some of its fields. -/
structure Growing (kind : Option Kind) (s : Store) (node : Node) : Prop where
  inPlace : InPlace kind node
  bounds : ∀ id ∈ node.storedIds, id.index < s.size
  nodup : node.storedIds.Nodup

theorem growing_start (kind : Option Kind) (s : Store) (tag : String) :
    Growing kind s { tag } := by
  refine ⟨inPlace_start kind tag, fun id hid => ?_, storedIds_empty tag ▸ List.nodup_nil⟩
  exact absurd (storedIds_empty tag ▸ hid) List.not_mem_nil

theorem Growing.content (h : Growing kind s node) (hplace : InPlace kind next)
    (hids : next.storedIds = node.storedIds) : Growing kind s next :=
  ⟨hplace, hids ▸ h.bounds, hids ▸ h.nodup⟩

/-- The serialization attachment is a new node. -/
theorem Growing.serialization (h : Growing kind s node)
    (hrole : role kind Key.serialization = .serialization) (hplants : Plants s s' [id]) :
    Growing kind s' (node.withSerialization id) := by
  have hbounds := hplants.planted.bounds id List.mem_cons_self
  refine ⟨{ h.inPlace with serialization := fun _ => hrole }, fun x hx => ?_, ?_⟩
  · rcases mem_storedIds_withSerialization hx with hx | rfl
    · exact Nat.lt_of_lt_of_le (h.bounds x hx) hplants.extends_.size_le
    · exact hbounds.2
  · have hslots := (List.nodup_append.1 h.nodup).1
    refine List.nodup_append.2 ⟨hslots, List.nodup_singleton id, fun x hx y hy e => ?_⟩
    obtain rfl := List.mem_singleton.1 hy
    have hlt := h.bounds x (List.mem_append_left _ hx)
    rw [e] at hlt
    exact absurd hlt (Nat.not_lt.2 hbounds.1)

/-- The schemas of a child location are new nodes. -/
theorem Growing.child (h : Growing kind s node) {slot : Slot} {child : Child} {roots : List NodeId}
    (hrole : role kind key = .child slot) (hshape : child.shape = slot.shape)
    (hplants : Plants s s' roots) (hids : child.ids ⊆ roots) (hnodup : child.ids.Nodup) :
    Growing kind s' (node.withChild key child) := by
  have hnew : ∀ x ∈ child.ids, x ∉ node.storedIds := fun x hx hold =>
    Nat.not_lt.2 (hplants.planted.bounds x (hids hx)).1 (h.bounds x hold)
  refine ⟨h.inPlace.withChild hrole hshape, fun x hx => ?_, ?_⟩
  · rcases mem_storedIds_withChild hx with hx | hx
    · exact Nat.lt_of_lt_of_le (h.bounds x hx) hplants.extends_.size_le
    · exact (hplants.planted.bounds x (hids hx)).2
  · obtain ⟨hslots, hserialization, hapart⟩ := List.nodup_append.1 h.nodup
    have hflat : ∀ m : OrderedMap Child,
        m.values.flatMap Child.ids = m.entries.flatMap fun entry => entry.2.ids := fun m => by
      simp [OrderedMap.values, List.flatMap_map]
    simp only [Node.storedIds, hflat, List.mem_append, not_or] at hslots hapart hnew ⊢
    refine List.nodup_append.2 ⟨nodup_flatMap_put hnodup hslots fun x hx => (hnew x hx).1,
      hserialization, fun x hx y hy e => ?_⟩
    rcases mem_flatMap_put hx with hx | hx
    · exact hapart x hx y hy e
    · exact (hnew x hx).2 (e ▸ hy)

/-! ### Loading -/

variable {σ : Type} {path : List Step}

/-- Loading the value as a schema adds only nodes as they should be. -/
def LoadsLegible (value : Json) : Prop :=
  ∀ {σ : Type} {implied : Option Kind} {path : List Step} {id : NodeId} {st st' : Store × σ},
    load implied path value st = .ok id st' → Adds st.1 st'.1

theorem loadItems_adds {items : List Json} (ih : ∀ v ∈ items, LoadsLegible v)
    {implied : Option Kind} {position : Nat} {ids : List NodeId} {st st' : Store × σ}
    (h : loadItems implied path position items st = .ok ids st') : Adds st.1 st'.1 := by
  induction items generalizing position ids st with
  | nil =>
    rw [loadItems] at h
    obtain ⟨rfl, rfl⟩ := Pass.pure_eq_ok.1 h
    exact .refl _
  | cons item items ih' =>
    rw [loadItems] at h
    obtain ⟨id, mid, hitem, h⟩ := Pass.bind_eq_ok.1 h
    obtain ⟨rest, last, hitems, h⟩ := Pass.bind_eq_ok.1 h
    obtain ⟨rfl, rfl⟩ := Pass.pure_eq_ok.1 h
    exact (ih item List.mem_cons_self hitem).trans
      (ih' (fun v hv => ih v (List.mem_cons_of_mem _ hv)) hitems) (loadItems_plants _ hitems).extends_

theorem loadChoices_adds {items : List Json} (ih : ∀ v, sizeOf v < sizeOf items → LoadsLegible v)
    {position : Nat} {choices : List Choice} {st st' : Store × σ}
    (h : loadChoices path position items st = .ok choices st') : Adds st.1 st'.1 := by
  induction items generalizing position choices st with
  | nil =>
    rw [loadChoices] at h
    obtain ⟨rfl, rfl⟩ := Pass.pure_eq_ok.1 h
    exact .refl _
  | cons item items ih' =>
    have hrest : ∀ v, sizeOf v < sizeOf items → LoadsLegible v := fun v hv => ih v (by simp; omega)
    have hjoin : ∀ (choice : Choice) (mid : Store × σ), Adds st.1 mid.1 →
        (loadChoices path (position + 1) items >>= fun choices => pure (choice :: choices)) mid =
          .ok choices st' → Adds st.1 st'.1 := by
      intro choice mid hadds h
      obtain ⟨rest, last, hload, h⟩ := Pass.bind_eq_ok.1 h
      obtain ⟨rfl, rfl⟩ := Pass.pure_eq_ok.1 h
      exact hadds.trans (ih' hrest hload) (loadChoices_plants _ hload).extends_
    rw [loadChoices.eq_def] at h
    simp only at h
    split at h
    · rename_i schema label
      obtain ⟨id, mid, hid, h⟩ := Pass.bind_eq_ok.1 h
      obtain ⟨label, last, hlabel, h⟩ := Pass.bind_eq_ok.1 h
      rw [← (expectText_eq_ok.1 hlabel).2] at h
      exact hjoin { schema := id, label := some label } mid (ih schema (by simp; omega) hid) h
    · obtain ⟨_, _, hthrow, -⟩ := Pass.bind_eq_ok.1 h
      exact absurd hthrow Pass.throw_ne_ok
    · obtain ⟨id, mid, hid, h⟩ := Pass.bind_eq_ok.1 h
      exact hjoin { schema := id } mid (ih item (by simp; omega) hid) h

theorem loadKeyed_adds {fields : List (String × Json)} (ih : ∀ field ∈ fields, LoadsLegible field.2)
    {done schemas : OrderedMap NodeId} {st st' : Store × σ}
    (h : loadKeyed path done fields st = .ok schemas st') : Adds st.1 st'.1 ∧ st.1.Extends st'.1 := by
  induction fields generalizing done st with
  | nil =>
    rw [loadKeyed] at h
    obtain ⟨rfl, rfl⟩ := Pass.pure_eq_ok.1 h
    exact ⟨.refl _, .refl _⟩
  | cons field fields ih' =>
    obtain ⟨key, value⟩ := field
    rw [loadKeyed] at h
    obtain ⟨id, mid, hload, h⟩ := Pass.bind_eq_ok.1 h
    have hvalue : LoadsLegible value := ih (key, value) List.mem_cons_self
    obtain ⟨hadds, hext⟩ := ih' (fun field hfield => ih field (List.mem_cons_of_mem _ hfield)) h
    exact ⟨(hvalue hload).trans hadds hext, (load_plants _ hload).extends_.trans hext⟩

/-- What is read under the key of a child location are new nodes. -/
theorem loadChild_adds {value : Json} (ih : ∀ v, sizeOf v ≤ sizeOf value → LoadsLegible v)
    {slot : Slot} {child : Child} {st st' : Store × σ}
    (h : loadChild slot path value st = .ok child st') :
    Adds st.1 st'.1 ∧ child.shape = slot.shape ∧
      ∃ roots, Plants st.1 st'.1 roots ∧ child.ids ⊆ roots ∧ child.ids.Nodup := by
  revert h
  unfold loadChild
  generalize slot.shape = shape
  intro h
  split at h
  · obtain ⟨id, mid, hload, h⟩ := Pass.bind_eq_ok.1 h
    obtain ⟨rfl, rfl⟩ := Pass.pure_eq_ok.1 h
    exact ⟨ih value (Nat.le_refl _) hload, rfl, [id], load_plants _ hload, List.Subset.refl _,
      List.nodup_singleton id⟩
  · rename_i items
    obtain ⟨ids, mid, hload, h⟩ := Pass.bind_eq_ok.1 h
    obtain ⟨rfl, rfl⟩ := Pass.pure_eq_ok.1 h
    have hitems : ∀ v ∈ items, LoadsLegible v := fun v hv => ih v (by
      have := List.sizeOf_lt_of_mem hv
      simp
      omega)
    have hplants := loadItems_plants _ hload
    exact ⟨loadItems_adds hitems hload, rfl, ids, hplants, List.Subset.refl _, hplants.planted.nodup⟩
  · rename_i items
    obtain ⟨choices, mid, hload, h⟩ := Pass.bind_eq_ok.1 h
    obtain ⟨rfl, rfl⟩ := Pass.pure_eq_ok.1 h
    have hplants := loadChoices_plants _ hload
    exact ⟨loadChoices_adds (fun v hv => ih v (by simp; omega)) hload, rfl, _, hplants,
      List.Subset.refl _, hplants.planted.nodup⟩
  · rename_i fields
    obtain ⟨schemas, mid, hload, h⟩ := Pass.bind_eq_ok.1 h
    obtain ⟨rfl, rfl⟩ := Pass.pure_eq_ok.1 h
    have hfields : ∀ field ∈ fields, LoadsLegible field.2 := fun field hfield => ih field.2 (by
      have := List.sizeOf_lt_of_mem hfield
      cases field
      simp at this ⊢
      omega)
    obtain ⟨all, hplants, hplaces, -⟩ := loadKeyed_plants _ hload (.refl _) (places_empty _)
    refine ⟨(loadKeyed_adds hfields hload).1, rfl, all, hplants, fun id hid => ?_, ?_⟩
    · obtain ⟨⟨name, _⟩, hentry, rfl⟩ := List.mem_map.1 hid
      exact hplaces.mem name _ (OrderedMap.mem_entries_iff.1 hentry)
    · refine (List.nodup_map_iff_inj_on (schemas.nodup_keys.of_map _)).2 ?_
      rintro ⟨name, id⟩ hentry ⟨other, _⟩ hother rfl
      obtain rfl := hplaces.injective name other id (OrderedMap.mem_entries_iff.1 hentry)
        (OrderedMap.mem_entries_iff.1 hother)
      rfl
  · exact absurd h Pass.throw_ne_ok
  · exact absurd h Pass.throw_ne_ok

theorem loadField_adds {value : Json} (ih : ∀ v, sizeOf v ≤ sizeOf value → LoadsLegible v)
    {st st' : Store × σ} (h : loadField kind path node key value st = .ok next st')
    (hnode : Growing kind st.1 node) :
    Adds st.1 st'.1 ∧ st.1.Extends st'.1 ∧ Growing kind st'.1 next ∧ next.tag = node.tag := by
  unfold loadField at h
  cases hrole : role kind key with
  | tag =>
    rw [hrole] at h
    obtain ⟨rfl, rfl⟩ := Pass.pure_eq_ok.1 h
    exact ⟨.refl _, .refl _, hnode, rfl⟩
  | name =>
    rw [hrole] at h
    obtain ⟨name, mid, hname, h⟩ := Pass.bind_eq_ok.1 h
    obtain ⟨rfl, rfl⟩ := Pass.pure_eq_ok.1 h
    obtain ⟨rfl, rfl⟩ := expectText_eq_ok.1 hname
    obtain rfl := key_of_role hrole rfl
    exact ⟨.refl _, .refl _, hnode.content { hnode.inPlace with name := fun _ => hrole } rfl, rfl⟩
  | target =>
    rw [hrole] at h
    obtain ⟨target, mid, htarget, h⟩ := Pass.bind_eq_ok.1 h
    obtain ⟨rfl, rfl⟩ := Pass.pure_eq_ok.1 h
    obtain ⟨rfl, rfl⟩ := expectText_eq_ok.1 htarget
    obtain rfl := key_of_role hrole rfl
    exact ⟨.refl _, .refl _, hnode.content { hnode.inPlace with target := fun _ => hrole } rfl, rfl⟩
  | metadata =>
    rw [hrole] at h
    obtain ⟨metadata, mid, hmetadata, h⟩ := Pass.bind_eq_ok.1 h
    obtain ⟨rfl, rfl⟩ := Pass.pure_eq_ok.1 h
    rw [expectMetadata_state hmetadata]
    obtain rfl := key_of_role hrole rfl
    exact ⟨.refl _, .refl _, hnode.content { hnode.inPlace with metadata := fun _ => hrole } rfl,
      rfl⟩
  | serialization =>
    rw [hrole] at h
    obtain ⟨id, mid, hid, h⟩ := Pass.bind_eq_ok.1 h
    obtain ⟨rfl, rfl⟩ := Pass.pure_eq_ok.1 h
    have hplants := load_plants _ hid
    obtain rfl := key_of_role hrole rfl
    exact ⟨ih value (Nat.le_refl _) hid, hplants.extends_, hnode.serialization hrole hplants, rfl⟩
  | child slot =>
    rw [hrole] at h
    obtain ⟨child, mid, hchild, h⟩ := Pass.bind_eq_ok.1 h
    obtain ⟨rfl, rfl⟩ := Pass.pure_eq_ok.1 h
    obtain ⟨hadds, hshape, roots, hplants, hids, hnodup⟩ := loadChild_adds ih hchild
    exact ⟨hadds, hplants.extends_, hnode.child hrole hshape hplants hids hnodup, rfl⟩
  | attr =>
    rw [hrole] at h
    obtain ⟨rfl, rfl⟩ := Pass.pure_eq_ok.1 h
    exact ⟨.refl _, .refl _, hnode.content (hnode.inPlace.withAttr hrole) rfl, rfl⟩

theorem loadFields_adds {fields : List (String × Json)}
    (ih : ∀ v, sizeOf v < sizeOf fields → LoadsLegible v) {last : Node} {st st' : Store × σ}
    (h : loadFields kind path node fields st = .ok last st') (hnode : Growing kind st.1 node) :
    Adds st.1 st'.1 ∧ st.1.Extends st'.1 ∧ Growing kind st'.1 last ∧ last.tag = node.tag := by
  induction fields generalizing node st with
  | nil =>
    rw [loadFields] at h
    obtain ⟨rfl, rfl⟩ := Pass.pure_eq_ok.1 h
    exact ⟨.refl _, .refl _, hnode, rfl⟩
  | cons field fields ih' =>
    obtain ⟨key, value⟩ := field
    rw [loadFields_cons] at h
    obtain ⟨next, mid, hfield, h⟩ := Pass.bind_eq_ok.1 h
    obtain ⟨hadds, hext, hnext, htag⟩ := loadField_adds (fun v hv => ih v (by simp; omega)) hfield hnode
    obtain ⟨hadds', hext', hlast, htag'⟩ := ih' (fun v hv => ih v (by simp; omega)) h hnext
    exact ⟨hadds.trans hadds' hext', hext.trans hext', hlast, htag'.trans htag⟩

theorem loadsLegible_object {fields : List (String × Json)}
    (ih : ∀ v, sizeOf v < sizeOf fields → LoadsLegible v) : LoadsLegible (.object fields) := by
  intro σ implied path id st st' h
  rw [load] at h
  obtain ⟨tag, start, hstart, h⟩ := Pass.bind_eq_ok.1 h
  obtain ⟨node, last, hload, h⟩ := Pass.bind_eq_ok.1 h
  rw [← (tagOf_eq_ok.1 hstart).1] at hload
  obtain ⟨hadds, hext, hnode, htag⟩ := loadFields_adds ih hload (growing_start _ _ tag)
  split at h
  · exact absurd h Pass.throw_ne_ok
  · rename_i htarget
    obtain ⟨rfl, rfl⟩ := Pass.insert_eq_ok.1 h
    have hlegible : Legible node := by
      refine ⟨?_, fun href => Option.isSome_iff_ne_none.2 fun hnone => htarget ⟨href, hnone⟩⟩
      rw [Node.kind?, htag]
      exact hnode.inPlace
    exact hadds.trans (adds_insert hlegible hnode.nodup) (Store.extends_insert _ _)

/-- **Loading a schema adds only legible nodes**, and none of them holds an id twice. -/
theorem load_adds (value : Json) : LoadsLegible value := by
  cases value with
  | object fields => exact loadsLegible_object fun v hv => load_adds v
  | _ =>
    intro σ implied path id st st' h
    rw [load] at h
    · exact absurd h Pass.throw_ne_ok
    · rintro _ ⟨⟩
termination_by sizeOf value

end Wire

/-! ### Documents -/

namespace Document

variable {value : Json} {d : Document} {id : NodeId} {node : Node}

theorem adds_of_ofJson (h : ofJson value = .ok d) : Wire.Adds Store.empty d.store := by
  cases loadedFrom_of_ofJson h with
  | given _ hschema hfields =>
    obtain ⟨hadds, hext⟩ := Wire.loadKeyed_adds (fun field _ => Wire.load_adds field.2) hfields
    exact (Wire.load_adds _ hschema).trans hadds hext
  | alone _ hschema _ => exact Wire.load_adds _ hschema

/-- **Every node of a loaded document is legible.** -/
theorem legible_of_ofJson (h : ofJson value = .ok d) (hnode : d.store.get? id = some node) :
    Wire.Legible node :=
  (adds_of_ofJson h).legible id node (Nat.zero_le _) hnode

theorem nodup_of_ofJson (h : ofJson value = .ok d) (hnode : d.store.get? id = some node) :
    node.storedIds.Nodup :=
  (adds_of_ofJson h).nodup id node (Nat.zero_le _) hnode

end Document

end SchemaGraph
