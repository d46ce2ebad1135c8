import SchemaGraph.Proofs.Wire.Leftover

/-!
Loading loses no node. Each node that a schema adds is the schema's own or is held by another of
them. This needs well-formed values: of two fields with one name the later takes the place of the
earlier, and what was read for that one would be left behind.

The induction follows the loading; while the fields of an object are read, all that was added is
held by the node so far or by something that was added (`loadFields_attaches`).
-/

namespace SchemaGraph

/-! ### New nodes -/

namespace Store

variable {s s' s'' : Store} {roots more : List NodeId} {node : Node}

/-- Each node that is in `s'` and was not in `s` is one of the roots or held by another of them. -/
def Attaches (s s' : Store) (roots : List NodeId) : Prop :=
  ∀ x : NodeId, s.size ≤ x.index → x.index < s'.size →
    x ∈ roots ∨ ∃ id, s.size ≤ id.index ∧ s'.Holds id x

theorem Attaches.refl (s : Store) : s.Attaches s [] := fun _ hx hlt => absurd hlt (Nat.not_lt.2 hx)

theorem Attaches.mono (h : s.Attaches s' roots) (hsub : roots ⊆ more) : s.Attaches s' more :=
  fun x hx hlt => (h x hx hlt).imp_left fun hroot => hsub hroot

theorem Attaches.trans (h : s.Attaches s' roots) (h' : s'.Attaches s'' more)
    (hle : s.size ≤ s'.size) (hext : s'.Extends s'') : s.Attaches s'' (roots ++ more) := by
  intro x hx hlt
  rcases Nat.lt_or_ge x.index s'.size with hold | hnew
  · rcases h x hx hold with hroot | ⟨id, hid, hholds⟩
    · exact .inl (List.mem_append_left _ hroot)
    · exact .inr ⟨id, hid, (hext.holds_iff hholds.lt_size).2 hholds⟩
  · rcases h' x hnew hlt with hroot | ⟨id, hid, hholds⟩
    · exact .inl (List.mem_append_right _ hroot)
    · exact .inr ⟨id, Nat.le_trans hle hid, hholds⟩

/-- A node over all roots holds what was not held. -/
theorem Attaches.insert (h : s.Attaches s' roots) (hle : s.size ≤ s'.size)
    (hroots : roots ⊆ node.storedIds) : s.Attaches (s'.insert node) [s'.nextId] := by
  intro x hx hlt
  rcases Nat.lt_or_ge x.index s'.size with hold | hnew
  · right
    rcases h x hx hold with hroot | ⟨id, hid, hholds⟩
    · exact ⟨s'.nextId, hle, node, s'.get?_insert_nextId node, hroots hroot⟩
    · exact ⟨id, hid, ((extends_insert s' node).holds_iff hholds.lt_size).2 hholds⟩
  · exact .inl (List.mem_singleton.2 (eq_nextId hnew hlt))

end Store

/-! ### Loading -/

namespace Wire

variable {σ : Type} {kind : Option Kind} {path : List Step} {node next : Node} {key other : String}

/-- Nothing was read under the key so far. -/
structure Unread (node : Node) (key : String) : Prop where
  child : key ∉ node.children.keys
  serialization : key = Key.serialization → node.serialization = none

theorem unread_start (tag : String) (key : String) : Unread { tag } key :=
  ⟨by simp, fun _ => rfl⟩

theorem Unread.withChild {child : Child} (h : Unread node other) (hne : other ≠ key) :
    Unread (node.withChild key child) other where
  child hmem := by
    rcases OrderedMap.mem_keys_insert.1 hmem with e | hmem
    · exact hne e
    · exact h.child hmem
  serialization := h.serialization

theorem subset_withChild {child : Child} (h : Unread node key) :
    node.storedIds ++ child.ids ⊆ (node.withChild key child).storedIds := by
  have hentries := OrderedMap.entries_insert_of_not_mem child h.child
  simp only [Node.withChild, Node.storedIds, OrderedMap.values, hentries]
  intro x
  simp only [List.map_append, List.flatMap_append, List.mem_append]
  rintro ((hx | hx) | hx)
  · exact .inl (.inl hx)
  · exact .inr hx
  · exact .inl (.inr (by simpa using hx))

theorem subset_withSerialization {id : NodeId} (h : Unread node Key.serialization) :
    node.storedIds ++ [id] ⊆ (node.withSerialization id).storedIds := by
  have hnone := h.serialization rfl
  simp [Node.withSerialization, Node.storedIds, hnone]

/-- Where a well-formed value is loaded as a schema, each new node is held but for the schema's. -/
def LoadsAttached (value : Json) : Prop :=
  ∀ {σ : Type} {implied : Option Kind} {path : List Step} {id : NodeId} {st st' : Store × σ},
    load implied path value st = .ok id st' → value.WellFormed → st.1.Attaches st'.1 [id]

theorem loadItems_attaches {items : List Json} (ih : ∀ v ∈ items, LoadsAttached v)
    (hitems : Json.WellFormedItems items) {implied : Option Kind} {position : Nat}
    {ids : List NodeId} {st st' : Store × σ}
    (h : loadItems implied path position items st = .ok ids st') : st.1.Attaches st'.1 ids := by
  induction items generalizing position ids st with
  | nil =>
    rw [loadItems] at h
    obtain ⟨rfl, rfl⟩ := Pass.pure_eq_ok.1 h
    exact .refl _
  | cons item items ih' =>
    rw [Json.WellFormedItems] at hitems
    rw [loadItems] at h
    obtain ⟨id, mid, hitem, h⟩ := Pass.bind_eq_ok.1 h
    obtain ⟨rest, last, hload, h⟩ := Pass.bind_eq_ok.1 h
    obtain ⟨rfl, rfl⟩ := Pass.pure_eq_ok.1 h
    have hfirst := ih item List.mem_cons_self hitem hitems.1
    have hrest := ih' (fun v hv => ih v (List.mem_cons_of_mem _ hv)) hitems.2 hload
    exact hfirst.trans hrest (load_plants _ hitem).extends_.size_le (loadItems_plants _ hload).extends_

theorem loadChoices_attaches {items : List Json}
    (ih : ∀ v, sizeOf v < sizeOf items → LoadsAttached v) (hitems : Json.WellFormedItems items)
    {position : Nat} {choices : List Choice} {st st' : Store × σ}
    (h : loadChoices path position items st = .ok choices st') :
    st.1.Attaches st'.1 (choices.map Choice.schema) := by
  induction items generalizing position choices st with
  | nil =>
    rw [loadChoices] at h
    obtain ⟨rfl, rfl⟩ := Pass.pure_eq_ok.1 h
    exact .refl _
  | cons item items ih' =>
    have hrest : ∀ v, sizeOf v < sizeOf items → LoadsAttached v := fun v hv => ih v (by simp; omega)
    rw [Json.WellFormedItems] at hitems
    have hjoin : ∀ (choice : Choice) (mid : Store × σ), st.1.size ≤ mid.1.size →
        st.1.Attaches mid.1 [choice.schema] →
        (loadChoices path (position + 1) items >>= fun choices => pure (choice :: choices)) mid =
          .ok choices st' → st.1.Attaches st'.1 (choices.map Choice.schema) := by
      intro choice mid hle hfirst h
      obtain ⟨rest, last, hload, h⟩ := Pass.bind_eq_ok.1 h
      obtain ⟨rfl, rfl⟩ := Pass.pure_eq_ok.1 h
      exact hfirst.trans (ih' hrest hitems.2 hload) hle (loadChoices_plants _ hload).extends_
    rw [loadChoices.eq_def] at h
    simp only at h
    split at h
    · rename_i schema label
      obtain ⟨id, mid, hid, h⟩ := Pass.bind_eq_ok.1 h
      obtain ⟨label, last, hlabel, h⟩ := Pass.bind_eq_ok.1 h
      rw [← (expectText_eq_ok.1 hlabel).2] at h
      rw [Json.WellFormed, Json.WellFormedItems] at hitems
      exact hjoin { schema := id, label := some label } mid (load_plants _ hid).extends_.size_le
        (ih schema (by simp; omega) hid hitems.1.1) h
    · obtain ⟨_, _, hthrow, -⟩ := Pass.bind_eq_ok.1 h
      exact absurd hthrow Pass.throw_ne_ok
    · obtain ⟨id, mid, hid, h⟩ := Pass.bind_eq_ok.1 h
      exact hjoin { schema := id } mid (load_plants _ hid).extends_.size_le
        (ih item (by simp; omega) hid hitems.1) h

/-- Under different names nothing takes the place of another. -/
theorem loadKeyed_attaches {fields : List (String × Json)}
    (ih : ∀ field ∈ fields, LoadsAttached field.2) (hfields : Json.WellFormedFields fields)
    {done schemas : OrderedMap NodeId} (hnodup : (done.keys ++ Entries.names fields).Nodup)
    {st st' : Store × σ} (h : loadKeyed path done fields st = .ok schemas st') :
    ∃ more, schemas.values = done.values ++ more ∧ st.1.Attaches st'.1 more := by
  induction fields generalizing done st with
  | nil =>
    rw [loadKeyed] at h
    obtain ⟨rfl, rfl⟩ := Pass.pure_eq_ok.1 h
    exact ⟨[], (List.append_nil _).symm, .refl _⟩
  | cons field fields ih' =>
    obtain ⟨key, value⟩ := field
    rw [Json.WellFormedFields] at hfields
    rw [loadKeyed] at h
    obtain ⟨id, mid, hfield, h⟩ := Pass.bind_eq_ok.1 h
    have hkey : key ∉ done.keys := fun hmem =>
      (List.nodup_append.1 hnodup).2.2 key hmem key List.mem_cons_self rfl
    have hentries := OrderedMap.entries_insert_of_not_mem id hkey
    have hnodup' : ((done.insert key id).keys ++ Entries.names fields).Nodup := by
      rw [OrderedMap.keys_insert_of_not_mem id hkey, List.append_assoc]
      exact hnodup
    obtain ⟨more, hvalues, hmore⟩ :=
      ih' (fun field hfield => ih field (List.mem_cons_of_mem _ hfield)) hfields.2 hnodup' h
    refine ⟨id :: more, ?_, ?_⟩
    · rw [hvalues]
      simp [OrderedMap.values, hentries]
    · have hfirst := ih (key, value) List.mem_cons_self hfield hfields.1
      have hext : mid.1.Extends st'.1 :=
        ((sprouts_loadKeyed (fun field _ => sprouts_load field.2) _).of_ok h).extends_
      exact hfirst.trans hmore (load_plants _ hfield).extends_.size_le hext

theorem loadChild_attaches {slot : Slot} {value : Json}
    (ih : ∀ v, sizeOf v ≤ sizeOf value → LoadsAttached v) (hvalue : value.WellFormed)
    {child : Child} {st st' : Store × σ} (h : loadChild slot path value st = .ok child st') :
    st.1.Attaches st'.1 child.ids := by
  revert h
  unfold loadChild
  generalize slot.shape = shape
  intro h
  split at h
  · obtain ⟨id, mid, hload, h⟩ := Pass.bind_eq_ok.1 h
    obtain ⟨rfl, rfl⟩ := Pass.pure_eq_ok.1 h
    exact ih _ (Nat.le_refl _) hload hvalue
  · rename_i items
    obtain ⟨ids, mid, hload, h⟩ := Pass.bind_eq_ok.1 h
    obtain ⟨rfl, rfl⟩ := Pass.pure_eq_ok.1 h
    rw [Json.WellFormed] at hvalue
    refine loadItems_attaches (fun v hv => ih v ?_) hvalue hload
    have := List.sizeOf_lt_of_mem hv
    simp
    omega
  · obtain ⟨choices, mid, hload, h⟩ := Pass.bind_eq_ok.1 h
    obtain ⟨rfl, rfl⟩ := Pass.pure_eq_ok.1 h
    rw [Json.WellFormed] at hvalue
    exact loadChoices_attaches (fun v hv => ih v (by simp; omega)) hvalue hload
  · rename_i fields
    obtain ⟨schemas, mid, hload, h⟩ := Pass.bind_eq_ok.1 h
    obtain ⟨rfl, rfl⟩ := Pass.pure_eq_ok.1 h
    rw [Json.WellFormed] at hvalue
    have hfields : ∀ field ∈ fields, LoadsAttached field.2 := fun field hfield => ih field.2 (by
      have := List.sizeOf_lt_of_mem hfield
      cases field
      simp at this ⊢
      omega)
    have hnodup : ((OrderedMap.empty : OrderedMap NodeId).keys ++ Entries.names fields).Nodup :=
      hvalue.1
    obtain ⟨more, hvalues, hmore⟩ := loadKeyed_attaches hfields hvalue.2 hnodup hload
    exact hmore.mono fun x hx => by
      show x ∈ schemas.values
      rw [hvalues]
      exact List.mem_append_right _ hx
  · exact absurd h Pass.throw_ne_ok
  · exact absurd h Pass.throw_ne_ok

/-- What was held stays held, and what a field adds is held or lies below. -/
theorem loadField_attaches {value : Json} (ih : ∀ v, sizeOf v ≤ sizeOf value → LoadsAttached v)
    (hvalue : value.WellFormed) (hkey : Unread node key) {st st' : Store × σ}
    (h : loadField kind path node key value st = .ok next st') :
    (∃ more, st.1.Attaches st'.1 more ∧ node.storedIds ++ more ⊆ next.storedIds) ∧
      ∀ other, other ≠ key → Unread node other → Unread next other := by
  have hsame : ∃ more, st.1.Attaches st.1 more ∧ node.storedIds ++ more ⊆ node.storedIds :=
    ⟨[], .refl _, by simp⟩
  unfold loadField at h
  cases hrole : role kind key with
  | tag | attr =>
    rw [hrole] at h
    obtain ⟨rfl, rfl⟩ := Pass.pure_eq_ok.1 h
    exact ⟨hsame, fun _ _ hother => ⟨hother.child, hother.serialization⟩⟩
  | name | target =>
    rw [hrole] at h
    obtain ⟨text, mid, htext, h⟩ := Pass.bind_eq_ok.1 h
    obtain ⟨rfl, rfl⟩ := Pass.pure_eq_ok.1 h
    rw [← (expectText_eq_ok.1 htext).2]
    exact ⟨hsame, fun _ _ hother => ⟨hother.child, hother.serialization⟩⟩
  | metadata =>
    rw [hrole] at h
    obtain ⟨metadata, mid, hmetadata, h⟩ := Pass.bind_eq_ok.1 h
    obtain ⟨rfl, rfl⟩ := Pass.pure_eq_ok.1 h
    rw [expectMetadata_state hmetadata]
    exact ⟨hsame, fun _ _ hother => ⟨hother.child, hother.serialization⟩⟩
  | serialization =>
    rw [hrole] at h
    obtain ⟨id, mid, hload, h⟩ := Pass.bind_eq_ok.1 h
    obtain ⟨rfl, rfl⟩ := Pass.pure_eq_ok.1 h
    obtain rfl := key_of_role hrole rfl
    refine ⟨⟨[id], ih value (Nat.le_refl _) hload hvalue, subset_withSerialization hkey⟩, ?_⟩
    exact fun other hne hother => ⟨hother.child, fun e => absurd e hne⟩
  | child slot =>
    rw [hrole] at h
    obtain ⟨child, mid, hchild, h⟩ := Pass.bind_eq_ok.1 h
    obtain ⟨rfl, rfl⟩ := Pass.pure_eq_ok.1 h
    refine ⟨⟨child.ids, loadChild_attaches ih hvalue hchild, subset_withChild hkey⟩, ?_⟩
    exact fun other hne hother => hother.withChild hne

theorem loadFields_attaches {fields : List (String × Json)}
    (ih : ∀ v, sizeOf v < sizeOf fields → LoadsAttached v) (hfields : Json.WellFormedFields fields)
    (hnodup : (Entries.names fields).Nodup) {node last : Node}
    (hkeys : ∀ key ∈ Entries.names fields, Unread node key) {st st' : Store × σ}
    (h : loadFields kind path node fields st = .ok last st') :
    ∃ more, st.1.Attaches st'.1 more ∧ node.storedIds ++ more ⊆ last.storedIds := by
  induction fields generalizing node st with
  | nil =>
    rw [loadFields] at h
    obtain ⟨rfl, rfl⟩ := Pass.pure_eq_ok.1 h
    exact ⟨[], .refl _, by simp⟩
  | cons field fields ih' =>
    obtain ⟨key, value⟩ := field
    obtain ⟨hkey, hnodup⟩ := List.nodup_cons.1 hnodup
    rw [Json.WellFormedFields] at hfields
    rw [loadFields_cons] at h
    obtain ⟨next, mid, hfield, h⟩ := Pass.bind_eq_ok.1 h
    obtain ⟨⟨more, hmore, hsub⟩, hother⟩ := loadField_attaches (fun v hv => ih v (by simp; omega))
      hfields.1 (hkeys key List.mem_cons_self) hfield
    have hunread : ∀ name ∈ Entries.names fields, Unread next name := fun name hname =>
      hother name (fun e => hkey (e ▸ hname)) (hkeys name (List.mem_cons_of_mem _ hname))
    obtain ⟨rest, hrest, hsub'⟩ :=
      ih' (fun v hv => ih v (by simp; omega)) hfields.2 hnodup hunread h
    have hle : st.1.size ≤ mid.1.size :=
      ((sprouts_loadField fun v _ => sprouts_load v).of_ok hfield).extends_.size_le
    have hext : mid.1.Extends st'.1 :=
      ((sprouts_loadFields (fun v _ => sprouts_load v) _).of_ok h).extends_
    refine ⟨more ++ rest, hmore.trans hrest hle hext, fun x hx => hsub' ?_⟩
    rw [← List.append_assoc] at hx
    exact (List.mem_append.1 hx).elim (fun hx => List.mem_append_left _ (hsub hx))
      (List.mem_append_right _)

theorem loadsAttached_object {fields : List (String × Json)}
    (ih : ∀ v, sizeOf v < sizeOf fields → LoadsAttached v) : LoadsAttached (.object fields) := by
  intro σ implied path id st st' h hvalue
  rw [Json.WellFormed] at hvalue
  rw [load] at h
  obtain ⟨tag, start, hstart, h⟩ := Pass.bind_eq_ok.1 h
  obtain ⟨node, last, hload, h⟩ := Pass.bind_eq_ok.1 h
  rw [← (tagOf_eq_ok.1 hstart).1] at hload
  obtain ⟨more, hmore, hsub⟩ :=
    loadFields_attaches ih hvalue.2 hvalue.1 (fun key _ => unread_start tag key) hload
  have hle : st.1.size ≤ last.1.size :=
    ((sprouts_loadFields (fun v _ => sprouts_load v) _).of_ok hload).extends_.size_le
  split at h
  · exact absurd h Pass.throw_ne_ok
  · obtain ⟨rfl, rfl⟩ := Pass.insert_eq_ok.1 h
    exact hmore.insert hle fun x hx => hsub (List.mem_append_right _ hx)

/-- **Loading a well-formed schema loses no node**: each new one but the schema's own is held by
another new one. -/
theorem load_attaches (value : Json) : LoadsAttached value := by
  cases value with
  | object fields => exact loadsAttached_object fun v hv => load_attaches v
  | _ =>
    intro σ implied path id st st' h _
    rw [load] at h
    · exact absurd h Pass.throw_ne_ok
    · rintro _ ⟨⟩
termination_by sizeOf value

end Wire

end SchemaGraph
