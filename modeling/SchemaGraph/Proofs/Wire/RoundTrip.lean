import SchemaGraph.Proofs.Wire.Same
import SchemaGraph.Proofs.Wire.Settled

/-!
Rendering undoes loading. What a loaded schema is shown as is the same schema as the one that was
loaded, and it is settled: loading and rendering it again changes nothing.

The induction follows the loading. While the fields of an object are read, the node holds so far
exactly the fields that were read, in the order in which it is going to show them (`Holding`).
-/

namespace SchemaGraph

/-! ### The fields of a node -/

namespace Node

variable {node : Node} {children : List (String × Json)} {serialization : Option Json}
  {key : String}

theorem mem_names_fields : key ∈ Entries.names (node.fields children serialization) ↔
    key = Key.tag ∨ node.name.isSome ∧ key = Key.name ∨ node.target.isSome ∧ key = Key.target ∨
      key ∈ Entries.names children ∨ key ∈ node.attrs.keys ∨
      node.metadata.isSome ∧ key = Key.metadata ∨ serialization.isSome ∧ key = Key.serialization := by
  simp only [fields, Entries.names, OrderedMap.keys, List.map_append, List.mem_append, or_assoc]
  refine or_congr (by simp) (or_congr ?_ (or_congr ?_ (or_congr_right (or_congr_right
    (or_congr ?_ ?_)))))
  · cases node.name <;> simp
  · cases node.target <;> simp
  · cases node.metadata <;> simp
  · cases serialization <;> simp

end Node

namespace Wire

variable {σ : Type} {kind : Option Kind} {key : String} {path : List Step} {s s' : Store}

/-! ### Nodes that are being read -/

/-- Shown in the store as something settled. -/
def Kept (s : Store) (id : NodeId) (w : Json) : Prop := s.Shows id w ∧ Settled w

theorem Kept.extends {id : NodeId} {w : Json} (h : Kept s id w) (hext : s.Extends s') :
    Kept s' id w :=
  ⟨h.1.extends hext, h.2⟩

/-- The node has its parts in place, and is going to show the fields `shown` in some order. -/
structure Holding (kind : Option Kind) (s : Store) (node : Node) (shown : List (String × Json)) :
    Prop where
  inPlace : InPlace kind node
  parts : ∃ children serialization, node.ShownAs (Kept s) children serialization ∧
    (node.fields children serialization).Perm shown

theorem Holding.extends {node : Node} {shown : List (String × Json)}
    (h : Holding kind s node shown) (hext : s.Extends s') : Holding kind s' node shown := by
  obtain ⟨hplace, children, serialization, hshown, hperm⟩ := h
  exact ⟨hplace, children, serialization, hshown.mono fun _ _ h => h.extends hext, hperm⟩

theorem holding_start (kind : Option Kind) (s : Store) (tag : String) :
    Holding kind s { tag } [(Key.tag, .text tag)] :=
  ⟨inPlace_start kind tag, [], none, ⟨.nil, .none⟩, List.Perm.refl _⟩

section Steps

variable {node next : Node} {shown : List (String × Json)}

/-- One more field is held: the new parts show the old fields and this one. -/
theorem Holding.add (h : Holding kind s node shown) (hnew : key ∉ Entries.names shown) {value : Json}
    (hplace : InPlace kind node → InPlace kind next)
    (hparts : ∀ children serialization, node.ShownAs (Kept s) children serialization →
      key ∉ Entries.names (node.fields children serialization) →
      ∃ children' serialization', next.ShownAs (Kept s) children' serialization' ∧
        (next.fields children' serialization').Perm
          (node.fields children serialization ++ [(key, value)])) :
    Holding kind s next (shown ++ [(key, value)]) := by
  obtain ⟨hin, children, serialization, hshown, hperm⟩ := h
  rw [Entries.names, ← (hperm.map Prod.fst).mem_iff] at hnew
  obtain ⟨children', serialization', hshown', hperm'⟩ := hparts children serialization hshown hnew
  exact ⟨hplace hin, children', serialization', hshown', hperm'.trans (hperm.append_right _)⟩

/-- One more field is held that is no schema. -/
theorem Holding.add_content (h : Holding kind s node shown) (hnew : key ∉ Entries.names shown)
    {value : Json} (hplace : InPlace kind node → InPlace kind next)
    (hchildren : next.children = node.children) (hserialization : next.serialization = node.serialization)
    (hperm : ∀ children serialization, key ∉ Entries.names (node.fields children serialization) →
      (next.fields children serialization).Perm
        (node.fields children serialization ++ [(key, value)])) :
    Holding kind s next (shown ++ [(key, value)]) := by
  refine h.add hnew hplace fun children serialization hshown hnew =>
    ⟨children, serialization, ⟨?_, ?_⟩, hperm children serialization hnew⟩
  · rw [hchildren]
    exact hshown.children
  · rw [hserialization]
    exact hshown.serialization

theorem Holding.name (h : Holding kind s node shown) (hrole : role kind Key.name = .name)
    (hnew : Key.name ∉ Entries.names shown) (name : String) :
    Holding kind s (node.withName name) (shown ++ [(Key.name, .text name)]) := by
  refine h.add_content hnew (fun hin => { hin with name := fun _ => hrole }) rfl rfl
    fun children serialization hnew => ?_
  have hnone : node.name = none := Option.not_isSome_iff_eq_none.1 fun hsome =>
    hnew (Node.mem_names_fields.2 (by simp [hsome]))
  rw [List.perm_iff_count]
  intro field
  simp +arith [Node.fields, Node.withName, hnone, List.count_cons]

theorem Holding.target (h : Holding kind s node shown) (hrole : role kind Key.target = .target)
    (hnew : Key.target ∉ Entries.names shown) (target : String) :
    Holding kind s { node with target := some target }
      (shown ++ [(Key.target, .text target)]) := by
  refine h.add_content hnew (fun hin => { hin with target := fun _ => hrole }) rfl rfl
    fun children serialization hnew => ?_
  have hnone : node.target = none := Option.not_isSome_iff_eq_none.1 fun hsome =>
    hnew (Node.mem_names_fields.2 (by simp [hsome]))
  rw [List.perm_iff_count]
  intro field
  simp +arith [Node.fields, hnone, List.count_cons]

theorem Holding.metadata (h : Holding kind s node shown)
    (hrole : role kind Key.metadata = .metadata) (hnew : Key.metadata ∉ Entries.names shown)
    (metadata : OrderedMap Json) :
    Holding kind s { node with metadata := some metadata }
      (shown ++ [(Key.metadata, .object metadata.entries)]) := by
  refine h.add_content hnew (fun hin => { hin with metadata := fun _ => hrole }) rfl rfl
    fun children serialization hnew => ?_
  have hnone : node.metadata = none := Option.not_isSome_iff_eq_none.1 fun hsome =>
    hnew (Node.mem_names_fields.2 (by simp [hsome]))
  rw [List.perm_iff_count]
  intro field
  simp +arith [Node.fields, hnone, List.count_cons]

theorem Holding.serialization (h : Holding kind s node shown)
    (hrole : role kind Key.serialization = .serialization)
    (hnew : Key.serialization ∉ Entries.names shown) {id : NodeId} {w : Json} (hw : Kept s id w) :
    Holding kind s (node.withSerialization id) (shown ++ [(Key.serialization, w)]) := by
  refine h.add hnew (fun hin => { hin with serialization := fun _ => hrole })
    fun children serialization hshown hnew => ⟨children, some w, ⟨hshown.children, .some hw⟩, ?_⟩
  have hnone : serialization = none := Option.not_isSome_iff_eq_none.1 fun hsome =>
    hnew (Node.mem_names_fields.2 (by simp [hsome]))
  rw [List.perm_iff_count]
  intro field
  simp [Node.fields, Node.withSerialization, hnone, List.count_cons]

theorem Holding.child (h : Holding kind s node shown) {slot : Slot}
    (hrole : role kind key = .child slot) (hnew : key ∉ Entries.names shown) {child : Child}
    (hshape : child.shape = slot.shape) {w : Json} (hw : child.ShownAs (Kept s) w) :
    Holding kind s (node.withChild key child) (shown ++ [(key, w)]) := by
  refine h.add hnew (fun hin => hin.withChild hrole hshape)
    fun children serialization hshown hnew => ⟨children ++ [(key, w)], serialization,
      ⟨?_, hshown.serialization⟩, ?_⟩
  · exact hshown.children.insert
      (fun hmem => hnew (Node.mem_names_fields.2 (by simp [hmem]))) hw
  · rw [List.perm_iff_count]
    intro field
    simp +arith [Node.fields, Node.withChild, List.count_cons]

theorem Holding.attr (h : Holding kind s node shown) (hrole : role kind key = .attr)
    (hnew : key ∉ Entries.names shown) (value : Json) :
    Holding kind s (node.withAttr key value) (shown ++ [(key, value)]) := by
  refine h.add_content hnew (fun hin => hin.withAttr hrole) rfl rfl
    fun children serialization hnew => ?_
  have hattrs : key ∉ node.attrs.keys := fun hmem =>
    hnew (Node.mem_names_fields.2 (by simp [hmem]))
  rw [List.perm_iff_count]
  intro field
  simp +arith [Node.fields, Node.withAttr, OrderedMap.entries_insert_of_not_mem value hattrs,
    List.count_cons]

end Steps

/-! ### Following the loading -/

def untagged (fields : List (String × Json)) : List (String × Json) :=
  fields.filter fun field => field.1 ≠ Key.tag

@[simp]
theorem untagged_cons_tag {value : Json} {fields : List (String × Json)} :
    untagged ((Key.tag, value) :: fields) = untagged fields := by simp [untagged]

theorem untagged_cons {value : Json} {fields : List (String × Json)} (h : key ≠ Key.tag) :
    untagged ((key, value) :: fields) = (key, value) :: untagged fields := by simp [untagged, h]

theorem untagged_eq_self {fields : List (String × Json)} (h : Key.tag ∉ Entries.names fields) :
    untagged fields = fields := by
  refine List.filter_eq_self.2 fun field hfield => decide_eq_true fun e => h ?_
  exact List.mem_map.2 ⟨field, hfield, e⟩

/-- The tag may be put before the other fields. -/
theorem perm_untagged {value : Json} : ∀ {fields : List (String × Json)},
    (Entries.names fields).Nodup → Entries.find? Key.tag fields = some value →
      ((Key.tag, value) :: untagged fields).Perm fields
  | [], _, h => by cases h
  | (key, v) :: fields, hnodup, h => by
    obtain ⟨hkey, hnodup⟩ := List.nodup_cons.1 hnodup
    rw [Entries.find?] at h
    by_cases e : key = Key.tag
    · rw [if_pos e] at h
      cases h
      subst e
      rw [untagged_cons_tag, untagged_eq_self hkey]
    · rw [if_neg e] at h
      rw [untagged_cons e]
      exact (List.Perm.swap _ _ _).trans ((perm_untagged hnodup h).cons _)

theorem names_untagged_nodup {fields : List (String × Json)} (h : (Entries.names fields).Nodup) :
    (Key.tag :: Entries.names (untagged fields)).Nodup := by
  refine List.nodup_cons.2 ⟨fun hmem => ?_, h.sublist (List.filter_sublist.map _)⟩
  obtain ⟨field, hfield, e⟩ := List.mem_map.1 hmem
  exact of_decide_eq_true (List.mem_filter.1 hfield).2 e

theorem expectMetadata_eq_ok {value : Json} {metadata : OrderedMap Json} {st st' : Store × σ}
    (hvalue : value.WellFormed) (h : expectMetadata path value st = .ok metadata st') :
    value = .object metadata.entries ∧ st' = st := by
  refine ⟨?_, expectMetadata_state h⟩
  cases value with
  | object fields =>
    rw [Json.WellFormed] at hvalue
    obtain ⟨rfl, -⟩ := Pass.pure_eq_ok.1 h
    rw [OrderedMap.entries_ofList hvalue.1]
  | _ => exact absurd h Pass.throw_ne_ok

/-- The same fields but for the tag, in another order, make the same schema. -/
theorem sameSchema_of_perm {implied : Option Kind} {tag : String}
    {fields mid shown : List (String × Json)}
    (htag : Entries.find? Key.tag fields = some (.text tag) ∨
      Entries.find? Key.tag fields = none ∧ ∃ kind, implied = some kind ∧ tag = kind.tag)
    (hnodup : (Entries.names fields).Nodup) (h : SameFields (Kind.ofTag? tag) fields mid)
    (hperm : shown.Perm ((Key.tag, .text tag) :: untagged mid)) :
    SameSchema implied (.object fields) (.object shown) := by
  rcases htag with htag | ⟨htag, kind, rfl, rfl⟩
  · refine .tagged htag h (hperm.trans (perm_untagged (h.nodup hnodup) ?_))
    rw [h.find?_tag, htag]
  · have hmid : Key.tag ∉ Entries.names mid := by
      rw [h.names_eq]
      exact (Entries.find?_eq_none _ _).1 htag
    rw [untagged_eq_self hmid] at hperm
    rw [Kind.ofTag?_tag] at h
    exact .untagged htag h hperm

/-- However the value is loaded, what the new schema is shown as is settled and the same schema. -/
def Faithful (value : Json) : Prop :=
  ∀ {σ : Type} {implied : Option Kind} {path : List Step} {id : NodeId} {st st' : Store × σ},
    load implied path value st = .ok id st' → value.WellFormed →
      ∃ w, Kept st'.1 id w ∧ SameSchema implied value w

theorem loadItems_kept {items : List Json} (ih : ∀ v ∈ items, Faithful v)
    (hitems : Json.WellFormedItems items) {implied : Option Kind} {position : Nat}
    {ids : List NodeId} {st st' : Store × σ}
    (h : loadItems implied path position items st = .ok ids st') :
    ∃ ws, List.Forall₂ (Kept st'.1) ids ws ∧ SameItems implied items ws := by
  induction items generalizing position ids st with
  | nil =>
    rw [loadItems] at h
    obtain ⟨rfl, rfl⟩ := Pass.pure_eq_ok.1 h
    exact ⟨[], .nil, .nil⟩
  | cons item items ih' =>
    rw [Json.WellFormedItems] at hitems
    rw [loadItems] at h
    obtain ⟨id, mid, hitem, h⟩ := Pass.bind_eq_ok.1 h
    obtain ⟨ids, last, hload, h⟩ := Pass.bind_eq_ok.1 h
    obtain ⟨rfl, rfl⟩ := Pass.pure_eq_ok.1 h
    obtain ⟨w, hid, hsame⟩ := ih item List.mem_cons_self hitem hitems.1
    obtain ⟨ws, hids, hsames⟩ :=
      ih' (fun v hv => ih v (List.mem_cons_of_mem _ hv)) hitems.2 hload
    exact ⟨w :: ws, .cons (hid.extends (loadItems_plants _ hload).extends_) hids,
      .cons hsame hsames⟩

theorem loadChoices_kept {items : List Json} (ih : ∀ v, sizeOf v < sizeOf items → Faithful v)
    (hitems : Json.WellFormedItems items) {position : Nat} {choices : List Choice}
    {st st' : Store × σ} (h : loadChoices path position items st = .ok choices st') :
    ∃ ws, List.Forall₂ (Choice.ShownAs (Kept st'.1)) choices ws ∧ SameChoices items ws := by
  induction items generalizing position choices st with
  | nil =>
    rw [loadChoices] at h
    obtain ⟨rfl, rfl⟩ := Pass.pure_eq_ok.1 h
    exact ⟨[], .nil, .nil⟩
  | cons item items ih' =>
    have hrest : ∀ v, sizeOf v < sizeOf items → Faithful v := fun v hv => ih v (by simp; omega)
    rw [Json.WellFormedItems] at hitems
    rw [loadChoices.eq_def] at h
    simp only at h
    split at h
    · rename_i schema label
      obtain ⟨id, mid, hid, h⟩ := Pass.bind_eq_ok.1 h
      obtain ⟨text, mid', htext, h⟩ := Pass.bind_eq_ok.1 h
      obtain ⟨rfl, rfl⟩ := expectText_eq_ok.1 htext
      obtain ⟨choice, mid', hchoice, h⟩ := Pass.bind_eq_ok.1 h
      obtain ⟨rfl, rfl⟩ := Pass.pure_eq_ok.1 hchoice
      obtain ⟨rest, last, hload, h⟩ := Pass.bind_eq_ok.1 h
      obtain ⟨rfl, rfl⟩ := Pass.pure_eq_ok.1 h
      rw [Json.WellFormed, Json.WellFormedItems] at hitems
      obtain ⟨w, hw, hsame⟩ := ih schema (by simp; omega) hid hitems.1.1
      obtain ⟨ws, hchoices, hsames⟩ := ih' hrest hitems.2 hload
      exact ⟨_, .cons (.labelled (hw.extends (loadChoices_plants _ hload).extends_)) hchoices,
        .labelled hsame hsames⟩
    · obtain ⟨_, _, hthrow, -⟩ := Pass.bind_eq_ok.1 h
      exact absurd hthrow Pass.throw_ne_ok
    · obtain ⟨id, mid, hid, h⟩ := Pass.bind_eq_ok.1 h
      obtain ⟨choice, mid', hchoice, h⟩ := Pass.bind_eq_ok.1 h
      obtain ⟨rfl, rfl⟩ := Pass.pure_eq_ok.1 hchoice
      obtain ⟨rest, last, hload, h⟩ := Pass.bind_eq_ok.1 h
      obtain ⟨rfl, rfl⟩ := Pass.pure_eq_ok.1 h
      obtain ⟨w, hw, hsame⟩ := ih item (by simp; omega) hid hitems.1
      obtain ⟨ws, hchoices, hsames⟩ := ih' hrest hitems.2 hload
      exact ⟨_, .cons (.plain (hw.extends (loadChoices_plants _ hload).extends_)) hchoices,
        .plain hsame hsames⟩

theorem loadKeyed_kept {fields : List (String × Json)} (ih : ∀ field ∈ fields, Faithful field.2)
    (hfields : Json.WellFormedFields fields) {done schemas : OrderedMap NodeId}
    {shown : List (String × Json)} {st st' : Store × σ}
    (h : loadKeyed path done fields st = .ok schemas st')
    (hdone : Entries.Related (Kept st.1) done.entries shown)
    (hnodup : (Entries.names (shown ++ fields)).Nodup) :
    ∃ ws, Entries.Related (Kept st'.1) schemas.entries (shown ++ ws) ∧ SameKeyed fields ws := by
  induction fields generalizing done shown st with
  | nil =>
    rw [loadKeyed] at h
    obtain ⟨rfl, rfl⟩ := Pass.pure_eq_ok.1 h
    exact ⟨[], (List.append_nil shown).symm ▸ hdone, .nil⟩
  | cons field fields ih' =>
    obtain ⟨key, value⟩ := field
    rw [Json.WellFormedFields] at hfields
    rw [loadKeyed] at h
    obtain ⟨id, mid, hload, h⟩ := Pass.bind_eq_ok.1 h
    have hvalue : Faithful value := ih (key, value) List.mem_cons_self
    obtain ⟨w, hid, hsame⟩ := hvalue hload hfields.1
    have hext := (load_plants _ hload).extends_
    have hinsert := (hdone.mono fun _ _ h => h.extends hext).insert
      (Entries.not_mem_of_nodup hnodup) hid
    have hnames : (Entries.names (shown ++ [(key, w)] ++ fields)).Nodup := by
      simpa [Entries.names] using hnodup
    obtain ⟨ws, hschemas, hsames⟩ := ih' (fun field hfield => ih field (List.mem_cons_of_mem _ hfield))
      hfields.2 h hinsert hnames
    exact ⟨(key, w) :: ws, List.append_cons shown _ ws ▸ hschemas, .cons hsame hsames⟩

theorem loadChild_kept {value : Json} (ih : ∀ v, sizeOf v ≤ sizeOf value → Faithful v)
    (hvalue : value.WellFormed) {slot : Slot} {child : Child} {st st' : Store × σ}
    (h : loadChild slot path value st = .ok child st') :
    ∃ w, child.ShownAs (Kept st'.1) w ∧ child.shape = slot.shape ∧ SameChild slot value w ∧
      st.1.Extends st'.1 := by
  revert h
  unfold loadChild
  generalize hshape : slot.shape = shape
  intro h
  split at h
  · obtain ⟨id, mid, hload, h⟩ := Pass.bind_eq_ok.1 h
    obtain ⟨rfl, rfl⟩ := Pass.pure_eq_ok.1 h
    obtain ⟨w, hid, hsame⟩ := ih value (Nat.le_refl _) hload hvalue
    exact ⟨w, .one hid, rfl, .one hshape hsame, (load_plants _ hload).extends_⟩
  · rename_i items
    rw [Json.WellFormed] at hvalue
    obtain ⟨ids, mid, hload, h⟩ := Pass.bind_eq_ok.1 h
    obtain ⟨rfl, rfl⟩ := Pass.pure_eq_ok.1 h
    have hitems : ∀ v ∈ items, Faithful v := fun v hv => ih v (by
      have := List.sizeOf_lt_of_mem hv
      simp
      omega)
    obtain ⟨ws, hids, hsame⟩ := loadItems_kept hitems hvalue hload
    exact ⟨.list ws, .many hids, rfl, .many hshape hsame, (loadItems_plants _ hload).extends_⟩
  · rename_i items
    rw [Json.WellFormed] at hvalue
    obtain ⟨choices, mid, hload, h⟩ := Pass.bind_eq_ok.1 h
    obtain ⟨rfl, rfl⟩ := Pass.pure_eq_ok.1 h
    have hitems : ∀ v, sizeOf v < sizeOf items → Faithful v := fun v hv => ih v (by simp; omega)
    obtain ⟨ws, hchoices, hsame⟩ := loadChoices_kept hitems hvalue hload
    exact ⟨.list ws, .choices hchoices, rfl, .choices hshape hsame,
      (loadChoices_plants _ hload).extends_⟩
  · rename_i fields
    rw [Json.WellFormed] at hvalue
    obtain ⟨schemas, mid, hload, h⟩ := Pass.bind_eq_ok.1 h
    obtain ⟨rfl, rfl⟩ := Pass.pure_eq_ok.1 h
    have hfields : ∀ field ∈ fields, Faithful field.2 := fun field hfield => ih field.2 (by
      have := List.sizeOf_lt_of_mem hfield
      cases field
      simp at this ⊢
      omega)
    obtain ⟨ws, hschemas, hsame⟩ := loadKeyed_kept hfields hvalue.2 hload .nil hvalue.1
    obtain ⟨_, hplants, -⟩ := loadKeyed_plants _ hload (.refl _) (places_empty _)
    exact ⟨.object ws, .keyed hschemas, rfl, .keyed hshape hsame, hplants.extends_⟩
  · exact absurd h Pass.throw_ne_ok
  · exact absurd h Pass.throw_ne_ok

theorem loadField_kept {value : Json} (ih : ∀ v, sizeOf v ≤ sizeOf value → Faithful v)
    (hvalue : value.WellFormed) {node next : Node} {shown : List (String × Json)}
    {st st' : Store × σ} (h : loadField kind path node key value st = .ok next st')
    (hnode : Holding kind st.1 node shown) (htag : key ≠ Key.tag)
    (hnew : key ∉ Entries.names shown) :
    ∃ w, SameField kind key value w ∧ Holding kind st'.1 next (shown ++ [(key, w)]) ∧
      next.tag = node.tag := by
  unfold loadField at h
  cases hrole : role kind key with
  | tag => exact absurd (key_of_role hrole rfl) htag
  | name =>
    rw [hrole] at h
    obtain ⟨name, mid, hname, h⟩ := Pass.bind_eq_ok.1 h
    obtain ⟨rfl, rfl⟩ := Pass.pure_eq_ok.1 h
    obtain rfl := key_of_role hrole rfl
    obtain ⟨rfl, rfl⟩ := expectText_eq_ok.1 hname
    exact ⟨_, .verbatim (by simp [hrole]) (by simp [hrole]), hnode.name hrole hnew name, rfl⟩
  | target =>
    rw [hrole] at h
    obtain ⟨target, mid, htarget, h⟩ := Pass.bind_eq_ok.1 h
    obtain ⟨rfl, rfl⟩ := Pass.pure_eq_ok.1 h
    obtain rfl := key_of_role hrole rfl
    obtain ⟨rfl, rfl⟩ := expectText_eq_ok.1 htarget
    exact ⟨_, .verbatim (by simp [hrole]) (by simp [hrole]), hnode.target hrole hnew target, rfl⟩
  | metadata =>
    rw [hrole] at h
    obtain ⟨metadata, mid, hmetadata, h⟩ := Pass.bind_eq_ok.1 h
    obtain ⟨rfl, rfl⟩ := Pass.pure_eq_ok.1 h
    obtain rfl := key_of_role hrole rfl
    obtain ⟨rfl, rfl⟩ := expectMetadata_eq_ok hvalue hmetadata
    exact ⟨_, .verbatim (by simp [hrole]) (by simp [hrole]), hnode.metadata hrole hnew metadata,
      rfl⟩
  | serialization =>
    rw [hrole] at h
    obtain ⟨id, mid, hid, h⟩ := Pass.bind_eq_ok.1 h
    obtain ⟨rfl, rfl⟩ := Pass.pure_eq_ok.1 h
    obtain rfl := key_of_role hrole rfl
    obtain ⟨w, hw, hsame⟩ := ih value (Nat.le_refl _) hid hvalue
    exact ⟨w, .serialization hrole hsame,
      (hnode.extends (load_plants _ hid).extends_).serialization hrole hnew hw, rfl⟩
  | child slot =>
    rw [hrole] at h
    obtain ⟨child, mid, hchild, h⟩ := Pass.bind_eq_ok.1 h
    obtain ⟨rfl, rfl⟩ := Pass.pure_eq_ok.1 h
    obtain ⟨w, hw, hshape, hsame, hext⟩ := loadChild_kept ih hvalue hchild
    exact ⟨w, .child hrole hsame, (hnode.extends hext).child hrole hnew hshape hw, rfl⟩
  | attr =>
    rw [hrole] at h
    obtain ⟨rfl, rfl⟩ := Pass.pure_eq_ok.1 h
    exact ⟨value, .verbatim (by simp [hrole]) (by simp [hrole]), hnode.attr hrole hnew value, rfl⟩

theorem loadFields_kept {fields : List (String × Json)}
    (ih : ∀ v, sizeOf v < sizeOf fields → Faithful v) (hfields : Json.WellFormedFields fields)
    {node last : Node} {shown : List (String × Json)} {st st' : Store × σ}
    (h : loadFields kind path node fields st = .ok last st') (hnode : Holding kind st.1 node shown)
    (hnodup : (Entries.names (shown ++ untagged fields)).Nodup) :
    ∃ mid, SameFields kind fields mid ∧ Holding kind st'.1 last (shown ++ untagged mid) ∧
      last.tag = node.tag := by
  induction fields generalizing node shown st with
  | nil =>
    rw [loadFields] at h
    obtain ⟨rfl, rfl⟩ := Pass.pure_eq_ok.1 h
    exact ⟨[], .nil, (List.append_nil shown).symm ▸ hnode, rfl⟩
  | cons field fields ih' =>
    obtain ⟨key, value⟩ := field
    have hrest : ∀ v, sizeOf v < sizeOf fields → Faithful v := fun v hv => ih v (by simp; omega)
    rw [Json.WellFormedFields] at hfields
    rw [loadFields_cons] at h
    obtain ⟨next, mid, hfield, h⟩ := Pass.bind_eq_ok.1 h
    by_cases htag : key = Key.tag
    · subst htag
      rw [loadField, role_tag] at hfield
      obtain ⟨rfl, rfl⟩ := Pass.pure_eq_ok.1 hfield
      rw [untagged_cons_tag] at hnodup
      obtain ⟨ws, hsame, hlast, hlastTag⟩ := ih' hrest hfields.2 h hnode hnodup
      refine ⟨(Key.tag, value) :: ws, .cons (.verbatim ?_ ?_) hsame, ?_, hlastTag⟩
      · simp [role_tag]
      · simp [role_tag]
      · rwa [untagged_cons_tag]
    · rw [untagged_cons htag] at hnodup
      obtain ⟨w, hsame, hnext, hnextTag⟩ := loadField_kept (fun v hv => ih v (by simp; omega))
        hfields.1 hfield hnode htag (Entries.not_mem_of_nodup hnodup)
      have hnames : (Entries.names (shown ++ [(key, w)] ++ untagged fields)).Nodup := by
        simpa [Entries.names] using hnodup
      obtain ⟨ws, hsames, hlast, hlastTag⟩ := ih' hrest hfields.2 h hnext hnames
      refine ⟨(key, w) :: ws, .cons hsame hsames, ?_, hlastTag.trans hnextTag⟩
      rwa [untagged_cons htag, List.append_cons]

/-- The step of the induction on the value: an object of faithful parts is faithful. -/
theorem faithful_object {fields : List (String × Json)}
    (ih : ∀ v, sizeOf v < sizeOf fields → Faithful v) : Faithful (.object fields) := by
  intro σ implied path id st st' h hvalue
  rw [Json.WellFormed] at hvalue
  rw [load] at h
  obtain ⟨tag, start, hstart, h⟩ := Pass.bind_eq_ok.1 h
  obtain ⟨node, last, hload, h⟩ := Pass.bind_eq_ok.1 h
  obtain ⟨hstate, htag⟩ := tagOf_eq_ok.1 hstart
  rw [← hstate] at hload
  obtain ⟨mid, hsame, hnode, hnodeTag⟩ := loadFields_kept ih hvalue.2 hload (holding_start _ _ tag)
    (names_untagged_nodup hvalue.1)
  split at h
  · exact absurd h Pass.throw_ne_ok
  · rename_i htarget
    obtain ⟨rfl, rfl⟩ := Pass.insert_eq_ok.1 h
    obtain ⟨hplace, children, serialization, hshown, hperm⟩ := hnode
    have hnodup : (Entries.names (node.fields children serialization)).Nodup :=
      (hperm.map Prod.fst).nodup_iff.2 (names_untagged_nodup (hsame.nodup hvalue.1))
    have hplace : InPlace node.kind? node := by rwa [Node.kind?, hnodeTag]
    have hshows := Store.shows_insert (hshown.mono fun _ _ h => h.1)
    rw [OrderedMap.entries_ofList hnodup] at hshows
    exact ⟨_, ⟨hshows, settled_of_inPlace hplace (hshown.mono fun _ _ h => h.2) hnodup htarget⟩,
      sameSchema_of_perm htag hvalue.1 hsame hperm⟩

theorem faithful (value : Json) : Faithful value := by
  cases value with
  | object fields => exact faithful_object fun v hv => faithful v
  | _ =>
    intro σ implied path id st st' h _
    rw [load] at h
    · exact absurd h Pass.throw_ne_ok
    · rintro _ ⟨⟩
termination_by sizeOf value

/-! ### The round trip -/

/-- **Rendering undoes loading.** What a loaded schema renders to is the same schema as the one that
was loaded. It loads into every store, and renders to itself there with its keys in the same order. -/
theorem render_of_load {σ τ : Type} {value : Json} {st st' : Store × σ} {id : NodeId}
    (hvalue : value.WellFormed) (h : loadSchema value st = .ok id st') :
    ∃ w, st'.1.render id = .ok w ∧ SameSchema none value w ∧ w.WellFormed ∧
      ∀ start : Store × τ, ∃ again last,
        loadSchema w start = .ok again last ∧ last.1.render again = .ok w := by
  obtain ⟨w, ⟨hshows, hsettled⟩, hsame⟩ := faithful value h hvalue
  refine ⟨w, hshows.render, hsame, hsame.wellFormed hvalue, fun start => ?_⟩
  obtain ⟨again, last, hload, hagain⟩ := hsettled none [] start
  exact ⟨again, last, hload, hagain.render⟩

/-- A schema of arguments with its tag among the other keys. Of its two parameters one leaves out
the tag, and a union has a choice with a label and one without. -/
def mixedArguments : Json :=
  .object [("metadata", .object [("b", .null), ("a", .bool true)]),
    ("arguments_schema", .list [
      .object [("name", .text "x"), ("schema", .object [("type", .text "union"), ("choices", .list [
        .list [.object [("strict", .bool true), ("type", .text "int")], .text "i"],
        .object [("type", .text "color"), ("ref", .list [])]])])],
      .object [("schema", .object [("type", .text "any")]), ("type", .text "arguments-parameter")]]),
    ("note", .object [("type", .null)]),
    ("type", .text "arguments"), ("ref", .text "A"),
    ("serialization", .object [("schema_ref", .text "B"), ("type", .text "definition-ref")])]

def renderedArguments : Json :=
  .object [("type", .text "arguments"), ("ref", .text "A"),
    ("arguments_schema", .list [
      .object [("type", .text "arguments-parameter"),
        ("schema", .object [("type", .text "union"), ("choices", .list [
          .list [.object [("type", .text "int"), ("strict", .bool true)], .text "i"],
          .object [("type", .text "color"), ("ref", .list [])]])]), ("name", .text "x")],
      .object [("type", .text "arguments-parameter"), ("schema", .object [("type", .text "any")])]]),
    ("note", .object [("type", .null)]),
    ("metadata", .object [("b", .null), ("a", .bool true)]),
    ("serialization", .object [("type", .text "definition-ref"), ("schema_ref", .text "B")])]

def argumentsStore : Store := ⟨#[
  (Node.ofKind .int).withAttr "strict" (.bool true),
  Node.withAttr { tag := "color" } "ref" (.list []),
  (Node.ofKind .union).withChild "choices"
    (.choices [{ schema := ⟨0⟩, label := some "i" }, { schema := ⟨1⟩ }]),
  ((Node.ofKind .argumentsParameter).withAttr "name" (.text "x")).withChild "schema" (.one ⟨2⟩),
  Node.ofKind .any,
  (Node.ofKind .argumentsParameter).withChild "schema" (.one ⟨4⟩),
  .reference "B",
  (((((Node.ofKind .arguments).withMetadata "b" .null).withMetadata "a" (.bool true)).withChild
    "arguments_schema" (.many [⟨3⟩, ⟨5⟩])).withAttr "note" (.object [("type", .null)])).withName
    "A" |>.withSerialization ⟨6⟩]⟩

theorem loadSchema_mixedArguments :
    loadSchema mixedArguments (Store.empty, ()) = .ok ⟨7⟩ (argumentsStore, ()) := by
  decide +kernel

theorem mixedArguments_wellFormed : mixedArguments.WellFormed := by
  simp [mixedArguments, Json.WellFormed, Json.WellFormedFields, Json.WellFormedItems, Entries.names]

/-- The arguments render to themselves after one round. -/
theorem mixedArguments_render :
    ∃ w, argumentsStore.render ⟨7⟩ = .ok w ∧ SameSchema none mixedArguments w ∧ w.WellFormed ∧
      ∀ start : Store × Unit, ∃ again last,
        loadSchema w start = .ok again last ∧ last.1.render again = .ok w :=
  render_of_load mixedArguments_wellFormed loadSchema_mixedArguments

example : argumentsStore.render ⟨7⟩ = .ok renderedArguments := by decide +kernel

end Wire

end SchemaGraph
