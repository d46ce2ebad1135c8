import SchemaGraph.Proofs.Loading
import SchemaGraph.Proofs.Wire.Shown

/-!
JSON that is read and shown again unchanged. Such a value is settled: it loads into every store, and
the store then shows it with its keys in the same order.

* `Wire.InPlace` — each part of a node lies under a key of its role;
* `Wire.settled_of_inPlace` — the fields of such a node, over settled schemas, are settled.
-/

namespace SchemaGraph

namespace Wire

variable {σ : Type} {kind : Option Kind} {key : String} {path : List Step}

/-! ### Roles -/

/-- The one key that may have the role. -/
def Role.key? : Role → Option String
  | .tag => some Key.tag
  | .name => some Key.name
  | .target => some Key.target
  | .metadata => some Key.metadata
  | .serialization => some Key.serialization
  | .child slot => some slot.key
  | .attr => none

theorem key_of_role {r : Role} {name : String} (h : role kind key = r) (hname : r.key? = some name) :
    key = name := by
  unfold role at h
  grind [Role.key?, Kind.key_of_slot?]

theorem role_tag (kind : Option Kind) : role kind Key.tag = .tag := if_pos rfl

/-! ### One field after the other -/

def loadChild (slot : Slot) (path : List Step) (value : Json) : Pass σ Child :=
  match slot.shape, value with
  | .one, value => do
    let id ← load none path value
    pure (.one id)
  | .many, .list items => do
    let ids ← loadItems slot.implied path 0 items
    pure (.many ids)
  | .choices, .list items => do
    let choices ← loadChoices path 0 items
    pure (.choices choices)
  | .keyed, .object entries => do
    let schemas ← loadKeyed path .empty entries
    pure (.keyed schemas)
  | .keyed, _ => refuse .notSchemaObject path
  | _, _ => refuse .notSchemaList path

def loadField (kind : Option Kind) (path : List Step) (node : Node) (key : String) (value : Json) :
    Pass σ Node :=
  let here := path ++ [.key key]
  match role kind key with
  | .tag => pure node
  | .name => do
    let name ← expectText here value
    pure (node.withName name)
  | .target => do
    let target ← expectText here value
    pure { node with target := some target }
  | .metadata => do
    let metadata ← expectMetadata here value
    pure { node with metadata := some metadata }
  | .serialization => do
    let id ← load none here value
    pure (node.withSerialization id)
  | .child slot => do
    let child ← loadChild slot here value
    pure (node.withChild key child)
  | .attr => pure (node.withAttr key value)

theorem loadFields_cons {node : Node} {value : Json} {fields : List (String × Json)} :
    loadFields kind path node ((key, value) :: fields) =
      (loadField kind path node key value >>= fun node =>
        loadFields kind path node fields : Pass σ Node) := by
  rw [loadFields, loadField]
  cases role kind key with
  | child slot =>
    simp only [loadChild]
    generalize slot.shape = shape
    cases shape <;> cases value <;> simp [Node.withChild, refuse]
  | _ => simp [Node.withName, Node.withSerialization, Node.withAttr]

/-! ### Settled values -/

/-- The value loads into every store, as whatever kind is implied, and is shown there unchanged. -/
def Settled (w : Json) : Prop :=
  ∀ {σ : Type} (implied : Option Kind) (path : List Step) (st : Store × σ),
    ∃ id st', load implied path w st = .ok id st' ∧ st'.1.Shows id w

theorem Settled.load {w : Json} (h : Settled w) (implied : Option Kind) (path : List Step)
    (st : Store × σ) : ∃ id st', load implied path w st = .ok id st' ∧ st.1.Extends st'.1 ∧
      st'.1.Shows id w := by
  obtain ⟨id, st', hload, hshows⟩ := h implied path st
  exact ⟨id, st', hload, (load_plants _ hload).extends_, hshows⟩

/-- A list of two is no schema, so a choice without a label is not taken for one with a label. -/
theorem Settled.ne_list {w : Json} (h : Settled w) (items : List Json) : w ≠ .list items := by
  rintro rfl
  obtain ⟨id, st', hload, -⟩ := h none [] (Store.empty, ())
  rw [Wire.load] at hload
  · exact absurd hload Pass.throw_ne_ok
  · intro _ e
    cases e

theorem loadItems_settled {ws : List Json} (h : ∀ w ∈ ws, Settled w) (implied : Option Kind)
    (path : List Step) (position : Nat) (st : Store × σ) :
    ∃ ids st', loadItems implied path position ws st = .ok ids st' ∧ st.1.Extends st'.1 ∧
      List.Forall₂ st'.1.Shows ids ws := by
  induction ws generalizing position st with
  | nil => exact ⟨[], st, by rw [loadItems]; rfl, .refl _, .nil⟩
  | cons w ws ih =>
    have hw : Settled w := h w List.mem_cons_self
    obtain ⟨id, mid, hload, hext, hid⟩ := hw.load implied (path ++ [.index position]) st
    obtain ⟨ids, st', hloads, hexts, hids⟩ :=
      ih (fun w hw => h w (List.mem_cons_of_mem _ hw)) (position + 1) mid
    refine ⟨id :: ids, st', ?_, hext.trans hexts, .cons (hid.extends hexts) hids⟩
    rw [loadItems]
    exact Pass.bind_eq_ok.2 ⟨id, mid, hload, Pass.bind_eq_ok.2 ⟨ids, st', hloads, rfl⟩⟩

theorem loadChoices_settled {cs : List Choice} {ws : List Json}
    (h : List.Forall₂ (Choice.ShownAs fun _ => Settled) cs ws) (path : List Step) (position : Nat)
    (st : Store × σ) :
    ∃ choices st', loadChoices path position ws st = .ok choices st' ∧ st.1.Extends st'.1 ∧
      List.Forall₂ (Choice.ShownAs st'.1.Shows) choices ws := by
  induction h generalizing position st with
  | nil => exact ⟨[], st, by rw [loadChoices]; rfl, .refl _, .nil⟩
  | @cons choice w cs ws hchoice _ ih =>
    cases hchoice with
    | plain hw =>
      obtain ⟨id, mid, hload, hext, hid⟩ := hw.load none (path ++ [.index position]) st
      obtain ⟨choices, st', hloads, hexts, hshown⟩ := ih (position + 1) mid
      refine ⟨{ schema := id } :: choices, st', ?_, hext.trans hexts,
        .cons (.plain (hid.extends hexts)) hshown⟩
      rw [loadChoices]
      · exact Pass.bind_eq_ok.2 ⟨id, mid, hload, Pass.bind_eq_ok.2 ⟨_, mid, rfl,
          Pass.bind_eq_ok.2 ⟨choices, st', hloads, rfl⟩⟩⟩
      · exact fun _ _ => hw.ne_list _
      · exact fun _ => hw.ne_list _
    | @labelled _ w label hw =>
      obtain ⟨id, mid, hload, hext, hid⟩ :=
        hw.load none (path ++ [.index position] ++ [.index 0]) st
      obtain ⟨choices, st', hloads, hexts, hshown⟩ := ih (position + 1) mid
      refine ⟨{ schema := id, label := some label } :: choices, st', ?_, hext.trans hexts,
        .cons (.labelled (hid.extends hexts)) hshown⟩
      rw [loadChoices]
      exact Pass.bind_eq_ok.2 ⟨id, mid, hload, Pass.bind_eq_ok.2 ⟨label, mid, rfl,
        Pass.bind_eq_ok.2 ⟨_, mid, rfl, Pass.bind_eq_ok.2 ⟨choices, st', hloads, rfl⟩⟩⟩⟩

theorem loadKeyed_settled {fields : List (String × Json)} (h : ∀ field ∈ fields, Settled field.2)
    (path : List Step) (done : OrderedMap NodeId) {shown : List (String × Json)} (st : Store × σ)
    (hdone : Entries.Related st.1.Shows done.entries shown)
    (hnodup : (Entries.names (shown ++ fields)).Nodup) :
    ∃ schemas st', loadKeyed path done fields st = .ok schemas st' ∧ st.1.Extends st'.1 ∧
      Entries.Related st'.1.Shows schemas.entries (shown ++ fields) := by
  induction fields generalizing done shown st with
  | nil =>
    refine ⟨done, st, by rw [loadKeyed]; rfl, .refl _, ?_⟩
    rwa [List.append_nil]
  | cons field fields ih =>
    obtain ⟨key, w⟩ := field
    have hw : Settled w := h (key, w) List.mem_cons_self
    obtain ⟨id, mid, hload, hext, hid⟩ := hw.load none (path ++ [.key key]) st
    have hinsert := (hdone.mono fun _ _ hw => hw.extends hext).insert
      (Entries.not_mem_of_nodup hnodup) hid
    rw [List.append_cons] at hnodup ⊢
    obtain ⟨schemas, st', hloads, hexts, hshown⟩ :=
      ih (fun field hfield => h field (List.mem_cons_of_mem _ hfield)) (done.insert key id) mid
        hinsert hnodup
    refine ⟨schemas, st', ?_, hext.trans hexts, hshown⟩
    rw [loadKeyed]
    exact Pass.bind_eq_ok.2 ⟨id, mid, hload, hloads⟩

theorem loadChild_settled {slot : Slot} {child : Child} {value : Json}
    (h : child.ShownAs (fun _ => Settled) value) (hshape : child.shape = slot.shape)
    (path : List Step) (st : Store × σ) :
    ∃ child' st', loadChild slot path value st = .ok child' st' ∧ st.1.Extends st'.1 ∧
      child'.ShownAs st'.1.Shows value := by
  unfold loadChild
  rw [← hshape]
  cases h with
  | one h =>
    obtain ⟨id, st', hload, hext, hid⟩ := h.load none path st
    exact ⟨.one id, st', Pass.bind_eq_ok.2 ⟨id, st', hload, rfl⟩, hext, .one hid⟩
  | many h =>
    obtain ⟨ids, st', hload, hext, hids⟩ := loadItems_settled
      (fun w hw => (exists_left_of_forall₂ h hw).choose_spec.2) slot.implied path 0 st
    exact ⟨.many ids, st', Pass.bind_eq_ok.2 ⟨ids, st', hload, rfl⟩, hext, .many hids⟩
  | choices h =>
    obtain ⟨choices, st', hload, hext, hchoices⟩ := loadChoices_settled h path 0 st
    exact ⟨.choices choices, st', Pass.bind_eq_ok.2 ⟨choices, st', hload, rfl⟩, hext,
      .choices hchoices⟩
  | @keyed schemas fields h =>
    have hnodup : (Entries.names fields).Nodup := h.names_eq ▸ schemas.nodup
    obtain ⟨schemas, st', hload, hext, hschemas⟩ := loadKeyed_settled
      (fun field hfield => (exists_left_of_forall₂ h hfield).choose_spec.2.2) path .empty st .nil
      hnodup
    exact ⟨.keyed schemas, st', Pass.bind_eq_ok.2 ⟨schemas, st', hload, rfl⟩, hext,
      .keyed hschemas⟩

/-! ### Nodes with their parts in place -/

/-- Each part of the node lies under a key that has the role of the part. -/
structure InPlace (kind : Option Kind) (node : Node) : Prop where
  name : node.name.isSome → role kind Key.name = .name
  target : node.target.isSome → role kind Key.target = .target
  metadata : node.metadata.isSome → role kind Key.metadata = .metadata
  serialization : node.serialization.isSome → role kind Key.serialization = .serialization
  children : ∀ key child, (key, child) ∈ node.children.entries →
    ∃ slot, role kind key = .child slot ∧ child.shape = slot.shape
  attrs : ∀ key ∈ node.attrs.keys, role kind key = .attr

theorem inPlace_start (kind : Option Kind) (tag : String) : InPlace kind { tag } := by
  constructor <;> simp [OrderedMap.empty, OrderedMap.keys, Entries.names]

theorem InPlace.withChild {node : Node} (h : InPlace kind node) {slot : Slot} {child : Child}
    (hrole : role kind key = .child slot) (hshape : child.shape = slot.shape) :
    InPlace kind (node.withChild key child) := by
  refine { h with children := fun name held hheld => ?_ }
  have hheld : (node.children.insert key child).get? name = some held :=
    OrderedMap.mem_entries_iff.1 hheld
  rw [OrderedMap.get?_insert] at hheld
  split at hheld
  · rename_i e
    cases hheld
    exact ⟨slot, e ▸ hrole, hshape⟩
  · exact h.children name held (OrderedMap.mem_entries_iff.2 hheld)

theorem InPlace.withAttr {node : Node} (h : InPlace kind node) {value : Json} (hrole : role kind key = .attr) :
    InPlace kind (node.withAttr key value) := by
  refine { h with attrs := fun name hname => ?_ }
  rcases OrderedMap.mem_keys_insert.1 hname with rfl | hname
  · exact hrole
  · exact h.attrs name hname

section Segments

variable {node : Node} {rest : List (String × Json)}

theorem loadFields_tag {tag : Json} :
    (loadFields kind path node ((Key.tag, tag) :: rest) : Pass σ Node) =
      loadFields kind path node rest := by
  rw [loadFields_cons, loadField, role_tag, pure_bind]

/-- A part that may be missing is read by at most one field. -/
theorem loadFields_part {α : Type} {part : Option α} {field : α → String × Json}
    (put : Option α → Node) (h : ∀ a, part = some a →
      (loadField kind path (put none) (field a).1 (field a).2 : Pass σ Node) = pure (put (some a))) :
    (loadFields kind path (put none) ((part.map field).toList ++ rest) : Pass σ Node) =
      loadFields kind path (put part) rest := by
  cases part with
  | none => rfl
  | some a =>
    rw [Option.map_some, Option.toList_some, List.singleton_append, loadFields_cons, h a rfl,
      pure_bind]

theorem loadFields_attrs {entries : List (String × Json)}
    (h : ∀ key ∈ Entries.names entries, role kind key = .attr) :
    (loadFields kind path node (entries ++ rest) : Pass σ Node) =
      loadFields kind path { node with attrs := node.attrs.insertMany entries } rest := by
  induction entries generalizing node with
  | nil => rfl
  | cons entry entries ih =>
    obtain ⟨key, value⟩ := entry
    rw [List.cons_append, loadFields_cons, loadField, h key List.mem_cons_self, pure_bind,
      ih fun key hkey => h key (List.mem_cons_of_mem _ hkey)]
    rfl

/-- The children are read one after the other, each into new nodes that show the same. -/
theorem loadFields_children {stored : List (String × Child)} {shown : List (String × Json)}
    (h : Entries.Related (Child.ShownAs fun _ => Settled) stored shown)
    (hplace : ∀ key child, (key, child) ∈ stored →
      ∃ slot, role kind key = .child slot ∧ child.shape = slot.shape)
    {done : List (String × Json)} (st : Store × σ)
    (hdone : Entries.Related (Child.ShownAs st.1.Shows) node.children.entries done)
    (hnodup : (Entries.names (done ++ shown)).Nodup) :
    ∃ children st', (∀ rest, loadFields kind path node (shown ++ rest) st =
        loadFields kind path { node with children } rest st') ∧ st.1.Extends st'.1 ∧
      Entries.Related (Child.ShownAs st'.1.Shows) children.entries (done ++ shown) := by
  induction h generalizing node done st with
  | nil => exact ⟨node.children, st, fun _ => rfl, .refl _, by rwa [List.append_nil]⟩
  | @cons entry field stored shown hentry _ ih =>
    obtain ⟨key, child⟩ := entry
    obtain ⟨name, value⟩ := field
    obtain ⟨rfl, hchild⟩ := hentry
    obtain ⟨slot, hrole, hshape⟩ := hplace name child List.mem_cons_self
    obtain ⟨new, mid, hload, hext, hnew⟩ :=
      loadChild_settled hchild hshape (path ++ [.key name]) st
    have hinsert := (hdone.mono fun _ _ h => h.mono fun _ _ h => h.extends hext).insert
      (Entries.not_mem_of_nodup hnodup) hnew
    rw [List.append_cons] at hnodup ⊢
    obtain ⟨children, st', hrest, hexts, hshown⟩ := @ih (node.withChild name new)
      (fun key child hmem => hplace key child (List.mem_cons_of_mem _ hmem))
      (done ++ [(name, value)]) mid hinsert hnodup
    refine ⟨children, st', fun rest => ?_, hext.trans hexts, hshown⟩
    rw [List.cons_append, loadFields_cons]
    have hfield : loadField kind path node name value st = .ok (node.withChild name new) mid := by
      rw [loadField, hrole]
      exact Pass.bind_eq_ok.2 ⟨new, mid, hload, rfl⟩
    simp only [bind, EStateM.bind, hfield]
    exact hrest rest

/-- The parts before the children. -/
theorem loadFields_head (hplace : InPlace kind node) :
    (loadFields kind path { tag := node.tag } ((Key.tag, .text node.tag) ::
      ((node.name.map fun name => (Key.name, Json.text name)).toList ++
        ((node.target.map fun target => (Key.target, Json.text target)).toList ++ rest))) :
      Pass σ Node) =
        loadFields kind path { tag := node.tag, name := node.name, target := node.target } rest := by
  have hname : ∀ name, node.name = some name →
      (loadField kind path { tag := node.tag } Key.name (.text name) : Pass σ Node) =
        pure { tag := node.tag, name := some name } := by
    intro name e
    rw [loadField, hplace.name (e ▸ rfl)]
    rfl
  have htarget : ∀ target, node.target = some target →
      (loadField kind path { tag := node.tag, name := node.name } Key.target (.text target) :
        Pass σ Node) = pure { tag := node.tag, name := node.name, target := some target } := by
    intro target e
    rw [loadField, hplace.target (e ▸ rfl)]
    rfl
  rw [loadFields_tag, loadFields_part (fun name => { tag := node.tag, name }) hname,
    loadFields_part (fun target => { tag := node.tag, name := node.name, target }) htarget]

/-- The parts between the children and the serialization. -/
theorem loadFields_tail (hplace : InPlace kind node) (children : OrderedMap Child) :
    (loadFields kind path
      { tag := node.tag, name := node.name, target := node.target, children }
      (node.attrs.entries ++ ((node.metadata.map fun metadata =>
        (Key.metadata, Json.object metadata.entries)).toList ++ rest)) : Pass σ Node) =
        loadFields kind path { node with children, serialization := none } rest := by
  have hmetadata : ∀ metadata, node.metadata = some metadata →
      (loadField kind path { node with metadata := none, children, serialization := none }
        Key.metadata (.object metadata.entries) : Pass σ Node) =
          pure { node with metadata := some metadata, children, serialization := none } := by
    intro metadata e
    rw [loadField, hplace.metadata (e ▸ rfl)]
    simp only [expectMetadata, metadata.ofList_entries]
    rfl
  rw [loadFields_attrs hplace.attrs,
    show OrderedMap.insertMany _ node.attrs.entries = node.attrs from node.attrs.ofList_entries]
  exact loadFields_part (fun metadata => { node with metadata, children, serialization := none })
    hmetadata

/-- The fields of a node with its parts in place are read into a node of the same content, over new
nodes that show the same. -/
theorem loadFields_fields {children : List (String × Json)} {serialization : Option Json}
    (hplace : InPlace kind node) (h : node.ShownAs (fun _ => Settled) children serialization)
    (st : Store × σ) :
    ∃ new st', loadFields kind path { tag := node.tag } (node.fields children serialization) st =
        .ok new st' ∧
      new = { node with children := new.children, serialization := new.serialization } ∧
      new.ShownAs st'.1.Shows children serialization := by
  have hnames : (Entries.names children).Nodup := h.children.names_eq ▸ node.children.nodup
  obtain ⟨stored, mid, hchildren, hext, hshown⟩ := @loadFields_children _ _ path
    { tag := node.tag, name := node.name, target := node.target } _ _ h.children hplace.children
    [] st .nil hnames
  -- all but the serialization
  have hfront : ∀ rest, loadFields kind path { tag := node.tag }
      (node.fields children none ++ rest) st =
        loadFields kind path { node with children := stored, serialization := none } rest mid := by
    intro rest
    simp only [Node.fields, List.append_assoc, List.singleton_append]
    rw [List.cons_append, loadFields_head hplace, hchildren]
    exact congrFun (loadFields_tail hplace stored) mid
  have hfields : node.fields children serialization = node.fields children none ++
      (serialization.map fun value => (Key.serialization, value)).toList := by
    simp [Node.fields]
  rw [hfields, hfront]
  cases serialization with
  | none => exact ⟨_, mid, rfl, rfl, hshown, .none⟩
  | some w =>
    obtain ⟨old, hold, hw⟩ := exists_of_optionRel h.serialization rfl
    obtain ⟨id, st', hload, hexts, hid⟩ := hw.load none (path ++ [.key Key.serialization]) mid
    refine ⟨{ node with children := stored, serialization := some id }, st', ?_, rfl,
      hshown.mono fun _ _ h => h.mono fun _ _ h => h.extends hexts, .some hid⟩
    rw [Option.map_some, Option.toList_some, loadFields_cons, loadField,
      hplace.serialization (hold ▸ rfl)]
    exact Pass.bind_eq_ok.2 ⟨_, st', Pass.bind_eq_ok.2 ⟨id, st', hload, rfl⟩, rfl⟩

end Segments

theorem tagOf_fields {node : Node} {children : List (String × Json)} {serialization : Option Json}
    {implied : Option Kind} :
    tagOf implied path (node.fields children serialization) = (pure node.tag : Pass σ String) := by
  have htag : Entries.find? Key.tag (node.fields children serialization) = some (.text node.tag) :=
    if_pos rfl
  unfold tagOf
  rw [htag]

/-- **The fields of a node are settled** when its parts lie in place and hold settled schemas. -/
theorem settled_of_inPlace {node : Node} {children : List (String × Json)}
    {serialization : Option Json} (hplace : InPlace node.kind? node)
    (h : node.ShownAs (fun _ => Settled) children serialization)
    (hnodup : (Entries.names (node.fields children serialization)).Nodup)
    (htarget : ¬ (node.isReference ∧ node.target = none)) :
    Settled (.object (node.fields children serialization)) := by
  intro σ implied path st
  obtain ⟨new, mid, hload, hnew, hshown⟩ := @loadFields_fields _ _ path _ _ _ hplace h st
  have hfields : new.fields children serialization = node.fields children serialization := by
    rw [hnew]
    rfl
  have hshows := Store.shows_insert hshown
  rw [hfields, OrderedMap.entries_ofList hnodup] at hshows
  refine ⟨mid.1.nextId, (mid.1.insert new, mid.2), ?_, hshows⟩
  rw [load]
  refine Pass.bind_eq_ok.2 ⟨node.tag, st, by rw [tagOf_fields]; rfl, Pass.bind_eq_ok.2
    ⟨new, mid, hload, ?_⟩⟩
  have hnot : ¬ (new.isReference ∧ new.target = none) := by
    rw [hnew]
    exact htarget
  rw [if_neg hnot]
  rfl

end Wire

end SchemaGraph
