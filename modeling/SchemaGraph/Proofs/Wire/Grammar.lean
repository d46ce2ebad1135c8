import SchemaGraph.Proofs.Wire.Settled

/-!
The grammar of schemas in JSON, and where a value that is none goes wrong first when it is read from
the front.

* `Kind.Free` — the keys without a meaning in schemas of a kind;
* `Wire.IsSchema` — **the grammar**: one rule for each thing that a key may hold;
* `Wire.SchemaFault` — the first fault of a value, with the way to it;
* `Wire.SchemaFault.exists_at` — the way leads to a part of the value.
-/

namespace SchemaGraph

/-! ### Roles of keys -/

/-- The key has no meaning in schemas of the kind. -/
def Kind.Free (kind : Kind) (key : String) : Prop :=
  key ∉ [Key.tag, Key.name, Key.metadata, Key.serialization] ∧ kind.slot? key = .none ∧
    ¬ (key = Key.target ∧ kind = .definitionRef)

instance (kind : Kind) (key : String) : Decidable (kind.Free key) := by
  unfold Kind.Free
  infer_instance

/-- The kind of a list entry that has no tag. Only the direct entries of the `arguments_schema` of an
`arguments` schema may leave it out. -/
def Kind.entryKind (kind : Kind) (key : String) : Option Kind :=
  if kind = .arguments ∧ key = "arguments_schema" then some .argumentsParameter else .none

theorem Kind.entryKind_of_slot? {kind : Kind} {key : String} {slot : Slot}
    (h : kind.slot? key = some slot) : kind.entryKind key = slot.implied := by
  have hall : ∀ slot ∈ kind.slots, kind.entryKind slot.key = slot.implied := by
    cases kind <;> decide
  rw [← Kind.key_of_slot? h]
  exact hall slot (Kind.mem_slots_of_slot? h)

namespace Wire

/-- No child location lies under a key with another meaning. -/
theorem role_slot {kind : Kind} {slot : Slot} (h : slot ∈ kind.slots) :
    role (some kind) slot.key = .child slot := by
  revert slot
  cases kind <;> decide

theorem role_of_slot? {kind : Kind} {key : String} {slot : Slot} (h : kind.slot? key = some slot) :
    role (some kind) key = .child slot := by
  rw [← Kind.key_of_slot? h]
  exact role_slot (Kind.mem_slots_of_slot? h)

theorem role_name {kind : Kind} : role (some kind) Key.name = .name := by
  cases kind <;> decide

theorem role_metadata {kind : Kind} : role (some kind) Key.metadata = .metadata := by
  cases kind <;> decide

theorem role_serialization {kind : Kind} : role (some kind) Key.serialization = .serialization := by
  cases kind <;> decide

theorem role_target {kind : Kind} : role (some kind) Key.target = .target ↔ kind = .definitionRef := by
  cases kind <;> decide

theorem role_attr {kind : Kind} {key : String} :
    role (some kind) key = .attr ↔ kind.Free key := by
  unfold role Kind.Free
  cases hslot : kind.slot? key with
  | none =>
    simp only [List.mem_cons, List.not_mem_nil]
    grind
  | some slot =>
    simp only [List.mem_cons, List.not_mem_nil]
    grind

/-! ### The grammar -/

/-- The tag of a schema object: the text under its key, or that of the implied kind if the key is not
there. -/
def HasTag (implied : Option Kind) (fields : List (String × Json)) (tag : String) : Prop :=
  Entries.find? Key.tag fields = some (.text tag) ∨
    Entries.find? Key.tag fields = none ∧ ∃ kind, implied = some kind ∧ tag = kind.tag

mutual

/-- The value is a schema, which may leave out its tag if a kind is implied: an object with a tag. If
the tag is that of a kind each field has to fit the kind, and a reference says to what it refers; if
not, the other fields are free. -/
inductive IsSchema : Option Kind → Json → Prop where
  | known {implied : Option Kind} {fields : List (String × Json)} {tag : String} {kind : Kind}
      (htag : HasTag implied fields tag) (hkind : Kind.ofTag? tag = some kind)
      (hfields : ∀ field ∈ fields, IsField kind field.1 field.2)
      (htarget : kind = .definitionRef → Key.target ∈ Entries.names fields) :
      IsSchema implied (.object fields)
  | unknown {implied : Option Kind} {fields : List (String × Json)} {tag : String}
      (htag : HasTag implied fields tag) (hkind : Kind.ofTag? tag = none) :
      IsSchema implied (.object fields)

/-- The value may stand under the key in schemas of the kind. -/
inductive IsField : Kind → String → Json → Prop where
  | tag {kind : Kind} {value : Json} : IsField kind Key.tag value
  | name {kind : Kind} {text : String} : IsField kind Key.name (.text text)
  | target {text : String} : IsField .definitionRef Key.target (.text text)
  | metadata {kind : Kind} {entries : List (String × Json)} :
      IsField kind Key.metadata (.object entries)
  | serialization {kind : Kind} {value : Json} (h : IsSchema none value) :
      IsField kind Key.serialization value
  | child {kind : Kind} {key : String} {slot : Slot} {value : Json}
      (hslot : kind.slot? key = some slot) (h : Fills (kind.entryKind key) slot.shape value) :
      IsField kind key value
  | free {kind : Kind} {key : String} {value : Json} (hfree : kind.Free key) :
      IsField kind key value

/-- The value has the shape of a child location and holds schemas; the entries of a list may leave out
their tag if a kind is implied. -/
inductive Fills : Option Kind → Shape → Json → Prop where
  | one {implied : Option Kind} {value : Json} (h : IsSchema none value) : Fills implied .one value
  | many {implied : Option Kind} {items : List Json} (h : ∀ item ∈ items, IsSchema implied item) :
      Fills implied .many (.list items)
  | choices {implied : Option Kind} {items : List Json} (h : ∀ item ∈ items, IsChoice item) :
      Fills implied .choices (.list items)
  | keyed {implied : Option Kind} {entries : List (String × Json)}
      (h : ∀ entry ∈ entries, IsSchema none entry.2) : Fills implied .keyed (.object entries)

/-- A choice of a union: a schema, or a list of a schema and its label. -/
inductive IsChoice : Json → Prop where
  | plain {value : Json} (h : IsSchema none value) : IsChoice value
  | labelled {value : Json} {label : String} (h : IsSchema none value) :
      IsChoice (.list [value, .text label])

end

/-! ### First faults -/

mutual

/-- The value is no schema. What is wrong with it first is the defect, which lies at the end of the
path: the tag is looked at before the fields, the fields in their order, and last whether a reference
says to what it refers. -/
inductive SchemaFault : Option Kind → Json → List Step → Defect → Prop where
  | notSchema {implied : Option Kind} {value : Json} (h : ∀ fields, value ≠ .object fields) :
      SchemaFault implied value [] .notSchema
  | tagNotText {implied : Option Kind} {fields : List (String × Json)} {value : Json}
      (hfound : Entries.find? Key.tag fields = some value) (h : ∀ text, value ≠ .text text) :
      SchemaFault implied (.object fields) [] .tagNotText
  | tagMissing {fields : List (String × Json)} (hfound : Entries.find? Key.tag fields = none) :
      SchemaFault none (.object fields) [] .tagMissing
  | field {implied : Option Kind} {before after : List (String × Json)} {tag : String} {kind : Kind}
      {key : String} {value : Json} {path : List Step} {defect : Defect}
      (htag : HasTag implied (before ++ (key, value) :: after) tag)
      (hkind : Kind.ofTag? tag = some kind)
      (hbefore : ∀ field ∈ before, IsField kind field.1 field.2)
      (h : FieldFault kind key value path defect) :
      SchemaFault implied (.object (before ++ (key, value) :: after)) (.key key :: path) defect
  | targetMissing {implied : Option Kind} {fields : List (String × Json)} {tag : String}
      (htag : HasTag implied fields tag) (hkind : Kind.ofTag? tag = some .definitionRef)
      (hfields : ∀ field ∈ fields, IsField .definitionRef field.1 field.2)
      (h : Key.target ∉ Entries.names fields) :
      SchemaFault implied (.object fields) [] .targetMissing

/-- The first fault of a value that may not stand under the key in schemas of the kind. -/
inductive FieldFault : Kind → String → Json → List Step → Defect → Prop where
  | name {kind : Kind} {value : Json} (h : ∀ text, value ≠ .text text) :
      FieldFault kind Key.name value [] .notText
  | target {value : Json} (h : ∀ text, value ≠ .text text) :
      FieldFault .definitionRef Key.target value [] .notText
  | metadata {kind : Kind} {value : Json} (h : ∀ entries, value ≠ .object entries) :
      FieldFault kind Key.metadata value [] .metadataNotObject
  | serialization {kind : Kind} {value : Json} {path : List Step} {defect : Defect}
      (h : SchemaFault none value path defect) :
      FieldFault kind Key.serialization value path defect
  | child {kind : Kind} {key : String} {slot : Slot} {value : Json} {path : List Step}
      {defect : Defect} (hslot : kind.slot? key = some slot)
      (h : SlotFault (kind.entryKind key) slot.shape value path defect) :
      FieldFault kind key value path defect

/-- The first fault of a value that does not have the shape or holds something that is no schema. -/
inductive SlotFault : Option Kind → Shape → Json → List Step → Defect → Prop where
  | one {implied : Option Kind} {value : Json} {path : List Step} {defect : Defect}
      (h : SchemaFault none value path defect) : SlotFault implied .one value path defect
  | notList {implied : Option Kind} {shape : Shape} {value : Json}
      (hshape : shape = .many ∨ shape = .choices) (h : ∀ items, value ≠ .list items) :
      SlotFault implied shape value [] .notSchemaList
  | item {implied : Option Kind} {before after : List Json} {item : Json} {path : List Step}
      {defect : Defect} (hbefore : ∀ item ∈ before, IsSchema implied item)
      (h : SchemaFault implied item path defect) :
      SlotFault implied .many (.list (before ++ item :: after)) (.index before.length :: path) defect
  | choice {implied : Option Kind} {before after : List Json} {item : Json} {path : List Step}
      {defect : Defect} (hbefore : ∀ item ∈ before, IsChoice item)
      (h : ChoiceFault item path defect) :
      SlotFault implied .choices (.list (before ++ item :: after)) (.index before.length :: path)
        defect
  | notObject {implied : Option Kind} {value : Json} (h : ∀ entries, value ≠ .object entries) :
      SlotFault implied .keyed value [] .notSchemaObject
  | entry {implied : Option Kind} {before after : List (String × Json)} {key : String} {value : Json}
      {path : List Step} {defect : Defect} (hbefore : ∀ entry ∈ before, IsSchema none entry.2)
      (h : SchemaFault none value path defect) :
      SlotFault implied .keyed (.object (before ++ (key, value) :: after)) (.key key :: path) defect

/-- The first fault of a value that is no choice of a union. -/
inductive ChoiceFault : Json → List Step → Defect → Prop where
  | plain {value : Json} {path : List Step} {defect : Defect} (hlist : ∀ items, value ≠ .list items)
      (h : SchemaFault none value path defect) : ChoiceFault value path defect
  | notPair {items : List Json} (h : ∀ schema label, items ≠ [schema, label]) :
      ChoiceFault (.list items) [] .notChoice
  | schema {value label : Json} {path : List Step} {defect : Defect}
      (h : SchemaFault none value path defect) :
      ChoiceFault (.list [value, label]) (.index 0 :: path) defect
  | label {value label : Json} (hvalue : IsSchema none value) (h : ∀ text, label ≠ .text text) :
      ChoiceFault (.list [value, label]) [.index 1] .notText

end

end Wire

/-! ### Parts of a value -/

/-- The steps lead from the value to a part of it. -/
inductive Json.At : Json → List Step → Json → Prop where
  | here {value : Json} : At value [] value
  | key {fields : List (String × Json)} {key : String} {value part : Json} {path : List Step}
      (hfield : (key, value) ∈ fields) (h : At value path part) :
      At (.object fields) (.key key :: path) part
  | index {items : List Json} {position : Nat} {item part : Json} {path : List Step}
      (hitem : items[position]? = some item) (h : At item path part) :
      At (.list items) (.index position :: path) part

namespace Wire

mutual

/-- **The way to a fault leads to a part of the value.** -/
theorem SchemaFault.exists_at : ∀ {implied : Option Kind} {value : Json} {path : List Step}
    {defect : Defect}, SchemaFault implied value path defect → ∃ part, value.At path part
  | _, _, _, _, .notSchema _ | _, _, _, _, .tagNotText _ _ | _, _, _, _, .tagMissing _
  | _, _, _, _, .targetMissing _ _ _ _ => ⟨_, .here⟩
  | _, _, _, _, .field _ _ _ h => by
    obtain ⟨part, hpart⟩ := h.exists_at
    exact ⟨part, .key (List.mem_append_right _ List.mem_cons_self) hpart⟩

theorem FieldFault.exists_at : ∀ {kind : Kind} {key : String} {value : Json} {path : List Step}
    {defect : Defect}, FieldFault kind key value path defect → ∃ part, value.At path part
  | _, _, _, _, _, .name _ | _, _, _, _, _, .target _ | _, _, _, _, _, .metadata _ => ⟨_, .here⟩
  | _, _, _, _, _, .serialization h => h.exists_at
  | _, _, _, _, _, .child _ h => h.exists_at

theorem SlotFault.exists_at : ∀ {implied : Option Kind} {shape : Shape} {value : Json}
    {path : List Step} {defect : Defect}, SlotFault implied shape value path defect →
      ∃ part, value.At path part
  | _, _, _, _, _, .notList _ _ | _, _, _, _, _, .notObject _ => ⟨_, .here⟩
  | _, _, _, _, _, .one h => h.exists_at
  | _, _, _, _, _, .item _ h => by
    obtain ⟨part, hpart⟩ := h.exists_at
    exact ⟨part, .index (by simp) hpart⟩
  | _, _, _, _, _, .choice _ h => by
    obtain ⟨part, hpart⟩ := h.exists_at
    exact ⟨part, .index (by simp) hpart⟩
  | _, _, _, _, _, .entry _ h => by
    obtain ⟨part, hpart⟩ := h.exists_at
    exact ⟨part, .key (List.mem_append_right _ List.mem_cons_self) hpart⟩

theorem ChoiceFault.exists_at : ∀ {value : Json} {path : List Step} {defect : Defect},
    ChoiceFault value path defect → ∃ part, value.At path part
  | _, _, _, .plain _ h => h.exists_at
  | _, _, _, .notPair _ => ⟨_, .here⟩
  | _, _, _, .schema h => by
    obtain ⟨part, hpart⟩ := h.exists_at
    exact ⟨part, .index rfl hpart⟩
  | _, _, _, .label _ _ => ⟨_, .index rfl .here⟩

end

end Wire

end SchemaGraph
