import Mathlib.Data.List.Sort
import SchemaGraph.Project.Settings
import SchemaGraph.Reference.Encoding

/-!
Encoded values read back. The readers of child locations, of choices, of marked nodes, of reference
graphs and of settings give back what was encoded, from the encoding itself and from each of its
spellings: the fields of a record may stand in any order with any other fields between them, and
settings may leave out what is at its default. What is ordered, lists and maps, stays as it was.

* `Json.written` — a value as it is written, `Json.depth` — how deep it nests;
* `Written.HasFields` — an object with given fields in some order among others;
* `Decoder.Reads` — a reader gives a value wherever it is left so many levels;
* `Decoder.record_of_hasFields` — reading a record only depends on what its fields hold;
* `Gathered.reads`, `Settings.reads`, … — the spellings of a value are read as the value;
* `encoded_readsBack` — **what is encoded reads back**, for all these types.
-/

namespace SchemaGraph

/-! ### Values as they are written -/

namespace Json

mutual

/-- The value as it is written, each field once. -/
def written : Json → Written
  | .null => .null
  | .bool value => .bool value
  | .number value => .number (some value)
  | .text value => .text (some value)
  | .list items => .list (writtenItems items)
  | .object fields => .object (writtenFields fields)

def writtenItems : List Json → List Written
  | [] => []
  | item :: items => item.written :: writtenItems items

def writtenFields : List (String × Json) → List (Option String × Written)
  | [] => []
  | (name, value) :: fields => (some name, value.written) :: writtenFields fields

end

mutual

def depth : Json → Nat
  | .list items => depthItems items + 1
  | .object fields => depthFields fields + 1
  | _ => 0

def depthItems : List Json → Nat
  | [] => 0
  | item :: items => max item.depth (depthItems items)

def depthFields : List (String × Json) → Nat
  | [] => 0
  | (_, value) :: fields => max value.depth (depthFields fields)

end

/-- The fields of an object as they are written. -/
def ownFields : Json → List (String × Written)
  | .object fields => fields.map fun field => (field.1, field.2.written)
  | _ => []

variable {items : List Json} {fields : List (String × Json)} {levels : Nat}

theorem writtenItems_eq : ∀ items : List Json, writtenItems items = items.map written
  | [] => rfl
  | item :: items => by rw [writtenItems, writtenItems_eq items, List.map_cons]

theorem writtenFields_eq : ∀ fields : List (String × Json),
    writtenFields fields = fields.map fun field => (some field.1, field.2.written)
  | [] => rfl
  | (name, value) :: fields => by rw [writtenFields, writtenFields_eq fields, List.map_cons]

theorem depthItems_le : ∀ {items : List Json},
    depthItems items ≤ levels ↔ ∀ item ∈ items, item.depth ≤ levels
  | [] => by simp [depthItems]
  | item :: items => by
    rw [depthItems, Nat.max_le, depthItems_le, List.forall_mem_cons]

theorem depthFields_le : ∀ {fields : List (String × Json)},
    depthFields fields ≤ levels ↔ ∀ field ∈ fields, field.2.depth ≤ levels
  | [] => by simp [depthFields]
  | (name, value) :: fields => by
    rw [depthFields, Nat.max_le, depthFields_le, List.forall_mem_cons]

/-- A list takes one level, and what is left is enough for its items. -/
theorem exists_levels_of_list (h : (Json.list items).depth ≤ levels) :
    ∃ below, levels = below + 1 ∧ ∀ item ∈ items, item.depth ≤ below := by
  rw [depth] at h
  obtain ⟨below, rfl⟩ := Nat.exists_eq_add_one_of_ne_zero (Nat.ne_zero_of_lt h)
  exact ⟨below, rfl, depthItems_le.1 (Nat.le_of_succ_le_succ h)⟩

theorem exists_levels_of_object (h : (Json.object fields).depth ≤ levels) :
    ∃ below, levels = below + 1 ∧ ∀ field ∈ fields, field.2.depth ≤ below := by
  rw [depth] at h
  obtain ⟨below, rfl⟩ := Nat.exists_eq_add_one_of_ne_zero (Nat.ne_zero_of_lt h)
  exact ⟨below, rfl, depthFields_le.1 (Nat.le_of_succ_le_succ h)⟩

mutual

/-- **A well-formed value is what is read where it is written.** -/
theorem toJson?_written : ∀ (value : Json) {levels : Nat}, value.WellFormed → value.depth ≤ levels →
    value.written.toJson? levels = some value
  | .null, _, _, _ => rfl
  | .bool _, _, _, _ => rfl
  | .number _, _, _, _ => rfl
  | .text _, _, _, _ => rfl
  | .list items, _, hvalue, hlevels => by
    obtain ⟨below, rfl, -⟩ := exists_levels_of_list hlevels
    have hitems := itemsToJson?_written items hvalue (Nat.le_of_succ_le_succ hlevels)
    rw [written, Written.toJson?, hitems]
    rfl
  | .object fields, _, hvalue, hlevels => by
    obtain ⟨below, rfl, -⟩ := exists_levels_of_object hlevels
    obtain ⟨hnames, hfields⟩ := hvalue
    have hall := fieldsToJson?_written fields .empty hfields (Nat.le_of_succ_le_succ hlevels)
    rw [written, Written.toJson?, hall]
    exact congrArg (some ∘ Json.object) (OrderedMap.entries_ofList hnames)

theorem itemsToJson?_written : ∀ (items : List Json) {levels : Nat}, WellFormedItems items →
    depthItems items ≤ levels → Written.itemsToJson? levels (writtenItems items) = some items
  | [], _, _, _ => rfl
  | item :: items, _, ⟨hitem, hitems⟩, hlevels => by
    obtain ⟨hfirst, hrest⟩ := Nat.max_le.1 hlevels
    rw [writtenItems, Written.itemsToJson?, toJson?_written item hitem hfirst,
      itemsToJson?_written items hitems hrest]
    rfl

theorem fieldsToJson?_written : ∀ (fields : List (String × Json)) {levels : Nat}
    (done : OrderedMap Json), WellFormedFields fields → depthFields fields ≤ levels →
      Written.fieldsToJson? levels done (writtenFields fields) = some (done.insertMany fields)
  | [], _, _, _, _ => rfl
  | (name, value) :: fields, _, done, ⟨hvalue, hfields⟩, hlevels => by
    obtain ⟨hfirst, hrest⟩ := Nat.max_le.1 hlevels
    have hlater := fieldsToJson?_written fields (done.insert name value) hfields hrest
    simp only [writtenFields, Written.fieldsToJson?, toJson?_written value hvalue hfirst,
      Option.bind_eq_bind, Option.bind_some, hlater]
    rfl

end

end Json

/-! ### Fields of a record -/

/-- **Fields in any order, with others between them.** `w` is an object whose fields of the given names
are `own` in some order; its other fields may be any and stand anywhere. -/
def Written.HasFields (names : List String) (own : List (String × Written)) (w : Written) : Prop :=
  ∃ fields : List (String × Written),
    w = .object (fields.map fun field => (some field.1, field.2)) ∧
      (fields.filter fun field => field.1 ∈ names).Perm own

/-- The fields of a value in any order, with others between them. -/
def Written.Reorders (own : List (String × Written)) (w : Written) : Prop :=
  w.HasFields (Entries.names own) own

namespace Entries

variable {α : Type} {entries others : List (String × α)}

theorem find?_perm (h : entries.Perm others) (hnodup : (names others).Nodup) (name : String) :
    find? name entries = find? name others := by
  have hnodup' : (names entries).Nodup := (h.map Prod.fst).nodup_iff.2 hnodup
  ext value
  rw [← mem_iff_find? hnodup', ← mem_iff_find? hnodup, h.mem_iff]

end Entries

namespace Decoder

variable {α : Type} {names : List String} {own fields : List (String × Written)}

/-- The fields of a record are picked in the order in which they stand. -/
theorem pickFields_eq_filter : ∀ {fields : List (String × Written)},
    (Entries.names (fields.filter fun field => field.1 ∈ names)).Nodup →
      pickFields names (fields.map fun field => (some field.1, field.2)) =
        some (fields.filter fun field => field.1 ∈ names)
  | [], _ => rfl
  | (name, w) :: fields, h => by
    by_cases hname : name ∈ names
    · rw [List.filter_cons_of_pos (by simpa using hname)] at h ⊢
      obtain ⟨hnew, hrest⟩ := List.nodup_cons.1 h
      have hnone := (Entries.find?_eq_none name _).2 hnew
      simp [pickFields, pickFields_eq_filter hrest, hname, hnone]
    · rw [List.filter_cons_of_neg (by simpa using hname)] at h ⊢
      simp [pickFields, pickFields_eq_filter h, hname]

/-- **Reading a record only depends on what its fields hold.** -/
theorem record_of_hasFields {w : Written} {least levels : Nat} {build : Nat → Fields → Option α}
    {a : α} (h : w.HasFields names own) (hnodup : (Entries.names own).Nodup)
    (hbuild : ∀ fields, (∀ name, Entries.find? name fields = Entries.find? name own) →
      build levels fields = some a) : record names least build (levels + 1) w = some a := by
  obtain ⟨fields, rfl, hperm⟩ := h
  have hpicked : (Entries.names (fields.filter fun field => field.1 ∈ names)).Nodup :=
    (hperm.map Prod.fst).nodup_iff.2 hnodup
  rw [record, pickFields_eq_filter hpicked, Option.bind_some]
  exact hbuild _ fun name => Entries.find?_perm hperm hnodup name

/-- A field that was left out of `own`, at its default, or is still there has the value that it had. -/
theorem withDefault_of_sublist {kept : List (String × Written)} {name : String} {w : Written}
    {value a : α} {d : Decoder α} {levels : Nat} (hsub : kept.Sublist own)
    (hnodup : (Entries.names own).Nodup)
    (hfind : ∀ name, Entries.find? name fields = Entries.find? name kept)
    (hmem : (name, w) ∈ own) (hd : d levels w = some a) (hdefault : (name, w) ∉ kept → value = a) :
    withDefault name value d levels fields = some a := by
  have hkept : (Entries.names kept).Nodup := hnodup.sublist (hsub.map Prod.fst)
  rw [withDefault, hfind]
  by_cases hin : (name, w) ∈ kept
  · rw [(Entries.mem_iff_find? hkept).1 hin]
    exact hd
  · have hnone : name ∉ Entries.names kept := by
      intro hname
      obtain ⟨⟨_, other⟩, hother, rfl⟩ := List.mem_map.1 hname
      have hsame := (Entries.mem_iff_find? hnodup).1 (hsub.subset hother)
      rw [(Entries.mem_iff_find? hnodup).1 hmem] at hsame
      cases hsame
      exact hin hother
    rw [(Entries.find?_eq_none name kept).2 hnone]
    exact congrArg some (hdefault hin)

theorem required_of_find? {name : String} {w : Written} {a : α} {d : Decoder α} {levels : Nat}
    (hfind : Entries.find? name fields = some w) (hd : d levels w = some a) :
    required name d levels fields = some a := by
  rw [required, hfind, Option.bind_some, hd]

/-! ### Readers of parts -/

/-- The reader gives `a` for `w` wherever it is left so many levels. -/
def Reads (d : Decoder α) (levels : Nat) (a : α) (w : Written) : Prop :=
  ∀ more, levels ≤ more → d more w = some a

/-- The reader gives back what was encoded. -/
def Inverts (d : Decoder α) (encode : α → Json) (a : α) : Prop :=
  d.Reads (encode a).depth a (encode a).written

variable {d : Decoder α} {encode : α → Json}

theorem mapM_eq_some {as : List α} {ws : List Written} {levels : Nat}
    (h : List.Forall₂ (fun a w => d.Reads (encode a).depth a w) as ws) :
    (∀ a ∈ as, (encode a).depth ≤ levels) → ws.mapM (d levels) = some as := by
  induction h with
  | nil => exact fun _ => rfl
  | cons hfirst _ ih =>
    intro hlevels
    obtain ⟨hhead, hrest⟩ := List.forall_mem_cons.1 hlevels
    rw [List.mapM_cons, hfirst levels hhead, ih hrest]
    rfl

theorem Reads.list {as : List α} {ws : List Written}
    (h : List.Forall₂ (fun a w => d.Reads (encode a).depth a w) as ws) :
    (Decoder.list d).Reads (Json.list (as.map encode)).depth as (.list ws) := by
  intro more hmore
  obtain ⟨below, rfl, hitems⟩ := Json.exists_levels_of_list hmore
  exact mapM_eq_some h fun a ha => hitems _ (List.mem_map_of_mem ha)

theorem Inverts.list {as : List α} (h : ∀ a ∈ as, d.Inverts encode a) :
    (Decoder.list d).Inverts (fun as => .list (as.map encode)) as := by
  unfold Inverts
  rw [Json.written, Json.writtenItems_eq, List.map_map]
  exact Reads.list (List.forall₂_map_right_iff.2 (List.forall₂_same.2 h))

theorem insertFields_eq_some {levels : Nat} : ∀ {entries : List (String × α)} (m : OrderedMap α),
    (∀ entry ∈ entries, d.Inverts encode entry.2 ∧ (encode entry.2).depth ≤ levels) →
      insertFields d levels m (Json.writtenFields (entries.map fun entry =>
        (entry.1, encode entry.2))) = some (m.insertMany entries)
  | [], _, _ => rfl
  | (name, a) :: entries, m, h => by
    obtain ⟨⟨hfirst, hlevels⟩, hrest⟩ := List.forall_mem_cons.1 h
    have hlater := insertFields_eq_some (m.insert name a) hrest
    rw [List.map_cons, Json.writtenFields, insertFields, hfirst levels hlevels]
    exact hlater

theorem Inverts.object {m : OrderedMap α} (h : ∀ a ∈ m.values, d.Inverts encode a) :
    (Decoder.object d).Inverts (fun m => .object (m.map encode).entries) m := by
  intro more hmore
  obtain ⟨below, rfl, hfields⟩ := Json.exists_levels_of_object hmore
  have hentries : ∀ entry ∈ m.entries,
      d.Inverts encode entry.2 ∧ (encode entry.2).depth ≤ below := fun entry hentry =>
    ⟨h _ (List.mem_map_of_mem hentry), hfields (entry.1, encode entry.2)
      (List.mem_map.2 ⟨entry, hentry, rfl⟩)⟩
  rw [Json.written, Decoder.object]
  have hread := insertFields_eq_some .empty hentries
  rw [← OrderedMap.ofList, OrderedMap.ofList_entries] at hread
  exact hread

theorem inverts_text (s : String) : text.Inverts .text s := fun _ _ => rfl

theorem inverts_bool (b : Bool) : bool.Inverts .bool b := fun _ _ => rfl

theorem inverts_nat (n : Nat) : nat.Inverts .ofNat n := by
  intro more _
  simp [nat, Json.ofNat, Json.written]

theorem inverts_word32 (v : UInt32) : word32.Inverts (fun v => .ofNat v.toNat) v := by
  intro more hmore
  rw [word32, inverts_nat v.toNat more hmore, Option.bind_some, if_pos v.toNat_lt]
  exact congrArg some UInt32.ofNat_toNat

theorem inverts_json {value : Json} (h : value.WellFormed) : json.Inverts id value :=
  fun _ hmore => Json.toJson?_written value h hmore

end Decoder

namespace NameSet

theorem ext_toList : ∀ {s t : NameSet}, s.toList = t.toList → s = t
  | ⟨_, _⟩, ⟨_, _⟩, rfl => rfl

/-- The set of its own members: an increasing list is told by what is in it. -/
theorem ofList_toList (s : NameSet) : .ofList s.toList = s := by
  have hirrefl : Std.Irrefl (α := String) (· < ·) := ⟨String.lt_irrefl⟩
  have hantisymm : Std.Antisymm (α := String) (· < ·) :=
    ⟨fun _ _ h h' => absurd h' (String.lt_asymm h)⟩
  apply ext_toList
  apply (NameSet.ofList s.toList).sorted.eq_of_mem_iff s.sorted
  intro name
  show name ∈ NameSet.ofList s.toList ↔ name ∈ s
  rw [ofList, mem_insertMany]
  exact or_iff_left (not_mem_empty name)

end NameSet

theorem Decoder.inverts_names (s : NameSet) :
    Decoder.names.Inverts (fun s => .list (s.toList.map .text)) s := by
  intro more hmore
  have hlist := Inverts.list (fun name (_ : name ∈ s.toList) => inverts_text name) more hmore
  rw [names, map, hlist, Option.map_some, NameSet.ofList_toList]

/-! ### Encoded types -/

/-- The fields of an encoded record are a spelling of it. -/
theorem Written.reorders_written (fields : List (String × Json)) :
    (Json.object fields).written.Reorders (Json.object fields).ownFields := by
  refine ⟨(Json.object fields).ownFields, ?_, .of_eq ?_⟩
  · rw [Json.written, Json.writtenFields_eq, Json.ownFields, List.map_map]
    rfl
  · refine List.filter_eq_self.2 fun field hfield => decide_eq_true ?_
    exact List.mem_map_of_mem hfield

namespace NodeId

theorem inverts (id : NodeId) : decoder.Inverts toJson id := by
  intro more hmore
  have hnat := Decoder.inverts_nat id.index more hmore
  rw [decoder, Decoder.map, toJson, hnat]
  rfl

end NodeId

namespace Choice

/-- **The spellings of a choice**: its fields in any order, with others between them. -/
def SpelledAs (choice : Choice) (w : Written) : Prop := w.Reorders choice.toJson.ownFields

theorem spelledAs_written (choice : Choice) : choice.SpelledAs choice.toJson.written :=
  Written.reorders_written _

theorem reads {choice : Choice} {w : Written} (h : choice.SpelledAs w) :
    decoder.Reads choice.toJson.depth choice w := by
  intro more hmore
  obtain ⟨below, rfl, hfields⟩ := Json.exists_levels_of_object hmore
  refine Decoder.record_of_hasFields h (by simp [toJson, Json.ownFields, Entries.names])
    fun fields hfind => ?_
  have hschema : Decoder.required "schema" NodeId.decoder below fields = some choice.schema := by
    apply Decoder.required_of_find? (hfind "schema")
    exact choice.schema.inverts below (hfields _ List.mem_cons_self)
  have hlabel : Decoder.withDefault "label" none (.optional .text) below fields =
      some choice.label := by
    rw [Decoder.withDefault, hfind "label"]
    cases hlabel : choice.label with
    | none => simp [toJson, Json.ownFields, Entries.find?, hlabel, Json.written, Decoder.optional]
    | some label =>
      simp [toJson, Json.ownFields, Entries.find?, hlabel, Json.written, Decoder.optional,
        Decoder.text]
  simp only [hschema, hlabel, Option.bind_eq_bind, Option.bind_some]
  rfl

end Choice

namespace Child

/-- **The spellings of a child location**: its choices may be spelled in any way. -/
inductive SpelledAs : Child → Written → Prop where
  | same (child : Child) : SpelledAs child child.toJson.written
  | choices {cs : List Choice} {ws : List Written} (h : List.Forall₂ Choice.SpelledAs cs ws) :
      SpelledAs (.choices cs) (.object [(some "Choices", .list ws)])

theorem reads_choices {cs : List Choice} {ws : List Written}
    (h : List.Forall₂ Choice.SpelledAs cs ws) :
    decoder.Reads (Child.choices cs).toJson.depth (.choices cs)
      (.object [(some "Choices", .list ws)]) := by
  intro more hmore
  obtain ⟨below, rfl, hfields⟩ := Json.exists_levels_of_object hmore
  have hread := Decoder.Reads.list (h.imp fun _ _ => Choice.reads) below
    (hfields _ List.mem_cons_self)
  show (Decoder.list Choice.decoder below (.list ws)).map Child.choices = _
  rw [hread]
  rfl

theorem inverts (child : Child) : decoder.Inverts toJson child := by
  cases child with
  | one id =>
    intro more hmore
    obtain ⟨below, rfl, hfields⟩ := Json.exists_levels_of_object hmore
    have hread := id.inverts below (hfields _ List.mem_cons_self)
    show (NodeId.decoder below id.toJson.written).map Child.one = _
    rw [hread]
    rfl
  | many ids =>
    intro more hmore
    obtain ⟨below, rfl, hfields⟩ := Json.exists_levels_of_object hmore
    have hread := Decoder.Inverts.list (fun id (_ : id ∈ ids) => id.inverts) below
      (hfields _ List.mem_cons_self)
    show (Decoder.list NodeId.decoder below (Json.list (ids.map NodeId.toJson)).written).map
      Child.many = _
    rw [hread]
    rfl
  | choices cs =>
    have hsame : List.Forall₂ Choice.SpelledAs cs
        (cs.map fun choice => choice.toJson.written) :=
      List.forall₂_map_right_iff.2 (List.forall₂_same.2 fun choice _ => choice.spelledAs_written)
    unfold Decoder.Inverts
    have hwritten : (Child.choices cs).toJson.written =
        .object [(some "Choices", .list (cs.map fun choice => choice.toJson.written))] := by
      simp only [toJson, Json.written, Json.writtenFields, Json.writtenItems_eq, List.map_map,
        Function.comp_def]
    rw [hwritten]
    exact reads_choices hsame
  | keyed schemas =>
    intro more hmore
    obtain ⟨below, rfl, hfields⟩ := Json.exists_levels_of_object hmore
    have hread := Decoder.Inverts.object (fun id (_ : id ∈ schemas.values) => id.inverts) below
      (hfields _ List.mem_cons_self)
    show (Decoder.object NodeId.decoder below
      (Json.object (schemas.map NodeId.toJson).entries).written).map Child.keyed = _
    rw [hread]
    rfl

theorem reads {child : Child} {w : Written} (h : child.SpelledAs w) :
    decoder.Reads child.toJson.depth child w := by
  cases h with
  | same => exact child.inverts
  | choices h => exact reads_choices h

end Child

namespace Deferred

/-- **The spellings of a marked node**: its fields in any order, with others between them. -/
def SpelledAs (deferred : Deferred) (w : Written) : Prop := w.Reorders deferred.toJson.ownFields

theorem spelledAs_written (deferred : Deferred) : deferred.SpelledAs deferred.toJson.written :=
  Written.reorders_written _

theorem reads {deferred : Deferred} {w : Written} (hvalue : deferred.discriminator.WellFormed)
    (h : deferred.SpelledAs w) : decoder.Reads deferred.toJson.depth deferred w := by
  intro more hmore
  obtain ⟨below, rfl, hfields⟩ := Json.exists_levels_of_object hmore
  refine Decoder.record_of_hasFields h (by simp [toJson, Json.ownFields, Entries.names])
    fun fields hfind => ?_
  have hnode : Decoder.required "node" NodeId.decoder below fields = some deferred.node := by
    apply Decoder.required_of_find? (hfind "node")
    exact deferred.node.inverts below (hfields _ List.mem_cons_self)
  have hdiscriminator : Decoder.required "discriminator" .json below fields =
      some deferred.discriminator := by
    apply Decoder.required_of_find? (hfind "discriminator")
    exact Decoder.inverts_json hvalue below
      (hfields _ (List.mem_cons_of_mem _ List.mem_cons_self))
  simp only [hnode, hdiscriminator, Option.bind_eq_bind, Option.bind_some]
  rfl

end Deferred

namespace Gathered

/-- The discriminators are JSON values, in which no object has two fields of one name. -/
def WellFormed (found : Gathered) : Prop :=
  ∀ marked ∈ found.deferred, marked.discriminator.WellFormed

/-- **The spellings of a reference graph**: its fields in any order, with others between them, and each
marked node in one of its spellings. -/
def SpelledAs (found : Gathered) (w : Written) : Prop :=
  ∃ ws, List.Forall₂ Deferred.SpelledAs found.deferred ws ∧
    w.Reorders (Entries.put "deferred_discriminators" (.list ws) found.toJson.ownFields)

theorem spelledAs_written (found : Gathered) : found.SpelledAs found.toJson.written := by
  refine ⟨found.deferred.map fun marked => marked.toJson.written,
    List.forall₂_map_right_iff.2 (List.forall₂_same.2 fun marked _ => marked.spelledAs_written), ?_⟩
  have hsame : Entries.put "deferred_discriminators"
      (.list (found.deferred.map fun marked => marked.toJson.written)) found.toJson.ownFields =
        found.toJson.ownFields := by
    simp [toJson, Json.ownFields, Entries.put, Json.written, Json.writtenItems_eq,
      Function.comp_def]
  rw [hsame]
  exact Written.reorders_written _

theorem reads {found : Gathered} {w : Written} (hvalues : found.WellFormed)
    (h : found.SpelledAs w) : decoder.Reads found.toJson.depth found w := by
  obtain ⟨ws, hws, hfields⟩ := h
  intro more hmore
  obtain ⟨below, rfl, hlevels⟩ := Json.exists_levels_of_object hmore
  refine Decoder.record_of_hasFields hfields
    (by simp [toJson, Json.ownFields, Entries.names, Entries.put]) fun fields hfind => ?_
  have hoccurrences : Decoder.required "definition_refs" (.object (.list NodeId.decoder)) below
      fields = some found.occurrences := by
    apply Decoder.required_of_find? (hfind "definition_refs")
    refine Decoder.Inverts.object (fun ids _ => ?_) below (hlevels _ List.mem_cons_self)
    exact Decoder.Inverts.list fun id _ => id.inverts
  have hrecursive : Decoder.required "recursive_refs" .names below fields =
      some found.recursive := by
    apply Decoder.required_of_find? (hfind "recursive_refs")
    exact Decoder.inverts_names found.recursive below
      (hlevels _ (List.mem_cons_of_mem _ List.mem_cons_self))
  have hdeferred : Decoder.required "deferred_discriminators" (.list Deferred.decoder) below
      fields = some found.deferred := by
    apply Decoder.required_of_find? (hfind "deferred_discriminators")
    refine Decoder.Reads.list ?_ below
      (hlevels _ (List.mem_cons_of_mem _ (List.mem_cons_of_mem _ List.mem_cons_self)))
    have hread := List.forall₂_and_left _ _ |>.2 ⟨hvalues, hws⟩
    exact hread.imp fun _ _ h => Deferred.reads h.1 h.2
  simp only [hoccurrences, hrecursive, hdeferred, Option.bind_eq_bind, Option.bind_some]
  rfl

end Gathered

namespace Settings

/-- **The spellings of settings**: its fields in any order, with others between them, but for some that
are as in the default settings and are left out. -/
def SpelledAs (s : Settings) (w : Written) : Prop :=
  ∃ kept : List (String × Written), kept.Sublist s.toJson.ownFields ∧
    (∀ field ∈ s.toJson.ownFields, field ∉ kept → field ∈ ({} : Settings).toJson.ownFields) ∧
    w.HasFields fieldNames kept

theorem spelledAs_written (s : Settings) : s.SpelledAs s.toJson.written :=
  ⟨s.toJson.ownFields, .refl _, fun _ hmem hnot => absurd hmem hnot, Written.reorders_written _⟩

theorem reads {s : Settings} {w : Written} (h : s.SpelledAs w) :
    decoder.Reads s.toJson.depth s w := by
  obtain ⟨kept, hkept, hdefault, hfields⟩ := h
  intro more hmore
  obtain ⟨below, rfl, hlevels⟩ := Json.exists_levels_of_object hmore
  have hown : (Entries.names s.toJson.ownFields).Nodup := by
    simp [toJson, Json.ownFields, Entries.names]
  refine Decoder.record_of_hasFields hfields (hown.sublist (hkept.map Prod.fst))
    fun fields hfind => ?_
  -- a field that was left out was at its default
  have hread : ∀ {α : Type} {d : Decoder α} {encode : α → Json} {name : String} {value a : α},
      (name, (encode a).written) ∈ s.toJson.ownFields → d.Inverts encode a →
      (encode a).depth ≤ below →
      ((name, (encode a).written) ∈ ({} : Settings).toJson.ownFields → value = a) →
        Decoder.withDefault name value d below fields = some a :=
    fun hmem hd hdepth hvalue => Decoder.withDefault_of_sublist hkept hown hfind hmem
      (hd below hdepth) fun hnot => hvalue (hdefault _ hmem hnot)
  have hversion : Decoder.withDefault "version" ({} : Settings).version .word32 below fields =
      some s.version := by
    refine hread (by simp [toJson, Json.ownFields]) (Decoder.inverts_word32 s.version)
      (Nat.zero_le _) fun hsame => ?_
    have hone : (s.version.toNat : Int) = 1 := by
      simpa [toJson, Json.ownFields, Json.written, Json.ofNat] using hsame
    exact UInt32.toNat_inj.1 (Int.ofNat_inj.1 hone.symm)
  have hkey : Decoder.withDefault "discriminator_key" ({} : Settings).discriminatorKey .text below
      fields = some s.discriminatorKey := by
    refine hread (by simp [toJson, Json.ownFields]) (Decoder.inverts_text s.discriminatorKey)
      (Nat.zero_le _) fun hsame => Eq.symm ?_
    simpa [toJson, Json.ownFields, Json.written] using hsame
  have hinvalid : Decoder.withDefault "invalid_key" ({} : Settings).invalidKey .text below fields =
      some s.invalidKey := by
    refine hread (by simp [toJson, Json.ownFields]) (Decoder.inverts_text s.invalidKey)
      (Nat.zero_le _) fun hsame => Eq.symm ?_
    simpa [toJson, Json.ownFields, Json.written] using hsame
  have hinline : Decoder.withDefault "inline_single_use" ({} : Settings).inlineSingleUse .bool below
      fields = some s.inlineSingleUse := by
    refine hread (by simp [toJson, Json.ownFields]) (Decoder.inverts_bool s.inlineSingleUse)
      (Nat.zero_le _) fun hsame => Eq.symm ?_
    simpa [toJson, Json.ownFields, Json.written] using hsame
  simp only [hversion, hkey, hinvalid, hinline, Option.bind_eq_bind, Option.bind_some]
  rfl

end Settings

/-! ### What is encoded reads back -/

/-- Wherever the reader is left as many levels as the encoding nests, it gives back what was encoded,
from the encoding and from each of its spellings. -/
def Decoder.ReadsBack {α : Type} (d : Decoder α) (encode : α → Json)
    (spelledAs : α → Written → Prop) (a : α) : Prop :=
  ∀ levels, (encode a).depth ≤ levels →
    d levels (encode a).written = some a ∧ ∀ w, spelledAs a w → d levels w = some a

/-- **What is encoded reads back**, child locations, choices, marked nodes, reference graphs and
settings, and so do their spellings. A discriminator is a JSON value, so none of its objects has two
fields of one name. -/
theorem encoded_readsBack :
    (∀ child, Child.decoder.ReadsBack Child.toJson Child.SpelledAs child) ∧
      (∀ choice, Choice.decoder.ReadsBack Choice.toJson Choice.SpelledAs choice) ∧
      (∀ deferred : Deferred, deferred.discriminator.WellFormed →
        Deferred.decoder.ReadsBack Deferred.toJson Deferred.SpelledAs deferred) ∧
      (∀ found : Gathered, found.WellFormed →
        Gathered.decoder.ReadsBack Gathered.toJson Gathered.SpelledAs found) ∧
      ∀ s, Settings.decoder.ReadsBack Settings.toJson Settings.SpelledAs s := by
  refine ⟨fun child levels h => ⟨child.inverts levels h, fun w hw => ?child⟩,
    fun choice levels h => ⟨Choice.reads choice.spelledAs_written levels h, fun w hw => ?choice⟩,
    fun deferred hvalue levels h => ⟨?_, fun w hw => ?deferred⟩,
    fun found hvalues levels h => ⟨?_, fun w hw => ?found⟩,
    fun s levels h => ⟨Settings.reads s.spelledAs_written levels h, fun w hw => ?settings⟩⟩
  case child => exact Child.reads hw levels h
  case choice => exact Choice.reads hw levels h
  case deferred => exact Deferred.reads hvalue hw levels h
  case found => exact Gathered.reads hvalues hw levels h
  case settings => exact Settings.reads hw levels h
  · exact Deferred.reads hvalue deferred.spelledAs_written levels h
  · exact Gathered.reads hvalues found.spelledAs_written levels h

def markedGraph : Gathered where
  occurrences := .ofList [("b", [⟨0⟩]), ("a", [⟨0⟩, ⟨3⟩])]
  recursive := .ofList ["a"]
  deferred := [⟨⟨1⟩, .object [("k", .list [.null])]⟩]

/-- The graph with its fields and those of the marked node in another order, and with further fields,
one of which comes twice. -/
def shuffledGraph : Written :=
  .object [
    (some "note", .number none),
    (some "deferred_discriminators", .list [.object [
      (some "discriminator", .object [(some "k", .list [.null])]),
      (some "note", .null),
      (some "node", .number (some (.int 1)))]]),
    (some "definition_refs", .object [
      (some "b", .list [.number (some (.int 0))]),
      (some "a", .list [.number (some (.int 0)), .number (some (.int 3))])]),
    (some "note", .null),
    (some "recursive_refs", .list [.text (some "a")])]

theorem spelledAs_shuffledGraph : markedGraph.SpelledAs shuffledGraph := by
  refine ⟨[_], .cons ⟨[("discriminator", _), ("note", .null), ("node", _)], rfl, .swap _ _ _⟩ .nil,
    [("note", .number none), ("deferred_discriminators", _), ("definition_refs", _),
      ("note", .null), ("recursive_refs", _)], rfl, ?_⟩
  exact (List.perm_append_singleton _ _).symm

/-- The shuffled graph is read as what it spells, and settings of which only one field is written as
the default settings but for this field. -/
theorem shuffledGraph_readsBack :
    Gathered.decoder 5 markedGraph.toJson.written = some markedGraph ∧
      Gathered.decoder Written.maxDepth shuffledGraph = some markedGraph ∧
      Settings.decoder 1 (.object [(some "note", .null), (some "invalid_key", .text (some "bad"))]) =
        some { invalidKey := "bad" } := by
  have hvalues : markedGraph.WellFormed := by
    simp [markedGraph, Gathered.WellFormed, Json.WellFormed, Json.WellFormedFields,
      Json.WellFormedItems, Entries.names]
  have hsettings : Settings.SpelledAs { invalidKey := "bad" }
      (.object [(some "note", .null), (some "invalid_key", .text (some "bad"))]) := by
    refine ⟨[("invalid_key", .text (some "bad"))], ?_, ?_,
      [("note", .null), ("invalid_key", .text (some "bad"))], rfl, .refl _⟩
    · exact .cons _ (.cons _ (.cons_cons _ (.cons _ .slnil)))
    · simp [Settings.toJson, Json.ownFields, Json.written]
  obtain ⟨-, -, -, hgraph, hread⟩ := encoded_readsBack
  exact ⟨(hgraph markedGraph hvalues 5 (by decide)).1,
    (hgraph markedGraph hvalues Written.maxDepth (by decide)).2 _ spelledAs_shuffledGraph,
    (hread _ 1 (by decide)).2 _ hsettings⟩

end SchemaGraph
