import Mathlib.Data.List.Nodup
import Mathlib.Data.List.Pairwise
import SchemaGraph.Traversal.Children
import SchemaGraph.Proofs.Pass

/-!
Nodes that are alike but for the ids they hold. Rebuilding a node with new children gives such a
node, its ids related one by one to the old ones.

* `Node.Alike` — equal content and arrangement, ids related place by place;
* `Node.alike_relink` — what `relink` gives when the new ids are related to the old ones in walking
  order;
* `Node.orderedChildren_relink` — what walking order then reads off again.
-/

namespace SchemaGraph

/-- How the schemas in a child location are arranged, without their ids. -/
inductive Form where
  | one
  | many (count : Nat)
  | choices (labels : List (Option String))
  | keyed (names : List String)
deriving DecidableEq

section OptionRel

variable {α β : Type} {R S : α → β → Prop} {a : Option α} {b : Option β}

theorem optionRel_mono (h : Option.Rel R a b) (hRS : ∀ x y, R x y → S x y) : Option.Rel S a b := by
  cases h with
  | none => exact .none
  | some hxy => exact .some (hRS _ _ hxy)

theorem optionRel_flip (h : Option.Rel R a b) : Option.Rel (fun y x => R x y) b a := by
  cases h with
  | none => exact .none
  | some hxy => exact .some hxy

theorem exists_of_optionRel {y : β} (h : Option.Rel R a b) (hb : b = some y) :
    ∃ x, a = some x ∧ R x y := by
  cases h with
  | none => cases hb
  | some hxy =>
    cases hb
    exact ⟨_, rfl, hxy⟩

theorem forall₂_toList (h : Option.Rel R a b) : List.Forall₂ R a.toList b.toList := by
  cases h with
  | none => exact .nil
  | some hxy => exact .cons hxy .nil

end OptionRel

namespace Child

def form : Child → Form
  | .one _ => .one
  | .many ids => .many ids.length
  | .choices cs => .choices (cs.map Choice.label)
  | .keyed schemas => .keyed schemas.keys

/-- The same arrangement of ids that are related in order. -/
structure Alike (R : NodeId → NodeId → Prop) (child other : Child) : Prop where
  form : other.form = child.form
  ids : List.Forall₂ R child.ids other.ids

variable {R : NodeId → NodeId → Prop}

theorem alike_choices : ∀ {cs : List Choice} {ids : List NodeId},
    List.Forall₂ R (cs.map Choice.schema) ids →
      (List.zipWith (fun choice id => { choice with schema := id }) cs ids).map Choice.label =
          cs.map Choice.label ∧
        (List.zipWith (fun choice id => { choice with schema := id }) cs ids).map Choice.schema = ids
  | [], _, .nil => ⟨rfl, rfl⟩
  | choice :: cs, _, .cons _ h => by
    obtain ⟨hlabels, hids⟩ := alike_choices h
    simp [hlabels, hids]

theorem ids_relink {child : Child} {ids : List NodeId} (h : child.ids.length = ids.length) :
    (child.relink ids).ids = ids := by
  cases child with
  | one id =>
    obtain ⟨new, rfl⟩ := List.length_eq_one_iff.1 h.symm
    rfl
  | many old => rfl
  | choices cs =>
    have hany : List.Forall₂ (fun _ _ => True) (cs.map Choice.schema) ids :=
      forall₂_of_length_eq h
    exact (alike_choices hany).2
  | keyed schemas =>
    refine schemas.values_withValues (h.symm.trans ?_)
    simp [Child.ids, OrderedMap.values, OrderedMap.size]

theorem alike_relink {child : Child} {ids : List NodeId} (h : List.Forall₂ R child.ids ids) :
    child.Alike R (child.relink ids) := by
  refine ⟨?_, by rwa [ids_relink h.length_eq]⟩
  cases child with
  | one id => rfl
  | many old => exact congrArg Form.many h.length_eq.symm
  | choices cs => exact congrArg Form.choices (alike_choices h).1
  | keyed schemas => exact congrArg Form.keyed (schemas.keys_withValues ids)

theorem Alike.refl {child : Child} (h : ∀ id ∈ child.ids, R id id) : child.Alike R child :=
  ⟨rfl, List.forall₂_same.2 h⟩

theorem Alike.shape_eq {child other : Child} (h : child.Alike R other) :
    other.shape = child.shape := by
  have hform := h.form
  cases child <;> cases other <;> first | rfl | cases hform

theorem Alike.of_one {id : NodeId} {other : Child} (h : (Child.one id).Alike R other) :
    ∃ id', other = .one id' ∧ R id id' := by
  obtain ⟨hform, hids⟩ := h
  cases other with
  | one id' => exact ⟨id', rfl, (List.forall₂_cons.1 hids).1⟩
  | _ => cases hform

theorem Alike.of_many {schemas : List NodeId} {other : Child} (h : (Child.many schemas).Alike R other) :
    ∃ schemas', other = .many schemas' ∧ List.Forall₂ R schemas schemas' := by
  obtain ⟨hform, hids⟩ := h
  cases other with
  | many schemas' => exact ⟨schemas', rfl, hids⟩
  | _ => cases hform

end Child

namespace Node

theorem kind?_of_isReference {node : Node} (h : node.isReference = true) :
    node.kind? = some .definitionRef := by
  rw [kind?, eq_of_beq h, Kind.ofTag?_tag]

theorem isReference_iff {node : Node} : node.isReference ↔ node.kind? = some .definitionRef :=
  ⟨kind?_of_isReference, fun h => beq_iff_eq.2 (Kind.tag_of_ofTag? h).symm⟩

/-- Nodes of equal content whose children and serialization are arranged in the same way, the ids
there related. -/
structure Alike (R : NodeId → NodeId → Prop) (node other : Node) : Prop where
  content : other = { node with children := other.children, serialization := other.serialization }
  keys : other.children.keys = node.children.keys
  children : ∀ key, Option.Rel (Child.Alike R) (node.children.get? key) (other.children.get? key)
  serialization : Option.Rel R node.serialization other.serialization

variable {R : NodeId → NodeId → Prop} {node other : Node} {kind : Kind}

theorem Alike.tag_eq (h : node.Alike R other) : other.tag = node.tag :=
  (congrArg Node.tag h.content :)

theorem Alike.name_eq (h : node.Alike R other) : other.name = node.name :=
  (congrArg Node.name h.content :)

theorem Alike.target_eq (h : node.Alike R other) : other.target = node.target :=
  (congrArg Node.target h.content :)

theorem Alike.metadata_eq (h : node.Alike R other) : other.metadata = node.metadata :=
  (congrArg Node.metadata h.content :)

theorem Alike.kind?_eq (h : node.Alike R other) : other.kind? = node.kind? := by
  rw [kind?, kind?, h.tag_eq]

theorem Alike.isReference_eq (h : node.Alike R other) : other.isReference = node.isReference := by
  rw [isReference, isReference, h.tag_eq]

theorem Alike.mono {S : NodeId → NodeId → Prop} (h : node.Alike R other)
    (hRS : ∀ id x, R id x → S id x) : node.Alike S other where
  content := h.content
  keys := h.keys
  children key := optionRel_mono (h.children key) fun _ _ hchild =>
    ⟨hchild.form, hchild.ids.imp hRS⟩
  serialization := optionRel_mono h.serialization hRS

theorem Alike.flip (h : node.Alike R other) : other.Alike (fun y x => R x y) node where
  content := by rw [h.content]
  keys := h.keys.symm
  children key := optionRel_mono (optionRel_flip (h.children key)) fun _ _ hchild =>
    ⟨hchild.form.symm, hchild.ids.flip⟩
  serialization := optionRel_flip h.serialization

/-! ### Walking order -/

def idsAt (children : OrderedMap Child) (slot : Slot) : List NodeId :=
  match children.get? slot.key with
  | some child => child.ids
  | none => []

theorem orderedChildren_eq (kind : Kind) (node : Node) :
    node.orderedChildren kind = kind.slots.flatMap (idsAt node.children) ++ node.serialization.toList :=
  rfl

def slotIds (kind : Kind) (node : Node) : List NodeId := kind.slots.flatMap (idsAt node.children)

theorem orderedChildren_eq_slotIds (kind : Kind) (node : Node) :
    node.orderedChildren kind = node.slotIds kind ++ node.serialization.toList := rfl

theorem slot?_of_fits {key : String} {child : Child} (h : node.misfit? kind = none)
    (hchild : node.children.get? key = some child) : (kind.slot? key).isSome := by
  have hentry := List.findSome?_eq_none_iff.1 h (key, child) (OrderedMap.mem_entries_iff.2 hchild)
  unfold childDefect? at hentry
  cases hslot : kind.slot? key with
  | some slot => rfl
  | none => simp [hslot] at hentry

theorem fits_iff : node.misfit? kind = none ↔ ∀ key child, node.children.get? key = some child →
    ∃ slot, kind.slot? key = some slot ∧ slot.shape = child.shape := by
  simp only [misfit?, List.findSome?_eq_none_iff, Option.map_eq_none_iff, Prod.forall,
    OrderedMap.mem_entries_iff]
  refine forall₃_congr fun key child _ => ?_
  unfold childDefect?
  cases kind.slot? key with
  | none => simp
  | some slot => simp

theorem Alike.fits (h : node.Alike R other) (hfits : node.misfit? kind = none) :
    other.misfit? kind = none := by
  refine fits_iff.2 fun key child hchild => ?_
  obtain ⟨old, hold, halike⟩ := exists_of_optionRel (h.children key) hchild
  obtain ⟨slot, hslot, hshape⟩ := fits_iff.1 hfits key old hold
  exact ⟨slot, hslot, hshape.trans halike.shape_eq.symm⟩

theorem key_mem_of_fits {key : String} (h : node.misfit? kind = none)
    (hkey : key ∈ node.children.keys) : key ∈ kind.slots.map Slot.key := by
  obtain ⟨child, hchild⟩ := Option.isSome_iff_exists.1 (OrderedMap.mem_keys_iff.1 hkey)
  obtain ⟨slot, hslot⟩ := Option.isSome_iff_exists.1 (slot?_of_fits h hchild)
  exact List.mem_map.2 ⟨slot, Kind.mem_slots_of_slot? hslot, Kind.key_of_slot? hslot⟩

theorem mem_orderedChildren (h : node.misfit? kind = none) {id : NodeId} :
    id ∈ node.orderedChildren kind ↔ id ∈ node.storedIds := by
  simp only [orderedChildren_eq, storedIds, List.mem_append, OrderedMap.values, List.mem_flatMap,
    List.mem_map, Prod.exists, exists_eq_right, idsAt]
  refine or_congr_left ⟨?_, ?_⟩
  · rintro ⟨slot, -, hid⟩
    cases hchild : node.children.get? slot.key with
    | none => simp [hchild] at hid
    | some child =>
      rw [hchild] at hid
      exact ⟨child, ⟨slot.key, OrderedMap.mem_entries_iff.2 hchild⟩, hid⟩
  · rintro ⟨child, ⟨key, hentry⟩, hid⟩
    have hchild := OrderedMap.mem_entries_iff.1 hentry
    obtain ⟨slot, hslot⟩ := Option.isSome_iff_exists.1 (slot?_of_fits h hchild)
    refine ⟨slot, Kind.mem_slots_of_slot? hslot, ?_⟩
    rw [Kind.key_of_slot? hslot, hchild]
    exact hid

/-- No id comes twice in walking order if none is stored twice. -/
theorem nodup_orderedChildren (kind : Kind) (h : node.storedIds.Nodup) :
    (node.orderedChildren kind).Nodup := by
  rw [storedIds, OrderedMap.values, List.flatMap_map] at h
  obtain ⟨hentries, hserialization, hdisjoint⟩ := List.nodup_append.1 h
  obtain ⟨hown, hapart⟩ := List.nodup_flatMap.1 hentries
  have hentry : ∀ slot id, id ∈ idsAt node.children slot →
      ∃ child, (slot.key, child) ∈ node.children.entries ∧ id ∈ child.ids := by
    intro slot id hid
    unfold idsAt at hid
    split at hid
    · rename_i child hchild
      exact ⟨child, OrderedMap.mem_entries_iff.2 hchild, hid⟩
    · cases hid
  rw [orderedChildren_eq]
  refine List.nodup_append.2 ⟨List.nodup_flatMap.2 ⟨fun slot _ => ?_, ?_⟩, hserialization, ?_⟩
  · unfold idsAt
    split
    · rename_i child hchild
      exact hown _ (OrderedMap.mem_entries_iff.2 hchild)
    · exact List.nodup_nil
  · refine (List.pairwise_map.1 kind.nodup_slot_keys).imp fun {a b} hne => ?_
    intro id ha hb
    obtain ⟨child, hchild, hid⟩ := hentry a id ha
    obtain ⟨child', hchild', hid'⟩ := hentry b id hb
    have : Std.Symm (Function.onFun List.Disjoint fun entry : String × Child => entry.2.ids) :=
      ⟨fun _ _ h _ hright hleft => h hleft hright⟩
    exact hapart.forall hchild hchild' (fun e => hne (congrArg Prod.fst e)) hid hid'
  · intro id hid other hother
    obtain ⟨slot, -, hid⟩ := List.mem_flatMap.1 hid
    obtain ⟨child, hchild, hid⟩ := hentry slot id hid
    exact hdisjoint id (List.mem_flatMap.2 ⟨_, hchild, hid⟩) other hother

/-- What handing out ids to locations in order makes of the children. -/
theorem relinkSlots_alike (rest : List NodeId) : ∀ {slots : List Slot} {children : OrderedMap Child}
    {ids : List NodeId}, (slots.map Slot.key).Nodup →
      List.Forall₂ R (slots.flatMap (idsAt children)) ids →
      ∃ out, relinkSlots slots (ids ++ rest) children = (out, rest) ∧ out.keys = children.keys ∧
        slots.flatMap (idsAt out) = ids ∧
        (∀ key, key ∉ slots.map Slot.key → out.get? key = children.get? key) ∧
        ∀ key ∈ slots.map Slot.key,
          Option.Rel (Child.Alike R) (children.get? key) (out.get? key)
  | [], children, _, _, .nil => ⟨children, rfl, rfl, rfl, fun _ _ => rfl, fun _ h => by cases h⟩
  | slot :: slots, children, ids, hnodup, h => by
    obtain ⟨hslot, hslots⟩ := List.nodup_cons.1 hnodup
    rw [List.flatMap_cons] at h
    cases hchild : children.get? slot.key with
    | none =>
      rw [idsAt, hchild] at h
      obtain ⟨out, hout, hkeys, hids, hother, halike⟩ := relinkSlots_alike rest hslots h
      refine ⟨out, ?_, hkeys, ?_, fun key hkey => ?_, fun key hkey => ?_⟩
      · rw [relinkSlots, hchild]
        exact hout
      · rw [List.flatMap_cons, hids, idsAt, hother _ hslot, hchild]
        rfl
      · exact hother key fun hmem => hkey (List.mem_cons_of_mem _ hmem)
      · rcases List.mem_cons.1 hkey with rfl | hkey
        · rw [hother _ hslot, hchild]
          exact .none
        · exact halike key hkey
    | some child =>
      have hat : idsAt children slot = child.ids := by rw [idsAt, hchild]
      rw [hat] at h
      have hfront := List.forall₂_take child.ids.length h
      have hback := List.forall₂_drop child.ids.length h
      rw [List.take_left] at hfront
      rw [List.drop_left] at hback
      have hcount : child.ids.length ≤ ids.length := by
        have := h.length_eq
        rw [List.length_append] at this
        omega
      -- the other locations hold what they held
      have hothers : slots.flatMap (idsAt children) = slots.flatMap (idsAt
          (children.insert slot.key (child.relink (ids.take child.ids.length)))) := by
        refine List.flatMap_congr fun other hmem => ?_
        have hne : other.key ≠ slot.key := fun e => hslot (e ▸ List.mem_map_of_mem hmem)
        rw [idsAt, idsAt, OrderedMap.get?_insert_of_ne _ _ hne]
      rw [hothers] at hback
      obtain ⟨out, hout, hkeys, hids, hother, halike⟩ := relinkSlots_alike rest hslots hback
      refine ⟨out, ?_, ?_, ?_, fun key hkey => ?_, fun key hkey => ?_⟩
      · rw [relinkSlots, hchild]
        simp only [List.take_append_of_le_length hcount, List.drop_append_of_le_length hcount]
        exact hout
      · rw [hkeys, OrderedMap.keys_insert_of_mem _ (OrderedMap.mem_keys_of_get? hchild)]
      · have hfilled : idsAt out slot = ids.take child.ids.length := by
          rw [idsAt, hother _ hslot, OrderedMap.get?_insert_self]
          exact Child.ids_relink hfront.length_eq
        rw [List.flatMap_cons, hfilled, hids, List.take_append_drop]
      · obtain ⟨hne, hkey⟩ := not_or.1 fun h => hkey (List.mem_cons.2 h)
        rw [hother key hkey, OrderedMap.get?_insert_of_ne _ _ hne]
      · rcases List.mem_cons.1 hkey with rfl | hkey
        · rw [hother _ hslot, OrderedMap.get?_insert_self, hchild]
          exact .some (Child.alike_relink hfront)
        · have hne : key ≠ slot.key := fun e => hslot (e ▸ hkey)
          have := halike key hkey
          rwa [OrderedMap.get?_insert_of_ne _ _ hne] at this

/-- Handing out ids to all locations of a kind leaves one for the serialization if there is one. -/
theorem exists_relinkSlots {ids : List NodeId} (h : List.Forall₂ R (node.orderedChildren kind) ids) :
    ∃ out last, relinkSlots kind.slots ids node.children = (out, Option.toList last) ∧
      out.keys = node.children.keys ∧ kind.slots.flatMap (idsAt out) ++ last.toList = ids ∧
      (∀ key, key ∉ kind.slots.map Slot.key → out.get? key = node.children.get? key) ∧
      (∀ key ∈ kind.slots.map Slot.key,
        Option.Rel (Child.Alike R) (node.children.get? key) (out.get? key)) ∧
      Option.Rel R node.serialization last := by
  rw [orderedChildren_eq_slotIds] at h
  have hfront := List.forall₂_take (node.slotIds kind).length h
  have hback := List.forall₂_drop (node.slotIds kind).length h
  rw [List.take_left] at hfront
  rw [List.drop_left] at hback
  obtain ⟨out, hout, hkeys, hids, hother, halike⟩ := relinkSlots_alike
    (ids.drop (node.slotIds kind).length) kind.nodup_slot_keys hfront
  obtain ⟨last, hlast, hserialization⟩ : ∃ last : Option NodeId,
      last.toList = ids.drop (node.slotIds kind).length ∧ Option.Rel R node.serialization last := by
    revert hback
    generalize ids.drop (node.slotIds kind).length = rest
    cases node.serialization with
    | none =>
      intro hback
      exact ⟨none, (List.forall₂_nil_left_iff.1 hback).symm, .none⟩
    | some id =>
      intro hback
      obtain ⟨new, _, hnew, hnil, rfl⟩ := List.forall₂_cons_left_iff.1 hback
      rw [List.forall₂_nil_left_iff.1 hnil]
      exact ⟨some new, rfl, .some hnew⟩
  rw [List.take_append_drop, ← hlast] at hout
  refine ⟨out, last, hout, hkeys, ?_, hother, halike, hserialization⟩
  rw [hids, hlast, List.take_append_drop]

/-- **A rebuilt node is alike** when its new ids are related to the old ones in walking order. -/
theorem alike_relink (hfits : node.misfit? kind = none) {ids : List NodeId}
    (h : List.Forall₂ R (node.orderedChildren kind) ids) :
    node.Alike R (node.relink kind node ids) := by
  obtain ⟨out, last, hout, hkeys, -, hother, halike, hserialization⟩ := exists_relinkSlots h
  simp only [relink, hout]
  refine ⟨rfl, hkeys, fun key => ?_, ?_⟩
  · by_cases hkey : key ∈ kind.slots.map Slot.key
    · exact halike key hkey
    · have hnone : node.children.get? key = none :=
        OrderedMap.get?_eq_none.2 fun hmem => hkey (key_mem_of_fits hfits hmem)
      show Option.Rel _ _ (out.get? key)
      rw [hother key hkey, hnone]
      exact .none
  · show Option.Rel R node.serialization last.toList.head?
    rwa [Option.head?_toList]

/-- **Ids that are handed out in walking order are read off in this order.** -/
theorem orderedChildren_relink {ids : List NodeId}
    (h : (node.orderedChildren kind).length = ids.length) :
    (node.relink kind node ids).orderedChildren kind = ids := by
  have hany : List.Forall₂ (fun _ _ => True) (node.orderedChildren kind) ids :=
    forall₂_of_length_eq h
  obtain ⟨out, last, hout, -, hids, -⟩ := exists_relinkSlots hany
  simp only [relink, hout, orderedChildren_eq, Option.head?_toList, hids]

theorem forall₂_idsAt {children others : OrderedMap Child} (slot : Slot)
    (h : Option.Rel (Child.Alike R) (children.get? slot.key) (others.get? slot.key)) :
    List.Forall₂ R (idsAt children slot) (idsAt others slot) := by
  rw [idsAt, idsAt]
  revert h
  generalize children.get? slot.key = child
  generalize others.get? slot.key = other
  intro h
  cases h with
  | none => exact .nil
  | some halike => exact halike.ids

/-- Nodes that are alike walk to related children. -/
theorem Alike.orderedChildren (h : node.Alike R other) (kind : Kind) :
    List.Forall₂ R (node.orderedChildren kind) (other.orderedChildren kind) := by
  have hslots : ∀ slots : List Slot,
      List.Forall₂ R (slots.flatMap (idsAt node.children)) (slots.flatMap (idsAt other.children)) := by
    intro slots
    induction slots with
    | nil => exact .nil
    | cons slot slots ih => exact List.rel_append (forall₂_idsAt slot (h.children slot.key)) ih
  rw [orderedChildren_eq, orderedChildren_eq]
  exact List.rel_append (hslots kind.slots) (forall₂_toList h.serialization)

theorem Alike.refl (h : ∀ id ∈ node.storedIds, R id id) : node.Alike R node where
  content := rfl
  keys := rfl
  children key := by
    cases hchild : node.children.get? key with
    | none => exact .none
    | some child =>
      refine .some (Child.Alike.refl fun id hid => h id ?_)
      refine List.mem_append_left _ (List.mem_flatMap.2 ⟨child, ?_, hid⟩)
      exact List.mem_map.2 ⟨_, OrderedMap.mem_entries_iff.2 hchild, rfl⟩
  serialization := by
    cases hid : node.serialization with
    | none => exact .none
    | some id => exact .some (h id (by simp [storedIds, hid]))

theorem Alike.exists_storedId (h : node.Alike R other) {x : NodeId} (hx : x ∈ other.storedIds) :
    ∃ id ∈ node.storedIds, R id x := by
  simp only [storedIds, List.mem_append, List.mem_flatMap, OrderedMap.values, List.mem_map,
    Prod.exists, exists_eq_right, Option.mem_toList] at hx ⊢
  rcases hx with ⟨child, ⟨key, hentry⟩, hx⟩ | hx
  · obtain ⟨old, hold, halike⟩ :=
      exists_of_optionRel (h.children key) (OrderedMap.mem_entries_iff.1 hentry)
    obtain ⟨id, hid, hrel⟩ := exists_left_of_forall₂ halike.ids hx
    exact ⟨id, .inl ⟨old, ⟨key, OrderedMap.mem_entries_iff.2 hold⟩, hid⟩, hrel⟩
  · obtain ⟨id, hold, hid⟩ := exists_of_optionRel h.serialization hx
    exact ⟨id, .inr hold, hid⟩

end Node

end SchemaGraph
