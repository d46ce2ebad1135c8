import SchemaGraph.Proofs.Rebuild
import SchemaGraph.Proofs.Trees

/-!
The check of a node against the slot table. The check goes through the stored children, the walk
goes through the locations of the kind. Since no key comes twice on either side, the walk over a node
that passes meets what is stored, all of it and nothing else.

* `Kind.Takes`, `Kind.Misplaces` — what the table says about a stored child;
* `Node.arranged_perm` — the stored children, put in the order of the table;
* `Node.checkSlots_cases` — **no stored child escapes the table**.
-/

namespace SchemaGraph

/-! ### What the table says -/

/-- The kind has a location of that key and of the shape of the child. -/
def Kind.Takes (kind : Kind) (key : String) (child : Child) : Prop :=
  ∃ slot ∈ kind.slots, slot.key = key ∧ slot.shape = child.shape

/-- What is wrong with a child under that key: the kind has no such location, or one of another
shape. -/
inductive Kind.Misplaces (kind : Kind) (key : String) (child : Child) : Defect → Prop where
  | foreign (hkey : key ∉ kind.slots.map Slot.key) : Misplaces kind key child (.notSlot kind key)
  | shape {slot : Slot} (hslot : slot ∈ kind.slots) (hkey : slot.key = key)
      (hshape : slot.shape ≠ child.shape) :
      Misplaces kind key child (.wrongShape kind slot.shape key)

namespace Kind

variable {kind : Kind} {slot : Slot} {key : String}

theorem slot?_of_mem_slots (h : slot ∈ kind.slots) : kind.slot? slot.key = some slot := by
  unfold slot?
  obtain ⟨before, after, hslots⟩ := List.append_of_mem h
  have hnodup := kind.nodup_slot_keys
  rw [hslots, List.map_append, List.nodup_append] at hnodup
  have hbefore : ∀ other ∈ before, ¬ (other.key == slot.key) := by
    intro other hother heq
    refine hnodup.2.2 other.key (List.mem_map_of_mem hother) slot.key ?_ (beq_iff_eq.1 heq)
    rw [List.map_cons]
    exact List.mem_cons_self
  rw [hslots, List.find?_append, List.find?_eq_none.2 hbefore, Option.none_or]
  exact List.find?_cons_of_pos (beq_self_eq_true slot.key)

theorem slot?_eq_some : kind.slot? key = some slot ↔ slot ∈ kind.slots ∧ slot.key = key := by
  constructor
  · exact fun h => ⟨mem_slots_of_slot? h, key_of_slot? h⟩
  · rintro ⟨hslot, rfl⟩
    exact slot?_of_mem_slots hslot

theorem slot?_eq_none : kind.slot? key = .none ↔ key ∉ kind.slots.map Slot.key := by
  rw [slot?, List.find?_eq_none, List.mem_map]
  constructor
  · rintro h ⟨slot, hslot, rfl⟩
    exact h slot hslot (beq_self_eq_true slot.key)
  · intro h slot hslot heq
    exact h ⟨slot, hslot, beq_iff_eq.1 heq⟩

end Kind

namespace Node

variable {kind : Kind} {node : Node} {key : String} {child : Child}

theorem childDefect?_eq_none : childDefect? kind key child = none ↔ kind.Takes key child := by
  unfold childDefect? Kind.Takes
  cases hslot : kind.slot? key with
  | none =>
    have hkey := Kind.slot?_eq_none.1 hslot
    refine iff_of_false (by simp) ?_
    rintro ⟨slot, hmem, rfl, -⟩
    exact hkey (List.mem_map_of_mem hmem)
  | some slot =>
    obtain ⟨hmem, hkey⟩ := Kind.slot?_eq_some.1 hslot
    constructor
    · intro h
      have hshape : slot.shape = child.shape := by
        by_contra hne
        simp [hne] at h
      exact ⟨slot, hmem, hkey, hshape⟩
    · rintro ⟨other, hother, hother_key, hshape⟩
      -- keys tell locations apart
      have hsame := Kind.slot?_of_mem_slots hother
      rw [hother_key, hslot] at hsame
      cases hsame
      simp [hshape]

theorem misplaces_of_childDefect? {defect : Defect}
    (h : childDefect? kind key child = some defect) :
    kind.Misplaces key child defect := by
  unfold childDefect? at h
  cases hslot : kind.slot? key with
  | none =>
    rw [hslot] at h
    cases h
    exact .foreign (Kind.slot?_eq_none.1 hslot)
  | some slot =>
    obtain ⟨hmem, hkey⟩ := Kind.slot?_eq_some.1 hslot
    simp only [hslot] at h
    split at h
    · cases h
    · rename_i hshape
      cases h
      exact .shape hmem hkey hshape

/-- The misfit is the first stored child that the kind does not take. -/
theorem exists_first_of_misfit? {defect : Defect} (h : node.misfit? kind = some (key, defect)) :
    ∃ before child after, node.children.entries = before ++ (key, child) :: after ∧
      (∀ entry ∈ before, kind.Takes entry.1 entry.2) ∧ ¬ kind.Takes key child ∧
        kind.Misplaces key child defect := by
  obtain ⟨before, ⟨other, child⟩, after, hentries, hfound, hbefore⟩ :=
    List.findSome?_eq_some_iff.1 h
  obtain ⟨_, hdefect, e⟩ := Option.map_eq_some_iff.1 hfound
  cases e
  refine ⟨before, child, after, hentries, fun entry hentry => ?_, fun htakes => ?_,
    misplaces_of_childDefect? hdefect⟩
  · exact childDefect?_eq_none.1 (Option.map_eq_none_iff.1 (hbefore entry hentry))
  · rw [childDefect?_eq_none.2 htakes] at hdefect
    cases hdefect

theorem takes_of_fits (h : node.misfit? kind = none) :
    ∀ entry ∈ node.children.entries, kind.Takes entry.1 entry.2 := by
  intro entry hentry
  have hentry := Option.map_eq_none_iff.1 (List.findSome?_eq_none_iff.1 h entry hentry)
  exact childDefect?_eq_none.1 hentry

/-! ### The stored children in the order of the table -/

/-- What is stored under the locations of the kind, in the order of the table. -/
def arranged (kind : Kind) (node : Node) : List (String × Child) :=
  kind.slots.filterMap fun slot => (node.children.get? slot.key).map fun child => (slot.key, child)

theorem mem_arranged {entry : String × Child} :
    entry ∈ node.arranged kind ↔
      entry.1 ∈ kind.slots.map Slot.key ∧ entry ∈ node.children.entries := by
  obtain ⟨key, child⟩ := entry
  simp only [arranged, List.mem_filterMap, Option.map_eq_some_iff, Prod.mk.injEq, List.mem_map,
    OrderedMap.mem_entries_iff]
  constructor
  · rintro ⟨slot, hslot, _, hchild, rfl, rfl⟩
    exact ⟨⟨slot, hslot, rfl⟩, hchild⟩
  · rintro ⟨⟨slot, hslot, rfl⟩, hchild⟩
    exact ⟨slot, hslot, child, hchild, rfl, rfl⟩

theorem names_arranged_sublist (kind : Kind) (node : Node) :
    (Entries.names (node.arranged kind)).Sublist (kind.slots.map Slot.key) := by
  rw [arranged, Entries.names]
  induction kind.slots with
  | nil => exact .slnil
  | cons slot slots ih =>
    cases hchild : node.children.get? slot.key with
    | none =>
      rw [List.filterMap_cons_none (by rw [hchild]; rfl)]
      exact .cons _ ih
    | some child =>
      rw [List.filterMap_cons_some (by rw [hchild]; rfl)]
      exact .cons_cons _ ih

theorem arranged_perm (h : node.misfit? kind = none) :
    (node.arranged kind).Perm node.children.entries := by
  have hnames : (Entries.names (node.arranged kind)).Nodup :=
    kind.nodup_slot_keys.sublist (names_arranged_sublist kind node)
  refine (List.perm_ext_iff_of_nodup hnames.of_map node.children.nodup.of_map).2 fun entry => ?_
  rw [mem_arranged, and_iff_right_iff_imp]
  intro hentry
  obtain ⟨slot, hslot, hkey, -⟩ := takes_of_fits h entry hentry
  exact List.mem_map.2 ⟨slot, hslot, hkey⟩

theorem orderedChildren_eq_arranged (kind : Kind) (node : Node) :
    node.orderedChildren kind =
      (node.arranged kind).flatMap (fun entry => entry.2.ids) ++ node.serialization.toList := by
  rw [orderedChildren_eq, arranged]
  congr 1
  induction kind.slots with
  | nil => rfl
  | cons slot slots ih =>
    rw [List.flatMap_cons, ih, idsAt]
    cases hchild : node.children.get? slot.key with
    | none =>
      rw [List.filterMap_cons_none (by rw [hchild]; rfl)]
      rfl
    | some child =>
      rw [List.filterMap_cons_some (by rw [hchild]; rfl), List.flatMap_cons]

/-- A walk over the children of a node that fits meets each stored id as often as it is stored. -/
theorem orderedChildren_perm (h : node.misfit? kind = none) :
    (node.orderedChildren kind).Perm node.storedIds := by
  rw [orderedChildren_eq_arranged, storedIds, OrderedMap.values, List.flatMap_map]
  exact ((arranged_perm h).flatMap_right _).append_right _

/-! ### No stored child escapes the table -/

/-- **No stored child escapes the table.** A node passes the check exactly if the kind takes all its
stored children. Then the walking order is a permutation of the stored ids, the serialization
attachment among them: the stored children come in the order of the table, each with its ids in
stored order, and the attachment last. Otherwise the error tells of the first stored child that the
kind does not take. -/
theorem checkSlots_cases (kind : Kind) (node : Node) (id : NodeId) :
    match node.checkSlots kind id with
    | .ok () =>
      (∀ entry ∈ node.children.entries, kind.Takes entry.1 entry.2) ∧
        (node.orderedChildren kind).Perm node.storedIds ∧
        ∃ arranged, arranged.Perm node.children.entries ∧
          (Entries.names arranged).Sublist (kind.slots.map Slot.key) ∧
          node.orderedChildren kind =
            arranged.flatMap (fun entry => entry.2.ids) ++ node.serialization.toList
    | .error e =>
      ∃ before key child after defect,
        node.children.entries = before ++ (key, child) :: after ∧
          (∀ entry ∈ before, kind.Takes entry.1 entry.2) ∧ ¬ kind.Takes key child ∧
          kind.Misplaces key child defect ∧ e = .malformed defect (.child id key) := by
  unfold checkSlots
  cases hmisfit : node.misfit? kind with
  | none =>
    exact ⟨takes_of_fits hmisfit, orderedChildren_perm hmisfit, node.arranged kind,
      arranged_perm hmisfit, names_arranged_sublist kind node,
      orderedChildren_eq_arranged kind node⟩
  | some found =>
    obtain ⟨key, defect⟩ := found
    obtain ⟨before, child, after, hentries, hbefore, hnot, hdefect⟩ :=
      exists_first_of_misfit? hmisfit
    exact ⟨before, key, child, after, defect, hentries, hbefore, hnot, hdefect, rfl⟩

/-- Fields are stored before the extras, which come first in the table. -/
example :
    let node := (((Node.ofKind .modelFields).withChild "fields"
      (.keyed (.ofList [("b", ⟨4⟩), ("a", ⟨2⟩)]))).withChild "extras_schema"
      (.one ⟨4⟩)).withSerialization ⟨2⟩
    node.checkSlots .modelFields ⟨0⟩ = .ok () ∧
      node.orderedChildren .modelFields = [⟨4⟩, ⟨4⟩, ⟨2⟩, ⟨2⟩] ∧
      node.checkSlots .call ⟨0⟩ =
        .error (.malformed (.notSlot .call "fields") (.child ⟨0⟩ "fields")) := by
  decide +kernel

end Node

end SchemaGraph
