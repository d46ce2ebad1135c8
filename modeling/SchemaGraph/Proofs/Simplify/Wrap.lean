import SchemaGraph.Reference.Simplify
import SchemaGraph.Proofs.Trees
import SchemaGraph.Proofs.Unfolding

/-!
The last step of the clean-up: the definitions that stay are listed around the schema, each body
carrying its name.

* `Wrapped` — what the step makes of the store;
* `Store.Emits` — the definitions that the returned schema lists.
-/

namespace SchemaGraph

def definitionsNode (root : NodeId) (listed : List NodeId) : Node :=
  ((Node.ofKind .definitions).withChild Key.definitions (.many listed)).withChild Key.inner
    (.one root)

/-- The node at `root` is a `definitions` node that lists `body`, which bears `name`. -/
def Store.Emits (s : Store) (root : NodeId) (name : String) (body : NodeId) : Prop :=
  ∃ node, s.get? root = some node ∧ node.kind? = some .definitions ∧
    body ∈ node.listedDefinitions ∧ ∃ named, s.get? body = some named ∧ named.name = some name

/-- `id` is the body `body` of `name`, or a copy of it, carrying the name in `s'`. -/
def NamedCopy (s s' : Store) (name : String) (body id : NodeId) : Prop :=
  ∃ node, s.get? body = some node ∧ s'.get? id = some (node.withName name)

/-- What listing the definitions `kept` around the schema at `root` gives: `top` is the schema with
the named bodies around it, or the schema alone if there are none. -/
structure Wrapped (s : Store) (root : NodeId) (kept : List (String × NodeId)) (s' : Store)
    (top : NodeId) : Prop where
  extends_ : s.Extends s'
  listed : ∃ listed, List.Forall₂ (fun entry id => NamedCopy s s' entry.1 entry.2 id) kept listed ∧
    (kept = [] ∧ top = root ∨
      kept ≠ [] ∧ s'.get? top = some (definitionsNode root listed))

variable {σ : Type} {st st' : Store × σ} {s s' : Store} {root top : NodeId}
  {kept : List (String × NodeId)}

/-! ### Named bodies -/

theorem Node.withName_of_name {node : Node} {name : String} (h : node.name = some name) :
    node.withName name = node := by
  cases node
  simp_all [Node.withName]

theorem namedBody_spec {name : String} {body id : NodeId} (h : namedBody name body st = .ok id st') :
    st.1.Extends st'.1 ∧ NamedCopy st.1 st'.1 name body id := by
  obtain ⟨node, mid, hread, h⟩ := Pass.bind_eq_ok.1 h
  obtain ⟨hnode, rfl⟩ := Pass.node_eq_ok.1 hread
  split at h
  · rename_i hname
    obtain ⟨rfl, rfl⟩ := Pass.pure_eq_ok.1 h
    exact ⟨.refl _, node, hnode, by rw [Node.withName_of_name hname]; exact hnode⟩
  · obtain ⟨rfl, rfl⟩ := Pass.insert_eq_ok.1 h
    exact ⟨Store.extends_insert _ _, node, hnode, Store.get?_insert_nextId _ _⟩

theorem namedBodies_spec : ∀ {kept : List (String × NodeId)} {ids : List NodeId}
    {st st' : Store × σ}, (∀ entry ∈ kept, entry.2.index < st.1.size) →
    namedBodies kept st = .ok ids st' →
    st.1.Extends st'.1 ∧
      List.Forall₂ (fun entry id => NamedCopy st.1 st'.1 entry.1 entry.2 id) kept ids
  | [], _, st, _, _, h => by
    obtain ⟨rfl, rfl⟩ := Pass.pure_eq_ok.1 h
    exact ⟨.refl _, .nil⟩
  | (name, body) :: kept, _, st, _, hkept, h => by
    obtain ⟨id, mid, hbody, h⟩ := Pass.bind_eq_ok.1 h
    obtain ⟨ids, last, hrest, h⟩ := Pass.bind_eq_ok.1 h
    obtain ⟨rfl, rfl⟩ := Pass.pure_eq_ok.1 h
    obtain ⟨hext, node, hnode, hcopy⟩ := namedBody_spec hbody
    have hsmall : ∀ entry ∈ kept, entry.2.index < st.1.size :=
      fun entry hentry => hkept entry (List.mem_cons_of_mem _ hentry)
    obtain ⟨hext', hcopies⟩ := namedBodies_spec
      (fun entry hentry => Nat.lt_of_lt_of_le (hsmall entry hentry) hext.size_le) hrest
    refine ⟨hext.trans hext', .cons ⟨node, hnode, hext'.get?_of_some hcopy⟩ ?_⟩
    -- the other bodies were there before the first copy
    refine ((List.forall₂_and_left _ _).2 ⟨hsmall, hcopies⟩).imp ?_
    rintro entry id ⟨hlt, node, hnode, hcopy⟩
    exact ⟨node, (hext.get?_eq _ hlt).symm.trans hnode, hcopy⟩

/-- **What wrapping does.** -/
theorem wrapped_of_run {u : NodeId} (hkept : ∀ entry ∈ kept, entry.2.index < st.1.size)
    (h : (do let listed ← namedBodies kept; wrapDefinitions root listed : Pass σ NodeId) st =
      .ok u st') : Wrapped st.1 root kept st'.1 u := by
  obtain ⟨listed, mid, hbodies, h⟩ := Pass.bind_eq_ok.1 h
  obtain ⟨hext, hcopies⟩ := namedBodies_spec hkept hbodies
  unfold wrapDefinitions at h
  split at h
  · rename_i hempty
    obtain ⟨rfl, rfl⟩ := Pass.pure_eq_ok.1 h
    rw [List.isEmpty_iff] at hempty
    subst hempty
    exact ⟨hext, [], hcopies, .inl ⟨List.forall₂_nil_right_iff.1 hcopies, rfl⟩⟩
  · rename_i hne
    obtain ⟨rfl, rfl⟩ := Pass.insert_eq_ok.1 h
    have hgrow := Store.extends_insert mid.1 (definitionsNode root listed)
    refine ⟨hext.trans hgrow, listed, hcopies.imp fun entry id ⟨node, hnode, hcopy⟩ =>
      ⟨node, hnode, hgrow.get?_of_some hcopy⟩, .inr ⟨fun hnil => hne ?_,
      Store.get?_insert_nextId _ _⟩⟩
    subst hnil
    rw [List.forall₂_nil_left_iff.1 hcopies]
    rfl

/-! ### The `definitions` node -/

@[simp]
theorem kind?_definitionsNode (root : NodeId) (listed : List NodeId) :
    (definitionsNode root listed).kind? = some .definitions := Kind.ofTag?_tag .definitions

@[simp]
theorem innerSchema?_definitionsNode (root : NodeId) (listed : List NodeId) :
    (definitionsNode root listed).innerSchema? = some root := rfl

theorem get?_definitionsNode (root : NodeId) (listed : List NodeId) (key : String) :
    (definitionsNode root listed).children.get? key =
      if key = Key.inner then some (.one root)
      else if key = Key.definitions then some (.many listed) else none := by
  rw [definitionsNode, Node.withChild, OrderedMap.get?_insert, Node.withChild, OrderedMap.get?_insert]
  rfl

theorem alike_definitionsNode {R : NodeId → NodeId → Prop} {root' : NodeId}
    {listed listed' : List NodeId} (hroot : R root root')
    (hlisted : List.Forall₂ R listed listed') :
    (definitionsNode root listed).Alike R (definitionsNode root' listed') where
  content := rfl
  keys := rfl
  children key := by
    rw [get?_definitionsNode, get?_definitionsNode]
    split
    · exact .some ⟨rfl, .cons hroot .nil⟩
    · split
      · exact .some ⟨congrArg Form.many hlisted.length_eq.symm, hlisted⟩
      · exact .none
  serialization := .none

/-- What is alike to a `definitions` node around a schema is one. -/
theorem exists_definitionsNode {R : NodeId → NodeId → Prop} {listed : List NodeId} {other : Node}
    (h : (definitionsNode root listed).Alike R other) : ∃ root' listed',
      other = definitionsNode root' listed' ∧ R root root' ∧ List.Forall₂ R listed listed' := by
  obtain ⟨child, hlisted, hchild⟩ := exists_of_optionRel (optionRel_flip (h.children Key.definitions))
    (get?_definitionsNode root listed Key.definitions)
  obtain ⟨listed', rfl, hids⟩ := hchild.of_many
  obtain ⟨child, hinner, hchild⟩ := exists_of_optionRel (optionRel_flip (h.children Key.inner))
    (get?_definitionsNode root listed Key.inner)
  obtain ⟨root', rfl, hroot⟩ := hchild.of_one
  refine ⟨root', listed', ?_, hroot, hids⟩
  have hserialization : other.serialization = none := by
    have hrel := h.serialization
    generalize other.serialization = serialization at hrel
    cases hrel
    rfl
  have hchildren : other.children = (definitionsNode root' listed').children := by
    refine OrderedMap.ext_get? h.keys fun key => ?_
    rw [get?_definitionsNode]
    split
    · rename_i e
      rw [e, hinner]
    · split
      · rename_i e
        rw [e, hlisted]
      · rename_i hother hne
        have hrel := h.children key
        rw [get?_definitionsNode, if_neg hother, if_neg hne] at hrel
        generalize other.children.get? key = child at hrel
        cases hrel
        rfl
  rw [h.content, hserialization, hchildren]
  rfl

theorem childIds_definitionsNode {listed : List NodeId}
    (h : s.get? top = some (definitionsNode root listed)) :
    s.childIds top = .ok (listed ++ [root]) := by
  refine Store.childIds_eq_ok.2 ⟨_, .definitions, h, kind?_definitionsNode _ _, rfl, ?_⟩
  have hlisted : (definitionsNode root listed).children.get? "definitions" = some (.many listed) :=
    rfl
  have hinner : (definitionsNode root listed).children.get? "schema" = some (.one root) := rfl
  have hnone : (definitionsNode root listed).serialization = none := rfl
  simp [Node.orderedChildren, Kind.slots, hlisted, hinner, hnone, Child.ids]

theorem childIds_withName {id body : NodeId} {node : Node} {name : String} {ids : List NodeId}
    (h : s.get? id = some (node.withName name)) (hbody : s.get? body = some node) :
    s.childIds id = .ok ids ↔ s.childIds body = .ok ids := by
  simp only [Store.childIds_eq_ok, h, hbody, Option.some.injEq]
  constructor
  · rintro ⟨_, kind, rfl, hkind, hfits, hids⟩
    exact ⟨node, kind, rfl, hkind, hfits, hids⟩
  · rintro ⟨_, kind, rfl, hkind, hfits, hids⟩
    exact ⟨_, kind, rfl, hkind, hfits, hids⟩

namespace Wrapped

theorem kept_of_emits (h : Wrapped s root kept s' top)
    (hplain : ∃ node, s.get? root = some node ∧ node.kind? ≠ some .definitions) {name : String}
    {id : NodeId} :
    s'.Emits top name id → ∃ body, (name, body) ∈ kept ∧ NamedCopy s s' name body id := by
  rintro ⟨node, hnode, hkind, hlisted, named, hnamed, hname⟩
  obtain ⟨listed, hcopies, ⟨-, rfl⟩ | ⟨-, htop⟩⟩ := h.listed
  · obtain ⟨node', hnode', hplain⟩ := hplain
    rw [h.extends_.get?_of_some hnode'] at hnode
    cases hnode
    exact absurd hkind hplain
  · rw [htop] at hnode
    cases hnode
    obtain ⟨entry, hentry, body, hbody, hcopied⟩ := exists_left_of_forall₂ hcopies hlisted
    rw [hcopied] at hnamed
    cases hnamed
    cases hname
    exact ⟨entry.2, hentry, body, hbody, hcopied⟩

theorem exists_emits (h : Wrapped s root kept s' top) {name : String} {body : NodeId}
    (hkept : (name, body) ∈ kept) : ∃ id, NamedCopy s s' name body id ∧ s'.Emits top name id := by
  obtain ⟨listed, hcopies, ⟨rfl, -⟩ | ⟨-, htop⟩⟩ := h.listed
  · cases hkept
  · obtain ⟨id, hid, node, hnode, hcopied⟩ := exists_right_of_forall₂ hcopies hkept
    exact ⟨id, ⟨node, hnode, hcopied⟩, _, htop, kind?_definitionsNode _ _, hid, _, hcopied, rfl⟩

theorem isChild_copy (h : Wrapped s root kept s' top) {name : String} {body id child : NodeId}
    (hcopy : NamedCopy s s' name body id) : s'.IsChild id child ↔ s'.IsChild body child := by
  obtain ⟨node, hnode, hcopied⟩ := hcopy
  have hbody := h.extends_.get?_of_some hnode
  simp only [Store.IsChild, childIds_withName hcopied hbody]

/-- The tree of the returned schema: the `definitions` node, the tree of the schema, the copies of
the kept bodies and what lies below them. -/
theorem below_cases (h : Wrapped s root kept s' top) {id : NodeId} (hid : s'.Below top id) :
    s'.Below root id ∨ (∃ listed, s'.get? id = some (definitionsNode root listed)) ∨
      ∃ name body, (name, body) ∈ kept ∧
        (NamedCopy s s' name body id ∨ ∃ child, s'.IsChild body child ∧ s'.Below child id) := by
  obtain ⟨listed, hcopies, ⟨-, rfl⟩ | ⟨-, htop⟩⟩ := h.listed
  · exact .inl hid
  · rcases (Store.below_of_childIds (childIds_definitionsNode htop)).1 hid with
      rfl | ⟨child, hchild, hid⟩
    · exact .inr (.inl ⟨listed, htop⟩)
    · rcases List.mem_append.1 hchild with hchild | hchild
      · obtain ⟨⟨name, body⟩, hentry, hcopy⟩ := exists_left_of_forall₂ hcopies hchild
        refine .inr (.inr ⟨name, body, hentry, ?_⟩)
        rcases Relation.ReflTransGen.cases_head hid with rfl | ⟨next, hnext, hid⟩
        · exact .inl hcopy
        · exact .inr ⟨next, (h.isChild_copy hcopy).1 hnext, hid⟩
      · rw [List.mem_singleton.1 hchild] at hid
        exact .inl hid

theorem below_of_root (h : Wrapped s root kept s' top) {id : NodeId} (hid : s'.Below root id) :
    s'.Below top id := by
  obtain ⟨listed, -, ⟨-, rfl⟩ | ⟨-, htop⟩⟩ := h.listed
  · exact hid
  · exact .head ⟨_, childIds_definitionsNode htop, by simp⟩ hid

theorem below_of_body (h : Wrapped s root kept s' top) {name : String} {body id : NodeId}
    (hkept : (name, body) ∈ kept) (hid : s'.Below body id) :
    s'.Below top id ∨ id = body ∧ ∃ copy, NamedCopy s s' name body copy ∧ s'.Below top copy := by
  obtain ⟨listed, hcopies, ⟨rfl, -⟩ | ⟨-, htop⟩⟩ := h.listed
  · cases hkept
  · obtain ⟨copy, hlisted, hcopy⟩ := exists_right_of_forall₂ hcopies hkept
    have hbelow : s'.Below top copy :=
      .single ⟨_, childIds_definitionsNode htop, List.mem_append_left _ hlisted⟩
    rcases Relation.ReflTransGen.cases_head hid with rfl | ⟨next, hnext, hid⟩
    · exact .inr ⟨rfl, copy, hcopy, hbelow⟩
    · exact .inl (hbelow.trans (.head ((h.isChild_copy hcopy).2 hnext) hid))

end Wrapped

end SchemaGraph
