import SchemaGraph.Proofs.Flatten.Run
import SchemaGraph.Proofs.Grounded

/-!
What flattening leaves, for any store. The returned schema is a finite tree of flat nodes, nodes
that bear no name and are no `definitions` nodes; so is all that lies below the bodies of the
returned definitions.

* `Registered` — the invariant of the walk: hoisted names have flat bodies;
* `flat_of_flattenReferences` — what the whole pass leaves, by trees;
* `flattenReferences_normal` — **the normal form**, by the nodes that are reached.
-/

namespace SchemaGraph

/-- A node that bears no name and is no `definitions` node. -/
structure Node.IsFlat (node : Node) : Prop where
  nameless : node.name = none
  plain : node.kind? ≠ some .definitions

/-- The node at `id` may bear a name, is no `definitions` node, and all below it is flat. -/
def Store.FlatBody (s : Store) (id : NodeId) : Prop :=
  ∃ node kind, s.get? id = some node ∧ node.kind? = some kind ∧ kind ≠ .definitions ∧
    node.misfit? kind = none ∧ ∀ child ∈ node.storedIds, s.Grounded Node.IsFlat child

namespace Store

variable {s s' : Store} {id : NodeId}

theorem FlatBody.of_grounded (h : s.Grounded Node.IsFlat id) : s.FlatBody id := by
  cases h with
  | node hnode hkind hfits hflat hkids =>
    refine ⟨_, _, hnode, hkind, fun e => hflat.plain ?_, hfits, hkids⟩
    rw [hkind, e]

theorem FlatBody.parts (h : s.FlatBody id) {node : Node} (hnode : s.get? id = some node) :
    ∃ kind, node.kind? = some kind ∧ kind ≠ .definitions ∧ node.misfit? kind = none ∧
      ∀ child ∈ node.storedIds, s.Grounded Node.IsFlat child := by
  obtain ⟨node', kind, hnode', hparts⟩ := h
  rw [hnode] at hnode'
  cases hnode'
  exact ⟨kind, hparts⟩

theorem FlatBody.of_holds (h : s.FlatBody id) {child : NodeId} (hchild : s.Holds id child) :
    s.Grounded Node.IsFlat child := by
  obtain ⟨node, hnode, hchild⟩ := hchild
  obtain ⟨_, -, -, -, hkids⟩ := h.parts hnode
  exact hkids child hchild

theorem FlatBody.of_extends (h : s.FlatBody id) (hext : s.Extends s') : s'.FlatBody id := by
  obtain ⟨node, kind, hnode, hkind, hne, hfits, hkids⟩ := h
  exact ⟨node, kind, hext.get?_of_some hnode, hkind, hne, hfits,
    fun child hchild => (hkids child hchild).of_extends hext⟩

theorem FlatBody.grounded (h : s.FlatBody id) :
    s.Grounded (fun node => node.kind? ≠ some .definitions) id := by
  obtain ⟨node, kind, hnode, hkind, hne, hfits, hkids⟩ := h
  refine .node hnode hkind hfits ?_ fun child hchild => (hkids child hchild).mono fun _ h => h.plain
  rw [hkind]
  exact fun e => hne (Option.some.inj e)

theorem FlatBody.grounded_of_nameless (h : s.FlatBody id) {node : Node}
    (hnode : s.get? id = some node) (hname : node.name = none) : s.Grounded Node.IsFlat id := by
  obtain ⟨kind, hkind, -, hfits, hkids⟩ := h.parts hnode
  exact .node hnode hkind hfits ⟨hname, h.grounded.property hnode⟩ hkids

theorem grounded_reference {name : String} (h : s.get? id = some (.reference name)) :
    s.Grounded Node.IsFlat id := by
  have hkind : (Node.reference name).kind? = some .definitionRef :=
    Node.kind?_of_isReference (by rfl)
  refine .node h hkind rfl ⟨rfl, ?_⟩ (by simp [Node.storedIds, Node.reference, Node.ofKind,
    OrderedMap.values, OrderedMap.empty])
  rw [hkind]
  simp

end Store

/-! ### The invariant -/

/-- The hoisted names have flat bodies; a definition that was not hoisted is one of the names
`given`. -/
structure Registered (given : List String) (st : Store × Flattening) : Prop where
  known : ∀ name ∈ st.2.definitions.keys, name ∈ st.2.hoisted ∨ name ∈ given
  flat : ∀ name, name ∈ st.2.hoisted →
    ∃ body, st.2.definitions.get? name = some body ∧ st.1.FlatBody body

variable {given : List String} {node : Node} {kind : Kind} {id x copy body : NodeId}
  {ids xs : List NodeId} {name : Option String} {st st' : Store × Flattening}

theorem Registered.of_extends {s s' : Store} {f : Flattening} (h : Registered given (s, f))
    (hext : s.Extends s') : Registered given (s', f) := by
  refine ⟨h.known, fun name hname => ?_⟩
  obtain ⟨body, hbody, hflat⟩ := h.flat name hname
  exact ⟨body, hbody, hflat.of_extends hext⟩

theorem Registered.hoist {s : Store} {f : Flattening} (h : Registered given (s, f)) (name : String)
    (hbody : s.FlatBody body) : Registered given (s, f.hoist name body) := by
  constructor
  · intro other hother
    rcases OrderedMap.mem_keys_insert.1 hother with rfl | hother
    · exact .inl (NameSet.mem_insert.2 (.inl rfl))
    · exact (h.known other hother).imp_left fun hmem => NameSet.mem_insert.2 (.inr hmem)
  · intro other hother
    by_cases e : other = name
    · subst e
      exact ⟨body, OrderedMap.get?_insert_self _ _ _, hbody⟩
    · have hold : other ∈ f.hoisted := (NameSet.mem_insert.1 hother).resolve_left e
      obtain ⟨old, hget, hflat⟩ := h.flat other hold
      exact ⟨old, (OrderedMap.get?_insert_of_ne _ _ e).trans hget, hflat⟩

theorem Registered.settle {s : Store} {f : Flattening} (h : Registered given (s, f)) (name : String)
    (hbody : s.FlatBody body) : Registered given (s, f.settle name body) := by
  unfold Flattening.settle
  split
  · exact h
  · exact h.hoist name hbody

/-- A node over flat trees is rebuilt to a flat body with the same name. -/
theorem Rebuilds.flat (h : Rebuilds node kind id xs st copy st') (hnode : st.1.get? id = some node)
    (hkind : node.kind? = some kind) (hne : kind ≠ .definitions) (hfits : node.misfit? kind = none)
    (hxs : List.Forall₂ (fun _ x => st.1.Grounded Node.IsFlat x) (node.orderedChildren kind) xs) :
    st'.1.FlatBody copy ∧ ∃ other, st'.1.get? copy = some other ∧ other.name = node.name := by
  have hstore := h.grows.store
  obtain ⟨other, hother, halike⟩ := h.exists_alike hnode hfits hxs
  refine ⟨⟨other, kind, hother, halike.kind?_eq.trans hkind, hne, halike.fits hfits, ?_⟩,
    other, hother, halike.name_eq⟩
  intro child hchild
  obtain ⟨_, -, hflat⟩ := halike.exists_storedId hchild
  exact hflat.of_extends hstore

theorem Rebuilds.registered (h : Rebuilds node kind id xs st copy st') (hst : Registered given st) :
    Registered given st' := by
  cases h with
  | same => exact hst
  | copy => exact hst.of_extends (Store.extends_insert _ _)

theorem Leaves.flat (h : Leaves copy st name x st') (hst : Registered given st)
    (hbody : st.1.FlatBody copy) (hname : ∃ node, st.1.get? copy = some node ∧ node.name = name) :
    Registered given st' ∧ st'.1.Grounded Node.IsFlat x := by
  cases h with
  | copy =>
    obtain ⟨node, hnode, hname⟩ := hname
    exact ⟨hst, hbody.grounded_of_nameless hnode hname⟩
  | occurrence name =>
    have hext := Store.extends_insert st.1 (.reference name)
    exact ⟨(hst.hoist name hbody).of_extends hext,
      Store.grounded_reference (Store.get?_insert_nextId _ _)⟩

/-- **The visits keep the invariant**, and what they return is flat. -/
theorem Flattens.flat (h : Flattens ids st xs st') : Registered given st →
    Registered given st' ∧ List.Forall₂ (fun _ x => st'.1.Grounded Node.IsFlat x) ids xs := by
  induction h with
  | nil st => exact fun hst => ⟨hst, .nil⟩
  | dissolve hnode hkind hinner hlisted hvisit hrest ihlisted ihvisit ihrest =>
    intro hst
    obtain ⟨hmid, -⟩ := ihlisted hst
    obtain ⟨hlast, hx⟩ := ihvisit hmid
    obtain ⟨hst', hxs⟩ := ihrest hlast
    rw [List.forall₂_cons] at hx
    exact ⟨hst', .cons (hx.1.of_extends hrest.grows.store) hxs⟩
  | leave hnode hkind hne hfits hkids hcopy hleave hrest ihkids ihrest =>
    intro hst
    obtain ⟨hmid, hys⟩ := ihkids hst
    obtain ⟨hbody, hname⟩ :=
      hcopy.flat (hkids.grows.store.get?_of_some hnode) hkind hne hfits hys
    obtain ⟨hleft, hx⟩ := hleave.flat (hcopy.registered hmid) hbody hname
    obtain ⟨hst', hxs⟩ := ihrest hleft
    exact ⟨hst', .cons (hx.of_extends hrest.grows.store) hxs⟩

theorem FlattensBody.flat (h : FlattensBody body st x st') (hst : Registered given st) :
    Registered given st' ∧ st'.1.FlatBody x := by
  cases h with
  | dissolve _ _ hvisit =>
    obtain ⟨hst', hx⟩ := hvisit.flat hst
    rw [List.forall₂_cons] at hx
    exact ⟨hst', .of_grounded hx.1⟩
  | rebuild hnode hkind hne hfits hkids hcopy =>
    obtain ⟨hmid, hys⟩ := hkids.flat hst
    have hbody := hcopy.flat (hkids.grows.store.get?_of_some hnode) hkind hne hfits hys
    exact ⟨hcopy.registered hmid, hbody.1⟩

theorem Settles.registered {entries : List (String × NodeId)} (h : Settles entries st st') :
    Registered given st → Registered given st' := by
  induction h with
  | nil => exact fun hst => hst
  | found _ _ ih => exact ih
  | settle _ hbody _ ih =>
    intro hst
    obtain ⟨hmid, hx⟩ := hbody.flat hst
    exact ih (hmid.settle _ hx)

/-- **What flattening leaves**: a flat tree, and a flat body for each definition. -/
theorem flat_of_flattenReferences {σ : Type} {own : σ} {s : Store} {root flat : NodeId}
    {definitions all : Definitions} {st' : Store × σ}
    (h : flattenReferences root definitions (s, own) = .ok (flat, all) st') :
    st'.1.Grounded Node.IsFlat flat ∧
      ∀ name body, all.get? name = some body → st'.1.FlatBody body := by
  obtain ⟨mid, f, hroot, hgiven, rfl, -⟩ := flattens_of_flattenReferences h
  have hstart : Registered definitions.keys (s, { definitions }) :=
    ⟨fun name hname => .inr hname, fun name hname => absurd hname (NameSet.not_mem_empty name)⟩
  obtain ⟨hmid, hx⟩ := hroot.flat hstart
  rw [List.forall₂_cons] at hx
  refine ⟨hx.1.of_extends hgiven.grows.store, fun name body hbody => ?_⟩
  have hend := hgiven.registered hmid
  -- given definitions are all hoisted in the end
  have hhoisted : name ∈ f.hoisted := by
    rcases hend.known name (OrderedMap.mem_keys_of_get? hbody) with hname | hname
    · exact hname
    · obtain ⟨given, hget⟩ := Option.isSome_iff_exists.1 (OrderedMap.mem_keys_iff.1 hname)
      exact hgiven.hoisted (name, given) (OrderedMap.mem_entries_iff.2 hget)
  obtain ⟨body', hbody', hflat⟩ := hend.flat name hhoisted
  rw [show f.definitions.get? name = some body from hbody] at hbody'
  cases hbody'
  exact hflat

/-! ### The normal form -/

/-- A flat body is there and is no `definitions` node; what lies strictly below it is flat. -/
theorem Store.FlatBody.reached {s : Store} (h : s.FlatBody body) :
    (∃ node, s.get? body = some node ∧ node.kind? ≠ some .definitions) ∧
      ∀ x, Relation.TransGen s.Holds body x → ∃ node, s.get? x = some node ∧ node.IsFlat := by
  refine ⟨h.grounded.exists_node, fun x hx => ?_⟩
  obtain ⟨child, hchild, hbelow⟩ := Relation.TransGen.head'_iff.1 hx
  exact ((h.of_holds hchild).of_path hbelow).exists_node

/-- **Flattening leaves a normal form.** All that is reached from the returned schema is there,
bears no name and is no `definitions` node. The body of each returned definition, wherever it was
found, is there and is no `definitions` node, and the same holds of all that is reached from it but
for the name of the body itself. -/
theorem flattenReferences_normal {σ : Type} {own : σ} {s : Store} {root flat : NodeId}
    {definitions all : Definitions} {st' : Store × σ}
    (h : flattenReferences root definitions (s, own) = .ok (flat, all) st') :
    (∀ x, Relation.ReflTransGen st'.1.Holds flat x →
        ∃ node, st'.1.get? x = some node ∧ node.IsFlat) ∧
      ∀ name body, all.get? name = some body →
        (∃ node, st'.1.get? body = some node ∧ node.kind? ≠ some .definitions) ∧
          ∀ x, Relation.TransGen st'.1.Holds body x →
            ∃ node, st'.1.get? x = some node ∧ node.IsFlat := by
  obtain ⟨hroot, hbodies⟩ := flat_of_flattenReferences h
  exact ⟨fun x hx => (hroot.of_path hx).exists_node,
    fun name body hbody => (hbodies name body hbody).reached⟩

/-- A tuple that declares `C` twice; bodies for `A`, `B` and `D`, of which the first holds a
`definitions` node with another body for `B`, and the last is this node. -/
def scatteredStore : Store := ⟨#[
  (Node.ofKind .int).withName "B",
  .reference "B",
  ((Node.ofKind .definitions).withChild Key.definitions (.many [⟨0⟩])).withChild Key.inner (.one ⟨1⟩),
  ((Node.ofKind .nullable).withChild "schema" (.one ⟨2⟩)).withName "A",
  (Node.ofKind .str).withName "B",
  (Node.ofKind .bool).withName "C",
  (Node.ofKind .float).withName "C",
  (Node.ofKind .tuple).withChild "items_schema" (.many [⟨5⟩, ⟨6⟩])]⟩

def scatteredDefinitions : Definitions := .ofList [("A", ⟨3⟩), ("B", ⟨4⟩), ("D", ⟨2⟩)]

def scatteredResult : Store := ⟨scatteredStore.nodes ++ #[
  .reference "C",
  .reference "C",
  (Node.ofKind .tuple).withChild "items_schema" (.many [⟨8⟩, ⟨9⟩]),
  .reference "B",
  ((Node.ofKind .nullable).withChild "schema" (.one ⟨1⟩)).withName "A",
  .reference "B"]⟩

/-- The later body of `C` stays, and the body of `B` that was found below the one of `A`. -/
theorem flattenReferences_scatteredStore :
    flattenReferences ⟨7⟩ scatteredDefinitions (scatteredStore, ()) =
      .ok (⟨10⟩, .ofList [("A", ⟨12⟩), ("B", ⟨0⟩), ("D", ⟨1⟩), ("C", ⟨6⟩)]) (scatteredResult, ()) := by
  decide +kernel

theorem scatteredStore_normal :
    ∃ flat all st', flattenReferences ⟨7⟩ scatteredDefinitions (scatteredStore, ()) =
        .ok (flat, all) st' ∧
      (∀ x, Relation.ReflTransGen st'.1.Holds flat x →
        ∃ node, st'.1.get? x = some node ∧ node.IsFlat) ∧
      ∀ name body, all.get? name = some body →
        (∃ node, st'.1.get? body = some node ∧ node.kind? ≠ some .definitions) ∧
          ∀ x, Relation.TransGen st'.1.Holds body x →
            ∃ node, st'.1.get? x = some node ∧ node.IsFlat :=
  ⟨_, _, _, flattenReferences_scatteredStore,
    flattenReferences_normal flattenReferences_scatteredStore⟩

end SchemaGraph
