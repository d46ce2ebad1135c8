import SchemaGraph.Proofs.Flatten.Separation
import SchemaGraph.Proofs.Simplify.Inline

/-!
Occurrences that are left without a definition. After inlining, the occurrences in the returned
schema name the definitions listed there, but for the places that were overtaken: such a place keeps
an occurrence of a definition that was inlined elsewhere and dropped.

* `simplifyReferences_noDangling` — **when nothing dangles**;
* `not_noDangling_wrapperDocument` — a document where something does.
-/

namespace SchemaGraph

/-- Each occurrence in the tree of `root` names a definition that the `definitions` node at `root`
lists. -/
def Store.NoDangling (s : Store) (root : NodeId) : Prop :=
  ∀ id node, s.Below root id → s.get? id = some node → node.isReference = true →
    ∃ name body, node.target = some name ∧ s.Emits root name body

/-- `id` is seen in the result: it lies in the tree of the schema or in that of a definition that
stays. -/
def Shown (s : Store) (definitions : Definitions) (found : Gathered) (root id : NodeId) : Prop :=
  s.Below root id ∨ ∃ name body, found.Stays name ∧ definitions.get? name = some body ∧
    s.Below body id

variable {scope : Scope} {root top : NodeId} {found : Gathered} {s₂ s' : Store}
  {kept : List (String × NodeId)}

section Result

variable (h : scope.gather root = .ok found) (hs₂ : Inlined scope found s₂)
  (hwrap : Wrapped s₂ root kept s' top)
  (hkept : ∀ name body, (name, body) ∈ kept ↔
    found.Stays name ∧ scope.definitions.get? name = some body)

include h hs₂ hwrap

theorem get?_result_of_covered {x : NodeId} (hx : scope.Covered root x) :
    s'.get? x = s₂.get? x := by
  obtain ⟨node, hnode⟩ := exists_node_of_covered h hx
  exact hwrap.extends_.get?_eq x (by rw [hs₂.size]; exact Store.lt_size_of_get? hnode)

theorem covered_of_below_result {x y : NodeId} (hx : scope.Covered root x) (hxy : s'.Below x y) :
    scope.Covered root y := by
  induction hxy with
  | refl => exact hx
  | @tail y z _ hchild ih =>
    obtain ⟨node, hnode, hz⟩ := hchild.holds
    exact hs₂.covered_of_holds h ih ⟨node, get?_result_of_covered h hs₂ hwrap ih ▸ hnode, hz⟩

include hkept

omit hs₂ in
/-- The names that stay are listed, and no others. -/
theorem exists_emits_iff
    (hplain : ∃ node, s₂.get? root = some node ∧ node.kind? ≠ some .definitions) {name : String} :
    (∃ id, s'.Emits top name id) ↔ found.Stays name := by
  constructor
  · rintro ⟨id, hid⟩
    obtain ⟨body, hentry, -⟩ := hwrap.kept_of_emits hplain hid
    exact ((hkept name body).1 hentry).1
  · intro hstays
    obtain ⟨body, hbody⟩ := Scope.exists_body h ((Scope.mem_keys_iff_occurs h).1 hstays.1)
    obtain ⟨id, -, hid⟩ := hwrap.exists_emits ((hkept name body).2 ⟨hstays, hbody⟩)
    exact ⟨id, hid⟩

/-- What is seen of a covered node in the result: the node itself, or the copy of it that is listed. -/
theorem exists_below_of_shown {x : NodeId} {node : Node} (hx : scope.Covered root x)
    (hshown : Shown s' scope.definitions found root x) (hnode : s₂.get? x = some node) :
    ∃ id node', s'.Below top id ∧ s'.get? id = some node' ∧ node'.isReference = node.isReference ∧
      node'.target = node.target := by
  have hthere := (get?_result_of_covered h hs₂ hwrap hx).trans hnode
  rcases hshown with hbelow | ⟨name, body, hstays, hbody, hbelow⟩
  · exact ⟨x, node, hwrap.below_of_root hbelow, hthere, rfl, rfl⟩
  · rcases hwrap.below_of_body ((hkept name body).2 ⟨hstays, hbody⟩) hbelow with
      hbelow | ⟨rfl, copy, ⟨node', hnode', hcopied⟩, hbelow⟩
    · exact ⟨x, node, hbelow, hthere, rfl, rfl⟩
    · rw [hnode] at hnode'
      cases hnode'
      exact ⟨copy, _, hbelow, hcopied, rfl, rfl⟩

/-- Each occurrence in the result is seen there in a covered node. -/
theorem exists_shown_of_below {id : NodeId} {node : Node} (hid : s'.Below top id)
    (hnode : s'.get? id = some node) (href : node.isReference = true) :
    ∃ x node', scope.Covered root x ∧ Shown s' scope.definitions found root x ∧
      s₂.get? x = some node' ∧ node'.isReference = true ∧ node'.target = node.target := by
  rcases hwrap.below_cases hid with hbelow | ⟨listed, htop⟩ | ⟨name, body, hentry, hbelow⟩
  · have hx := covered_of_below_result h hs₂ hwrap .root hbelow
    have hthere := (get?_result_of_covered h hs₂ hwrap hx).symm.trans hnode
    exact ⟨id, node, hx, .inl hbelow, hthere, href, rfl⟩
  · rw [hnode] at htop
    cases htop
    exact absurd href (by simp [definitionsNode, Node.isReference, Node.withChild, Node.ofKind,
      Kind.tag])
  · obtain ⟨hstays, hbody⟩ := (hkept name body).1 hentry
    have hcovered := covered_of_stays h hstays hbody
    rcases hbelow with ⟨node', hnode', hcopied⟩ | ⟨child, hchild, hbelow⟩
    · rw [hnode] at hcopied
      cases hcopied
      exact ⟨body, node', hcovered, .inr ⟨name, body, hstays, hbody, .refl⟩, hnode', href, rfl⟩
    · have hshown : s'.Below body id := .head hchild hbelow
      have hx := covered_of_below_result h hs₂ hwrap hcovered hshown
      have hthere := (get?_result_of_covered h hs₂ hwrap hx).symm.trans hnode
      exact ⟨id, node, hx, .inr ⟨name, body, hstays, hbody, hshown⟩, hthere, href, rfl⟩

/-- **What dangles.** Nothing dangles in the result exactly if no overtaken place is seen in it. -/
theorem noDangling_iff
    (hplain : ∃ node, s₂.get? root = some node ∧ node.kind? ≠ some .definitions) :
    s'.NoDangling top ↔
      ∀ o, Overtaken scope.definitions found o → ¬ Shown s' scope.definitions found root o := by
  constructor
  · intro hall o hover hshown
    have hcovered : scope.Covered root o := by
      cases hover with
      | stale ho | chain ho => exact (covered_of_sole h ho).1
    -- an overtaken place refers to a name that was inlined and is not listed
    obtain ⟨-, name, ⟨node, hnode, href, htarget⟩, hsole⟩ :=
      (hs₂.target_cases h hcovered).resolve_right fun hnot => hnot.1 hover
    obtain ⟨id, node', hid, hnode', href', htarget'⟩ :=
      exists_below_of_shown h hs₂ hwrap hkept hcovered hshown hnode
    obtain ⟨listed, body, hlisted, hbody⟩ := hall id node' hid hnode' (href'.trans href)
    rw [htarget', htarget] at hlisted
    cases hlisted
    have hstays := (exists_emits_iff h hwrap hkept hplain).1 ⟨body, hbody⟩
    rw [hstays.2] at hsole
    cases hsole
  · intro hall id node hid hnode href
    obtain ⟨x, node', hx, hshown, hnode', href', htarget'⟩ :=
      exists_shown_of_below h hs₂ hwrap hkept hid hnode href
    obtain ⟨-, hrest⟩ := (hs₂.target_cases h hx).resolve_left fun hover => hall x hover.1 hshown
    obtain ⟨name, htarget, hstays⟩ := hrest node' hnode' href'
    obtain ⟨body, hbody⟩ := (exists_emits_iff h hwrap hkept hplain).2 hstays
    exact ⟨name, body, htarget'.symm.trans htarget, hbody⟩

end Result

/-- When no `definitions` node bears a name, no place is overtaken: a body that is itself a place is
first met inside the body's own walk. -/
theorem Flattened.not_overtaken {d : Document} {t : Stage} (hflat : Flattened d t root)
    (hd : d.Forest) (hnameless : d.NamelessDefinitions) (h : t.scope.gather root = .ok found)
    {o : NodeId} : ¬ Overtaken t.flat.definitions found o := by
  intro hover
  induction hover with
  | @stale name other o body ho hbody hother horder =>
    have hfirst : (found.occurrencesOf other).head? = some body := by
      rw [Gathered.occurrencesOf_of_sole hother]
      rfl
    rcases Scope.first_occurrence h hfirst with hbelow | ⟨earlier, outer, hmet, houter, hbelow⟩
    · exact hflat.not_below_root hd hnameless hbody hbelow
    · have := hflat.eq_of_below_body hd hnameless hbody houter hbelow
      subst this
      exact horder hmet
  | chain _ _ _ _ _ ih => exact ih

/-- The place of an occurrence is no `definitions` node after inlining if it was none before. -/
theorem Inlined.plain_of_covered (h : scope.gather root = .ok found) (hs₂ : Inlined scope found s₂)
    (hplain : ∀ x, scope.Covered root x →
      ∃ node, scope.store.get? x = some node ∧ node.kind? ≠ some .definitions)
    {x : NodeId} (hx : scope.Covered root x) :
    ∃ node, s₂.get? x = some node ∧ node.kind? ≠ some .definitions := by
  refine hs₂.induction h
    (P := fun x => ∃ node, s₂.get? x = some node ∧ node.kind? ≠ some .definitions) ?_ ?_ ?_ hx
  · intro x hx _ hsame
    obtain ⟨node, hnode, hkind⟩ := hplain x hx
    exact ⟨node, hsame.trans hnode, hkind⟩
  · intro x name b site body hb _ _ _ hplace hbody _
    obtain ⟨node, hnode, hkind⟩ := hplain b hb
    rw [hbody] at hnode
    cases hnode
    exact ⟨_, hplace, hkind⟩
  · rintro x name b later site body - - - hplace hbody - - ⟨node, hnode, hkind⟩
    rw [hbody] at hnode
    cases hnode
    exact ⟨_, hplace, hkind⟩

/-- **When nothing dangles.** When a document is cleaned up with inlining, then in the returned schema
each occurrence names a listed definition exactly if no overtaken place is seen there; and none is
overtaken when no `definitions` node of the document bears a name. -/
theorem simplifyReferences_noDangling {σ : Type} {own : σ} {value : Json} {d : Document}
    {st' : Store × σ} (hd : Document.ofJson value = .ok d)
    (h : simplifyReferences d.root d.definitions true (d.store, own) = .ok top st') :
    ∃ flat definitions st found,
      flattenReferences d.root d.definitions (d.store, own) = .ok (flat, definitions) st ∧
      Scope.gather { store := st.1, definitions } flat = .ok found ∧
      (st'.1.NoDangling top ↔
        ∀ o, Overtaken definitions found o → ¬ Shown st'.1 definitions found flat o) ∧
      (d.NamelessDefinitions → st'.1.NoDangling top) := by
  have hforest := Document.forest_of_ofJson hd
  obtain ⟨⟨flat, definitions⟩, ⟨s₁, own₁⟩, hflatten, h⟩ := Pass.bind_eq_ok.1 h
  obtain ⟨t, hflat, rfl, rfl, -⟩ := flattened_of_flattenReferences hforest hflatten
  obtain ⟨found, s₂, kept, hgather, hs₂, hkept, hwrap⟩ := inlineReferences_spec h
  have hplain := hs₂.plain_of_covered hgather (fun x hx => hflat.plain_of_covered hx) .root
  have hiff := noDangling_iff hgather hs₂ hwrap hkept hplain
  refine ⟨flat, _, (t.store, own₁), found, hflatten, hgather, hiff, fun hnameless => ?_⟩
  exact hiff.2 fun o hover => absurd hover (hflat.not_overtaken hforest hnameless hgather)

/-- A tuple of a `definitions` node that bears the name `X` and an occurrence of `X`. The inner schema
of the former is an occurrence of `Y`, which it defines. -/
def namedWrapper : Json :=
  .object [("type", .text "tuple"), ("items_schema", .list [
    .object [("type", .text "definitions"), ("ref", .text "X"),
      ("definitions", .list [.object [("type", .text "int"), ("ref", .text "Y")]]),
      ("schema", .object [("type", .text "definition-ref"), ("schema_ref", .text "Y")])],
    .object [("type", .text "definition-ref"), ("schema_ref", .text "X")]])]

def wrapperDocument : Document where
  store := ⟨#[
    (Node.ofKind .int).withName "Y",
    .reference "Y",
    (definitionsNode ⟨1⟩ [⟨0⟩]).withName "X",
    .reference "X",
    (Node.ofKind .tuple).withChild "items_schema" (.many [⟨2⟩, ⟨3⟩])]⟩
  root := ⟨4⟩
  definitions := .ofList [("X", ⟨2⟩), ("Y", ⟨0⟩)]

theorem ofJson_namedWrapper : Document.ofJson namedWrapper = .ok wrapperDocument := by
  decide +kernel

/-- The document after flattening. The first item of the tuple at `⟨6⟩` is the body of `X` too. -/
def wrapperScope : Scope where
  store := ⟨wrapperDocument.store.nodes ++ #[
    .reference "Y",
    (Node.ofKind .tuple).withChild "items_schema" (.many [⟨1⟩, ⟨3⟩]),
    .reference "Y"]⟩
  definitions := .ofList [("X", ⟨1⟩), ("Y", ⟨0⟩)]

theorem gather_wrapperScope : wrapperScope.gather ⟨6⟩ =
    .ok { occurrences := .ofList [("Y", [⟨1⟩]), ("X", [⟨3⟩])] } :=
  Scope.gather_of_runWithin 20 (by decide +kernel)

/-- The first item becomes the body of `Y` only after the second has become a copy of it. -/
theorem simplifyReferences_wrapperDocument :
    simplifyReferences wrapperDocument.root wrapperDocument.definitions true
      (wrapperDocument.store, ()) = .ok ⟨6⟩ (⟨#[
        (Node.ofKind .int).withName "Y",
        Node.ofKind .int,
        (definitionsNode ⟨1⟩ [⟨0⟩]).withName "X",
        .reference "Y",
        (Node.ofKind .tuple).withChild "items_schema" (.many [⟨2⟩, ⟨3⟩]),
        .reference "Y",
        (Node.ofKind .tuple).withChild "items_schema" (.many [⟨1⟩, ⟨3⟩]),
        .reference "Y"]⟩, ()) := by
  have hflatten : flattenReferences wrapperDocument.root wrapperDocument.definitions
      (wrapperDocument.store, ()) =
        .ok (⟨6⟩, wrapperScope.definitions) (wrapperScope.store, ()) := by decide +kernel
  exact simplifyReferences_of_parts hflatten gather_wrapperScope (by decide +kernel)

/-- What dangles in the document of `namedWrapper`, by the equivalence. -/
theorem wrapperDocument_noDangling :
    ∃ top st', simplifyReferences wrapperDocument.root wrapperDocument.definitions true
        (wrapperDocument.store, ()) = .ok top st' ∧
      ∃ flat definitions st found,
        flattenReferences wrapperDocument.root wrapperDocument.definitions
          (wrapperDocument.store, ()) = .ok (flat, definitions) st ∧
        Scope.gather { store := st.1, definitions } flat = .ok found ∧
        (st'.1.NoDangling top ↔
          ∀ o, Overtaken definitions found o → ¬ Shown st'.1 definitions found flat o) ∧
        (wrapperDocument.NamelessDefinitions → st'.1.NoDangling top) :=
  ⟨_, _, simplifyReferences_wrapperDocument,
    simplifyReferences_noDangling ofJson_namedWrapper simplifyReferences_wrapperDocument⟩

/-- The second item of the returned tuple is an occurrence of `Y`, and no definitions are listed. -/
theorem not_noDangling_wrapperDocument :
    ∃ d top st', Document.ofJson namedWrapper = .ok d ∧
      simplifyReferences d.root d.definitions true (d.store, ()) = .ok top st' ∧
      ¬ st'.1.NoDangling top := by
  refine ⟨wrapperDocument, _, _, ofJson_namedWrapper, simplifyReferences_wrapperDocument,
    fun h => ?_⟩
  obtain ⟨name, body, -, node, hnode, hkind, -⟩ := h ⟨3⟩ (.reference "Y")
    (.single ⟨[⟨1⟩, ⟨3⟩], by decide +kernel, by decide⟩) (by decide +kernel) rfl
  have htuple : node.kind? = some .tuple := by
    cases hnode
    decide +kernel
  rw [htuple] at hkind
  cases hkind

end SchemaGraph
