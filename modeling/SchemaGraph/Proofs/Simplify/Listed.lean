import SchemaGraph.Proofs.Simplify.Dangling
import SchemaGraph.Proofs.Simplify.Declared
import SchemaGraph.Proofs.Simplify.Uses

/-!
The definitions that a cleaned-up schema lists and those that it uses. Which names stay is decided
before inlining; a serialization that inlining drops may hold the first occurrence of such a name,
or all of them.

* `Store.ListsUsed` — the listed definitions are those that a walk over the schema meets, in its
  order;
* `listsUsed_iff` — where nothing that matters is dropped, they are exactly if no overtaken place is
  seen;
* `not_listsUsed_replacedDocument` — a document where the only listed definition is used nowhere.
-/

namespace SchemaGraph

namespace Store

/-- The inner schema of a `definitions` node; any other schema itself. -/
def innerAt (s : Store) (top : NodeId) : NodeId :=
  match s.get? top with
  | some node => if node.kind? = some .definitions then node.innerSchema?.getD top else top
  | none => top

/-- The definitions that a `definitions` node lists, with their names; no other schema lists any. -/
def listedAt (s : Store) (top : NodeId) : List (String × NodeId) :=
  match s.get? top with
  | some node => if node.kind? = some .definitions then s.declared node.listedDefinitions else []
  | none => []

/-- **The listed definitions are the used ones.** A run of `gather` over the inner schema, with the
listed definitions, meets exactly their names, in the order of the list; and where the inner schema
has no occurrences there is no `definitions` node. -/
structure ListsUsed (s : Store) (top : NodeId) : Prop where
  used : ∃ found, Scope.gather ⟨s, .ofList (s.listedAt top), defaultDiscriminatorKey⟩
    (s.innerAt top) = .ok found ∧ (s.listedAt top).map Prod.fst = found.occurrences.keys
  plain : (∀ id node, s.Below (s.innerAt top) id → s.get? id = some node →
    node.isReference = false) → ∀ node, s.get? top = some node → node.kind? ≠ some .definitions

variable {s s' : Store} {top : NodeId} {node : Node}

theorem innerAt_of_plain (hnode : s.get? top = some node)
    (hplain : node.kind? ≠ some .definitions) :
    s.innerAt top = top := by
  simp [innerAt, hnode, hplain]

theorem listedAt_of_plain (hnode : s.get? top = some node)
    (hplain : node.kind? ≠ some .definitions) :
    s.listedAt top = [] := by
  simp [listedAt, hnode, hplain]

theorem innerAt_of_definitionsNode {flat : NodeId} {listed : List NodeId}
    (htop : s.get? top = some (definitionsNode flat listed)) : s.innerAt top = flat := by
  simp [innerAt, htop]

theorem listedAt_of_definitionsNode {flat : NodeId} {listed : List NodeId}
    (htop : s.get? top = some (definitionsNode flat listed)) :
    s.listedAt top = s.declared listed := by
  simp only [listedAt, htop, kind?_definitionsNode, if_true]
  rfl

theorem forall₂_declared {kept : List (String × NodeId)} {ids : List NodeId}
    (h : List.Forall₂ (fun entry id => NamedCopy s s' entry.1 entry.2 id) kept ids) :
    List.Forall₂ (fun entry other => other.1 = entry.1 ∧ NamedCopy s s' entry.1 entry.2 other.2)
      kept (s'.declared ids) := by
  induction h with
  | nil => exact .nil
  | cons hcopy _ ih =>
    obtain ⟨node, -, hcopied⟩ := id hcopy
    rw [declared_cons hcopied]
    exact .cons ⟨rfl, hcopy⟩ ih

end Store

variable {root top flat : NodeId} {scope out : Scope} {found : Gathered} {s s₂ s' : Store}
  {kept : List (String × NodeId)}

/-- The inner schema of a returned schema is the flat one, and the listed definitions are copies of
the bodies that stay. -/
theorem Wrapped.listing (hwrap : Wrapped s flat kept s' top) (h : Rewritten s flat kept) :
    s'.innerAt top = flat ∧
      List.Forall₂ (fun entry other => other.1 = entry.1 ∧ NamedCopy s s' entry.1 entry.2 other.2)
        kept (s'.listedAt top) ∧
      (kept = [] → ∀ node, s'.get? top = some node → node.kind? ≠ some .definitions) := by
  obtain ⟨listed, hcopies, ⟨rfl, rfl⟩ | ⟨hne, htop⟩⟩ := hwrap.listed
  · have hflat := h.root.of_extends hwrap.extends_
    have hplain : ∀ node, s'.get? top = some node → node.kind? ≠ some .definitions :=
      fun node hnode => (hflat.property hnode).plain
    obtain ⟨node, _, hnode, -⟩ := Store.FlatBody.of_grounded hflat
    rw [Store.innerAt_of_plain hnode (hplain node hnode),
      Store.listedAt_of_plain hnode (hplain node hnode)]
    exact ⟨rfl, .nil, fun _ => hplain⟩
  · rw [Store.innerAt_of_definitionsNode htop, Store.listedAt_of_definitionsNode htop]
    exact ⟨rfl, Store.forall₂_declared hcopies, fun e => absurd e hne⟩

theorem Scope.keys_eq_nil (h : scope.gather root = .ok found)
    (hnone : ∀ id node, scope.store.Below root id → scope.store.get? id = some node →
      node.isReference = false) : found.occurrences.keys = [] := by
  have hbelow : ∀ x, scope.Covered root x → scope.store.Below root x := by
    intro x hx
    induction hx with
    | root => exact .refl
    | child _ hchild ih => exact ih.tail hchild
    | body _ hmention _ ih =>
      obtain ⟨node, hnode, href, -⟩ := hmention
      simp [hnone _ node ih hnode] at href
  refine List.eq_nil_iff_forall_not_mem.2 fun name hname => ?_
  obtain ⟨x, hx, node, hnode, href, -⟩ := (Scope.mem_keys_iff_occurs h).1 hname
  simp [hnone x node (hbelow x hx) hnode] at href

/-- In the result the names of listed definitions have their copies. -/
theorem cleaned_of_wrapped (h : scope.gather root = .ok found) (hs₂ : Inlined scope found s₂)
    (hflat : ∀ x, scope.Covered root x → s₂.FlatBody x) (hwrap : Wrapped s₂ root kept s' top)
    (hrewritten : Rewritten s₂ root kept) (hnames : kept.map Prod.fst = found.staying)
    (hbodies : ∀ name body, (name, body) ∈ kept → scope.definitions.get? name = some body) :
    Cleaned scope root found s₂ { store := s', definitions := .ofList (s'.listedAt top) } ∧
      (s'.listedAt top).map Prod.fst = found.staying ∧
      ∀ name id, (OrderedMap.ofList (s'.listedAt top)).get? name = some id →
        s'.FlatDefinition name id := by
  obtain ⟨-, hlisted, -⟩ := hwrap.listing hrewritten
  have hfst : (s'.listedAt top).map Prod.fst = kept.map Prod.fst := by
    refine eq_map_of_forall₂ (f := id) ?_ |>.trans (List.map_id _)
    rw [List.forall₂_map_left_iff, List.forall₂_map_right_iff]
    exact hlisted.imp fun _ _ hother => hother.1
  have hnodup : ((s'.listedAt top).map Prod.fst).Nodup := hfst ▸ hrewritten.nodup
  have hentries : (OrderedMap.ofList (s'.listedAt top)).entries = s'.listedAt top :=
    OrderedMap.entries_ofList hnodup
  have hget : ∀ name id, (OrderedMap.ofList (s'.listedAt top)).get? name = some id ↔
      (name, id) ∈ s'.listedAt top := by
    intro name id
    rw [← OrderedMap.mem_entries_iff, hentries]
  refine ⟨⟨h, hs₂, hflat, hwrap.extends_, fun name body hstays hbody => ?_⟩, hfst.trans hnames,
    fun name id hid => ?_⟩
  · have hmem := (mem_kept_iff hnames hbodies).2 ⟨hstays, hbody⟩
    obtain ⟨⟨_, id⟩, hid, rfl, hcopy⟩ := exists_right_of_forall₂ hlisted hmem
    exact ⟨id, (hget _ id).2 hid, hcopy⟩
  · obtain ⟨entry, hentry, rfl, hcopy⟩ := exists_left_of_forall₂ hlisted ((hget name id).1 hid)
    exact (hrewritten.bodies entry hentry).namedCopy hwrap.extends_ hcopy

/-- What is shown is covered by a walk over the result that meets all names that stay. -/
theorem Cleaned.mentioned_of_shown {found' : Gathered} {name : String} {o : NodeId}
    (h : Cleaned scope root found s₂ out) (hgather : out.gather root = .ok found')
    (hstays : ∀ name, found.Stays name → name ∈ found'.occurrences.keys)
    (hshown : Shown out.store scope.definitions found root o)
    (hmention : out.store.Mentions o name) :
    name ∈ found'.occurrences.keys := by
  refine (Scope.mem_keys_iff_occurs hgather).2 ?_
  rcases hshown with hbelow | ⟨used, body, hused, hbody, hbelow⟩
  · exact ⟨o, .of_below .root hbelow, hmention⟩
  · -- the copy of the body is covered, and so is what lies below it
    obtain ⟨copy, hcopy, content, hcontent, hcopied⟩ := h.emitted used body hused hbody
    rw [← h.get?_eq (covered_of_stays h.gather hused hbody)] at hcontent
    obtain ⟨y, hy, hy'⟩ := (Scope.mem_keys_iff_occurs hgather).1 (hstays used hused)
    have hcovered : out.Covered root copy := .body hy hy' hcopy
    rcases Relation.ReflTransGen.cases_head hbelow with rfl | ⟨child, ⟨ids, hids, hchild⟩, hbelow⟩
    · obtain ⟨node, hnode, href, htarget⟩ := hmention
      rw [hcontent] at hnode
      cases hnode
      exact ⟨copy, hcovered, _, hcopied, href, htarget⟩
    · have hkid : out.store.IsChild copy child :=
        ⟨ids, (childIds_withName hcopied hcontent).2 hids, hchild⟩
      exact ⟨o, .of_below (.child hcovered hkid) hbelow, hmention⟩

/-- **Where what is dropped is idle, the listed definitions are the used ones** exactly if no
overtaken place is seen in the result. -/
theorem listsUsed_iff (h : scope.gather root = .ok found) (hs₂ : Inlined scope found s₂)
    (hflat : ∀ x, scope.Covered root x → s₂.FlatBody x) (hwrap : Wrapped s₂ root kept s' top)
    (hrewritten : Rewritten s₂ root kept) (hnames : kept.map Prod.fst = found.staying)
    (hbodies : ∀ name body, (name, body) ∈ kept → scope.definitions.get? name = some body)
    (hdrops : DropsIdle scope found s') :
    s'.ListsUsed top ↔
      ∀ o, Overtaken scope.definitions found o → ¬ Shown s' scope.definitions found root o := by
  obtain ⟨hclean, hfst, -⟩ :=
    cleaned_of_wrapped h hs₂ hflat hwrap hrewritten hnames hbodies
  obtain ⟨hinner, hlisted, hempty⟩ := hwrap.listing hrewritten
  constructor
  · rintro ⟨⟨found', hgather, hused⟩, -⟩ o hover hshown
    rw [hinner] at hgather
    have hcovered : scope.Covered root o := by
      cases hover with
      | stale ho | chain ho => exact (covered_of_sole h ho).1
    -- an overtaken place refers to a name that was inlined
    obtain ⟨-, name, hmention, hsole⟩ :=
      (hs₂.target_cases h hcovered).resolve_right fun hnot => hnot.1 hover
    obtain ⟨node, hnode, htarget⟩ := hmention
    rw [← hclean.get?_eq hcovered] at hnode
    have hall : ∀ name, found.Stays name → name ∈ found'.occurrences.keys := by
      intro name hstays
      rwa [← hused, hfst, Gathered.mem_staying]
    have hmet := hclean.mentioned_of_shown hgather hall hshown ⟨node, hnode, htarget⟩
    rw [← hused, hfst, Gathered.mem_staying] at hmet
    rw [hmet.2] at hsole
    cases hsole
  · intro hnone
    have hmeets := hclean.meets hdrops (fun z hz hover => hnone z hover (.inl hz))
      fun name body hstays hbody z hz hover => hnone z hover (.inr ⟨name, body, hstays, hbody, hz⟩)
    obtain ⟨found', hgather, hkeys⟩ := Scope.gather_of_meets hmeets
    refine ⟨⟨found', by rw [hinner]; exact hgather, by rw [hfst, hkeys]⟩, fun hplain => ?_⟩
    rw [hinner] at hplain
    have hnil : kept.map Prod.fst = [] := by
      rw [hnames, ← hkeys]
      exact Scope.keys_eq_nil hgather hplain
    exact hempty (List.map_eq_nil_iff.1 hnil)

/-- **The listed definitions are those that are used.** When a document is cleaned up with inlining,
and no name that stays occurs first in a serialization that inlining drops, then the returned schema
lists exactly the definitions that it uses, in the order of their first use, exactly if no overtaken
place is seen there; and none is overtaken when no `definitions` node of the document bears a name.
-/
theorem simplifyReferences_listsUsed {σ : Type} {own : σ} {value : Json} {d : Document}
    {st' : Store × σ} (hd : Document.ofJson value = .ok d)
    (h : simplifyReferences d.root d.definitions true (d.store, own) = .ok top st') :
    ∃ flat definitions st found,
      flattenReferences d.root d.definitions (d.store, own) = .ok (flat, definitions) st ∧
      Scope.gather { store := st.1, definitions } flat = .ok found ∧
      (DropsIdle { store := st.1, definitions } found st'.1 →
        (st'.1.ListsUsed top ↔
          ∀ o, Overtaken definitions found o → ¬ Shown st'.1 definitions found flat o) ∧
        (d.NamelessDefinitions → st'.1.ListsUsed top)) := by
  have hforest := Document.forest_of_ofJson hd
  obtain ⟨⟨flat, definitions⟩, ⟨s₁, own₁⟩, hflatten, h⟩ := Pass.bind_eq_ok.1 h
  obtain ⟨hroot, hflat⟩ := flat_of_flattenReferences hflatten
  obtain ⟨t, hflattened, rfl, rfl, -⟩ := flattened_of_flattenReferences hforest hflatten
  obtain ⟨found, s₂, kept, hgather, hs₂, hcovered, hnames, hbodies, hrewritten, hwrap⟩ :=
    rewritten_of_inlineReferences hroot hflat h
  refine ⟨flat, _, (t.store, own₁), found, hflatten, hgather, fun hdrops => ?_⟩
  have hiff := listsUsed_iff hgather hs₂ hcovered hwrap hrewritten hnames hbodies hdrops
  refine ⟨hiff, fun hnameless => hiff.2 fun o hover => ?_⟩
  exact absurd hover (hflattened.not_overtaken hforest hnameless hgather)

/-! ### Two documents -/

def occurrenceOf (name : String) : Json :=
  .object [("type", .text "definition-ref"), ("schema_ref", .text name)]

/-- An occurrence of `X` that has a string as its own serialization. -/
def occurrenceWithString : Json :=
  .object [("type", .text "definition-ref"), ("schema_ref", .text "X"),
    ("serialization", .object [("type", .text "str")])]

/-- A tuple of `items`, with the definitions of `X`, an integer with the given serialization, and of
`Y`. -/
def useOfSerialization (items : List Json) (serialization : Json) : Json :=
  .object [("schema", .object [("type", .text "tuple"), ("items_schema", .list items)]),
    ("definitions", .object [
      ("X", .object [("type", .text "int"), ("serialization", serialization)]),
      ("Y", .object [("type", .text "bool")])])]

/-- `Y` occurs first in the tuple, and again in the serialization of the body of `X`. -/
def usedBefore : Json :=
  useOfSerialization [occurrenceOf "Y", occurrenceWithString, occurrenceOf "Y"] (occurrenceOf "Y")

def usedDocument : Document where
  store := ⟨#[
    .reference "Y",
    .ofKind .str,
    (Node.reference "X").withSerialization ⟨1⟩,
    .reference "Y",
    (Node.ofKind .tuple).withChild "items_schema" (.many [⟨0⟩, ⟨2⟩, ⟨3⟩]),
    .reference "Y",
    (Node.ofKind .int).withSerialization ⟨5⟩,
    .ofKind .bool]⟩
  root := ⟨4⟩
  definitions := .ofList [("X", ⟨6⟩), ("Y", ⟨7⟩)]

theorem ofJson_usedBefore : Document.ofJson usedBefore = .ok usedDocument := by
  decide +kernel

theorem flattenReferences_usedDocument :
    flattenReferences usedDocument.root usedDocument.definitions (usedDocument.store, ()) =
      .ok (usedDocument.root, usedDocument.definitions) (usedDocument.store, ()) := by
  decide +kernel

def usedFound : Gathered := { occurrences := .ofList [("Y", [⟨0⟩, ⟨5⟩, ⟨3⟩]), ("X", [⟨2⟩])] }

theorem gather_usedDocument :
    Scope.gather ⟨usedDocument.store, usedDocument.definitions, defaultDiscriminatorKey⟩
      usedDocument.root = .ok usedFound :=
  Scope.gather_of_runWithin 20 (by decide +kernel)

/-- What is left of `usedDocument`: the second item becomes an integer that keeps the string; `Y`
stays. -/
def usedResult : Store where
  nodes := #[
    .reference "Y",
    .ofKind .str,
    (Node.ofKind .int).withSerialization ⟨1⟩,
    .reference "Y",
    (Node.ofKind .tuple).withChild "items_schema" (.many [⟨0⟩, ⟨2⟩, ⟨3⟩]),
    .reference "Y",
    (Node.ofKind .int).withSerialization ⟨5⟩,
    .ofKind .bool,
    (Node.ofKind .bool).withName "Y",
    definitionsNode ⟨4⟩ [⟨8⟩]]

theorem simplifyReferences_usedDocument :
    simplifyReferences usedDocument.root usedDocument.definitions true (usedDocument.store, ()) =
      .ok ⟨9⟩ (usedResult, ()) :=
  simplifyReferences_of_parts flattenReferences_usedDocument gather_usedDocument (by decide +kernel)

/-- An occurrence that is no first one and leads to a leaf is idle. -/
theorem idle_of_reference {x body : NodeId} {target : String}
    (hx : scope.store.get? x = some (.reference target))
    (hbody : scope.definitions.get? target = some body) {leaf : Node}
    (hleaf : scope.store.get? body = some leaf) (hplain : leaf.isReference = false)
    (hids : scope.store.childIds x = .ok []) (hkids : scope.store.childIds body = .ok [])
    (hfirst : (found.occurrencesOf target).head? ≠ some x) : Idle scope found x := by
  have hleads : ∀ y, scope.Covered x y → y = x ∨ y = body := by
    intro y hy
    induction hy with
    | root => exact .inl rfl
    | child _ hchild ih =>
      obtain ⟨ids, hchild, hmem⟩ := hchild
      rcases ih with rfl | rfl
      · rw [hids] at hchild
        cases hchild
        cases hmem
      · rw [hkids] at hchild
        cases hchild
        cases hmem
    | body _ hmention hget ih =>
      obtain ⟨node, hnode, href, htarget⟩ := hmention
      rcases ih with rfl | rfl
      · rw [hx] at hnode
        cases hnode
        cases htarget
        rw [hbody] at hget
        exact .inr (Option.some.inj hget).symm
      · rw [hleaf] at hnode
        cases hnode
        simp [hplain] at href
  intro y name hy hmention _
  obtain ⟨node, hnode, href, htarget⟩ := hmention
  rcases hleads y hy with rfl | rfl
  · rw [hx] at hnode
    cases hnode
    cases htarget
    exact hfirst
  · rw [hleaf] at hnode
    cases hnode
    simp [hplain] at href

/-- The serialization that is dropped holds an occurrence of `Y`, but not the first. -/
theorem dropsIdle_usedDocument :
    DropsIdle ⟨usedDocument.store, usedDocument.definitions, defaultDiscriminatorKey⟩ usedFound
      usedResult := by
  intro name o b site content ser hname hb hsite hown hcontent hser
  -- `X` is the only name that is inlined
  have hkeys : usedFound.occurrences.keys = ["Y", "X"] := by decide +kernel
  have hstays : usedFound.soleOccurrence? "Y" = none := by decide +kernel
  have hmem := Gathered.mem_keys_of_sole hname
  rw [hkeys] at hmem
  rcases List.mem_cons.1 hmem with rfl | hmem
  · rw [hstays] at hname
    cases hname
  · rw [List.mem_singleton.1 hmem] at hb
    have hbody : usedDocument.definitions.get? "X" = some ⟨6⟩ := by decide +kernel
    rw [hbody] at hb
    cases hb
    have hint : usedResult.get? ⟨6⟩ = some ((Node.ofKind .int).withSerialization ⟨5⟩) := by
      decide +kernel
    rw [hint] at hcontent
    cases hcontent
    cases hser
    have hfirst : (usedFound.occurrencesOf "Y").head? ≠ some ⟨5⟩ := by decide +kernel
    have hleaf : usedDocument.store.get? ⟨7⟩ = some (.ofKind .bool) := by decide +kernel
    exact idle_of_reference (by decide +kernel) (by decide +kernel) hleaf rfl (by decide +kernel)
      (by decide +kernel) hfirst

/-- The definition of `Y` is listed, and it is what the returned schema uses. -/
theorem usedDocument_listsUsed :
    ∃ top st', simplifyReferences usedDocument.root usedDocument.definitions true
        (usedDocument.store, ()) = .ok top st' ∧
      (st'.1.listedAt top).map Prod.fst = ["Y"] ∧ st'.1.ListsUsed top := by
  refine ⟨_, _, simplifyReferences_usedDocument, by decide +kernel, ?_⟩
  obtain ⟨flat, definitions, st, found, hflatten, hgather, hlists⟩ :=
    simplifyReferences_listsUsed ofJson_usedBefore simplifyReferences_usedDocument
  rw [flattenReferences_usedDocument] at hflatten
  cases hflatten
  rw [show Scope.gather _ _ = _ from gather_usedDocument] at hgather
  cases hgather
  exact (hlists dropsIdle_usedDocument).2 (by decide +kernel)

/-- All occurrences of `Y` are in the serialization of the body of `X`, whose only occurrence has
one of its own. -/
def replacedUse : Json :=
  useOfSerialization [occurrenceWithString]
    (.object [("type", .text "tuple"),
      ("items_schema", .list [occurrenceOf "Y", occurrenceOf "Y"])])

def replacedDocument : Document where
  store := ⟨#[
    .ofKind .str,
    (Node.reference "X").withSerialization ⟨0⟩,
    (Node.ofKind .tuple).withChild "items_schema" (.many [⟨1⟩]),
    .reference "Y",
    .reference "Y",
    (Node.ofKind .tuple).withChild "items_schema" (.many [⟨3⟩, ⟨4⟩]),
    (Node.ofKind .int).withSerialization ⟨5⟩,
    .ofKind .bool]⟩
  root := ⟨2⟩
  definitions := .ofList [("X", ⟨6⟩), ("Y", ⟨7⟩)]

theorem ofJson_replacedUse : Document.ofJson replacedUse = .ok replacedDocument := by
  decide +kernel

/-- What is left of `replacedDocument`: `Y` is listed around a tuple of an integer. -/
def replacedResult : Store where
  nodes := #[
    .ofKind .str,
    (Node.ofKind .int).withSerialization ⟨0⟩,
    (Node.ofKind .tuple).withChild "items_schema" (.many [⟨1⟩]),
    .reference "Y",
    .reference "Y",
    (Node.ofKind .tuple).withChild "items_schema" (.many [⟨3⟩, ⟨4⟩]),
    (Node.ofKind .int).withSerialization ⟨5⟩,
    .ofKind .bool,
    (Node.ofKind .bool).withName "Y",
    definitionsNode ⟨2⟩ [⟨8⟩]]

theorem simplifyReferences_replacedDocument :
    simplifyReferences replacedDocument.root replacedDocument.definitions true
      (replacedDocument.store, ()) = .ok ⟨9⟩ (replacedResult, ()) := by
  have hflatten : flattenReferences replacedDocument.root replacedDocument.definitions
      (replacedDocument.store, ()) = .ok (replacedDocument.root, replacedDocument.definitions)
        (replacedDocument.store, ()) := by decide +kernel
  have hgather : Scope.gather ⟨replacedDocument.store, replacedDocument.definitions,
      defaultDiscriminatorKey⟩ replacedDocument.root =
        .ok { occurrences := .ofList [("X", [⟨1⟩]), ("Y", [⟨3⟩, ⟨4⟩])] } :=
    Scope.gather_of_runWithin 20 (by decide +kernel)
  exact simplifyReferences_of_parts hflatten hgather (by decide +kernel)

/-- `Y` is listed and used nowhere. -/
theorem not_listsUsed_replacedDocument :
    ∃ d top st', Document.ofJson replacedUse = .ok d ∧
      simplifyReferences d.root d.definitions true (d.store, ()) = .ok top st' ∧
      ¬ st'.1.ListsUsed top := by
  refine ⟨replacedDocument, _, _, ofJson_replacedUse, simplifyReferences_replacedDocument, ?_⟩
  intro h
  obtain ⟨⟨found, hgather, hused⟩, -⟩ := h
  have hnone : Scope.gather ⟨replacedResult, .ofList (replacedResult.listedAt ⟨9⟩),
      defaultDiscriminatorKey⟩ (replacedResult.innerAt ⟨9⟩) = .ok {} :=
    Scope.gather_of_runWithin 20 (by decide +kernel)
  rw [show Scope.gather _ _ = _ from hnone] at hgather
  cases hgather
  have hlisted : (replacedResult.listedAt ⟨9⟩).map Prod.fst = ["Y"] := by decide +kernel
  rw [show List.map Prod.fst _ = _ from hlisted] at hused
  cases hused

end SchemaGraph
