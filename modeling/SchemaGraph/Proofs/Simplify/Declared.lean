import SchemaGraph.Proofs.Simplify.Knots

/-!
Declarations in the returned schema. Flattening takes all names away, and listing gives one name to
each definition that stays. So what the schema declares is what its `definitions` node lists, and
there is no other `definitions` node.

* `simplifyReferences_declarations` — **each definition is declared once, at the top**.
-/

namespace SchemaGraph

namespace Store

variable {s : Store} {id : NodeId}

/-- The names that the nodes of a list bear, with the nodes. -/
def declared (s : Store) (ids : List NodeId) : List (String × NodeId) :=
  ids.filterMap fun id => ((s.get? id).bind Node.name).map fun name => (name, id)

theorem declarations_eq {ids : List NodeId} (h : s.preorder id = .ok ids) :
    s.declarations id = .ok (s.declared ids) := by
  rw [declarations, h]
  rfl

theorem declared_append (ids others : List NodeId) :
    s.declared (ids ++ others) = s.declared ids ++ s.declared others := List.filterMap_append

theorem declared_cons {node : Node} (hnode : s.get? id = some node) (ids : List NodeId) :
    s.declared (id :: ids) =
      (node.name.map fun name => (name, id)).toList ++ s.declared ids := by
  unfold declared
  cases hname : node.name <;> simp [hnode, hname]

theorem Grounded.declared_eq_nil (h : s.Grounded Node.IsFlat id) {tree : List NodeId}
    (htree : s.preorder id = .ok tree) : s.declared tree = [] := by
  refine List.filterMap_eq_nil_iff.2 fun x hx => ?_
  have hx' := h.of_below ((mem_preorder htree).1 hx)
  cases hnode : s.get? x with
  | none => rfl
  | some node => simp [(hx'.property hnode).nameless]

theorem declared_flatten_eq_nil {ids : List NodeId} {trees : List (List NodeId)}
    (htrees : List.Forall₂ (fun child tree => s.preorder child = .ok tree) ids trees)
    (hflat : ∀ child ∈ ids, s.Grounded Node.IsFlat child) : s.declared trees.flatten = [] := by
  induction htrees with
  | nil => rfl
  | cons htree _ ih =>
    rw [List.flatten_cons, declared_append, (hflat _ List.mem_cons_self).declared_eq_nil htree,
      ih fun child hchild => hflat child (List.mem_cons_of_mem _ hchild)]
    rfl

theorem FlatBody.declared_eq (h : s.FlatBody id) {node : Node} {name : String}
    (hnode : s.get? id = some node) (hname : node.name = some name) {tree : List NodeId}
    (htree : s.preorder id = .ok tree) : s.declared tree = [(name, id)] := by
  obtain ⟨ids, trees, hids, htrees, hcons⟩ := h.grounded.preorder_cons
  rw [htree] at hcons
  cases hcons
  have hflat : ∀ child ∈ ids, s.Grounded Node.IsFlat child :=
    fun child hchild => h.of_holds (IsChild.holds ⟨ids, hids, hchild⟩)
  rw [declared_cons hnode, hname, declared_flatten_eq_nil htrees hflat]
  rfl

theorem declared_flatten_eq {kept : List (String × NodeId)} {ids : List NodeId}
    (h : List.Forall₂ (fun entry id => s.FlatDefinition entry.1 id) kept ids) :
    ∀ {trees : List (List NodeId)},
      List.Forall₂ (fun child tree => s.preorder child = .ok tree) ids trees →
      (s.declared trees.flatten).map Prod.fst = kept.map Prod.fst ∧
        (s.declared trees.flatten).map Prod.snd = ids := by
  induction h with
  | nil =>
    intro trees htrees
    cases htrees
    exact ⟨rfl, rfl⟩
  | @cons entry id kept ids hentry _ ih =>
    intro trees htrees
    obtain ⟨hbody, node, hnode, hname⟩ := hentry
    cases htrees with
    | @cons _ tree _ trees htree hrest =>
      obtain ⟨hnames, hids⟩ := ih hrest
      rw [List.flatten_cons, declared_append, hbody.declared_eq hnode hname htree]
      simp [hnames, hids]

end Store

variable {σ : Type} {own : σ} {s : Store} {root top : NodeId} {definitions : Definitions}
  {inline : Bool} {st' : Store × σ}

/-- What a `definitions` node over flat bodies and a flat schema declares: the names of the bodies,
in their order. -/
theorem declarations_definitionsNode {flat : NodeId} {kept : List (String × NodeId)}
    {listed : List NodeId} (htop : s.get? top = some (definitionsNode flat listed))
    (hflat : s.Grounded Node.IsFlat flat)
    (hlisted : List.Forall₂ (fun entry id => s.FlatDefinition entry.1 id) kept listed) :
    ∃ declared, s.declarations top = .ok declared ∧ declared.map Prod.fst = kept.map Prod.fst ∧
      declared.map Prod.snd = listed := by
  have hfinite := grounded_definitionsNode htop hflat hlisted
  obtain ⟨ids, trees, hids, htrees, hpreorder⟩ := hfinite.preorder_cons
  rw [childIds_definitionsNode htop] at hids
  cases hids
  -- the trees of the listed bodies, then that of the inner schema
  obtain ⟨bodies, last, hbodies, hlast, rfl⟩ : ∃ bodies last,
      List.Forall₂ (fun child tree => s.preorder child = .ok tree) listed bodies ∧
      List.Forall₂ (fun child tree => s.preorder child = .ok tree) [flat] last ∧
      trees = bodies ++ last := by
    refine ⟨trees.take listed.length, trees.drop listed.length, ?_, ?_, ?_⟩
    · have := List.forall₂_take listed.length htrees
      rwa [List.take_left] at this
    · have := List.forall₂_drop listed.length htrees
      rwa [List.drop_left] at this
    · exact (List.take_append_drop _ _).symm
  have hnone : s.declared last.flatten = [] := by
    refine Store.declared_flatten_eq_nil hlast fun child hchild => ?_
    rw [List.mem_singleton.1 hchild]
    exact hflat
  have hname : (definitionsNode flat listed).name = none := rfl
  refine ⟨_, Store.declarations_eq hpreorder, ?_⟩
  rw [Store.declared_cons htop, hname, List.flatten_append, Store.declared_append, hnone]
  simpa using Store.declared_flatten_eq hlisted hbodies

/-- Where the only `definitions` node of a returned schema is. -/
theorem eq_top_of_definitions {flat id : NodeId} {kept : List (String × NodeId)}
    {listed : List NodeId} {node : Node} (htop : s.get? top = some (definitionsNode flat listed))
    (hflat : s.Grounded Node.IsFlat flat)
    (hlisted : List.Forall₂ (fun entry id => s.FlatDefinition entry.1 id) kept listed)
    (hid : s.Below top id) (hnode : s.get? id = some node)
    (hkind : node.kind? = some .definitions) : id = top := by
  rcases (Store.below_of_childIds (childIds_definitionsNode htop)).1 hid with
    rfl | ⟨child, hchild, hid⟩
  · rfl
  · have hplain := grounded_of_mem_listed hflat hlisted hchild
    exact absurd hkind ((hplain.of_below hid).property hnode)

/-- **Each definition is declared once.** After a clean-up, with or without inlining, the named
nodes of the returned schema in pre-order are the entries of the `definitions` node at the top, with
different names, and there is no other `definitions` node; if nothing is declared, the flat schema
is returned as it is. Without inlining the names are those of the flattened definitions, in their
order. -/
theorem simplifyReferences_declarations
    (h : simplifyReferences root definitions inline (s, own) = .ok top st') :
    ∃ flat all st₁ declared, flattenReferences root definitions (s, own) = .ok (flat, all) st₁ ∧
      st'.1.declarations top = .ok declared ∧ (declared.map Prod.fst).Nodup ∧
      (declared = [] → top = flat) ∧
      (declared ≠ [] → ∃ node, st'.1.get? top = some node ∧ node.kind? = some .definitions ∧
        node.listedDefinitions = declared.map Prod.snd ∧ node.innerSchema? = some flat) ∧
      (∀ id node, st'.1.Below top id → st'.1.get? id = some node →
        node.kind? = some .definitions → declared ≠ [] ∧ id = top) ∧
      (inline = false → declared.map Prod.fst = all.keys) := by
  obtain ⟨flat, all, st₁, s₂, kept, hflatten, hrewritten, hwrap, hall⟩ :=
    rewritten_of_simplifyReferences h
  obtain ⟨hflat, ⟨rfl, rfl⟩ | ⟨hne, listed, htop, hlisted⟩⟩ := hwrap.shape hrewritten
  · -- nothing stays: the flat schema declares nothing
    refine ⟨top, all, st₁, [], hflatten, ?_, List.nodup_nil, fun _ => rfl,
      fun hne => absurd rfl hne, fun id node hid hnode hkind => ?_, fun e => ?_⟩
    · rw [Store.declarations_eq hflat.preorder_eq, hflat.declared_eq_nil hflat.preorder_eq]
    · exact absurd hkind ((hflat.of_below hid).property hnode).plain
    · have hnil : [] = all.entries := (hall e).2
      simp [OrderedMap.keys, Entries.names, ← hnil]
  · obtain ⟨declared, hdeclared, hnames, hids⟩ := declarations_definitionsNode htop hflat hlisted
    have hsome : declared ≠ [] := by
      rintro rfl
      exact hne (List.map_eq_nil_iff.1 hnames.symm)
    refine ⟨flat, all, st₁, declared, hflatten, hdeclared, hnames ▸ hrewritten.nodup,
      fun e => absurd e hsome, fun _ => ?_, fun id node hid hnode hkind => ?_, fun e => ?_⟩
    · exact ⟨_, htop, kind?_definitionsNode _ _, hids.symm, innerSchema?_definitionsNode _ _⟩
    · exact ⟨hsome, eq_top_of_definitions htop hflat hlisted hid hnode hkind⟩
    · rw [hnames, (hall e).2]
      rfl

/-- Of the two definitions one is inlined; the other is declared, at the top. -/
theorem sharedStore_declarations :
    ∃ top st', simplifyReferences ⟨2⟩ sharedDefinitions true (sharedStore, ()) = .ok top st' ∧
      st'.1.declarations top = .ok [("A", ⟨6⟩)] ∧
      ∃ flat all st₁ declared,
        flattenReferences ⟨2⟩ sharedDefinitions (sharedStore, ()) = .ok (flat, all) st₁ ∧
        st'.1.declarations top = .ok declared ∧ (declared.map Prod.fst).Nodup ∧
        (declared = [] → top = flat) ∧
        (declared ≠ [] → ∃ node, st'.1.get? top = some node ∧ node.kind? = some .definitions ∧
          node.listedDefinitions = declared.map Prod.snd ∧ node.innerSchema? = some flat) ∧
        (∀ id node, st'.1.Below top id → st'.1.get? id = some node →
          node.kind? = some .definitions → declared ≠ [] ∧ id = top) ∧
        (true = false → declared.map Prod.fst = all.keys) :=
  ⟨_, _, simplifyReferences_sharedStore, by decide +kernel,
    simplifyReferences_declarations simplifyReferences_sharedStore⟩

end SchemaGraph
