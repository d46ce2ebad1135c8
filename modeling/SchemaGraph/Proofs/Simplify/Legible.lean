import SchemaGraph.Proofs.Flatten.Separation
import SchemaGraph.Proofs.Flatten.Skipping
import SchemaGraph.Proofs.Simplify.Knots
import SchemaGraph.Proofs.Wire.Legible

/-!
What a clean-up returns can be loaded again. The nodes of a loaded document are legible, and so is
each node that a clean-up makes of legible ones.

* `Wire.Legible.of_alike`, `Wire.Legible.inlinedAt`, `Wire.Legible.withName`,
  `Wire.legible_definitionsNode` — what is made of legible nodes is legible;
* `Flat.legible`, `Inlined.legible`, `Wrapped.legible` — each step of a clean-up keeps to legible nodes;
* `legible_of_simplifyReferences` — **what a clean-up of a loaded document returns** can be loaded too.
-/

namespace SchemaGraph

/-! ### Nodes made of legible ones -/

namespace Wire

variable {R : NodeId → NodeId → Prop} {node other body site : Node} {name : String}

theorem Legible.of_alike (h : Legible node) (halike : node.Alike R other) : Legible other := by
  have hkind := halike.kind?_eq
  have hname := halike.name_eq
  have htarget := halike.target_eq
  have hmetadata := halike.metadata_eq
  have hattrs : other.attrs = node.attrs := (congrArg Node.attrs halike.content :)
  refine ⟨⟨?_, ?_, ?_, ?_, fun key child hchild => ?_, ?_⟩, ?_⟩
  · exact hkind ▸ hname ▸ h.inPlace.name
  · exact hkind ▸ htarget ▸ h.inPlace.target
  · exact hkind ▸ hmetadata ▸ h.inPlace.metadata
  · intro hsome
    obtain ⟨id, hid⟩ := Option.isSome_iff_exists.1 hsome
    obtain ⟨old, hold, -⟩ := exists_of_optionRel halike.serialization hid
    exact hkind ▸ h.inPlace.serialization (by rw [hold]; rfl)
  · obtain ⟨old, hold, hshape⟩ :=
      exists_of_optionRel (halike.children key) (OrderedMap.mem_entries_iff.1 hchild)
    obtain ⟨slot, hrole, hfits⟩ := h.inPlace.children key old (OrderedMap.mem_entries_iff.2 hold)
    exact ⟨slot, hkind ▸ hrole, hshape.shape_eq.trans hfits⟩
  · exact hkind ▸ hattrs ▸ h.inPlace.attrs
  · exact halike.isReference_eq ▸ htarget ▸ h.target

theorem legible_reference (name : String) : Legible (.reference name) where
  inPlace := { inPlace_start _ Kind.definitionRef.tag with target := fun _ => rfl }
  target := fun _ => rfl

theorem legible_definitionsNode (root : NodeId) (listed : List NodeId) :
    Legible (definitionsNode root listed) := by
  have hplace : InPlace (some .definitions) (Node.ofKind .definitions) := inPlace_start _ _
  refine ⟨kind?_definitionsNode root listed ▸ ?_, fun h => by cases h⟩
  have hlisted : InPlace (some .definitions)
      ((Node.ofKind .definitions).withChild Key.definitions (.many listed)) :=
    hplace.withChild rfl rfl
  exact hlisted.withChild rfl rfl

theorem Legible.withName (h : Legible node) {kind : Kind} (hkind : node.kind? = some kind) :
    Legible (node.withName name) where
  inPlace := { h.inPlace with
    name := fun _ => by
      show role node.kind? Key.name = _
      rw [hkind]
      rfl }
  target := h.target

theorem Legible.inlinedAt (h : Legible body) {kind : Kind} (hkind : body.kind? = some kind) :
    Legible (body.inlinedAt site) where
  inPlace := { h.inPlace with
    name := fun h => by cases h
    metadata := fun _ => by
      show role body.kind? Key.metadata = _
      rw [hkind]
      rfl
    serialization := fun _ => by
      show role body.kind? Key.serialization = _
      rw [hkind]
      rfl }
  target := h.target

end Wire

/-! ### The steps of a clean-up -/

section Flattening

variable {d : Document} {t : Stage} {root x : NodeId} {o : Origin} {node : Node} {P : Node → Prop}

/-- A flattened node is legible if those of the document are. -/
theorem Flat.legible (h : Flat d t)
    (hd : ∀ id node, d.store.get? id = some node → Wire.Legible node)
    (ho : t.origin x = some o) (hnode : t.store.get? x = some node) : Wire.Legible node := by
  obtain ⟨_, hsame, hexplains⟩ := h.explained x o ho
  cases hnode.symm.trans hsame
  cases o with
  | copy id =>
    obtain ⟨base, kind, hbase, -, -, -, halike⟩ := hexplains
    exact (hd id base hbase).of_alike halike
  | mention id =>
    obtain ⟨name, -, -, rfl⟩ := hexplains
    exact Wire.legible_reference name

theorem Flat.grounded_legible (h : Flat d t)
    (hd : ∀ id node, d.store.get? id = some node → Wire.Legible node)
    (ho : t.origin x = some o) (hx : t.store.Grounded P x) : t.store.Grounded Wire.Legible x := by
  refine hx.of_forall fun y node hy hnode => ?_
  rcases h.entry_of_below ho hy with rfl | ⟨_, -, himage⟩
  · exact h.legible hd ho hnode
  · obtain ⟨_, ho'⟩ := himage.traced
    exact h.legible hd ho' hnode

end Flattening

variable {scope : Scope} {root top x : NodeId} {found : Gathered} {s s₂ s' : Store}
  {kept : List (String × NodeId)}

theorem Inlined.legible (h : scope.gather root = .ok found) (hs₂ : Inlined scope found s₂)
    (hflat : ∀ x, scope.Covered root x → s₂.FlatBody x)
    (hlegible : ∀ x node, scope.Covered root x → scope.store.get? x = some node →
      Wire.Legible node) (hx : scope.Covered root x) :
    ∀ node, s₂.get? x = some node → Wire.Legible node := by
  have hplace : ∀ {o : NodeId} {site body : Node}, scope.Covered root o →
      s₂.get? o = some (body.inlinedAt site) → Wire.Legible body → Wire.Legible (body.inlinedAt site) := by
    intro o site body ho hplace hbody
    obtain ⟨kind, hkind, -⟩ := (hflat o ho).parts hplace
    exact hbody.inlinedAt hkind
  refine hs₂.induction (P := fun x => ∀ node, s₂.get? x = some node → Wire.Legible node)
    h ?_ ?_ ?_ hx
  · intro x hx _ hsame node hnode
    exact hlegible x node hx (hsame ▸ hnode)
  · intro x name b site body hb hname _ _ hthere hbody _ node hnode
    cases hthere.symm.trans hnode
    exact hplace (covered_of_sole h hname).1 hthere (hlegible b body hb hbody)
  · intro x name b later site body hname _ _ hthere hbody _ _ ih node hnode
    cases hthere.symm.trans hnode
    exact hplace (covered_of_sole h hname).1 hthere (ih body hbody)

theorem Inlined.grounded_legible (h : scope.gather root = .ok found) (hs₂ : Inlined scope found s₂)
    (hflat : ∀ x, scope.Covered root x → s₂.FlatBody x)
    (hlegible : ∀ x node, scope.Covered root x → scope.store.get? x = some node →
      Wire.Legible node) (hx : scope.Covered root x) : s₂.Grounded Wire.Legible x := by
  refine (hflat x hx).grounded.of_forall fun y node hy hnode => ?_
  have hcovered : ∀ y, s₂.Below x y → scope.Covered root y := fun y hy => by
    induction hy with
    | refl => exact hx
    | tail _ hchild ih => exact hs₂.covered_of_holds h ih hchild.holds
  exact hs₂.legible h hflat hlegible (hcovered y hy) node hnode

theorem Wrapped.legible (hwrap : Wrapped s root kept s' top)
    (hroot : s.Grounded Wire.Legible root)
    (hbodies : ∀ entry ∈ kept, s.Grounded Wire.Legible entry.2) : s'.Grounded Wire.Legible top := by
  have hinner := hroot.of_extends hwrap.extends_
  obtain ⟨listed, hcopies, ⟨-, rfl⟩ | ⟨-, htop⟩⟩ := hwrap.listed
  · exact hinner
  refine Store.grounded_definitionsNode_of htop (Wire.legible_definitionsNode root listed) ?_
  intro child hchild
  rcases List.mem_append.1 hchild with hchild | hchild
  · obtain ⟨entry, hentry, node, hnode, hcopied⟩ := exists_left_of_forall₂ hcopies hchild
    cases hbodies entry hentry with
    | node hold hkind hfits hlegible hkids =>
      cases hnode.symm.trans hold
      exact .node hcopied hkind hfits (hlegible.withName hkind)
        fun id hid => (hkids id hid).of_extends hwrap.extends_
  · rw [List.mem_singleton.1 hchild]
    exact hinner

/-- **What a clean-up of a loaded document returns** can be loaded too. -/
theorem legible_of_simplifyReferences {σ : Type} {own : σ} {value : Json} {d : Document}
    {inline : Bool} {st' : Store × σ} (hd : Document.ofJson value = .ok d)
    (h : simplifyReferences d.root d.definitions inline (d.store, own) = .ok top st') :
    st'.1.Grounded Wire.Legible top := by
  have hnodes : ∀ id node, d.store.get? id = some node → Wire.Legible node :=
    fun _ _ => Document.legible_of_ofJson hd
  obtain ⟨⟨flat, all⟩, ⟨s, own₁⟩, hflatten, hrest⟩ := Pass.bind_eq_ok.1 h
  obtain ⟨hroot, hbodies⟩ := flat_of_flattenReferences hflatten
  obtain ⟨stage, hstage, rfl, rfl, -⟩ :=
    flattened_of_flattenReferences (Document.forest_of_ofJson hd) hflatten
  cases inline with
  | false =>
    obtain ⟨_, _, _, _, _, hsame, -, hwrap, hlisted⟩ := rewritten_of_simplifyReferences h
    cases hflatten.symm.trans hsame
    obtain ⟨rfl, rfl⟩ := hlisted rfl
    obtain ⟨o, ho⟩ := hstage.image.traced
    refine hwrap.legible (hstage.flat.grounded_legible hnodes ho hroot) fun entry hentry => ?_
    have hbody := OrderedMap.mem_entries_iff.1 hentry
    obtain ⟨o, ho⟩ := (hstage.hoisted hbody).traced
    exact hstage.flat.grounded_legible hnodes ho (hbodies _ _ hbody).grounded
  | true =>
    obtain ⟨found, s₂, kept, hgather, hs₂, hflat, hnames, hkept, -, hwrap⟩ :=
      rewritten_of_inlineReferences hroot hbodies hrest
    have hcovered : ∀ x, stage.scope.Covered flat x → s₂.Grounded Wire.Legible x := by
      refine fun x hx => hs₂.grounded_legible hgather hflat (fun y node hy hnode => ?_) hx
      obtain ⟨o, ho⟩ := hstage.traced_of_covered hy
      exact hstage.flat.legible hnodes ho hnode
    refine hwrap.legible (hcovered flat .root) fun entry hentry => hcovered entry.2 ?_
    obtain ⟨hstays, hbody⟩ := (mem_kept_iff hnames hkept).1 hentry
    exact covered_of_stays hgather hstays hbody

end SchemaGraph
