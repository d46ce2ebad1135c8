import SchemaGraph.Proofs.Gather.Placed
import SchemaGraph.Proofs.Simplify.Again
import SchemaGraph.Proofs.Simplify.Listed

/-!
Rendering a returned schema, loading it again and flattening it again. What comes out has twins of the
schema and of the listed definitions, under the same names in the same order, and none of its nodes
has two places.

* `Document.Forest.separate` — a scope inside a loaded document, whose root and bodies nothing in it
  holds, is separate;
* `Refound`, `exists_refound` — **a returned schema is found again** after rendering, loading and
  flattening;
* `Refound.twin`, `Refound.akin_bodies` — what is found again is akin to the flat schema and to the
  bodies that were listed.
-/

namespace SchemaGraph

/-! ### Twins of flat schemas -/

namespace Store

variable {s s' : Store} {x x' : NodeId} {name : String}

theorem Twin.isFlat (h : s.Twin s' x x') (hx : s.Grounded Node.IsFlat x) :
    s'.Grounded Node.IsFlat x' := by
  refine h.grounded (fun R node node' halike hflat => ⟨?_, ?_⟩) hx
  · rw [halike.name_eq, hflat.nameless]
  · rw [halike.kind?_eq]
    exact hflat.plain

theorem Twin.flatDefinition (h : s.Twin s' x x') (hx : s.FlatDefinition name x) :
    s'.FlatDefinition name x' := by
  obtain ⟨hbody, node, hnode, hname⟩ := hx
  obtain ⟨_, node', hsame, hnode', halike⟩ := h.parts
  cases hnode.symm.trans hsame
  obtain ⟨kind, hkind, hne, hfits, hkids⟩ := hbody.parts hnode
  refine ⟨⟨node', kind, hnode', halike.kind?_eq.trans hkind, hne, halike.fits hfits, ?_⟩,
    node', hnode', halike.name_eq.trans hname⟩
  intro child hchild
  obtain ⟨id, hid, htwin⟩ := halike.exists_storedId hchild
  exact htwin.isFlat (hkids id hid)

theorem declared_of_names {names : List String} {ids : List NodeId}
    (h : List.Forall₂ (fun name id => ∃ node, s.get? id = some node ∧ node.name = some name)
      names ids) : (s.declared ids).map Prod.fst = names ∧ (s.declared ids).map Prod.snd = ids := by
  induction h with
  | nil => exact ⟨rfl, rfl⟩
  | cons hid _ ih =>
    obtain ⟨node, hnode, hname⟩ := hid
    rw [declared_cons hnode, hname]
    simpa using ih

theorem FlatBody.childAt (h : s.FlatBody x) (hext : s.Extends s') {position : Nat} {child : NodeId}
    (hchild : s'.ChildAt x position child) : s.ChildAt x position child := by
  obtain ⟨node, kind, hnode, hkind, -, hfits, -⟩ := h
  obtain ⟨ids, hids, hat⟩ := hchild
  have hkids : s.childIds x = .ok (node.orderedChildren kind) :=
    childIds_eq_ok.2 ⟨node, kind, hnode, hkind, hfits, rfl⟩
  cases (Grounded.childIds_of_extends hkids hext).symm.trans hids
  exact ⟨_, hkids, hat⟩

end Store

/-! ### Scopes inside a document -/

/-- **A scope inside a loaded document is separate** if nothing flat holds its root or one of its
bodies. -/
theorem Document.Forest.separate {d : Document} (hd : d.Forest)
    (hnodup : ∀ id node, d.store.get? id = some node → node.storedIds.Nodup) {t : Store}
    (hext : d.store.Extends t) {definitions : Definitions} {flat : NodeId}
    (hflat : d.store.FlatBody flat)
    (hbodies : ∀ name body, definitions.get? name = some body → d.store.FlatBody body)
    (hroot : ∀ x, d.store.FlatBody x → ¬ d.store.Holds x flat)
    (hbody : ∀ x name body, d.store.FlatBody x → definitions.get? name = some body →
      ¬ d.store.Holds x body)
    (hne : ∀ name body, definitions.get? name = some body → body ≠ flat)
    (hinjective : ∀ name other body, definitions.get? name = some body →
      definitions.get? other = some body → name = other) :
    Scope.Separate { store := t, definitions } flat := by
  have hinside : ∀ x, Scope.Covered { store := t, definitions } flat x → d.store.FlatBody x := by
    intro x hx
    induction hx with
    | root => exact hflat
    | child _ hchild ih =>
      obtain ⟨position, hat⟩ := hchild.childAt
      exact .of_grounded (ih.of_holds (ih.childAt hext hat).isChild.holds)
    | body _ _ hname => exact hbodies _ _ hname
  have hheld : ∀ x child, Scope.Covered { store := t, definitions } flat x → t.IsChild x child →
      d.store.Holds x child := by
    intro x child hx hchild
    obtain ⟨position, hat⟩ := hchild.childAt
    exact ((hinside x hx).childAt hext hat).isChild.holds
  constructor
  case child =>
    intro x y child i j hx hy hi hj
    have ⟨ids, hids, hati⟩ := (hinside x hx).childAt hext hi
    have ⟨ids', hids', hatj⟩ := (hinside y hy).childAt hext hj
    obtain rfl : x = y := hd.parent_unique x y child (hheld x child hx hi.isChild)
      (hheld y child hy hj.isChild)
    cases hids.symm.trans hids'
    obtain ⟨node, kind, hnode, -, -, rfl⟩ := Store.childIds_eq_ok.1 hids
    obtain ⟨hlt, -⟩ := List.getElem?_eq_some_iff.1 hati
    exact ⟨rfl, (List.getElem?_inj hlt (Node.nodup_orderedChildren kind (hnodup x node hnode))).1
      (hati.trans hatj.symm)⟩
  case not_held => exact fun x hx hchild => hroot x (hinside x hx) (hheld x _ hx hchild)
  case body =>
    exact fun x name body hx hname hchild => hbody x name body (hinside x hx) hname
      (hheld x _ hx hchild)
  case body_ne => exact hne
  case injective => exact hinjective

/-- The scope inside a document whose root is a `definitions` node over flat definitions. -/
theorem Document.Forest.separate_definitionsNode {d : Document} (hd : d.Forest)
    (hnodup : ∀ id node, d.store.get? id = some node → node.storedIds.Nodup) {t : Store}
    (hext : d.store.Extends t) {flat : NodeId} {entries : List (String × NodeId)}
    (htop : d.store.get? d.root = some (definitionsNode flat (entries.map Prod.snd)))
    (hflat : d.store.Grounded Node.IsFlat flat)
    (hentries : ∀ entry ∈ entries, d.store.FlatDefinition entry.1 entry.2)
    (hnames : (entries.map Prod.fst).Nodup) :
    Scope.Separate { store := t, definitions := .ofList entries } flat := by
  have hids := childIds_definitionsNode htop
  have hdistinct : (entries.map Prod.snd ++ [flat]).Nodup := by
    obtain ⟨kind, -, -, hordered⟩ := Store.childIds_parts hids htop
    exact hordered ▸ Node.nodup_orderedChildren kind (hnodup d.root _ htop)
  obtain ⟨hbodies, -, happart⟩ := List.nodup_append.1 hdistinct
  have hentry : ∀ {name body}, (OrderedMap.ofList entries).get? name = some body →
      (name, body) ∈ entries := by
    intro name body h
    rwa [← OrderedMap.mem_entries_iff, OrderedMap.entries_ofList hnames] at h
  -- what the root holds nothing else holds, and the root is no flat node
  have houter : ∀ x start, d.store.FlatBody x → start ∈ entries.map Prod.snd ++ [flat] →
      ¬ d.store.Holds x start := by
    rintro x start ⟨node, kind, hnode, hkind, hne, -⟩ hstart hheld
    cases hd.parent_unique x d.root start hheld (Store.IsChild.holds ⟨_, hids, hstart⟩)
    cases htop.symm.trans hnode
    exact hne (Option.some.inj (hkind.symm.trans (kind?_definitionsNode _ _)))
  refine hd.separate hnodup hext (.of_grounded hflat) (fun name body h => (hentries _ (hentry h)).1)
    (fun x hx => houter x flat hx (by simp)) (fun x name body hx h => ?_) (fun name body h => ?_)
    fun name other body h h' => ?_
  · exact houter x body hx (List.mem_append_left _ (List.mem_map_of_mem (hentry h)))
  · exact happart body (List.mem_map_of_mem (hentry h)) flat (List.mem_singleton.2 rfl)
  · exact congrArg Prod.fst (List.inj_on_of_nodup_map hbodies (hentry h) (hentry h') rfl)

/-! ### A returned schema is found again -/

/-- What flattening finds in a returned schema that was rendered and loaded again. -/
structure Refound (s : Store) (top : NodeId) (d : Document) (flat : NodeId) (t : Store) : Prop where
  flatten : ∀ {σ : Type} (own : σ), flattenReferences d.root d.definitions (d.store, own) =
    .ok (flat, d.definitions) (t, own)
  root : s.Twin t (s.innerAt top) flat
  bodies : Entries.Related (s.Twin t) (s.listedAt top) d.definitions.entries
  separate : Scope.Separate { store := t, definitions := d.definitions } flat

variable {s s' : Store} {flat top : NodeId} {kept : List (String × NodeId)} {w : Json}

/-- A flat schema that was loaded again. -/
theorem refound_of_isFlat {d : Document} (hd : d.Forest)
    (hnodup : ∀ id node, d.store.get? id = some node → node.storedIds.Nodup)
    (hdefinitions : d.store.collectDefinitions d.root = .ok d.definitions)
    (htwin : s.Twin d.store top d.root) (htop : s.Grounded Node.IsFlat top) :
    Refound s top d d.root d.store := by
  have hroot := htwin.isFlat htop
  obtain ⟨node, hnode⟩ : ∃ node, s.get? top = some node := by
    obtain ⟨node, _, hnode, -⟩ := htwin.parts
    exact ⟨node, hnode⟩
  have hplain := (htop.property hnode).plain
  have hempty : d.definitions = .empty := by
    obtain ⟨tree, htree⟩ := Store.grounded_iff.1 (hroot.mono fun _ _ => trivial)
    obtain ⟨declared, hdeclared, hcollect⟩ := bind_eq_ok.1 hdefinitions
    rw [Store.declarations_eq htree, hroot.declared_eq_nil htree] at hdeclared
    cases hdeclared
    exact (pure_eq_ok.1 hcollect).symm
  constructor
  case flatten =>
    intro σ own
    rw [hempty]
    exact flattenReferences_of_flat hroot fun name body hbody => by cases hbody
  case root => rwa [Store.innerAt_of_plain hnode hplain]
  case bodies =>
    rw [Store.listedAt_of_plain hnode hplain, hempty]
    exact .nil
  case separate =>
    have hnone : ∀ name, d.definitions.get? name = none := by
      intro name
      rw [hempty]
      rfl
    refine hd.separate hnodup (.refl _) (.of_grounded hroot) ?_ (fun x _ => hd.root_not_held x)
      ?_ ?_ ?_ <;> simp [hnone]

/-- A `definitions` node over flat definitions and a flat schema that was loaded again. -/
theorem refound_of_definitionsNode {d : Document} (hd : d.Forest)
    (hnodup : ∀ id node, d.store.get? id = some node → node.storedIds.Nodup)
    (hdefinitions : d.store.collectDefinitions d.root = .ok d.definitions)
    (htwin : s.Twin d.store top d.root) {listed : List NodeId}
    (htop : s.get? top = some (definitionsNode flat listed)) (hflat : s.Grounded Node.IsFlat flat)
    (hlisted : List.Forall₂ (fun entry id => s.FlatDefinition entry.1 id) kept listed)
    (hkept : (kept.map Prod.fst).Nodup) : ∃ flat' t, Refound s top d flat' t := by
  obtain ⟨_, node', hsame, hnode', halike⟩ := htwin.parts
  cases htop.symm.trans hsame
  obtain ⟨flat', listed', rfl, hinner, hbodies⟩ := exists_definitionsNode halike
  have hflat' := hinner.isFlat hflat
  have hlisted' : List.Forall₂ (fun entry id => d.store.FlatDefinition entry.1 id) kept listed' :=
    forall₂_compose (fun _ _ _ hdefinition hbody => hbody.flatDefinition hdefinition) hlisted hbodies
  obtain ⟨entries, hentries, hnames, hids⟩ := declarations_definitionsNode hnode' hflat' hlisted'
  have hdeclared : d.definitions = .ofList entries := by
    obtain ⟨_, hsame, hcollect⟩ := bind_eq_ok.1 hdefinitions
    cases hentries.symm.trans hsame
    exact (pure_eq_ok.1 hcollect).symm
  have hnodup_names : (entries.map Prod.fst).Nodup := hnames ▸ hkept
  have heach : ∀ entry ∈ entries, d.store.FlatDefinition entry.1 entry.2 := by
    have hpairs : List.Forall₂ d.store.FlatDefinition (entries.map Prod.fst)
        (entries.map Prod.snd) := by
      rw [hnames, hids]
      exact List.forall₂_map_left_iff.2 hlisted'
    rw [List.forall₂_map_left_iff, List.forall₂_map_right_iff] at hpairs
    exact List.forall₂_same.1 hpairs
  rw [← hids] at hnode'
  obtain ⟨t, hext, hflatten⟩ := flattenReferences_definitionsNode hnode' hflat' heach hnodup_names
  refine ⟨flat', t, ?_, ?_, ?_, ?_⟩
  · intro σ own
    rw [hdeclared]
    exact hflatten own
  · rw [Store.innerAt_of_definitionsNode htop]
    exact hinner.extends (.refl _) hext
  · obtain ⟨hfst, hsnd⟩ := Store.declared_of_names (s := s) (List.forall₂_map_left_iff.2
      (hlisted.imp fun _ _ hdefinition => hdefinition.2))
    rw [Store.listedAt_of_definitionsNode htop, hdeclared, OrderedMap.entries_ofList hnodup_names]
    refine Entries.related_of_names (hnames.trans hfst.symm) ?_
    rw [hsnd, hids]
    exact hbodies.imp fun _ _ hbody => hbody.extends (.refl _) hext
  · rw [hdeclared]
    exact hd.separate_definitionsNode hnodup hext hnode' hflat' heach hnodup_names

/-- **A returned schema is found again** after rendering, loading and flattening. -/
theorem exists_refound (hwrap : Wrapped s flat kept s' top) (h : Rewritten s flat kept)
    (hlegible : s'.Grounded Wire.Legible top) (hw : s'.render top = .ok w) :
    ∃ d flat' t, Document.ofJson w = .ok d ∧ Refound s' top d flat' t := by
  obtain ⟨d, hd, htwin, hdefinitions⟩ := Document.exists_reload hlegible hw
  have hforest := Document.forest_of_ofJson hd
  have hnodup : ∀ id node, d.store.get? id = some node → node.storedIds.Nodup :=
    fun id node => Document.nodup_of_ofJson hd
  obtain ⟨hflat, ⟨-, rfl⟩ | ⟨-, listed, htop, hlisted⟩⟩ := hwrap.shape h
  · exact ⟨d, d.root, d.store, hd, refound_of_isFlat hforest hnodup hdefinitions htwin hflat⟩
  · obtain ⟨flat', t, hrefound⟩ :=
      refound_of_definitionsNode hforest hnodup hdefinitions htwin htop hflat hlisted h.nodup
    exact ⟨d, flat', t, hd, hrefound⟩

/-! ### What is found again -/

section Found

variable {t : Store} {d : Document} {flat' : NodeId}

/-- The body of a copy is akin to the twins of the copy. -/
theorem NamedCopy.akin {name : String} {body body' id : NodeId} (hcopy : NamedCopy s s' name body id)
    (hbody : s.FlatBody body) (hext : s.Extends s') (htwin : s'.Twin t id body') :
    s.Akin t body body' := by
  obtain ⟨node, hnode, hnamed⟩ := hcopy
  obtain ⟨_, node', hsame, hnode', halike⟩ := htwin.parts
  cases hnamed.symm.trans hsame
  have hanonymous : node.anonymous.Alike (s'.Twin t) node'.anonymous :=
    ⟨congrArg Node.anonymous halike.content, halike.keys, halike.children, halike.serialization⟩
  refine ⟨node, node', hnode, hnode', hanonymous.and_mem.mono fun a b ⟨hab, ha, _⟩ => ?_⟩
  exact hab.restrict hext (hbody.of_holds ⟨node, hnode, ha⟩)

namespace Refound

variable (h : Refound s' top d flat' t) (hwrap : Wrapped s flat kept s' top)
  (hrewritten : Rewritten s flat kept)

include h hwrap hrewritten

theorem twin : s.Twin t flat flat' := by
  have hroot := h.root
  rw [(hwrap.listing hrewritten).1] at hroot
  exact hroot.restrict hwrap.extends_ hrewritten.root

theorem akin_bodies : List.Forall₂ (fun entry entry' => entry'.1 = entry.1 ∧ s.Akin t entry.2 entry'.2)
    kept d.definitions.entries := by
  refine forall₂_compose ?_ (forall₂_mem (hwrap.listing hrewritten).2.1) h.bodies
  rintro ⟨name, body⟩ ⟨_, id⟩ ⟨_, body'⟩ ⟨⟨rfl, hcopy⟩, hkept, -⟩ ⟨rfl, htwin⟩
  exact ⟨rfl, hcopy.akin (hrewritten.bodies _ hkept) hwrap.extends_ htwin⟩

end Refound

end Found

end SchemaGraph
