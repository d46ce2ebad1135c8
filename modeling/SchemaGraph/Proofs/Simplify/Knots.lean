import SchemaGraph.Proofs.Flatten.Normal
import SchemaGraph.Proofs.Gather.Breaking
import SchemaGraph.Proofs.Simplify.Inline

/-!
Inlining ties no knot. A place leads to what it holds and to the body that it gets; a way back to
where it started would go through references between names that are inlined, and of each cycle of
references some name is marked and stays. So the covered nodes are built up from below once more
after inlining.

* `Leads`, `not_transGen_leads` — there is no way back;
* `Inlined.flatBody` — after inlining what lies below a covered node is a finite tree of flat nodes;
* `Rewritten`, `rewritten_of_simplifyReferences` — the clean-up, with and without inlining;
* `simplifyReferences_acyclic` — **the returned schema is finite**, and walks over it go through.
-/

namespace SchemaGraph

variable {scope : Scope} {root : NodeId} {found : Gathered} {name other : String} {x y b : NodeId}

/-! ### Ways through places -/

/-- After inlining `y` may be held by the covered node `x`: it was before, or it is the body that
`x` gets. -/
def Leads (scope : Scope) (root : NodeId) (found : Gathered) (x y : NodeId) : Prop :=
  scope.Covered root x ∧ (scope.store.IsChild x y ∨
    ∃ name, found.soleOccurrence? name = some x ∧ scope.definitions.get? name = some y)

/-- A reference to a name that is inlined. -/
def RefersToSole (scope : Scope) (found : Gathered) (name other : String) : Prop :=
  scope.Refers name other ∧ (found.soleOccurrence? other).isSome

theorem not_mem_recursive_of_sole (h : found.soleOccurrence? name = some x) :
    name ∉ found.recursive := by
  unfold Gathered.soleOccurrence? at h
  split at h
  · split at h
    · cases h
    · rename_i hnot
      simpa [Gathered.isRecursive, NameSet.contains] using hnot
  · cases h

/-- From the body of a name ways lead to the trees of bodies that it refers to through names that
are inlined. -/
theorem below_body_of_leads (h : scope.gather root = .ok found)
    (hb : scope.definitions.get? name = some b)
    (hpath : Relation.ReflTransGen (Leads scope root found) b y) :
    ∃ last body, Relation.ReflTransGen (RefersToSole scope found) name last ∧
      scope.definitions.get? last = some body ∧ scope.store.Below body y := by
  induction hpath with
  | refl => exact ⟨name, b, .refl, hb, .refl⟩
  | @tail y z _ hstep ih =>
    obtain ⟨last, body, hlast, hbody, hbelow⟩ := ih
    rcases hstep.2 with hchild | ⟨next, hsole, hnext⟩
    · exact ⟨last, body, hlast, hbody, hbelow.tail hchild⟩
    · have hrefers : scope.Refers last next :=
        ⟨body, y, hbody, hbelow, (covered_of_sole h hsole).2⟩
      exact ⟨next, z, hlast.tail ⟨hrefers, by rw [hsole]; rfl⟩, hnext, .refl⟩

/-- A way stays in one tree or goes through a place. -/
theorem through_place_of_leads (hpath : Relation.TransGen (Leads scope root found) x y) :
    Relation.TransGen scope.store.IsChild x y ∨
      ∃ o name b, found.soleOccurrence? name = some o ∧ scope.definitions.get? name = some b ∧
        Relation.ReflTransGen (Leads scope root found) x o ∧
        Relation.ReflTransGen (Leads scope root found) b y := by
  induction hpath with
  | single hstep =>
    rcases hstep.2 with hchild | ⟨name, hsole, hb⟩
    · exact .inl (.single hchild)
    · exact .inr ⟨x, name, _, hsole, hb, .refl, .refl⟩
  | @tail y z hxy hstep ih =>
    rcases ih with hdown | ⟨o, name, b, hsole, hb, hto, hfrom⟩
    · rcases hstep.2 with hchild | ⟨name, hsole, hb⟩
      · exact .inl (hdown.tail hchild)
      · exact .inr ⟨y, name, z, hsole, hb, hxy.to_reflTransGen, .refl⟩
    · exact .inr ⟨o, name, b, hsole, hb, hto, hfrom.tail hstep⟩

/-- **No way leads back.** Where the covered nodes have finite trees, no place is led to from the
body that it gets. -/
theorem not_transGen_leads (h : scope.gather root = .ok found)
    (hfinite : ∀ x, scope.Covered root x → scope.store.Grounded (fun _ => True) x) :
    ¬ Relation.TransGen (Leads scope root found) x x := by
  intro hround
  rcases through_place_of_leads hround with hdown | ⟨o, name, b, hsole, hb, hto, hfrom⟩
  · obtain ⟨_, hstep, -⟩ := Relation.TransGen.head'_iff.1 hround
    refine (hfinite x hstep.1).not_transGen ?_
    exact Relation.TransGen.mono (fun _ _ hchild => hchild.holds) _ _ hdown
  · -- the body of `name` refers, through names that are inlined, to `name` again
    obtain ⟨last, body, hpath, hbody, hbelow⟩ := below_body_of_leads h hb (hfrom.trans hto)
    obtain ⟨hcovered, hmention⟩ := covered_of_sole h hsole
    have hback : RefersToSole scope found last name :=
      ⟨⟨body, o, hbody, hbelow, hmention⟩, by rw [hsole]; rfl⟩
    obtain ⟨first, hmarked, hcycle⟩ := Scope.exists_recursive_of_cycle h
      (fun _ _ hstep => hstep.1) ⟨o, hcovered, hmention⟩ (Relation.TransGen.tail' hpath hback)
    obtain ⟨_, -, -, hfirst⟩ := Relation.TransGen.tail'_iff.1 hcycle
    obtain ⟨place, hplace⟩ := Option.isSome_iff_exists.1 hfirst
    exact not_mem_recursive_of_sole hplace hmarked

/-! ### The store after inlining -/

theorem Inlined.nameless {s₂ : Store} (hs₂ : Inlined scope found s₂) {node node' : Node}
    (hnode : scope.store.get? x = some node) (hname : node.name = none)
    (hnode' : s₂.get? x = some node') : node'.name = none := by
  by_cases hsole : ∃ name, found.soleOccurrence? name = some x
  · obtain ⟨name, hsole⟩ := hsole
    obtain ⟨_, _, _, -, -, hplace, -⟩ := hs₂.site name x hsole
    rw [hnode'] at hplace
    cases hplace
    rfl
  · have hsame := hs₂.other x fun name hname => hsole ⟨name, hname⟩
    rw [hnode', hnode] at hsame
    cases hsame
    exact hname

theorem covered_of_leads (h : Leads scope root found x y)
    (hgather : scope.gather root = .ok found) :
    scope.Covered root y := by
  obtain ⟨hx, hchild | ⟨name, hsole, hbody⟩⟩ := h
  · exact .child hx hchild
  · exact .body hx (covered_of_sole hgather hsole).2 hbody

/-- **Covered nodes keep flat trees.** If all covered nodes have flat trees before inlining, they
have after it. -/
theorem Inlined.flatBody {s₂ : Store} (h : scope.gather root = .ok found)
    (hs₂ : Inlined scope found s₂) (hflat : ∀ x, scope.Covered root x → scope.store.FlatBody x)
    (hx : scope.Covered root x) : s₂.FlatBody x := by
  have hbound : ∀ x y, Leads scope root found x y → x.index < scope.store.size := by
    intro x y hxy
    obtain ⟨node, hnode⟩ := exists_node_of_covered h hxy.1
    exact Store.lt_size_of_get? hnode
  have hfinite : ∀ x, scope.Covered root x → scope.store.Grounded (fun _ => True) x :=
    fun x hx => (hflat x hx).grounded.mono fun _ _ => trivial
  induction x using (Store.wellFounded_of_irrefl hbound fun _ =>
    not_transGen_leads h hfinite).induction with
  | _ x ih =>
    -- what is held by `x`, or by a node that `x` leads to, is a flat tree again
    have hkid : ∀ y child, Relation.ReflTransGen (Leads scope root found) x y →
        scope.Covered root y → scope.store.Holds y child → s₂.Grounded Node.IsFlat child := by
      intro y child hxy hy hchild
      have hstep : Leads scope root found y child :=
        ⟨hy, .inl ((hflat y hy).grounded.isChild hchild)⟩
      have hcovered := covered_of_leads hstep h
      have hbody := ih child (Relation.TransGen.tail' hxy hstep) hcovered
      obtain ⟨node, hnode⟩ := exists_node_of_covered h hcovered
      have hname : node.name = none := (((hflat y hy).of_holds hchild).property hnode).nameless
      obtain ⟨node', _, hnode', -⟩ := id hbody
      exact hbody.grounded_of_nameless hnode' (hs₂.nameless hnode hname hnode')
    by_cases hsole : ∃ name, found.soleOccurrence? name = some x
    · obtain ⟨name, hsole⟩ := hsole
      obtain ⟨b, site, body, hb, hsite, hplace, hlater, hnone⟩ := hs₂.site name x hsole
      have hstep : Leads scope root found x b := ⟨hx, .inr ⟨name, hsole, hb⟩⟩
      have hcovered := covered_of_leads hstep h
      -- the body as it was, or as it has become
      have hbody : ∃ kind, body.kind? = some kind ∧ kind ≠ .definitions ∧ body.misfit? kind = none ∧
          ∀ child ∈ body.storedIds, s₂.Grounded Node.IsFlat child := by
        by_cases hnext : ∃ later, found.soleOccurrence? later = some b ∧ found.MetBefore name later
        · obtain ⟨later, hsole', hmet⟩ := hnext
          exact (ih b (.single hstep) hcovered).parts (hlater later hsole' hmet)
        · have hbody := hnone fun later hsole' hmet => hnext ⟨later, hsole', hmet⟩
          obtain ⟨kind, hkind, hne, hfits, -⟩ := (hflat b hcovered).parts hbody
          exact ⟨kind, hkind, hne, hfits, fun child hchild =>
            hkid b child (.single hstep) hcovered ⟨body, hbody, hchild⟩⟩
      obtain ⟨kind, hkind, hne, hfits, hkids⟩ := hbody
      refine ⟨_, kind, hplace, hkind, hne, hfits, fun child hchild => ?_⟩
      have hheld : child ∈ body.storedIds ∨ child ∈ site.storedIds :=
        Node.mem_storedIds_seenThrough hchild
      rcases hheld with hchild | hchild
      · exact hkids child hchild
      · exact hkid x child .refl hx ⟨site, hsite, hchild⟩
    · have hsame := hs₂.other x fun name hname => hsole ⟨name, hname⟩
      obtain ⟨node, kind, hnode, hkind, hne, hfits, -⟩ := hflat x hx
      refine ⟨node, kind, hsame.trans hnode, hkind, hne, hfits, fun child hchild => ?_⟩
      exact hkid x child .refl hx ⟨node, hnode, hchild⟩

/-- All that a walk over a flat schema and flat bodies covers has flat trees. -/
theorem flatBody_of_covered (hroot : scope.store.Grounded Node.IsFlat root)
    (hbodies : ∀ name body, scope.definitions.get? name = some body → scope.store.FlatBody body)
    (hx : scope.Covered root x) : scope.store.FlatBody x := by
  induction hx with
  | root => exact .of_grounded hroot
  | child _ hchild ih => exact .of_grounded (ih.of_holds hchild.holds)
  | body _ _ hbody _ => exact hbodies _ _ hbody

/-! ### The clean-up -/

/-- The state before definitions are listed: the schema at `flat` is flat and so are the bodies of
the definitions `kept`, of which no name comes twice. -/
structure Rewritten (s : Store) (flat : NodeId) (kept : List (String × NodeId)) : Prop where
  root : s.Grounded Node.IsFlat flat
  bodies : ∀ entry ∈ kept, s.FlatBody entry.2
  nodup : (kept.map Prod.fst).Nodup

variable {σ : Type} {own : σ} {s : Store} {definitions : Definitions} {inline : Bool} {top : NodeId}
  {st' : Store × σ}

/-- What inlining and listing do with a flat schema and flat bodies. -/
theorem rewritten_of_inlineReferences (hroot : s.Grounded Node.IsFlat root)
    (hbodies : ∀ name body, definitions.get? name = some body → s.FlatBody body)
    (h : inlineReferences root definitions (s, own) = .ok top st') :
    ∃ found s₂ kept, Scope.gather { store := s, definitions } root = .ok found ∧
      Inlined { store := s, definitions } found s₂ ∧
      (∀ x, Scope.Covered { store := s, definitions } root x → s₂.FlatBody x) ∧
      kept.map Prod.fst = found.staying ∧
      (∀ name body, (name, body) ∈ kept → definitions.get? name = some body) ∧
      Rewritten s₂ root kept ∧ Wrapped s₂ root kept st'.1 top := by
  obtain ⟨found, s₂, kept, hgather, hs₂, hnames, hkept, hwrap⟩ := inlineReferences_run h
  have hcovered : ∀ x, Scope.Covered { store := s, definitions } root x → s₂.FlatBody x :=
    fun x hx => hs₂.flatBody hgather (fun y hy => flatBody_of_covered hroot hbodies hy) hx
  refine ⟨found, s₂, kept, hgather, hs₂, hcovered, hnames, hkept, ⟨?_, ?_, ?_⟩, hwrap⟩
  · obtain ⟨node, hnode⟩ := exists_node_of_covered hgather .root
    have hname := (hroot.property hnode).nameless
    have hbody := hcovered root .root
    obtain ⟨node', _, hnode', -⟩ := id hbody
    exact hbody.grounded_of_nameless hnode' (hs₂.nameless hnode hname hnode')
  · intro entry hentry
    obtain ⟨hstays, hbody⟩ := (mem_kept_iff hnames hkept).1 hentry
    exact hcovered entry.2 (covered_of_stays hgather hstays hbody)
  · rw [hnames]
    exact found.occurrences.nodup_keys.filter _

/-- **What a clean-up does**: flattening, then inlining, if it is asked for, then listing. -/
theorem rewritten_of_simplifyReferences
    (h : simplifyReferences root definitions inline (s, own) = .ok top st') :
    ∃ flat all st₁ s₂ kept, flattenReferences root definitions (s, own) = .ok (flat, all) st₁ ∧
      Rewritten s₂ flat kept ∧ Wrapped s₂ flat kept st'.1 top ∧
      (inline = false → s₂ = st₁.1 ∧ kept = all.entries) := by
  obtain ⟨⟨flat, all⟩, ⟨s₁, own₁⟩, hflatten, h⟩ := Pass.bind_eq_ok.1 h
  obtain ⟨hroot, hbodies⟩ := flat_of_flattenReferences hflatten
  cases inline with
  | false =>
    have hflat : ∀ entry ∈ all.entries, s₁.FlatBody entry.2 :=
      fun entry hentry => hbodies entry.1 entry.2 (OrderedMap.mem_entries_iff.1 hentry)
    refine ⟨flat, all, (s₁, own₁), s₁, all.entries, hflatten, ⟨hroot, hflat, all.nodup⟩, ?_,
      fun _ => ⟨rfl, rfl⟩⟩
    refine wrapped_of_run (fun entry hentry => ?_) h
    obtain ⟨node, _, hnode, -⟩ := hflat entry hentry
    exact Store.lt_size_of_get? hnode
  | true =>
    obtain ⟨-, s₂, kept, -, -, -, -, -, hrewritten, hwrap⟩ :=
      rewritten_of_inlineReferences hroot hbodies h
    exact ⟨flat, all, (s₁, own₁), s₂, kept, hflatten, hrewritten, hwrap, fun e => by cases e⟩

/-- The node at `id` bears `name`, is no `definitions` node, and all below it is flat. -/
def Store.FlatDefinition (s : Store) (name : String) (id : NodeId) : Prop :=
  s.FlatBody id ∧ ∃ node, s.get? id = some node ∧ node.name = some name

theorem Store.FlatBody.namedCopy {s' : Store} {body id : NodeId} (h : s.FlatBody body)
    (hext : s.Extends s') (hcopy : NamedCopy s s' name body id) : s'.FlatDefinition name id := by
  obtain ⟨node, hnode, hcopied⟩ := hcopy
  obtain ⟨kind, hkind, hne, hfits, hkids⟩ := h.parts hnode
  refine ⟨⟨_, kind, hcopied, hkind, hne, hfits, fun child hchild => ?_⟩, _, hcopied, rfl⟩
  exact (hkids child hchild).of_extends hext

/-- The returned schema: a flat one, or a `definitions` node around a flat one that lists flat
bodies, each with its name. -/
theorem Wrapped.shape {flat : NodeId} {kept : List (String × NodeId)} {s' : Store}
    (hwrap : Wrapped s flat kept s' top) (h : Rewritten s flat kept) :
    s'.Grounded Node.IsFlat flat ∧
      (kept = [] ∧ top = flat ∨
        kept ≠ [] ∧ ∃ listed, s'.get? top = some (definitionsNode flat listed) ∧
          List.Forall₂ (fun entry id => s'.FlatDefinition entry.1 id) kept listed) := by
  refine ⟨h.root.of_extends hwrap.extends_, ?_⟩
  obtain ⟨listed, hcopies, hempty | ⟨hne, htop⟩⟩ := hwrap.listed
  · exact .inl hempty
  · refine .inr ⟨hne, listed, htop, ?_⟩
    refine ((List.forall₂_and_left _ _).2 ⟨h.bodies, hcopies⟩).imp ?_
    rintro entry id ⟨hbody, hcopy⟩
    exact hbody.namedCopy hwrap.extends_ hcopy

/-- What a `definitions` node over flat definitions and a flat schema holds is a finite tree without
`definitions` nodes. -/
theorem grounded_of_mem_listed {flat child : NodeId} {kept : List (String × NodeId)}
    {listed : List NodeId} (hflat : s.Grounded Node.IsFlat flat)
    (hlisted : List.Forall₂ (fun entry id => s.FlatDefinition entry.1 id) kept listed)
    (hchild : child ∈ listed ++ [flat]) :
    s.Grounded (fun node => node.kind? ≠ some .definitions) child := by
  rcases List.mem_append.1 hchild with hchild | hchild
  · obtain ⟨entry, -, hbody, -⟩ := exists_left_of_forall₂ hlisted hchild
    exact hbody.grounded
  · rw [List.mem_singleton.1 hchild]
    exact hflat.mono fun _ h => h.plain

theorem Store.grounded_definitionsNode_of {P : Node → Prop} {flat : NodeId} {listed : List NodeId}
    (htop : s.get? top = some (definitionsNode flat listed)) (hP : P (definitionsNode flat listed))
    (hchildren : ∀ child ∈ listed ++ [flat], s.Grounded P child) : s.Grounded P top := by
  have hfits : (definitionsNode flat listed).misfit? .definitions = none := rfl
  have hordered :
      (definitionsNode flat listed).orderedChildren .definitions = listed ++ [flat] := by
    obtain ⟨_, _, hget, hkind, -, hids⟩ := Store.childIds_eq_ok.1 (childIds_definitionsNode htop)
    rw [htop] at hget
    cases hget
    cases hkind
    exact hids
  refine .node htop (kind?_definitionsNode _ _) hfits hP fun child hchild => hchildren child ?_
  rw [← hordered]
  exact (Node.mem_orderedChildren hfits).2 hchild

theorem grounded_definitionsNode {flat : NodeId} {kept : List (String × NodeId)}
    {listed : List NodeId} (htop : s.get? top = some (definitionsNode flat listed))
    (hflat : s.Grounded Node.IsFlat flat)
    (hlisted : List.Forall₂ (fun entry id => s.FlatDefinition entry.1 id) kept listed) :
    s.Grounded (fun _ => True) top :=
  Store.grounded_definitionsNode_of htop trivial fun _ hchild =>
    (grounded_of_mem_listed hflat hlisted hchild).mono fun _ _ => trivial

theorem grounded_of_simplifyReferences
    (h : simplifyReferences root definitions inline (s, own) = .ok top st') :
    st'.1.Grounded (fun _ => True) top := by
  obtain ⟨flat, all, st₁, s₂, kept, -, hrewritten, hwrap, -⟩ := rewritten_of_simplifyReferences h
  obtain ⟨hflat, ⟨-, rfl⟩ | ⟨-, listed, htop, hlisted⟩⟩ := hwrap.shape hrewritten
  · exact hflat.mono fun _ _ => trivial
  · exact grounded_definitionsNode htop hflat hlisted

/-- **Cleaning up ties no knot.** In the returned schema no node lies below itself, so it can be
walked in pre-order, visited and written out, with and without inlining and for any store: nodes may
be shared. -/
theorem simplifyReferences_acyclic
    (h : simplifyReferences root definitions inline (s, own) = .ok top st') :
    (∀ id, st'.1.Below top id → ¬ Relation.TransGen st'.1.Holds id id) ∧
      (∃ ids, st'.1.preorder top = .ok ids) ∧
      Visitor.identity.walk top st' = .ok top st' ∧ ∃ json, st'.1.render top = .ok json := by
  have hfinite := grounded_of_simplifyReferences h
  refine ⟨fun id hid => (hfinite.of_below hid).not_transGen, Store.grounded_iff.1 hfinite, ?_,
    hfinite.render⟩
  obtain ⟨s', own'⟩ := st'
  exact hfinite.walk_identity

/-- A tuple that holds an occurrence of `B` twice, as one shared node, and between them one of `A`.
The body of `A` is a list of `A`, that of `B` an integer. -/
def sharedStore : Store where
  nodes := #[
    .reference "A",
    .reference "B",
    (Node.ofKind .tuple).withChild "items_schema" (.many [⟨1⟩, ⟨0⟩, ⟨1⟩]),
    (Node.ofKind .list).withChild "items_schema" (.one ⟨4⟩),
    .reference "A",
    .ofKind .int]

def sharedDefinitions : Definitions := .ofList [("A", ⟨3⟩), ("B", ⟨5⟩)]

theorem sharedStore_acyclic : sharedStore.Acyclic := by
  -- the tuple holds earlier nodes, the list a later one
  let rank : NodeId → Nat := fun id => if id = ⟨2⟩ ∨ id = ⟨3⟩ then 1 else 0
  exact Store.acyclic_of_forall rank (by decide +kernel)

/-- The shared node becomes an integer, and `A` stays. -/
theorem simplifyReferences_sharedStore :
    simplifyReferences ⟨2⟩ sharedDefinitions true (sharedStore, ()) = .ok ⟨7⟩ (⟨#[
      .reference "A",
      .ofKind .int,
      (Node.ofKind .tuple).withChild "items_schema" (.many [⟨1⟩, ⟨0⟩, ⟨1⟩]),
      (Node.ofKind .list).withChild "items_schema" (.one ⟨4⟩),
      .reference "A",
      .ofKind .int,
      ((Node.ofKind .list).withChild "items_schema" (.one ⟨4⟩)).withName "A",
      definitionsNode ⟨2⟩ [⟨6⟩]]⟩, ()) := by
  have hflatten : flattenReferences ⟨2⟩ sharedDefinitions (sharedStore, ()) =
      .ok (⟨2⟩, sharedDefinitions) (sharedStore, ()) := by decide +kernel
  have hgather : Scope.gather ⟨sharedStore, sharedDefinitions, defaultDiscriminatorKey⟩ ⟨2⟩ = .ok
      { occurrences := .ofList [("B", [⟨1⟩]), ("A", [⟨0⟩, ⟨4⟩])], recursive := .ofList ["A"] } :=
    Scope.gather_of_runWithin 20 (by decide +kernel)
  exact simplifyReferences_of_parts hflatten hgather (by decide +kernel)

/-- A shared node on no cycle is replaced, and the definition on a cycle is kept: no knot. -/
theorem sharedStore_simplified_acyclic :
    sharedStore.Acyclic ∧
      ∃ top st', simplifyReferences ⟨2⟩ sharedDefinitions true (sharedStore, ()) = .ok top st' ∧
        (∀ id, st'.1.Below top id → ¬ Relation.TransGen st'.1.Holds id id) ∧
        (∃ ids, st'.1.preorder top = .ok ids) ∧
        Visitor.identity.walk top st' = .ok top st' ∧ ∃ json, st'.1.render top = .ok json :=
  ⟨sharedStore_acyclic, _, _, simplifyReferences_sharedStore,
    simplifyReferences_acyclic simplifyReferences_sharedStore⟩

end SchemaGraph
