import SchemaGraph.Proofs.Simplify.Frame
import SchemaGraph.Proofs.Simplify.Legible
import SchemaGraph.Proofs.Simplify.Lockstep
import SchemaGraph.Proofs.Simplify.Lossless
import SchemaGraph.Proofs.Simplify.Reloaded

/-!
Cleaning up what was cleaned up. Where no reference has a serialization, inlining loses nothing, so
that in the returned schema no name is left that could be inlined: after rendering and loading it, a
second clean-up finds the same names in the same order, and returns the same text.

* `Document.BareReferences` — no reference of a document has a serialization;
* `Flattened.lossless` — then inlining loses nothing;
* `Lossless.no_sole` — what was inlined leaves nothing to inline;
* `inlineReferences_of_no_sole` — where nothing is inlined, the definitions are listed as they are;
* `simplifyReferences_stable` — **a clean-up of what was cleaned up** comes to the same text.
-/

namespace SchemaGraph

variable {d : Document} {scope out other : Scope} {root root' top : NodeId}
  {found found' : Gathered} {s s₂ t : Store} {name : String}

/-! ### Bare references -/

/-- No reference of the document has a serialization. -/
def Document.BareReferences (d : Document) : Prop :=
  ∀ id node, d.store.get? id = some node → node.isReference = true → node.serialization = none

instance (d : Document) : Decidable d.BareReferences :=
  decidable_of_iff _ Store.forall_get?_iff.symm

theorem Flat.bare {stage : Stage} (h : Flat d stage) (hbare : d.BareReferences) {x : NodeId}
    {o : Origin} (ho : stage.origin x = some o) {node : Node} (hnode : stage.store.get? x = some node)
    (href : node.isReference = true) : node.serialization = none := by
  cases o with
  | copy id =>
    obtain ⟨base, _, _, hbase, hsame, -, -, -, halike⟩ := h.copy ho
    cases hnode.symm.trans hsame
    have hnone := hbare id base hbase (halike.isReference_eq ▸ href)
    cases hkept : node.serialization with
    | none => rfl
    | some ser =>
      obtain ⟨old, hold, -⟩ := exists_of_optionRel halike.serialization hkept
      cases hnone.symm.trans hold
  | mention id =>
    obtain ⟨_, -, -, hsame⟩ := h.mention ho
    cases hnode.symm.trans hsame
    rfl

/-- Inlining in a flattened document with bare references loses nothing. -/
theorem Flattened.lossless {stage : Stage} (h : Flattened d stage root) (hd : d.Forest)
    (hnameless : d.NamelessDefinitions) (hbare : d.BareReferences)
    (hclean : Cleaned stage.scope root found s₂ out)
    (hroot : out.store.Grounded Node.IsFlat root) : Lossless stage.scope root found s₂ out where
  toCleaned := hclean
  root_flat := hroot
  kept := fun _ => h.not_overtaken hd hnameless hclean.gather
  bare x node hx hnode href := by
    obtain ⟨o, ho⟩ := h.traced_of_covered hx
    exact h.flat.bare hbare ho hnode href

/-! ### Nothing is left to inline -/

theorem Lossless.dropsIdle (h : Lossless scope root found s₂ out) (s : Store) :
    DropsIdle scope found s := by
  intro name o b site content ser hname _ hsite hsome
  rw [h.bare_site hname hsite] at hsome
  cases hsome

/-- **What was inlined leaves nothing to inline**, in the store after inlining or in a separate one
that it mirrors. -/
theorem Lossless.no_sole (h : Lossless scope root found s₂ out) (hgather : out.gather root = .ok found')
    (hkeys : found'.occurrences.keys = found.staying) (hm : out.Mirrors other root root')
    (hsep : other.Separate root') {again : Gathered} (hagain : other.gather root' = .ok again)
    (hsame : again.occurrences.keys = found'.occurrences.keys)
    (hrecursive : again.recursive = found'.recursive) (name : String) :
    again.soleOccurrence? name = none := by
  by_contra hsome
  have hsole := Option.isSome_iff_ne_none.2 hsome
  obtain ⟨o, ho⟩ := Option.isSome_iff_exists.1 hsole
  have hstays : found.Stays name := by
    rw [← Gathered.mem_staying, ← hkeys, ← hsame]
    exact Gathered.mem_keys_of_sole ho
  obtain ⟨honce, hnot⟩ := Gathered.isSome_soleOccurrence?.1 hsole
  have hbefore : scope.Once root name :=
    h.once hgather hstays (hm.once_left hgather hsep ((Scope.once_iff hagain).2 honce))
  have hunmarked : name ∉ found.recursive := fun hmarked =>
    hnot (hrecursive ▸ h.mem_recursive hgather hkeys hmarked)
  have hinlined : (found.soleOccurrence? name).isSome :=
    Gathered.isSome_soleOccurrence?.2 ⟨(Scope.once_iff h.gather).1 hbefore, hunmarked⟩
  rw [hstays.2] at hinlined
  cases hinlined

/-- The returned schema lists the names that stay, in the order in which they occur in it. -/
theorem Lossless.exists_gather {kept : List (String × NodeId)}
    (h : Lossless scope root found s₂ { store := s, definitions := .ofList (s.listedAt top) })
    (hwrap : Wrapped s₂ root kept s top) (hrewritten : Rewritten s₂ root kept)
    (hnames : kept.map Prod.fst = found.staying)
    (hkept : ∀ name body, (name, body) ∈ kept → scope.definitions.get? name = some body) :
    ∃ found', Scope.gather { store := s, definitions := .ofList (s.listedAt top) } root = .ok found' ∧
      (s.listedAt top).map Prod.fst = found'.occurrences.keys ∧
      found'.occurrences.keys = found.staying := by
  obtain ⟨-, hlisted, -⟩ :=
    cleaned_of_wrapped h.gather h.inlined h.flat hwrap hrewritten hnames hkept
  obtain ⟨⟨found', hgather, hused⟩, -⟩ := (listsUsed_iff h.gather h.inlined h.flat hwrap hrewritten
    hnames hkept (h.dropsIdle s)).2 fun o hover => absurd hover (h.kept o)
  rw [(hwrap.listing hrewritten).1] at hgather
  exact ⟨found', hgather, hused, hused.symm.trans hlisted⟩

/-- What is found again mirrors the returned schema with the definitions that it lists. -/
theorem Refound.mirrors_listed {flat flat' : NodeId} (h : Refound s top d flat' t)
    (hinner : s.innerAt top = flat) (hnodup : ((s.listedAt top).map Prod.fst).Nodup) :
    Scope.Mirrors { store := s, definitions := .ofList (s.listedAt top) }
      { store := t, definitions := d.definitions } flat flat' := by
  refine Scope.mirrors_of_entries (hinner ▸ h.root.akin) ?_
  rw [OrderedMap.entries_ofList hnodup]
  exact h.bodies.imp fun _ _ ⟨hname, htwin⟩ => ⟨hname, htwin.akin⟩

variable {σ : Type}

/-- **Where nothing is inlined** the definitions are listed as they are. -/
theorem inlineReferences_of_no_sole (own : σ) {definitions : Definitions}
    (h : Scope.gather { store := t, definitions } root = .ok found)
    (hnone : ∀ name, found.soleOccurrence? name = none)
    (hkeys : found.occurrences.keys = definitions.keys) :
    ∃ top last t', inlineReferences root definitions (t, own) = .ok top last ∧ t.Extends t' ∧
      Wrapped t' root definitions.entries last.1 top := by
  obtain ⟨top, last, hrun⟩ := exists_inlineReferences h own
  obtain ⟨_, t', kept, hgather, ht', hnames, hkept, hwrap⟩ := inlineReferences_run hrun
  cases h.symm.trans hgather
  have hall : kept.map Prod.fst = definitions.entries.map Prod.fst := by
    rw [hnames, Gathered.staying, hkeys]
    exact List.filter_eq_self.2 fun name _ => by simp [hnone name]
  have hentries : List.Forall₂ (fun entry entry' => entry'.1 = entry.1 ∧ entry.2 = entry'.2)
      kept definitions.entries := by
    refine forall₂_of_names hall.symm fun name b b' hb hb' => ?_
    exact Option.some.inj ((hkept name b hb).symm.trans (OrderedMap.mem_entries_iff.1 hb'))
  obtain rfl : kept = definitions.entries := by
    rw [← List.forall₂_eq_eq_eq]
    exact hentries.imp fun _ _ hentry => Prod.ext hentry.1.symm hentry.2
  refine ⟨top, last, t', hrun, ⟨ht'.size.ge, fun id _ => ht'.other id fun name => ?_⟩, hwrap⟩
  simp [hnone name]

/-! ### The second clean-up -/

variable {own : σ} {value v : Json} {st' : Store × σ}

/-- **A clean-up of what was cleaned up** comes to the same text. -/
theorem simplifyReferences_stable (hd : Document.ofJson value = .ok d)
    (hnameless : d.NamelessDefinitions) (hbare : d.BareReferences)
    (h : simplifyReferences d.root d.definitions true (d.store, own) = .ok top st')
    (hv : st'.1.render top = .ok v) :
    ∃ d₂ top₂ st₂, Document.ofJson v = .ok d₂ ∧
      simplifyReferences d₂.root d₂.definitions true (d₂.store, own) = .ok top₂ st₂ ∧
      st₂.1.render top₂ = .ok v := by
  have hforest := Document.forest_of_ofJson hd
  have hfinite := grounded_of_simplifyReferences h
  obtain ⟨⟨flat, all⟩, ⟨s, own₁⟩, hflatten, hinline⟩ := Pass.bind_eq_ok.1 h
  obtain ⟨hroot, hbodies⟩ := flat_of_flattenReferences hflatten
  obtain ⟨found, s₂, kept, hgather, hs₂, hflat, hnames, hkept, hrewritten, hwrap⟩ :=
    rewritten_of_inlineReferences hroot hbodies hinline
  obtain ⟨stage, hstage, rfl, rfl, rfl⟩ := flattened_of_flattenReferences hforest hflatten
  -- the returned schema is found again, and lists the names that stay
  obtain ⟨d₂, flat₂, t, hd₂, hrefound⟩ :=
    exists_refound hwrap hrewritten (legible_of_simplifyReferences hd h) hv
  have hclean := (cleaned_of_wrapped hgather hs₂ hflat hwrap hrewritten hnames hkept).1
  have hlossless := hstage.lossless hforest hnameless hbare hclean
    (hrewritten.root.of_extends hwrap.extends_)
  obtain ⟨found', hgather', hused, hkeys⟩ :=
    hlossless.exists_gather hwrap hrewritten hnames hkept
  have hmirrors := hrefound.mirrors_listed (hwrap.listing hrewritten).1
    (hused ▸ found'.occurrences.nodup_keys)
  -- what is found again has the same reference graph, with nothing to inline
  obtain ⟨again, hagain, hsame, hrecursive⟩ := hmirrors.gather hgather'
  have hnone := hlossless.no_sole hgather' hkeys hmirrors hrefound.separate hagain hsame hrecursive
  have hdeclared : again.occurrences.keys = d₂.definitions.keys := by
    rw [hsame, ← hused]
    exact hrefound.bodies.names_eq.symm
  obtain ⟨top₂, st₂, t', hinline₂, hext, hwrap₂⟩ :=
    inlineReferences_of_no_sole own₁ hagain hnone hdeclared
  have htwin : st'.1.Twin st₂.1 top top₂ :=
    hwrap.twin hwrap₂ ((hrefound.twin hwrap hrewritten).extends (.refl _) hext)
      ((hrefound.akin_bodies hwrap hrewritten).imp
        fun _ _ ⟨hname, hakin⟩ => ⟨hname, hakin.extends (.refl _) hext⟩)
  exact ⟨d₂, top₂, st₂, hd₂, Pass.bind_eq_ok.2 ⟨_, _, hrefound.flatten own₁, hinline₂⟩,
    htwin.render hfinite hv⟩

def listOf (name : String) : Json :=
  .object [("type", .text "list"), ("items_schema", occurrenceOf name)]

/-- The only occurrence of `X` leads to a round of `A` and `B`. -/
def roundBehind : Json :=
  .object [
    ("schema", .object [("type", .text "tuple"), ("items_schema", .list [occurrenceOf "X"])]),
    ("definitions", .object [("X", listOf "A"), ("A", listOf "B"), ("B", listOf "A")])]

def roundDocument : Document where
  store := ⟨#[
    .reference "X",
    (Node.ofKind .tuple).withChild "items_schema" (.many [⟨0⟩]),
    .reference "A",
    (Node.ofKind .list).withChild "items_schema" (.one ⟨2⟩),
    .reference "B",
    (Node.ofKind .list).withChild "items_schema" (.one ⟨4⟩),
    .reference "A",
    (Node.ofKind .list).withChild "items_schema" (.one ⟨6⟩)]⟩
  root := ⟨1⟩
  definitions := .ofList [("X", ⟨3⟩), ("A", ⟨5⟩), ("B", ⟨7⟩)]

theorem ofJson_roundBehind : Document.ofJson roundBehind = .ok roundDocument := by
  decide +kernel

theorem gather_roundDocument :
    Scope.gather ⟨roundDocument.store, roundDocument.definitions, defaultDiscriminatorKey⟩
      roundDocument.root = .ok
      { occurrences := .ofList [("X", [⟨0⟩]), ("A", [⟨2⟩, ⟨6⟩]), ("B", [⟨4⟩])]
        recursive := .ofList ["A", "B"] } :=
  Scope.gather_of_runWithin 20 (by decide +kernel)

/-- `X` is inlined; `B` occurs once too, but stays with `A`. -/
theorem simplifyReferences_roundDocument :
    simplifyReferences roundDocument.root roundDocument.definitions true (roundDocument.store, ()) =
      .ok ⟨10⟩ (⟨#[
        (Node.ofKind .list).withChild "items_schema" (.one ⟨2⟩),
        (Node.ofKind .tuple).withChild "items_schema" (.many [⟨0⟩]),
        .reference "A",
        (Node.ofKind .list).withChild "items_schema" (.one ⟨2⟩),
        .reference "B",
        (Node.ofKind .list).withChild "items_schema" (.one ⟨4⟩),
        .reference "A",
        (Node.ofKind .list).withChild "items_schema" (.one ⟨6⟩),
        ((Node.ofKind .list).withChild "items_schema" (.one ⟨4⟩)).withName "A",
        ((Node.ofKind .list).withChild "items_schema" (.one ⟨6⟩)).withName "B",
        definitionsNode ⟨1⟩ [⟨8⟩, ⟨9⟩]]⟩, ()) := by
  have hflatten : flattenReferences roundDocument.root roundDocument.definitions
      (roundDocument.store, ()) =
        .ok (roundDocument.root, roundDocument.definitions) (roundDocument.store, ()) := by
    decide +kernel
  exact simplifyReferences_of_parts hflatten gather_roundDocument (by decide +kernel)

theorem roundDocument_stable :
    Document.ofJson roundBehind = .ok roundDocument ∧ roundDocument.NamelessDefinitions ∧
      roundDocument.BareReferences ∧
      ∃ top st' v, simplifyReferences roundDocument.root roundDocument.definitions true
          (roundDocument.store, ()) = .ok top st' ∧ st'.1.render top = .ok v ∧
        ∃ d₂ top₂ st₂, Document.ofJson v = .ok d₂ ∧
          simplifyReferences d₂.root d₂.definitions true (d₂.store, ()) = .ok top₂ st₂ ∧
          st₂.1.render top₂ = .ok v := by
  have hnameless : roundDocument.NamelessDefinitions := by decide +kernel
  have hbare : roundDocument.BareReferences := by decide +kernel
  obtain ⟨v, hv⟩ := (grounded_of_simplifyReferences simplifyReferences_roundDocument).render
  exact ⟨ofJson_roundBehind, hnameless, hbare, _, _, v, simplifyReferences_roundDocument, hv,
    simplifyReferences_stable ofJson_roundBehind hnameless hbare simplifyReferences_roundDocument hv⟩

end SchemaGraph
