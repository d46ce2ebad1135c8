import SchemaGraph.Proofs.Gather.Placed
import SchemaGraph.Proofs.Simplify.Knots

/-!
Inlining in two scopes at once. Where the scopes are mirrored and the same names have a sole
occurrence, what is put in one place after the other is akin, so the schemas that come out are twins.

* `Alongside` — mirrored scopes whose reference graphs lead to the same replacements;
* `Alongside.akinOver` — **inlining keeps matched nodes alike**, over matched nodes again;
* `Wrapped.twin` — twins with akin definitions around them are twins.
-/

namespace SchemaGraph

/-! ### Nodes that take the place of others -/

theorem optionRel_orElse {α β : Type} {R : α → β → Prop} {a a' : Option α} {b b' : Option β}
    (h : Option.Rel R a b) (h' : Option.Rel R a' b') : Option.Rel R (a <|> a') (b <|> b') := by
  cases h with
  | none => exact h'
  | some h => exact .some h

theorem Node.Alike.inlinedAt {R : NodeId → NodeId → Prop} {body body' site site' : Node}
    (hbody : body.anonymous.Alike R body'.anonymous)
    (hsite : site.anonymous.Alike R site'.anonymous) :
    (body.inlinedAt site).anonymous.Alike R (body'.inlinedAt site').anonymous where
  content := by
    have hcontent := hbody.content
    have hmetadata : site'.metadata = site.metadata := hsite.metadata_eq
    cases body'
    simp_all [Node.anonymous, Node.inlinedAt]
  keys := hbody.keys
  children := hbody.children
  serialization := optionRel_orElse hsite.serialization hbody.serialization

/-! ### Matched nodes -/

variable {scope other : Scope} {root root' x x' : NodeId} {found found' : Gathered}
  {s s' s₂ s₂' t t' : Store} {name : String}

/-- Covered nodes of the two scopes that are akin. -/
structure Matched (scope other : Scope) (root root' x x' : NodeId) : Prop where
  left : scope.Covered root x
  right : other.Covered root' x'
  akin : scope.store.Akin other.store x x'

/-- Mirrored scopes whose reference graphs lead to the same replacements. -/
structure Alongside (scope other : Scope) (root root' : NodeId) (found found' : Gathered) :
    Prop where
  mirrors : scope.Mirrors other root root'
  gather : scope.gather root = .ok found
  gather_other : other.gather root' = .ok found'
  keys : found'.occurrences.keys = found.occurrences.keys
  sole : ∀ name, (found'.soleOccurrence? name).isSome = (found.soleOccurrence? name).isSome

namespace Alongside

variable (h : Alongside scope other root root' found found')

include h

theorem matched_root : Matched scope other root root' root root' := ⟨.root, .root, h.mirrors.root⟩

theorem akinOver_of_matched (hx : Matched scope other root root' x x') :
    scope.store.AkinOver other.store (Matched scope other root root') x x' := by
  obtain ⟨node, node', hnode, hnode', halike⟩ := hx.akin
  refine ⟨node, node', hnode, hnode', halike.and_mem.mono fun a b ⟨htwin, ha, hb⟩ => ?_⟩
  exact ⟨hx.left.held h.gather ⟨node, hnode, ha⟩, hx.right.held h.gather_other ⟨node', hnode', hb⟩,
    htwin.akin⟩

theorem sole_right (hx : Matched scope other root root' x x')
    (hname : found.soleOccurrence? name = some x) : found'.soleOccurrence? name = some x' := by
  obtain ⟨o', ho'⟩ := Option.isSome_iff_exists.1 ((h.sole name).trans (by rw [hname]; rfl))
  obtain ⟨-, hmention⟩ := covered_of_sole h.gather hname
  rwa [eq_of_sole h.gather_other ho' hx.right (hx.akin.mentions_iff.1 hmention)]

theorem sole_left (hx : Matched scope other root root' x x')
    (hname : found'.soleOccurrence? name = some x') : found.soleOccurrence? name = some x := by
  obtain ⟨o, ho⟩ := Option.isSome_iff_exists.1 ((h.sole name).symm.trans (by rw [hname]; rfl))
  obtain ⟨-, hmention⟩ := covered_of_sole h.gather_other hname
  rwa [eq_of_sole h.gather ho hx.left (hx.akin.mentions_iff.2 hmention)]

theorem metBefore_iff {later : String} : found'.MetBefore name later ↔ found.MetBefore name later := by
  rw [Gathered.MetBefore, Gathered.MetBefore, h.keys]

theorem staying_eq : found'.staying = found.staying := by
  rw [Gathered.staying, Gathered.staying, h.keys]
  refine List.filter_congr fun name _ => ?_
  have hsole := h.sole name
  revert hsole
  cases found.soleOccurrence? name <;> cases found'.soleOccurrence? name <;> simp

theorem matched_bodies (hx : Matched scope other root root' x x')
    (hname : found.soleOccurrence? name = some x) {b b' : NodeId}
    (hb : scope.definitions.get? name = some b) (hb' : other.definitions.get? name = some b') :
    Matched scope other root root' b b' := by
  obtain ⟨-, hmention⟩ := covered_of_sole h.gather hname
  obtain ⟨_, hsame, hakin⟩ := h.mirrors.bodies name b hb
  cases hb'.symm.trans hsame
  exact ⟨.body hx.left hmention hb, .body hx.right (hx.akin.mentions_iff.1 hmention) hb', hakin⟩

/-- **Inlining keeps matched nodes alike**, over matched nodes again. By induction on the
replacements of the first scope: a place gets the content of a body that is no place, or of one whose
place was replaced before, and so does the place that it is matched with. -/
theorem akinOver (hs₂ : Inlined scope found s₂) (hs₂' : Inlined other found' s₂')
    (hx : scope.Covered root x) : ∀ {x'}, Matched scope other root root' x x' →
      s₂.AkinOver s₂' (Matched scope other root root') x x' := by
  refine hs₂.induction (P := fun x => ∀ {x'}, Matched scope other root root' x x' →
    s₂.AkinOver s₂' (Matched scope other root root') x x') h.gather ?_ ?_ ?_ hx
  · intro x _ hnone hsame x' hmatch
    obtain ⟨node, node', hnode, hnode', halike⟩ := h.akinOver_of_matched hmatch
    refine ⟨node, node', hsame.trans hnode, ?_, halike⟩
    rw [hs₂'.other x' fun name hname => hnone name (h.sole_left hmatch hname), hnode']
  · intro x name b site body _ hname hb hsite hplace hbody hlast x' hmatch
    obtain ⟨b', site', body', hb', hsite', hplace', -, hbody'⟩ :=
      hs₂'.site name x' (h.sole_right hmatch hname)
    have hbodies := h.matched_bodies hmatch hname hb hb'
    have hkept' := hbody' fun later hlater hbefore =>
      hlast later (h.sole_left hbodies hlater) (h.metBefore_iff.1 hbefore)
    obtain ⟨_, _, hold, hold', hsites⟩ := h.akinOver_of_matched hmatch
    obtain ⟨_, _, hnode, hnode', halike⟩ := h.akinOver_of_matched hbodies
    cases hsite.symm.trans hold
    cases hsite'.symm.trans hold'
    cases hbody.symm.trans hnode
    cases hkept'.symm.trans hnode'
    exact ⟨_, _, hplace, hplace', halike.inlinedAt hsites⟩
  · intro x name b later site body hname hb hsite hplace hbody hlater hbefore ih x' hmatch
    obtain ⟨b', site', body', hb', hsite', hplace', hbody', -⟩ :=
      hs₂'.site name x' (h.sole_right hmatch hname)
    have hbodies := h.matched_bodies hmatch hname hb hb'
    have hkept' := hbody' later (h.sole_right hbodies hlater) (h.metBefore_iff.2 hbefore)
    obtain ⟨_, _, hold, hold', hsites⟩ := h.akinOver_of_matched hmatch
    obtain ⟨_, _, hnode, hnode', halike⟩ := ih hbodies
    cases hsite.symm.trans hold
    cases hsite'.symm.trans hold'
    cases hbody.symm.trans hnode
    cases hkept'.symm.trans hnode'
    exact ⟨_, _, hplace, hplace', halike.inlinedAt hsites⟩

end Alongside

/-! ### Flat schemas over related nodes -/

section Flat

variable {R : NodeId → NodeId → Prop} (h : ∀ x x', R x x' → s.AkinOver s' R x x')

include h

/-- Flat trees over related nodes are twins. -/
theorem twin_of_akinOver (hx : s.Grounded Node.IsFlat x) :
    ∀ {x'}, s'.Grounded Node.IsFlat x' → R x x' → s.Twin s' x x' := by
  induction hx with
  | @node x node kind hnode _ _ hflat _ ih =>
    intro x' hx' hR
    obtain ⟨_, node', hsame, hnode', halike⟩ := h x x' hR
    cases hnode.symm.trans hsame
    have hname : node'.name = node.name := by
      rw [(hx'.property hnode').nameless, hflat.nameless]
    refine .node hnode hnode' (halike.and_mem.of_anonymous hname) fun a b ⟨hab, ha, hb⟩ => ?_
    exact ih a ha (hx'.of_holds ⟨node', hnode', hb⟩) hab

theorem akin_of_akinOver (hx : s.FlatBody x) (hx' : s'.FlatBody x') (hR : R x x') :
    s.Akin s' x x' := by
  obtain ⟨node, node', hnode, hnode', halike⟩ := h x x' hR
  refine ⟨node, node', hnode, hnode', halike.and_mem.mono fun a b ⟨hab, ha, hb⟩ => ?_⟩
  exact twin_of_akinOver h (hx.of_holds ⟨node, hnode, ha⟩) (hx'.of_holds ⟨node', hnode', hb⟩) hab

end Flat

/-! ### Definitions around twins -/

/-- Entries of the same names are related when their bodies are. -/
theorem forall₂_of_names {R : NodeId → NodeId → Prop} {kept kept' : List (String × NodeId)}
    (hnames : kept'.map Prod.fst = kept.map Prod.fst)
    (h : ∀ name b b', (name, b) ∈ kept → (name, b') ∈ kept' → R b b') :
    List.Forall₂ (fun entry entry' => entry'.1 = entry.1 ∧ R entry.2 entry'.2) kept kept' := by
  have hsame : List.Forall₂ (fun entry entry' => entry'.1 = entry.1) kept kept' := by
    rw [← List.forall₂_eq_eq_eq, List.forall₂_map_left_iff, List.forall₂_map_right_iff] at hnames
    exact hnames.flip
  refine (forall₂_mem hsame).imp ?_
  rintro ⟨name, b⟩ ⟨_, b'⟩ ⟨rfl, hentry, hentry'⟩
  exact ⟨rfl, h _ b b' hentry hentry'⟩

/-- Akin schemas with akin definitions mirror each other. -/
theorem Scope.mirrors_of_entries {flat flat' : NodeId} {definitions definitions' : Definitions}
    (hflat : s.Akin s' flat flat')
    (hentries : List.Forall₂ (fun entry entry' => entry'.1 = entry.1 ∧ s.Akin s' entry.2 entry'.2)
      definitions.entries definitions'.entries) :
    Scope.Mirrors { store := s, definitions } { store := s', definitions := definitions' }
      flat flat' where
  root := hflat
  bodies name body hbody := by
    obtain ⟨⟨_, body'⟩, hbody', rfl, hakin⟩ :=
      exists_right_of_forall₂ hentries (OrderedMap.mem_entries_iff.2 hbody)
    exact ⟨body', OrderedMap.mem_entries_iff.1 hbody', hakin⟩

/-- Copies of akin bodies that carry the same name are twins. -/
theorem Store.Akin.namedCopies {b b' id id' : NodeId} (h : s.Akin s' b b') (hext : s.Extends t)
    (hext' : s'.Extends t') (hcopy : NamedCopy s t name b id) (hcopy' : NamedCopy s' t' name b' id') :
    t.Twin t' id id' := by
  obtain ⟨node, node', hnode, hnode', halike⟩ := h.extends hext hext'
  obtain ⟨_, hold, hnamed⟩ := hcopy
  obtain ⟨_, hold', hnamed'⟩ := hcopy'
  cases hnode.symm.trans (hext.get?_of_some hold)
  cases hnode'.symm.trans (hext'.get?_of_some hold')
  exact Store.twin_of_alike hnamed hnamed' (Node.Alike.of_anonymous
    ⟨halike.content, halike.keys, halike.children, halike.serialization⟩ rfl)

/-- **Twins with akin definitions around them** are twins. -/
theorem Wrapped.twin {flat flat' top top' : NodeId} {kept kept' : List (String × NodeId)}
    (h : Wrapped s flat kept t top) (h' : Wrapped s' flat' kept' t' top')
    (hflat : s.Twin s' flat flat')
    (hkept : List.Forall₂ (fun entry entry' => entry'.1 = entry.1 ∧ s.Akin s' entry.2 entry'.2)
      kept kept') : t.Twin t' top top' := by
  have htwin := hflat.extends h.extends_ h'.extends_
  obtain ⟨listed, hcopies, hshape⟩ := h.listed
  obtain ⟨listed', hcopies', hshape'⟩ := h'.listed
  obtain ⟨rfl, rfl⟩ | ⟨hne, htop⟩ := hshape
  · obtain ⟨-, rfl⟩ | ⟨hne', -⟩ := hshape'
    · exact htwin
    · exact absurd (List.forall₂_nil_left_iff.1 hkept) hne'
  · obtain ⟨rfl, -⟩ | ⟨-, htop'⟩ := hshape'
    · exact absurd (List.forall₂_nil_right_iff.1 hkept) hne
    · refine Store.twin_of_alike htop htop' (alike_definitionsNode htwin ?_)
      have hmid : List.Forall₂ (fun entry id' => ∀ id, NamedCopy s t entry.1 entry.2 id →
          t.Twin t' id id') kept listed' := by
        refine forall₂_compose ?_ hkept hcopies'
        rintro ⟨name, b⟩ ⟨_, b'⟩ id' ⟨rfl, hakin⟩ hcopy' id hcopy
        exact hakin.namedCopies h.extends_ h'.extends_ hcopy hcopy'
      exact forall₂_compose (fun _ _ _ hcopy hid => hid _ hcopy) hcopies.flip hmid

end SchemaGraph
