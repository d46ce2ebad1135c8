import SchemaGraph.Proofs.Gather.Order
import SchemaGraph.Proofs.Simplify.Wrap

/-!
Putting bodies in the places of occurrences. The places are visited from the name met last to the
one met first; what a place gets is its body as the body is at that moment.

* `Inlined` — what all replacements together make of the store;
* `Inlined.induction` — the bodies put in each other's places form chains that come to an end;
* `Overtaken` — the places that get an occurrence which is replaced only afterwards.
-/

namespace SchemaGraph

namespace Gathered

def MetBefore (found : Gathered) (name other : String) : Prop :=
  found.occurrences.keys.idxOf name < found.occurrences.keys.idxOf other

variable {found : Gathered} {name other : String} {o : NodeId}

theorem occurrencesOf_of_sole (h : found.soleOccurrence? name = some o) :
    found.occurrencesOf name = [o] := by
  unfold soleOccurrence? at h
  split at h
  · rename_i occurrence hone
    split at h
    · cases h
    · cases h
      exact hone
  · cases h

theorem mem_keys_of_sole (h : found.soleOccurrence? name = some o) :
    name ∈ found.occurrences.keys := by
  have hone := occurrencesOf_of_sole h
  rw [OrderedMap.mem_keys_iff]
  unfold occurrencesOf at hone
  cases hids : found.occurrences.get? name with
  | some ids => rfl
  | none => simp [hids] at hone

theorem isSome_soleOccurrence? : (found.soleOccurrence? name).isSome ↔
    (∃ o, found.occurrencesOf name = [o]) ∧ name ∉ found.recursive := by
  unfold soleOccurrence?
  split
  · rename_i o ho
    split <;> simp_all [isRecursive, NameSet.contains]
  · rename_i hnone
    simpa using fun o ho => absurd ho (hnone o)

theorem mem_soleSites : (name, o) ∈ found.soleSites ↔ found.soleOccurrence? name = some o := by
  simp only [soleSites, List.mem_filterMap, Option.map_eq_some_iff, Prod.mk.injEq]
  constructor
  · rintro ⟨_, -, _, h, rfl, rfl⟩
    exact h
  · intro h
    exact ⟨name, mem_keys_of_sole h, o, h, rfl, rfl⟩

theorem soleSites_pairwise (found : Gathered) :
    found.soleSites.Pairwise fun a b => found.MetBefore a.1 b.1 := by
  have hkeys : found.occurrences.keys.Pairwise found.MetBefore := by
    refine List.pairwise_iff_getElem.2 fun i j hi hj hij => ?_
    unfold MetBefore
    rwa [List.Nodup.idxOf_getElem found.occurrences.nodup_keys i hi,
      List.Nodup.idxOf_getElem found.occurrences.nodup_keys j hj]
  refine List.pairwise_filterMap.2 (hkeys.imp fun {a b} hab x hx y hy => ?_)
  obtain ⟨_, -, rfl⟩ := Option.map_eq_some_iff.1 hx
  obtain ⟨_, -, rfl⟩ := Option.map_eq_some_iff.1 hy
  exact hab

end Gathered

/-! ### The replacements -/

section Replacements

variable {σ : Type}

/-- One after the other, each place gets its body as it is at that moment: replaced already, if the
body is a place that comes before. -/
theorem inlineOccurrences_spec : ∀ {sites : List (NodeId × NodeId)} {st st' : Store × σ} {u : Unit},
    (sites.map Prod.fst).Nodup → inlineOccurrences sites st = .ok u st' →
    st'.1.size = st.1.size ∧ (∀ x, x ∉ sites.map Prod.fst → st'.1.get? x = st.1.get? x) ∧
      ∀ pre o b post, sites = pre ++ (o, b) :: post → ∃ site body, st.1.get? o = some site ∧
        st'.1.get? o = some (body.inlinedAt site) ∧
        (if b ∈ pre.map Prod.fst then st'.1.get? b else st.1.get? b) = some body
  | [], st, _, _, _, h => by
    obtain ⟨-, rfl⟩ := Pass.pure_eq_ok.1 h
    exact ⟨rfl, fun _ _ => rfl, fun pre o b post e => by simp at e⟩
  | (o₁, b₁) :: sites, st, st', _, hnodup, h => by
    obtain ⟨hfirst, hrest⟩ := List.nodup_cons.1 hnodup
    obtain ⟨_, mid, hone, h⟩ := Pass.bind_eq_ok.1 h
    obtain ⟨site₁, mid', hread, hone⟩ := Pass.bind_eq_ok.1 hone
    obtain ⟨hsite₁, rfl⟩ := Pass.node_eq_ok.1 hread
    obtain ⟨body₁, mid', hread', hone⟩ := Pass.bind_eq_ok.1 hone
    obtain ⟨hbody₁, rfl⟩ := Pass.node_eq_ok.1 hread'
    obtain ⟨_, mid', hreplace, hone⟩ := Pass.bind_eq_ok.1 hone
    obtain ⟨-, rfl⟩ := Pass.pure_eq_ok.1 hone
    obtain ⟨-, rfl⟩ := Pass.replace_eq_ok.1 hreplace
    obtain ⟨hsize, hother, hsites⟩ := inlineOccurrences_spec hrest h
    have hself : (st.1.set o₁ (body₁.inlinedAt site₁)).get? o₁ = some (body₁.inlinedAt site₁) :=
      Store.get?_set_self _ (Store.lt_size_of_get? hsite₁)
    have hthere : st'.1.get? o₁ = some (body₁.inlinedAt site₁) := (hother o₁ hfirst).trans hself
    refine ⟨hsize.trans (Store.size_set _ _ _), fun x hx => ?_, fun pre o b post e => ?_⟩
    · obtain ⟨hne, hx⟩ := not_or.1 fun hmem => hx (List.mem_cons.2 hmem)
      rw [hother x hx]
      exact Store.get?_set_of_ne _ hne
    · cases pre with
      | nil =>
        simp only [List.nil_append, List.cons.injEq, Prod.mk.injEq] at e
        obtain ⟨⟨rfl, rfl⟩, rfl⟩ := e
        exact ⟨site₁, body₁, hsite₁, hthere, by simpa using hbody₁⟩
      | cons first pre =>
        simp only [List.cons_append, List.cons.injEq] at e
        obtain ⟨rfl, rfl⟩ := e
        obtain ⟨site, body, hsite, hplace, hbody⟩ := hsites pre o b post rfl
        have hne : o ≠ o₁ := by
          rintro rfl
          exact hfirst (by simp)
        rw [Store.get?_set_of_ne _ hne] at hsite
        refine ⟨site, body, hsite, hplace, ?_⟩
        by_cases hb : b = o₁
        · subst hb
          have hnot : b ∉ pre.map Prod.fst := fun hmem => hfirst (by simp [hmem])
          rw [if_neg hnot, hself] at hbody
          rw [if_pos (by simp), hthere]
          exact hbody
        · rw [Store.get?_set_of_ne _ hb] at hbody
          have hmem : b ∈ ((o₁, b₁) :: pre).map Prod.fst ↔ b ∈ pre.map Prod.fst := by simp [hb]
          simpa only [hmem] using hbody

theorem eq_map_of_forall₂ {α β : Type} {f : α → β} {xs : List α} {ys : List β}
    (h : List.Forall₂ (fun x y => y = f x) xs ys) : ys = xs.map f := by
  induction h with
  | nil => rfl
  | cons hxy _ ih => rw [List.map_cons, hxy, ih]

theorem lookUp_eq_ok {definitions : Definitions} {name : String} {o b : NodeId} :
    lookUp definitions name o = .ok b ↔ definitions.get? name = some b := by
  unfold lookUp
  cases definitions.get? name <;> simp

/-- The place of a name with the body that is to be put there. -/
def siteOf (definitions : Definitions) (entry : String × NodeId) : NodeId × NodeId :=
  (entry.2, (definitions.get? entry.1).getD default)

theorem map_fst_siteOf (definitions : Definitions) (entries : List (String × NodeId)) :
    (entries.map (siteOf definitions)).map Prod.fst = entries.map Prod.snd := by
  simp [siteOf, Function.comp_def]

theorem inlinable_eq_ok {definitions : Definitions} {found : Gathered}
    {sites : List (NodeId × NodeId)} (h : inlinable definitions found = .ok sites) :
    sites = found.soleSites.map (siteOf definitions) ∧
      ∀ name o, found.soleOccurrence? name = some o →
        ∃ b, definitions.get? name = some b := by
  have hsites := forall₂_of_mapM h
  have hlook : ∀ (entry : String × NodeId) site, (do
      let body ← lookUp definitions entry.1 entry.2
      pure (entry.2, body) : Except Error (NodeId × NodeId)) = .ok site →
        ∃ b, definitions.get? entry.1 = some b ∧ site = (entry.2, b) := by
    intro entry site h
    obtain ⟨b, hb, h⟩ := bind_eq_ok.1 h
    exact ⟨b, lookUp_eq_ok.1 hb, (pure_eq_ok.1 h).symm⟩
  constructor
  · refine eq_map_of_forall₂ (hsites.imp fun entry site h => ?_)
    obtain ⟨b, hb, rfl⟩ := hlook entry site h
    rw [siteOf, hb]
    rfl
  · intro name o hsole
    obtain ⟨site, -, h⟩ := exists_right_of_forall₂ hsites (Gathered.mem_soleSites.2 hsole)
    obtain ⟨b, hb, -⟩ := hlook _ site h
    exact ⟨b, hb⟩

end Replacements

/-- What inlining makes of the store: the place of a name gets its body, as it was or, if the body is
the place of a name met later, as it has become by then. All other nodes stay as they are. -/
structure Inlined (scope : Scope) (found : Gathered) (s' : Store) : Prop where
  size : s'.size = scope.store.size
  other : ∀ x, (∀ name, found.soleOccurrence? name ≠ some x) → s'.get? x = scope.store.get? x
  site : ∀ name o, found.soleOccurrence? name = some o →
    ∃ b site body, scope.definitions.get? name = some b ∧ scope.store.get? o = some site ∧
      s'.get? o = some (body.inlinedAt site) ∧
      (∀ later, found.soleOccurrence? later = some b → found.MetBefore name later →
        s'.get? b = some body) ∧
      ((∀ later, found.soleOccurrence? later = some b → ¬ found.MetBefore name later) →
        scope.store.get? b = some body)

variable {scope : Scope} {root : NodeId} {found : Gathered}

theorem sole_injective (h : scope.gather root = .ok found) {name other : String} {o : NodeId}
    (ho : found.soleOccurrence? name = some o) (ho' : found.soleOccurrence? other = some o) :
    name = other := by
  have hacc := Scope.accurate_of_gather h
  obtain ⟨node, hnode, -, htarget⟩ :=
    (hacc.occurrences name o (by simp [Gathered.occurrencesOf_of_sole ho])).2
  obtain ⟨node', hnode', -, htarget'⟩ :=
    (hacc.occurrences other o (by simp [Gathered.occurrencesOf_of_sole ho'])).2
  rw [hnode] at hnode'
  cases hnode'
  rw [htarget] at htarget'
  exact Option.some.inj htarget'

/-- **What inlining does.** -/
theorem inlined_of_run {σ : Type} {own : σ} {st' : Store × σ} {u : Unit}
    {sites : List (NodeId × NodeId)} (h : scope.gather root = .ok found)
    (hsites : inlinable scope.definitions found = .ok sites)
    (hrun : inlineOccurrences sites.reverse (scope.store, own) = .ok u st') :
    Inlined scope found st'.1 := by
  obtain ⟨rfl, hbodies⟩ := inlinable_eq_ok hsites
  have hnodup : (found.soleSites.map Prod.snd).Nodup := by
    refine List.pairwise_map.2 (found.soleSites_pairwise.imp_of_mem fun {a b} ha hb hab e => ?_)
    have := sole_injective h (Gathered.mem_soleSites.1 ha) (e ▸ Gathered.mem_soleSites.1 hb)
    rw [this] at hab
    exact Nat.lt_irrefl _ hab
  obtain ⟨hsize, hother, hspec⟩ := inlineOccurrences_spec
    (by rw [List.map_reverse, map_fst_siteOf]; exact List.nodup_reverse.2 hnodup) hrun
  refine ⟨hsize, fun x hx => hother x fun hmem => ?_, fun name o hsole => ?_⟩
  · rw [List.map_reverse, List.mem_reverse, map_fst_siteOf] at hmem
    obtain ⟨⟨name, _⟩, hentry, rfl⟩ := List.mem_map.1 hmem
    exact hx name (Gathered.mem_soleSites.1 hentry)
  · obtain ⟨b, hb⟩ := hbodies name o hsole
    obtain ⟨pre, post, hsplit⟩ := List.append_of_mem (Gathered.mem_soleSites.2 hsole)
    obtain ⟨site, body, hsite, hplace, hbody⟩ := hspec
      (post.map (siteOf scope.definitions)).reverse o b
      (pre.map (siteOf scope.definitions)).reverse (by rw [hsplit]; simp [siteOf, hb])
    refine ⟨b, site, body, hb, hsite, hplace, fun later hlater hmet => ?_, fun hnone => ?_⟩
    · -- a name met later has its place among the ones replaced before
      have hmem : (later, b) ∈ found.soleSites := Gathered.mem_soleSites.2 hlater
      have hpairs := found.soleSites_pairwise
      rw [hsplit] at hmem hpairs
      have hpost : (later, b) ∈ post := by
        rcases List.mem_append.1 hmem with hmem | hmem
        · have := (List.pairwise_append.1 hpairs).2.2 _ hmem (name, o) (by simp)
          exact absurd hmet (Nat.not_lt.2 (Nat.le_of_lt this))
        · rcases List.mem_cons.1 hmem with e | hmem
          · cases e
            exact absurd hmet (Nat.lt_irrefl _)
          · exact hmem
      rwa [if_pos] at hbody
      rw [List.map_reverse, List.mem_reverse, map_fst_siteOf]
      exact List.mem_map.2 ⟨_, hpost, rfl⟩
    · rwa [if_neg] at hbody
      rw [List.map_reverse, List.mem_reverse, map_fst_siteOf]
      intro hmem
      obtain ⟨⟨later, place⟩, hpost, rfl⟩ := List.mem_map.1 hmem
      have hpairs := found.soleSites_pairwise
      have hlater : (later, place) ∈ found.soleSites := by
        rw [hsplit]
        exact List.mem_append_right _ (List.mem_cons_of_mem _ hpost)
      rw [hsplit] at hpairs
      refine hnone later (Gathered.mem_soleSites.1 hlater) ?_
      exact (List.pairwise_cons.1 (List.pairwise_append.1 hpairs).2.1).1 _ hpost

/-! ### Chains of places -/

theorem exists_node_of_covered (h : scope.gather root = .ok found) {x : NodeId}
    (hx : scope.Covered root x) : ∃ node, scope.store.get? x = some node := by
  obtain ⟨p, hwalk, -⟩ := Scope.walks_of_gather h
  obtain ⟨ids, hids⟩ := (Scope.noted_of_covered hwalk hx).entered
  obtain ⟨node, _, hnode, -⟩ := Store.childIds_eq_ok.1 hids
  exact ⟨node, hnode⟩

theorem covered_of_sole (h : scope.gather root = .ok found) {name : String} {o : NodeId}
    (ho : found.soleOccurrence? name = some o) :
    scope.Covered root o ∧ scope.store.Mentions o name :=
  (Scope.accurate_of_gather h).occurrences name o (by simp [Gathered.occurrencesOf_of_sole ho])

theorem eq_of_sole (h : scope.gather root = .ok found) {name : String} {o x : NodeId}
    (ho : found.soleOccurrence? name = some o) (hx : scope.Covered root x)
    (hname : scope.store.Mentions x name) : x = o := by
  have hmem := (Scope.mem_occurrencesOf_iff h).2 ⟨hx, hname⟩
  rwa [Gathered.occurrencesOf_of_sole ho, List.mem_singleton] at hmem

/-- **Induction over what the places get.** A property of all covered nodes follows for a place when
it gets a body as it was, and, when the body is the place of a name met later, from the property of
that place. -/
theorem Inlined.induction {s' : Store} (h : scope.gather root = .ok found)
    (hs' : Inlined scope found s') {P : NodeId → Prop}
    (other : ∀ x, scope.Covered root x → (∀ name, found.soleOccurrence? name ≠ some x) →
      s'.get? x = scope.store.get? x → P x)
    (last : ∀ x name b site body, scope.Covered root b → found.soleOccurrence? name = some x →
      scope.definitions.get? name = some b → scope.store.get? x = some site →
      s'.get? x = some (body.inlinedAt site) → scope.store.get? b = some body →
      (∀ later, found.soleOccurrence? later = some b → ¬ found.MetBefore name later) → P x)
    (link : ∀ x name b later site body, found.soleOccurrence? name = some x →
      scope.definitions.get? name = some b → scope.store.get? x = some site →
      s'.get? x = some (body.inlinedAt site) → s'.get? b = some body →
      found.soleOccurrence? later = some b → found.MetBefore name later → P b → P x)
    {x : NodeId} (hx : scope.Covered root x) : P x := by
  by_cases hsole : ∃ name, found.soleOccurrence? name = some x
  · obtain ⟨name, hname⟩ := hsole
    -- the names of a chain are met later and later
    induction hn : found.occurrences.keys.length - found.occurrences.keys.idxOf name using
      Nat.strongRecOn generalizing x name with
    | ind n ih =>
      obtain ⟨b, site, body, hb, hsite, hplace, hlater, hnone⟩ := hs'.site name x hname
      have hcovered : scope.Covered root b := by
        obtain ⟨hcov, hmention⟩ := covered_of_sole h hname
        exact .body hcov hmention hb
      by_cases hnext : ∃ later, found.soleOccurrence? later = some b ∧ found.MetBefore name later
      · obtain ⟨later, hsole, hmet⟩ := hnext
        refine link x name b later site body hname hb hsite hplace (hlater later hsole hmet) hsole
          hmet (ih _ ?_ hcovered later hsole rfl)
        have := List.idxOf_lt_length_of_mem (Gathered.mem_keys_of_sole hsole)
        unfold Gathered.MetBefore at hmet
        omega
      · have hnone' : ∀ later, found.soleOccurrence? later = some b →
            ¬ found.MetBefore name later := fun later hsole hmet => hnext ⟨later, hsole, hmet⟩
        exact last x name b site body hcovered hname hb hsite hplace (hnone hnone') hnone'
  · have hnone : ∀ name, found.soleOccurrence? name ≠ some x := fun name e => hsole ⟨name, e⟩
    exact other x hx hnone (hs'.other x hnone)

theorem Inlined.covered_of_holds {s' : Store} (h : scope.gather root = .ok found)
    (hs' : Inlined scope found s') {x child : NodeId} (hx : scope.Covered root x)
    (hchild : ∃ node, s'.get? x = some node ∧ child ∈ node.storedIds) :
    scope.Covered root child := by
  have hinlined : ∀ {body site : Node} {child : NodeId}, child ∈ (body.inlinedAt site).storedIds →
      child ∈ body.storedIds ∨ child ∈ site.storedIds := fun h => Node.mem_storedIds_seenThrough h
  refine hs'.induction h (P := fun x => ∀ child, (∃ node, s'.get? x = some node ∧
    child ∈ node.storedIds) → scope.Covered root child) ?_ ?_ ?_ hx child hchild
  · rintro x hx - hsame child ⟨node, hnode, hchild⟩
    exact hx.held h ⟨node, hsame ▸ hnode, hchild⟩
  · rintro x name b site body hb hname - hsite hplace hbody - child ⟨node, hnode, hchild⟩
    rw [hplace] at hnode
    cases hnode
    rcases hinlined hchild with hchild | hchild
    · exact hb.held h ⟨body, hbody, hchild⟩
    · exact (covered_of_sole h hname).1.held h ⟨site, hsite, hchild⟩
  · rintro x name b later site body hname - hsite hplace hbody - - ih child ⟨node, hnode, hchild⟩
    rw [hplace] at hnode
    cases hnode
    rcases hinlined hchild with hchild | hchild
    · exact ih child ⟨body, hbody, hchild⟩
    · exact (covered_of_sole h hname).1.held h ⟨site, hsite, hchild⟩

/-! ### What stays -/

/-- `name` occurs and is not inlined. -/
def Gathered.Stays (found : Gathered) (name : String) : Prop :=
  name ∈ found.occurrences.keys ∧ found.soleOccurrence? name = none

theorem stays_of_mention (h : scope.gather root = .ok found) {x : NodeId} {name : String}
    (hx : scope.Covered root x) (hmention : scope.store.Mentions x name)
    (hnone : ∀ name, found.soleOccurrence? name ≠ some x) : found.Stays name := by
  obtain ⟨p, hwalk, rfl⟩ := Scope.walks_of_gather h
  refine ⟨(Scope.mem_keys_iff_occurs h).2 ⟨x, hx, hmention⟩, ?_⟩
  obtain ⟨node, hnode, href, htarget⟩ := hmention
  obtain ⟨name', htarget', hmem, -⟩ := (Scope.noted_of_covered hwalk hx).occurrence node hnode href
  rw [htarget] at htarget'
  cases htarget'
  cases hsole : p.found.soleOccurrence? name with
  | none => rfl
  | some o =>
    rw [Gathered.occurrencesOf_of_sole hsole, List.mem_singleton] at hmem
    subst hmem
    exact absurd hsole (hnone name)

theorem covered_of_stays (h : scope.gather root = .ok found) {name : String} {body : NodeId}
    (hname : found.Stays name) (hbody : scope.definitions.get? name = some body) :
    scope.Covered root body := by
  obtain ⟨o, ho, hmention⟩ := (Scope.mem_keys_iff_occurs h).1 hname.1
  exact .body ho hmention hbody

theorem Gathered.mem_staying {name : String} : name ∈ found.staying ↔ found.Stays name := by
  simp [Gathered.staying, Gathered.Stays]

/-- The definitions that are listed at the end: those of the names that stay, in their order. -/
theorem kept_spec {definitions : Definitions} {kept : List (String × NodeId)}
    (hkept : remaining root definitions found = .ok kept) :
    kept.map Prod.fst = found.staying ∧
      ∀ name body, (name, body) ∈ kept → definitions.get? name = some body := by
  have hpairs : List.Forall₂ (fun name pair => pair.1 = name ∧
      definitions.get? pair.1 = some pair.2) found.staying kept := by
    refine (forall₂_of_mapM hkept).imp fun name pair h => ?_
    obtain ⟨first, -, h⟩ := bind_eq_ok.1 h
    obtain ⟨b, hb, h⟩ := bind_eq_ok.1 h
    cases pure_eq_ok.1 h
    exact ⟨rfl, lookUp_eq_ok.1 hb⟩
  constructor
  · exact (eq_map_of_forall₂ (hpairs.flip.imp fun _ _ hpair => hpair.1.symm)).symm
  · intro name body hmem
    obtain ⟨_, -, -, hbody⟩ := exists_left_of_forall₂ hpairs hmem
    exact hbody

theorem mem_kept_iff {definitions : Definitions} {kept : List (String × NodeId)}
    (hnames : kept.map Prod.fst = found.staying)
    (hbodies : ∀ name body, (name, body) ∈ kept → definitions.get? name = some body)
    {name : String} {body : NodeId} :
    (name, body) ∈ kept ↔ found.Stays name ∧ definitions.get? name = some body := by
  constructor
  · intro hmem
    refine ⟨Gathered.mem_staying.1 ?_, hbodies name body hmem⟩
    rw [← hnames]
    exact List.mem_map_of_mem hmem
  · rintro ⟨hstays, hbody⟩
    rw [← Gathered.mem_staying, ← hnames] at hstays
    obtain ⟨⟨_, other⟩, hmem, rfl⟩ := List.mem_map.1 hstays
    have hother := hbodies _ other hmem
    rw [hbody] at hother
    cases hother
    exact hmem

/-- **The run of inlining**: the reference graph is gathered, bodies are put in places, and what stays
is listed around the schema in the order of first use. -/
theorem inlineReferences_run {σ : Type} {s : Store} {own : σ} {definitions : Definitions}
    {top : NodeId} {st' : Store × σ}
    (h : inlineReferences root definitions (s, own) = .ok top st') :
    ∃ found s₂ kept, Scope.gather { store := s, definitions } root = .ok found ∧
      Inlined { store := s, definitions } found s₂ ∧
      kept.map Prod.fst = found.staying ∧
      (∀ name body, (name, body) ∈ kept → definitions.get? name = some body) ∧
      Wrapped s₂ root kept st'.1 top := by
  obtain ⟨found, mid, hlook, h⟩ := Pass.bind_eq_ok.1 h
  obtain ⟨hgather, rfl⟩ := Pass.look_eq_ok.1 hlook
  obtain ⟨sites, mid, hlook, h⟩ := Pass.bind_eq_ok.1 h
  obtain ⟨hsites, rfl⟩ := Pass.look_eq_ok.1 hlook
  obtain ⟨_, mid, hrun, h⟩ := Pass.bind_eq_ok.1 h
  have hinlined : Inlined { store := s, definitions } found mid.1 :=
    inlined_of_run hgather hsites hrun
  obtain ⟨kept, mid', hlook, h⟩ := Pass.bind_eq_ok.1 h
  obtain ⟨hkept, rfl⟩ := Pass.look_eq_ok.1 hlook
  obtain ⟨hnames, hbodies⟩ := kept_spec hkept
  refine ⟨found, mid.1, kept, hgather, hinlined, hnames, hbodies,
    wrapped_of_run (fun entry hentry => ?_) h⟩
  -- the bodies are covered, so they are nodes of the store
  obtain ⟨hstays, hbody⟩ := (mem_kept_iff hnames hbodies).1 hentry
  obtain ⟨node, hnode⟩ := exists_node_of_covered hgather (covered_of_stays hgather hstays hbody)
  rw [hinlined.size]
  exact Store.lt_size_of_get? hnode

/-- The run, with the listed definitions told by membership. -/
theorem inlineReferences_spec {σ : Type} {s : Store} {own : σ} {definitions : Definitions}
    {top : NodeId} {st' : Store × σ}
    (h : inlineReferences root definitions (s, own) = .ok top st') :
    ∃ found s₂ kept, Scope.gather { store := s, definitions } root = .ok found ∧
      Inlined { store := s, definitions } found s₂ ∧
      (∀ name body, (name, body) ∈ kept ↔
        found.Stays name ∧ definitions.get? name = some body) ∧
      Wrapped s₂ root kept st'.1 top := by
  obtain ⟨found, s₂, kept, hgather, hinlined, hnames, hbodies, hwrap⟩ := inlineReferences_run h
  exact ⟨found, s₂, kept, hgather, hinlined,
    fun name body => mem_kept_iff hnames hbodies, hwrap⟩

/-- What is left to do once the reference graph is known. -/
def inlineFound {σ : Type} (root : NodeId) (definitions : Definitions) (found : Gathered) :
    Pass σ NodeId := do
  let sites ← Pass.look fun _ => inlinable definitions found
  inlineOccurrences sites.reverse
  let kept ← Pass.look fun _ => remaining root definitions found
  let listed ← namedBodies kept
  wrapDefinitions root listed

theorem simplifyReferences_of_parts {σ : Type} {s s₁ : Store} {own : σ} {root flat top : NodeId}
    {definitions flatDefinitions : Definitions} {found : Gathered} {st' : Store × σ}
    (hflatten : flattenReferences root definitions (s, own) =
      .ok (flat, flatDefinitions) (s₁, own))
    (hgather : Scope.gather { store := s₁, definitions := flatDefinitions } flat = .ok found)
    (hrest : inlineFound flat flatDefinitions found (s₁, own) = .ok top st') :
    simplifyReferences root definitions true (s, own) = .ok top st' := by
  refine Pass.bind_eq_ok.2 ⟨_, _, hflatten, ?_⟩
  exact Pass.bind_eq_ok.2 ⟨found, _, Pass.look_eq_ok.2 ⟨hgather, rfl⟩, hrest⟩

/-! ### Overtaken places -/

/-- The place `o` is overtaken: it gets a body that is the place of another name and was not yet
replaced, or a place that is itself overtaken. -/
inductive Overtaken (definitions : Definitions) (found : Gathered) : NodeId → Prop where
  | stale {name other : String} {o body : NodeId} (ho : found.soleOccurrence? name = some o)
      (hbody : definitions.get? name = some body) (hother : found.soleOccurrence? other = some body)
      (horder : ¬ found.MetBefore name other) : Overtaken definitions found o
  | chain {name other : String} {o body : NodeId} (ho : found.soleOccurrence? name = some o)
      (hbody : definitions.get? name = some body) (hother : found.soleOccurrence? other = some body)
      (horder : found.MetBefore name other) (hrest : Overtaken definitions found body) :
      Overtaken definitions found o

/-- A place is overtaken exactly if its body is a place too, one of a name that was not met later or
one that is itself overtaken. -/
theorem overtaken_iff (h : scope.gather root = .ok found) {name : String} {o b : NodeId}
    (ho : found.soleOccurrence? name = some o) (hb : scope.definitions.get? name = some b) :
    Overtaken scope.definitions found o ↔ ∃ other, found.soleOccurrence? other = some b ∧
      (found.MetBefore name other → Overtaken scope.definitions found b) := by
  constructor
  · intro hover
    cases hover with
    | stale ho' hb' hother horder =>
      cases sole_injective h ho ho'
      cases Option.some.inj (hb.symm.trans hb')
      exact ⟨_, hother, fun hmet => absurd hmet horder⟩
    | chain ho' hb' hother _ hrest =>
      cases sole_injective h ho ho'
      cases Option.some.inj (hb.symm.trans hb')
      exact ⟨_, hother, fun _ => hrest⟩
  · rintro ⟨other, hother, hrest⟩
    by_cases hmet : found.MetBefore name other
    · exact .chain ho hb hother hmet (hrest hmet)
    · exact .stale ho hb hother hmet

/-- An occurrence that is no place refers to a name that stays. -/
theorem exists_stays_of_reference (h : scope.gather root = .ok found) {x : NodeId} {node : Node}
    (hx : scope.Covered root x) (hnone : ∀ name, found.soleOccurrence? name ≠ some x)
    (hnode : scope.store.get? x = some node) (href : node.isReference = true) :
    ∃ name, node.target = some name ∧ found.Stays name := by
  obtain ⟨p, hwalk, -⟩ := Scope.walks_of_gather h
  obtain ⟨name, htarget, -⟩ := (Scope.noted_of_covered hwalk hx).occurrence node hnode href
  exact ⟨name, htarget, stays_of_mention h hx ⟨node, hnode, href, htarget⟩ hnone⟩

/-- After inlining an overtaken place refers to a name that was inlined, and each other occurrence to
one that stays. -/
theorem Inlined.target_cases {s' : Store} (h : scope.gather root = .ok found)
    (hs' : Inlined scope found s') {x : NodeId} (hx : scope.Covered root x) :
    (Overtaken scope.definitions found x ∧
      ∃ name, s'.Mentions x name ∧ (found.soleOccurrence? name).isSome) ∨
    ¬ Overtaken scope.definitions found x ∧
      ∀ node, s'.get? x = some node → node.isReference = true →
        ∃ name, node.target = some name ∧ found.Stays name := by
  refine hs'.induction h (P := fun x => (Overtaken scope.definitions found x ∧
      ∃ name, s'.Mentions x name ∧ (found.soleOccurrence? name).isSome) ∨
    ¬ Overtaken scope.definitions found x ∧
      ∀ node, s'.get? x = some node → node.isReference = true →
        ∃ name, node.target = some name ∧ found.Stays name) ?_ ?_ ?_ hx
  · intro x hx hnone hsame
    refine .inr ⟨fun hover => ?_, fun node hnode href =>
      exists_stays_of_reference h hx hnone (hsame ▸ hnode) href⟩
    cases hover with
    | stale ho | chain ho => exact hnone _ ho
  · intro x name b site body hb hname hbody hsite hplace hcontent hlast
    by_cases hsole : ∃ other, found.soleOccurrence? other = some b
    · -- the body is still an occurrence of the other name
      obtain ⟨other, hother⟩ := hsole
      obtain ⟨-, node, hnode, href, htarget⟩ := covered_of_sole h hother
      rw [hcontent] at hnode
      cases hnode
      have hover : Overtaken scope.definitions found x := (overtaken_iff h hname hbody).2
        ⟨other, hother, fun hmet => absurd hmet (hlast other hother)⟩
      exact .inl ⟨hover, other, ⟨_, hplace, href, htarget⟩, by rw [hother]; rfl⟩
    · have hnone : ∀ other, found.soleOccurrence? other ≠ some b := fun other e => hsole ⟨other, e⟩
      refine .inr ⟨fun hover => ?_, fun node hnode href => ?_⟩
      · obtain ⟨other, hother, -⟩ := (overtaken_iff h hname hbody).1 hover
        exact hnone other hother
      · rw [hplace] at hnode
        cases hnode
        have hstays := exists_stays_of_reference h hb hnone hcontent href
        exact hstays
  · intro x name b later site body hname hbody hsite hplace hcontent hlater hmet ih
    rcases ih with ⟨hover, target, ⟨node, hnode, href, htarget⟩, hsole⟩ | ⟨hnot, hrest⟩
    · rw [hcontent] at hnode
      cases hnode
      have hover' : Overtaken scope.definitions found x :=
        (overtaken_iff h hname hbody).2 ⟨later, hlater, fun _ => hover⟩
      exact .inl ⟨hover', target, ⟨_, hplace, href, htarget⟩, hsole⟩
    · refine .inr ⟨fun hover => ?_, fun node hnode href => ?_⟩
      · obtain ⟨other, hother, hover⟩ := (overtaken_iff h hname hbody).1 hover
        cases sole_injective h hlater hother
        exact hnot (hover hmet)
      · rw [hplace] at hnode
        cases hnode
        exact hrest body hcontent href

end SchemaGraph
