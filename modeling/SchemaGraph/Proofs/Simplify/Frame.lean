import SchemaGraph.Proofs.Effect
import SchemaGraph.Proofs.Simplify.Knots

/-!
What a clean-up leaves alone, and where it can fail.

* `onlyInserts_flattenReferences` — flattening keeps every node, also when it fails on its way, and
  so does listing;
* `exists_inlineFound` — once the reference graph is known nothing can fail: all bodies and places
  are there;
* `simplifyReferences_frame` — **a clean-up that fails has changed nothing, and one that goes through
  has changed only the places that it inlines at**.
-/

namespace SchemaGraph

open Pass (OnlyInserts)

variable {σ : Type}

/-! ### Flattening -/

theorem onlyInserts_visitListed {visit : NodeId → Pass Flattening NodeId}
    (h : ∀ id, OnlyInserts (visit id)) : ∀ ids, OnlyInserts (visitListed visit ids)
  | [] => .pure
  | id :: ids => by
    refine .bind .node fun node => ?_
    split
    · exact .throw
    · exact .bind (h id) fun _ => onlyInserts_visitListed h ids

theorem onlyInserts_flattenVisitor (visit : NodeId → Pass Flattening NodeId)
    (h : ∀ id, OnlyInserts (visit id)) (id : NodeId) : OnlyInserts (flattenVisitor visit id) := by
  refine .bind .node fun node => ?_
  split
  · split
    · exact .throw
    · exact .bind (onlyInserts_visitListed h _) fun _ => h _
  · refine .bind (.mapChildren h id) fun _ => .bind .node fun flat => ?_
    split
    · exact .pure
    · exact .bind .modifyOwn fun _ => .insert

theorem onlyInserts_flattenBody (body : NodeId) : OnlyInserts (flattenBody body) := by
  refine .bind .node fun node => ?_
  split
  · exact .walk onlyInserts_flattenVisitor body
  · exact .mapChildren (.walk onlyInserts_flattenVisitor) body

theorem onlyInserts_flattenGiven : ∀ given, OnlyInserts (flattenGiven given)
  | [] => .pure
  | (name, body) :: given => by
    refine .bind .own fun f => ?_
    split
    · exact onlyInserts_flattenGiven given
    · exact .bind (onlyInserts_flattenBody body) fun _ =>
        .bind .modifyOwn fun _ => onlyInserts_flattenGiven given

/-- **Flattening keeps every node**, also when it fails. -/
theorem onlyInserts_flattenReferences (root : NodeId) (definitions : Definitions) :
    OnlyInserts (flattenReferences root definitions : Pass σ (NodeId × Definitions)) :=
  .bind (.within (.bind (.walk onlyInserts_flattenVisitor root) fun _ =>
    .bind (onlyInserts_flattenGiven _) fun _ => .pure)) fun _ => .pure

/-! ### Listing -/

theorem onlyInserts_namedBodies :
    ∀ entries, OnlyInserts (namedBodies entries : Pass σ (List NodeId))
  | [] => .pure
  | (name, body) :: entries => by
    refine .bind (.bind .node fun node => ?_) fun _ =>
      .bind (onlyInserts_namedBodies entries) fun _ => .pure
    split
    · exact .pure
    · exact .insert

theorem onlyInserts_wrapDefinitions (root : NodeId) (listed : List NodeId) :
    OnlyInserts (wrapDefinitions root listed : Pass σ NodeId) := by
  unfold wrapDefinitions
  split
  · exact .pure
  · exact .insert

theorem exists_namedBodies : ∀ (entries : List (String × NodeId)) (st : Store × σ),
    (∀ entry ∈ entries, entry.2.index < st.1.size) →
      ∃ ids st', namedBodies entries st = .ok ids st'
  | [], st, _ => ⟨[], st, rfl⟩
  | (name, body) :: entries, st, h => by
    obtain ⟨node, hnode⟩ := Option.ne_none_iff_exists'.1 fun hnone =>
      Nat.not_lt.2 (Store.get?_eq_none.1 hnone) (h (name, body) List.mem_cons_self)
    have hbody : ∃ id mid, namedBody name body st = .ok id mid := by
      by_cases hname : node.name = some name
      · refine ⟨body, st, Pass.bind_eq_ok.2 ⟨node, st, Pass.node_eq_ok.2 ⟨hnode, rfl⟩, ?_⟩⟩
        rw [if_pos hname]
        exact Pass.pure_eq_ok.2 ⟨rfl, rfl⟩
      · refine ⟨st.1.nextId, (st.1.insert (node.withName name), st.2),
          Pass.bind_eq_ok.2 ⟨node, st, Pass.node_eq_ok.2 ⟨hnode, rfl⟩, ?_⟩⟩
        rw [if_neg hname]
        exact Pass.insert_eq_ok.2 ⟨rfl, rfl⟩
    obtain ⟨id, mid, hbody⟩ := hbody
    have hgrow : st.1.Extends mid.1 := (namedBody_spec hbody).1
    obtain ⟨ids, st', hrest⟩ := exists_namedBodies entries mid
      fun entry hentry =>
        Nat.lt_of_lt_of_le (h entry (List.mem_cons_of_mem _ hentry)) hgrow.size_le
    exact ⟨id :: ids, st', Pass.bind_eq_ok.2 ⟨id, mid, hbody, Pass.bind_eq_ok.2
      ⟨ids, st', hrest, Pass.pure_eq_ok.2 ⟨rfl, rfl⟩⟩⟩⟩

theorem exists_wrapped {entries : List (String × NodeId)} (root : NodeId) {st : Store × σ}
    (h : ∀ entry ∈ entries, entry.2.index < st.1.size) :
    ∃ top st', (do let listed ← namedBodies entries; wrapDefinitions root listed :
      Pass σ NodeId) st = .ok top st' := by
  obtain ⟨listed, mid, hlisted⟩ := exists_namedBodies entries st h
  have hwrap : ∃ top st', wrapDefinitions root listed mid = .ok top st' := by
    unfold wrapDefinitions
    split
    · exact ⟨root, mid, rfl⟩
    · exact ⟨_, _, rfl⟩
  obtain ⟨top, st', hwrap⟩ := hwrap
  exact ⟨top, st', Pass.bind_eq_ok.2 ⟨listed, mid, hlisted, hwrap⟩⟩

/-! ### Inlining -/

theorem exists_inlineOccurrences : ∀ (sites : List (NodeId × NodeId)) (st : Store × σ),
    (∀ site ∈ sites, site.1.index < st.1.size ∧ site.2.index < st.1.size) →
      ∃ st', inlineOccurrences sites st = .ok () st' ∧ st'.1.size = st.1.size
  | [], st, _ => ⟨st, rfl, rfl⟩
  | (o, b) :: sites, st, h => by
    obtain ⟨ho, hb⟩ := h (o, b) List.mem_cons_self
    obtain ⟨site, hsite⟩ := Option.ne_none_iff_exists'.1 fun hnone =>
      Nat.not_lt.2 (Store.get?_eq_none.1 hnone) ho
    obtain ⟨body, hbody⟩ := Option.ne_none_iff_exists'.1 fun hnone =>
      Nat.not_lt.2 (Store.get?_eq_none.1 hnone) hb
    let mid : Store × σ := (st.1.set o (body.inlinedAt site), st.2)
    have hone : inlineOccurrence o b st = .ok () mid :=
      Pass.bind_eq_ok.2 ⟨site, st, Pass.node_eq_ok.2 ⟨hsite, rfl⟩, Pass.bind_eq_ok.2
        ⟨body, st, Pass.node_eq_ok.2 ⟨hbody, rfl⟩, Pass.bind_eq_ok.2
          ⟨site, mid, Pass.replace_eq_ok.2 ⟨hsite, rfl⟩, rfl⟩⟩⟩
    have hsize : mid.1.size = st.1.size := Store.size_set _ _ _
    obtain ⟨st', hrest, hsize'⟩ := exists_inlineOccurrences sites mid
      fun site hmem => by
        rw [hsize]
        exact h site (List.mem_cons_of_mem _ hmem)
    exact ⟨st', Pass.bind_eq_ok.2 ⟨(), mid, hone, hrest⟩, hsize'.trans hsize⟩

variable {scope : Scope} {root : NodeId} {found : Gathered}

theorem exists_lookUp (h : scope.gather root = .ok found) {name : String}
    (hname : name ∈ found.occurrences.keys) (o : NodeId) :
    ∃ body, lookUp scope.definitions name o = .ok body := by
  obtain ⟨body, hbody⟩ := Scope.exists_body h ((Scope.mem_keys_iff_occurs h).1 hname)
  exact ⟨body, lookUp_eq_ok.2 hbody⟩

/-- A name that occurs has a first use, since no list of occurrences is empty. -/
theorem exists_firstUse (h : scope.gather root = .ok found) {name : String}
    (hname : name ∈ found.occurrences.keys) (top : NodeId) :
    ∃ first, found.firstUse top name = .ok first := by
  obtain ⟨ids, hids⟩ := Option.isSome_iff_exists.1 (OrderedMap.mem_keys_iff.1 hname)
  have hof : found.occurrencesOf name = ids := by rw [Gathered.occurrencesOf, hids, Option.getD_some]
  unfold Gathered.firstUse
  rw [hof]
  cases ids with
  | nil => exact absurd hids ((Scope.accurate_of_gather h).not_nil name)
  | cons first _ => exact ⟨first, rfl⟩

theorem exists_inlinable (h : scope.gather root = .ok found) :
    ∃ sites, inlinable scope.definitions found = .ok sites := by
  refine exists_mapM fun entry hentry => ?_
  have hname := Gathered.mem_keys_of_sole (Gathered.mem_soleSites.1 hentry)
  obtain ⟨body, hbody⟩ := exists_lookUp h hname entry.2
  exact ⟨(entry.2, body), bind_eq_ok.2 ⟨body, hbody, rfl⟩⟩

theorem exists_remaining (h : scope.gather root = .ok found) (top : NodeId) :
    ∃ kept, remaining top scope.definitions found = .ok kept := by
  refine exists_mapM fun name hname => ?_
  have hoccurs := (Gathered.mem_staying.1 hname).1
  obtain ⟨first, hfirst⟩ := exists_firstUse h hoccurs top
  obtain ⟨body, hbody⟩ := exists_lookUp h hoccurs first
  exact ⟨(name, body), bind_eq_ok.2 ⟨first, hfirst, bind_eq_ok.2 ⟨body, hbody, rfl⟩⟩⟩

/-- **Once the reference graph is known, inlining goes through.** -/
theorem exists_inlineFound (h : scope.gather root = .ok found) (own : σ) :
    ∃ top st', inlineFound root scope.definitions found (scope.store, own) = .ok top st' := by
  have hthere : ∀ x, scope.Covered root x → x.index < scope.store.size := by
    intro x hx
    obtain ⟨node, hnode⟩ := exists_node_of_covered h hx
    exact Store.lt_size_of_get? hnode
  obtain ⟨sites, hsites⟩ := exists_inlinable h
  obtain ⟨kept, hkept⟩ := exists_remaining h root
  have hplaces : ∀ site ∈ sites.reverse,
      site.1.index < scope.store.size ∧ site.2.index < scope.store.size := by
    obtain ⟨rfl, hbodies⟩ := inlinable_eq_ok hsites
    intro site hsite
    obtain ⟨⟨name, o⟩, hmem, rfl⟩ := List.mem_map.1 (List.mem_reverse.1 hsite)
    have hsole := Gathered.mem_soleSites.1 hmem
    obtain ⟨hcovered, hmention⟩ := covered_of_sole h hsole
    obtain ⟨b, hb⟩ := hbodies name o hsole
    refine ⟨hthere o hcovered, ?_⟩
    simpa [siteOf, hb] using hthere b (.body hcovered hmention hb)
  obtain ⟨mid, hinlined, hsize⟩ := exists_inlineOccurrences _ (scope.store, own) hplaces
  have hbodies : ∀ entry ∈ kept, entry.2.index < mid.1.size := by
    obtain ⟨hnames, hbodies⟩ := kept_spec hkept
    intro entry hentry
    obtain ⟨hstays, hbody⟩ := (mem_kept_iff hnames hbodies).1 hentry
    rw [hsize]
    exact hthere _ (covered_of_stays h hstays hbody)
  obtain ⟨top, st', hwrap⟩ := exists_wrapped root hbodies
  refine ⟨top, st', Pass.bind_eq_ok.2 ⟨sites, _, Pass.look_eq_ok.2 ⟨hsites, rfl⟩, ?_⟩⟩
  refine Pass.bind_eq_ok.2 ⟨(), mid, hinlined, ?_⟩
  exact Pass.bind_eq_ok.2 ⟨kept, mid, Pass.look_eq_ok.2 ⟨hkept, rfl⟩, hwrap⟩

theorem exists_inlineReferences {s : Store} {definitions : Definitions}
    (h : Scope.gather { store := s, definitions } root = .ok found) (own : σ) :
    ∃ top st', inlineReferences root definitions (s, own) = .ok top st' := by
  obtain ⟨top, st', hrest⟩ := exists_inlineFound h own
  exact ⟨top, st', Pass.bind_eq_ok.2 ⟨found, _, Pass.look_eq_ok.2 ⟨h, rfl⟩, hrest⟩⟩

/-- Inlining fails only where the reference graph cannot be gathered, and then has done nothing. -/
theorem inlineReferences_eq_error {s : Store} {own : σ} {definitions : Definitions} {e : Error}
    {st' : Store × σ} (h : inlineReferences root definitions (s, own) = .error e st') :
    Scope.gather { store := s, definitions } root = .error e ∧ st' = (s, own) := by
  cases hgather : Scope.gather { store := s, definitions } root with
  | error e' =>
    simp only [inlineReferences, Pass.look, hgather, bind, EStateM.bind] at h
    cases h
    exact ⟨rfl, rfl⟩
  | ok found =>
    obtain ⟨top, st₁, hok⟩ := exists_inlineReferences hgather own
    rw [h] at hok
    cases hok

/-- Inlining changes only the places that it inlines at, which were references. -/
theorem inlineReferences_changed {s : Store} {own : σ} {definitions : Definitions} {top id : NodeId}
    {st' : Store × σ} (h : inlineReferences root definitions (s, own) = .ok top st')
    (hid : id.index < s.size) (hchanged : st'.1.get? id ≠ s.get? id) :
    ∃ found name node, Scope.gather { store := s, definitions } root = .ok found ∧
      found.occurrencesOf name = [id] ∧ name ∉ found.recursive ∧
      s.get? id = some node ∧ node.isReference = true := by
  obtain ⟨found, s₂, kept, hgather, hs₂, -, -, hwrap⟩ := inlineReferences_run h
  have hid₂ : id.index < s₂.size := by rw [hs₂.size]; exact hid
  obtain ⟨name, hsole⟩ : ∃ name, found.soleOccurrence? name = some id := by
    by_contra hnone
    exact hchanged ((hwrap.extends_.get?_eq id hid₂).trans
      (hs₂.other id fun name hname => hnone ⟨name, hname⟩))
  obtain ⟨-, node, hnode, href, -⟩ := covered_of_sole hgather hsole
  exact ⟨found, name, node, hgather, Gathered.occurrencesOf_of_sole hsole,
    not_mem_recursive_of_sole hsole, hnode, href⟩

/-- **A clean-up fails cleanly and changes only what it inlines.** It fails only if flattening does
or, with inlining, if the reference graph of the flattened schema cannot be gathered; then all nodes
are as they were. If it goes through, the nodes that were there and are others now are references,
each found to be the only occurrence of a name that lies on no cycle; without inlining there are
none. -/
theorem simplifyReferences_frame (root : NodeId) (definitions : Definitions) (inline : Bool)
    (s : Store) (own : σ) :
    match simplifyReferences root definitions inline (s, own) with
    | .error e st' =>
      s.Extends st'.1 ∧
        (flattenReferences root definitions (s, own) = .error e st' ∨
          inline = true ∧ ∃ flat all,
            flattenReferences root definitions (s, own) = .ok (flat, all) st' ∧
            Scope.gather { store := st'.1, definitions := all } flat = .error e)
    | .ok _ st' =>
      s.size ≤ st'.1.size ∧
        ∀ id, id.index < s.size → st'.1.get? id ≠ s.get? id → inline = true ∧
          ∃ flat all st₁ found name node,
            flattenReferences root definitions (s, own) = .ok (flat, all) st₁ ∧
            Scope.gather { store := st₁.1, definitions := all } flat = .ok found ∧
            found.occurrencesOf name = [id] ∧ name ∉ found.recursive ∧
            s.get? id = some node ∧ node.isReference = true := by
  have hflattens := onlyInserts_flattenReferences (σ := σ) root definitions
  cases hflatten : flattenReferences root definitions (s, own) with
  | error e st₁ =>
    have hrun : simplifyReferences root definitions inline (s, own) = .error e st₁ := by
      simp only [simplifyReferences, bind, EStateM.bind, hflatten]
    rw [hrun]
    exact ⟨hflattens.of_error hflatten, .inl rfl⟩
  | ok flattened st₁ =>
    obtain ⟨flat, all⟩ := flattened
    have hgrow : s.Extends st₁.1 := hflattens.of_ok hflatten
    have hrun : simplifyReferences root definitions inline (s, own) =
        (if inline then inlineReferences flat all
          else do let listed ← namedBodies all.entries; wrapDefinitions flat listed) st₁ := by
      simp only [simplifyReferences, bind, EStateM.bind, hflatten]
    rw [hrun]
    cases inline with
    | false =>
      have hwraps : OnlyInserts (do
          let listed ← namedBodies all.entries
          wrapDefinitions flat listed : Pass σ NodeId) :=
        .bind (onlyInserts_namedBodies _) fun listed => onlyInserts_wrapDefinitions flat listed
      have hbodies : ∀ entry ∈ all.entries, entry.2.index < st₁.1.size := by
        intro entry hentry
        obtain ⟨node, _, hnode, -⟩ := (flat_of_flattenReferences hflatten).2 entry.1 entry.2
          (OrderedMap.mem_entries_iff.1 hentry)
        exact Store.lt_size_of_get? hnode
      obtain ⟨top, st', hwrap⟩ := exists_wrapped flat hbodies
      have hext := hgrow.trans (hwraps.of_ok hwrap)
      rw [if_neg Bool.false_ne_true, hwrap]
      exact ⟨hext.size_le, fun id hid hchanged => absurd (hext.get?_eq id hid) hchanged⟩
    | true =>
      rw [if_pos rfl]
      cases hinline : inlineReferences flat all st₁ with
      | error e st' =>
        obtain ⟨hgather, rfl⟩ := inlineReferences_eq_error hinline
        exact ⟨hgrow, .inr ⟨rfl, flat, all, rfl, hgather⟩⟩
      | ok top st' =>
        refine ⟨?_, fun id hid hchanged => ⟨rfl, ?_⟩⟩
        · obtain ⟨_, s₂, _, _, hs₂, _, _, hwrap⟩ := inlineReferences_run hinline
          exact hgrow.size_le.trans (hs₂.size ▸ hwrap.extends_.size_le)
        · have hid₁ : id.index < st₁.1.size := Nat.lt_of_lt_of_le hid hgrow.size_le
          obtain ⟨found, name, node, hgather, hone, hrec, hnode, href⟩ :=
            inlineReferences_changed hinline hid₁ (by rwa [hgrow.get?_eq id hid])
          exact ⟨flat, all, st₁, found, name, node, rfl, hgather, hone, hrec,
            (hgrow.get?_eq id hid).symm.trans hnode, href⟩

end SchemaGraph
