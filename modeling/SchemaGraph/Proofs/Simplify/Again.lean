import SchemaGraph.Proofs.Simplify.Declared
import SchemaGraph.Proofs.Flatten.Idempotent

/-!
Flattening what is wrapped already. A `definitions` node over flat definitions and a flat schema comes
apart into these.

* `walkWithin_of_flatDefinition` — a visit of a flat definition moves it out;
* `flattenReferences_definitionsNode` — **flattening takes a `definitions` node over flat definitions
  apart** and leaves all else as it is.
-/

namespace SchemaGraph

variable {s : Store} {id top flat : NodeId} {depth : Nat} {st : Store × Flattening} {name : String}
  {entries : List (String × NodeId)}

/-! ### Visits of flat definitions -/

/-- A visit of a flat definition moves it out and leaves an occurrence behind. -/
theorem walkWithin_of_flatDefinition (h : s.FlatDefinition name id) (hreach : s.Reach depth id)
    (hext : s.Extends st.1) : flattenVisitor.walkWithin depth id st =
      .ok st.1.nextId (st.1.insert (.reference name), st.2.hoist name id) := by
  obtain ⟨hbody, node, hnode, hname⟩ := h
  cases hreach with
  | @node depth _ hreach =>
    obtain ⟨kind, hkind, hne, hfits, hkids⟩ := hbody.parts hnode
    have hids : s.childIds id = .ok (node.orderedChildren kind) :=
      Store.childIds_eq_ok.2 ⟨node, kind, hnode, hkind, hfits, rfl⟩
    have hread : Pass.node id st = .ok node st :=
      Pass.node_eq_ok.2 ⟨hext.get?_of_some hnode, rfl⟩
    refine Pass.bind_eq_ok.2 ⟨node, st, hread, ?_⟩
    rw [if_neg fun h => hne (Option.some.inj (hkind.symm.trans h))]
    refine Pass.bind_eq_ok.2 ⟨id, st, Store.Grounded.mapChildren_eq_self
      (Store.Grounded.childIds_of_extends hids hext) fun child hchild =>
        walkWithin_of_isFlat (hkids child ((Node.mem_orderedChildren hfits).1 hchild))
          (hreach child ⟨_, hids, hchild⟩) hext,
      Pass.bind_eq_ok.2 ⟨node, st, hread, ?_⟩⟩
    rw [hname]
    exact Pass.bind_eq_ok.2 ⟨(), _, Pass.modifyOwn_eq_ok.2 rfl, Pass.insert_eq_ok.2 ⟨rfl, rfl⟩⟩

/-- Visits of listed definitions that are known already note their names. -/
theorem visitListed_of_flatDefinitions : ∀ (entries : List (String × NodeId))
    (st : Store × Flattening), (∀ entry ∈ entries, s.FlatDefinition entry.1 entry.2) →
    (∀ entry ∈ entries, s.Reach depth entry.2) → s.Extends st.1 →
    (∀ entry ∈ entries, st.2.definitions.get? entry.1 = some entry.2) →
    ∃ st', visitListed (flattenVisitor.walkWithin depth) (entries.map Prod.snd) st = .ok () st' ∧
      s.Extends st'.1 ∧ st'.2.definitions = st.2.definitions ∧
      (∀ name, name ∈ st.2.hoisted → name ∈ st'.2.hoisted) ∧
      ∀ entry ∈ entries, entry.1 ∈ st'.2.hoisted
  | [], st, _, _, hext, _ =>
    ⟨st, Pass.pure_eq_ok.2 ⟨rfl, rfl⟩, hext, rfl, fun _ h => h, fun _ h => by cases h⟩
  | (name, id) :: entries, st, hflat, hreach, hext, hknown => by
    have hentry := hflat (name, id) List.mem_cons_self
    have ⟨_, node, hnode, hname⟩ := hentry
    have hsame : st.2.definitions.insert name id = st.2.definitions :=
      OrderedMap.insert_of_get? (hknown (name, id) List.mem_cons_self)
    obtain ⟨st', hrest, hext', hdefinitions, hmono, hnames⟩ :=
      visitListed_of_flatDefinitions entries (st.1.insert (.reference name), st.2.hoist name id)
        (fun entry h => hflat entry (List.mem_cons_of_mem _ h))
        (fun entry h => hreach entry (List.mem_cons_of_mem _ h))
        (hext.trans (Store.extends_insert _ _)) fun entry h => by
          rw [Flattening.hoist, hsame]
          exact hknown entry (List.mem_cons_of_mem _ h)
    refine ⟨st', ?_, hext', hdefinitions.trans hsame, fun other hother => ?_, fun entry h => ?_⟩
    · refine Pass.bind_eq_ok.2 ⟨node, st, Pass.node_eq_ok.2 ⟨hext.get?_of_some hnode, rfl⟩, ?_⟩
      rw [if_neg (by simp [hname])]
      exact Pass.bind_eq_ok.2 ⟨_, _, walkWithin_of_flatDefinition hentry
        (hreach (name, id) List.mem_cons_self) hext, hrest⟩
    · exact hmono other (NameSet.mem_insert.2 (.inr hother))
    · rcases List.mem_cons.1 h with rfl | h
      · exact hmono _ (NameSet.mem_insert.2 (.inl rfl))
      · exact hnames entry h

/-- Given definitions that were found inside the schema are passed over. -/
theorem flattenGiven_of_hoisted : ∀ {given : List (String × NodeId)},
    (∀ entry ∈ given, entry.1 ∈ st.2.hoisted) → flattenGiven given st = .ok () st
  | [], _ => Pass.pure_eq_ok.2 ⟨rfl, rfl⟩
  | (name, body) :: given, h => by
    refine Pass.bind_eq_ok.2 ⟨st.2, st, Pass.own_eq_ok.2 ⟨rfl, rfl⟩, ?_⟩
    rw [if_pos (h (name, body) List.mem_cons_self)]
    exact flattenGiven_of_hoisted fun entry hentry => h entry (List.mem_cons_of_mem _ hentry)

/-! ### The whole schema -/

/-- **Flattening takes a `definitions` node over flat definitions apart.** The definitions stay as
they are given; what is new are occurrences that nothing refers to. -/
theorem flattenReferences_definitionsNode
    (htop : s.get? top = some (definitionsNode flat (entries.map Prod.snd)))
    (hflat : s.Grounded Node.IsFlat flat)
    (hentries : ∀ entry ∈ entries, s.FlatDefinition entry.1 entry.2)
    (hnodup : (entries.map Prod.fst).Nodup) :
    ∃ t, s.Extends t ∧ ∀ {σ : Type} (own : σ), flattenReferences top (.ofList entries) (s, own) =
      .ok (flat, .ofList entries) (t, own) := by
  have hgiven : (OrderedMap.ofList entries).entries = entries := OrderedMap.entries_ofList hnodup
  have hids := childIds_definitionsNode htop
  have hreach : s.Reach s.depthLimit top := by
    have hlisted : List.Forall₂ (fun entry id => s.FlatDefinition entry.1 id) entries
        (entries.map Prod.snd) := List.forall₂_map_right_iff.2 (List.forall₂_same.2 hentries)
    exact (grounded_definitionsNode htop hflat hlisted).reach_depthLimit
  obtain ⟨depth, hdepth⟩ : ∃ depth, s.depthLimit = depth + 1 :=
    Nat.exists_eq_succ_of_ne_zero (Nat.mul_ne_zero (Nat.succ_ne_zero _) (Nat.succ_ne_zero _))
  rw [hdepth] at hreach
  have hchild : ∀ child ∈ entries.map Prod.snd ++ [flat], s.Reach depth child :=
    fun child hchild => hreach.child ⟨_, hids, hchild⟩
  obtain ⟨mid, hlisted, hext, hdefinitions, -, hnames⟩ :=
    visitListed_of_flatDefinitions entries (s, { definitions := .ofList entries }) hentries
      (fun entry h => hchild _ (List.mem_append_left _ (List.mem_map_of_mem h))) (.refl s)
      fun entry h => OrderedMap.mem_entries_iff.1 (by rwa [hgiven])
  have hwalk : flattenVisitor.walk top (s, { definitions := .ofList entries }) = .ok flat mid := by
    show flattenVisitor.walkWithin s.depthLimit top _ = _
    rw [hdepth]
    refine Pass.bind_eq_ok.2 ⟨_, _, Pass.node_eq_ok.2 ⟨htop, rfl⟩, ?_⟩
    rw [if_pos (kind?_definitionsNode _ _)]
    refine Pass.bind_eq_ok.2 ⟨(), mid, hlisted, ?_⟩
    exact walkWithin_of_isFlat hflat (hchild flat (by simp)) hext
  refine ⟨mid.1, hext, fun own => Pass.bind_eq_ok.2 ⟨(flat, mid.2), (mid.1, own), ?_, ?_⟩⟩
  · refine Pass.within_eq_ok.2 ⟨Pass.bind_eq_ok.2 ⟨flat, mid, hwalk, Pass.bind_eq_ok.2 ⟨(), mid, ?_,
      Pass.pure_eq_ok.2 ⟨rfl, rfl⟩⟩⟩, rfl⟩
    rw [hgiven]
    exact flattenGiven_of_hoisted hnames
  · exact Pass.pure_eq_ok.2 ⟨by rw [hdefinitions], rfl⟩

end SchemaGraph
