import SchemaGraph.Proofs.Flatten.Normal

/-!
Flattening what a flattening has returned. The returned schema is a flat tree and the returned bodies
are flat below their roots, so each visit comes back with the node it was sent to, nothing is hoisted,
and each definition settles with the body it has.

* `walkWithin_of_isFlat` — a visit of a flat tree changes nothing;
* `flattenBody_of_flatBody`, `flattenGiven_of_flatBodies` — flat bodies settle as they are;
* `flattenReferences_idempotent` — **a second flattening changes nothing**, neither the ids that are
  returned nor the store.
-/

namespace SchemaGraph

variable {s : Store} {body : NodeId} {st : Store × Flattening}

theorem walkWithin_of_isFlat : ∀ {depth : Nat} {id : NodeId}, s.Grounded Node.IsFlat id →
    s.Reach depth id → s.Extends st.1 → flattenVisitor.walkWithin depth id st = .ok id st
  | 0, _, _, hreach, _ => absurd hreach Store.not_reach_zero
  | depth + 1, id, h, hreach, hext => by
    obtain ⟨ids, hids, hkids⟩ := h.childIds
    obtain ⟨node, kind, hnode, -⟩ := Store.childIds_eq_ok.1 hids
    have hread : Pass.node id st = .ok node st :=
      Pass.node_eq_ok.2 ⟨hext.get?_of_some hnode, rfl⟩
    refine Pass.bind_eq_ok.2 ⟨node, st, hread, ?_⟩
    rw [if_neg (h.property hnode).plain]
    refine Pass.bind_eq_ok.2 ⟨id, st, Store.Grounded.mapChildren_eq_self
      (Store.Grounded.childIds_of_extends hids hext) fun child hchild =>
        walkWithin_of_isFlat (hkids child hchild) (hreach.child ⟨ids, hids, hchild⟩) hext,
      Pass.bind_eq_ok.2 ⟨node, st, hread, ?_⟩⟩
    rw [(h.property hnode).nameless]
    exact Pass.pure_eq_ok.2 ⟨rfl, rfl⟩

/-- A flat body comes back as it is, with its name if it has one. -/
theorem flattenBody_of_flatBody {f : Flattening} (h : s.FlatBody body) :
    flattenBody body (s, f) = .ok body (s, f) := by
  obtain ⟨ids, hids, -⟩ := h.grounded.childIds
  obtain ⟨node, kind, hnode, -⟩ := Store.childIds_eq_ok.1 hids
  refine Pass.bind_eq_ok.2 ⟨node, (s, f), Pass.node_eq_ok.2 ⟨hnode, rfl⟩, ?_⟩
  rw [if_neg (h.grounded.property hnode)]
  refine Store.Grounded.mapChildren_eq_self hids fun child hchild => ?_
  have hflat : s.Grounded Node.IsFlat child := h.of_holds (Store.IsChild.holds ⟨ids, hids, hchild⟩)
  exact walkWithin_of_isFlat hflat hflat.reach_depthLimit (.refl s)

/-- Definitions with flat bodies settle as they are: the names are noted, and that is all. -/
theorem flattenGiven_of_flatBodies {all : Definitions} :
    ∀ {given : List (String × NodeId)} {f : Flattening}, f.definitions = all →
      (∀ entry ∈ given, all.get? entry.1 = some entry.2 ∧ s.FlatBody entry.2) →
      ∃ f', flattenGiven given (s, f) = .ok () (s, f') ∧ f'.definitions = all
  | [], f, hf, _ => ⟨f, Pass.pure_eq_ok.2 ⟨rfl, rfl⟩, hf⟩
  | (name, body) :: given, f, hf, hgiven => by
    obtain ⟨hget, hflat⟩ := hgiven (name, body) List.mem_cons_self
    have hrest : ∀ entry ∈ given, all.get? entry.1 = some entry.2 ∧ s.FlatBody entry.2 :=
      fun entry hentry => hgiven entry (List.mem_cons_of_mem _ hentry)
    by_cases hname : name ∈ f.hoisted
    · obtain ⟨f', hrun, hf'⟩ := flattenGiven_of_flatBodies hf hrest
      refine ⟨f', Pass.bind_eq_ok.2 ⟨f, (s, f), Pass.own_eq_ok.2 ⟨rfl, rfl⟩, ?_⟩, hf'⟩
      rw [if_pos hname]
      exact hrun
    · -- the body is registered under the name that it has already
      have hsettle : (f.settle name body).definitions = all := by
        rw [Flattening.settle, if_neg hname, Flattening.hoist, hf]
        exact OrderedMap.insert_of_get? hget
      obtain ⟨f', hrun, hf'⟩ := flattenGiven_of_flatBodies hsettle hrest
      refine ⟨f', Pass.bind_eq_ok.2 ⟨f, (s, f), Pass.own_eq_ok.2 ⟨rfl, rfl⟩, ?_⟩, hf'⟩
      rw [if_neg hname]
      exact Pass.bind_eq_ok.2 ⟨body, (s, f), flattenBody_of_flatBody hflat,
        Pass.bind_eq_ok.2 ⟨(), _, Pass.modifyOwn_eq_ok.2 rfl, hrun⟩⟩

/-- A flat schema and definitions with flat bodies are what flattening them returns. -/
theorem flattenReferences_of_flat {σ : Type} {own : σ} {flat : NodeId} {all : Definitions}
    (hroot : s.Grounded Node.IsFlat flat)
    (hbodies : ∀ name body, all.get? name = some body → s.FlatBody body) :
    flattenReferences flat all (s, own) = .ok (flat, all) (s, own) := by
  have hwalk : flattenVisitor.walk flat (s, { definitions := all }) =
      .ok flat (s, { definitions := all }) :=
    walkWithin_of_isFlat hroot hroot.reach_depthLimit (.refl s)
  have hentries : ∀ entry ∈ all.entries, all.get? entry.1 = some entry.2 ∧ s.FlatBody entry.2 := by
    intro entry hentry
    have hget : all.get? entry.1 = some entry.2 := OrderedMap.mem_entries_iff.1 hentry
    exact ⟨hget, hbodies entry.1 entry.2 hget⟩
  obtain ⟨f, hgiven, hf⟩ :=
    flattenGiven_of_flatBodies (f := { definitions := all }) rfl hentries
  refine Pass.bind_eq_ok.2 ⟨(flat, f), (s, own), Pass.within_eq_ok.2 ⟨?_, rfl⟩, ?_⟩
  · exact Pass.bind_eq_ok.2 ⟨flat, _, hwalk, Pass.bind_eq_ok.2 ⟨(), _, hgiven,
      Pass.pure_eq_ok.2 ⟨rfl, rfl⟩⟩⟩
  · exact Pass.pure_eq_ok.2 ⟨by rw [hf], rfl⟩

/-- **Flattening is idempotent.** Flattening the returned schema with the returned definitions goes
through, returns the same root and the same definitions in the same order, and leaves the store as it
is. -/
theorem flattenReferences_idempotent {σ : Type} {own : σ} {s : Store} {root flat : NodeId}
    {definitions all : Definitions} {st' : Store × σ}
    (h : flattenReferences root definitions (s, own) = .ok (flat, all) st') :
    flattenReferences flat all st' = .ok (flat, all) st' := by
  obtain ⟨hroot, hbodies⟩ := flat_of_flattenReferences h
  exact flattenReferences_of_flat hroot hbodies

/-- The bodies of `A` and `C` keep their names and are not hoisted again. -/
theorem scatteredStore_idempotent :
    ∃ flat all st', flattenReferences ⟨7⟩ scatteredDefinitions (scatteredStore, ()) =
        .ok (flat, all) st' ∧
      flattenReferences flat all st' = .ok (flat, all) st' :=
  ⟨_, _, _, flattenReferences_scatteredStore,
    flattenReferences_idempotent flattenReferences_scatteredStore⟩

end SchemaGraph
