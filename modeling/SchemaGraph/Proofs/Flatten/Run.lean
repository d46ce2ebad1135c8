import SchemaGraph.Reference.Flatten
import SchemaGraph.Proofs.Rebuild
import SchemaGraph.Proofs.Trees

/-!
What a flattening that goes through has done, without its monad and its bound on the depth. The
store is any store: nodes may be shared, ids may lead nowhere, names may come twice.

* `Flattens` — the visits of a list of nodes, with what they return;
* `FlattensBody`, `Settles` — flattening the given definitions;
* `flattens_of_flattenReferences` — **each run that goes through is one of these**.
-/

namespace SchemaGraph

/-- `copy` is the node at `id` with the children `xs`: the node itself if it has these already, else
a new one. -/
inductive Rebuilds (node : Node) (kind : Kind) (id : NodeId) (xs : List NodeId)
    (st : Store × Flattening) : NodeId → Store × Flattening → Prop where
  | same (h : xs = node.orderedChildren kind) : Rebuilds node kind id xs st id st
  | copy (h : xs ≠ node.orderedChildren kind) :
      Rebuilds node kind id xs st st.1.nextId (st.1.insert (node.relink kind node xs), st.2)

/-- `x` is what is left of a node in its place: a copy without a name stays there, one with a name
is hoisted and leaves an occurrence. -/
inductive Leaves (copy : NodeId) (st : Store × Flattening) :
    Option String → NodeId → Store × Flattening → Prop where
  | copy : Leaves copy st none copy st
  | occurrence (name : String) : Leaves copy st (some name) st.1.nextId
      (st.1.insert (.reference name), st.2.hoist name copy)

/-- **The visits of a walk.** Visiting the nodes of a list one after the other leads from one state
to the other and returns the nodes of the second list. -/
inductive Flattens :
    List NodeId → Store × Flattening → List NodeId → Store × Flattening → Prop where
  | nil (st : Store × Flattening) : Flattens [] st [] st
  | dissolve {id inner x : NodeId} {node : Node} {ids ys xs : List NodeId}
      {st mid last st' : Store × Flattening}
      (hnode : st.1.get? id = some node) (hkind : node.kind? = some .definitions)
      (hinner : node.innerSchema? = some inner)
      (hlisted : Flattens node.listedDefinitions st ys mid) (hvisit : Flattens [inner] mid [x] last)
      (hrest : Flattens ids last xs st') : Flattens (id :: ids) st (x :: xs) st'
  | leave {id copy x : NodeId} {node : Node} {kind : Kind} {ids ys xs : List NodeId}
      {st mid built left st' : Store × Flattening}
      (hnode : st.1.get? id = some node) (hkind : node.kind? = some kind)
      (hne : kind ≠ .definitions)
      (hfits : node.misfit? kind = none) (hkids : Flattens (node.orderedChildren kind) st ys mid)
      (hcopy : Rebuilds node kind id ys mid copy built)
      (hleave : Leaves copy built node.name x left)
      (hrest : Flattens ids left xs st') : Flattens (id :: ids) st (x :: xs) st'

/-- Flattening below the body of a given definition. -/
inductive FlattensBody (body : NodeId) (st : Store × Flattening) :
    NodeId → Store × Flattening → Prop where
  | dissolve {x : NodeId} {node : Node} {st' : Store × Flattening}
      (hnode : st.1.get? body = some node) (hkind : node.kind? = some .definitions)
      (hvisit : Flattens [body] st [x] st') : FlattensBody body st x st'
  | rebuild {copy : NodeId} {node : Node} {kind : Kind} {ys : List NodeId}
      {mid built : Store × Flattening} (hnode : st.1.get? body = some node)
      (hkind : node.kind? = some kind) (hne : kind ≠ .definitions)
      (hfits : node.misfit? kind = none) (hkids : Flattens (node.orderedChildren kind) st ys mid)
      (hcopy : Rebuilds node kind body ys mid copy built) : FlattensBody body st copy built

/-- The given definitions that were not found inside a schema, one after the other. -/
inductive Settles : List (String × NodeId) → Store × Flattening → Store × Flattening → Prop where
  | nil (st : Store × Flattening) : Settles [] st st
  | found {name : String} {body : NodeId} {given : List (String × NodeId)}
      {st st' : Store × Flattening} (hname : name ∈ st.2.hoisted) (hrest : Settles given st st') :
      Settles ((name, body) :: given) st st'
  | settle {name : String} {body x : NodeId} {given : List (String × NodeId)}
      {st mid st' : Store × Flattening} (hname : name ∉ st.2.hoisted)
      (hbody : FlattensBody body st x mid)
      (hrest : Settles given (mid.1, mid.2.settle name x) st') :
      Settles ((name, body) :: given) st st'

variable {node : Node} {kind : Kind} {id x copy body : NodeId} {ids xs ys : List NodeId}
  {name : Option String} {given : List (String × NodeId)} {st mid st' : Store × Flattening}

/-! ### Growth -/

/-- `f'` has all names of `f`; those of the definitions stay at their places. -/
structure Flattening.Le (f f' : Flattening) : Prop where
  hoisted : ∀ name, name ∈ f.hoisted → name ∈ f'.hoisted
  keys : f.definitions.keys <+: f'.definitions.keys

theorem Flattening.Le.refl (f : Flattening) : f.Le f := ⟨fun _ h => h, List.prefix_refl _⟩

theorem Flattening.Le.trans {f f' f'' : Flattening} (h : f.Le f') (h' : f'.Le f'') : f.Le f'' where
  hoisted name hname := h'.hoisted name (h.hoisted name hname)
  keys := h.keys.trans h'.keys

theorem Flattening.le_hoist (name : String) (body : NodeId) (f : Flattening) :
    f.Le (f.hoist name body) where
  hoisted _ h := NameSet.mem_insert.2 (.inr h)
  keys := OrderedMap.keys_prefix_insert _ _ _

theorem Flattening.le_settle (name : String) (body : NodeId) (f : Flattening) :
    f.Le (f.settle name body) := by
  unfold settle
  split
  · exact .refl f
  · exact le_hoist name body f

theorem Flattening.mem_hoisted_settle (name : String) (body : NodeId) (f : Flattening) :
    name ∈ (f.settle name body).hoisted := by
  unfold settle
  split
  · assumption
  · exact NameSet.mem_insert.2 (.inl rfl)

/-- `st'` comes after `st`: nodes were added and names were hoisted. -/
structure Grows (st st' : Store × Flattening) : Prop where
  store : st.1.Extends st'.1
  flat : st.2.Le st'.2

theorem Grows.refl (st : Store × Flattening) : Grows st st := ⟨.refl _, .refl _⟩

theorem Grows.trans (h : Grows st mid) (h' : Grows mid st') : Grows st st' :=
  ⟨h.store.trans h'.store, h.flat.trans h'.flat⟩

theorem Rebuilds.grows (h : Rebuilds node kind id xs st copy st') : Grows st st' := by
  cases h with
  | same => exact .refl st
  | copy => exact ⟨Store.extends_insert _ _, .refl _⟩

theorem Leaves.grows (h : Leaves copy st name x st') : Grows st st' := by
  cases h with
  | copy => exact .refl st
  | occurrence name => exact ⟨Store.extends_insert _ _, Flattening.le_hoist _ _ _⟩

theorem Flattens.grows (h : Flattens ids st xs st') : Grows st st' := by
  induction h with
  | nil st => exact .refl st
  | dissolve _ _ _ _ _ _ ihlisted ihvisit ihrest => exact (ihlisted.trans ihvisit).trans ihrest
  | leave _ _ _ _ _ hcopy hleave _ ihkids ihrest =>
    exact ((ihkids.trans hcopy.grows).trans hleave.grows).trans ihrest

theorem FlattensBody.grows (h : FlattensBody body st x st') : Grows st st' := by
  cases h with
  | dissolve _ _ hvisit => exact hvisit.grows
  | rebuild _ _ _ _ hkids hcopy => exact hkids.grows.trans hcopy.grows

theorem Settles.grows (h : Settles given st st') : Grows st st' := by
  induction h with
  | nil st => exact .refl st
  | found _ _ ih => exact ih
  | @settle name body x given st mid st' _ hbody _ ih =>
    have hsettle : Grows mid (mid.1, mid.2.settle name x) :=
      ⟨.refl _, Flattening.le_settle name x mid.2⟩
    exact (hbody.grows.trans hsettle).trans ih

theorem Settles.hoisted (h : Settles given st st') : ∀ entry ∈ given, entry.1 ∈ st'.2.hoisted := by
  induction h with
  | nil => simp
  | found hname hrest ih =>
    intro entry hentry
    rcases List.mem_cons.1 hentry with rfl | hentry
    · exact hrest.grows.flat.hoisted _ hname
    · exact ih entry hentry
  | settle _ _ hrest ih =>
    intro entry hentry
    rcases List.mem_cons.1 hentry with rfl | hentry
    · exact hrest.grows.flat.hoisted _ (Flattening.mem_hoisted_settle _ _ _)
    · exact ih entry hentry

theorem Flattens.length_eq (h : Flattens ids st xs st') : ids.length = xs.length := by
  induction h with
  | nil => rfl
  | dissolve _ _ _ _ _ _ _ _ ih => exact congrArg Nat.succ ih
  | leave _ _ _ _ _ _ _ _ _ ih => exact congrArg Nat.succ ih

/-! ### Runs that go through -/

/-- Visits that go through are visits of the walk. -/
def Visiting (visit : NodeId → Pass Flattening NodeId) : Prop :=
  ∀ id x st st', visit id st = .ok x st' → Flattens [id] st [x] st'

theorem Flattens.cons (h : Flattens [id] st [x] mid) (hrest : Flattens ids mid xs st') :
    Flattens (id :: ids) st (x :: xs) st' := by
  cases h with
  | dissolve hnode hkind hinner hlisted hvisit hnil =>
    cases hnil
    exact .dissolve hnode hkind hinner hlisted hvisit hrest
  | leave hnode hkind hne hfits hkids hcopy hleave hnil =>
    cases hnil
    exact .leave hnode hkind hne hfits hkids hcopy hleave hrest

section Visits

variable {visit : NodeId → Pass Flattening NodeId} (hvisit : Visiting visit)

include hvisit

theorem flattens_of_mapM : ∀ {ids xs : List NodeId} {st st' : Store × Flattening},
    ids.mapM visit st = .ok xs st' → Flattens ids st xs st'
  | [], _, st, _, h => by
    rw [List.mapM_nil] at h
    obtain ⟨rfl, rfl⟩ := Pass.pure_eq_ok.1 h
    exact .nil st
  | id :: ids, _, st, _, h => by
    rw [List.mapM_cons] at h
    obtain ⟨x, mid, hid, h⟩ := Pass.bind_eq_ok.1 h
    obtain ⟨xs, last, hrest, h⟩ := Pass.bind_eq_ok.1 h
    obtain ⟨rfl, rfl⟩ := Pass.pure_eq_ok.1 h
    exact (hvisit id x st mid hid).cons (flattens_of_mapM hrest)

theorem flattens_of_visitListed : ∀ {ids : List NodeId} {u : Unit} {st st' : Store × Flattening},
    visitListed visit ids st = .ok u st' → ∃ xs, Flattens ids st xs st'
  | [], _, st, _, h => by
    obtain ⟨-, rfl⟩ := Pass.pure_eq_ok.1 h
    exact ⟨[], .nil st⟩
  | id :: ids, _, st, _, h => by
    obtain ⟨node, mid, hread, h⟩ := Pass.bind_eq_ok.1 h
    obtain ⟨-, rfl⟩ := Pass.node_eq_ok.1 hread
    split at h
    · exact absurd h Pass.throw_ne_ok
    · obtain ⟨x, mid, hid, h⟩ := Pass.bind_eq_ok.1 h
      obtain ⟨xs, hrest⟩ := flattens_of_visitListed h
      exact ⟨x :: xs, (hvisit id x st mid hid).cons hrest⟩

theorem rebuilds_of_mapChildren (h : mapChildren visit id st = .ok copy st') :
    ∃ node kind ys mid, st.1.get? id = some node ∧ node.kind? = some kind ∧
      node.misfit? kind = none ∧ Flattens (node.orderedChildren kind) st ys mid ∧
      Rebuilds node kind id ys mid copy st' := by
  obtain ⟨⟨node, kind⟩, mid, hlook, h⟩ := Pass.bind_eq_ok.1 h
  obtain ⟨hshape, rfl⟩ := Pass.look_eq_ok.1 hlook
  obtain ⟨hnode, hkind, hfits⟩ := Store.wellShaped_eq_ok.1 hshape
  obtain ⟨ys, mid, hmap, h⟩ := Pass.bind_eq_ok.1 h
  have hkids := flattens_of_mapM hvisit hmap
  refine ⟨node, kind, ys, mid, hnode, hkind, hfits, hkids, ?_⟩
  split at h
  · rename_i hsame
    obtain ⟨rfl, rfl⟩ := Pass.pure_eq_ok.1 h
    exact .same hsame
  · rename_i hother
    -- the node that is read again is still the same
    obtain ⟨current, last, hread, h⟩ := Pass.bind_eq_ok.1 h
    obtain ⟨hcurrent, rfl⟩ := Pass.node_eq_ok.1 hread
    rw [hkids.grows.store.get?_of_some hnode] at hcurrent
    cases hcurrent
    obtain ⟨rfl, rfl⟩ := Pass.insert_eq_ok.1 h
    exact .copy hother

end Visits

theorem Rebuilds.exists_alike {R : NodeId → NodeId → Prop}
    (h : Rebuilds node kind id xs st copy st') (hnode : st.1.get? id = some node)
    (hfits : node.misfit? kind = none) (hxs : List.Forall₂ R (node.orderedChildren kind) xs) :
    ∃ other, st'.1.get? copy = some other ∧ node.Alike R other := by
  cases h with
  | same h =>
    subst h
    refine ⟨node, hnode, .refl fun child hchild => ?_⟩
    exact List.forall₂_same.1 hxs child ((Node.mem_orderedChildren hfits).2 hchild)
  | copy => exact ⟨_, Store.get?_insert_nextId _ _, Node.alike_relink hfits hxs⟩

/-- **A visit that goes through is a visit of the walk** if the visits that it makes are. -/
theorem visiting_flattenVisitor {visit : NodeId → Pass Flattening NodeId}
    (hvisit : Visiting visit) :
    Visiting (flattenVisitor visit) := by
  intro id x st st' h
  obtain ⟨node, mid, hread, h⟩ := Pass.bind_eq_ok.1 h
  obtain ⟨hnode, rfl⟩ := Pass.node_eq_ok.1 hread
  split at h
  · rename_i hkind
    cases hinner : node.innerSchema? with
    | none =>
      simp only [hinner] at h
      exact absurd h Pass.throw_ne_ok
    | some inner =>
      simp only [hinner] at h
      obtain ⟨u, mid, hlisted, h⟩ := Pass.bind_eq_ok.1 h
      obtain ⟨ys, hlisted⟩ := flattens_of_visitListed hvisit hlisted
      exact .dissolve hnode hkind hinner hlisted (hvisit inner x mid st' h) (.nil st')
  · rename_i hplain
    obtain ⟨copy, built, hcopy, h⟩ := Pass.bind_eq_ok.1 h
    obtain ⟨node', kind, ys, mid, hnode', hkind, hfits, hkids, hcopy⟩ :=
      rebuilds_of_mapChildren hvisit hcopy
    rw [hnode] at hnode'
    cases hnode'
    have hne : kind ≠ .definitions := fun e => hplain (e ▸ hkind)
    -- the name is read off the copy
    obtain ⟨other, last, hread, h⟩ := Pass.bind_eq_ok.1 h
    obtain ⟨hother, rfl⟩ := Pass.node_eq_ok.1 hread
    obtain ⟨other', hother', halike⟩ := hcopy.exists_alike (R := fun _ _ => True)
      (hkids.grows.store.get?_of_some hnode) hfits
      (forall₂_of_length_eq hkids.length_eq)
    rw [hother] at hother'
    cases hother'
    rw [halike.name_eq] at h
    have hleave : Leaves copy built node.name x st' := by
      cases hname : node.name with
      | none =>
        simp only [hname] at h
        obtain ⟨rfl, rfl⟩ := Pass.pure_eq_ok.1 h
        exact .copy
      | some name =>
        simp only [hname] at h
        obtain ⟨_, mid', hhoist, h⟩ := Pass.bind_eq_ok.1 h
        cases Pass.modifyOwn_eq_ok.1 hhoist
        obtain ⟨rfl, rfl⟩ := Pass.insert_eq_ok.1 h
        exact .occurrence name
    exact .leave hnode hkind hne hfits hkids hcopy hleave (.nil st')

theorem visiting_walkWithin (depth : Nat) : Visiting (flattenVisitor.walkWithin depth) := by
  induction depth with
  | zero => exact fun _ _ _ _ h => absurd h Pass.throw_ne_ok
  | succ depth ih => exact visiting_flattenVisitor ih

theorem visiting_walk : Visiting flattenVisitor.walk :=
  fun id x st st' h => visiting_walkWithin _ id x st st' h

theorem flattensBody_of_flattenBody (h : flattenBody body st = .ok x st') :
    FlattensBody body st x st' := by
  obtain ⟨node, mid, hread, h⟩ := Pass.bind_eq_ok.1 h
  obtain ⟨hnode, rfl⟩ := Pass.node_eq_ok.1 hread
  split at h
  · rename_i hkind
    exact .dissolve hnode hkind (visiting_walk body x st st' h)
  · rename_i hplain
    obtain ⟨node', kind, ys, mid, hnode', hkind, hfits, hkids, hcopy⟩ :=
      rebuilds_of_mapChildren visiting_walk h
    rw [hnode] at hnode'
    cases hnode'
    exact .rebuild hnode hkind (fun e => hplain (e ▸ hkind)) hfits hkids hcopy

theorem settles_of_flattenGiven : ∀ {given : List (String × NodeId)} {u : Unit}
    {st st' : Store × Flattening}, flattenGiven given st = .ok u st' → Settles given st st'
  | [], _, st, _, h => by
    obtain ⟨-, rfl⟩ := Pass.pure_eq_ok.1 h
    exact .nil st
  | (name, body) :: given, _, st, _, h => by
    obtain ⟨f, mid, hown, h⟩ := Pass.bind_eq_ok.1 h
    obtain ⟨rfl, rfl⟩ := Pass.own_eq_ok.1 hown
    split at h
    · rename_i hname
      exact .found hname (settles_of_flattenGiven h)
    · rename_i hname
      obtain ⟨x, mid, hflatten, h⟩ := Pass.bind_eq_ok.1 h
      obtain ⟨_, last, hsettle, h⟩ := Pass.bind_eq_ok.1 h
      cases Pass.modifyOwn_eq_ok.1 hsettle
      exact .settle hname (flattensBody_of_flattenBody hflatten) (settles_of_flattenGiven h)

/-- **What a flattening that goes through has done**: a visit of the root, then the given
definitions. -/
theorem flattens_of_flattenReferences {σ : Type} {own : σ} {s : Store} {root flat : NodeId}
    {definitions all : Definitions} {st' : Store × σ}
    (h : flattenReferences root definitions (s, own) = .ok (flat, all) st') :
    ∃ mid f, Flattens [root] (s, { definitions }) [flat] mid ∧
      Settles definitions.entries mid (st'.1, f) ∧ f.definitions = all ∧ st'.2 = own := by
  obtain ⟨⟨x, f⟩, mid, hwithin, h⟩ := Pass.bind_eq_ok.1 h
  obtain ⟨⟨⟩, rfl⟩ := Pass.pure_eq_ok.1 h
  obtain ⟨hrun, hown⟩ := Pass.within_eq_ok.1 hwithin
  obtain ⟨x', mid', hroot, hrun⟩ := Pass.bind_eq_ok.1 hrun
  obtain ⟨_, last, hgiven, hrun⟩ := Pass.bind_eq_ok.1 hrun
  obtain ⟨rfl, rfl⟩ := Pass.pure_eq_ok.1 hrun
  exact ⟨mid', f, visiting_walk _ _ _ _ hroot, settles_of_flattenGiven hgiven, rfl, hown⟩

end SchemaGraph
