import SchemaGraph.Proofs.Calls

/-!
What mapping the children of a node does, for any callback that leaves the node itself alone. The
children are read once, in walking order, and handed to the callback one after the other; the node is
rebuilt from the answers, and the children of the copy, read in walking order again, are the answers.

* `Answers` — calls on a list of nodes that go through, each starting where the last one ended;
* `Node.SameFrame` — equal nodes but for the ids that they hold;
* `mapChildren_cases` — **mapping the children of a node**: what is called and what comes out.
-/

namespace SchemaGraph

open Pass (Moves)

variable {σ : Type} {visit : NodeId → Pass σ NodeId} {st last : Store × σ}
  {ids answers : List NodeId} {id : NodeId}

/-! ### Calls in order -/

/-- The calls on the nodes all go through, one after the other, and give the answers. -/
inductive Answers (visit : NodeId → Pass σ NodeId) :
    List NodeId → Store × σ → List NodeId → Store × σ → Prop where
  | nil {st : Store × σ} : Answers visit [] st [] st
  | cons {child answer : NodeId} {children answers : List NodeId} {st mid last : Store × σ}
      (hcall : visit child st = .ok answer mid)
      (hrest : Answers visit children mid answers last) :
      Answers visit (child :: children) st (answer :: answers) last

theorem Answers.length_eq (h : Answers visit ids st answers last) : ids.length = answers.length := by
  induction h with
  | nil => rfl
  | cons _ _ ih => rw [List.length_cons, List.length_cons, ih]

theorem Answers.moves {R : Store → Store → Prop} [IsPreorder Store R]
    (h : Answers visit ids st answers last) (hmoves : ∀ child, Moves R (visit child)) :
    R st.1 last.1 := by
  induction h with
  | nil => exact refl_of R _
  | cons hcall _ ih => exact trans_of R ((hmoves _).of_ok hcall) ih

theorem answers_of_mapM : ∀ {ids answers : List NodeId} {st last : Store × σ},
    ids.mapM visit st = .ok answers last → Answers visit ids st answers last
  | [], _, _, _, h => by
    rw [List.mapM_nil] at h
    obtain ⟨rfl, rfl⟩ := Pass.pure_eq_ok.1 h
    exact .nil
  | child :: ids, _, _, _, h => by
    rw [List.mapM_cons] at h
    obtain ⟨answer, mid, hcall, h⟩ := Pass.bind_eq_ok.1 h
    obtain ⟨answers, _, hrest, h⟩ := Pass.bind_eq_ok.1 h
    obtain ⟨rfl, rfl⟩ := Pass.pure_eq_ok.1 h
    exact .cons hcall (answers_of_mapM hrest)

theorem exists_failed_call {e : Error} : ∀ {ids : List NodeId} {st last : Store × σ},
    ids.mapM visit st = .error e last →
      ∃ before child after answers mid, ids = before ++ child :: after ∧
        Answers visit before st answers mid ∧ visit child mid = .error e last
  | [], _, _, h => by cases h
  | child :: ids, st, last, h => by
    rw [List.mapM_cons] at h
    rcases Pass.bind_eq_error.1 h with hfail | ⟨answer, mid, hcall, h⟩
    · exact ⟨[], child, ids, [], st, rfl, .nil, hfail⟩
    · rcases Pass.bind_eq_error.1 h with hrest | ⟨_, _, _, h⟩
      · obtain ⟨before, failing, after, answers, late, rfl, hbefore, hfail⟩ :=
          exists_failed_call hrest
        exact ⟨child :: before, failing, after, answer :: answers, late, rfl, .cons hcall hbefore,
          hfail⟩
      · cases h

/-! ### The copy -/

/-- The same node but for the ids that it holds: equal content, and children and serialization
arranged in the same way. -/
def Node.SameFrame (node other : Node) : Prop := node.Alike (fun _ _ => True) other

theorem Node.sameFrame_relink {node : Node} {kind : Kind} (hfits : node.misfit? kind = none)
    (h : (node.orderedChildren kind).length = ids.length) :
    node.SameFrame (node.relink kind node ids) :=
  alike_relink hfits (forall₂_of_length_eq h)

theorem childIds_relink {s : Store} {node : Node} {kind : Kind} (hkind : node.kind? = some kind)
    (hfits : node.misfit? kind = none) (h : (node.orderedChildren kind).length = ids.length) :
    (s.insert (node.relink kind node ids)).childIds s.nextId = .ok ids := by
  have hframe := Node.sameFrame_relink hfits h
  exact Store.childIds_eq_ok.2 ⟨_, kind, Store.get?_insert_nextId _ _, hframe.kind?_eq.trans hkind,
    hframe.fits hfits, Node.orderedChildren_relink h⟩

/-- What mapping the children comes to when the calls go through and leave the node alone. -/
theorem mapChildren_eq_of_calls {node : Node} {kind : Kind}
    (hshaped : st.1.wellShaped id = .ok (node, kind))
    (hcalls : (node.orderedChildren kind).mapM visit st = .ok answers last)
    (hlast : last.1.get? id = some node) :
    mapChildren visit id st = if answers = node.orderedChildren kind then .ok id last
      else .ok last.1.nextId (last.1.insert (node.relink kind node answers), last.2) := by
  have hread : Pass.look (·.wellShaped id) st = .ok (node, kind) st :=
    Pass.look_eq_ok.2 ⟨hshaped, rfl⟩
  have hnode : Pass.node id last = .ok node last := Pass.node_eq_ok.2 ⟨hlast, rfl⟩
  simp only [mapChildren, bind, EStateM.bind, hread, hcalls]
  split
  · rfl
  · exact Pass.bind_eq_ok.2 ⟨node, last, hnode, rfl⟩

/-- **Mapping the children of a node**, with a callback that leaves the node alone and may do anything
else. A node that walks may not enter is refused before the first call. Otherwise the calls are made
on the children in walking order. The first one that fails ends it with its error. If all children
come back as they are, so does the node, and nothing is done beyond the calls. If not, there is one
node more, the last one: the same as the old one but for its ids, with the answers as its children. -/
theorem mapChildren_cases (hspares : ∀ child, Moves (Store.Spares id) (visit child))
    (st : Store × σ) :
    match st.1.childIds id with
    | .error e => mapChildren visit id st = .error e st
    | .ok ids =>
      (∃ before child after answers mid e last,
        ids = before ++ child :: after ∧ Answers visit before st answers mid ∧
          visit child mid = .error e last ∧ mapChildren visit id st = .error e last) ∨
      (∃ last, Answers visit ids st ids last ∧ mapChildren visit id st = .ok id last) ∨
      ∃ answers last node copy, Answers visit ids st answers last ∧ answers ≠ ids ∧
        mapChildren visit id st = .ok last.1.nextId (last.1.insert copy, last.2) ∧
        st.1.size ≤ last.1.size ∧
        (last.1.insert copy).childIds last.1.nextId = .ok answers ∧
        st.1.get? id = some node ∧ node.SameFrame copy ∧
        (last.1.insert copy).get? id = some node := by
  cases hshaped : st.1.wellShaped id with
  | error e =>
    have hids : st.1.childIds id = .error e := by rw [Store.childIds, hshaped]; rfl
    have hread : Pass.look (·.wellShaped id) st = .error e st := by simp only [Pass.look, hshaped]
    rw [hids]
    exact Pass.bind_eq_error.2 (.inl hread)
  | ok entered =>
    obtain ⟨node, kind⟩ := entered
    obtain ⟨hnode, hkind, hfits⟩ := Store.wellShaped_eq_ok.1 hshaped
    have hids : st.1.childIds id = .ok (node.orderedChildren kind) :=
      Store.childIds_eq_ok.2 ⟨node, kind, hnode, hkind, hfits, rfl⟩
    have hread : Pass.look (·.wellShaped id) st = .ok (node, kind) st :=
      Pass.look_eq_ok.2 ⟨hshaped, rfl⟩
    rw [hids]
    cases hcalls : (node.orderedChildren kind).mapM visit st with
    | error e last =>
      obtain ⟨before, child, after, answers, mid, hsplit, hbefore, hfail⟩ :=
        exists_failed_call hcalls
      refine .inl ⟨before, child, after, answers, mid, e, last, hsplit, hbefore, hfail, ?_⟩
      exact Pass.bind_eq_error.2 (.inr ⟨_, _, hread, Pass.bind_eq_error.2 (.inl hcalls)⟩)
    | ok answers last =>
      have hanswers := answers_of_mapM hcalls
      have hkept := hanswers.moves hspares
      have hlast : last.1.get? id = some node :=
        (hkept.get?_eq (Store.lt_size_of_get? hnode)).trans hnode
      have hresult := mapChildren_eq_of_calls hshaped hcalls hlast
      refine .inr ?_
      by_cases hsame : answers = node.orderedChildren kind
      · rw [if_pos hsame] at hresult
        exact .inl ⟨last, hsame ▸ hanswers, hresult⟩
      · rw [if_neg hsame] at hresult
        exact .inr ⟨answers, last, node, node.relink kind node answers, hanswers, hsame, hresult,
          hkept.size_le, childIds_relink hkind hfits hanswers.length_eq, hnode,
          Node.sameFrame_relink hfits hanswers.length_eq,
          (Store.extends_insert _ _).get?_of_some hlast⟩

/-- A union of two choices, one labelled, with the labelled schema as its serialization too. -/
def unionStore : Store := ⟨#[
  .ofKind .str,
  .ofKind .int,
  ((Node.ofKind .union).withChild "choices"
    (.choices [⟨⟨0⟩, some "text"⟩, ⟨⟨1⟩, none⟩])).withSerialization ⟨0⟩]⟩

/-- Gives a new node for the first one of a store and leaves the others. -/
def renewFirst (child : NodeId) : StoreM NodeId :=
  if child = ⟨0⟩ then Pass.insert (.ofKind .any) else pure child

def renewedStore : Store := (((unionStore.insert (.ofKind .any)).insert (.ofKind .any)).insert
  (((Node.ofKind .union).withChild "choices"
    (.choices [⟨⟨3⟩, some "text"⟩, ⟨⟨1⟩, none⟩])).withSerialization ⟨4⟩))

/-- The schema that comes twice is renewed twice, and the union is rebuilt over the answers. -/
theorem renewedStore_cases :
    mapChildren renewFirst ⟨2⟩ (unionStore, ()) = .ok ⟨5⟩ (renewedStore, ()) ∧
      ∃ last node copy, Answers renewFirst [⟨0⟩, ⟨1⟩, ⟨0⟩] (unionStore, ()) [⟨3⟩, ⟨1⟩, ⟨4⟩] last ∧
        last.1.insert copy = renewedStore ∧ unionStore.get? ⟨2⟩ = some node ∧
        node.SameFrame copy := by
  have hspares : ∀ child, Moves (Store.Spares ⟨2⟩) (renewFirst child) := by
    intro child
    unfold renewFirst
    split
    · exact .insert
    · exact .pure
  have hids : unionStore.childIds ⟨2⟩ = .ok [⟨0⟩, ⟨1⟩, ⟨0⟩] := by decide +kernel
  have hrun : mapChildren renewFirst ⟨2⟩ (unionStore, ()) = .ok ⟨5⟩ (renewedStore, ()) := by
    decide +kernel
  refine ⟨hrun, ?_⟩
  have hcases := mapChildren_cases hspares (unionStore, ())
  simp only [hids, hrun] at hcases
  rcases hcases with ⟨_, _, _, _, _, _, _, _, _, _, hfail⟩ | ⟨_, _, hsame⟩ |
    ⟨answers, last, node, copy, hanswers, -, hresult, -, hnew, hnode, hframe, -⟩
  · cases hfail
  · cases hsame
  · obtain ⟨hid, hstore⟩ : ⟨5⟩ = last.1.nextId ∧ (renewedStore, ()) = (last.1.insert copy, last.2) := by
      simpa using hresult
    obtain rfl : answers = [⟨3⟩, ⟨1⟩, ⟨4⟩] := by
      have hread : renewedStore.childIds ⟨5⟩ = .ok [⟨3⟩, ⟨1⟩, ⟨4⟩] := by decide +kernel
      rw [← hid, ← (Prod.mk.inj hstore).1, hread] at hnew
      cases hnew
      rfl
    exact ⟨last, node, copy, hanswers, (Prod.mk.inj hstore).1.symm, hnode, hframe⟩

end SchemaGraph
