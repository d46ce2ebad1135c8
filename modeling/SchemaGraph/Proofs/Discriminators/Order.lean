import SchemaGraph.Proofs.Calls
import SchemaGraph.Proofs.Unshared

/-!
Replacing marked nodes in a tree that comes to each of its nodes once, with any key and any
replacement. A node is replaced after those below it, and no node sees another child than before, so
each marked node of the old tree is asked about once.

* `Store.postorder`, `Store.marks` — the tree in post-order, and the marked nodes in this order;
* `Asked` — questions put one after the other, each to the store with the earlier answers in place;
* `ended_walkWithin` — a walk puts the questions of its tree in post-order, or fails with the first
  one that is not answered;
* `applyDiscriminators_cases` — **replacing the marked nodes of a tree**.
-/

namespace SchemaGraph

variable {σ α β : Type} {s : Store} {key : String} {id x : NodeId} {P : Node → Prop}

/-! ### Marks -/

/-- The discriminator for which a node is replaced; tagged unions have none. -/
def Node.mark? (key : String) (node : Node) : Option Json :=
  if node.kind? = some .taggedUnion then none else node.metadataValue? key

namespace Store

/-- The discriminator of the node at `id`, if it is marked. -/
def mark? (s : Store) (key : String) (id : NodeId) : Option Json := (s.get? id).bind (Node.mark? key)

def marksAmong (s : Store) (key : String) (ids : List NodeId) : List (NodeId × Json) :=
  ids.filterMap fun id => (s.mark? key id).map fun discriminator => (id, discriminator)

/-- The nodes of the tree at `id`, each after those below it, down to a depth. -/
def postorderWithin (s : Store) : (depth : Nat) → NodeId → List NodeId
  | 0, _ => []
  | depth + 1, id => ((s.childIds id).toOption.getD []).flatMap (s.postorderWithin depth) ++ [id]

def postorder (s : Store) (root : NodeId) : List NodeId := s.postorderWithin s.depthLimit root

/-- The marked nodes of the tree at `root` in post-order, with their discriminators. -/
def marks (s : Store) (key : String) (root : NodeId) : List (NodeId × Json) :=
  s.marksAmong key (s.postorder root)

@[simp]
theorem marksAmong_append (ids others : List NodeId) :
    s.marksAmong key (ids ++ others) = s.marksAmong key ids ++ s.marksAmong key others :=
  List.filterMap_append

theorem mem_marksAmong {ids : List NodeId} {discriminator : Json} :
    (id, discriminator) ∈ s.marksAmong key ids ↔ id ∈ ids ∧ s.mark? key id = some discriminator := by
  simp only [marksAmong, List.mem_filterMap, Option.map_eq_some_iff, Prod.mk.injEq]
  constructor
  · rintro ⟨x, hx, _, hmark, rfl, rfl⟩
    exact ⟨hx, hmark⟩
  · rintro ⟨hid, hmark⟩
    exact ⟨id, hid, discriminator, hmark, rfl, rfl⟩

theorem map_fst_marksAmong (ids : List NodeId) :
    (s.marksAmong key ids).map Prod.fst = ids.filter fun id => (s.mark? key id).isSome := by
  induction ids with
  | nil => rfl
  | cons id ids ih =>
    unfold marksAmong at ih ⊢
    cases hmark : s.mark? key id <;> simp [hmark, ih]

/-! ### Post-order -/

theorem postorderWithin_succ {depth : Nat} {ids : List NodeId} (h : s.childIds id = .ok ids) :
    s.postorderWithin (depth + 1) id = ids.flatMap (s.postorderWithin depth) ++ [id] := by
  rw [postorderWithin, h]
  rfl

theorem postorderWithin_perm : ∀ (depth : Nat) (id : NodeId),
    (s.postorderWithin depth id).Perm (s.treeWithin depth id)
  | 0, _ => .refl _
  | depth + 1, id => by
    rw [postorderWithin, treeWithin]
    refine List.perm_append_comm.trans (List.Perm.cons id ?_)
    exact List.Perm.flatMap_left _ fun child _ => postorderWithin_perm depth child

theorem Grounded.postorder_perm {ids : List NodeId} (h : s.Grounded P id)
    (hids : s.preorder id = .ok ids) : (s.postorder id).Perm ids := by
  rw [h.preorder_eq] at hids
  cases hids
  exact postorderWithin_perm _ _

theorem Grounded.mem_postorderWithin {depth : Nat} (h : s.Grounded P id) (hreach : s.Reach depth id) :
    x ∈ s.postorderWithin depth id ↔ s.Below id x := by
  rw [(postorderWithin_perm depth id).mem_iff, treeWithin_eq hreach h.reach_depthLimit]
  exact mem_preorder h.preorder_eq

/-- No node comes before one that is below it. -/
theorem Grounded.pairwise_postorderWithin {depth : Nat} : ∀ {id : NodeId}, s.Grounded P id →
    s.Reach depth id → (s.postorderWithin depth id).Nodup →
      (s.postorderWithin depth id).Pairwise fun earlier later => ¬ s.Below earlier later := by
  induction depth with
  | zero => exact fun _ hreach => absurd hreach not_reach_zero
  | succ depth ih =>
    intro id h hreach hnodup
    obtain ⟨ids, hids, hkids⟩ := h.childIds
    have hchild : ∀ child ∈ ids, s.Reach depth child := fun child hmem =>
      hreach.child ⟨ids, hids, hmem⟩
    rw [postorderWithin_succ hids] at hnodup ⊢
    obtain ⟨hbefore, -, -⟩ := List.nodup_append.1 hnodup
    obtain ⟨hown, hapart⟩ := List.nodup_flatMap.1 hbefore
    refine List.pairwise_append.2 ⟨List.pairwise_flatMap.2 ⟨fun child hmem =>
      ih (hkids child hmem) (hchild child hmem) (hown child hmem), ?_⟩, List.pairwise_singleton _ _, ?_⟩
    · -- what is below a node of one child's tree is in that tree
      refine hapart.imp_of_mem fun {a b} ha hb hdisjoint x hx y hy hxy => ?_
      have hax := ((hkids a ha).mem_postorderWithin (hchild a ha)).1 hx
      exact hdisjoint (((hkids a ha).mem_postorderWithin (hchild a ha)).2 (hax.trans hxy)) hy
    · intro x hx y hy hxy
      obtain rfl := List.mem_singleton.1 hy
      obtain ⟨child, hmem, hx⟩ := List.mem_flatMap.1 hx
      have hback := (((hkids child hmem).mem_postorderWithin (hchild child hmem)).1 hx).trans hxy
      exact h.not_transGen_isChild (.head' ⟨ids, hids, hmem⟩ hback)

/-- The marked nodes strictly below one come before it. -/
theorem Grounded.mem_before {before rest : List (NodeId × Json)} {discriminator : Json} {y : NodeId}
    (h : s.Grounded P id) (hnodup : (s.postorder id).Nodup)
    (hmarks : s.marks key id = before ++ (x, discriminator) :: rest)
    (hy : Relation.TransGen s.IsChild x y) (hmark : (s.mark? key y).isSome) :
    y ∈ before.map Prod.fst := by
  have hreach := h.reach_depthLimit
  have hids : (s.postorder id).filter (fun id => (s.mark? key id).isSome) =
      before.map Prod.fst ++ x :: rest.map Prod.fst := by
    rw [← map_fst_marksAmong, show s.marksAmong key (s.postorder id) = _ from hmarks]
    simp
  have hx : s.Below id x := by
    have hmem : x ∈ before.map Prod.fst ++ x :: rest.map Prod.fst := by simp
    rw [← hids] at hmem
    exact (h.mem_postorderWithin hreach).1 (List.mem_filter.1 hmem).1
  have hybelow : y ∈ before.map Prod.fst ++ x :: rest.map Prod.fst := by
    rw [← hids]
    exact List.mem_filter.2 ⟨(h.mem_postorderWithin hreach).2 (hx.trans hy.to_reflTransGen), hmark⟩
  have horder := (h.pairwise_postorderWithin hreach hnodup).filter fun id => (s.mark? key id).isSome
  rw [show (s.postorderWithin s.depthLimit id).filter _ = _ from hids] at horder
  have hlater := (List.pairwise_cons.1 (List.pairwise_append.1 horder).2.1).1
  rcases List.mem_append.1 hybelow with hy' | hy'
  · exact hy'
  rcases List.mem_cons.1 hy' with rfl | hy'
  · exact absurd hy (h.of_below hx).not_transGen_isChild
  · exact absurd hy.to_reflTransGen (hlater y hy')

end Store

/-! ### At one node -/

section Replace

variable {replacement : Replacement σ} {st : Store × σ} {node : Node}

/-- What is done at a node after its children. -/
def replaceMarked (key : String) (replacement : Replacement σ) (id : NodeId) : Pass σ NodeId := do
  let node ← Pass.node id
  if node.kind? = some .taggedUnion then pure id
  else
    match node.metadataValue? key with
    | none => pure id
    | some discriminator =>
      let new ← replacement.ask id discriminator
      let _ ← Pass.replace id new
      pure id

theorem discriminatorVisitor_eq (visit : NodeId → Pass σ NodeId) (id : NodeId) :
    discriminatorVisitor key replacement visit id =
      mapChildren visit id >>= replaceMarked key replacement := rfl

theorem replaceMarked_of_none (hnode : st.1.get? id = some node) (hmark : node.mark? key = none) :
    replaceMarked key replacement id st = .ok id st := by
  refine Pass.bind_eq_ok.2 ⟨node, st, Pass.node_eq_ok.2 ⟨hnode, rfl⟩, ?_⟩
  unfold Node.mark? at hmark
  split at hmark
  · rename_i hkind
    rw [if_pos hkind]
    rfl
  · rename_i hkind
    rw [if_neg hkind, hmark]
    rfl

theorem replaceMarked_of_some {discriminator : Json} (hnode : st.1.get? id = some node)
    (hmark : node.mark? key = some discriminator) :
    replaceMarked key replacement id st =
      match replacement st.1 id discriminator st.2 with
      | .ok new own => .ok id (st.1.set id new, own)
      | .error e own => .error e (st.1, own) := by
  obtain ⟨s, own⟩ := st
  have hread : Pass.node id (s, own) = .ok node (s, own) := Pass.node_eq_ok.2 ⟨hnode, rfl⟩
  unfold Node.mark? at hmark
  split at hmark
  · cases hmark
  rename_i hkind
  simp only [replaceMarked, bind, EStateM.bind, hread, if_neg hkind, hmark, Replacement.ask]
  cases replacement s id discriminator own with
  | error e own' => rfl
  | ok new own' =>
    have hreplace : Pass.replace id new (s, own') = .ok node (s.set id new, own') :=
      Pass.replace_eq_ok.2 ⟨hnode, rfl⟩
    simp only [hreplace]
    rfl

end Replace

/-! ### Questions in order -/

/-- A question that was put, and the node that was given for an answer. -/
structure Answered where
  id : NodeId
  discriminator : Json
  node : Node

def Answered.mark (call : Answered) : NodeId × Json := (call.id, call.discriminator)

/-- The questions are put one after the other and all answered. Each is put to the store in which
the earlier answers are in place, and with the data that the one before has left. -/
inductive Asked (replacement : Replacement σ) : List Answered → Store × σ → Store × σ → Prop where
  | nil {st : Store × σ} : Asked replacement [] st st
  | cons {call : Answered} {calls : List Answered} {s : Store} {own own' : σ} {last : Store × σ}
      (hanswer : replacement s call.id call.discriminator own = .ok call.node own')
      (hrest : Asked replacement calls (s.set call.id call.node, own') last) :
      Asked replacement (call :: calls) (s, own) last

/-- `s'` is `s` with the answers in their places. -/
structure Store.Replaced (s : Store) (calls : List Answered) (s' : Store) : Prop where
  size_eq : s'.size = s.size
  answered : ∀ call ∈ calls, s'.get? call.id = some call.node
  other : ∀ x, x ∉ calls.map Answered.id → s'.get? x = s.get? x

variable {replacement : Replacement σ} {calls more : List Answered} {st mid last : Store × σ}

theorem Asked.append (h : Asked replacement calls st mid) (hmore : Asked replacement more mid last) :
    Asked replacement (calls ++ more) st last := by
  induction h with
  | nil => exact hmore
  | cons hanswer _ ih => exact .cons hanswer (ih hmore)

/-- What had been asked when it came to a question. -/
theorem Asked.split {before after : List Answered} {call : Answered} :
    Asked replacement (before ++ call :: after) st last →
      ∃ seen own', Asked replacement before st seen ∧
        replacement seen.1 call.id call.discriminator seen.2 = .ok call.node own' := by
  intro h
  induction before generalizing st with
  | nil =>
    cases h with
    | cons hanswer _ => exact ⟨_, _, .nil, hanswer⟩
  | cons first before ih =>
    cases h with
    | cons hanswer hrest =>
      obtain ⟨seen, own', hbefore, hcall⟩ := ih hrest
      exact ⟨seen, own', .cons hanswer hbefore, hcall⟩

theorem Asked.size_eq (h : Asked replacement calls st last) : last.1.size = st.1.size := by
  induction h with
  | nil => rfl
  | cons _ _ ih => rw [ih, Store.size_set]

theorem Asked.get?_eq (h : Asked replacement calls st last) (hx : x ∉ calls.map Answered.id) :
    last.1.get? x = st.1.get? x := by
  induction h with
  | nil => rfl
  | cons _ _ ih =>
    obtain ⟨hne, hx⟩ := not_or.1 fun hmem => hx (List.mem_cons.2 hmem)
    rw [ih hx, Store.get?_set_of_ne _ hne]

/-- Questions about different nodes of the store leave the answers in their places. -/
theorem Asked.replaced (h : Asked replacement calls st last)
    (hnodup : (calls.map Answered.id).Nodup)
    (hsize : ∀ call ∈ calls, call.id.index < st.1.size) : st.1.Replaced calls last.1 := by
  refine ⟨h.size_eq, ?_, fun x hx => h.get?_eq hx⟩
  induction h with
  | nil => simp
  | @cons first calls s own own' last _ hrest ih =>
    obtain ⟨hfresh, hnodup⟩ := List.nodup_cons.1 hnodup
    intro call hcall
    rcases List.mem_cons.1 hcall with rfl | hcall
    · rw [hrest.get?_eq hfresh]
      exact Store.get?_set_self _ (hsize _ List.mem_cons_self)
    · refine ih hnodup (fun call hcall => ?_) call hcall
      rw [Store.size_set]
      exact hsize call (List.mem_cons_of_mem _ hcall)

/-! ### Walks -/

/-- How a pass ends that puts the questions about the marked nodes among `ids`, in their order, and
returns `a`: all are answered, or it fails with the error of the first one that is not. -/
def Ended (s : Store) (key : String) (replacement : Replacement σ) (ids : List NodeId)
    (st : Store × σ) (a : α) : EStateM.Result Error (Store × σ) α → Prop
  | .ok b last => b = a ∧ ∃ calls, calls.map Answered.mark = s.marksAmong key ids ∧
      Asked replacement calls st last
  | .error e last => ∃ calls id discriminator rest own,
      s.marksAmong key ids = calls.map Answered.mark ++ (id, discriminator) :: rest ∧
      Asked replacement calls st (last.1, own) ∧
      replacement last.1 id discriminator own = .error e last.2

namespace Ended

variable {ids others : List NodeId} {a : α} {b : β} {f : α → Pass σ β} {pass : Pass σ α}

protected theorem pure : Ended s key replacement [] st a ((pure a : Pass σ α) st) :=
  ⟨rfl, [], rfl, .nil⟩

theorem get?_eq_of_asked (h : Asked replacement calls st last)
    (hcalls : calls.map Answered.mark = s.marksAmong key ids) (hx : x ∉ ids) :
    last.1.get? x = st.1.get? x := by
  refine h.get?_eq fun hmem => hx ?_
  obtain ⟨call, hcall, rfl⟩ := List.mem_map.1 hmem
  exact (Store.mem_marksAmong.1 (hcalls ▸ List.mem_map.2 ⟨call, hcall, rfl⟩)).1

/-- What comes later is asked later, about a store in which only earlier nodes have changed. -/
protected theorem bind (h : Ended s key replacement ids st a (pass st))
    (hf : ∀ mid, (∀ x, x ∉ ids → mid.1.get? x = st.1.get? x) →
      Ended s key replacement others mid b (f a mid)) :
    Ended s key replacement (ids ++ others) st b ((pass >>= f) st) := by
  simp only [bind, EStateM.bind]
  cases hpass : pass st with
  | error e last =>
    rw [hpass] at h
    obtain ⟨calls, id, discriminator, rest, own, hmarks, hasked, hfail⟩ := h
    refine ⟨calls, id, discriminator, rest ++ s.marksAmong key others, own, ?_, hasked, hfail⟩
    rw [Store.marksAmong_append, hmarks, List.append_assoc, List.cons_append]
  | ok a' mid =>
    rw [hpass] at h
    obtain ⟨rfl, calls, hcalls, hasked⟩ := h
    have hrest := hf mid fun x hx => get?_eq_of_asked hasked hcalls hx
    dsimp only
    cases hlater : f a' mid with
    | error e last =>
      rw [hlater] at hrest
      obtain ⟨more, id, discriminator, rest, own, hmarks, hmore, hfail⟩ := hrest
      refine ⟨calls ++ more, id, discriminator, rest, own, ?_, hasked.append hmore, hfail⟩
      rw [Store.marksAmong_append, hmarks, ← hcalls, List.map_append, List.append_assoc]
    | ok b' last =>
      rw [hlater] at hrest
      obtain ⟨rfl, more, hmore, hasked'⟩ := hrest
      refine ⟨rfl, calls ++ more, ?_, hasked.append hasked'⟩
      rw [Store.marksAmong_append, List.map_append, hcalls, hmore]

end Ended

/-- Visits of trees that are apart put the questions of one after those of another. -/
theorem ended_mapM {visit : NodeId → Pass σ NodeId} {tree : NodeId → List NodeId} :
    ∀ {ids : List NodeId} {st : Store × σ},
      (∀ id ∈ ids, ∀ st : Store × σ, (∀ x ∈ tree id, st.1.get? x = s.get? x) →
        Ended s key replacement (tree id) st id (visit id st)) →
      (ids.flatMap tree).Nodup → (∀ x ∈ ids.flatMap tree, st.1.get? x = s.get? x) →
        Ended s key replacement (ids.flatMap tree) st ids (ids.mapM visit st)
  | [], st, _, _, _ => .pure
  | id :: ids, st, hvisit, hnodup, hsame => by
    rw [List.flatMap_cons] at hnodup hsame ⊢
    obtain ⟨-, hrest, hapart⟩ := List.nodup_append.1 hnodup
    rw [List.mapM_cons]
    refine (hvisit id List.mem_cons_self st fun x hx =>
      hsame x (List.mem_append_left _ hx)).bind fun mid hmid => ?_
    have hids : Ended s key replacement (ids.flatMap tree) mid ids (ids.mapM visit mid) := by
      refine ended_mapM (fun x hx => hvisit x (List.mem_cons_of_mem _ hx)) hrest fun x hx => ?_
      rw [hmid x fun hmem => hapart x hmem x hx rfl]
      exact hsame x (List.mem_append_right _ hx)
    rw [← List.append_nil (ids.flatMap tree)]
    exact hids.bind fun _ _ => .pure

theorem ended_mapChildren {visit : NodeId → Pass σ NodeId} {tree : NodeId → List NodeId}
    {ids : List NodeId} (hids : s.childIds id = .ok ids) (hid : st.1.get? id = s.get? id)
    (hvisit : ∀ child ∈ ids, ∀ st : Store × σ, (∀ x ∈ tree child, st.1.get? x = s.get? x) →
      Ended s key replacement (tree child) st child (visit child st))
    (hnodup : (ids.flatMap tree).Nodup) (hsame : ∀ x ∈ ids.flatMap tree, st.1.get? x = s.get? x) :
    Ended s key replacement (ids.flatMap tree) st id (mapChildren visit id st) := by
  obtain ⟨node, kind, hnode, hkind, hfits, rfl⟩ := Store.childIds_eq_ok.1 hids
  have hlook : Ended s key replacement [] st (node, kind)
      ((Pass.look (·.wellShaped id) : Pass σ (Node × Kind)) st) := by
    have hshaped : st.1.wellShaped id = .ok (node, kind) :=
      Store.wellShaped_eq_ok.2 ⟨hid.trans hnode, hkind, hfits⟩
    simp only [Pass.look, hshaped]
    exact .pure
  rw [← List.nil_append (List.flatMap tree _)]
  refine hlook.bind fun mid hmid => ?_
  rw [← List.append_nil (List.flatMap tree _)]
  refine (ended_mapM hvisit hnodup fun x hx => ?_).bind fun last _ => ?_
  · rw [hmid x List.not_mem_nil]
    exact hsame x hx
  · rw [if_pos rfl]
    exact .pure

theorem ended_replaceMarked {node : Node} (hnode : s.get? id = some node)
    (hid : st.1.get? id = s.get? id) :
    Ended s key replacement [id] st id (replaceMarked key replacement id st) := by
  have hread : st.1.get? id = some node := hid.trans hnode
  have hfound : s.mark? key id = node.mark? key := by rw [Store.mark?, hnode, Option.bind_some]
  cases hmark : node.mark? key with
  | none =>
    have hmarks : s.marksAmong key [id] = [] := by simp [Store.marksAmong, hfound, hmark]
    rw [replaceMarked_of_none hread hmark]
    exact ⟨rfl, [], hmarks.symm, .nil⟩
  | some discriminator =>
    have hmarks : s.marksAmong key [id] = [(id, discriminator)] := by
      simp [Store.marksAmong, hfound, hmark]
    rw [replaceMarked_of_some hread hmark]
    obtain ⟨s, own⟩ := st
    cases hanswer : replacement s id discriminator own with
    | error e own' => exact ⟨[], id, discriminator, [], own, hmarks, .nil, hanswer⟩
    | ok new own' =>
      exact ⟨rfl, [⟨id, discriminator, new⟩], hmarks.symm, .cons hanswer .nil⟩

/-- **A walk puts the questions of its tree in post-order.** -/
theorem ended_walkWithin : ∀ {depth : Nat} {id : NodeId} {st : Store × σ}, s.Grounded P id →
    s.Reach depth id → (s.postorderWithin depth id).Nodup →
      (∀ x ∈ s.postorderWithin depth id, st.1.get? x = s.get? x) →
        Ended s key replacement (s.postorderWithin depth id) st id
          ((discriminatorVisitor key replacement).walkWithin depth id st)
  | 0, _, _, _, hreach, _, _ => absurd hreach Store.not_reach_zero
  | depth + 1, id, st, h, hreach, hnodup, hsame => by
    obtain ⟨ids, hids, hkids⟩ := h.childIds
    obtain ⟨node, hnode, -⟩ := h.exists_node
    rw [Store.postorderWithin_succ hids] at hnodup hsame ⊢
    obtain ⟨hbefore, -, hapart⟩ := List.nodup_append.1 hnodup
    have hid := hsame id (by simp)
    refine (ended_mapChildren hids hid (fun child hchild st hchildsame => ?_) hbefore fun x hx =>
      hsame x (List.mem_append_left _ hx)).bind fun mid hmid => ended_replaceMarked hnode ?_
    · exact ended_walkWithin (hkids child hchild) (hreach.child ⟨ids, hids, hchild⟩)
        ((List.nodup_flatMap.1 hbefore).1 child hchild) hchildsame
    · rw [hmid id fun hmem => hapart id hmem id (List.mem_singleton.2 rfl) rfl]
      exact hid

/-! ### Passes -/

/-- The calls were made in this order, starting with `s` and `own`, and ended in `last`. Each saw
exactly the earlier answers in place, those about all marked nodes strictly below its own among them. -/
structure Store.Rewritten (s : Store) (key : String) (replacement : Replacement σ) (own : σ)
    (calls : List Answered) (last : Store × σ) : Prop where
  asked : Asked replacement calls (s, own) last
  replaced : s.Replaced calls last.1
  sees : ∀ before call after, calls = before ++ call :: after → ∃ seen own',
    replacement seen.1 call.id call.discriminator seen.2 = .ok call.node own' ∧
      Asked replacement before (s, own) seen ∧ s.Replaced before seen.1 ∧
      ∀ x, Relation.TransGen s.IsChild call.id x → (s.mark? key x).isSome →
        x ∈ before.map Answered.id

theorem Answered.map_fst_mark (calls : List Answered) :
    (calls.map Answered.mark).map Prod.fst = calls.map Answered.id := by
  rw [List.map_map]
  rfl

/-- The first questions about the marked nodes of a tree, answered in post-order. -/
theorem Asked.rewritten {own : σ} {rest : List (NodeId × Json)} (h : s.Grounded P id)
    (hnodup : (s.postorder id).Nodup) (hmarks : s.marks key id = calls.map Answered.mark ++ rest)
    (hasked : Asked replacement calls (s, own) last) :
    s.Rewritten key replacement own calls last := by
  have hids : ((s.marks key id).map Prod.fst).Nodup := by
    rw [Store.marks, Store.map_fst_marksAmong]
    exact hnodup.filter _
  rw [hmarks, List.map_append, Answered.map_fst_mark] at hids
  have hcalls := (List.nodup_append.1 hids).1
  have hsize : ∀ call ∈ calls, call.id.index < s.size := by
    intro call hcall
    have hmem : call.mark ∈ s.marks key id :=
      hmarks ▸ List.mem_append_left _ (List.mem_map_of_mem hcall)
    obtain ⟨-, hmark⟩ := Store.mem_marksAmong.1 hmem
    obtain ⟨node, hnode, -⟩ := Option.bind_eq_some_iff.1 hmark
    exact Store.lt_size_of_get? hnode
  refine ⟨hasked, hasked.replaced hcalls hsize, ?_⟩
  rintro before call after rfl
  obtain ⟨seen, own', hbefore, hanswer⟩ := hasked.split
  refine ⟨seen, own', hanswer, hbefore, hbefore.replaced ?_ ?_, fun x hx hmark => ?_⟩
  · rw [List.map_append] at hcalls
    exact (List.nodup_append.1 hcalls).1
  · exact fun call hcall => hsize call (List.mem_append_left _ hcall)
  · rw [← Answered.map_fst_mark]
    have hsplit : s.marks key id = before.map Answered.mark ++
        (call.id, call.discriminator) :: (after.map Answered.mark ++ rest) := by
      rw [hmarks, List.map_append, List.append_assoc]
      rfl
    exact h.mem_before hnodup hsplit hx hmark

/-- **Replacing the marked nodes of a tree** that the walk in pre-order lists without repetition. The
marked nodes in post-order are those of the list, each once. If the pass goes through, it returns the
root and has asked about each of them in this order, with its own discriminator; what is left are the
answers in the place of these nodes and all other nodes as they were. If it fails, then with the
error that one of these questions got; it has asked about those that come before and replaced exactly
these. Whoever was asked about a node saw all marked nodes strictly below it replaced. -/
theorem applyDiscriminators_cases {root : NodeId} {ids : List NodeId}
    (hids : s.preorder root = .ok ids) (hnodup : ids.Nodup) (key : String)
    (replacement : Replacement σ) (own : σ) :
    (((s.marks key root).map Prod.fst).Perm (ids.filter fun id => (s.mark? key id).isSome) ∧
      ∀ mark ∈ s.marks key root, s.mark? key mark.1 = some mark.2) ∧
    match applyDiscriminators root key replacement (s, own) with
    | .ok id last => id = root ∧ ∃ calls, calls.map Answered.mark = s.marks key root ∧
        s.Rewritten key replacement own calls last
    | .error e last => ∃ calls id discriminator rest own',
        s.marks key root = calls.map Answered.mark ++ (id, discriminator) :: rest ∧
        s.Rewritten key replacement own calls (last.1, own') ∧
        replacement last.1 id discriminator own' = .error e last.2 ∧
        ∀ x, Relation.TransGen s.IsChild id x → (s.mark? key x).isSome →
          x ∈ calls.map Answered.id := by
  have h := Store.grounded_iff.2 ⟨ids, hids⟩
  have hperm := h.postorder_perm hids
  have hpost := hperm.nodup_iff.2 hnodup
  refine ⟨⟨?_, fun mark hmark => (Store.mem_marksAmong.1 hmark).2⟩, ?_⟩
  · rw [Store.marks, Store.map_fst_marksAmong]
    exact hperm.filter _
  have hended : Ended s key replacement (s.postorder root) (s, own) root
      (applyDiscriminators root key replacement (s, own)) :=
    ended_walkWithin h h.reach_depthLimit hpost fun _ _ => rfl
  cases hrun : applyDiscriminators root key replacement (s, own) with
  | ok id last =>
    rw [hrun] at hended
    obtain ⟨rfl, calls, hcalls, hasked⟩ := hended
    have hmarks : s.marks key id = calls.map Answered.mark ++ [] := by
      rw [List.append_nil, hcalls]
      rfl
    exact ⟨rfl, calls, hcalls, hasked.rewritten h hpost hmarks⟩
  | error e last =>
    rw [hrun] at hended
    obtain ⟨calls, id, discriminator, rest, own', hmarks, hasked, hfail⟩ := hended
    refine ⟨calls, id, discriminator, rest, own', hmarks, hasked.rewritten h hpost hmarks, hfail, ?_⟩
    intro x hx hmark
    rw [← Answered.map_fst_mark]
    exact h.mem_before hpost hmarks hx hmark

/-- A marked list over a marked node, beside a marked tagged union. -/
def markedStore : Store := ⟨#[
  (Node.ofKind .str).withMetadata "mark" (.text "inner"),
  ((Node.ofKind .list).withChild "items_schema" (.one ⟨0⟩)).withMetadata "mark" (.text "outer"),
  (Node.ofKind .taggedUnion).withMetadata "mark" .null,
  (Node.ofKind .tuple).withChild "items_schema" (.many [⟨1⟩, ⟨2⟩])]⟩

def strayList (discriminator : Json) : Node :=
  ((Node.ofKind .list).withChild "items_schema" (.one ⟨9⟩)).withMetadata "was" discriminator

/-- Gives nodes over a schema that is not there, as often as `count` says, and then fails. -/
def astray : Replacement Nat := fun _ id discriminator count =>
  match count with
  | 0 => .error (.unknownNode id) 0
  | count + 1 => .ok (strayList discriminator) count

/-- With two answers the pass goes through, with one it has replaced the inner node when it fails. -/
theorem markedStore_rewritten :
    markedStore.preorder ⟨3⟩ = .ok [⟨3⟩, ⟨1⟩, ⟨0⟩, ⟨2⟩] ∧
      markedStore.marks "mark" ⟨3⟩ = [(⟨0⟩, .text "inner"), (⟨1⟩, .text "outer")] ∧
      (∃ calls last, applyDiscriminators ⟨3⟩ "mark" astray (markedStore, 2) = .ok ⟨3⟩ last ∧
        calls.map Answered.mark = [(⟨0⟩, .text "inner"), (⟨1⟩, .text "outer")] ∧
        markedStore.Rewritten "mark" astray 2 calls last) ∧
      ∃ call last own, applyDiscriminators ⟨3⟩ "mark" astray (markedStore, 1) =
          .error (.unknownNode ⟨1⟩) (last, 0) ∧
        call.mark = (⟨0⟩, .text "inner") ∧
        markedStore.Rewritten "mark" astray 1 [call] (last, own) := by
  have hids : markedStore.preorder ⟨3⟩ = .ok [⟨3⟩, ⟨1⟩, ⟨0⟩, ⟨2⟩] := by decide +kernel
  have hmarks : markedStore.marks "mark" ⟨3⟩ = [(⟨0⟩, .text "inner"), (⟨1⟩, .text "outer")] := by
    decide +kernel
  refine ⟨hids, hmarks, ?_, ?_⟩
  · have hcases := (applyDiscriminators_cases hids (by decide) "mark" astray 2).2
    have hrun : applyDiscriminators ⟨3⟩ "mark" astray (markedStore, 2) = .ok ⟨3⟩
        ((markedStore.set ⟨0⟩ (strayList (.text "inner"))).set ⟨1⟩ (strayList (.text "outer")), 0) := by
      decide +kernel
    rw [hrun] at hcases
    obtain ⟨-, calls, hcalls, hrewritten⟩ := hcases
    exact ⟨calls, _, hrun, hcalls.trans hmarks, hrewritten⟩
  · have hcases := (applyDiscriminators_cases hids (by decide) "mark" astray 1).2
    have hrun : applyDiscriminators ⟨3⟩ "mark" astray (markedStore, 1) = .error (.unknownNode ⟨1⟩)
        (markedStore.set ⟨0⟩ (strayList (.text "inner")), 0) := by
      decide +kernel
    rw [hrun] at hcases
    obtain ⟨calls, id, discriminator, rest, own, hsplit, hrewritten, -⟩ := hcases
    rw [hmarks] at hsplit
    match calls with
    | [] =>
      have hsame : (markedStore.set ⟨0⟩ (strayList (.text "inner"))).get? ⟨0⟩ =
          markedStore.get? ⟨0⟩ := hrewritten.replaced.other ⟨0⟩ List.not_mem_nil
      exact absurd hsame (by decide +kernel)
    | [call] => exact ⟨call, _, own, hrun, (List.cons.inj hsplit).1.symm, hrewritten⟩
    | _ :: _ :: calls => simpa using congrArg List.length hsplit

end SchemaGraph
