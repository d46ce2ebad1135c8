import SchemaGraph.Proofs.Children
import SchemaGraph.Proofs.Discriminators.Order
import SchemaGraph.Proofs.Preorder

/-!
Replacing marked nodes once is enough, also where nodes are shared, as long as what is given for a node
is not marked again and holds children of that node only. Then links between nodes only go away,
nothing that was visited is marked again, and a second pass is a walk that changes nothing.

* `Settling` — the replacements that keep to this;
* `Store.Settles` — what they do to a store, whatever is replaced and how often;
* `settled_walkWithin` — a visit leaves no mark below its node and changes nothing elsewhere;
* `Store.Settled.walkWithin_eq` — where there is no mark, the walk is the one that changes nothing;
* `applyDiscriminators_settles` — **a second pass asks about nothing**.
-/

namespace SchemaGraph

variable {σ τ : Type} {s s' s'' : Store} {key : String} {id x : NodeId}

/-! ### Replacements that settle -/

/-- What is given for a marked node is not marked, and what it holds are children of the node that it
is given for. -/
def Settling (key : String) (replacement : Replacement σ) : Prop :=
  ∀ s id discriminator own new own', s.mark? key id = some discriminator →
    replacement s id discriminator own = .ok new own' →
      new.mark? key = none ∧ ∀ x ∈ new.storedIds, s.IsChild id x

namespace Store

/-- Each node of `s'` is that of `s`, or it is not marked, stands where there was a marked one, and
holds children of that one only. -/
structure Settles (key : String) (s s' : Store) : Prop where
  size_eq : s'.size = s.size
  get?_eq : ∀ id, s'.get? id = s.get? id ∨ (s.mark? key id).isSome ∧
    ∃ new, s'.get? id = some new ∧ new.mark? key = none ∧ ∀ x ∈ new.storedIds, s.IsChild id x

/-- No node of the tree at `root` is marked. -/
def Settled (s : Store) (key : String) (root : NodeId) : Prop :=
  ∀ id, s.Below root id → s.mark? key id = none

theorem childIds_congr (h : s'.get? id = s.get? id) : s'.childIds id = s.childIds id := by
  unfold childIds wellShaped Store.node
  rw [h]

theorem isChild_congr (h : s'.get? id = s.get? id) : s'.IsChild id x ↔ s.IsChild id x := by
  unfold IsChild
  rw [childIds_congr h]

theorem mark?_congr (h : s'.get? id = s.get? id) : s'.mark? key id = s.mark? key id := by
  rw [mark?, mark?, h]

namespace Settles

theorem refl (s : Store) : Settles key s s := ⟨rfl, fun _ => .inl rfl⟩

theorem get?_of_none (h : Settles key s s') (hid : s.mark? key id = none) :
    s'.get? id = s.get? id := by
  rcases h.get?_eq id with hsame | ⟨hmark, -⟩
  · exact hsame
  · rw [hid] at hmark
    cases hmark

/-- A node is replaced once at most, as what it is replaced with is not marked. -/
theorem trans (h : Settles key s s') (h' : Settles key s' s'') : Settles key s s'' where
  size_eq := h'.size_eq.trans h.size_eq
  get?_eq id := by
    rcases h.get?_eq id with hsame | ⟨hmark, new, hnew, hnone, hholds⟩
    · rcases h'.get?_eq id with hsame' | ⟨hmark, new, hnew, hnone, hholds⟩
      · exact .inl (hsame'.trans hsame)
      · rw [mark?_congr hsame] at hmark
        exact .inr ⟨hmark, new, hnew, hnone, fun x hx => (isChild_congr hsame).1 (hholds x hx)⟩
    · have hsame : s''.get? id = s'.get? id := h'.get?_of_none (by rw [mark?, hnew]; exact hnone)
      exact .inr ⟨hmark, new, hsame.trans hnew, hnone, hholds⟩

theorem isChild (h : Settles key s s') (hx : s'.IsChild id x) : s.IsChild id x := by
  rcases h.get?_eq id with hsame | ⟨-, new, hnew, -, hholds⟩
  · exact (isChild_congr hsame).1 hx
  · obtain ⟨node, hnode, hx⟩ := hx.holds
    rw [hnew] at hnode
    cases hnode
    exact hholds x hx

theorem below (h : Settles key s s') (hx : s'.Below id x) : s.Below id x :=
  Relation.ReflTransGen.mono (fun _ _ hchild => h.isChild hchild) _ _ hx

theorem acyclic (h : Settles key s s') (hs : s.Acyclic) : s'.Acyclic := fun id hround =>
  hs id (Relation.TransGen.mono (fun _ _ hchild => h.isChild hchild) _ _ hround)

theorem settled (h : Settles key s s') (hid : s.Settled key id) : s'.Settled key id := by
  intro x hx
  have hnone := hid x (h.below hx)
  rw [mark?_congr (h.get?_of_none hnone), hnone]

end Settles

theorem settled_of_isChild (hid : s.mark? key id = none)
    (h : ∀ child, s.IsChild id child → s.Settled key child) : s.Settled key id := by
  intro x hx
  rcases Relation.ReflTransGen.cases_head hx with rfl | ⟨child, hchild, hx⟩
  · exact hid
  · exact h child hchild x hx

/-- A replacement that settles, put in its place. -/
theorem settles_set {discriminator : Json} {new : Node} (hmark : s.mark? key id = some discriminator)
    (hnew : new.mark? key = none) (hholds : ∀ x ∈ new.storedIds, s.IsChild id x) :
    Settles key s (s.set id new) where
  size_eq := size_set s id new
  get?_eq x := by
    by_cases e : x = id
    · subst e
      obtain ⟨node, hnode, -⟩ := Option.bind_eq_some_iff.1 hmark
      exact .inr ⟨by rw [hmark]; rfl, new, get?_set_self new (lt_size_of_get? hnode), hnew, hholds⟩
    · exact .inl (get?_set_of_ne new e)

/-- What visiting the nodes `ids` of `s` leads to: nothing below them is marked, and elsewhere nothing
has changed. -/
structure Visited (key : String) (ids : List NodeId) (s s' : Store) : Prop where
  settles : s.Settles key s'
  frame : ∀ x, (∀ id ∈ ids, ¬ s.Below id x) → s'.get? x = s.get? x
  settled : ∀ id ∈ ids, s'.Settled key id

theorem Visited.nil (s : Store) : Visited key [] s s :=
  ⟨.refl s, fun _ _ => rfl, fun _ h => absurd h List.not_mem_nil⟩

theorem Visited.cons {ids : List NodeId} (h : Visited key [id] s s')
    (hrest : Visited key ids s' s'') : Visited key (id :: ids) s s'' where
  settles := h.settles.trans hrest.settles
  frame x hx := by
    rw [hrest.frame x fun other hother hbelow =>
      hx other (List.mem_cons_of_mem _ hother) (h.settles.below hbelow)]
    exact h.frame x fun other hother => by
      rw [List.mem_singleton.1 hother]
      exact hx id List.mem_cons_self
  settled other hother := by
    rcases List.mem_cons.1 hother with rfl | hother
    · exact hrest.settles.settled (h.settled other List.mem_cons_self)
    · exact hrest.settled other hother

end Store

/-! ### The first pass -/

section First

variable {replacement : Replacement σ} {st st' mid : Store × σ} {visit : NodeId → Pass σ NodeId}

/-- The visits return their nodes, and what they leave below them is not marked. -/
def VisitsSettle (key : String) (visit : NodeId → Pass σ NodeId) : Prop :=
  ∀ (id x : NodeId) (st st' : Store × σ), st.1.Acyclic → visit id st = .ok x st' →
    x = id ∧ Store.Visited key [id] st.1 st'.1

theorem visited_mapM (hvisit : VisitsSettle key visit) {ids answers : List NodeId}
    (h : Answers visit ids st answers st') (hacyclic : st.1.Acyclic) :
    answers = ids ∧ Store.Visited key ids st.1 st'.1 := by
  induction h with
  | nil => exact ⟨rfl, .nil _⟩
  | cons hcall _ ih =>
    obtain ⟨rfl, hfirst⟩ := hvisit _ _ _ _ hacyclic hcall
    obtain ⟨rfl, hrest⟩ := ih (hfirst.settles.acyclic hacyclic)
    exact ⟨rfl, hfirst.cons hrest⟩

/-- A node whose children have been visited is visited when it is asked about. -/
theorem visited_replaceMarked (hreplacement : Settling key replacement) {ids : List NodeId}
    (hids : s.childIds id = .ok ids) (hacyclic : s.Acyclic) (h : Store.Visited key ids s mid.1)
    (hrun : replaceMarked key replacement id mid = .ok x st') :
    x = id ∧ Store.Visited key [id] s st'.1 := by
  have hbelow : ∀ {child y : NodeId}, child ∈ ids → s.Below child y →
      Relation.TransGen s.IsChild id y := fun hchild hy => .head' ⟨ids, hids, hchild⟩ hy
  have hsame : mid.1.get? id = s.get? id :=
    h.frame id fun child hchild hback => hacyclic id (hbelow hchild hback)
  have hchildren : ∀ child, mid.1.IsChild id child → child ∈ ids := by
    rintro child ⟨others, hothers, hchild⟩
    rw [Store.childIds_congr hsame, hids] at hothers
    cases hothers
    exact hchild
  have hframe : ∀ y, ¬ s.Below id y → mid.1.get? y = s.get? y := fun y hy =>
    h.frame y fun child hchild hback => hy (hbelow hchild hback).to_reflTransGen
  obtain ⟨node, -, hnode, -⟩ := Store.childIds_eq_ok.1 hids
  have hread : mid.1.get? id = some node := hsame.trans hnode
  have hfound : mid.1.mark? key id = node.mark? key := by rw [Store.mark?, hread, Option.bind_some]
  cases hmark : node.mark? key with
  | none =>
    rw [replaceMarked_of_none hread hmark] at hrun
    cases hrun
    refine ⟨rfl, h.settles, fun y hy => hframe y (hy id (List.mem_singleton.2 rfl)), ?_⟩
    intro other hother
    rw [List.mem_singleton.1 hother]
    exact Store.settled_of_isChild (hfound.trans hmark) fun child hchild =>
      h.settled child (hchildren child hchild)
  | some discriminator =>
    rw [replaceMarked_of_some hread hmark] at hrun
    cases hanswer : replacement mid.1 id discriminator mid.2 with
    | error e own => simp [hanswer] at hrun
    | ok new own =>
      rw [hanswer] at hrun
      cases hrun
      obtain ⟨hnew, hholds⟩ := hreplacement _ _ _ _ _ _ (hfound.trans hmark) hanswer
      have hset := Store.settles_set (hfound.trans hmark) hnew hholds
      refine ⟨rfl, h.settles.trans hset, fun y hy => ?_, fun other hother => ?_⟩
      · have hne : y ≠ id := fun e => hy id (List.mem_singleton.2 rfl) (e ▸ .refl)
        exact (Store.get?_set_of_ne new hne).trans (hframe y (hy id (List.mem_singleton.2 rfl)))
      · rw [List.mem_singleton.1 hother]
        refine Store.settled_of_isChild ?_ fun child hchild =>
          hset.settled (h.settled child (hchildren child (hset.isChild hchild)))
        rw [Store.mark?, Store.get?_set_self new (Store.lt_size_of_get? hread)]
        exact hnew

theorem visitsSettle_discriminatorVisitor (hreplacement : Settling key replacement)
    (hvisit : VisitsSettle key visit) :
    VisitsSettle key (discriminatorVisitor key replacement visit) := by
  intro id x st st' hacyclic h
  rw [discriminatorVisitor_eq] at h
  obtain ⟨y, mid, hmap, h⟩ := Pass.bind_eq_ok.1 h
  obtain ⟨⟨node, kind⟩, _, hlook, hmap⟩ := Pass.bind_eq_ok.1 hmap
  obtain ⟨hshaped, rfl⟩ := Pass.look_eq_ok.1 hlook
  obtain ⟨answers, last, hcalls, hmap⟩ := Pass.bind_eq_ok.1 hmap
  obtain ⟨rfl, hvisited⟩ := visited_mapM hvisit (answers_of_mapM hcalls) hacyclic
  rw [if_pos rfl] at hmap
  obtain ⟨rfl, rfl⟩ := Pass.pure_eq_ok.1 hmap
  obtain ⟨hnode, hkind, hfits⟩ := Store.wellShaped_eq_ok.1 hshaped
  exact visited_replaceMarked hreplacement
    (Store.childIds_eq_ok.2 ⟨node, kind, hnode, hkind, hfits, rfl⟩) hacyclic hvisited h

/-- **A visit leaves no mark below its node**, and changes nothing that is not below it. -/
theorem settled_walkWithin (hreplacement : Settling key replacement) : ∀ depth : Nat,
    VisitsSettle key ((discriminatorVisitor key replacement).walkWithin depth)
  | 0 => fun _ _ _ _ _ h => absurd h Pass.throw_ne_ok
  | depth + 1 =>
    visitsSettle_discriminatorVisitor hreplacement (settled_walkWithin hreplacement depth)

end First

/-! ### The second pass -/

section Second

variable {replacement : Replacement σ} {own : σ} {visit other : NodeId → Pass σ NodeId}
  {st : Store × σ}

/-- The walk that changes nothing comes back with its node, and leaves everything as it was. -/
theorem identity_walkWithin_still (depth : Nat) (id : NodeId) (st : Store × σ) :
    Pass.endState (Visitor.identity.walkWithin depth id st) = st ∧
      ∀ x last, Visitor.identity.walkWithin depth id st = .ok x last → x = id := by
  obtain ⟨s, own⟩ := st
  have hnoted := Visitor.noting_walkWithin (fun _ own => own) s depth id own
  rw [← Visitor.identity_walkWithin] at hnoted
  cases hrun : Visitor.identity.walkWithin depth id (s, own) with
  | ok x last =>
    rw [hrun] at hnoted
    obtain ⟨rfl, hstore, ids, -, hown⟩ := hnoted
    rw [List.foldl_fixed] at hown
    refine ⟨Prod.ext hstore hown, fun y st' h => ?_⟩
    cases h
    rfl
  | error e last =>
    rw [hrun] at hnoted
    obtain ⟨-, hstore, ids, hown⟩ := hnoted
    rw [List.foldl_fixed] at hown
    exact ⟨Prod.ext hstore hown, fun _ _ h => nomatch h⟩

/-- Visits that come to the same and leave everything as it was do so one after the other. -/
theorem mapM_eq_of_still : ∀ {ids : List NodeId}, (∀ id ∈ ids, visit id st = other id st) →
    (∀ id, Pass.endState (other id st) = st) → ids.mapM visit st = ids.mapM other st
  | [], _, _ => rfl
  | id :: ids, hsame, hstill => by
    have hrest := mapM_eq_of_still (fun x hx => hsame x (List.mem_cons_of_mem _ hx)) hstill
    have hid := hstill id
    simp only [List.mapM_cons, bind, EStateM.bind, hsame id List.mem_cons_self]
    cases hother : other id st with
    | error e last => rfl
    | ok x last =>
      rw [hother] at hid
      obtain rfl : last = st := hid
      simp only [hrest]

theorem mapChildren_eq_of_still
    (hsame : ∀ child, st.1.IsChild id child → visit child st = other child st)
    (hstill : ∀ child, Pass.endState (other child st) = st) :
    mapChildren visit id st = mapChildren other id st := by
  cases hshaped : st.1.wellShaped id with
  | error e => simp only [mapChildren, bind, EStateM.bind, Pass.look, hshaped]
  | ok entered =>
    obtain ⟨node, kind⟩ := entered
    obtain ⟨hnode, hkind, hfits⟩ := Store.wellShaped_eq_ok.1 hshaped
    have hids := Store.childIds_eq_ok.2 ⟨node, kind, hnode, hkind, hfits, rfl⟩
    have hcalls := mapM_eq_of_still (fun child hchild => hsame child ⟨_, hids, hchild⟩) hstill
    simp only [mapChildren, bind, EStateM.bind, Pass.look, hshaped, hcalls]

/-- **Where nothing is marked, the walk is the one that changes nothing.** -/
theorem Store.Settled.walkWithin_eq : ∀ {depth : Nat} {id : NodeId}, s.Settled key id →
    (discriminatorVisitor key replacement).walkWithin depth id (s, own) =
      Visitor.identity.walkWithin depth id (s, own)
  | 0, _, _ => rfl
  | depth + 1, id, h => by
    have hmap : mapChildren ((discriminatorVisitor key replacement).walkWithin depth) id (s, own) =
        Visitor.identity.walkWithin (depth + 1) id (s, own) := by
      refine mapChildren_eq_of_still (fun child hchild => ?_) fun child =>
        (identity_walkWithin_still depth child (s, own)).1
      exact Store.Settled.walkWithin_eq fun x hx => h x (.head hchild hx)
    obtain ⟨hstill, hback⟩ := identity_walkWithin_still (depth + 1) id (s, own)
    rw [Visitor.walkWithin, discriminatorVisitor_eq]
    simp only [bind, EStateM.bind, hmap]
    cases hrun : Visitor.identity.walkWithin (depth + 1) id (s, own) with
    | error e last => rfl
    | ok x last =>
      obtain rfl := hback x last hrun
      rw [hrun] at hstill
      obtain rfl : last = (s, own) := hstill
      dsimp only
      obtain ⟨⟨node, kind⟩, _, hlook, -⟩ := Pass.bind_eq_ok.1 (hmap.trans hrun)
      have hnode := (Store.wellShaped_eq_ok.1 (Pass.look_eq_ok.1 hlook).1).1
      have hmark := h x .refl
      rw [Store.mark?, hnode] at hmark
      exact replaceMarked_of_none hnode hmark

end Second

/-- **A second pass asks about nothing.** In a store without a cycle of children, shared nodes or not,
let a pass with a replacement that settles go through. Then no node below the root is marked any more,
and a second pass over it, with any replacement, is the walk that changes nothing: it does not depend
on the replacement, returns or fails as that walk does, and leaves the store and its data as they
were. -/
theorem applyDiscriminators_settles {root : NodeId} {replacement : Replacement σ} {own own' : σ}
    (hs : s.Acyclic) (hreplacement : Settling key replacement)
    (hrun : applyDiscriminators root key replacement (s, own) = .ok id (s', own'))
    (other : Replacement τ) (again : τ) :
    s'.Settled key root ∧
      applyDiscriminators root key other (s', again) = Visitor.identity.walk root (s', again) ∧
      Pass.endState (applyDiscriminators root key other (s', again)) = (s', again) := by
  obtain ⟨-, hvisited⟩ := settled_walkWithin hreplacement _ _ _ _ _ hs hrun
  have hsettled : s'.Settled key root := hvisited.settled root List.mem_cons_self
  have hwalk : applyDiscriminators root key other (s', again) =
      Visitor.identity.walk root (s', again) := hsettled.walkWithin_eq
  refine ⟨hsettled, hwalk, ?_⟩
  rw [hwalk]
  exact (identity_walkWithin_still _ root (s', again)).1

def repeatedStore : Store := ⟨#[
  (Node.ofKind .str).withMetadata "mark" (.text "inner"),
  ((Node.ofKind .list).withChild "items_schema" (.one ⟨0⟩)).withMetadata "mark" (.text "outer"),
  (Node.ofKind .tuple).withChild "items_schema" (.many [⟨1⟩, ⟨0⟩, ⟨1⟩])]⟩

def tupleOf (ids : List NodeId) : Node :=
  (Node.ofKind .tuple).withChild "items_schema" (.many ids)

/-- Gives a tuple of the children of a node, and counts how often. -/
def tupling : Replacement Nat := fun s id _ count =>
  match s.childIds id with
  | .ok ids => .ok (tupleOf ids) (count + 1)
  | .error e => .error e count

theorem settling_tupling : Settling key tupling := by
  intro s id discriminator own new own' _ h
  unfold tupling at h
  split at h
  · rename_i ids hids
    cases h
    have hstored : (tupleOf ids).storedIds = ids := by
      simp [Node.storedIds, tupleOf, Node.withChild, Node.ofKind, OrderedMap.values,
        OrderedMap.insert, OrderedMap.empty, Entries.put, Child.ids]
    exact ⟨rfl, fun x hx => ⟨ids, hids, hstored ▸ hx⟩⟩
  · cases h

def tupledStore : Store := (repeatedStore.set ⟨0⟩ (tupleOf [])).set ⟨1⟩ (tupleOf [⟨0⟩])

/-- Both marked nodes are asked about once, and a second pass goes through that could not answer. -/
theorem tupledStore_settled :
    repeatedStore.Acyclic ∧ Settling "mark" tupling ∧
      applyDiscriminators ⟨2⟩ "mark" tupling (repeatedStore, 0) = .ok ⟨2⟩ (tupledStore, 2) ∧
      tupledStore.Settled "mark" ⟨2⟩ ∧
      applyDiscriminators ⟨2⟩ "mark" (fun _ id _ => throw (.unknownNode id)) (tupledStore, ()) =
        .ok ⟨2⟩ (tupledStore, ()) := by
  have hacyclic : repeatedStore.Acyclic :=
    Store.acyclic_of_forall NodeId.index (by decide +kernel)
  have hrun : applyDiscriminators ⟨2⟩ "mark" tupling (repeatedStore, 0) =
      .ok ⟨2⟩ (tupledStore, 2) := by decide +kernel
  have hwalk : Visitor.identity.walk ⟨2⟩ (tupledStore, ()) = .ok ⟨2⟩ (tupledStore, ()) := by
    decide +kernel
  obtain ⟨hsettled, hsecond, -⟩ := applyDiscriminators_settles hacyclic settling_tupling hrun
    (fun _ id _ => throw (.unknownNode id)) ()
  exact ⟨hacyclic, settling_tupling, hrun, hsettled, hsecond.trans hwalk⟩

end SchemaGraph
