import Mathlib.Data.List.Nodup
import SchemaGraph.Proofs.Gather.Mirrored

/-!
Nodes at the same place of two mirrored scopes. Where no covered node has two places, those at the
same places correspond one to one, so that mirrored scopes have as many occurrences of each name.

* `Scope.Paired` — what walks over both scopes meet at the same moment;
* `Scope.Separate` — no covered node has two places;
* `Scope.Paired.left_unique` — a node of a separate scope is paired with one node only;
* `Scope.Mirrors.once_left`, `Scope.Mirrors.once_right` — **a name that occurs once in a separate
  one of two mirrored scopes** occurs once in the other.
-/

namespace SchemaGraph

def Store.ChildAt (s : Store) (id : NodeId) (position : Nat) (child : NodeId) : Prop :=
  ∃ ids, s.childIds id = .ok ids ∧ ids[position]? = some child

theorem Store.ChildAt.isChild {s : Store} {id child : NodeId} {position : Nat}
    (h : s.ChildAt id position child) : s.IsChild id child := by
  obtain ⟨ids, hids, hat⟩ := h
  exact ⟨ids, hids, List.mem_of_getElem? hat⟩

theorem Store.IsChild.childAt {s : Store} {id child : NodeId} (h : s.IsChild id child) :
    ∃ position, s.ChildAt id position child := by
  obtain ⟨ids, hids, hmem⟩ := h
  obtain ⟨position, hat⟩ := List.getElem?_of_mem hmem
  exact ⟨position, ids, hids, hat⟩

theorem Store.Akin.childAt {s s' : Store} {x x' child : NodeId} {position : Nat}
    (h : s.Akin s' x x') (hchild : s.ChildAt x position child) :
    ∃ child', s'.ChildAt x' position child' := by
  obtain ⟨ids, hids, hat⟩ := hchild
  obtain ⟨ids', hids', htwins⟩ := h.childIds hids
  obtain ⟨hlt, -⟩ := List.getElem?_eq_some_iff.1 hat
  rw [htwins.length_eq] at hlt
  exact ⟨ids'.get ⟨position, hlt⟩, ids', hids', List.getElem?_eq_getElem hlt⟩

theorem Store.Akin.of_childAt {s s' : Store} {x x' child child' : NodeId} {position : Nat}
    (h : s.Akin s' x x') (hchild : s.ChildAt x position child)
    (hchild' : s'.ChildAt x' position child') : s.Akin s' child child' := by
  obtain ⟨ids, hids, hat⟩ := hchild
  obtain ⟨ids', hids', htwins⟩ := h.childIds hids
  obtain ⟨_, hsame, hat'⟩ := hchild'
  cases hids'.symm.trans hsame
  obtain ⟨hlt, rfl⟩ := List.getElem?_eq_some_iff.1 hat
  obtain ⟨hlt', rfl⟩ := List.getElem?_eq_some_iff.1 hat'
  exact (htwins.get hlt hlt').akin

theorem Store.Akin.mentions_iff {s s' : Store} {x x' : NodeId} {name : String} (h : s.Akin s' x x') :
    s.Mentions x name ↔ s'.Mentions x' name := by
  have ⟨node, node', hnode, hnode', _⟩ := h
  obtain ⟨href, htarget⟩ := h.isReference_eq hnode hnode'
  constructor
  · rintro ⟨_, hold, hisref, hname⟩
    cases hnode.symm.trans hold
    exact ⟨node', hnode', href.trans hisref, htarget.trans hname⟩
  · rintro ⟨_, hold, hisref, hname⟩
    cases hnode'.symm.trans hold
    exact ⟨node, hnode, href.symm.trans hisref, htarget.symm.trans hname⟩

namespace Scope

variable {scope other : Scope} {root root' x x' y y' : NodeId} {found found' : Gathered}
  {name : String}

/-! ### Nodes at the same place -/

/-- What walks over both scopes meet at the same place: at the root, under the same position of
paired nodes, or as the body of a name that paired nodes refer to. -/
inductive Paired (scope other : Scope) (root root' : NodeId) : NodeId → NodeId → Prop where
  | root : Paired scope other root root' root root'
  | child {x x' child child' : NodeId} {position : Nat} (hx : Paired scope other root root' x x')
      (hchild : scope.store.ChildAt x position child)
      (hchild' : other.store.ChildAt x' position child') :
      Paired scope other root root' child child'
  | body {x x' body body' : NodeId} {name : String} (hx : Paired scope other root root' x x')
      (hname : scope.store.Mentions x name) (hname' : other.store.Mentions x' name)
      (hbody : scope.definitions.get? name = some body)
      (hbody' : other.definitions.get? name = some body') : Paired scope other root root' body body'

theorem Paired.flip (h : scope.Paired other root root' x x') :
    other.Paired scope root' root x' x := by
  induction h with
  | root => exact .root
  | child _ hchild hchild' ih => exact .child ih hchild' hchild
  | body _ hname hname' hbody hbody' ih => exact .body ih hname' hname hbody' hbody

theorem Paired.covered (h : scope.Paired other root root' x x') : scope.Covered root x := by
  induction h with
  | root => exact .root
  | child _ hchild _ ih => exact .child ih hchild.isChild
  | body _ hname _ hbody _ ih => exact .body ih hname hbody

/-- No covered node has two places: it is the root, the body of one name or the child of one node at
one position. -/
structure Separate (scope : Scope) (root : NodeId) : Prop where
  child : ∀ x y child i j, scope.Covered root x → scope.Covered root y →
    scope.store.ChildAt x i child → scope.store.ChildAt y j child → x = y ∧ i = j
  not_held : ∀ x, scope.Covered root x → ¬ scope.store.IsChild x root
  body : ∀ x name body, scope.Covered root x → scope.definitions.get? name = some body →
    ¬ scope.store.IsChild x body
  body_ne : ∀ name body, scope.definitions.get? name = some body → body ≠ root
  injective : ∀ name other body, scope.definitions.get? name = some body →
    scope.definitions.get? other = some body → name = other

/-- A node of a separate scope is paired with one node only. -/
theorem Paired.left_unique (h : scope.Paired other root root' x x') (hsep : other.Separate root')
    (h' : scope.Paired other root root' y x') : y = x := by
  induction h generalizing y with
  | root =>
    cases h' with
    | root => rfl
    | child hy _ hchild' => exact absurd hchild'.isChild (hsep.not_held _ hy.flip.covered)
    | body _ _ _ _ hbody' => exact absurd rfl (hsep.body_ne _ _ hbody')
  | child hx hchild hchild' ih =>
    cases h' with
    | root => exact absurd hchild'.isChild (hsep.not_held _ hx.flip.covered)
    | child hy hsame hsame' =>
      obtain ⟨rfl, rfl⟩ := hsep.child _ _ _ _ _ hx.flip.covered hy.flip.covered hchild' hsame'
      cases ih hy
      obtain ⟨ids, hids, hat⟩ := hchild
      obtain ⟨_, hids', hat'⟩ := hsame
      cases hids.symm.trans hids'
      exact Option.some.inj (hat'.symm.trans hat)
    | body _ _ _ _ hbody' =>
      exact absurd hchild'.isChild (hsep.body _ _ _ hx.flip.covered hbody')
  | body hx _ _ hbody hbody' ih =>
    cases h' with
    | root => exact absurd rfl (hsep.body_ne _ _ hbody')
    | child hy _ hsame' => exact absurd hsame'.isChild (hsep.body _ _ _ hy.flip.covered hbody')
    | body _ _ _ hsame hsame' =>
      cases hsep.injective _ _ _ hbody' hsame'
      exact Option.some.inj (hsame.symm.trans hbody)

/-! ### Places of mirrored scopes -/

theorem Mirrors.akin (hm : scope.Mirrors other root root')
    (h : scope.Paired other root root' x x') : scope.store.Akin other.store x x' := by
  induction h with
  | root => exact hm.root
  | child _ hchild hchild' ih => exact ih.of_childAt hchild hchild'
  | body _ _ _ hbody hbody' _ =>
    obtain ⟨_, hsame, hakin⟩ := hm.bodies _ _ hbody
    cases hbody'.symm.trans hsame
    exact hakin

/-- Each covered node has one at its place in the other scope. -/
theorem Mirrors.exists_right (hm : scope.Mirrors other root root') (hx : scope.Covered root x) :
    ∃ x', scope.Paired other root root' x x' := by
  induction hx with
  | root => exact ⟨root', .root⟩
  | child _ hchild ih =>
    obtain ⟨x', hpair⟩ := ih
    obtain ⟨position, hchild⟩ := hchild.childAt
    obtain ⟨child', hchild'⟩ := (hm.akin hpair).childAt hchild
    exact ⟨child', hpair.child hchild hchild'⟩
  | body _ hname hbody ih =>
    obtain ⟨x', hpair⟩ := ih
    obtain ⟨body', hbody', -⟩ := hm.bodies _ _ hbody
    exact ⟨body', hpair.body hname ((hm.akin hpair).mentions_iff.1 hname) hbody hbody'⟩

theorem Mirrors.exists_left (hm : scope.Mirrors other root root') (h : scope.gather root = .ok found)
    (hx' : other.Covered root' x') : ∃ x, scope.Paired other root root' x x' := by
  induction hx' with
  | root => exact ⟨root, .root⟩
  | child _ hchild' ih =>
    obtain ⟨x, hpair⟩ := ih
    obtain ⟨position, hchild'⟩ := hchild'.childAt
    obtain ⟨p, hwalk, -⟩ := walks_of_gather h
    obtain ⟨ids, hids⟩ := (noted_of_covered hwalk hpair.covered).entered
    obtain ⟨ids', hids', htwins⟩ := (hm.akin hpair).childIds hids
    have ⟨_, hsame, hat⟩ := hchild'
    cases hids'.symm.trans hsame
    obtain ⟨hlt, -⟩ := List.getElem?_eq_some_iff.1 hat
    exact ⟨_, hpair.child ⟨ids, hids, List.getElem?_eq_getElem (htwins.length_eq.symm ▸ hlt)⟩ hchild'⟩
  | body _ hname' hbody' ih =>
    obtain ⟨x, hpair⟩ := ih
    have hname := (hm.akin hpair).mentions_iff.2 hname'
    obtain ⟨body, hbody⟩ := exists_body h ⟨x, hpair.covered, hname⟩
    exact ⟨body, hpair.body hname hname' hbody hbody'⟩

/-! ### Names that occur once -/

/-- One covered node refers to the name. -/
def Once (scope : Scope) (root : NodeId) (name : String) : Prop :=
  ∃ o, ∀ x, scope.Covered root x ∧ scope.store.Mentions x name ↔ x = o

theorem once_iff (h : scope.gather root = .ok found) :
    scope.Once root name ↔ ∃ o, found.occurrencesOf name = [o] := by
  refine exists_congr fun o => ?_
  rw [← List.perm_singleton, List.perm_ext_iff_of_nodup ((accurate_of_gather h).occurrences_nodup name)
    (List.nodup_singleton o)]
  simp only [mem_occurrencesOf_iff h, List.mem_singleton]

/-- **A name that occurs once in a separate mirror image** occurs once in the scope. -/
theorem Mirrors.once_left (hm : scope.Mirrors other root root') (h : scope.gather root = .ok found)
    (hsep : other.Separate root') (honce : other.Once root' name) : scope.Once root name := by
  obtain ⟨o', ho'⟩ := honce
  obtain ⟨hcov, hmention⟩ := (ho' o').2 rfl
  obtain ⟨o, hpair⟩ := hm.exists_left h hcov
  refine ⟨o, fun x => ⟨fun ⟨hx, hname⟩ => ?_, ?_⟩⟩
  · obtain ⟨x', hpair'⟩ := hm.exists_right hx
    cases (ho' x').1 ⟨hpair'.flip.covered, (hm.akin hpair').mentions_iff.1 hname⟩
    exact hpair.left_unique hsep hpair'
  · rintro rfl
    exact ⟨hpair.covered, (hm.akin hpair).mentions_iff.2 hmention⟩

/-- **A name that occurs once in a separate scope** occurs once in its mirror image. -/
theorem Mirrors.once_right (hm : scope.Mirrors other root root') (h : scope.gather root = .ok found)
    (hsep : scope.Separate root) (honce : scope.Once root name) : other.Once root' name := by
  obtain ⟨o, ho⟩ := honce
  obtain ⟨hcov, hmention⟩ := (ho o).2 rfl
  obtain ⟨o', hpair⟩ := hm.exists_right hcov
  refine ⟨o', fun x' => ⟨fun ⟨hx', hname'⟩ => ?_, ?_⟩⟩
  · obtain ⟨x, hpair'⟩ := hm.exists_left h hx'
    cases (ho x).1 ⟨hpair'.covered, (hm.akin hpair').mentions_iff.2 hname'⟩
    exact hpair.flip.left_unique hsep hpair'.flip
  · rintro rfl
    exact ⟨hpair.flip.covered, (hm.akin hpair).mentions_iff.1 hmention⟩

end Scope

end SchemaGraph
