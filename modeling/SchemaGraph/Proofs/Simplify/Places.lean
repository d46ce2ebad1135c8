import SchemaGraph.Proofs.Gather.Explored
import SchemaGraph.Proofs.Gather.Meets
import SchemaGraph.Proofs.Simplify.Knots

/-!
What inlining leaves, place by place. A place that is not overtaken has the content of its body, and
what a walk explored before inlining holds no new names after it.

* `Cleaned` — the store after inlining, with the definitions that stay;
* `Cleaned.place` — what is in a place that is not overtaken;
* `Cleaned.meets_of_explored` — **a walk over what was explored meets no other names**.
-/

namespace SchemaGraph

variable {scope out : Scope} {root id x y b : NodeId} {found : Gathered} {s₂ : Store}
  {name : String} {node : Node} {p q entered inner : Progress} {ids kids : List NodeId}

/-! ### The store after inlining -/

/-- After inlining the node at `x` holds nodes of the set `C`, and is an occurrence of what some
node of `C` was. -/
def DrawnFrom (scope : Scope) (s₂ : Store) (C : NodeId → Prop) (x : NodeId) : Prop :=
  ∀ node', s₂.get? x = some node' → (∀ child ∈ node'.storedIds, C child) ∧
    ∃ z node, C z ∧ scope.store.get? z = some node ∧ node'.isReference = node.isReference ∧
      node'.target = node.target

/-- **What follows the ways is what places get.** A node of a set that ways do not leave is drawn
from that set. -/
theorem Inlined.closed (h : scope.gather root = .ok found) (hs₂ : Inlined scope found s₂)
    {C : NodeId → Prop} (hC : ∀ x y, C x → Leads scope root found x y → C y)
    (hx : scope.Covered root x) : C x → DrawnFrom scope s₂ C x := by
  have hheld : ∀ {x node child}, C x → scope.Covered root x → scope.store.get? x = some node →
      child ∈ node.storedIds → C child := fun hCx hx hnode hchild =>
    hC _ _ hCx ⟨hx, .inl (hx.isChild h ⟨_, hnode, hchild⟩)⟩
  refine hs₂.induction h (P := fun x => C x → DrawnFrom scope s₂ C x) ?_ ?_ ?_ hx
  · intro x hx _ hsame hCx node' hnode'
    rw [hsame] at hnode'
    exact ⟨fun child hchild => hheld hCx hx hnode' hchild, x, node', hCx, hnode', rfl, rfl⟩
  · intro x name b site body hb hname hbody hsite hplace hcontent _ hCx node' hnode'
    obtain ⟨hx, -⟩ := covered_of_sole h hname
    have hCb : C b := hC x b hCx ⟨hx, .inr ⟨name, hname, hbody⟩⟩
    rw [hplace] at hnode'
    cases hnode'
    refine ⟨fun child hchild => ?_, b, body, hCb, hcontent, rfl, rfl⟩
    have hfrom : child ∈ body.storedIds ∨ child ∈ site.storedIds :=
      Node.mem_storedIds_seenThrough hchild
    rcases hfrom with hchild | hchild
    · exact hheld hCb hb hcontent hchild
    · exact hheld hCx hx hsite hchild
  · intro x name b later site body hname hbody hsite hplace hcontent _ _ ih hCx node' hnode'
    obtain ⟨hx, -⟩ := covered_of_sole h hname
    have hCb : C b := hC x b hCx ⟨hx, .inr ⟨name, hname, hbody⟩⟩
    obtain ⟨hkids, z, node, hCz, hz, href, htarget⟩ := ih hCb body hcontent
    rw [hplace] at hnode'
    cases hnode'
    refine ⟨fun child hchild => ?_, z, node, hCz, hz, href, htarget⟩
    have hfrom : child ∈ body.storedIds ∨ child ∈ site.storedIds :=
      Node.mem_storedIds_seenThrough hchild
    rcases hfrom with hchild | hchild
    · exact hkids child hchild
    · exact hheld hCx hx hsite hchild

/-- The store and the definitions in `out` are what inlining leaves of `scope`: the covered nodes
have flat trees, and each name that stays has a copy of its body that carries the name. -/
structure Cleaned (scope : Scope) (root : NodeId) (found : Gathered) (s₂ : Store) (out : Scope) :
    Prop where
  gather : scope.gather root = .ok found
  inlined : Inlined scope found s₂
  flat : ∀ x, scope.Covered root x → s₂.FlatBody x
  extends_ : s₂.Extends out.store
  emitted : ∀ name body, found.Stays name → scope.definitions.get? name = some body →
    ∃ id, out.definitions.get? name = some id ∧ NamedCopy s₂ out.store name body id

/-- No place below `x` is overtaken. -/
def Intact (definitions : Definitions) (found : Gathered) (s : Store) (x : NodeId) : Prop :=
  ∀ z, s.Below x z → ¬ Overtaken definitions found z

/-- The names met that stay, in the order in which they were met. -/
def Progress.staying (p : Progress) (found : Gathered) : List String :=
  p.expansions.keys.filter fun name => (found.soleOccurrence? name).isNone

theorem Progress.mem_staying :
    name ∈ p.staying found ↔ name ∈ p.expansions.keys ∧ found.soleOccurrence? name = none := by
  simp [Progress.staying]

theorem Intact.child {s : Store} {definitions : Definitions} (h : Intact definitions found s x)
    (hy : s.IsChild x y) : Intact definitions found s y :=
  fun z hz => h z (.head hy hz)

namespace Cleaned

variable (h : Cleaned scope root found s₂ out)

include h

/-! ### Covered nodes -/

theorem get?_eq (hx : scope.Covered root x) : out.store.get? x = s₂.get? x := by
  obtain ⟨node, hnode⟩ := exists_node_of_covered h.gather hx
  refine h.extends_.get?_eq x ?_
  rw [h.inlined.size]
  exact Store.lt_size_of_get? hnode

theorem flatBody (hx : scope.Covered root x) : out.store.FlatBody x :=
  (h.flat x hx).of_extends h.extends_

theorem get?_eq_of_no_place (hx : scope.Covered root x)
    (hnone : ∀ name, found.soleOccurrence? name ≠ some x) :
    out.store.get? x = scope.store.get? x := by
  rw [h.get?_eq hx, h.inlined.other x hnone]

/-- **What is in a place that is not overtaken**: its body, which is covered and not overtaken. -/
theorem place (hname : found.soleOccurrence? name = some x)
    (hnot : ¬ Overtaken scope.definitions found x) :
    ∃ b site content, scope.definitions.get? name = some b ∧ scope.store.get? x = some site ∧
      out.store.get? b = some content ∧ out.store.get? x = some (content.inlinedAt site) ∧
      scope.Covered root b ∧ ¬ Overtaken scope.definitions found b := by
  obtain ⟨hx, hmention⟩ := covered_of_sole h.gather hname
  obtain ⟨b, site, content, hb, hsite, hplace, hlater, hlast⟩ := h.inlined.site name x hname
  have hcovered : scope.Covered root b := .body hx hmention hb
  rw [← h.get?_eq hx] at hplace
  refine ⟨b, site, content, hb, hsite, ?_, hplace, hcovered, ?_⟩
  · rw [h.get?_eq hcovered]
    by_cases hplace : ∃ other, found.soleOccurrence? other = some b
    · obtain ⟨other, hother⟩ := hplace
      refine hlater other hother ?_
      by_contra hmet
      exact hnot (.stale hname hb hother hmet)
    · have hnone : ∀ other, found.soleOccurrence? other ≠ some b := fun other e => hplace ⟨other, e⟩
      rw [h.inlined.other b hnone]
      exact hlast fun other hother => absurd hother (hnone other)
  · intro hover
    have hother : ∃ other, found.soleOccurrence? other = some b := by
      cases hover with
      | stale ho | chain ho => exact ⟨_, ho⟩
    obtain ⟨other, hother⟩ := hother
    exact hnot ((overtaken_iff h.gather hname hb).2 ⟨other, hother, fun _ => hover⟩)

/-! ### What was walked already -/

/-- Ways lead from what is explored to what is explored. -/
theorem explored_of_leads (hp : scope.Finished found.recursive p)
    (hx : scope.Explored found.recursive p x) (hstep : Leads scope root found x y) :
    scope.Explored found.recursive p y := by
  obtain ⟨-, hchild | ⟨name, hsole, hbody⟩⟩ := hstep
  · exact hx.below (.single hchild)
  · obtain ⟨-, hmention⟩ := covered_of_sole h.gather hsole
    obtain ⟨-, hdone⟩ := hx x name .refl hmention
    exact hp name y (hdone (not_mem_recursive_of_sole hsole)) hbody

/-- At what is explored no name is new. -/
theorem turns_of_explored (hp : scope.Finished found.recursive p)
    (hx : scope.Covered root x) (hexplored : scope.Explored found.recursive p x)
    (hnot : ¬ Overtaken scope.definitions found x) (hnode : out.store.get? x = some node) :
    out.Turns node (p.staying found) (p.staying found) := by
  rw [h.get?_eq hx] at hnode
  cases href : node.isReference with
  | false => exact .plain href
  | true =>
    obtain ⟨-, htargets⟩ := (h.inlined.target_cases h.gather hx).resolve_left fun hover =>
      hnot hover.1
    obtain ⟨name, htarget, hstays⟩ := htargets node hnode href
    obtain ⟨-, z, node', hz, hnode', href', htarget'⟩ := h.inlined.closed h.gather
      (fun _ _ => h.explored_of_leads hp) hx hexplored node hnode
    obtain ⟨hmet, -⟩ := hz z name .refl ⟨node', hnode', href' ▸ href, htarget' ▸ htarget⟩
    exact .old href htarget (Progress.mem_staying.2 ⟨hmet, hstays.2⟩)

/-- **A walk over what is explored meets no name that stays.** -/
theorem meets_of_explored (hp : scope.Finished found.recursive p)
    (hids : ∀ x ∈ ids, scope.Covered root x ∧ scope.Explored found.recursive p x ∧
      Intact scope.definitions found out.store x) :
    out.Meets ids (p.staying found) (p.staying found) := by
  refine Scope.meets_of_known (fun x hx => (h.flatBody (hids x hx).1).grounded) ?_
  intro x hx y node hy hnode
  obtain ⟨hcovered, hexplored, hintact⟩ := hids x hx
  have hboth : scope.Covered root y ∧ scope.Explored found.recursive p y := by
    clear hnode
    induction hy with
    | refl => exact ⟨hcovered, hexplored⟩
    | @tail y z _ hchild ih =>
      obtain ⟨node, hnode, hheld⟩ := hchild.holds
      rw [h.get?_eq ih.1] at hnode
      refine ⟨h.inlined.covered_of_holds h.gather ih.1 ⟨node, hnode, hheld⟩, ?_⟩
      exact (h.inlined.closed h.gather (fun _ _ => h.explored_of_leads hp) ih.1 ih.2 node
        hnode).1 z hheld
  exact h.turns_of_explored hp hboth.1 hboth.2 (hintact y hy) hnode

end Cleaned

end SchemaGraph
