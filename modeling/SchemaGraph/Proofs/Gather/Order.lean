import SchemaGraph.Proofs.Gather.Cycles
import SchemaGraph.Proofs.Rebuild

/-!
The order in which `gather` meets names. The first occurrence of a name lies in the tree of the root
or in that of the body of a name that was met before (`first_occurrence`); each name that occurs has
a body (`exists_body`).
-/

namespace SchemaGraph

namespace Scope

variable {scope : Scope} {root : NodeId} {met : List String} {p q entered : Progress} {id : NodeId}
  {node : Node} {name : String} {ids : List NodeId}

/-- `id` lies in the tree of the root or in that of the body of one of `names`. -/
def Seated (scope : Scope) (root : NodeId) (names : List String) (id : NodeId) : Prop :=
  scope.store.Below root id ∨ ∃ name ∈ names, ∃ body, scope.definitions.get? name = some body ∧
    scope.store.Below body id

theorem Seated.mono {names others : List String} (h : scope.Seated root names id)
    (hsub : names ⊆ others) : scope.Seated root others id :=
  h.imp_right fun ⟨name, hname, hbody⟩ => ⟨name, hsub hname, hbody⟩

theorem Seated.child {names : List String} {child : NodeId} (h : scope.Seated root names id)
    (hchild : scope.store.IsChild id child) : scope.Seated root names child :=
  h.imp (·.tail hchild) fun ⟨name, hname, body, hbody, hbelow⟩ =>
    ⟨name, hname, body, hbody, hbelow.tail hchild⟩

/-- The names met are those with occurrences, and the first occurrence of each is seated before it:
below the root or below the body of a name before it in `met`. -/
structure Ordered (scope : Scope) (root : NodeId) (met : List String) (p : Progress) : Prop where
  occurs : ∀ name, p.found.occurrencesOf name ≠ [] ↔ name ∈ p.expansions.keys
  first : ∀ name id, (p.found.occurrencesOf name).head? = some id →
    scope.store.Below root id ∨ ∃ earlier body, met.idxOf earlier < met.idxOf name ∧
      scope.definitions.get? earlier = some body ∧ scope.store.Below body id

theorem Ordered.mark (h : scope.Ordered root met p) (key : String) (id : NodeId) (node : Node) :
    scope.Ordered root met (p.mark key id node) := by
  constructor
  · intro name
    rw [Gathered.occurrencesOf, occurrences_mark]
    exact h.occurs name
  · intro name x
    rw [Gathered.occurrencesOf, occurrences_mark]
    exact h.first name x

theorem Ordered.note (h : scope.Ordered root met p) (hname : name ∈ p.expansions.keys) :
    scope.Ordered root met (p.note name id) := by
  have hold := (h.occurs name).2 hname
  simp only [Progress.note, Gathered.noteOccurrence]
  split
  · exact h
  · constructor
    · intro other
      by_cases ho : other = name
      · subst ho
        simpa [Gathered.occurrencesOf] using hname
      · simpa [Gathered.occurrencesOf, OrderedMap.get?_insert, ho] using h.occurs other
    · intro other x hx
      by_cases ho : other = name
      · subst ho
        refine h.first other x ?_
        rw [Gathered.occurrencesOf, OrderedMap.get?_insert_self, Option.getD_some,
          List.head?_append_of_ne_nil _ hold] at hx
        exact hx
      · refine h.first other x ?_
        simpa [Gathered.occurrencesOf, OrderedMap.get?_insert, ho] using hx

theorem Ordered.enters (h : scope.Ordered root met p) (henter : scope.Enters id node p entered) :
    scope.Ordered root met entered := by
  cases henter with
  | plain => exact h.mark _ _ _
  | known name _ _ hstate => exact (h.mark _ _ _).note (OrderedMap.mem_keys_of_get? hstate)
  | closing name _ _ hstate =>
    have hnote : scope.Ordered root met ((p.mark scope.discriminatorKey id node).note name id) :=
      (h.mark _ _ _).note (OrderedMap.mem_keys_of_get? hstate)
    exact ⟨hnote.occurs, hnote.first⟩

/-- Noting the first occurrence of a name and opening its body. -/
theorem Ordered.opens (h : scope.Ordered root met p) (hnew : p.expansions.get? name = none)
    (hmet : (scope.opens id node name p).expansions.keys <+: met)
    (hid : scope.Seated root p.expansions.keys id) :
    scope.Ordered root met (scope.opens id node name p) := by
  have hkey := OrderedMap.get?_eq_none.1 hnew
  have hnone : (p.mark scope.discriminatorKey id node).found.occurrencesOf name = [] := by
    by_contra hne
    exact hkey (((h.mark scope.discriminatorKey id node).occurs name).1 hne)
  have hof : ∀ other, (scope.opens id node name p).found.occurrencesOf other =
      if other = name then [id] else p.found.occurrencesOf other := by
    intro other
    simp only [Scope.opens, Progress.openBody, Progress.note, Gathered.noteOccurrence, hnone,
      List.not_mem_nil, if_false, List.nil_append]
    by_cases ho : other = name
    · simp [Gathered.occurrencesOf, ho]
    · simp [Gathered.occurrencesOf, OrderedMap.get?_insert, ho, occurrences_mark]
  constructor
  · intro other
    rw [hof, keys_opens hnew]
    by_cases ho : other = name
    · simp [ho]
    · simpa [ho] using h.occurs other
  · intro other x hx
    rw [hof] at hx
    by_cases ho : other = name
    · subst ho
      simp only [if_true, List.head?_cons, Option.some.injEq] at hx
      subst hx
      rcases hid with hid | ⟨earlier, hearlier, body, hbody, hbelow⟩
      · exact .inl hid
      · exact .inr ⟨earlier, body, idxOf_lt_of_opens hnew hmet hearlier, hbody, hbelow⟩
    · rw [if_neg ho] at hx
      exact h.first other x hx

theorem Ordered.finishBody (h : scope.Ordered root met p) (hname : name ∈ p.expansions.keys) :
    scope.Ordered root met (p.finishBody name) := by
  refine ⟨fun other => ?_, h.first⟩
  rw [Progress.finishBody, OrderedMap.keys_insert_of_mem _ hname]
  exact h.occurs other

/-- A walk over seated nodes keeps the order. -/
theorem Walks.ordered (h : scope.Walks ids p q) (hmet : q.expansions.keys <+: met)
    (hids : ∀ id ∈ ids, scope.Seated root p.expansions.keys id) (hp : scope.Ordered root met p) :
    scope.Ordered root met q := by
  induction h with
  | nil p => exact hp
  | enter hnode hkids henter hbelow hrest ihbelow ihrest =>
    have hid := hids _ List.mem_cons_self
    refine ihrest hmet (fun x hx => ?_)
      (ihbelow (hrest.le.keys.trans hmet) (fun x hx => ?_) (hp.enters henter))
    · exact (hids x (List.mem_cons_of_mem _ hx)).mono (henter.le.trans hbelow.le).keys.subset
    · exact (hid.child ⟨_, hkids, hx⟩).mono henter.le.keys.subset
  | @expand id body node name _ _ p inner q _ hnode hkids _ _ hnew hbody hinner hbelow hrest ihinner
      ihbelow ihrest =>
    have hid := hids _ List.mem_cons_self
    have hname : name ∈ (scope.opens id node name p).expansions.keys := by
      rw [keys_opens hnew]
      simp
    have hgrow : p.Le (inner.finishBody name) :=
      ((le_opens scope _ _ _ _).trans hinner.le).trans (Progress.le_finishBody _ _)
    have hmet_q := hrest.le.keys.trans hmet
    have hmet_inner : inner.expansions.keys <+: met :=
      ((Progress.le_finishBody _ _).trans hbelow.le).keys.trans hmet_q
    refine ihrest hmet (fun x hx => ?_) (ihbelow hmet_q (fun x hx => ?_) ?_)
    · exact (hids x (List.mem_cons_of_mem _ hx)).mono (hgrow.trans hbelow.le).keys.subset
    · exact (hid.child ⟨_, hkids, hx⟩).mono hgrow.keys.subset
    · refine Ordered.finishBody (ihinner hmet_inner (fun x hx => ?_)
        (hp.opens hnew (hinner.le.keys.trans hmet_inner) hid)) (hinner.le.keys.subset hname)
      rw [List.mem_singleton.1 hx]
      exact .inr ⟨name, hname, body, hbody, .refl⟩

variable {found : Gathered}

theorem keys_eq_of_gather (h : scope.gather root = .ok found) :
    ∃ p, scope.Walks [root] {} p ∧ p.found = found ∧ p.expansions.keys = found.occurrences.keys := by
  obtain ⟨p, hwalk, rfl⟩ := walks_of_gather h
  exact ⟨p, hwalk, rfl, hwalk.keys_eq rfl⟩

/-- **The first occurrence of a name** lies in the tree of the root or in that of a body whose name
was met before. -/
theorem first_occurrence (h : scope.gather root = .ok found)
    (hfirst : (found.occurrencesOf name).head? = some id) :
    scope.store.Below root id ∨ ∃ earlier body,
      found.occurrences.keys.idxOf earlier < found.occurrences.keys.idxOf name ∧
        scope.definitions.get? earlier = some body ∧ scope.store.Below body id := by
  obtain ⟨p, hwalk, rfl, hkeys⟩ := keys_eq_of_gather h
  rw [← hkeys]
  refine (hwalk.ordered (List.prefix_refl _) (fun x hx => ?_) ⟨fun other => ?_, ?_⟩).first name id
    hfirst
  · rw [List.mem_singleton.1 hx]
    exact .inl .refl
  · simp [Gathered.occurrencesOf]
  · intro other x hx
    simp [Gathered.occurrencesOf] at hx

theorem exists_body (h : scope.gather root = .ok found) (hname : scope.Occurs root name) :
    ∃ body, scope.definitions.get? name = some body := by
  have hkey := (mem_keys_iff_occurs h).2 hname
  obtain ⟨p, hwalk, rfl, hkeys⟩ := keys_eq_of_gather h
  obtain ⟨body, hbody, -⟩ := hwalk.body_noted (hkeys ▸ hkey)
    (by simp)
  exact ⟨body, hbody⟩

theorem Covered.isChild {x child : NodeId} (hx : scope.Covered root x)
    (h : scope.gather root = .ok found) (hchild : ∃ node, scope.store.get? x = some node ∧
      child ∈ node.storedIds) : scope.store.IsChild x child := by
  obtain ⟨p, hwalk, -⟩ := walks_of_gather h
  obtain ⟨kids, hkids⟩ := (noted_of_covered hwalk hx).entered
  refine ⟨kids, hkids, ?_⟩
  obtain ⟨node, hnode, hheld⟩ := hchild
  obtain ⟨kind, -, hfits, rfl⟩ := Store.childIds_parts hkids hnode
  exact (Node.mem_orderedChildren hfits).2 hheld

theorem Covered.held {x child : NodeId} (hx : scope.Covered root x)
    (h : scope.gather root = .ok found) (hchild : ∃ node, scope.store.get? x = some node ∧
      child ∈ node.storedIds) : scope.Covered root child :=
  .child hx (hx.isChild h hchild)

end Scope

end SchemaGraph
