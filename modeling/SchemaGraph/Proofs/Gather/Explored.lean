import SchemaGraph.Proofs.Gather.Order

/-!
What is behind a walk. When the body of a name is walked to its end, all that is mentioned below it
was met, and the bodies of those names were walked to their ends too, but for names that are marked:
an occurrence of a name in progress closes a cycle.

* `Walks.explored` — the nodes of a walk are explored after it, and so are all finished bodies;
* `Walks.exists_first` — a name that is new in a walk occurs first below its nodes or in a body that
  they lead to.
-/

namespace SchemaGraph

namespace Scope

/-- All names mentioned below `x` are met, and the bodies of those that are not in `marked` are
walked to their ends. -/
def Explored (scope : Scope) (marked : NameSet) (p : Progress) (x : NodeId) : Prop :=
  ∀ y name, scope.store.Below x y → scope.store.Mentions y name →
    name ∈ p.expansions.keys ∧ (name ∉ marked → p.expansions.get? name = some .done)

/-- Below the bodies that are walked to their ends everything is explored. -/
def Finished (scope : Scope) (marked : NameSet) (p : Progress) : Prop :=
  ∀ name body, p.expansions.get? name = some .done → scope.definitions.get? name = some body →
    scope.Explored marked p body

variable {scope : Scope} {marked : NameSet} {p q entered inner : Progress} {id x : NodeId}
  {node : Node} {name other : String} {ids : List NodeId}

/-! ### Nothing is opened again -/

theorem done_opens (hnew : p.expansions.get? name = none)
    (h : p.expansions.get? other = some .done) :
    (scope.opens id node name p).expansions.get? other = some .done := by
  have hne : other ≠ name := by
    rintro rfl
    rw [hnew] at h
    cases h
  have hopens : (scope.opens id node name p).expansions =
      p.expansions.insert name .inProgress := rfl
  rw [hopens, OrderedMap.get?_insert_of_ne _ _ hne, h]

theorem done_finishBody (h : p.expansions.get? other = some .done) :
    (p.finishBody name).expansions.get? other = some .done := by
  have hfinish : (p.finishBody name).expansions = p.expansions.insert name .done := rfl
  rw [hfinish, OrderedMap.get?_insert]
  split
  · rfl
  · exact h

theorem Walks.done (h : scope.Walks ids p q) :
    p.expansions.get? other = some .done → q.expansions.get? other = some .done := by
  induction h with
  | nil => exact fun hdone => hdone
  | enter _ _ henter _ _ ihbelow ihrest =>
    intro hdone
    rw [← henter.expansions_eq] at hdone
    exact ihrest (ihbelow hdone)
  | expand _ _ _ _ hnew _ _ _ _ ihinner ihbelow ihrest =>
    intro hdone
    exact ihrest (ihbelow (done_finishBody (ihinner (done_opens hnew hdone))))

theorem Explored.walks (h : scope.Explored marked p x) (hwalk : scope.Walks ids p q) :
    scope.Explored marked q x := by
  intro y name hy hname
  obtain ⟨hkey, hdone⟩ := h y name hy hname
  exact ⟨hwalk.le.keys.subset hkey, fun hnot => hwalk.done (hdone hnot)⟩

theorem Explored.below {y : NodeId} (h : scope.Explored marked p x) (hy : scope.store.Below x y) :
    scope.Explored marked p y :=
  fun z name hz hname => h z name (hy.trans hz) hname

/-- A node is explored when its children are and the name that it mentions is met. -/
theorem explored_of_children {ids : List NodeId} (hids : scope.store.childIds x = .ok ids)
    (hkids : ∀ child ∈ ids, scope.Explored marked p child)
    (hself : ∀ name, scope.store.Mentions x name → name ∈ p.expansions.keys ∧
      (name ∉ marked → p.expansions.get? name = some .done)) : scope.Explored marked p x := by
  intro y name hy hname
  rcases (Store.below_of_childIds hids).1 hy with rfl | ⟨child, hchild, hy⟩
  · exact hself name hname
  · exact hkids child hchild y name hy hname

theorem explored_congr (h : ∀ name, p.expansions.get? name = q.expansions.get? name)
    (hx : scope.Explored marked p x) : scope.Explored marked q x := by
  intro y name hy hname
  obtain ⟨hkey, hdone⟩ := hx y name hy hname
  rw [OrderedMap.mem_keys_iff, h, ← OrderedMap.mem_keys_iff] at hkey
  exact ⟨hkey, fun hnot => (h name).symm.trans (hdone hnot)⟩

/-! ### Walks -/

/-- What a node mentions when it opens no body. -/
theorem Enters.mentioned (h : scope.Enters id node p entered) (hp : Framed p)
    (hnode : scope.store.get? id = some node)
    (hmarked : ∀ name, name ∈ entered.found.recursive → name ∈ marked)
    (hname : scope.store.Mentions id name) : name ∈ entered.expansions.keys ∧
      (name ∉ marked → entered.expansions.get? name = some .done) := by
  obtain ⟨node', hnode', href', htarget'⟩ := hname
  rw [hnode] at hnode'
  cases hnode'
  rw [h.expansions_eq]
  cases h with
  | plain href => simp [href] at href'
  | known other href htarget hstate =>
    rw [htarget'] at htarget
    cases htarget
    exact ⟨OrderedMap.mem_keys_of_get? hstate, fun _ => hstate⟩
  | closing other href htarget hstate =>
    rw [htarget'] at htarget
    cases htarget
    refine ⟨OrderedMap.mem_keys_of_get? hstate, fun hnot => absurd ?_ hnot⟩
    -- the name itself is the last of the cycle that is closed
    have hframe := (hp.inProgress name).1 hstate
    have hcycle : name ∈ cycleTo name p.frames := by simp [cycleTo, hframe]
    exact hmarked name (NameSet.mem_insertMany.2 (.inl hcycle))

theorem Finished.finishBody (h : scope.Finished marked inner) {body : NodeId}
    (hbody : scope.definitions.get? name = some body) (hx : scope.Explored marked inner body)
    (hname : name ∈ inner.expansions.keys) : scope.Finished marked (inner.finishBody name) := by
  have hgrow : ∀ x, scope.Explored marked inner x →
      scope.Explored marked (inner.finishBody name) x := by
    intro x hx y other hy hother
    obtain ⟨hkey, hdone⟩ := hx y other hy hother
    exact ⟨(Progress.le_finishBody name inner).keys.subset hkey,
      fun hnot => done_finishBody (hdone hnot)⟩
  intro other otherBody hdone hget
  by_cases e : other = name
  · subst e
    rw [hbody] at hget
    cases hget
    exact hgrow body hx
  · have hfinish : (inner.finishBody name).expansions = inner.expansions.insert name .done := rfl
    rw [hfinish, OrderedMap.get?_insert_of_ne _ _ e] at hdone
    exact hgrow otherBody (h other otherBody hdone hget)

theorem Finished.opens (h : scope.Finished marked p) (hnew : p.expansions.get? name = none) :
    scope.Finished marked (scope.opens id node name p) := by
  have hopens : (scope.opens id node name p).expansions =
      p.expansions.insert name .inProgress := rfl
  intro other body hdone hget
  have hne : other ≠ name := by
    rintro rfl
    rw [hopens, OrderedMap.get?_insert_self] at hdone
    cases hdone
  rw [hopens, OrderedMap.get?_insert_of_ne _ _ hne] at hdone
  intro y mentioned hy hmention
  obtain ⟨hkey, hdone'⟩ := h other body hdone hget y mentioned hy hmention
  exact ⟨(OrderedMap.keys_prefix_insert _ _ _).subset hkey,
    fun hnot => done_opens hnew (hdone' hnot)⟩

/-- **A walk leaves its nodes explored**, and all bodies that it finishes. -/
theorem Walks.explored (h : scope.Walks ids p q) : Framed p →
    (∀ name, name ∈ q.found.recursive → name ∈ marked) → scope.Finished marked p →
      scope.Finished marked q ∧ ∀ id ∈ ids, scope.Explored marked q id := by
  induction h with
  | nil => exact fun _ _ hp => ⟨hp, by simp⟩
  | @enter id node kids rest p entered q r hnode hids henter hbelow hrest ihbelow ihrest =>
    intro hframed hmarked hp
    have hmarked_q : ∀ name, name ∈ q.found.recursive → name ∈ marked :=
      fun name hname => hmarked name (hrest.le.recursive name hname)
    have hentered : scope.Finished marked entered := by
      intro name body hdone hget
      rw [henter.expansions_eq] at hdone
      exact explored_congr (fun other => by rw [henter.expansions_eq]) (hp name body hdone hget)
    obtain ⟨hq, hkids⟩ := ihbelow (hframed.enters henter) hmarked_q hentered
    obtain ⟨hr, hothers⟩ := ihrest (hbelow.framed (hframed.enters henter)) hmarked hq
    refine ⟨hr, fun x hx => ?_⟩
    rcases List.mem_cons.1 hx with rfl | hx
    · refine explored_of_children hids (fun child hchild => (hkids child hchild).walks hrest)
        fun name hname => ?_
      obtain ⟨hkey, hdone⟩ := henter.mentioned hframed hnode
        (fun name hname => hmarked_q name (hbelow.le.recursive name hname)) hname
      exact ⟨(hbelow.le.trans hrest.le).keys.subset hkey,
        fun hnot => hrest.done (hbelow.done (hdone hnot))⟩
    · exact hothers x hx
  | @expand id body node name kids rest p inner q r hnode hids href htarget hnew hbody hinner hbelow
      hrest ihinner ihbelow ihrest =>
    intro hframed hmarked hp
    have hmarked_q : ∀ name, name ∈ q.found.recursive → name ∈ marked :=
      fun name hname => hmarked name (hrest.le.recursive name hname)
    have hopened : Framed (scope.opens id node name p) := hframed.opens hnew
    obtain ⟨hfinished, hexplored⟩ := ihinner hopened
      (fun other hother => hmarked_q other
        (((Progress.le_finishBody name inner).trans hbelow.le).recursive other hother))
      (hp.opens hnew)
    have hkey : name ∈ inner.expansions.keys := hinner.mem_keys_of_opens hnew
    have hclosed := hfinished.finishBody hbody (hexplored body (by simp)) hkey
    have hframed' : Framed (inner.finishBody name) := hinner.finished_framed hframed hnew
    obtain ⟨hq, hkids⟩ := ihbelow hframed' hmarked_q hclosed
    obtain ⟨hr, hothers⟩ := ihrest (hbelow.framed hframed') hmarked hq
    have hdone : r.expansions.get? name = some .done := by
      refine hrest.done (hbelow.done ?_)
      exact OrderedMap.get?_insert_self _ _ _
    refine ⟨hr, fun x hx => ?_⟩
    rcases List.mem_cons.1 hx with rfl | hx
    · refine explored_of_children hids (fun child hchild => (hkids child hchild).walks hrest)
        fun other hother => ?_
      obtain ⟨node', hnode', -, htarget'⟩ := hother
      rw [hnode] at hnode'
      cases hnode'
      rw [htarget] at htarget'
      cases htarget'
      exact ⟨OrderedMap.mem_keys_of_get? hdone, fun _ => hdone⟩
    · exact hothers x hx

theorem finished_empty : scope.Finished marked {} := by
  intro name body hdone
  cases hdone

/-! ### First occurrences -/

theorem Covered.head {y : NodeId} (hstep : scope.store.IsChild x id) (hy : scope.Covered id y) :
    scope.Covered x y := by
  induction hy with
  | root => exact .child .root hstep
  | child _ hchild ih => exact .child ih hchild
  | body _ hname hbody ih => exact .body ih hname hbody

theorem Covered.head_body {body y : NodeId} (hname : scope.store.Mentions x name)
    (hbody : scope.definitions.get? name = some body) (hy : scope.Covered body y) :
    scope.Covered x y := by
  induction hy with
  | root => exact .body .root hname hbody
  | child _ hchild ih => exact .child ih hchild
  | body _ hname hbody ih => exact .body ih hname hbody

/-- Names that were not met have no occurrences. -/
def Fresh (p : Progress) : Prop :=
  ∀ name, name ∉ p.expansions.keys → p.found.occurrencesOf name = []

theorem fresh_empty : Fresh {} := by
  intro name _
  simp [Gathered.occurrencesOf]

theorem occurrencesOf_note_of_ne (id : NodeId) (h : other ≠ name) :
    (p.note name id).found.occurrencesOf other = p.found.occurrencesOf other := by
  simp only [Progress.note, Gathered.noteOccurrence]
  split
  · rfl
  · simp [Gathered.occurrencesOf, OrderedMap.get?_insert, h]

theorem Fresh.mark (h : Fresh p) (key : String) (id : NodeId) (node : Node) :
    Fresh (p.mark key id node) := by
  intro other hother
  rw [Gathered.occurrencesOf, occurrences_mark]
  exact h other hother

theorem Fresh.note (h : Fresh p) (hname : name ∈ p.expansions.keys) : Fresh (p.note name id) := by
  intro other hother
  have hne : other ≠ name := fun e => hother (e ▸ hname)
  rw [occurrencesOf_note_of_ne id hne]
  exact h other hother

theorem Fresh.enters (h : Fresh p) (henter : scope.Enters id node p entered) : Fresh entered := by
  have hmark := h.mark scope.discriminatorKey id node
  cases henter with
  | plain => exact hmark
  | known name _ _ hstate => exact hmark.note (OrderedMap.mem_keys_of_get? hstate)
  | closing name _ _ hstate =>
    have hnote : Fresh ((p.mark scope.discriminatorKey id node).note name id) :=
      hmark.note (OrderedMap.mem_keys_of_get? hstate)
    exact hnote

theorem Fresh.opens (h : Fresh p) (hnew : p.expansions.get? name = none) :
    Fresh (scope.opens id node name p) := by
  intro other hother
  rw [keys_opens hnew, List.mem_append, List.mem_singleton, not_or] at hother
  have hnote : (scope.opens id node name p).found =
      ((p.mark scope.discriminatorKey id node).note name id).found := rfl
  rw [hnote, occurrencesOf_note_of_ne id hother.2]
  exact h.mark _ _ _ other hother.1

theorem Fresh.finishBody (h : Fresh p) (hname : name ∈ p.expansions.keys) :
    Fresh (p.finishBody name) := by
  intro other hother
  rw [keys_finishBody hname] at hother
  exact h other hother

theorem Walks.fresh (h : scope.Walks ids p q) : Fresh p → Fresh q := by
  induction h with
  | nil => exact fun hp => hp
  | enter _ _ henter _ _ ihbelow ihrest => exact fun hp => ihrest (ihbelow (hp.enters henter))
  | @expand _ _ _ name _ _ _ _ _ _ _ _ _ _ hnew _ hinner _ _ ihinner ihbelow ihrest =>
    intro hp
    have hkey := hinner.mem_keys_of_opens hnew
    exact ihrest (ihbelow ((ihinner (hp.opens hnew)).finishBody hkey))

theorem first_of_le (h : p.Le q) (hfirst : (p.found.occurrencesOf name).head? = some x) :
    (q.found.occurrencesOf name).head? = some x := by
  obtain ⟨others, hothers⟩ := h.occurrences name
  rw [← hothers, List.head?_append, hfirst]
  rfl

/-- The occurrence at which a name is new is its first. -/
theorem first_opens (hp : Fresh p) (hnew : p.expansions.get? name = none) :
    ((scope.opens id node name p).found.occurrencesOf name).head? = some id := by
  have hnone : (p.mark scope.discriminatorKey id node).found.occurrencesOf name = [] :=
    hp.mark _ _ _ name (OrderedMap.get?_eq_none.1 hnew)
  simp only [opens, Progress.openBody, Progress.note, Gathered.noteOccurrence, hnone,
    List.not_mem_nil, if_false, List.nil_append]
  simp [Gathered.occurrencesOf]

/-- **A walk meets what its nodes lead to**: the first occurrence of a new name is among that. -/
theorem Walks.exists_first (h : scope.Walks ids p q) : Fresh p → name ∉ p.expansions.keys →
    name ∈ q.expansions.keys → ∃ id ∈ ids, ∃ y, scope.Covered id y ∧ scope.store.Mentions y name ∧
      (q.found.occurrencesOf name).head? = some y := by
  induction h with
  | nil => exact fun _ hnot hmem => absurd hmem hnot
  | @enter id node kids rest p entered q r hnode hids henter hbelow hrest ihbelow ihrest =>
    intro hp hnot hmem
    have hentered := hp.enters henter
    by_cases hq : name ∈ q.expansions.keys
    · obtain ⟨child, hchild, y, hy, hmention, hfirst⟩ :=
        ihbelow hentered (by rwa [henter.expansions_eq]) hq
      exact ⟨id, List.mem_cons_self, y, hy.head ⟨_, hids, hchild⟩, hmention,
        first_of_le hrest.le hfirst⟩
    · obtain ⟨x, hx, hfound⟩ := ihrest (hbelow.fresh hentered) hq hmem
      exact ⟨x, List.mem_cons_of_mem _ hx, hfound⟩
  | @expand id body node other kids rest p inner q r hnode hids href htarget hnew hbody hinner
      hbelow hrest ihinner ihbelow ihrest =>
    intro hp hnot hmem
    have hopened : Fresh (scope.opens id node other p) := hp.opens hnew
    have hkey : other ∈ inner.expansions.keys := hinner.mem_keys_of_opens hnew
    have hclosed := (hinner.fresh hopened).finishBody hkey
    have hmention : scope.store.Mentions id other := ⟨node, hnode, href, htarget⟩
    have hgrow : inner.Le r := (Progress.le_finishBody other inner).trans (hbelow.le.trans hrest.le)
    by_cases he : name = other
    · -- the name of the body that is opened here
      subst he
      exact ⟨id, List.mem_cons_self, id, .root, hmention,
        first_of_le (hinner.le.trans hgrow) (first_opens hp hnew)⟩
    by_cases hin : name ∈ inner.expansions.keys
    · have hbefore : name ∉ (scope.opens id node other p).expansions.keys := by
        rw [keys_opens hnew]
        simp [hnot, he]
      obtain ⟨x, hx, y, hy, hname, hfirst⟩ := ihinner hopened hbefore hin
      rw [List.mem_singleton.1 hx] at hy
      exact ⟨id, List.mem_cons_self, y, hy.head_body hmention hbody, hname,
        first_of_le hgrow hfirst⟩
    rw [← keys_finishBody hkey] at hin
    by_cases hq : name ∈ q.expansions.keys
    · obtain ⟨child, hchild, y, hy, hname, hfirst⟩ := ihbelow hclosed hin hq
      exact ⟨id, List.mem_cons_self, y, hy.head ⟨_, hids, hchild⟩, hname,
        first_of_le hrest.le hfirst⟩
    · obtain ⟨x, hx, hfound⟩ := ihrest (hbelow.fresh hclosed) hq hmem
      exact ⟨x, List.mem_cons_of_mem _ hx, hfound⟩

/-- Where no name of a kind occurs first, none is met. -/
theorem Walks.filter_keys (h : scope.Walks ids p q) (hp : Fresh p) {kind : String → Bool}
    (hidle : ∀ id ∈ ids, ∀ y name, scope.Covered id y → scope.store.Mentions y name →
      kind name = true → (q.found.occurrencesOf name).head? ≠ some y) :
    q.expansions.keys.filter kind = p.expansions.keys.filter kind := by
  obtain ⟨new, hnew⟩ := h.le.keys
  have hnodup := q.expansions.nodup_keys
  rw [← hnew] at hnodup
  have hnone : new.filter kind = [] := by
    refine List.filter_eq_nil_iff.2 fun name hname hkind => ?_
    have hnot : name ∉ p.expansions.keys := fun hmem =>
      (List.nodup_append.1 hnodup).2.2 name hmem name hname rfl
    obtain ⟨id, hid, y, hy, hmention, hfirst⟩ :=
      h.exists_first hp hnot (hnew ▸ List.mem_append_right _ hname)
    exact hidle id hid y name hy hmention hkind hfirst
  rw [← hnew, List.filter_append, hnone, List.append_nil]

end Scope

end SchemaGraph
