import SchemaGraph.Proofs.Gather.Cycles
import SchemaGraph.Proofs.Grounded

/-!
The names that `gather` meets, in order, without what else it notes. `Meets` says which names a walk
over a list of nodes adds to those met before. Each such walk over a root is a run of `gather`.

* `walks_of_meets` — the rest of the notes can be filled in;
* `run_of_walks` — the task list follows a walk;
* `gather_of_meets` — **a walk over the root that begins with nothing is a run**.
-/

namespace SchemaGraph

namespace Scope

/-- **The names that are met.** Walking the nodes of a list one after the other turns the names met
before into those met after; the body of a new name is walked at its first occurrence. -/
inductive Meets (scope : Scope) : List NodeId → List String → List String → Prop where
  | nil (met : List String) : Meets scope [] met met
  | plain {id : NodeId} {node : Node} {ids rest : List NodeId} {met mid last : List String}
      (hnode : scope.store.get? id = some node) (hids : scope.store.childIds id = .ok ids)
      (href : node.isReference = false) (hbelow : Meets scope ids met mid)
      (hrest : Meets scope rest mid last) : Meets scope (id :: rest) met last
  | old {id : NodeId} {node : Node} {name : String} {ids rest : List NodeId}
      {met mid last : List String}
      (hnode : scope.store.get? id = some node) (hids : scope.store.childIds id = .ok ids)
      (href : node.isReference = true) (htarget : node.target = some name) (hname : name ∈ met)
      (hbelow : Meets scope ids met mid) (hrest : Meets scope rest mid last) :
      Meets scope (id :: rest) met last
  | new {id body : NodeId} {node : Node} {name : String} {ids rest : List NodeId}
      {met inner mid last : List String}
      (hnode : scope.store.get? id = some node) (hids : scope.store.childIds id = .ok ids)
      (href : node.isReference = true) (htarget : node.target = some name) (hname : name ∉ met)
      (hbody : scope.definitions.get? name = some body)
      (hinner : Meets scope [body] (met ++ [name]) inner) (hbelow : Meets scope ids inner mid)
      (hrest : Meets scope rest mid last) : Meets scope (id :: rest) met last

/-- The names that are met at a node before its children: none, or a new name and those of its body.
-/
inductive Turns (scope : Scope) (node : Node) (met : List String) : List String → Prop where
  | plain (href : node.isReference = false) : Turns scope node met met
  | old {name : String} (href : node.isReference = true) (htarget : node.target = some name)
      (hname : name ∈ met) : Turns scope node met met
  | new {name : String} {body : NodeId} {inner : List String} (href : node.isReference = true)
      (htarget : node.target = some name) (hname : name ∉ met)
      (hbody : scope.definitions.get? name = some body)
      (hinner : Meets scope [body] (met ++ [name]) inner) : Turns scope node met inner

variable {scope : Scope} {id : NodeId} {node other : Node} {ids others rest : List NodeId}
  {met mid last : List String}

theorem Turns.congr (h : scope.Turns node met mid) (href : other.isReference = node.isReference)
    (htarget : other.target = node.target) : scope.Turns other met mid := by
  cases h with
  | plain href' => exact .plain (href.trans href')
  | old href' htarget' hname => exact .old (href.trans href') (htarget.trans htarget') hname
  | new href' htarget' hname hbody hinner =>
    exact .new (href.trans href') (htarget.trans htarget') hname hbody hinner

theorem Meets.cons {turned : List String} (hnode : scope.store.get? id = some node)
    (hids : scope.store.childIds id = .ok ids) (hturn : scope.Turns node met turned)
    (hbelow : scope.Meets ids turned mid) (hrest : scope.Meets rest mid last) :
    scope.Meets (id :: rest) met last := by
  cases hturn with
  | plain href => exact .plain hnode hids href hbelow hrest
  | old href htarget hname => exact .old hnode hids href htarget hname hbelow hrest
  | new href htarget hname hbody hinner =>
    exact .new hnode hids href htarget hname hbody hinner hbelow hrest

theorem Meets.eq_of_nil (h : scope.Meets [] met last) : last = met := by
  cases h
  rfl

theorem Meets.append (h : scope.Meets ids met mid) :
    scope.Meets others mid last → scope.Meets (ids ++ others) met last := by
  induction h with
  | nil met => exact fun h' => h'
  | plain hnode hids href hbelow _ _ ih =>
    exact fun h' => .plain hnode hids href hbelow (ih h')
  | old hnode hids href htarget hname hbelow _ _ ih =>
    exact fun h' => .old hnode hids href htarget hname hbelow (ih h')
  | new hnode hids href htarget hname hbody hinner hbelow _ _ _ ih =>
    exact fun h' => .new hnode hids href htarget hname hbody hinner hbelow (ih h')

/-- **Where all names were met before, no name is new.** Walks over finite trees whose occurrences
are of names met before meet no others. -/
theorem meets_of_known {P : Node → Prop} (hfinite : ∀ x ∈ ids, scope.store.Grounded P x)
    (hknown : ∀ x ∈ ids, ∀ y node, scope.store.Below x y → scope.store.get? y = some node →
      scope.Turns node met met) : scope.Meets ids met met := by
  have hone : ∀ x, scope.store.Grounded P x → (∀ y node, scope.store.Below x y →
      scope.store.get? y = some node → scope.Turns node met met) →
      ∀ rest, scope.Meets rest met met → scope.Meets (x :: rest) met met := by
    intro x hx
    induction hx with
    | @node x node kind hnode hkind hfits _ _ ih =>
      intro hknown rest hrest
      have hids : scope.store.childIds x = .ok (node.orderedChildren kind) :=
        Store.childIds_eq_ok.2 ⟨node, kind, hnode, hkind, hfits, rfl⟩
      refine .cons hnode hids (hknown x node .refl hnode) ?_ hrest
      -- the children one after the other
      have hkids : ∀ child ∈ node.orderedChildren kind, ∀ rest, scope.Meets rest met met →
          scope.Meets (child :: rest) met met := by
        intro child hchild
        refine ih child ((Node.mem_orderedChildren hfits).1 hchild) fun y node' hy hnode' => ?_
        exact hknown y node' (.head ⟨_, hids, hchild⟩ hy) hnode'
      generalize node.orderedChildren kind = kids at hkids
      induction kids with
      | nil => exact .nil met
      | cons child kids ihkids =>
        refine hkids child List.mem_cons_self kids (ihkids fun x hx => ?_)
        exact hkids x (List.mem_cons_of_mem _ hx)
  induction ids with
  | nil => exact .nil met
  | cons x ids ih =>
    refine hone x (hfinite x List.mem_cons_self) (hknown x List.mem_cons_self) ids ?_
    exact ih (fun y hy => hfinite y (List.mem_cons_of_mem _ hy))
      fun y hy => hknown y (List.mem_cons_of_mem _ hy)

/-! ### Filling in the notes -/

/-- Each walk over names is one over the whole state. -/
theorem walks_of_meets (h : scope.Meets ids met last) : ∀ p : Progress, p.expansions.keys = met →
    ∃ q, scope.Walks ids p q ∧ q.expansions.keys = last := by
  induction h with
  | nil met => exact fun p hp => ⟨p, .nil p, hp⟩
  | @plain id node _ _ _ _ _ hnode hids href _ _ ihbelow ihrest =>
    intro p hp
    obtain ⟨q, hq, hkeys⟩ := ihbelow (p.mark scope.discriminatorKey id node) hp
    obtain ⟨r, hr, hkeys⟩ := ihrest q hkeys
    exact ⟨r, .enter hnode hids (.plain href) hq hr, hkeys⟩
  | @old id node name _ _ _ _ _ hnode hids href htarget hname _ _ ihbelow ihrest =>
    intro p hp
    -- the body of the name is walked, or is being walked
    have henter : ∃ entered, scope.Enters id node p entered := by
      obtain ⟨state, hstate⟩ := Option.isSome_iff_exists.1 (OrderedMap.mem_keys_iff.1 (hp ▸ hname))
      cases state with
      | inProgress => exact ⟨_, .closing name href htarget hstate⟩
      | done => exact ⟨_, .known name href htarget hstate⟩
    obtain ⟨entered, henter⟩ := henter
    obtain ⟨q, hq, hkeys⟩ := ihbelow entered (by rw [henter.expansions_eq, hp])
    obtain ⟨r, hr, hkeys⟩ := ihrest q hkeys
    exact ⟨r, .enter hnode hids henter hq hr, hkeys⟩
  | @new id body node name _ _ _ _ _ _ hnode hids href htarget hname hbody _ _ _ ihinner ihbelow
      ihrest =>
    intro p hp
    have hnew : p.expansions.get? name = none := OrderedMap.get?_eq_none.2 (hp ▸ hname)
    have hopens : (scope.opens id node name p).expansions.keys = p.expansions.keys ++ [name] :=
      keys_opens hnew
    obtain ⟨inner, hinner, hinnerkeys⟩ := ihinner (scope.opens id node name p) (by rw [hopens, hp])
    have hclosed : (inner.finishBody name).expansions.keys = inner.expansions.keys :=
      keys_finishBody (hinner.mem_keys_of_opens hnew)
    obtain ⟨q, hq, hkeys⟩ := ihbelow (inner.finishBody name) (hclosed.trans hinnerkeys)
    obtain ⟨r, hr, hkeys⟩ := ihrest q hkeys
    exact ⟨r, .expand hnode hids href htarget hnew hbody hinner hq hr, hkeys⟩

/-! ### The task list -/

theorem step_of_enters {p entered : Progress} {depth : Nat} {tasks : List Task}
    (hnode : scope.store.get? id = some node) (hids : scope.store.childIds id = .ok ids)
    (h : scope.Enters id node p entered) :
    scope.step (p.gathering (.enter (depth + 1) id :: tasks)) =
      .ok (entered.gathering (ids.map (Task.enter depth) ++ tasks)) := by
  have hread := Store.node_eq_ok.2 hnode
  cases h with
  | plain href =>
    simp only [step, Progress.gathering, enter, hread, hids, href, bind, Except.bind,
      Bool.false_eq_true, if_false]
    rfl
  | known name href htarget hstate =>
    simp only [step, Progress.gathering, enter, hread, hids, href, htarget, meet, bind, Except.bind,
      if_true, hstate]
    rfl
  | closing name href htarget hstate =>
    simp only [step, Progress.gathering, enter, hread, hids, href, htarget, meet, bind, Except.bind,
      if_true, hstate]
    rfl

theorem step_of_opens {p : Progress} {depth : Nat} {tasks : List Task} {name : String}
    {body : NodeId} (hnode : scope.store.get? id = some node)
    (hids : scope.store.childIds id = .ok ids) (href : node.isReference = true)
    (htarget : node.target = some name) (hnew : p.expansions.get? name = none)
    (hbody : scope.definitions.get? name = some body) :
    scope.step (p.gathering (.enter (depth + 1) id :: tasks)) =
      .ok ((scope.opens id node name p).gathering (.enter scope.store.depthLimit body ::
        .finish name :: (ids.map (Task.enter depth) ++ tasks))) := by
  have hread := Store.node_eq_ok.2 hnode
  simp only [step, Progress.gathering, enter, hread, hids, href, htarget, meet, bind, Except.bind,
    if_true, hnew, hbody]
  rfl

/-- A walk that goes through has been over finite trees only. -/
theorem Walks.grounded {p q : Progress} (h : scope.Walks ids p q) :
    ∀ id ∈ ids, scope.store.Grounded (fun _ => True) id := by
  have hcons : ∀ {id : NodeId} {ids rest : List NodeId}, scope.store.childIds id = .ok ids →
      (∀ child ∈ ids, scope.store.Grounded (fun _ => True) child) →
      (∀ x ∈ rest, scope.store.Grounded (fun _ => True) x) →
      ∀ x ∈ id :: rest, scope.store.Grounded (fun _ => True) x := by
    intro id ids rest hids hkids hrest x hx
    rcases List.mem_cons.1 hx with rfl | hx
    · obtain ⟨node, kind, hnode, hkind, hfits, rfl⟩ := Store.childIds_eq_ok.1 hids
      exact .node hnode hkind hfits trivial fun child hchild =>
        hkids child ((Node.mem_orderedChildren hfits).2 hchild)
    · exact hrest x hx
  induction h with
  | nil p => exact fun id hid => absurd hid List.not_mem_nil
  | enter hnode hids henter _ _ ihbelow ihrest => exact hcons hids ihbelow ihrest
  | expand hnode hids href htarget hnew hbody _ _ _ _ ihbelow ihrest =>
    exact hcons hids ihbelow ihrest

/-- **The task list follows a walk** where no path comes to the bound on the depth. The bodies that
are walked on the way are finite trees, so they end before it. -/
theorem run_of_walks {p q : Progress} (h : scope.Walks ids p q) :
    ∀ {depth : Nat}, (∀ id ∈ ids, scope.store.Reach depth id) → ∀ tasks,
      scope.run (p.gathering (ids.map (Task.enter depth) ++ tasks)) =
        scope.run (q.gathering tasks) := by
  induction h with
  | nil p => exact fun _ _ => rfl
  | @enter id node ids rest p entered q r hnode hids henter _ _ ihbelow ihrest =>
    intro depth hreach tasks
    have hid := hreach id List.mem_cons_self
    cases depth with
    | zero => exact absurd hid Store.not_reach_zero
    | succ depth =>
      have hkids : ∀ child ∈ ids, scope.store.Reach depth child :=
        fun child hchild => hid.child ⟨ids, hids, hchild⟩
      rw [List.map_cons, List.cons_append,
        run_of_step (List.cons_ne_nil _ _) (step_of_enters hnode hids henter), ihbelow hkids]
      exact ihrest (fun x hx => hreach x (List.mem_cons_of_mem _ hx)) tasks
  | @expand id body node name ids rest p inner q r hnode hids href htarget hnew hbody hwalk _ _
      ihinner ihbelow ihrest =>
    intro depth hreach tasks
    have hid := hreach id List.mem_cons_self
    cases depth with
    | zero => exact absurd hid Store.not_reach_zero
    | succ depth =>
      have hkids : ∀ child ∈ ids, scope.store.Reach depth child :=
        fun child hchild => hid.child ⟨ids, hids, hchild⟩
      have hinner : ∀ x ∈ [body], scope.store.Reach scope.store.depthLimit x :=
        fun x hx => (hwalk.grounded x hx).reach_depthLimit
      -- the body, the task that closes it, the children, the other nodes
      rw [List.map_cons, List.cons_append,
        run_of_step (List.cons_ne_nil _ _) (step_of_opens hnode hids href htarget hnew hbody)]
      have hrun := ihinner hinner (.finish name :: (ids.map (Task.enter depth) ++
        (rest.map (Task.enter (depth + 1)) ++ tasks)))
      rw [List.map_singleton, List.singleton_append] at hrun
      have hfinish : scope.step (inner.gathering (.finish name :: (ids.map (Task.enter depth) ++
          (rest.map (Task.enter (depth + 1)) ++ tasks)))) = .ok ((inner.finishBody name).gathering
            (ids.map (Task.enter depth) ++ (rest.map (Task.enter (depth + 1)) ++ tasks))) := rfl
      rw [hrun, run_of_step (List.cons_ne_nil _ _) hfinish, ihbelow hkids]
      exact ihrest (fun x hx => hreach x (List.mem_cons_of_mem _ hx)) tasks

/-- **A walk over the root that begins with nothing is a run of `gather`.** -/
theorem gather_of_walks {root : NodeId} {q : Progress} (h : scope.Walks [root] {} q) :
    scope.gather root = .ok q.found := by
  have hrun := run_of_walks h (fun x hx => (h.grounded x hx).reach_depthLimit) []
  show scope.run (Progress.gathering {} ([root].map (Task.enter scope.store.depthLimit) ++ [])) = _
  rw [hrun]
  exact run_of_nil rfl

theorem gather_of_meets {root : NodeId} (h : scope.Meets [root] [] met) :
    ∃ found, scope.gather root = .ok found ∧ found.occurrences.keys = met := by
  obtain ⟨q, hwalk, hkeys⟩ := walks_of_meets h {} rfl
  exact ⟨q.found, gather_of_walks hwalk, by rw [← hwalk.keys_eq rfl, hkeys]⟩

end Scope

end SchemaGraph
