import Mathlib.Algebra.Order.BigOperators.Group.List
import Mathlib.Data.Set.Card
import SchemaGraph.Proofs.Acyclic
import SchemaGraph.Proofs.Gather.Coverage

/-!
The work loop of `gather`, round by round. On a store without a cycle of children it ends after
finitely many rounds, whatever the definitions refer to and however often nodes are shared.

* `Scope.step_cases` — what one round does;
* `Scope.workload_step` — the nodes still to enter, those of bodies not met yet included, get fewer
  with each round;
* `Scope.gather_ends` — the loop ends, and the body of each name goes on the work list at most once.
-/

namespace SchemaGraph

theorem Store.childIds_ne_tooDeep {s : Store} {id : NodeId} {e : Error}
    (h : s.childIds id = .error e) (x : NodeId) : e ≠ .tooDeep x := by
  rintro rfl
  unfold childIds wellShaped kindOf Node.checkSlots Store.node at h
  simp only [bind_eq_error, pure, Except.pure] at h
  grind

theorem Store.childIds_of_node_error {s : Store} {id : NodeId} {e : Error}
    (h : s.node id = .error e) : s.childIds id = .error e := by
  simp [childIds, wellShaped, h, bind, Except.bind]

namespace Scope

variable {scope : Scope} {g next : Gathering} {root : NodeId} {name : String} {n : Nat}

/-! ### One round -/

/-- The round from `g` to `next` puts the body of `name` on the work list, in front of the task that
closes it. -/
structure Expands (scope : Scope) (name : String) (g next : Gathering) : Prop where
  frames : next.frames = name :: g.frames
  work : ∃ body rest, scope.definitions.get? name = some body ∧
    next.work = .enter scope.store.depthLimit body :: .finish name :: rest

/-- **What a round does**: it closes a body, enters a node, or enters an occurrence of a new name and
opens its body. -/
theorem step_cases (hwork : g.work ≠ []) (h : scope.step g = .ok next) :
    (∃ name rest, g.work = .finish name :: rest ∧
        next = (g.progress.finishBody name).gathering rest) ∨
      ∃ depth id node ids rest, g.work = .enter (depth + 1) id :: rest ∧
        scope.store.get? id = some node ∧ scope.store.childIds id = .ok ids ∧
        ((∃ p, scope.Enters id node g.progress p ∧
            next = p.gathering (ids.map (Task.enter depth) ++ rest)) ∨
          ∃ name body, node.isReference = true ∧ node.target = some name ∧
            g.expansions.get? name = none ∧ scope.definitions.get? name = some body ∧
            next = (scope.opens id node name g.progress).gathering
              (.enter scope.store.depthLimit body :: .finish name ::
                (ids.map (Task.enter depth) ++ rest))) := by
  cases hg : g.work with
  | nil => exact absurd hg hwork
  | cons task rest =>
    cases task with
    | finish name =>
      left
      unfold step at h
      rw [hg] at h
      cases h
      exact ⟨name, rest, rfl, rfl⟩
    | enter depth id =>
      right
      obtain ⟨below, node, ids, rfl, hnode, hids, hcases⟩ := step_enter hg h
      exact ⟨below, id, node, ids, rest, rfl, hnode, hids, hcases⟩

/-- Why a walk that has met the names of `expansions` cannot enter the node at `id`. -/
inductive Refuses (scope : Scope) (expansions : OrderedMap Expansion) (id : NodeId) :
    Error → Prop where
  | children {e : Error} (hids : scope.store.childIds id = .error e) :
      Refuses scope expansions id e
  | target {node : Node} {ids : List NodeId} (hnode : scope.store.get? id = some node)
      (hids : scope.store.childIds id = .ok ids) (href : node.isReference = true)
      (htarget : node.target = none) :
      Refuses scope expansions id (.malformed .targetMissing (.node id))
  | definition {node : Node} {ids : List NodeId} {name : String}
      (hnode : scope.store.get? id = some node) (hids : scope.store.childIds id = .ok ids)
      (href : node.isReference = true) (htarget : node.target = some name)
      (hnew : expansions.get? name = none) (hbody : scope.definitions.get? name = none) :
      Refuses scope expansions id (.missingDefinition name id)

theorem Refuses.ne_tooDeep {expansions : OrderedMap Expansion} {id : NodeId} {e : Error}
    (h : scope.Refuses expansions id e) (x : NodeId) : e ≠ .tooDeep x := by
  cases h with
  | children hids => exact Store.childIds_ne_tooDeep hids x
  | target => exact nofun
  | definition => exact nofun

theorem meet_error {id : NodeId} {e : Error} (h : scope.meet name id g = .error e) :
    g.expansions.get? name = none ∧ scope.definitions.get? name = none ∧
      e = .missingDefinition name id := by
  unfold meet at h
  split at h
  · cases h
  · cases h
  · rename_i hnew
    split at h
    · rename_i hbody
      cases h
      exact ⟨hnew, hbody, rfl⟩
    · cases h

/-- **Why a round fails.** -/
theorem step_error {e : Error} (h : scope.step g = .error e) :
    ∃ depth id rest, g.work = .enter depth id :: rest ∧
      (depth = 0 ∧ e = .tooDeep id ∨
        ∃ below, depth = below + 1 ∧ scope.Refuses g.expansions id e) := by
  unfold step at h
  split at h
  · cases h
  · cases h
  · rename_i id rest hg
    cases h
    exact ⟨0, id, rest, hg, .inl ⟨rfl, rfl⟩⟩
  · rename_i depth id rest hg
    refine ⟨depth + 1, id, rest, hg, .inr ⟨depth, rfl, ?_⟩⟩
    simp only [enter, bind_eq_error] at h
    rcases h with h | ⟨node, hnode, h | ⟨ids, hids, h⟩⟩
    · exact .children (Store.childIds_of_node_error h)
    · exact .children h
    · split at h
      · rename_i href
        split at h
        · rename_i htarget
          cases h
          exact .target (Store.node_eq_ok.1 hnode) hids href htarget
        · rename_i name htarget
          obtain ⟨hnew, hbody, rfl⟩ := meet_error h
          exact .definition (Store.node_eq_ok.1 hnode) hids href htarget hnew hbody
      · cases h

theorem keys_step (hwork : g.work ≠ []) (h : scope.step g = .ok next) :
    g.expansions.keys ⊆ next.expansions.keys := by
  rcases step_cases hwork h with ⟨name, rest, -, rfl⟩ |
    ⟨depth, id, node, ids, rest, -, -, -, ⟨p, henter, rfl⟩ | ⟨name, body, -, -, -, -, rfl⟩⟩
  · exact (Progress.le_finishBody name g.progress).keys.subset
  · exact henter.le.keys.subset
  · exact (le_opens scope id node name g.progress).keys.subset

theorem Expands.met (h : scope.step g = .ok next) (hname : scope.Expands name g next) :
    name ∈ scope.definitions.keys ∧ name ∉ g.expansions.keys ∧ name ∈ next.expansions.keys := by
  have hframes := hname.frames
  obtain ⟨body, rest', hbody, hnext⟩ := hname.work
  have hwork : g.work ≠ [] := by
    intro hg
    unfold step at h
    rw [hg] at h
    cases h
    simp [hg] at hnext
  refine ⟨OrderedMap.mem_keys_of_get? hbody, ?_⟩
  rcases step_cases hwork h with ⟨other, rest, -, rfl⟩ |
    ⟨depth, id, node, ids, rest, -, -, -, ⟨p, henter, rfl⟩ | ⟨other, body, -, -, hnew, -, rfl⟩⟩
  · -- closing a body takes a frame away
    have hlength := congrArg List.length hframes
    simp only [Progress.gathering, Progress.finishBody, Gathering.progress, List.length_tail,
      List.length_cons] at hlength
    omega
  · have hkept : p.frames = g.frames := by cases henter <;> rfl
    simp [Progress.gathering, hkept] at hframes
  · simp only [Progress.gathering, opens, Progress.openBody, Progress.note, Progress.mark,
      Gathering.progress, List.cons.injEq] at hframes
    obtain ⟨rfl, -⟩ := hframes
    refine ⟨OrderedMap.get?_eq_none.1 hnew, ?_⟩
    simp [Progress.gathering, opens, Progress.openBody]

/-! ### Depth -/

/-- No task is stopped by the bound on its depth. -/
def Roomy (scope : Scope) (g : Gathering) : Prop :=
  ∀ depth id, .enter depth id ∈ g.work → scope.store.Reach depth id

theorem Roomy.step (hroom : scope.Roomy g) (hacyclic : scope.store.Acyclic) (hwork : g.work ≠ [])
    (h : scope.step g = .ok next) : scope.Roomy next := by
  rcases step_cases hwork h with ⟨name, rest, hg, rfl⟩ |
    ⟨depth, id, node, ids, rest, hg, -, hids, hnext⟩
  · exact fun depth id hmem => hroom depth id (hg ▸ List.mem_cons_of_mem _ hmem)
  · have hbelow : ∀ d x, Task.enter d x ∈ ids.map (Task.enter depth) ++ rest →
        scope.store.Reach d x := by
      intro d x hmem
      rcases List.mem_append.1 hmem with hmem | hmem
      · obtain ⟨child, hchild, e⟩ := List.mem_map.1 hmem
        cases e
        exact (hroom _ _ (hg ▸ List.mem_cons_self)).child ⟨ids, hids, hchild⟩
      · exact hroom d x (hg ▸ List.mem_cons_of_mem _ hmem)
    rcases hnext with ⟨p, -, rfl⟩ | ⟨name, body, -, -, -, -, rfl⟩
    · exact hbelow
    · intro d x hmem
      rcases List.mem_cons.1 hmem with e | hmem
      · cases e
        exact hacyclic.reach_depthLimit body
      · rcases List.mem_cons.1 hmem with e | hmem
        · cases e
        · exact hbelow d x hmem

/-- A round with room fails for a reason of the schema. -/
theorem Roomy.refuses (hroom : scope.Roomy g) {e : Error} (h : scope.step g = .error e) :
    ∃ depth id rest, g.work = .enter (depth + 1) id :: rest ∧
      scope.Refuses g.expansions id e := by
  obtain ⟨depth, id, rest, hg, ⟨rfl, -⟩ | ⟨depth, rfl, hrefuses⟩⟩ := step_error h
  · exact absurd (hroom 0 id (hg ▸ List.mem_cons_self)) Store.not_reach_zero
  · exact ⟨depth, id, rest, hg, hrefuses⟩

/-! ### Fewer and fewer nodes to enter -/

/-- The rounds that a body can still take, if its name was not met yet: one for each node that a walk
over the body meets, and one to close it. -/
def waiting (scope : Scope) (expansions : OrderedMap Expansion) (entry : String × NodeId) : Nat :=
  if (expansions.get? entry.1).isNone then
    (scope.store.treeWithin scope.store.depthLimit entry.2).length + 1
  else 0

def awaiting (scope : Scope) (expansions : OrderedMap Expansion) : Nat :=
  (scope.definitions.entries.map (scope.waiting expansions)).sum

/-- The rounds that the work can take, with all bodies that it can still meet. -/
def workload (scope : Scope) (g : Gathering) : Nat :=
  (scope.pending g).length + scope.awaiting g.expansions

theorem waiting_insert_le (scope : Scope) (expansions : OrderedMap Expansion) (name : String)
    (value : Expansion) (entry : String × NodeId) :
    scope.waiting (expansions.insert name value) entry ≤ scope.waiting expansions entry := by
  unfold waiting
  by_cases hnone : ((expansions.insert name value).get? entry.1).isNone
  · rw [if_pos hnone, if_pos (get?_isNone_insert_imp hnone)]
  · rw [if_neg hnone]
    exact Nat.zero_le _

theorem sum_waiting_insert_le (scope : Scope) (expansions : OrderedMap Expansion) (name : String)
    (value : Expansion) (entries : List (String × NodeId)) :
    (entries.map (scope.waiting (expansions.insert name value))).sum ≤
      (entries.map (scope.waiting expansions)).sum :=
  List.sum_le_sum fun entry _ => scope.waiting_insert_le expansions name value entry

/-- When a body is opened it does not wait any more. -/
theorem awaiting_insert {expansions : OrderedMap Expansion} {body : NodeId}
    (hnew : expansions.get? name = none) (hbody : scope.definitions.get? name = some body)
    (value : Expansion) :
    scope.awaiting (expansions.insert name value) +
        ((scope.store.treeWithin scope.store.depthLimit body).length + 1) ≤
      scope.awaiting expansions := by
  have hmem : (name, body) ∈ scope.definitions.entries := OrderedMap.mem_entries_iff.2 hbody
  have hbefore : scope.waiting expansions (name, body) =
      (scope.store.treeWithin scope.store.depthLimit body).length + 1 := by simp [waiting, hnew]
  have hafter : scope.waiting (expansions.insert name value) (name, body) = 0 := by simp [waiting]
  obtain ⟨before, after, hsplit⟩ := List.append_of_mem hmem
  simp only [awaiting, hsplit, List.map_append, List.sum_append, List.map_cons, List.sum_cons,
    hbefore, hafter]
  have := scope.sum_waiting_insert_le expansions name value before
  have := scope.sum_waiting_insert_le expansions name value after
  omega

/-- **Each round leaves less to do**, also one that opens a body. -/
theorem workload_step (hwork : g.work ≠ []) (h : scope.step g = .ok next) :
    scope.workload next < scope.workload g := by
  rcases step_cases hwork h with ⟨name, rest, hg, rfl⟩ |
    ⟨depth, id, node, ids, rest, hg, -, hids, hnext⟩
  · have := scope.sum_waiting_insert_le g.expansions name .done scope.definitions.entries
    simp only [workload, awaiting, pending, Progress.gathering, Progress.finishBody,
      Gathering.progress, hg, List.flatMap_cons, List.length_append, List.length_singleton]
    omega
  · have hentered : scope.pending g = some id ::
        scope.pending (g.progress.gathering (ids.map (Task.enter depth) ++ rest)) :=
      pending_enter hg hids rfl
    rw [workload, workload, hentered]
    rcases hnext with ⟨p, henter, rfl⟩ | ⟨name, body, -, -, hnew, hbody, rfl⟩
    · have hkept : p.expansions = g.expansions := by cases henter <;> rfl
      simp only [pending, Progress.gathering, hkept, List.length_cons]
      omega
    · have := awaiting_insert hnew hbody .inProgress
      simp only [pending, Progress.gathering, opens, Progress.openBody, Progress.note, Progress.mark,
        Gathering.progress, List.flatMap_cons, List.length_append, List.length_map, List.length_cons,
        List.length_nil]
      omega

/-! ### All rounds -/

/-- The state after `n` rounds of the loop from `g`; a round that fails ends it. -/
def after (scope : Scope) : (n : Nat) → Gathering → Except Error Gathering
  | 0, g => .ok g
  | n + 1, g => do
    let next ← scope.step g
    scope.after n next

/-- The loop from `g` is at its end after `n` rounds: no work is left, or a round has failed, and not
for want of depth. Its outcome is that of the run. -/
def EndsAfter (scope : Scope) (n : Nat) (g : Gathering) : Prop :=
  (∃ last, scope.after n g = .ok last ∧ last.work = [] ∧ scope.run g = .ok last.found) ∨
    ∃ e, scope.after n g = .error e ∧ (∀ id, e ≠ .tooDeep id) ∧ scope.run g = .error e

theorem exists_endsAfter (hacyclic : scope.store.Acyclic) (hroom : scope.Roomy g) :
    ∃ n ≤ scope.workload g, scope.EndsAfter n g := by
  induction g using Scope.run.induct scope with
  | case1 g hwork => exact ⟨0, Nat.zero_le _, .inl ⟨g, rfl, hwork, run_of_nil hwork⟩⟩
  | case2 g hwork e hstep =>
    obtain ⟨depth, id, rest, hg, hrefuses⟩ := hroom.refuses hstep
    refine ⟨1, ?_, .inr ⟨e, ?_, hrefuses.ne_tooDeep, run_of_error hwork hstep⟩⟩
    · simp only [workload, pending, hg, Store.treeWithin, List.flatMap_cons, List.map_cons,
        List.cons_append, List.length_cons]
      omega
    · simp [after, hstep, bind, Except.bind]
  | case3 g hwork next hstep ih =>
    obtain ⟨n, hn, hend⟩ := ih (hroom.step hacyclic hwork hstep)
    have hless := workload_step hwork hstep
    have hafter : scope.after (n + 1) g = scope.after n next := by
      simp [after, hstep, bind, Except.bind]
    refine ⟨n + 1, by omega, ?_⟩
    unfold EndsAfter
    rwa [hafter, run_of_step hwork hstep]

/-! ### Bodies that are put on the work list -/

def start (scope : Scope) (root : NodeId) : Gathering :=
  { work := [.enter scope.store.depthLimit root] }

/-- In round `n` of the loop over `root`, counted from zero, the body of `name` goes on the work list. -/
def ExpandsAt (scope : Scope) (root : NodeId) (n : Nat) (name : String) : Prop :=
  ∃ g next, scope.after n (scope.start root) = .ok g ∧ scope.step g = .ok next ∧
    scope.Expands name g next

theorem after_add (m n : Nat) (g : Gathering) :
    scope.after (m + n) g = scope.after m g >>= scope.after n := by
  induction m generalizing g with
  | zero => simp [after, bind, Except.bind]
  | succ m ih =>
    rw [Nat.add_right_comm]
    simp only [after, bind, Except.bind]
    cases scope.step g with
    | error e => rfl
    | ok next => exact ih next

theorem keys_after {last : Gathering} (h : scope.after n g = .ok last) :
    g.expansions.keys ⊆ last.expansions.keys := by
  induction n generalizing g with
  | zero =>
    cases h
    exact List.Subset.refl _
  | succ n ih =>
    obtain ⟨next, hstep, h⟩ := bind_eq_ok.1 h
    by_cases hwork : g.work = []
    · -- without work the state stays as it is
      have hsame : next = g := by
        unfold step at hstep
        rw [hwork] at hstep
        exact (Except.ok.inj hstep).symm
      rw [← hsame]
      exact ih h
    · exact List.Subset.trans (keys_step hwork hstep) (ih h)

theorem not_expandsAt_of_lt {m : Nat} (h : scope.ExpandsAt root m name) (hmn : m < n) :
    ¬ scope.ExpandsAt root n name := by
  rintro ⟨g', next', hafter', hstep', hname'⟩
  obtain ⟨g, next, hafter, hstep, hname⟩ := h
  obtain ⟨k, rfl⟩ := Nat.exists_eq_add_of_lt hmn
  have hnext : scope.after k next = .ok g' := by
    rw [show m + k + 1 = m + (k + 1) by omega, after_add, hafter] at hafter'
    obtain ⟨_, hsame, hrest⟩ := bind_eq_ok.1 hafter'
    cases hsame
    obtain ⟨next'', hnext, hrest⟩ := bind_eq_ok.1 hrest
    rw [hstep] at hnext
    cases hnext
    exact hrest
  exact (hname'.met hstep').2.1 (keys_after hnext (hname.met hstep).2.2)

theorem ExpandsAt.unique {m : Nat} (h : scope.ExpandsAt root m name)
    (h' : scope.ExpandsAt root n name) : m = n := by
  rcases Nat.lt_trichotomy m n with hlt | rfl | hlt
  · exact absurd h' (not_expandsAt_of_lt h hlt)
  · rfl
  · exact absurd h (not_expandsAt_of_lt h' hlt)

theorem encard_expandsAt_le (scope : Scope) (root : NodeId) :
    {n | ∃ name, scope.ExpandsAt root n name}.encard ≤ scope.definitions.size := by
  classical
  choose! expanded hexpanded using
    fun n (h : n ∈ {n | ∃ name, scope.ExpandsAt root n name}) => h
  have hmaps : Set.MapsTo expanded {n | ∃ name, scope.ExpandsAt root n name}
      (scope.definitions.keys.toFinset : Set String) := by
    intro n hn
    obtain ⟨g, next, -, hstep, hname⟩ := hexpanded n hn
    simpa using (hname.met hstep).1
  have hinj : Set.InjOn expanded {n | ∃ name, scope.ExpandsAt root n name} := by
    intro m hm n hn e
    have hm := hexpanded m hm
    rw [e] at hm
    exact hm.unique (hexpanded n hn)
  refine (Set.encard_le_encard_of_injOn hmaps hinj).trans ?_
  rw [Set.encard_coe_eq_coe_finsetCard, List.toFinset_card_of_nodup scope.definitions.nodup_keys]
  simp [OrderedMap.keys, Entries.names, OrderedMap.size]

theorem workload_start (scope : Scope) (root : NodeId) :
    scope.workload (scope.start root) =
      (scope.store.treeWithin scope.store.depthLimit root).length +
        (scope.definitions.values.map fun body =>
          (scope.store.treeWithin scope.store.depthLimit body).length + 1).sum := by
  have hall : scope.waiting .empty = fun entry =>
      (scope.store.treeWithin scope.store.depthLimit entry.2).length + 1 := by
    funext entry
    simp [waiting]
  simp [workload, pending, start, awaiting, hall, OrderedMap.values, Function.comp_def]

/-- **The work loop ends.** On a store without a cycle of children it is at its end after no more rounds
than the trees of the root and of all bodies have nodes, shared nodes counted as often as they are
met, and one for each definition. The body of each name goes on the work list at most once, so that
there are at most as many expansions as definitions. -/
theorem gather_ends (hacyclic : scope.store.Acyclic) (root : NodeId) :
    (∃ n ≤ (scope.store.treeWithin scope.store.depthLimit root).length +
          (scope.definitions.values.map fun body =>
            (scope.store.treeWithin scope.store.depthLimit body).length + 1).sum,
        scope.EndsAfter n (scope.start root)) ∧
      (∀ m n name, scope.ExpandsAt root m name → scope.ExpandsAt root n name → m = n) ∧
      {n | ∃ name, scope.ExpandsAt root n name}.encard ≤ scope.definitions.size := by
  refine ⟨?_, fun m n name h h' => h.unique h', scope.encard_expandsAt_le root⟩
  rw [← workload_start]
  refine exists_endsAfter hacyclic fun depth id hmem => ?_
  cases List.mem_singleton.1 hmem
  exact hacyclic.reach_depthLimit root

/-- `A` refers to itself and twice, in one shared node, to `B`, which refers to `A`. -/
def mutualScope : Scope where
  store := ⟨#[
    Node.reference "A",
    (Node.ofKind .tuple).withChild "items_schema" (.many [⟨2⟩, ⟨0⟩, ⟨2⟩]),
    Node.reference "B",
    (Node.ofKind .list).withChild "items_schema" (.one ⟨0⟩)]⟩
  definitions := .ofList [("A", ⟨1⟩), ("B", ⟨3⟩)]

theorem mutualScope_acyclic : mutualScope.store.Acyclic :=
  Store.acyclic_of_forall (fun id => if id.index = 1 ∨ id.index = 3 then 1 else 0)
    (by decide +kernel)

/-- The loop over mutually recursive definitions ends. -/
theorem mutualScope_ends :
    mutualScope.store.Acyclic ∧
      (∃ n ≤ (mutualScope.store.treeWithin mutualScope.store.depthLimit ⟨0⟩).length +
            (mutualScope.definitions.values.map fun body =>
              (mutualScope.store.treeWithin mutualScope.store.depthLimit body).length + 1).sum,
          mutualScope.EndsAfter n (mutualScope.start ⟨0⟩)) ∧
        (∀ m n name, mutualScope.ExpandsAt ⟨0⟩ m name → mutualScope.ExpandsAt ⟨0⟩ n name → m = n) ∧
        {n | ∃ name, mutualScope.ExpandsAt ⟨0⟩ n name}.encard ≤ mutualScope.definitions.size :=
  ⟨mutualScope_acyclic, gather_ends mutualScope_acyclic ⟨0⟩⟩

end Scope

end SchemaGraph
