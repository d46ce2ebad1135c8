import SchemaGraph.Proofs.Gather.Rounds

/-!
Why `gather` fails. All nodes that it is about to enter are covered, so where it fails it is at a
covered node that cannot be entered (`Scope.refuses_of_gather`).
-/

namespace SchemaGraph

namespace Scope

variable {scope : Scope} {g next : Gathering} {root : NodeId} {e : Error}

/-- Only covered nodes are still to be entered. -/
def Inside (scope : Scope) (root : NodeId) (g : Gathering) : Prop :=
  ∀ depth id, .enter depth id ∈ g.work → scope.Covered root id

theorem inside_start (scope : Scope) (root : NodeId) : scope.Inside root (scope.start root) := by
  intro depth id hmem
  cases List.mem_singleton.1 hmem
  exact .root

theorem roomy_start (hacyclic : scope.store.Acyclic) (root : NodeId) :
    scope.Roomy (scope.start root) := by
  intro depth id hmem
  cases List.mem_singleton.1 hmem
  exact hacyclic.reach_depthLimit root

theorem Inside.step (h : scope.Inside root g) (hwork : g.work ≠ [])
    (hstep : scope.step g = .ok next) : scope.Inside root next := by
  rcases step_cases hwork hstep with ⟨name, rest, hg, rfl⟩ |
    ⟨depth, id, node, ids, rest, hg, hnode, hids, hnext⟩
  · exact fun depth id hmem => h depth id (hg ▸ List.mem_cons_of_mem _ hmem)
  · have hid : scope.Covered root id := h _ id (hg ▸ List.mem_cons_self)
    have hbelow : ∀ d x, Task.enter d x ∈ ids.map (Task.enter depth) ++ rest →
        scope.Covered root x := by
      intro d x hmem
      rcases List.mem_append.1 hmem with hmem | hmem
      · obtain ⟨child, hchild, e⟩ := List.mem_map.1 hmem
        cases e
        exact .child hid ⟨ids, hids, hchild⟩
      · exact h d x (hg ▸ List.mem_cons_of_mem _ hmem)
    rcases hnext with ⟨p, -, rfl⟩ | ⟨name, body, href, htarget, -, hbody, rfl⟩
    · exact hbelow
    · intro d x hmem
      -- the body, the task that closes it, and what was to be done before
      rcases List.mem_cons.1 hmem with e | hmem
      · cases e
        exact .body hid ⟨node, hnode, href, htarget⟩ hbody
      · rcases List.mem_cons.1 hmem with e | hmem
        · cases e
        · exact hbelow d x hmem

theorem refuses_of_run (hacyclic : scope.store.Acyclic) (hroom : scope.Roomy g)
    (hinside : scope.Inside root g) (h : scope.run g = .error e) :
    ∃ expansions id, scope.Covered root id ∧ scope.Refuses expansions id e := by
  induction g using Scope.run.induct scope with
  | case1 g hwork =>
    rw [run_of_nil hwork] at h
    cases h
  | case2 g hwork e' hstep =>
    rw [run_of_error hwork hstep] at h
    cases h
    obtain ⟨depth, id, rest, hg, hrefuses⟩ := hroom.refuses hstep
    exact ⟨_, id, hinside _ id (hg ▸ List.mem_cons_self), hrefuses⟩
  | case3 g hwork next hstep ih =>
    rw [run_of_step hwork hstep] at h
    exact ih (hroom.step hacyclic hwork hstep) (hinside.step hwork hstep) h

/-- **`gather` fails at a covered node** that it cannot enter. -/
theorem refuses_of_gather (hacyclic : scope.store.Acyclic) (h : scope.gather root = .error e) :
    ∃ expansions id, scope.Covered root id ∧ scope.Refuses expansions id e :=
  refuses_of_run hacyclic (roomy_start hacyclic root) (inside_start scope root) h

end Scope

end SchemaGraph
