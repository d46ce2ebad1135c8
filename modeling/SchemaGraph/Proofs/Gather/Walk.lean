import SchemaGraph.Reference.Gather
import SchemaGraph.Proofs.Trees

/-!
The walk of `gather` without its list of tasks. `Walks` says what walking a list of nodes makes of
the results; the walk over a body stands inside the walk over the occurrence that opens it. Every
run of the task list that comes to an end is such a walk (`walks_of_gather`), so what `gather` finds
is proved by induction on `Walks`.
-/

namespace SchemaGraph

/-- The state of a walk without its tasks. -/
structure Progress where
  frames : List String := []
  expansions : OrderedMap Expansion := .empty
  found : Gathered := {}

namespace Progress

/-- Notes the marker of a node, if it has one. -/
def mark (key : String) (id : NodeId) (node : Node) (p : Progress) : Progress :=
  { p with
    found :=
      match node.metadataValue? key with
      | some discriminator => p.found.noteMarker id discriminator
      | none => p.found }

def note (name : String) (id : NodeId) (p : Progress) : Progress :=
  { p with found := p.found.noteOccurrence name id }

/-- Marks the names from the innermost frame out to `name`. -/
def closeCycle (name : String) (p : Progress) : Progress :=
  { p with
    found := { p.found with recursive := p.found.recursive.insertMany (cycleTo name p.frames) } }

def openBody (name : String) (p : Progress) : Progress :=
  { p with frames := name :: p.frames, expansions := p.expansions.insert name .inProgress }

def finishBody (name : String) (p : Progress) : Progress :=
  { p with frames := p.frames.tail, expansions := p.expansions.insert name .done }

def gathering (p : Progress) (work : List Task) : Gathering :=
  ⟨work, p.frames, p.expansions, p.found⟩

end Progress

def Gathering.progress (g : Gathering) : Progress := ⟨g.frames, g.expansions, g.found⟩

@[simp]
theorem Gathering.gathering_progress (g : Gathering) : g.progress.gathering g.work = g := rfl

namespace Scope

/-- What entering a node that opens no body makes of the results. -/
inductive Enters (scope : Scope) (id : NodeId) (node : Node) (p : Progress) : Progress → Prop where
  | plain (href : node.isReference = false) :
      Enters scope id node p (p.mark scope.discriminatorKey id node)
  | known (name : String) (href : node.isReference = true) (htarget : node.target = some name)
      (hstate : p.expansions.get? name = some .done) :
      Enters scope id node p ((p.mark scope.discriminatorKey id node).note name id)
  | closing (name : String) (href : node.isReference = true) (htarget : node.target = some name)
      (hstate : p.expansions.get? name = some .inProgress) :
      Enters scope id node p
        (((p.mark scope.discriminatorKey id node).note name id).closeCycle name)

/-- The results after entering an occurrence of a new name and starting the walk over its body. -/
def opens (scope : Scope) (id : NodeId) (node : Node) (name : String) (p : Progress) : Progress :=
  ((p.mark scope.discriminatorKey id node).note name id).openBody name

/-- **The walk.** What walking the nodes of a list one after the other makes of the results. -/
inductive Walks (scope : Scope) : List NodeId → Progress → Progress → Prop where
  | nil (p : Progress) : Walks scope [] p p
  | enter {id : NodeId} {node : Node} {ids rest : List NodeId} {p entered q r : Progress}
      (hnode : scope.store.get? id = some node) (hids : scope.store.childIds id = .ok ids)
      (henter : scope.Enters id node p entered) (hbelow : Walks scope ids entered q)
      (hrest : Walks scope rest q r) : Walks scope (id :: rest) p r
  | expand {id body : NodeId} {node : Node} {name : String} {ids rest : List NodeId}
      {p inner q r : Progress}
      (hnode : scope.store.get? id = some node) (hids : scope.store.childIds id = .ok ids)
      (href : node.isReference = true) (htarget : node.target = some name)
      (hnew : p.expansions.get? name = none) (hbody : scope.definitions.get? name = some body)
      (hinner : Walks scope [body] (scope.opens id node name p) inner)
      (hbelow : Walks scope ids (inner.finishBody name) q)
      (hrest : Walks scope rest q r) : Walks scope (id :: rest) p r

/-! ### The run of the task list -/

/-- The run from `g` ends after `n` steps with `found`. -/
inductive Finishes (scope : Scope) (found : Gathered) : Nat → Gathering → Prop where
  | done {g : Gathering} (hwork : g.work = []) (hfound : g.found = found) :
      Finishes scope found 0 g
  | step {n : Nat} {g next : Gathering} (hwork : g.work ≠ []) (hstep : scope.step g = .ok next)
      (hrest : Finishes scope found n next) : Finishes scope found (n + 1) g

variable {scope : Scope}

theorem run_of_nil {g : Gathering} (hwork : g.work = []) : scope.run g = .ok g.found := by
  rw [run, dif_pos hwork]

theorem run_of_error {g : Gathering} {e : Error} (hwork : g.work ≠ [])
    (hstep : scope.step g = .error e) : scope.run g = .error e := by
  rw [run, dif_neg hwork]
  split
  · rename_i e' hstep'
    rw [hstep] at hstep'
    cases hstep'
    rfl
  · rename_i next hstep'
    rw [hstep] at hstep'
    cases hstep'

theorem run_of_step {g next : Gathering} (hwork : g.work ≠ []) (hstep : scope.step g = .ok next) :
    scope.run g = scope.run next := by
  conv_lhs => rw [run, dif_neg hwork]
  split
  · rename_i e hstep'
    rw [hstep] at hstep'
    cases hstep'
  · rename_i next' hstep'
    rw [hstep] at hstep'
    cases hstep'
    rfl

theorem finishes_of_run {g : Gathering} {found : Gathered} (h : scope.run g = .ok found) :
    ∃ n, scope.Finishes found n g := by
  induction g using Scope.run.induct scope with
  | case1 g hwork =>
    rw [run_of_nil hwork] at h
    cases h
    exact ⟨0, .done hwork rfl⟩
  | case2 g hwork e hstep =>
    rw [run_of_error hwork hstep] at h
    cases h
  | case3 g hwork next hstep ih =>
    rw [run_of_step hwork hstep] at h
    obtain ⟨n, hn⟩ := ih h
    exact ⟨n + 1, .step hwork hstep hn⟩

theorem step_enter {g next : Gathering} {depth : Nat} {id : NodeId} {rest : List Task}
    (hwork : g.work = .enter depth id :: rest) (h : scope.step g = .ok next) :
    ∃ below node ids, depth = below + 1 ∧ scope.store.get? id = some node ∧
      scope.store.childIds id = .ok ids ∧
      ((∃ p, scope.Enters id node g.progress p ∧
          next = p.gathering (ids.map (Task.enter below) ++ rest)) ∨
        ∃ name body, node.isReference = true ∧ node.target = some name ∧
          g.expansions.get? name = none ∧ scope.definitions.get? name = some body ∧
          next = (scope.opens id node name g.progress).gathering
            (.enter scope.store.depthLimit body :: .finish name ::
              (ids.map (Task.enter below) ++ rest))) := by
  unfold step at h
  rw [hwork] at h
  cases depth with
  | zero => cases h
  | succ below =>
    simp only [enter] at h
    obtain ⟨node, hnode, h⟩ := bind_eq_ok.1 h
    obtain ⟨ids, hids, h⟩ := bind_eq_ok.1 h
    refine ⟨below, node, ids, rfl, Store.node_eq_ok.1 hnode, hids, ?_⟩
    cases href : node.isReference with
    | false =>
      rw [href] at h
      exact .inl ⟨_, .plain href, (pure_eq_ok.1 h).symm⟩
    | true =>
      rw [href] at h
      cases htarget : node.target with
      | none => simp [htarget] at h
      | some name =>
        simp only [htarget, if_true, meet] at h
        cases hstate : g.expansions.get? name with
        | none =>
          cases hbody : scope.definitions.get? name with
          | none => simp [hstate, hbody] at h
          | some body =>
            simp only [hstate, hbody, Except.ok.injEq] at h
            exact .inr ⟨name, body, rfl, rfl, hstate, hbody, h.symm⟩
        | some state =>
          cases state with
          | done =>
            simp only [hstate, Except.ok.injEq] at h
            exact .inl ⟨_, .known name href htarget hstate, h.symm⟩
          | inProgress =>
            simp only [hstate, Except.ok.injEq] at h
            exact .inl ⟨_, .closing name href htarget hstate, h.symm⟩

/-- A run splits at the end of its first tasks: they are a walk, and the run goes on after them. -/
theorem walks_of_finishes {found : Gathered} (n : Nat) :
    ∀ (ids : List NodeId) (depth : Nat) (rest : List Task) (g : Gathering),
      g.work = ids.map (Task.enter depth) ++ rest → scope.Finishes found n g →
      ∃ q m, m ≤ n ∧ scope.Walks ids g.progress q ∧ scope.Finishes found m (q.gathering rest) := by
  induction n using Nat.strongRecOn with
  | ind n ih =>
    intro ids depth rest g hwork h
    cases ids with
    | nil =>
      refine ⟨g.progress, n, Nat.le_refl n, .nil _, ?_⟩
      have hg : g.progress.gathering rest = g := by
        rw [← Gathering.gathering_progress g, hwork]
        rfl
      rwa [hg]
    | cons id others =>
      cases h with
      | done hnil => simp [hnil] at hwork
      | @step n _ next _ hstep hrest =>
        obtain ⟨below, node, ids, -, hnode, hids, ⟨p, henter, rfl⟩ |
          ⟨name, body, href, htarget, hnew, hbody, rfl⟩⟩ := step_enter hwork hstep
        · obtain ⟨q, m, hm, hbelow, hrest⟩ := ih n (by omega) ids below _ _ rfl hrest
          obtain ⟨r, k, hk, hothers, hrest⟩ := ih m (by omega) others depth rest _ rfl hrest
          exact ⟨r, k, by omega, .enter hnode hids henter hbelow hothers, hrest⟩
        · -- the body comes first, then its closing task, then the children
          obtain ⟨inner, m, hm, hinner, hrest⟩ := ih n (by omega) [body] scope.store.depthLimit
            (.finish name :: (ids.map (Task.enter below) ++ (others.map (Task.enter depth) ++ rest)))
            _ rfl hrest
          cases hrest with
          | done hnil => cases hnil
          | @step m _ next _ hfinish hrest =>
            cases hfinish
            obtain ⟨q, k, hk, hbelow, hrest⟩ := ih m (by omega) ids below
              (others.map (Task.enter depth) ++ rest)
              ((inner.finishBody name).gathering _) rfl hrest
            obtain ⟨r, l, hl, hothers, hrest⟩ := ih k (by omega) others depth rest _ rfl hrest
            exact ⟨r, l, by omega,
              .expand hnode hids href htarget hnew hbody hinner hbelow hothers, hrest⟩

/-- **A successful run is a walk** over the root that begins with nothing. -/
theorem walks_of_gather {root : NodeId} {found : Gathered} (h : scope.gather root = .ok found) :
    ∃ p, scope.Walks [root] {} p ∧ p.found = found := by
  obtain ⟨n, hn⟩ := finishes_of_run h
  obtain ⟨q, m, -, hwalk, hend⟩ :=
    walks_of_finishes n [root] scope.store.depthLimit [] _ rfl hn
  refine ⟨q, hwalk, ?_⟩
  cases hend with
  | done _ hfound => exact hfound
  | step hwork => exact absurd rfl hwork

/-! ### Runs on given schemas -/

/-- The outcome of a run that ends within `steps` steps. -/
def runWithin (scope : Scope) : (steps : Nat) → Gathering → Option (Except Error Gathered)
  | 0, _ => none
  | steps + 1, g =>
    if g.work = [] then some (.ok g.found)
    else
      match scope.step g with
      | .error e => some (.error e)
      | .ok next => runWithin scope steps next

theorem run_of_runWithin {steps : Nat} {g : Gathering} {outcome : Except Error Gathered}
    (h : scope.runWithin steps g = some outcome) : scope.run g = outcome := by
  induction steps generalizing g with
  | zero => cases h
  | succ steps ih =>
    rw [runWithin] at h
    split at h
    · rename_i hwork
      rw [run_of_nil hwork]
      exact Option.some.inj h
    · rename_i hwork
      cases hstep : scope.step g with
      | error e =>
        rw [hstep] at h
        rw [run_of_error hwork hstep]
        exact Option.some.inj h
      | ok next =>
        rw [hstep] at h
        rw [run_of_step hwork hstep]
        exact ih h

theorem gather_of_runWithin {root : NodeId} {outcome : Except Error Gathered} (steps : Nat)
    (h : scope.runWithin steps { work := [.enter scope.store.depthLimit root] } = some outcome) :
    scope.gather root = outcome :=
  run_of_runWithin h

end Scope

end SchemaGraph
