import SchemaGraph.Proofs.Gather.Cycles
import SchemaGraph.Proofs.Gather.Rounds

/-!
What holds each time the work loop of `gather` goes round, on any store, also on one with a cycle of
children, where the loop would go on for ever: rounds are taken here with as much depth as they
need.

* `Scope.Round`, `Scope.Comes` — one round, and the states that the loop comes through;
* `Scope.Loop` — the invariant: the work list, the frames and the expansions tell the same;
* `Scope.loop_step` — a round keeps it;
* `Scope.loop_invariant` — **it holds at every round, and a name that is met again is marked with
  the names whose expansions are nested in its own**.
-/

namespace SchemaGraph

/-- The name whose body the task closes. -/
def Task.closes? : Task → Option String
  | .enter _ _ => none
  | .finish name => some name

def Task.deeper (more : Nat) : Task → Task
  | .enter depth id => .enter (depth + more) id
  | .finish name => .finish name

def Gathering.deeper (more : Nat) (g : Gathering) : Gathering :=
  { g with work := g.work.map (Task.deeper more) }

@[simp]
theorem Task.closes?_deeper (more : Nat) (task : Task) :
    (task.deeper more).closes? = task.closes? := by
  cases task <;> rfl

namespace Scope

/-! ### Rounds -/

/-- One round of the loop. Depth stops no round: `step` may be given more of it. -/
def Round (scope : Scope) (g next : Gathering) : Prop :=
  g.work ≠ [] ∧ ∃ more, scope.step (g.deeper more) = .ok next

/-- The loop over `root` comes to the last state by way of those of `past`, the latest first. -/
inductive Comes (scope : Scope) (root : NodeId) : List Gathering → Gathering → Prop where
  | start : Comes scope root [] (scope.start root)
  | round {past : List Gathering} {g next : Gathering} (h : Comes scope root past g)
      (hround : scope.Round g next) : Comes scope root (g :: past) next

variable {scope : Scope} {root id : NodeId} {g next before : Gathering} {past : List Gathering}
  {name other : String} {work below : List Task} {ids : List NodeId} {depth : Nat}

/-- **What a round does**: it closes a body, enters a node, or opens the body of a new name. -/
theorem Round.cases (h : scope.Round g next) :
    (∃ name rest more, g.work = .finish name :: rest ∧
        next = (g.progress.finishBody name).gathering (rest.map (Task.deeper more))) ∨
      ∃ depth id node ids rest below more, g.work = .enter depth id :: rest ∧
        scope.store.get? id = some node ∧ scope.store.childIds id = .ok ids ∧
        ((∃ p, scope.Enters id node g.progress p ∧
            next = p.gathering (ids.map (Task.enter below) ++ rest.map (Task.deeper more))) ∨
          ∃ name body, node.isReference = true ∧ node.target = some name ∧
            g.expansions.get? name = none ∧ scope.definitions.get? name = some body ∧
            next = (scope.opens id node name g.progress).gathering
              (.enter scope.store.depthLimit body :: .finish name ::
                (ids.map (Task.enter below) ++ rest.map (Task.deeper more)))) := by
  obtain ⟨hwork, more, hstep⟩ := h
  cases hg : g.work with
  | nil => exact absurd hg hwork
  | cons task rest =>
    have hdeeper : (g.deeper more).work = task.deeper more :: rest.map (Task.deeper more) := by
      simp [Gathering.deeper, hg]
    cases task with
    | finish name =>
      unfold step at hstep
      rw [hdeeper] at hstep
      cases hstep
      exact .inl ⟨name, rest, more, rfl, rfl⟩
    | enter depth id =>
      obtain ⟨below, node, ids, -, hnode, hids, hnext⟩ := step_enter hdeeper hstep
      exact .inr ⟨depth, id, node, ids, rest, below, more, rfl, hnode, hids, hnext⟩

/-- The rounds that the loop does are rounds, none of them given more depth. -/
theorem round_of_step (hwork : g.work ≠ []) (hstep : scope.step g = .ok next) :
    scope.Round g next := by
  have hsame : g.deeper 0 = g := by
    have hdeeper : Task.deeper 0 = id := funext fun task => by cases task <;> rfl
    rw [Gathering.deeper, hdeeper, List.map_id]
  exact ⟨hwork, 0, hsame.symm ▸ hstep⟩

theorem exists_comes {n : Nat} (h : scope.after n (scope.start root) = .ok g) :
    ∃ past, scope.Comes root past g := by
  induction n generalizing g with
  | zero =>
    cases h
    exact ⟨[], .start⟩
  | succ n ih =>
    rw [after_add n 1] at h
    obtain ⟨last, hlast, h⟩ := bind_eq_ok.1 h
    obtain ⟨_, hstep, h⟩ := bind_eq_ok.1 h
    cases h
    obtain ⟨past, hpast⟩ := ih hlast
    by_cases hwork : last.work = []
    · -- without work the state stays as it is
      unfold step at hstep
      rw [hwork] at hstep
      cases hstep
      exact ⟨past, hpast⟩
    · exact ⟨last :: past, hpast.round (round_of_step hwork hstep)⟩

/-! ### The states before -/

/-- The loop has come to each state of the past too. -/
theorem Comes.of_mem (h : scope.Comes root past g) (hbefore : before ∈ past) :
    ∃ earlier, scope.Comes root earlier before := by
  induction h with
  | start => cases hbefore
  | @round past g next h _ ih =>
    rcases List.mem_cons.1 hbefore with rfl | hbefore
    · exact ⟨past, h⟩
    · exact ih hbefore

theorem Round.keys_subset (h : scope.Round g next) : g.expansions.keys ⊆ next.expansions.keys := by
  rcases h.cases with ⟨name, rest, more, -, rfl⟩ |
    ⟨depth, id, node, ids, rest, below, more, -, -, -, ⟨p, henter, rfl⟩ |
      ⟨name, body, -, -, -, -, rfl⟩⟩
  · exact (Progress.le_finishBody name g.progress).keys.subset
  · exact henter.le.keys.subset
  · exact (le_opens scope id node name g.progress).keys.subset

theorem Comes.pairwise (h : scope.Comes root past g) :
    (g :: past).Pairwise fun later earlier => earlier.expansions.keys ⊆ later.expansions.keys := by
  induction h with
  | start => exact List.pairwise_singleton _ _
  | @round past g next _ hround ih =>
    refine List.pairwise_cons.2 ⟨fun earlier hearlier => ?_, ih⟩
    rcases List.mem_cons.1 hearlier with rfl | hearlier
    · exact hround.keys_subset
    · exact List.Subset.trans ((List.pairwise_cons.1 ih).1 earlier hearlier) hround.keys_subset

/-- Of two states of the past one has met all names of the other. -/
theorem Comes.keys_total (h : scope.Comes root past g) {before' : Gathering}
    (hbefore : before ∈ past) (hbefore' : before' ∈ past) :
    before.expansions.keys ⊆ before'.expansions.keys ∨
      before'.expansions.keys ⊆ before.expansions.keys := by
  let Ordered (a b : Gathering) : Prop :=
    a.expansions.keys ⊆ b.expansions.keys ∨ b.expansions.keys ⊆ a.expansions.keys
  have : Std.Symm Ordered := ⟨fun _ _ => Or.symm⟩
  have hpast : past.Pairwise Ordered := (List.pairwise_cons.1 h.pairwise).2.imp .inr
  exact hpast.forall_of_forall (fun _ _ => .inl (List.Subset.refl _)) hbefore hbefore'

/-! ### The invariant -/

/-- Where the loop over `root` walks when the tasks `below` come next: in the tree of the body that
they close first, or of the root if they close none. -/
def WalksIn (scope : Scope) (root : NodeId) (below : List Task) (id : NodeId) : Prop :=
  match below.findSome? Task.closes? with
  | some name => ∃ body, scope.definitions.get? name = some body ∧ scope.store.Below body id
  | none => scope.store.Below root id

/-- Each node to enter lies in the body whose closing task is the next one behind it. -/
def Placed (scope : Scope) (root : NodeId) (work : List Task) : Prop :=
  ∀ depth id below, Task.enter depth id :: below <:+ work → scope.WalksIn root below id

/-- **The invariant of the loop.** The frames are the names that the work list closes, each once,
and the names in progress; a name is done when its closing task was taken; names in either state are
defined; and each node to enter lies in the body whose closing task is the next one behind it. -/
structure Loop (scope : Scope) (root : NodeId) (past : List Gathering) (g : Gathering) : Prop where
  frames : g.frames = g.work.filterMap Task.closes?
  nodup : g.frames.Nodup
  inProgress : ∀ name, g.expansions.get? name = some .inProgress ↔ name ∈ g.frames
  done : ∀ name, g.expansions.get? name = some .done ↔
    ∃ before ∈ past, before.work.head? = some (.finish name)
  defined : ∀ name ∈ g.expansions.keys, ∃ body, scope.definitions.get? name = some body
  placed : scope.Placed root g.work

theorem Loop.framed (h : scope.Loop root past g) : Framed g.progress := ⟨h.inProgress, h.nodup⟩

@[simp]
theorem filterMap_closes?_deeper (more : Nat) (work : List Task) :
    (work.map (Task.deeper more)).filterMap Task.closes? = work.filterMap Task.closes? := by
  rw [List.filterMap_map]
  exact List.filterMap_congr fun task _ => Task.closes?_deeper more task

theorem filterMap_closes?_enter (depth : Nat) (ids : List NodeId) :
    (ids.map (Task.enter depth)).filterMap Task.closes? = [] := by
  rw [List.filterMap_map]
  exact List.filterMap_eq_nil_iff.2 fun _ _ => rfl

/-! ### Nodes to enter -/

theorem placed_cons {task : Task} : scope.Placed root (task :: work) ↔
    (∀ depth id, task = .enter depth id → scope.WalksIn root work id) ∧ scope.Placed root work := by
  simp only [Placed, List.suffix_cons_iff]
  constructor
  · intro h
    refine ⟨fun depth id htask => ?_, fun depth id below hsuffix => h depth id below (.inr hsuffix)⟩
    exact h depth id work (.inl (by rw [htask]))
  · rintro ⟨hfirst, hrest⟩ depth id below (hsame | hsuffix)
    · obtain ⟨htask, rfl⟩ := List.cons.inj hsame
      exact hfirst depth id htask.symm
    · exact hrest depth id below hsuffix

theorem placed_finish_cons :
    scope.Placed root (.finish name :: work) ↔ scope.Placed root work := by
  rw [placed_cons]
  exact and_iff_right fun _ _ h => by cases h

theorem placed_enter_cons :
    scope.Placed root (.enter depth id :: work) ↔
      scope.WalksIn root work id ∧ scope.Placed root work := by
  rw [placed_cons]
  refine and_congr_left' ⟨fun h => h depth id rfl, ?_⟩
  rintro h _ _ htask
  cases htask
  exact h

/-- More depth changes nothing about where the loop walks. -/
theorem walksIn_deeper (more : Nat) :
    scope.WalksIn root (work.map (Task.deeper more)) id ↔ scope.WalksIn root work id := by
  have hsame : Task.closes? ∘ Task.deeper more = Task.closes? :=
    funext fun task => Task.closes?_deeper more task
  rw [WalksIn, WalksIn, List.findSome?_map, hsame]

theorem Placed.deeper (more : Nat) : ∀ {work : List Task}, scope.Placed root work →
    scope.Placed root (work.map (Task.deeper more))
  | [], h => h
  | .finish name :: work, h => by
    rw [List.map_cons, Task.deeper, placed_finish_cons]
    exact (placed_finish_cons.1 h).deeper more
  | .enter depth id :: work, h => by
    obtain ⟨hfirst, hrest⟩ := placed_enter_cons.1 h
    rw [List.map_cons, Task.deeper, placed_enter_cons, walksIn_deeper]
    exact ⟨hfirst, hrest.deeper more⟩

/-- Children come before the same closing task as what is behind them. -/
theorem walksIn_enter_append {child : NodeId} :
    scope.WalksIn root (ids.map (Task.enter depth) ++ work) child ↔
      scope.WalksIn root work child := by
  have hnone : (ids.map (Task.enter depth)).findSome? Task.closes? = none := by
    rw [List.findSome?_map]
    exact List.findSome?_eq_none_iff.2 fun _ _ => rfl
  rw [WalksIn, WalksIn, List.findSome?_append, hnone, Option.none_or]

theorem Placed.enter_append (h : scope.Placed root work)
    (hids : ∀ id ∈ ids, scope.WalksIn root work id) :
    scope.Placed root (ids.map (Task.enter depth) ++ work) := by
  induction ids with
  | nil => exact h
  | cons id ids ih =>
    obtain ⟨hfirst, hrest⟩ := List.forall_mem_cons.1 hids
    rw [List.map_cons, List.cons_append, placed_enter_cons, walksIn_enter_append]
    exact ⟨hfirst, ih hrest⟩

theorem WalksIn.child (h : scope.WalksIn root work id) (hids : scope.store.childIds id = .ok ids) :
    ∀ child ∈ ids, scope.WalksIn root work child := by
  intro child hchild
  have hstep : scope.store.IsChild id child := ⟨ids, hids, hchild⟩
  unfold WalksIn at h ⊢
  split at h
  · obtain ⟨body, hbody, hbelow⟩ := h
    exact ⟨body, hbody, hbelow.tail hstep⟩
  · exact h.tail hstep

/-- What is left to enter after a node was entered: its children and what was behind it. -/
theorem Placed.children {rest : List Task} (h : scope.Placed root (.enter depth id :: rest))
    (hids : scope.store.childIds id = .ok ids) (below more : Nat) :
    scope.Placed root (ids.map (Task.enter below) ++ rest.map (Task.deeper more)) := by
  obtain ⟨hid, hrest⟩ := placed_enter_cons.1 h
  exact (hrest.deeper more).enter_append ((walksIn_deeper more).2 hid |>.child hids)

/-! ### A round keeps the invariant -/

theorem loop_start (scope : Scope) (root : NodeId) : scope.Loop root [] (scope.start root) where
  frames := rfl
  nodup := List.nodup_nil
  inProgress name := by simp [start]
  done name := by simp [start]
  defined name hname := by simp [start] at hname
  placed := placed_enter_cons.2 ⟨.refl, fun _ _ _ hsuffix => by simp at hsuffix⟩

/-- **A round keeps the invariant.** -/
theorem loop_step (h : scope.Loop root past g) (hround : scope.Round g next) :
    scope.Loop root (g :: past) next := by
  rcases hround.cases with ⟨name, rest, more, hwork, rfl⟩ |
    ⟨depth, id, node, ids, rest, below, more, hwork, -, hids, hnext⟩
  case inl =>
    -- the innermost frame is the name that is closed
    have hframes : g.frames = name :: rest.filterMap Task.closes? := by
      rw [h.frames, hwork]
      rfl
    have hframed : Framed (g.progress.finishBody name) := h.framed.finishBody hframes
    have hname : name ∈ g.expansions.keys :=
      OrderedMap.mem_keys_of_get? ((h.inProgress name).2 (by simp [hframes]))
    refine ⟨?frames, hframed.nodup, hframed.inProgress, fun other => ?done,
      fun other hother => ?defined, ?placed⟩
    case frames => simp [Progress.gathering, Progress.finishBody, Gathering.progress, hframes]
    case done =>
      by_cases hother : other = name
      · simp [Progress.gathering, Progress.finishBody, hother, hwork]
      · simpa [Progress.gathering, Progress.finishBody, Gathering.progress, OrderedMap.get?_insert,
          hother, hwork, Ne.symm hother] using h.done other
    case defined =>
      rcases OrderedMap.mem_keys_insert.1 hother with rfl | hother
      · exact h.defined _ hname
      · exact h.defined other hother
    case placed => exact (placed_finish_cons.1 (hwork ▸ h.placed)).deeper more
  case inr =>
    have hframes : g.frames = rest.filterMap Task.closes? := by
      rw [h.frames, hwork]
      rfl
    have hchildren := (hwork ▸ h.placed).children hids below more
    have hdone : ∀ other, g.expansions.get? other = some .done ↔
        ∃ before ∈ g :: past, before.work.head? = some (.finish other) := by
      intro other
      simpa [hwork] using h.done other
    rcases hnext with ⟨p, henter, rfl⟩ | ⟨name, body, -, -, hnew, hbody, rfl⟩
    · have hframed : Framed p := h.framed.enters henter
      have hexpansions : p.expansions = g.expansions := henter.expansions_eq
      refine ⟨?_, hframed.nodup, hframed.inProgress, ?_, ?_, hchildren⟩
      · rw [Progress.gathering, henter.frames_eq, List.filterMap_append, filterMap_closes?_enter,
          filterMap_closes?_deeper, List.nil_append]
        exact hframes
      · rw [Progress.gathering, hexpansions]
        exact hdone
      · rw [Progress.gathering, hexpansions]
        exact h.defined
    · have hframed : Framed (scope.opens id node name g.progress) := h.framed.opens hnew
      refine ⟨?_, hframed.nodup, hframed.inProgress, fun other => ?_, fun other hother => ?_, ?_⟩
      · have hclosed : (ids.map (Task.enter below) ++ rest.map (Task.deeper more)).filterMap
            Task.closes? = g.frames := by
          rw [List.filterMap_append, filterMap_closes?_enter, filterMap_closes?_deeper, hframes]
          rfl
        exact congrArg (List.cons name) hclosed.symm
      · rw [← hdone]
        by_cases hother : other = name
        · simp [Progress.gathering, opens, Progress.openBody, hother, hnew]
        · simp [Progress.gathering, opens, Progress.openBody, Progress.note, Progress.mark,
            Gathering.progress, OrderedMap.get?_insert, hother]
      · rcases OrderedMap.mem_keys_insert.1 hother with rfl | hother
        · exact ⟨body, hbody⟩
        · exact h.defined other hother
      · exact placed_enter_cons.2 ⟨⟨body, hbody, .refl⟩, placed_finish_cons.2 hchildren⟩

theorem Comes.loop (h : scope.Comes root past g) : scope.Loop root past g := by
  induction h with
  | start => exact loop_start scope root
  | round _ hround ih => exact loop_step ih hround

/-! ### Nested expansions -/

/-- When a frame was opened, its name was new, and the frames were those that are still behind
it. -/
theorem Comes.exists_opened (h : scope.Comes root past g) {outer : List String}
    (hframe : name :: outer <:+ g.frames) :
    ∃ before ∈ past, before.frames = outer ∧ before.expansions.get? name = none := by
  induction h with
  | start => cases List.suffix_nil.1 hframe
  | @round past g next h hround ih =>
    -- a frame from before the round was opened before it
    have hold : name :: outer <:+ g.frames →
        ∃ before ∈ g :: past, before.frames = outer ∧ before.expansions.get? name = none := by
      intro hframe
      obtain ⟨before, hbefore, hopened⟩ := ih hframe
      exact ⟨before, List.mem_cons_of_mem _ hbefore, hopened⟩
    rcases hround.cases with ⟨_, rest, more, -, rfl⟩ |
      ⟨depth, id, node, ids, rest, below, more, -, -, -, ⟨p, henter, rfl⟩ |
        ⟨opened, body, -, -, hnew, -, rfl⟩⟩
    · exact hold (hframe.trans (List.tail_suffix g.frames))
    · have hsame : p.frames = g.frames := henter.frames_eq
      exact hold (hsame ▸ hframe)
    · rcases List.suffix_cons_iff.1 hframe with hsame | hframe
      · cases hsame
        exact ⟨g, List.mem_cons_self, rfl, hnew⟩
      · exact hold hframe

/-- In the state `g` the expansion of `other` is nested in that of `name`: it is in progress, and it
is that of `name` itself or was begun when that of `name` was in progress. -/
def Nests (past : List Gathering) (g : Gathering) (name other : String) : Prop :=
  g.expansions.get? other = some .inProgress ∧
    (other = name ∨ ∃ before ∈ past, before.expansions.get? name = some .inProgress ∧
      before.expansions.get? other = none)

theorem Comes.framed (h : scope.Comes root past g) (hbefore : before ∈ past) :
    Framed before.progress := by
  obtain ⟨earlier, hearlier⟩ := h.of_mem hbefore
  exact hearlier.loop.framed

/-- A frame further in was not in progress before one further out was met. -/
theorem Comes.not_mem_inner (h : scope.Comes root past g) {inner outer : List String}
    (hframes : g.frames = inner ++ other :: outer) (hbefore : before ∈ past)
    (hname : before.expansions.get? name = some .inProgress)
    (hother : before.expansions.get? other = none) : name ∉ inner := by
  intro hinner
  obtain ⟨front, back, rfl⟩ := List.append_of_mem hinner
  have hsplit : front ++ name :: (back ++ other :: outer) = g.frames := by simp [hframes]
  -- when `name` was opened, `other` was a frame already
  obtain ⟨opened, hopened, hbehind, hnew⟩ := h.exists_opened ⟨front, hsplit⟩
  have hframe : opened.expansions.get? other = some .inProgress :=
    ((h.framed hopened).inProgress other).2 (by simp [Gathering.progress, hbehind])
  rcases h.keys_total hbefore hopened with hsub | hsub
  · exact OrderedMap.get?_eq_none.1 hnew (hsub (OrderedMap.mem_keys_of_get? hname))
  · exact OrderedMap.get?_eq_none.1 hother (hsub (OrderedMap.mem_keys_of_get? hframe))

/-- The frames from the innermost one out to a name are the names whose expansions are nested in
its own. -/
theorem Comes.mem_cycleTo_iff (h : scope.Comes root past g) (hname : name ∈ g.frames) :
    other ∈ cycleTo name g.frames ↔ Nests past g name other := by
  have hloop := h.loop
  rw [mem_cycleTo]
  constructor
  · rintro ⟨inner, outer, hframes, -, hbehind⟩
    refine ⟨(hloop.inProgress other).2 (by simp [hframes]), ?_⟩
    rcases List.mem_cons.1 hbehind with hsame | houter
    · exact .inl hsame.symm
    · obtain ⟨before, hbefore, hopened, hnew⟩ := h.exists_opened ⟨inner, hframes.symm⟩
      have hframe : name ∈ before.frames := hopened ▸ houter
      exact .inr ⟨before, hbefore, ((h.framed hbefore).inProgress name).2 hframe, hnew⟩
  · rintro ⟨hprogress, hnested⟩
    obtain ⟨inner, outer, hframes⟩ := List.append_of_mem ((hloop.inProgress other).1 hprogress)
    have hinner : name ∉ inner := by
      rcases hnested with rfl | ⟨before, hbefore, hprogress', hnew⟩
      · have hnodup := hloop.nodup
        rw [hframes] at hnodup
        exact fun hmem => (List.nodup_append.1 hnodup).2.2 other hmem other List.mem_cons_self rfl
      · exact h.not_mem_inner hframes hbefore hprogress' hnew
    rw [hframes, List.mem_append] at hname
    exact ⟨inner, outer, hframes, hinner, hname.resolve_left hinner⟩

/-- A round that meets a name in progress marks the frames out to it. -/
theorem Round.mem_recursive (h : scope.Round g next) {rest : List Task}
    (hwork : g.work = .enter depth id :: rest) (hmention : scope.store.Mentions id name)
    (hprogress : g.expansions.get? name = some .inProgress) :
    other ∈ next.found.recursive ↔ other ∈ g.found.recursive ∨ other ∈ cycleTo name g.frames := by
  obtain ⟨node, hnode, href, htarget⟩ := hmention
  rcases h.cases with ⟨_, _, _, hfirst, -⟩ |
    ⟨_, x, node', _, _, _, _, hfirst, hnode', -, hnext⟩
  · rw [hwork] at hfirst
    cases hfirst
  · rw [hwork] at hfirst
    cases hfirst
    rw [hnode] at hnode'
    cases hnode'
    rcases hnext with ⟨p, henter, rfl⟩ | ⟨met, body, -, hmet, hnew, -, rfl⟩
    · cases henter with
      | plain hplain => simp [href] at hplain
      | known met _ hmet hdone =>
        rw [htarget] at hmet
        cases hmet
        rw [Gathering.progress, hprogress] at hdone
        cases hdone
      | closing met _ hmet _ =>
        rw [htarget] at hmet
        cases hmet
        show other ∈ NameSet.insertMany _ _ ↔ _
        rw [NameSet.mem_insertMany, recursive_note, recursive_mark]
        exact or_comm
    · rw [htarget] at hmet
      cases hmet
      rw [hprogress] at hnew
      cases hnew

/-! ### At every round -/

/-- **At every round of the loop** the invariant holds. When the next task enters an occurrence of a
name in progress, the name is a frame, and the round marks it together with exactly the names in
progress whose expansions are nested in its own. -/
theorem loop_invariant (h : scope.Comes root past g) :
    scope.Loop root past g ∧
      ∀ (next : Gathering) (depth : Nat) (id : NodeId) (rest : List Task) (name : String),
        scope.Round g next → g.work = .enter depth id :: rest → scope.store.Mentions id name →
        g.expansions.get? name = some .inProgress →
          name ∈ g.frames ∧ ∀ other, other ∈ next.found.recursive ↔
            other ∈ g.found.recursive ∨ Nests past g name other := by
  refine ⟨h.loop, fun next depth id rest name hround hwork hmention hprogress => ?_⟩
  have hname := (h.loop.inProgress name).1 hprogress
  refine ⟨hname, fun other => ?_⟩
  rw [hround.mem_recursive hwork hmention hprogress, h.mem_cycleTo_iff hname]

/-- Where the loop over `overlappingScope` is after three rounds: in the body of `X`, which was
opened in that of `A`. -/
def insideX : Gathering where
  work := [.enter overlappingScope.store.depthLimit ⟨4⟩, .finish "X",
    .enter (overlappingScope.store.depthLimit - 1) ⟨2⟩, .finish "A"]
  frames := ["X", "A"]
  expansions := .ofList [("A", .inProgress), ("X", .inProgress)]
  found := { occurrences := .ofList [("A", [⟨0⟩]), ("X", [⟨1⟩])] }

/-- The invariant in the body of `X`, and what the next round marks: `A` is met again, and the
expansion of `X` is nested in its own. -/
theorem insideX_loop :
    ∃ past next, overlappingScope.Comes ⟨0⟩ past insideX ∧ overlappingScope.Loop ⟨0⟩ past insideX ∧
      overlappingScope.Round insideX next ∧ overlappingScope.store.Mentions ⟨4⟩ "A" ∧
      insideX.expansions.get? "A" = some .inProgress ∧ next.found.recursive.toList = ["A", "X"] ∧
      ∀ other, other ∈ next.found.recursive ↔
        other ∈ insideX.found.recursive ∨ Nests past insideX "A" other := by
  have hafter : overlappingScope.after 3 (overlappingScope.start ⟨0⟩) = .ok insideX := rfl
  obtain ⟨past, hpast⟩ := exists_comes hafter
  have hmention : overlappingScope.store.Mentions ⟨4⟩ "A" := ⟨.reference "A", rfl, rfl, rfl⟩
  have hprogress : insideX.expansions.get? "A" = some .inProgress := by decide +kernel
  obtain ⟨next, hstep, hmarked⟩ : ∃ next, overlappingScope.step insideX = .ok next ∧
      next.found.recursive.toList = ["A", "X"] := ⟨_, rfl, by decide +kernel⟩
  have hround := round_of_step (List.cons_ne_nil _ _) hstep
  obtain ⟨hloop, hmarks⟩ := loop_invariant hpast
  exact ⟨past, next, hpast, hloop, hround, hmention, hprogress, hmarked,
    (hmarks next _ _ _ _ hround rfl hmention hprogress).2⟩

end Scope

end SchemaGraph
