import SchemaGraph.NameSet
import SchemaGraph.Traversal.Preorder

/-!
The reference graph of a schema: which nodes refer to which name, which names lie on a cycle of
references, and which nodes carry a discriminator marker. The walk goes depth first and left to
right with an explicit list of tasks. The body of a definition is walked once, at its first
occurrence, before anything that comes after the occurrence.
-/

namespace SchemaGraph

/-! ### Results -/

/-- A marked node with its discriminator, which is resolved later. -/
structure Deferred where
  node : NodeId
  discriminator : Json
deriving DecidableEq

/-- What a walk over a reference graph finds: the occurrences of each name and the marked nodes in
the order in which they are met, and the names on cycles. -/
structure Gathered where
  occurrences : OrderedMap (List NodeId) := .empty
  recursive : NameSet := .empty
  deferred : List Deferred := []
deriving DecidableEq

namespace Gathered

/-- The nodes that refer to a name, in the order in which they are met. -/
def occurrencesOf (found : Gathered) (name : String) : List NodeId :=
  (found.occurrences.get? name).getD []

def isRecursive (found : Gathered) (name : String) : Bool := found.recursive.contains name

/-- Notes a marked node, each only once. -/
def noteMarker (found : Gathered) (id : NodeId) (discriminator : Json) : Gathered :=
  if found.deferred.any fun marked => marked.node = id then found
  else { found with deferred := found.deferred ++ [⟨id, discriminator⟩] }

/-- Notes an occurrence of a name, each node only once. -/
def noteOccurrence (found : Gathered) (name : String) (id : NodeId) : Gathered :=
  let ids := found.occurrencesOf name
  if id ∈ ids then found
  else { found with occurrences := found.occurrences.insert name (ids ++ [id]) }

end Gathered

/-! ### The walk -/

/-- The metadata key that marks a discriminator unless another is given. -/
def defaultDiscriminatorKey : String := "union_discriminator"

/-- What a walk works on: the nodes, the definitions to look names up in, and the metadata key that
marks a discriminator. -/
structure Scope where
  store : Store
  definitions : Definitions
  discriminatorKey : String := defaultDiscriminatorKey

/-- How far the body of a definition is walked; a name without state was not met yet. -/
inductive Expansion where
  | inProgress
  | done
deriving DecidableEq, Repr

/-- What is still to do: enter a node, at most `depth` nodes deep, or close a definition whose body
is walked. -/
inductive Task where
  | enter (depth : Nat) (id : NodeId)
  | finish (name : String)
deriving DecidableEq, Repr

/-- The state of a walk. `frames` are the names whose bodies are being walked, the innermost
first. -/
structure Gathering where
  work : List Task
  frames : List String := []
  expansions : OrderedMap Expansion := .empty
  found : Gathered := {}

/-- The names from the innermost one out to `name`: a cycle, if `name` occurs. -/
def cycleTo (name : String) (frames : List String) : List String :=
  if name ∈ frames then frames.takeWhile (fun frame => frame ≠ name) ++ [name] else []

namespace Scope

/-- Goes on after an occurrence of `name` at the node `id`. A new name is looked up and its body put
in front of all other work; one whose body is being walked closes a cycle. -/
def meet (scope : Scope) (name : String) (id : NodeId) (g : Gathering) : Except Error Gathering :=
  match g.expansions.get? name with
  | some .done => .ok g
  | some .inProgress =>
    let recursive := g.found.recursive.insertMany (cycleTo name g.frames)
    .ok { g with found := { g.found with recursive } }
  | none =>
    match scope.definitions.get? name with
    | none => .error (.missingDefinition name id)
    | some body =>
      .ok { g with
        work := .enter scope.store.depthLimit body :: .finish name :: g.work
        frames := name :: g.frames
        expansions := g.expansions.insert name .inProgress }

/-- Enters a node: notes its marker, puts its children in front of the other work, and if it is a
reference notes the occurrence and goes on with its name. -/
def enter (scope : Scope) (depth : Nat) (id : NodeId) (rest : List Task) (g : Gathering) :
    Except Error Gathering := do
  let node ← scope.store.node id
  let found :=
    match node.metadataValue? scope.discriminatorKey with
    | some discriminator => g.found.noteMarker id discriminator
    | none => g.found
  let ids ← scope.store.childIds id
  let g := { g with work := ids.map (Task.enter depth) ++ rest, found }
  if node.isReference then
    match node.target with
    | none => .error (.malformed .targetMissing (.node id))
    | some name => scope.meet name id { g with found := g.found.noteOccurrence name id }
  else pure g

def step (scope : Scope) (g : Gathering) : Except Error Gathering :=
  match g.work with
  | [] => .ok g
  | .finish name :: rest =>
    .ok { g with
      work := rest
      frames := g.frames.tail
      expansions := g.expansions.insert name .done }
  | .enter 0 id :: _ => .error (.tooDeep id)
  | .enter (depth + 1) id :: rest => scope.enter depth id rest g

/-! ### Its end -/

/-- The definitions that were not met yet. -/
def unmet (scope : Scope) (g : Gathering) : Nat :=
  scope.definitions.keys.countP fun name => (g.expansions.get? name).isNone

/-- What the work leads to when no further definition is met: the nodes to enter, and nothing for
each definition to close. -/
def pending (scope : Scope) (g : Gathering) : List (Option NodeId) :=
  g.work.flatMap fun task =>
    match task with
    | .enter depth id => (scope.store.treeWithin depth id).map some
    | .finish _ => [none]

theorem get?_isNone_insert_imp {α : Type} {m : OrderedMap α} {key name : String} {value : α}
    (h : ((m.insert key value).get? name).isNone) : (m.get? name).isNone := by
  by_cases e : name = key
  · rw [e, OrderedMap.get?_insert_self] at h; simp at h
  · rwa [OrderedMap.get?_insert_of_ne _ _ e] at h

theorem unmet_insert_le (scope : Scope) (g : Gathering) (name : String) (value : Expansion) :
    (scope.definitions.keys.countP fun key => ((g.expansions.insert name value).get? key).isNone)
      ≤ scope.unmet g :=
  List.countP_mono_left fun _ _ h => get?_isNone_insert_imp h

theorem unmet_insert_lt (scope : Scope) (g : Gathering) {name : String} (value : Expansion)
    (hdef : name ∈ scope.definitions.keys) (hnew : g.expansions.get? name = none) :
    (scope.definitions.keys.countP fun key => ((g.expansions.insert name value).get? key).isNone)
      < scope.unmet g := by
  unfold unmet
  revert hdef
  generalize scope.definitions.keys = keys
  induction keys with
  | nil => intro h; cases h
  | cons key rest ih =>
    intro h
    have hle : (rest.countP fun key => ((g.expansions.insert name value).get? key).isNone)
        ≤ rest.countP fun key => (g.expansions.get? key).isNone :=
      List.countP_mono_left fun _ _ h => get?_isNone_insert_imp h
    rw [List.countP_cons, List.countP_cons]
    rcases List.mem_cons.1 h with e | h
    · subst e
      simp only [OrderedMap.get?_insert_self, hnew, Option.isNone_some, Option.isNone_none]
      simp only [Bool.false_eq_true, if_false, if_true]
      omega
    · have hlt := ih h
      have hkey : (if ((g.expansions.insert name value).get? key).isNone then 1 else 0)
          ≤ if (g.expansions.get? key).isNone then 1 else 0 := by
        by_cases hn : ((g.expansions.insert name value).get? key).isNone
        · simp only [if_pos hn, if_pos (get?_isNone_insert_imp hn), Nat.le_refl]
        · simp only [if_neg hn, Nat.zero_le]
      omega

theorem lex_of_le_of_lt {a b c d : Nat} (h : a ≤ c) (h' : b < d) :
    Prod.Lex (· < ·) (· < ·) (a, b) (c, d) := by
  rcases Nat.lt_or_eq_of_le h with h | h
  · exact .left _ _ h
  · subst h; exact .right _ h'

theorem meet_decreases {scope : Scope} {g next : Gathering} {name : String} {id : NodeId}
    (h : scope.meet name id g = .ok next) :
    scope.unmet next < scope.unmet g ∨
      scope.unmet next = scope.unmet g ∧ scope.pending next = scope.pending g := by
  unfold meet at h
  split at h
  · cases h; exact .inr ⟨rfl, rfl⟩
  · cases h; exact .inr ⟨rfl, rfl⟩
  · rename_i hnew
    split at h
    · cases h
    · rename_i body hbody
      cases h
      exact .inl (unmet_insert_lt scope g .inProgress (OrderedMap.mem_keys_of_get? hbody) hnew)

/-- A node that is entered leaves its children to do, and with them the rest of its tree. -/
theorem pending_enter {scope : Scope} {g next : Gathering} {depth : Nat} {id : NodeId}
    {ids : List NodeId} {rest : List Task} (hg : g.work = .enter (depth + 1) id :: rest)
    (hids : scope.store.childIds id = .ok ids)
    (hnext : next.work = ids.map (Task.enter depth) ++ rest) :
    scope.pending g = some id :: scope.pending next := by
  have htree : scope.store.treeWithin (depth + 1) id = _ := Store.treeWithin_succ hids
  simp only [pending, hg, hnext, htree, List.flatMap_cons, List.flatMap_append, List.flatMap_map,
    List.map_cons, List.map_flatMap, List.cons_append]

/-- A task either meets a new definition or leaves less to do. -/
theorem step_decreases {scope : Scope} {g next : Gathering} (hwork : g.work ≠ [])
    (h : scope.step g = .ok next) :
    Prod.Lex (· < ·) (· < ·) (scope.unmet next, (scope.pending next).length)
      (scope.unmet g, (scope.pending g).length) := by
  unfold step at h
  split at h
  · contradiction
  · rename_i name rest hg
    cases h
    refine lex_of_le_of_lt (unmet_insert_le scope g name .done) ?_
    simp [pending, hg]
  · cases h
  · rename_i depth id rest hg
    unfold enter at h
    cases hnode : scope.store.node id with
    | error e => rw [hnode] at h; cases h
    | ok node =>
      cases hids : scope.store.childIds id with
      | error e => rw [hnode, hids] at h; cases h
      | ok ids =>
        rw [hnode, hids] at h
        simp only [bind, Except.bind, pure, Except.pure] at h
        have hless : ∀ {entered : Gathering}, entered.work = ids.map (Task.enter depth) ++ rest →
            (scope.pending entered).length < (scope.pending g).length := by
          intro entered hentered
          rw [pending_enter hg hids hentered]
          exact Nat.lt_succ_self _
        split at h
        · split at h
          · cases h
          · rcases meet_decreases h with hlt | ⟨heq, hpend⟩
            · exact .left _ _ hlt
            · refine lex_of_le_of_lt (Nat.le_of_eq heq) ?_
              rw [hpend]
              exact hless rfl
        · cases h
          exact lex_of_le_of_lt (Nat.le_refl _) (hless rfl)

def run (scope : Scope) (g : Gathering) : Except Error Gathered :=
  if _hwork : g.work = [] then .ok g.found
  else
    match _h : scope.step g with
    | .error e => .error e
    | .ok next => run scope next
termination_by (scope.unmet g, (scope.pending g).length)
decreasing_by exact step_decreases _hwork _h

/-- The reference graph of the schema at `root`. -/
def gather (scope : Scope) (root : NodeId) : Except Error Gathered :=
  scope.run { work := [.enter scope.store.depthLimit root] }

end Scope

end SchemaGraph
