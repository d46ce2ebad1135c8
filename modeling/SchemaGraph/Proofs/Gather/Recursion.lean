import SchemaGraph.Proofs.Gather.Rounds

/-!
The walk of `gather` as a recursion. `Scope.visit` enters a node, the body of its name if it is the
first occurrence of one, and then its children in order; what comes after a node is left to its caller.
It keeps no tasks, no frames and no lists of results: it only notes what it meets. `Scope.tour` lets
these calls nest to some depth. The list of tasks in `gather` stands for the calls that such a tour
has not come to yet (`Scope.tourAll`), and what `gather` finds is read off the notes.

* `Gathered.Lists` — the lists of a gathering are those of the notes;
* `Scope.tour_step` — a round of the loop leaves the rest of the tour as it is;
* `Scope.gather_tells` — the loop and the tour agree, in their lists and in their errors.
-/

namespace SchemaGraph

/-! ### Notes -/

/-- What a tour notes. -/
inductive Note where
  | marked (deferred : Deferred)
  | occurrence (name : String) (id : NodeId)

namespace Note

def deferred? : Note → Option Deferred
  | .marked deferred => some deferred
  | .occurrence _ _ => none

def name? : Note → Option String
  | .marked _ => none
  | .occurrence name _ => some name

def occurrenceOf? (name : String) : Note → Option NodeId
  | .marked _ => none
  | .occurrence other id => if other = name then some id else none

end Note

/-- **The lists of a gathering are those of the notes**: the names in the order of their first notes,
under each name its occurrences, and the marked nodes, each at its first note. -/
structure Gathered.Lists (found : Gathered) (notes : List Note) : Prop where
  names : found.occurrences.keys = (notes.filterMap Note.name?).eraseDups
  occurrences : ∀ name, found.occurrencesOf name =
    (notes.filterMap (Note.occurrenceOf? name)).eraseDups
  deferred : found.deferred = (notes.filterMap Note.deferred?).eraseDups

namespace Gathered

variable {found : Gathered} {notes : List Note} {name : String} {id : NodeId}

theorem lists_empty : Lists {} [] := ⟨rfl, fun _ => rfl, rfl⟩

theorem Lists.noteOccurrence (h : found.Lists notes) :
    (found.noteOccurrence name id).Lists (notes ++ [Note.occurrence name id]) := by
  have hmem : name ∈ notes.filterMap Note.name? ↔ name ∈ found.occurrences.keys := by
    rw [h.names, List.mem_eraseDups]
  have hmem_id : id ∈ notes.filterMap (Note.occurrenceOf? name) ↔ id ∈ found.occurrencesOf name := by
    rw [h.occurrences, List.mem_eraseDups]
  have hnames : ((notes ++ [Note.occurrence name id]).filterMap Note.name?).eraseDups =
      if name ∈ found.occurrences.keys then found.occurrences.keys
      else found.occurrences.keys ++ [name] := by
    simp only [List.filterMap_append, List.filterMap_cons, Note.name?, List.filterMap_nil,
      eraseDups_concat, hmem, h.names]
  have hof : ∀ other, ((notes ++ [Note.occurrence name id]).filterMap
      (Note.occurrenceOf? other)).eraseDups =
        if other = name ∧ id ∉ found.occurrencesOf name then found.occurrencesOf name ++ [id]
        else found.occurrencesOf other := by
    intro other
    by_cases ho : other = name
    · subst ho
      simp only [List.filterMap_append, List.filterMap_cons, Note.occurrenceOf?, if_true,
        List.filterMap_nil, eraseDups_concat, hmem_id, h.occurrences]
      grind
    · simp [Note.occurrenceOf?, Ne.symm ho, ho, h.occurrences]
  unfold Gathered.noteOccurrence
  by_cases hid : id ∈ found.occurrencesOf name
  · rw [if_pos hid]
    have hkey : name ∈ found.occurrences.keys := by
      by_contra hkey
      simp [occurrencesOf, OrderedMap.get?_eq_none.2 hkey] at hid
    refine ⟨?_, fun other => ?_, ?_⟩
    · rw [hnames, if_pos hkey]
    · rw [hof, if_neg (by simp [hid])]
    · simpa [Note.deferred?, List.filterMap_cons] using h.deferred
  · rw [if_neg hid]
    refine ⟨?_, fun other => ?_, ?_⟩
    · rw [hnames]
      split
      · rename_i hkey
        exact OrderedMap.keys_insert_of_mem _ hkey
      · rename_i hkey
        exact OrderedMap.keys_insert_of_not_mem _ hkey
    · rw [hof]
      by_cases ho : other = name
      · subst ho
        rw [if_pos ⟨rfl, hid⟩]
        simp [occurrencesOf]
      · rw [if_neg (by simp [ho])]
        simp [occurrencesOf, OrderedMap.get?_insert, ho]
    · simpa [Note.deferred?, List.filterMap_cons] using h.deferred

/-- A node has only one discriminator, so it is listed if and only if the note is there. -/
theorem Lists.noteMarker (h : found.Lists notes) {discriminator : Json}
    (hsame : ∀ marked ∈ found.deferred, marked.node = id → marked.discriminator = discriminator) :
    (found.noteMarker id discriminator).Lists (notes ++ [Note.marked ⟨id, discriminator⟩]) := by
  have hmem : (⟨id, discriminator⟩ : Deferred) ∈ notes.filterMap Note.deferred? ↔
      found.deferred.any fun marked => marked.node = id := by
    rw [← List.mem_eraseDups, ← h.deferred, List.any_eq_true]
    constructor
    · exact fun hmem => ⟨_, hmem, by simp⟩
    · rintro ⟨⟨node, value⟩, hmem, hnode⟩
      have hnode : node = id := by simpa using hnode
      have hvalue : value = discriminator := hsame _ hmem hnode
      rwa [hnode, hvalue] at hmem
  have hdeferred : ((notes ++ [Note.marked ⟨id, discriminator⟩]).filterMap Note.deferred?).eraseDups =
      if found.deferred.any fun marked => marked.node = id then found.deferred
      else found.deferred ++ [⟨id, discriminator⟩] := by
    simp only [List.filterMap_append, List.filterMap_cons, Note.deferred?, List.filterMap_nil,
      eraseDups_concat, hmem, h.deferred]
  have hnames : found.occurrences.keys =
      ((notes ++ [Note.marked ⟨id, discriminator⟩]).filterMap Note.name?).eraseDups := by
    simpa [Note.name?, List.filterMap_cons] using h.names
  have hof : ∀ name, found.occurrencesOf name =
      ((notes ++ [Note.marked ⟨id, discriminator⟩]).filterMap (Note.occurrenceOf? name)).eraseDups := by
    intro name
    simpa [Note.occurrenceOf?, List.filterMap_cons] using h.occurrences name
  unfold Gathered.noteMarker
  split
  · rename_i hany
    exact ⟨hnames, hof, by rw [hdeferred, if_pos hany]⟩
  · rename_i hany
    exact ⟨hnames, hof, by rw [hdeferred, if_neg hany]⟩

end Gathered

/-! ### The tour -/

/-- What a tour has noted, and the names whose bodies it has begun to walk. -/
structure Account where
  expanded : List String := []
  notes : List Note := []

namespace Account

def note (account : Account) (notes : List Note) : Account :=
  { account with notes := account.notes ++ notes }

def expand (account : Account) (name : String) : Account :=
  { account with expanded := name :: account.expanded }

end Account

/-- A recursion that keeps an account and may fail; it has no outcome when it gives up. -/
abbrev Tour := StateT Account (ExceptT Error Option)

namespace Tour

variable {α β : Type}

/-- `other` comes to every outcome that `tour` comes to. -/
def Le (tour other : Tour α) : Prop :=
  ∀ account outcome, (tour.run account).run = some outcome → (other.run account).run = some outcome

theorem Le.refl (tour : Tour α) : Le tour tour := fun _ _ h => h

theorem Le.bind {tour other : Tour α} {f g : α → Tour β} (h : Le tour other)
    (hfg : ∀ a, Le (f a) (g a)) : Le (tour >>= f) (other >>= g) := by
  intro account outcome hrun
  rw [StateT.run_bind, ExceptT.run_bind] at hrun ⊢
  obtain ⟨first, hfirst, hrest⟩ := Option.bind_eq_some_iff.1 hrun
  refine Option.bind_eq_some_iff.2 ⟨first, h account first hfirst, ?_⟩
  cases first with
  | ok result => exact hfg result.1 result.2 outcome hrest
  | error e => exact hrest

theorem Le.forM {f g : α → Tour Unit} (h : ∀ a, Le (f a) (g a)) (as : List α) :
    Le (forM as f) (forM as g) := by
  induction as with
  | nil => exact Le.refl _
  | cons a as ih =>
    rw [List.forM_cons, List.forM_cons]
    exact (h a).bind fun _ => ih

end Tour

namespace Scope

def markOf (scope : Scope) (id : NodeId) (node : Node) : List Note :=
  (node.metadataValue? scope.discriminatorKey).toList.map fun discriminator =>
    .marked ⟨id, discriminator⟩

/-- **One call of the recursive walk**; `walk` stands for the calls in it. It notes the marker of the
node; if the node is a reference it notes the occurrence, and walks the body of a name that it meets
for the first time; after the body come the children, of which the serialization is the last. -/
def visit (scope : Scope) (walk : NodeId → Tour Unit) (id : NodeId) : Tour Unit := do
  let node ← liftM (scope.store.node id)
  modify (·.note (scope.markOf id node))
  let ids ← liftM (scope.store.childIds id)
  if node.isReference then
    match node.target with
    | none => throw (.malformed .targetMissing (.node id))
    | some name =>
      modify (·.note [.occurrence name id])
      if name ∉ (← get).expanded then
        match scope.definitions.get? name with
        | none => throw (.missingDefinition name id)
        | some body =>
          modify (·.expand name)
          walk body
  ids.forM walk

/-- The recursive walk. It gives up when more than `depth` calls are in each other. -/
def tour (scope : Scope) : (depth : Nat) → NodeId → Tour Unit
  | 0, _ => liftM (none : Option Unit)
  | depth + 1, id => scope.visit (scope.tour depth) id

variable {scope : Scope} {account : Account} {id : NodeId} {node : Node} {ids : List NodeId}
  {name : String} {p entered : Progress} {g next : Gathering} {depth deeper : Nat}

theorem liftM_ok {α : Type} (a : α) : (liftM (Except.ok a : Except Error α) : Tour α) = pure a := rfl

theorem liftM_error {α : Type} (e : Error) :
    (liftM (Except.error e : Except Error α) : Tour α) = throw e := rfl

/-- The account after the notes on a node that refers to nothing new. -/
def noted (scope : Scope) (id : NodeId) (node : Node) (account : Account) : Account :=
  account.note (scope.markOf id node ++ (if node.isReference then node.target else none).toList.map
    fun name => .occurrence name id)

theorem visit_le {walk other : NodeId → Tour Unit} (h : ∀ id, (walk id).Le (other id)) (id : NodeId) :
    (scope.visit walk id).Le (scope.visit other id) := by
  unfold visit
  refine (Tour.Le.refl _).bind fun node => (Tour.Le.refl _).bind fun _ =>
    (Tour.Le.refl _).bind fun ids => ?_
  have hids : (forM ids walk).Le (forM ids other) := Tour.Le.forM h ids
  dsimp only
  split
  · split
    · exact (Tour.Le.refl _).bind fun _ => hids
    · refine (Tour.Le.refl _).bind fun _ => (Tour.Le.refl _).bind fun account => ?_
      split
      · split
        · exact (Tour.Le.refl _).bind fun _ => hids
        · exact (Tour.Le.refl _).bind fun _ => (h _).bind fun _ => hids
      · exact hids
  · exact hids

theorem tour_le (hdepth : depth ≤ deeper) (id : NodeId) :
    (scope.tour depth id).Le (scope.tour deeper id) := by
  induction depth generalizing deeper id with
  | zero => exact fun _ _ h => by cases h
  | succ depth ih =>
    obtain ⟨deeper, rfl⟩ := Nat.exists_eq_add_one_of_ne_zero (Nat.ne_zero_of_lt hdepth)
    exact visit_le (ih (Nat.le_of_succ_le_succ hdepth)) id

theorem tour_of_old (hnode : scope.store.get? id = some node)
    (hids : scope.store.childIds id = .ok ids)
    (hold : node.isReference = true → ∃ name, node.target = some name ∧ name ∈ account.expanded) :
    (scope.tour (depth + 1) id).run account =
      StateT.run (forM ids (scope.tour depth)) (scope.noted id node account) := by
  rw [tour, visit, Store.node_eq_ok.2 hnode, hids]
  cases href : node.isReference with
  | false => simp [liftM_ok, href, noted]
  | true =>
    obtain ⟨name, htarget, hmem⟩ := hold href
    simp [liftM_ok, href, htarget, noted, Account.note, hmem]

theorem tour_of_new {body : NodeId} (hnode : scope.store.get? id = some node)
    (hids : scope.store.childIds id = .ok ids) (href : node.isReference = true)
    (htarget : node.target = some name) (hnew : name ∉ account.expanded)
    (hbody : scope.definitions.get? name = some body) :
    (scope.tour (depth + 1) id).run account =
      (do scope.tour depth body; forM ids (scope.tour depth) : Tour Unit).run
        ((scope.noted id node account).expand name) := by
  rw [tour, visit, Store.node_eq_ok.2 hnode, hids]
  simp [liftM_ok, href, htarget, noted, Account.note, Account.expand, hnew, hbody]

theorem tour_of_refuses {expansions : OrderedMap Expansion} {e : Error}
    (h : scope.Refuses expansions id e)
    (hexpanded : ∀ name, name ∈ account.expanded ↔ name ∈ expansions.keys) :
    (scope.tour (depth + 1) id).run account = throw e := by
  rw [tour, visit]
  cases h with
  | children hids =>
    cases hnode : scope.store.node id with
    | error e' =>
      -- the children of a node that is not there are refused for that
      have hsame := Store.childIds_of_node_error hnode
      rw [hids] at hsame
      cases hsame
      simp [liftM_error]
    | ok node =>
      rw [hids]
      simp [liftM_ok, liftM_error]
  | target hnode hids href htarget =>
    rw [Store.node_eq_ok.2 hnode, hids]
    simp [liftM_ok, href, htarget]
  | @definition node ids name hnode hids href htarget hnew hbody =>
    have hmem : name ∉ account.expanded := by
      rw [hexpanded]
      exact OrderedMap.get?_eq_none.1 hnew
    rw [Store.node_eq_ok.2 hnode, hids]
    simp [liftM_ok, href, htarget, Account.note, hmem, hbody]

/-! ### The loop keeps the account -/

/-- The account tells what the walk has found, and which names it has met. -/
structure Follows (scope : Scope) (account : Account) (p : Progress) : Prop where
  lists : p.found.Lists account.notes
  expanded : ∀ name, name ∈ account.expanded ↔ name ∈ p.expansions.keys
  markers : ∀ marked ∈ p.found.deferred, ∃ node, scope.store.get? marked.node = some node ∧
    node.metadataValue? scope.discriminatorKey = some marked.discriminator

theorem Follows.mark (h : scope.Follows account p) (hnode : scope.store.get? id = some node) :
    scope.Follows (account.note (scope.markOf id node)) (p.mark scope.discriminatorKey id node) := by
  unfold Progress.mark markOf
  cases hmarker : node.metadataValue? scope.discriminatorKey with
  | none =>
    simp only [Option.toList_none, List.map_nil, Account.note, List.append_nil]
    exact h
  | some discriminator =>
    refine ⟨h.lists.noteMarker fun marked hmem hid => ?_, h.expanded, fun marked hmem => ?_⟩
    · obtain ⟨node', hnode', hmarker'⟩ := h.markers marked hmem
      rw [hid, hnode] at hnode'
      cases hnode'
      rw [hmarker] at hmarker'
      exact (Option.some.inj hmarker').symm
    · simp only [Gathered.noteMarker] at hmem
      split at hmem
      · exact h.markers marked hmem
      · rcases List.mem_append.1 hmem with hmem | hmem
        · exact h.markers marked hmem
        · rw [List.mem_singleton.1 hmem]
          exact ⟨node, hnode, hmarker⟩

theorem Follows.note (h : scope.Follows account p) (name : String) (id : NodeId) :
    scope.Follows (account.note [.occurrence name id]) (p.note name id) := by
  refine ⟨h.lists.noteOccurrence, h.expanded, ?_⟩
  have hsame : (p.note name id).found.deferred = p.found.deferred := by
    simp only [Progress.note, Gathered.noteOccurrence]
    split <;> rfl
  rw [hsame]
  exact h.markers

theorem Follows.noted (h : scope.Follows account p) (hnode : scope.store.get? id = some node)
    (href : node.isReference = true) (htarget : node.target = some name) :
    scope.Follows (scope.noted id node account)
      ((p.mark scope.discriminatorKey id node).note name id) := by
  have hboth := (h.mark hnode).note name id
  have haccount : scope.noted id node account =
      (account.note (scope.markOf id node)).note [.occurrence name id] := by
    simp [Scope.noted, href, htarget, Account.note]
  rwa [haccount]

theorem Follows.enters (h : scope.Follows account p) (hnode : scope.store.get? id = some node)
    (henter : scope.Enters id node p entered) :
    scope.Follows (scope.noted id node account) entered := by
  cases henter with
  | plain href =>
    have haccount : scope.noted id node account = account.note (scope.markOf id node) := by
      simp [Scope.noted, href]
    rw [haccount]
    exact h.mark hnode
  | known name href htarget => exact h.noted hnode href htarget
  | closing name href htarget =>
    have hnoted := h.noted hnode href htarget
    exact ⟨⟨hnoted.lists.names, hnoted.lists.occurrences, hnoted.lists.deferred⟩,
      hnoted.expanded, hnoted.markers⟩

theorem Follows.opens (h : scope.Follows account p) (hnode : scope.store.get? id = some node)
    (href : node.isReference = true) (htarget : node.target = some name) :
    scope.Follows ((scope.noted id node account).expand name) (scope.opens id node name p) := by
  have hnoted := h.noted hnode href htarget
  refine ⟨⟨hnoted.lists.names, hnoted.lists.occurrences, hnoted.lists.deferred⟩, fun other => ?_,
    hnoted.markers⟩
  have := hnoted.expanded other
  simp [Account.expand, Scope.opens, Progress.openBody, this]

theorem Follows.finishBody (h : scope.Follows account p) (hname : name ∈ p.expansions.keys) :
    scope.Follows account (p.finishBody name) := by
  refine ⟨⟨h.lists.names, h.lists.occurrences, h.lists.deferred⟩, fun other => ?_, h.markers⟩
  rw [h.expanded, Progress.finishBody, OrderedMap.keys_insert_of_mem _ hname]

/-- An occurrence that opens no body refers to a name whose body was opened. -/
theorem Follows.old_of_enters (h : scope.Follows account p)
    (henter : scope.Enters id node p entered) (href : node.isReference = true) :
    ∃ name, node.target = some name ∧ name ∈ account.expanded := by
  cases henter with
  | plain hplain => simp [hplain] at href
  | known name _ htarget hstate =>
    exact ⟨name, htarget, (h.expanded name).2 (OrderedMap.mem_keys_of_get? hstate)⟩
  | closing name _ htarget hstate =>
    exact ⟨name, htarget, (h.expanded name).2 (OrderedMap.mem_keys_of_get? hstate)⟩

/-! ### Tasks are calls still to come -/

/-- The calls that a list of tasks stands for, one after the other. -/
def tourAll (scope : Scope) (depth : Nat) (work : List Task) : Tour Unit :=
  forM work fun task =>
    match task with
    | .enter _ id => scope.tour depth id
    | .finish _ => pure ()

theorem tourAll_children (scope : Scope) (depth level : Nat) (ids : List NodeId)
    (rest : List Task) :
    scope.tourAll depth (ids.map (Task.enter level) ++ rest) =
      (do forM ids (scope.tour depth); scope.tourAll depth rest : Tour Unit) := by
  unfold tourAll
  rw [List.forM_append]
  congr 1
  induction ids with
  | nil => rfl
  | cons id ids ih => rw [List.map_cons, List.forM_cons, List.forM_cons, ih]

theorem tourAll_le (hdepth : depth ≤ deeper) (work : List Task) :
    (scope.tourAll depth work).Le (scope.tourAll deeper work) := by
  refine Tour.Le.forM (fun task => ?_) work
  cases task with
  | enter level id => exact tour_le hdepth id
  | finish name => exact Tour.Le.refl _

/-- The bodies that are to be closed were opened. -/
def Closing (g : Gathering) : Prop := ∀ name, .finish name ∈ g.work → name ∈ g.expansions.keys

theorem Closing.step (h : Closing g) (hwork : g.work ≠ []) (hstep : scope.step g = .ok next) :
    Closing next := by
  have hkeys := keys_step hwork hstep
  rcases step_cases hwork hstep with ⟨other, rest, hg, rfl⟩ |
    ⟨depth, id, node, ids, rest, hg, -, -, ⟨p, henter, rfl⟩ | ⟨other, body, -, -, -, -, rfl⟩⟩
  · exact fun name hmem => hkeys (h name (hg ▸ List.mem_cons_of_mem _ hmem))
  · intro name hmem
    rcases List.mem_append.1 hmem with hmem | hmem
    · simp at hmem
    · exact hkeys (h name (hg ▸ List.mem_cons_of_mem _ hmem))
  · intro name hmem
    rcases List.mem_cons.1 hmem with e | hmem
    · cases e
    · rcases List.mem_cons.1 hmem with e | hmem
      · cases e
        simp [Progress.gathering, opens, Progress.openBody]
      · rcases List.mem_append.1 hmem with hmem | hmem
        · simp at hmem
        · exact hkeys (h name (hg ▸ List.mem_cons_of_mem _ hmem))

theorem tourAll_enter (scope : Scope) (depth level : Nat) (id : NodeId) (rest : List Task) :
    scope.tourAll depth (.enter level id :: rest) =
      (do scope.tour depth id; scope.tourAll depth rest : Tour Unit) :=
  List.forM_cons

theorem tourAll_finish (scope : Scope) (depth : Nat) (name : String) (rest : List Task) :
    scope.tourAll depth (.finish name :: rest) = scope.tourAll depth rest := by
  rw [tourAll, List.forM_cons]
  exact pure_bind _ _

/-- **A round leaves the tour as it is**: what the calls that the work stands for come to after the
round, from an account that follows it, they come to before it. One of them is a call deeper there. -/
theorem tour_step (h : scope.Follows account g.progress) (hclosing : Closing g) (hwork : g.work ≠ [])
    (hstep : scope.step g = .ok next) :
    ∃ account', scope.Follows account' next.progress ∧ ∀ depth outcome,
      ((scope.tourAll depth next.work).run account').run = some outcome →
        ((scope.tourAll (depth + 1) g.work).run account).run = some outcome := by
  have hrest : ∀ depth work, (scope.tourAll depth work).Le (scope.tourAll (depth + 1) work) :=
    fun depth => tourAll_le (Nat.le_succ depth)
  rcases step_cases hwork hstep with ⟨name, rest, hg, rfl⟩ |
    ⟨level, id, node, ids, rest, hg, hnode, hids, ⟨p, henter, rfl⟩ |
      ⟨name, body, href, htarget, hnew, hbody, rfl⟩⟩
  · refine ⟨account, h.finishBody (hclosing name (hg ▸ List.mem_cons_self)),
      fun depth outcome hrun => ?_⟩
    rw [hg, tourAll_finish]
    exact hrest depth rest account outcome hrun
  · refine ⟨scope.noted id node account, h.enters hnode henter, fun depth outcome hrun => ?_⟩
    have hchildren : (scope.tourAll depth (ids.map (Task.enter level) ++ rest)).Le
        (do forM ids (scope.tour depth); scope.tourAll (depth + 1) rest) := by
      rw [tourAll_children]
      exact (Tour.Le.refl _).bind fun _ => hrest depth rest
    rw [hg, tourAll_enter, StateT.run_bind, tour_of_old hnode hids (h.old_of_enters henter)]
    exact hchildren _ outcome hrun
  · have hfirst : name ∉ account.expanded := by
      rw [h.expanded]
      exact OrderedMap.get?_eq_none.1 hnew
    refine ⟨(scope.noted id node account).expand name, h.opens hnode href htarget,
      fun depth outcome hrun => ?_⟩
    have hbodies : (scope.tourAll depth (.enter scope.store.depthLimit body :: .finish name ::
        (ids.map (Task.enter level) ++ rest))).Le
          (do (do scope.tour depth body; forM ids (scope.tour depth))
              scope.tourAll (depth + 1) rest) := by
      rw [tourAll_enter, tourAll_finish, tourAll_children, bind_assoc]
      exact (Tour.Le.refl _).bind fun _ => (Tour.Le.refl _).bind fun _ => hrest depth rest
    rw [hg, tourAll_enter, StateT.run_bind, tour_of_new hnode hids href htarget hfirst hbody]
    exact hbodies _ outcome hrun

/-! ### The whole run -/

/-- How the outcome of a tour tells the outcome of a gathering. -/
inductive Tells : Except Error (Unit × Account) → Except Error Gathered → Prop where
  | lists {account : Account} {found : Gathered} (h : found.Lists account.notes) :
      Tells (.ok ((), account)) (.ok found)
  | error (e : Error) : Tells (.error e) (.error e)

/-- From any state of the loop the calls that its work stands for come to the outcome of the run, if
they may go deep enough. -/
theorem exists_tells (hacyclic : scope.store.Acyclic) (hroom : scope.Roomy g)
    (hclosing : Closing g) (h : scope.Follows account g.progress) :
    ∃ depth outcome, ((scope.tourAll depth g.work).run account).run = some outcome ∧
      Tells outcome (scope.run g) := by
  induction g using Scope.run.induct scope generalizing account with
  | case1 g hwork =>
    refine ⟨0, .ok ((), account), ?_, ?_⟩
    · rw [hwork]
      rfl
    · rw [run_of_nil hwork]
      exact .lists h.lists
  | case2 g hwork e hstep =>
    obtain ⟨level, id, rest, hg, hrefuses⟩ := hroom.refuses hstep
    refine ⟨1, .error e, ?_, ?_⟩
    · rw [hg, tourAll_enter, StateT.run_bind, tour_of_refuses hrefuses h.expanded]
      rfl
    · rw [run_of_error hwork hstep]
      exact .error e
  | case3 g hwork next hstep ih =>
    obtain ⟨account', hfollows, hbefore⟩ := tour_step h hclosing hwork hstep
    obtain ⟨depth, outcome, hrun, htells⟩ :=
      ih (hroom.step hacyclic hwork hstep) (hclosing.step hwork hstep) hfollows
    rw [run_of_step hwork hstep]
    exact ⟨depth + 1, outcome, hbefore depth outcome hrun, htells⟩

/-- **The loop agrees with the recursion.** On a store without a cycle of children the recursive walk
over the root comes to an end, and to the same one at every depth from some on. If it goes through
then so does `gather`, whose lists are those of its notes; if it fails then `gather` fails with the
same error. In the recursive walk the body of a name comes right after the note of its first
occurrence, before the children of the occurrence and all that follows it. -/
theorem gather_tells (hacyclic : scope.store.Acyclic) (root : NodeId) :
    (∃ least outcome,
        (∀ depth, least ≤ depth → ((scope.tour depth root).run {}).run = some outcome) ∧
        Tells outcome (scope.gather root)) ∧
      ∀ depth account id node ids name body, scope.store.get? id = some node →
        scope.store.childIds id = .ok ids → node.isReference = true → node.target = some name →
        name ∉ account.expanded → scope.definitions.get? name = some body →
          (scope.tour (depth + 1) id).run account =
            (do scope.tour depth body; forM ids (scope.tour depth) : Tour Unit).run
              ((scope.noted id node account).expand name) := by
  refine ⟨?_, fun _ _ _ _ _ _ _ hnode hids href htarget hnew hbody =>
    tour_of_new hnode hids href htarget hnew hbody⟩
  have hroom : scope.Roomy (scope.start root) := fun depth id hmem => by
    cases List.mem_singleton.1 hmem
    exact hacyclic.reach_depthLimit root
  have hclosing : Closing (scope.start root) := fun name hmem => by
    cases List.mem_singleton.1 hmem
  have hfollows : scope.Follows {} (scope.start root).progress :=
    ⟨Gathered.lists_empty, by simp [start, Gathering.progress], by simp [start, Gathering.progress]⟩
  obtain ⟨least, outcome, htour, htells⟩ := exists_tells hacyclic hroom hclosing hfollows
  refine ⟨least, outcome, fun depth hdepth => tour_le hdepth root _ _ ?_, htells⟩
  rwa [start, tourAll_enter, show scope.tourAll least [] = pure () from rfl, bind_pure_unit] at htour

/-- The body of `A` refers to `C`, the serialization of the only occurrence of `A` to `D` and its sibling
to `E`. None of the three is defined. -/
def undefinedScope : Scope where
  store := ⟨#[
    (Node.ofKind .tuple).withChild "items_schema" (.many [⟨1⟩, ⟨3⟩]),
    (Node.reference "A").withSerialization ⟨2⟩,
    Node.reference "D",
    Node.reference "E",
    (Node.ofKind .list).withChild "items_schema" (.one ⟨5⟩),
    Node.reference "C"]⟩
  definitions := .ofList [("A", ⟨4⟩)]

theorem undefinedScope_acyclic : undefinedScope.store.Acyclic :=
  Store.acyclic_of_forall
    (fun id => if id.index = 0 then 2 else if id.index = 1 ∨ id.index = 4 then 1 else 0)
    (by decide +kernel)

/-- Of several missing definitions the one in the body is met first, by the loop and by the
recursion. -/
theorem undefinedScope_tells :
    undefinedScope.store.Acyclic ∧
      undefinedScope.gather ⟨0⟩ = .error (.missingDefinition "C" ⟨5⟩) ∧
      (∃ least outcome,
          (∀ depth, least ≤ depth → ((undefinedScope.tour depth ⟨0⟩).run {}).run = some outcome) ∧
          Tells outcome (undefinedScope.gather ⟨0⟩)) ∧
        ∀ depth account id node ids name body, undefinedScope.store.get? id = some node →
          undefinedScope.store.childIds id = .ok ids → node.isReference = true →
          node.target = some name → name ∉ account.expanded →
          undefinedScope.definitions.get? name = some body →
            (undefinedScope.tour (depth + 1) id).run account =
              (do undefinedScope.tour depth body; forM ids (undefinedScope.tour depth) :
                Tour Unit).run ((undefinedScope.noted id node account).expand name) :=
  ⟨undefinedScope_acyclic, gather_of_runWithin 10 (by decide +kernel),
    gather_tells undefinedScope_acyclic ⟨0⟩⟩

end Scope

end SchemaGraph
