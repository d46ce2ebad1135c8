import Mathlib.Data.List.Nodup
import SchemaGraph.Proofs.Gather.Walk

/-!
What `gather` covers: the nodes that steps to children and from an occurrence to the body of its
name lead to. Each occurrence and each marked node among them is listed exactly once, and nothing
else is.

* `Progress.Accurate` — what is listed is covered, under its own name and with its own value;
* `Scope.Noted` — a node is listed wherever it has to be;
* `Scope.gather_covers` — both together for a whole run.
-/

namespace SchemaGraph

/-- The node at `id` is an occurrence of `name`. -/
def Store.Mentions (s : Store) (id : NodeId) (name : String) : Prop :=
  ∃ node, s.get? id = some node ∧ node.isReference = true ∧ node.target = some name

namespace Gathered

theorem mem_occurrencesOf_noteOccurrence {found : Gathered} {name other : String}
    {id x : NodeId} :
    x ∈ (found.noteOccurrence name id).occurrencesOf other ↔
      x ∈ found.occurrencesOf other ∨ other = name ∧ x = id := by
  unfold noteOccurrence
  by_cases hid : id ∈ found.occurrencesOf name
  · rw [if_pos hid]
    constructor
    · exact .inl
    · rintro (h | ⟨rfl, rfl⟩)
      · exact h
      · exact hid
  · rw [if_neg hid]
    by_cases ho : other = name <;> simp [occurrencesOf, OrderedMap.get?_insert, ho]

/-- Occurrences that are listed keep their places. -/
theorem occurrencesOf_prefix_noteOccurrence (found : Gathered) (name : String) (id : NodeId)
    (other : String) :
    found.occurrencesOf other <+: (found.noteOccurrence name id).occurrencesOf other := by
  unfold noteOccurrence
  by_cases hid : id ∈ found.occurrencesOf name
  · simp [hid]
  · rw [if_neg hid]
    by_cases ho : other = name
    · subst ho
      simp [occurrencesOf]
    · simp [occurrencesOf, OrderedMap.get?_insert, ho]

theorem exists_deferred_noteMarker (found : Gathered) (id : NodeId) (discriminator : Json) :
    ∃ marked ∈ (found.noteMarker id discriminator).deferred, marked.node = id := by
  unfold noteMarker
  by_cases h : found.deferred.any fun marked => marked.node = id
  · rw [if_pos h]
    simpa using h
  · rw [if_neg h]
    exact ⟨⟨id, discriminator⟩, by simp, rfl⟩

theorem deferred_subset_noteMarker (found : Gathered) (id : NodeId) (discriminator : Json) :
    found.deferred ⊆ (found.noteMarker id discriminator).deferred := by
  unfold noteMarker
  split
  · exact List.Subset.refl _
  · exact List.subset_append_left _ _

end Gathered

namespace Progress

/-! ### Growth -/

/-- `q` has all that `p` has; names that were met and their occurrences stay at their places. -/
structure Le (p q : Progress) : Prop where
  deferred : p.found.deferred ⊆ q.found.deferred
  occurrences : ∀ name, p.found.occurrencesOf name <+: q.found.occurrencesOf name
  recursive : ∀ name, name ∈ p.found.recursive → name ∈ q.found.recursive
  keys : p.expansions.keys <+: q.expansions.keys

theorem Le.refl (p : Progress) : p.Le p :=
  ⟨List.Subset.refl _, fun _ => List.prefix_refl _, fun _ h => h, List.prefix_refl _⟩

theorem Le.trans {p q r : Progress} (h : p.Le q) (h' : q.Le r) : p.Le r where
  deferred := List.Subset.trans h.deferred h'.deferred
  occurrences name := (h.occurrences name).trans (h'.occurrences name)
  recursive name hname := h'.recursive name (h.recursive name hname)
  keys := h.keys.trans h'.keys

variable {p : Progress} {name : String} {id : NodeId}

theorem le_mark (key : String) (id : NodeId) (node : Node) (p : Progress) :
    p.Le (p.mark key id node) := by
  unfold mark
  split
  · rename_i discriminator _
    refine ⟨Gathered.deferred_subset_noteMarker _ _ _, fun _ => ?_, fun _ h => ?_, List.prefix_refl _⟩
    · simp only [Gathered.noteMarker]
      split <;> exact List.prefix_refl _
    · simp only [Gathered.noteMarker]
      split <;> exact h
  · exact .refl p

theorem le_note (name : String) (id : NodeId) (p : Progress) : p.Le (p.note name id) := by
  refine ⟨?_, Gathered.occurrencesOf_prefix_noteOccurrence p.found name id, fun _ h => ?_, List.prefix_refl _⟩
  · simp only [note, Gathered.noteOccurrence]
    split <;> exact List.Subset.refl _
  · simp only [note, Gathered.noteOccurrence]
    split <;> exact h

theorem le_closeCycle (name : String) (p : Progress) : p.Le (p.closeCycle name) :=
  ⟨List.Subset.refl _, fun _ => List.prefix_refl _, fun _ h => NameSet.mem_insertMany.2 (.inr h),
    List.prefix_refl _⟩

theorem le_openBody (name : String) (p : Progress) : p.Le (p.openBody name) :=
  ⟨List.Subset.refl _, fun _ => List.prefix_refl _, fun _ h => h,
    OrderedMap.keys_prefix_insert _ _ _⟩

theorem le_finishBody (name : String) (p : Progress) : p.Le (p.finishBody name) :=
  ⟨List.Subset.refl _, fun _ => List.prefix_refl _, fun _ h => h,
    OrderedMap.keys_prefix_insert _ _ _⟩

end Progress

namespace Scope

variable {scope : Scope} {p q entered : Progress} {id : NodeId} {node : Node} {name : String}
  {ids : List NodeId}

theorem Enters.le (h : scope.Enters id node p entered) : p.Le entered := by
  cases h with
  | plain => exact Progress.le_mark _ _ _ _
  | known name => exact (Progress.le_mark _ _ _ _).trans (Progress.le_note _ _ _)
  | closing name =>
    exact ((Progress.le_mark _ _ _ _).trans (Progress.le_note _ _ _)).trans
      (Progress.le_closeCycle _ _)

theorem le_opens (scope : Scope) (id : NodeId) (node : Node) (name : String) (p : Progress) :
    p.Le (scope.opens id node name p) :=
  ((Progress.le_mark _ _ _ _).trans (Progress.le_note _ _ _)).trans (Progress.le_openBody _ _)

theorem Walks.le (h : scope.Walks ids p q) : p.Le q := by
  induction h with
  | nil p => exact .refl p
  | enter _ _ henter _ _ ihbelow ihrest => exact (henter.le.trans ihbelow).trans ihrest
  | expand _ _ _ _ _ _ _ _ _ ihinner ihbelow ihrest =>
    exact (((le_opens scope _ _ _ _).trans ihinner).trans
      ((Progress.le_finishBody _ _).trans ihbelow)).trans ihrest

/-! ### Nothing is lost -/

/-- The node at `id` was entered and is listed wherever it has to be, and the name it refers to was
met. -/
structure Noted (scope : Scope) (p : Progress) (id : NodeId) : Prop where
  entered : ∃ ids, scope.store.childIds id = .ok ids
  marker : ∀ node discriminator, scope.store.get? id = some node →
    node.metadataValue? scope.discriminatorKey = some discriminator →
      ∃ marked ∈ p.found.deferred, marked.node = id
  occurrence : ∀ node, scope.store.get? id = some node → node.isReference = true →
    ∃ name, node.target = some name ∧ id ∈ p.found.occurrencesOf name ∧ name ∈ p.expansions.keys

theorem Noted.mono (h : scope.Noted p id) (hle : p.Le q) : scope.Noted q id where
  entered := h.entered
  marker node discriminator hnode hmarker := by
    obtain ⟨marked, hmem, hid⟩ := h.marker node discriminator hnode hmarker
    exact ⟨marked, hle.deferred hmem, hid⟩
  occurrence node hnode href := by
    obtain ⟨name, htarget, hmem, hname⟩ := h.occurrence node hnode href
    exact ⟨name, htarget, (hle.occurrences name).subset hmem, hle.keys.subset hname⟩

theorem exists_deferred_mark {key : String} {discriminator : Json}
    (h : node.metadataValue? key = some discriminator) :
    ∃ marked ∈ (p.mark key id node).found.deferred, marked.node = id := by
  simp only [Progress.mark, h]
  exact Gathered.exists_deferred_noteMarker _ _ _

theorem Enters.noted (h : scope.Enters id node p entered)
    (hnode : scope.store.get? id = some node) (hids : scope.store.childIds id = .ok ids) :
    scope.Noted entered id := by
  have hmark : ∀ discriminator, node.metadataValue? scope.discriminatorKey = some discriminator →
      ∃ marked ∈ (p.mark scope.discriminatorKey id node).found.deferred, marked.node = id :=
    fun _ h => exists_deferred_mark h
  have hnoted : ∀ name, id ∈
      ((p.mark scope.discriminatorKey id node).note name id).found.occurrencesOf name :=
    fun name => Gathered.mem_occurrencesOf_noteOccurrence.2 (.inr ⟨rfl, rfl⟩)
  refine ⟨⟨ids, hids⟩, ?_, ?_⟩
  · intro node' discriminator hnode' hmarker
    rw [hnode] at hnode'
    cases hnode'
    obtain ⟨marked, hmem, hid⟩ := hmark discriminator hmarker
    refine ⟨marked, ?_, hid⟩
    cases h with
    | plain => exact hmem
    | known name => exact (Progress.le_note _ _ _).deferred hmem
    | closing name => exact (Progress.le_note name id _).deferred hmem
  · intro node' hnode' href'
    rw [hnode] at hnode'
    cases hnode'
    cases h with
    | plain href => simp [href] at href'
    | known name _ htarget hstate =>
      exact ⟨name, htarget, hnoted name, OrderedMap.mem_keys_of_get? hstate⟩
    | closing name _ htarget hstate =>
      exact ⟨name, htarget, hnoted name, OrderedMap.mem_keys_of_get? hstate⟩

theorem noted_opens (hnode : scope.store.get? id = some node)
    (hids : scope.store.childIds id = .ok ids) (htarget : node.target = some name) :
    scope.Noted (scope.opens id node name p) id := by
  refine ⟨⟨ids, hids⟩, ?_, ?_⟩
  · intro node' discriminator hnode' hmarker
    rw [hnode] at hnode'
    cases hnode'
    have hmark : ∃ marked ∈ (p.mark scope.discriminatorKey id node).found.deferred,
        marked.node = id := exists_deferred_mark hmarker
    obtain ⟨marked, hmem, hid⟩ := hmark
    exact ⟨marked, (Progress.le_note name id _).deferred hmem, hid⟩
  · intro node' hnode' _
    rw [hnode] at hnode'
    cases hnode'
    refine ⟨name, htarget, Gathered.mem_occurrencesOf_noteOccurrence.2 (.inr ⟨rfl, rfl⟩), ?_⟩
    simp [opens, Progress.openBody]

theorem Walks.noted (h : scope.Walks ids p q) {x : NodeId} (hid : id ∈ ids)
    (hx : scope.store.Below id x) : scope.Noted q x := by
  induction h generalizing id with
  | nil p => cases hid
  | enter hnode hids henter hbelow hrest ihbelow ihrest =>
    rcases List.mem_cons.1 hid with rfl | hid
    · rcases (Store.below_of_childIds hids).1 hx with rfl | ⟨child, hchild, hx⟩
      · exact (henter.noted hnode hids).mono (hbelow.le.trans hrest.le)
      · exact (ihbelow hchild hx).mono hrest.le
    · exact ihrest hid hx
  | expand hnode hids _ htarget _ _ hinner hbelow hrest _ ihbelow ihrest =>
    rcases List.mem_cons.1 hid with rfl | hid
    · rcases (Store.below_of_childIds hids).1 hx with rfl | ⟨child, hchild, hx⟩
      · exact (noted_opens hnode hids htarget).mono
          (hinner.le.trans ((Progress.le_finishBody _ _).trans (hbelow.le.trans hrest.le)))
      · exact (ihbelow hchild hx).mono hrest.le
    · exact ihrest hid hx

/-- The body of each name that a walk meets is walked. -/
theorem Walks.body_noted (h : scope.Walks ids p q) (hname : name ∈ q.expansions.keys)
    (hnew : name ∉ p.expansions.keys) :
    ∃ body, scope.definitions.get? name = some body ∧
      ∀ x, scope.store.Below body x → scope.Noted q x := by
  induction h with
  | nil p => exact absurd hname hnew
  | @enter _ _ _ _ p entered q r _ _ henter hbelow hrest ihbelow ihrest =>
    by_cases hq : name ∈ q.expansions.keys
    · have hentered : entered.expansions = p.expansions := by cases henter <;> rfl
      obtain ⟨body, hbody, hnoted⟩ := ihbelow hq (by rwa [hentered])
      exact ⟨body, hbody, fun x hx => (hnoted x hx).mono hrest.le⟩
    · exact ihrest hname hq
  | @expand _ body _ other _ _ p inner q r _ _ _ _ _ hbody hinner hbelow hrest ihinner ihbelow
      ihrest =>
    by_cases hq : name ∈ q.expansions.keys
    · by_cases hi : name ∈ (inner.finishBody other).expansions.keys
      · by_cases ho : name = other
        · subst ho
          refine ⟨body, hbody, fun x hx => (hinner.noted (List.mem_singleton.2 rfl) hx).mono ?_⟩
          exact (Progress.le_finishBody _ _).trans (hbelow.le.trans hrest.le)
        · obtain ⟨body, hbody, hnoted⟩ := ihinner
            (by simpa [Progress.finishBody, ho] using hi)
            (by simpa [opens, Progress.openBody, Progress.note, Progress.mark, ho] using hnew)
          refine ⟨body, hbody, fun x hx => (hnoted x hx).mono ?_⟩
          exact (Progress.le_finishBody _ _).trans (hbelow.le.trans hrest.le)
      · obtain ⟨body, hbody, hnoted⟩ := ihbelow hq hi
        exact ⟨body, hbody, fun x hx => (hnoted x hx).mono hrest.le⟩
    · exact ihrest hname hq

/-! ### Nothing else is listed -/

/-- **The nodes that a walk from `root` covers**: those that steps to children, and from an
occurrence to the body of its name, lead to. -/
inductive Covered (scope : Scope) (root : NodeId) : NodeId → Prop where
  | root : Covered scope root root
  | child {id child : NodeId} (hid : Covered scope root id)
      (hchild : scope.store.IsChild id child) : Covered scope root child
  | body {id body : NodeId} {name : String} (hid : Covered scope root id)
      (hname : scope.store.Mentions id name) (hbody : scope.definitions.get? name = some body) :
      Covered scope root body

variable {root : NodeId}

theorem Covered.of_below {x : NodeId} (h : scope.Covered root id) (hx : scope.store.Below id x) :
    scope.Covered root x := by
  induction hx with
  | refl => exact h
  | tail _ hchild ih => exact .child ih hchild

/-- What is listed is covered, each list without repetition, and listed for what it is. -/
structure Accurate (scope : Scope) (root : NodeId) (found : Gathered) : Prop where
  deferred_nodup : (found.deferred.map Deferred.node).Nodup
  deferred : ∀ marked ∈ found.deferred, scope.Covered root marked.node ∧
    ∃ node, scope.store.get? marked.node = some node ∧
      node.metadataValue? scope.discriminatorKey = some marked.discriminator
  occurrences_nodup : ∀ name, (found.occurrencesOf name).Nodup
  occurrences : ∀ name, ∀ id ∈ found.occurrencesOf name,
    scope.Covered root id ∧ scope.store.Mentions id name
  not_nil : ∀ name, found.occurrences.get? name ≠ some []

variable {found : Gathered}

theorem accurate_empty (scope : Scope) (root : NodeId) : scope.Accurate root {} := by
  constructor <;> simp [Gathered.occurrencesOf]

theorem Accurate.noteMarker (h : scope.Accurate root found) {discriminator : Json}
    (hid : scope.Covered root id) (hnode : scope.store.get? id = some node)
    (hmarker : node.metadataValue? scope.discriminatorKey = some discriminator) :
    scope.Accurate root (found.noteMarker id discriminator) := by
  unfold Gathered.noteMarker
  split
  · exact h
  · rename_i hnew
    simp only [List.any_eq_true, decide_eq_true_eq, not_exists, not_and] at hnew
    refine ⟨?_, ?_, h.occurrences_nodup, h.occurrences, h.not_nil⟩
    · simp only [List.map_append, List.map_cons, List.map_nil]
      refine List.nodup_append.2 ⟨h.deferred_nodup, by simp, ?_⟩
      intro a ha b hb e
      obtain ⟨marked, hmem, rfl⟩ := List.mem_map.1 ha
      exact hnew marked hmem (e.trans (List.mem_singleton.1 hb))
    · intro marked hmem
      rcases List.mem_append.1 hmem with hmem | hmem
      · exact h.deferred marked hmem
      · rw [List.mem_singleton.1 hmem]
        exact ⟨hid, node, hnode, hmarker⟩

theorem Accurate.noteOccurrence (h : scope.Accurate root found) (hid : scope.Covered root id)
    (hname : scope.store.Mentions id name) :
    scope.Accurate root (found.noteOccurrence name id) := by
  unfold Gathered.noteOccurrence
  by_cases hmem : id ∈ found.occurrencesOf name
  · rw [if_pos hmem]
    exact h
  · rw [if_neg hmem]
    refine ⟨h.deferred_nodup, h.deferred, fun other => ?_, fun other x hx => ?_, fun other => ?_⟩
    · by_cases ho : other = name
      · subst ho
        simpa [Gathered.occurrencesOf, OrderedMap.get?_insert, List.nodup_append] using
          ⟨h.occurrences_nodup other, fun a ha e => hmem (e ▸ ha)⟩
      · simpa [Gathered.occurrencesOf, OrderedMap.get?_insert, ho] using h.occurrences_nodup other
    · by_cases ho : other = name
      · subst ho
        simp only [Gathered.occurrencesOf, OrderedMap.get?_insert_self, Option.getD_some,
          List.mem_append, List.mem_singleton] at hx
        rcases hx with hx | rfl
        · exact h.occurrences other x hx
        · exact ⟨hid, hname⟩
      · simp only [Gathered.occurrencesOf, OrderedMap.get?_insert_of_ne _ _ ho] at hx
        exact h.occurrences other x hx
    · by_cases ho : other = name
      · subst ho
        simp
      · rw [OrderedMap.get?_insert_of_ne _ _ ho]
        exact h.not_nil other

theorem Accurate.mark (h : scope.Accurate root p.found) (hid : scope.Covered root id)
    (hnode : scope.store.get? id = some node) :
    scope.Accurate root (p.mark scope.discriminatorKey id node).found := by
  unfold Progress.mark
  split
  · rename_i discriminator hmarker
    exact h.noteMarker hid hnode hmarker
  · exact h

theorem Accurate.closeCycle (h : scope.Accurate root p.found) :
    scope.Accurate root (p.closeCycle name).found :=
  ⟨h.deferred_nodup, h.deferred, h.occurrences_nodup, h.occurrences, h.not_nil⟩

theorem Accurate.enters (h : scope.Accurate root p.found) (hid : scope.Covered root id)
    (hnode : scope.store.get? id = some node) (henter : scope.Enters id node p entered) :
    scope.Accurate root entered.found := by
  cases henter with
  | plain => exact h.mark hid hnode
  | known name href htarget =>
    exact (h.mark hid hnode).noteOccurrence hid ⟨node, hnode, href, htarget⟩
  | closing name href htarget =>
    exact ((h.mark hid hnode).noteOccurrence hid ⟨node, hnode, href, htarget⟩).closeCycle (p :=
      (p.mark scope.discriminatorKey id node).note name id)

/-- A walk over covered nodes lists only what it should. -/
theorem Walks.accurate (h : scope.Walks ids p q) (hids : ∀ id ∈ ids, scope.Covered root id)
    (hp : scope.Accurate root p.found) : scope.Accurate root q.found := by
  induction h with
  | nil p => exact hp
  | enter hnode hkids henter _ _ ihbelow ihrest =>
    have hid := hids _ List.mem_cons_self
    refine ihrest (fun x hx => hids x (List.mem_cons_of_mem _ hx)) ?_
    exact ihbelow (fun x hx => .child hid ⟨_, hkids, hx⟩) (hp.enters hid hnode henter)
  | expand hnode hkids href htarget _ hbody _ _ _ ihinner ihbelow ihrest =>
    have hid := hids _ List.mem_cons_self
    have hname : scope.store.Mentions _ _ := ⟨_, hnode, href, htarget⟩
    refine ihrest (fun x hx => hids x (List.mem_cons_of_mem _ hx)) ?_
    refine ihbelow (fun x hx => .child hid ⟨_, hkids, hx⟩) (ihinner (fun x hx => ?_) ?_)
    · rw [List.mem_singleton.1 hx]
      exact .body hid hname hbody
    · exact (hp.mark hid hnode).noteOccurrence hid hname

/-! ### The whole run -/

theorem noted_of_covered (h : scope.Walks [root] {} p) {x : NodeId}
    (hx : scope.Covered root x) : scope.Noted p x := by
  suffices hall : ∃ start, scope.store.Below start x ∧
      ∀ y, scope.store.Below start y → scope.Noted p y by
    obtain ⟨start, hbelow, hnoted⟩ := hall
    exact hnoted x hbelow
  induction hx with
  | root => exact ⟨root, .refl, fun y hy => h.noted List.mem_cons_self hy⟩
  | child _ hchild ih =>
    obtain ⟨start, hbelow, hnoted⟩ := ih
    exact ⟨start, hbelow.tail hchild, hnoted⟩
  | @body id body name _ hname hbody ih =>
    obtain ⟨start, hbelow, hnoted⟩ := ih
    obtain ⟨node, hnode, href, htarget⟩ := hname
    obtain ⟨other, hother, -, hmet⟩ := (hnoted id hbelow).occurrence node hnode href
    rw [htarget] at hother
    cases hother
    obtain ⟨body', hbody', hnoted⟩ := h.body_noted hmet (by simp)
    rw [hbody] at hbody'
    cases hbody'
    exact ⟨body, .refl, hnoted⟩

theorem mem_flatten_occurrences {x : NodeId} :
    x ∈ found.occurrences.values.flatten ↔ ∃ name, x ∈ found.occurrencesOf name := by
  simp only [OrderedMap.values, List.mem_flatten, List.mem_map, Prod.exists, exists_eq_right]
  constructor
  · rintro ⟨ids, ⟨name, hentry⟩, hx⟩
    refine ⟨name, ?_⟩
    rwa [Gathered.occurrencesOf, OrderedMap.mem_entries_iff.1 hentry]
  · rintro ⟨name, hx⟩
    unfold Gathered.occurrencesOf at hx
    cases hentry : found.occurrences.get? name with
    | none => simp [hentry] at hx
    | some ids =>
      rw [hentry] at hx
      exact ⟨ids, ⟨name, OrderedMap.mem_entries_iff.2 hentry⟩, hx⟩

theorem Accurate.nodup_flatten (h : scope.Accurate root found) :
    found.occurrences.values.flatten.Nodup := by
  have hlist : ∀ entry ∈ found.occurrences.entries, found.occurrencesOf entry.1 = entry.2 := by
    intro entry hentry
    rw [Gathered.occurrencesOf, OrderedMap.mem_entries_iff.1 hentry]
    rfl
  rw [List.nodup_flatten, OrderedMap.values, List.pairwise_map]
  constructor
  · intro ids hids
    obtain ⟨entry, hentry, rfl⟩ := List.mem_map.1 hids
    rw [← hlist entry hentry]
    exact h.occurrences_nodup entry.1
  · have hnames := List.pairwise_map.1 found.occurrences.nodup
    refine hnames.imp_of_mem fun {a b} ha hb hne x hxa hxb => hne ?_
    -- an occurrence has only one target
    rw [← hlist a ha] at hxa
    rw [← hlist b hb] at hxb
    obtain ⟨node, hnode, -, htarget⟩ := (h.occurrences _ _ hxa).2
    obtain ⟨node', hnode', -, htarget'⟩ := (h.occurrences _ _ hxb).2
    rw [hnode] at hnode'
    cases hnode'
    rw [htarget] at htarget'
    exact Option.some.inj htarget'

theorem accurate_of_gather (h : scope.gather root = .ok found) : scope.Accurate root found := by
  obtain ⟨p, hwalk, rfl⟩ := walks_of_gather h
  refine hwalk.accurate (fun id hid => ?_) (accurate_empty scope root)
  rw [List.mem_singleton.1 hid]
  exact .root

theorem mem_occurrencesOf_iff (h : scope.gather root = .ok found) {x : NodeId} :
    x ∈ found.occurrencesOf name ↔ scope.Covered root x ∧ scope.store.Mentions x name := by
  refine ⟨(accurate_of_gather h).occurrences name x, fun ⟨hx, node, hnode, href, htarget⟩ => ?_⟩
  obtain ⟨p, hwalk, rfl⟩ := walks_of_gather h
  obtain ⟨other, hother, hnoted, -⟩ := (noted_of_covered hwalk hx).occurrence node hnode href
  cases htarget.symm.trans hother
  exact hnoted

/-- **Coverage.** When `gather` goes through, the lists of occurrences hold each covered occurrence
once and nothing else, each under the name it refers to and no list empty; and the marked nodes are
the covered nodes with a marker, each once and with its own value. -/
theorem gather_covers (h : scope.gather root = .ok found) :
    (found.occurrences.values.flatten.Nodup ∧
      (∀ id, id ∈ found.occurrences.values.flatten ↔
        scope.Covered root id ∧ ∃ node, scope.store.get? id = some node ∧ node.isReference = true) ∧
      ∀ name ids, found.occurrences.get? name = some ids →
        ids ≠ [] ∧ ∀ id ∈ ids, scope.store.Mentions id name) ∧
    (found.deferred.map Deferred.node).Nodup ∧
      ∀ id discriminator, ⟨id, discriminator⟩ ∈ found.deferred ↔
        scope.Covered root id ∧ ∃ node, scope.store.get? id = some node ∧
          node.metadataValue? scope.discriminatorKey = some discriminator := by
  obtain ⟨p, hwalk, rfl⟩ := walks_of_gather h
  have hacc := accurate_of_gather h
  refine ⟨⟨hacc.nodup_flatten, fun id => ?_, fun name ids hids => ⟨?_, fun id hid => ?_⟩⟩,
    hacc.deferred_nodup, fun id discriminator => ?_⟩
  · rw [mem_flatten_occurrences]
    constructor
    · rintro ⟨name, hid⟩
      obtain ⟨hcov, node, hnode, href, -⟩ := hacc.occurrences name id hid
      exact ⟨hcov, node, hnode, href⟩
    · rintro ⟨hcov, node, hnode, href⟩
      obtain ⟨name, -, hid, -⟩ := (noted_of_covered hwalk hcov).occurrence node hnode href
      exact ⟨name, hid⟩
  · rintro rfl
    exact hacc.not_nil name hids
  · refine (hacc.occurrences name id ?_).2
    rwa [Gathered.occurrencesOf, hids]
  · constructor
    · intro hmem
      exact hacc.deferred _ hmem
    · rintro ⟨hcov, node, hnode, hmarker⟩
      obtain ⟨marked, hmem, rfl⟩ :=
        (noted_of_covered hwalk hcov).marker node discriminator hnode hmarker
      -- the value listed is the one the node's own metadata holds
      obtain ⟨-, node', hnode', hmarker'⟩ := hacc.deferred marked hmem
      rw [hnode] at hnode'
      cases hnode'
      rw [hmarker] at hmarker'
      cases hmarker'
      exact hmem

/-- A marked occurrence of `A` as the root; the body of `A` is a tuple of an occurrence of `B` and the
root again; the body of `B` is a list of the former. -/
def sharedScope : Scope where
  store := ⟨#[
    (Node.reference "A").withMetadata defaultDiscriminatorKey (.text "kind"),
    (Node.ofKind .tuple).withChild "items_schema" (.many [⟨2⟩, ⟨0⟩]),
    Node.reference "B",
    (Node.ofKind .list).withChild "items_schema" (.one ⟨2⟩)]⟩
  definitions := .ofList [("A", ⟨1⟩), ("B", ⟨3⟩)]

/-- Shared nodes on a cycle are listed once. -/
theorem sharedScope_covers :
    ∃ found, sharedScope.gather ⟨0⟩ = .ok found ∧
      found.occurrences.entries = [("A", [⟨0⟩]), ("B", [⟨2⟩])] ∧
      (found.occurrences.values.flatten.Nodup ∧
        (∀ id, id ∈ found.occurrences.values.flatten ↔ sharedScope.Covered ⟨0⟩ id ∧
          ∃ node, sharedScope.store.get? id = some node ∧ node.isReference = true) ∧
        ∀ name ids, found.occurrences.get? name = some ids →
          ids ≠ [] ∧ ∀ id ∈ ids, sharedScope.store.Mentions id name) ∧
      (found.deferred.map Deferred.node).Nodup ∧
        ∀ id discriminator, ⟨id, discriminator⟩ ∈ found.deferred ↔
          sharedScope.Covered ⟨0⟩ id ∧ ∃ node, sharedScope.store.get? id = some node ∧
            node.metadataValue? sharedScope.discriminatorKey = some discriminator := by
  have hrun : sharedScope.gather ⟨0⟩ = .ok
      { occurrences := .ofList [("A", [⟨0⟩]), ("B", [⟨2⟩])]
        recursive := .ofList ["A", "B"]
        deferred := [⟨⟨0⟩, .text "kind"⟩] } :=
    gather_of_runWithin 20 (by decide +kernel)
  exact ⟨_, hrun, by decide +kernel, gather_covers hrun⟩

end Scope

end SchemaGraph
