import Mathlib.Data.List.Chain
import SchemaGraph.Proofs.Gather.Coverage

/-!
Which names `gather` marks as recursive. A name is marked when an occurrence closes a cycle through
the names whose bodies are being walked at that moment. Said of the reference graph and the order in
which names are met: the name lies on a cycle that leads from it, through names not met before it,
to a reference to the first name of the cycle (`ClosesFrom`).

* `mem_recursive_iff` — exactly these names are marked;
* `recursive_eq_onCycle_iff` — when these are all names on cycles.
-/

namespace SchemaGraph

namespace Scope

/-! ### The reference graph -/

/-- The body of `name` contains an occurrence of `other`. -/
def Refers (scope : Scope) (name other : String) : Prop :=
  ∃ body id, scope.definitions.get? name = some body ∧ scope.store.Below body id ∧
    scope.store.Mentions id other

/-- A covered node refers to `name`. -/
def Occurs (scope : Scope) (root : NodeId) (name : String) : Prop :=
  ∃ id, scope.Covered root id ∧ scope.store.Mentions id name

/-- `name` lies on a cycle of the reference graph that the walk from `root` covers. -/
def OnCycle (scope : Scope) (root : NodeId) (name : String) : Prop :=
  scope.Occurs root name ∧ Relation.TransGen scope.Refers name name

/-- A reference to a name that was not met before `start`; `met` are the names as they were met. -/
def StaysAfter (scope : Scope) (met : List String) (start name other : String) : Prop :=
  scope.Refers name other ∧ met.idxOf start ≤ met.idxOf other

/-- `name` lies on a cycle of which `first` is met first, and on the way from `name` to the reference
to `first` no name was met before `name`. -/
def ClosesFrom (scope : Scope) (met : List String) (name : String) : Prop :=
  ∃ first last, Relation.ReflTransGen (scope.StaysAfter met first) first name ∧
    Relation.ReflTransGen (scope.StaysAfter met name) name last ∧ scope.Refers last first

variable {scope : Scope} {root : NodeId} {met : List String} {name other : String}

theorem refers_of_staysAfter {start : String}
    (h : Relation.ReflTransGen (scope.StaysAfter met start) name other) :
    Relation.ReflTransGen scope.Refers name other :=
  Relation.ReflTransGen.mono (fun _ _ (hstep : scope.StaysAfter met start _ _) => hstep.1) _ _ h

theorem idxOf_le_of_staysAfter {start : String}
    (h : Relation.ReflTransGen (scope.StaysAfter met start) start name) :
    met.idxOf start ≤ met.idxOf name := by
  cases h with
  | refl => exact Nat.le_refl _
  | tail _ hstep => exact hstep.2

theorem ClosesFrom.cycle (h : scope.ClosesFrom met name) :
    Relation.TransGen scope.Refers name name := by
  obtain ⟨first, last, hfirst, hlast, hback⟩ := h
  exact Relation.TransGen.trans_right (refers_of_staysAfter hlast)
    (Relation.TransGen.trans_left (.single hback) (refers_of_staysAfter hfirst))

/-! ### Frames -/

variable {p q entered : Progress} {id : NodeId} {node : Node} {ids : List NodeId}

/-- The frames are the names in progress, each once. -/
structure Framed (p : Progress) : Prop where
  inProgress : ∀ name, p.expansions.get? name = some .inProgress ↔ name ∈ p.frames
  nodup : p.frames.Nodup

theorem Enters.frames_eq (h : scope.Enters id node p entered) : entered.frames = p.frames := by
  cases h <;> rfl

theorem Enters.expansions_eq (h : scope.Enters id node p entered) :
    entered.expansions = p.expansions := by
  cases h <;> rfl

theorem Framed.enters (hp : Framed p) (h : scope.Enters id node p entered) : Framed entered := by
  constructor
  · rw [h.frames_eq, h.expansions_eq]
    exact hp.inProgress
  · rw [h.frames_eq]
    exact hp.nodup

theorem Framed.not_mem (hp : Framed p) (hnew : p.expansions.get? name = none) :
    name ∉ p.frames := by
  intro h
  rw [← hp.inProgress, hnew] at h
  cases h

theorem Framed.opens (hp : Framed p) (hnew : p.expansions.get? name = none) :
    Framed (scope.opens id node name p) := by
  refine ⟨fun other => ?_, List.nodup_cons.2 ⟨hp.not_mem hnew, hp.nodup⟩⟩
  have := hp.inProgress other
  by_cases h : other = name <;>
    simp [Scope.opens, Progress.openBody, Progress.note, Progress.mark, OrderedMap.get?_insert, h,
      this]

theorem Framed.finishBody {inner : Progress} {frames : List String} (hp : Framed inner)
    (hframes : inner.frames = name :: frames) : Framed (inner.finishBody name) := by
  have hnodup := hp.nodup
  rw [hframes] at hnodup
  obtain ⟨hname, hrest⟩ := List.nodup_cons.1 hnodup
  refine ⟨fun other => ?_, by simpa [Progress.finishBody, hframes] using hrest⟩
  have := hp.inProgress other
  by_cases h : other = name
  · simp [Progress.finishBody, hframes, h, hname]
  · simpa [Progress.finishBody, OrderedMap.get?_insert, hframes, h] using this

theorem Walks.frames_eq (h : scope.Walks ids p q) : q.frames = p.frames := by
  induction h with
  | nil p => rfl
  | enter _ _ henter _ _ ihbelow ihrest => rw [ihrest, ihbelow, henter.frames_eq]
  | expand _ _ _ _ _ _ _ _ _ ihinner ihbelow ihrest =>
    rw [ihrest, ihbelow, Progress.finishBody, ihinner]
    rfl

theorem Walks.framed (h : scope.Walks ids p q) (hp : Framed p) : Framed q := by
  induction h with
  | nil p => exact hp
  | enter _ _ henter _ _ ihbelow ihrest => exact ihrest (ihbelow (hp.enters henter))
  | expand _ _ _ _ hnew _ hinner _ _ ihinner ihbelow ihrest =>
    exact ihrest (ihbelow ((ihinner (hp.opens hnew)).finishBody hinner.frames_eq))

/-- When a body is walked and closed the frames are those from before it was opened. -/
theorem Walks.finished_frames {inner : Progress} (h : scope.Walks ids (scope.opens id node name p) inner) :
    (inner.finishBody name).frames = p.frames := by
  rw [Progress.finishBody, h.frames_eq]
  rfl

theorem Walks.finished_framed {inner : Progress} (h : scope.Walks ids (scope.opens id node name p) inner)
    (hp : Framed p) (hnew : p.expansions.get? name = none) : Framed (inner.finishBody name) :=
  (h.framed (hp.opens hnew)).finishBody h.frames_eq

theorem framed_empty : Framed {} := by
  constructor <;> simp

/-! ### Names in the order in which they are met -/

theorem keys_opens (hnew : p.expansions.get? name = none) :
    (scope.opens id node name p).expansions.keys = p.expansions.keys ++ [name] :=
  OrderedMap.keys_insert_of_not_mem _ (OrderedMap.get?_eq_none.1 hnew)

theorem Walks.mem_keys_of_opens {inner : Progress}
    (h : scope.Walks ids (scope.opens id node name p) inner) (hnew : p.expansions.get? name = none) :
    name ∈ inner.expansions.keys := by
  refine h.le.keys.subset ?_
  rw [keys_opens hnew]
  simp

theorem keys_finishBody (h : name ∈ p.expansions.keys) :
    (p.finishBody name).expansions.keys = p.expansions.keys :=
  OrderedMap.keys_insert_of_mem _ h

theorem occurrences_mark (key : String) (id : NodeId) (node : Node) (p : Progress) :
    (p.mark key id node).found.occurrences = p.found.occurrences := by
  unfold Progress.mark Gathered.noteMarker
  split
  · dsimp only
    split <;> rfl
  · rfl

theorem recursive_mark (key : String) (id : NodeId) (node : Node) (p : Progress) :
    (p.mark key id node).found.recursive = p.found.recursive := by
  unfold Progress.mark Gathered.noteMarker
  split
  · dsimp only
    split <;> rfl
  · rfl

theorem recursive_note (name : String) (id : NodeId) (p : Progress) :
    (p.note name id).found.recursive = p.found.recursive := by
  unfold Progress.note Gathered.noteOccurrence
  dsimp only
  split <;> rfl

/-- Names are listed in the order in which their bodies are opened. -/
theorem Walks.keys_eq (h : scope.Walks ids p q)
    (hp : p.expansions.keys = p.found.occurrences.keys) :
    q.expansions.keys = q.found.occurrences.keys := by
  have hnote : ∀ (p : Progress) (id : NodeId) (node : Node) (name : String),
      p.expansions.keys = p.found.occurrences.keys → name ∈ p.expansions.keys →
      p.expansions.keys =
        ((p.mark scope.discriminatorKey id node).note name id).found.occurrences.keys := by
    intro p id node name hp hname
    unfold Progress.note Gathered.noteOccurrence
    dsimp only
    split
    · rw [occurrences_mark, hp]
    · rw [OrderedMap.keys_insert_of_mem _ (by rwa [occurrences_mark, ← hp]), occurrences_mark, hp]
  induction h with
  | nil p => exact hp
  | @enter id node _ _ p _ _ _ _ _ henter _ _ ihbelow ihrest =>
    refine ihrest (ihbelow ?_)
    cases henter with
    | plain => rw [occurrences_mark]; exact hp
    | known name _ _ hstate => exact hnote p id node name hp (OrderedMap.mem_keys_of_get? hstate)
    | closing name _ _ hstate => exact hnote p id node name hp (OrderedMap.mem_keys_of_get? hstate)
  | @expand id body node name _ _ p inner _ _ _ _ _ _ hnew _ hinner _ _ ihinner ihbelow ihrest =>
    have hinner_keys : inner.expansions.keys = inner.found.occurrences.keys := by
      refine ihinner ?_
      have habsent : p.found.occurrences.get? name = none := by
        rw [OrderedMap.get?_eq_none, ← hp]
        exact OrderedMap.get?_eq_none.1 hnew
      rw [keys_opens hnew, hp]
      simp only [opens, Progress.openBody, Progress.note, Gathered.noteOccurrence,
        Gathered.occurrencesOf, occurrences_mark, habsent, Option.getD_none, List.not_mem_nil,
        if_false]
      exact (OrderedMap.keys_insert_of_not_mem _ (OrderedMap.get?_eq_none.1 habsent)).symm
    have hmem : name ∈ inner.expansions.keys :=
      hinner.le.keys.subset (by rw [keys_opens hnew]; simp)
    refine ihrest (ihbelow ?_)
    rw [keys_finishBody hmem]
    exact hinner_keys

theorem idxOf_initial {names : List String} (h : names <+: met) (hname : name ∈ names) :
    met.idxOf name = names.idxOf name := by
  obtain ⟨rest, rfl⟩ := h
  exact List.idxOf_append_of_mem hname

theorem idxOf_lt_of_opens (hnew : p.expansions.get? name = none)
    (hmet : (scope.opens id node name p).expansions.keys <+: met)
    (hother : other ∈ p.expansions.keys) : met.idxOf other < met.idxOf name := by
  have hname := OrderedMap.get?_eq_none.1 hnew
  rw [keys_opens hnew] at hmet
  rw [idxOf_initial hmet (List.mem_append_left _ hother), idxOf_initial hmet (by simp),
    List.idxOf_append_of_mem hother, List.idxOf_append_of_notMem hname]
  have := List.idxOf_lt_length_of_mem hother
  omega

/-! ### Marked names close a cycle -/

/-- Each frame refers to the next one further in, which was met later. -/
def Nested (scope : Scope) (met : List String) (frames : List String) : Prop :=
  frames.IsChain fun inner outer => scope.Refers outer inner ∧ met.idxOf outer < met.idxOf inner

/-- `id` lies in the body of the innermost frame. -/
def InFrame (scope : Scope) (frames : List String) (id : NodeId) : Prop :=
  ∀ name ∈ frames.head?, ∃ body, scope.definitions.get? name = some body ∧ scope.store.Below body id

/-- From each frame the innermost one is reached through names met later. -/
theorem Nested.staysAfter {frames : List String} :
    ∀ {innermost : String}, scope.Nested met (innermost :: frames) → name ∈ innermost :: frames →
      Relation.ReflTransGen (scope.StaysAfter met name) name innermost := by
  induction frames with
  | nil =>
    intro innermost _ hname
    rw [List.mem_singleton.1 hname]
  | cons next frames ih =>
    intro innermost h hname
    obtain ⟨⟨hrefers, hlt⟩, hrest⟩ := List.isChain_cons_cons.1 h
    rcases List.mem_cons.1 hname with rfl | hname
    · exact .refl
    · have hnext := ih hrest hname
      have hle := idxOf_le_of_staysAfter hnext
      exact hnext.tail ⟨hrefers, by omega⟩

theorem mem_cycleTo {marked : String} {frames : List String} :
    marked ∈ cycleTo name frames ↔
      ∃ before after, frames = before ++ marked :: after ∧ name ∉ before ∧ name ∈ marked :: after := by
  unfold cycleTo
  constructor
  · intro h
    split at h
    · rename_i hname
      obtain ⟨before, after, rfl, hbefore⟩ := List.eq_append_cons_of_mem hname
      have hall : ∀ x ∈ before, decide (x ≠ name) = true :=
        fun x hx => by simpa using fun e : x = name => hbefore (e ▸ hx)
      rw [List.takeWhile_append_of_pos hall, List.takeWhile_cons] at h
      simp only [ne_eq, not_true_eq_false, decide_false, Bool.false_eq_true, if_false,
        List.append_nil, List.mem_append, List.mem_singleton] at h
      rcases h with h | rfl
      · obtain ⟨front, back, rfl⟩ := List.append_of_mem h
        exact ⟨front, back ++ name :: after, by simp, fun hm => hbefore (by simp [hm]), by simp⟩
      · exact ⟨before, after, rfl, hbefore, List.mem_cons_self⟩
    · cases h
  · rintro ⟨before, after, rfl, hbefore, hname⟩
    rw [if_pos (List.mem_append_right _ hname)]
    have hall : ∀ x ∈ before, decide (x ≠ name) = true :=
      fun x hx => by simpa using fun e : x = name => hbefore (e ▸ hx)
    rw [List.takeWhile_append_of_pos hall]
    by_cases h : marked = name
    · simp [h]
    · simp [h]

/-- The names that are marked when `name` is met again stand between two ends of a cycle. -/
theorem closesFrom_of_mem_cycleTo {frames : List String} {innermost marked : String}
    (hnested : scope.Nested met (innermost :: frames)) (hback : scope.Refers innermost name)
    (hmarked : marked ∈ cycleTo name (innermost :: frames)) : scope.ClosesFrom met marked := by
  obtain ⟨before, after, hsplit, -, hname⟩ := mem_cycleTo.1 hmarked
  refine ⟨name, innermost, ?_, hnested.staysAfter ?_, hback⟩
  · rw [Nested, hsplit] at hnested
    exact Nested.staysAfter hnested.right_of_append hname
  · rw [hsplit]
    simp

/-- Entering a node marks the names from the innermost frame out to the one that it refers to. -/
theorem Enters.mem_recursive (h : scope.Enters id node p entered)
    (hnode : scope.store.get? id = some node) (hname : name ∈ entered.found.recursive) :
    name ∈ p.found.recursive ∨ ∃ other, scope.store.Mentions id other ∧
      name ∈ cycleTo other p.frames := by
  cases h with
  | plain => exact .inl (by rwa [recursive_mark] at hname)
  | known other => exact .inl (by rwa [recursive_note, recursive_mark] at hname)
  | closing other href htarget =>
    rcases NameSet.mem_insertMany.1 hname with hname | hname
    · exact .inr ⟨other, ⟨node, hnode, href, htarget⟩, hname⟩
    · exact .inl (by rwa [recursive_note, recursive_mark] at hname)

theorem InFrame.child {frames : List String} {child : NodeId} (h : scope.InFrame frames id)
    (hchild : scope.store.IsChild id child) : scope.InFrame frames child := by
  intro frame hframe
  obtain ⟨body, hbody, hbelow⟩ := h frame hframe
  exact ⟨body, hbody, hbelow.tail hchild⟩

/-- A name that is marked on entering a node of the innermost frame closes a cycle: the frame refers to
the name that was met again. -/
theorem Enters.closesFrom (h : scope.Enters id node p entered) (hp : Framed p)
    (hnode : scope.store.get? id = some node) (hnested : scope.Nested met p.frames)
    (hid : scope.InFrame p.frames id) (hname : name ∈ entered.found.recursive) :
    name ∈ p.found.recursive ∨ name ∈ p.expansions.keys ∧ scope.ClosesFrom met name := by
  rcases h.mem_recursive hnode hname with hname | ⟨other, hother, hcycle⟩
  · exact .inl hname
  · right
    cases hframes : p.frames with
    | nil => simp [cycleTo, hframes] at hcycle
    | cons innermost outer =>
      rw [hframes] at hcycle hnested
      obtain ⟨body, hbody, hbelow⟩ := hid innermost (by simp [hframes])
      obtain ⟨before, after, hsplit, -⟩ := mem_cycleTo.1 hcycle
      have hstate := (hp.inProgress name).2 (by simp [hframes, hsplit])
      have hrefers : scope.Refers innermost other := ⟨body, id, hbody, hbelow, hother⟩
      exact ⟨OrderedMap.mem_keys_of_get? hstate, closesFrom_of_mem_cycleTo hnested hrefers hcycle⟩

/-- Opening the body of a name that a node of the innermost frame refers to keeps frames nested. -/
theorem Nested.opens (h : scope.Nested met p.frames) (hp : Framed p)
    (hid : scope.InFrame p.frames id) (hmention : scope.store.Mentions id name)
    (hnew : p.expansions.get? name = none)
    (hmet : (scope.opens id node name p).expansions.keys <+: met) :
    scope.Nested met (scope.opens id node name p).frames := by
  show scope.Nested met (name :: p.frames)
  cases hframes : p.frames with
  | nil => exact .singleton _
  | cons innermost outer =>
    rw [hframes] at h
    obtain ⟨body, hbody, hbelow⟩ := hid innermost (by simp [hframes])
    have hrefers : scope.Refers innermost name := ⟨body, id, hbody, hbelow, hmention⟩
    have hstate := (hp.inProgress innermost).2 (by simp [hframes])
    have hlt := idxOf_lt_of_opens hnew hmet (OrderedMap.mem_keys_of_get? hstate)
    exact List.isChain_cons_cons.2 ⟨⟨hrefers, hlt⟩, h⟩

/-- A walk in the innermost frame marks only names that close a cycle. -/
theorem Walks.closesFrom (h : scope.Walks ids p q) (hp : Framed p)
    (hnested : scope.Nested met p.frames) (hids : ∀ id ∈ ids, scope.InFrame p.frames id)
    (hmet : q.expansions.keys <+: met) (hname : name ∈ q.found.recursive) :
    name ∈ p.found.recursive ∨ name ∈ q.expansions.keys ∧ scope.ClosesFrom met name := by
  induction h generalizing name with
  | nil p => exact .inl hname
  | @enter id node ids rest p entered q r hnode hkids henter hbelow hrest ihbelow ihrest =>
    have hid := hids id List.mem_cons_self
    have hentered : Framed entered := hp.enters henter
    have hframes : q.frames = p.frames := by rw [hbelow.frames_eq, henter.frames_eq]
    have hchildren : ∀ child ∈ ids, scope.InFrame entered.frames child := fun child hchild =>
      henter.frames_eq ▸ hid.child ⟨ids, hkids, hchild⟩
    -- the name was marked after the node's tree, below the node, or on entering it
    rcases ihrest (hbelow.framed hentered) (hframes ▸ hnested)
      (fun x hx => hframes ▸ hids x (List.mem_cons_of_mem _ hx)) hmet hname with hname | hname
    · rcases ihbelow hentered (henter.frames_eq ▸ hnested) hchildren
        (hrest.le.keys.trans hmet) hname with hname | ⟨hkey, hcloses⟩
      · refine (henter.closesFrom hp hnode hnested hid hname).imp_right ?_
        rintro ⟨hkey, hcloses⟩
        have hle := henter.le.trans (hbelow.le.trans hrest.le)
        exact ⟨hle.keys.subset hkey, hcloses⟩
      · exact .inr ⟨hrest.le.keys.subset hkey, hcloses⟩
    · exact .inr hname
  | @expand id body node other ids rest p inner q r hnode hkids href htarget hnew hbody hinner hbelow
      hrest ihinner ihbelow ihrest =>
    have hid := hids id List.mem_cons_self
    have hfinish : Framed (inner.finishBody other) := hinner.finished_framed hp hnew
    have hfinished : (inner.finishBody other).frames = p.frames := hinner.finished_frames
    have hframes : q.frames = p.frames := by rw [hbelow.frames_eq, hfinished]
    have hchildren : ∀ child ∈ ids, scope.InFrame (inner.finishBody other).frames child :=
      fun child hchild => hfinished ▸ hid.child ⟨ids, hkids, hchild⟩
    have hgrow : inner.Le r := (Progress.le_finishBody _ _).trans (hbelow.le.trans hrest.le)
    rcases ihrest (hbelow.framed hfinish) (hframes ▸ hnested)
      (fun x hx => hframes ▸ hids x (List.mem_cons_of_mem _ hx)) hmet hname with hname | hname
    · rcases ihbelow hfinish (hfinished ▸ hnested) hchildren
        (hrest.le.keys.trans hmet) hname with hname | ⟨hkey, hcloses⟩
      · have hopen_nested : scope.Nested met (scope.opens id node other p).frames :=
          hnested.opens hp hid ⟨node, hnode, href, htarget⟩ hnew
            ((hinner.le.trans hgrow).keys.trans hmet)
        have hopen_ids : ∀ x ∈ [body], scope.InFrame (scope.opens id node other p).frames x := by
          intro x hx frame hframe
          rw [List.mem_singleton.1 hx]
          cases Option.mem_some.1 hframe
          exact ⟨body, hbody, .refl⟩
        rcases ihinner (hp.opens hnew) hopen_nested hopen_ids (hgrow.keys.trans hmet) hname with
          hname | ⟨hkey, hcloses⟩
        · exact .inl (by simpa [opens, Progress.openBody, recursive_note, recursive_mark] using hname)
        · exact .inr ⟨hgrow.keys.subset hkey, hcloses⟩
      · exact .inr ⟨hrest.le.keys.subset hkey, hcloses⟩
    · exact .inr hname

/-! ### Names that close a cycle are marked -/

/-- An occurrence of a name in progress marks all names from the innermost frame out to it. -/
theorem Walks.marks (h : scope.Walks ids p q) (hp : Framed p) {x : NodeId} (hid : id ∈ ids)
    (hx : scope.store.Below id x) (hname : scope.store.Mentions x name)
    (hframe : name ∈ p.frames) {marked : String} (hmarked : marked ∈ cycleTo name p.frames) :
    marked ∈ q.found.recursive := by
  induction h generalizing id with
  | nil p => cases hid
  | @enter _ node _ _ p entered _ _ hnode hkids henter hbelow hrest ihbelow ihrest =>
    have hframes := henter.frames_eq
    rcases List.mem_cons.1 hid with rfl | hid
    · rcases (Store.below_of_childIds hkids).1 hx with rfl | ⟨child, hchild, hx⟩
      · refine (hbelow.le.trans hrest.le).recursive _ ?_
        obtain ⟨node', hnode', href, htarget⟩ := hname
        rw [hnode] at hnode'
        cases hnode'
        have hstate := (hp.inProgress name).2 hframe
        cases henter with
        | plain hplain => simp [hplain] at href
        | known other _ hother hdone =>
          rw [htarget] at hother
          cases hother
          rw [hstate] at hdone
          cases hdone
        | closing other _ hother _ =>
          rw [htarget] at hother
          cases hother
          exact NameSet.mem_insertMany.2 (.inl hmarked)
      · refine hrest.le.recursive _ (ihbelow (hp.enters henter) hchild hx ?_ ?_) <;>
          rwa [hframes]
    · have hq : Framed _ := hbelow.framed (hp.enters henter)
      refine ihrest hq hid hx ?_ ?_ <;> rwa [hbelow.frames_eq, hframes]
  | @expand _ _ node other _ _ p inner _ _ hnode hkids _ htarget hnew _ hinner hbelow hrest _ ihbelow
      ihrest =>
    have hfinish : Framed (inner.finishBody other) := hinner.finished_framed hp hnew
    have hframes : (inner.finishBody other).frames = p.frames := hinner.finished_frames
    rcases List.mem_cons.1 hid with rfl | hid
    · rcases (Store.below_of_childIds hkids).1 hx with rfl | ⟨child, hchild, hx⟩
      · obtain ⟨node', hnode', -, htarget'⟩ := hname
        rw [hnode] at hnode'
        cases hnode'
        rw [htarget] at htarget'
        cases htarget'
        exact absurd hframe (hp.not_mem hnew)
      · refine hrest.le.recursive _ (ihbelow hfinish hchild hx ?_ ?_) <;> rwa [hframes]
    · refine ihrest (hbelow.framed hfinish) hid hx ?_ ?_ <;> rwa [hbelow.frames_eq, hframes]

/-- The walk over the body of `name`: `start` is where it begins, `inner` where it ends. -/
structure BodyWalk (scope : Scope) (name : String) (start inner : Progress) : Prop where
  walks : ∃ body, scope.definitions.get? name = some body ∧ scope.Walks [body] start inner
  framed : Framed start
  innermost : ∃ outer, start.frames = name :: outer
  newest : ∃ before, start.expansions.keys = before ++ [name]

/-- For each name that a walk meets there is a walk over its body inside of it, in which the frames
of the outer walk are still there. -/
theorem Walks.exists_bodyWalk (h : scope.Walks ids p q) (hp : Framed p)
    (hname : name ∈ q.expansions.keys) (hnew : name ∉ p.expansions.keys) :
    ∃ start inner, scope.BodyWalk name start inner ∧ p.frames <:+ start.frames ∧ inner.Le q := by
  induction h with
  | nil p => exact absurd hname hnew
  | @enter _ _ _ _ p entered q r _ _ henter hbelow hrest ihbelow ihrest =>
    by_cases hq : name ∈ q.expansions.keys
    · obtain ⟨start, inner, hbody, hframes, hle⟩ :=
        ihbelow (hp.enters henter) hq (by rwa [henter.expansions_eq])
      exact ⟨start, inner, hbody, henter.frames_eq ▸ hframes, hle.trans hrest.le⟩
    · obtain ⟨start, inner, hbody, hframes, hle⟩ :=
        ihrest (hbelow.framed (hp.enters henter)) hname hq
      rw [hbelow.frames_eq, henter.frames_eq] at hframes
      exact ⟨start, inner, hbody, hframes, hle⟩
  | @expand id body node other _ _ p inner q r _ _ _ _ hother hbody hinner hbelow hrest ihinner
      ihbelow ihrest =>
    have hopen : Framed (scope.opens id node other p) := hp.opens hother
    have hfinish : Framed (inner.finishBody other) := hinner.finished_framed hp hother
    have hframes : (inner.finishBody other).frames = p.frames := hinner.finished_frames
    have hgrow : inner.Le q := (Progress.le_finishBody _ _).trans hbelow.le
    by_cases hq : name ∈ q.expansions.keys
    · by_cases hi : name ∈ (inner.finishBody other).expansions.keys
      · by_cases ho : name = other
        · subst ho
          refine ⟨_, inner, ⟨⟨body, hbody, hinner⟩, hopen, ⟨p.frames, rfl⟩, ⟨_, keys_opens hother⟩⟩,
            List.suffix_cons _ _, hgrow.trans hrest.le⟩
        · obtain ⟨start, last, hwalk, hsuffix, hle⟩ := ihinner hopen
            (by simpa [Progress.finishBody, ho] using hi)
            (by rw [keys_opens hother]; simp [ho, hnew])
          exact ⟨start, last, hwalk, (List.suffix_cons _ _).trans hsuffix,
            hle.trans (hgrow.trans hrest.le)⟩
      · obtain ⟨start, last, hwalk, hsuffix, hle⟩ := ihbelow hfinish hq hi
        exact ⟨start, last, hwalk, hframes ▸ hsuffix, hle.trans hrest.le⟩
    · obtain ⟨start, last, hwalk, hsuffix, hle⟩ := ihrest (hbelow.framed hfinish) hname hq
      rw [hbelow.frames_eq, hframes] at hsuffix
      exact ⟨start, last, hwalk, hsuffix, hle⟩

variable {start inner : Progress}

/-- Names that are reached through names met later are met in the walk over the body. -/
theorem BodyWalk.met_of_staysAfter (h : scope.BodyWalk name start inner)
    (hmet : inner.expansions.keys <+: met)
    (hpath : Relation.ReflTransGen (scope.StaysAfter met name) name other) :
    other ∈ inner.expansions.keys ∧ (other = name ∨ other ∉ start.expansions.keys) := by
  obtain ⟨body, hbody, hwalk⟩ := h.walks
  obtain ⟨before, hkeys⟩ := h.newest
  induction hpath with
  | refl => exact ⟨hwalk.le.keys.subset (by simp [hkeys]), .inl rfl⟩
  | @tail via other _ hstep ih =>
    obtain ⟨⟨body', x, hbody', hx, hmention⟩, hle⟩ := hstep
    obtain ⟨hvia, hvia_new⟩ := ih
    have hnoted : scope.Noted inner x := by
      rcases hvia_new with rfl | hnew
      · rw [hbody] at hbody'
        cases hbody'
        exact hwalk.noted List.mem_cons_self hx
      · obtain ⟨body'', hbody'', hnoted⟩ := hwalk.body_noted hvia hnew
        rw [hbody'] at hbody''
        cases hbody''
        exact hnoted x hx
    obtain ⟨node, hnode, href, htarget⟩ := hmention
    obtain ⟨other', hother', -, hkey⟩ := hnoted.occurrence node hnode href
    rw [htarget] at hother'
    cases hother'
    refine ⟨hkey, ?_⟩
    -- a name met before `name` would have a smaller place
    by_contra hcontra
    obtain ⟨hne, hold⟩ := not_or.1 hcontra
    have hstart : start.expansions.keys <+: met := hwalk.le.keys.trans hmet
    have hnodup := start.expansions.nodup_keys
    rw [not_not, hkeys] at hold
    rw [hkeys] at hstart hnodup
    have hbefore : other ∈ before := by
      rcases List.mem_append.1 hold with hold | hold
      · exact hold
      · exact absurd (List.mem_singleton.1 hold) hne
    have hname : name ∉ before := by
      intro hmem
      exact (List.nodup_append.1 hnodup).2.2 name hmem name (by simp) rfl
    rw [idxOf_initial hstart (by simp), idxOf_initial hstart (List.mem_append_left _ hbefore),
      List.idxOf_append_of_notMem hname, List.idxOf_append_of_mem hbefore] at hle
    have := List.idxOf_lt_length_of_mem hbefore
    omega

/-- In the walk over its body, a name is marked with each reference to a frame that is found in the
body or in one opened below it. -/
theorem BodyWalk.mem_recursive (h : scope.BodyWalk name start inner)
    (hmet : inner.expansions.keys <+: met) {first last : String}
    (hpath : Relation.ReflTransGen (scope.StaysAfter met name) name last)
    (hback : scope.Refers last first) (hfirst : first ∈ start.frames) :
    name ∈ inner.found.recursive := by
  obtain ⟨hlast, hlast_new⟩ := h.met_of_staysAfter hmet hpath
  obtain ⟨body, x, hbody, hx, hmention⟩ := hback
  -- the walk over the body of `last` is this one or one inside of it
  obtain ⟨start', inner', hwalk', hsuffix, hle⟩ : ∃ start' inner', scope.BodyWalk last start' inner' ∧
      start.frames <:+ start'.frames ∧ inner'.Le inner := by
    rcases hlast_new with rfl | hnew
    · exact ⟨start, inner, h, List.suffix_refl _, .refl _⟩
    · obtain ⟨_, _, hwalk⟩ := h.walks
      exact hwalk.exists_bodyWalk h.framed hlast hnew
  obtain ⟨body', hbody', hwalks⟩ := hwalk'.walks
  rw [hbody] at hbody'
  cases hbody'
  refine hle.recursive _ (hwalks.marks hwalk'.framed List.mem_cons_self hx hmention
    (hsuffix.subset hfirst) ?_)
  obtain ⟨front, hfront⟩ := hsuffix
  obtain ⟨outer, houter⟩ := h.innermost
  rw [houter] at hfront hfirst
  refine mem_cycleTo.2 ⟨front, outer, hfront.symm, fun hmem => ?_, hfirst⟩
  have hnodup := hwalk'.framed.nodup
  rw [← hfront] at hnodup
  exact (List.nodup_append.1 hnodup).2.2 first hmem first hfirst rfl

/-! ### The whole run -/

variable {found : Gathered}

theorem mem_keys_iff_occurs (h : scope.gather root = .ok found) :
    name ∈ found.occurrences.keys ↔ scope.Occurs root name := by
  have hacc := accurate_of_gather h
  obtain ⟨p, hwalk, rfl⟩ := walks_of_gather h
  rw [OrderedMap.mem_keys_iff]
  constructor
  · intro hkey
    obtain ⟨ids, hids⟩ := Option.isSome_iff_exists.1 hkey
    cases ids with
    | nil => exact absurd hids (hacc.not_nil name)
    | cons id rest =>
      have hid : id ∈ p.found.occurrencesOf name := by simp [Gathered.occurrencesOf, hids]
      exact ⟨id, hacc.occurrences name id hid⟩
  · rintro ⟨id, hcov, node, hnode, href, htarget⟩
    obtain ⟨name', htarget', hmem, -⟩ := (noted_of_covered hwalk hcov).occurrence node hnode href
    rw [htarget] at htarget'
    cases htarget'
    by_contra hkey
    simp [Gathered.occurrencesOf, Option.not_isSome_iff_eq_none.1 hkey] at hmem

theorem Occurs.refers (h : scope.Occurs root name) (hstep : scope.Refers name other) :
    scope.Occurs root other := by
  obtain ⟨id, hid, hname⟩ := h
  obtain ⟨body, x, hbody, hx, hother⟩ := hstep
  exact ⟨x, (Covered.body hid hname hbody).of_below hx, hother⟩

theorem Occurs.of_path (h : scope.Occurs root name)
    (hpath : Relation.ReflTransGen scope.Refers name other) : scope.Occurs root other := by
  induction hpath with
  | refl => exact h
  | tail _ hstep ih => exact ih.refers hstep

/-- **The marked names.** When `gather` goes through, it has marked the names that occur and lie on a
cycle that leads from them, through names not met before them, to a reference to the name of the
cycle that was met first. -/
theorem mem_recursive_iff (h : scope.gather root = .ok found) :
    name ∈ found.recursive ↔
      scope.Occurs root name ∧ scope.ClosesFrom found.occurrences.keys name := by
  obtain ⟨p, hwalk, rfl⟩ := walks_of_gather h
  have hkeys : p.expansions.keys = p.found.occurrences.keys := hwalk.keys_eq rfl
  have hempty : ∀ name : String, name ∉ (OrderedMap.empty : OrderedMap Expansion).keys := by
    simp
  rw [← hkeys]
  constructor
  · intro hname
    rcases hwalk.closesFrom framed_empty .nil (fun _ _ _ hmem => by cases hmem)
      (List.prefix_refl _) hname with hname | ⟨hkey, hcloses⟩
    · exact absurd hname (NameSet.not_mem_empty name)
    · exact ⟨(mem_keys_iff_occurs h).1 (hkeys ▸ hkey), hcloses⟩
  · rintro ⟨hoccurs, first, last, hfirst, hlast, hback⟩
    have hoccurs_first : scope.Occurs root first :=
      (hoccurs.of_path (refers_of_staysAfter hlast)).refers hback
    have hkey : first ∈ p.expansions.keys := hkeys ▸ (mem_keys_iff_occurs h).2 hoccurs_first
    obtain ⟨start, inner, hbody, -, hle⟩ := hwalk.exists_bodyWalk framed_empty hkey (hempty first)
    obtain ⟨hmem, hnew⟩ := hbody.met_of_staysAfter hle.keys hfirst
    obtain ⟨outer, houter⟩ := hbody.innermost
    -- the walk over the body of `name` lies inside the one over the body of `first`
    obtain ⟨start', inner', hbody', hframes, hle'⟩ : ∃ start' inner',
        scope.BodyWalk name start' inner' ∧ start.frames <:+ start'.frames ∧ inner'.Le inner := by
      rcases hnew with rfl | hnew
      · exact ⟨start, inner, hbody, List.suffix_refl _, .refl _⟩
      · obtain ⟨_, _, hwalk⟩ := hbody.walks
        exact hwalk.exists_bodyWalk hbody.framed hmem hnew
    refine (hle'.trans hle).recursive _
      (hbody'.mem_recursive (hle'.trans hle).keys hlast hback (hframes.subset ?_))
    simp [houter]

/-- **When all names on cycles are marked.** Only names on cycles are marked, and all of them exactly
if each of them closes a cycle from where it is met. -/
theorem recursive_eq_onCycle_iff (h : scope.gather root = .ok found) :
    (∀ name, name ∈ found.recursive → scope.OnCycle root name) ∧
      ((∀ name, name ∈ found.recursive ↔ scope.OnCycle root name) ↔
        ∀ name, scope.OnCycle root name → scope.ClosesFrom found.occurrences.keys name) := by
  have honly : ∀ name, name ∈ found.recursive → scope.OnCycle root name := by
    intro name hname
    obtain ⟨hoccurs, hcloses⟩ := (mem_recursive_iff h).1 hname
    exact ⟨hoccurs, hcloses.cycle⟩
  refine ⟨honly, fun hall name hname => ?_, fun hall name => ⟨honly name, fun hname => ?_⟩⟩
  · exact ((mem_recursive_iff h).1 ((hall name).2 hname)).2
  · exact (mem_recursive_iff h).2 ⟨hname.1, hall name hname⟩

/-- `A` refers to `X` and then to `C`, `X` to `A`, and `C` to `X`. -/
def overlappingScope : Scope where
  store := ⟨#[
    Node.reference "A",
    Node.reference "X",
    Node.reference "C",
    (Node.ofKind .tuple).withChild "items_schema" (.many [⟨1⟩, ⟨2⟩]),
    Node.reference "A",
    Node.reference "X"]⟩
  definitions := .ofList [("A", ⟨3⟩), ("X", ⟨4⟩), ("C", ⟨5⟩)]

theorem gather_overlappingScope :
    overlappingScope.gather ⟨0⟩ = .ok
      { occurrences := .ofList [("A", [⟨0⟩, ⟨4⟩]), ("X", [⟨1⟩, ⟨5⟩]), ("C", [⟨2⟩])]
        recursive := .ofList ["A", "X"] } :=
  gather_of_runWithin 20 (by decide +kernel)

/-- The equivalence at overlapping cycles. -/
theorem overlappingScope_recursive :
    ∃ found, overlappingScope.gather ⟨0⟩ = .ok found ∧
      (∀ name, name ∈ found.recursive → overlappingScope.OnCycle ⟨0⟩ name) ∧
      ((∀ name, name ∈ found.recursive ↔ overlappingScope.OnCycle ⟨0⟩ name) ↔
        ∀ name, overlappingScope.OnCycle ⟨0⟩ name →
          overlappingScope.ClosesFrom found.occurrences.keys name) :=
  ⟨_, gather_overlappingScope, recursive_eq_onCycle_iff gather_overlappingScope⟩

theorem overlappingScope_onCycle : overlappingScope.OnCycle ⟨0⟩ "C" := by
  have hchild : overlappingScope.store.IsChild ⟨3⟩ ⟨2⟩ := ⟨[⟨1⟩, ⟨2⟩], by decide +kernel, by decide⟩
  have hmention : ∀ id name, overlappingScope.store.get? id = some (.reference name) →
      overlappingScope.store.Mentions id name := fun _ name h => ⟨_, h, rfl, rfl⟩
  have hA : overlappingScope.Refers "A" "C" :=
    ⟨⟨3⟩, ⟨2⟩, by decide +kernel, .single hchild, hmention _ _ (by decide +kernel)⟩
  have hX : overlappingScope.Refers "X" "A" :=
    ⟨⟨4⟩, ⟨4⟩, by decide +kernel, .refl, hmention _ _ (by decide +kernel)⟩
  have hC : overlappingScope.Refers "C" "X" :=
    ⟨⟨5⟩, ⟨5⟩, by decide +kernel, .refl, hmention _ _ (by decide +kernel)⟩
  have hroot : overlappingScope.Occurs ⟨0⟩ "A" := ⟨⟨0⟩, .root, hmention _ _ (by decide +kernel)⟩
  exact ⟨hroot.refers hA, ((Relation.TransGen.single hC).tail hX).tail hA⟩

/-- `C` lies on the cycle `C`, `X`, `A`, but is met when `X` is done, and is not marked. -/
theorem onCycle_not_recursive :
    ∃ found, overlappingScope.gather ⟨0⟩ = .ok found ∧
      ¬ ∀ name, name ∈ found.recursive ↔ overlappingScope.OnCycle ⟨0⟩ name := by
  refine ⟨_, gather_overlappingScope, fun h => ?_⟩
  have := (h "C").2 overlappingScope_onCycle
  revert this
  decide +kernel

end Scope

end SchemaGraph
