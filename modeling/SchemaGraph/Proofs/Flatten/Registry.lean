import SchemaGraph.Proofs.Flatten.Normal

/-!
What becomes of the definitions. A walk that flattens comes to the named nodes of a schema in
post-order and hoists each of them; then it goes below the bodies of the given definitions that were
not hoisted so far. The log of a run lists the named nodes in the order in which they are hoisted. It
is read off the nodes alone: neither copies nor the growing definitions have a part in it.

* `Store.Hoists` — the log of a schema and of given definitions, of which there is only one
  (`Store.Hoists.unique`);
* `Store.LeftFor`, `Store.FlatCopy`, `Store.FlatForm` — the flat form of a node in its place, of the
  body of a hoisted name and of the body of a given definition;
* `Ledger` — the invariant: the definitions are those that the log so far has made;
* `flattenReferences_registry` — **what the returned definitions are**.
-/

namespace SchemaGraph

/-! ### The log -/

namespace Store

/-- `log` lists the named nodes below `ids` with their names, each after those below it. A
`definitions` node is passed through: first the nodes it lists, then its inner schema. -/
inductive Logs (s : Store) : List NodeId → List (String × NodeId) → Prop where
  | nil : Logs s [] []
  | dissolve {id inner : NodeId} {node : Node} {ids : List NodeId}
      {listed within later : List (String × NodeId)} (hnode : s.get? id = some node)
      (hkind : node.kind? = some .definitions) (hinner : node.innerSchema? = some inner)
      (hlisted : Logs s node.listedDefinitions listed) (hwithin : Logs s [inner] within)
      (hlater : Logs s ids later) : Logs s (id :: ids) (listed ++ within ++ later)
  | leave {id : NodeId} {node : Node} {kind : Kind} {ids : List NodeId}
      {below later : List (String × NodeId)} (hnode : s.get? id = some node)
      (hkind : node.kind? = some kind) (hne : kind ≠ .definitions)
      (hbelow : Logs s (node.orderedChildren kind) below) (hlater : Logs s ids later) :
      Logs s (id :: ids) (below ++ (node.name.map fun name => (name, id)).toList ++ later)

/-- The log of the body of a given definition, which does not count as named itself. -/
inductive LogsBody (s : Store) (body : NodeId) : List (String × NodeId) → Prop where
  | dissolve {node : Node} {log : List (String × NodeId)} (hnode : s.get? body = some node)
      (hkind : node.kind? = some .definitions) (h : Logs s [body] log) : LogsBody s body log
  | rebuild {node : Node} {kind : Kind} {log : List (String × NodeId)}
      (hnode : s.get? body = some node) (hkind : node.kind? = some kind) (hne : kind ≠ .definitions)
      (h : Logs s (node.orderedChildren kind) log) : LogsBody s body log

/-- `all` is the log `log` continued with those of the given bodies in order, but for the bodies of
names that are in the log before it comes to them. -/
inductive LogsGiven (s : Store) :
    List (String × NodeId) → List (String × NodeId) → List (String × NodeId) → Prop where
  | nil (log : List (String × NodeId)) : LogsGiven s [] log log
  | found {name : String} {body : NodeId} {given log all : List (String × NodeId)}
      (hname : name ∈ Entries.names log) (hrest : LogsGiven s given log all) :
      LogsGiven s ((name, body) :: given) log all
  | settle {name : String} {body : NodeId} {given log more all : List (String × NodeId)}
      (hname : name ∉ Entries.names log) (hbody : s.LogsBody body more)
      (hrest : LogsGiven s given (log ++ more) all) : LogsGiven s ((name, body) :: given) log all

/-- **The log of a run**: what flattening `root` and then the given definitions hoists, in order. -/
def Hoists (s : Store) (root : NodeId) (definitions : Definitions) (log : List (String × NodeId)) :
    Prop :=
  ∃ first, s.Logs [root] first ∧ s.LogsGiven definitions.entries first log

variable {s : Store} {id root : NodeId} {ids : List NodeId}
  {given log more other : List (String × NodeId)}

theorem Logs.unique (h : s.Logs ids log) : ∀ {other}, s.Logs ids other → other = log := by
  induction h with
  | nil =>
    intro other h
    cases h
    rfl
  | dissolve hnode hkind hinner _ _ _ ihlisted ihwithin ihlater =>
    intro other h
    cases h with
    | dissolve hnode' _ hinner' hlisted hwithin hlater =>
      cases hnode.symm.trans hnode'
      cases hinner.symm.trans hinner'
      rw [ihlisted hlisted, ihwithin hwithin, ihlater hlater]
    | leave hnode' hkind' hne =>
      cases hnode.symm.trans hnode'
      exact absurd (Option.some.inj (hkind'.symm.trans hkind)) hne
  | leave hnode hkind hne _ _ ihbelow ihlater =>
    intro other h
    cases h with
    | dissolve hnode' hkind' =>
      cases hnode.symm.trans hnode'
      exact absurd (Option.some.inj (hkind.symm.trans hkind')) hne
    | leave hnode' hkind' _ hbelow hlater =>
      cases hnode.symm.trans hnode'
      cases hkind.symm.trans hkind'
      rw [ihbelow hbelow, ihlater hlater]

theorem LogsBody.unique (h : s.LogsBody id log) (h' : s.LogsBody id other) : other = log := by
  cases h with
  | dissolve hnode hkind h =>
    cases h' with
    | dissolve _ _ h' => exact h.unique h'
    | rebuild hnode' hkind' hne =>
      cases hnode.symm.trans hnode'
      exact absurd (Option.some.inj (hkind'.symm.trans hkind)) hne
  | rebuild hnode hkind hne h =>
    cases h' with
    | dissolve hnode' hkind' =>
      cases hnode.symm.trans hnode'
      exact absurd (Option.some.inj (hkind.symm.trans hkind')) hne
    | rebuild hnode' hkind' _ h' =>
      cases hnode.symm.trans hnode'
      cases hkind.symm.trans hkind'
      exact h.unique h'

theorem LogsGiven.unique (h : s.LogsGiven given more log) :
    ∀ {other}, s.LogsGiven given more other → other = log := by
  induction h with
  | nil log =>
    intro other h
    cases h
    rfl
  | found hname _ ih =>
    intro other h
    cases h with
    | found _ hrest => exact ih hrest
    | settle hname' => exact absurd hname hname'
  | settle hname hbody _ ih =>
    intro other h
    cases h with
    | found hname' => exact absurd hname' hname
    | settle _ hbody' hrest =>
      cases hbody.unique hbody'
      exact ih hrest

theorem Hoists.unique {definitions : Definitions} (h : s.Hoists root definitions log)
    (h' : s.Hoists root definitions other) : other = log := by
  obtain ⟨first, hfirst, hgiven⟩ := h
  obtain ⟨first', hfirst', hgiven'⟩ := h'
  cases hfirst.unique hfirst'
  exact hgiven.unique hgiven'

/-! ### Flat forms -/

/-- `x` is what flattening leaves in the place of the node at `id`: an occurrence of its name, or a
node like it over what is left in the places of its children. A `definitions` node leaves what its
inner schema leaves. -/
inductive LeftFor (s : Store) : NodeId → NodeId → Prop where
  | inner {id inner x : NodeId} {node : Node} (hnode : s.get? id = some node)
      (hkind : node.kind? = some .definitions) (hinner : node.innerSchema? = some inner)
      (h : LeftFor s inner x) : LeftFor s id x
  | copy {id x : NodeId} {node other : Node} {R : NodeId → NodeId → Prop}
      (hnode : s.get? id = some node) (hplain : node.kind? ≠ some .definitions)
      (hname : node.name = none) (hx : s.get? x = some other) (halike : node.Alike R other)
      (hR : ∀ a b, R a b → LeftFor s a b) : LeftFor s id x
  | occurrence {id x : NodeId} {node : Node} {name : String} (hnode : s.get? id = some node)
      (hplain : node.kind? ≠ some .definitions) (hname : node.name = some name)
      (hx : s.get? x = some (.reference name)) : LeftFor s id x

/-- `copy` is the flat body of the node at `id`: a node like it, its name included, over what is left
in the places of its children. -/
def FlatCopy (s : Store) (id copy : NodeId) : Prop :=
  ∃ node other, s.get? id = some node ∧ node.kind? ≠ some .definitions ∧
    s.get? copy = some other ∧ node.Alike s.LeftFor other

/-- `x` is the flat form of the body of a given definition. -/
def FlatForm (s : Store) (body x : NodeId) : Prop :=
  ∃ node, s.get? body = some node ∧
    if node.kind? = some .definitions then s.LeftFor body x else s.FlatCopy body x

end Store

/-! ### The definitions that a log makes -/

/-- **What becomes of given definitions** when those in `log` are hoisted in this order. Flat forms
are nodes of the new store, in which all nodes of the old one are as they were. -/
structure Registry (old new : Store) (given : Definitions) (log : List (String × NodeId))
    (all : Definitions) : Prop where
  /-- The given names come first in their order, then the other hoisted ones as they first came. -/
  keys : all.keys = given.keys ++ (Entries.names log).eraseDups.filter (· ∉ given.keys)
  /-- A hoisted name has the flat body of its last declaration, and never a given one unless this is
  that declaration. -/
  hoisted : ∀ name id, Entries.find? name log.reverse = some id →
    ∃ copy, all.get? name = some copy ∧ new.FlatCopy id copy ∧
      ∀ body, given.get? name = some body → body.index < old.size → copy = body → id = body
  /-- Every other given name has the flat form of its own body. -/
  own : ∀ name body, name ∉ Entries.names log → given.get? name = some body →
    ∃ x, all.get? name = some x ∧ new.FlatForm body x

/-- **The invariant of flattening as to definitions**: those so far are the ones that the log so far
makes, but for the given names that are neither hoisted nor `settled`. -/
structure Ledger (old new : Store) (given : Definitions) (settled : List String)
    (log : List (String × NodeId)) (f : Flattening) : Prop where
  keys : f.definitions.keys = given.keys ++ (Entries.names log).eraseDups.filter (· ∉ given.keys)
  names : ∀ name, name ∈ f.hoisted ↔ name ∈ Entries.names log ∨ name ∈ settled
  hoisted : ∀ name id, Entries.find? name log.reverse = some id →
    ∃ copy, f.definitions.get? name = some copy ∧ new.FlatCopy id copy ∧
      (copy = id ∨ old.size ≤ copy.index)
  own : ∀ name body, name ∈ settled → name ∉ Entries.names log → given.get? name = some body →
    ∃ x, f.definitions.get? name = some x ∧ new.FlatForm body x

variable {old new : Store} {given : Definitions} {settled : List String}
  {log : List (String × NodeId)} {f : Flattening} {name : String} {id x copy body : NodeId}
  {node : Node} {kind : Kind} {ids xs : List NodeId} {st mid st' : Store × Flattening}

theorem Entries.mem_names_of_find?_reverse (h : Entries.find? name log.reverse = some id) :
    name ∈ Entries.names log := by
  by_contra hname
  have hnone : Entries.find? name log.reverse = none :=
    (Entries.find?_eq_none name log.reverse).2 (by simpa [Entries.names] using hname)
  rw [hnone] at h
  cases h

theorem ledger_start (old new : Store) (given : Definitions) :
    Ledger old new given [] [] { definitions := given } where
  keys := by simp [Entries.names]
  names name := by
    have : name ∉ ({ definitions := given } : Flattening).hoisted := NameSet.not_mem_empty name
    simp [Entries.names, this]
  hoisted name id h := by cases h
  own name body h := by cases h

theorem Ledger.hoist (h : Ledger old new given settled log f) (hcopy : new.FlatCopy id copy)
    (hnew : copy = id ∨ old.size ≤ copy.index) :
    Ledger old new given settled (log ++ [(name, id)]) (f.hoist name copy) := by
  have hnames : Entries.names (log ++ [(name, id)]) = Entries.names log ++ [name] := by
    simp [Entries.names]
  have hlast : ∀ other, Entries.find? other (log ++ [(name, id)]).reverse =
      if name = other then some id else Entries.find? other log.reverse := by
    intro other
    rw [List.reverse_append]
    rfl
  constructor
  case keys =>
    have hold : name ∈ f.definitions.keys ↔ name ∈ given.keys ∨ name ∈ Entries.names log := by
      rw [h.keys]
      simp only [List.mem_append, List.mem_filter, List.mem_eraseDups, decide_eq_true_eq]
      tauto
    rw [hnames, eraseDups_concat, Flattening.hoist]
    by_cases hname : name ∈ f.definitions.keys
    · rw [OrderedMap.keys_insert_of_mem _ hname, h.keys]
      split
      · rfl
      · rename_i hlog
        have hgiven : name ∈ given.keys := (hold.1 hname).resolve_right hlog
        simp [hgiven]
    · obtain ⟨hgiven, hlog⟩ := not_or.1 (mt hold.2 hname)
      rw [OrderedMap.keys_insert_of_not_mem _ hname, h.keys, if_neg hlog]
      simp [hgiven]
  case names =>
    intro other
    rw [Flattening.hoist, NameSet.mem_insert, h.names, hnames]
    simp only [List.mem_append, List.mem_singleton]
    tauto
  case hoisted =>
    intro other id' hid'
    rw [hlast] at hid'
    split at hid'
    · rename_i e
      cases hid'
      subst e
      exact ⟨copy, OrderedMap.get?_insert_self _ _ _, hcopy, hnew⟩
    · rename_i hne
      obtain ⟨copy', hget, hrest⟩ := h.hoisted other id' hid'
      exact ⟨copy', (OrderedMap.get?_insert_of_ne _ _ (Ne.symm hne)).trans hget, hrest⟩
  case own =>
    intro other body hsettled hother hbody
    rw [hnames, List.mem_append, not_or, List.mem_singleton] at hother
    obtain ⟨x, hget, hform⟩ := h.own other body hsettled hother.1 hbody
    exact ⟨x, (OrderedMap.get?_insert_of_ne _ _ hother.2).trans hget, hform⟩

/-- A given name settles: it takes the flat form of its own body unless it was hoisted. -/
theorem Ledger.settle (h : Ledger old new given settled log f) (hbody : given.get? name = some body)
    (hform : new.FlatForm body x) :
    Ledger old new given (name :: settled) log (f.settle name x) := by
  have hmem : name ∈ f.definitions.keys := by
    rw [h.keys]
    exact List.mem_append_left _ (OrderedMap.mem_keys_of_get? hbody)
  rw [Flattening.settle]
  split
  · rename_i hname
    refine ⟨h.keys, fun other => ?_, h.hoisted, fun other body hsettled hother hbody => ?_⟩
    · rw [h.names, List.mem_cons]
      have := (h.names name).1 hname
      constructor
      · tauto
      · rintro (hlog | rfl | hsettled)
        exacts [.inl hlog, this, .inr hsettled]
    · -- the name was not hoisted inside a schema, so it had settled before
      refine h.own other body ?_ hother hbody
      rcases List.mem_cons.1 hsettled with rfl | hsettled
      · exact ((h.names other).1 hname).resolve_left hother
      · exact hsettled
  · rename_i hname
    have hlog : name ∉ Entries.names log := fun hlog => hname ((h.names name).2 (.inl hlog))
    constructor
    case keys => exact (OrderedMap.keys_insert_of_mem _ hmem).trans h.keys
    case names =>
      intro other
      rw [Flattening.hoist, NameSet.mem_insert, h.names, List.mem_cons]
      tauto
    case hoisted =>
      intro other id hid
      obtain ⟨copy, hget, hrest⟩ := h.hoisted other id hid
      have hne : other ≠ name := by
        rintro rfl
        exact hlog (Entries.mem_names_of_find?_reverse hid)
      exact ⟨copy, (OrderedMap.get?_insert_of_ne _ _ hne).trans hget, hrest⟩
    case own =>
      intro other body' hsettled hother hbody'
      by_cases e : other = name
      · subst e
        cases hbody.symm.trans hbody'
        exact ⟨x, OrderedMap.get?_insert_self _ _ _, hform⟩
      · have hold := (List.mem_cons.1 hsettled).resolve_left e
        obtain ⟨x', hget, hform'⟩ := h.own other body' hold hother hbody'
        exact ⟨x', (OrderedMap.get?_insert_of_ne _ _ e).trans hget, hform'⟩

/-! ### Runs keep the invariant -/

/-- A node over what is left in the places of its children is rebuilt to its flat body, which is the
node itself or a new one. -/
theorem Rebuilds.flatCopy (h : Rebuilds node kind id xs st copy st')
    (hnode : st.1.get? id = some node) (hkind : node.kind? = some kind) (hne : kind ≠ .definitions)
    (hfits : node.misfit? kind = none) (hbase : old.size ≤ st.1.size) (hnew : st'.1.Extends new)
    (hxs : List.Forall₂ new.LeftFor (node.orderedChildren kind) xs) :
    new.FlatCopy id copy ∧ (copy = id ∨ old.size ≤ copy.index) := by
  obtain ⟨other, hother, halike⟩ := h.exists_alike hnode hfits hxs
  have hplain : node.kind? ≠ some .definitions := by
    rw [hkind]
    exact fun e => hne (Option.some.inj e)
  refine ⟨⟨node, other, (h.grows.store.trans hnew).get?_of_some hnode, hplain,
    hnew.get?_of_some hother, halike⟩, ?_⟩
  cases h with
  | same => exact .inl rfl
  | copy => exact .inr hbase

theorem Rebuilds.flat_eq (h : Rebuilds node kind id xs st copy st') : st'.2 = st.2 := by
  cases h <;> rfl

/-- What is left of a node is left for it, and the log grows by its name if it has one. -/
theorem Leaves.ledger {own : Option String} (h : Leaves copy st own x st') (hname : node.name = own)
    (hnode : new.get? id = some node) (hcopy : new.FlatCopy id copy)
    (hfresh : copy = id ∨ old.size ≤ copy.index) (hnew : st'.1.Extends new)
    (hst : Ledger old new given settled log st.2) :
    new.LeftFor id x ∧ Ledger old new given settled
      (log ++ (own.map fun name => (name, id)).toList) st'.2 := by
  have ⟨node', other, hnode', hplain, hother, halike⟩ := hcopy
  cases hnode.symm.trans hnode'
  cases h with
  | copy =>
    refine ⟨.copy hnode hplain hname hother halike fun _ _ h => h, ?_⟩
    rw [Option.map_none, Option.toList_none, List.append_nil]
    exact hst
  | occurrence name =>
    have hx := hnew.get?_of_some (Store.get?_insert_nextId st.1 (.reference name))
    exact ⟨.occurrence hnode hplain hname hx, hst.hoist hcopy hfresh⟩

/-- **The visits of a walk hoist what their log says.** -/
theorem Flattens.ledger (h : Flattens ids st xs st') : ∀ {log : List (String × NodeId)},
    old.size ≤ st.1.size → st'.1.Extends new → Ledger old new given settled log st.2 →
    ∃ more, new.Logs ids more ∧ List.Forall₂ new.LeftFor ids xs ∧
      Ledger old new given settled (log ++ more) st'.2 := by
  induction h with
  | nil st =>
    intro log _ _ hst
    exact ⟨[], .nil, .nil, by rwa [List.append_nil]⟩
  | dissolve hnode hkind hinner hlisted hvisit hrest ihlisted ihvisit ihrest =>
    intro log hbase hnew hst
    have hlast := hrest.grows.store
    have hmid := hvisit.grows.store.trans hlast
    have hthere := ((hlisted.grows.store.trans hmid).trans hnew).get?_of_some hnode
    obtain ⟨listed, hlog, -, hst⟩ := ihlisted hbase (hmid.trans hnew) hst
    have hbase := Nat.le_trans hbase hlisted.grows.store.size_le
    obtain ⟨within, hlog', hx, hst⟩ := ihvisit hbase (hlast.trans hnew) hst
    have hbase := Nat.le_trans hbase hvisit.grows.store.size_le
    obtain ⟨later, hlog'', hxs, hst⟩ := ihrest hbase hnew hst
    rw [List.forall₂_cons] at hx
    refine ⟨listed ++ within ++ later, .dissolve hthere hkind hinner hlog hlog' hlog'',
      .cons (.inner hthere hkind hinner hx.1) hxs, ?_⟩
    simpa only [List.append_assoc] using hst
  | @leave id copy x node kind ids ys xs st mid built left st' hnode hkind hne hfits hkids hcopy
      hleave hrest ihkids ihrest =>
    intro log hbase hnew hst
    have hleft := hrest.grows.store.trans hnew
    have hbuilt := hleave.grows.store.trans hleft
    have hmid := hcopy.grows.store.trans hbuilt
    obtain ⟨below, hlog, hys, hst⟩ := ihkids hbase hmid hst
    have hbase := Nat.le_trans hbase hkids.grows.store.size_le
    obtain ⟨hflat, hfresh⟩ := hcopy.flatCopy (hkids.grows.store.get?_of_some hnode) hkind hne hfits
      hbase hbuilt hys
    have hthere := (hkids.grows.store.trans hmid).get?_of_some hnode
    rw [← hcopy.flat_eq] at hst
    obtain ⟨hx, hst⟩ := hleave.ledger rfl hthere hflat hfresh hleft hst
    have hbase := Nat.le_trans hbase (hcopy.grows.trans hleave.grows).store.size_le
    obtain ⟨later, hlog', hxs, hst⟩ := ihrest hbase hnew hst
    refine ⟨_, .leave hthere hkind hne hlog hlog', .cons hx hxs, ?_⟩
    simpa only [List.append_assoc] using hst

/-- Flattening the body of a given definition hoists what is below it and gives its flat form. -/
theorem FlattensBody.ledger (h : FlattensBody body st x st') (hbase : old.size ≤ st.1.size)
    (hnew : st'.1.Extends new) (hst : Ledger old new given settled log st.2) :
    ∃ more, new.LogsBody body more ∧ new.FlatForm body x ∧
      Ledger old new given settled (log ++ more) st'.2 := by
  have hthere := h.grows.store.trans hnew
  cases h with
  | dissolve hnode hkind hvisit =>
    obtain ⟨more, hlog, hx, hst⟩ := hvisit.ledger hbase hnew hst
    rw [List.forall₂_cons] at hx
    have hnode := hthere.get?_of_some hnode
    exact ⟨more, .dissolve hnode hkind hlog, ⟨_, hnode, by rw [if_pos hkind]; exact hx.1⟩, hst⟩
  | rebuild hnode hkind hne hfits hkids hcopy =>
    obtain ⟨more, hlog, hys, hst⟩ := hkids.ledger hbase (hcopy.grows.store.trans hnew) hst
    have hbase := Nat.le_trans hbase hkids.grows.store.size_le
    obtain ⟨hflat, -⟩ := hcopy.flatCopy (hkids.grows.store.get?_of_some hnode) hkind hne hfits
      hbase hnew hys
    have hnode := hthere.get?_of_some hnode
    refine ⟨more, .rebuild hnode hkind hne hlog, ⟨_, hnode, ?_⟩, by rwa [hcopy.flat_eq]⟩
    rw [if_neg fun e => hne (Option.some.inj (hkind.symm.trans e))]
    exact hflat

/-- The given definitions settle one after the other, and the log grows by what is below those that
were not hoisted. -/
theorem Settles.ledger {entries : List (String × NodeId)} (h : Settles entries st st') :
    ∀ {settled : List String} {log : List (String × NodeId)}, (Entries.names entries).Nodup →
      (∀ entry ∈ entries, given.get? entry.1 = some entry.2 ∧ entry.1 ∉ settled) →
      old.size ≤ st.1.size → st'.1.Extends new → Ledger old new given settled log st.2 →
      ∃ settled' all, new.LogsGiven entries log all ∧ Ledger old new given settled' all st'.2 := by
  induction h with
  | nil st =>
    intro settled log _ _ _ _ hst
    exact ⟨settled, log, .nil log, hst⟩
  | @found name body entries st st' hname _ ih =>
    intro settled log hnodup hgiven hbase hnew hst
    obtain ⟨settled', all, hlog, hend⟩ := ih (List.nodup_cons.1 hnodup).2
      (fun entry hentry => hgiven entry (List.mem_cons_of_mem _ hentry)) hbase hnew hst
    have hunsettled := (hgiven (name, body) List.mem_cons_self).2
    have hin := ((hst.names name).1 hname).resolve_right hunsettled
    exact ⟨settled', all, .found hin hlog, hend⟩
  | @settle name body x entries st mid st' hname hbody hrest ih =>
    intro settled log hnodup hgiven hbase hnew hst
    obtain ⟨hget, -⟩ := hgiven (name, body) List.mem_cons_self
    obtain ⟨more, hmore, hform, hmid⟩ := hbody.ledger hbase (hrest.grows.store.trans hnew) hst
    have hbase := Nat.le_trans hbase hbody.grows.store.size_le
    obtain ⟨hfirst, hnodup⟩ := List.nodup_cons.1 hnodup
    -- the names to come are different from the one that settles
    have hfresh : ∀ entry ∈ entries,
        given.get? entry.1 = some entry.2 ∧ entry.1 ∉ name :: settled := by
      intro entry hentry
      obtain ⟨hget, hunsettled⟩ := hgiven entry (List.mem_cons_of_mem _ hentry)
      refine ⟨hget, fun hmem => ?_⟩
      have hlater : entry.1 ∈ Entries.names entries := List.mem_map_of_mem hentry
      rcases List.mem_cons.1 hmem with e | hmem
      · exact hfirst (e ▸ hlater)
      · exact hunsettled hmem
    obtain ⟨settled', all, hlog, hend⟩ := ih hnodup hfresh hbase hnew (hmid.settle hget hform)
    have hout : name ∉ Entries.names log := fun hin => hname ((hst.names name).2 (.inl hin))
    exact ⟨settled', all, .settle hout hmore hlog, hend⟩

/-! ### The returned definitions -/

/-- A ledger in which all given names are hoisted or settled. -/
theorem Ledger.registry (h : Ledger old new given settled log f)
    (hall : ∀ name body, given.get? name = some body → name ∈ f.hoisted) :
    Registry old new given log f.definitions where
  keys := h.keys
  hoisted name id hid := by
    obtain ⟨copy, hget, hcopy, hfresh⟩ := h.hoisted name id hid
    refine ⟨copy, hget, hcopy, fun body _ hlt e => ?_⟩
    rcases hfresh with hsame | hlate
    · exact hsame.symm.trans e
    · rw [e] at hlate
      exact absurd hlt (Nat.not_lt.2 hlate)
  own name body hname hbody :=
    h.own name body (((h.names name).1 (hall name body hbody)).resolve_left hname) hname hbody

/-- **The returned definitions are those that the log makes.** The nodes of the old store stay as they
are, and there is exactly one log: first that of the root, then, in the order of the given definitions,
those of their bodies, but for the bodies of names that are in the log by then. The given names come
first in the order that they had, then the other names of the log as they first came. Each name of the
log, wherever it stands among the given ones and whenever it was hoisted, has the flat body of its
last declaration; each other given name has the flat form of its own body. -/
theorem flattenReferences_registry {σ : Type} {own : σ} {s : Store} {root flat : NodeId}
    {definitions all : Definitions} {st' : Store × σ}
    (h : flattenReferences root definitions (s, own) = .ok (flat, all) st') :
    s.Extends st'.1 ∧ ∃ log, (∀ other, st'.1.Hoists root definitions other ↔ other = log) ∧
      Registry s st'.1 definitions log all := by
  obtain ⟨mid, f, hroot, hgiven, rfl, -⟩ := flattens_of_flattenReferences h
  obtain ⟨first, hfirst, -, hmid⟩ := hroot.ledger (Nat.le_refl s.size) hgiven.grows.store
    (ledger_start s st'.1 definitions)
  have hentries : ∀ entry ∈ definitions.entries,
      definitions.get? entry.1 = some entry.2 ∧ entry.1 ∉ ([] : List String) :=
    fun entry hentry => ⟨OrderedMap.mem_entries_iff.1 hentry, by simp⟩
  obtain ⟨settled, log, hlog, hend⟩ := hgiven.ledger definitions.nodup hentries
    hroot.grows.store.size_le (.refl st'.1) hmid
  have hhoists : st'.1.Hoists root definitions log := ⟨first, hfirst, hlog⟩
  refine ⟨hroot.grows.store.trans hgiven.grows.store, log, fun other => ⟨hhoists.unique, ?_⟩, ?_⟩
  · rintro rfl
    exact hhoists
  · exact hend.registry fun name body hbody =>
      hgiven.hoisted (name, body) (OrderedMap.mem_entries_iff.2 hbody)

/-- `C` comes last, with its later declaration; `B` is found below the body of `A` before its own entry
is looked at, and again below the body of `D`. -/
theorem scatteredStore_registry :
    ∃ flat all st', flattenReferences ⟨7⟩ scatteredDefinitions (scatteredStore, ()) =
        .ok (flat, all) st' ∧
      scatteredStore.Extends st'.1 ∧
      ∃ log, (∀ other, st'.1.Hoists ⟨7⟩ scatteredDefinitions other ↔ other = log) ∧
        Registry scatteredStore st'.1 scatteredDefinitions log all :=
  ⟨_, _, _, flattenReferences_scatteredStore,
    flattenReferences_registry flattenReferences_scatteredStore⟩

end SchemaGraph
