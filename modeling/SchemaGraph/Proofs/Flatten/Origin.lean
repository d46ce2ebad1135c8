import SchemaGraph.Reference.Flatten
import SchemaGraph.Proofs.Rebuild
import SchemaGraph.Proofs.Loading

/-!
Where the nodes of a flat schema come from. A walk that flattens a document only adds nodes; beside
its state we keep for each flat node its origin: the node that it is a copy of, or the named node in
whose place it stands as an occurrence.

* `Store.Image` — what flattening a node gives: a copy of the schema that it dissolves to, or an
  occurrence if that schema is named;
* `Stage` — a state of the walk with the origins;
* `Flat` — **the invariant of the walk**.
-/

namespace SchemaGraph

/-! ### Dissolving -/

namespace Store

/-- `core` is what is left of the node at `id` when `definitions` nodes give way to their inner
schemas. -/
inductive Dissolves (s : Store) : NodeId → NodeId → Prop where
  | core {id : NodeId} {node : Node} (hnode : s.get? id = some node)
      (hkind : node.kind? ≠ some .definitions) : Dissolves s id id
  | inner {id inner core : NodeId} {node : Node} (hnode : s.get? id = some node)
      (hkind : node.kind? = some .definitions) (hinner : node.innerSchema? = some inner)
      (hcore : Dissolves s inner core) : Dissolves s id core

/-- `child` is a part of the node at `id` that flattening goes on to. The serialization attachment of
a `definitions` node is none. -/
def IsPart (s : Store) (id child : NodeId) : Prop :=
  ∃ node, s.get? id = some node ∧
    if node.kind? = some .definitions then
      child ∈ node.listedDefinitions ∨ node.innerSchema? = some child
    else child ∈ node.storedIds

/-- The node at `id` bears the name `name` and is no `definitions` node. -/
def Bears (s : Store) (id : NodeId) (name : String) : Prop :=
  ∃ node, s.get? id = some node ∧ node.kind? ≠ some .definitions ∧ node.name = some name

variable {s : Store} {id core child : NodeId} {node : Node} {name : String}

theorem Bears.dissolves (h : s.Bears id name) : s.Dissolves id id := by
  obtain ⟨node, hnode, hkind, -⟩ := h
  exact .core hnode hkind

theorem Bears.unique {other : String} (h : s.Bears id name) (h' : s.Bears id other) :
    name = other := by
  obtain ⟨node, hnode, -, hname⟩ := h
  obtain ⟨node', hnode', -, hname'⟩ := h'
  rw [hnode] at hnode'
  cases hnode'
  rw [hname] at hname'
  exact Option.some.inj hname'

theorem IsPart.holds (h : s.IsPart id child) : s.Holds id child := by
  obtain ⟨node, hnode, hpart⟩ := h
  refine ⟨node, hnode, ?_⟩
  split at hpart
  · exact hpart.elim Node.mem_storedIds_of_listed Node.mem_storedIds_of_innerSchema?
  · exact hpart

theorem isPart_definitions_iff {inner : NodeId} (hnode : s.get? id = some node)
    (hkind : node.kind? = some .definitions) (hinner : node.innerSchema? = some inner) :
    s.IsPart id child ↔ child ∈ node.listedDefinitions ∨ child = inner := by
  constructor
  · rintro ⟨node', hnode', hpart⟩
    rw [hnode] at hnode'
    cases hnode'
    rw [if_pos hkind, hinner] at hpart
    exact hpart.imp_right fun e => (Option.some.inj e).symm
  · intro hchild
    refine ⟨node, hnode, ?_⟩
    rw [if_pos hkind, hinner]
    exact hchild.imp_right fun e => congrArg some e.symm

theorem isPart_plain_iff (hnode : s.get? id = some node) (hkind : node.kind? ≠ some .definitions) :
    s.IsPart id child ↔ child ∈ node.storedIds := by
  constructor
  · rintro ⟨node', hnode', hpart⟩
    rw [hnode] at hnode'
    cases hnode'
    rwa [if_neg hkind] at hpart
  · intro hchild
    exact ⟨node, hnode, by rwa [if_neg hkind]⟩

end Store

/-! ### Origins -/

/-- Where a flat node comes from. -/
inductive Origin where
  | copy (id : NodeId)
  | mention (id : NodeId)
deriving DecidableEq

/-- `x` is what flattening the node at `id` gives. -/
def Store.Image (s : Store) (origin : NodeId → Option Origin) (id x : NodeId) : Prop :=
  ∃ core node, s.Dissolves id core ∧ s.get? core = some node ∧
    (node.name = none ∧ origin x = some (.copy core) ∨
      node.name ≠ none ∧ origin x = some (.mention core))

theorem Store.Image.mono {s : Store} {origin origin' : NodeId → Option Origin} {id x : NodeId}
    (h : s.Image origin id x) (hle : ∀ y o, origin y = some o → origin' y = some o) :
    s.Image origin' id x := by
  obtain ⟨core, node, hcore, hnode, ⟨hname, ho⟩ | ⟨hname, ho⟩⟩ := h
  · exact ⟨core, node, hcore, hnode, .inl ⟨hname, hle _ _ ho⟩⟩
  · exact ⟨core, node, hcore, hnode, .inr ⟨hname, hle _ _ ho⟩⟩

/-- A state of the walk with the origins of the flat nodes so far. -/
structure Stage where
  store : Store
  flat : Flattening
  origin : NodeId → Option Origin

namespace Stage

def state (t : Stage) : Store × Flattening := (t.store, t.flat)

/-- `t'` comes after `t`. -/
structure Le (t t' : Stage) : Prop where
  store : t.store.Extends t'.store
  origin : ∀ x o, t.origin x = some o → t'.origin x = some o
  hoisted : ∀ name, name ∈ t.flat.hoisted → name ∈ t'.flat.hoisted

theorem Le.refl (t : Stage) : t.Le t := ⟨.refl _, fun _ _ h => h, fun _ h => h⟩

theorem Le.trans {t t' t'' : Stage} (h : t.Le t') (h' : t'.Le t'') : t.Le t'' where
  store := h.store.trans h'.store
  origin x o ho := h'.origin x o (h.origin x o ho)
  hoisted name hname := h'.hoisted name (h.hoisted name hname)

def withStore (t : Stage) (s : Store) : Stage := { t with store := s }

def hoist (t : Stage) (name : String) (x : NodeId) : Stage := { t with flat := t.flat.hoist name x }

def record (t : Stage) (x : NodeId) (o : Origin) : Stage :=
  { t with origin := fun y => if y = x then some o else t.origin y }

@[simp]
theorem origin_record_self (t : Stage) (x : NodeId) (o : Origin) :
    (t.record x o).origin x = some o := by simp [record]

theorem le_withStore {t : Stage} {s : Store} (h : t.store.Extends s) : t.Le (t.withStore s) :=
  ⟨h, fun _ _ h => h, fun _ h => h⟩

theorem le_hoist (t : Stage) (name : String) (x : NodeId) : t.Le (t.hoist name x) :=
  ⟨.refl _, fun _ _ h => h, fun _ h => NameSet.mem_insert.2 (.inr h)⟩

theorem mem_hoisted_hoist (t : Stage) (name : String) (x : NodeId) :
    name ∈ (t.hoist name x).flat.hoisted := NameSet.mem_insert.2 (.inl rfl)

theorem le_record {t : Stage} {x : NodeId} {o : Origin}
    (h : t.origin x = none ∨ t.origin x = some o) : t.Le (t.record x o) := by
  refine ⟨.refl _, fun y o' ho => ?_, fun _ h => h⟩
  by_cases hy : y = x
  · subst hy
    rw [origin_record_self]
    rcases h with h | h
    · rw [h] at ho
      cases ho
    · rw [← ho, h]
  · simpa [record, hy] using ho

end Stage

/-! ### The invariant -/

namespace Document

/-- `id` is a part of the schema or of a given definition. -/
def Reached (d : Document) (id : NodeId) : Prop :=
  ∃ start, (start = d.root ∨ ∃ name, d.definitions.get? name = some start) ∧
    Relation.ReflTransGen d.store.IsPart start id

/-- A node that the visitor is called on: a reached one that is the root, held by another, or a
`definitions` node. The other bodies of given definitions are flattened in their places. -/
structure Visited (d : Document) (id : NodeId) : Prop where
  reached : d.Reached id
  place : id = d.root ∨ (∃ parent, d.store.Holds parent id) ∨
    ∃ node, d.store.get? id = some node ∧ node.kind? = some .definitions

/-- All names that the parts of the node at `id` bear were hoisted. -/
def Hoists (d : Document) (f : Flattening) (id : NodeId) : Prop :=
  ∀ part name, Relation.ReflTransGen d.store.IsPart id part → d.store.Bears part name →
    name ∈ f.hoisted

/-- All names below the node at `id` were hoisted. -/
def HoistsBelow (d : Document) (f : Flattening) (id : NodeId) : Prop :=
  ∀ child, d.store.IsPart id child → d.Hoists f child

/-- `x` is what flattening the body of a given definition gives. -/
def BodyImage (d : Document) (origin : NodeId → Option Origin) (body x : NodeId) : Prop :=
  ∃ node, d.store.get? body = some node ∧
    if node.kind? = some .definitions then d.store.Image origin body x
    else origin x = some (.copy body)

/-- How the flat body `x` of `name` came about: from a node of that name inside a schema, or from the
given definition. -/
def Hoisted (d : Document) (t : Stage) (name : String) (x : NodeId) : Prop :=
  (∃ id, d.Visited id ∧ d.store.Bears id name ∧ t.origin x = some (.copy id) ∧
      d.HoistsBelow t.flat id) ∨
    ∃ body, d.definitions.get? name = some body ∧ d.BodyImage t.origin body x ∧
      d.HoistsBelow t.flat body

/-- `node` is what its origin says: a copy whose children are images, or an occurrence of the name of
the node in whose place it stands. -/
def Explains (d : Document) (t : Stage) (node : Node) : Origin → Prop
  | .copy id => ∃ base kind, d.store.get? id = some base ∧ base.kind? = some kind ∧
      kind ≠ .definitions ∧ base.misfit? kind = none ∧ base.Alike (d.store.Image t.origin) node
  | .mention id => ∃ name, d.store.Bears id name ∧ name ∈ t.flat.hoisted ∧ node = .reference name

end Document

/-- **The invariant of flattening.** -/
structure Flat (d : Document) (t : Stage) : Prop where
  base : d.store.Extends t.store
  old : ∀ x o, x.index < d.store.size → t.origin x = some o → o = .copy x
  explained : ∀ x o, t.origin x = some o → ∃ node, t.store.get? x = some node ∧ d.Explains t node o
  hoisted : ∀ name, name ∈ t.flat.hoisted →
    ∃ x, t.flat.definitions.get? name = some x ∧ d.Hoisted t name x
  given : ∀ name body, name ∉ t.flat.hoisted → t.flat.definitions.get? name = some body →
    d.definitions.get? name = some body

variable {d : Document} {t t' : Stage}

namespace Document

theorem Hoists.mono {f f' : Flattening} {id : NodeId} (h : d.Hoists f id)
    (hle : ∀ name, name ∈ f.hoisted → name ∈ f'.hoisted) : d.Hoists f' id :=
  fun part name hpart hbears => hle name (h part name hpart hbears)

theorem HoistsBelow.mono {f f' : Flattening} {id : NodeId} (h : d.HoistsBelow f id)
    (hle : ∀ name, name ∈ f.hoisted → name ∈ f'.hoisted) : d.HoistsBelow f' id :=
  fun child hchild => (h child hchild).mono hle

theorem HoistsBelow.hoists {f : Flattening} {id : NodeId} (h : d.HoistsBelow f id)
    (hself : ∀ name, d.store.Bears id name → name ∈ f.hoisted) : d.Hoists f id := by
  intro part name hpart hbears
  rcases Relation.ReflTransGen.cases_head hpart with rfl | ⟨child, hchild, hpart⟩
  · exact hself name hbears
  · exact h child hchild part name hpart hbears

theorem BodyImage.mono {origin origin' : NodeId → Option Origin} {body x : NodeId}
    (h : d.BodyImage origin body x) (hle : ∀ y o, origin y = some o → origin' y = some o) :
    d.BodyImage origin' body x := by
  obtain ⟨node, hnode, himage⟩ := h
  refine ⟨node, hnode, ?_⟩
  split at himage
  · rename_i hkind
    rw [if_pos hkind]
    exact himage.mono hle
  · rename_i hkind
    rw [if_neg hkind]
    exact hle _ _ himage

theorem Explains.mono {node : Node} {o : Origin} (h : d.Explains t node o) (hle : t.Le t') :
    d.Explains t' node o := by
  cases o with
  | copy id =>
    obtain ⟨base, kind, hbase, hkind, hne, hfits, halike⟩ := h
    exact ⟨base, kind, hbase, hkind, hne, hfits, halike.mono fun _ _ h => h.mono hle.origin⟩
  | mention id =>
    obtain ⟨name, hbears, hname, hnode⟩ := h
    exact ⟨name, hbears, hle.hoisted name hname, hnode⟩

theorem Hoisted.mono {name : String} {x : NodeId} (h : d.Hoisted t name x) (hle : t.Le t') :
    d.Hoisted t' name x := by
  rcases h with ⟨id, hid, hbears, ho, hbelow⟩ | ⟨body, hbody, himage, hbelow⟩
  · exact .inl ⟨id, hid, hbears, hle.origin _ _ ho, hbelow.mono hle.hoisted⟩
  · exact .inr ⟨body, hbody, himage.mono hle.origin, hbelow.mono hle.hoisted⟩

theorem Visited.part {id child : NodeId} (h : d.Reached id) (hchild : d.store.IsPart id child) :
    d.Visited child where
  reached := by
    obtain ⟨start, hstart, hpath⟩ := h
    exact ⟨start, hstart, hpath.tail hchild⟩
  place := .inr (.inl ⟨id, hchild.holds⟩)

theorem Visited.lt_size {id : NodeId} (h : d.Visited id) (hd : d.Forest) :
    id.index < d.store.size := by
  rcases h.place with rfl | ⟨parent, hparent⟩ | ⟨node, hnode, -⟩
  · exact hd.root_lt
  · exact hd.lt_size hparent
  · exact Store.lt_size_of_get? hnode

end Document

namespace Flat

theorem start (d : Document) :
    Flat d ⟨d.store, { definitions := d.definitions }, fun _ => none⟩ where
  base := .refl _
  old _ _ _ h := by cases h
  explained _ _ h := by cases h
  hoisted name h := absurd h (NameSet.not_mem_empty name)
  given _ _ _ h := h

theorem copy (h : Flat d t) {x id : NodeId} (ho : t.origin x = some (.copy id)) :
    ∃ base node kind, d.store.get? id = some base ∧ t.store.get? x = some node ∧
      base.kind? = some kind ∧ kind ≠ .definitions ∧ base.misfit? kind = none ∧
      base.Alike (d.store.Image t.origin) node := by
  obtain ⟨node, hnode, base, kind, hbase, hrest⟩ := h.explained x _ ho
  exact ⟨base, node, kind, hbase, hnode, hrest⟩

theorem mention (h : Flat d t) {x id : NodeId} (ho : t.origin x = some (.mention id)) :
    ∃ name, d.store.Bears id name ∧ name ∈ t.flat.hoisted ∧
      t.store.get? x = some (.reference name) := by
  obtain ⟨node, hnode, name, hbears, hname, rfl⟩ := h.explained x _ ho
  exact ⟨name, hbears, hname, hnode⟩

theorem withStore (h : Flat d t) {s : Store} (hext : t.store.Extends s) :
    Flat d (t.withStore s) where
  base := h.base.trans hext
  old := h.old
  explained x o ho := by
    obtain ⟨node, hnode, hexplains⟩ := h.explained x o ho
    exact ⟨node, hext.get?_of_some hnode, hexplains.mono (Stage.le_withStore hext)⟩
  hoisted := h.hoisted
  given := h.given

theorem hoist (h : Flat d t) {name : String} {x : NodeId} (hx : d.Hoisted t name x) :
    Flat d (t.hoist name x) := by
  have hle : t.Le (t.hoist name x) := t.le_hoist name x
  refine ⟨h.base, h.old, fun y o ho => ?_, fun other hother => ?_, fun other body hother hbody => ?_⟩
  · obtain ⟨node, hnode, hexplains⟩ := h.explained y o ho
    exact ⟨node, hnode, hexplains.mono hle⟩
  · by_cases he : other = name
    · subst he
      exact ⟨x, OrderedMap.get?_insert_self _ _ _, hx.mono hle⟩
    · obtain ⟨y, hy, hhoisted⟩ := h.hoisted other ((NameSet.mem_insert.1 hother).resolve_left he)
      exact ⟨y, (OrderedMap.get?_insert_of_ne _ _ he).trans hy, hhoisted.mono hle⟩
  · obtain ⟨he, hnot⟩ := not_or.1 fun hmem => hother (NameSet.mem_insert.2 hmem)
    exact h.given other body hnot ((OrderedMap.get?_insert_of_ne _ _ he).symm.trans hbody)

theorem record (h : Flat d t) {x : NodeId} {o : Origin} {node : Node}
    (hnew : t.origin x = none ∨ t.origin x = some o)
    (hold : x.index < d.store.size → o = .copy x) (hnode : t.store.get? x = some node)
    (hexplains : d.Explains t node o) : Flat d (t.record x o) := by
  have hle : t.Le (t.record x o) := Stage.le_record hnew
  have hcases : ∀ y o', (t.record x o).origin y = some o' →
      y = x ∧ o' = o ∨ t.origin y = some o' := by
    intro y o' ho
    by_cases hy : y = x
    · subst hy
      rw [Stage.origin_record_self] at ho
      exact .inl ⟨rfl, (Option.some.inj ho).symm⟩
    · exact .inr (by simpa [Stage.record, hy] using ho)
  refine ⟨h.base, fun y o' hy ho => ?_, fun y o' ho => ?_, fun name hname => ?_, h.given⟩
  · rcases hcases y o' ho with ⟨rfl, rfl⟩ | ho
    · exact hold hy
    · exact h.old y o' hy ho
  · rcases hcases y o' ho with ⟨rfl, rfl⟩ | ho
    · exact ⟨node, hnode, hexplains.mono hle⟩
    · obtain ⟨node', hnode', hexplains'⟩ := h.explained y o' ho
      exact ⟨node', hnode', hexplains'.mono hle⟩
  · obtain ⟨y, hy, hhoisted⟩ := h.hoisted name hname
    exact ⟨y, hy, hhoisted.mono hle⟩

/-- Adding a node that is what its origin says. -/
theorem push (h : Flat d t) {o : Origin} {node : Node} (hexplains : d.Explains t node o) :
    ∃ t', t'.state = (t.store.insert node, t.flat) ∧ t.Le t' ∧ Flat d t' ∧
      t'.origin t.store.nextId = some o := by
  have hext : t.store.Extends (t.store.insert node) := Store.extends_insert _ _
  have hnone : t.origin t.store.nextId = none := by
    cases ho : t.origin t.store.nextId with
    | none => rfl
    | some o =>
      obtain ⟨node, hnode, -⟩ := h.explained _ _ ho
      exact absurd (Store.lt_size_of_get? hnode) (Nat.lt_irrefl _)
  have hgrow := Stage.le_withStore hext
  refine ⟨(t.withStore (t.store.insert node)).record t.store.nextId o, rfl,
    hgrow.trans (Stage.le_record (.inl hnone)), ?_, Stage.origin_record_self _ _ _⟩
  refine (h.withStore hext).record (.inl hnone) (fun hlt => ?_) (Store.get?_insert_nextId _ _)
    (hexplains.mono hgrow)
  exact absurd hlt (Nat.not_lt.2 h.base.size_le)

end Flat

end SchemaGraph
