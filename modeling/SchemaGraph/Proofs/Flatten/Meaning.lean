import SchemaGraph.Proofs.Unfolding
import SchemaGraph.Proofs.Flatten.Separation

/-!
Flattening keeps the meaning of a schema. The flat root unfolds, with the flat definitions, to the
same tree as the document's root does with the declarations of the document; only the names that
nothing but the serialization attachment of a `definitions` node declares have lost their bodies.

* `Document.Declares`, `Document.Keeps` — the declarations, and the names that flattening keeps;
* `Document.Yields` — which flat nodes come from a node;
* `Flattened.unfolds_iff` — **flattening keeps the meaning**.
-/

namespace SchemaGraph

/-! ### Declarations -/

def Definitions.Binds (definitions : Definitions) (name : String) (body : NodeId) : Prop :=
  definitions.get? name = some body

namespace Document

/-- The node at `id` is given as the definition of `name` or bears the name. -/
def Declares (d : Document) (name : String) (id : NodeId) : Prop :=
  d.definitions.get? name = some id ∨
    ∃ node, d.store.get? id = some node ∧ node.name = some name

/-- Each name is declared by one node only, and a given definition bears no name but its own. -/
structure DeclaredOnce (d : Document) : Prop where
  unique : ∀ name id other, d.Declares name id → d.Declares name other → id = other
  own : ∀ name body node own, d.definitions.get? name = some body →
    d.store.get? body = some node → node.name = some own → own = name

def declarations (d : Document) : List (String × NodeId) :=
  d.definitions.entries ++ (List.range d.store.size).filterMap fun i =>
    ((d.store.get? ⟨i⟩).bind Node.name).map fun name => (name, ⟨i⟩)

theorem mem_declarations {d : Document} {name : String} {id : NodeId} :
    (name, id) ∈ d.declarations ↔ d.Declares name id := by
  simp only [declarations, List.mem_append, List.mem_filterMap, List.mem_range,
    Option.map_eq_some_iff, Option.bind_eq_some_iff, Prod.mk.injEq]
  refine or_congr OrderedMap.mem_entries_iff ⟨?_, ?_⟩
  · rintro ⟨i, -, _, ⟨node, hnode, hname⟩, rfl, rfl⟩
    exact ⟨node, hnode, hname⟩
  · rintro ⟨node, hnode, hname⟩
    exact ⟨id.index, Store.lt_size_of_get? hnode, name, ⟨node, hnode, hname⟩, rfl, rfl⟩

theorem declaredOnce_iff {d : Document} : d.DeclaredOnce ↔
    (∀ a ∈ d.declarations, ∀ b ∈ d.declarations, a.1 = b.1 → a.2 = b.2) ∧
      ∀ entry ∈ d.definitions.entries, ∀ own ∈ (d.store.get? entry.2).bind Node.name,
        own = entry.1 := by
  constructor
  · intro h
    refine ⟨fun a ha b hb e => ?_, fun entry hentry own hown => ?_⟩
    · exact h.unique b.1 a.2 b.2 (mem_declarations.1 (e ▸ ha)) (mem_declarations.1 hb)
    · obtain ⟨node, hnode, hname⟩ := Option.bind_eq_some_iff.1 hown
      exact h.own entry.1 entry.2 node own (OrderedMap.mem_entries_iff.1 hentry) hnode hname
  · rintro ⟨hunique, hown⟩
    refine ⟨fun name id other hid hother => ?_, fun name body node own hbody hnode hname => ?_⟩
    · exact hunique (name, id) (mem_declarations.2 hid) (name, other) (mem_declarations.2 hother) rfl
    · exact hown (name, body) (OrderedMap.mem_entries_iff.2 hbody) own
        (Option.bind_eq_some_iff.2 ⟨node, hnode, hname⟩)

instance (d : Document) : Decidable d.DeclaredOnce := decidable_of_iff _ declaredOnce_iff.symm

/-- `name` is given, or a part of the schema or of a given definition bears it. -/
def Keeps (d : Document) (name : String) : Prop :=
  (∃ body, d.definitions.get? name = some body) ∨ ∃ id, d.Reached id ∧ d.store.Bears id name

/-- `x` comes from what the node at `id` dissolves to. -/
def Yields (d : Document) (t : Stage) (id x : NodeId) : Prop :=
  ∃ core, d.store.Dissolves id core ∧
    (t.origin x = some (.copy core) ∨ t.origin x = some (.mention core))

end Document

variable {d : Document} {t : Stage} {root : NodeId}

theorem Store.Bears.declares {id : NodeId} {name : String} (h : d.store.Bears id name) :
    d.Declares name id := by
  obtain ⟨node, hnode, -, hname⟩ := h
  exact .inr ⟨node, hnode, hname⟩

theorem Store.Image.yields {id x : NodeId} (h : d.store.Image t.origin id x) : d.Yields t id x := by
  obtain ⟨core, node, hcore, -, ⟨-, ho⟩ | ⟨-, ho⟩⟩ := h
  · exact ⟨core, hcore, .inl ho⟩
  · exact ⟨core, hcore, .inr ho⟩

theorem Document.BodyImage.yields {body x : NodeId} (h : d.BodyImage t.origin body x) :
    d.Yields t body x := by
  obtain ⟨node, hnode, himage⟩ := h
  split at himage
  · exact himage.yields
  · rename_i hkind
    exact ⟨body, .core hnode hkind, .inl himage⟩

/-- A node and what it dissolves to are seen as the same. -/
theorem Store.Dissolves.stands_iff {s : Store} {bodies : String → NodeId → Prop} {id core : NodeId}
    {view : Node} (h : s.Dissolves id core) :
    s.Stands bodies id view ↔ s.Stands bodies core view := by
  induction h with
  | core => exact Iff.rfl
  | inner hnode hkind hinner _ ih => exact (Store.stands_inner_iff hnode hkind hinner).trans ih

theorem Store.Dissolves.eq_of_plain {s : Store} {id core : NodeId} {node : Node}
    (h : s.Dissolves id core) (hnode : s.get? id = some node)
    (hkind : node.kind? ≠ some .definitions) : core = id := by
  cases h with
  | core => rfl
  | inner hnode' hkind' =>
    rw [hnode] at hnode'
    cases hnode'
    exact absurd hkind' hkind

theorem Store.Dissolves.of_inner {s : Store} {id inner core : NodeId} {node : Node}
    (h : s.Dissolves id core) (hnode : s.get? id = some node)
    (hkind : node.kind? = some .definitions) (hinner : node.innerSchema? = some inner) :
    s.Dissolves inner core := by
  cases h with
  | core hnode' hkind' =>
    rw [hnode] at hnode'
    cases hnode'
    exact absurd hkind hkind'
  | inner hnode' _ hinner' hcore =>
    rw [hnode] at hnode'
    cases hnode'
    rw [hinner] at hinner'
    cases hinner'
    exact hcore

theorem Flat.alike_of_copy (h : Flat d t) {x id : NodeId} (ho : t.origin x = some (.copy id)) :
    ∃ base copied, d.store.get? id = some base ∧ t.store.get? x = some copied ∧
      base.Alike (d.Yields t) copied := by
  obtain ⟨base, copied, -, hbase, hcopied, -, -, -, halike⟩ := h.copy ho
  exact ⟨base, copied, hbase, hcopied, halike.mono fun _ _ himage => himage.yields⟩

/-! ### Bodies -/

namespace Flattened

theorem kept_of_binds (h : Flattened d t root) {name : String} {x : NodeId}
    (hx : t.flat.definitions.Binds name x) :
    ∃ id, Store.kept d.Declares d.Keeps name id ∧ d.Yields t id x := by
  rcases h.hoisted hx with ⟨id, hid, hbears, ho, -⟩ | ⟨body, hbody, himage, -⟩
  · exact ⟨id, ⟨hbears.declares, .inr ⟨id, hid.reached, hbears⟩⟩, id, hbears.dissolves, .inl ho⟩
  · exact ⟨body, ⟨.inl hbody, .inl ⟨body, hbody⟩⟩, himage.yields⟩

section Once

variable (h : Flattened d t root) (honce : d.DeclaredOnce)
include h honce

/-- The names of all parts of a given definition were hoisted, wherever its body was found. -/
theorem hoistsBelow_of_body {name : String} {body : NodeId}
    (hbody : d.definitions.get? name = some body) : d.HoistsBelow t.flat body := by
  obtain ⟨x, -, ⟨id, -, hbears, -, hbelow⟩ | ⟨body', hbody', -, hbelow⟩⟩ :=
    h.flat.hoisted name (h.settled name body hbody)
  · rwa [honce.unique name body id (.inl hbody) hbears.declares]
  · rw [hbody] at hbody'
    cases hbody'
    exact hbelow

theorem mem_hoisted_of_keeps {name : String} (hname : d.Keeps name) : name ∈ t.flat.hoisted := by
  rcases hname with ⟨body, hbody⟩ | ⟨id, ⟨start, rfl | ⟨outer, houter⟩, hpath⟩, hbears⟩
  · exact h.settled name body hbody
  · exact h.hoists id name hpath hbears
  · rcases Relation.ReflTransGen.cases_head hpath with rfl | ⟨child, hchild, hpath⟩
    · obtain ⟨node, hnode, -, hown⟩ := hbears
      rw [honce.own outer start node name houter hnode hown]
      exact h.settled outer start houter
    · exact h.hoistsBelow_of_body honce houter child hchild id name hpath hbears

theorem binds_of_kept {name : String} {id : NodeId}
    (hid : Store.kept d.Declares d.Keeps name id) :
    ∃ x, t.flat.definitions.Binds name x ∧ d.Yields t id x := by
  obtain ⟨x, hx, -⟩ := h.flat.hoisted name (h.mem_hoisted_of_keeps honce hid.2)
  obtain ⟨other, ⟨hother, -⟩, hyields⟩ := h.kept_of_binds hx
  rw [honce.unique name other id hother hid.1] at hyields
  exact ⟨x, hx, hyields⟩

/-- An occurrence in the place of a named node refers to the copy of that node. -/
theorem binds_of_mention {x id : NodeId} (ho : t.origin x = some (.mention id)) :
    ∃ name body, t.store.get? x = some (.reference name) ∧ t.flat.definitions.Binds name body ∧
      t.origin body = some (.copy id) := by
  obtain ⟨name, hbears, hname, hnode⟩ := h.flat.mention ho
  obtain ⟨body, hbody, ⟨other, -, hother, ho', -⟩ | ⟨given, hgiven, ⟨node, hget, himage⟩, -⟩⟩ :=
    h.flat.hoisted name hname
  · rw [honce.unique name other id hother.declares hbears.declares] at ho'
    exact ⟨name, body, hnode, hbody, ho'⟩
  · rw [honce.unique name given id (.inl hgiven) hbears.declares] at hget himage
    obtain ⟨node', hnode', hkind, -⟩ := hbears
    rw [hget] at hnode'
    cases hnode'
    rw [if_neg hkind] at himage
    exact ⟨name, body, hnode, hbody, himage⟩

/-- In the place of a flat node one sees the copy of what its source dissolves to. -/
theorem exists_copy {id x : NodeId} (hx : d.Yields t id x) :
    ∃ core y, d.store.Dissolves id core ∧ t.origin y = some (.copy core) ∧
      ∀ view, t.store.Stands t.flat.definitions.Binds x view ↔
        t.store.Stands t.flat.definitions.Binds y view := by
  obtain ⟨core, hcore, ho | ho⟩ := hx
  · exact ⟨core, x, hcore, ho, fun _ => Iff.rfl⟩
  · obtain ⟨name, body, hnode, hbody, ho'⟩ := h.binds_of_mention honce ho
    refine ⟨core, body, hcore, ho', fun view => Store.stands_reference_iff hnode fun y => ?_⟩
    rw [Definitions.Binds, show t.flat.definitions.get? name = some body from hbody]
    exact ⟨fun e => (Option.some.inj e).symm, fun e => congrArg some e.symm⟩

/-! ### The same tree -/

/-- What is seen at a node is seen at the copy of what it dissolves to. -/
theorem exists_view_of_stands {id core y : NodeId} {view : Node}
    (hview : d.store.Stands (Store.kept d.Declares d.Keeps) id view)
    (hcore : d.store.Dissolves id core) (ho : t.origin y = some (.copy core)) :
    ∃ view', t.store.Stands t.flat.definitions.Binds y view' ∧ view.Similar (d.Yields t) view' := by
  obtain ⟨base, copied, hbase, hcopied, halike⟩ := h.flat.alike_of_copy ho
  have hkind_eq := halike.kind?_eq
  have href_eq := halike.isReference_eq
  have htarget_eq := halike.target_eq
  induction hview generalizing core y base copied with
  | plain hnode hkind href =>
    cases hcore.eq_of_plain hnode hkind
    cases hnode.symm.trans hbase
    rw [← hkind_eq] at hkind
    rw [← href_eq] at href
    exact ⟨copied, .plain hcopied hkind href, halike.similar⟩
  | @unresolved _ _ name hnode href htarget hnone =>
    cases hcore.eq_of_plain hnode (by simp [Node.kind?_of_isReference href])
    cases hnode.symm.trans hbase
    rw [← href_eq] at href
    rw [← htarget_eq] at htarget
    have hunbound : ∀ body, ¬ t.flat.definitions.Binds name body := by
      intro body hbody
      obtain ⟨other, hother, -⟩ := h.kept_of_binds hbody
      exact hnone other hother
    exact ⟨copied, .unresolved hcopied href htarget hunbound, halike.similar⟩
  | inner hnode hkind hinner _ ih =>
    have hinner_core := hcore.of_inner hnode hkind hinner
    exact ih hinner_core ho _ _ hbase hcopied halike hkind_eq href_eq htarget_eq
  | body hnode href htarget hbody _ ih =>
    cases hcore.eq_of_plain hnode (by simp [Node.kind?_of_isReference href])
    cases hnode.symm.trans hbase
    rw [← href_eq] at href
    rw [← htarget_eq] at htarget
    -- the flat body may be an occurrence again, of a name that the declaration bears
    obtain ⟨x, hx, hyields⟩ := h.binds_of_kept honce hbody
    obtain ⟨core', y', hcore', ho', hiff⟩ := h.exists_copy honce hyields
    obtain ⟨base', copied', hbase', hcopied', halike'⟩ := h.flat.alike_of_copy ho'
    obtain ⟨view', hview', hsimilar⟩ := ih hcore' ho' base' copied' hbase' hcopied' halike'
      halike'.kind?_eq halike'.isReference_eq halike'.target_eq
    have hthere := (hiff view').2 hview'
    exact ⟨view'.seenThrough copied, .body hcopied href htarget hx hthere,
      hsimilar.seenThrough halike.metadata_eq halike.serialization⟩

/-- What is seen at a copy is seen at the node that it is a copy of. -/
theorem exists_view_of_copy {core x : NodeId} {view' : Node}
    (hview : t.store.Stands t.flat.definitions.Binds x view')
    (ho : t.origin x = some (.copy core) ∨ t.origin x = some (.mention core)) :
    ∃ view, d.store.Stands (Store.kept d.Declares d.Keeps) core view ∧
      view.Similar (d.Yields t) view' := by
  induction hview generalizing core with
  | plain hcopied hkind href =>
    rcases ho with ho | ho
    · obtain ⟨base, _, hbase, hcopied', halike⟩ := h.flat.alike_of_copy ho
      cases hcopied.symm.trans hcopied'
      rw [halike.kind?_eq] at hkind
      rw [halike.isReference_eq] at href
      exact ⟨base, .plain hbase hkind href, halike.similar⟩
    · obtain ⟨name, body, hnode, -⟩ := h.binds_of_mention honce ho
      cases hcopied.symm.trans hnode
      cases href
  | @unresolved _ _ name hcopied href htarget hnone =>
    rcases ho with ho | ho
    · obtain ⟨base, _, hbase, hcopied', halike⟩ := h.flat.alike_of_copy ho
      cases hcopied.symm.trans hcopied'
      rw [halike.isReference_eq] at href
      rw [halike.target_eq] at htarget
      have hundeclared : ∀ other, ¬ Store.kept d.Declares d.Keeps name other := by
        intro other hother
        obtain ⟨body, hbody, -⟩ := h.binds_of_kept honce hother
        exact hnone body hbody
      exact ⟨base, .unresolved hbase href htarget hundeclared, halike.similar⟩
    · obtain ⟨name', body, hnode, hbody, -⟩ := h.binds_of_mention honce ho
      cases hcopied.symm.trans hnode
      cases htarget
      exact absurd hbody (hnone body)
  | inner hcopied hkind =>
    -- a flat node is no `definitions` node
    obtain ⟨o, ho⟩ : ∃ o, t.origin _ = some o := ho.elim (fun ho => ⟨_, ho⟩) fun ho => ⟨_, ho⟩
    obtain ⟨copied, hcopied', hplain⟩ := h.flat.plain_of_traced ho
    cases hcopied.symm.trans hcopied'
    exact absurd hkind hplain
  | body hcopied href htarget hbody _ ih =>
    rcases ho with ho | ho
    · obtain ⟨base, _, hbase, hcopied', halike⟩ := h.flat.alike_of_copy ho
      cases hcopied.symm.trans hcopied'
      rw [halike.isReference_eq] at href
      rw [halike.target_eq] at htarget
      obtain ⟨other, hother, core', hcore', ho'⟩ := h.kept_of_binds hbody
      obtain ⟨view, hview, hsimilar⟩ := ih ho'
      have hthere := hcore'.stands_iff.2 hview
      exact ⟨view.seenThrough base, .body hbase href htarget hother hthere,
        hsimilar.seenThrough halike.metadata_eq halike.serialization⟩
    · obtain ⟨name, body, hnode, hbody', ho'⟩ := h.binds_of_mention honce ho
      cases hcopied.symm.trans hnode
      cases htarget
      cases Option.some.inj (hbody.symm.trans hbody')
      exact ih (.inl ho')

/-- **Flattening keeps the meaning.** -/
theorem unfolds_iff {path : List ChildStep} {outline : Outline} :
    d.store.Unfolds (Store.kept d.Declares d.Keeps) d.root path outline ↔
      t.store.Unfolds t.flat.definitions.Binds root path outline := by
  refine Store.unfolds_iff (R := d.Yields t) ?_ ?_ h.image.yields
  · intro id x view hx hview
    obtain ⟨core, y, hcore, ho, hiff⟩ := h.exists_copy honce hx
    obtain ⟨view', hview', hsimilar⟩ := h.exists_view_of_stands honce hview hcore ho
    exact ⟨view', (hiff view').2 hview', hsimilar⟩
  · intro x id view' hx hview'
    obtain ⟨core, hcore, ho⟩ := hx
    obtain ⟨view, hview, hsimilar⟩ := h.exists_view_of_copy honce hview' ho
    exact ⟨view, hcore.stands_iff.2 hview, hsimilar.symm⟩

end Once

end Flattened

end SchemaGraph
