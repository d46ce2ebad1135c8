import SchemaGraph.Proofs.Flatten.Origin

/-!
The walk that flattens keeps its invariant. Each visit returns the image of its node and has hoisted
the names of all its parts; flattening the given definitions leaves none of them out.

* `visits_flattenVisitor` — the visitor, given how other nodes are visited;
* `flattenGiven_flat` — the given definitions;
* `flattened_of_flattenReferences` — the whole pass.
-/

namespace SchemaGraph

/-- What a visit does: the invariant holds after it, what it returns is the image of its node, and
all names of the node's parts are hoisted. -/
def Visits (d : Document) (visit : NodeId → Pass Flattening NodeId) : Prop :=
  ∀ (t : Stage) (id x : NodeId) (st' : Store × Flattening), Flat d t → d.Visited id →
    visit id t.state = .ok x st' →
    ∃ t', t'.state = st' ∧ t.Le t' ∧ Flat d t' ∧ d.store.Image t'.origin id x ∧ d.Hoists t'.flat id

variable {d : Document} {visit : NodeId → Pass Flattening NodeId} {t : Stage}
  {st' : Store × Flattening}

theorem visits_mapM (hvisit : Visits d visit) : ∀ {ids xs : List NodeId} {t : Stage}
    {st' : Store × Flattening}, Flat d t → (∀ id ∈ ids, d.Visited id) → ids.mapM visit t.state = .ok xs st' →
    ∃ t', t'.state = st' ∧ t.Le t' ∧ Flat d t' ∧ List.Forall₂ (d.store.Image t'.origin) ids xs ∧
      ∀ id ∈ ids, d.Hoists t'.flat id
  | [], _, t, _, hflat, _, h => by
    rw [List.mapM_nil] at h
    obtain ⟨rfl, rfl⟩ := Pass.pure_eq_ok.1 h
    exact ⟨t, rfl, .refl t, hflat, .nil, by simp⟩
  | id :: ids, _, t, _, hflat, hids, h => by
    rw [List.mapM_cons] at h
    obtain ⟨x, mid, hid, h⟩ := Pass.bind_eq_ok.1 h
    obtain ⟨xs, last, hrest, h⟩ := Pass.bind_eq_ok.1 h
    obtain ⟨rfl, rfl⟩ := Pass.pure_eq_ok.1 h
    obtain ⟨t₁, rfl, hle, hflat₁, himage, hhoists⟩ :=
      hvisit t id x mid hflat (hids id List.mem_cons_self) hid
    obtain ⟨t₂, rfl, hle', hflat₂, himages, hall⟩ := visits_mapM hvisit hflat₁
      (fun id hid => hids id (List.mem_cons_of_mem _ hid)) hrest
    refine ⟨t₂, rfl, hle.trans hle', hflat₂, .cons (himage.mono hle'.origin) himages, ?_⟩
    intro other hother
    rcases List.mem_cons.1 hother with rfl | hother
    · exact hhoists.mono hle'.hoisted
    · exact hall other hother

theorem copies_mapChildren (hvisit : Visits d visit) (hflat : Flat d t) {id x : NodeId}
    (hreach : d.Reached id) {node : Node} (hnode : d.store.get? id = some node)
    (hplain : node.kind? ≠ some .definitions) (h : mapChildren visit id t.state = .ok x st') :
    ∃ t', t'.state = st' ∧ t.Le t' ∧ Flat d t' ∧ t'.origin x = some (.copy id) ∧
      d.HoistsBelow t'.flat id := by
  have hlt := Store.lt_size_of_get? hnode
  obtain ⟨⟨node', kind⟩, mid, hlook, h⟩ := Pass.bind_eq_ok.1 h
  obtain ⟨hshape, rfl⟩ := Pass.look_eq_ok.1 hlook
  obtain ⟨hnode', hkind, hfits⟩ := Store.wellShaped_eq_ok.1 hshape
  rw [show t.state.1.get? id = some node from hflat.base.get?_of_some hnode] at hnode'
  cases hnode'
  have hparts : ∀ child, d.store.IsPart id child ↔ child ∈ node.orderedChildren kind := by
    intro child
    rw [Node.mem_orderedChildren hfits]
    exact Store.isPart_plain_iff hnode hplain
  obtain ⟨xs, mid, hmap, h⟩ := Pass.bind_eq_ok.1 h
  obtain ⟨t₁, rfl, hle, hflat₁, himages, hhoists⟩ := visits_mapM hvisit hflat
    (fun child hchild => .part hreach ((hparts child).2 hchild)) hmap
  have hbelow : d.HoistsBelow t₁.flat id := fun child hchild => hhoists child ((hparts child).1 hchild)
  have hne : kind ≠ .definitions := fun e => hplain (e ▸ hkind)
  have hbase := hflat₁.base.get?_of_some hnode
  split at h
  · -- all children came back as they are: the node is its own copy
    rename_i hsame
    subst hsame
    obtain ⟨rfl, rfl⟩ := Pass.pure_eq_ok.1 h
    have hnew : t₁.origin id = none ∨ t₁.origin id = some (.copy id) := by
      cases ho : t₁.origin id with
      | none => exact .inl rfl
      | some o => exact .inr (congrArg some (hflat₁.old id o hlt ho))
    have hle' := Stage.le_record hnew
    refine ⟨t₁.record id (.copy id), rfl, hle.trans hle', ?_, by simp, hbelow.mono hle'.hoisted⟩
    refine hflat₁.record hnew (fun _ => rfl) hbase ⟨node, kind, hnode, hkind, hne, hfits, ?_⟩
    refine .refl fun child hchild => ?_
    exact List.forall₂_same.1 himages child ((Node.mem_orderedChildren hfits).2 hchild)
  · -- a new node with the images for children
    obtain ⟨current, mid, hread, h⟩ := Pass.bind_eq_ok.1 h
    obtain ⟨hcurrent, rfl⟩ := Pass.node_eq_ok.1 hread
    rw [show t₁.state.1.get? id = some node from hbase] at hcurrent
    cases hcurrent
    obtain ⟨rfl, rfl⟩ := Pass.insert_eq_ok.1 h
    obtain ⟨t₂, hstate, hle', hflat₂, ho⟩ := hflat₁.push (o := .copy id)
      ⟨node, kind, hnode, hkind, hne, hfits, Node.alike_relink hfits himages⟩
    exact ⟨t₂, hstate, hle.trans hle', hflat₂, ho, hbelow.mono hle'.hoisted⟩

theorem visitListed_flat (hvisit : Visits d visit) : ∀ {ids : List NodeId} {t : Stage} {u : Unit}
    {st' : Store × Flattening}, Flat d t → (∀ id ∈ ids, d.Visited id) → visitListed visit ids t.state = .ok u st' →
    ∃ t', t'.state = st' ∧ t.Le t' ∧ Flat d t' ∧ ∀ id ∈ ids, d.Hoists t'.flat id
  | [], t, _, _, hflat, _, h => by
    obtain ⟨-, rfl⟩ := Pass.pure_eq_ok.1 h
    exact ⟨t, rfl, .refl t, hflat, by simp⟩
  | id :: ids, t, _, _, hflat, hids, h => by
    obtain ⟨node, mid, hread, h⟩ := Pass.bind_eq_ok.1 h
    obtain ⟨-, rfl⟩ := Pass.node_eq_ok.1 hread
    split at h
    · exact absurd h Pass.throw_ne_ok
    · obtain ⟨x, mid, hid, h⟩ := Pass.bind_eq_ok.1 h
      obtain ⟨t₁, rfl, hle, hflat₁, -, hhoists⟩ :=
        hvisit t id x mid hflat (hids id List.mem_cons_self) hid
      obtain ⟨t₂, rfl, hle', hflat₂, hall⟩ := visitListed_flat hvisit hflat₁
        (fun id hid => hids id (List.mem_cons_of_mem _ hid)) h
      refine ⟨t₂, rfl, hle.trans hle', hflat₂, fun other hother => ?_⟩
      rcases List.mem_cons.1 hother with rfl | hother
      · exact hhoists.mono hle'.hoisted
      · exact hall other hother

/-- A `definitions` node: its definitions are walked for what they hoist, and it gives way to its
inner schema. -/
theorem visits_definitions (hvisit : Visits d visit) (hflat : Flat d t) {id x inner : NodeId}
    {node : Node} (hreach : d.Reached id) (hnode : d.store.get? id = some node)
    (hkind : node.kind? = some .definitions) (hinner : node.innerSchema? = some inner)
    (h : (do visitListed visit node.listedDefinitions; visit inner : Pass Flattening NodeId) t.state =
      .ok x st') :
    ∃ t', t'.state = st' ∧ t.Le t' ∧ Flat d t' ∧ d.store.Image t'.origin id x ∧
      d.Hoists t'.flat id := by
  have hparts : ∀ child, d.store.IsPart id child ↔ child ∈ node.listedDefinitions ∨ child = inner :=
    fun child => Store.isPart_definitions_iff hnode hkind hinner
  obtain ⟨_, mid, hlisted, h⟩ := Pass.bind_eq_ok.1 h
  obtain ⟨t₁, rfl, hle, hflat₁, hhoists⟩ := visitListed_flat hvisit hflat
    (fun child hchild => .part hreach ((hparts child).2 (.inl hchild))) hlisted
  obtain ⟨t₂, rfl, hle', hflat₂, himage, hhoists'⟩ :=
    hvisit t₁ inner x st' hflat₁ (.part hreach ((hparts inner).2 (.inr rfl))) h
  have hbelow : d.HoistsBelow t₂.flat id := by
    intro child hchild
    rcases (hparts child).1 hchild with hchild | rfl
    · exact (hhoists child hchild).mono hle'.hoisted
    · exact hhoists'
  obtain ⟨core, body, hcore, himage⟩ := himage
  refine ⟨t₂, rfl, hle.trans hle', hflat₂, ⟨core, body, .inner hnode hkind hinner hcore, himage⟩,
    hbelow.hoists fun name hbears => ?_⟩
  -- the node itself is not taken for a body
  obtain ⟨node', hnode', hplain, -⟩ := hbears
  rw [hnode] at hnode'
  cases hnode'
  exact absurd hkind hplain

/-- A copy of a node without a name takes its place. -/
theorem image_of_nameless {id x : NodeId} {node : Node} (hnode : d.store.get? id = some node)
    (hplain : node.kind? ≠ some .definitions)
    (ho : t.origin x = some (.copy id)) (hbelow : d.HoistsBelow t.flat id)
    (hname : node.name = none) : d.store.Image t.origin id x ∧ d.Hoists t.flat id := by
  refine ⟨⟨id, node, .core hnode hplain, hnode, .inl ⟨hname, ho⟩⟩, hbelow.hoists fun name hbears => ?_⟩
  obtain ⟨node', hnode', -, hname'⟩ := hbears
  rw [hnode] at hnode'
  cases hnode'
  rw [hname] at hname'
  cases hname'

/-- The copy of a named node becomes the body of the name, and an occurrence takes its place. -/
theorem image_of_named (hflat : Flat d t) {id copy x : NodeId} {node : Node} {name : String}
    (hid : d.Visited id) (hnode : d.store.get? id = some node)
    (hplain : node.kind? ≠ some .definitions) (ho : t.origin copy = some (.copy id))
    (hbelow : d.HoistsBelow t.flat id) (hname : node.name = some name)
    (h : (do Pass.modifyOwn (.hoist name copy); Pass.insert (.reference name) :
      Pass Flattening NodeId) t.state = .ok x st') :
    ∃ t', t'.state = st' ∧ t.Le t' ∧ Flat d t' ∧ d.store.Image t'.origin id x ∧
      d.Hoists t'.flat id := by
  obtain ⟨_, mid, hhoist, h⟩ := Pass.bind_eq_ok.1 h
  cases Pass.modifyOwn_eq_ok.1 hhoist
  obtain ⟨rfl, rfl⟩ := Pass.insert_eq_ok.1 h
  have hbears : d.store.Bears id name := ⟨node, hnode, hplain, hname⟩
  have hle : t.Le (t.hoist name copy) := t.le_hoist name copy
  have hmem : name ∈ (t.hoist name copy).flat.hoisted := t.mem_hoisted_hoist name copy
  have hhoisted : Flat d (t.hoist name copy) := hflat.hoist (.inl ⟨id, hid, hbears, ho, hbelow⟩)
  obtain ⟨t', hstate, hle', hflat', ho'⟩ :=
    hhoisted.push (o := .mention id) ⟨name, hbears, hmem, rfl⟩
  have hbelow' : d.HoistsBelow t'.flat id := (hbelow.mono hle.hoisted).mono hle'.hoisted
  refine ⟨t', hstate, hle.trans hle', hflat',
    ⟨id, node, .core hnode hplain, hnode, .inr ⟨by rw [hname]; simp, ho'⟩⟩,
    hbelow'.hoists fun other hother => ?_⟩
  rw [hother.unique hbears]
  exact hle'.hoisted name hmem

/-- **A visit keeps the invariant** if the visits that it makes do. -/
theorem visits_flattenVisitor (hd : d.Forest) (hvisit : Visits d visit) :
    Visits d (flattenVisitor visit) := by
  intro t id x st' hflat hid h
  obtain ⟨node, hnode⟩ : ∃ node, d.store.get? id = some node := by
    cases hnode : d.store.get? id with
    | some node => exact ⟨node, rfl⟩
    | none => exact absurd (hid.lt_size hd) (Nat.not_lt.2 (Store.get?_eq_none.1 hnode))
  obtain ⟨node', mid, hread, h⟩ := Pass.bind_eq_ok.1 h
  obtain ⟨hnode', rfl⟩ := Pass.node_eq_ok.1 hread
  rw [show t.state.1.get? id = some node from hflat.base.get?_of_some hnode] at hnode'
  cases hnode'
  by_cases hkind : node.kind? = some .definitions
  · rw [if_pos hkind] at h
    cases hinner : node.innerSchema? with
    | none =>
      simp only [hinner] at h
      exact absurd h Pass.throw_ne_ok
    | some inner =>
      simp only [hinner] at h
      exact visits_definitions hvisit hflat hid.reached hnode hkind hinner h
  · rw [if_neg hkind] at h
    obtain ⟨copy, mid, hcopy, h⟩ := Pass.bind_eq_ok.1 h
    obtain ⟨t₁, rfl, hle, hflat₁, ho, hbelow⟩ :=
      copies_mapChildren hvisit hflat hid.reached hnode hkind hcopy
    -- the name that is read off the copy is the node's
    obtain ⟨node', mid, hread', h⟩ := Pass.bind_eq_ok.1 h
    obtain ⟨hnode', rfl⟩ := Pass.node_eq_ok.1 hread'
    obtain ⟨base, copied, kind, hbase, hcopied, -, -, -, halike⟩ := hflat₁.copy ho
    rw [hnode] at hbase
    cases hbase
    rw [show t₁.state.1.get? copy = some copied from hcopied] at hnode'
    cases hnode'
    rw [halike.name_eq] at h
    cases hname : node.name with
    | none =>
      simp only [hname] at h
      obtain ⟨rfl, rfl⟩ := Pass.pure_eq_ok.1 h
      obtain ⟨himage, hhoists⟩ := image_of_nameless hnode hkind ho hbelow hname
      exact ⟨t₁, rfl, hle, hflat₁, himage, hhoists⟩
    | some name =>
      simp only [hname] at h
      obtain ⟨t₂, hstate, hle', hflat₂, himage, hhoists⟩ :=
        image_of_named hflat₁ hid hnode hkind ho hbelow hname h
      exact ⟨t₂, hstate, hle.trans hle', hflat₂, himage, hhoists⟩

theorem visits_walkWithin (hd : d.Forest) (depth : Nat) :
    Visits d (flattenVisitor.walkWithin depth) := by
  induction depth with
  | zero =>
    intro t id x st' _ _ h
    exact absurd h Pass.throw_ne_ok
  | succ depth ih => exact visits_flattenVisitor hd ih

theorem visits_walk (hd : d.Forest) : Visits d flattenVisitor.walk :=
  fun t id x st' hflat hid h => visits_walkWithin hd _ t id x st' hflat hid h

/-! ### Given definitions -/

theorem Document.Forest.lt_size_of_body (hd : d.Forest) {name : String} {body : NodeId}
    (hbody : d.definitions.get? name = some body) : body.index < d.store.size := by
  rcases hd.definitions with hbearing | hapart
  · obtain ⟨node, hnode, -⟩ := hbearing name body hbody
    exact Store.lt_size_of_get? hnode
  · exact hapart.bounds name body hbody

theorem Document.reached_body {name : String} {body : NodeId}
    (hbody : d.definitions.get? name = some body) : d.Reached body :=
  ⟨body, .inr ⟨name, hbody⟩, .refl⟩

theorem bodyImage_flattenBody (hd : d.Forest) (hflat : Flat d t) {name : String} {body x : NodeId}
    (hbody : d.definitions.get? name = some body) (h : flattenBody body t.state = .ok x st') :
    ∃ t', t'.state = st' ∧ t.Le t' ∧ Flat d t' ∧ d.BodyImage t'.origin body x ∧
      d.HoistsBelow t'.flat body := by
  obtain ⟨node, mid, hread, h⟩ := Pass.bind_eq_ok.1 h
  obtain ⟨hnode, rfl⟩ := Pass.node_eq_ok.1 hread
  rw [show t.state.1.get? body = d.store.get? body from
    hflat.base.get?_eq body (hd.lt_size_of_body hbody)] at hnode
  have hreach := Document.reached_body hbody
  split at h
  · rename_i hkind
    obtain ⟨t', rfl, hle, hflat', himage, hhoists⟩ := visits_walk hd t body x st' hflat
      ⟨hreach, .inr (.inr ⟨node, hnode, hkind⟩)⟩ h
    refine ⟨t', rfl, hle, hflat', ⟨node, hnode, by rwa [if_pos hkind]⟩, fun child hchild => ?_⟩
    exact fun part other hpart => hhoists part other (.head hchild hpart)
  · rename_i hkind
    obtain ⟨t', rfl, hle, hflat', ho, hbelow⟩ :=
      copies_mapChildren (visits_walk hd) hflat hreach hnode hkind h
    exact ⟨t', rfl, hle, hflat', ⟨node, hnode, by rwa [if_neg hkind]⟩, hbelow⟩

theorem flattenGiven_flat (hd : d.Forest) : ∀ {given : List (String × NodeId)} {t : Stage} {u : Unit}
    {st' : Store × Flattening}, Flat d t →
    (∀ entry ∈ given, d.definitions.get? entry.1 = some entry.2) →
    flattenGiven given t.state = .ok u st' →
    ∃ t', t'.state = st' ∧ t.Le t' ∧ Flat d t' ∧ ∀ entry ∈ given, entry.1 ∈ t'.flat.hoisted
  | [], t, _, _, hflat, _, h => by
    obtain ⟨-, rfl⟩ := Pass.pure_eq_ok.1 h
    exact ⟨t, rfl, .refl t, hflat, by simp⟩
  | (name, body) :: given, t, u, st', hflat, hgiven, h => by
    have hbody := hgiven (name, body) List.mem_cons_self
    have hrest : ∀ entry ∈ given, d.definitions.get? entry.1 = some entry.2 :=
      fun entry hentry => hgiven entry (List.mem_cons_of_mem _ hentry)
    obtain ⟨f, mid, hown, h⟩ := Pass.bind_eq_ok.1 h
    obtain ⟨rfl, rfl⟩ := Pass.own_eq_ok.1 hown
    -- in both cases the name is hoisted before the others are looked at
    suffices hstep : ∃ t₁, t.Le t₁ ∧ Flat d t₁ ∧ name ∈ t₁.flat.hoisted ∧
        flattenGiven given t₁.state = .ok u st' by
      obtain ⟨t₁, hle, hflat₁, hname, h⟩ := hstep
      obtain ⟨t₂, hstate, hle', hflat₂, hall⟩ := flattenGiven_flat hd hflat₁ hrest h
      refine ⟨t₂, hstate, hle.trans hle', hflat₂, fun entry hentry => ?_⟩
      rcases List.mem_cons.1 hentry with rfl | hentry
      · exact hle'.hoisted _ hname
      · exact hall entry hentry
    split at h
    · rename_i hname
      exact ⟨t, .refl t, hflat, hname, h⟩
    · obtain ⟨x, mid, hflatten, h⟩ := Pass.bind_eq_ok.1 h
      obtain ⟨_, last, hsettle, h⟩ := Pass.bind_eq_ok.1 h
      cases Pass.modifyOwn_eq_ok.1 hsettle
      obtain ⟨t₁, rfl, hle, hflat₁, himage, hbelow⟩ :=
        bodyImage_flattenBody hd hflat hbody hflatten
      by_cases hname : name ∈ t₁.flat.hoisted
      · refine ⟨t₁, hle, hflat₁, hname, ?_⟩
        simpa [Flattening.settle, Stage.state, hname] using h
      · have hflat₂ : Flat d (t₁.hoist name x) :=
          hflat₁.hoist (.inr ⟨body, hbody, himage, hbelow⟩)
        refine ⟨t₁.hoist name x, hle.trans (t₁.le_hoist name x), hflat₂,
          t₁.mem_hoisted_hoist name x, ?_⟩
        simpa [Flattening.settle, Stage.state, Stage.hoist, hname] using h

/-! ### The pass -/

/-- What the whole pass leaves: `root` is the image of the document's root, and the names of the
given definitions and of all parts of the root were hoisted. -/
structure Flattened (d : Document) (t : Stage) (root : NodeId) : Prop where
  flat : Flat d t
  image : d.store.Image t.origin d.root root
  settled : ∀ name body, d.definitions.get? name = some body → name ∈ t.flat.hoisted
  hoists : d.Hoists t.flat d.root

/-- **What flattening a document does.** -/
theorem flattened_of_flattenReferences {σ : Type} (hd : d.Forest) {own : σ} {root : NodeId}
    {definitions : Definitions} {st' : Store × σ}
    (h : flattenReferences d.root d.definitions (d.store, own) = .ok (root, definitions) st') :
    ∃ t, Flattened d t root ∧ t.store = st'.1 ∧ t.flat.definitions = definitions ∧ st'.2 = own := by
  obtain ⟨⟨flat, f⟩, mid, hwithin, h⟩ := Pass.bind_eq_ok.1 h
  obtain ⟨⟨⟩, rfl⟩ := Pass.pure_eq_ok.1 h
  obtain ⟨hrun, hown⟩ := Pass.within_eq_ok.1 hwithin
  obtain ⟨x, mid', hroot, hrun⟩ := Pass.bind_eq_ok.1 hrun
  obtain ⟨_, last, hgiven, hrun⟩ := Pass.bind_eq_ok.1 hrun
  obtain ⟨rfl, rfl⟩ := Pass.pure_eq_ok.1 hrun
  obtain ⟨t₁, rfl, -, hflat₁, himage, hhoists⟩ := visits_walk hd ⟨d.store,
    { definitions := d.definitions }, fun _ => none⟩ d.root x mid' (.start d)
    ⟨⟨d.root, .inl rfl, .refl⟩, .inl rfl⟩ hroot
  obtain ⟨t₂, hstate, hle, hflat₂, hall⟩ := flattenGiven_flat hd hflat₁
    (fun entry hentry => OrderedMap.mem_entries_iff.1 hentry) hgiven
  obtain ⟨hstore, hf⟩ := Prod.mk.inj hstate
  refine ⟨t₂, ⟨hflat₂, himage.mono hle.origin, fun name body hbody => ?_,
    hhoists.mono hle.hoisted⟩, hstore, by rw [hf], hown⟩
  exact hall (name, body) (OrderedMap.mem_entries_iff.2 hbody)

end SchemaGraph
