import SchemaGraph.Proofs.Growth
import SchemaGraph.Proofs.Gather.Written
import SchemaGraph.Proofs.Flatten.Registry
import SchemaGraph.Proofs.Flatten.Separation

/-!
Names that are declared again. Collecting definitions keeps the last declaration of a name in
pre-order. Flattening keeps the last one in post-order, since a body is flat before it is hoisted. The
two are the same node unless a name is declared inside a declaration of it: then the definitions that
are collected have the inner node, and flattening hoists the one around it.

* `Store.Orders` — the nodes of some trees in pre-order and in post-order;
* `Store.Orders.encloses` — of the nodes with a property the last one in post-order is the outermost
  around the last one in pre-order;
* `Document.flattenReferences_outermost` — **flattening gives each collected name its outermost
  declaration around the collected node**;
* `echoedDocument_hoists_other` — a document whose collected definitions have another body.
-/

namespace SchemaGraph

/-- The children of a `definitions` node: those that it lists, its inner schema and what is
attached. -/
theorem Node.orderedChildren_definitions {node : Node} {inner : NodeId}
    (hfits : node.misfit? .definitions = none) (hinner : node.innerSchema? = some inner) :
    node.orderedChildren .definitions =
      node.listedDefinitions ++ [inner] ++ node.serialization.toList := by
  have hlisted : idsAt node.children ⟨Key.definitions, .many, .none⟩ = node.listedDefinitions := by
    unfold idsAt listedDefinitions
    cases hchild : node.children.get? Key.definitions with
    | none => rfl
    | some child =>
      obtain ⟨slot, hslot, hshape⟩ := fits_iff.1 hfits _ _ hchild
      cases hslot
      cases child with
      | many ids => rfl
      | _ => cases hshape
  have hschema : idsAt node.children ⟨Key.inner, .one, .none⟩ = [inner] := by
    unfold innerSchema? at hinner
    unfold idsAt
    cases hchild : node.children.get? Key.inner with
    | none => simp [hchild] at hinner
    | some child =>
      rw [hchild] at hinner
      cases child with
      | one id =>
        cases hinner
        rfl
      | _ => cases hinner
  simp only [orderedChildren_eq, Kind.slots, List.flatMap_cons, List.flatMap_nil, List.append_nil,
    hlisted, hschema]

/-! ### Two orders -/

namespace Store

/-- `pre` lists the nodes of the trees at `ids` in pre-order, and `post` in post-order. -/
inductive Orders (s : Store) : (ids pre post : List NodeId) → Prop where
  | nil : Orders s [] [] []
  | cons {id : NodeId} {kids ids pre post pre' post' : List NodeId}
      (hkids : s.childIds id = .ok kids) (hbelow : Orders s kids pre post)
      (hrest : Orders s ids pre' post') :
      Orders s (id :: ids) (id :: (pre ++ pre')) (post ++ id :: post')

variable {s s' : Store} {P : Node → Prop} {p : NodeId → Bool} {root id x y : NodeId}
  {ids others pre post : List NodeId} {name : String} {log : List (String × NodeId)}

theorem exists_orders {depth : Nat} : ∀ {ids : List NodeId},
    (∀ id ∈ ids, s.Grounded P id ∧ s.Reach depth id) →
      ∃ post, s.Orders ids (ids.flatMap (s.treeWithin depth)) post := by
  induction depth with
  | zero =>
    intro ids h
    cases ids with
    | nil => exact ⟨[], .nil⟩
    | cons id ids => exact absurd (h id List.mem_cons_self).2 not_reach_zero
  | succ depth ih =>
    intro ids
    induction ids with
    | nil => exact fun _ => ⟨[], .nil⟩
    | cons id ids ihrest =>
      intro h
      obtain ⟨hid, hreach⟩ := h id List.mem_cons_self
      obtain ⟨kids, hkids, hgrounded⟩ := hid.childIds
      obtain ⟨below, hbelow⟩ :=
        ih fun child hchild => ⟨hgrounded child hchild, hreach.child ⟨kids, hkids, hchild⟩⟩
      obtain ⟨later, hlater⟩ := ihrest fun x hx => h x (List.mem_cons_of_mem _ hx)
      refine ⟨below ++ id :: later, ?_⟩
      rw [List.flatMap_cons, treeWithin_succ hkids, List.cons_append]
      exact .cons hkids hbelow hlater

theorem exists_orders_of_preorder (h : s.preorder root = .ok pre) :
    ∃ post, s.Orders [root] pre post := by
  have hg := grounded_iff.2 ⟨pre, h⟩
  rw [hg.preorder_eq] at h
  cases h
  rw [← List.flatMap_singleton (s.treeWithin s.depthLimit)]
  apply exists_orders
  intro id hid
  rw [List.mem_singleton.1 hid]
  exact ⟨hg, hg.reach_depthLimit⟩

namespace Orders

theorem perm (h : s.Orders ids pre post) : post.Perm pre := by
  induction h with
  | nil => exact .nil
  | cons _ _ _ ihbelow ihrest =>
    exact List.perm_middle.trans ((ihbelow.append ihrest).cons _)

theorem mem_iff (h : s.Orders ids pre post) : x ∈ pre ↔ ∃ id ∈ ids, s.Below id x := by
  induction h with
  | nil => simp
  | @cons id kids ids pre post pre' post' hkids _ _ ihbelow ihrest =>
    have hid : s.Below id x ↔ x = id ∨ ∃ child ∈ kids, s.Below child x := by
      rw [below_iff]
      constructor
      · rintro (rfl | ⟨ids, hids, hchild⟩)
        · exact .inl rfl
        · rw [hkids] at hids
          cases hids
          exact .inr hchild
      · rintro (rfl | hchild)
        · exact .inl rfl
        · exact .inr ⟨kids, hkids, hchild⟩
    simp only [List.mem_cons, List.mem_append, ihbelow, ihrest, exists_eq_or_imp, hid, or_assoc]

theorem append_inv : ∀ {ids : List NodeId} {pre post : List NodeId},
    s.Orders (ids ++ others) pre post → ∃ pre₁ post₁ pre₂ post₂, s.Orders ids pre₁ post₁ ∧
      s.Orders others pre₂ post₂ ∧ pre = pre₁ ++ pre₂ ∧ post = post₁ ++ post₂
  | [], pre, post, h => ⟨[], [], pre, post, .nil, h, rfl, rfl⟩
  | id :: ids, _, _, h => by
    cases h with
    | @cons _ kids _ pre post _ _ hkids hbelow hrest =>
      obtain ⟨pre₁, post₁, pre₂, post₂, h₁, h₂, rfl, rfl⟩ := hrest.append_inv
      refine ⟨_, _, pre₂, post₂, .cons hkids hbelow h₁, h₂, ?_, ?_⟩
      · simp only [List.cons_append, List.append_assoc]
      · simp only [List.cons_append, List.append_assoc]

end Orders

/-! ### The last node with a property -/

theorem find?_reverse_append (p : NodeId → Bool) (xs ys : List NodeId) :
    (xs ++ ys).reverse.find? p = (ys.reverse.find? p).or (xs.reverse.find? p) := by
  rw [List.reverse_append, List.find?_append]

theorem find?_reverse_cons (p : NodeId → Bool) (x : NodeId) (xs : List NodeId) :
    (x :: xs).reverse.find? p = (xs.reverse.find? p).or (if p x then some x else none) := by
  rw [List.reverse_cons, List.find?_append]
  congr 1
  by_cases h : p x <;> simp [h]

theorem find?_reverse_eq_none {xs : List NodeId} :
    xs.reverse.find? p = none ↔ ∀ x ∈ xs, ¬ p x = true := by
  simp

theorem exists_find?_reverse {xs : List NodeId} (hx : x ∈ xs) (hp : p x = true) :
    ∃ last, xs.reverse.find? p = some last := by
  cases h : xs.reverse.find? p with
  | none => exact absurd hp (find?_reverse_eq_none.1 h x hx)
  | some last => exact ⟨last, rfl⟩

theorem of_find?_reverse {xs : List NodeId} (h : xs.reverse.find? p = some x) :
    x ∈ xs ∧ p x = true :=
  ⟨List.mem_reverse.1 (List.mem_of_find?_eq_some h), List.find?_some h⟩

/-- **The last in post-order is the outermost around the last in pre-order.** In trees without shared
nodes, of the nodes with a property, the last one in post-order leads to the last one in pre-order, and
every other one that does lies below it. -/
theorem Orders.encloses (hun : s.Unshared root) (hg : s.Grounded P root)
    (h : s.Orders ids pre post) (hbelow : ∀ id ∈ ids, s.Below root id)
    (hapart : ids.Pairwise fun a b => ∀ x, s.Below a x → ¬ s.Below b x)
    (hx : pre.reverse.find? p = some x) (hy : post.reverse.find? p = some y) :
    s.Below y x ∧
      ∀ z, (∃ id ∈ ids, s.Below id z) → p z = true → s.Below z x → s.Below y z := by
  induction h generalizing x y with
  | nil => cases hx
  | @cons id kids ids pre post pre' post' hkids hfirst hlater ihfirst ihlater =>
    obtain ⟨hdisjoint, hapart⟩ := List.pairwise_cons.1 hapart
    have hid := hbelow id List.mem_cons_self
    have hchild : ∀ child ∈ kids, s.IsChild id child := fun child hmem => ⟨kids, hkids, hmem⟩
    rw [find?_reverse_append, find?_reverse_cons] at hy
    rw [find?_reverse_cons, find?_reverse_append] at hx
    cases hlast : post'.reverse.find? p with
    | some last =>
      -- both are in the later trees
      obtain ⟨hmem, hp⟩ := of_find?_reverse hlast
      obtain ⟨last', hlast'⟩ := exists_find?_reverse (hlater.perm.mem_iff.1 hmem) hp
      obtain rfl : last = y := by simpa [hlast] using hy
      obtain rfl : last' = x := by simpa [hlast'] using hx
      obtain ⟨hyx, houter⟩ := ihlater (fun x hx => hbelow x (List.mem_cons_of_mem _ hx)) hapart
        hlast' hlast
      refine ⟨hyx, fun z hz hpz hzx => ?_⟩
      obtain ⟨top, htop, hz⟩ := hz
      rcases List.mem_cons.1 htop with rfl | htop
      · obtain ⟨other, hother, hmem⟩ := hlater.mem_iff.1 (of_find?_reverse hlast').1
        exact absurd hmem (hdisjoint other hother _ (hz.trans hzx))
      · exact houter z ⟨top, htop, hz⟩ hpz hzx
    | none =>
      have hnone := find?_reverse_eq_none.1 hlast
      have hlast' : pre'.reverse.find? p = none :=
        find?_reverse_eq_none.2 fun z hz => hnone z (hlater.perm.mem_iff.2 hz)
      have hhere : ∀ z, (∃ x ∈ id :: ids, s.Below x z) → p z = true → s.Below id z := by
        rintro z ⟨top, htop, hz⟩ hpz
        rcases List.mem_cons.1 htop with rfl | htop
        · exact hz
        · have hmem := hlater.perm.mem_iff.2 (hlater.mem_iff.2 ⟨top, htop, hz⟩)
          exact absurd hpz (hnone z hmem)
      rw [hlast, Option.none_or] at hy
      rw [hlast', Option.none_or] at hx
      by_cases hp : p id = true
      · -- the node itself comes after all below it
        obtain rfl : id = y := by simpa [hp] using hy
        refine ⟨?_, fun z hz hpz _ => hhere z hz hpz⟩
        cases hbefore : pre.reverse.find? p with
        | none =>
          obtain rfl : id = x := by simpa [hbefore, hp] using hx
          exact .refl
        | some last =>
          obtain rfl : last = x := by simpa [hbefore] using hx
          obtain ⟨child, hmem, hlast⟩ := hfirst.mem_iff.1 (of_find?_reverse hbefore).1
          exact .head (hchild child hmem) hlast
      · -- both are below the node
        have hx : pre.reverse.find? p = some x := by simpa [hp] using hx
        have hy : post.reverse.find? p = some y := by simpa [hp] using hy
        obtain ⟨hyx, houter⟩ := ihfirst (fun child hmem => hid.tail (hchild child hmem))
          (hun.pairwise_disjoint hg hid hkids) hx hy
        refine ⟨hyx, fun z hz hpz hzx => ?_⟩
        rcases below_iff.1 (hhere z hz hpz) with rfl | ⟨kids', hkids', hz⟩
        · exact absurd hpz hp
        · rw [hkids] at hkids'
          cases hkids'
          exact houter z hz hpz hzx

/-! ### Named nodes in order -/

def bears (s : Store) (name : String) (id : NodeId) : Bool :=
  decide ((s.get? id).bind Node.name = some name)

theorem bears_iff : s.bears name id = true ↔ ∃ node, s.get? id = some node ∧ node.name = some name := by
  simp [bears, Option.bind_eq_some_iff]

def namedAmong (s : Store) (ids : List NodeId) : List (String × NodeId) :=
  ids.filterMap fun id => ((s.get? id).bind Node.name).map fun name => (name, id)

theorem namedAmong_append (xs ys : List NodeId) :
    s.namedAmong (xs ++ ys) = s.namedAmong xs ++ s.namedAmong ys := List.filterMap_append

theorem namedAmong_cons {node : Node} (hnode : s.get? id = some node) (ids : List NodeId) :
    s.namedAmong (id :: ids) =
      (node.name.map fun name => (name, id)).toList ++ s.namedAmong ids := by
  cases hname : node.name <;> simp [namedAmong, hnode, hname]

theorem find?_namedAmong (s : Store) (name : String) : ∀ ids : List NodeId,
    Entries.find? name (s.namedAmong ids) = ids.find? (s.bears name)
  | [] => rfl
  | id :: ids => by
    have ih := find?_namedAmong s name ids
    unfold namedAmong at ih ⊢
    rw [List.filterMap_cons, List.find?_cons]
    cases hname : (s.get? id).bind Node.name with
    | none => simpa [bears, hname] using ih
    | some other =>
      by_cases e : other = name
      · simp [bears, hname, e, Entries.find?]
      · simpa [bears, hname, e, Entries.find?] using ih

/-- The last entry of a name belongs to the last node that bears it. -/
theorem find?_namedAmong_reverse (s : Store) (name : String) (ids : List NodeId) :
    Entries.find? name (s.namedAmong ids).reverse = ids.reverse.find? (s.bears name) := by
  rw [← find?_namedAmong, namedAmong, namedAmong, List.filterMap_reverse]

/-- Where each `definitions` node has no more than its list and its inner schema, the log is the
post-order. -/
theorem Logs.eq_namedAmong (h : s'.Logs ids log) (hext : s.Extends s')
    (hplain : ∀ id node, s.get? id = some node → node.kind? = some .definitions →
      node.name = none ∧ node.serialization = none)
    (horders : s.Orders ids pre post) : log = s.namedAmong post := by
  induction h generalizing pre post with
  | nil =>
    cases horders
    rfl
  | dissolve hnode hkind hinner _ _ _ ihlisted ihwithin ihlater =>
    cases horders with
    | cons hkids hbelow hrest =>
      obtain ⟨node, kind, hold, hkind', hfits, rfl⟩ := childIds_eq_ok.1 hkids
      cases hnode.symm.trans (hext.get?_of_some hold)
      cases hkind.symm.trans hkind'
      obtain ⟨hname, hserialization⟩ := hplain _ _ hold hkind
      rw [Node.orderedChildren_definitions hfits hinner, hserialization, Option.toList_none,
        List.append_nil] at hbelow
      obtain ⟨_, post₁, _, post₂, hlisted, hwithin, -, rfl⟩ := hbelow.append_inv
      rw [namedAmong_append, namedAmong_append, namedAmong_cons hold, hname, ihlisted hlisted,
        ihwithin hwithin, ihlater hrest]
      rfl
  | leave hnode hkind _ _ _ ihbelow ihlater =>
    cases horders with
    | cons hkids hbelow hrest =>
      obtain ⟨node, kind, hold, hkind', -, rfl⟩ := childIds_eq_ok.1 hkids
      cases hnode.symm.trans (hext.get?_of_some hold)
      cases hkind.symm.trans hkind'
      rw [namedAmong_append, namedAmong_cons hold, ihbelow hbelow, ihlater hrest, List.append_assoc]

/-! ### The outermost declaration -/

/-- `y` is the outermost declaration of the name around the node at `x` in the tree at `root`: it leads
to `x`, and so does no other declaration but those below it. -/
structure Outermost (s : Store) (root : NodeId) (name : String) (x y : NodeId) : Prop where
  below : s.Below root y
  bears : s.bears name y = true
  around : s.Below y x
  outermost : ∀ z, s.Below root z → s.bears name z = true → s.Below z x → s.Below y z

/-- A declaration that lies inside no other is its own outermost one. -/
theorem Outermost.eq_of_alone (h : s.Outermost root name x y)
    (halone : ∀ z, s.Below root z → s.bears name z = true → s.Below z x → z = x) : y = x :=
  halone y h.below h.bears h.around

theorem LogsGiven.eq_of_names {given all : List (String × NodeId)} (h : s.LogsGiven given log all)
    (hnames : ∀ entry ∈ given, entry.1 ∈ Entries.names log) : all = log := by
  induction h with
  | nil log => rfl
  | found _ _ ih => exact ih fun entry hentry => hnames entry (List.mem_cons_of_mem _ hentry)
  | settle hname => exact absurd (hnames _ List.mem_cons_self) hname

end Store

namespace OrderedMap

variable {α : Type}

theorem get?_insertMany_eq (key : String) : ∀ (entries : List (String × α)) (m : OrderedMap α),
    (m.insertMany entries).get? key = (Entries.find? key entries.reverse).or (m.get? key)
  | [], m => rfl
  | (name, value) :: rest, m => by
    have ih := get?_insertMany_eq key rest (m.insert name value)
    have hlast : Entries.find? key (rest.reverse ++ [(name, value)]) =
        (Entries.find? key rest.reverse).or (if name = key then some value else none) := by
      induction rest.reverse with
      | nil => rfl
      | cons entry others ih' =>
        simp only [List.cons_append, Entries.find?, ih']
        split <;> rfl
    rw [insertMany, List.foldl_cons]
    rw [insertMany] at ih
    rw [ih, get?_insert, List.reverse_cons, hlast, Option.or_assoc]
    congr 1
    by_cases e : name = key
    · simp [e]
    · simp [e, Ne.symm e]

theorem get?_ofList (entries : List (String × α)) (key : String) :
    (ofList entries).get? key = Entries.find? key entries.reverse := by
  rw [ofList, get?_insertMany_eq, get?_empty, Option.or_none]

end OrderedMap

/-! ### Documents -/

/-- The same kind, attributes and metadata. -/
structure Node.SameContent (node other : Node) : Prop where
  tag : other.tag = node.tag
  attrs : other.attrs = node.attrs
  metadata : other.metadata = node.metadata

theorem Node.Alike.sameContent {R : NodeId → NodeId → Prop} {node other : Node}
    (h : node.Alike R other) : node.SameContent other where
  tag := h.tag_eq
  attrs := (congrArg Node.attrs h.content :)
  metadata := h.metadata_eq

namespace Document

variable {value : Json} {d : Document}

/-- No `definitions` node bears a name or has a serialization attached. -/
def PlainDefinitions (d : Document) : Prop :=
  ∀ id node, d.store.get? id = some node → node.kind? = some .definitions →
    node.name = none ∧ node.serialization = none

theorem plainDefinitions_iff {d : Document} : d.PlainDefinitions ↔
    ∀ node ∈ d.store.nodes.toList, node.kind? = some .definitions →
      node.name = none ∧ node.serialization = none :=
  Store.forall_get?_iff

instance (d : Document) : Decidable d.PlainDefinitions :=
  decidable_of_iff _ plainDefinitions_iff.symm

/-- **Flattening gives each collected name its outermost declaration.** In a document that brings no
definitions along and whose `definitions` nodes are plain, each name that it declares has, among the
definitions that flattening returns, a body with the kind, the attributes and the metadata of the
outermost declaration of the name around the node that was collected. That is the collected node
itself unless it lies inside another declaration of the name. -/
theorem flattenReferences_outermost {σ : Type} {own : σ} {flat : NodeId} {all : Definitions}
    {st' : Store × σ} (hd : ofJson value = .ok d) (hgiven : ¬ GivesDefinitions value)
    (hplain : d.PlainDefinitions)
    (h : flattenReferences d.root d.definitions (d.store, own) = .ok (flat, all) st') :
    ∀ name x, d.definitions.get? name = some x →
      ∃ y node body other, d.store.Outermost d.root name x y ∧ d.store.get? y = some node ∧
        all.get? name = some body ∧ st'.1.get? body = some other ∧ node.SameContent other ∧
        ((∀ z, d.store.Below d.root z → d.store.bears name z = true → d.store.Below z x → z = x) →
          y = x) := by
  obtain ⟨hext, log, hlog, hregistry⟩ := flattenReferences_registry h
  obtain ⟨first, hfirst, hrest⟩ := (hlog log).2 rfl
  obtain ⟨declared, hdeclared, hall⟩ := bind_eq_ok.1 (collected_of_ofJson hd hgiven)
  obtain ⟨ids, hids, hnamed⟩ := bind_eq_ok.1 hdeclared
  obtain rfl : d.store.namedAmong ids = declared := pure_eq_ok.1 hnamed
  obtain ⟨post, horders⟩ := Store.exists_orders_of_preorder hids
  have hpost : first = d.store.namedAmong post := hfirst.eq_namedAmong hext hplain horders
  have hlast : ∀ name, d.definitions.get? name = ids.reverse.find? (d.store.bears name) := by
    intro name
    rw [← pure_eq_ok.1 hall, OrderedMap.get?_ofList, Store.find?_namedAmong_reverse]
  have hlogged : ∀ name x, d.definitions.get? name = some x →
      ∃ y, Entries.find? name first.reverse = some y ∧
        post.reverse.find? (d.store.bears name) = some y := by
    intro name x hx
    obtain ⟨hmem, hbears⟩ := Store.of_find?_reverse ((hlast name).symm.trans hx)
    obtain ⟨y, hy⟩ := Store.exists_find?_reverse (horders.perm.mem_iff.2 hmem) hbears
    exact ⟨y, by rw [hpost, Store.find?_namedAmong_reverse, hy], hy⟩
  -- all given names are declared in the tree, so nothing is hoisted after it
  obtain rfl : log = first := hrest.eq_of_names fun entry hentry => by
    obtain ⟨y, hy, -⟩ := hlogged entry.1 entry.2 (OrderedMap.mem_entries_iff.1 hentry)
    exact Entries.mem_names_of_find?_reverse hy
  intro name x hx
  obtain ⟨y, hhoisted, hy⟩ := hlogged name x hx
  have hg := Store.grounded_iff.2 ⟨ids, hids⟩
  have hunshared := unshared_of_ofJson hd d.root
  have hx := (hlast name).symm.trans hx
  obtain ⟨hyx, houter⟩ := Store.Orders.encloses hunshared hg horders
    (fun id hid => by rw [List.mem_singleton.1 hid]; exact .refl) (List.pairwise_singleton _ _) hx hy
  have hroot : d.store.Below d.root y := by
    obtain ⟨hmem, -⟩ := Store.of_find?_reverse hy
    exact (Store.mem_preorder hids).1 (horders.perm.mem_iff.1 hmem)
  have houtermost : d.store.Outermost d.root name x y :=
    { below := hroot
      bears := (Store.of_find?_reverse hy).2
      around := hyx
      outermost := fun z hz => houter z ⟨d.root, List.mem_singleton.2 rfl, hz⟩ }
  obtain ⟨body, hbody, ⟨node, other, hnode, -, hother, halike⟩, -⟩ :=
    hregistry.hoisted name y hhoisted
  obtain ⟨old, hold, -⟩ := Store.bears_iff.1 houtermost.bears
  obtain rfl : node = old := Option.some.inj (hnode.symm.trans (hext.get?_of_some hold))
  exact ⟨y, node, body, other, houtermost, hold, hbody, hother, halike.sameContent,
    houtermost.eq_of_alone⟩

/-- `A` is declared next to and inside another declaration of it, `B` inside one of `A`, and `C` in a
list of definitions. -/
def repeatedValue : Json :=
  .object [("type", .text "tuple"), ("items_schema", .list [
    .object [("type", .text "int"), ("ref", .text "A")],
    .object [("type", .text "list"), ("ref", .text "A"), ("items_schema",
      .object [("type", .text "tuple"), ("items_schema", .list [
        .object [("type", .text "str"), ("ref", .text "A")],
        .object [("type", .text "bool"), ("ref", .text "B")]])])],
    .object [("type", .text "definitions"),
      ("definitions", .list [.object [("type", .text "float"), ("ref", .text "C")]]),
      ("schema", .object [("type", .text "definition-ref"), ("schema_ref", .text "C")])]])]

def repeatedDocument : Document where
  store := ⟨#[
    (Node.ofKind .int).withName "A",
    (Node.ofKind .str).withName "A",
    (Node.ofKind .bool).withName "B",
    (Node.ofKind .tuple).withChild "items_schema" (.many [⟨1⟩, ⟨2⟩]),
    ((Node.ofKind .list).withChild "items_schema" (.one ⟨3⟩)).withName "A",
    (Node.ofKind .float).withName "C",
    .reference "C",
    ((Node.ofKind .definitions).withChild Key.definitions (.many [⟨5⟩])).withChild Key.inner (.one ⟨6⟩),
    (Node.ofKind .tuple).withChild "items_schema" (.many [⟨0⟩, ⟨4⟩, ⟨7⟩])]⟩
  root := ⟨8⟩
  definitions := .ofList [("A", ⟨1⟩), ("B", ⟨2⟩), ("C", ⟨5⟩)]

def repeatedResult : Store := ⟨repeatedDocument.store.nodes ++ #[
  .reference "A",
  .reference "A",
  .reference "B",
  (Node.ofKind .tuple).withChild "items_schema" (.many [⟨10⟩, ⟨11⟩]),
  ((Node.ofKind .list).withChild "items_schema" (.one ⟨12⟩)).withName "A",
  .reference "A",
  .reference "C",
  (Node.ofKind .tuple).withChild "items_schema" (.many [⟨9⟩, ⟨14⟩, ⟨6⟩])]⟩

theorem ofJson_repeatedValue : ofJson repeatedValue = .ok repeatedDocument := by decide +kernel

theorem flattenReferences_repeatedDocument :
    flattenReferences repeatedDocument.root repeatedDocument.definitions
        (repeatedDocument.store, ()) =
      .ok (⟨16⟩, .ofList [("A", ⟨13⟩), ("B", ⟨2⟩), ("C", ⟨5⟩)]) (repeatedResult, ()) := by
  decide +kernel

/-- Of the three declarations of `A` the last one is collected, and the list around it is hoisted. -/
theorem repeatedDocument_outermost :
    repeatedDocument.PlainDefinitions ∧
      ∀ name x, repeatedDocument.definitions.get? name = some x →
        ∃ y node body other, repeatedDocument.store.Outermost repeatedDocument.root name x y ∧
          repeatedDocument.store.get? y = some node ∧
          (OrderedMap.ofList [("A", ⟨13⟩), ("B", ⟨2⟩), ("C", ⟨5⟩)]).get? name = some body ∧
          repeatedResult.get? body = some other ∧ node.SameContent other := by
  have hplain : repeatedDocument.PlainDefinitions := by decide +kernel
  refine ⟨hplain, fun name x hx => ?_⟩
  obtain ⟨y, node, body, other, houtermost, hnode, hbody, hother, hsame, -⟩ :=
    flattenReferences_outermost ofJson_repeatedValue (by decide +kernel) hplain
      flattenReferences_repeatedDocument name x hx
  exact ⟨y, node, body, other, houtermost, hnode, hbody, hother, hsame⟩

/-- A list whose items bear the name that it bears itself. -/
def echoedValue : Json :=
  .object [("type", .text "list"), ("ref", .text "A"),
    ("items_schema", .object [("type", .text "int"), ("ref", .text "A")])]

def echoedDocument : Document where
  store := ⟨#[
    (Node.ofKind .int).withName "A",
    ((Node.ofKind .list).withChild "items_schema" (.one ⟨0⟩)).withName "A"]⟩
  root := ⟨1⟩
  definitions := .ofList [("A", ⟨0⟩)]

def echoedResult : Store := ⟨echoedDocument.store.nodes ++ #[
  .reference "A",
  ((Node.ofKind .list).withChild "items_schema" (.one ⟨2⟩)).withName "A",
  .reference "A"]⟩

/-- The collected body of `A` is the integer inside, the hoisted one is the list, which then refers to
itself. -/
theorem echoedDocument_hoists_other :
    ofJson echoedValue = .ok echoedDocument ∧ ¬ GivesDefinitions echoedValue ∧
      echoedDocument.PlainDefinitions ∧
      ∃ all, flattenReferences echoedDocument.root echoedDocument.definitions
          (echoedDocument.store, ()) = .ok (⟨4⟩, all) (echoedResult, ()) ∧
        ∃ x node body other, echoedDocument.definitions.get? "A" = some x ∧
          echoedDocument.store.get? x = some node ∧ all.get? "A" = some body ∧
          echoedResult.get? body = some other ∧ ¬ node.SameContent other := by
  refine ⟨by decide +kernel, by decide +kernel, by decide +kernel, .ofList [("A", ⟨3⟩)],
    by decide +kernel, ⟨0⟩, _, ⟨3⟩, _, rfl, rfl, rfl, rfl, fun hsame => ?_⟩
  exact absurd hsame.tag (by decide)

end Document

end SchemaGraph
