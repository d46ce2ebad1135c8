import SchemaGraph.Proofs.Children
import SchemaGraph.Proofs.Wire.Twins

/-!
Walks that rewrite every node. A visitor that goes to the children first and then adds what a function
makes of the node builds the image of a finite tree behind the nodes that are there. A shared node has
an image for each of its occurrences.

* `Store.Mapped` — the image of a tree: over the images of its children, each node is what the
  function makes of it;
* `Store.MappedJson` — the JSON of a tree with the function applied to each of its nodes;
* `rewrites_rewritingVisitor` — one visit gives an image if the visits of the children do;
* `rewriting_walk` — **a rewriting walk is the structural map**: it goes through, the image is new
  throughout, and it renders as the tree does with the function applied everywhere.
-/

namespace SchemaGraph

/-- Goes to the children, then adds what `g` makes of the node that came back. -/
def rewritingVisitor {σ : Type} (g : Node → Node) : Visitor σ := fun visit id => do
  let id ← mapChildren visit id
  let node ← Pass.node id
  Pass.insert (g node)

/-- The function leaves the children of a node and its serialization as they are. -/
structure KeepsLinks (g : Node → Node) : Prop where
  children : ∀ node, (g node).children = node.children
  serialization : ∀ node, (g node).serialization = node.serialization

/-- The function does not look at ids: what it makes of nodes that differ in their ids alone differs
in them alone. -/
def BlindToIds (g : Node → Node) : Prop :=
  ∀ node other : Node, node.SameFrame other → (g node).SameFrame (g other)

variable {g : Node → Node}

theorem KeepsLinks.storedIds_eq (hg : KeepsLinks g) (node : Node) :
    (g node).storedIds = node.storedIds := by
  rw [Node.storedIds, Node.storedIds, hg.children, hg.serialization]

namespace Store

def map (g : Node → Node) (s : Store) : Store := ⟨s.nodes.map g⟩

theorem get?_map (g : Node → Node) (s : Store) (id : NodeId) :
    (s.map g).get? id = (s.get? id).map g := by
  simp [map, get?]

theorem depthLimit_map (g : Node → Node) (s : Store) : (s.map g).depthLimit = s.depthLimit := by
  simp [depthLimit, map, size]

/-- `y` is a new node of `s'` that is the image of the tree at `x` in `s`: what `g` makes of the node
at `x` when images of its children and of its serialization have taken their places. -/
inductive Mapped (g : Node → Node) (s s' : Store) : NodeId → NodeId → Prop where
  | node {x y : NodeId} {node copy : Node} {R : NodeId → NodeId → Prop}
      (hnode : s.get? x = some node) (halike : node.Alike R copy)
      (himage : s'.get? y = some (g copy)) (hnew : s.size ≤ y.index)
      (hR : ∀ a b, R a b → Mapped g s s' a b) : Mapped g s s' x y

/-- `w` is the JSON of the tree at `x` with `g` applied throughout: the fields of what `g` makes of the
node at `x`, which it may be given with other ids, over such JSON of the children and of the
serialization. -/
inductive MappedJson (g : Node → Node) (s : Store) : NodeId → Json → Prop where
  | node {x : NodeId} {node copy : Node} {R : NodeId → Json → Prop} {children : List (String × Json)}
      {serialization : Option Json} (hnode : s.get? x = some node) (hcopy : node.SameFrame copy)
      (hshown : node.ShownAs R children serialization)
      (hR : ∀ a w, R a w → MappedJson g s a w) :
      MappedJson g s x
        (.object (OrderedMap.ofList ((g copy).fields children serialization)).entries)

variable {s s' t t' : Store} {x y z : NodeId} {P : Node → Prop}

namespace Mapped

theorem extends_ (h : s.Mapped g s' x y) (hext : s'.Extends t') : s.Mapped g t' x y := by
  induction h with
  | node hnode halike himage hnew _ ih =>
    exact .node hnode halike (hext.get?_of_some himage) hnew ih

/-! ### The image is new -/

theorem le_index (h : s.Mapped g s' x y) : s.size ≤ y.index := by
  cases h
  assumption

theorem of_holds (hg : KeepsLinks g) (h : s.Mapped g s' x y) (hz : s'.Holds y z) :
    ∃ a, s.Mapped g s' a z := by
  obtain ⟨_, halike, himage, -, hR⟩ := h
  obtain ⟨image, himage', hz⟩ := hz
  cases himage.symm.trans himage'
  rw [hg.storedIds_eq] at hz
  obtain ⟨a, -, haz⟩ := halike.exists_storedId hz
  exact ⟨a, hR a z haz⟩

/-- No node of an image was there before. -/
theorem le_index_of_path (hg : KeepsLinks g) (h : s.Mapped g s' x y)
    (hz : Relation.ReflTransGen s'.Holds y z) : s.size ≤ z.index := by
  have himage : ∃ a, s.Mapped g s' a z := by
    induction hz with
    | refl => exact ⟨x, h⟩
    | tail _ hstep ih =>
      obtain ⟨a, ha⟩ := ih
      exact ha.of_holds hg hstep
  obtain ⟨a, ha⟩ := himage
  exact ha.le_index

/-! ### What the image renders to -/

theorem exists_renderWithin (hg : KeepsLinks g) (h : s.Mapped g s' x y) :
    ∀ {depth : Nat}, s.Grounded P x → s.Reach depth x → ∃ w, s'.renderWithin depth y = .ok w := by
  induction h with
  | @node x y node copy R hnode halike himage _ _ ih =>
    intro depth hx hreach
    cases depth with
    | zero => exact absurd hreach not_reach_zero
    | succ depth =>
      have hshown : ∀ b ∈ (g copy).storedIds, ∃ w, s'.renderWithin depth b = .ok w := by
        intro b hb
        rw [hg.storedIds_eq] at hb
        obtain ⟨a, ha, hab⟩ := halike.exists_storedId hb
        have hheld : s.Holds x a := ⟨node, hnode, ha⟩
        exact ih a b hab (hx.of_holds hheld) (hreach.child (hx.isChild hheld))
      obtain ⟨children, serialization, hshown⟩ :=
        exists_shownAs (R := fun b w => s'.renderWithin depth b = .ok w) hshown
      exact ⟨_, Store.renderWithin_eq_ok.2 ⟨_, children, serialization, himage, hshown, rfl⟩⟩

/-- The image renders to the JSON of the tree with the function applied throughout. -/
theorem json (hg : KeepsLinks g) (h : s.Mapped g s' x y) :
    ∀ {depth : Nat} {w : Json}, s'.renderWithin depth y = .ok w → s.MappedJson g x w := by
  induction h with
  | @node x y node copy R hnode halike himage _ _ ih =>
    intro depth w hw
    cases depth with
    | zero => cases hw
    | succ depth =>
      obtain ⟨image, children, serialization, himage', hshown, rfl⟩ := renderWithin_eq_ok.1 hw
      cases himage.symm.trans himage'
      have hcopy : copy.ShownAs (fun b w => s'.renderWithin depth b = .ok w) children
          serialization := {
        children := by simpa only [hg.children] using hshown.children
        serialization := by simpa only [hg.serialization] using hshown.serialization }
      exact .node hnode (halike.mono fun _ _ _ => trivial)
        (halike.flip.shownAs hcopy fun b a w hab hb => ih a b hab hb) fun _ _ h => h

/-- The image is told by its ids alone from the tree with the function applied everywhere. -/
theorem twin (hg : KeepsLinks g) (hblind : BlindToIds g) (h : s.Mapped g s' x y) :
    s'.Twin (s.map g) y x := by
  induction h with
  | @node x y node copy R hnode halike himage _ _ ih =>
    have hnode' : (s.map g).get? x = some (g node) := by rw [get?_map, hnode]; rfl
    have hframe := hblind node copy (halike.mono fun _ _ _ => trivial)
    have halike' : (g node).Alike R (g copy) := {
      content := hframe.content
      keys := hframe.keys
      children := by simpa only [hg.children] using halike.children
      serialization := by simpa only [hg.serialization] using halike.serialization }
    exact .node himage hnode' halike'.flip fun b a hab => ih a b hab

end Mapped

end Store

/-! ### Visits -/

section Visits

variable {σ : Type} {own : σ} {visit : NodeId → Pass σ NodeId} {s t : Store} {x : NodeId}
  {P : Node → Prop}

/-- However much the store has grown, visiting `x` goes through and adds an image of the tree there. -/
def Rewrites (g : Node → Node) (s : Store) (own : σ) (visit : NodeId → Pass σ NodeId) (x : NodeId) :
    Prop :=
  ∀ t, s.Extends t → ∃ y t', visit x (t, own) = .ok y (t', own) ∧ t.Extends t' ∧
    s.Mapped g t' x y

theorem exists_images : ∀ {xs : List NodeId}, (∀ x ∈ xs, Rewrites g s own visit x) →
    ∀ t, s.Extends t → ∃ ys t', xs.mapM visit (t, own) = .ok ys (t', own) ∧ t.Extends t' ∧
      List.Forall₂ (s.Mapped g t') xs ys
  | [], _, t, _ => ⟨[], t, rfl, .refl t, .nil⟩
  | x :: xs, h, t, hext => by
    obtain ⟨y, mid, hvisit, hmid, himage⟩ := h x List.mem_cons_self t hext
    obtain ⟨ys, t', hvisits, hlast, himages⟩ :=
      exists_images (fun a ha => h a (List.mem_cons_of_mem _ ha)) mid (hext.trans hmid)
    refine ⟨y :: ys, t', ?_, hmid.trans hlast, .cons (himage.extends_ hlast) himages⟩
    rw [List.mapM_cons]
    exact Pass.bind_eq_ok.2 ⟨y, _, hvisit, Pass.bind_eq_ok.2 ⟨ys, _, hvisits, rfl⟩⟩

/-- Going to the children gives a node over their images. -/
theorem exists_copy_over_images (hx : s.Grounded P x)
    (hkids : ∀ child, s.Holds x child → Rewrites g s own visit child) (hext : s.Extends t) :
    ∃ node y copy t', s.get? x = some node ∧ mapChildren visit x (t, own) = .ok y (t', own) ∧
      t.Extends t' ∧ t'.get? y = some copy ∧ node.Alike (s.Mapped g t') copy := by
  cases hx with
  | @node _ node kind hnode hkind hfits _ _ =>
    have hvisits : ∀ child ∈ node.orderedChildren kind, Rewrites g s own visit child :=
      fun child hchild => hkids child ⟨node, hnode, (Node.mem_orderedChildren hfits).1 hchild⟩
    obtain ⟨ys, last, hcalls, hlast, himages⟩ := exists_images hvisits t hext
    have hshaped : t.wellShaped x = .ok (node, kind) :=
      Store.wellShaped_eq_ok.2 ⟨hext.get?_of_some hnode, hkind, hfits⟩
    have hnode' : last.get? x = some node := hlast.get?_of_some (hext.get?_of_some hnode)
    have hresult := mapChildren_eq_of_calls hshaped hcalls hnode'
    by_cases hsame : ys = node.orderedChildren kind
    · -- no child is its own image, so there are none here
      rw [if_pos hsame] at hresult
      subst hsame
      refine ⟨node, x, node, last, hnode, hresult, hlast, hnode', .refl fun child hchild => ?_⟩
      exact List.forall₂_same.1 himages child ((Node.mem_orderedChildren hfits).2 hchild)
    · rw [if_neg hsame] at hresult
      have hcopy := Store.extends_insert last (node.relink kind node ys)
      refine ⟨node, _, _, _, hnode, hresult, hlast.trans hcopy, Store.get?_insert_nextId _ _, ?_⟩
      exact (Node.alike_relink hfits himages).mono fun _ _ himage => himage.extends_ hcopy

/-- **One visit**: it gives an image if the visits of the children do. -/
theorem rewrites_rewritingVisitor (hx : s.Grounded P x)
    (hkids : ∀ child, s.Holds x child → Rewrites g s own visit child) :
    Rewrites g s own (rewritingVisitor g visit) x := by
  intro t hext
  obtain ⟨node, y, copy, mid, hnode, hmap, hmid, hcopy, halike⟩ :=
    exists_copy_over_images hx hkids hext
  have hinsert := Store.extends_insert mid (g copy)
  refine ⟨mid.nextId, mid.insert (g copy), ?_, hmid.trans hinsert, ?_⟩
  · refine Pass.bind_eq_ok.2 ⟨y, _, hmap, Pass.bind_eq_ok.2 ⟨copy, (mid, own), ?_, ?_⟩⟩
    · exact Pass.node_eq_ok.2 ⟨hcopy, rfl⟩
    · exact Pass.insert_eq_ok.2 ⟨rfl, rfl⟩
  · exact .node hnode (halike.mono fun _ _ himage => himage.extends_ hinsert)
      (Store.get?_insert_nextId _ _) (hext.trans hmid).size_le fun _ _ himage => himage

theorem rewrites_walkWithin : ∀ {depth : Nat} {x : NodeId}, s.Grounded P x → s.Reach depth x →
    Rewrites g s own ((rewritingVisitor g).walkWithin depth) x
  | 0, _, _, hreach => absurd hreach Store.not_reach_zero
  | _ + 1, _, hx, hreach => rewrites_rewritingVisitor hx fun _ hchild =>
    rewrites_walkWithin (hx.of_holds hchild) (hreach.child (hx.isChild hchild))

end Visits

/-! ### The walk -/

/-- **A rewriting walk is the structural map.** Where the walk in pre-order goes through, so does the
walk that goes to the children and then adds what `g` makes of the node. Its result is the image of the
tree, in which `g` is given each node with the images of its children and of its serialization in their
places. All nodes of the image are new, and the tree itself renders to what it rendered to. The image
renders to the JSON of the tree with `g` applied throughout. If `g` does not look at ids, this is what
the tree renders to with `g` applied to each node of the store; if `g` changes nothing, the image is a
deep copy that renders to the same. -/
theorem rewriting_walk (hg : KeepsLinks g) {s : Store} {root : NodeId} {ids : List NodeId}
    (hroot : s.preorder root = .ok ids) {σ : Type} (own : σ) :
    ∃ x s' v w, (rewritingVisitor g).walk root (s, own) = .ok x (s', own) ∧
      s.Mapped g s' root x ∧
      (∀ y, Relation.ReflTransGen s'.Holds x y → s.size ≤ y.index) ∧
      s.Extends s' ∧ s.render root = .ok v ∧ s'.render root = .ok v ∧
      s'.render x = .ok w ∧ s.MappedJson g root w ∧
      (BlindToIds g → (s.map g).render root = .ok w) ∧ ((∀ node, g node = node) → w = v) := by
  have hx := Store.grounded_iff.2 ⟨ids, hroot⟩
  have hrewrites : Rewrites g s own ((rewritingVisitor g).walkWithin s.depthLimit) root :=
    rewrites_walkWithin hx hx.reach_depthLimit
  obtain ⟨x, s', hwalk, hext, himage⟩ := hrewrites s (.refl s)
  obtain ⟨v, hv⟩ := hx.render
  obtain ⟨w, hw⟩ := himage.exists_renderWithin hg hx hx.reach_depthLimit
  have hlimit : s.depthLimit ≤ s'.depthLimit :=
    Nat.mul_le_mul (Nat.succ_le_succ hext.size_le) (Nat.succ_le_succ hext.size_le)
  have hmap : BlindToIds g → (s.map g).render root = .ok w := fun hblind => by
    rw [Store.render, Store.depthLimit_map]
    exact (himage.twin hg hblind).renderWithin hw
  refine ⟨x, s', v, w, hwalk, himage, fun y hy => himage.le_index_of_path hg hy, hext, hv,
    Store.renderWithin_le hlimit (hext.renderWithin_eq_ok hv), Store.renderWithin_le hlimit hw,
    himage.json hg hw, hmap, fun hid => ?_⟩
  obtain rfl : g = fun node => node := funext hid
  have hsame : s.map (fun node => node) = s := by simp [Store.map]
  have hcopy := hmap fun _ _ hframe => hframe
  rw [hsame, hv] at hcopy
  exact (Except.ok.inj hcopy).symm

/-- A tuple of a schema twice, which is its serialization too. -/
def tripleStore : Store := ⟨#[
  (Node.ofKind .int).withName "A",
  ((Node.ofKind .tuple).withChild "items_schema" (.many [⟨0⟩, ⟨0⟩])).withSerialization ⟨0⟩]⟩

def markSeen (node : Node) : Node := node.withAttr "seen" .null

/-- Behind the tuple an image for each of the three occurrences, a copy of the tuple over them, and the
image of the tuple. -/
def seenStore : Store :=
  let item := ((Node.ofKind .int).withName "A").withAttr "seen" .null
  let copy := ((Node.ofKind .tuple).withChild "items_schema" (.many [⟨2⟩, ⟨3⟩])).withSerialization ⟨4⟩
  ⟨tripleStore.nodes ++ #[item, item, item, copy, copy.withAttr "seen" .null]⟩

theorem seenStore_rewriting :
    (rewritingVisitor markSeen).walk ⟨1⟩ (tripleStore, ()) = .ok ⟨6⟩ (seenStore, ()) ∧
      tripleStore.Mapped markSeen seenStore ⟨1⟩ ⟨6⟩ ∧
      ∃ w, seenStore.render ⟨6⟩ = .ok w ∧ (tripleStore.map markSeen).render ⟨1⟩ = .ok w := by
  have hkeeps : KeepsLinks markSeen := ⟨fun _ => rfl, fun _ => rfl⟩
  have hblind : BlindToIds markSeen := fun node other hframe => {
    content := by
      rw [hframe.content]
      rfl
    keys := hframe.keys
    children := hframe.children
    serialization := hframe.serialization }
  have hroot : tripleStore.preorder ⟨1⟩ = .ok [⟨1⟩, ⟨0⟩, ⟨0⟩, ⟨0⟩] := by decide +kernel
  have hrun : (rewritingVisitor markSeen).walk ⟨1⟩ (tripleStore, ()) = .ok ⟨6⟩ (seenStore, ()) := by
    decide +kernel
  obtain ⟨x, s', _, w, hwalk, himage, -, -, -, -, hw, -, hmap, -⟩ := rewriting_walk hkeeps hroot ()
  cases hrun.symm.trans hwalk
  exact ⟨hrun, himage, w, hw, hmap hblind⟩

end SchemaGraph
