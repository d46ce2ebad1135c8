import SchemaGraph.Traversal.Discriminators
import SchemaGraph.Proofs.Simplify.Frame
import SchemaGraph.Proofs.Wire.Leftover

/-!
Handles stay valid. In any sequence of calls on a store, each of which goes through or fails on its
way, all nodes stay as they are but for those that a call is there to rewrite.

* `Call` — what can be done to a store; callbacks and visitors are arbitrary passes;
* `Call.Appends`, `Call.Rewrites` — the calls that only add nodes, and the nodes that the others
  may change;
* `calls_keep_nodes` — **appending calls keep all nodes, and each change has its call**.
-/

namespace SchemaGraph

open Pass (Moves OnlyInserts)

/-! ### One node -/

/-- The node at `id`, if it is in `s`, is the same in `s'`, which is no smaller. -/
structure Store.Spares (id : NodeId) (s s' : Store) : Prop where
  size_le : s.size ≤ s'.size
  get?_eq : id.index < s.size → s'.get? id = s.get? id

namespace Store

variable {s s' s'' : Store} {id : NodeId}

theorem Spares.refl (id : NodeId) (s : Store) : Spares id s s := ⟨Nat.le_refl _, fun _ => rfl⟩

theorem Spares.trans (h : Spares id s s') (h' : Spares id s' s'') : Spares id s s'' where
  size_le := Nat.le_trans h.size_le h'.size_le
  get?_eq hid := (h'.get?_eq (Nat.lt_of_lt_of_le hid h.size_le)).trans (h.get?_eq hid)

theorem Extends.spares (h : s.Extends s') (id : NodeId) : Spares id s s' :=
  ⟨h.size_le, h.get?_eq id⟩

theorem spares_set {other : NodeId} (node : Node) (h : id ≠ other) :
    Spares id s (s.set other node) :=
  ⟨Nat.le_of_eq (size_set s other node).symm, fun _ => get?_set_of_ne node h⟩

instance (id : NodeId) : Growth (Spares id) where
  refl := Spares.refl id
  trans _ _ _ := Spares.trans
  insert s node := (extends_insert s node).spares id

end Store

theorem spares_replace {σ : Type} {id other : NodeId} {node : Node} (h : other ≠ id) :
    Moves (Store.Spares id) (Pass.replace other node : Pass σ Node) := by
  rintro ⟨s, own⟩
  simp only [Pass.replace]
  cases s.get? other with
  | none => exact .refl id s
  | some old => exact Store.spares_set node h.symm

/-! ### Replacing marked nodes -/

/-- The node carries `key` in its metadata and is no tagged union. -/
def Node.Marked (key : String) (node : Node) : Prop :=
  node.kind? ≠ some .taggedUnion ∧ (node.metadataValue? key).isSome

/-- What is in `s` is the same in `s'`, or was marked. -/
structure Store.Demarks (key : String) (s s' : Store) : Prop where
  size_le : s.size ≤ s'.size
  get?_eq : ∀ id, id.index < s.size → s'.get? id = s.get? id ∨
    ∃ node, s.get? id = some node ∧ node.Marked key

namespace Store

variable {s s' s'' : Store} {key : String}

theorem Extends.demarks (h : s.Extends s') (key : String) : Demarks key s s' :=
  ⟨h.size_le, fun id hid => .inl (h.get?_eq id hid)⟩

theorem Demarks.trans (h : Demarks key s s') (h' : Demarks key s' s'') : Demarks key s s'' where
  size_le := Nat.le_trans h.size_le h'.size_le
  get?_eq id hid := by
    rcases h.get?_eq id hid with hsame | hmarked
    · have hnext := h'.get?_eq id (Nat.lt_of_lt_of_le hid h.size_le)
      rwa [hsame] at hnext
    · exact .inr hmarked

theorem Demarks.spares (h : Demarks key s s') {id : NodeId}
    (hid : ¬ ∃ node, s.get? id = some node ∧ node.Marked key) : Spares id s s' :=
  ⟨h.size_le, fun hlt => (h.get?_eq id hlt).resolve_right hid⟩

instance (key : String) : Growth (Demarks key) where
  refl s := (Extends.refl s).demarks key
  trans _ _ _ := Demarks.trans
  insert s node := (extends_insert s node).demarks key

theorem demarks_set {id : NodeId} {node : Node} (hnode : s.get? id = some node)
    (hmarked : node.Marked key) (new : Node) : Demarks key s (s.set id new) where
  size_le := Nat.le_of_eq (size_set s id new).symm
  get?_eq other _ := by
    by_cases e : other = id
    · subst e
      exact .inr ⟨node, hnode, hmarked⟩
    · exact .inl (get?_set_of_ne new e)

end Store

section Discriminators

variable {σ : Type} {key : String} {replacement : Replacement σ}

/-- A marked node is replaced by what was asked for, or nothing happens. -/
theorem demarks_replaceMarked {st : Store × σ} {id : NodeId} {node : Node} {discriminator : Json}
    (hnode : st.1.get? id = some node) (hmarked : node.Marked key) :
    Store.Demarks key st.1 (Pass.endState ((do
      let new ← replacement.ask id discriminator
      let _ ← Pass.replace id new
      pure id : Pass σ NodeId) st)).1 := by
  obtain ⟨s, own⟩ := st
  simp only [bind, EStateM.bind, Replacement.ask]
  cases replacement s id discriminator own with
  | error e own' => exact (Store.Extends.refl s).demarks key
  | ok new own' =>
    have hreplace : Pass.replace id new (s, own') = .ok node (s.set id new, own') :=
      Pass.replace_eq_ok.2 ⟨hnode, rfl⟩
    simp only [hreplace]
    exact Store.demarks_set hnode hmarked new

theorem demarks_discriminatorVisitor (visit : NodeId → Pass σ NodeId)
    (h : ∀ id, Moves (Store.Demarks key) (visit id)) (id : NodeId) :
    Moves (Store.Demarks key) (discriminatorVisitor key replacement visit id) := by
  refine .bind (.mapChildren h id) fun id st => ?_
  cases hnode : st.1.get? id with
  | none =>
    have hread : Pass.node id st = .error (.unknownNode id) st := by
      simp only [Pass.node, Pass.look, Store.node, hnode]
    simp only [bind, EStateM.bind, hread]
    exact (Store.Extends.refl st.1).demarks key
  | some node =>
    have hread : Pass.node id st = .ok node st := Pass.node_eq_ok.2 ⟨hnode, rfl⟩
    rw [show ∀ f : Node → Pass σ NodeId, (Pass.node id >>= f) st = f node st from fun f => by
      simp only [bind, EStateM.bind, hread]]
    split
    · exact (Store.Extends.refl st.1).demarks key
    · rename_i hkind
      cases hvalue : node.metadataValue? key with
      | none => exact (Store.Extends.refl st.1).demarks key
      | some discriminator =>
        exact demarks_replaceMarked hnode ⟨hkind, by rw [hvalue]; rfl⟩

/-- Discriminators are applied to nodes that are marked, and to no others. -/
theorem demarks_applyDiscriminators (root : NodeId) :
    Moves (Store.Demarks key) (applyDiscriminators root key replacement) :=
  .walk demarks_discriminatorVisitor root

end Discriminators

/-! ### Inlining -/

/-- The node at `id` is the only occurrence of a name that lies on no cycle, in the flattened schema
at `root`. -/
def Store.SoleOccurrence (s : Store) (root : NodeId) (definitions : Definitions) (id : NodeId) :
    Prop :=
  ∃ flat all mid found name,
    flattenReferences root definitions (s, ()) = .ok (flat, all) (mid, ()) ∧
    Scope.gather { store := mid, definitions := all } flat = .ok found ∧
    found.occurrencesOf name = [id] ∧ name ∉ found.recursive

theorem onlyInserts_listDefinitions {σ : Type} (root : NodeId) (definitions : Definitions) :
    OnlyInserts (do
      let listed ← namedBodies definitions.entries
      wrapDefinitions root listed : Pass σ NodeId) :=
  .bind (onlyInserts_namedBodies _) fun listed => onlyInserts_wrapDefinitions root listed

theorem onlyInserts_simplifyReferences {σ : Type} (root : NodeId) (definitions : Definitions) :
    OnlyInserts (simplifyReferences root definitions false : Pass σ NodeId) :=
  .bind (onlyInserts_flattenReferences root definitions) fun flattened =>
    onlyInserts_listDefinitions flattened.1 flattened.2

theorem spares_simplifyReferences {s : Store} {root id : NodeId} {definitions : Definitions}
    {inline : Bool} (h : ¬ (inline = true ∧ s.SoleOccurrence root definitions id)) :
    Store.Spares id s ((simplifyReferences root definitions inline : StoreM NodeId).storeAfter () s) := by
  cases inline with
  | false => exact ((onlyInserts_simplifyReferences root definitions).storeAfter () s).spares id
  | true =>
    have hflattens := onlyInserts_flattenReferences (σ := Unit) root definitions
    simp only [Pass.storeAfter, simplifyReferences, bind, EStateM.bind]
    cases hflatten : flattenReferences root definitions (s, ()) with
    | error e mid => exact (hflattens.of_error hflatten).spares id
    | ok flattened mid =>
      obtain ⟨flat, all⟩ := flattened
      have hgrow : s.Extends mid.1 := hflattens.of_ok hflatten
      refine (hgrow.spares id).trans ?_
      simp only [if_true]
      cases hinline : inlineReferences flat all mid with
      | error e last =>
        obtain ⟨-, rfl⟩ := inlineReferences_eq_error hinline
        exact .refl id _
      | ok top last =>
        obtain ⟨_, s₂, _, _, hs₂, _, _, hwrap⟩ := inlineReferences_run hinline
        refine ⟨hs₂.size ▸ hwrap.extends_.size_le, fun hid => ?_⟩
        by_contra hchanged
        obtain ⟨found, name, -, hgather, hsole, hrec, -⟩ :=
          inlineReferences_changed hinline hid hchanged
        exact h ⟨rfl, flat, all, mid.1, found, name, hflatten, hgather, hsole, hrec⟩

/-! ### Calls -/

/-- What can be done to a store. Callbacks, visitors and replacements are arbitrary, with data of
their own; a walk may go to any depth. -/
inductive Call : Type 1 where
  | insert (node : Node)
  | load (value : Json)
  | loadDefinitions (value : Json)
  | mapChildren {σ : Type} (own : σ) (visit : NodeId → Pass σ NodeId) (id : NodeId)
  | walk {σ : Type} (own : σ) (visitor : Visitor σ) (depth : Nat) (root : NodeId)
  | flatten (root : NodeId) (definitions : Definitions)
  | edit (id : NodeId) (f : Node → Node)
  | replace (id : NodeId) (node : Node)
  | simplify (root : NodeId) (definitions : Definitions) (inline : Bool)
  | discriminate {σ : Type} (own : σ) (root : NodeId) (key : String) (replacement : Replacement σ)

namespace Call

def run : Call → Store → Store
  | insert node => (Pass.insert node : StoreM NodeId).storeAfter ()
  | load value => (Wire.loadSchema value : StoreM NodeId).storeAfter ()
  | loadDefinitions value => (Wire.loadDefinitions value : StoreM Definitions).storeAfter ()
  | mapChildren own visit id => (SchemaGraph.mapChildren visit id).storeAfter own
  | walk own visitor depth root => (visitor.walkWithin depth root).storeAfter own
  | flatten root definitions =>
    (flattenReferences root definitions : StoreM (NodeId × Definitions)).storeAfter ()
  | edit id f => (do
      let node ← Pass.node id
      let _ ← Pass.replace id (f node) : StoreM Unit).storeAfter ()
  | replace id node => (Pass.replace id node : StoreM Node).storeAfter ()
  | simplify root definitions inline =>
    (simplifyReferences root definitions inline : StoreM NodeId).storeAfter ()
  | discriminate own root key replacement =>
    (applyDiscriminators root key replacement).storeAfter own

/-- The store after the calls, one after the other. -/
def runAll (calls : List Call) (s : Store) : Store := calls.foldl (fun s call => call.run s) s

/-- The callback keeps to the relation. -/
def VisitKeeps {σ : Type} (R : Store → Store → Prop) (visit : NodeId → Pass σ NodeId) : Prop :=
  ∀ id, Moves R (visit id)

def VisitorKeeps {σ : Type} (R : Store → Store → Prop) (visitor : Visitor σ) : Prop :=
  ∀ visit, VisitKeeps R visit → VisitKeeps R (visitor visit)

/-- The call is an appending one; a callback or a visitor has to insert only. -/
def Appends : Call → Prop
  | insert _ | load _ | loadDefinitions _ | flatten _ _ => True
  | mapChildren _ visit _ => VisitKeeps Store.Extends visit
  | walk _ visitor _ _ => VisitorKeeps Store.Extends visitor
  | simplify _ _ inline => inline = false
  | edit _ _ | replace _ _ | discriminate _ _ _ _ => False

/-- The call may change the node at `id`: it is made for it, inlines there or finds a mark there, or
hands on to something that changes the node itself. -/
def Rewrites (s : Store) (id : NodeId) : Call → Prop
  | insert _ | load _ | loadDefinitions _ | flatten _ _ => False
  | mapChildren _ visit _ => ¬ VisitKeeps (Store.Spares id) visit
  | walk _ visitor _ _ => ¬ VisitorKeeps (Store.Spares id) visitor
  | edit other _ | replace other _ => other = id
  | simplify root definitions inline => inline = true ∧ s.SoleOccurrence root definitions id
  | discriminate _ _ key _ => ∃ node, s.get? id = some node ∧ node.Marked key

theorem extends_run {call : Call} (h : call.Appends) (s : Store) : s.Extends (call.run s) := by
  cases call with
  | insert node => exact Store.extends_insert s node
  | load value => exact ((Wire.sprouts_loadSchema value).storeAfter () s).extends_
  | loadDefinitions value => exact ((Wire.sprouts_loadDefinitions value).storeAfter () s).extends_
  | mapChildren own visit id => exact (Moves.mapChildren h id).storeAfter own s
  | walk own visitor depth root => exact (Moves.walkWithin h depth root).storeAfter own s
  | flatten root definitions =>
    exact (onlyInserts_flattenReferences root definitions).storeAfter () s
  | simplify root definitions inline =>
    obtain rfl : inline = false := h
    exact (onlyInserts_simplifyReferences root definitions).storeAfter () s
  | edit | replace | discriminate => exact h.elim

theorem spares_run {call : Call} {s : Store} {id : NodeId} (h : ¬ call.Rewrites s id) :
    Store.Spares id s (call.run s) := by
  cases call with
  | insert | load | loadDefinitions | flatten => exact (extends_run (by exact trivial) s).spares id
  | mapChildren own visit x => exact (Moves.mapChildren (not_not.1 h) x).storeAfter own s
  | walk own visitor depth root => exact (Moves.walkWithin (not_not.1 h) depth root).storeAfter own s
  | edit other f =>
    exact (Moves.bind .node fun node => .bind (spares_replace h) fun _ => .pure).storeAfter () s
  | replace other node => exact (spares_replace h).storeAfter () s
  | simplify root definitions inline => exact spares_simplifyReferences h
  | discriminate own root key replacement =>
    exact ((demarks_applyDiscriminators root).storeAfter own s).spares h

/-- **Handles stay valid.** After any sequence of appending calls, whether they go through or fail, all
nodes that were there are at their places, unchanged. In any sequence of calls, a node that was there
and is another now was changed by one of the calls that rewrite it. -/
theorem calls_keep_nodes (s : Store) (calls : List Call) :
    ((∀ call ∈ calls, call.Appends) → s.Extends (runAll calls s)) ∧
      ∀ id, id.index < s.size → (runAll calls s).get? id ≠ s.get? id →
        ∃ before call after, calls = before ++ call :: after ∧
          call.Rewrites (runAll before s) id := by
  induction calls generalizing s with
  | nil => exact ⟨fun _ => .refl s, fun id _ hchanged => absurd rfl hchanged⟩
  | cons call calls ih =>
    obtain ⟨hext, hchange⟩ := ih (call.run s)
    constructor
    · intro happends
      have hfirst := extends_run (happends call List.mem_cons_self) s
      exact hfirst.trans (hext fun other hother => happends other (List.mem_cons_of_mem _ hother))
    · intro id hid hchanged
      by_cases hcall : call.Rewrites s id
      · exact ⟨[], call, calls, rfl, hcall⟩
      · have hspares := spares_run hcall
        obtain ⟨before, other, after, rfl, hother⟩ := hchange id
          (Nat.lt_of_lt_of_le hid hspares.size_le) (by rwa [hspares.get?_eq hid])
        exact ⟨call :: before, other, after, rfl, hother⟩

/-- A list over a named node, and a marked node. -/
def sampleStore : Store := ⟨#[
  (Node.ofKind .int).withName "A",
  (Node.ofKind .list).withChild "items_schema" (.one ⟨0⟩),
  (Node.ofKind .str).withMetadata "mark" .null]⟩

/-- A visitor that adds a node after the children and fails then. -/
def failingVisitor : Visitor Unit := fun visit id => do
  let id ← SchemaGraph.mapChildren visit id
  let _ ← Pass.insert (.ofKind .any)
  throw (.unknownNode id)

/-- Appending calls, three of which fail. -/
def appendingCalls : List Call := [
  .insert (.ofKind .any),
  .load .null,
  .loadDefinitions (.object [("A", .object [("type", .text "int")]), ("B", .null)]),
  .mapChildren () (fun _ => Pass.insert (.ofKind .bool) : NodeId → StoreM NodeId) ⟨1⟩,
  .walk () failingVisitor 2 ⟨1⟩,
  .flatten ⟨1⟩ .empty]

theorem appends_appendingCalls : ∀ call ∈ appendingCalls, call.Appends := by
  have hvisitor : VisitorKeeps Store.Extends failingVisitor := fun visit hvisit id =>
    .bind (.mapChildren hvisit id) fun _ => .bind .insert fun _ => .throw
  simp only [appendingCalls, List.forall_mem_cons]
  exact ⟨trivial, trivial, trivial, fun _ => .insert, hvisitor, trivial, List.forall_mem_nil _⟩

/-- The appending calls add nodes and change none; a mark that is acted on then changes one. -/
theorem appendingCalls_keep_nodes :
    sampleStore.Extends (runAll appendingCalls sampleStore) ∧
      sampleStore.size + 7 = (runAll appendingCalls sampleStore).size ∧
      ∃ before call after, appendingCalls ++ [.discriminate () ⟨2⟩ "mark" fun _ _ _ =>
          pure (.ofKind .any)] = before ++ call :: after ∧
        call.Rewrites (runAll before sampleStore) ⟨2⟩ := by
  refine ⟨(calls_keep_nodes sampleStore appendingCalls).1 appends_appendingCalls,
    by decide +kernel, (calls_keep_nodes sampleStore _).2 ⟨2⟩ (by decide) (by decide +kernel)⟩

end Call

end SchemaGraph
