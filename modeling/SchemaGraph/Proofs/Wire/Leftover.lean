import SchemaGraph.Proofs.Effect
import SchemaGraph.Proofs.Grounded
import SchemaGraph.Proofs.Wire.Settled

/-!
What loading leaves in the store, also where it fails on its way. The schemas inside a faulty one
that were read before the fault stay behind; they hold each other only, the later ones the earlier.

* `Store.Sprouts` — the nodes that were added hold only added nodes before them;
* `Wire.sprouts_load` — this is what loading a schema does, however it ends;
* `Store.Loaded` — stores that were built by loading; `Store.Loaded.acyclic`.
-/

namespace SchemaGraph

open Pass (Moves)

/-! ### Nodes over new nodes -/

namespace Store

/-- From `s` to `s'` nodes were added that hold only each other, the later ones the earlier. -/
structure Sprouts (s s' : Store) : Prop where
  extends_ : s.Extends s'
  inside : ∀ id child, s.size ≤ id.index → s'.Holds id child →
    s.size ≤ child.index ∧ child.index < id.index

variable {s s' s'' : Store}

theorem Sprouts.refl (s : Store) : s.Sprouts s :=
  ⟨.refl s, fun _ _ hid h => absurd h.lt_size (Nat.not_lt.2 hid)⟩

theorem Sprouts.trans (h : s.Sprouts s') (h' : s'.Sprouts s'') : s.Sprouts s'' where
  extends_ := h.extends_.trans h'.extends_
  inside id child hid hholds := by
    rcases Nat.lt_or_ge id.index s'.size with hlt | hge
    · exact h.inside id child hid ((h'.extends_.holds_iff hlt).1 hholds)
    · have hlater := h'.inside id child hge hholds
      have := h.extends_.size_le
      omega

instance : IsPreorder Store Sprouts where
  refl := Sprouts.refl
  trans _ _ _ := Sprouts.trans

theorem sprouts_of_plants {roots : List NodeId} (h : Plants s s' roots) : s.Sprouts s' :=
  ⟨h.extends_, h.planted.inside⟩

/-- Nodes of a store that grew from nothing in this way hold earlier ones. -/
theorem Sprouts.lt_of_holds (h : empty.Sprouts s) {id child : NodeId} (hchild : s.Holds id child) :
    child.index < id.index :=
  (h.inside id child (Nat.zero_le _) hchild).2

end Store

/-! ### Loading -/

namespace Wire

variable {σ : Type} {kind : Option Kind} {path : List Step} {node : Node} {key : String}

/-- However loading the value ends, the nodes that it added hold each other only. -/
def Sprouting (value : Json) : Prop :=
  ∀ {σ : Type} (implied : Option Kind) (path : List Step),
    Moves Store.Sprouts (load implied path value : Pass σ NodeId)

theorem sprouts_tagOf {implied : Option Kind} {fields : List (String × Json)} :
    Moves Store.Sprouts (tagOf implied path fields : Pass σ String) := by
  unfold tagOf
  split
  · exact .pure
  · exact .throw
  · exact .pure
  · exact .throw

theorem sprouts_expectText {value : Json} :
    Moves Store.Sprouts (expectText path value : Pass σ String) := by
  unfold expectText
  split
  · exact .pure
  · exact .throw

theorem sprouts_expectMetadata {value : Json} :
    Moves Store.Sprouts (expectMetadata path value : Pass σ (OrderedMap Json)) := by
  unfold expectMetadata
  split
  · exact .pure
  · exact .throw

theorem sprouts_loadItems {implied : Option Kind} : ∀ {items : List Json},
    (∀ v ∈ items, Sprouting v) → ∀ position : Nat,
      Moves Store.Sprouts (loadItems implied path position items : Pass σ (List NodeId))
  | [], _, _ => by
    rw [loadItems]
    exact .pure
  | item :: items, h, position => by
    rw [loadItems]
    refine .bind (h item List.mem_cons_self _ _) fun _ => .bind ?_ fun _ => .pure
    exact sprouts_loadItems (fun v hv => h v (List.mem_cons_of_mem _ hv)) (position + 1)

theorem sprouts_loadChoices : ∀ {items : List Json},
    (∀ v, sizeOf v < sizeOf items → Sprouting v) → ∀ position : Nat,
      Moves Store.Sprouts (loadChoices path position items : Pass σ (List Choice))
  | [], _, _ => by
    rw [loadChoices]
    exact .pure
  | item :: items, h, position => by
    have hrest : ∀ position, Moves Store.Sprouts (loadChoices path position items) :=
      sprouts_loadChoices fun v hv => h v (by simp; omega)
    rw [loadChoices.eq_def]
    simp only
    split
    · rename_i schema label
      have hschema : Sprouting schema := h schema (by simp; omega)
      exact .bind (hschema _ _) fun _ => .bind sprouts_expectText fun _ =>
        .bind .pure fun _ => .bind (hrest _) fun _ => .pure
    · exact .bind .throw fun _ => .bind (hrest _) fun _ => .pure
    · have hitem : Sprouting item := h item (by simp; omega)
      exact .bind (hitem _ _) fun _ => .bind .pure fun _ => .bind (hrest _) fun _ => .pure

theorem sprouts_loadKeyed : ∀ {fields : List (String × Json)},
    (∀ field ∈ fields, Sprouting field.2) → ∀ done : OrderedMap NodeId,
      Moves Store.Sprouts (loadKeyed path done fields : Pass σ (OrderedMap NodeId))
  | [], _, _ => by
    rw [loadKeyed]
    exact .pure
  | (key, field) :: fields, h, done => by
    rw [loadKeyed]
    refine .bind (h (key, field) List.mem_cons_self _ _) fun _ => ?_
    exact sprouts_loadKeyed (fun field hfield => h field (List.mem_cons_of_mem _ hfield)) _

theorem sprouts_loadChild {slot : Slot} {value : Json}
    (h : ∀ v, sizeOf v ≤ sizeOf value → Sprouting v) :
    Moves Store.Sprouts (loadChild slot path value : Pass σ Child) := by
  unfold loadChild
  split
  · exact .bind (h _ (Nat.le_refl _) _ _) fun _ => .pure
  · rename_i items
    refine .bind (sprouts_loadItems (fun v hv => h v ?_) 0) fun _ => .pure
    have := List.sizeOf_lt_of_mem hv
    simp
    omega
  · exact .bind (sprouts_loadChoices (fun v hv => h v (by simp; omega)) 0) fun _ => .pure
  · rename_i fields
    refine .bind (sprouts_loadKeyed (fun field hfield => h field.2 ?_) _) fun _ => .pure
    have := List.sizeOf_lt_of_mem hfield
    cases field
    simp at this ⊢
    omega
  · exact .throw
  · exact .throw

theorem sprouts_loadField {value : Json} (h : ∀ v, sizeOf v ≤ sizeOf value → Sprouting v) :
    Moves Store.Sprouts (loadField kind path node key value : Pass σ Node) := by
  unfold loadField
  cases role kind key with
  | tag => exact .pure
  | name => exact .bind sprouts_expectText fun _ => .pure
  | target => exact .bind sprouts_expectText fun _ => .pure
  | metadata => exact .bind sprouts_expectMetadata fun _ => .pure
  | serialization => exact .bind (h value (Nat.le_refl _) _ _) fun _ => .pure
  | child slot => exact .bind (sprouts_loadChild h) fun _ => .pure
  | attr => exact .pure

theorem sprouts_loadFields : ∀ {fields : List (String × Json)},
    (∀ v, sizeOf v < sizeOf fields → Sprouting v) → ∀ node : Node,
      Moves Store.Sprouts (loadFields kind path node fields : Pass σ Node)
  | [], _, _ => by
    rw [loadFields]
    exact .pure
  | (key, value) :: fields, h, node => by
    rw [loadFields_cons]
    exact .bind (sprouts_loadField fun v hv => h v (by simp; omega)) fun next =>
      sprouts_loadFields (fun v hv => h v (by simp; omega)) next

/-- The node of an object is added only in the end: a fault leaves no more than the schemas inside. -/
theorem sprouting_object {fields : List (String × Json)}
    (ih : ∀ v, sizeOf v < sizeOf fields → Sprouting v) : Sprouting (.object fields) := by
  intro σ implied path st
  cases hrun : load implied path (.object fields) st with
  | ok id st' => exact Store.sprouts_of_plants (load_plants _ hrun)
  | error e st' =>
    rw [load] at hrun
    obtain hrun | ⟨tag, start, htag, hrun⟩ := Pass.bind_eq_error.1 hrun
    · exact sprouts_tagOf.of_error hrun
    have hstart := sprouts_tagOf.of_ok htag
    obtain hrun | ⟨node, last, hfields, hrun⟩ := Pass.bind_eq_error.1 hrun
    · exact hstart.trans ((sprouts_loadFields ih _).of_error hrun)
    have hlast := hstart.trans ((sprouts_loadFields ih _).of_ok hfields)
    split at hrun
    · cases hrun
      exact hlast
    · cases hrun

/-- **Loading leaves only nodes that hold each other**, also where it fails. -/
theorem sprouts_load (value : Json) : Sprouting value := by
  cases value with
  | object fields => exact sprouting_object fun v hv => sprouts_load v
  | _ =>
    intro σ implied path
    rw [load]
    · exact .throw
    · rintro _ ⟨⟩
termination_by sizeOf value

theorem sprouts_loadSchema (value : Json) :
    Moves Store.Sprouts (loadSchema value : Pass σ NodeId) := sprouts_load value none []

theorem sprouts_loadDefinitions (value : Json) :
    Moves Store.Sprouts (loadDefinitions value : Pass σ Definitions) := by
  unfold loadDefinitions
  split
  · exact sprouts_loadKeyed (fun field _ => sprouts_load field.2) _
  · exact .throw

end Wire

/-! ### Stores built by loading -/

namespace Store

/-- Stores that come from the empty one by loading schemas and definitions, some of which may
fail. -/
inductive Loaded : Store → Prop where
  | empty : Loaded .empty
  | schema {s : Store} (value : Json) (h : Loaded s) :
    Loaded ((Wire.loadSchema value).storeAfter () s)
  | definitions {s : Store} (value : Json) (h : Loaded s) :
    Loaded ((Wire.loadDefinitions value).storeAfter () s)

theorem Loaded.sprouts {s : Store} (h : s.Loaded) : Store.empty.Sprouts s := by
  induction h with
  | empty => exact .refl _
  | @schema s value _ ih => exact ih.trans ((Wire.sprouts_loadSchema value).storeAfter () s)
  | @definitions s value _ ih => exact ih.trans ((Wire.sprouts_loadDefinitions value).storeAfter () s)

/-- **A store built by loading has no cycle.** -/
theorem Loaded.acyclic {s : Store} (h : s.Loaded) : s.Acyclic :=
  acyclic_of_rank NodeId.index fun _ _ hchild => h.sprouts.lt_of_holds hchild.holds

end Store

end SchemaGraph
