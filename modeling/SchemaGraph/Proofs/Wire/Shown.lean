import SchemaGraph.Schema.Render
import SchemaGraph.Proofs.Rebuild

/-!
What a store shows: the JSON of a node, put together from the JSON of the nodes that it holds.

* `Child.ShownAs`, `Node.ShownAs` — the JSON of a child location and of the parts of a node, given
  what is shown of each id by a relation; they are monotone in it;
* `Store.Shows` — rendering gives this JSON at every depth from the id on. What is shown stays
  shown in a larger store, and a new node over shown ones is shown (`Store.shows_insert`).
-/

namespace SchemaGraph

universe u v

/-! ### Entries of the same names -/

namespace Entries

/-- The same names in the same order, over related values. -/
def Related {α : Type u} {β : Type v} (R : α → β → Prop) :
    List (String × α) → List (String × β) → Prop :=
  List.Forall₂ fun entry other => other.1 = entry.1 ∧ R entry.2 other.2

variable {α : Type u} {β : Type v} {R S : α → β → Prop} {entries : List (String × α)}
  {others : List (String × β)}

theorem Related.names_eq (h : Related R entries others) : names others = names entries := by
  induction h with
  | nil => rfl
  | cons hentry _ ih => exact congrArg₂ List.cons hentry.1 ih

theorem Related.mono (h : Related R entries others) (hRS : ∀ a b, R a b → S a b) :
    Related S entries others :=
  h.imp fun _ _ hentry => ⟨hentry.1, hRS _ _ hentry.2⟩

theorem not_mem_of_nodup {key : String} {value : β} {rest : List (String × β)}
    (h : (names (others ++ (key, value) :: rest)).Nodup) : key ∉ names others := by
  rw [names, List.map_append] at h
  exact fun hmem => (List.nodup_append.1 h).2.2 key hmem key List.mem_cons_self rfl

theorem Related.insert {m : OrderedMap α} (h : Related R m.entries others) {key : String}
    (hkey : key ∉ names others) {a : α} {b : β} (hab : R a b) :
    Related R (m.insert key a).entries (others ++ [(key, b)]) := by
  rw [h.names_eq] at hkey
  rw [OrderedMap.entries_insert_of_not_mem a hkey]
  exact List.rel_append h (.cons ⟨rfl, hab⟩ .nil)

end Entries

/-! ### The JSON of the parts of a node -/

/-- The JSON of a choice. -/
inductive Choice.ShownAs (R : NodeId → Json → Prop) : Choice → Json → Prop where
  | plain {id : NodeId} {w : Json} (h : R id w) : ShownAs R { schema := id } w
  | labelled {id : NodeId} {w : Json} {label : String} (h : R id w) :
      ShownAs R { schema := id, label := some label } (.list [w, .text label])

/-- The JSON of a child location. -/
inductive Child.ShownAs (R : NodeId → Json → Prop) : Child → Json → Prop where
  | one {id : NodeId} {w : Json} (h : R id w) : ShownAs R (.one id) w
  | many {ids : List NodeId} {ws : List Json} (h : List.Forall₂ R ids ws) :
      ShownAs R (.many ids) (.list ws)
  | choices {cs : List Choice} {ws : List Json} (h : List.Forall₂ (Choice.ShownAs R) cs ws) :
      ShownAs R (.choices cs) (.list ws)
  | keyed {schemas : OrderedMap NodeId} {fields : List (String × Json)}
      (h : Entries.Related R schemas.entries fields) : ShownAs R (.keyed schemas) (.object fields)

/-- The JSON of the children of a node and of its serialization. -/
structure Node.ShownAs (R : NodeId → Json → Prop) (node : Node) (children : List (String × Json))
    (serialization : Option Json) : Prop where
  children : Entries.Related (Child.ShownAs R) node.children.entries children
  serialization : Option.Rel R node.serialization serialization

section Mono

variable {R S : NodeId → Json → Prop}

theorem Choice.ShownAs.mono {choice : Choice} {w : Json} (h : choice.ShownAs R w)
    (hRS : ∀ id w, R id w → S id w) : choice.ShownAs S w := by
  cases h with
  | plain h => exact .plain (hRS _ _ h)
  | labelled h => exact .labelled (hRS _ _ h)

theorem Child.ShownAs.mono {child : Child} {w : Json} (h : child.ShownAs R w)
    (hRS : ∀ id w, R id w → S id w) : child.ShownAs S w := by
  cases h with
  | one h => exact .one (hRS _ _ h)
  | many h => exact .many (h.imp hRS)
  | choices h => exact .choices (h.imp fun _ _ h => h.mono hRS)
  | keyed h => exact .keyed (h.mono hRS)

theorem Node.ShownAs.mono {node : Node} {children : List (String × Json)}
    {serialization : Option Json} (h : node.ShownAs R children serialization)
    (hRS : ∀ id w, R id w → S id w) : node.ShownAs S children serialization where
  children := h.children.mono fun _ _ h => h.mono hRS
  serialization := optionRel_mono h.serialization hRS

end Mono

/-! ### What rendering computes -/

section Render

variable {render : NodeId → Except Error Json}

theorem Choice.shownAs_iff {choice : Choice} {w : Json} :
    (do
      let schema ← render choice.schema
      pure (match choice.label with
        | some label => .list [schema, .text label]
        | none => schema)) = Except.ok w ↔ choice.ShownAs (fun id w => render id = .ok w) w := by
  obtain ⟨id, label⟩ := choice
  rw [bind_eq_ok]
  constructor
  · rintro ⟨schema, hschema, h⟩
    cases pure_eq_ok.1 h
    cases label with
    | none => exact .plain hschema
    | some label => exact .labelled hschema
  · intro h
    cases h with
    | plain h => exact ⟨w, h, rfl⟩
    | labelled h => exact ⟨_, h, rfl⟩

theorem Entries.related_iff {α : Type} {f : α → Except Error Json} {entries : List (String × α)}
    {fields : List (String × Json)} :
    (entries.mapM fun entry => do
      let value ← f entry.2
      pure (entry.1, value)) = .ok fields ↔
        Entries.Related (fun a value => f a = .ok value) entries fields := by
  rw [mapM_eq_ok]
  refine ⟨fun h => h.imp fun entry field h => ?_, fun h => h.imp fun entry field h => ?_⟩
  · obtain ⟨value, hvalue, h⟩ := bind_eq_ok.1 h
    cases pure_eq_ok.1 h
    exact ⟨rfl, hvalue⟩
  · obtain ⟨name, value⟩ := field
    obtain ⟨rfl, hvalue⟩ := h
    exact bind_eq_ok.2 ⟨value, hvalue, rfl⟩

theorem Child.renderWith_eq_ok {child : Child} {w : Json} :
    child.renderWith render = .ok w ↔ child.ShownAs (fun id w => render id = .ok w) w := by
  constructor
  · intro h
    cases child with
    | one id => exact .one h
    | many ids =>
      obtain ⟨ws, hws, h⟩ := bind_eq_ok.1 h
      cases pure_eq_ok.1 h
      exact .many (mapM_eq_ok.1 hws)
    | choices cs =>
      obtain ⟨ws, hws, h⟩ := bind_eq_ok.1 h
      cases pure_eq_ok.1 h
      exact .choices ((mapM_eq_ok.1 hws).imp fun _ _ => Choice.shownAs_iff.1)
    | keyed schemas =>
      obtain ⟨fields, hfields, h⟩ := bind_eq_ok.1 h
      cases pure_eq_ok.1 h
      exact .keyed (Entries.related_iff.1 hfields)
  · intro h
    cases h with
    | one h => exact h
    | many h => exact bind_eq_ok.2 ⟨_, mapM_eq_ok.2 h, rfl⟩
    | choices h => exact bind_eq_ok.2 ⟨_, mapM_eq_ok.2 (h.imp fun _ _ => Choice.shownAs_iff.2), rfl⟩
    | keyed h => exact bind_eq_ok.2 ⟨_, Entries.related_iff.2 h, rfl⟩

/-- One level of rendering. -/
theorem Store.renderWithin_eq_ok {s : Store} {depth : Nat} {id : NodeId} {w : Json} :
    s.renderWithin (depth + 1) id = .ok w ↔ ∃ node children serialization,
      s.get? id = some node ∧
      node.ShownAs (fun id w => s.renderWithin depth id = .ok w) children serialization ∧
      w = .object (OrderedMap.ofList (node.fields children serialization)).entries := by
  simp only [renderWithin, bind_eq_ok, Store.node_eq_ok, Entries.related_iff,
    Child.renderWith_eq_ok]
  constructor
  · rintro ⟨node, hnode, children, hchildren, h⟩
    cases hid : node.serialization with
    | none =>
      rw [hid] at h
      cases pure_eq_ok.1 h
      exact ⟨node, children, none, hnode, ⟨hchildren, hid ▸ .none⟩, rfl⟩
    | some id =>
      rw [hid] at h
      obtain ⟨value, hvalue, h⟩ := bind_eq_ok.1 h
      cases pure_eq_ok.1 h
      exact ⟨node, children, some value, hnode, ⟨hchildren, hid ▸ .some hvalue⟩, rfl⟩
  · rintro ⟨node, children, serialization, hnode, ⟨hchildren, hserialization⟩, rfl⟩
    refine ⟨node, hnode, children, hchildren, ?_⟩
    cases hid : node.serialization with
    | none =>
      rw [hid] at hserialization
      cases hserialization
      rfl
    | some id =>
      rw [hid] at hserialization
      obtain ⟨hvalue⟩ := hserialization
      exact bind_eq_ok.2 ⟨_, hvalue, rfl⟩

end Render

/-! ### What is shown stays shown -/

namespace Store

variable {s s' : Store} {id : NodeId} {w : Json}

theorem Extends.renderWithin_eq_ok (h : s.Extends s') : ∀ {depth : Nat} {id : NodeId} {w : Json},
    s.renderWithin depth id = .ok w → s'.renderWithin depth id = .ok w
  | 0, _, _, hw => by cases hw
  | depth + 1, id, w, hw => by
    obtain ⟨node, children, serialization, hnode, hshown, rfl⟩ := Store.renderWithin_eq_ok.1 hw
    exact Store.renderWithin_eq_ok.2 ⟨node, children, serialization, h.get?_of_some hnode,
      hshown.mono fun _ _ hw => h.renderWithin_eq_ok hw, rfl⟩

/-- Rendering `id` gives `w`, at every depth from its index on. -/
def Shows (s : Store) (id : NodeId) (w : Json) : Prop :=
  ∀ depth, id.index < depth → s.renderWithin depth id = .ok w

theorem Shows.lt_size (h : s.Shows id w) : id.index < s.size := by
  obtain ⟨node, _, _, hnode, -⟩ := Store.renderWithin_eq_ok.1 (h _ (Nat.lt_succ_self _))
  exact lt_size_of_get? hnode

theorem Shows.render (h : s.Shows id w) : s.render id = .ok w := by
  have hlimit : s.size < s.depthLimit := Nat.le_mul_of_pos_right (s.size + 1) (Nat.succ_pos _)
  exact h _ (Nat.lt_trans h.lt_size hlimit)

theorem Shows.extends (h : s.Shows id w) (hext : s.Extends s') : s'.Shows id w :=
  fun depth hdepth => hext.renderWithin_eq_ok (h depth hdepth)

/-- A new node shows its fields, with what is shown of the nodes that it holds. -/
theorem shows_insert {node : Node} {children : List (String × Json)} {serialization : Option Json}
    (h : node.ShownAs s.Shows children serialization) :
    (s.insert node).Shows s.nextId
      (.object (OrderedMap.ofList (node.fields children serialization)).entries) := by
  intro depth hdepth
  obtain ⟨depth, rfl⟩ := Nat.exists_eq_add_one_of_ne_zero (Nat.ne_zero_of_lt hdepth)
  have hsize : s.size ≤ depth := Nat.le_of_lt_succ hdepth
  refine Store.renderWithin_eq_ok.2 ⟨node, children, serialization, get?_insert_nextId s node,
    h.mono fun id w hw => ?_, rfl⟩
  exact (extends_insert s node).renderWithin_eq_ok (hw depth (Nat.lt_of_lt_of_le hw.lt_size hsize))

end Store

end SchemaGraph
