import Mathlib.Data.List.Forall2
import SchemaGraph.Schema.Store

/-!
What a pass that went through has done: one equivalence for each operation. Proofs about passes take
a successful run apart with them, bind by bind.
-/

namespace SchemaGraph

theorem bind_eq_ok {ε α β : Type} {x : Except ε α} {f : α → Except ε β} {b : β} :
    x >>= f = .ok b ↔ ∃ a, x = .ok a ∧ f a = .ok b := by
  cases x <;> simp [bind, Except.bind]

theorem bind_eq_error {ε α β : Type} {x : Except ε α} {f : α → Except ε β} {e : ε} :
    x >>= f = .error e ↔ x = .error e ∨ ∃ a, x = .ok a ∧ f a = .error e := by
  cases x <;> simp [bind, Except.bind]

theorem pure_eq_ok {ε α : Type} {a b : α} : (pure a : Except ε α) = .ok b ↔ a = b := by
  simp [pure, Except.pure]

/-! ### Lists that go together -/

section Forall₂

variable {α β : Type} {R : α → β → Prop}

theorem exists_left_of_forall₂ {xs : List α} {ys : List β} (h : List.Forall₂ R xs ys) {y : β}
    (hy : y ∈ ys) : ∃ x ∈ xs, R x y := by
  induction h with
  | nil => cases hy
  | cons hxy _ ih =>
    rcases List.mem_cons.1 hy with rfl | hy
    · exact ⟨_, List.mem_cons_self, hxy⟩
    · obtain ⟨x, hx, hxy⟩ := ih hy
      exact ⟨x, List.mem_cons_of_mem _ hx, hxy⟩

theorem exists_right_of_forall₂ {xs : List α} {ys : List β} (h : List.Forall₂ R xs ys) {x : α}
    (hx : x ∈ xs) : ∃ y ∈ ys, R x y :=
  exists_left_of_forall₂ (R := fun y x => R x y) (List.Forall₂.flip h) hx

theorem exists_forall₂ : ∀ {xs : List α}, (∀ x ∈ xs, ∃ y, R x y) → ∃ ys, List.Forall₂ R xs ys
  | [], _ => ⟨[], .nil⟩
  | x :: xs, h => by
    obtain ⟨y, hy⟩ := h x List.mem_cons_self
    obtain ⟨ys, hys⟩ := exists_forall₂ fun x hx => h x (List.mem_cons_of_mem _ hx)
    exact ⟨y :: ys, .cons hy hys⟩

theorem forall₂_of_length_eq {xs : List α} {ys : List β} (h : xs.length = ys.length) :
    List.Forall₂ (fun _ _ => True) xs ys :=
  List.forall₂_iff_get.2 ⟨h, fun _ _ _ => trivial⟩

end Forall₂

theorem forall₂_of_mapM {ε α β : Type} {f : α → Except ε β} : ∀ {xs : List α} {ys : List β},
    xs.mapM f = .ok ys → List.Forall₂ (fun x y => f x = .ok y) xs ys
  | [], _, h => by
    rw [List.mapM_nil] at h
    cases pure_eq_ok.1 h
    exact .nil
  | x :: xs, _, h => by
    rw [List.mapM_cons] at h
    obtain ⟨y, hy, h⟩ := bind_eq_ok.1 h
    obtain ⟨ys, hys, h⟩ := bind_eq_ok.1 h
    cases pure_eq_ok.1 h
    exact .cons hy (forall₂_of_mapM hys)

theorem mapM_eq_ok {ε α β : Type} {f : α → Except ε β} {xs : List α} {ys : List β} :
    xs.mapM f = .ok ys ↔ List.Forall₂ (fun x y => f x = .ok y) xs ys := by
  refine ⟨forall₂_of_mapM, fun h => ?_⟩
  induction h with
  | nil => rfl
  | cons hxy _ ih =>
    rw [List.mapM_cons]
    exact bind_eq_ok.2 ⟨_, hxy, bind_eq_ok.2 ⟨_, ih, rfl⟩⟩

theorem exists_mapM {ε α β : Type} {f : α → Except ε β} {xs : List α}
    (h : ∀ x ∈ xs, ∃ y, f x = .ok y) : ∃ ys, xs.mapM f = .ok ys := by
  obtain ⟨ys, hys⟩ := exists_forall₂ h
  exact ⟨ys, mapM_eq_ok.2 hys⟩

theorem eraseDups_concat {α : Type} [BEq α] [LawfulBEq α] [DecidableEq α] (xs : List α) (x : α) :
    (xs ++ [x]).eraseDups = if x ∈ xs then xs.eraseDups else xs.eraseDups ++ [x] := by
  rw [List.eraseDups_append]
  by_cases h : x ∈ xs <;> simp [List.removeAll, h, List.eraseDups_cons]

theorem Store.node_eq_ok {s : Store} {id : NodeId} {node : Node} :
    s.node id = .ok node ↔ s.get? id = some node := by
  unfold Store.node
  cases s.get? id <;> simp

/-! ### Growth -/

namespace Store

/-- Every node of `s` is still at its place in `s'`. -/
structure Extends (s s' : Store) : Prop where
  size_le : s.size ≤ s'.size
  get?_eq : ∀ id, id.index < s.size → s'.get? id = s.get? id

variable {s s' s'' : Store} {id : NodeId} {node : Node}

theorem Extends.refl (s : Store) : s.Extends s := ⟨Nat.le_refl _, fun _ _ => rfl⟩

theorem Extends.trans (h : s.Extends s') (h' : s'.Extends s'') : s.Extends s'' where
  size_le := Nat.le_trans h.size_le h'.size_le
  get?_eq id hid := by rw [h'.get?_eq id (Nat.lt_of_lt_of_le hid h.size_le), h.get?_eq id hid]

theorem extends_insert (s : Store) (node : Node) : s.Extends (s.insert node) where
  size_le := by simp
  get?_eq _ hid := get?_insert_of_lt node hid

theorem eq_nextId (h : s.size ≤ id.index) (hid : id.index < (s.insert node).size) :
    id = s.nextId := by
  rw [size_insert] at hid
  cases id
  simp only [nextId, NodeId.mk.injEq]
  exact Nat.le_antisymm (Nat.le_of_lt_succ hid) h

theorem lt_size_of_get? (h : s.get? id = some node) : id.index < s.size :=
  Decidable.byContradiction fun hid => by
    rw [get?_eq_none.2 (Nat.le_of_not_lt hid)] at h
    cases h

theorem Extends.get?_of_some (h : s.Extends s') (hnode : s.get? id = some node) :
    s'.get? id = some node := by
  rw [h.get?_eq id (lt_size_of_get? hnode), hnode]

end Store

/-! ### Runs -/

instance decidableEqResult {ε σ α : Type} [DecidableEq ε] [DecidableEq σ] [DecidableEq α] :
    DecidableEq (EStateM.Result ε σ α)
  | .ok a s, .ok a' s' => decidable_of_iff (a = a' ∧ s = s') (by simp)
  | .error e s, .error e' s' => decidable_of_iff (e = e' ∧ s = s') (by simp)
  | .ok _ _, .error _ _ => isFalse (by simp)
  | .error _ _, .ok _ _ => isFalse (by simp)

namespace Pass

variable {σ α β : Type} {st st' : Store × σ}

theorem bind_eq_ok {x : Pass σ α} {f : α → Pass σ β} {b : β} :
    (x >>= f) st = .ok b st' ↔ ∃ a mid, x st = .ok a mid ∧ f a mid = .ok b st' := by
  simp only [bind, EStateM.bind]
  cases x st with
  | ok a mid =>
    constructor
    · exact fun h => ⟨a, mid, rfl, h⟩
    · rintro ⟨a', mid', h, h'⟩
      cases h
      exact h'
  | error e mid => simp

theorem pure_eq_ok {a b : α} : (pure a : Pass σ α) st = .ok b st' ↔ a = b ∧ st = st' := by
  simp [pure, EStateM.pure]

theorem throw_ne_ok {e : Error} {a : α} : (throw e : Pass σ α) st ≠ .ok a st' := by
  intro h; cases h

theorem look_eq_ok {f : Store → Except Error α} {a : α} :
    look f st = .ok a st' ↔ f st.1 = .ok a ∧ st = st' := by
  unfold look
  cases f st.1 <;> simp

theorem node_eq_ok {id : NodeId} {node : Node} :
    Pass.node id st = .ok node st' ↔ st.1.get? id = some node ∧ st = st' := by
  rw [Pass.node, look_eq_ok, Store.node_eq_ok]

theorem insert_eq_ok {node : Node} {id : NodeId} :
    insert node st = .ok id st' ↔ id = st.1.nextId ∧ st' = (st.1.insert node, st.2) := by
  simp [insert, eq_comm]

theorem replace_eq_ok {id : NodeId} {node old : Node} :
    replace id node st = .ok old st' ↔
      st.1.get? id = some old ∧ st' = (st.1.set id node, st.2) := by
  unfold replace
  cases h : st.1.get? id <;> simp [h, eq_comm]

theorem own_eq_ok {own : σ} : Pass.own st = .ok own st' ↔ own = st.2 ∧ st' = st := by
  simp [Pass.own, eq_comm]

theorem modifyOwn_eq_ok {f : σ → σ} {u : Unit} :
    modifyOwn f st = .ok u st' ↔ st' = (st.1, f st.2) := by
  simp [modifyOwn, eq_comm]

theorem within_eq_ok {τ : Type} {start : τ} {pass : Pass τ α} {a : α} {result : τ} :
    within start pass st = .ok (a, result) st' ↔
      pass (st.1, start) = .ok a (st'.1, result) ∧ st'.2 = st.2 := by
  obtain ⟨s, own⟩ := st
  obtain ⟨s', own'⟩ := st'
  dsimp only [within]
  split
  next b mid inner h =>
    simp only [h, EStateM.Result.ok.injEq, Prod.mk.injEq]
    constructor
    · rintro ⟨⟨rfl, rfl⟩, rfl, rfl⟩
      simp
    · rintro ⟨⟨rfl, rfl, rfl⟩, rfl⟩
      simp
  next e mid inner h => simp [h]

end Pass

end SchemaGraph
