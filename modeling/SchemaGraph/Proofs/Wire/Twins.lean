import SchemaGraph.Proofs.Grounded
import SchemaGraph.Proofs.Wire.Telling

/-!
Schemas that are told apart by their ids alone. Twins have nodes of equal content and arrangement
over twins again. They render to the same JSON, and legible schemas that render to the same JSON are
twins, so loading what a schema renders to gives a twin of it.

* `Store.Twin` — the same schema in two stores;
* `Store.Twin.render` — twins render to the same;
* `Store.Readable` — finite trees of legible nodes;
* `Store.twin_of_renderWithin` — legible schemas that render to the same are twins;
* `Wire.readable_of_load` — what is loaded is readable;
* `Document.exists_reload` — a legible schema can be rendered and loaded again.
-/

namespace SchemaGraph

/-! ### Twins -/

namespace Store

/-- The same schema in two stores: nodes that are alike over twins again. -/
inductive Twin (s s' : Store) : NodeId → NodeId → Prop where
  | node {x x' : NodeId} {node node' : Node} {R : NodeId → NodeId → Prop}
      (hnode : s.get? x = some node) (hnode' : s'.get? x' = some node') (halike : node.Alike R node')
      (hR : ∀ a b, R a b → Twin s s' a b) : Twin s s' x x'

variable {s s' t t' : Store} {x x' : NodeId} {P Q : Node → Prop} {depth : Nat} {w : Json}

theorem Twin.parts (h : s.Twin s' x x') : ∃ node node', s.get? x = some node ∧
    s'.get? x' = some node' ∧ node.Alike (s.Twin s') node' := by
  obtain ⟨hnode, hnode', halike, hR⟩ := h
  exact ⟨_, _, hnode, hnode', halike.mono hR⟩

theorem twin_of_alike {node node' : Node} (hnode : s.get? x = some node)
    (hnode' : s'.get? x' = some node') (halike : node.Alike (s.Twin s') node') : s.Twin s' x x' :=
  .node hnode hnode' halike fun _ _ h => h

theorem Twin.extends (h : s.Twin s' x x') (hext : s.Extends t) (hext' : s'.Extends t') :
    t.Twin t' x x' := by
  induction h with
  | node hnode hnode' halike _ ih =>
    exact .node (hext.get?_of_some hnode) (hext'.get?_of_some hnode') halike ih

theorem Twin.restrict (h : t.Twin s' x x') (hext : s.Extends t) : s.Grounded P x →
    s.Twin s' x x' := by
  induction h with
  | @node x x' node node' R hnode hnode' halike _ ih =>
    intro hx
    cases hx with
    | @node _ old kind hold hkind hfits _ hkids =>
      obtain rfl : node = old := Option.some.inj (hnode.symm.trans (hext.get?_of_some hold))
      exact .node hold hnode' halike.and_mem fun a b ⟨hab, ha, _⟩ => ih a b hab (hkids a ha)

theorem Twin.grounded (h : s.Twin s' x x')
    (hP : ∀ R (node node' : Node), node.Alike R node' → P node → Q node') :
    s.Grounded P x → s'.Grounded Q x' := by
  induction h with
  | @node x x' node node' R hnode hnode' halike _ ih =>
    intro hx
    cases hx with
    | @node _ _ kind hold hkind hfits hprop hkids =>
      cases hnode.symm.trans hold
      refine .node hnode' (halike.kind?_eq.trans hkind) (halike.fits hfits) (hP R _ _ halike hprop)
        fun b hb => ?_
      obtain ⟨a, ha, hab⟩ := halike.exists_storedId hb
      exact ih a b hab (hkids a ha)

/-! ### Twins render to the same -/

theorem Twin.renderWithin (h : s.Twin s' x x') : ∀ {depth : Nat} {w : Json},
    s.renderWithin depth x = .ok w → s'.renderWithin depth x' = .ok w := by
  induction h with
  | node hnode hnode' halike _ ih =>
    intro depth w hw
    cases depth with
    | zero => cases hw
    | succ depth =>
      obtain ⟨_, children, serialization, hold, hshown, rfl⟩ := renderWithin_eq_ok.1 hw
      cases hnode.symm.trans hold
      exact renderWithin_eq_ok.2 ⟨_, children, serialization, hnode',
        halike.shownAs hshown fun a b w hab hw => ih a b hab hw, by rw [halike.fields_eq]⟩

theorem renderWithin_le {other : Nat} (hle : depth ≤ other) :
    s.renderWithin depth x = .ok w → s.renderWithin other x = .ok w := by
  induction depth generalizing other x w with
  | zero => exact fun hw => by cases hw
  | succ depth ih =>
    intro hw
    obtain ⟨other, rfl⟩ := Nat.exists_eq_add_of_lt hle
    obtain ⟨node, children, serialization, hnode, hshown, rfl⟩ := renderWithin_eq_ok.1 hw
    exact renderWithin_eq_ok.2 ⟨node, children, serialization, hnode,
      hshown.mono fun _ _ hw => ih (by omega) hw, rfl⟩

/-- **Twins render to the same.** -/
theorem Twin.render (h : s.Twin s' x x') (hx : s.Grounded P x) (hw : s.render x = .ok w) :
    s'.render x' = .ok w := by
  obtain ⟨w', hw'⟩ := (h.grounded (Q := fun _ => True) (fun _ _ _ _ _ => trivial) hx).render
  have hthere := renderWithin_le (Nat.le_max_left s.depthLimit s'.depthLimit) hw
  have hthere' := renderWithin_le (Nat.le_max_right s.depthLimit s'.depthLimit) hw'
  rw [h.renderWithin hthere] at hthere'
  cases hthere'
  exact hw'

/-! ### What renders to the same -/

/-- The schema at `id` is a finite tree of legible nodes. Those of unknown kinds hold nothing. -/
inductive Readable (s : Store) : NodeId → Prop where
  | node {x : NodeId} {node : Node} (hnode : s.get? x = some node) (hlegible : Wire.Legible node)
      (hkids : ∀ child ∈ node.storedIds, Readable s child) : Readable s x

theorem Grounded.readable (hx : s.Grounded Wire.Legible x) : s.Readable x := by
  induction hx with
  | node hnode _ _ hlegible _ ih => exact .node hnode hlegible ih

theorem Readable.parts {node : Node} (hx : s.Readable x) (hnode : s.get? x = some node) :
    Wire.Legible node ∧ ∀ child ∈ node.storedIds, s.Readable child := by
  cases hx with
  | node hold hlegible hkids =>
    cases hnode.symm.trans hold
    exact ⟨hlegible, hkids⟩

theorem not_renderWithin_list {items : List Json} : s.renderWithin depth x ≠ .ok (.list items) := by
  intro h
  cases depth with
  | zero => cases h
  | succ depth =>
    obtain ⟨_, _, _, _, _, e⟩ := renderWithin_eq_ok.1 h
    cases e

/-- **Legible schemas that render to the same are twins.** -/
theorem twin_of_renderWithin (hx : s.Readable x) :
    ∀ {x' : NodeId} {depth other : Nat} {w : Json}, s'.Readable x' →
      s.renderWithin depth x = .ok w → s'.renderWithin other x' = .ok w → s.Twin s' x x' := by
  induction hx with
  | @node x node hnode hplace _ ih =>
    intro x' depth other w hx' hw hw'
    cases depth with
    | zero => cases hw
    | succ depth =>
      cases other with
      | zero => cases hw'
      | succ other =>
        obtain ⟨_, children, serialization, hold, hshown, rfl⟩ := renderWithin_eq_ok.1 hw
        obtain ⟨node', children', serialization', hnode', hshown', e⟩ := renderWithin_eq_ok.1 hw'
        cases hnode.symm.trans hold
        obtain ⟨hplace', hkids'⟩ := hx'.parts hnode'
        rw [Json.object.injEq, OrderedMap.entries_ofList (Wire.nodup_names_fields hplace.inPlace hshown),
          OrderedMap.entries_ofList (Wire.nodup_names_fields hplace'.inPlace hshown')] at e
        refine .node hnode hnode' (Node.alike_of_fields
          (R := fun a b => a ∈ node.storedIds ∧ b ∈ node'.storedIds ∧ ∃ w,
            s.renderWithin depth a = .ok w ∧ s'.renderWithin other b = .ok w)
          hplace.inPlace hplace'.inPlace hshown.and_mem hshown'.and_mem e.symm
          (fun a items h => not_renderWithin_list h.1) (fun b items h => not_renderWithin_list h.1)
          fun a b w hw hw' => ⟨hw.2, hw'.2, w, hw.1, hw'.1⟩) ?_
        rintro a b ⟨ha, hb, w, hw, hw'⟩
        exact ih a ha (hkids' b hb) hw hw'

/-- What a legible schema renders to is settled. -/
theorem Readable.settled (hx : s.Readable x) :
    ∀ {depth : Nat} {w : Json}, s.renderWithin depth x = .ok w → Wire.Settled w := by
  induction hx with
  | @node x node hnode hlegible _ ih =>
    intro depth w hw
    cases depth with
    | zero => cases hw
    | succ depth =>
      obtain ⟨_, children, serialization, hold, hshown, rfl⟩ := renderWithin_eq_ok.1 hw
      cases hnode.symm.trans hold
      have hnodup := Wire.nodup_names_fields hlegible.inPlace hshown
      rw [OrderedMap.entries_ofList hnodup]
      intro σ
      refine Wire.settled_of_inPlace hlegible.inPlace
        (hshown.and_mem.mono fun id w hw => ih id hw.2 hw.1) hnodup ?_
      rintro ⟨href, hnone⟩
      have htarget := hlegible.target href
      rw [hnone] at htarget
      cases htarget

theorem Readable.tag_of_renderWithin (hx : s.Readable x)
    (hw : s.renderWithin depth x = .ok w) : ∃ tag, w.field? Key.tag = some (.text tag) := by
  cases depth with
  | zero => cases hw
  | succ depth =>
    obtain ⟨node, children, serialization, hnode, hshown, rfl⟩ := renderWithin_eq_ok.1 hw
    refine ⟨node.tag, ?_⟩
    rw [OrderedMap.entries_ofList (Wire.nodup_names_fields (hx.parts hnode).1.inPlace hshown)]
    rfl

end Store

/-! ### Rendering and loading again -/

theorem Wire.readable_of_load {σ : Type} {implied : Option Kind} {path : List Step} {value : Json}
    {id : NodeId} {st st' : Store × σ} (h : load implied path value st = .ok id st') :
    st'.1.Readable id := by
  obtain ⟨-, hplanted⟩ := load_plants _ h
  suffices hall : ∀ x : NodeId, st.1.size ≤ x.index → x.index < st'.1.size → st'.1.Readable x from
    hall id (hplanted.bounds id List.mem_cons_self).1 (hplanted.bounds id List.mem_cons_self).2
  intro x
  -- nodes hold earlier ones
  induction hindex : x.index using Nat.strong_induction_on generalizing x with
  | _ index ih =>
    subst hindex
    intro hlo hlt
    cases hnode : st'.1.get? x with
    | none => exact absurd hlt (Nat.not_lt.2 (Store.get?_eq_none.1 hnode))
    | some node =>
      refine .node hnode ((load_adds value h).legible x node hlo hnode) fun child hchild => ?_
      obtain ⟨hlo', hless⟩ := hplanted.inside x child hlo ⟨node, hnode, hchild⟩
      exact ih child.index hless child rfl hlo' (Nat.lt_trans hless hlt)

namespace Document

variable {s : Store} {x : NodeId} {w : Json}

/-- **A legible schema can be rendered and loaded again**, and what is loaded is a twin of it. -/
theorem exists_reload (hx : s.Grounded Wire.Legible x) (hw : s.render x = .ok w) :
    ∃ d, ofJson w = .ok d ∧ s.Twin d.store x d.root ∧
      d.store.collectDefinitions d.root = .ok d.definitions := by
  obtain ⟨root, ⟨store, own⟩, hload, -, hshows⟩ := 
    Wire.Settled.load (hx.readable.settled hw) none [] (Store.empty, ())
  have htwin : s.Twin store x root := Store.twin_of_renderWithin hx.readable
    (Wire.readable_of_load hload) hw hshows.render
  have hroot : store.Grounded (fun _ => True) root :=
    htwin.grounded (fun _ _ _ _ _ => trivial) hx
  obtain ⟨definitions, hdefinitions⟩ : ∃ definitions, store.collectDefinitions root = .ok definitions :=
    ⟨_, bind_eq_ok.2 ⟨_, bind_eq_ok.2 ⟨_, hroot.preorder_eq, rfl⟩, rfl⟩⟩
  have hrun : load w (Store.empty, ()) = .ok (root, definitions) (store, own) := by
    obtain ⟨tag, htag⟩ := hx.readable.tag_of_renderWithin hw
    unfold load
    rw [htag]
    cases w.field? Key.inner <;>
      exact Pass.bind_eq_ok.2 ⟨root, (store, own), hload,
        Pass.bind_eq_ok.2 ⟨definitions, _, Pass.look_eq_ok.2 ⟨hdefinitions, rfl⟩, rfl⟩⟩
  refine ⟨⟨store, root, definitions⟩, ?_, htwin, hdefinitions⟩
  rw [ofJson, hrun]

end Document

end SchemaGraph
