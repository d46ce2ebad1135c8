import SchemaGraph.Proofs.Gather.Meets
import SchemaGraph.Proofs.Gather.Order
import SchemaGraph.Proofs.Unfolding
import SchemaGraph.Proofs.Wire.Twins

/-!
The reference graphs of twins. Where two scopes have the same schema at the root and under each name,
up to the ids of the nodes and the names that the bodies carry, the walks over them go in lockstep.

* `Store.Akin` — twins, but for the name that the node itself carries;
* `Scope.Mirrors` — the other scope has akin schemas at the root and under each name;
* `Scope.Mirrors.gather` — **mirrored scopes have the same reference graph**: the same names in the
  order of their first use, the same ones marked as recursive.
-/

namespace SchemaGraph

/-! ### Twins but for a name -/

theorem Node.Alike.of_anonymous {R : NodeId → NodeId → Prop} {node node' : Node}
    (h : node.anonymous.Alike R node'.anonymous) (hname : node'.name = node.name) :
    node.Alike R node' := by
  refine ⟨?_, h.keys, h.children, h.serialization⟩
  have hcontent := h.content
  cases node'
  simp_all [Node.anonymous]

namespace Store

variable {s s' t t' : Store} {x x' : NodeId} {ids : List NodeId}

/-- Nodes of two stores that are alike but for their names, over related nodes. -/
def AkinOver (s s' : Store) (R : NodeId → NodeId → Prop) (x x' : NodeId) : Prop :=
  ∃ node node', s.get? x = some node ∧ s'.get? x' = some node' ∧
    node.anonymous.Alike R node'.anonymous

/-- Nodes of two stores that are alike but for their names, over twins. -/
def Akin (s s' : Store) : NodeId → NodeId → Prop := s.AkinOver s' (s.Twin s')

theorem Twin.akin (h : s.Twin s' x x') : s.Akin s' x x' := by
  obtain ⟨node, node', hnode, hnode', halike⟩ := h.parts
  refine ⟨node, node', hnode, hnode', ⟨?_, halike.keys, halike.children, halike.serialization⟩⟩
  exact congrArg Node.anonymous halike.content

theorem Akin.extends (h : s.Akin s' x x') (hext : s.Extends t) (hext' : s'.Extends t') :
    t.Akin t' x x' := by
  obtain ⟨node, node', hnode, hnode', halike⟩ := h
  exact ⟨node, node', hext.get?_of_some hnode, hext'.get?_of_some hnode',
    halike.mono fun _ _ h => h.extends hext hext'⟩

theorem Akin.isReference_eq (h : s.Akin s' x x') {node node' : Node} (hnode : s.get? x = some node)
    (hnode' : s'.get? x' = some node') :
    node'.isReference = node.isReference ∧ node'.target = node.target := by
  obtain ⟨_, _, hold, hold', halike⟩ := h
  cases hnode.symm.trans hold
  cases hnode'.symm.trans hold'
  exact ⟨halike.isReference_eq, halike.target_eq⟩

theorem Akin.childIds (h : s.Akin s' x x') (hids : s.childIds x = .ok ids) :
    ∃ ids', s'.childIds x' = .ok ids' ∧ List.Forall₂ (s.Twin s') ids ids' := by
  obtain ⟨node, node', hnode, hnode', halike⟩ := h
  obtain ⟨kind, hkind, hfits, rfl⟩ := childIds_parts hids hnode
  exact ⟨node'.orderedChildren kind, childIds_eq_ok.2
    ⟨node', kind, hnode', halike.kind?_eq.trans hkind, halike.fits hfits, rfl⟩,
    halike.orderedChildren kind⟩

end Store

/-! ### Progress that agrees -/

/-- The same bodies are being walked, the same names are met, the same ones marked. -/
structure Progress.Agrees (p p' : Progress) : Prop where
  frames : p'.frames = p.frames
  expansions : p'.expansions = p.expansions
  recursive : p'.found.recursive = p.found.recursive

namespace Progress.Agrees

variable {p p' : Progress} {id id' : NodeId} {node node' : Node} {key key' name : String}

theorem mark (h : p.Agrees p') : (p.mark key id node).Agrees (p'.mark key' id' node') where
  frames := h.frames
  expansions := h.expansions
  recursive := by rw [Scope.recursive_mark, Scope.recursive_mark, h.recursive]

theorem note (h : p.Agrees p') : (p.note name id).Agrees (p'.note name id') where
  frames := h.frames
  expansions := h.expansions
  recursive := by rw [Scope.recursive_note, Scope.recursive_note, h.recursive]

theorem closeCycle (h : p.Agrees p') : (p.closeCycle name).Agrees (p'.closeCycle name) where
  frames := h.frames
  expansions := h.expansions
  recursive := by
    show p'.found.recursive.insertMany (cycleTo name p'.frames) = _
    rw [h.recursive, h.frames]
    rfl

theorem openBody (h : p.Agrees p') : (p.openBody name).Agrees (p'.openBody name) where
  frames := congrArg (List.cons name) h.frames
  expansions := congrArg (fun m => m.insert name .inProgress) h.expansions
  recursive := h.recursive

theorem finishBody (h : p.Agrees p') : (p.finishBody name).Agrees (p'.finishBody name) where
  frames := congrArg List.tail h.frames
  expansions := congrArg (fun m => m.insert name .done) h.expansions
  recursive := h.recursive

end Progress.Agrees

/-! ### Walks in lockstep -/

namespace Scope

variable {scope other : Scope} {root root' id id' : NodeId} {node node' : Node}
  {p p' q entered : Progress} {ids ids' : List NodeId} {found : Gathered}

theorem Enters.mirror (h : scope.Enters id node p entered) (hp : p.Agrees p')
    (href : node'.isReference = node.isReference) (htarget : node'.target = node.target) :
    ∃ entered', other.Enters id' node' p' entered' ∧ entered.Agrees entered' := by
  cases h with
  | plain hplain => exact ⟨_, .plain (href.trans hplain), hp.mark⟩
  | known name hisref hname hstate =>
    exact ⟨_, .known name (href.trans hisref) (htarget.trans hname) (hp.expansions ▸ hstate),
      hp.mark.note⟩
  | closing name hisref hname hstate =>
    exact ⟨_, .closing name (href.trans hisref) (htarget.trans hname) (hp.expansions ▸ hstate),
      hp.mark.note.closeCycle⟩

/-- The scope `other` has at its root, and under each name of `scope`, what `scope` has. -/
structure Mirrors (scope other : Scope) (root root' : NodeId) : Prop where
  root : scope.store.Akin other.store root root'
  bodies : ∀ name body, scope.definitions.get? name = some body →
    ∃ body', other.definitions.get? name = some body' ∧ scope.store.Akin other.store body body'

/-- **Walks over akin nodes go in lockstep.** -/
theorem Walks.mirror (hm : scope.Mirrors other root root') (h : scope.Walks ids p q) :
    ∀ {ids' : List NodeId} {p' : Progress},
      List.Forall₂ (scope.store.Akin other.store) ids ids' → p.Agrees p' →
        ∃ q', other.Walks ids' p' q' ∧ q.Agrees q' := by
  induction h with
  | nil p =>
    intro ids' p' hids hp
    cases hids
    exact ⟨p', .nil p', hp⟩
  | @enter id node ids rest p entered q r hnode hids henter _ _ ihbelow ihrest =>
    intro ids' p' hakin hp
    cases hakin with
    | @cons _ id' _ rest' hid hrest =>
      obtain ⟨kids, hkids, htwins⟩ := hid.childIds hids
      have ⟨_, node', _, hnode', _⟩ := hid
      obtain ⟨href, htarget⟩ := hid.isReference_eq hnode hnode'
      obtain ⟨entered', henter', hentered⟩ : ∃ entered', other.Enters id' node' p' entered' ∧
          entered.Agrees entered' := henter.mirror hp href htarget
      obtain ⟨q', hbelow, hq⟩ := ihbelow (htwins.imp fun _ _ h => h.akin) hentered
      obtain ⟨r', hrest, hr⟩ := ihrest hrest hq
      exact ⟨r', .enter hnode' hkids henter' hbelow hrest, hr⟩
  | @expand id body node name ids rest p inner q r hnode hids href htarget hnew hbody _ _ _ ihinner
      ihbelow ihrest =>
    intro ids' p' hakin hp
    cases hakin with
    | @cons _ id' _ rest' hid hrest =>
      obtain ⟨kids, hkids, htwins⟩ := hid.childIds hids
      have ⟨_, node', _, hnode', _⟩ := hid
      obtain ⟨href', htarget'⟩ := hid.isReference_eq hnode hnode'
      obtain ⟨body', hbody', hakin⟩ := hm.bodies name body hbody
      obtain ⟨inner', hinner, hagree⟩ := ihinner (.cons hakin .nil) hp.mark.note.openBody
      obtain ⟨q', hbelow, hq⟩ := ihbelow (htwins.imp fun _ _ h => h.akin) hagree.finishBody
      obtain ⟨r', hrest, hr⟩ := ihrest hrest hq
      exact ⟨r', .expand hnode' hkids (href'.trans href) (htarget'.trans htarget)
        (hp.expansions ▸ hnew) hbody' hinner hbelow hrest, hr⟩

/-- **Mirrored scopes have the same reference graph**: the same names in the order of their first use,
the same ones marked as recursive. -/
theorem Mirrors.gather (hm : scope.Mirrors other root root') (h : scope.gather root = .ok found) :
    ∃ found', other.gather root' = .ok found' ∧
      found'.occurrences.keys = found.occurrences.keys ∧ found'.recursive = found.recursive := by
  obtain ⟨p, hwalk, rfl, hkeys⟩ := keys_eq_of_gather h
  obtain ⟨p', hwalk', hp⟩ := hwalk.mirror hm (.cons hm.root .nil) ⟨rfl, rfl, rfl⟩
  refine ⟨p'.found, gather_of_walks hwalk', ?_, hp.recursive⟩
  rw [← hwalk'.keys_eq rfl, ← hkeys, hp.expansions]

end Scope

end SchemaGraph
