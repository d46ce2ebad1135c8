import SchemaGraph.Proofs.Flatten.Apart
import SchemaGraph.Proofs.Simplify.Frame
import SchemaGraph.Proofs.Simplify.Legible
import SchemaGraph.Proofs.Simplify.Lockstep
import SchemaGraph.Proofs.Simplify.Reloaded

/-!
Inlining at once and inlining later. A clean-up that lists all definitions and inlines nothing can be
rendered and loaded; a clean-up of what was loaded, this time with inlining, comes to the same text as
one that inlined from the start.

* `Scope.Mirrors.alongside` — separate mirrored scopes lead to the same replacements;
* `Alongside.exists_twin` — inlining alongside ends in twins;
* `simplifyReferences_modes` — **the two ways of cleaning up agree**.
-/

namespace SchemaGraph

variable {s t : Store} {top flat : NodeId} {d : Document}

/-! ### Inlining alongside -/

section Alongside

variable {scope other : Scope} {root root' : NodeId} {found found' : Gathered}

/-- **Separate mirrored scopes** lead to the same replacements. -/
theorem Scope.Mirrors.alongside (hm : scope.Mirrors other root root')
    (h : scope.gather root = .ok found) (hsep : scope.Separate root)
    (hsep' : other.Separate root') :
    ∃ found', Alongside scope other root root' found found' := by
  obtain ⟨found', h', hkeys, hrecursive⟩ := hm.gather h
  refine ⟨found', hm, h, h', hkeys, fun name => Bool.eq_iff_iff.2 ?_⟩
  rw [Gathered.isSome_soleOccurrence?, Gathered.isSome_soleOccurrence?, ← once_iff h', ← once_iff h,
    hrecursive]
  exact and_congr_left fun _ => ⟨hm.once_left h hsep', hm.once_right h hsep⟩

variable {σ : Type} {own own' : σ} {definitions definitions' : Definitions} {st' : Store × σ}

/-- **Inlining alongside ends in twins.** -/
theorem Alongside.exists_twin
    (h : Alongside { store := s, definitions } { store := t, definitions := definitions' } root root'
      found found')
    (hroot : s.Grounded Node.IsFlat root)
    (hbodies : ∀ name body, definitions.get? name = some body → s.FlatBody body)
    (hroot' : t.Grounded Node.IsFlat root')
    (hbodies' : ∀ name body, definitions'.get? name = some body → t.FlatBody body)
    (hrun : inlineReferences root definitions (s, own) = .ok top st') :
    ∃ top' last, inlineReferences root' definitions' (t, own') = .ok top' last ∧
      st'.1.Twin last.1 top top' := by
  obtain ⟨top', last, hrun'⟩ := exists_inlineReferences h.gather_other own'
  obtain ⟨_, s₂, kept, hgather, hs₂, -, hnames, hkept, hrewritten, hwrap⟩ :=
    rewritten_of_inlineReferences hroot hbodies hrun
  cases h.gather.symm.trans hgather
  obtain ⟨_, t₂, kept', hgather', ht₂, -, hnames', hkept', hrewritten', hwrap'⟩ :=
    rewritten_of_inlineReferences hroot' hbodies' hrun'
  cases h.gather_other.symm.trans hgather'
  have hover : ∀ x x', Matched _ _ root root' x x' →
      s₂.AkinOver t₂ (Matched _ _ root root') x x' := fun x x' hx => h.akinOver hs₂ ht₂ hx.left hx
  refine ⟨top', last, hrun', hwrap.twin hwrap'
    (twin_of_akinOver hover hrewritten.root hrewritten'.root h.matched_root) ?_⟩
  have hsame : kept'.map Prod.fst = kept.map Prod.fst := by rw [hnames, hnames', h.staying_eq]
  refine forall₂_of_names hsame fun name body body' hentry hentry' => ?_
  obtain ⟨hstays, hbody⟩ := (mem_kept_iff hnames hkept).1 hentry
  obtain ⟨hstays', hbody'⟩ := (mem_kept_iff hnames' hkept').1 hentry'
  obtain ⟨_, hthere, hakin⟩ := h.mirrors.bodies _ body hbody
  cases hbody'.symm.trans hthere
  exact akin_of_akinOver hover (hrewritten.bodies _ hentry) (hrewritten'.bodies _ hentry')
    ⟨covered_of_stays hgather hstays hbody, covered_of_stays hgather' hstays' hbody', hakin⟩

end Alongside

/-! ### The two ways of cleaning up -/

variable {σ : Type} {own : σ} {value v : Json} {st' : Store × σ}

/-- A clean-up that inlines nothing goes through once flattening did. -/
theorem exists_simplifyReferences {root : NodeId} {definitions all : Definitions} {st₁ : Store × σ}
    (h : flattenReferences root definitions (s, own) = .ok (flat, all) st₁) :
    ∃ top st', simplifyReferences root definitions false (s, own) = .ok top st' ∧
      Rewritten st₁.1 flat all.entries ∧ Wrapped st₁.1 flat all.entries st'.1 top := by
  obtain ⟨-, hbodies⟩ := flat_of_flattenReferences h
  have hthere : ∀ entry ∈ all.entries, entry.2.index < st₁.1.size := by
    intro entry hentry
    obtain ⟨node, _, hnode, -⟩ := hbodies entry.1 entry.2 (OrderedMap.mem_entries_iff.1 hentry)
    exact Store.lt_size_of_get? hnode
  obtain ⟨top, st', hwrap⟩ := exists_wrapped flat hthere
  have hrun : simplifyReferences root definitions false (s, own) = .ok top st' :=
    Pass.bind_eq_ok.2 ⟨(flat, all), st₁, h, hwrap⟩
  obtain ⟨_, _, _, _, _, hsame, hrewritten, hwrapped, hfalse⟩ := rewritten_of_simplifyReferences hrun
  cases h.symm.trans hsame
  obtain ⟨rfl, rfl⟩ := hfalse rfl
  exact ⟨top, st', hrun, hrewritten, hwrapped⟩

/-- **The two ways of cleaning up agree.** What a clean-up with inlining comes to is also what one
comes to that inlines only after all definitions were listed, rendered and loaded. -/
theorem simplifyReferences_modes (hd : Document.ofJson value = .ok d)
    (hnameless : d.NamelessDefinitions)
    (h : simplifyReferences d.root d.definitions true (d.store, own) = .ok top st')
    (hv : st'.1.render top = .ok v) :
    ∃ top₁ st₁ v₁ d₂ top₂ st₂,
      simplifyReferences d.root d.definitions false (d.store, own) = .ok top₁ st₁ ∧
      st₁.1.render top₁ = .ok v₁ ∧ Document.ofJson v₁ = .ok d₂ ∧
      simplifyReferences d₂.root d₂.definitions true (d₂.store, own) = .ok top₂ st₂ ∧
      st₂.1.render top₂ = .ok v := by
  have hforest := Document.forest_of_ofJson hd
  have hfinite := grounded_of_simplifyReferences h
  obtain ⟨⟨flat, all⟩, ⟨s, own₁⟩, hflatten, hinline⟩ := Pass.bind_eq_ok.1 h
  obtain ⟨hroot, hbodies⟩ := flat_of_flattenReferences hflatten
  obtain ⟨found, -, -, hgather, -⟩ := rewritten_of_inlineReferences hroot hbodies hinline
  obtain ⟨stage, hstage, rfl, rfl, rfl⟩ := flattened_of_flattenReferences hforest hflatten
  -- all definitions listed, rendered and found again
  obtain ⟨top₁, st₁, hlisted, hrewritten, hwrap⟩ := exists_simplifyReferences hflatten
  have hlegible := legible_of_simplifyReferences hd hlisted
  obtain ⟨v₁, hv₁⟩ := hlegible.render
  obtain ⟨d₂, flat₂, t, hd₂, hrefound⟩ := exists_refound hwrap hrewritten hlegible hv₁
  -- the flat schemas mirror each other, and inlining goes on alongside
  obtain ⟨hroot₂, hbodies₂⟩ := flat_of_flattenReferences (hrefound.flatten own₁)
  have hmirrors := Scope.mirrors_of_entries (hrefound.twin hwrap hrewritten).akin
    (hrefound.akin_bodies hwrap hrewritten)
  obtain ⟨found₂, halong⟩ := hmirrors.alongside hgather
    (hstage.separate hforest hnameless fun id node => Document.nodup_of_ofJson hd) hrefound.separate
  obtain ⟨top₂, st₂, hinline₂, htwin⟩ :=
    halong.exists_twin hroot hbodies hroot₂ hbodies₂ hinline
  exact ⟨top₁, st₁, v₁, d₂, top₂, st₂, hlisted, hv₁, hd₂,
    Pass.bind_eq_ok.2 ⟨_, _, hrefound.flatten own₁, hinline₂⟩, htwin.render hfinite hv⟩

/-- `Y` is listed around a tuple in which `X` was inlined, whether at once or later. -/
theorem usedDocument_modes :
    Document.ofJson usedBefore = .ok usedDocument ∧ usedDocument.NamelessDefinitions ∧
      ∃ v, usedResult.render ⟨9⟩ = .ok v ∧
        ∃ top₁ st₁ v₁ d₂ top₂ st₂,
          simplifyReferences usedDocument.root usedDocument.definitions false
            (usedDocument.store, ()) = .ok top₁ st₁ ∧
          st₁.1.render top₁ = .ok v₁ ∧ Document.ofJson v₁ = .ok d₂ ∧
          simplifyReferences d₂.root d₂.definitions true (d₂.store, ()) = .ok top₂ st₂ ∧
          st₂.1.render top₂ = .ok v := by
  have hnameless : usedDocument.NamelessDefinitions := by decide +kernel
  obtain ⟨v, hv⟩ := (grounded_of_simplifyReferences simplifyReferences_usedDocument).render
  exact ⟨ofJson_usedBefore, hnameless, v, hv,
    simplifyReferences_modes ofJson_usedBefore hnameless simplifyReferences_usedDocument hv⟩

end SchemaGraph
