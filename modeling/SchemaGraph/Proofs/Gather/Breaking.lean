import Mathlib.Order.WellFounded
import SchemaGraph.Proofs.Gather.Cycles

/-!
The names that `gather` marks break all cycles. On each cycle of references the name that is met first
is marked: the way round the cycle leads from it through names met later back to it. So no cycle is
left when the marked names are taken away (`recursive_breaks`).
-/

namespace SchemaGraph

namespace Scope

variable {scope : Scope} {root : NodeId} {found : Gathered} {R : String → String → Prop}
  {name first : String} {met names : List String}

/-- The names refer to each other in turn, and the last one to the first. All of them occur. -/
structure Circle (scope : Scope) (root : NodeId) (names : List String) : Prop where
  occurs : ∀ name ∈ names, scope.Occurs root name
  closed : ∃ first rest, names = first :: rest ∧ List.IsChain scope.Refers (names ++ [first])

/-- A reference between two names that occur and are not marked. -/
def Unbroken (scope : Scope) (root : NodeId) (found : Gathered) (name other : String) : Prop :=
  (scope.Occurs root name ∧ name ∉ found.recursive) ∧
    (scope.Occurs root other ∧ other ∉ found.recursive) ∧ scope.Refers name other

/-! ### The first name of a cycle -/

/-- On a cycle there is a name that was met before all others on it. -/
theorem exists_met_first (met : List String) (hcycle : Relation.TransGen R name name) :
    ∃ first, Relation.TransGen R first first ∧ Relation.ReflTransGen R name first ∧
      ∀ other, Relation.ReflTransGen R first other → Relation.ReflTransGen R other first →
        met.idxOf first ≤ met.idxOf other := by
  -- the names that lie on a common cycle with `name`
  let mates : Set String :=
    {other | Relation.ReflTransGen R name other ∧ Relation.ReflTransGen R other name}
  obtain ⟨first, ⟨hto, hfrom⟩, hmin⟩ :=
    (measure fun other => met.idxOf other).wf.has_min mates ⟨name, .refl, .refl⟩
  refine ⟨first, ?_, hto, fun other hout hback => ?_⟩
  · exact Relation.TransGen.trans_right hfrom (Relation.TransGen.trans_left hcycle hto)
  · exact Nat.le_of_not_lt (hmin other ⟨hto.trans hout, hback.trans hfrom⟩)

/-- From the first name of a cycle the way round leads through names met later. -/
theorem staysAfter_of_first (hrefers : ∀ a b, R a b → scope.Refers a b)
    (hfirst : ∀ other, Relation.ReflTransGen R first other → Relation.ReflTransGen R other first →
      met.idxOf first ≤ met.idxOf other) {last : String}
    (hpath : Relation.ReflTransGen R first last) (hback : Relation.ReflTransGen R last first) :
    Relation.ReflTransGen (scope.StaysAfter met first) first last := by
  induction hpath with
  | refl => exact .refl
  | tail hpath hstep ih =>
    exact (ih (.head hstep hback)).tail ⟨hrefers _ _ hstep, hfirst _ (hpath.tail hstep) hback⟩

/-- **Each cycle has a marked name.** -/
theorem exists_recursive_of_cycle (h : scope.gather root = .ok found)
    (hrefers : ∀ a b, R a b → scope.Refers a b) (hoccurs : scope.Occurs root name)
    (hcycle : Relation.TransGen R name name) :
    ∃ first, first ∈ found.recursive ∧ Relation.TransGen R first first := by
  obtain ⟨first, hround, hto, hfirst⟩ := exists_met_first found.occurrences.keys hcycle
  obtain ⟨last, hpath, hlast⟩ := Relation.TransGen.tail'_iff.1 hround
  have hstays := staysAfter_of_first hrefers hfirst hpath (.single hlast)
  have hoccurs_first : scope.Occurs root first :=
    hoccurs.of_path (Relation.ReflTransGen.mono hrefers _ _ hto)
  exact ⟨first, (mem_recursive_iff h).2
    ⟨hoccurs_first, first, last, .refl, hstays, hrefers _ _ hlast⟩, hround⟩

/-! ### Cycles as lists of names -/

theorem paths_of_isChain {start stop : String} {rest : List String}
    (h : List.IsChain R (start :: rest ++ [stop])) :
    ∀ x ∈ start :: rest, Relation.ReflTransGen R start x ∧ Relation.TransGen R x stop := by
  induction rest generalizing start with
  | nil =>
    intro x hx
    rw [List.mem_singleton.1 hx]
    exact ⟨.refl, .single (List.isChain_cons_cons.1 h).1⟩
  | cons next rest ih =>
    obtain ⟨hstep, hrest⟩ := List.isChain_cons_cons.1 h
    intro x hx
    rcases List.mem_cons.1 hx with rfl | hx
    · exact ⟨.refl, .head hstep (ih hrest next List.mem_cons_self).2⟩
    · exact ⟨.head hstep (ih hrest x hx).1, (ih hrest x hx).2⟩

theorem Circle.transGen (h : scope.Circle root names) :
    ∃ first ∈ names, Relation.TransGen (fun a b => a ∈ names ∧ scope.Refers a b) first first := by
  obtain ⟨first, rest, rfl, hchain⟩ := h.closed
  refine ⟨first, List.mem_cons_self, ?_⟩
  have hinside : List.IsChain (fun a b => a ∈ first :: rest ∧ scope.Refers a b)
      (first :: rest ++ [first]) := by
    refine hchain.imp_of_mem_imp fun a b ha _ hstep => ⟨?_, hstep⟩
    rcases List.mem_append.1 ha with ha | ha
    · exact ha
    · exact List.mem_singleton.1 ha ▸ List.mem_cons_self
  exact (paths_of_isChain hinside first List.mem_cons_self).2

/-! ### The whole run -/

/-- **The marked names break recursion.** When `gather` goes through, each marked name lies on a cycle
of references, each cycle has a marked name, no cycle is left among the names that are not marked, and
no name is marked exactly if there is no cycle. -/
theorem recursive_breaks (h : scope.gather root = .ok found) :
    (∀ name, name ∈ found.recursive → scope.OnCycle root name) ∧
      (∀ names, scope.Circle root names → ∃ name ∈ names, name ∈ found.recursive) ∧
      (∀ name, ¬ Relation.TransGen (scope.Unbroken root found) name name) ∧
      ((∀ name, name ∉ found.recursive) ↔ ∀ name, ¬ scope.OnCycle root name) := by
  have honly : ∀ name, name ∈ found.recursive → scope.OnCycle root name := by
    intro name hname
    obtain ⟨hoccurs, hcloses⟩ := (mem_recursive_iff h).1 hname
    exact ⟨hoccurs, hcloses.cycle⟩
  refine ⟨honly, fun names hnames => ?_, fun name hcycle => ?_, fun hnone name hname => ?_,
    fun hnone name hname => hnone name (honly name hname)⟩
  · obtain ⟨start, hstart, hcycle⟩ := hnames.transGen
    obtain ⟨first, hmarked, hround⟩ := exists_recursive_of_cycle h (fun a b hab => hab.2)
      (hnames.occurs start hstart) hcycle
    obtain ⟨next, ⟨hfirst, -⟩, -⟩ := Relation.TransGen.head'_iff.1 hround
    exact ⟨first, hfirst, hmarked⟩
  · obtain ⟨next, ⟨⟨hoccurs, -⟩, -⟩, -⟩ := Relation.TransGen.head'_iff.1 hcycle
    obtain ⟨first, hmarked, hround⟩ := exists_recursive_of_cycle h (fun a b hab => hab.2.2)
      hoccurs hcycle
    obtain ⟨next, ⟨⟨-, hunmarked⟩, -⟩, -⟩ := Relation.TransGen.head'_iff.1 hround
    exact hunmarked hmarked
  · obtain ⟨first, hmarked, -⟩ := exists_recursive_of_cycle h (fun _ _ hab => hab) hname.1 hname.2
    exact hnone first hmarked

/-- Two cycles that share a name are both broken, though not each name on them is marked. -/
theorem overlappingScope_breaks :
    ∃ found, overlappingScope.gather ⟨0⟩ = .ok found ∧ found.recursive.toList = ["A", "X"] ∧
      (∀ name, name ∈ found.recursive → overlappingScope.OnCycle ⟨0⟩ name) ∧
      (∀ names, overlappingScope.Circle ⟨0⟩ names → ∃ name ∈ names, name ∈ found.recursive) ∧
      (∀ name, ¬ Relation.TransGen (overlappingScope.Unbroken ⟨0⟩ found) name name) ∧
      ((∀ name, name ∉ found.recursive) ↔ ∀ name, ¬ overlappingScope.OnCycle ⟨0⟩ name) :=
  ⟨_, gather_overlappingScope, by decide +kernel, recursive_breaks gather_overlappingScope⟩

end Scope

end SchemaGraph
