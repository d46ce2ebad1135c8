import SchemaGraph.Proofs.Gather.Placed
import SchemaGraph.Proofs.Simplify.Uses

/-!
The references that are left after inlining. Where nothing is below a reference and no place is
overtaken, inlining loses nothing: each node that was covered is shown somewhere, two of them at
different nodes, and what referred to a name through inlined names refers to it at once. So the names
that stay keep the number of their occurrences, and their cycles.

* `Lossless` — inlining that loses nothing;
* `Gets`, `Begins`, `Shows` — where the nodes of before are seen after inlining;
* `Lossless.exists_shows`, `Shows.unique` — each covered node is shown, and no two at one node;
* `Lossless.once` — **a name that stays and occurs once had one occurrence before**;
* `Lossless.mem_recursive` — **a name that was marked is marked again**.
-/

namespace SchemaGraph

variable {scope out : Scope} {root x y z b u : NodeId} {found found' : Gathered} {s₂ : Store}
  {name other last : String}

theorem Store.Mentions.eq {s : Store} (h : s.Mentions x name) (h' : s.Mentions x other) :
    name = other := by
  obtain ⟨node, hnode, -, htarget⟩ := h
  obtain ⟨_, hsame, -, htarget'⟩ := h'
  cases hnode.symm.trans hsame
  exact Option.some.inj (htarget.symm.trans htarget')

theorem leads_of_below (hx : scope.Covered root x) (h : scope.store.Below x y) :
    Relation.ReflTransGen (Leads scope root found) x y := by
  induction h with
  | refl => exact .refl
  | tail hbelow hchild ih => exact ih.tail ⟨hx.of_below hbelow, .inl hchild⟩

theorem idxOf_filter_le {α : Type} [BEq α] [LawfulBEq α] {p : α → Bool} {a b : α} (ha : p a = true) :
    ∀ {l : List α}, l.idxOf a ≤ l.idxOf b → (l.filter p).idxOf a ≤ (l.filter p).idxOf b
  | [], _ => by simp
  | c :: l, h => by
    by_cases hca : c = a
    · subst hca
      simp [List.filter_cons_of_pos ha]
    · by_cases hcb : c = b
      · subst hcb
        simp [List.idxOf_cons_ne l hca] at h
      · rw [List.idxOf_cons_ne l hca, List.idxOf_cons_ne l hcb] at h
        have ih := idxOf_filter_le ha (Nat.le_of_succ_le_succ h)
        cases hc : p c with
        | false => simpa [List.filter_cons, hc] using ih
        | true =>
          simp only [List.filter_cons, hc, if_true, List.idxOf_cons_ne _ hca,
            List.idxOf_cons_ne _ hcb]
          exact Nat.succ_le_succ ih

/-! ### Where a node is shown -/

/-- The other node holds the same nodes and refers to the same name. -/
structure Node.SameLinks (node other : Node) : Prop where
  storedIds : other.storedIds = node.storedIds
  isReference : other.isReference = node.isReference
  target : other.target = node.target

theorem Node.SameLinks.trans {node other last : Node} (h : node.SameLinks other)
    (h' : other.SameLinks last) : node.SameLinks last :=
  ⟨h'.storedIds.trans h.storedIds, h'.isReference.trans h.isReference, h'.target.trans h.target⟩

/-- The place `x` gets the body `b`. -/
def Gets (scope : Scope) (found : Gathered) (x b : NodeId) : Prop :=
  ∃ name, found.soleOccurrence? name = some x ∧ scope.definitions.get? name = some b

/-- The node at `u` has the links of the node at `x` and is that node, if it bears no name, or a copy
of the body at `x`, if it bears its name. -/
def Begins (scope out : Scope) (u x : NodeId) : Prop :=
  ∃ node content, out.store.get? u = some node ∧ out.store.get? x = some content ∧
    content.SameLinks node ∧
    (node.name = none ∧ u = x ∨ ∃ name, node.name = some name ∧ scope.definitions.get? name = some x)

/-- The node at `u` shows what was at `y`: it begins with the node at `y`, or with a place that gets
it. -/
def Shows (scope out : Scope) (root : NodeId) (found : Gathered) (u y : NodeId) : Prop :=
  ∃ x, Begins scope out u x ∧ scope.Covered root x ∧ Relation.ReflTransGen (Gets scope found) x y

theorem Begins.unique (h : Begins scope out u x) (h' : Begins scope out u y) : x = y := by
  obtain ⟨node, -, hnode, -, -, hstart⟩ := h
  obtain ⟨_, -, hsame, -, -, hstart'⟩ := h'
  cases hnode.symm.trans hsame
  rcases hstart with ⟨hname, rfl⟩ | ⟨name, hname, hbody⟩
  · rcases hstart' with ⟨-, rfl⟩ | ⟨name, hname', -⟩
    · rfl
    · cases hname.symm.trans hname'
  · rcases hstart' with ⟨hname', -⟩ | ⟨_, hname', hbody'⟩
    · cases hname.symm.trans hname'
    · cases hname.symm.trans hname'
      exact Option.some.inj (hbody.symm.trans hbody')

/-- A node that is no place and is got from `x` is the only one. -/
theorem eq_of_gets (h : scope.gather root = .ok found)
    (hy : Relation.ReflTransGen (Gets scope found) x y)
    (hz : Relation.ReflTransGen (Gets scope found) x z)
    (hynone : ∀ name, found.soleOccurrence? name ≠ some y)
    (hznone : ∀ name, found.soleOccurrence? name ≠ some z) : y = z := by
  have hunique : Relator.RightUnique (Gets scope found) := by
    rintro x b b' ⟨name, hname, hb⟩ ⟨other, hother, hb'⟩
    cases sole_injective h hname hother
    exact Option.some.inj (hb.symm.trans hb')
  have hlast : ∀ {y z}, (∀ name, found.soleOccurrence? name ≠ some y) →
      Relation.ReflTransGen (Gets scope found) y z → y = z := by
    intro y z hnone hpath
    obtain rfl | ⟨_, ⟨name, hname, -⟩, -⟩ := hpath.cases_head
    · rfl
    · exact absurd hname (hnone name)
  rcases hy.total_of_right_unique hunique hz with hpath | hpath
  · exact hlast hynone hpath
  · exact (hlast hznone hpath).symm

/-- **Two nodes that are no places** are shown at different nodes. -/
theorem Shows.unique (h : scope.gather root = .ok found) (hy : Shows scope out root found u y)
    (hz : Shows scope out root found u z) (hynone : ∀ name, found.soleOccurrence? name ≠ some y)
    (hznone : ∀ name, found.soleOccurrence? name ≠ some z) : y = z := by
  obtain ⟨x, hbegins, -, hgets⟩ := hy
  obtain ⟨_, hbegins', -, hgets'⟩ := hz
  cases hbegins.unique hbegins'
  exact eq_of_gets h hgets hgets' hynone hznone

theorem Shows.gets (h : Shows scope out root found u y) (hz : Gets scope found y z) :
    Shows scope out root found u z := by
  obtain ⟨x, hbegins, hx, hpath⟩ := h
  exact ⟨x, hbegins, hx, hpath.tail hz⟩

/-! ### Inlining that loses nothing -/

/-- No place is overtaken, and nothing is below a reference. -/
structure Lossless (scope : Scope) (root : NodeId) (found : Gathered) (s₂ : Store) (out : Scope) :
    Prop extends Cleaned scope root found s₂ out where
  root_flat : out.store.Grounded Node.IsFlat root
  kept : ∀ o, ¬ Overtaken scope.definitions found o
  bare : ∀ x node, scope.Covered root x → scope.store.get? x = some node →
    node.isReference = true → node.serialization = none

theorem Node.sameLinks_inlinedAt {body site : Node} (hsite : site.serialization = none) :
    body.SameLinks (body.inlinedAt site) := by
  refine ⟨?_, rfl, rfl⟩
  simp [Node.inlinedAt, Node.storedIds, hsite]

/-- A node that stays where it was begins with itself. -/
theorem begins_of_isFlat (hx : out.store.Grounded Node.IsFlat x) : Begins scope out x x := by
  cases hx with
  | node hnode _ _ hflat _ =>
    exact ⟨_, _, hnode, hnode, ⟨rfl, rfl, rfl⟩, .inl ⟨hflat.nameless, rfl⟩⟩

namespace Lossless

variable (h : Lossless scope root found s₂ out)

include h

theorem bare_site (hname : found.soleOccurrence? name = some x) {site : Node}
    (hsite : scope.store.get? x = some site) : site.serialization = none := by
  obtain ⟨hx, _, hsame, href, -⟩ := covered_of_sole h.gather hname
  cases hsite.symm.trans hsame
  exact h.bare x site hx hsite href

/-- **What is at a covered node after inlining** has the links of what was at the node that it gets. -/
theorem exists_content (hx : scope.Covered root x) :
    ∃ y node content, Relation.ReflTransGen (Gets scope found) x y ∧
      (∀ name, found.soleOccurrence? name ≠ some y) ∧ scope.store.get? y = some node ∧
      out.store.get? x = some content ∧ node.SameLinks content := by
  refine h.inlined.induction h.gather (P := fun x => ∃ y node content,
    Relation.ReflTransGen (Gets scope found) x y ∧
      (∀ name, found.soleOccurrence? name ≠ some y) ∧ scope.store.get? y = some node ∧
      out.store.get? x = some content ∧ node.SameLinks content) ?_ ?_ ?_ hx
  · intro x hx hnone _
    obtain ⟨node, hnode⟩ := exists_node_of_covered h.gather hx
    exact ⟨x, node, node, .refl, hnone, hnode, (h.get?_eq_of_no_place hx hnone).trans hnode,
      rfl, rfl, rfl⟩
  · intro x name b site body _ hname hb hsite hplace hbody hlast
    refine ⟨b, body, _, .single ⟨name, hname, hb⟩, fun later hlater => ?_, hbody,
      (h.get?_eq (covered_of_sole h.gather hname).1).trans hplace,
      Node.sameLinks_inlinedAt (h.bare_site hname hsite)⟩
    exact h.kept x (.stale hname hb hlater (hlast later hlater))
  · intro x name b later site body hname hb hsite hplace hbody hlater _ ih
    obtain ⟨y, node, content, hpath, hnone, hnode, hcontent, hlinks⟩ := ih
    rw [h.get?_eq (covered_of_sole h.gather hlater).1, hbody] at hcontent
    cases hcontent
    exact ⟨y, node, _, .head ⟨name, hname, hb⟩ hpath, hnone, hnode,
      (h.get?_eq (covered_of_sole h.gather hname).1).trans hplace,
      hlinks.trans (Node.sameLinks_inlinedAt (h.bare_site hname hsite))⟩

theorem links_of_shows (hshows : Shows scope out root found u y)
    (hnone : ∀ name, found.soleOccurrence? name ≠ some y) {node : Node}
    (hnode : scope.store.get? y = some node) :
    ∃ shown, out.store.get? u = some shown ∧ node.SameLinks shown := by
  obtain ⟨x, ⟨shown, content, hshown, hcontent, hlinks, -⟩, hx, hpath⟩ := hshows
  obtain ⟨z, node', content', hpath', hnone', hnode', hcontent', hlinks'⟩ := h.exists_content hx
  cases eq_of_gets h.gather hpath hpath' hnone hnone'
  cases hnode.symm.trans hnode'
  cases hcontent.symm.trans hcontent'
  exact ⟨shown, hshown, hlinks'.trans hlinks⟩

/-- A name that stays is mentioned by no place. -/
theorem no_place_of_stays (hstays : found.Stays name) (hmention : scope.store.Mentions y name)
    (other : String) : found.soleOccurrence? other ≠ some y := by
  intro hother
  cases hmention.eq (covered_of_sole h.gather hother).2
  cases hstays.2.symm.trans hother

/-- A name that stays is mentioned where its occurrence is shown. -/
theorem mentions_of_shows (hshows : Shows scope out root found u y) (hstays : found.Stays name)
    (hmention : scope.store.Mentions y name) : out.store.Mentions u name := by
  have ⟨node, hnode, href, htarget⟩ := hmention
  obtain ⟨shown, hshown, hlinks⟩ :=
    h.links_of_shows hshows (h.no_place_of_stays hstays hmention) hnode
  exact ⟨shown, hshown, hlinks.isReference.trans href, hlinks.target.trans htarget⟩

theorem exists_shows_body (hstays : found.Stays name)
    (hb : scope.definitions.get? name = some b) :
    ∃ id, out.definitions.get? name = some id ∧ Shows scope out root found id b := by
  obtain ⟨id, hid, node, hnode, hcopy⟩ := h.emitted name b hstays hb
  have hcovered := covered_of_stays h.gather hstays hb
  rw [← h.get?_eq hcovered] at hnode
  exact ⟨id, hid, b, ⟨_, node, hcopy, hnode, ⟨rfl, rfl, rfl⟩, .inr ⟨name, rfl, hb⟩⟩, hcovered, .refl⟩

variable (hgather : out.gather root = .ok found')

include hgather

/-- **Along the ways of the scope** nodes are shown below one another. -/
theorem shows_of_leads (hu : out.Covered root u) (hshows : Shows scope out root found u x)
    (hstep : Leads scope root found x y) :
    ∃ v, out.store.Below u v ∧ Shows scope out root found v y := by
  obtain ⟨hx, hchild | ⟨name, hname, hb⟩⟩ := hstep
  · obtain ⟨ids, hids, hmem⟩ := hchild
    obtain ⟨node, kind, hnode, -, -, -⟩ := Store.childIds_eq_ok.1 hids
    have hnone : ∀ name, found.soleOccurrence? name ≠ some x := by
      intro name hname
      obtain ⟨-, -, rfl, -⟩ := h.children_of_place hname hnode hids
      simp [h.bare_site hname hnode] at hmem
    obtain ⟨shown, hshown, hlinks⟩ := h.links_of_shows hshows hnone hnode
    have hheld : y ∈ shown.storedIds := by
      obtain ⟨_, hsame, hheld⟩ := Store.IsChild.holds ⟨ids, hids, hmem⟩
      cases hnode.symm.trans hsame
      exact hlinks.storedIds ▸ hheld
    refine ⟨y, .single (hu.isChild hgather ⟨shown, hshown, hheld⟩), y, begins_of_isFlat ?_,
      .child hx ⟨ids, hids, hmem⟩, .refl⟩
    obtain ⟨start, ⟨_, content, hsame, hcontent, hsameLinks, -⟩, hstart, -⟩ := hshows
    cases hshown.symm.trans hsame
    exact (h.flatBody hstart).of_holds ⟨content, hcontent, hsameLinks.storedIds ▸ hheld⟩
  · exact ⟨u, .refl, hshows.gets ⟨name, hname, hb⟩⟩

theorem shows_of_path (hu : out.Covered root u) (hshows : Shows scope out root found u x)
    (hpath : Relation.ReflTransGen (Leads scope root found) x y) :
    ∃ v, out.store.Below u v ∧ Shows scope out root found v y := by
  induction hpath with
  | refl => exact ⟨u, .refl, hshows⟩
  | tail _ hstep ih =>
    obtain ⟨v, hbelow, hv⟩ := ih
    obtain ⟨w, hbelow', hw⟩ := h.shows_of_leads hgather (hu.of_below hbelow) hv hstep
    exact ⟨w, hbelow.trans hbelow', hw⟩

/-- **Each covered node is shown** at a covered node. -/
theorem exists_shows (hy : scope.Covered root y) :
    ∃ u, out.Covered root u ∧ Shows scope out root found u y := by
  have hleads : ∀ {x y}, (∃ u, out.Covered root u ∧ Shows scope out root found u x) →
      Leads scope root found x y → ∃ u, out.Covered root u ∧ Shows scope out root found u y := by
    rintro x y ⟨u, hu, hshows⟩ hstep
    obtain ⟨v, hbelow, hv⟩ := h.shows_of_leads hgather hu hshows hstep
    exact ⟨v, hu.of_below hbelow, hv⟩
  induction hy with
  | root => exact ⟨root, .root, root, begins_of_isFlat h.root_flat, .root, .refl⟩
  | child hx hchild ih => exact hleads ih ⟨hx, .inl hchild⟩
  | @body x b name hx hmention hb ih =>
    cases hsole : found.soleOccurrence? name with
    | some o =>
      cases (eq_of_sole h.gather hsole hx hmention : x = o)
      exact hleads ih ⟨hx, .inr ⟨name, hsole, hb⟩⟩
    | none =>
      have hstays : found.Stays name :=
        ⟨(Scope.mem_keys_iff_occurs h.gather).2 ⟨x, hx, hmention⟩, hsole⟩
      obtain ⟨u, hu, hshows⟩ := ih
      obtain ⟨id, hid, hcopy⟩ := h.exists_shows_body hstays hb
      exact ⟨id, .body hu (h.mentions_of_shows hshows hstays hmention) hid, hcopy⟩

/-- **A name that stays and occurs once** had one occurrence before. -/
theorem once (hstays : found.Stays name) (honce : out.Once root name) : scope.Once root name := by
  obtain ⟨o, ho⟩ := honce
  have hshown : ∀ y, scope.Covered root y → scope.store.Mentions y name →
      Shows scope out root found o y := by
    intro y hy hmention
    obtain ⟨u, hu, hshows⟩ := h.exists_shows hgather hy
    cases (ho u).1 ⟨hu, h.mentions_of_shows hshows hstays hmention⟩
    exact hshows
  obtain ⟨y, hy, hmention⟩ := (Scope.mem_keys_iff_occurs h.gather).1 hstays.1
  refine ⟨y, fun z => ⟨fun ⟨hz, hmention'⟩ => ?_, fun e => e ▸ ⟨hy, hmention⟩⟩⟩
  exact (hshown z hz hmention').unique h.gather (hshown y hy hmention)
    (h.no_place_of_stays hstays hmention') (h.no_place_of_stays hstays hmention)

theorem occurs (hstays : found.Stays name) : out.Occurs root name := by
  obtain ⟨y, hy, hmention⟩ := (Scope.mem_keys_iff_occurs h.gather).1 hstays.1
  obtain ⟨u, hu, hshows⟩ := h.exists_shows hgather hy
  exact ⟨u, hu, h.mentions_of_shows hshows hstays hmention⟩

/-! ### Cycles -/

omit hgather in
/-- Ways lead from a body to the bodies of the inlined names that it refers to. -/
theorem leads_of_refersToSole (hstays : found.Stays name)
    (hpath : Relation.ReflTransGen (RefersToSole scope found) name last)
    (hb : scope.definitions.get? name = some b) :
    ∃ body, scope.definitions.get? last = some body ∧ scope.Covered root body ∧
      Relation.ReflTransGen (Leads scope root found) b body := by
  induction hpath with
  | refl => exact ⟨b, hb, covered_of_stays h.gather hstays hb, .refl⟩
  | @tail middle last _ hstep ih =>
    obtain ⟨body, hbody, hcovered, hleads⟩ := ih
    obtain ⟨⟨_, id, hsame, hbelow, hmention⟩, hsole⟩ := hstep
    cases hbody.symm.trans hsame
    obtain ⟨o, ho⟩ := Option.isSome_iff_exists.1 hsole
    obtain ⟨next, hnext⟩ := Scope.exists_body h.gather ⟨id, hcovered.of_below hbelow, hmention⟩
    cases (eq_of_sole h.gather ho (hcovered.of_below hbelow) hmention : id = o)
    exact ⟨next, hnext, .body (hcovered.of_below hbelow) hmention hnext,
      (hleads.trans (leads_of_below hcovered hbelow)).tail
        ⟨hcovered.of_below hbelow, .inr ⟨last, ho, hnext⟩⟩⟩

/-- **What refers to a name through inlined names** refers to it after inlining. -/
theorem refers (hstays : found.Stays name)
    (hpath : Relation.ReflTransGen (RefersToSole scope found) name last)
    (hstep : scope.Refers last other) (hother : found.Stays other) : out.Refers name other := by
  obtain ⟨body, y, hbody, hbelow, hmention⟩ := hstep
  obtain ⟨b, hb⟩ := Scope.exists_body h.gather ((Scope.mem_keys_iff_occurs h.gather).1 hstays.1)
  obtain ⟨_, hsame, hcovered, hleads⟩ := h.leads_of_refersToSole hstays hpath hb
  cases hbody.symm.trans hsame
  obtain ⟨id, hid, hshows⟩ := h.exists_shows_body hstays hb
  obtain ⟨u, hu, hmentionu⟩ := h.occurs hgather hstays
  obtain ⟨v, hv, hshown⟩ := h.shows_of_path hgather (.body hu hmentionu hid) hshows
    (hleads.trans (leads_of_below hcovered hbelow))
  exact ⟨id, v, hid, hv, h.mentions_of_shows hshown hother hmention⟩

/-- **A path between names** runs, after inlining, through those of its names that stay. -/
theorem exists_path {start : String} (hkeys : found'.occurrences.keys = found.staying)
    (hstart : found.Stays start)
    (hpath : Relation.ReflTransGen (scope.StaysAfter found.occurrences.keys start) start last) :
    ∃ name, found.Stays name ∧
      Relation.ReflTransGen (out.StaysAfter found'.occurrences.keys start) start name ∧
      Relation.ReflTransGen (RefersToSole scope found) name last := by
  induction hpath with
  | refl => exact ⟨start, hstart, .refl, .refl⟩
  | @tail middle last hpath hstep ih =>
    obtain ⟨name, hname, hbefore, hsoles⟩ := ih
    cases hsole : found.soleOccurrence? last with
    | some o => exact ⟨name, hname, hbefore, hsoles.tail ⟨hstep.1, by rw [hsole]; rfl⟩⟩
    | none =>
      have hoccurs : scope.Occurs root last :=
        ((Scope.mem_keys_iff_occurs h.gather).1 hstart.1).of_path
          ((Scope.refers_of_staysAfter hpath).tail hstep.1)
      have hlast : found.Stays last := ⟨(Scope.mem_keys_iff_occurs h.gather).2 hoccurs, hsole⟩
      refine ⟨last, hlast, hbefore.tail ⟨h.refers hgather hname hsoles hstep.1 hlast, ?_⟩, .refl⟩
      rw [hkeys]
      exact idxOf_filter_le (by simp [hstart.2]) hstep.2

/-- **A name that was marked recursive** is marked again. -/
theorem mem_recursive (hkeys : found'.occurrences.keys = found.staying)
    (hname : name ∈ found.recursive) : name ∈ found'.recursive := by
  obtain ⟨hoccurs, first, last, hfrom, hto, hback⟩ := (Scope.mem_recursive_iff h.gather).1 hname
  have hstays : ∀ {name}, scope.Occurs root name → name ∈ found.recursive → found.Stays name := by
    intro name hoccurs hname
    refine ⟨(Scope.mem_keys_iff_occurs h.gather).2 hoccurs, ?_⟩
    cases hsole : found.soleOccurrence? name with
    | none => rfl
    | some o => exact absurd hname (not_mem_recursive_of_sole hsole)
  -- the first name of the round closes the same round
  have hfirst : found.Stays first := by
    have hoccursFirst : scope.Occurs root first :=
      hoccurs.of_path ((Scope.refers_of_staysAfter hto).tail hback)
    have hround : Relation.ReflTransGen (scope.StaysAfter found.occurrences.keys first) name last :=
      Relation.ReflTransGen.mono
        (fun _ _ hstep => ⟨hstep.1, (Scope.idxOf_le_of_staysAfter hfrom).trans hstep.2⟩) _ _ hto
    exact hstays hoccursFirst ((Scope.mem_recursive_iff h.gather).2
      ⟨hoccursFirst, first, last, .refl, hfrom.trans hround, hback⟩)
  obtain ⟨middle, -, hfrom', hsoles⟩ := h.exists_path hgather hkeys hfirst hfrom
  obtain rfl : name = middle := by
    rcases hsoles.cases_tail with hsame | ⟨_, -, -, hsole⟩
    · exact hsame
    · rw [(hstays hoccurs hname).2] at hsole
      cases hsole
  obtain ⟨last', hlast', hto', hsoles'⟩ := h.exists_path hgather hkeys (hstays hoccurs hname) hto
  exact (Scope.mem_recursive_iff hgather).2 ⟨h.occurs hgather (hstays hoccurs hname), first, last',
    hfrom', hto', h.refers hgather hlast' hsoles' hback hfirst⟩

end Lossless

end SchemaGraph
