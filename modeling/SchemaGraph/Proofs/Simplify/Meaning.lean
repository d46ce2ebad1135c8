import SchemaGraph.Proofs.Flatten.Meaning
import SchemaGraph.Proofs.Simplify.Dangling

/-!
Cleaning up keeps the meaning of a schema. The returned schema unfolds, with the definitions that it
lists, to the tree that the flat schema unfolds to with the flat definitions: inlining does not change
what is seen at a node as long as no place is overtaken, and listing the definitions never does.

* `Inlined.unfolds_iff` — inlining;
* `Wrapped.unfolds_iff` — listing;
* `simplifyReferences_unfolds` — **when the meaning is kept**.
-/

namespace SchemaGraph

/-! ### Inlining -/

theorem Store.Stands.inlinedAt {s : Store} {bodies : String → NodeId → Prop} {x b : NodeId}
    {body site view : Node} (hb : s.get? b = some body) (hx : s.get? x = some (body.inlinedAt site))
    (hplain : body.kind? ≠ some .definitions) (h : s.Stands bodies b view) :
    ∃ view', s.Stands bodies x view' ∧ view'.anonymous = (view.seenThrough site).anonymous := by
  cases h with
  | plain hnode hkind href =>
    rw [hb] at hnode
    cases hnode
    exact ⟨_, .plain hx hkind href, rfl⟩
  | unresolved hnode href htarget hnone =>
    rw [hb] at hnode
    cases hnode
    exact ⟨_, .unresolved hx href htarget hnone, rfl⟩
  | inner hnode hkind =>
    rw [hb] at hnode
    cases hnode
    exact absurd hkind hplain
  | body hnode href htarget hbody hview =>
    rw [hb] at hnode
    cases hnode
    exact ⟨_, .body hx href htarget hbody hview, by rw [Node.seenThrough_seenThrough]; rfl⟩

variable {scope : Scope} {root top : NodeId} {found : Gathered} {s₂ s' : Store}

/-- In the unfolding of a schema whose reference graph was gathered no occurrence is left. -/
theorem not_mentions_of_unfolds (h : scope.gather root = .ok found) {x : NodeId}
    {path : List ChildStep} {outline : Outline} {name : String} (hx : scope.Covered root x)
    (hpath : scope.store.Unfolds scope.definitions.Binds x path outline) :
    ¬ outline.Mentions name := by
  have hheld : ∀ id node, scope.Covered root id → scope.store.get? id = some node →
      ∀ child ∈ node.storedIds, scope.Covered root child :=
    fun id node hid hnode child hchild => hid.held h ⟨node, hnode, hchild⟩
  have hbody : ∀ id node name body, scope.Covered root id → scope.store.get? id = some node →
      node.isReference = true → node.target = some name → scope.definitions.Binds name body →
      scope.Covered root body :=
    fun id node name body hid hnode href htarget hbody => .body hid ⟨node, hnode, href, htarget⟩ hbody
  induction hpath with
  | here hview =>
    intro hmention
    -- the occurrence stands at a covered node, so its name has a body
    induction hview with
    | @plain _ node _ _ href =>
      have hyes : node.isReference = true := beq_iff_eq.2 hmention.1
      rw [href] at hyes
      cases hyes
    | unresolved hnode href htarget hnone =>
      obtain ⟨body, hbody⟩ := Scope.exists_body h ⟨_, hx, _, hnode, href, htarget⟩
      exact hnone body hbody
    | inner hnode _ hinner _ ih =>
      exact ih (hheld _ _ hx hnode _ (Node.mem_storedIds_of_innerSchema? hinner)) hmention
    | body hnode href htarget hname _ ih =>
      exact ih (hbody _ _ _ _ hx hnode href htarget hname) hmention
  | child hview hchild _ ih =>
    exact ih (hview.held hheld hbody hx _ (Node.mem_storedIds_of_childAt? hchild))

namespace Inlined

variable (h : scope.gather root = .ok found) (hs₂ : Inlined scope found s₂)
  (hnot : ∀ o, ¬ Overtaken scope.definitions found o)
include hs₂ hnot

/-- When no place is overtaken each place holds its body as the body is in the end. -/
theorem exists_place {name : String} {x : NodeId} (hx : found.soleOccurrence? name = some x) :
    ∃ b site body, scope.definitions.get? name = some b ∧ scope.store.get? x = some site ∧
      s₂.get? x = some (body.inlinedAt site) ∧ s₂.get? b = some body := by
  obtain ⟨b, site, body, hb, hsite, hplace, hlater, hnone⟩ := hs₂.site name x hx
  refine ⟨b, site, body, hb, hsite, hplace, ?_⟩
  by_cases hsole : ∃ other, found.soleOccurrence? other = some b
  · obtain ⟨other, hother⟩ := hsole
    by_cases hmet : found.MetBefore name other
    · exact hlater other hother hmet
    · exact absurd (.stale hx hb hother hmet) (hnot x)
  · have hno : ∀ other, found.soleOccurrence? other ≠ some b := fun other e => hsole ⟨other, e⟩
    rw [hs₂.other b hno]
    exact hnone fun later hlater => absurd hlater (hno later)

include h

/-- What a place holds is, but for its name, a node that is no place, seen through the occurrences on
the way to it. -/
theorem exists_source {x : NodeId} (hx : scope.Covered root x) :
    ∃ z base site node, scope.Covered root z ∧ (∀ name, found.soleOccurrence? name ≠ some z) ∧
      scope.store.get? z = some base ∧ s₂.get? x = some node ∧
      node.anonymous = (base.seenThrough site).anonymous ∧
      ∀ view, scope.store.Stands scope.definitions.Binds z view →
        scope.store.Stands scope.definitions.Binds x (view.seenThrough site) := by
  refine hs₂.induction h (P := fun x => ∃ z base site node, scope.Covered root z ∧
      (∀ name, found.soleOccurrence? name ≠ some z) ∧ scope.store.get? z = some base ∧
      s₂.get? x = some node ∧ node.anonymous = (base.seenThrough site).anonymous ∧
      ∀ view, scope.store.Stands scope.definitions.Binds z view →
        scope.store.Stands scope.definitions.Binds x (view.seenThrough site)) ?_ ?_ ?_ hx
  · intro x hx hnone hsame
    obtain ⟨base, hbase⟩ := exists_node_of_covered h hx
    exact ⟨x, base, .reference "", base, hx, hnone, hbase, hsame.trans hbase, rfl, fun _ hv => hv⟩
  · intro x name b site body hb hname hbody hsite hplace hcontent hlast
    obtain ⟨-, node, hnode, href, htarget⟩ := covered_of_sole h hname
    rw [hsite] at hnode
    cases hnode
    exact ⟨b, body, site, _, hb, fun other hother =>
      hnot x (.stale hname hbody hother (hlast other hother)), hcontent, hplace, rfl,
      fun view hview => .body hsite href htarget hbody hview⟩
  · rintro x name b later site body hname hbody hsite hplace hcontent - -
      ⟨z, base, inside, node, hz, hnone, hbase, hnode, he, hstands⟩
    rw [hcontent] at hnode
    cases hnode
    obtain ⟨-, node, hnode, href, htarget⟩ := covered_of_sole h hname
    rw [hsite] at hnode
    cases hnode
    refine ⟨z, base, inside.seenThrough site, _, hz, hnone, hbase, hplace, ?_, fun view hview => ?_⟩
    · rw [← Node.seenThrough_seenThrough]
      exact (congrArg (fun node => node.seenThrough site) he :)
    · rw [← Node.seenThrough_seenThrough]
      exact .body hsite href htarget hbody (hstands view hview)

/-- The same, said of what is seen of the two. -/
theorem exists_similar_source {x : NodeId} {node : Node} (hx : scope.Covered root x)
    (hnode : s₂.get? x = some node) :
    ∃ z base site, scope.Covered root z ∧ (∀ name, found.soleOccurrence? name ≠ some z) ∧
      scope.store.get? z = some base ∧ node.anonymous = (base.seenThrough site).anonymous ∧
      (base.seenThrough site).Similar (Store.Only (scope.Covered root)) node ∧
      ∀ view, scope.store.Stands scope.definitions.Binds z view →
        scope.store.Stands scope.definitions.Binds x (view.seenThrough site) := by
  obtain ⟨z, base, site, node', hz, hno, hbase, hnode', he, hstands⟩ := hs₂.exists_source h hnot hx
  cases hnode.symm.trans hnode'
  refine ⟨z, base, site, hz, hno, hbase, he, Node.similar_of_anonymous_eq he fun id hid => ?_, hstands⟩
  rw [← Node.storedIds_of_anonymous_eq he] at hid
  exact ⟨rfl, hs₂.covered_of_holds h hx ⟨node, hnode, hid⟩⟩

variable (hplain : ∀ x, scope.Covered root x →
  ∃ node, scope.store.get? x = some node ∧ node.kind? ≠ some .definitions)
include hplain

/-- A place shows the body of its name seen through the occurrence that was there. -/
theorem exists_view_of_place {bodies : String → NodeId → Prop} {name : String} {x b : NodeId}
    {node view : Node} (hname : found.soleOccurrence? name = some x)
    (hnode : scope.store.get? x = some node) (hbody : scope.definitions.Binds name b)
    (hview : s₂.Stands bodies b view) :
    ∃ view', s₂.Stands bodies x view' ∧ view'.anonymous = (view.seenThrough node).anonymous := by
  obtain ⟨b', site, body, hb', hsite, hplace, hcontent⟩ := hs₂.exists_place hnot hname
  cases hnode.symm.trans hsite
  cases Option.some.inj (hbody.symm.trans hb')
  obtain ⟨hx, hmention⟩ := covered_of_sole h hname
  obtain ⟨body', hcontent', hno⟩ := hs₂.plain_of_covered h hplain (.body hx hmention hbody)
  cases hcontent.symm.trans hcontent'
  exact hview.inlinedAt hcontent hplace hno

/-- What was seen at a node is seen there after inlining. -/
theorem exists_view_after {x : NodeId} {view : Node}
    (hview : scope.store.Stands scope.definitions.Binds x view) (hx : scope.Covered root x) :
    ∃ view', s₂.Stands (Store.kept scope.definitions.Binds found.Stays) x view' ∧
      view.Similar (Store.Only (scope.Covered root)) view' := by
  have hsame : ∀ {x node}, scope.Covered root x → scope.store.get? x = some node →
      ∀ id ∈ node.storedIds, Store.Only (scope.Covered root) id id :=
    fun hx hnode id hid => ⟨rfl, hx.held h ⟨_, hnode, hid⟩⟩
  induction hview with
  | @plain x node hnode hkind href =>
    have hnone : ∀ name, found.soleOccurrence? name ≠ some x := by
      intro name hname
      obtain ⟨-, node', hnode', href', -⟩ := covered_of_sole h hname
      rw [hnode] at hnode'
      cases hnode'
      rw [href] at href'
      cases href'
    exact ⟨node, .plain ((hs₂.other x hnone).trans hnode) hkind href,
      Node.similar_of_anonymous_eq rfl (hsame hx hnode)⟩
  | unresolved hnode href htarget hnone =>
    obtain ⟨body, hbody⟩ := Scope.exists_body h ⟨_, hx, _, hnode, href, htarget⟩
    exact absurd hbody (hnone body)
  | inner hnode hkind =>
    obtain ⟨node, hnode', hno⟩ := hplain _ hx
    rw [hnode] at hnode'
    cases hnode'
    exact absurd hkind hno
  | @body x b node view name hnode href htarget hbody _ ih =>
    have hmention : scope.store.Mentions x name := ⟨node, hnode, href, htarget⟩
    have hb : scope.Covered root b := .body hx hmention hbody
    obtain ⟨view', hview', hsimilar⟩ := ih hb
    have hthrough : (view.seenThrough node).Similar (Store.Only (scope.Covered root))
        (view'.seenThrough node) :=
      hsimilar.seenThrough rfl
        ((Node.similar_of_anonymous_eq rfl (hsame hx hnode)).childAt? .serialization)
    by_cases hsole : ∃ other, found.soleOccurrence? other = some x
    · -- the place of the name has become its body
      obtain ⟨other, hother⟩ := hsole
      obtain ⟨-, node', hnode', -, htarget'⟩ := covered_of_sole h hother
      cases hnode.symm.trans hnode'
      cases Option.some.inj (htarget.symm.trans htarget')
      obtain ⟨view'', hview'', he⟩ :=
        hs₂.exists_view_of_place h hnot hplain hother hnode hbody hview'
      exact ⟨view'', hview'', hthrough.of_anonymous_eq he⟩
    · have hnone : ∀ other, found.soleOccurrence? other ≠ some x := fun other e => hsole ⟨other, e⟩
      exact ⟨_, .body ((hs₂.other x hnone).trans hnode) href htarget
        ⟨hbody, stays_of_mention h hx hmention hnone⟩ hview', hthrough⟩

/-- What is seen at a node after inlining was seen there before. -/
theorem exists_view_before {x : NodeId} {view' : Node}
    (hview : s₂.Stands (Store.kept scope.definitions.Binds found.Stays) x view')
    (hx : scope.Covered root x) :
    ∃ view, scope.store.Stands scope.definitions.Binds x view ∧
      view.Similar (Store.Only (scope.Covered root)) view' := by
  induction hview with
  | plain hnode hkind href =>
    obtain ⟨z, base, site, -, -, hbase, he, hsimilar, hstands⟩ :=
      hs₂.exists_similar_source h hnot hx hnode
    rw [Node.kind?_of_anonymous_eq he] at hkind
    rw [Node.isReference_of_anonymous_eq he] at href
    have hview := hstands base (.plain hbase hkind href)
    exact ⟨base.seenThrough site, hview, hsimilar⟩
  | @unresolved _ _ name hnode href htarget hnone =>
    obtain ⟨z, base, site, hz, hno, hbase, he, -, -⟩ := hs₂.exists_similar_source h hnot hx hnode
    rw [Node.isReference_of_anonymous_eq he] at href
    rw [Node.target_of_anonymous_eq he] at htarget
    -- the occurrence is no place, so its name stays
    have hmention : scope.store.Mentions z name := ⟨base, hbase, href, htarget⟩
    have hstays := stays_of_mention h hz hmention hno
    obtain ⟨body, hbody⟩ := Scope.exists_body h ⟨z, hz, hmention⟩
    exact absurd ⟨hbody, hstays⟩ (hnone body)
  | inner hnode hkind =>
    obtain ⟨node, hnode', hno⟩ := hs₂.plain_of_covered h hplain hx
    cases hnode.symm.trans hnode'
    exact absurd hkind hno
  | @body _ b node _ name hnode href htarget hbody _ ih =>
    obtain ⟨z, base, site, hz, -, hbase, he, hself, hstands⟩ :=
      hs₂.exists_similar_source h hnot hx hnode
    rw [Node.isReference_of_anonymous_eq he] at href
    rw [Node.target_of_anonymous_eq he] at htarget
    have hb : scope.Covered root b := .body hz ⟨base, hbase, href, htarget⟩ hbody.1
    obtain ⟨view, hview, hsimilar⟩ := ih hb
    have hthere := hstands _ (.body hbase href htarget hbody.1 hview)
    rw [Node.seenThrough_seenThrough] at hthere
    have hmetadata : node.metadata = (base.seenThrough site).metadata :=
      (congrArg Node.metadata he :)
    exact ⟨_, hthere, hsimilar.seenThrough hmetadata (hself.childAt? .serialization)⟩

/-- **Inlining keeps the meaning.** -/
theorem unfolds_iff {path : List ChildStep} {outline : Outline} :
    scope.store.Unfolds scope.definitions.Binds root path outline ↔
      s₂.Unfolds (Store.kept scope.definitions.Binds found.Stays) root path outline := by
  refine Store.unfolds_iff (R := Store.Only (scope.Covered root)) ?_ ?_ ⟨rfl, .root⟩
  · rintro x _ view ⟨rfl, hx⟩ hview
    exact hs₂.exists_view_after h hnot hplain hview hx
  · rintro x _ view' ⟨rfl, hx⟩ hview'
    obtain ⟨view, hview, hsimilar⟩ := hs₂.exists_view_before h hnot hplain hview' hx
    exact ⟨view, hview, hsimilar.symm⟩

end Inlined

/-! ### Listing -/

namespace Wrapped

variable {s : Store} {kept : List (String × NodeId)} {P : NodeId → Prop}

/-- A node of the schema and the node in its place in the result: itself or, for a body, the copy that
carries the name. -/
def Counterpart (s s' : Store) (P : NodeId → Prop) (x y : NodeId) : Prop :=
  P x ∧ ∃ node node', s.get? x = some node ∧ s'.get? y = some node' ∧
    node'.anonymous = node.anonymous

/-- **Listing definitions keeps the meaning**: the listed bodies are those of the names. `P` says of a
node that it belongs to the schema. -/
theorem unfolds_iff (h : Wrapped s root kept s' top) (hroot : P root)
    (hthere : ∀ x, P x → ∃ node, s.get? x = some node)
    (hheld : ∀ x node, P x → s.get? x = some node → ∀ child ∈ node.storedIds, P child)
    (hbody : ∀ name body, (name, body) ∈ kept → P body)
    (hplain : ∃ node, s.get? root = some node ∧ node.kind? ≠ some .definitions)
    {path : List ChildStep} {outline : Outline} :
    s.Unfolds (fun name body => (name, body) ∈ kept) root path outline ↔
      s'.Unfolds (s'.Emits top) top path outline := by
  have hself : ∀ {x}, P x → Wrapped.Counterpart s s' P x x := fun hx => by
    obtain ⟨node, hnode⟩ := hthere _ hx
    exact ⟨hx, node, node, hnode, h.extends_.get?_of_some hnode, rfl⟩
  have hcopied : ∀ {name body id}, (name, body) ∈ kept → NamedCopy s s' name body id →
      Wrapped.Counterpart s s' P body id := by
    rintro name body id hkept ⟨node, hnode, hcopy⟩
    exact ⟨hbody name body hkept, node, _, hnode, hcopy, rfl⟩
  have hemits : ∀ name id, s'.Emits top name id →
      ∃ body, (name, body) ∈ kept ∧ Wrapped.Counterpart s s' P body id := by
    intro name id hid
    obtain ⟨body, hkept, hcopy⟩ := h.kept_of_emits hplain hid
    exact ⟨body, hkept, hcopied hkept hcopy⟩
  have hlisted : ∀ name body, (name, body) ∈ kept →
      ∃ id, s'.Emits top name id ∧ Wrapped.Counterpart s s' P body id := by
    intro name body hkept
    obtain ⟨id, hcopy, hid⟩ := h.exists_emits hkept
    exact ⟨id, hid, hcopied hkept hcopy⟩
  have hsame : s.Unfolds (fun name body => (name, body) ∈ kept) root path outline ↔
      s'.Unfolds (s'.Emits top) root path outline := by
    refine Store.unfolds_iff (R := Wrapped.Counterpart s s' P) ?_ ?_ (hself hroot)
    · refine Store.matches_of_anonymous ?_ hlisted fun name id hid => ?_
      · rintro x y node ⟨hx, node₁, node', hnode₁, hnode', he⟩ hnode
        rw [hnode] at hnode₁
        cases hnode₁
        exact ⟨⟨node', hnode', he⟩, fun child hchild => hself (hheld x node hx hnode child hchild)⟩
      · obtain ⟨body, hkept, -⟩ := hemits name id hid
        exact ⟨body, hkept⟩
    · refine Store.matches_of_anonymous ?_ hemits fun name body hkept => ?_
      · rintro y x node' ⟨hx, node, node₁, hnode, hnode₁, he⟩ hnode'
        rw [hnode'] at hnode₁
        cases hnode₁
        exact ⟨⟨node, hnode, he.symm⟩, fun child hchild => hself
          (hheld x node hx hnode child (Node.storedIds_of_anonymous_eq he ▸ hchild))⟩
      · obtain ⟨id, hid, -⟩ := hlisted name body hkept
        exact ⟨id, hid⟩
  refine hsame.trans ?_
  obtain ⟨listed, -, ⟨-, rfl⟩ | ⟨-, htop⟩⟩ := h.listed
  · exact Iff.rfl
  · exact (Store.unfolds_congr fun view => Store.stands_inner_iff htop
      (kind?_definitionsNode _ _) (innerSchema?_definitionsNode _ _)).symm

end Wrapped

/-! ### The whole pass -/

/-- With inlining: the returned schema unfolds to what the gathered one does. -/
theorem unfolds_iff_of_inlined {kept : List (String × NodeId)} (h : scope.gather root = .ok found)
    (hs₂ : Inlined scope found s₂) (hwrap : Wrapped s₂ root kept s' top)
    (hkept : ∀ name body, (name, body) ∈ kept ↔
      found.Stays name ∧ scope.definitions.get? name = some body)
    (hnot : ∀ o, ¬ Overtaken scope.definitions found o)
    (hplain : ∀ x, scope.Covered root x →
      ∃ node, scope.store.get? x = some node ∧ node.kind? ≠ some .definitions)
    {path : List ChildStep} {outline : Outline} :
    scope.store.Unfolds scope.definitions.Binds root path outline ↔
      s'.Unfolds (s'.Emits top) top path outline := by
  have hbodies : (fun name body => (name, body) ∈ kept) =
      Store.kept scope.definitions.Binds found.Stays := by
    funext name body
    exact propext ((hkept name body).trans And.comm)
  rw [hs₂.unfolds_iff h hnot hplain, ← hbodies]
  refine hwrap.unfolds_iff (P := scope.Covered root) .root (fun x hx => ?_)
    (fun x node hx hnode child hchild => hs₂.covered_of_holds h hx ⟨node, hnode, hchild⟩)
    (fun name body hentry => ?_) (hs₂.plain_of_covered h hplain .root)
  · obtain ⟨node, hnode, -⟩ := hs₂.plain_of_covered h hplain hx
    exact ⟨node, hnode⟩
  · obtain ⟨hstays, hbody⟩ := (hkept name body).1 hentry
    exact covered_of_stays h hstays hbody

theorem Flattened.lt_size_of_body {d : Document} {t : Stage} (h : Flattened d t root)
    {entry : String × NodeId} (hentry : entry ∈ t.flat.definitions.entries) :
    entry.2.index < t.store.size := by
  obtain ⟨o, ho⟩ := (h.hoisted (OrderedMap.mem_entries_iff.1 hentry)).traced
  obtain ⟨node, hnode, -⟩ := h.flat.plain_of_traced ho
  exact Store.lt_size_of_get? hnode

/-- Without inlining: the returned schema unfolds to what the flat one does. -/
theorem Flattened.unfolds_iff_of_wrapped {d : Document} {t : Stage} (h : Flattened d t root)
    (hwrap : Wrapped t.store root t.flat.definitions.entries s' top) {path : List ChildStep}
    {outline : Outline} :
    t.store.Unfolds t.flat.definitions.Binds root path outline ↔
      s'.Unfolds (s'.Emits top) top path outline := by
  have hbodies : (fun name body => (name, body) ∈ t.flat.definitions.entries) =
      t.flat.definitions.Binds := by
    funext name body
    exact propext OrderedMap.mem_entries_iff
  rw [← hbodies]
  obtain ⟨o, ho⟩ := h.image.traced
  refine hwrap.unfolds_iff (P := fun x => ∃ o, t.origin x = some o) h.image.traced
    (fun x hx => ?_) (fun x node hx hnode child hchild => ?_)
    (fun name body hentry => (h.hoisted (OrderedMap.mem_entries_iff.1 hentry)).traced)
    (h.flat.plain_of_traced ho)
  · obtain ⟨o, ho⟩ := hx
    obtain ⟨node, hnode, -⟩ := h.flat.plain_of_traced ho
    exact ⟨node, hnode⟩
  · obtain ⟨o, ho⟩ := hx
    obtain ⟨id, -, himage⟩ := h.flat.entry_of_holds ho ⟨node, hnode, hchild⟩
    exact himage.traced

/-- **When the meaning is kept.** Let each name be declared by one node only and no `definitions` node
bear a name. The returned schema, with the definitions that it lists, unfolds to what the document's
root unfolds to with the declarations that flattening keeps. So it unfolds to the same tree as the
document's root with all declarations exactly if no occurrence met there has lost its name; with
inlining none has. -/
theorem simplifyReferences_unfolds {σ : Type} {own : σ} {value : Json} {d : Document} {inline : Bool}
    {st' : Store × σ} (hd : Document.ofJson value = .ok d) (honce : d.DeclaredOnce)
    (hnameless : d.NamelessDefinitions)
    (h : simplifyReferences d.root d.definitions inline (d.store, own) = .ok top st') :
    (∀ path outline, d.store.Unfolds (Store.kept d.Declares d.Keeps) d.root path outline ↔
      st'.1.Unfolds (st'.1.Emits top) top path outline) ∧
    ((∀ path outline, d.store.Unfolds d.Declares d.root path outline ↔
        st'.1.Unfolds (st'.1.Emits top) top path outline) ↔
      d.store.NoneLost d.Declares d.Keeps d.root) ∧
    (inline = true → d.store.NoneLost d.Declares d.Keeps d.root) := by
  have hforest := Document.forest_of_ofJson hd
  obtain ⟨⟨flat, definitions⟩, ⟨s₁, own₁⟩, hflatten, h⟩ := Pass.bind_eq_ok.1 h
  obtain ⟨t, hflat, rfl, rfl, -⟩ := flattened_of_flattenReferences hforest hflatten
  have hresult : (∀ path outline, t.store.Unfolds t.flat.definitions.Binds flat path outline ↔
      st'.1.Unfolds (st'.1.Emits top) top path outline) ∧
      (inline = true → ∀ path outline name,
        t.store.Unfolds t.flat.definitions.Binds flat path outline → ¬ outline.Mentions name) := by
    cases inline with
    | false =>
      have hwrap := wrapped_of_run (fun entry hentry => hflat.lt_size_of_body hentry) h
      exact ⟨fun path outline => hflat.unfolds_iff_of_wrapped hwrap, fun hinline => by cases hinline⟩
    | true =>
      obtain ⟨found, s₂, kept, hgather, hs₂, hkept, hwrap⟩ := inlineReferences_spec h
      have hiff : ∀ path outline, t.store.Unfolds t.flat.definitions.Binds flat path outline ↔
          st'.1.Unfolds (st'.1.Emits top) top path outline :=
        fun path outline => unfolds_iff_of_inlined hgather hs₂ hwrap hkept
          (fun o => hflat.not_overtaken hforest hnameless hgather)
          (fun x hx => hflat.plain_of_covered hx)
      exact ⟨hiff, fun _ path outline name hpath => not_mentions_of_unfolds hgather .root hpath⟩
  obtain ⟨hiff, hnone⟩ := hresult
  have hkept : ∀ path outline, d.store.Unfolds (Store.kept d.Declares d.Keeps) d.root path outline ↔
      st'.1.Unfolds (st'.1.Emits top) top path outline :=
    fun path outline => (hflat.unfolds_iff honce).trans (hiff path outline)
  refine ⟨hkept, ?_, fun hinline path outline name hpath hmention => ?_⟩
  · simp only [← hkept]
    exact Store.unfolds_kept_iff
  · exact absurd hmention (hnone hinline path outline name ((hflat.unfolds_iff honce).1 hpath))

/-- A tuple of occurrences of `A` and `B`, where `A` is given as an occurrence of `B`. -/
def aliasedName : Json :=
  .object [("schema", .object [("type", .text "tuple"), ("items_schema", .list [
      .object [("type", .text "definition-ref"), ("schema_ref", .text "A")],
      .object [("type", .text "definition-ref"), ("schema_ref", .text "B")]])]),
    ("definitions", .object [
      ("A", .object [("type", .text "definition-ref"), ("schema_ref", .text "B")]),
      ("B", .object [("type", .text "int")])])]

def aliasedDocument : Document where
  store := ⟨#[
    .reference "A",
    .reference "B",
    (Node.ofKind .tuple).withChild "items_schema" (.many [⟨0⟩, ⟨1⟩]),
    .reference "B",
    Node.ofKind .int]⟩
  root := ⟨2⟩
  definitions := .ofList [("A", ⟨3⟩), ("B", ⟨4⟩)]

theorem simplifyReferences_aliasedDocument :
    simplifyReferences aliasedDocument.root aliasedDocument.definitions true
      (aliasedDocument.store, ()) = .ok ⟨6⟩ (⟨#[
        .reference "B",
        .reference "B",
        (Node.ofKind .tuple).withChild "items_schema" (.many [⟨0⟩, ⟨1⟩]),
        .reference "B",
        Node.ofKind .int,
        (Node.ofKind .int).withName "B",
        definitionsNode ⟨2⟩ [⟨5⟩]]⟩, ()) := by
  have hflatten : flattenReferences aliasedDocument.root aliasedDocument.definitions
      (aliasedDocument.store, ()) =
        .ok (⟨2⟩, aliasedDocument.definitions) (aliasedDocument.store, ()) := by decide +kernel
  have hgather : Scope.gather
      { store := aliasedDocument.store, definitions := aliasedDocument.definitions } ⟨2⟩ =
        .ok { occurrences := .ofList [("A", [⟨0⟩]), ("B", [⟨3⟩, ⟨1⟩])] } :=
    Scope.gather_of_runWithin 20 (by decide +kernel)
  exact simplifyReferences_of_parts hflatten hgather (by decide +kernel)

/-- The place of the alias becomes an occurrence of `B`, and both items still unfold to the body of
`B`. -/
theorem aliasedDocument_unfolds :
    ∃ d top st', Document.ofJson aliasedName = .ok d ∧ d.DeclaredOnce ∧ d.NamelessDefinitions ∧
      simplifyReferences d.root d.definitions true (d.store, ()) = .ok top st' ∧
      ∀ path outline, d.store.Unfolds d.Declares d.root path outline ↔
        st'.1.Unfolds (st'.1.Emits top) top path outline := by
  have hload : Document.ofJson aliasedName = .ok aliasedDocument := by decide +kernel
  have honce : aliasedDocument.DeclaredOnce := by decide +kernel
  have hnameless : aliasedDocument.NamelessDefinitions := by decide +kernel
  obtain ⟨-, hiff, hnone⟩ :=
    simplifyReferences_unfolds hload honce hnameless simplifyReferences_aliasedDocument
  exact ⟨aliasedDocument, _, _, hload, honce, hnameless, simplifyReferences_aliasedDocument,
    hiff.2 (hnone rfl)⟩

/-- A tuple of a `definitions` node and an occurrence of `S`. The serialization attachment of the
former bears the name `S`. -/
def attachedName : Json :=
  .object [("schema", .object [("type", .text "tuple"), ("items_schema", .list [
      .object [("type", .text "definitions"), ("definitions", .list []),
        ("schema", .object [("type", .text "int")]),
        ("serialization", .object [("type", .text "str"), ("ref", .text "S")])],
      .object [("type", .text "definition-ref"), ("schema_ref", .text "S")]])]),
    ("definitions", .object [])]

def attachedDocument : Document where
  store := ⟨#[
    Node.ofKind .int,
    (Node.ofKind .str).withName "S",
    (definitionsNode ⟨0⟩ []).withSerialization ⟨1⟩,
    .reference "S",
    (Node.ofKind .tuple).withChild "items_schema" (.many [⟨2⟩, ⟨3⟩])]⟩
  root := ⟨4⟩
  definitions := .empty

/-- What cleaning up leaves of it: a new tuple. -/
def attachedResult : Store :=
  ⟨attachedDocument.store.nodes ++
    #[(Node.ofKind .tuple).withChild "items_schema" (.many [⟨0⟩, ⟨3⟩])]⟩

/-- The body of `S` goes with the `definitions` node; its occurrence is left without a definition. -/
theorem attachedDocument_not_unfolds :
    ∃ d top st', Document.ofJson attachedName = .ok d ∧ d.DeclaredOnce ∧ d.NamelessDefinitions ∧
      simplifyReferences d.root d.definitions false (d.store, ()) = .ok top st' ∧
      ¬ ∀ path outline, d.store.Unfolds d.Declares d.root path outline ↔
        st'.1.Unfolds (st'.1.Emits top) top path outline := by
  refine ⟨attachedDocument, ⟨5⟩, (attachedResult, ()), by decide +kernel, by decide +kernel,
    by decide +kernel, by decide +kernel, fun h => ?_⟩
  have htop : attachedResult.get? ⟨5⟩ =
      some ((Node.ofKind .tuple).withChild "items_schema" (.many [⟨0⟩, ⟨3⟩])) := by decide +kernel
  have hnone : ∀ body, ¬ attachedResult.Emits ⟨5⟩ "S" body := by
    rintro body ⟨node, hnode, hkind, -⟩
    rw [htop] at hnode
    cases hnode
    exact absurd hkind (by decide +kernel)
  have hpath : attachedResult.Unfolds (attachedResult.Emits ⟨5⟩) ⟨5⟩ [.slot "items_schema" 1]
      (Node.reference "S").outline :=
    .child (.plain htop (by decide +kernel) (by decide +kernel))
      (show _ = some (⟨3⟩ : NodeId) by decide +kernel)
      (.here (.unresolved (by decide +kernel) rfl rfl hnone))
  exact ((h _ _).2 hpath).not_body ⟨rfl, rfl⟩ ⟨1⟩ (.inr ⟨_, rfl, rfl⟩)

end SchemaGraph
