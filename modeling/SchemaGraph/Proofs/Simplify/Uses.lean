import SchemaGraph.Proofs.Simplify.Places

/-!
The walk of `gather` over what inlining leaves, side by side with the walk before. At a place the
second walk goes through the body itself where the first one opened it, and leaves out the
serialization that the place replaces; where a name stays both walks open its body. So both meet the
names that stay in the same order, as long as no such name occurs first in what is left out.

* `Idle`, `DropsIdle` — what may be left out;
* `Underway` — the states that the first walk comes through;
* `Cleaned.inStep` — **the second walk keeps in step with the first**.
-/

namespace SchemaGraph

variable {scope out : Scope} {root id x y b : NodeId} {found : Gathered} {s₂ : Store}
  {name : String} {node : Node} {p q entered inner : Progress} {ids kids : List NodeId}

/-- No name that stays occurs first at a node that `x` leads to. -/
def Idle (scope : Scope) (found : Gathered) (x : NodeId) : Prop :=
  ∀ y name, scope.Covered x y → scope.store.Mentions y name → found.soleOccurrence? name = none →
    (found.occurrencesOf name).head? ≠ some y

/-- What inlining drops is idle: where an occurrence keeps a serialization of its own, no name that
stays occurs first in the serialization that its body `b` has. -/
def DropsIdle (scope : Scope) (found : Gathered) (s : Store) : Prop :=
  ∀ name o b site content ser, found.soleOccurrence? name = some o →
    scope.definitions.get? name = some b → scope.store.get? o = some site →
    site.serialization.isSome → s.get? b = some content → content.serialization = some ser →
    Idle scope found ser

/-! ### States of the first walk -/

/-- A state that the walk of `gather` comes through on the way to what it finds. -/
structure Underway (scope : Scope) (found : Gathered) (p : Progress) : Prop where
  framed : Scope.Framed p
  finished : scope.Finished found.recursive p
  fresh : Scope.Fresh p

/-- What the walk finds has all that `p` has. -/
def Progress.Before (p : Progress) (found : Gathered) : Prop :=
  ∃ last, last.found = found ∧ p.Le last

theorem Progress.Before.of_le (h : q.Before found) (hle : p.Le q) : p.Before found := by
  obtain ⟨last, hfound, hq⟩ := h
  exact ⟨last, hfound, hle.trans hq⟩

theorem Progress.Before.recursive (h : p.Before found) (hname : name ∈ p.found.recursive) :
    name ∈ found.recursive := by
  obtain ⟨last, rfl, hle⟩ := h
  exact hle.recursive name hname

theorem Progress.Before.first (h : p.Before found)
    (hfirst : (p.found.occurrencesOf name).head? = some x) :
    (found.occurrencesOf name).head? = some x := by
  obtain ⟨last, rfl, hle⟩ := h
  exact Scope.first_of_le hle hfirst

namespace Underway

theorem start : Underway scope found {} :=
  ⟨Scope.framed_empty, Scope.finished_empty, Scope.fresh_empty⟩

theorem enters (h : Underway scope found p) (henter : scope.Enters id node p entered) :
    Underway scope found entered where
  framed := h.framed.enters henter
  finished := by
    intro name body hdone hbody
    rw [henter.expansions_eq] at hdone
    exact Scope.explored_congr (fun other => by rw [henter.expansions_eq])
      (h.finished name body hdone hbody)
  fresh := h.fresh.enters henter

theorem opens (h : Underway scope found p) (hnew : p.expansions.get? name = none) :
    Underway scope found (scope.opens id node name p) :=
  ⟨h.framed.opens hnew, h.finished.opens hnew, h.fresh.opens hnew⟩

theorem walks (h : Underway scope found p) (hwalk : scope.Walks ids p q) (hq : q.Before found) :
    Underway scope found q where
  framed := hwalk.framed h.framed
  finished := (hwalk.explored h.framed (fun _ hname => hq.recursive hname) h.finished).1
  fresh := hwalk.fresh h.fresh

theorem finishBody (h : Underway scope found p) (hnew : p.expansions.get? name = none)
    (hbody : scope.definitions.get? name = some b)
    (hinner : scope.Walks [b] (scope.opens id node name p) inner) (hbefore : inner.Before found) :
    Underway scope found (inner.finishBody name) := by
  have hopened : Underway scope found (scope.opens id node name p) := h.opens hnew
  have hkey : name ∈ inner.expansions.keys := hinner.mem_keys_of_opens hnew
  obtain ⟨hfinished, hexplored⟩ := hinner.explored hopened.framed
    (fun _ hname => hbefore.recursive hname) hopened.finished
  exact ⟨hinner.finished_framed h.framed hnew,
    hfinished.finishBody hbody (hexplored b (by simp)) hkey,
    (hinner.fresh hopened.fresh).finishBody hkey⟩

end Underway

theorem staying_enters (henter : scope.Enters id node p entered) :
    entered.staying found = p.staying found := by
  rw [Progress.staying, henter.expansions_eq, Progress.staying]

theorem staying_opens (hnew : p.expansions.get? name = none) :
    (scope.opens id node name p).staying found =
      p.staying found ++ if (found.soleOccurrence? name).isNone then [name] else [] := by
  rw [Progress.staying, Scope.keys_opens hnew, List.filter_append, Progress.staying]
  congr 1
  by_cases hsole : (found.soleOccurrence? name).isNone <;> simp [hsole]

theorem staying_finishBody (hkey : name ∈ inner.expansions.keys) :
    (inner.finishBody name).staying found = inner.staying found := by
  rw [Progress.staying, Scope.keys_finishBody hkey, Progress.staying]

/-- A walk over idle nodes meets no name that stays. -/
theorem staying_of_idle (hwalk : scope.Walks ids p q) (hp : Underway scope found p)
    (hq : q.Before found) (hidle : ∀ x ∈ ids, Idle scope found x) :
    q.staying found = p.staying found := by
  refine hwalk.filter_keys hp.fresh fun x hx y name hy hmention hnone hfirst => ?_
  exact hidle x hx y name hy hmention (Option.isNone_iff_eq_none.1 hnone) (hq.first hfirst)

/-! ### The second walk -/

/-- What is met at the node at `x` and below it, the serialization included if `whole` is true. -/
def MeetsAt (out : Scope) (x : NodeId) (whole : Bool) (met last : List String) : Prop :=
  ∃ node kind turned, out.store.get? x = some node ∧ node.kind? = some kind ∧
    node.misfit? kind = none ∧ out.Turns node met turned ∧
    out.Meets (node.slotIds kind ++ if whole then node.serialization.toList else []) turned last

/-- The second walk may go into the node at `x`, all of it or all but its serialization: it is
covered, nothing that is gone into is overtaken, and what is left out is idle. -/
structure Admits (scope out : Scope) (root : NodeId) (found : Gathered) (x : NodeId)
    (whole : Bool) : Prop where
  covered : scope.Covered root x
  kept : ¬ Overtaken scope.definitions found x
  slots : ∀ node kind, out.store.get? x = some node → node.kind? = some kind →
    ∀ child ∈ node.slotIds kind, Intact scope.definitions found out.store child
  serialization : ∀ node ser, out.store.get? x = some node → node.serialization = some ser →
    if whole then Intact scope.definitions found out.store ser else Idle scope found ser

/-- The second walk goes over the nodes of a list but for a rest that is idle, and meets those of
the names met in the first walk that stay. -/
def InStep (scope out : Scope) (root : NodeId) (found : Gathered) (ids : List NodeId)
    (p q : Progress) : Prop :=
  ∀ pre post, ids = pre ++ post →
    (∀ x ∈ pre, scope.Covered root x ∧ Intact scope.definitions found out.store x) →
    (∀ x ∈ post, Idle scope found x) → out.Meets pre (p.staying found) (q.staying found)

/-- The same for one node. -/
def InStepAt (scope out : Scope) (root : NodeId) (found : Gathered) (x : NodeId) (p q : Progress) :
    Prop :=
  ∀ whole, Admits scope out root found x whole →
    MeetsAt out x whole (p.staying found) (q.staying found)

variable {whole : Bool} {site content : Node} {kind : Kind} {met mid last : List String}

theorem MeetsAt.cons (h : MeetsAt out x true met mid) (hrest : out.Meets ids mid last) :
    out.Meets (x :: ids) met last := by
  obtain ⟨node, kind, turned, hnode, hkind, hfits, hturn, hbelow⟩ := h
  rw [if_pos rfl, ← Node.orderedChildren_eq_slotIds] at hbelow
  have hids : out.store.childIds x = .ok (node.orderedChildren kind) :=
    Store.childIds_eq_ok.2 ⟨node, kind, hnode, hkind, hfits, rfl⟩
  exact .cons hnode hids hturn hbelow hrest

theorem MeetsAt.copy {copy : NodeId} (h : MeetsAt out b true met last)
    (hb : out.store.get? b = some content)
    (hcopy : out.store.get? copy = some (content.withName name)) :
    out.Meets [copy] met last := by
  obtain ⟨node, kind, turned, hnode, hkind, hfits, hturn, hbelow⟩ := h
  rw [hb] at hnode
  cases hnode
  rw [if_pos rfl, ← Node.orderedChildren_eq_slotIds] at hbelow
  have hids : out.store.childIds copy = .ok (content.orderedChildren kind) :=
    (childIds_withName hcopy hb).2 (Store.childIds_eq_ok.2 ⟨content, kind, hb, hkind, hfits, rfl⟩)
  exact .cons hcopy hids (hturn.congr rfl rfl) hbelow (.nil last)

/-- What is met at a place: what is met at the body, without its serialization if the place has one
of its own, and then what is met below that one. -/
theorem MeetsAt.inlined
    (h : MeetsAt out b (whole && site.serialization.isNone) met (p.staying found))
    (hb : out.store.get? b = some content) (hx : out.store.get? x = some (content.inlinedAt site))
    (hadmits : Admits scope out root found x whole)
    (hkids : ∀ ser, site.serialization = some ser → scope.Covered root ser)
    (hstep : InStep scope out root found site.serialization.toList p q) :
    MeetsAt out x whole met (q.staying found) := by
  obtain ⟨node, kind, turned, hnode, hkind, hfits, hturn, hbelow⟩ := h
  rw [hb] at hnode
  cases hnode
  refine ⟨content.inlinedAt site, kind, turned, hx, hkind, hfits, hturn.congr rfl rfl, ?_⟩
  have hslots : (content.inlinedAt site).slotIds kind = content.slotIds kind := rfl
  rw [hslots]
  cases hser : site.serialization with
  | none =>
    -- nothing but the body is met here
    have hsame : (content.inlinedAt site).serialization = content.serialization := by
      simp [Node.inlinedAt, hser]
    rw [hser] at hstep hbelow
    have hnone : out.Meets [] (p.staying found) (q.staying found) :=
      hstep [] [] rfl (by simp) (by simp)
    rw [hsame, hnone.eq_of_nil]
    simpa using hbelow
  | some ser =>
    have hown : (content.inlinedAt site).serialization = some ser := by
      simp [Node.inlinedAt, hser]
    have hhalf := hadmits.serialization _ ser hx hown
    rw [hser] at hstep hbelow
    refine Scope.Meets.append (by simpa using hbelow) ?_
    rw [hown]
    cases whole with
    | false => exact hstep [] [ser] rfl (by simp) (by simpa using hhalf)
    | true => exact hstep [ser] [] rfl (by simpa using ⟨hkids ser hser, hhalf⟩) (by simp)

namespace Cleaned

variable (h : Cleaned scope root found s₂ out)

include h

theorem admits (hx : scope.Covered root x) (hintact : Intact scope.definitions found out.store x) :
    Admits scope out root found x true where
  covered := hx
  kept := hintact x .refl
  slots := by
    intro node kind hnode hkind child hchild
    obtain ⟨kind', hkind', -, hfits, -⟩ := (h.flatBody hx).parts hnode
    rw [hkind] at hkind'
    cases hkind'
    have hheld := (Node.mem_orderedChildren hfits).1 (List.mem_append_left _ hchild)
    exact hintact.child ((h.flatBody hx).grounded.isChild ⟨node, hnode, hheld⟩)
  serialization := by
    intro node ser hnode hser
    have hheld : ser ∈ node.storedIds := by simp [Node.storedIds, hser]
    exact hintact.child ((h.flatBody hx).grounded.isChild ⟨node, hnode, hheld⟩)

omit h in
/-- The second walk may go into the body of a place that it goes into; if the place has a
serialization of its own, it leaves out that of the body. -/
theorem admits_body (hdrops : DropsIdle scope found out.store)
    (hname : found.soleOccurrence? name = some x) (hb : scope.definitions.get? name = some b)
    (hsite : scope.store.get? x = some site) (hcontent : out.store.get? b = some content)
    (hx : out.store.get? x = some (content.inlinedAt site)) (hcovered : scope.Covered root b)
    (hkept : ¬ Overtaken scope.definitions found b)
    (hadmits : Admits scope out root found x whole) :
    Admits scope out root found b (whole && site.serialization.isNone) where
  covered := hcovered
  kept := hkept
  slots := by
    intro node kind hnode hkind child hchild
    rw [hcontent] at hnode
    cases hnode
    exact hadmits.slots _ kind hx hkind child hchild
  serialization := by
    intro node ser hnode hser
    rw [hcontent] at hnode
    cases hnode
    cases hown : site.serialization with
    | none =>
      have hsame : (content.inlinedAt site).serialization = some ser := by
        simp [Node.inlinedAt, hown, hser]
      simpa using hadmits.serialization _ ser hx hsame
    | some own =>
      have hidle := hdrops name x b site content ser hname hb hsite (by simp [hown]) hcontent hser
      simpa using hidle

/-! ### Nodes that open no body -/

/-- A node that is explored, and may be gone into, is gone through without new names. -/
theorem meetsAt_of_explored (hp : scope.Finished found.recursive p)
    (hadmits : Admits scope out root found x whole)
    (hexplored : scope.Explored found.recursive p x) :
    MeetsAt out x whole (p.staying found) (p.staying found) := by
  obtain ⟨node, kind, hnode, hkind, -, hfits, -⟩ := h.flatBody hadmits.covered
  refine ⟨node, kind, _, hnode, hkind, hfits,
    h.turns_of_explored hp hadmits.covered hexplored hadmits.kept hnode, ?_⟩
  refine h.meets_of_explored hp fun child hchild => ?_
  have hheld : child ∈ node.storedIds ∧ Intact scope.definitions found out.store child := by
    rcases List.mem_append.1 hchild with hchild | hchild
    · exact ⟨(Node.mem_orderedChildren hfits).1 (List.mem_append_left _ hchild),
        hadmits.slots node kind hnode hkind child hchild⟩
    · cases whole with
      | false => simp at hchild
      | true =>
        have hser : node.serialization = some child := by simpa using hchild
        exact ⟨(Node.mem_orderedChildren hfits).1 (List.mem_append_right _ (by simp [hser])),
          hadmits.serialization node child hnode hser⟩
  rw [h.get?_eq hadmits.covered] at hnode
  refine ⟨h.inlined.covered_of_holds h.gather hadmits.covered ⟨node, hnode, hheld.1⟩, ?_, hheld.2⟩
  have hclosed := h.inlined.closed h.gather (fun _ _ => h.explored_of_leads hp) hadmits.covered
  exact (hclosed hexplored node hnode).1 child hheld.1

/-- A node that is no place opens no body in the second walk if it opens none in the first. -/
theorem turns_of_enters (hx : scope.Covered root x) (hnode : scope.store.get? x = some node)
    (hnone : ∀ name, found.soleOccurrence? name ≠ some x) (henter : scope.Enters x node p entered) :
    out.Turns node (p.staying found) (p.staying found) := by
  have hstays : ∀ name, node.isReference = true → node.target = some name →
      found.soleOccurrence? name = none := fun name href htarget =>
    (stays_of_mention h.gather hx ⟨node, hnode, href, htarget⟩ hnone).2
  cases henter with
  | plain href => exact .plain href
  | known name href htarget hstate | closing name href htarget hstate =>
    refine .old href htarget (Progress.mem_staying.2 ⟨?_, hstays name href htarget⟩)
    exact OrderedMap.mem_keys_of_get? hstate

omit h in
/-- The name of a place is on no cycle, so its body is not being walked when the place is entered.
-/
theorem done_of_enters (hp : Underway scope found p) (hq : entered.Before found)
    (hname : found.soleOccurrence? name = some x) (href : node.isReference = true)
    (htarget : node.target = some name) (henter : scope.Enters x node p entered) :
    p.expansions.get? name = some .done := by
  cases henter with
  | plain href' => simp [href] at href'
  | known other _ htarget' hstate =>
    rw [htarget] at htarget'
    cases htarget'
    exact hstate
  | closing other _ htarget' hstate =>
    rw [htarget] at htarget'
    cases htarget'
    have hframe := (hp.framed.inProgress name).1 hstate
    have hcycle : name ∈ cycleTo name p.frames := by simp [cycleTo, hframe]
    have hmarked : name ∈ found.recursive := hq.recursive (NameSet.mem_insertMany.2 (.inl hcycle))
    exact absurd hmarked (not_mem_recursive_of_sole hname)

theorem meets_children (hx : scope.Covered root x) (hnode : scope.store.get? x = some node)
    (hkind : node.kind? = some kind) (hids : scope.store.childIds x = .ok kids)
    (hnone : ∀ name, found.soleOccurrence? name ≠ some x)
    (hadmits : Admits scope out root found x whole) (hstep : InStep scope out root found kids p q) :
    out.Meets (node.slotIds kind ++ if whole then node.serialization.toList else [])
      (p.staying found) (q.staying found) := by
  have hthere : out.store.get? x = some node := (h.get?_eq_of_no_place hx hnone).trans hnode
  have hcovered : ∀ child ∈ kids, scope.Covered root child :=
    fun child hchild => .child hx ⟨kids, hids, hchild⟩
  obtain ⟨kind', hkind', -, rfl⟩ := Store.childIds_parts hids hnode
  rw [hkind] at hkind'
  cases hkind'
  have hslots : ∀ child ∈ node.slotIds kind,
      scope.Covered root child ∧ Intact scope.definitions found out.store child :=
    fun child hchild => ⟨hcovered child (List.mem_append_left _ hchild),
      hadmits.slots node kind hthere hkind child hchild⟩
  cases whole with
  | false =>
    rw [if_neg (by simp), List.append_nil]
    refine hstep _ node.serialization.toList rfl hslots fun ser hser => ?_
    simpa using hadmits.serialization node ser hthere (by simpa using hser)
  | true =>
    rw [if_pos rfl]
    refine hstep _ [] (List.append_nil _).symm (fun child hchild => ?_) (by simp)
    rcases List.mem_append.1 hchild with hchild | hchild
    · exact hslots child hchild
    · have hser : node.serialization = some child := by simpa using hchild
      exact ⟨hcovered child (List.mem_append_right _ (by simp [hser])),
        hadmits.serialization node child hthere hser⟩

/-! ### The two walks side by side -/

/-- At a place the node is an occurrence, and its serialization is all that the first walk finds
below. -/
theorem children_of_place (hname : found.soleOccurrence? name = some x)
    (hnode : scope.store.get? x = some node) (hids : scope.store.childIds x = .ok kids) :
    node.isReference = true ∧ node.target = some name ∧ kids = node.serialization.toList ∧
      ∀ ser, node.serialization = some ser → scope.Covered root ser := by
  obtain ⟨hx, node', hnode', href, htarget⟩ := covered_of_sole h.gather hname
  rw [hnode] at hnode'
  cases hnode'
  have hkids : kids = node.serialization.toList := by
    obtain ⟨kind, hkind, -, rfl⟩ := Store.childIds_parts hids hnode
    rw [Node.kind?_of_isReference href] at hkind
    cases hkind
    rfl
  refine ⟨href, htarget, hkids, fun ser hser => .child hx ⟨kids, hids, ?_⟩⟩
  simp [hkids, hser]

/-- A node at which the first walk opens no body. -/
theorem inStepAt_enter (hdrops : DropsIdle scope found out.store) (hp : Underway scope found p)
    (hq : entered.Before found) (hnode : scope.store.get? x = some node)
    (hids : scope.store.childIds x = .ok kids) (henter : scope.Enters x node p entered)
    (hstep : InStep scope out root found kids entered q) :
    InStepAt scope out root found x p q := by
  intro whole hadmits
  by_cases hplace : ∃ name, found.soleOccurrence? name = some x
  · -- the body is in the place; it was walked before
    obtain ⟨name, hname⟩ := hplace
    obtain ⟨href, htarget, rfl, hkids⟩ := h.children_of_place hname hnode hids
    obtain ⟨b, site, content, hb, hsite, hcontent, hthere, hcovered, hkept⟩ :=
      h.place hname hadmits.kept
    rw [hnode] at hsite
    cases hsite
    have hdone := done_of_enters hp hq hname href htarget henter
    have hbody := h.meetsAt_of_explored hp.finished
      (admits_body hdrops hname hb hnode hcontent hthere hcovered hkept hadmits)
      (hp.finished name b hdone hb)
    rw [← staying_enters henter] at hbody ⊢
    exact hbody.inlined hcontent hthere hadmits hkids hstep
  · have hnone : ∀ name, found.soleOccurrence? name ≠ some x := fun name e => hplace ⟨name, e⟩
    obtain ⟨kind, hkind, hfits, -⟩ := Store.childIds_parts hids hnode
    refine ⟨node, kind, _, (h.get?_eq_of_no_place hadmits.covered hnone).trans hnode, hkind, hfits,
      h.turns_of_enters hadmits.covered hnode hnone henter, ?_⟩
    rw [← staying_enters henter]
    exact h.meets_children hadmits.covered hnode hkind hids hnone hadmits hstep

/-- An occurrence at which the first walk opens a body. -/
theorem inStepAt_expand (hdrops : DropsIdle scope found out.store)
    (hbodies : ∀ name body, found.Stays name → scope.definitions.get? name = some body →
      Intact scope.definitions found out.store body)
    (hnode : scope.store.get? x = some node) (hids : scope.store.childIds x = .ok kids)
    (href : node.isReference = true) (htarget : node.target = some name)
    (hnew : p.expansions.get? name = none) (hb : scope.definitions.get? name = some b)
    (hkey : name ∈ inner.expansions.keys)
    (hbody : InStepAt scope out root found b (scope.opens x node name p) inner)
    (hstep : InStep scope out root found kids (inner.finishBody name) q) :
    InStepAt scope out root found x p q := by
  intro whole hadmits
  have hopens : (scope.opens x node name p).staying found = p.staying found ++
      if (found.soleOccurrence? name).isNone then [name] else [] := staying_opens hnew
  have hclosed : (inner.finishBody name).staying found = inner.staying found :=
    staying_finishBody hkey
  by_cases hplace : ∃ name, found.soleOccurrence? name = some x
  · -- the body is in the place
    obtain ⟨other, hname⟩ := hplace
    obtain ⟨-, htarget', rfl, hkids⟩ := h.children_of_place hname hnode hids
    rw [htarget] at htarget'
    cases htarget'
    obtain ⟨b', site, content, hb', hsite, hcontent, hthere, hcovered, hkept⟩ :=
      h.place hname hadmits.kept
    rw [hnode] at hsite
    cases hsite
    rw [hb] at hb'
    cases hb'
    have hinner := hbody _
      (admits_body hdrops hname hb hnode hcontent hthere hcovered hkept hadmits)
    rw [hopens, hname, ← hclosed] at hinner
    exact MeetsAt.inlined (by simpa using hinner) hcontent hthere hadmits hkids hstep
  · -- the name stays, and the second walk opens the copy of the body
    have hnone : ∀ name, found.soleOccurrence? name ≠ some x := fun name e => hplace ⟨name, e⟩
    have hmention : scope.store.Mentions x name := ⟨node, hnode, href, htarget⟩
    have hstays := stays_of_mention h.gather hadmits.covered hmention hnone
    have hcovered : scope.Covered root b := .body hadmits.covered hmention hb
    obtain ⟨copy, hcopy, content, hcontent, hcopied⟩ := h.emitted name b hstays hb
    rw [← h.get?_eq hcovered] at hcontent
    have hinner := hbody true (h.admits hcovered (hbodies name b hstays hb))
    rw [hopens, hstays.2] at hinner
    have hfresh : name ∉ p.staying found := fun hmem =>
      OrderedMap.get?_eq_none.1 hnew (Progress.mem_staying.1 hmem).1
    obtain ⟨kind, hkind, hfits, -⟩ := Store.childIds_parts hids hnode
    refine ⟨node, kind, _, (h.get?_eq_of_no_place hadmits.covered hnone).trans hnode, hkind, hfits,
      .new href htarget hfresh hcopy (MeetsAt.copy hinner hcontent hcopied), ?_⟩
    rw [← hclosed]
    exact h.meets_children hadmits.covered hnode hkind hids hnone hadmits hstep

theorem inStep_cons {rest : List NodeId} {r : Progress} (hp : Underway scope found p)
    (hr : r.Before found) (hwalk : scope.Walks (x :: rest) p r)
    (hhead : InStepAt scope out root found x p q) (hrest : InStep scope out root found rest q r) :
    InStep scope out root found (x :: rest) p r := by
  intro pre post hsplit hpre hpost
  cases pre with
  | nil =>
    -- all of it is left out
    rw [List.nil_append] at hsplit
    subst hsplit
    rw [staying_of_idle hwalk hp hr hpost]
    exact .nil _
  | cons first pre =>
    rw [List.cons_append, List.cons.injEq] at hsplit
    obtain ⟨rfl, rfl⟩ := hsplit
    obtain ⟨hcovered, hintact⟩ := hpre x List.mem_cons_self
    refine (hhead true (h.admits hcovered hintact)).cons ?_
    exact hrest pre post rfl (fun y hy => hpre y (List.mem_cons_of_mem _ hy)) hpost

omit h in
theorem inStepAt_singleton {rest : List NodeId} {r : Progress} (hwalk : scope.Walks rest q r)
    (hhead : InStepAt scope out root found x p q) :
    ∀ y, x :: rest = [y] → InStepAt scope out root found y p r := by
  intro y hsplit
  rw [List.cons.injEq] at hsplit
  obtain ⟨rfl, rfl⟩ := hsplit
  cases hwalk
  exact hhead

/-- **The second walk keeps in step with the first**, over a list of nodes and, where the list is
one node, at it. -/
theorem inStep (hdrops : DropsIdle scope found out.store)
    (hbodies : ∀ name body, found.Stays name → scope.definitions.get? name = some body →
      Intact scope.definitions found out.store body) (hwalk : scope.Walks ids p q) :
    Underway scope found p → q.Before found → InStep scope out root found ids p q ∧
      ∀ x, ids = [x] → InStepAt scope out root found x p q := by
  induction hwalk with
  | nil p =>
    intro _ _
    refine ⟨fun pre post hsplit _ _ => ?_, fun x hx => by cases hx⟩
    rw [(List.append_eq_nil_iff.1 hsplit.symm).1]
    exact .nil _
  | enter hnode hids henter hbelow hrest ihbelow ihrest =>
    intro hp hr
    have hq := hr.of_le hrest.le
    have hentered := hp.enters henter
    have hhead := h.inStepAt_enter hdrops hp (hq.of_le hbelow.le) hnode hids henter
      (ihbelow hentered hq).1
    refine ⟨?_, inStepAt_singleton hrest hhead⟩
    exact h.inStep_cons hp hr (.enter hnode hids henter hbelow hrest) hhead
      (ihrest (hentered.walks hbelow hq) hr).1
  | @expand x body node name kids rest p inner q r hnode hids href htarget hnew hbody hinner
      hbelow hrest ihinner ihbelow ihrest =>
    intro hp hr
    have hq := hr.of_le hrest.le
    have hin := hq.of_le ((Progress.le_finishBody name inner).trans hbelow.le)
    have hclosed := hp.finishBody hnew hbody hinner hin
    have hkey : name ∈ inner.expansions.keys := hinner.mem_keys_of_opens hnew
    have hhead := h.inStepAt_expand hdrops hbodies hnode hids href htarget hnew hbody hkey
      ((ihinner (hp.opens hnew) hin).2 body rfl) (ihbelow hclosed hq).1
    refine ⟨?_, inStepAt_singleton hrest hhead⟩
    exact h.inStep_cons hp hr (.expand hnode hids href htarget hnew hbody hinner hbelow hrest) hhead
      (ihrest (hclosed.walks hbelow hq) hr).1

/-- **What the second walk meets**: the names that stay, in the order in which the first walk met
them. -/
theorem meets (hdrops : DropsIdle scope found out.store)
    (hroot : Intact scope.definitions found out.store root)
    (hbodies : ∀ name body, found.Stays name → scope.definitions.get? name = some body →
      Intact scope.definitions found out.store body) :
    out.Meets [root] [] found.staying := by
  obtain ⟨p, hwalk, rfl, hkeys⟩ := Scope.keys_eq_of_gather h.gather
  have hstep := (h.inStep hdrops hbodies hwalk .start ⟨p, rfl, .refl p⟩).1
  have hmeets := hstep [root] [] rfl (by simpa using ⟨.root, hroot⟩) (by simp)
  have hlast : p.staying p.found = p.found.staying := by
    rw [Progress.staying, hkeys, Gathered.staying]
  rwa [hlast] at hmeets

end Cleaned

end SchemaGraph
