import SchemaGraph.Reference.Flatten
import SchemaGraph.Proofs.Rebuild

/-!
What a schema means: the tree that it unfolds to when each occurrence of a definition is replaced by
the body of its name. The tree may be infinite; it is given by its finite paths.

* `Store.Stands` — the node that one sees in place of an id;
* `Store.Unfolds` — a path of the tree and what is seen at its end;
* `Store.unfolds_iff` — related nodes unfold to the same tree when what one sees at them is alike.
-/

namespace SchemaGraph

/-! ### What is seen of a node -/

/-- The content of a node and the arrangement of its children. The name is no part of it. -/
structure Outline where
  tag : String
  target : Option String
  metadata : Option (OrderedMap Json)
  attrs : OrderedMap Json
  children : OrderedMap Form
  serialized : Bool
deriving DecidableEq

/-- An occurrence of `name` has this outline. -/
def Outline.Mentions (outline : Outline) (name : String) : Prop :=
  outline.tag = Kind.definitionRef.tag ∧ outline.target = some name

/-- A step from a node to one of its children. -/
inductive ChildStep where
  | slot (key : String) (position : Nat)
  | serialization
deriving DecidableEq

namespace Node

def outline (node : Node) : Outline where
  tag := node.tag
  target := node.target
  metadata := node.metadata
  attrs := node.attrs
  children := node.children.map Child.form
  serialized := node.serialization.isSome

def childAt? (node : Node) : ChildStep → Option NodeId
  | .slot key position => (node.children.get? key).bind fun child => child.ids[position]?
  | .serialization => node.serialization

/-- A node seen through an occurrence: the occurrence's metadata entries are laid over those of the
node, and its serialization, if it has one, stands in place of the node's. -/
def seenThrough (node site : Node) : Node :=
  { node with
    serialization := site.serialization <|> node.serialization
    metadata :=
      match site.metadata with
      | some entries => some ((node.metadata.getD .empty).insertMany entries.entries)
      | none => node.metadata }

/-- Nodes of equal outline whose children are related place by place. -/
structure Similar (R : NodeId → NodeId → Prop) (node other : Node) : Prop where
  outline : other.outline = node.outline
  childAt? : ∀ step, Option.Rel R (node.childAt? step) (other.childAt? step)

variable {R S : NodeId → NodeId → Prop} {node other site site' : Node}

theorem Alike.similar (h : node.Alike R other) : node.Similar R other where
  outline := by
    have hchildren : other.children.map Child.form = node.children.map Child.form := by
      refine OrderedMap.ext_get? (by simpa using h.keys) fun key => ?_
      rw [OrderedMap.get?_map, OrderedMap.get?_map]
      generalize hold : node.children.get? key = old
      have hrel := h.children key
      rw [hold] at hrel
      revert hrel
      generalize other.children.get? key = new
      rintro (hchild | _)
      · exact congrArg some hchild.form
      · rfl
    have hserialized : other.serialization.isSome = node.serialization.isSome := by
      have hrel := h.serialization
      revert hrel
      generalize node.serialization = old
      generalize other.serialization = new
      rintro (_ | _) <;> rfl
    rw [Node.outline, Node.outline, hchildren, hserialized, h.tag_eq, h.target_eq, h.metadata_eq,
      (congrArg Node.attrs h.content : _)]
  childAt? step := by
    cases step with
    | serialization => exact h.serialization
    | slot key position =>
      have hrel := h.children key
      simp only [Node.childAt?]
      revert hrel
      generalize node.children.get? key = old
      generalize other.children.get? key = new
      rintro (hchild | _)
      · rename_i child child'
        simp only [Option.bind_some]
        by_cases hi : position < child.ids.length
        · have hi' : position < child'.ids.length := hchild.ids.length_eq ▸ hi
          rw [List.getElem?_eq_getElem hi, List.getElem?_eq_getElem hi']
          exact .some (hchild.ids.get hi hi')
        · have hi' : ¬ position < child'.ids.length := hchild.ids.length_eq ▸ hi
          rw [List.getElem?_eq_none (by omega), List.getElem?_eq_none (by omega)]
          exact .none
      · exact .none

theorem Similar.symm (h : node.Similar R other) : other.Similar (fun x id => R id x) node :=
  ⟨h.outline.symm, fun step => optionRel_flip (h.childAt? step)⟩

theorem mem_storedIds_of_childAt? {step : ChildStep} {id : NodeId}
    (h : node.childAt? step = some id) : id ∈ node.storedIds := by
  cases step with
  | serialization => exact List.mem_append_right _ (Option.mem_toList.2 h)
  | slot key position =>
    obtain ⟨child, hchild, hid⟩ := Option.bind_eq_some_iff.1 h
    refine List.mem_append_left _ (List.mem_flatMap.2 ⟨child, ?_, List.mem_of_getElem? hid⟩)
    exact List.mem_map.2 ⟨_, OrderedMap.mem_entries_iff.2 hchild, rfl⟩

def anonymous (node : Node) : Node := { node with name := none }

theorem tag_of_anonymous_eq (h : other.anonymous = node.anonymous) : other.tag = node.tag :=
  (congrArg Node.tag h :)

theorem target_of_anonymous_eq (h : other.anonymous = node.anonymous) :
    other.target = node.target := (congrArg Node.target h :)

theorem innerSchema?_of_anonymous_eq (h : other.anonymous = node.anonymous) :
    other.innerSchema? = node.innerSchema? := (congrArg Node.innerSchema? h :)

theorem kind?_of_anonymous_eq (h : other.anonymous = node.anonymous) : other.kind? = node.kind? := by
  rw [kind?, kind?, tag_of_anonymous_eq h]

theorem storedIds_of_anonymous_eq (h : other.anonymous = node.anonymous) :
    other.storedIds = node.storedIds := (congrArg Node.storedIds h :)

theorem isReference_of_anonymous_eq (h : other.anonymous = node.anonymous) :
    other.isReference = node.isReference := by
  rw [isReference, isReference, tag_of_anonymous_eq h]

theorem similar_self (h : ∀ step id, node.childAt? step = some id → R id id) :
    node.Similar R node where
  outline := rfl
  childAt? step := by
    cases hid : node.childAt? step with
    | none => exact .none
    | some id => exact .some (h step id hid)

theorem Similar.of_anonymous_eq {named : Node} (h : node.Similar R other)
    (he : named.anonymous = other.anonymous) : node.Similar R named where
  outline := (congrArg Node.outline he :).trans h.outline
  childAt? step := by
    rw [show named.childAt? step = other.childAt? step from
      (congrArg (fun node => Node.childAt? node step) he :)]
    exact h.childAt? step

theorem similar_of_anonymous_eq (h : other.anonymous = node.anonymous)
    (hids : ∀ id ∈ node.storedIds, R id id) : node.Similar R other := by
  have hself : node.Similar R node :=
    similar_self fun _ id hid => hids id (mem_storedIds_of_childAt? hid)
  exact hself.of_anonymous_eq h

/-- Similar nodes seen through occurrences that agree are similar. -/
theorem Similar.seenThrough (h : node.Similar R other) (hmetadata : site'.metadata = site.metadata)
    (hserialization : Option.Rel R site.serialization site'.serialization) :
    (node.seenThrough site).Similar R (other.seenThrough site') := by
  have hchild := h.childAt? .serialization
  have hboth : Option.Rel R (site.serialization <|> node.serialization)
      (site'.serialization <|> other.serialization) := by
    revert hserialization
    generalize site.serialization = old
    generalize site'.serialization = new
    rintro (hid | _)
    · exact .some hid
    · exact hchild
  obtain ⟨houtline, hplaces⟩ := h
  simp only [Node.outline, Outline.mk.injEq] at houtline
  obtain ⟨htag, htarget, hmeta, hattrs, hchildren, -⟩ := houtline
  refine ⟨?_, fun step => ?_⟩
  · have hserialized : (site'.serialization <|> other.serialization).isSome =
        (site.serialization <|> node.serialization).isSome := by
      revert hboth
      generalize (site.serialization <|> node.serialization) = old
      generalize (site'.serialization <|> other.serialization) = new
      rintro (_ | _) <;> rfl
    simp only [Node.outline, Node.seenThrough, htag, htarget, hmeta, hattrs, hchildren, hmetadata,
      hserialized]
  · cases step with
    | serialization => exact hboth
    | slot key position => exact hplaces (.slot key position)

theorem seenThrough_seenThrough (node site outer : Node) :
    (node.seenThrough site).seenThrough outer = node.seenThrough (site.seenThrough outer) := by
  have hserialization : (outer.serialization <|> (site.serialization <|> node.serialization)) =
      ((outer.serialization <|> site.serialization) <|> node.serialization) := by
    cases outer.serialization <;> rfl
  simp only [seenThrough, hserialization]
  congr 1
  cases outer.metadata with
  | none => rfl
  | some entries =>
    simp only [OrderedMap.insertMany_insertMany]
    cases site.metadata <;> rfl

theorem mem_storedIds_seenThrough {id : NodeId} (h : id ∈ (node.seenThrough site).storedIds) :
    id ∈ node.storedIds ∨ id ∈ site.storedIds := by
  simp only [storedIds, seenThrough, List.mem_append, Option.mem_toList] at h ⊢
  rcases h with h | h
  · exact .inl (.inl h)
  · cases hsite : site.serialization with
    | none =>
      rw [hsite] at h
      exact .inl (.inr h)
    | some id =>
      rw [hsite] at h
      exact .inr (.inr h)

end Node

/-! ### Unfolding -/

namespace Store

/-- `view` is what one sees in place of the node at `id` when `bodies` gives the bodies of names: a
`definitions` node stands for its inner schema, an occurrence for the body of its name seen through
it. An occurrence of a name without a body, and every other node, stand for themselves. -/
inductive Stands (s : Store) (bodies : String → NodeId → Prop) : NodeId → Node → Prop where
  | plain {id : NodeId} {node : Node} (hnode : s.get? id = some node)
      (hkind : node.kind? ≠ some .definitions) (href : node.isReference = false) :
      Stands s bodies id node
  | unresolved {id : NodeId} {node : Node} {name : String} (hnode : s.get? id = some node)
      (href : node.isReference = true) (htarget : node.target = some name)
      (hnone : ∀ body, ¬ bodies name body) : Stands s bodies id node
  | inner {id inner : NodeId} {node view : Node} (hnode : s.get? id = some node)
      (hkind : node.kind? = some .definitions) (hinner : node.innerSchema? = some inner)
      (hview : Stands s bodies inner view) : Stands s bodies id view
  | body {id body : NodeId} {node view : Node} {name : String} (hnode : s.get? id = some node)
      (href : node.isReference = true) (htarget : node.target = some name)
      (hbody : bodies name body) (hview : Stands s bodies body view) :
      Stands s bodies id (view.seenThrough node)

/-- **Unfolding.** The tree at `id` has the path `path`, at the end of which one sees `outline`. -/
inductive Unfolds (s : Store) (bodies : String → NodeId → Prop) :
    NodeId → List ChildStep → Outline → Prop where
  | here {id : NodeId} {view : Node} (hview : s.Stands bodies id view) :
      Unfolds s bodies id [] view.outline
  | child {id child : NodeId} {view : Node} {step : ChildStep} {path : List ChildStep}
      {outline : Outline}
      (hview : s.Stands bodies id view) (hchild : view.childAt? step = some child)
      (hrest : Unfolds s bodies child path outline) : Unfolds s bodies id (step :: path) outline

variable {s s' : Store} {bodies bodies' : String → NodeId → Prop} {R : NodeId → NodeId → Prop}

/-- What is seen at the first of two related nodes is seen, up to `R`, at the second. -/
def Matches (s : Store) (bodies : String → NodeId → Prop) (s' : Store)
    (bodies' : String → NodeId → Prop) (R : NodeId → NodeId → Prop) : Prop :=
  ∀ id x view, R id x → s.Stands bodies id view →
    ∃ view', s'.Stands bodies' x view' ∧ view.Similar R view'

/-- The same node, where `P` holds of it. -/
def Only (P : NodeId → Prop) (x y : NodeId) : Prop := x = y ∧ P x

theorem Unfolds.of_matches (hmatch : Matches s bodies s' bodies' R) {id x : NodeId}
    {path : List ChildStep} {outline : Outline} (h : s.Unfolds bodies id path outline) (hx : R id x) :
    s'.Unfolds bodies' x path outline := by
  induction h generalizing x with
  | here hview =>
    obtain ⟨view', hview', hsimilar⟩ := hmatch _ _ _ hx hview
    rw [← hsimilar.outline]
    exact .here hview'
  | @child _ _ _ step _ _ hview hchild _ ih =>
    obtain ⟨view', hview', hsimilar⟩ := hmatch _ _ _ hx hview
    have hrel := hsimilar.childAt? step
    rw [hchild] at hrel
    generalize hnew : view'.childAt? step = new at hrel
    cases hrel with
    | some hx' => exact .child hview' hnew (ih hx')

/-- **Bisimilar nodes unfold to the same tree.** -/
theorem unfolds_iff (hforth : Matches s bodies s' bodies' R)
    (hback : Matches s' bodies' s bodies fun x id => R id x) {id x : NodeId} (hx : R id x)
    {path : List ChildStep} {outline : Outline} :
    s.Unfolds bodies id path outline ↔ s'.Unfolds bodies' x path outline :=
  ⟨fun h => h.of_matches hforth hx, fun h => h.of_matches hback hx⟩

/-- Nodes in whose places one sees the same unfold to the same tree. -/
theorem unfolds_congr {id x : NodeId} (h : ∀ view, s.Stands bodies id view ↔ s.Stands bodies x view)
    {path : List ChildStep} {outline : Outline} :
    s.Unfolds bodies id path outline ↔ s.Unfolds bodies x path outline := by
  constructor <;> rintro (hview | ⟨hview, hchild, hrest⟩)
  · exact .here ((h _).1 hview)
  · exact .child ((h _).1 hview) hchild hrest
  · exact .here ((h _).2 hview)
  · exact .child ((h _).2 hview) hchild hrest

theorem stands_inner_iff {id inner : NodeId} {node view : Node} (hnode : s.get? id = some node)
    (hkind : node.kind? = some .definitions) (hinner : node.innerSchema? = some inner) :
    s.Stands bodies id view ↔ s.Stands bodies inner view := by
  refine ⟨fun h => ?_, .inner hnode hkind hinner⟩
  cases h with
  | plain hnode' hplain =>
    rw [hnode] at hnode'
    cases hnode'
    exact absurd hkind hplain
  | unresolved hnode' href =>
    rw [hnode] at hnode'
    cases hnode'
    exact absurd (Node.kind?_of_isReference href) (by simp [hkind])
  | inner hnode' _ hinner' hview =>
    rw [hnode] at hnode'
    cases hnode'
    rw [hinner] at hinner'
    cases hinner'
    exact hview
  | body hnode' href =>
    rw [hnode] at hnode'
    cases hnode'
    exact absurd (Node.kind?_of_isReference href) (by simp [hkind])

/-- An occurrence without metadata and serialization stands for the body of its name. -/
theorem stands_reference_iff {id body : NodeId} {name : String} {view : Node}
    (hnode : s.get? id = some (.reference name)) (hbody : ∀ x, bodies name x ↔ x = body) :
    s.Stands bodies id view ↔ s.Stands bodies body view := by
  refine ⟨fun h => ?_, fun h => .body hnode rfl rfl ((hbody body).2 rfl) h⟩
  cases h with
  | plain hnode' _ href =>
    rw [hnode] at hnode'
    cases hnode'
    cases href
  | unresolved hnode' _ htarget hnone =>
    rw [hnode] at hnode'
    cases hnode'
    cases htarget
    exact absurd ((hbody body).2 rfl) (hnone body)
  | inner hnode' hkind =>
    rw [hnode] at hnode'
    cases hnode'
    rw [Node.kind?_of_isReference rfl] at hkind
    cases hkind
  | body hnode' _ htarget hbody' hview =>
    rw [hnode] at hnode'
    cases hnode'
    cases htarget
    rw [(hbody _).1 hbody'] at hview
    exact hview

/-- What holds of a node and goes on to all that it holds and to the bodies of its occurrences holds
of all that the node seen in its place holds. -/
theorem Stands.held {P : NodeId → Prop}
    (hheld : ∀ id node, P id → s.get? id = some node → ∀ child ∈ node.storedIds, P child)
    (hbody : ∀ id node name body, P id → s.get? id = some node → node.isReference = true →
      node.target = some name → bodies name body → P body)
    {id : NodeId} {view : Node} (h : s.Stands bodies id view) (hid : P id) :
    ∀ child ∈ view.storedIds, P child := by
  induction h with
  | plain hnode | unresolved hnode => exact hheld _ _ hid hnode
  | inner hnode _ hinner _ ih =>
    exact ih (hheld _ _ hid hnode _ (Node.mem_storedIds_of_innerSchema? hinner))
  | body hnode href htarget hname _ ih =>
    intro child hchild
    rcases Node.mem_storedIds_seenThrough hchild with hchild | hchild
    · exact ih (hbody _ _ _ _ hid hnode href htarget hname) child hchild
    · exact hheld _ _ hid hnode child hchild

/-- Nodes that are the same but for their names, over bodies that correspond. -/
theorem matches_of_anonymous
    (hnode : ∀ x y node, R x y → s.get? x = some node →
      (∃ node', s'.get? y = some node' ∧ node'.anonymous = node.anonymous) ∧
        ∀ id ∈ node.storedIds, R id id)
    (hbodies : ∀ name x, bodies name x → ∃ y, bodies' name y ∧ R x y)
    (hbodies' : ∀ name y, bodies' name y → ∃ x, bodies name x) :
    Matches s bodies s' bodies' R := by
  intro x y view hxy hview
  induction hview generalizing y with
  | plain hget hkind href =>
    obtain ⟨⟨node', hget', he⟩, hids⟩ := hnode _ _ _ hxy hget
    have hkind' : node'.kind? ≠ some .definitions := by rwa [Node.kind?_of_anonymous_eq he]
    have href' : node'.isReference = false := by rwa [Node.isReference_of_anonymous_eq he]
    exact ⟨node', .plain hget' hkind' href', Node.similar_of_anonymous_eq he hids⟩
  | @unresolved _ _ name hget href htarget hnone =>
    obtain ⟨⟨node', hget', he⟩, hids⟩ := hnode _ _ _ hxy hget
    have href' : node'.isReference = true := by rwa [Node.isReference_of_anonymous_eq he]
    have htarget' : node'.target = some name := by rwa [Node.target_of_anonymous_eq he]
    have hnone' : ∀ y, ¬ bodies' name y := by
      intro y' hy'
      obtain ⟨x', hx'⟩ := hbodies' name y' hy'
      exact hnone x' hx'
    exact ⟨node', .unresolved hget' href' htarget' hnone', Node.similar_of_anonymous_eq he hids⟩
  | @inner _ inner _ _ hget hkind hinner _ ih =>
    obtain ⟨⟨node', hget', he⟩, hids⟩ := hnode _ _ _ hxy hget
    have hkind' : node'.kind? = some .definitions := by rwa [Node.kind?_of_anonymous_eq he]
    have hinner' : node'.innerSchema? = some inner := by rwa [Node.innerSchema?_of_anonymous_eq he]
    obtain ⟨view', hview', hsimilar⟩ := ih _ (hids _ (Node.mem_storedIds_of_innerSchema? hinner))
    exact ⟨view', .inner hget' hkind' hinner' hview', hsimilar⟩
  | @body _ _ _ _ name hget href htarget hname _ ih =>
    obtain ⟨⟨node', hget', he⟩, hids⟩ := hnode _ _ _ hxy hget
    have href' : node'.isReference = true := by rwa [Node.isReference_of_anonymous_eq he]
    have htarget' : node'.target = some name := by rwa [Node.target_of_anonymous_eq he]
    obtain ⟨y', hname', hbody⟩ := hbodies _ _ hname
    obtain ⟨view', hview', hsimilar⟩ := ih _ hbody
    have hmetadata : node'.metadata = _ := (congrArg Node.metadata he :)
    have hserialization := (Node.similar_of_anonymous_eq he hids).childAt? .serialization
    exact ⟨view'.seenThrough node', .body hget' href' htarget' hname' hview',
      hsimilar.seenThrough hmetadata hserialization⟩

/-! ### Names left out -/

/-- An occurrence is seen only if its name has no body. -/
theorem Stands.not_body {id : NodeId} {view : Node} {name : String} (h : s.Stands bodies id view)
    (hname : view.outline.Mentions name) (body : NodeId) : ¬ bodies name body := by
  induction h with
  | @plain _ node _ _ href =>
    have hyes : node.isReference = true := beq_iff_eq.2 hname.1
    rw [href] at hyes
    cases hyes
  | unresolved _ _ htarget hnone =>
    have he := htarget.symm.trans hname.2
    cases he
    exact hnone body
  | inner _ _ _ _ ih => exact ih hname
  | body _ _ _ _ _ ih => exact ih hname

theorem Unfolds.not_body {id : NodeId} {path : List ChildStep} {outline : Outline} {name : String}
    (h : s.Unfolds bodies id path outline) (hname : outline.Mentions name) (body : NodeId) :
    ¬ bodies name body := by
  induction h with
  | here hview => exact hview.not_body hname body
  | child _ _ _ ih => exact ih hname

section Restrict

variable {keeps : String → Prop}

/-- The bodies of the names that are kept. -/
def kept (bodies : String → NodeId → Prop) (keeps : String → Prop) (name : String) (body : NodeId) :
    Prop := bodies name body ∧ keeps name

/-- One sees the same with fewer bodies unless one then sees an occurrence of a name that has lost
its body. -/
theorem stands_kept_iff {id : NodeId} {view : Node}
    (h : ∀ view name, s.Stands (kept bodies keeps) id view → view.outline.Mentions name →
      ∀ body, ¬ bodies name body) :
    s.Stands bodies id view ↔ s.Stands (kept bodies keeps) id view := by
  constructor
  · intro hview
    induction hview with
    | plain hnode hkind href => exact .plain hnode hkind href
    | unresolved hnode href htarget hnone =>
      exact .unresolved hnode href htarget fun body hbody => hnone body hbody.1
    | inner hnode hkind hinner _ ih =>
      exact .inner hnode hkind hinner (ih fun view name hview =>
        h view name (.inner hnode hkind hinner hview))
    | @body id body node view name hnode href htarget hbody _ ih =>
      by_cases hkeeps : keeps name
      · have hbody' : kept bodies keeps name body := ⟨hbody, hkeeps⟩
        exact .body hnode href htarget hbody' (ih fun view name hview =>
          h (view.seenThrough node) name (.body hnode href htarget hbody' hview))
      · have hnode' := Stands.unresolved hnode href htarget
          fun body (hbody : kept bodies keeps name body) => hkeeps hbody.2
        exact absurd hbody (h node name hnode' ⟨eq_of_beq href, htarget⟩ body)
  · intro hview
    induction hview with
    | plain hnode hkind href => exact .plain hnode hkind href
    | unresolved hnode href htarget hnone =>
      exact .unresolved hnode href htarget
        (h _ _ (.unresolved hnode href htarget hnone) ⟨eq_of_beq href, htarget⟩)
    | inner hnode hkind hinner _ ih =>
      exact .inner hnode hkind hinner (ih fun view name hview =>
        h view name (.inner hnode hkind hinner hview))
    | body hnode href htarget hbody _ ih =>
      exact .body hnode href htarget hbody.1 (ih fun view name hview =>
        h (view.seenThrough _) name (.body hnode href htarget hbody hview))

/-- With the kept bodies no occurrence is left at `id` of a name that had a body. -/
def NoneLost (s : Store) (bodies : String → NodeId → Prop) (keeps : String → Prop) (id : NodeId) :
    Prop :=
  ∀ path outline name, s.Unfolds (kept bodies keeps) id path outline → outline.Mentions name →
    ∀ body, ¬ bodies name body

theorem NoneLost.stands_iff {id : NodeId} {view : Node} (h : s.NoneLost bodies keeps id) :
    s.Stands bodies id view ↔ s.Stands (kept bodies keeps) id view :=
  stands_kept_iff fun _ name hview => h [] _ name (.here hview)

theorem NoneLost.similar {id : NodeId} {view : Node} (h : s.NoneLost bodies keeps id)
    (hview : s.Stands (kept bodies keeps) id view) :
    view.Similar (Only (s.NoneLost bodies keeps)) view :=
  Node.similar_self fun _ _ hchild =>
    ⟨rfl, fun _ outline name hpath => h _ outline name (.child hview hchild hpath)⟩

/-- **With fewer bodies** a node unfolds to the same tree exactly if none that is met is lost. -/
theorem unfolds_kept_iff {id : NodeId} :
    (∀ path outline, s.Unfolds bodies id path outline ↔
        s.Unfolds (kept bodies keeps) id path outline) ↔ s.NoneLost bodies keeps id := by
  constructor
  · intro h path outline name hpath
    exact ((h path outline).2 hpath).not_body
  · intro h path outline
    refine unfolds_iff (R := Only (s.NoneLost bodies keeps)) ?_ ?_ ⟨rfl, h⟩
    · rintro x _ view ⟨rfl, hx⟩ hview
      have hview' := hx.stands_iff.1 hview
      exact ⟨view, hview', hx.similar hview'⟩
    · rintro x _ view ⟨rfl, hx⟩ hview
      exact ⟨view, hx.stands_iff.2 hview, (hx.similar hview).symm⟩

end Restrict

end Store

end SchemaGraph
