import SchemaGraph.Proofs.Wire.Legible

/-!
What the JSON of a node says about the node. Nodes that are alike over schemas that are shown as the
same are shown as the same, and back: a node with its parts in place can be told from its fields.

* `Node.Alike.shownAs`, `Node.Alike.fields_eq` — alike nodes have the same fields;
* `Wire.fieldsAt_fields` — the fields of a node come in the order of their roles, so no key comes
  twice (`Wire.nodup_names_fields`);
* `Node.alike_of_fields` — nodes with the same fields are alike.
-/

namespace SchemaGraph

/-! ### Two lists with a third -/

section Compose

variable {α β γ : Type} {R : α → β → Prop} {S : β → γ → Prop} {T : α → γ → Prop}

theorem forall₂_compose (hT : ∀ a b c, R a b → S b c → T a c) : ∀ {as : List α} {bs : List β}
    {cs : List γ}, List.Forall₂ R as bs → List.Forall₂ S bs cs → List.Forall₂ T as cs
  | _, _, _, .nil, .nil => .nil
  | _, _, _, .cons h hs, .cons h' hs' => .cons (hT _ _ _ h h') (forall₂_compose hT hs hs')

theorem forall₂_mem : ∀ {as : List α} {bs : List β}, List.Forall₂ R as bs →
    List.Forall₂ (fun a b => R a b ∧ a ∈ as ∧ b ∈ bs) as bs
  | _, _, .nil => .nil
  | _, _, .cons h hs => .cons ⟨h, List.mem_cons_self, List.mem_cons_self⟩
      ((forall₂_mem hs).imp fun _ _ h =>
        ⟨h.1, List.mem_cons_of_mem _ h.2.1, List.mem_cons_of_mem _ h.2.2⟩)

theorem optionRel_mem {a : Option α} {b : Option β} (h : Option.Rel R a b) :
    Option.Rel (fun x y => R x y ∧ a = some x ∧ b = some y) a b := by
  cases h with
  | none => exact .none
  | some h => exact .some ⟨h, rfl, rfl⟩

theorem optionRel_compose (hT : ∀ a b c, R a b → S b c → T a c) {a : Option α} {b : Option β}
    {c : Option γ} (h : Option.Rel R a b) (h' : Option.Rel S b c) : Option.Rel T a c := by
  cases h with
  | none =>
    cases h'
    exact .none
  | some h =>
    cases h' with
    | some h' => exact .some (hT _ _ _ h h')

end Compose

namespace Entries

variable {α β γ : Type} {R : α → β → Prop} {S : β → γ → Prop} {T : α → γ → Prop}

theorem Related.flip {entries : List (String × α)} {others : List (String × β)}
    (h : Related R entries others) : Related (fun b a => R a b) others entries := by
  induction h with
  | nil => exact .nil
  | cons hentry _ ih => exact .cons ⟨hentry.1.symm, hentry.2⟩ ih

theorem Related.compose {entries : List (String × α)} {mids : List (String × β)}
    {others : List (String × γ)} (h : Related R entries mids) (h' : Related S mids others)
    (hT : ∀ a b c, R a b → S b c → T a c) : Related T entries others :=
  forall₂_compose (fun _ _ _ hentry hmid => ⟨hmid.1.trans hentry.1, hT _ _ _ hentry.2 hmid.2⟩) h h'

theorem Related.find? {entries : List (String × α)} {others : List (String × β)}
    (h : Related R entries others) (key : String) :
    Option.Rel R (Entries.find? key entries) (Entries.find? key others) := by
  induction h with
  | nil => exact .none
  | @cons entry other _ _ hentry _ ih =>
    obtain ⟨name, a⟩ := entry
    obtain ⟨other, b⟩ := other
    obtain ⟨rfl, hab⟩ := hentry
    rw [Entries.find?, Entries.find?]
    by_cases hkey : other = key
    · rw [if_pos hkey, if_pos hkey]
      exact .some hab
    · rw [if_neg hkey, if_neg hkey]
      exact ih

theorem related_of_find? : ∀ {entries : List (String × α)} {others : List (String × β)},
    (names entries).Nodup → names others = names entries →
      (∀ key, Option.Rel R (Entries.find? key entries) (Entries.find? key others)) →
        Related R entries others
  | [], [], _, _, _ => .nil
  | (name, a) :: entries, (other, b) :: others, hnodup, hnames, h => by
    obtain ⟨hname, hrest⟩ := List.nodup_cons.1 hnodup
    obtain ⟨e, hothers⟩ := List.cons.inj hnames
    obtain rfl : other = name := e
    refine .cons ⟨rfl, ?_⟩ (related_of_find? hrest hothers fun key => ?_)
    · simpa [Entries.find?] using h other
    · by_cases hkey : other = key
      · subst hkey
        have hother : other ∉ names others := fun hmem => hname (hothers ▸ hmem)
        rw [(find?_eq_none _ _).2 hname, (find?_eq_none _ _).2 hother]
        exact .none
      · simpa [Entries.find?, hkey] using h key

theorem related_of_names : ∀ {entries : List (String × α)} {others : List (String × β)},
    names others = names entries →
      List.Forall₂ R (entries.map Prod.snd) (others.map Prod.snd) → Related R entries others
  | [], [], _, _ => .nil
  | _ :: _, _ :: _, hnames, h => by
    obtain ⟨hname, hnames⟩ := List.cons.inj hnames
    obtain ⟨hab, h⟩ := List.forall₂_cons.1 h
    exact .cons ⟨hname, hab⟩ (related_of_names hnames h)

end Entries

/-! ### The JSON of nodes that are alike -/

section Alike

variable {R : NodeId → NodeId → Prop} {S S' : NodeId → Json → Prop}

theorem Choice.shownAs_of_labels (hS : ∀ a b w, R a b → S a w → S' b w) :
    ∀ {cs others : List Choice} {ws : List Json}, others.map Choice.label = cs.map Choice.label →
      List.Forall₂ R (cs.map Choice.schema) (others.map Choice.schema) →
        List.Forall₂ (Choice.ShownAs S) cs ws → List.Forall₂ (Choice.ShownAs S') others ws
  | [], [], _, _, _, .nil => .nil
  | _ :: _, ⟨x, label⟩ :: _, _, hlabels, hids, .cons h hs => by
    obtain ⟨hlabel, hlabels⟩ := List.cons.inj hlabels
    obtain ⟨hx, hids⟩ := List.forall₂_cons.1 hids
    refine .cons ?_ (shownAs_of_labels hS hlabels hids hs)
    cases h with
    | plain hw =>
      obtain rfl : label = none := hlabel
      exact .plain (hS _ _ _ hx hw)
    | @labelled _ _ text hw =>
      obtain rfl : label = some text := hlabel
      exact .labelled (hS _ _ _ hx hw)

theorem Child.Alike.shownAs {child other : Child} {w : Json} (h : child.Alike R other)
    (hw : child.ShownAs S w) (hS : ∀ a b w, R a b → S a w → S' b w) : other.ShownAs S' w := by
  obtain ⟨hform, hids⟩ := h
  have hS' : ∀ b a w, R a b → S a w → S' b w := fun b a w => hS a b w
  cases hw with
  | one hw =>
    cases other with
    | one x =>
      obtain ⟨hx, -⟩ := List.forall₂_cons.1 hids
      exact .one (hS _ _ _ hx hw)
    | _ => cases hform
  | many hws =>
    cases other with
    | many xs => exact .many (forall₂_compose hS' hids.flip hws)
    | _ => cases hform
  | choices hws =>
    cases other with
    | choices others =>
      exact .choices (Choice.shownAs_of_labels hS (Form.choices.inj hform) hids hws)
    | _ => cases hform
  | keyed hws =>
    cases other with
    | keyed others =>
      have hentries := Entries.related_of_names (Form.keyed.inj hform) hids
      exact .keyed (hentries.flip.compose hws hS')
    | _ => cases hform

namespace Node

variable {node other : Node} {children children' : List (String × Json)}
  {serialization serialization' : Option Json}

theorem Alike.related (h : node.Alike R other) :
    Entries.Related (Child.Alike R) node.children.entries other.children.entries :=
  Entries.related_of_find? node.children.nodup h.keys h.children

theorem mem_storedIds_of_child {key : String} {child : Child} {id : NodeId}
    (hchild : node.children.get? key = some child) (hid : id ∈ child.ids) : id ∈ node.storedIds :=
  List.mem_append_left _ (List.mem_flatMap.2
    ⟨child, List.mem_map.2 ⟨_, OrderedMap.mem_entries_iff.2 hchild, rfl⟩, hid⟩)

theorem Alike.shownAs (h : node.Alike R other) (hshown : node.ShownAs S children serialization)
    (hS : ∀ a b w, R a b → S a w → S' b w) : other.ShownAs S' children serialization where
  children := h.related.flip.compose hshown.children fun _ _ _ halike hw => halike.shownAs hw hS
  serialization := optionRel_compose (fun b a w => hS a b w) (optionRel_flip h.serialization)
    hshown.serialization

theorem Alike.and_mem (h : node.Alike R other) :
    node.Alike (fun a b => R a b ∧ a ∈ node.storedIds ∧ b ∈ other.storedIds) other where
  content := h.content
  keys := h.keys
  children key := optionRel_mono (optionRel_mem (h.children key))
    fun _ _ ⟨hchild, hkey, hkey'⟩ => ⟨hchild.form, (forall₂_mem hchild.ids).imp
      fun _ _ ⟨hid, hmem, hmem'⟩ =>
        ⟨hid, mem_storedIds_of_child hkey hmem, mem_storedIds_of_child hkey' hmem'⟩⟩
  serialization := optionRel_mono (optionRel_mem h.serialization) fun _ _ ⟨hid, hmem, hmem'⟩ =>
    ⟨hid, List.mem_append_right _ (Option.mem_toList.2 hmem),
      List.mem_append_right _ (Option.mem_toList.2 hmem')⟩

theorem Alike.fields_eq (h : node.Alike R other) :
    other.fields children serialization = node.fields children serialization := by
  rw [h.content]
  rfl

end Node

end Alike

/-! ### Telling a node from its fields -/

section Tell

variable {R : NodeId → NodeId → Prop} {S S' : NodeId → Json → Prop}

/-- Child locations of one shape that are shown as the same hold the same, if no schema is shown as
a list: a list in the place of a choice is then a choice with its label. -/
theorem Child.alike_of_shownAs {child other : Child} {w : Json} (h : child.ShownAs S w)
    (h' : other.ShownAs S' w) (hshape : other.shape = child.shape)
    (hlist : ∀ a items, ¬ S a (.list items)) (hlist' : ∀ b items, ¬ S' b (.list items))
    (hR : ∀ a b w, S a w → S' b w → R a b) : child.Alike R other := by
  have hR' : ∀ a w b, S a w → S' b w → R a b := fun a w b => hR a b w
  cases h with
  | one h =>
    cases h' with
    | one h' => exact ⟨rfl, .cons (hR _ _ _ h h') .nil⟩
    | _ => cases hshape
  | many h =>
    cases h' with
    | many h' =>
      have hids := forall₂_compose hR' h h'.flip
      exact ⟨congrArg Form.many hids.length_eq.symm, hids⟩
    | _ => cases hshape
  | choices h =>
    cases h' with
    | choices h' =>
      have hchoices := forall₂_compose (T := fun c c' : Choice => c'.label = c.label ∧
        R c.schema c'.schema) (fun c w c' hc hc' => by
          cases hc with
          | plain h =>
            cases hc' with
            | plain h' => exact ⟨rfl, hR _ _ _ h h'⟩
            | labelled h' => exact absurd h (hlist _ _)
          | labelled h =>
            cases hc' with
            | plain h' => exact absurd h' (hlist' _ _)
            | labelled h' => exact ⟨rfl, hR _ _ _ h h'⟩) h h'.flip
      refine ⟨congrArg Form.choices ?_, ?_⟩
      · clear h h'
        induction hchoices with
        | nil => rfl
        | cons hc _ ih => exact congrArg₂ List.cons hc.1 (ih rfl)
      · exact List.forall₂_map_left_iff.2 (List.forall₂_map_right_iff.2
          (hchoices.imp fun _ _ hc => hc.2))
    | _ => cases hshape
  | keyed h =>
    cases h' with
    | keyed h' =>
      have hentries := h.compose h'.flip hR'
      refine ⟨congrArg Form.keyed hentries.names_eq, ?_⟩
      exact List.forall₂_map_left_iff.2 (List.forall₂_map_right_iff.2
        (hentries.imp fun _ _ hentry => hentry.2))
    | _ => cases hshape

namespace Wire

/-- The place of a part among the fields of a rendered node. -/
def Role.position : Role → Nat
  | .tag => 0
  | .name => 1
  | .target => 2
  | .child _ => 3
  | .attr => 4
  | .metadata => 5
  | .serialization => 6

/-- The fields of the roles at a position. -/
def fieldsAt (kind : Option Kind) (position : Nat) (fields : List (String × Json)) :
    List (String × Json) :=
  fields.filter fun field => (role kind field.1).position = position

variable {kind : Option Kind} {position : Nat} {fields others : List (String × Json)}

theorem fieldsAt_append : fieldsAt kind position (fields ++ others) =
    fieldsAt kind position fields ++ fieldsAt kind position others := List.filter_append ..

theorem fieldsAt_of_forall (own : Nat)
    (h : ∀ field ∈ fields, (role kind field.1).position = own) :
    fieldsAt kind position fields = if own = position then fields else [] := by
  split
  · rename_i e
    exact List.filter_eq_self.2 fun field hfield => decide_eq_true ((h field hfield).trans e)
  · rename_i e
    exact List.filter_eq_nil_iff.2 fun field hfield =>
      by simpa using fun e' => e ((h field hfield).symm.trans e')

theorem fieldsAt_part {α : Type} {part : Option α} {field : α → String × Json} (own : Nat)
    (h : ∀ a, part = some a → (role kind (field a).1).position = own) :
    fieldsAt kind position (part.map field).toList =
      if own = position then (part.map field).toList else [] := by
  refine fieldsAt_of_forall own fun entry hentry => ?_
  obtain ⟨a, ha, rfl⟩ := Option.map_eq_some_iff.1 (Option.mem_toList.1 hentry)
  exact h a ha

theorem nodup_of_fieldsAt (h : ∀ position, (Entries.names (fieldsAt kind position fields)).Nodup) :
    (Entries.names fields).Nodup := by
  induction fields with
  | nil => exact List.nodup_nil
  | cons field fields ih =>
    refine List.nodup_cons.2 ⟨fun hmem => ?_, ih fun position => ?_⟩
    · obtain ⟨other, hother, e⟩ := List.mem_map.1 hmem
      have hself := h (role kind field.1).position
      rw [fieldsAt, List.filter_cons_of_pos (by simp)] at hself
      refine (List.nodup_cons.1 hself).1 (List.mem_map.2 ⟨other, ?_, e⟩)
      exact List.mem_filter.2 ⟨hother, by simp [e]⟩
    · exact (h position).sublist (((List.sublist_cons_self _ _).filter _).map _)

/-- The fields of a node with its parts in place, by their position. -/
theorem fieldsAt_fields {node : Node} {children : List (String × Json)}
    {serialization : Option Json} (hplace : InPlace kind node)
    (hshown : node.ShownAs S children serialization) (position : Nat) :
    fieldsAt kind position (node.fields children serialization) =
      (if 0 = position then [(Key.tag, .text node.tag)] else [])
        ++ (if 1 = position then
          (node.name.map fun name => (Key.name, Json.text name)).toList else [])
        ++ (if 2 = position then
          (node.target.map fun target => (Key.target, Json.text target)).toList else [])
        ++ (if 3 = position then children else [])
        ++ (if 4 = position then node.attrs.entries else [])
        ++ (if 5 = position then (node.metadata.map fun metadata =>
          (Key.metadata, Json.object metadata.entries)).toList else [])
        ++ (if 6 = position then
          (serialization.map fun value => (Key.serialization, value)).toList else []) := by
  have hchildren : ∀ field ∈ children, (role kind field.1).position = 3 := by
    intro field hfield
    obtain ⟨⟨key, child⟩, hentry, hname, -⟩ := exists_left_of_forall₂ hshown.children hfield
    obtain ⟨slot, hrole, -⟩ := hplace.children key child hentry
    rw [hname, hrole]
    rfl
  have hserialization : ∀ value, serialization = some value →
      (role kind Key.serialization).position = 6 := by
    intro value hvalue
    obtain ⟨id, hid, -⟩ := exists_of_optionRel hshown.serialization hvalue
    rw [hplace.serialization (by simp [hid])]
    rfl
  simp only [Node.fields, fieldsAt_append]
  rw [fieldsAt_of_forall 0 (by simp [role_tag, Role.position]),
    fieldsAt_part 1 (fun name h => by rw [hplace.name (by simp [h])]; rfl),
    fieldsAt_part 2 (fun target h => by rw [hplace.target (by simp [h])]; rfl),
    fieldsAt_of_forall 3 hchildren,
    fieldsAt_of_forall 4 (fun field h => by
      rw [hplace.attrs field.1 (List.mem_map_of_mem h)]; rfl),
    fieldsAt_part 5 (fun metadata h => by rw [hplace.metadata (by simp [h])]; rfl),
    fieldsAt_part 6 hserialization]

/-- No two fields of a node with its parts in place lie under one key. -/
theorem nodup_names_fields {node : Node} {children : List (String × Json)}
    {serialization : Option Json} (hplace : InPlace kind node)
    (hshown : node.ShownAs S children serialization) :
    (Entries.names (node.fields children serialization)).Nodup := by
  suffices h : ∀ position,
      (Entries.names (fieldsAt kind position (node.fields children serialization))).Nodup from
    nodup_of_fieldsAt h
  intro position
  have hchildren : (Entries.names children).Nodup :=
    hshown.children.names_eq ▸ node.children.nodup
  have hpart : ∀ {α : Type} (part : Option α) (field : α → String × Json),
      (Entries.names (part.map field).toList).Nodup := by
    rintro α (_ | a) field <;> simp [Entries.names]
  rw [fieldsAt_fields hplace hshown]
  rcases position with _ | _ | _ | _ | _ | _ | _ | position
  · exact List.nodup_singleton _
  · simpa using hpart node.name _
  · simpa using hpart node.target _
  · simpa using hchildren
  · simpa using node.attrs.nodup
  · simpa using hpart node.metadata _
  · simpa using hpart serialization _
  · exact List.nodup_nil

end Wire

namespace Node

variable {node other : Node} {children children' : List (String × Json)}
  {serialization serialization' : Option Json}

theorem eq_of_part {α : Type} {key : String} (f : α → Json) (hf : Function.Injective f)
    {part part' : Option α} (h : (part'.map fun a => (key, f a)).toList =
      (part.map fun a => (key, f a)).toList) : part' = part := by
  cases part <;> cases part' <;> simp_all [hf.eq_iff]

/-- **A node can be told from its fields.** Nodes with their parts in place that have the same
fields are alike. -/
theorem alike_of_fields (hplace : Wire.InPlace node.kind? node)
    (hplace' : Wire.InPlace other.kind? other) (hshown : node.ShownAs S children serialization)
    (hshown' : other.ShownAs S' children' serialization')
    (hfields : other.fields children' serialization' = node.fields children serialization)
    (hlist : ∀ a items, ¬ S a (.list items)) (hlist' : ∀ b items, ¬ S' b (.list items))
    (hR : ∀ a b w, S a w → S' b w → R a b) : node.Alike R other := by
  have htag : other.tag = node.tag := by
    have hhead := congrArg List.head? hfields
    simpa [Node.fields] using hhead
  have hkind : other.kind? = node.kind? := by rw [kind?, kind?, htag]
  rw [hkind] at hplace'
  have hat := fun position => congrArg (Wire.fieldsAt node.kind? position) hfields
  simp only [Wire.fieldsAt_fields hplace hshown, Wire.fieldsAt_fields hplace' hshown'] at hat
  have hname : other.name = node.name :=
    eq_of_part Json.text (fun _ _ => Json.text.inj) (by simpa using hat 1)
  have htarget : other.target = node.target :=
    eq_of_part Json.text (fun _ _ => Json.text.inj) (by simpa using hat 2)
  obtain rfl : children' = children := by simpa using hat 3
  have hattrs : other.attrs = node.attrs := OrderedMap.ext (by simpa using hat 4)
  have hmetadata : other.metadata = node.metadata :=
    eq_of_part (fun metadata => Json.object metadata.entries)
      (fun _ _ e => OrderedMap.ext (Json.object.inj e)) (by simpa using hat 5)
  obtain rfl : serialization' = serialization :=
    eq_of_part id Function.injective_id (by simpa using hat 6)
  have hrelated : Entries.Related (Child.Alike R) node.children.entries other.children.entries := by
    refine forall₂_compose ?_ (forall₂_mem hshown.children) (forall₂_mem hshown'.children).flip
    rintro ⟨key, child⟩ ⟨_, w⟩ ⟨_, child'⟩ ⟨⟨rfl, hw⟩, hmem, -⟩ ⟨⟨rfl, hw'⟩, hmem', -⟩
    obtain ⟨slot, hrole, hshape⟩ := hplace.children _ child hmem
    obtain ⟨slot', hrole', hshape'⟩ := hplace'.children _ child' hmem'
    obtain rfl : slot = slot' := Wire.Role.child.inj (hrole.symm.trans hrole')
    exact ⟨rfl, Child.alike_of_shownAs hw hw' (hshape'.trans hshape.symm) hlist hlist' hR⟩
  refine ⟨?_, hrelated.names_eq, fun key => hrelated.find? key,
    optionRel_compose (fun a w b => hR a b w) hshown.serialization
      (optionRel_flip hshown'.serialization)⟩
  cases node
  cases other
  simp_all

theorem ShownAs.and_mem (h : node.ShownAs S children serialization) :
    node.ShownAs (fun id w => S id w ∧ id ∈ node.storedIds) children serialization := by
  have hself : node.Alike (fun a b => a = b ∧ a ∈ node.storedIds) node := .refl fun _ h => ⟨rfl, h⟩
  exact hself.shownAs h fun a b w hab hw => ⟨hab.1 ▸ hw, hab.1 ▸ hab.2⟩

end Node

end Tell

end SchemaGraph
