import SchemaGraph.Schema.Load

/-!
When two JSON values are the same schema: they differ in the order of keys in schema objects, and in
tags that one leaves out because they are implied. Everything that is no schema is equal, the order
of keys included.
-/

namespace SchemaGraph

namespace Wire

mutual

/-- `w` is the schema `v`, which may leave out its tag if a kind is implied; `w` has it then. -/
inductive SameSchema : (implied : Option Kind) → (v w : Json) → Prop where
  | tagged {implied : Option Kind} {tag : String} {fields mid shown : List (String × Json)}
      (htag : Entries.find? Key.tag fields = some (.text tag))
      (hfields : SameFields (Kind.ofTag? tag) fields mid) (hperm : shown.Perm mid) :
      SameSchema implied (.object fields) (.object shown)
  | untagged {kind : Kind} {fields mid shown : List (String × Json)}
      (htag : Entries.find? Key.tag fields = none)
      (hfields : SameFields (some kind) fields mid)
      (hperm : shown.Perm ((Key.tag, .text kind.tag) :: mid)) :
      SameSchema (some kind) (.object fields) (.object shown)

/-- The fields of a schema of a kind, place by place. -/
inductive SameFields : (kind : Option Kind) → (vs ws : List (String × Json)) → Prop where
  | nil {kind : Option Kind} : SameFields kind [] []
  | cons {kind : Option Kind} {key : String} {v w : Json} {vs ws : List (String × Json)}
      (h : SameField kind key v w) (hs : SameFields kind vs ws) :
      SameFields kind ((key, v) :: vs) ((key, w) :: ws)

/-- What is under a key of a schema of a kind. -/
inductive SameField : (kind : Option Kind) → (key : String) → (v w : Json) → Prop where
  | serialization {kind : Option Kind} {key : String} {v w : Json}
      (hrole : role kind key = .serialization) (h : SameSchema none v w) : SameField kind key v w
  | child {kind : Option Kind} {key : String} {slot : Slot} {v w : Json}
      (hrole : role kind key = .child slot) (h : SameChild slot v w) : SameField kind key v w
  | verbatim {kind : Option Kind} {key : String} {v : Json}
      (hserialization : role kind key ≠ .serialization) (hchild : ∀ slot, role kind key ≠ .child slot) :
      SameField kind key v v

inductive SameChild : (slot : Slot) → (v w : Json) → Prop where
  | one {slot : Slot} {v w : Json} (hshape : slot.shape = .one) (h : SameSchema none v w) :
      SameChild slot v w
  | many {slot : Slot} {vs ws : List Json} (hshape : slot.shape = .many)
      (h : SameItems slot.implied vs ws) : SameChild slot (.list vs) (.list ws)
  | choices {slot : Slot} {vs ws : List Json} (hshape : slot.shape = .choices)
      (h : SameChoices vs ws) : SameChild slot (.list vs) (.list ws)
  | keyed {slot : Slot} {vs ws : List (String × Json)} (hshape : slot.shape = .keyed)
      (h : SameKeyed vs ws) : SameChild slot (.object vs) (.object ws)

inductive SameItems : (implied : Option Kind) → (vs ws : List Json) → Prop where
  | nil {implied : Option Kind} : SameItems implied [] []
  | cons {implied : Option Kind} {v w : Json} {vs ws : List Json} (h : SameSchema implied v w)
      (hs : SameItems implied vs ws) : SameItems implied (v :: vs) (w :: ws)

/-- Choices of a union, each with the same label or none. -/
inductive SameChoices : (vs ws : List Json) → Prop where
  | nil : SameChoices [] []
  | labelled {v w : Json} {label : String} {vs ws : List Json} (h : SameSchema none v w)
      (hs : SameChoices vs ws) :
      SameChoices (.list [v, .text label] :: vs) (.list [w, .text label] :: ws)
  | plain {v w : Json} {vs ws : List Json} (h : SameSchema none v w) (hs : SameChoices vs ws) :
      SameChoices (v :: vs) (w :: ws)

/-- Schemas under the keys of an object, in the same order. -/
inductive SameKeyed : (vs ws : List (String × Json)) → Prop where
  | nil : SameKeyed [] []
  | cons {key : String} {v w : Json} {vs ws : List (String × Json)} (h : SameSchema none v w)
      (hs : SameKeyed vs ws) : SameKeyed ((key, v) :: vs) ((key, w) :: ws)

end

variable {kind : Option Kind} {vs ws : List (String × Json)}

theorem SameFields.names_eq (h : SameFields kind vs ws) : Entries.names ws = Entries.names vs := by
  induction vs generalizing ws with
  | nil =>
    cases h
    rfl
  | cons field vs ih =>
    cases h with
    | @cons _ key _ _ _ _ _ hs => exact congrArg (key :: ·) (ih hs)

theorem SameKeyed.names_eq (h : SameKeyed vs ws) : Entries.names ws = Entries.names vs := by
  induction vs generalizing ws with
  | nil =>
    cases h
    rfl
  | cons field vs ih =>
    cases h with
    | @cons key _ _ _ _ _ hs => exact congrArg (key :: ·) (ih hs)

theorem SameField.eq_of_tag {v w : Json} (h : SameField kind Key.tag v w) : w = v := by
  have hrole : role kind Key.tag = .tag := if_pos rfl
  cases h with
  | serialization h =>
    rw [hrole] at h
    cases h
  | child h =>
    rw [hrole] at h
    cases h
  | verbatim => rfl

theorem SameFields.find?_tag (h : SameFields kind vs ws) :
    Entries.find? Key.tag ws = Entries.find? Key.tag vs := by
  induction vs generalizing ws with
  | nil =>
    cases h
    rfl
  | cons field vs ih =>
    cases h with
    | @cons _ key _ _ _ _ h hs =>
      rw [Entries.find?, Entries.find?, ih hs]
      by_cases hkey : key = Key.tag
      · subst hkey
        rw [h.eq_of_tag]
      · rw [if_neg hkey, if_neg hkey]

/-! ### No key comes twice -/

theorem SameFields.nodup (h : SameFields kind vs ws) (hvs : (Entries.names vs).Nodup) :
    (Entries.names ws).Nodup := by
  rwa [h.names_eq]

mutual

theorem SameSchema.wellFormed {implied : Option Kind} {v w : Json} (h : SameSchema implied v w)
    (hv : v.WellFormed) : w.WellFormed := by
  cases h with
  | tagged htag hfields hperm =>
    rw [Json.WellFormed] at hv ⊢
    have hmid := hfields.wellFormed hv.2
    refine ⟨(hperm.map Prod.fst).nodup_iff.2 (hfields.nodup hv.1), ?_⟩
    rw [Json.wellFormedFields_iff] at hmid ⊢
    exact fun field hfield => hmid field (hperm.mem_iff.1 hfield)
  | @untagged kind fields mid _ htag hfields hperm =>
    rw [Json.WellFormed] at hv ⊢
    have hmid := hfields.wellFormed hv.2
    have hnew : Key.tag ∉ Entries.names mid := by
      rw [hfields.names_eq]
      exact (Entries.find?_eq_none _ _).1 htag
    have hnodup : (Key.tag :: Entries.names mid).Nodup :=
      List.nodup_cons.2 ⟨hnew, hfields.nodup hv.1⟩
    refine ⟨(hperm.map Prod.fst).nodup_iff.2 hnodup, ?_⟩
    rw [Json.wellFormedFields_iff] at hmid ⊢
    intro field hfield
    rcases List.mem_cons.1 (hperm.mem_iff.1 hfield) with rfl | hfield
    · simp [Json.WellFormed]
    · exact hmid field hfield
termination_by sizeOf v

theorem SameFields.wellFormed {kind : Option Kind} {vs ws : List (String × Json)}
    (h : SameFields kind vs ws) (hvs : Json.WellFormedFields vs) : Json.WellFormedFields ws := by
  cases h with
  | nil => exact hvs
  | cons h hs =>
    rw [Json.WellFormedFields] at hvs ⊢
    exact ⟨h.wellFormed hvs.1, hs.wellFormed hvs.2⟩
termination_by sizeOf vs

theorem SameField.wellFormed {kind : Option Kind} {key : String} {v w : Json}
    (h : SameField kind key v w) (hv : v.WellFormed) : w.WellFormed := by
  cases h with
  | serialization _ h => exact h.wellFormed hv
  | child _ h =>
    cases h with
    | one _ h => exact h.wellFormed hv
    | many _ h =>
      rw [Json.WellFormed] at hv ⊢
      exact h.wellFormed hv
    | choices _ h =>
      rw [Json.WellFormed] at hv ⊢
      exact h.wellFormed hv
    | keyed _ h =>
      rw [Json.WellFormed] at hv ⊢
      exact ⟨h.names_eq ▸ hv.1, h.wellFormed hv.2⟩
  | verbatim => exact hv
termination_by sizeOf v + 1

theorem SameItems.wellFormed {implied : Option Kind} {vs ws : List Json}
    (h : SameItems implied vs ws) (hvs : Json.WellFormedItems vs) : Json.WellFormedItems ws := by
  cases h with
  | nil => exact hvs
  | cons h hs =>
    rw [Json.WellFormedItems] at hvs ⊢
    exact ⟨h.wellFormed hvs.1, hs.wellFormed hvs.2⟩
termination_by sizeOf vs

theorem SameChoices.wellFormed {vs ws : List Json} (h : SameChoices vs ws)
    (hvs : Json.WellFormedItems vs) : Json.WellFormedItems ws := by
  cases h with
  | nil => exact hvs
  | labelled h hs =>
    simp only [Json.WellFormedItems, Json.WellFormed, and_true] at hvs ⊢
    exact ⟨h.wellFormed hvs.1, hs.wellFormed hvs.2⟩
  | plain h hs =>
    rw [Json.WellFormedItems] at hvs ⊢
    exact ⟨h.wellFormed hvs.1, hs.wellFormed hvs.2⟩
termination_by sizeOf vs

theorem SameKeyed.wellFormed {vs ws : List (String × Json)} (h : SameKeyed vs ws)
    (hvs : Json.WellFormedFields vs) : Json.WellFormedFields ws := by
  cases h with
  | nil => exact hvs
  | cons h hs =>
    rw [Json.WellFormedFields] at hvs ⊢
    exact ⟨h.wellFormed hvs.1, hs.wellFormed hvs.2⟩
termination_by sizeOf vs

end

end Wire

end SchemaGraph
