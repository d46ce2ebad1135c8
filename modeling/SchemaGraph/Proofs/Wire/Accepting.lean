import SchemaGraph.Proofs.Wire.Grammar
import SchemaGraph.Proofs.Wire.Grown

/-!
Loading takes the grammar at its word. A schema is loaded into every store; any other value is refused,
with the first fault that is met when it is read from the front and with the place of it.

* `Pass.Accepts`, `Pass.Refuses` — from every state a pass goes through, or fails with one error;
* `Judges` — a pass decides on a value as the grammar does;
* `Judges.loop` — so does a loop whose steps do;
* `loadSchema_iff` — **loading accepts exactly the schemas**, and says what is wrong with the others.
-/

namespace SchemaGraph

/-! ### Passes that do not look at their state to decide -/

namespace Pass

variable {σ α β : Type} {x : Pass σ α} {f : α → Pass σ β} {e : Error}

/-- From every state the pass goes through. -/
def Accepts (x : Pass σ α) : Prop := ∀ st, ∃ a st', x st = .ok a st'

/-- From every state the pass fails with the error. -/
def Refuses (x : Pass σ α) (e : Error) : Prop := ∀ st, ∃ st', x st = .error e st'

theorem Accepts.pure {a : α} : (pure a : Pass σ α).Accepts := fun st => ⟨a, st, rfl⟩

theorem Refuses.throw : (throw e : Pass σ α).Refuses e := fun st => ⟨st, rfl⟩

theorem Accepts.bind (h : x.Accepts) (hf : ∀ a, (f a).Accepts) : (x >>= f).Accepts := by
  intro st
  obtain ⟨a, mid, hx⟩ := h st
  obtain ⟨b, last, hb⟩ := hf a mid
  exact ⟨b, last, bind_eq_ok.2 ⟨a, mid, hx, hb⟩⟩

theorem Refuses.bind (h : x.Refuses e) : (x >>= f).Refuses e := by
  intro st
  obtain ⟨last, hx⟩ := h st
  exact ⟨last, bind_eq_error.2 (.inl hx)⟩

theorem Accepts.bind_refuses (h : x.Accepts) (hf : ∀ a, (f a).Refuses e) : (x >>= f).Refuses e := by
  intro st
  obtain ⟨a, mid, hx⟩ := h st
  obtain ⟨last, hfail⟩ := hf a mid
  exact ⟨last, bind_eq_error.2 (.inr ⟨a, mid, hx, hfail⟩)⟩

end Pass

namespace Wire

/-! ### Judging -/

/-- The pass accepts if the value is good and refuses it for its fault otherwise, at a place below the
one that it is told. Being good is the same as not having a fault. -/
structure Judges {α : Type} (good : Prop) (fault : List Step → Defect → Prop)
    (pass : ∀ σ : Type, List Step → Pass σ α) : Prop where
  accepts : good → ∀ σ path, (pass σ path).Accepts
  refuses : ∀ way defect, fault way defect → ∀ σ path,
    (pass σ path).Refuses (.malformed defect (.document (path ++ way)))
  decided : good ∨ ∃ way defect, fault way defect

/-- The faults that lie a step further down. -/
def Under (step : Step) (fault : List Step → Defect → Prop) (way : List Step) (defect : Defect) : Prop :=
  ∃ rest, way = step :: rest ∧ fault rest defect

/-- The first fault of a list, the first entry of which is at position `n`: the fault of an entry behind
good ones, a step further down. -/
def FirstFault {α : Type} (good : α → Prop) (fault : α → List Step → Defect → Prop)
    (place : Nat → α → Step) (n : Nat) (xs : List α) (way : List Step) (defect : Defect) : Prop :=
  ∃ before x after, xs = before ++ x :: after ∧ (∀ y ∈ before, good y) ∧
    Under (place (n + before.length) x) (fault x) way defect

section Rules

variable {α β γ δ : Type} {good good' : Prop} {fault fault' : List Step → Defect → Prop}
  {pass : ∀ σ : Type, List Step → Pass σ α}

theorem Judges.congr (h : Judges good fault pass) (hgood : good ↔ good')
    (hfault : ∀ way defect, fault way defect ↔ fault' way defect) : Judges good' fault' pass where
  accepts hyes := h.accepts (hgood.2 hyes)
  refuses way defect hno := h.refuses way defect ((hfault way defect).2 hno)
  decided := h.decided.imp hgood.1 fun ⟨way, defect, hno⟩ => ⟨way, defect, (hfault way defect).1 hno⟩

/-- A pass that never fails judges what is always good. -/
theorem Judges.of_accepts (hpass : ∀ σ path, (pass σ path).Accepts) (hgood : good)
    (hfault : ∀ way defect, ¬ fault way defect) : Judges good fault pass where
  accepts _ := hpass
  refuses way defect hno := absurd hno (hfault way defect)
  decided := .inl hgood

/-- A pass that always fails judges what has one fault, and that at the place itself. -/
theorem Judges.of_refuse {defect : Defect} (hgood : ¬ good)
    (hfault : ∀ way found, fault way found ↔ way = [] ∧ found = defect) :
    Judges good fault fun σ path => (refuse defect path : Pass σ α) where
  accepts hyes := absurd hyes hgood
  refuses way found hno σ path := by
    obtain ⟨rfl, rfl⟩ := (hfault way found).1 hno
    rw [List.append_nil]
    exact .throw
  decided := .inr ⟨[], defect, (hfault _ _).2 ⟨rfl, rfl⟩⟩

/-- What is done with the result does not change the judgement if it always goes through. -/
theorem Judges.bind {f : ∀ σ : Type, List Step → α → Pass σ β} (h : Judges good fault pass)
    (hf : ∀ σ path a, (f σ path a).Accepts) :
    Judges good fault fun σ path => pass σ path >>= f σ path where
  accepts hyes σ path := (h.accepts hyes σ path).bind (hf σ path)
  refuses way defect hno σ path := (h.refuses way defect hno σ path).bind
  decided := h.decided

/-- Two passes, one after the other, judge two things, and the first of them first. -/
theorem Judges.both {next : ∀ σ : Type, List Step → α → Pass σ β} (h : Judges good fault pass)
    (hnext : ∀ a, Judges good' fault' fun σ path => next σ path a) :
    Judges (good ∧ good') (fun way defect => fault way defect ∨ good ∧ fault' way defect)
      fun σ path => pass σ path >>= next σ path where
  accepts hyes σ path := (h.accepts hyes.1 σ path).bind fun a => (hnext a).accepts hyes.2 σ path
  refuses := by
    rintro way defect (hno | ⟨hyes, hno⟩) σ path
    · exact (h.refuses way defect hno σ path).bind
    · exact (h.accepts hyes σ path).bind_refuses fun a => (hnext a).refuses way defect hno σ path
  decided := by
    rcases h.decided with hyes | ⟨way, defect, hno⟩
    · obtain ⟨a, -, -⟩ := h.accepts hyes Unit [] (Store.empty, ())
      exact (hnext a).decided.imp (⟨hyes, ·⟩) fun ⟨way, defect, hno⟩ => ⟨way, defect, .inr ⟨hyes, hno⟩⟩
    · exact .inr ⟨way, defect, .inl hno⟩

/-- The same a step further down. -/
theorem Judges.within (h : Judges good fault pass) (step : Step) :
    Judges good (Under step fault) fun σ path => pass σ (path ++ [step]) where
  accepts hyes σ path := h.accepts hyes σ (path ++ [step])
  refuses := by
    rintro _ defect ⟨rest, rfl, hno⟩ σ path
    have hrefuses := h.refuses rest defect hno σ (path ++ [step])
    rwa [List.append_assoc] at hrefuses
  decided := h.decided.imp_right fun ⟨rest, defect, hno⟩ => ⟨_, defect, rest, rfl, hno⟩

/-- **A loop judges a list** if its steps judge the entries: it accepts if all of them are good, and
refuses for the first fault of the first one that is not. -/
theorem Judges.loop {good : α → Prop} {fault : α → List Step → Defect → Prop}
    {place : Nat → α → Step} (step : ∀ σ : Type, List Step → Nat → α → γ → Pass σ β)
    (loop : ∀ σ : Type, List Step → Nat → List α → γ → Pass σ δ) (next : α → γ → β → γ)
    (finish : β → δ → δ) (hnil : ∀ σ path n c, (loop σ path n [] c).Accepts)
    (hcons : ∀ σ path n x xs c, loop σ path n (x :: xs) c = (do
      let b ← step σ path n x c
      let d ← loop σ path (n + 1) xs (next x c b)
      pure (finish b d))) :
    ∀ {xs : List α}, (∀ x ∈ xs, ∀ n c,
        Judges (good x) (Under (place n x) (fault x)) fun σ path => step σ path n x c) →
      ∀ n c, Judges (∀ x ∈ xs, good x) (FirstFault good fault place n xs)
        fun σ path => loop σ path n xs c
  | [], _, n, c => by
    refine .of_accepts (fun σ path => hnil σ path n c) (fun x hx => absurd hx List.not_mem_nil) ?_
    rintro way defect ⟨before, x, after, hsplit, -⟩
    simp at hsplit
  | x :: xs, hstep, n, c => by
    -- the judgement of the rest does not depend on what the step gives
    have hrest := fun b => Judges.loop step loop next finish hnil hcons
      (fun y hy => hstep y (List.mem_cons_of_mem _ hy)) (n + 1) (next x c b)
    have hboth := (hstep x List.mem_cons_self n c).both fun b =>
      (hrest b).bind (f := fun _ _ d => pure (finish b d)) fun _ _ _ => .pure
    simp only [hcons]
    refine hboth.congr List.forall_mem_cons.symm fun way defect => ⟨?_, ?_⟩
    · rintro (hno | ⟨hyes, before, y, after, rfl, hbefore, hno⟩)
      · exact ⟨[], x, xs, rfl, fun y hy => absurd hy List.not_mem_nil, hno⟩
      · refine ⟨x :: before, y, after, rfl, List.forall_mem_cons.2 ⟨hyes, hbefore⟩, ?_⟩
        rwa [List.length_cons, Nat.add_comm before.length, ← Nat.add_assoc]
    · rintro ⟨before, y, after, hsplit, hbefore, hno⟩
      cases before with
      | nil =>
        obtain ⟨rfl, -⟩ := List.cons.inj hsplit
        exact .inl hno
      | cons first before =>
        obtain ⟨rfl, rfl⟩ := List.cons.inj hsplit
        obtain ⟨hyes, hbefore⟩ := List.forall_mem_cons.1 hbefore
        refine .inr ⟨hyes, before, y, after, rfl, hbefore, ?_⟩
        rwa [List.length_cons, Nat.add_comm before.length, ← Nat.add_assoc] at hno

end Rules

/-! ### Texts and objects -/

theorem judges_text (value : Json) :
    Judges (∃ text, value = .text text)
      (fun way defect => (∀ text, value ≠ .text text) ∧ way = [] ∧ defect = .notText)
      fun _ path => expectText path value := by
  cases value with
  | text text => exact .of_accepts (fun _ _ => .pure) ⟨text, rfl⟩ fun _ _ h => h.1 text rfl
  | _ => exact .of_refuse (by simp) (by simp)

theorem judges_metadata (value : Json) :
    Judges (∃ entries, value = .object entries)
      (fun way defect => (∀ entries, value ≠ .object entries) ∧ way = [] ∧
        defect = .metadataNotObject)
      fun _ path => expectMetadata path value := by
  cases value with
  | object entries => exact .of_accepts (fun _ _ => .pure) ⟨entries, rfl⟩ fun _ _ h => h.1 entries rfl
  | _ => exact .of_refuse (by simp) (by simp)

/-! ### Schemas in lists and objects -/

/-- Loading the value judges whether it is a schema. -/
def Reads (value : Json) : Prop :=
  ∀ implied, Judges (IsSchema implied value) (SchemaFault implied value)
    fun _ path => load implied path value

theorem judges_items (implied : Option Kind) {items : List Json} (h : ∀ item ∈ items, Reads item) :
    Judges (∀ item ∈ items, IsSchema implied item)
      (FirstFault (IsSchema implied) (SchemaFault implied) (fun n _ => .index n) 0 items)
      fun _ path => loadItems implied path 0 items :=
  Judges.loop (fun _ path n item _ => load implied (path ++ [.index n]) item)
    (fun _ path n items _ => loadItems implied path n items) (fun _ _ _ => ()) List.cons
    (fun _ _ _ _ => by rw [loadItems]; exact .pure) (fun _ _ _ _ _ _ => by rw [loadItems])
    (fun item hitem n _ => (h item hitem implied).within (.index n)) 0 ()

def loadChoice {σ : Type} (path : List Step) : Json → Pass σ Choice
  | .list [schema, label] => do
    let id ← load none (path ++ [.index 0]) schema
    let label ← expectText (path ++ [.index 1]) label
    pure { schema := id, label := some label }
  | .list _ => refuse .notChoice path
  | schema => do
    let id ← load none path schema
    pure { schema := id }

theorem loadChoices_cons {σ : Type} {path : List Step} {position : Nat} {item : Json}
    {items : List Json} :
    (loadChoices path position (item :: items) : Pass σ (List Choice)) = (do
      let choice ← loadChoice (path ++ [.index position]) item
      let choices ← loadChoices path (position + 1) items
      pure (choice :: choices)) := by
  unfold loadChoice
  rcases item with _ | _ | _ | _ | (_ | ⟨schema, _ | ⟨label, _ | ⟨third, rest⟩⟩⟩) | _ <;>
    simp [loadChoices]

theorem judges_choice {item : Json} (h : ∀ value, sizeOf value ≤ sizeOf item → Reads value) :
    Judges (IsChoice item) (ChoiceFault item) fun _ path => loadChoice path item := by
  match item, h with
  | .list [schema, label], h =>
    have hschema := (h schema (by simp; omega) none).within (.index 0)
    have hpair := hschema.both fun id => ((judges_text label).within (.index 1)).bind
      (f := fun _ _ label => pure ({ schema := id, label := some label } : Choice))
      fun _ _ _ => .pure
    refine hpair.congr ⟨?_, ?_⟩ fun way defect => ⟨?_, ?_⟩
    · rintro ⟨hyes, text, rfl⟩
      exact .labelled hyes
    · rintro (⟨⟨⟩⟩ | hyes)
      exact ⟨hyes, _, rfl⟩
    · rintro (⟨rest, rfl, hno⟩ | ⟨hyes, rest, rfl, htext, rfl, rfl⟩)
      · exact .schema hno
      · exact .label hyes htext
    · rintro (⟨hlist, -⟩ | hpair | hno | ⟨hyes, htext⟩)
      · exact absurd rfl (hlist _)
      · exact absurd rfl (hpair _ _)
      · exact .inl ⟨_, rfl, hno⟩
      · exact .inr ⟨hyes, [], rfl, htext, rfl, rfl⟩
  | .list [], _ | .list [_], _ | .list (_ :: _ :: _ :: _), _ =>
    refine .of_refuse ?_ fun way found => ⟨?_, ?_⟩
    · rintro ⟨⟨⟩⟩
    · rintro (⟨hlist, -⟩ | hpair)
      · exact absurd rfl (hlist _)
      · exact ⟨rfl, rfl⟩
    · rintro ⟨rfl, rfl⟩
      exact .notPair (by simp)
  | .null, h | .bool _, h | .number _, h | .text _, h | .object _, h =>
    -- what is no list is read as a schema, and is refused there if it is none
    have hschema := (h _ (Nat.le_refl _) none).bind
      (f := fun _ _ id => pure ({ schema := id } : Choice)) fun _ _ _ => .pure
    refine hschema.congr ⟨IsChoice.plain, ?_⟩ fun way defect => ⟨ChoiceFault.plain (by simp), ?_⟩
    · rintro ⟨hyes⟩
      exact hyes
    · rintro ⟨-, hno⟩
      exact hno

theorem judges_choices {items : List Json}
    (h : ∀ value, sizeOf value < sizeOf items → Reads value) :
    Judges (∀ item ∈ items, IsChoice item)
      (FirstFault IsChoice ChoiceFault (fun n _ => .index n) 0 items)
      fun _ path => loadChoices path 0 items :=
  Judges.loop (fun _ path n item _ => loadChoice (path ++ [.index n]) item)
    (fun _ path n items _ => loadChoices path n items) (fun _ _ _ => ()) List.cons
    (fun _ _ _ _ => by rw [loadChoices]; exact .pure) (fun _ _ _ _ _ _ => loadChoices_cons)
    (fun item hitem n _ => (judges_choice fun value hvalue => h value
      (Nat.lt_of_le_of_lt hvalue (List.sizeOf_lt_of_mem hitem))).within (.index n)) 0 ()

theorem judges_keyed {entries : List (String × Json)} (h : ∀ entry ∈ entries, Reads entry.2) :
    Judges (∀ entry ∈ entries, IsSchema none entry.2)
      (FirstFault (fun entry => IsSchema none entry.2) (fun entry => SchemaFault none entry.2)
        (fun _ entry => .key entry.1) 0 entries)
      fun _ path => loadKeyed path .empty entries :=
  Judges.loop (fun _ path _ entry _ => load none (path ++ [.key entry.1]) entry.2)
    (fun _ path _ entries done => loadKeyed path done entries)
    (fun entry done id => done.insert entry.1 id) (fun _ done => done)
    (fun _ _ _ _ => by rw [loadKeyed]; exact .pure)
    (fun _ _ _ _ _ _ => by rw [loadKeyed]; simp only [bind_pure])
    (fun entry hentry _ _ => (h entry hentry none).within (.key entry.1)) 0 .empty

/-! ### Child locations -/

theorem judges_child {slot : Slot} {value : Json}
    (h : ∀ v, sizeOf v ≤ sizeOf value → Reads v) :
    Judges (Fills slot.implied slot.shape value) (SlotFault slot.implied slot.shape value)
      fun _ path => loadChild slot path value := by
  unfold loadChild
  generalize slot.shape = shape
  match shape, value, h with
  | .one, value, h =>
    have hone := (h value (Nat.le_refl _) none).bind (f := fun _ _ id => pure (Child.one id))
      fun _ _ _ => .pure
    refine hone.congr ⟨Fills.one, ?_⟩ fun way defect => ⟨SlotFault.one, ?_⟩
    · rintro ⟨hyes⟩
      exact hyes
    · rintro (hno | ⟨hshape, -⟩)
      · exact hno
      · simp at hshape
  | .many, .list items, h =>
    have hitems : ∀ item ∈ items, Reads item := fun item hitem => h item (by
      have := List.sizeOf_lt_of_mem hitem
      simp
      omega)
    have hmany := (judges_items slot.implied hitems).bind (f := fun _ _ ids => pure (Child.many ids))
      fun _ _ _ => .pure
    refine hmany.congr ⟨Fills.many, ?_⟩ fun way defect => ⟨?_, ?_⟩
    · rintro (- | hyes)
      exact hyes
    · rintro ⟨before, item, after, rfl, hbefore, rest, rfl, hno⟩
      rw [Nat.zero_add]
      exact .item hbefore hno
    · rintro (- | ⟨-, hlist⟩ | ⟨hbefore, hno⟩)
      · exact absurd rfl (hlist _)
      · exact ⟨_, _, _, rfl, hbefore, _, by rw [Nat.zero_add], hno⟩
  | .choices, .list items, h =>
    have hitems : ∀ value, sizeOf value < sizeOf items → Reads value := fun value hvalue =>
      h value (by simp; omega)
    have hchoices := (judges_choices hitems).bind
      (f := fun _ _ choices => pure (Child.choices choices)) fun _ _ _ => .pure
    refine hchoices.congr ⟨Fills.choices, ?_⟩ fun way defect => ⟨?_, ?_⟩
    · rintro (- | - | hyes)
      exact hyes
    · rintro ⟨before, item, after, rfl, hbefore, rest, rfl, hno⟩
      rw [Nat.zero_add]
      exact .choice hbefore hno
    · rintro (- | ⟨-, hlist⟩ | - | ⟨hbefore, hno⟩)
      · exact absurd rfl (hlist _)
      · exact ⟨_, _, _, rfl, hbefore, _, by rw [Nat.zero_add], hno⟩
  | .keyed, .object entries, h =>
    have hentries : ∀ entry ∈ entries, Reads entry.2 := fun (key, value) hentry => h value (by
      have := List.sizeOf_lt_of_mem hentry
      simp at this ⊢
      omega)
    have hkeyed := (judges_keyed hentries).bind (f := fun _ _ schemas => pure (Child.keyed schemas))
      fun _ _ _ => .pure
    refine hkeyed.congr ⟨Fills.keyed, ?_⟩ fun way defect => ⟨?_, ?_⟩
    · rintro (- | - | - | hyes)
      exact hyes
    · rintro ⟨before, ⟨key, value⟩, after, rfl, hbefore, rest, rfl, hno⟩
      exact .entry hbefore hno
    · rintro (- | ⟨hshape, -⟩ | - | - | hobject | ⟨hbefore, hno⟩)
      · simp at hshape
      · exact absurd rfl (hobject _)
      · exact ⟨_, _, _, rfl, hbefore, _, rfl, hno⟩
  | .many, .null, _ | .many, .bool _, _ | .many, .number _, _ | .many, .text _, _
  | .many, .object _, _ | .choices, .null, _ | .choices, .bool _, _ | .choices, .number _, _
  | .choices, .text _, _ | .choices, .object _, _ =>
    refine .of_refuse (by rintro ⟨⟩) fun way found => ⟨?_, ?_⟩
    · rintro ⟨⟩
      exact ⟨rfl, rfl⟩
    · rintro ⟨rfl, rfl⟩
      exact .notList (by simp) (by simp)
  | .keyed, .null, _ | .keyed, .bool _, _ | .keyed, .number _, _ | .keyed, .text _, _
  | .keyed, .list _, _ =>
    refine .of_refuse (by rintro ⟨⟩) fun way found => ⟨?_, ?_⟩
    · rintro (- | ⟨hshape, -⟩ | - | - | -)
      · simp at hshape
      · exact ⟨rfl, rfl⟩
    · rintro ⟨rfl, rfl⟩
      exact .notObject (by simp)

/-! ### Fields -/

theorem isField_iff {kind : Kind} {key : String} {value : Json} :
    IsField kind key value ↔
      match role (some kind) key with
      | .tag | .attr => True
      | .name | .target => ∃ text, value = .text text
      | .metadata => ∃ entries, value = .object entries
      | .serialization => IsSchema none value
      | .child slot => Fills slot.implied slot.shape value := by
  constructor
  · intro h
    cases h with
    | tag => simp only [role_tag]
    | @name _ text => simp only [role_name, Json.text.injEq, exists_eq']
    | @target text => simp only [role_target.2, Json.text.injEq, exists_eq']
    | metadata => simp only [role_metadata, Json.object.injEq, exists_eq']
    | serialization h => simpa only [role_serialization] using h
    | child hslot h => simpa only [role_of_slot? hslot, ← Kind.entryKind_of_slot? hslot] using h
    | free hfree => simp only [role_attr.2 hfree]
  · intro h
    cases hrole : role (some kind) key <;> simp only [hrole] at h
    case tag => exact key_of_role hrole rfl ▸ .tag
    case name =>
      obtain ⟨text, rfl⟩ := h
      exact key_of_role hrole rfl ▸ .name
    case target =>
      obtain ⟨text, rfl⟩ := h
      cases key_of_role hrole rfl
      cases role_target.1 hrole
      exact .target
    case metadata =>
      obtain ⟨entries, rfl⟩ := h
      exact key_of_role hrole rfl ▸ .metadata
    case serialization => exact key_of_role hrole rfl ▸ .serialization h
    case child slot =>
      have hslot := slot?_of_role hrole
      exact .child hslot (Kind.entryKind_of_slot? hslot ▸ h)
    case attr => exact .free (role_attr.1 hrole)

theorem fieldFault_iff {kind : Kind} {key : String} {value : Json} {way : List Step}
    {defect : Defect} :
    FieldFault kind key value way defect ↔
      match role (some kind) key with
      | .tag | .attr => False
      | .name | .target => (∀ text, value ≠ .text text) ∧ way = [] ∧ defect = .notText
      | .metadata => (∀ entries, value ≠ .object entries) ∧ way = [] ∧ defect = .metadataNotObject
      | .serialization => SchemaFault none value way defect
      | .child slot => SlotFault slot.implied slot.shape value way defect := by
  constructor
  · intro h
    cases h with
    | name h => simpa [role_name] using h
    | target h => simpa [role_target.2] using h
    | metadata h => simpa [role_metadata] using h
    | serialization h => simpa only [role_serialization] using h
    | child hslot h => simpa only [role_of_slot? hslot, ← Kind.entryKind_of_slot? hslot] using h
  · intro h
    cases hrole : role (some kind) key <;> simp only [hrole] at h
    case name =>
      obtain ⟨htext, rfl, rfl⟩ := h
      exact key_of_role hrole rfl ▸ .name htext
    case target =>
      obtain ⟨htext, rfl, rfl⟩ := h
      cases key_of_role hrole rfl
      cases role_target.1 hrole
      exact .target htext
    case metadata =>
      obtain ⟨hobject, rfl, rfl⟩ := h
      exact key_of_role hrole rfl ▸ .metadata hobject
    case serialization => exact key_of_role hrole rfl ▸ .serialization h
    case child slot =>
      have hslot := slot?_of_role hrole
      exact .child hslot (Kind.entryKind_of_slot? hslot ▸ h)

theorem judges_field {kind : Kind} {key : String} {value : Json}
    (h : ∀ v, sizeOf v ≤ sizeOf value → Reads v) (node : Node) :
    Judges (IsField kind key value) (Under (.key key) (FieldFault kind key value))
      fun _ path => loadField (some kind) path node key value := by
  unfold Under loadField
  simp only [isField_iff, fieldFault_iff]
  cases role (some kind) key
  case tag => exact .of_accepts (fun _ _ => .pure) trivial (by simp)
  case attr => exact .of_accepts (fun _ _ => .pure) trivial (by simp)
  case name => exact ((judges_text value).within (.key key)).bind fun _ _ _ => .pure
  case target => exact ((judges_text value).within (.key key)).bind fun _ _ _ => .pure
  case metadata => exact ((judges_metadata value).within (.key key)).bind fun _ _ _ => .pure
  case serialization =>
    exact ((h value (Nat.le_refl _) none).within (.key key)).bind fun _ _ _ => .pure
  case child slot => exact ((judges_child h).within (.key key)).bind fun _ _ _ => .pure

theorem judges_fields (kind : Kind) {fields : List (String × Json)}
    (h : ∀ v, sizeOf v < sizeOf fields → Reads v) (node : Node) :
    Judges (∀ field ∈ fields, IsField kind field.1 field.2)
      (FirstFault (fun field => IsField kind field.1 field.2)
        (fun field => FieldFault kind field.1 field.2) (fun _ field => .key field.1) 0 fields)
      fun _ path => loadFields (some kind) path node fields :=
  Judges.loop (fun _ path _ field node => loadField (some kind) path node field.1 field.2)
    (fun _ path _ fields node => loadFields (some kind) path node fields)
    (fun _ _ next => next) (fun _ last => last)
    (fun _ _ _ _ => by rw [loadFields]; exact .pure)
    (fun _ _ _ _ _ _ => by rw [loadFields_cons]; simp only [bind_pure])
    (fun (key, value) hfield _ node => judges_field (fun v hv => h v (by
      have := List.sizeOf_lt_of_mem hfield
      simp at this hv
      omega)) node) 0 node

section Keeping

variable {σ : Type} {kind : Option Kind} {path : List Step} {node next : Node}
  {st st' : Store × σ}

theorem loadField_keeps {key : String} {value : Json}
    (h : loadField kind path node key value st = .ok next st') :
    next.tag = node.tag ∧ (next.target.isSome ↔ node.target.isSome ∨ role kind key = .target) := by
  unfold loadField at h
  cases hrole : role kind key with
  | tag | attr =>
    rw [hrole] at h
    obtain ⟨rfl, -⟩ := Pass.pure_eq_ok.1 h
    simp [Node.withAttr]
  | name | target | metadata | serialization | child slot =>
    rw [hrole] at h
    obtain ⟨_, _, -, h⟩ := Pass.bind_eq_ok.1 h
    obtain ⟨rfl, -⟩ := Pass.pure_eq_ok.1 h
    simp [Node.withName, Node.withSerialization, Node.withChild]

/-- Of a field that says to what a schema refers, the node has a target; nothing takes it away. -/
theorem loadFields_keeps {fields : List (String × Json)}
    (h : loadFields kind path node fields st = .ok next st') :
    next.tag = node.tag ∧ (next.target.isSome ↔
      node.target.isSome ∨ ∃ field ∈ fields, role kind field.1 = .target) := by
  induction fields generalizing node st with
  | nil =>
    rw [loadFields] at h
    obtain ⟨rfl, -⟩ := Pass.pure_eq_ok.1 h
    simp
  | cons field fields ih =>
    rw [loadFields_cons] at h
    obtain ⟨mid, _, hfield, h⟩ := Pass.bind_eq_ok.1 h
    obtain ⟨htag, htarget⟩ := loadField_keeps hfield
    obtain ⟨htag', htarget'⟩ := ih h
    refine ⟨htag'.trans htag, ?_⟩
    rw [htarget', htarget, or_assoc, List.exists_mem_cons_iff]

/-- Without a kind every field goes through. -/
theorem loadFields_none (path : List Step) : ∀ (fields : List (String × Json)) (node : Node),
    (loadFields none path node fields : Pass σ Node).Accepts
  | [], node => by
    rw [loadFields]
    exact .pure
  | (key, value) :: fields, node => by
    rw [loadFields_cons, loadField]
    rcases role_none (rfl : role none key = _) with hrole | hrole <;> rw [hrole]
    · exact Pass.Accepts.pure.bind fun next => loadFields_none path fields next
    · exact Pass.Accepts.pure.bind fun next => loadFields_none path fields next

end Keeping

/-! ### Schemas -/

theorem judges_tag (implied : Option Kind) (fields : List (String × Json)) :
    Judges (∃ tag, HasTag implied fields tag)
      (fun way defect => way = [] ∧
        ((∃ value, Entries.find? Key.tag fields = some value ∧ (∀ text, value ≠ .text text) ∧
            defect = .tagNotText) ∨
          implied = none ∧ Entries.find? Key.tag fields = none ∧ defect = .tagMissing))
      fun _ path => tagOf implied path fields := by
  unfold HasTag tagOf
  cases Entries.find? Key.tag fields with
  | none =>
    cases implied with
    | none => exact .of_refuse (by simp) (by simp)
    | some kind => exact .of_accepts (fun _ _ => .pure) ⟨kind.tag, by simp⟩ (by simp)
  | some value =>
    cases value with
    | text tag => exact .of_accepts (fun _ _ => .pure) ⟨tag, by simp⟩ (by simp)
    | _ => exact .of_refuse (by simp) (by simp)

section Tagged

variable {σ : Type} {implied : Option Kind} {fields : List (String × Json)} {tag : String}
  {path : List Step} {node : Node} {st st' : Store × σ}

theorem load_of_hasTag (h : HasTag implied fields tag) (path : List Step) :
    (load implied path (.object fields) : Pass σ NodeId) =
      loadFields (Kind.ofTag? tag) path { tag } fields >>= fun node =>
        if node.isReference ∧ node.target = none then refuse .targetMissing path
        else Pass.insert node := by
  have htag : (tagOf implied path fields : Pass σ String) = pure tag := by
    unfold tagOf
    rcases h with hfound | ⟨hfound, kind, rfl, rfl⟩ <;> rw [hfound]
  rw [load, htag, pure_bind]

/-- What is checked once the fields are loaded. -/
theorem untargeted_iff (h : loadFields (Kind.ofTag? tag) path { tag } fields st = .ok node st') :
    node.isReference ∧ node.target = none ↔
      Kind.ofTag? tag = some .definitionRef ∧ Key.target ∉ Entries.names fields := by
  obtain ⟨htag, htarget⟩ := loadFields_keeps h
  rw [Node.isReference_iff, Node.kind?, htag, ← Option.not_isSome_iff_eq_none, htarget]
  refine and_congr_right fun hkind => ?_
  rw [hkind]
  simp only [Option.isSome_none, Bool.false_eq_true, false_or, Entries.names, List.mem_map]
  refine not_congr (exists_congr fun field => and_congr_right fun _ => ⟨fun hrole => ?_, ?_⟩)
  · exact key_of_role hrole rfl
  · intro hkey
    rw [hkey]
    exact role_target.2 rfl

theorem accepts_of_hasTag (htag : HasTag implied fields tag)
    (hload : (loadFields (Kind.ofTag? tag) path { tag } fields : Pass σ Node).Accepts)
    (htarget : Kind.ofTag? tag = some .definitionRef → Key.target ∈ Entries.names fields) :
    (load implied path (.object fields) : Pass σ NodeId).Accepts := by
  intro st
  obtain ⟨node, mid, hnode⟩ := hload st
  have hcheck : ¬ (node.isReference ∧ node.target = none) := by
    rwa [untargeted_iff hnode, not_and_not_right]
  rw [load_of_hasTag htag]
  exact ⟨_, _, Pass.bind_eq_ok.2 ⟨node, mid, hnode, by rw [if_neg hcheck]; rfl⟩⟩

theorem refuses_of_hasTag (htag : HasTag implied fields tag)
    (hload : (loadFields (Kind.ofTag? tag) path { tag } fields : Pass σ Node).Accepts)
    (hkind : Kind.ofTag? tag = some .definitionRef) (hmissing : Key.target ∉ Entries.names fields) :
    (load implied path (.object fields) : Pass σ NodeId).Refuses
      (.malformed .targetMissing (.document path)) := by
  intro st
  obtain ⟨node, mid, hnode⟩ := hload st
  have hcheck := (untargeted_iff hnode).2 ⟨hkind, hmissing⟩
  rw [load_of_hasTag htag]
  exact ⟨_, Pass.bind_eq_error.2 (.inr ⟨node, mid, hnode, by rw [if_pos hcheck]; rfl⟩)⟩

end Tagged

theorem reads_object {fields : List (String × Json)} (h : ∀ v, sizeOf v < sizeOf fields → Reads v) :
    Reads (.object fields) := by
  intro implied
  refine ⟨?accepts, ?refuses, ?decided⟩
  case accepts =>
    rintro (@⟨_, _, tag, kind, htag, hkind, hfields, htarget⟩ | @⟨_, _, tag, htag, hkind⟩) σ path
    · refine accepts_of_hasTag htag ?_ fun href => htarget (Option.some.inj (hkind.symm.trans href))
      rw [hkind]
      exact (judges_fields kind h { tag }).accepts hfields σ path
    · refine accepts_of_hasTag htag ?_ fun href => absurd (hkind.symm.trans href) (by simp)
      rw [hkind]
      exact loadFields_none path fields { tag }
  case refuses =>
    intro way defect hno σ path
    cases hno with
    | notSchema hobject => exact absurd rfl (hobject fields)
    | tagNotText hfound htext =>
      rw [load]
      exact ((judges_tag implied fields).refuses [] _ ⟨rfl, .inl ⟨_, hfound, htext, rfl⟩⟩ σ path).bind
    | tagMissing hfound =>
      rw [load]
      exact ((judges_tag none fields).refuses [] _ ⟨rfl, .inr ⟨rfl, hfound, rfl⟩⟩ σ path).bind
    | @field _ before after tag kind key value rest _ htag hkind hbefore hfault =>
      rw [load_of_hasTag htag, hkind]
      exact ((judges_fields kind h { tag }).refuses _ _
        ⟨before, (key, value), after, rfl, hbefore, rest, rfl, hfault⟩ σ path).bind
    | @targetMissing _ _ tag htag hkind hfields hmissing =>
      rw [List.append_nil]
      refine refuses_of_hasTag htag ?_ hkind hmissing
      rw [hkind]
      exact (judges_fields _ h { tag }).accepts hfields σ path
  case decided =>
    rcases (judges_tag implied fields).decided with
      ⟨tag, htag⟩ | ⟨_, _, rfl, ⟨value, hfound, htext, rfl⟩ | ⟨rfl, hfound, rfl⟩⟩
    · cases hkind : Kind.ofTag? tag with
      | none => exact .inl (.unknown htag hkind)
      | some kind =>
        rcases (judges_fields kind h { tag }).decided with
          hfields | ⟨_, _, before, ⟨key, value⟩, after, rfl, hbefore, rest, rfl, hfault⟩
        · by_cases hmissing : kind = .definitionRef ∧ Key.target ∉ Entries.names fields
          · obtain ⟨rfl, hmissing⟩ := hmissing
            exact .inr ⟨_, _, .targetMissing htag hkind hfields hmissing⟩
          · exact .inl (.known htag hkind hfields (not_and_not_right.1 hmissing))
        · exact .inr ⟨_, _, .field htag hkind hbefore hfault⟩
    · exact .inr ⟨_, _, .tagNotText hfound htext⟩
    · exact .inr ⟨_, _, .tagMissing hfound⟩

/-- **Loading judges whether a value is a schema.** -/
theorem reads (value : Json) : Reads value := by
  cases value with
  | object fields => exact reads_object fun v hv => reads v
  | _ =>
    intro implied
    simp only [load]
    refine .of_refuse (by rintro ⟨⟩) fun way found => ⟨?_, ?_⟩
    · rintro ⟨⟩
      exact ⟨rfl, rfl⟩
    · rintro ⟨rfl, rfl⟩
      exact .notSchema (by simp)
termination_by sizeOf value

/-- A value has no more than one first fault. -/
theorem SchemaFault.unique {implied : Option Kind} {value : Json} {path path' : List Step}
    {defect defect' : Defect} (h : SchemaFault implied value path defect)
    (h' : SchemaFault implied value path' defect') : path = path' ∧ defect = defect' := by
  let start : Store × Unit := (Store.empty, ())
  obtain ⟨last, hrun⟩ := (reads value implied).refuses path defect h Unit [] start
  obtain ⟨last', hrun'⟩ := (reads value implied).refuses path' defect' h' Unit [] start
  rw [hrun] at hrun'
  cases hrun'
  exact ⟨rfl, rfl⟩

/-- **Loading accepts exactly the schemas.** Into every store a value is loaded just if it is a schema.
Loading fails with just one error for any other value, which is that of its first fault, and the text of
its place is the way from the root of the document to a part of it. -/
theorem loadSchema_iff {σ : Type} (value : Json) (st : Store × σ) :
    ((∃ id st', loadSchema value st = .ok id st') ↔ IsSchema none value) ∧
    (∀ e, (∃ st', loadSchema value st = .error e st') ↔
      ∃ path defect, SchemaFault none value path defect ∧ e = .malformed defect (.document path)) ∧
    ∀ path defect, SchemaFault none value path defect →
      (Place.document path).text = "$" ++ String.join (path.map Step.text) ∧
      ∃ part, value.At path part := by
  obtain ⟨haccepts, hrefuses, hdecided⟩ := reads value none
  have hfails : ∀ path defect, SchemaFault none value path defect →
      ∃ st', loadSchema value st = .error (.malformed defect (.document path)) st' :=
    fun path defect hfault => hrefuses path defect hfault σ [] st
  refine ⟨⟨?_, fun hschema => haccepts hschema σ [] st⟩, fun e => ⟨?_, ?_⟩,
    fun path defect hfault => ⟨rfl, hfault.exists_at⟩⟩
  · rintro ⟨id, st', hok⟩
    rcases hdecided with hschema | ⟨path, defect, hfault⟩
    · exact hschema
    · obtain ⟨last, herror⟩ := hfails path defect hfault
      rw [hok] at herror
      cases herror
  · rintro ⟨st', herror⟩
    rcases hdecided with hschema | ⟨path, defect, hfault⟩
    · obtain ⟨id, last, hok⟩ := haccepts hschema σ [] st
      rw [loadSchema, hok] at herror
      cases herror
    · obtain ⟨last, hrun⟩ := hfails path defect hfault
      rw [hrun] at herror
      cases herror
      exact ⟨path, defect, hfault, rfl⟩
  · rintro ⟨path, defect, hfault, rfl⟩
    exact hfails path defect hfault

/-- A list among the choices of a union has to be a pair. -/
example : loadSchema (.object [("type", .text "union"),
    ("choices", .list [.list [.object [("type", .text "int")]]])]) (Store.empty, ()) =
      .error (.malformed .notChoice (.document [.key "choices", .index 0])) (Store.empty, ()) := by
  decide +kernel

end Wire

end SchemaGraph
