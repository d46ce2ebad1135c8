/-!
Maps from names to values that remember the order in which their names first came. A name that is
inserted again keeps its place and takes the new value (`keys_insert_of_mem`, `get?_insert_self`).
-/

namespace SchemaGraph

universe u v

/-! ### Lists of named values -/

namespace Entries

variable {α : Type u} {β : Type v}

def find? (key : String) : List (String × α) → Option α
  | [] => none
  | (name, value) :: rest => if name = key then some value else find? key rest

/-- Puts `value` under `key`: in place if the name occurs, else at the end. -/
def put (key : String) (value : α) : List (String × α) → List (String × α)
  | [] => [(key, value)]
  | (name, old) :: rest =>
    if name = key then (name, value) :: rest else (name, old) :: put key value rest

def names (entries : List (String × α)) : List String := entries.map Prod.fst

/-- The entries with the values replaced, in order, by those of `values`. -/
def withValues : List (String × α) → List α → List (String × α)
  | (name, _) :: rest, value :: values => (name, value) :: withValues rest values
  | entries, _ => entries

theorem names_put_of_mem {key : String} (value : α) :
    ∀ {entries : List (String × α)}, key ∈ names entries →
      names (put key value entries) = names entries
  | [], h => by simp [names] at h
  | (name, old) :: rest, h => by
    by_cases hn : name = key
    · simp [put, hn, names]
    · have h' : key ∈ names rest := by
        rcases List.mem_cons.1 h with h | h
        · exact absurd h.symm hn
        · exact h
      have ih := names_put_of_mem value h'
      simp only [names] at ih
      simp [put, hn, names, ih]

theorem names_put_of_not_mem {key : String} (value : α) :
    ∀ {entries : List (String × α)}, key ∉ names entries →
      names (put key value entries) = names entries ++ [key]
  | [], _ => by simp [put, names]
  | (name, old) :: rest, h => by
    have hn : name ≠ key := fun e => h (by simp [names, e])
    have h' : key ∉ names rest := fun e => h (List.mem_cons_of_mem _ e)
    have ih := names_put_of_not_mem value h'
    simp only [names] at ih
    simp [put, hn, names, ih]

theorem put_of_not_mem {key : String} (value : α) :
    ∀ {entries : List (String × α)}, key ∉ names entries →
      put key value entries = entries ++ [(key, value)]
  | [], _ => rfl
  | (name, old) :: rest, h => by
    have hn : name ≠ key := fun e => h (by simp [names, e])
    have h' : key ∉ names rest := fun e => h (List.mem_cons_of_mem _ e)
    simp [put, hn, put_of_not_mem value h']

theorem nodup_put {key : String} {value : α} {entries : List (String × α)}
    (h : (names entries).Nodup) : (names (put key value entries)).Nodup := by
  by_cases hk : key ∈ names entries
  · rw [names_put_of_mem value hk]; exact h
  · rw [names_put_of_not_mem value hk]
    refine List.nodup_append.2 ⟨h, by simp, ?_⟩
    intro a ha b hb e
    rw [List.mem_singleton.1 hb] at e
    exact hk (e ▸ ha)

theorem find?_put_self (key : String) (value : α) :
    ∀ entries : List (String × α), find? key (put key value entries) = some value
  | [] => by simp [put, find?]
  | (name, old) :: rest => by
    by_cases hn : name = key <;> simp [put, find?, hn, find?_put_self key value rest]

theorem find?_put_of_ne {key other : String} {value : α} (h : other ≠ key) :
    ∀ entries : List (String × α), find? other (put key value entries) = find? other entries
  | [] => by simp [put, find?, Ne.symm h]
  | (name, old) :: rest => by
    by_cases hn : name = key
    · simp [put, find?, hn, Ne.symm h]
    · simp [put, find?, hn, find?_put_of_ne h rest]

theorem find?_eq_none (key : String) :
    ∀ entries : List (String × α), find? key entries = none ↔ key ∉ names entries
  | [] => by simp [find?, names]
  | (name, value) :: rest => by
    have ih := find?_eq_none key rest
    simp only [names] at ih
    by_cases hn : name = key
    · simp [find?, names, hn]
    · simp [find?, names, hn, ih, Ne.symm hn]

theorem mem_iff_find? {key : String} {value : α} :
    ∀ {entries : List (String × α)}, (names entries).Nodup →
      ((key, value) ∈ entries ↔ find? key entries = some value)
  | [], _ => by simp [find?]
  | (name, old) :: rest, h => by
    obtain ⟨hname, hrest⟩ := List.nodup_cons.1 h
    have ih : (key, value) ∈ rest ↔ find? key rest = some value := mem_iff_find? hrest
    by_cases hn : name = key
    · subst hn
      have : (name, value) ∉ rest := fun hm => hname (List.mem_map.2 ⟨_, hm, rfl⟩)
      simp [find?, this, eq_comm]
    · simp [find?, hn, ih, Ne.symm hn]

theorem names_withValues : ∀ (entries : List (String × α)) (values : List α),
    names (withValues entries values) = names entries
  | [], _ => by simp [withValues]
  | (name, old) :: rest, [] => by simp [withValues]
  | (name, old) :: rest, value :: values => by
    have ih := names_withValues rest values
    simp only [names] at ih
    simp [withValues, names, ih]

theorem values_withValues : ∀ (entries : List (String × α)) (values : List α),
    values.length = entries.length → (withValues entries values).map Prod.snd = values
  | [], [], _ => rfl
  | (name, old) :: rest, value :: values, h => by
    simp [withValues, values_withValues rest values (by simpa using h)]

theorem find?_map (f : α → β) (key : String) : ∀ entries : List (String × α),
    find? key (entries.map fun entry => (entry.1, f entry.2)) =
      (find? key entries).map f
  | [] => rfl
  | (name, value) :: rest => by
    by_cases hn : name = key <;> simp [find?, hn, find?_map f key rest]

theorem eq_of_find? : ∀ {entries others : List (String × α)}, (names entries).Nodup →
    names entries = names others → (∀ key, find? key entries = find? key others) →
      entries = others
  | [], [], _, _, _ => rfl
  | (name, value) :: rest, (name', value') :: rest', hnodup, hnames, h => by
    obtain ⟨hname, hrest⟩ := List.nodup_cons.1 hnodup
    simp only [names, List.map_cons, List.cons.injEq] at hnames
    obtain ⟨rfl, hnames⟩ := hnames
    have hvalue : value = value' := by simpa [find?] using h name
    subst hvalue
    congr 1
    refine eq_of_find? hrest hnames fun key => ?_
    by_cases hk : name = key
    · subst hk
      have hname' : name ∉ names rest' := by rwa [names, ← hnames]
      rw [(find?_eq_none name rest).2 hname, (find?_eq_none name rest').2 hname']
    · simpa [find?, hk] using h key

end Entries

/-! ### Ordered maps -/

/-- Named values in the order in which the names first came, each name once. -/
structure OrderedMap (α : Type u) where
  entries : List (String × α) := []
  nodup : (Entries.names entries).Nodup := by simp [Entries.names]
deriving DecidableEq

namespace OrderedMap

variable {α : Type u} {β : Type v}

def empty : OrderedMap α := {}

instance : EmptyCollection (OrderedMap α) := ⟨empty⟩

instance : Inhabited (OrderedMap α) := ⟨empty⟩

@[ext]
theorem ext {m n : OrderedMap α} (h : m.entries = n.entries) : m = n := by
  cases m; cases n; cases h; rfl

def keys (m : OrderedMap α) : List String := Entries.names m.entries

def values (m : OrderedMap α) : List α := m.entries.map Prod.snd

def size (m : OrderedMap α) : Nat := m.entries.length

/-- The value under `key`. -/
def get? (m : OrderedMap α) (key : String) : Option α := Entries.find? key m.entries

/-- A new name goes to the end; a known one keeps its place and takes the new value. -/
def insert (m : OrderedMap α) (key : String) (value : α) : OrderedMap α :=
  ⟨Entries.put key value m.entries, Entries.nodup_put m.nodup⟩

def insertMany (m : OrderedMap α) (entries : List (String × α)) : OrderedMap α :=
  entries.foldl (fun m entry => m.insert entry.1 entry.2) m

/-- The map of a list of entries, of which a later one wins. -/
def ofList (entries : List (String × α)) : OrderedMap α := empty.insertMany entries

def map (f : α → β) (m : OrderedMap α) : OrderedMap β :=
  ⟨m.entries.map fun entry => (entry.1, f entry.2), by
    have h := m.nodup
    simpa [Entries.names, Function.comp_def] using h⟩

/-- The same names, their values replaced in order by `values`. -/
def withValues (m : OrderedMap α) (values : List α) : OrderedMap α :=
  ⟨Entries.withValues m.entries values, by rw [Entries.names_withValues]; exact m.nodup⟩

@[simp]
theorem get?_insert_self (m : OrderedMap α) (key : String) (value : α) :
    (m.insert key value).get? key = some value :=
  Entries.find?_put_self key value m.entries

theorem get?_insert_of_ne (m : OrderedMap α) {key other : String} (value : α) (h : other ≠ key) :
    (m.insert key value).get? other = m.get? other :=
  Entries.find?_put_of_ne h m.entries

theorem get?_eq_none {m : OrderedMap α} {key : String} : m.get? key = none ↔ key ∉ m.keys :=
  Entries.find?_eq_none key m.entries

theorem keys_insert_of_mem {m : OrderedMap α} {key : String} (value : α) (h : key ∈ m.keys) :
    (m.insert key value).keys = m.keys :=
  Entries.names_put_of_mem value h

theorem keys_insert_of_not_mem {m : OrderedMap α} {key : String} (value : α) (h : key ∉ m.keys) :
    (m.insert key value).keys = m.keys ++ [key] :=
  Entries.names_put_of_not_mem value h

theorem get?_insert (m : OrderedMap α) (key other : String) (value : α) :
    (m.insert key value).get? other = if other = key then some value else m.get? other := by
  by_cases h : other = key
  · rw [if_pos h, h, get?_insert_self]
  · rw [if_neg h, get?_insert_of_ne m value h]

theorem mem_keys_iff {m : OrderedMap α} {key : String} : key ∈ m.keys ↔ (m.get? key).isSome := by
  rw [← Decidable.not_iff_not, ← get?_eq_none, Option.not_isSome_iff_eq_none]

theorem mem_keys_of_get? {m : OrderedMap α} {key : String} {value : α}
    (h : m.get? key = some value) : key ∈ m.keys := by
  rw [mem_keys_iff, h]
  rfl

theorem mem_entries_iff {m : OrderedMap α} {key : String} {value : α} :
    (key, value) ∈ m.entries ↔ m.get? key = some value :=
  Entries.mem_iff_find? m.nodup

theorem nodup_keys (m : OrderedMap α) : m.keys.Nodup := m.nodup

@[simp]
theorem mem_keys_insert {m : OrderedMap α} {key other : String} {value : α} :
    other ∈ (m.insert key value).keys ↔ other = key ∨ other ∈ m.keys := by
  rw [mem_keys_iff, mem_keys_iff, get?_insert]
  by_cases h : other = key <;> simp [h]

theorem keys_prefix_insert (m : OrderedMap α) (key : String) (value : α) :
    m.keys <+: (m.insert key value).keys := by
  by_cases h : key ∈ m.keys
  · exact ⟨[], by rw [List.append_nil, keys_insert_of_mem value h]⟩
  · exact ⟨[key], (keys_insert_of_not_mem value h).symm⟩

@[simp]
theorem keys_withValues (m : OrderedMap α) (values : List α) :
    (m.withValues values).keys = m.keys :=
  Entries.names_withValues m.entries values

/-- A map is given by its names in order and what is under them. -/
theorem ext_get? {m n : OrderedMap α} (hkeys : m.keys = n.keys)
    (h : ∀ key, m.get? key = n.get? key) : m = n :=
  ext (Entries.eq_of_find? m.nodup hkeys h)

@[simp]
theorem keys_map (f : α → β) (m : OrderedMap α) : (m.map f).keys = m.keys := by
  simp [keys, map, Entries.names, Function.comp_def]

@[simp]
theorem get?_map (f : α → β) (m : OrderedMap α) (key : String) :
    (m.map f).get? key = (m.get? key).map f :=
  Entries.find?_map f key m.entries

theorem values_withValues (m : OrderedMap α) {values : List α} (h : values.length = m.size) :
    (m.withValues values).values = values :=
  Entries.values_withValues m.entries values h

/-! ### Laying one map over another -/

theorem insert_of_get? {m : OrderedMap α} {key : String} {value : α}
    (h : m.get? key = some value) : m.insert key value = m := by
  refine ext_get? (keys_insert_of_mem _ (mem_keys_of_get? h)) fun other => ?_
  rw [get?_insert]
  split
  · rename_i e
    rw [e, h]
  · rfl

theorem insert_insert_self (m : OrderedMap α) (key : String) (old value : α) :
    (m.insert key old).insert key value = m.insert key value := by
  refine ext_get? ?_ fun other => ?_
  · rw [keys_insert_of_mem _ (mem_keys_insert.2 (.inl rfl))]
    by_cases h : key ∈ m.keys
    · rw [keys_insert_of_mem _ h, keys_insert_of_mem _ h]
    · rw [keys_insert_of_not_mem _ h, keys_insert_of_not_mem _ h]
  · simp only [get?_insert]
    split <;> rfl

/-- Replacing a value and inserting another name do not disturb each other. -/
theorem insert_comm_of_mem {m : OrderedMap α} {key other : String} (hkey : key ∈ m.keys)
    (hne : other ≠ key) (value new : α) :
    (m.insert other new).insert key value = (m.insert key value).insert other new := by
  refine ext_get? ?_ fun name => ?_
  · rw [keys_insert_of_mem value (mem_keys_insert.2 (.inr hkey))]
    by_cases h : other ∈ m.keys
    · rw [keys_insert_of_mem _ h, keys_insert_of_mem _ (mem_keys_insert.2 (.inr h)),
        keys_insert_of_mem _ hkey]
    · rw [keys_insert_of_not_mem _ h, keys_insert_of_not_mem _ (by simp [hne, h]),
        keys_insert_of_mem _ hkey]
  · simp only [get?_insert]
    by_cases h : name = key
    · simp [h, Ne.symm hne]
    · simp [h]

theorem insertMany_insert_of_mem {key : String} (value : α) :
    ∀ {entries : List (String × α)} {m : OrderedMap α}, key ∈ m.keys → key ∉ Entries.names entries →
      (m.insertMany entries).insert key value = (m.insert key value).insertMany entries
  | [], _, _, _ => rfl
  | (name, new) :: rest, m, hkey, hnot => by
    have hne : name ≠ key := fun e => hnot (by simp [Entries.names, e])
    have hrest : key ∉ Entries.names rest := fun e => hnot (List.mem_cons_of_mem _ e)
    have ih := insertMany_insert_of_mem (m := m.insert name new) value
      (mem_keys_insert.2 (.inr hkey)) hrest
    simp only [insertMany, List.foldl_cons] at ih ⊢
    rw [ih, insert_comm_of_mem hkey hne]

theorem insertMany_put {key : String} (value : α) :
    ∀ {entries : List (String × α)} (m : OrderedMap α), (Entries.names entries).Nodup →
      m.insertMany (Entries.put key value entries) = (m.insertMany entries).insert key value
  | [], _, _ => rfl
  | (name, old) :: rest, m, hnodup => by
    obtain ⟨hname, hrest⟩ := List.nodup_cons.1 hnodup
    by_cases hn : name = key
    · subst hn
      have h := insertMany_insert_of_mem (m := m.insert name old) value
        (mem_keys_insert.2 (.inl rfl)) hname
      simp only [Entries.put, if_pos, insertMany, List.foldl_cons] at h ⊢
      rw [h, insert_insert_self]
    · have ih : (m.insert name old).insertMany (Entries.put key value rest) =
          ((m.insert name old).insertMany rest).insert key value :=
        insertMany_put value (m.insert name old) hrest
      simp only [Entries.put, if_neg hn, insertMany, List.foldl_cons] at ih ⊢
      exact ih

theorem insertMany_insertMany (m n : OrderedMap α) (entries : List (String × α)) :
    m.insertMany (n.insertMany entries).entries = (m.insertMany n.entries).insertMany entries := by
  induction entries generalizing n with
  | nil => rfl
  | cons entry rest ih =>
    have h := ih (n.insert entry.1 entry.2)
    simp only [insertMany, List.foldl_cons] at h ⊢
    rw [h]
    congr 1
    exact insertMany_put entry.2 m n.nodup

/-! ### Entries with new names -/

theorem entries_insert_of_not_mem {m : OrderedMap α} {key : String} (value : α)
    (h : key ∉ m.keys) : (m.insert key value).entries = m.entries ++ [(key, value)] :=
  Entries.put_of_not_mem value h

/-- Entries with different new names go to the end in their order. -/
theorem entries_insertMany : ∀ {entries : List (String × α)} {m : OrderedMap α},
    (Entries.names (m.entries ++ entries)).Nodup →
      (m.insertMany entries).entries = m.entries ++ entries
  | [], _, _ => (List.append_nil _).symm
  | (key, value) :: rest, m, h => by
    have hkey : key ∉ m.keys := fun hmem => by
      rw [Entries.names, List.map_append] at h
      exact (List.nodup_append.1 h).2.2 key hmem key (by simp) rfl
    have hinsert := entries_insert_of_not_mem value hkey
    have ih : ((m.insert key value).insertMany rest).entries = _ := entries_insertMany (by
      rw [hinsert, List.append_assoc]
      exact h)
    rw [hinsert, List.append_assoc] at ih
    exact ih

theorem entries_ofList {entries : List (String × α)} (h : (Entries.names entries).Nodup) :
    (ofList entries).entries = entries :=
  entries_insertMany (m := empty) h

theorem ofList_entries (m : OrderedMap α) : ofList m.entries = m := ext (entries_ofList m.nodup)

@[simp]
theorem keys_empty : (empty : OrderedMap α).keys = [] := rfl

@[simp]
theorem get?_empty (key : String) : (empty : OrderedMap α).get? key = none := rfl

end OrderedMap

end SchemaGraph
