/-!
Sets of names, kept as the increasing list of their members. The order is that of the characters'
code points, which is also the order of the names' UTF-8 bytes.
-/

namespace SchemaGraph

/-- Puts `name` at its place in an increasing list that may already have it. -/
def insertSorted (name : String) : List String → List String
  | [] => [name]
  | head :: rest =>
    if name < head then name :: head :: rest
    else if name = head then head :: rest
    else head :: insertSorted name rest

theorem mem_insertSorted (name x : String) :
    ∀ names : List String, x ∈ insertSorted name names ↔ x = name ∨ x ∈ names
  | [] => by simp [insertSorted]
  | head :: rest => by
    by_cases h : name < head
    · simp [insertSorted, h]
    · by_cases e : name = head
      · simp [insertSorted, e]
      · simp [insertSorted, h, e, mem_insertSorted name x rest, or_left_comm]

theorem pairwise_insertSorted {name : String} :
    ∀ {names : List String}, names.Pairwise (· < ·) → (insertSorted name names).Pairwise (· < ·)
  | [], _ => by simp [insertSorted]
  | head :: rest, h => by
    obtain ⟨hhead, hrest⟩ := List.pairwise_cons.1 h
    by_cases hl : name < head
    · simp only [insertSorted, hl, if_true]
      refine List.pairwise_cons.2 ⟨fun x hx => ?_, h⟩
      rcases List.mem_cons.1 hx with rfl | hx
      · exact hl
      · exact String.lt_trans hl (hhead x hx)
    · by_cases e : name = head
      · simpa [insertSorted, String.lt_irrefl, e] using h
      · simp only [insertSorted, hl, e, if_false]
        refine List.pairwise_cons.2 ⟨fun x hx => ?_, pairwise_insertSorted hrest⟩
        rcases (mem_insertSorted name x rest).1 hx with rfl | hx
        · exact String.not_le.1 fun hle => e (String.le_antisymm hle (String.not_lt.1 hl))
        · exact hhead x hx

/-- A set of names as an increasing list. -/
structure NameSet where
  toList : List String := []
  sorted : toList.Pairwise (· < ·) := by simp
deriving DecidableEq

namespace NameSet

def empty : NameSet := {}

instance : EmptyCollection NameSet := ⟨empty⟩

instance : Inhabited NameSet := ⟨empty⟩

instance : Membership String NameSet := ⟨fun s name => name ∈ s.toList⟩

instance (name : String) (s : NameSet) : Decidable (name ∈ s) :=
  inferInstanceAs (Decidable (name ∈ s.toList))

def contains (s : NameSet) (name : String) : Bool := decide (name ∈ s)

def insert (s : NameSet) (name : String) : NameSet :=
  ⟨insertSorted name s.toList, pairwise_insertSorted s.sorted⟩

def insertMany (s : NameSet) (names : List String) : NameSet := names.foldl insert s

def ofList (names : List String) : NameSet := empty.insertMany names

def size (s : NameSet) : Nat := s.toList.length

@[simp]
theorem mem_insert {s : NameSet} {name x : String} : x ∈ s.insert name ↔ x = name ∨ x ∈ s :=
  mem_insertSorted name x s.toList

@[simp]
theorem not_mem_empty (x : String) : x ∉ empty := by
  intro h; cases h

@[simp]
theorem mem_insertMany {names : List String} {x : String} :
    ∀ {s : NameSet}, x ∈ s.insertMany names ↔ x ∈ names ∨ x ∈ s := by
  induction names with
  | nil => intro s; simp [insertMany]
  | cons name rest ih =>
    intro s
    have := ih (s := s.insert name)
    simp only [insertMany, List.foldl_cons] at this ⊢
    rw [this, mem_insert, List.mem_cons, or_left_comm, or_assoc]

end NameSet

end SchemaGraph
