import SchemaGraph.Project.FileTree

/-!
What is seen at the places of a tree, and what each change does to it. A change is described by what
is at every place afterwards, so two trees that look the same at a place need no comparison of their
entries.

* `FileTree.item?` — a file with its text, a directory, or nothing;
* `item?_of_putFile?`, `item?_of_rename?` — what files that are written and renamed leave behind;
* `follow?_mono` — a path leads on to the same place while its directories stay;
* `MadeAlong` — what making directories along names may do, wherever it stops;
* `MadeAlong.found?_eq` — **directories that are made along a path do not change what is found
  under it**, unless the path goes up out of a directory that was missing (`Descends`).
-/

namespace SchemaGraph.FileTree

/-! ### What is at a place -/

/-- A file or a directory, without what is in the directory. -/
inductive Item where
  | file (text : Option String)
  | directory
deriving DecidableEq

def item : FileTree → Item
  | .file text => .file text
  | .directory _ => .directory

def Item.text? : Item → Option String
  | .file text => text
  | .directory => none

def item? (place : List String) (tree : FileTree) : Option Item := (tree.find? place).map item

variable {tree after made new : FileTree} {place next source target start : List String}
  {names rest : List String} {name last : String} {entries : List (String × FileTree)}
  {text : Option String} {seen : Item}

theorem item?_nil : item? [] tree = some tree.item := rfl

theorem item?_file_cons : item? (name :: names) (.file text) = none := rfl

theorem item?_directory_cons :
    item? (name :: names) (.directory entries) = (subtree? name entries).bind (item? names) := by
  rw [item?, find?, Option.map_bind]
  rfl

theorem hasDirectory_iff : tree.hasDirectory place = true ↔ tree.item? place = some .directory := by
  unfold hasDirectory item?
  rcases tree.find? place with _ | _ | _ <;> simp [isDirectory, item]

theorem hasDirectory_eq_false (h : tree.item? place ≠ some .directory) :
    tree.hasDirectory place = false := by
  rw [← Bool.not_eq_true, hasDirectory_iff]
  exact h

theorem hasDirectory_congr (h : after.item? place = tree.item? place) :
    after.hasDirectory place = tree.hasDirectory place := by
  rw [Bool.eq_iff_iff, hasDirectory_iff, hasDirectory_iff, h]

theorem text?_eq : tree.text? place = (tree.item? place).bind Item.text? := by
  unfold text? item?
  rcases tree.find? place with _ | _ | _ <;> rfl

theorem hasDirectory_of_item?_below :
    ∀ {place : List String} {tree : FileTree}, tree.item? (place ++ name :: names) ≠ none →
      tree.hasDirectory place = true
  | [], .file _, h => absurd rfl h
  | [], .directory _, _ => rfl
  | _ :: _, .file _, h => absurd rfl h
  | step :: place, .directory entries, h => by
    rw [List.cons_append, item?_directory_cons] at h
    rw [hasDirectory_iff, item?_directory_cons]
    cases hsub : subtree? step entries with
    | none => exact absurd (by rw [hsub]; rfl) h
    | some sub =>
      rw [hsub] at h
      exact hasDirectory_iff.1 (hasDirectory_of_item?_below h)

theorem item?_below (h : tree.hasDirectory place = false) (hrest : rest ≠ []) :
    tree.item? (place ++ rest) = none := by
  cases rest with
  | nil => exact absurd rfl hrest
  | cons name names =>
    cases hitem : tree.item? (place ++ name :: names) with
    | none => rfl
    | some seen =>
      have hdirectory := hasDirectory_of_item?_below (hitem ▸ Option.some_ne_none seen)
      rw [h] at hdirectory
      cases hdirectory

/-! ### Entries -/

theorem subtree?_cons (other key : String) (sub : FileTree) :
    subtree? other ((key, sub) :: entries) =
      if other = key then some sub else subtree? other entries := by
  by_cases h : other = key
  · simp [subtree?, h]
  · simp [subtree?, List.lookup_cons, beq_false_of_ne h, h]

theorem subtree?_putEntry (other : String) : subtree? other (putEntry name new entries) =
    if other = name then some new else subtree? other entries := by
  induction entries with
  | nil => rw [putEntry, subtree?_cons]
  | cons entry entries ih =>
    obtain ⟨key, old⟩ := entry
    rw [putEntry, subtree?_cons]
    split
    · subst key
      rw [subtree?_cons]
      split <;> rfl
    · rename_i hkey
      rw [subtree?_cons, ih]
      by_cases hother : other = key
      · rw [if_pos hother, if_neg (hother ▸ hkey), if_pos hother]
      · rw [if_neg hother, if_neg hother]

theorem subtree?_dropEntry (other : String) : subtree? other (dropEntry name entries) =
    if other = name then none else subtree? other entries := by
  induction entries with
  | nil => simp [dropEntry, subtree?]
  | cons entry entries ih =>
    obtain ⟨key, old⟩ := entry
    rw [dropEntry] at ih
    rw [dropEntry, subtree?_cons, List.filter_cons]
    by_cases hkey : key = name
    · subst key
      rw [if_neg (by simp), ih]
      split <;> rfl
    · rw [if_pos (by simpa using hkey), subtree?_cons, ih]
      by_cases hother : other = key
      · rw [if_pos hother, if_neg (hother ▸ hkey), if_pos hother]
      · rw [if_neg hother, if_neg hother]

/-- A change under an entry, seen from the directory of the entry. -/
theorem item?_putEntry (names : List String) (found : List String → Option Item)
    (h : ∀ p, new.item? p =
      if names <+: p then found (p.drop names.length) else (subtree? name entries).bind (item? p)) :
    ∀ p, (directory (putEntry name new entries)).item? p =
      if name :: names <+: p then found (p.drop (names.length + 1))
      else (directory entries).item? p
  | [] => rfl
  | step :: p => by
    rw [item?_directory_cons, item?_directory_cons, subtree?_putEntry]
    by_cases hstep : step = name
    · subst step
      rw [if_pos rfl, Option.bind_some, h]
      simp only [List.cons_prefix_cons, true_and, List.drop_succ_cons]
    · rw [if_neg hstep, if_neg]
      exact fun hprefix => hstep (List.cons_prefix_cons.1 hprefix).1.symm

/-! ### Changes -/

/-- What is put at a place is seen at the place and under it. -/
theorem item?_of_put? : ∀ {place : List String} {tree after : FileTree},
    tree.put? place new = some after → ∀ p, after.item? p =
      if place <+: p then new.item? (p.drop place.length) else tree.item? p
  | [], tree, after, h, p => by
    cases tree <;> cases h <;> simp
  | _ :: _, .file _, after, h, p => by simp [put?] at h
  | [name], .directory entries, after, h, p => by
    cases h
    exact item?_putEntry [] new.item? (fun p => by simp) p
  | name :: next :: names, .directory entries, after, h, p => by
    simp only [put?, Option.bind_eq_bind, Option.bind_eq_some_iff] at h
    obtain ⟨old, hold, sub, hsub, hafter⟩ := h
    cases hafter
    refine item?_putEntry (next :: names) new.item? (fun p => ?_) p
    rw [item?_of_put? hsub p, hold, Option.bind_some]

theorem item?_of_remove? : ∀ {place : List String} {tree after : FileTree},
    tree.remove? place = some after → ∀ p, after.item? p =
      if place <+: p then none else tree.item? p
  | [], tree, after, h, p => by cases tree <;> cases h
  | _ :: _, .file _, after, h, p => by simp [remove?] at h
  | [name], .directory entries, after, h, p => by
    simp only [remove?, Option.map_eq_some_iff] at h
    obtain ⟨old, hold, hafter⟩ := h
    cases hafter
    cases p with
    | nil => rfl
    | cons step p =>
      rw [item?_directory_cons, item?_directory_cons, subtree?_dropEntry]
      by_cases hstep : step = name
      · simp [hstep]
      · simp [hstep, Ne.symm hstep]
  | name :: next :: names, .directory entries, after, h, p => by
    simp only [remove?, Option.bind_eq_bind, Option.bind_eq_some_iff] at h
    obtain ⟨old, hold, sub, hsub, hafter⟩ := h
    cases hafter
    refine item?_putEntry (next :: names) (fun _ => none) (fun p => ?_) p
    rw [item?_of_remove? hsub p, hold, Option.bind_some]

theorem item?_of_put?_directory (h : tree.put? place (.directory []) = some after)
    (hrest : rest ≠ []) : after.item? (place ++ rest) = none := by
  rw [item?_of_put? h, if_pos (List.prefix_append place rest), List.drop_left]
  cases rest with
  | nil => exact absurd rfl hrest
  | cons name names => rfl

/-- A file takes the place of a file or of nothing. -/
theorem item?_of_putFile? (h : tree.putFile? text place = some after) :
    tree.hasDirectory place = false ∧
      ∀ p, after.item? p = if p = place then some (.file text) else tree.item? p := by
  unfold putFile? at h
  split at h
  case isTrue => cases h
  case isFalse hplace =>
    rw [Bool.not_eq_true] at hplace
    refine ⟨hplace, fun p => ?_⟩
    rw [item?_of_put? h]
    split
    case isTrue hprefix =>
      obtain ⟨rest, rfl⟩ := hprefix
      rw [List.drop_left]
      cases rest with
      | nil => simp [item?_nil, item]
      | cons name names => simp [item?_file_cons, item?_below hplace]
    case isFalse hprefix =>
      rw [if_neg fun hsame : p = place => hprefix (hsame ▸ List.prefix_rfl)]

/-- Files that are written are no directories, before and after. -/
theorem hasDirectory_of_putFile? (h : tree.putFile? text place = some after) (p : List String) :
    after.hasDirectory p = tree.hasDirectory p := by
  obtain ⟨hplace, hafter⟩ := item?_of_putFile? h
  by_cases hp : p = place
  · rw [hp, hplace]
    exact hasDirectory_eq_false (by simp [hafter])
  · exact hasDirectory_congr (by rw [hafter, if_neg hp])

theorem item?_of_removeFile? (h : tree.removeFile? place = some after) (p : List String) :
    after.item? p = if p = place then none else tree.item? p := by
  unfold removeFile? at h
  split at h
  case isTrue => cases h
  case isFalse hplace =>
    rw [Bool.not_eq_true] at hplace
    rw [item?_of_remove? h]
    by_cases hprefix : place <+: p
    · obtain ⟨names, rfl⟩ := hprefix
      cases names with
      | nil => simp
      | cons name names => simp [item?_below hplace]
    · rw [if_neg hprefix, if_neg fun hsame : p = place => hprefix (hsame ▸ List.prefix_rfl)]

/-- A renamed file is at its new place and at its old one no more. -/
theorem item?_of_rename? (h : tree.rename? source target = some after) :
    ∃ text, tree.item? source = some (.file text) ∧ tree.hasDirectory target = false ∧
      ∀ p, after.item? p =
        if p = target then some (.file text) else if p = source then none else tree.item? p := by
  simp only [rename?, Option.bind_eq_bind, Option.bind_eq_some_iff] at h
  obtain ⟨found, hfound, h⟩ := h
  cases found with
  | directory => cases h
  | file text =>
    dsimp only at h
    split at h
    case isTrue => cases h
    case isFalse htarget =>
    obtain ⟨rest, hrest, hput⟩ := Option.bind_eq_some_iff.1 h
    have hsource : tree.item? source = some (.file text) := by rw [item?, hfound]; rfl
    refine ⟨text, hsource, Bool.not_eq_true _ ▸ htarget, fun p => ?_⟩
    rw [(item?_of_putFile? hput).2, item?_of_removeFile? hrest]

theorem hasDirectory_of_rename? (h : tree.rename? source target = some after) (p : List String) :
    after.hasDirectory p = tree.hasDirectory p := by
  obtain ⟨text, hsource, htarget, hafter⟩ := item?_of_rename? h
  by_cases hp : p = target
  · rw [hp, htarget]
    exact hasDirectory_eq_false (by simp [hafter])
  · by_cases hold : p = source
    · have hbefore : tree.hasDirectory p = false := by
        rw [hold]
        exact hasDirectory_eq_false (by simp [hsource])
      rw [hbefore]
      exact hasDirectory_eq_false (by rw [hafter, if_neg hp, if_pos hold]; simp)
    · exact hasDirectory_congr (by rw [hafter, if_neg hp, if_neg hold])

/-! ### Following a path -/

/-- A name that leads from a directory to an entry of the directory. -/
def Plain (name : String) : Prop := name ≠ "" ∧ name ≠ "." ∧ name ≠ ".."

instance (name : String) : Decidable (Plain name) := inferInstanceAs (Decidable (_ ∧ _ ∧ _))

/-- What is at the place that names lead to. -/
def found? (place names : List String) (tree : FileTree) : Option Item :=
  (tree.follow? place names).bind fun place => tree.item? place

theorem follow?_cons : tree.follow? place (name :: names) =
    (tree.enter? place name).bind fun next => tree.follow? next names := by
  rw [follow?, List.foldlM_cons]
  rfl

theorem follow?_append : tree.follow? place (names ++ rest) =
    (tree.follow? place names).bind fun next => tree.follow? next rest := by
  rw [follow?, List.foldlM_append]
  rfl

theorem found?_cons (h : tree.enter? place name = some next) :
    tree.found? place (name :: names) = tree.found? next names := by
  rw [found?, follow?_cons, h]
  rfl

theorem enter?_eq_some : tree.enter? place name = some next ↔
    (tree.hasDirectory place = true ∧ name.utf8ByteSize ≤ Path.maxNameBytes) ∧
      next = if name = "" ∨ name = "." then place
        else if name = ".." then place.dropLast else place ++ [name] := by
  unfold enter?
  split
  case isTrue h => rw [Option.some.injEq, eq_comm, and_iff_right h]
  case isFalse h => exact iff_of_false (by simp) fun hnext => h hnext.1

theorem hasDirectory_of_enter? (h : tree.enter? place name = some next) :
    tree.hasDirectory place = true :=
  (enter?_eq_some.1 h).1.1

theorem enter?_of_not_hasDirectory (h : tree.hasDirectory place = false) (name : String) :
    tree.enter? place name = none := by
  simp [enter?, h]

/-- From where nothing is, no name leads on. -/
theorem follow?_of_missing (h : tree.item? place = none) (hnames : names ≠ []) :
    tree.follow? place names = none := by
  cases names with
  | nil => exact absurd rfl hnames
  | cons name names =>
    rw [follow?_cons, enter?_of_not_hasDirectory (hasDirectory_eq_false (by simp [h])),
      Option.bind_none]

/-- A name other than two points stays or goes to an entry. -/
theorem enter?_cases (h : tree.enter? place name = some next) (hup : name ≠ "..") :
    next = place ∨ next = place ++ [name] := by
  rw [(enter?_eq_some.1 h).2, if_neg hup]
  split
  · exact .inl rfl
  · exact .inr rfl

theorem prefix_of_follow? (h : tree.follow? place names = some next) (hup : ".." ∉ names) :
    place <+: next := by
  induction names generalizing place with
  | nil =>
    cases h
    exact List.prefix_rfl
  | cons name names ih =>
    rw [List.mem_cons, not_or] at hup
    rw [follow?_cons, Option.bind_eq_some_iff] at h
    obtain ⟨between, henter, hrest⟩ := h
    have hbetween := ih hrest hup.2
    obtain rfl | rfl := enter?_cases henter (Ne.symm hup.1)
    · exact hbetween
    · exact (List.prefix_append place [name]).trans hbetween

/-- The last name of a path leads from a directory to an entry of it. -/
theorem follow?_concat (hlast : Plain last) (h : tree.follow? place (names ++ [last]) = some next) :
    ∃ directory, tree.follow? place names = some directory ∧
      tree.hasDirectory directory = true ∧ next = directory ++ [last] := by
  rw [follow?_append, Option.bind_eq_some_iff] at h
  obtain ⟨directory, hdirectory, hnext⟩ := h
  rw [follow?_cons, Option.bind_eq_some_iff] at hnext
  obtain ⟨between, henter, hbetween⟩ := hnext
  cases hbetween
  refine ⟨directory, hdirectory, hasDirectory_of_enter? henter, ?_⟩
  obtain ⟨hempty, hpoint, hup⟩ := hlast
  rw [(enter?_eq_some.1 henter).2, if_neg (not_or.2 ⟨hempty, hpoint⟩), if_neg hup]

/-- A path leads on to the same place while its directories stay. -/
theorem follow?_mono (hstay : ∀ p, tree.hasDirectory p = true → after.hasDirectory p = true)
    (h : tree.follow? place names = some next) : after.follow? place names = some next := by
  induction names generalizing place with
  | nil => exact h
  | cons name names ih =>
    rw [follow?_cons, Option.bind_eq_some_iff] at h ⊢
    obtain ⟨between, henter, hrest⟩ := h
    obtain ⟨⟨hplace, hsize⟩, hbetween⟩ := enter?_eq_some.1 henter
    exact ⟨between, enter?_eq_some.2 ⟨⟨hstay place hplace, hsize⟩, hbetween⟩, ih hrest⟩

theorem follow?_congr (hsame : ∀ p, after.hasDirectory p = tree.hasDirectory p) :
    after.follow? place names = tree.follow? place names := by
  ext next
  exact ⟨follow?_mono fun p hp => hsame p ▸ hp, follow?_mono fun p hp => hsame p ▸ hp⟩

/-- Only what is found at the place of a new file can change; under another name in its directory
there is what was there. -/
theorem found?_of_putFile? {other : String} (h : tree.putFile? text place = some after)
    (hplace : tree.follow? start (names ++ [other]) = some place) (hother : Plain other)
    (hlast : Plain last) (hne : last ≠ other) :
    after.found? start (names ++ [last]) = tree.found? start (names ++ [last]) := by
  rw [found?, follow?_congr (hasDirectory_of_putFile? h), found?]
  refine Option.bind_congr fun next hnext => ?_
  obtain ⟨directory, hdirectory, -, rfl⟩ := follow?_concat hlast hnext
  obtain ⟨same, hsame, -, rfl⟩ := follow?_concat hother hplace
  obtain rfl : directory = same := Option.some.inj (hdirectory.symm.trans hsame)
  rw [(item?_of_putFile? h).2, if_neg]
  simpa using hne

/-! ### Making directories -/

/-- What making directories along names from a place may do before it ends or fails: it goes through
directories that are there and makes those that are missing. -/
inductive MadeAlong : List String → List String → FileTree → FileTree → Prop where
  | stop {place names : List String} {tree : FileTree} : MadeAlong place names tree tree
  | pass {place names next : List String} {name : String} {tree after : FileTree}
      (hnext : tree.enter? place name = some next) (hdirectory : tree.hasDirectory next = true)
      (h : MadeAlong next names tree after) : MadeAlong place (name :: names) tree after
  | make {place names next : List String} {name : String} {tree made after : FileTree}
      (hnext : tree.enter? place name = some next) (hmissing : tree.item? next = none)
      (hput : tree.put? next (.directory []) = some made) (h : MadeAlong next names made after) :
      MadeAlong place (name :: names) tree after

theorem item?_append_of_none (h : tree.item? place = none) (rest : List String) :
    tree.item? (place ++ rest) = none := by
  by_cases hrest : rest = []
  · rw [hrest, List.append_nil, h]
  · exact item?_below (hasDirectory_eq_false (by simp [h])) hrest

namespace MadeAlong

theorem item?_eq_some (h : MadeAlong place names tree after) {p : List String}
    (hp : tree.item? p = some seen) : after.item? p = some seen := by
  induction h with
  | stop => exact hp
  | pass _ _ _ ih => exact ih hp
  | make _ hmissing hput _ ih =>
    refine ih ?_
    rw [item?_of_put? hput, if_neg, hp]
    rintro ⟨rest, rfl⟩
    rw [item?_append_of_none hmissing] at hp
    cases hp

theorem hasDirectory (h : MadeAlong place names tree after) {p : List String}
    (hp : tree.hasDirectory p = true) : after.hasDirectory p = true :=
  hasDirectory_iff.2 (h.item?_eq_some (hasDirectory_iff.1 hp))

theorem enter? (h : MadeAlong place names tree after) {p : List String}
    (hp : tree.enter? p name = some next) : after.enter? p name = some next := by
  have hfollow : tree.follow? p [name] = some next := by rw [follow?_cons, hp]; rfl
  have hafter := follow?_mono (fun _ => h.hasDirectory) hfollow
  rw [follow?_cons] at hafter
  simpa [follow?] using hafter

end MadeAlong

/-! ### Paths that go up -/

/-- Once the names lead to where nothing is, they do not go up again. A path that does leads nowhere
until the missing directory is made, and may lead to something then. -/
def Descends (place names : List String) (tree : FileTree) : Prop :=
  ∀ before behind missing, names = before ++ behind →
    tree.follow? place before = some missing → tree.item? missing = none → ".." ∉ behind

theorem descends_of_not_mem (h : ".." ∉ names) : tree.Descends place names := by
  rintro before behind missing rfl - -
  exact fun hup => h (List.mem_append_right before hup)

theorem descends_of_follow? (h : tree.follow? place names = some next) :
    tree.Descends place names := by
  rintro before behind missing rfl hbefore hmissing
  rw [follow?_append, hbefore, Option.bind_some] at h
  cases behind with
  | nil => exact List.not_mem_nil
  | cons name names =>
    rw [follow?_of_missing hmissing (List.cons_ne_nil name names)] at h
    cases h

namespace Descends

theorem tail (h : tree.Descends place (name :: names))
    (hnext : tree.enter? place name = some next) : tree.Descends next names := by
  rintro before behind missing rfl hbefore hmissing
  refine h (name :: before) behind missing rfl ?_ hmissing
  rw [follow?_cons, hnext]
  exact hbefore

theorem not_mem (h : tree.Descends place (name :: names))
    (hnext : tree.enter? place name = some next) (hmissing : tree.item? next = none) :
    ".." ∉ names := by
  refine h [name] names next rfl ?_ hmissing
  rw [follow?_cons, hnext]
  rfl

theorem concat (h : tree.Descends place names) (hlast : last ≠ "..") :
    tree.Descends place (names ++ [last]) := by
  intro before behind missing hnames hbefore hmissing
  obtain rfl | ⟨front, other, rfl⟩ := List.eq_nil_or_concat behind
  · exact List.not_mem_nil
  · rw [List.concat_eq_append, ← List.append_assoc] at hnames
    obtain ⟨hfront, hother⟩ := List.append_inj' hnames rfl
    cases hother
    have hup := h before front missing hfront hbefore hmissing
    simpa using ⟨hup, Ne.symm hlast⟩

end Descends

/-- Between one tree and a later one nothing is taken away, and no file becomes a directory. -/
structure Stays (tree after : FileTree) : Prop where
  item? : ∀ p, tree.item? p ≠ none → after.item? p ≠ none
  hasDirectory : ∀ p, tree.item? p ≠ none → after.hasDirectory p = tree.hasDirectory p

theorem stays_of_putFile? (h : tree.putFile? text place = some after) : tree.Stays after where
  item? p hp := by
    rw [(item?_of_putFile? h).2]
    split
    case isTrue => exact Option.some_ne_none _
    case isFalse => exact hp
  hasDirectory p _ := hasDirectory_of_putFile? h p

namespace Descends

/-- Paths go on not to go up out of missing directories. -/
theorem of_stays (h : tree.Descends place names) (hstays : tree.Stays after) :
    after.Descends place names := by
  induction names generalizing place with
  | nil => exact descends_of_not_mem List.not_mem_nil
  | cons name names ih =>
    cases hplace : tree.item? place with
    | none =>
      -- a directory may have come, but the names behind it do not go up
      exact descends_of_not_mem (h [] _ _ rfl rfl hplace)
    | some seen =>
      have hthere : tree.item? place ≠ none := hplace ▸ Option.some_ne_none seen
      intro before behind missing hnames hbefore hmissing
      cases before with
      | nil =>
        cases hbefore
        exact absurd hmissing (hstays.item? place hthere)
      | cons first before =>
        cases hnames
        rw [follow?_cons, Option.bind_eq_some_iff] at hbefore
        obtain ⟨next, hnext, hrest⟩ := hbefore
        have hbefore : tree.enter? place name = some next := by
          rw [enter?_eq_some] at hnext ⊢
          rwa [hstays.hasDirectory place hthere] at hnext
        exact ih (h.tail hbefore) before behind missing rfl hrest hmissing

end Descends

/-! ### What is found under a path -/

namespace MadeAlong

theorem stays (h : MadeAlong place names tree after) : tree.Stays after where
  item? p hp := by
    obtain ⟨seen, hseen⟩ := Option.ne_none_iff_exists'.1 hp
    rw [h.item?_eq_some hseen]
    exact Option.some_ne_none seen
  hasDirectory p hp := by
    obtain ⟨seen, hseen⟩ := Option.ne_none_iff_exists'.1 hp
    exact hasDirectory_congr (by rw [hseen, h.item?_eq_some hseen])

/-- Directories made along names that do not go up have nothing in them but each other. -/
theorem found?_eq_none (h : MadeAlong place names tree after) (hup : ".." ∉ names)
    (hbare : ∀ rest ≠ [], tree.item? (place ++ rest) = none) (hlast : Plain last) :
    after.found? place (names ++ [last]) = none := by
  induction h with
  | @stop place names tree =>
    rw [found?, Option.bind_eq_none_iff]
    intro next hnext
    obtain ⟨directory, hdirectory, -, rfl⟩ := follow?_concat hlast hnext
    obtain ⟨between, rfl⟩ := prefix_of_follow? hdirectory hup
    rw [List.append_assoc]
    exact hbare _ (by simp)
  | @pass place names next name tree after hnext hdirectory hrest ih =>
    rw [List.mem_cons, not_or] at hup
    have hsame : next = place := by
      refine (enter?_cases hnext (Ne.symm hup.1)).resolve_right ?_
      rintro rfl
      rw [hasDirectory_iff, hbare _ (by simp)] at hdirectory
      cases hdirectory
    subst hsame
    rw [List.cons_append, found?_cons (hrest.enter? hnext)]
    exact ih hup.2 hbare
  | @make place names next name tree made after hnext hmissing hput hrest ih =>
    rw [List.mem_cons, not_or] at hup
    have hafter := (MadeAlong.make hnext hmissing hput hrest).enter? hnext
    rw [List.cons_append, found?_cons hafter]
    exact ih hup.2 fun rest hne => item?_of_put?_directory hput hne

/-- **Making directories along names does not change what is found under them.** If they are all
there already, none is made; if not, nothing was found, and nothing is in the new ones. -/
theorem found?_eq (h : MadeAlong place names tree after) (hnames : tree.Descends place names)
    (hlast : Plain last) :
    after.found? place (names ++ [last]) = tree.found? place (names ++ [last]) := by
  induction h with
  | stop => rfl
  | pass hnext _ hrest ih =>
    rw [List.cons_append, found?_cons hnext, found?_cons (hrest.enter? hnext)]
    exact ih (hnames.tail hnext)
  | @make place names next name tree made after hnext hmissing hput hrest ih =>
    have hafter := (MadeAlong.make hnext hmissing hput hrest).enter? hnext
    rw [List.cons_append, found?_cons hnext, found?_cons hafter]
    have hbare : ∀ rest ≠ [], made.item? (next ++ rest) = none :=
      fun rest hne => item?_of_put?_directory hput hne
    rw [hrest.found?_eq_none (hnames.not_mem hnext hmissing) hbare hlast]
    rw [found?, follow?_of_missing hmissing (by simp), Option.bind_none]

end MadeAlong

end SchemaGraph.FileTree
