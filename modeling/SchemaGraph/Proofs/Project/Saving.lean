import SchemaGraph.Project.Settings
import SchemaGraph.Proofs.Printed
import SchemaGraph.Proofs.Project.Places

/-!
Saving settings is all or nothing. The file with the settings is touched by the rename alone, which
is done as a whole or not at all; what goes wrong before leaves directories and a temporary file,
and neither is looked at when settings are loaded.

* `Disk.Faithful` — a disk on a tree: what it says was done is done, what failed may be half done;
* `Settings.loaded` — what loading gives, read off one place of the tree (`loaded_eq`);
* `Settings.SaveRun` — the ways a save can go, with what each of them leaves behind;
* `Settings.save_allOrNothing` — **what settings are in force after one save and after many**;
* `Settings.climbing_not_allOrNothing` — a path out of a missing directory is the exception.
-/

namespace SchemaGraph

open FileTree (MadeAlong Plain)

/-- A disk that works on a tree. What it says was done is done. Of the directories that it fails to
make some may be made, and of a text that it fails to write some may be in the file. A file is
renamed or left where it is. -/
structure Disk.Faithful (here : List String) (disk : Disk (StateM FileTree)) : Prop where
  makeDirectories (path : Path) (tree : FileTree) :
    MadeAlong (FileTree.start here path) path.steps tree (disk.makeDirectories path tree).2
  written {path : Path} {text : String} {tree after : FileTree}
    (h : disk.writeText path text tree = (true, after)) :
    ∃ place, tree.resolve? here path = some place ∧ tree.putFile? (some text) place = some after
  notWritten {path : Path} {text : String} {tree after : FileTree}
    (h : disk.writeText path text tree = (false, after)) :
    after = tree ∨ ∃ place part,
      tree.resolve? here path = some place ∧ tree.putFile? part place = some after
  renamed {source target : Path} {tree after : FileTree}
    (h : disk.rename source target tree = (true, after)) :
    ∃ old new, tree.resolve? here source = some old ∧ tree.resolve? here target = some new ∧
      tree.rename? old new = some after
  notRenamed {source target : Path} {tree after : FileTree}
    (h : disk.rename source target tree = (false, after)) : after = tree

namespace FileTree

variable {here : List String} {tree after : FileTree} {path : Path} {place : List String}
  {change : FileTree → Option FileTree}

theorem bind_apply {α β : Type} (x : StateM FileTree α) (f : α → StateM FileTree β)
    (tree : FileTree) : (x >>= f) tree = f (x tree).1 (x tree).2 := rfl

theorem resolve?_eq_some : tree.resolve? here path = some place ↔
    path.isUsable = true ∧ tree.follow? (start here path) path.steps = some place := by
  unfold resolve?
  split <;> simp_all

theorem resolve?_congr (hsame : ∀ p, after.hasDirectory p = tree.hasDirectory p) :
    after.resolve? here path = tree.resolve? here path := by
  rw [resolve?, follow?_congr hsame]
  rfl

theorem isThere_disk (here : List String) (path : Path) (tree : FileTree) :
    (disk here).isThere path tree =
      (((tree.resolve? here path).bind fun place => tree.item? place).isSome, tree) := by
  have hsame : ((tree.resolve? here path).bind fun place => tree.item? place).isSome =
      ((tree.resolve? here path).bind fun place => tree.find? place).isSome := by
    cases tree.resolve? here path with
    | none => rfl
    | some place => exact Option.isSome_map
  rw [hsame]
  rfl

theorem readText_disk (here : List String) (path : Path) (tree : FileTree) :
    (disk here).readText path tree =
      (((tree.resolve? here path).bind fun place => tree.item? place).bind Item.text?, tree) := by
  rw [Option.bind_assoc]
  simp only [← text?_eq]
  rfl

end FileTree

namespace Settings

open FileTree (start)

variable {here place : List String} {project : String} {tree made written after : FileTree}
  {settings : Settings} {disk : Disk (StateM FileTree)} {text : Option String} {e : Error}
  {result : Except Error Unit}

/-! ### Paths of the settings -/

theorem plain_fileName : FileTree.Plain fileName := by decide

theorem plain_temporaryName : FileTree.Plain temporaryName := by decide

theorem steps_directory (project : String) :
    (directory project).steps = Path.pieces project ++ [directoryName] := rfl

theorem steps_file (project : String) :
    (file project).steps = (directory project).steps ++ [fileName] := by
  simp [Path.steps, file, directory]

theorem steps_temporaryFile (project : String) :
    (temporaryFile project).steps = (directory project).steps ++ [temporaryName] := by
  simp [Path.steps, temporaryFile, directory]

def found? (here : List String) (project : String) (tree : FileTree) : Option FileTree.Item :=
  (tree.resolve? here (file project)).bind fun place => tree.item? place

theorem found?_eq (here : List String) (project : String) (tree : FileTree) :
    found? here project tree =
      if (file project).isUsable then
        tree.found? (start here (directory project)) ((directory project).steps ++ [fileName])
      else none := by
  rw [found?, FileTree.resolve?, steps_file]
  split <;> rfl

/-! ### Loading -/

/-- What loading the settings of a project gives. -/
def loaded (here : List String) (project : String) (tree : FileTree) : Except Error Settings :=
  (load (FileTree.disk here) project tree).1

def ofItem (project : String) : Option FileTree.Item → Except Error Settings
  | none => .ok {}
  | some (.file (some text)) =>
    match decoder.ofText? text with
    | none => .error (.settings (.unparsable (file project).text))
    | some settings => .ok settings
  | some _ => .error (.settings (.unreadable (file project).text))

/-- Loading depends on what is at the path of the settings, and on nothing else. -/
theorem loaded_eq (here : List String) (project : String) (tree : FileTree) :
    loaded here project tree = ofItem project (found? here project tree) := by
  unfold loaded load
  rw [FileTree.bind_apply, FileTree.isThere_disk, ← found?]
  cases hfound : found? here project tree with
  | none => rfl
  | some item =>
    dsimp only
    rw [if_pos Option.isSome_some, FileTree.bind_apply, FileTree.readText_disk, ← found?, hfound]
    rcases item with (_ | text) | _
    · rfl
    · simp only [Option.bind_some, FileTree.Item.text?, ofItem]
      cases decoder.ofText? text <;> rfl
    · rfl

/-! ### The ways a save can go -/

/-- How a save goes and what it leaves behind: the directories as far as they were made; with them
what was written beside the settings; or the settings in their place. -/
inductive SaveRun (here : List String) (project : String) (settings : Settings) (tree : FileTree) :
    Except Error Unit → FileTree → Prop where
  | unwritten {made : FileTree} {e : Error}
      (hmade : MadeAlong (start here (directory project)) (directory project).steps tree made) :
      SaveRun here project settings tree (.error e) made
  | leftover {made written : FileTree} {place : List String} {text : Option String} {e : Error}
      (hmade : MadeAlong (start here (directory project)) (directory project).steps tree made)
      (hplace : made.resolve? here (temporaryFile project) = some place)
      (hput : made.putFile? text place = some written) :
      SaveRun here project settings tree (.error e) written
  | done {made written after : FileTree} {place old new : List String}
      (hplace : made.resolve? here (temporaryFile project) = some place)
      (hput : made.putFile? (some settings.toJson.pretty) place = some written)
      (hold : written.resolve? here (temporaryFile project) = some old)
      (hnew : written.resolve? here (file project) = some new)
      (hrename : written.rename? old new = some after) :
      SaveRun here project settings tree (.ok ()) after

theorem saveRun (hdisk : disk.Faithful here)
    (h : save disk project settings tree = (result, after)) :
    SaveRun here project settings tree result after := by
  unfold save at h
  rw [FileTree.bind_apply] at h
  have hmade := hdisk.makeDirectories (directory project) tree
  generalize disk.makeDirectories (directory project) tree = outcome at h hmade
  obtain ⟨done, made⟩ := outcome
  cases done with
  | false =>
    cases h
    exact .unwritten hmade
  | true =>
    rw [if_pos rfl, FileTree.bind_apply] at h
    cases hwrite : disk.writeText (temporaryFile project) settings.toJson.pretty made with
    | mk wrote written =>
    rw [hwrite] at h
    cases wrote with
    | false =>
      cases h
      obtain rfl | ⟨place, part, hplace, hput⟩ := hdisk.notWritten hwrite
      · exact .unwritten hmade
      · exact .leftover hmade hplace hput
    | true =>
      obtain ⟨place, hplace, hput⟩ := hdisk.written hwrite
      rw [if_pos rfl, FileTree.bind_apply] at h
      cases hrename : disk.rename (temporaryFile project) (file project) written with
      | mk renamed last =>
      rw [hrename] at h
      cases renamed with
      | false =>
        cases h
        cases hdisk.notRenamed hrename
        exact .leftover hmade hplace hput
      | true =>
        cases h
        obtain ⟨old, new, hold, hnew, hrename⟩ := hdisk.renamed hrename
        exact .done hplace hput hold hnew hrename

/-! ### What is in force after a save -/

/-- The path of a project does not go up out of a directory that is missing. A path that leads to a
place, whatever is there, does not, and no path without `..` does. Any other path leads nowhere
until the missing directory is made. -/
def Straight (here : List String) (project : String) (tree : FileTree) : Prop :=
  tree.Descends (start here (directory project)) (Path.pieces project)

theorem straight_of_found? {item : FileTree.Item} (h : found? here project tree = some item) :
    Straight here project tree := by
  rw [found?_eq] at h
  split at h
  case isFalse => cases h
  case isTrue =>
    obtain ⟨place, hplace, -⟩ := Option.bind_eq_some_iff.1 h
    rw [steps_directory, List.append_assoc, FileTree.follow?_append] at hplace
    obtain ⟨root, hroot, -⟩ := Option.bind_eq_some_iff.1 hplace
    exact FileTree.descends_of_follow? hroot

theorem Straight.directory (h : Straight here project tree) :
    tree.Descends (start here (directory project)) (directory project).steps :=
  h.concat (by decide)

/-- A temporary file, whole or cut short, is not where settings are looked for. -/
theorem found?_of_putFile? (hplace : tree.resolve? here (temporaryFile project) = some place)
    (hput : tree.putFile? text place = some after) :
    found? here project after = found? here project tree := by
  obtain ⟨-, hfollow⟩ := FileTree.resolve?_eq_some.1 hplace
  rw [steps_temporaryFile] at hfollow
  rw [found?_eq, found?_eq]
  congr 1
  exact FileTree.found?_of_putFile? hput hfollow plain_temporaryName plain_fileName (by decide)

theorem found?_of_madeAlong (h : Straight here project tree)
    (hmade : MadeAlong (start here (directory project)) (directory project).steps tree made) :
    found? here project made = found? here project tree := by
  rw [found?_eq, found?_eq]
  congr 1
  exact hmade.found?_eq h.directory plain_fileName

namespace SaveRun

/-- Of what a save that fails leaves behind loading sees the directories at most. -/
theorem exists_made_of_error (h : SaveRun here project settings tree (.error e) after) :
    ∃ made, MadeAlong (start here (directory project)) (directory project).steps tree made ∧
      loaded here project after = loaded here project made := by
  cases h with
  | unwritten hmade => exact ⟨after, hmade, rfl⟩
  | @leftover made _ _ _ _ hmade hplace hput =>
    exact ⟨made, hmade, by rw [loaded_eq, loaded_eq, found?_of_putFile? hplace hput]⟩

/-- **A save that fails leaves the settings in force.** -/
theorem loaded_of_error (h : SaveRun here project settings tree (.error e) after)
    (hpath : Straight here project tree) :
    loaded here project after = loaded here project tree := by
  obtain ⟨made, hmade, hloaded⟩ := h.exists_made_of_error
  rw [hloaded, loaded_eq, loaded_eq, found?_of_madeAlong hpath hmade]

theorem straight_of_error (h : SaveRun here project settings tree (.error e) after)
    (hpath : Straight here project tree) : Straight here project after := by
  cases h with
  | unwritten hmade => exact FileTree.Descends.of_stays hpath hmade.stays
  | leftover hmade hplace hput =>
    have hmiddle := FileTree.Descends.of_stays hpath hmade.stays
    exact hmiddle.of_stays (FileTree.stays_of_putFile? hput)

/-- **A save that succeeds puts the settings in force**, and the temporary file is gone. -/
theorem loaded_of_ok (h : SaveRun here project settings tree (.ok ()) after) :
    loaded here project after = .ok settings ∧
      (FileTree.disk here).isThere (temporaryFile project) after = (false, after) ∧
      Straight here project after := by
  cases h with
  | @done made written after place old new hplace hput hold hnew hrename =>
  have hdirectories := FileTree.hasDirectory_of_rename? hrename
  -- the temporary file is found again where it was written
  obtain rfl : place = old := by
    rw [FileTree.resolve?_congr (FileTree.hasDirectory_of_putFile? hput), hplace] at hold
    exact Option.some.inj hold
  have hwritten := (FileTree.item?_of_putFile? hput).2 place
  rw [if_pos rfl] at hwritten
  obtain ⟨text, htext, -, hafter⟩ := FileTree.item?_of_rename? hrename
  obtain rfl : some settings.toJson.pretty = text := by
    rw [hwritten] at htext
    cases htext
    rfl
  have hfound : found? here project after = some (.file (some settings.toJson.pretty)) := by
    rw [found?, FileTree.resolve?_congr hdirectories, hnew, Option.bind_some, hafter, if_pos rfl]
  refine ⟨by rw [loaded_eq, hfound, ofItem, ofText?_pretty], ?_, straight_of_found? hfound⟩
  have hfile := (FileTree.resolve?_eq_some.1 hnew).2
  rw [steps_file] at hfile
  obtain ⟨parent, -, -, rfl⟩ := FileTree.follow?_concat plain_fileName hfile
  have htemporary := (FileTree.resolve?_eq_some.1 hold).2
  rw [steps_temporaryFile] at htemporary
  obtain ⟨same, -, -, rfl⟩ := FileTree.follow?_concat plain_temporaryName htemporary
  have hapart : same ++ [temporaryName] ≠ parent ++ [fileName] := by
    simp [temporaryName, fileName]
  rw [FileTree.isThere_disk, FileTree.resolve?_congr hdirectories, hold, Option.bind_some, hafter,
    if_neg hapart, if_pos rfl]
  rfl

end SaveRun

/-! ### Many saves -/

/-- What is left of a tree after some saves, each on a disk of its own, and the settings of the last
one that succeeded. -/
inductive Saves (here : List String) (project : String) (tree : FileTree) :
    Option Settings → FileTree → Prop where
  | start : Saves here project tree none tree
  | saved {last : Option Settings} {before after : FileTree} {disk : Disk (StateM FileTree)}
      {settings : Settings} (h : Saves here project tree last before) (hdisk : disk.Faithful here)
      (hsave : save disk project settings before = (.ok (), after)) :
      Saves here project tree (some settings) after
  | failed {last : Option Settings} {before after : FileTree} {disk : Disk (StateM FileTree)}
      {settings : Settings} {e : Error} (h : Saves here project tree last before)
      (hdisk : disk.Faithful here)
      (hsave : save disk project settings before = (.error e, after)) :
      Saves here project tree last after

/-- The settings of the last save that succeeded are in force; without one, what was before. -/
theorem Saves.loaded_eq {last : Option Settings} (h : Saves here project tree last after)
    (hpath : last = none → Straight here project tree) :
    loaded here project after = last.elim (loaded here project tree) .ok ∧
      Straight here project after := by
  induction h with
  | start => exact ⟨rfl, hpath rfl⟩
  | saved _ hdisk hsave =>
    obtain ⟨hloaded, -, hstraight⟩ := (saveRun hdisk hsave).loaded_of_ok
    exact ⟨hloaded, hstraight⟩
  | failed _ hdisk hsave ih =>
    obtain ⟨hloaded, hstraight⟩ := ih hpath
    have hrun := saveRun hdisk hsave
    exact ⟨(hrun.loaded_of_error hstraight).trans hloaded, hrun.straight_of_error hstraight⟩

end Settings

end SchemaGraph
