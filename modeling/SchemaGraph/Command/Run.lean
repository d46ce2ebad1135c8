import SchemaGraph.Command.Arguments
import SchemaGraph.Command.Report
import SchemaGraph.Document
import SchemaGraph.Project.Settings
import SchemaGraph.Reference.Simplify
import SchemaGraph.Schema.Render
import SchemaGraph.Traversal.Discriminators

/-!
Running a command line: exit code 0 with the output, 1 with an error, 2 if the command line is not
used as it should be or a check finds a change.
-/

namespace SchemaGraph

/-- How a run ends. -/
structure Outcome where
  code : Nat := 0
  output : String := ""
  error : Option Error := none

namespace Outcome

def errorLine (outcome : Outcome) : Option String :=
  outcome.error.map fun error => "Error: " ++ error.message

def ofExcept : Except Error Outcome → Outcome
  | .ok outcome => outcome
  | .error error => { code := 1, error := some error }

end Outcome

namespace Command

/-! ### On a document -/

/-- Runs a pass on a document's store and returns its result with the store it leaves. -/
def runPass {α : Type} (document : Document) (pass : Pass Unit α) : Except Error (α × Store) :=
  match pass (document.store, ()) with
  | .ok a (store, _) => .ok (a, store)
  | .error e _ => .error e

def gatherDocument (settings : Settings) (json : Bool) (document : Document) :
    Except Error Outcome := do
  let scope : Scope :=
    { store := document.store
      definitions := document.definitions
      discriminatorKey := settings.discriminatorKey }
  let found ← scope.gather document.root
  let report ← GatherReport.ofGathered document.store found
  pure { output := if json then line report.toJson.pretty else report.text }

def simplifyDocument (settings : Settings) (inline : Bool) (document : Document) :
    Except Error Outcome := do
  let inline := settings.inlineSingleUse && inline
  let (root, store) ←
    runPass document (simplifyReferences document.root document.definitions inline)
  let value ← store.render root
  pure { output := line value.pretty }

def refsOfDocument (document : Document) : Except Error Outcome := do
  let names ← document.store.collectNames document.root
  pure { output := lines names.toList }

def invalidOfDocument (settings : Settings) (document : Document) : Except Error Outcome := do
  let ids ← document.store.collectMarked document.root settings.invalidKey
  let output ← invalidText document.store ids
  pure { output }

def checkDocument (document : Document) : Except Error Outcome := do
  let before ← document.store.render document.root
  let (root, store) ← runPass document (Visitor.identity.walk document.root)
  let after ← store.render root
  let ids ← store.preorder root
  let report : CheckReport :=
    { unchanged := root = document.root ∧ before = after, nodes := ids.length }
  pure { code := if report.unchanged then 0 else 2, output := report.text }

/-! ### On a disk -/

variable {m : Type → Type} [Monad m]

def withDocument (disk : Disk m) (file : String) (run : Document → Except Error Outcome) :
    m (Except Error Outcome) := do
  let content ← disk.readText ⟨file, []⟩
  pure (Document.ofFile content >>= run)

def withSettings (disk : Disk m) (project file : String)
    (run : Settings → Document → Except Error Outcome) : m (Except Error Outcome) := do
  match ← Settings.load disk project with
  | .error e => pure (.error e)
  | .ok settings => withDocument disk file (run settings)

/-- Runs a command for the project in a directory. -/
def run (disk : Disk m) (project : String) : Command → m (Except Error Outcome)
  | .init => do
    match ← Settings.save disk project {} with
    | .error e => pure (.error e)
    | .ok () =>
      pure (.ok
        { output := line ("Wrote default configuration to " ++ (Settings.file project).text) })
  | .gather file json =>
    withSettings disk project file fun settings => gatherDocument settings json
  | .simplify file inline =>
    withSettings disk project file fun settings => simplifyDocument settings inline
  | .refs file => withDocument disk file refsOfDocument
  | .invalid file => withSettings disk project file invalidOfDocument
  | .check file => withDocument disk file checkDocument

end Command

def runCommandLine {m : Type → Type} [Monad m] (disk : Disk m) (here : String)
    (args : List String) : m Outcome := do
  match Invocation.ofArguments? args with
  | none => pure { code := 2 }
  | some invocation =>
    let result ← invocation.command.run disk (invocation.project.getD here)
    pure (Outcome.ofExcept result)

end SchemaGraph
