import SchemaGraph.Reference.Flatten
import SchemaGraph.Reference.Gather

/-!
Cleaning up the definitions of a schema. Definitions are moved out first. A definition that is
referred to once and lies on no cycle is then put in the place of its occurrence, and those still
referred to are listed around the schema in the order of their first use.
-/

namespace SchemaGraph

variable {σ : Type}

/-- The body of a definition, or a copy of it, that carries the name. -/
def namedBody (name : String) (body : NodeId) : Pass σ NodeId := do
  let node ← Pass.node body
  if node.name = some name then pure body else Pass.insert (node.withName name)

/-- The bodies of the definitions, each carrying its name. -/
def namedBodies : List (String × NodeId) → Pass σ (List NodeId)
  | [] => pure []
  | (name, body) :: definitions => do
    let id ← namedBody name body
    let ids ← namedBodies definitions
    pure (id :: ids)

/-- The schema with definitions around it, if there are any. -/
def wrapDefinitions (root : NodeId) (listed : List NodeId) : Pass σ NodeId :=
  if listed.isEmpty then pure root
  else
    Pass.insert
      (((Node.ofKind .definitions).withChild Key.definitions (.many listed)).withChild Key.inner
        (.one root))

/-- A nameless copy of a body for the place of an occurrence. The occurrence's serialization and
metadata entries win over the body's. -/
def Node.inlinedAt (body site : Node) : Node :=
  { body with
    name := none
    serialization := site.serialization <|> body.serialization
    metadata :=
      match site.metadata with
      | some entries => some ((body.metadata.getD .empty).insertMany entries.entries)
      | none => body.metadata }

/-- Puts the body of a definition in the place of an occurrence. -/
def inlineOccurrence (occurrence body : NodeId) : Pass σ Unit := do
  let site ← Pass.node occurrence
  let node ← Pass.node body
  let _ ← Pass.replace occurrence (node.inlinedAt site)

def inlineOccurrences : List (NodeId × NodeId) → Pass σ Unit
  | [] => pure ()
  | (occurrence, body) :: rest => do
    inlineOccurrence occurrence body
    inlineOccurrences rest

/-- The definition of a name that has an occurrence. -/
def lookUp (definitions : Definitions) (name : String) (occurrence : NodeId) :
    Except Error NodeId :=
  match definitions.get? name with
  | some body => .ok body
  | none => .error (.missingDefinition name occurrence)

/-- The occurrence of a name that is to be replaced by the body: the only one of a name that lies on
no cycle. -/
def Gathered.soleOccurrence? (found : Gathered) (name : String) : Option NodeId :=
  match found.occurrencesOf name with
  | [occurrence] => if found.isRecursive name then none else some occurrence
  | _ => none

/-- The names that are to be inlined, in the order in which they were met, with the places. -/
def Gathered.soleSites (found : Gathered) : List (String × NodeId) :=
  found.occurrences.keys.filterMap fun name =>
    (found.soleOccurrence? name).map fun occurrence => (name, occurrence)

/-- The occurrences to replace, in the order in which they were met, each with its body. -/
def inlinable (definitions : Definitions) (found : Gathered) :
    Except Error (List (NodeId × NodeId)) :=
  found.soleSites.mapM fun entry => do
    let body ← lookUp definitions entry.1 entry.2
    pure (entry.2, body)

/-- The names that stay, in the order in which they were met. -/
def Gathered.staying (found : Gathered) : List String :=
  found.occurrences.keys.filter fun name => (found.soleOccurrence? name).isNone

/-- The first occurrence of a name below `root`. -/
def Gathered.firstUse (found : Gathered) (root : NodeId) (name : String) : Except Error NodeId :=
  match found.occurrencesOf name with
  | [] => .error (.malformed (.noOccurrence name) (.node root))
  | first :: _ => .ok first

/-- The definitions that stay, in the order of their first use. -/
def remaining (root : NodeId) (definitions : Definitions) (found : Gathered) :
    Except Error (List (String × NodeId)) :=
  found.staying.mapM fun name => do
    let first ← found.firstUse root name
    let body ← lookUp definitions name first
    pure (name, body)

/-- Inlines what can be inlined and lists what remains. A body may itself be the only occurrence of
a name that was met later, so the last are inlined first. -/
def inlineReferences (root : NodeId) (definitions : Definitions) : Pass σ NodeId := do
  let found ← Pass.look fun store => Scope.gather { store, definitions } root
  let sites ← Pass.look fun _ => inlinable definitions found
  inlineOccurrences sites.reverse
  let kept ← Pass.look fun _ => remaining root definitions found
  let listed ← namedBodies kept
  wrapDefinitions root listed

/-- Cleans up the definitions of the schema at `root`. Without `inline` all of them are kept and
listed. -/
def simplifyReferences (root : NodeId) (definitions : Definitions) (inline : Bool) :
    Pass σ NodeId := do
  let (root, definitions) ← flattenReferences root definitions
  if inline then inlineReferences root definitions
  else
    let listed ← namedBodies definitions.entries
    wrapDefinitions root listed

end SchemaGraph
