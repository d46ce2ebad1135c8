import SchemaGraph.Json.Printer
import SchemaGraph.Reference.Gather

/-!
What the commands print: reports on a gathered reference graph, for people or as JSON, and the lines
of the other commands.
-/

namespace SchemaGraph

def line (text : String) : String := text ++ "\n"

def lines (texts : List String) : String := String.join (texts.map line)

/-! ### Columns -/

def padRight (width : Nat) (text : String) : String :=
  text ++ String.ofList (List.replicate (width - text.length) ' ')

def padLeft (width : Nat) (text : String) : String :=
  String.ofList (List.replicate (width - text.length) ' ') ++ text

/-! ### Gathered references -/

structure MarkedNode where
  node : NodeId
  tag : String
  discriminator : Json

/-- What is reported on a reference graph: how often each name is referred to, the names on cycles,
the marked nodes. -/
structure GatherReport where
  counts : List (String × Nat)
  recursive : NameSet
  deferred : List MarkedNode

namespace GatherReport

def ofGathered (store : Store) (found : Gathered) : Except Error GatherReport := do
  let deferred ← found.deferred.mapM fun marked => do
    let node ← store.node marked.node
    pure { node := marked.node, tag := node.tag, discriminator := marked.discriminator }
  pure
    { counts := found.occurrences.entries.map fun entry => (entry.1, entry.2.length)
      recursive := found.recursive
      deferred }

def toJson (report : GatherReport) : Json :=
  .object
    [("definition_refs", .object (report.counts.map fun entry => (entry.1, Json.ofNat entry.2))),
     ("recursive_refs", .list (report.recursive.toList.map Json.text)),
     ("deferred_discriminators", .list (report.deferred.map fun marked =>
       .object
         [("node", .text marked.node.label),
          ("kind", .text marked.tag),
          ("discriminator", marked.discriminator)]))]

def countLine (report : GatherReport) (entry : String × Nat) : String :=
  "  " ++ padRight 30 entry.1 ++ " " ++ padLeft 4 (toString entry.2)
    ++ (if report.recursive.contains entry.1 then " [recursive]" else "")

def deferredLine (marked : MarkedNode) : String :=
  "  " ++ marked.node.label ++ " " ++ marked.tag ++ " " ++ marked.discriminator.compact

def text (report : GatherReport) : String :=
  lines
    (["Definition references:"]
      ++ (if report.counts.isEmpty then ["  (none)"] else report.counts.map report.countLine)
      ++ ["Recursive: " ++ toString report.recursive.size]
      ++ (report.recursive.toList.map fun name => "  " ++ name)
      ++ ["Deferred discriminators: " ++ toString report.deferred.length]
      ++ report.deferred.map deferredLine)

end GatherReport

/-! ### Invalid nodes -/

def invalidLine (store : Store) (id : NodeId) : Except Error String := do
  let node ← store.node id
  pure ("  " ++ id.label ++ " " ++ node.tag
    ++ match node.name with
      | some name => " (ref: " ++ name ++ ")"
      | none => "")

def invalidText (store : Store) (ids : List NodeId) : Except Error String :=
  if ids.isEmpty then .ok (line "No invalid schemas.")
  else do
    let texts ← ids.mapM (invalidLine store)
    pure (lines texts)

/-! ### Checks -/

/-- Whether a walk that should change nothing left the schema as it was, and how many nodes it
has. -/
structure CheckReport where
  unchanged : Bool
  nodes : Nat

def CheckReport.text (report : CheckReport) : String :=
  line
    (if report.unchanged then "OK: " ++ toString report.nodes ++ " nodes walked, tree unchanged"
    else "Changed: identity walk rebuilt the tree (" ++ toString report.nodes ++ " nodes)")

end SchemaGraph
