import SchemaGraph.Schema.Node

/-!
What can go wrong, as causes. The wording of each cause is in `Error.message` alone.
-/

namespace SchemaGraph

/-! ### Places -/

/-- One step from a JSON value into a part of it. -/
inductive Step where
  | key (name : String)
  | index (position : Nat)
deriving DecidableEq, Repr

/-- Where a fault is: in a document, at a node, or under a key of a node. -/
inductive Place where
  | document (path : List Step)
  | node (id : NodeId)
  | child (id : NodeId) (key : String)
deriving DecidableEq, Repr

def Step.text : Step → String
  | .key name => "." ++ name
  | .index position => "[" ++ toString position ++ "]"

def Place.text : Place → String
  | .document path => "$" ++ String.join (path.map Step.text)
  | .node id => id.label
  | .child id key => id.label ++ "." ++ key

/-! ### Causes -/

/-- What is wrong with a schema. -/
inductive Defect where
  | notSchema
  | tagNotText
  | tagMissing
  | notText
  | metadataNotObject
  | notSchemaList
  | notChoice
  | notSchemaObject
  | targetMissing
  | definitionsNotObject
  | wrongShape (kind : Kind) (shape : Shape) (key : String)
  | notSlot (kind : Kind) (key : String)
  | innerMissing
  | nameMissing
  /-- A gathered name has no first use. No run comes to this: a name is gathered where it occurs. -/
  | noOccurrence (name : String)
deriving DecidableEq, Repr

def Defect.text : Defect → String
  | .notSchema => "expected a schema object"
  | .tagNotText => "'type' must be a string"
  | .tagMissing => "missing string 'type'"
  | .notText => "expected a string"
  | .metadataNotObject => "metadata must be an object"
  | .notSchemaList => "expected an array of schemas"
  | .notChoice => "labelled choice must be a [schema, label] pair"
  | .notSchemaObject => "expected an object of schemas"
  | .targetMissing => "definition-ref is missing 'schema_ref'"
  | .definitionsNotObject => "definitions must be an object"
  | .wrongShape kind shape key =>
    "'" ++ kind.tag ++ "' expects " ++ shape.description ++ " under '" ++ key ++ "'"
  | .notSlot kind key => "'" ++ key ++ "' is not a child location of '" ++ kind.tag ++ "'"
  | .innerMissing => "definitions node is missing its inner 'schema'"
  | .nameMissing => "entry of a definitions node is missing 'ref'"
  | .noOccurrence name => "'" ++ name ++ "' has no occurrence"

/-- What went wrong with the settings of a project, with the path concerned. -/
inductive SettingsFault where
  | unreadable (path : String)
  | unparsable (path : String)
  | directoryNotMade (path : String)
  | notWritten (path : String)
  | notRenamed (source target : String)
  | refused (reason : String)
deriving DecidableEq, Repr

/-- The wording of a fault. Where the file system or the JSON reader gives a reason for it, the
reason would follow the path; it is theirs to word and left out. -/
def SettingsFault.text : SettingsFault → String
  | .unreadable path => "failed to read config file '" ++ path ++ "'"
  | .unparsable path => "failed to parse config file '" ++ path ++ "'"
  | .directoryNotMade path => "failed to create config directory '" ++ path ++ "'"
  | .notWritten path => "failed to write temporary config file '" ++ path ++ "'"
  | .notRenamed source target =>
    "failed to rename temporary config file '" ++ source ++ "' to '" ++ target ++ "'"
  | .refused reason => reason

/-- Why loading, walking or resolving a schema graph failed. `unreadable` and `notJson` come without
the reason that the file system and the JSON reader give. `tooDeep` ends a walk that would otherwise
go round for ever. -/
inductive Error where
  | unknownKind (tag : String) (node : NodeId)
  | missingDefinition (name : String) (occurrence : NodeId)
  | malformed (defect : Defect) (place : Place)
  | unknownNode (node : NodeId)
  | settings (fault : SettingsFault)
  | unreadable
  | notJson
  | tooDeep (node : NodeId)
deriving DecidableEq, Repr

def Error.message : Error → String
  | .unknownKind tag node => "unrecognized schema kind '" ++ tag ++ "' (node: " ++ node.label ++ ")"
  | .missingDefinition name occurrence =>
    "missing definition '" ++ name ++ "' (referenced by: " ++ occurrence.label ++ ")"
  | .malformed defect place =>
    "malformed schema: " ++ defect.text ++ " (path: " ++ place.text ++ ")"
  | .unknownNode node => "unknown schema node: " ++ node.label
  | .settings fault => "config error: " ++ fault.text
  | .unreadable => "io error"
  | .notJson => "json error"
  | .tooDeep node => "walk does not end (node: " ++ node.label ++ ")"

end SchemaGraph
