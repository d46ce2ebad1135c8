import SchemaGraph.Json.Decode
import SchemaGraph.Reference.Gather

/-!
Kinds, ids, child locations and the results of gathering a reference graph as JSON, and back. A kind
is the text of its name; an id is an integer; a child location is an object whose one field is named
for the shape.
-/

namespace SchemaGraph

/-! ### Parts of a node -/

namespace Kind

def toJson (kind : Kind) : Json := .text kind.name

/-- A kind is its name, or an object with the name as its field and `null` under it. -/
def decoder : Decoder Kind
  | _, .text value => value.bind ofName?
  | _ + 1, .object [(some name, .null)] => ofName? name
  | _, _ => .none

end Kind

namespace NodeId

def toJson (id : NodeId) : Json := .ofNat id.index

def decoder : Decoder NodeId := Decoder.nat.map NodeId.mk

end NodeId

namespace Choice

def toJson (choice : Choice) : Json :=
  .object
    [("schema", choice.schema.toJson),
     ("label", match choice.label with
       | some label => .text label
       | none => .null)]

/-- In an object the label may be left out, in a list it may not. -/
def decoder : Decoder Choice :=
  .record ["schema", "label"] 2 fun levels fields => do
    let schema ← Decoder.required "schema" NodeId.decoder levels fields
    let label ← Decoder.withDefault "label" none (.optional .text) levels fields
    pure { schema, label }

end Choice

namespace Child

def toJson : Child → Json
  | .one id => .object [("One", id.toJson)]
  | .many ids => .object [("Many", .list (ids.map NodeId.toJson))]
  | .choices cs => .object [("Choices", .list (cs.map Choice.toJson))]
  | .keyed schemas => .object [("Keyed", .object (schemas.map NodeId.toJson).entries)]

def decoder : Decoder Child :=
  .variant fun name levels w =>
    match name with
    | "One" => (NodeId.decoder levels w).map .one
    | "Many" => (Decoder.list NodeId.decoder levels w).map .many
    | "Choices" => (Decoder.list Choice.decoder levels w).map .choices
    | "Keyed" => (Decoder.object NodeId.decoder levels w).map .keyed
    | _ => none

end Child

/-! ### What a walk finds -/

namespace Deferred

def toJson (deferred : Deferred) : Json :=
  .object [("node", deferred.node.toJson), ("discriminator", deferred.discriminator)]

def decoder : Decoder Deferred :=
  .record ["node", "discriminator"] 2 fun levels fields => do
    let node ← Decoder.required "node" NodeId.decoder levels fields
    let discriminator ← Decoder.required "discriminator" .json levels fields
    pure { node, discriminator }

end Deferred

namespace Gathered

def toJson (found : Gathered) : Json :=
  .object
    [("definition_refs",
       .object (found.occurrences.map fun ids => Json.list (ids.map NodeId.toJson)).entries),
     ("recursive_refs", .list (found.recursive.toList.map Json.text)),
     ("deferred_discriminators", .list (found.deferred.map Deferred.toJson))]

def fieldNames : List String := ["definition_refs", "recursive_refs", "deferred_discriminators"]

def decoder : Decoder Gathered :=
  .record fieldNames 3 fun levels fields => do
    let occurrences ←
      Decoder.required "definition_refs" (.object (.list NodeId.decoder)) levels fields
    let recursive ← Decoder.required "recursive_refs" .names levels fields
    let deferred ←
      Decoder.required "deferred_discriminators" (.list Deferred.decoder) levels fields
    pure { occurrences, recursive, deferred }

end Gathered

end SchemaGraph
