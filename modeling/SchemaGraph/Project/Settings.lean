import SchemaGraph.Json.Decode
import SchemaGraph.Json.Printer
import SchemaGraph.Project.Disk
import SchemaGraph.Reference.Gather

/-!
The settings of a project and the file that holds them. Saving writes a file beside the old one and
renames it at the end, so a save that fails leaves the old settings in force.
-/

namespace SchemaGraph

/-- The settings of a project. -/
structure Settings where
  version : UInt32 := 1
  discriminatorKey : String := defaultDiscriminatorKey
  invalidKey : String := "invalid"
  inlineSingleUse : Bool := true
deriving DecidableEq, Inhabited

namespace Settings

/-! ### JSON -/

def toJson (s : Settings) : Json :=
  .object
    [("version", .ofNat s.version.toNat),
     ("discriminator_key", .text s.discriminatorKey),
     ("invalid_key", .text s.invalidKey),
     ("inline_single_use", .bool s.inlineSingleUse)]

def fieldNames : List String :=
  ["version", "discriminator_key", "invalid_key", "inline_single_use"]

/-- Reads settings; a field that is left out has its default. -/
def decoder : Decoder Settings :=
  .record fieldNames 0 fun levels fields => do
    let defaults : Settings := {}
    let version ← Decoder.withDefault "version" defaults.version .word32 levels fields
    let discriminatorKey ←
      Decoder.withDefault "discriminator_key" defaults.discriminatorKey .text levels fields
    let invalidKey ← Decoder.withDefault "invalid_key" defaults.invalidKey .text levels fields
    let inlineSingleUse ←
      Decoder.withDefault "inline_single_use" defaults.inlineSingleUse .bool levels fields
    pure { version, discriminatorKey, invalidKey, inlineSingleUse }

/-! ### The file -/

def directoryName : String := ".schema-resolve"
def fileName : String := "config.json"
def temporaryName : String := "config.tmp"

def directory (project : String) : Path := ⟨project, [directoryName]⟩

def file (project : String) : Path := ⟨project, [directoryName, fileName]⟩

/-- The file that a save writes first. -/
def temporaryFile (project : String) : Path := ⟨project, [directoryName, temporaryName]⟩

variable {m : Type → Type} [Monad m]

/-- The settings of a project; the defaults if there is no file. -/
def load (disk : Disk m) (project : String) : m (Except Error Settings) := do
  if ← disk.isThere (file project) then
    match ← disk.readText (file project) with
    | none => pure (.error (.settings (.unreadable (file project).text)))
    | some text =>
      match decoder.ofText? text with
      | none => pure (.error (.settings (.unparsable (file project).text)))
      | some settings => pure (.ok settings)
  else pure (.ok {})

/-- Saves the settings of a project: makes the directory, writes the temporary file, renames it. -/
def save (disk : Disk m) (project : String) (settings : Settings) : m (Except Error Unit) := do
  if ← disk.makeDirectories (directory project) then
    if ← disk.writeText (temporaryFile project) settings.toJson.pretty then
      if ← disk.rename (temporaryFile project) (file project) then pure (.ok ())
      else
        pure (.error (.settings
          (.notRenamed (temporaryFile project).text (file project).text)))
    else pure (.error (.settings (.notWritten (temporaryFile project).text)))
  else pure (.error (.settings (.directoryNotMade (directory project).text)))

end Settings

end SchemaGraph
