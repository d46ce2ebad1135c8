/-!
The arguments of the command line. The option for the project may stand before or behind the name of
the command; where it stands at both places the one behind counts.
-/

namespace SchemaGraph

/-- What is asked for. -/
inductive Command where
  | init
  | gather (file : String) (json : Bool)
  | simplify (file : String) (inline : Bool)
  | refs (file : String)
  | invalid (file : String)
  | check (file : String)
deriving DecidableEq, Repr

/-- A command and the directory of the project, if it is given. -/
structure Invocation where
  project : Option String
  command : Command
deriving DecidableEq, Repr

namespace Arguments

/-! ### Options and operands -/

inductive Flag where
  | json
  | noInline
deriving DecidableEq, Repr

/-- The parts of the arguments at one level: each option at most once. -/
structure Parts where
  project : Option String := none
  flags : List Flag := []
  operands : List String := []

def Parts.setProject? (parts : Parts) (project : String) : Option Parts :=
  if parts.project.isSome then none else some { parts with project := some project }

def Parts.addFlag? (parts : Parts) (flag : Flag) : Option Parts :=
  if flag ∈ parts.flags then none else some { parts with flags := flag :: parts.flags }

def Parts.addOperand (parts : Parts) (operand : String) : Parts :=
  { parts with operands := parts.operands ++ [operand] }

/-- Text after a hyphen is an option; a hyphen alone is not. -/
def isOption (arg : String) : Bool :=
  match arg.toList with
  | '-' :: _ :: _ => true
  | _ => false

inductive OptionUse where
  | project (value : String)
  | projectNext
  | flag (flag : Flag)
deriving DecidableEq, Repr

/-- An option spelled out, without its two hyphens. -/
def longOption? (allowed : List Flag) (name : List Char) : Option OptionUse :=
  let project := "project".toList
  if name = project then some .projectNext
  else if (project ++ ['=']).isPrefixOf name then
    some (.project (String.ofList (name.drop (project.length + 1))))
  else if name = "json".toList ∧ .json ∈ allowed then some (.flag .json)
  else if name = "no-inline".toList ∧ .noInline ∈ allowed then some (.flag .noInline)
  else none

/-- The options of a run of letters. The letter of the project takes the rest of the run as its
value, or the next argument if there is no rest. -/
def shortOptions? (allowed : List Flag) : List Char → Option (List OptionUse)
  | [] => some []
  | 'p' :: [] => some [.projectNext]
  | 'p' :: '=' :: rest => some [.project (String.ofList rest)]
  | 'p' :: rest => some [.project (String.ofList rest)]
  | 'j' :: rest =>
    if .json ∈ allowed then (shortOptions? allowed rest).map (.flag .json :: ·) else none
  | _ => none

/-- The options in an argument. -/
def options? (allowed : List Flag) (arg : String) : Option (List OptionUse) :=
  match arg.toList with
  | '-' :: '-' :: name => (longOption? allowed name).map ([·])
  | '-' :: letters => shortOptions? allowed letters
  | _ => none

/-- Takes options into the parts. The second result says that the value of the last one is due. -/
def use? (parts : Parts) : List OptionUse → Option (Parts × Bool)
  | [] => some (parts, false)
  | .project value :: rest => do
    let parts ← parts.setProject? value
    use? parts rest
  | .flag flag :: rest => do
    let parts ← parts.addFlag? flag
    use? parts rest
  | .projectNext :: _ => if parts.project.isSome then none else some (parts, true)

/-- Takes the arguments of a command apart. After `--` all are operands. -/
def scan? (allowed : List Flag) (parts : Parts) : List String → Option Parts
  | [] => some parts
  | "--" :: rest => some (rest.foldl Parts.addOperand parts)
  | arg :: rest =>
    if isOption arg then
      match (options? allowed arg).bind (use? parts) with
      | none => none
      | some (parts, false) => scan? allowed parts rest
      | some (parts, true) =>
        match rest with
        | [] => none
        | value :: rest =>
          if isOption value then none
          else (parts.setProject? value).bind fun parts => scan? allowed parts rest
    else scan? allowed (parts.addOperand arg) rest

/-! ### Commands -/

/-- The one operand of a command that reads a file; its name must not be empty. -/
def fileOperand? (parts : Parts) : Option String :=
  match parts.operands with
  | [file] => if file.isEmpty then none else some file
  | _ => none

/-- The command of a name, and its project. -/
def command? (name : String) (args : List String) : Option (Command × Option String) :=
  match name with
  | "init" => do
    let parts ← scan? [] {} args
    if parts.operands.isEmpty then some (.init, parts.project) else none
  | "gather" => do
    let parts ← scan? [.json] {} args
    let file ← fileOperand? parts
    some (.gather file (.json ∈ parts.flags), parts.project)
  | "simplify" => do
    let parts ← scan? [.noInline] {} args
    let file ← fileOperand? parts
    some (.simplify file (.noInline ∉ parts.flags), parts.project)
  | "refs" => do
    let parts ← scan? [] {} args
    let file ← fileOperand? parts
    some (.refs file, parts.project)
  | "invalid" => do
    let parts ← scan? [] {} args
    let file ← fileOperand? parts
    some (.invalid file, parts.project)
  | "check" => do
    let parts ← scan? [] {} args
    let file ← fileOperand? parts
    some (.check file, parts.project)
  | _ => none

/-- Reads the arguments from the first one on: the project's option, then the command. -/
def start? (parts : Parts) : List String → Option Invocation
  | [] => none
  | "--" :: _ => none
  | arg :: rest =>
    if isOption arg then
      match (options? [] arg).bind (use? parts) with
      | none => none
      | some (parts, false) => start? parts rest
      | some (parts, true) =>
        match rest with
        | [] => none
        | value :: rest =>
          if isOption value then none
          else (parts.setProject? value).bind fun parts => start? parts rest
    else
      (command? arg rest).map fun (command, project) =>
        { project := project <|> parts.project, command }

end Arguments

/-- Reads a whole command line; none if it is not used as it should be. -/
def Invocation.ofArguments? (args : List String) : Option Invocation := Arguments.start? {} args

end SchemaGraph
