import SchemaGraph.Command.Run

/-!
The program: runs its command line on the computer's own files.
-/

namespace SchemaGraph

def succeeds (action : IO Unit) : IO Bool := do
  try
    action
    pure true
  catch _ => pure false

def ownDisk : Disk IO where
  isThere path := do
    let here ← IO.currentDir
    (here / path.text).pathExists
  readText path := do
    try
      let bytes ← IO.FS.readBinFile path.text
      pure (String.fromUTF8? bytes)
    catch _ => pure none
  makeDirectories path := succeeds (IO.FS.createDirAll path.text)
  writeText path text := succeeds (IO.FS.writeFile path.text text)
  rename source target := succeeds (IO.FS.rename source.text target.text)

end SchemaGraph

open SchemaGraph in
def main (args : List String) : IO UInt32 := do
  let here ← IO.currentDir
  let outcome ← runCommandLine ownDisk here.toString args
  IO.print outcome.output
  match outcome.errorLine with
  | some text => IO.eprintln text
  | none => pure ()
  pure (UInt32.ofNat outcome.code)
