import Shroud.Command.Run

/-! # The compiler's command line

Reads the files that a command looks at, runs the command on them, and writes what it changed.
-/

namespace Shroud.Main

/-- What stands at a path. -/
def look (path : String) : IO (Option Node) := do
  try
    return some (.file (← IO.FS.readFile path))
  catch
    | .inappropriateType .. => return some .directory
    | _ => return none

/-- Adds what stands at a path and on the way to it. -/
def load (fs : Files) (path : String) : IO Files := do
  let mut fs := fs
  let mut place := Place.start path
  for name in Path.names path do
    place := place.step name
    if let some node ← look place.text then
      fs := fs.put place node
  return fs

def store (place : Place) : Node → IO Unit
  | .directory => IO.FS.createDirAll place.text
  | .file text => IO.FS.writeFile place.text text

def runCommand (c : Command) : IO Command.Outcome := do
  let before ← c.paths.foldlM load {}
  let (outcome, after) := c.run before
  for (place, node) in Files.changed before after do
    store place node
  return outcome

end Shroud.Main

def main (args : List String) : IO UInt32 := do
  let outcome ← match Shroud.Command.read args with
    | .error u => pure u.outcome
    | .ok c => Shroud.Main.runCommand c
  for line in outcome.out do
    IO.println line
  for line in outcome.err do
    IO.eprintln line
  return outcome.status.toUInt32
