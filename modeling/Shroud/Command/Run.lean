import Shroud.Command.Failure
import Shroud.Command.Help
import Shroud.Compile
import Shroud.Source.Json

/-! # Running commands

A command reads files, prints lines, and ends with a status. Only a compilation that succeeds
writes: its contracts, its circuits, and a manifest, unless the directory holds the results of a
compilation with other settings.
-/

namespace Shroud.Command

structure Outcome where
  status : Nat := 0
  out : List String := []
  err : List String := []
deriving DecidableEq, Repr

def contractName : String := "contract.sol"

def circuitsName : String := "circuits.json"

def Options.apply (o : Options) (s : Settings) : Except Failure Settings := do
  let s ← match o.backend with
    | none => .ok s
    | some name =>
      match Backend.ofName? name with
      | none => .error (.settings (.unknownBackend name))
      | some b => .ok { s with backend := b }
  let s := { s with hashThreshold := o.threshold.getD s.hashThreshold }
  match s.validate with
  | .error fault => .error (.settings fault)
  | .ok () => .ok s

/-- The settings that options give, on top of those in a file. -/
def Options.settings (o : Options) (fs : Files) : Except Failure Settings := do
  let s ← match o.config with
    | none => .ok {}
    | some path =>
      match fs.read path with
      | .error fault => .error (.settingsFile path fault)
      | .ok text =>
        match (Json.parse? text).bind Settings.ofJson? with
        | none => .error .settingsText
        | some s => .ok s
  o.apply s

def loadUnit (fs : Files) (path : String) : Except Failure SourceUnit :=
  match fs.read path with
  | .error fault => .error (.unitFile path fault)
  | .ok text =>
    match SourceUnit.ofText? text with
    | none => .error .unitText
    | some u => .ok u

/-- The result of an analysis without its warnings. -/
def result {α : Type} (check : Typing.Check α) : Except Failure α :=
  match (check.run.run []).1 with
  | .error fault => .error (.program fault)
  | .ok a => .ok a

/-- Refuses a directory that holds the results of a compilation with other settings. -/
def checkPrevious (fs : Files) (output : String) (s : Settings) : Except Failure Unit :=
  let path := Path.child output Manifest.fileName
  if fs.isThere path then
    match Manifest.load (fs.read path) with
    | .error fault => .error (.manifest path fault)
    | .ok m =>
      match m.checkCompatible s with
      | .error fault => .error (.incompatible fault)
      | .ok () => .ok ()
  else .ok ()

/-- Everything that comes before the first write of a compilation. -/
def prepare (fs : Files) (input output : String) (force : Bool) (o : Options) :
    Except Failure (Settings × Compilation) := do
  let s ← o.settings fs
  let u ← loadUnit fs input
  if !force then checkPrevious fs output s
  let c ← result (u.compile s)
  return (s, c)

/-- A file to write, and the failure if that is not possible. -/
structure Task where
  path : String
  text : String
  failure : Files.Error → Failure

/-- Writes files in order, up to the first that cannot be written. -/
def writeAll (fs : Files) : List Task → Except Failure Unit × Files
  | [] => (.ok (), fs)
  | t :: rest =>
    match fs.write t.path t.text with
    | .error fault => (.error (t.failure fault), fs)
    | .ok fs => writeAll fs rest

def circuitsText (c : Compilation) : String := (Json.ofList Circuit.toJson c.circuits).pretty

/-- The files of a compilation. -/
def tasks (output : String) (s : Settings) (c : Compilation) : List Task :=
  let contract := Path.child output contractName
  let circuits := Path.child output circuitsName
  [⟨contract, c.render, .contractFile contract⟩,
    ⟨circuits, circuitsText c, .circuitsFile circuits⟩,
    ⟨Path.child output Manifest.fileName, (Manifest.new s contractName c.verifiers).save,
      .manifestFile⟩]

def save (fs : Files) (output : String) (s : Settings) (c : Compilation) :
    Except Failure Unit × Files :=
  match fs.makeDirectory output with
  | (.error fault, fs) => (.error (.outputDirectory output fault), fs)
  | (.ok (), fs) => writeAll fs (tasks output s c)

def summary (output : String) (c : Compilation) : List String :=
  [s!"✅ Compiled {c.contracts.length} contract(s)", s!"   Circuits: {c.circuits.length}"] ++
    c.verifiers.map ("   Verifier: " ++ ·) ++ ["   Output: " ++ Text.quoted output]

/-- The functions whose calls come with proofs. -/
def proofLines (p : Program) : List String :=
  p.functionIds.filterMap fun id =>
    let f := p.function id
    if f.facts.isVerifiedOutside || f.facts.isVerified then
      some s!"   {(p.contract f.contract).name}.{f.name} requires a proof"
    else none

def sizeLine (title : String) (own callees : Nat) : String :=
  s!"   {title} {own} (+{callees} from calls)"

def circuitLines (c : Circuit) : List String :=
  ["", s!"   {c.contract}.{c.function}"] ++ (c.verifier.map ("   Verifier: " ++ ·)).toList ++
    [sizeLine "Inputs: " c.inSize c.calleeInSize, sizeLine "Outputs:" c.outSize c.calleeOutSize,
      sizeLine "Secret: " c.secretSize c.calleeSecretSize] ++
    (if c.keys.isEmpty then [] else ["   Keys:    " ++ String.intercalate ", " c.keys]) ++
    (if c.usesHash then ["   Public arguments are hashed"] else [])

def describe (s : Settings) (c : Compilation) : List String :=
  [s!"📋 Backend: {s.backend.name} ({s.scheme.name})"] ++
    (if c.circuits.isEmpty then ["   No function requires a proof"] else []) ++
    c.circuits.flatMap circuitLines

def checked (fs : Files) (input : String) : Except Failure (List String) := do
  let u ← loadUnit fs input
  let p ← result u.check
  return "✅ No errors found" :: proofLines p

def described (fs : Files) (input : String) (o : Options) : Except Failure (List String) := do
  let s ← o.settings fs
  let u ← loadUnit fs input
  let c ← result (u.compile s)
  return describe s c

/-- What is printed, or why not. -/
def outcome : Except Failure (List String) → Outcome
  | .ok out => { out }
  | .error f => { status := 1, err := f.lines }

/-- Runs a command on files. -/
def run (fs : Files) : Command → Outcome × Files
  | .check input => (outcome (checked fs input), fs)
  | .info input o => (outcome (described fs input o), fs)
  | .compile input output force o =>
    match prepare fs input output force o with
    | .error f => (outcome (.error f), fs)
    | .ok (s, c) =>
      let (saved, fs) := save fs output s c
      (outcome (saved.map fun _ => summary output c), fs)

/-- The paths that a command may look at. -/
def paths : Command → List String
  | .check input => [input]
  | .info input o => input :: o.config.toList
  | .compile input output _ o =>
    input :: o.config.toList ++
      [contractName, circuitsName, Manifest.fileName].map (Path.child output)

/-- What is printed for a line that is no command. -/
def Usage.outcome : Usage → Outcome
  | help t => { out := t.helpLines }
  | refused => { status := 2, err := ["error: invalid arguments", "", Topic.usage .top] }

/-- Runs a command line on files. -/
def runLine (fs : Files) (args : List String) : Outcome × Files :=
  match read args with
  | .error u => (u.outcome, fs)
  | .ok c => run fs c

end Shroud.Command
