import Shroud.Error
import Shroud.Text.Quoted

/-! # Failing commands

Why a command fails, and how that is told: the failure on the first line, and below it what is
behind it.
-/

namespace Shroud.Command

inductive Failure where
  | settingsFile (path : String) (fault : Files.Error)
  | settingsText
  | settings (fault : Settings.Error)
  | unitFile (path : String) (fault : Files.Error)
  | unitText
  /-- The manifest of an earlier compilation cannot be used. -/
  | manifest (path : String) (fault : Manifest.Error)
  /-- An earlier compilation had other settings. -/
  | incompatible (fault : Manifest.Error)
  | program (fault : Error)
  | outputDirectory (path : String) (fault : Files.Error)
  | contractFile (path : String) (fault : Files.Error)
  | circuitsFile (path : String) (fault : Files.Error)
  | manifestFile (fault : Files.Error)
deriving DecidableEq, Repr

/-- What is behind a failure. -/
inductive Cause where
  | text (message : String)
  /-- A text is not the JSON that is expected. What is wrong with it is not told. -/
  | json
deriving DecidableEq, Repr

/-- The lines of a cause. If there are several causes, each has its number. -/
def Cause.lines (number : Option Nat) : Cause → List String
  | json => ["<json error>"]
  | text message =>
    let (first, more) := match number with
      | some n => ("    " ++ Nat.repr n ++ ": ", "       ")
      | none => ("    ", "    ")
    match Text.split '\n' message with
    | [] => []
    | line :: rest => (first ++ line) :: rest.map (more ++ ·)

/-- A file's fault, told as such and as the system words it. -/
def fileCauses (fault : Files.Error) : List Cause :=
  [.text ("I/O error: " ++ fault.message), .text fault.message]

def manifestCauses (fault : Manifest.Error) : List Cause :=
  match fault with
  | .file fault => fileCauses fault
  | .unreadable => [.json, .json]
  | fault => (fault.diagnostic?.map fun d => Cause.text d.display).toList

namespace Failure

def message : Failure → String
  | settingsFile path _ => "Failed to read config file: " ++ Text.quoted path
  | settingsText => "Failed to parse config JSON"
  | settings fault => fault.diagnostic.display
  | unitFile path _ => "Failed to read source unit: " ++ Text.quoted path
  | unitText => "Failed to parse source unit JSON"
  | manifest path _ => "Failed to load existing manifest: " ++ Text.quoted path
  | incompatible _ =>
    "Output directory holds a compilation with different options (use --force to overwrite)"
  | program fault => fault.diagnostic.render none
  | outputDirectory path _ => "Failed to create output directory: " ++ Text.quoted path
  | contractFile path _ => "Failed to write contract to " ++ Text.quoted path
  | circuitsFile path _ => "Failed to write circuits to " ++ Text.quoted path
  | manifestFile _ => "Failed to write manifest"

def causes : Failure → List Cause
  | settingsText => [.json]
  | unitText => [.json, .json]
  | manifest _ fault | incompatible fault => manifestCauses fault
  | settings _ | program _ => []
  | manifestFile fault => fileCauses fault
  | settingsFile _ fault | unitFile _ fault | outputDirectory _ fault | contractFile _ fault
  | circuitsFile _ fault => [.text fault.message]

def causeLines : List Cause → List String
  | [] => []
  | [cause] => ["", "Caused by:"] ++ cause.lines none
  | causes => ["", "Caused by:"] ++ (causes.mapIdx fun i cause => cause.lines (some i)).flatten

/-- The lines that tell the failure. -/
def lines (f : Failure) : List String :=
  Text.split '\n' ("Error: " ++ f.message) ++ causeLines f.causes

end Failure

end Shroud.Command
