import Shroud.Sorted
import Shroud.Text.Basic

/-! # Files

The files that a command sees, as a finite map from places to texts and directories. A path is
followed name by name, and every name but the last has to lead to a directory. Names and paths have
limits on their length in bytes.
-/

namespace Shroud

/-- The names from the working directory to a file or a directory. A place elsewhere starts with
`..` or with `/`. -/
abbrev Place := List String

namespace Place

/-- The working directory, those above it, and the root. -/
def isBase (p : Place) : Bool := p.all fun name => name == ".." || name == "/"

def up (p : Place) : Place :=
  if p.head? == some "/" && p.length == 1 then p
  else if p.isBase then p ++ [".."]
  else p.dropLast

/-- Where a name leads to. -/
def step (p : Place) : String → Place
  | "" => p
  | "." => p
  | ".." => p.up
  | name => p ++ [name]

/-- Where a path starts. -/
def start (path : String) : Place := if path.toList.head? == some '/' then ["/"] else []

/-- Whether a place is below the working directory. -/
def isInside (p : Place) : Bool := match p.head? with
  | some name => name != ".." && name != "/"
  | none => true

def text (p : Place) : String := String.intercalate "/" p

end Place

namespace Path

def names (path : String) : List String := Text.split '/' path

/-- The bytes that a name may have. -/
def nameLimit : Nat := 255

/-- The bytes that a path may have. -/
def limit : Nat := 4095

/-- Whether a name stays where it is. -/
def isIdle (name : String) : Bool := name == "" || name == "."

/-- The path of a file in a directory. -/
def child (directory name : String) : String :=
  if directory.toList.getLast? == some '/' then directory ++ name else directory ++ "/" ++ name

end Path

inductive Node where
  | file (text : String)
  | directory
deriving DecidableEq, Repr

structure Files where
  nodes : List (Place × Node) := []
deriving DecidableEq, Repr, Inhabited

namespace Files

inductive Error where
  | missing
  /-- A file stands where a directory is to be made. -/
  | occupied
  | notDirectory
  | isDirectory
  | tooLong
deriving DecidableEq, Repr

def Error.message : Error → String
  | missing => "No such file or directory (os error 2)"
  | occupied => "File exists (os error 17)"
  | notDirectory => "Not a directory (os error 20)"
  | isDirectory => "Is a directory (os error 21)"
  | tooLong => "File name too long (os error 36)"

def find? (fs : Files) (p : Place) : Option Node :=
  if p.isBase then some .directory else Sorted.find? fs.nodes p

def put (fs : Files) (p : Place) (n : Node) : Files := ⟨Sorted.put p n fs.nodes⟩

/-- Follows names from a place. -/
def walk (fs : Files) (p : Place) : List String → Except Error Place
  | [] => .ok p
  | name :: rest =>
    match fs.find? p with
    | none => .error .missing
    | some (.file _) => .error .notDirectory
    | some .directory =>
      if name.utf8ByteSize > Path.nameLimit then .error .tooLong else fs.walk (p.step name) rest

/-- The place of a path. -/
def locate (fs : Files) (path : String) : Except Error Place :=
  if path.utf8ByteSize > Path.limit then .error .tooLong
  else fs.walk (Place.start path) (Path.names path)

def isThere (fs : Files) (path : String) : Bool :=
  match fs.locate path with
  | .ok p => (fs.find? p).isSome
  | .error _ => false

def read (fs : Files) (path : String) : Except Error String := do
  let p ← fs.locate path
  match fs.find? p with
  | some (.file text) => .ok text
  | some .directory => .error .isDirectory
  | none => .error .missing

/-- Writes a file, in favour of the new text. -/
def write (fs : Files) (path text : String) : Except Error Files := do
  let p ← fs.locate path
  match fs.find? p with
  | some .directory => .error .isDirectory
  | _ => .ok (fs.put p (.file text))

/-- Whether names lead from a place to a directory. -/
def isDirectory (fs : Files) (start : Place) (names : List String) : Bool :=
  match fs.walk start names with
  | .ok p => fs.find? p == some .directory
  | .error _ => false

/-- Makes a directory in one that is there. Its name has to be a new one. -/
def makeOne (fs : Files) (start : Place) (names : List String) : Except Error Files := do
  let names := (names.reverse.dropWhile String.isEmpty).reverse
  let p ← fs.walk start names
  match names.getLast? with
  | none | some "." | some ".." => .error .occupied
  | some _ => if (fs.find? p).isSome then .error .occupied else .ok (fs.put p .directory)

/-- Makes a directory if it is not there. -/
def makeNew (fs : Files) (start : Place) (names : List String) : Except Error Unit × Files :=
  match fs.makeOne start names with
  | .ok fs => (.ok (), fs)
  | .error fault => (if fs.isDirectory start names then .ok () else .error fault, fs)

/-- Makes a directory if it is not there. If its parent is missing, that is made first, and stays
also if the directory cannot be made then. -/
def makeAfter (fs : Files) (start : Place) (names : List String)
    (parent : Files → Except Error Unit × Files) : Except Error Unit × Files :=
  match fs.makeOne start names with
  | .error .missing =>
    match parent fs with
    | (.ok (), fs) => fs.makeNew start names
    | failed => failed
  | _ => fs.makeNew start names

/-- Makes the directories that lead to a place, given the names to it from the last to the
first. -/
def makeUp (start : Place) : List String → Files → Except Error Unit × Files
  | [], fs => (.ok (), fs)
  | name :: above, fs =>
    if Path.isIdle name then makeUp start above fs
    else fs.makeAfter start (name :: above).reverse (makeUp start above)

/-- Makes a directory and those that lead to it. -/
def makeDirectory (fs : Files) (path : String) : Except Error Unit × Files :=
  if path.utf8ByteSize > Path.limit then (.error .tooLong, fs)
  else
    let names := Path.names path
    let above := (names.reverse.dropWhile Path.isIdle).tail
    fs.makeAfter (Place.start path) names (makeUp (Place.start path) above)

/-- Adds a file with the directories that lead to it. -/
def add (fs : Files) (p : Place) (text : String) : Files :=
  let parents := ((List.range p.length).map p.take).filter fun q => !Place.isBase q
  (parents.foldl (fun fs q => fs.put q .directory) fs).put p (.file text)

/-- The files that some paths and their texts stand for. -/
def ofList (files : List (String × String)) : Files :=
  files.foldl (fun fs f => fs.add ((Path.names f.1).foldl Place.step (Place.start f.1)) f.2) {}

/-- What is new in `after` or differs there, directories before what is in them. -/
def changed (before after : Files) : List (Place × Node) :=
  after.nodes.filter fun (p, n) => before.find? p != some n

/-- The files below the working directory that are new in `after` or have another text there. -/
def written (before after : Files) : List (String × String) :=
  (changed before after).filterMap fun (p, n) =>
    match n with
    | .file text => if p.isInside then some (p.text, text) else none
    | .directory => none

end Files

end Shroud
