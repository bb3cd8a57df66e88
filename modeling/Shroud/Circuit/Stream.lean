import Shroud.Circuit.Step
import Shroud.Settings.Basic

/-! # Streams of circuit variables

Each kind of circuit variable is issued by a stream of its own. The order of issue fixes the names
and the layout of the buffer that carries the values.
-/

namespace Shroud.Circuit

/-- The place of a variable in its buffer, in words. -/
structure Slot where
  name : String
  type : DataType
  offset : Nat
  size : Nat
deriving DecidableEq

def Slot.toJson (s : Slot) : Json :=
  .obj [("name", .str s.name), ("ty", s.type.toJson), ("offset", .ofNat s.offset),
    ("size", .ofNat s.size)]

structure Stream where
  base : String
  role : Role
  settings : Settings
  wires : List Wire := []

namespace Stream

/-- The last part of a generated name. -/
def suffix : DataType → String
  | .key => "key"
  | .cipher => "cipher"
  | _ => "plain"

/-- The name that the next variable of a type will have. -/
def nextName (s : Stream) (t : DataType) : String :=
  s.base ++ Nat.repr s.wires.length ++ "_" ++ suffix t

/-- Issues a variable with a given name. -/
def issueAs (s : Stream) (name : String) (t : DataType) : Wire × Stream :=
  let w : Wire := ⟨name, t, s.role, none⟩
  (w, { s with wires := s.wires ++ [w] })

/-- Issues a variable with a generated name. Its origin is known to the holder only. -/
def issue (s : Stream) (t : DataType) (origin : Option Term) : Wire × Stream :=
  let (w, s) := s.issueAs (s.nextName t) t
  ({ w with origin := origin }, s)

/-- Records where the first issued variable of a name comes from. -/
def setOrigin (s : Stream) (name : String) (e : Term) : Stream :=
  match s.wires.findIdx? fun w => w.name == name with
  | none => s
  | some i => { s with wires := s.wires.modify i fun w => { w with origin := some e } }

/-- The words that variables take. -/
def wordsOf (settings : Settings) : List Wire → Nat
  | [] => 0
  | w :: ws => w.type.words settings + wordsOf settings ws

/-- The words of all issued variables. -/
def size (s : Stream) : Nat := wordsOf s.settings s.wires

/-- Slots one after another from an offset on. -/
def layoutFrom (settings : Settings) (offset : Nat) : List Wire → List Slot
  | [] => []
  | w :: ws =>
    let size := w.type.words settings
    ⟨w.name, w.type, offset, size⟩ :: layoutFrom settings (offset + size) ws

/-- The buffer in order of issue. -/
def layout (s : Stream) : List Slot := layoutFrom s.settings 0 s.wires

end Stream

end Shroud.Circuit
