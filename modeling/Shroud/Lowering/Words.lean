import Shroud.Circuit.Stream
import Shroud.Solidity.Basic

/-! # Words

Circuit buffers hold words of 256 bits. Every slot of the circuit's data is read from words before
a body and written to words after it.
-/

namespace Shroud.Lowering

/-- The slots that are whole buffers. -/
def isBuffer : DataType → Bool
  | .cipher | .key | .randomness => true
  | _ => false

/-- The value of a type that a word encodes. -/
def fromWord (t : DataType) (w : Solidity.Expr) : Solidity.Expr :=
  match t with
  | .bool => .op .ne [w, .nat 0]
  | .address => .cast .address (.cast (.uint 160) w)
  | .addressPayable => .cast .addressPayable (.cast (.uint 160) w)
  | .uint n => if n = 256 then w else .cast (.uint n) w
  | .int n => if n = 256 then .cast (.int 256) w else .cast (.int n) (.cast (.int 256) w)
  | _ => w

/-- The word that encodes a value of a type. -/
def toWord (t : DataType) (v : Solidity.Expr) : Solidity.Expr :=
  match t with
  | .bool => .op .ite [v, .nat 1, .nat 0]
  | .address | .addressPayable => .cast (.uint 256) (.cast (.uint 160) v)
  | .uint n => if n = 256 then v else .cast (.uint 256) v
  | .int n => if n = 256 then .cast (.uint 256) v else .cast (.uint 256) (.cast (.int 256) v)
  | _ => v

/-- A word of a buffer, counted from a start. -/
def word (buffer start : Solidity.Expr) (offset : Nat) : Solidity.Expr :=
  .index buffer (.offset start offset)

/-- Reads a slot of the data from words. -/
def readSlot (slot : Circuit.Slot) (wordAt : Nat → Solidity.Expr) (member : Solidity.Expr) :
    List Solidity.Stmt :=
  if isBuffer slot.type then
    (List.range slot.size).map fun i => .assign (.index member (.nat i)) (wordAt (slot.offset + i))
  else [.assign member (fromWord slot.type (wordAt slot.offset))]

/-- Writes a slot of the data to words. -/
def writeSlot (slot : Circuit.Slot) (wordAt : Nat → Solidity.Expr) (member : Solidity.Expr) :
    List Solidity.Stmt :=
  if isBuffer slot.type then
    (List.range slot.size).map fun i => .assign (wordAt (slot.offset + i)) (.index member (.nat i))
  else [.assign (wordAt slot.offset) (toWord slot.type member)]

end Shroud.Lowering
