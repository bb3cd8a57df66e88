import Shroud.Literal.Bits

/-! # Integer literals

Constants are exact; only their results are held against the 256 bits of a machine word.
-/

namespace Shroud

/-- The value of a constant expression. -/
inductive Literal where
  | number (n : Int)
  | bool (b : Bool)
deriving DecidableEq, Repr, Inhabited

namespace Literal

/-- Bits of a machine word. -/
def wordBits : Nat := 256

/-- Bits of the smallest representation: two's complement for negative numbers, unsigned for all
others. -/
def minBits : Int → Nat
  | .ofNat n => max (Bits.length n) 1
  | .negSucc n => Bits.length n + 1

/-- The width of a literal's type: whole bytes, at least one and at most a machine word. -/
def width (v : Int) : Nat :=
  let bits := min (minBits v) wordBits
  max ((bits + 7) / 8 * 8) 8

def fitsWord (v : Int) : Bool := minBits v ≤ wordBits

/-- Whether an unsigned integer of `bits` bits holds `v`. -/
def fitsUnsigned (v : Int) (bits : Nat) : Bool :=
  match v with
  | .ofNat n => Bits.length n ≤ bits
  | .negSucc _ => false

/-- Whether a signed integer of `bits` bits holds `v`. -/
def fitsSigned (v : Int) (bits : Nat) : Bool :=
  match v with
  | .ofNat n => Bits.length n + 1 ≤ bits
  | .negSucc n => Bits.length n + 1 ≤ bits

end Literal

end Shroud
