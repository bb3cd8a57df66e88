/-! # Bits of integers

The bitwise operations on integers as infinite two's complement, and the number of bits of an
integer's smallest representation.
-/

namespace Shroud.Bits

/-- The number of binary digits of a natural number; zero has none. -/
def length (n : Nat) : Nat := if n = 0 then 0 else n.log2 + 1

/-- The bits of `m` that are not bits of `n`. -/
def without (m n : Nat) : Nat := m ^^^ (m &&& n)

def complement : Int → Int
  | .ofNat n => .negSucc n
  | .negSucc n => .ofNat n

def and : Int → Int → Int
  | .ofNat m, .ofNat n => .ofNat (m &&& n)
  | .ofNat m, .negSucc n => .ofNat (without m n)
  | .negSucc m, .ofNat n => .ofNat (without n m)
  | .negSucc m, .negSucc n => .negSucc (m ||| n)

def or : Int → Int → Int
  | .ofNat m, .ofNat n => .ofNat (m ||| n)
  | .ofNat m, .negSucc n => .negSucc (without n m)
  | .negSucc m, .ofNat n => .negSucc (without m n)
  | .negSucc m, .negSucc n => .negSucc (m &&& n)

def xor : Int → Int → Int
  | .ofNat m, .ofNat n => .ofNat (m ^^^ n)
  | .ofNat m, .negSucc n => .negSucc (m ^^^ n)
  | .negSucc m, .ofNat n => .negSucc (m ^^^ n)
  | .negSucc m, .negSucc n => .ofNat (m ^^^ n)

/-- Multiplication by a power of two. -/
def shiftLeft (a : Int) (n : Nat) : Int := a <<< n

/-- Division by a power of two, rounding down. -/
def shiftRight (a : Int) (n : Nat) : Int := a >>> n

end Shroud.Bits
