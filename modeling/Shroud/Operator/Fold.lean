import Shroud.Literal.Basic
import Shroud.Operator.Basic

/-! # Folding constants

The value of an operator on literals. There is none where the result is undefined (division by
zero, a negative exponent or shift) or does not fit a machine word. Exponents and shifts of any
size are decided without computing huge numbers.
-/

namespace Shroud.Operator

/-- An exponent with the same power: for 0, 1 and -1 only zero and parity matter, and for any
other base an exponent above 256 leaves the machine word. -/
def exponent? (base exp : Int) : Option Nat :=
  match exp with
  | .negSucc _ => none
  | .ofNat e =>
    if base.natAbs ≤ 1 then some (if e = 0 then 0 else if e % 2 = 0 then 2 else 1)
    else if e ≤ Literal.wordBits then some e
    else none

/-- The amount of a left shift that can stay within a machine word. -/
def shift? (a b : Int) : Option Nat :=
  match b with
  | .negSucc _ => none
  | .ofNat n => if a = 0 then some 0 else if n ≤ Literal.wordBits then some n else none

/-- Right shifts beyond twice the machine word all give 0 or -1. -/
def shiftDown? (a b : Int) : Option Int :=
  match b with
  | .negSucc _ => none
  | .ofNat n => some (Bits.shiftRight a (min n (2 * Literal.wordBits)))

/-- The exact result of an operator on two numbers. -/
def foldNumbers (op : Operator) (a b : Int) : Option Literal :=
  match op with
  | add => some (.number (a + b))
  | sub => some (.number (a - b))
  | mul => some (.number (a * b))
  | div => if b = 0 then none else some (.number (a.tdiv b))
  | mod => if b = 0 then none else some (.number (a.tmod b))
  | pow => (exponent? a b).map fun e => .number (a.pow e)
  | lt => some (.bool (a < b))
  | gt => some (.bool (a > b))
  | le => some (.bool (a ≤ b))
  | ge => some (.bool (a ≥ b))
  | bitAnd => some (.number (Bits.and a b))
  | bitOr => some (.number (Bits.or a b))
  | bitXor => some (.number (Bits.xor a b))
  | shl => (shift? a b).map fun n => .number (Bits.shiftLeft a n)
  | shr => (shiftDown? a b).map .number
  | _ => none

/-- The exact result of an operator on literals. -/
def foldExact (op : Operator) (args : List Literal) : Option Literal :=
  match op, args with
  | paren, [a] => some a
  | neg, [.number a] => some (.number (-a))
  | bitNot, [.number a] => some (.number (Bits.complement a))
  | not, [.bool a] => some (.bool !a)
  | ite, [.bool c, a, b] => some (if c then a else b)
  | and, [.bool a, .bool b] => some (.bool (a && b))
  | or, [.bool a, .bool b] => some (.bool (a || b))
  | eq, [a, b] => some (.bool (a = b))
  | ne, [a, b] => some (.bool (a ≠ b))
  | op, [.number a, .number b] => foldNumbers op a b
  | _, _ => none

/-- The value of an operator on literals, if it is defined and fits a machine word. -/
def fold (op : Operator) (args : List Literal) : Option Literal :=
  match foldExact op args with
  | some (.number n) => if Literal.fitsWord n then some (.number n) else none
  | r => r

end Shroud.Operator
