/-! # Operators

The built-in operators, with their written form, the number of their operands, and the classes
that the rules of the language speak about.
-/

namespace Shroud

inductive Operator where
  | add | sub | mul | div | mod | pow | neg
  | lt | gt | le | ge | eq | ne
  | and | or | not
  | bitAnd | bitOr | bitXor | bitNot
  | shl | shr
  | ite | paren
deriving DecidableEq, Repr, Inhabited

namespace Operator

def all : List Operator :=
  [add, sub, mul, div, mod, pow, neg, lt, gt, le, ge, eq, ne, and, or, not,
    bitAnd, bitOr, bitXor, bitNot, shl, shr, ite, paren]

/-- The written form. -/
def symbol : Operator → String
  | add => "+"
  | sub => "-"
  | neg => "-"
  | mul => "*"
  | div => "/"
  | mod => "%"
  | pow => "**"
  | lt => "<"
  | gt => ">"
  | le => "<="
  | ge => ">="
  | eq => "=="
  | ne => "!="
  | and => "&&"
  | or => "||"
  | not => "!"
  | bitAnd => "&"
  | bitOr => "|"
  | bitXor => "^"
  | bitNot => "~"
  | shl => "<<"
  | shr => ">>"
  | ite => "?:"
  | paren => "()"

/-- The name in JSON: the written form, where that names one operator only. -/
def tag : Operator → String
  | neg => "sign-"
  | ite => "ite"
  | paren => "parenthesis"
  | op => op.symbol

def ofTag? (tag : String) : Option Operator := all.find? fun op => op.tag == tag

def arity : Operator → Nat
  | neg | not | bitNot | paren => 1
  | ite => 3
  | _ => 2

def isArithmetic : Operator → Bool
  | add | sub | mul | div | mod | pow | neg => true
  | _ => false

def isComparison : Operator → Bool
  | lt | gt | le | ge => true
  | _ => false

def isEquality : Operator → Bool
  | eq | ne => true
  | _ => false

def isLogical : Operator → Bool
  | and | or | not => true
  | _ => false

def isBitwise : Operator → Bool
  | bitAnd | bitOr | bitXor | bitNot => true
  | _ => false

def isShift : Operator → Bool
  | shl | shr => true
  | _ => false

/-- Operators that evaluate their later operands only on a condition. -/
def isLazy : Operator → Bool
  | and | or | ite => true
  | _ => false

/-- The operands that an operator takes. -/
inductive Operand where
  | number
  | bool
  | any
deriving DecidableEq, Repr

def operand (op : Operator) : Operand :=
  if op.isArithmetic || op.isComparison || op.isBitwise || op.isShift then .number
  else if op.isLogical then .bool
  else .any

def returnsBool (op : Operator) : Bool := op.isComparison || op.isEquality || op.isLogical

/-- Whether arithmetic constraints can express the operator. -/
def hasEncoding : Operator → Bool
  | div | mod | pow => false
  | _ => true

end Operator

end Shroud
