import Shroud.Settings.Basic
import Shroud.Source.Basic

/-! # Solidity contracts

The contracts that a compilation puts out. They know no owners: a private value is a ciphertext
in a buffer of words.
-/

namespace Shroud

namespace Solidity

inductive DataType where
  | bool
  | uint (bits : Nat)
  | int (bits : Nat)
  | address
  | addressPayable
  /-- A buffer with a ciphertext of so many words. -/
  | cipher (len : Nat)
  | key (len : Nat)
  | proof (len : Nat)
  | words (len : Option Nat)
  | mapping (key value : DataType)
  | array (elem : DataType) (len : Option Nat)
  | tuple (elems : List DataType)
  | struct (name : String)
  | contract (name : String)
deriving Repr, Inhabited

namespace DataType

/-- Whether values live in memory or in call data. -/
def isReference : DataType → Bool
  | cipher _ | key _ | proof _ | words _ | array _ _ | struct _ => true
  | _ => false

/-- The words of a buffer of fixed size. -/
def bufferLen? : DataType → Option Nat
  | cipher n | key n | proof n => some n
  | words n => n
  | _ => none

end DataType

inductive Expr where
  | bool (b : Bool)
  | number (n : Int)
  /-- A name, with the variable of the program that it stands for, if any. -/
  | ident (name : String) (var : Option VarId := none)
  | sender
  | member (base : Expr) (name : String)
  | index (base idx : Expr)
  | op (op : Operator) (args : List Expr)
  | cast (type : DataType) (e : Expr)
  /-- A call of a function. One that needs a slice of the circuit buffers has a number until the
  slice is known. -/
  | call (function : String) (args : List Expr) (site : Option Nat)
  | method (target : Expr) (name : String) (args : List Expr)
  /-- A new array of words. -/
  | newWords (len : Expr)
  | tuple (elems : List Expr)
deriving Repr, Inhabited

namespace Expr

def nat (n : Nat) : Expr := .number n

/-- A position after a base. -/
def offset (base : Expr) (n : Nat) : Expr :=
  if n = 0 then base else .op .add [base, nat n]

mutual

/-- The expression and all expressions inside it, from the outside in and from the left. -/
def subterms : Expr → List Expr
  | .member base name => .member base name :: base.subterms
  | .index base idx => .index base idx :: base.subterms ++ idx.subterms
  | .op o args => .op o args :: subtermsList args
  | .cast t e => .cast t e :: e.subterms
  | .call f args site => .call f args site :: subtermsList args
  | .method target name args => .method target name args :: target.subterms ++ subtermsList args
  | .newWords len => .newWords len :: len.subterms
  | .tuple elems => .tuple elems :: subtermsList elems
  | e => [e]

def subtermsList : List Expr → List Expr
  | [] => []
  | e :: es => e.subterms ++ subtermsList es

end

end Expr

inductive Location where
  | memory
  | calldata
deriving DecidableEq, Repr

inductive Stmt where
  | comment (text : String)
  | block (body : List Stmt)
  | cond (c : Expr) (yes : List Stmt) (no : Option (List Stmt))
  | loop (c : Expr) (body : List Stmt)
  | doLoop (body : List Stmt) (c : Expr)
  | forLoop (init : Option Stmt) (c : Option Expr) (update : Option Stmt) (body : List Stmt)
  | decl (type : DataType) (name : String) (location : Option Location) (init : Option Expr)
      (var : Option VarId := none)
  | assign (lhs rhs : Expr)
  | expr (e : Expr)
  | require (e : Expr)
  | ret (e : Option Expr)
  | leave
  | next
deriving Repr, Inhabited

structure Param where
  type : DataType
  name : String
  location : Option Location := none
deriving Repr

structure Function where
  name : String
  isConstructor : Bool := false
  visibility : Visibility
  mutability : Mutability
  params : List Param := []
  returns : List DataType := []
  body : List Stmt := []
deriving Repr

structure StateVar where
  type : DataType
  name : String
  isConstant : Bool := false
  init : Option Expr := none
deriving Repr

structure Struct where
  name : String
  fields : List (DataType × String)
deriving Repr

structure Contract where
  name : String
  imports : List String := []
  /-- The instances of the key infrastructure and of verifiers. -/
  instances : List StateVar := []
  stateVars : List StateVar := []
  structs : List Struct := []
  functions : List Function := []
deriving Repr

namespace Contract

def function? (c : Contract) (name : String) : Option Function :=
  c.functions.find? fun f => f.name == name

def constructor? (c : Contract) : Option Function := c.functions.find? fun f => f.isConstructor

end Contract

end Solidity

mutual

/-- The Solidity type of the data. -/
def DataType.toSolidity (s : Settings) : DataType → Solidity.DataType
  | .bool | .boolLit _ => .bool
  | .uint n => .uint n
  | .int n => .int n
  | .numberLit v => if v < 0 then .int (Literal.width v) else .uint (Literal.width v)
  | .address => .address
  | .addressPayable => .addressPayable
  | .mapping k _ v => .mapping (k.toSolidity s) (v.toSolidity s)
  | .array e n => .array (e.toSolidity s) n
  | .tuple es => .tuple (OwnedType.toSolidityList s es)
  | .cipher => .cipher s.sizes.cipherLen
  | .key => .key s.sizes.keyLen
  | .randomness => .words (some s.sizes.randomnessLen)
  | .proof => .proof s.scheme.proofLen

/-- The Solidity type of a value: a private one is a ciphertext. -/
def OwnedType.toSolidity (s : Settings) : OwnedType → Solidity.DataType
  | .mk t .all => t.toSolidity s
  | .mk _ _ => .cipher s.sizes.cipherLen

def OwnedType.toSolidityList (s : Settings) : List OwnedType → List Solidity.DataType
  | [] => []
  | t :: ts => t.toSolidity s :: OwnedType.toSolidityList s ts

end

end Shroud
