import Shroud.Operator.Basic
import Shroud.Span

/-! # Source units

The tree that a front end hands over: names are not resolved yet, and an owner is written as it
stands in the program.
-/

namespace Shroud

inductive FunctionKind where
  | function
  | constructor
deriving DecidableEq, Repr, Inhabited

inductive Visibility where
  | pub
  | external
  | internal
  | priv
deriving DecidableEq, Repr, Inhabited

inductive Mutability where
  | nonPayable
  | payable
  | view
  | pure
deriving DecidableEq, Repr, Inhabited

namespace Source

/-- An owner as written: `@all`, `@me` or `@name`. -/
inductive Owner where
  | all
  | me
  | name (n : String)
deriving DecidableEq, Repr, Inhabited

mutual

inductive DataType where
  | bool
  | uint (bits : Nat)
  | int (bits : Nat)
  | address
  | addressPayable
  | mapping (key : DataType) (keyLabel : Option String) (value : OwnedType)
  | array (elem : OwnedType) (len : Option Nat)
deriving Repr

inductive OwnedType where
  | mk (type : DataType) (owner : Owner)
deriving Repr

end

inductive Expr where
  | bool (span : Span) (b : Bool)
  | number (span : Span) (n : Int)
  | me (span : Span)
  | ident (span : Span) (name : String)
  | builtin (span : Span) (op : Operator) (args : List Expr)
  | call (span : Span) (function : String) (args : List Expr)
  | index (span : Span) (base idx : Expr)
  | reveal (span : Span) (e : Expr) (owner : Owner)
  | cast (span : Span) (type : DataType) (e : Expr)
  | tuple (span : Span) (elems : List Expr)
deriving Repr

inductive Stmt where
  | block (span : Span) (body : List Stmt)
  | cond (span : Span) (c : Expr) (yes : Stmt) (no : Option Stmt)
  | loop (span : Span) (c : Expr) (body : Stmt)
  | doLoop (span : Span) (body : Stmt) (c : Expr)
  | forLoop (span : Span) (init : Option Stmt) (c : Option Expr) (update : Option Stmt)
      (body : Stmt)
  | decl (span : Span) (name : String) (type : OwnedType) (isFinal : Bool) (init : Option Expr)
  /-- An assignment, combined with an operator if there is one. -/
  | assign (span : Span) (lhs : Expr) (op : Option Operator) (rhs : Expr)
  | expr (span : Span) (e : Expr)
  | require (span : Span) (e : Expr)
  | ret (span : Span) (e : Option Expr)
  | leave (span : Span)
  | next (span : Span)
deriving Repr

/-- A name stands for the variable, and a number for itself. -/
instance : Coe String Expr := ⟨.ident {}⟩

instance (n : Nat) : OfNat Expr n := ⟨.number {} n⟩

structure StateVar where
  name : String
  type : OwnedType
  isFinal : Bool := false
  isConstant : Bool := false
  init : Option Expr := none
  span : Span := {}
deriving Repr

structure Param where
  name : String
  type : OwnedType
  isFinal : Bool := false
  span : Span := {}
deriving Repr

structure Function where
  name : String
  kind : FunctionKind := .function
  visibility : Visibility := .pub
  mutability : Mutability := .nonPayable
  params : List Param := []
  returns : List OwnedType := []
  body : List Stmt := []
  span : Span := {}
deriving Repr

structure Contract where
  name : String
  stateVars : List StateVar := []
  functions : List Function := []
  span : Span := {}
deriving Repr

end Source

/-- What a front end hands over at once. -/
structure SourceUnit where
  contracts : List Source.Contract
deriving Repr

/-- A unit of one contract. -/
def SourceUnit.single (name : String) (stateVars : List Source.StateVar)
    (functions : List Source.Function) : SourceUnit := ⟨[{ name, stateVars, functions }]⟩

end Shroud
