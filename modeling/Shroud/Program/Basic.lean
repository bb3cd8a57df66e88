import Shroud.DataType.Describe
import Shroud.Partition
import Shroud.Source.Basic

/-! # Programs

The resolved form of a source unit. Names are identities, and expressions and statements have room
for what the analyses find out about them.
-/

namespace Shroud

/-- What is known about an expression. -/
structure Expr.Info where
  span : Span
  type? : Option OwnedType := none
  /-- Whether the circuit computes the value. -/
  inCircuit : Bool := false
deriving DecidableEq, Inhabited

inductive Expr where
  | bool (info : Expr.Info) (b : Bool)
  | number (info : Expr.Info) (n : Int)
  | me (info : Expr.Info)
  | ident (info : Expr.Info) (v : VarId)
  /-- An operator; a private one works on values that only the sender sees. -/
  | builtin (info : Expr.Info) (op : Operator) (args : List Expr) (isPrivate : Bool)
  | call (info : Expr.Info) (f : FunctionId) (args : List Expr)
  | index (info : Expr.Info) (base idx : Expr)
  /-- A change of the owner; an implicit one is not written in the source. -/
  | reclassify (info : Expr.Info) (e : Expr) (owner : Owner) (implicit : Bool)
  | cast (info : Expr.Info) (type : DataType) (e : Expr) (implicit : Bool)
  | tuple (info : Expr.Info) (elems : List Expr)

namespace Expr

instance : Inhabited Expr := ⟨.me default⟩

def info : Expr → Info
  | bool i _ | number i _ | me i | ident i _ | builtin i _ _ _ | call i _ _ | index i _ _
  | reclassify i _ _ _ | cast i _ _ _ | tuple i _ => i

def span (e : Expr) : Span := e.info.span

/-- The type of a checked expression. -/
def type (e : Expr) : OwnedType := e.info.type?.getD default

def isPrivate (e : Expr) : Bool := match e.info.type? with
  | some t => t.isPrivate
  | none => false

def children : Expr → List Expr
  | builtin _ _ args _ | call _ _ args => args
  | tuple _ es => es
  | index _ base idx => [base, idx]
  | reclassify _ e _ _ | cast _ _ e _ => [e]
  | bool _ _ | number _ _ | me _ | ident _ _ => []

/-- The label that an expression stands for as an owner. -/
def label? : Expr → Option Label
  | me _ => some .me
  | ident _ v => some (.var v)
  | _ => none

end Expr

/-- What is known before and after a statement about the owners that are equal. -/
structure Flow where
  before : Partition Label
  after : Partition Label
deriving DecidableEq, Inhabited

/-- What is known about a statement. -/
structure Stmt.Info where
  span : Span
  modified : List VarId := []
  read : List VarId := []
  flow? : Option Flow := none
deriving DecidableEq, Inhabited

inductive Stmt where
  | block (info : Stmt.Info) (body : List Stmt)
  | cond (info : Stmt.Info) (c : Expr) (yes : Stmt) (no : Option Stmt)
  | loop (info : Stmt.Info) (c : Expr) (body : Stmt)
  | doLoop (info : Stmt.Info) (body : Stmt) (c : Expr)
  | forLoop (info : Stmt.Info) (init : Option Stmt) (c : Option Expr) (update : Option Stmt)
      (body : Stmt)
  | decl (info : Stmt.Info) (v : VarId) (init : Option Expr)
  | assign (info : Stmt.Info) (lhs rhs : Expr)
  | expr (info : Stmt.Info) (e : Expr)
  | require (info : Stmt.Info) (e : Expr)
  | ret (info : Stmt.Info) (e : Option Expr)
  | leave (info : Stmt.Info)
  | next (info : Stmt.Info)

namespace Stmt

instance : Inhabited Stmt := ⟨.leave default⟩

def info : Stmt → Info
  | block i _ | cond i _ _ _ | loop i _ _ | doLoop i _ _ | forLoop i _ _ _ _ | decl i _ _
  | assign i _ _ | expr i _ | require i _ | ret i _ | leave i | next i => i

def span (s : Stmt) : Span := s.info.span

def before? (s : Stmt) : Option (Partition Label) := s.info.flow?.map Flow.before

def isLoop : Stmt → Bool
  | loop _ _ _ | doLoop _ _ _ | forLoop _ _ _ _ _ => true
  | _ => false

end Stmt

namespace Variable

inductive Kind where
  | state
  | param
  | local_
deriving DecidableEq, Repr, Inhabited

end Variable

/-- A declared name. -/
structure Variable where
  name : String
  kind : Variable.Kind
  type : OwnedType
  isFinal : Bool := false
  isConstant : Bool := false
  init : Option Expr := none
  contract : ContractId
  function : Option FunctionId := none
  span : Span
deriving Inhabited

namespace Variable

def isState (v : Variable) : Bool := v.kind = .state

/-- Whether the value never changes once it is set. -/
def isFixed (v : Variable) : Bool := v.isFinal || v.isConstant

end Variable

namespace Function

/-- What the analyses find out about a function. -/
structure Facts where
  /-- Called functions in order of their first calls. -/
  calls : List FunctionId := []
  /-- The functions that can be reached by one call or more, in ascending order. -/
  reached : List FunctionId := []
  isRecursive : Bool := false
  /-- No loops and no recursion. -/
  isStatic : Bool := true
  hasEffects : Bool := false
  /-- The state that the function and everything it reaches writes. -/
  modified : List VarId := []
  read : List VarId := []
  /-- Whether a circuit can hold the body in the place of a call. -/
  canBePrivate : Bool := false
  /-- Whether the function does private work, itself or in what it calls. -/
  isVerified : Bool := false
  /-- Whether a call from outside needs a proof. -/
  isVerifiedOutside : Bool := false
deriving DecidableEq, Inhabited

end Function

structure Function where
  name : String
  /-- The name that tells overloads apart. -/
  uniqueName : String
  contract : ContractId
  kind : FunctionKind
  visibility : Visibility
  mutability : Mutability
  params : List VarId
  returns : List OwnedType
  body : Stmt
  span : Span
  facts : Function.Facts := {}
deriving Inhabited

namespace Function

def isConstructor (f : Function) : Bool := f.kind = .constructor

def canBeExternal (f : Function) : Bool :=
  (match f.visibility with
    | .pub | .external => true
    | .internal | .priv => false) || f.isConstructor

end Function

structure Contract where
  name : String
  stateVars : List VarId
  functions : List FunctionId
  span : Span
deriving Inhabited

/-- Contracts with all their functions and variables, by identity. -/
structure Program where
  contracts : List Contract := []
  functions : List Function := []
  vars : List Variable := []
deriving Inhabited

/-- The definitions around a piece of code. -/
structure Site where
  function : Option FunctionId := none
  contract : ContractId
deriving DecidableEq, Inhabited

namespace Program

def var (p : Program) (v : VarId) : Variable := p.vars.getD v.index default

def function (p : Program) (f : FunctionId) : Function := p.functions.getD f.index default

def contract (p : Program) (c : ContractId) : Contract := p.contracts.getD c.index default

def contractIds (p : Program) : List ContractId := (List.range p.contracts.length).map ContractId.mk

def functionIds (p : Program) : List FunctionId := (List.range p.functions.length).map FunctionId.mk

def varIds (p : Program) : List VarId := (List.range p.vars.length).map VarId.mk

def varName (p : Program) (v : VarId) : String := (p.var v).name

def isState (p : Program) (v : VarId) : Bool := (p.var v).isState

/-- The first function of a contract with a name. -/
def functionNamed? (p : Program) (c : ContractId) (name : String) : Option FunctionId :=
  (p.contract c).functions.find? fun f => (p.function f).name == name

def describe (p : Program) (t : OwnedType) : String := t.describe p.varName

def describeOwner (p : Program) (o : Owner) : String := o.describe p.varName

def describeLabel (p : Program) (l : Label) : String := p.describeOwner l.owner

/-! ## Places -/

def context (p : Program) (site : Site) (span : Span) : Context where
  span := span
  function := site.function.map fun f => (p.function f).name
  contract := some (p.contract site.contract).name

/-- The definitions around a function's body. -/
def site (p : Program) (f : FunctionId) : Site := ⟨some f, (p.function f).contract⟩

def functionContext (p : Program) (f : FunctionId) (span : Span) : Context :=
  p.context (p.site f) span

def varContext (p : Program) (v : VarId) : Context :=
  p.context ⟨(p.var v).function, (p.var v).contract⟩ (p.var v).span

/-- Changes every function by its identity. -/
def mapFunctions (p : Program) (g : FunctionId → Function → Function) : Program :=
  { p with functions := p.functions.mapIdx fun i f => g ⟨i⟩ f }

end Program

end Shroud
