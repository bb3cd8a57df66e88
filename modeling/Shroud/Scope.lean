import Shroud.Error
import Shroud.Program.Basic

/-! # Scopes

Resolving the names of a source unit. A name stands for the innermost declaration before it: of
the blocks around it, then of the parameters, then of the contract's state. A call stands for the
one function of the contract with that name and number of parameters.
-/

namespace Shroud.Scope

/-- Names with the variables that they stand for. -/
abbrev Frame := List (String × VarId)

/-- Where resolution stands. -/
structure Env where
  contract : ContractId
  contractName : String
  function : Option (FunctionId × String) := none
  /-- The functions that can be called, with the numbers of their parameters. -/
  callable : List (String × FunctionId × Nat) := []

def Env.context (env : Env) (span : Span) : Context :=
  ⟨span, env.function.map Prod.snd, some env.contractName⟩

/-- Open frames, the innermost first, and the variables declared so far. -/
structure State where
  frames : List Frame := []
  /-- The number of identities given out. -/
  next : Nat := 0
  vars : List Variable := []

abbrev Resolve := StateT State (Except Error)

/-- The innermost variable of a name. -/
def lookup? (frames : List Frame) (name : String) : Option VarId :=
  frames.findSome? fun f => f.lookup name

/-- Opens a name in the innermost frame. -/
def declareName (env : Env) (name : String) (span : Span) : Resolve VarId := do
  let s ← get
  let frame := s.frames.headD []
  if (frame.lookup name).isSome then throw (.name (.declaredTwice name) (env.context span))
  let v : VarId := ⟨s.next⟩
  set { s with frames := ((name, v) :: frame) :: s.frames.tail, next := s.next + 1 }
  return v

/-- Keeps the variable of a name that was opened. -/
def record (v : Variable) : Resolve Unit := modify fun s => { s with vars := s.vars ++ [v] }

def declare (env : Env) (v : Variable) : Resolve VarId := do
  let id ← declareName env v.name v.span
  record v
  return id

/-- Resolves something in a frame of its own. -/
def framed (r : Resolve α) : Resolve α := do
  modify fun s => { s with frames := [] :: s.frames }
  let a ← r
  modify fun s => { s with frames := s.frames.tail }
  return a

/-! ## Types -/

/-- An owner, within the values of a mapping whose key may have a label. -/
def owner (env : Env) (frames : List Frame) (label : Option String) (span : Span) :
    Source.Owner → Except Error Owner
  | .all => .ok .all
  | .me => .ok .me
  | .name n =>
    if label = some n then .ok (.key n)
    else match lookup? frames n with
      | some v => .ok (.var v)
      | none => .error (.name (.unknownLabel n) (env.context span))

def isWidth (bits : Nat) : Bool := 0 < bits && bits ≤ 256 && bits % 8 = 0

mutual

def dataType (env : Env) (frames : List Frame) (span : Span) :
    Source.DataType → Except Error DataType
  | .bool => .ok .bool
  | .uint bits =>
    if isWidth bits then .ok (.uint bits)
    else .error (.name (.invalidWidth bits) (env.context span))
  | .int bits =>
    if isWidth bits then .ok (.int bits)
    else .error (.name (.invalidWidth bits) (env.context span))
  | .address => .ok .address
  | .addressPayable => .ok .addressPayable
  | .mapping key label value => do
    let keyType ← dataType env frames span key
    let value ← ownedType env frames label span value
    return .mapping keyType label value
  | .array elem len => do
    let elem ← ownedType env frames none span elem
    return .array elem len

def ownedType (env : Env) (frames : List Frame) (label : Option String) (span : Span) :
    Source.OwnedType → Except Error OwnedType
  | .mk t o => do
    let t ← dataType env frames span t
    let o ← owner env frames label span o
    return .mk t o

end

/-- The type of a declaration. -/
def declaredType (env : Env) (t : Source.OwnedType) (span : Span) : Resolve OwnedType := do
  ownedType env (← get).frames none span t

/-! ## Expressions -/

/-- The one function of a name that takes so many arguments. -/
def callee (env : Env) (name : String) (arguments : Nat) (span : Span) :
    Except Error FunctionId :=
  match env.callable.filter fun (n, _, arity) => n == name && arity == arguments with
  | [(_, f, _)] => .ok f
  | [] => .error (.name (.unknownFunction name arguments) (env.context span))
  | _ => .error (.name (.ambiguousFunction name) (env.context span))

mutual

def expr (env : Env) (frames : List Frame) : Source.Expr → Except Error Expr
  | .bool span b => .ok (.bool { span } b)
  | .number span n => .ok (.number { span } n)
  | .me span => .ok (.me { span })
  | .ident span name => match lookup? frames name with
    | some v => .ok (.ident { span } v)
    | none => .error (.name (.unknownIdentifier name) (env.context span))
  | .builtin span op args => do
    if args.length ≠ op.arity then
      throw (.name (.operandCount op args.length) (env.context span))
    return .builtin { span } op (← exprs env frames args) false
  | .call span name args => do
    let f ← callee env name args.length span
    return .call { span } f (← exprs env frames args)
  | .index span base idx => do
    let base ← expr env frames base
    let idx ← expr env frames idx
    return .index { span } base idx
  | .reveal span e o => do
    let e ← expr env frames e
    let o ← owner env frames none span o
    return .reclassify { span } e o false
  | .cast span t e => do
    let t ← dataType env frames span t
    let e ← expr env frames e
    return .cast { span } t e false
  | .tuple span es => do
    return .tuple { span } (← exprs env frames es)

def exprs (env : Env) (frames : List Frame) : List Source.Expr → Except Error (List Expr)
  | [] => .ok []
  | e :: es => do
    let e ← expr env frames e
    let es ← exprs env frames es
    return e :: es

end

/-- An expression in the open frames. -/
def exprHere (env : Env) (e : Source.Expr) : Resolve Expr := do
  expr env (← get).frames e

def exprOption (env : Env) : Option Source.Expr → Resolve (Option Expr)
  | none => return none
  | some e => return some (← exprHere env e)

/-! ## Statements -/

mutual

/-- A block and a `for` open a frame of their own; any other statement declares into the frame
around it. -/
def stmt (env : Env) : Source.Stmt → Resolve Stmt
  | .block span body => framed do
    return .block { span } (← stmts env body)
  | .cond span c yes no => do
    let c ← exprHere env c
    let yes ← stmt env yes
    let no ← stmtOption env no
    return .cond { span } c yes no
  | .loop span c body => do
    let c ← exprHere env c
    let body ← stmt env body
    return .loop { span } c body
  | .doLoop span body c => do
    let body ← stmt env body
    let c ← exprHere env c
    return .doLoop { span } body c
  | .forLoop span init c update body => framed do
    let init ← stmtOption env init
    let c ← exprOption env c
    let update ← stmtOption env update
    let body ← stmt env body
    return .forLoop { span } init c update body
  | .decl span name type isFinal init => do
    let init ← exprOption env init
    let type ← declaredType env type span
    let v ← declare env
      { name, kind := .local_, type, isFinal, init, contract := env.contract,
        function := env.function.map Prod.fst, span }
    return .decl { span } v init
  | .assign span lhs none rhs => do
    let lhs ← exprHere env lhs
    let rhs ← exprHere env rhs
    return .assign { span } lhs rhs
  | .assign span lhs (some op) rhs => do
    let target ← exprHere env lhs
    let current ← exprHere env lhs
    let value ← exprHere env rhs
    return .assign { span } target (.builtin { span } op [current, value] false)
  | .expr span e => do
    return .expr { span } (← exprHere env e)
  | .require span e => do
    return .require { span } (← exprHere env e)
  | .ret span e => do
    return .ret { span } (← exprOption env e)
  | .leave span => return .leave { span }
  | .next span => return .next { span }

def stmts (env : Env) : List Source.Stmt → Resolve (List Stmt)
  | [] => return []
  | s :: ss => do
    let s ← stmt env s
    let ss ← stmts env ss
    return s :: ss

def stmtOption (env : Env) : Option Source.Stmt → Resolve (Option Stmt)
  | none => return none
  | some s => do
    let s ← stmt env s
    return some s

end

/-! ## Definitions -/

/-- Overloads are told apart by their position among the functions of their name. -/
def uniqueName (names : List String) (i : Nat) (name : String) : String :=
  if names.count name > 1 then name ++ "_" ++ Nat.repr ((names.take i).count name) else name

def stateVar (env : Env) (v : Source.StateVar) : Resolve Unit := do
  let type ← declaredType env v.type v.span
  let init ← exprOption env v.init
  record
    { name := v.name, kind := .state, type, isFinal := v.isFinal, isConstant := v.isConstant, init,
      contract := env.contract, span := v.span }

def param (env : Env) (v : Source.Param) : Resolve VarId := do
  let type ← declaredType env v.type v.span
  declare env
    { name := v.name, kind := .param, type, isFinal := v.isFinal, contract := env.contract,
      function := env.function.map Prod.fst, span := v.span }

/-- A function, given its identity and its unique name. -/
def function (env : Env) (id : FunctionId) (unique : String) (f : Source.Function) :
    Resolve Function := framed do
  let env := { env with function := some (id, f.name) }
  let params ← f.params.mapM (param env)
  let returns ← f.returns.mapM fun t => declaredType env t f.span
  let body ← stmt env (.block f.span f.body)
  return {
    name := f.name, uniqueName := unique, contract := env.contract, kind := f.kind,
    visibility := f.visibility, mutability := f.mutability, params, returns, body, span := f.span }

/-- The functions of a contract by name, from an identity on. -/
def callable (first : Nat) (fs : List Source.Function) : List (String × FunctionId × Nat) :=
  (fs.zipIdx first).filterMap fun (f, i) =>
    match f.kind with
    | .function => some (f.name, ⟨i⟩, f.params.length)
    | .constructor => none

/-- Resolves a contract after those before it. -/
def contract (p : Program) (c : Source.Contract) : Except Error Program := do
  let first := p.functions.length
  let names := c.functions.map Source.Function.name
  let env : Env := {
    contract := ⟨p.contracts.length⟩, contractName := c.name, callable := callable first c.functions }
  let resolve : Resolve (List VarId × List Function) := do
    let stateVars ← c.stateVars.mapM fun v => declareName env v.name v.span
    c.stateVars.forM (stateVar env)
    let functions ← c.functions.zipIdx.mapM fun (f, i) =>
      function env ⟨first + i⟩ (uniqueName names i f.name) f
    return (stateVars, functions)
  let ((stateVars, functions), s) ←
    resolve.run { frames := [[]], next := p.vars.length, vars := p.vars }
  return {
    contracts := p.contracts ++ [{
      name := c.name, stateVars,
      functions := (List.range functions.length).map fun i => ⟨first + i⟩, span := c.span }]
    functions := p.functions ++ functions
    vars := s.vars }

end Scope

/-- The program of a source unit. -/
def SourceUnit.resolve (u : SourceUnit) : Except Error Program :=
  u.contracts.foldlM Scope.contract {}

end Shroud
