import Shroud.Typing.Expr

/-! # Typed programs

The rules for declarations and statements.
-/

namespace Shroud.Typing

/-! ## Declarations -/

/-- Why an owner cannot be declared for some data. -/
def ownerFault? (p : Program) (t : DataType) (o : Owner) : Option TypeFault :=
  match unfixedOwner? p o with
  | some v => some (.labelNotFixed (p.varName v))
  | none =>
    if !o.isPrivate || t.canBePrivate then none
    else if t = .int 256 then some .privateWidest
    else some (.privateCompound (p.describe (.mk t o)))

mutual

/-- The first fault of a declared type, from the outside in. -/
def declaredFault? (p : Program) : OwnedType → Option TypeFault
  | .mk t o => (ownerFault? p t o).or (dataFault? p t)

def dataFault? (p : Program) : DataType → Option TypeFault
  | .mapping keyType _ value =>
    if !keyType.isPrimitive then some .mappingKey else declaredFault? p value
  | .array elem _ => declaredFault? p elem
  | _ => none

end

def checkDeclared (p : Program) (t : OwnedType) (c : Context) : Check Unit :=
  match declaredFault? p t with
  | some fault => throw (.type fault c)
  | none => return ()

/-- The owners that those who call a function can make sense of. -/
def isOwnerOutside : Owner → Bool
  | .all | .me => true
  | _ => false

/-! ## Statements -/

/-- A public truth value, as loops and requirements need it. -/
def openCondition (env : Env) (c : Expr) : Check Expr := do
  let c ← expr env c
  if fit env c.type (.ofAll .bool) ≠ .exact then throw (env.mismatch (.ofAll .bool) c)
  return c

def openConditionOption (env : Env) : Option Expr → Check (Option Expr)
  | none => return none
  | some c => do
    let c ← openCondition env c
    return some c

/-- The condition of a branch, which may be the sender's secret. -/
def branchCondition (env : Env) (c : Expr) : Check Expr := do
  let c ← expr env c
  if !c.type.type.isBool then throw (env.mismatch (.mk .bool c.type.owner) c)
  if c.type.isPrivate && !env.isAccessible c.type then throw (env.mismatch (.ofMe .bool) c)
  return c

mutual

/-- Whether something can be stored into an expression. -/
def checkTarget (env : Env) : Expr → Check Unit
  | .ident i v =>
    if (env.program.var v).isConstant then
      throw (env.fault (.constantModified (env.program.varName v)) i.span)
    else return ()
  | .index _ base _ => checkTarget env base
  | .tuple _ es => checkTargets env es
  | e => throw (env.fault .notLocation e.span)

def checkTargets (env : Env) : List Expr → Check Unit
  | [] => return ()
  | e :: es => do
    checkTarget env e
    checkTargets env es

end

/-- The value that a function returns. -/
def returnValue (env : Env) (span : Span) (e : Option Expr) : Check (Option Expr) := do
  let returns := (env.site.function.map fun f => (env.program.function f).returns).getD []
  match e, returns with
  | none, [] => return none
  | some e, [] => throw (env.fault .noReturnValue e.span)
  | none, _ => throw (env.fault .missingReturnValue span)
  | some e, returns =>
    let e ← expr env e
    let e ← coerce env e (returned returns)
    return some e

mutual

def stmt (env : Env) (s : Stmt) : Check Stmt := do
  let env := { env with before? := s.before? }
  match s with
  | .block i body =>
    let body ← stmts env body
    return .block i body
  | .cond i c yes no =>
    let c ← branchCondition env c
    let yes ← stmt env yes
    let no ← stmtOption env no
    return .cond i c yes no
  | .loop i c body =>
    let c ← openCondition env c
    let body ← stmt env body
    return .loop i c body
  | .doLoop i body c =>
    let c ← openCondition env c
    let body ← stmt env body
    return .doLoop i body c
  | .forLoop i init c update body =>
    let init ← stmtOption env init
    let c ← openConditionOption env c
    let body ← stmt env body
    let update ← stmtOption env update
    return .forLoop i init c update body
  | .decl i v none =>
    checkDeclared env.program (env.program.var v).type (env.program.varContext v)
    return .decl i v none
  | .decl i v (some e) =>
    checkDeclared env.program (env.program.var v).type (env.program.varContext v)
    let e ← expr env e
    let e ← coerce env e (env.program.var v).type
    return .decl i v (some e)
  | .assign i lhs rhs =>
    let lhs ← expr env lhs
    checkTarget env lhs
    let rhs ← expr env rhs
    let rhs ← coerce env rhs lhs.type
    return .assign i lhs rhs
  | .expr i e =>
    let e ← expr env e
    return .expr i e
  | .require i e =>
    let e ← openCondition env e
    return .require i e
  | .ret i e =>
    let e ← returnValue env i.span e
    return .ret i e
  | .leave i => return .leave i
  | .next i => return .next i

def stmts (env : Env) (ss : List Stmt) : Check (List Stmt) := do
  match ss with
  | [] => return []
  | s :: ss =>
    let s ← stmt env s
    let ss ← stmts env ss
    return s :: ss

def stmtOption (env : Env) (s : Option Stmt) : Check (Option Stmt) := do
  match s with
  | none => return none
  | some s =>
    let s ← stmt env s
    return some s

end

/-! ## Definitions -/

def isReclassify : Expr → Bool
  | .reclassify _ _ _ _ => true
  | _ => false

/-- Whether an expression has a private part. -/
def hasPrivate (e : Expr) : Bool := e.subterms.any fun x => x.isPrivate || isReclassify x

/-- Checks a state variable. Its initializer is public. -/
def stateVar (p : Program) (v : VarId) : Check Program := do
  let var := p.var v
  checkDeclared p var.type (p.varContext v)
  match var.init with
  | none => return p
  | some e =>
    let env : Env := { program := p, site := ⟨none, var.contract⟩ }
    let e ← expr env e
    let e ← coerce env e var.type
    if hasPrivate e then throw (.type .privateInitializer (p.varContext v))
    return { p with vars := p.vars.modify v.index fun var => { var with init := some e } }

def param (p : Program) (v : VarId) : Check Unit := do
  if !isOwnerOutside (p.var v).type.owner then throw (.type .parameterOwner (p.varContext v))
  checkDeclared p (p.var v).type (p.varContext v)

def function (p : Program) (id : FunctionId) : Check Program := do
  let f := p.function id
  let c := p.functionContext id f.span
  f.params.forM (param p)
  f.returns.forM fun t => do
    if f.canBeExternal && !isOwnerOutside t.owner then throw (.type .returnOwner c)
    checkDeclared p t c
  let body ← stmt { program := p, site := p.site id } f.body
  return { p with functions := p.functions.modify id.index fun f => { f with body } }

/-- Checks a contract: its state in order, then its functions. -/
def contract (p : Program) (c : ContractId) : Check Program := do
  let p ← (p.contract c).stateVars.foldlM stateVar p
  (p.contract c).functions.foldlM function p

end Typing

/-- The program with all types and implicit conversions. -/
def Program.withTypes (p : Program) : Typing.Check Program :=
  p.contractIds.foldlM Typing.contract p

end Shroud
