import Shroud.Lowering.Inside

/-! # Lowering statements

The public form of a body. Before a statement stands what prepares the circuit's inputs for it.
Constraints inside a public branch hold only if the branch is taken.
-/

namespace Shroud.Lowering

def isBlock : Stmt → Bool
  | .block _ _ => true
  | _ => false

/-- A lowered statement with what prepares it. -/
def prepared (env : Env) (s : Stmt) (act : Lower (List Solidity.Stmt)) :
    Lower (List Solidity.Stmt) := do
  let (lowered, pre) ← takePre act
  return if pre.isEmpty then lowered
    else .comment ("Preparing circuit inputs for: " ++ env.program.stmtText s) :: pre ++ lowered

/-- A statement in a list, given its content: a block stays one. -/
def inList (env : Env) (s : Stmt) (content : Lower (List Solidity.Stmt)) :
    Lower (List Solidity.Stmt) :=
  prepared env s <| if isBlock s then do
    let body ← content
    return [.block body]
  else content

/-- The body of a branch or a loop, given its content: a block needs no further braces. -/
def asBody (env : Env) (s : Stmt) (content : Lower (List Solidity.Stmt)) :
    Lower (List Solidity.Stmt) :=
  if isBlock s then content else prepared env s content

/-- What stands for the values that a function returns. -/
def returnTargets (s : Settings) (count : Nat) : Solidity.Expr :=
  if count = 1 then .ident (s.returnVar 0)
  else .tuple ((List.range count).map fun i => .ident (s.returnVar i))

/-- A `return`. In a function with a circuit it stores into the returned variables, because the
inputs have to be written out after it. -/
def lowerReturn (env : Env) (span : Span) (isLast : Bool) (e : Option Expr) :
    Lower (List Solidity.Stmt) := do
  let f := env.program.function env.function
  if !f.facts.isVerified then
    match e with
    | none => return [.ret none]
    | some e =>
      let e ← publicExpr env e
      return [.ret (some e)]
  else if !isLast then throw (env.unsupported .earlyReturn span)
  else match e with
    | none => return []
    | some e =>
      let e ← publicExpr env e
      return [.assign (returnTargets env.settings f.returns.length) e]

def publicExprOption (env : Env) : Option Expr → Lower (Option Solidity.Expr)
  | none => return none
  | some e => do
    let e ← publicExpr env e
    return some e

def lowerDecl (env : Env) (v : VarId) (init : Option Expr) : Lower (List Solidity.Stmt) := do
  let var := env.program.var v
  let t := var.type.toSolidity env.settings
  let init ← publicExprOption env init
  return [.decl t var.name (if t.isReference then some .memory else none) init v]

mutual

/-- The content of a statement: that of a block is its statements. The last statement of a
function's body may be a `return`. -/
def lower (env : Env) (isLast : Bool) (s : Stmt) : Lower (List Solidity.Stmt) := do
  let env := env.inStmt s
  match s with
  | .block _ body => lowerList env false body
  | .cond i c yes no =>
    if c.isPrivate then runInside env (.cond i c yes no)
    else if !stmtTouchesCircuit env.program yes && !no.any (stmtTouchesCircuit env.program) then
      let c ← publicExpr env c
      let yes ← asBody env yes (lower env false yes)
      let no ← lowerElse env none no
      return [.cond c yes no]
    else
      let guard ← inputExpr env c (publicExpr env c) (circuitExpr env c)
      let c ← if c.type.type.isLiteral then publicExpr env c else pure (env.member guard)
      let yes ← guarded guard true (asBody env yes (lower env false yes))
      let no ← lowerElse env (some guard) no
      return [.cond c yes no]
  | .loop _ c body =>
    let c ← publicExpr env c
    let body ← asBody env body (lower env false body)
    return [.loop c body]
  | .doLoop _ body c =>
    let body ← asBody env body (lower env false body)
    let c ← publicExpr env c
    return [.doLoop body c]
  | .forLoop _ init c update body =>
    let init ← lowerOption env init
    let c ← publicExprOption env c
    let update ← lowerOption env update
    let update ← match update with
      | none => pure none
      | some [s] => pure (some s)
      | some _ => throw (.internal .updateSplit)
    let body ← asBody env body (lower env false body)
    let init := init.getD []
    return init.dropLast ++ [.forLoop init.getLast? c update body]
  | .decl _ v init => lowerDecl env v init
  | .assign _ lhs rhs =>
    let lhs ← publicExpr env lhs
    let rhs ← publicExpr env rhs
    return [.assign lhs rhs]
  | .expr _ e =>
    let e ← publicExpr env e
    return [.expr e]
  | .require _ e =>
    let e ← publicExpr env e
    return [.require e]
  | .ret i e => lowerReturn env i.span isLast e
  | .leave _ => return [.leave]
  | .next _ => return [.next]

def lowerList (env : Env) (isBody : Bool) (ss : List Stmt) : Lower (List Solidity.Stmt) := do
  match ss with
  | [] => return []
  | s :: ss =>
    let s ← inList env s (lower env (isBody && ss.isEmpty) s)
    let ss ← lowerList env isBody ss
    return s ++ ss

/-- The second branch of an `if`, guarded if the first one is. -/
def lowerElse (env : Env) (guard : Option Circuit.Wire) (s : Option Stmt) :
    Lower (Option (List Solidity.Stmt)) := do
  match s with
  | none => return none
  | some s =>
    let content := asBody env s (lower env false s)
    let no ← match guard with
      | some w => guarded w false content
      | none => content
    return some no

/-- A statement in the head of a `for`. -/
def lowerOption (env : Env) (s : Option Stmt) : Lower (Option (List Solidity.Stmt)) := do
  match s with
  | none => return none
  | some s =>
    let s ← inList env s (lower env false s)
    return some s

end

/-- The environment of a function's body. -/
def Env.ofFunction (p : Program) (s : Settings) (owners : List Label) (f : FunctionId) : Env :=
  let env : Env := {
    program := p, settings := s, function := f, owners
    here := { function := f, span := (p.function f).span }
    inline := fun _ _ => throw (.internal .returnOutsideInlining) }
  { env with inline := inlineBody env p.functions.length }

/-- The public form of a function's body. -/
def functionBody (env : Env) : Lower (List Solidity.Stmt) :=
  match (env.program.function env.function).body with
  | .block _ body => lowerList env true body
  | s => asBody env s (lower env false s)

end Shroud.Lowering
