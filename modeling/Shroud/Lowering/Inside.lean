import Shroud.Lowering.Expr

/-! # Statements inside circuits

An `if` with a private condition runs inside as a whole, and so does the body of a function that is
held in the place of a call. Both branches are computed, each under its guard, and joined by a
choice for every variable on which they differ.
-/

namespace Shroud.Lowering

open Circuit (Term Wire)

/-- A version of a variable, or its value outside if there is none. -/
def versionOr (env : Env) (v : VarId) : Option Wire → Lower Term
  | some w => return w.term
  | none => do
    let w ← inputVar env v
    return w.term

/-- Joins what two branches made of a name. -/
def joinVersion (env : Env) (guard : Wire) (k : Key) (yes no : Option Wire) : Lower Wire := do
  let .var v := k | throw (.internal .returnInBranch)
  let yes ← versionOr env v yes
  let no ← versionOr env v no
  let var := env.program.var v
  newVersion var.name var.type.type.toAbstract (.ite guard.term yes no)

/-- Runs two branches from the same versions and joins their ends. -/
def branches (env : Env) (guard : Wire) (yes : Lower Unit) (no : Option (Lower Unit)) :
    Lower Unit := do
  let saved := (← get).versions
  comment ("if (" ++ guard.name ++ ")")
  guarded guard true yes
  let after := (← get).versions
  modify fun s => { s with versions := saved }
  match no with
  | none => pure ()
  | some no =>
    comment ("else (" ++ guard.name ++ ")")
    guarded guard false no
  comment ("join (" ++ guard.name ++ ")")
  let joined ← after.join (← get).versions (joinVersion env guard)
  modify fun s => { s with versions := joined }

/-- The value of a variable that is declared without one. -/
def zero (t : DataType) : Term := if t.isBool then .bool false else .number 0

/-- Assigns values to variables, one after another. -/
def assignVars (env : Env) : List Expr → List Term → Lower Unit
  | .ident _ v :: ts, value :: values => do
    assignVar env v value
    assignVars env ts values
  | t :: _, _ :: _ => throw (env.unsupported .circuitTarget t.span)
  | _, _ => return ()

/-- The values of a tuple's elements. -/
def tupleValues (env : Env) : Expr → Lower (List Term)
  | .tuple _ es => circuitExprs env es
  | .call i f args => inlineCall env (.call i f args) f (circuitExprs env args)
  | e => throw (env.unsupported .tupleSource e.span)

def assign (env : Env) (lhs rhs : Expr) : Lower Unit :=
  match lhs with
  | .ident _ v => do
    let value ← circuitExpr env rhs
    assignVar env v value
  | .tuple _ targets => do
    let values ← tupleValues env rhs
    if values.length ≠ targets.length then throw (.internal .tupleLengths)
    assignVars env targets values
  | e => throw (env.unsupported .circuitTarget e.span)

/-- Binds returned values from a position on. -/
def returnValues (env : Env) (f : FunctionId) (position : Nat) : List Expr → Lower Unit
  | [] => return ()
  | e :: es => do
    let fn := env.program.function f
    if (← get).versions.isBound (.ret f position) then
      throw (.internal (.returnBoundTwice fn.name (env.context env.here.span)))
    let value ← circuitExpr env e
    let t := (fn.returns[position]?.map fun t => t.type.toAbstract).getD (.uint 256)
    let w ← newVersion (env.settings.returnVar position) t value
    bindVersion (.ret f position) w
    returnValues env f (position + 1) es

/-- The values that a `return` gives back. -/
def returnedExprs (returns : List OwnedType) (e : Expr) : List Expr :=
  match e with
  | .tuple _ es => if returns.length > 1 then es else [e]
  | e => [e]

def returnExpr (env : Env) (e : Expr) : Lower Unit := do
  match (← get).stack with
  | [] => throw (.internal .returnOutsideInlining)
  | f :: _ => returnValues env f 0 (returnedExprs (env.program.function f).returns e)

/-- Forgets the versions of variables that go out of scope. -/
def dropVars (vs : List VarId) : Lower Unit :=
  modify fun s => { s with versions := s.versions.drop (vs.map .var) }

mutual

def circuitStmt (env : Env) (s : Stmt) : Lower Unit := do
  let env := env.inStmt s
  match s with
  | .block i body =>
    circuitStmts env body
    dropVars (Stmt.block i body).scope
  | .cond _ c yes no =>
    inBlock ("if (" ++ env.program.exprText c ++ ")") do
      let guard ← compute c (circuitExpr env c)
      branches env guard (circuitStmt env yes) (circuitStmtOption env no)
  | .decl _ v init =>
    let value ← match init with
      | some e => circuitExpr env e
      | none => pure (zero (env.program.var v).type.type.toAbstract)
    assignVar env v value
  | .assign _ lhs rhs => assign env lhs rhs
  | .expr _ e => discard (circuitExpr env e)
  | .ret _ (some e) => returnExpr env e
  | .ret _ none => return ()
  | s => throw (env.unsupported .statementInCircuit s.span)

def circuitStmts (env : Env) (ss : List Stmt) : Lower Unit := do
  match ss with
  | [] => return ()
  | s :: ss =>
    circuitStmt env s
    circuitStmts env ss

def circuitStmtOption (env : Env) (s : Option Stmt) : Option (Lower Unit) :=
  match s with
  | none => none
  | some s => some (circuitStmt env s)

end

/-- Gives parameters their arguments. -/
def bindParams (env : Env) : List VarId → List Term → Lower Unit
  | v :: vs, value :: values => do
    assignVar env v value
    bindParams env vs values
  | _, _ => return ()

/-- A value that a held function has returned. -/
def returnedValue (env : Env) (f : FunctionId) (i : Nat) : Lower Term := do
  match (← get).versions.get? (.ret f i) with
  | some w => return w.term
  | none => throw (.internal (.returnUnbound (env.program.function f).name i))

/-- Holds the body of a function, with at most the given number of functions inside each other. -/
def inlineBody (env : Env) : Nat → FunctionId → List Term → Lower (List Term)
  | 0, f, _ => throw (.internal (.recursiveInlining (env.program.function f).name))
  | depth + 1, f, values => do
    let fn := env.program.function f
    let env := { env with
      here := { function := f, span := fn.span }
      inline := inlineBody env depth }
    bindParams env fn.params values
    circuitStmt env fn.body
    (List.range fn.returns.length).mapM (returnedValue env f)

/-- Moves in what a statement reads of the variables around it. -/
def inputReads (env : Env) (s : Stmt) : List VarId → Lower Unit
  | [] => return ()
  | v :: vs => do
    if s.declaresOutside v && (env.program.var v).type.type.isPrimitive then
      let w ← inputVar env v
      assignVar env v w.term
    inputReads env s vs

/-- Publishes the last versions of what a statement writes of the variables around it. -/
def outputWrites (env : Env) (s : Stmt) : List VarId → Lower (List (VarId × Solidity.Expr))
  | [] => return []
  | v :: vs => do
    if !s.declaresOutside v then outputWrites env s vs
    else
      let var := env.program.var v
      let some w := (← get).versions.get? (.var v) | throw (.internal (.noValue var.name))
      let value ← output env var.type.owner var.type.type.toAbstract w.name (return w)
      let rest ← outputWrites env s vs
      return (v, value) :: rest

/-- Runs a whole statement inside, and gives the public assignment of what it writes. -/
def runInside (env : Env) (s : Stmt) : Lower (List Solidity.Stmt) := do
  if !(← get).versions.isEmpty then throw (.internal .liveBindings)
  let env := env.inStmt s
  let written ← inBlock (env.program.stmtText s) do
    inputReads env s s.info.read
    circuitStmt env s
    outputWrites env s s.info.modified
  modify fun st => { st with versions := .empty }
  let name (v : VarId) : Solidity.Expr := .ident (env.program.varName v) v
  return match written with
    | [] => []
    | [(v, value)] => [.assign (name v) value]
    | _ => [.assign (.tuple (written.map fun w => name w.1)) (.tuple (written.map Prod.snd))]

end Shroud.Lowering
