import Shroud.Error
import Shroud.Program.Walk

/-! # Final variables

A final state variable is assigned once: by its initializer, or by the constructor outside of
loops, where both branches of a conditional must agree on it, and never read before. Final locals
and parameters are never assigned after their declaration.
-/

namespace Shroud.FinalRule

/-- Final state variables, with whether they are assigned. -/
abbrev Assigned := List (VarId × Bool)

/-- The function whose body is checked. -/
structure Env where
  program : Program
  id : FunctionId
  inLoop : Bool := false

def Env.isConstructor (env : Env) : Bool := (env.program.function env.id).isConstructor

def Env.fault (env : Env) (fault : TypeFault) (span : Span) : Error :=
  .type fault (env.program.functionContext env.id span)

/-- Writes a whole variable. -/
def write (env : Env) (span : Span) (v : VarId) (a : Assigned) : Except Error Assigned :=
  let var := env.program.var v
  if !var.isFinal then .ok a
  else if !var.isState then .error (env.fault (.finalModified var.name) span)
  else if !env.isConstructor then .error (env.fault (.finalModifiedOutside var.name) span)
  else if env.inLoop || (Sorted.find? a v).getD false then
    .error (env.fault (.finalAssignedTwice var.name) span)
  else .ok (Sorted.put v true a)

mutual

/-- Stores into a target, one element of a tuple after another. -/
def target (env : Env) : Expr → Assigned → Except Error Assigned
  | .ident i v, a => write env i.span v a
  | .tuple _ es, a => targets env es a
  | _, a => .ok a

def targets (env : Env) : List Expr → Assigned → Except Error Assigned
  | [], a => .ok a
  | e :: es, a => do
    let a ← target env e a
    targets env es a

end

/-- Where the statement itself first reads a variable that is not assigned yet. -/
def earlyRead? (a : Assigned) (s : Stmt) : Option (Span × VarId) :=
  (s.roots.flatMap fun (u, e) => e.uses u).findSome? fun
    | (.value, .ident i v) => if Sorted.find? a v = some false then some (i.span, v) else none
    | _ => none

/-- In a constructor, nothing is read before it is assigned. -/
def reads (env : Env) (s : Stmt) (a : Assigned) : Except Error Unit :=
  if !env.isConstructor then .ok ()
  else match earlyRead? a s with
    | some (span, v) => .error (env.fault (.finalReadEarly (env.program.varName v)) span)
    | none => .ok ()

/-- The first variable on which two branches disagree. -/
def disagreement? (a b : Assigned) : Option VarId :=
  (a.find? fun (v, done) => Sorted.find? b v ≠ some done).map Prod.fst

mutual

def stmt (env : Env) (s : Stmt) (a : Assigned) : Except Error Assigned := do
  reads env s a
  match s with
  | .block _ body => stmts env body a
  | .cond i _ yes no =>
    let inYes ← stmt env yes a
    let inNo ← stmtOption env no a
    match disagreement? inYes inNo with
    | some v => .error (env.fault (.finalInOneBranch (env.program.varName v)) i.span)
    | none => .ok inYes
  | .loop _ _ body | .doLoop _ body _ => stmt { env with inLoop := true } body a
  | .forLoop _ init _ update body =>
    let a ← stmtOption env init a
    let a ← stmt { env with inLoop := true } body a
    stmtOption { env with inLoop := true } update a
  | .assign _ lhs _ => target env lhs a
  | _ => .ok a

def stmts (env : Env) (ss : List Stmt) (a : Assigned) : Except Error Assigned :=
  match ss with
  | [] => .ok a
  | s :: ss => do
    let a ← stmt env s a
    stmts env ss a

def stmtOption (env : Env) (s : Option Stmt) (a : Assigned) : Except Error Assigned :=
  match s with
  | none => .ok a
  | some s => stmt env s a

end

/-- The final state of a contract before any constructor. -/
def initial (p : Program) (c : Contract) : Assigned :=
  (c.stateVars.filter fun v => (p.var v).isFinal && !(p.var v).isConstant).map fun v =>
    (v, (p.var v).init.isSome)

/-- Checks functions in order; what a constructor assigns stays assigned. -/
def functions (p : Program) : List FunctionId → Assigned → Except Error Assigned
  | [], a => .ok a
  | f :: fs, a => do
    let after ← stmt { program := p, id := f } (p.function f).body a
    functions p fs (if (p.function f).isConstructor then after else a)

def contract (p : Program) (c : ContractId) : Except Error Unit := do
  let a ← functions p (p.contract c).functions (initial p (p.contract c))
  match a.find? fun (_, done) => !done with
  | some (v, _) => .error (.type (.finalUninitialized (p.varName v)) (p.varContext v))
  | none => .ok ()

end FinalRule

/-- Checks the rules for final variables. -/
def Program.checkFinal (p : Program) : Except Error Unit :=
  p.contractIds.forM (FinalRule.contract p)

end Shroud
