import Shroud.Lowering.Basic

/-! # Lowering expressions

Every expression has a public form, in which circuit outputs stand for what is computed inside,
and a form inside the circuit, in which inputs stand for what the contract reads.
-/

namespace Shroud.Lowering

/-- Whether lowering an expression involves the circuit. -/
def touchesCircuit (p : Program) (e : Expr) : Bool :=
  e.subterms.any fun x => x.info.inCircuit || match x with
    | .reclassify _ _ _ _ => true
    | .call _ f _ => (p.function f).facts.isVerified
    | _ => false

def stmtTouchesCircuit (p : Program) (s : Stmt) : Bool := s.exprs.any (touchesCircuit p)

/-- The constant that stands for an expression inside, if constants are folded. -/
def constant? (s : Settings) (e : Expr) : Option Circuit.Term :=
  if !s.foldsConstants then none
  else match e.type.type with
    | .numberLit v => some (.number v)
    | .boolLit b => some (.bool b)
    | _ => none

/-- An expression's constant, or else its term. -/
def constantOr (s : Settings) (e : Expr) (asTerm : Lower Circuit.Term) : Lower Circuit.Term :=
  match constant? s e with
  | some t => return t
  | none => asTerm

/-- Whether a lazy operand is evaluated if the first operand holds. -/
def lazyPolarity (op : Operator) (position : Nat) : Bool :=
  !(op = .or || (op = .ite && position = 2))

/-- The public condition under which a lazy operand is evaluated. -/
def lazyCondition (guard : Solidity.Expr) (holds : Bool) : Solidity.Expr :=
  if holds then guard else .op .not [guard]

/-- Holds a function's body in the place of a call, in a block of its own. Only versions of state
survive the call. -/
def inlineCall (env : Env) (e : Expr) (f : FunctionId) (args : Lower (List Circuit.Term)) :
    Lower (List Circuit.Term) := do
  if (← get).stack.contains f then
    throw (.internal (.recursiveInlining (env.program.function f).name))
  let saved := (← get).versions
  let results ← inBlock ("INLINED " ++ env.program.exprText e) do
    let values ← args
    modify fun s => { s with stack := f :: s.stack }
    let results ← env.inline f values
    modify fun s => { s with stack := s.stack.tail }
    return results
  modify fun s => { s with versions := s.versions.rollback saved fun
    | .var v => env.program.isState v
    | .ret _ _ => false }
  return results

mutual

/-- The public form of an expression. -/
def publicExpr (env : Env) : Expr → Lower Solidity.Expr
  | .bool _ b => return .bool b
  | .number _ n => return .number n
  | .me _ => return .sender
  | .ident _ v => return .ident (env.program.varName v) v
  | .index _ base idx => do
    let base ← publicExpr env base
    let idx ← publicExpr env idx
    return .index base idx
  | .tuple _ es => do
    let es ← publicExprs env es
    return .tuple es
  | .reclassify _ e o _ =>
    outputExpr env e o <|
      if e.info.inCircuit || e.isPrivate then compute e (circuitExpr env e)
      else inputExpr env e (publicExpr env e) (circuitExpr env e)
  | .cast i t e implicit => do
    let node := Expr.cast i t e implicit
    if i.inCircuit then
      outputExpr env node node.type.owner <| compute node <| constantOr env.settings node do
        let e ← circuitExpr env e
        return .cast t e
    else
      let e ← publicExpr env e
      return if implicit then e else .cast (t.toSolidity env.settings) e
  | .builtin i op args isPrivate => do
    let node := Expr.builtin i op args isPrivate
    if i.inCircuit then
      outputExpr env node node.type.owner <| compute node <| constantOr env.settings node do
        let args ← circuitExprs env args
        return .op op args
    else if op.isLazy && (args.drop 1).any (touchesCircuit env.program) then
      match args with
      | [] => return .op op []
      | first :: rest =>
        let guard ← inputExpr env first (publicExpr env first) (circuitExpr env first)
        let cond ← if first.type.type.isLiteral then publicExpr env first else pure (env.member guard)
        let rest ← lazyExprs env op guard cond 1 rest
        return .op op (cond :: rest)
    else
      let args ← publicExprs env args
      return .op op args
  | .call _ f args => do
    let callee := env.program.function f
    let args ← publicExprs env args
    noteCall f
    let name :=
      if callee.facts.isVerifiedOutside then env.settings.internalName callee.name else callee.name
    if callee.facts.isVerified then
      let site := (← get).calls.length
      callCircuit env.program env.settings f
      return .call name args (some site)
    else return .call name args none

def publicExprs (env : Env) : List Expr → Lower (List Solidity.Expr)
  | [] => return []
  | e :: es => do
    let e ← publicExpr env e
    let es ← publicExprs env es
    return e :: es

/-- Operands that are evaluated only if the first one has some value. What prepares their inputs
runs under the same condition as their constraints. -/
def lazyExprs (env : Env) (op : Operator) (guard : Circuit.Wire) (cond : Solidity.Expr)
    (position : Nat) : List Expr → Lower (List Solidity.Expr)
  | [] => return []
  | e :: es => do
    let holds := lazyPolarity op position
    let (value, pre) ← takePre (guarded guard holds (publicExpr env e))
    if !pre.isEmpty then addPre (.cond (lazyCondition cond holds) pre none)
    let rest ← lazyExprs env op guard cond (position + 1) es
    return value :: rest

/-- The form of an expression inside the circuit. -/
def circuitExpr (env : Env) : Expr → Lower Circuit.Term
  | .bool i b => constantOr env.settings (.bool i b) (return .bool b)
  | .number i n => constantOr env.settings (.number i n) (return .number n)
  | .me i => constantOr env.settings (.me i) do
    let w ← inputLocation env (.me i) (return .sender)
    return w.term
  | .ident i v => constantOr env.settings (.ident i v) do
    match (← get).versions.get? (.var v) with
    | some w => return w.term
    | none =>
      let w ← inputLocation env (.ident i v) (return .ident (env.program.varName v) v)
      return w.term
  | .index i base idx => constantOr env.settings (.index i base idx) do
    let w ← inputLocation env (.index i base idx) do
      let base ← publicExpr env base
      let idx ← publicExpr env idx
      return .index base idx
    return w.term
  | .reclassify i e o implicit => constantOr env.settings (.reclassify i e o implicit) do
    if e.info.inCircuit then circuitExpr env e
    else
      let w ← inputExpr env e (publicExpr env e) (circuitExpr env e)
      return w.term
  | .cast i t e implicit => constantOr env.settings (.cast i t e implicit) do
    let e ← circuitExpr env e
    return .cast t e
  | .builtin i op args isPrivate => constantOr env.settings (.builtin i op args isPrivate) do
    let args ← circuitExprs env args
    return .op op args
  | .call i f args => constantOr env.settings (.call i f args) do
    let results ← inlineCall env (.call i f args) f (circuitExprs env args)
    match results with
    | [value] => return value
    | _ => throw (env.unsupported .severalValues i.span)
  | .tuple i es => constantOr env.settings (.tuple i es) <|
    throw (env.unsupported .tupleInCircuit i.span)

def circuitExprs (env : Env) : List Expr → Lower (List Circuit.Term)
  | [] => return []
  | e :: es => do
    let e ← circuitExpr env e
    let es ← circuitExprs env es
    return e :: es

end

end Shroud.Lowering
