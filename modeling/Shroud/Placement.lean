import Shroud.Effects
import Shroud.Error

/-! # Placement

What runs inside circuits, which functions a circuit can hold in the place of a call, and which
functions need a proof. Programs whose private parts no circuit can hold are refused.
-/

namespace Shroud.Placement

/-! ## Functions that a circuit can hold -/

/-- Values that circuits hand in and out. -/
def isPlainValue (t : OwnedType) : Bool :=
  t.type.canBePrivate && match t.owner with
    | .all | .me => true
    | _ => false

mutual

/-- Whether an assignment changes local variables only. -/
def assignsLocals (p : Program) : Expr → Bool
  | .ident _ v => !p.isState v
  | .tuple _ es => assignsLocalsAll p es
  | _ => false

def assignsLocalsAll (p : Program) : List Expr → Bool
  | [] => true
  | e :: es => assignsLocals p e && assignsLocalsAll p es

end

/-- Whether a circuit can hold a statement, other than a final `return`. -/
def holdsStmt (p : Program) : Stmt → Bool
  | .block _ _ | .cond _ _ _ _ | .expr _ _ => true
  | .decl _ v _ => (p.var v).type.type.canBePrivate
  | .assign _ lhs _ => assignsLocals p lhs
  | _ => false

def isReturn : Stmt → Bool
  | .ret _ _ => true
  | _ => false

/-- The statements of a body, but for a `return` at its end. -/
def heldStmts : Stmt → List Stmt
  | .block i body =>
    .block i body :: Stmt.walkList (match body.getLast? with
      | some s => if isReturn s then body.dropLast else body
      | none => body)
  | s => s.walk

def hasEncoding : Expr → Bool
  | .builtin _ op _ _ => op.hasEncoding
  | _ => true

/-- Whether a circuit can hold the function, apart from what it calls. -/
def holdsOwn (p : Program) (f : Function) : Bool :=
  f.facts.isStatic && !f.facts.hasEffects && !f.facts.isRecursive &&
  (f.params.all fun v => isPlainValue (p.var v).type) && f.returns.all isPlainValue &&
  (heldStmts f.body).all (holdsStmt p) && f.body.exprs.all hasEncoding

/-- Gives a function up that calls one that has been given up. -/
def giveUp (p : Program) (held : List FunctionId) (f : FunctionId) : List FunctionId :=
  if held.contains f && (p.function f).facts.calls.any fun g => !held.contains g then held.erase f
  else held

/-- Gives functions up in rounds over all of them, until a round gives none up. Each round but the
last gives one up, so their number bounds the rounds. -/
def settle (p : Program) : Nat → List FunctionId → List FunctionId
  | 0, held => held
  | n + 1, held =>
    let next := p.functionIds.foldl (giveUp p) held
    if next.length = held.length then held else settle p n next

/-- The functions that a circuit can hold, with all that they call. -/
def heldFunctions (p : Program) : List FunctionId :=
  settle p p.functions.length (p.functionIds.filter fun f => holdsOwn p (p.function f))

/-- Records which functions a circuit can hold. -/
def recordHeld (p : Program) : Program :=
  let held := heldFunctions p
  p.mapFunctions fun id f => { f with facts := { f.facts with canBePrivate := held.contains id } }

/-! ## Marking what runs inside -/

/-- Why a function cannot be called inside a circuit. -/
def callFault? (f : Function) : Option CircuitFault :=
  if f.facts.isRecursive then some (.recursiveCall f.name)
  else if f.facts.hasEffects then some (.effectfulCall f.name)
  else if !f.facts.canBePrivate then some (.inexpressibleCall f.name)
  else none

def checkCall (p : Program) (site : FunctionId) (span : Span) (f : FunctionId) :
    Except Error Unit :=
  match callFault? (p.function f) with
  | some fault => .error (.circuit fault (p.functionContext site span))
  | none => .ok ()

/-- Whether the circuit computes an expression that does not stand inside already: an operator on
private values, or a written cast of one. -/
def entersCircuit : Expr → Bool
  | .builtin _ _ _ isPrivate => isPrivate
  | .cast _ _ e false => e.isPrivate
  | _ => false

def markIf (inside : Bool) (i : Expr.Info) : Expr.Info := { i with inCircuit := inside }

mutual

/-- Marks what the circuit computes. What changes its owner is computed inside; a location that is
read inside has its index computed outside. -/
def mark (p : Program) (site : FunctionId) (inside : Bool) : Expr → Except Error Expr
  | .bool i b => .ok (.bool (markIf inside i) b)
  | .number i n => .ok (.number (markIf inside i) n)
  | .me i => .ok (.me (markIf inside i))
  | .ident i v => .ok (.ident (markIf inside i) v)
  | .reclassify i e o implicit => do
    let e ← mark p site true e
    return .reclassify (markIf inside i) e o implicit
  | .index i base idx => do
    let base ← mark p site false base
    let idx ← mark p site false idx
    return .index (markIf inside i) base idx
  | .call i f args => do
    if inside then checkCall p site i.span f
    let args ← markAll p site inside args
    return .call (markIf inside i) f args
  | .builtin i op args isPrivate => do
    let inside := inside || isPrivate
    let args ← markAll p site inside args
    return .builtin (markIf inside i) op args isPrivate
  | .cast i t e implicit => do
    let inside := inside || entersCircuit (.cast i t e implicit)
    let e ← mark p site inside e
    return .cast (markIf inside i) t e implicit
  | .tuple i es => do
    let es ← markAll p site inside es
    return .tuple (markIf inside i) es

def markAll (p : Program) (site : FunctionId) (inside : Bool) : List Expr → Except Error (List Expr)
  | [] => .ok []
  | e :: es => do
    let e ← mark p site inside e
    let es ← markAll p site inside es
    return e :: es

end

def markOption (p : Program) (site : FunctionId) (inside : Bool) :
    Option Expr → Except Error (Option Expr)
  | none => .ok none
  | some e => do
    let e ← mark p site inside e
    return some e

/-! ## Private conditions -/

def forbidden? : Stmt → Option Forbidden
  | .loop _ _ _ | .doLoop _ _ _ | .forLoop _ _ _ _ _ => some .loop
  | .ret _ _ => some .ret
  | .require _ _ => some .require
  | .leave _ | .next _ => some .jump
  | _ => none

/-- Whether an owner is the sender before a statement. -/
def isSender (s : Stmt) (o : Owner) : Bool :=
  match o.label? with
  | some l => (s.before?.getD .empty).same l .me
  | none => false

/-- Why a variable must not be modified under a private condition. -/
def modifiedFault? (p : Program) (s : Stmt) (v : VarId) : Option CircuitFault :=
  if !s.declaresOutside v then none
  else if !(p.var v).type.type.canBePrivate then some (.compoundModified (p.varName v))
  else if !isSender s (p.var v).type.owner then some (.foreignModified (p.varName v))
  else none

/-- Whether an expression hands a value to another party. -/
def revealsTo (s : Stmt) : Expr → Bool
  | .reclassify _ _ o false => !isSender s o
  | _ => false

/-- Checks an `if` with a private condition: nobody but the sender may notice which branch is
taken. -/
def checkPrivateIf (p : Program) (site : FunctionId) (s : Stmt) : Except Error Unit := do
  let fault (f : CircuitFault) (span : Span) : Except Error Unit :=
    .error (.circuit f (p.functionContext site span))
  match s.walk.findSome? fun t => (forbidden? t).map fun what => (t, what) with
  | some (t, what) => fault (.forbiddenInPrivateIf what) t.span
  | none => .ok ()
  match s.info.modified.findSome? (modifiedFault? p s) with
  | some f => fault f s.span
  | none => .ok ()
  match s.exprs.find? (revealsTo s) with
  | some e => fault .revealInPrivateIf e.span
  | none => .ok ()

mutual

/-- Marks a statement. All of an `if` with a private condition runs inside. -/
def markStmt (p : Program) (site : FunctionId) (inside : Bool) : Stmt → Except Error Stmt
  | .cond i c yes no => do
    if !inside && c.isPrivate then checkPrivateIf p site (.cond i c yes no)
    let inside := inside || c.isPrivate
    let c ← mark p site inside c
    let yes ← markStmt p site inside yes
    let no ← markStmtOption p site inside no
    return .cond i c yes no
  | .block i body => do
    let body ← markStmts p site inside body
    return .block i body
  | .loop i c body => do
    let c ← mark p site inside c
    let body ← markStmt p site inside body
    return .loop i c body
  | .doLoop i body c => do
    let c ← mark p site inside c
    let body ← markStmt p site inside body
    return .doLoop i body c
  | .forLoop i init c update body => do
    let c ← markOption p site inside c
    let init ← markStmtOption p site inside init
    let body ← markStmt p site inside body
    let update ← markStmtOption p site inside update
    return .forLoop i init c update body
  | .decl i v init => do
    let init ← markOption p site inside init
    return .decl i v init
  | .assign i lhs rhs => do
    let lhs ← mark p site inside lhs
    let rhs ← mark p site inside rhs
    return .assign i lhs rhs
  | .expr i e => do
    let e ← mark p site inside e
    return .expr i e
  | .require i e => do
    let e ← mark p site inside e
    return .require i e
  | .ret i e => do
    let e ← markOption p site inside e
    return .ret i e
  | .leave i => .ok (.leave i)
  | .next i => .ok (.next i)

def markStmts (p : Program) (site : FunctionId) (inside : Bool) :
    List Stmt → Except Error (List Stmt)
  | [] => .ok []
  | s :: ss => do
    let s ← markStmt p site inside s
    let ss ← markStmts p site inside ss
    return s :: ss

def markStmtOption (p : Program) (site : FunctionId) (inside : Bool) :
    Option Stmt → Except Error (Option Stmt)
  | none => .ok none
  | some s => do
    let s ← markStmt p site inside s
    return some s

end

def markFunction (p : Program) (id : FunctionId) : Except Error Program := do
  let body ← markStmt p id false (p.function id).body
  return { p with functions := p.functions.modify id.index fun f => { f with body } }

/-! ## Proofs -/

/-- Whether the circuit of a function itself computes anything. -/
def isPrivateItself (f : Function) : Bool := f.body.exprs.any fun e => e.info.inCircuit

/-- Records which functions need a proof. -/
def recordVerified (p : Program) : Program :=
  let own := (p.functions.map isPrivateItself).toArray
  p.mapFunctions fun id f =>
    let isVerified := (id :: f.facts.reached).any fun g => own.getD g.index false
    let hasPrivateParam := f.params.any fun v => (p.var v).type.isPrivate
    { f with facts := { f.facts with
        isVerified
        isVerifiedOutside := f.canBeExternal && (isVerified || hasPrivateParam) } }

/-- The expressions inside loops, loop by loop. -/
def loopExprs (body : Stmt) : List Expr := (body.walk.filter Stmt.isLoop).flatMap Stmt.exprs

def isReclassify : Expr → Bool
  | .reclassify _ _ _ _ => true
  | _ => false

/-- Loops run in the open and have no private parts. -/
def checkLoops (p : Program) (id : FunctionId) : Except Error Unit :=
  match (loopExprs (p.function id).body).find? fun e =>
      e.info.inCircuit || e.isPrivate || isReclassify e with
  | some e => .error (.circuit .privateLoop (p.functionContext id e.span))
  | none => .ok ()

def verifiedCallee? (p : Program) (e : Expr) : Option FunctionId :=
  e.callee?.filter fun f => (p.function f).facts.isVerified

/-- A function with a proof is called as often as it is written, and does not call itself. -/
def checkVerified (p : Program) (id : FunctionId) : Except Error Unit := do
  let f := p.function id
  match (loopExprs f.body).findSome? fun e => (verifiedCallee? p e).map fun g => (e, g) with
  | some (e, g) =>
    .error (.circuit (.verifiedCallInLoop (p.function g).name) (p.functionContext id e.span))
  | none => .ok ()
  if f.facts.isVerified && f.facts.isRecursive then
    .error (.circuit (.recursiveVerified f.name) (p.functionContext id f.span))

end Placement

/-- The program with everything that runs inside circuits marked. -/
def Program.withPlacement (p : Program) : Except Error Program := do
  let p := Placement.recordHeld p
  let p ← p.functionIds.foldlM Placement.markFunction p
  p.functionIds.forM (Placement.checkLoops p)
  let p := Placement.recordVerified p
  p.functionIds.forM (Placement.checkVerified p)
  return p

end Shroud
