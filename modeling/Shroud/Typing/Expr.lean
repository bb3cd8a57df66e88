import Shroud.Operator.Fold
import Shroud.Typing.Basic

/-! # Types of expressions

Operands come first. An operator on constants is a constant; on other public values it works in
the open; as soon as one operand is private all of them must be the sender's, and the circuit
computes the result.
-/

namespace Shroud.Typing

/-- Whether a variable can name an owner: a public address that never changes. -/
def isOwnerVar (p : Program) (v : VarId) : Bool :=
  (p.var v).isFixed && (p.var v).type.type.isAddress && (p.var v).type.owner.isAll

/-- Whether an owner is a variable that cannot name one. -/
def unfixedOwner? (p : Program) : Owner → Option VarId
  | .var v => if isOwnerVar p v then none else some v
  | _ => none

/-- Converts the index of a base, and gives the type of the element. -/
def element (env : Env) (span : Span) (base idx : Expr) : Check (Expr × OwnedType) := do
  match base.type.type with
  | .mapping keyType label value =>
    let idx ← coerce env idx (.ofAll keyType)
    if label.isNone then return (idx, value)
    let some l := idx.label? | throw (env.fault .indexNotLabel idx.span)
    match value.owner with
    | .key _ => return (idx, .mk value.type l.owner)
    | _ => return (idx, value)
  | .array elem _ =>
    if !idx.type.type.isNumeric || idx.type.isPrivate then
      throw (env.mismatch (.ofAll (.uint 256)) idx)
    return (idx, elem)
  | _ => throw (env.fault (.notIndexable (env.describe base.type)) span)

/-- The type of what a function returns. -/
def returned : List OwnedType → OwnedType
  | [t] => t
  | ts => .ofAll (.tuple ts)

/-- Arguments for parameters, one after another. -/
def arguments (env : Env) : List Expr → List OwnedType → Check (List Expr)
  | e :: es, t :: ts => do
    let e ← coerce env e t
    let es ← arguments env es ts
    return e :: es
  | es, _ => return es

/-- The type of a change of owner. -/
def reclassified (env : Env) (span : Span) (e : Expr) (o : Owner) (implicit : Bool) :
    Check OwnedType := do
  let t := e.type
  if implicit then return .mk t.type o
  if let some v := unfixedOwner? env.program o then
    throw (env.fault (.revealLabel (env.program.varName v)) span)
  if !t.type.canBePrivate && !t.type.isLiteral then
    throw (env.fault (.notRevealable (env.describe t)) span)
  if !env.isAccessible t then throw (env.fault .revealInaccessible span)
  if fit env t (.mk t.type o) = .exact then throw (env.fault .revealRedundant span)
  return .mk t.type.toAbstract o

/-- The type of a cast. -/
def castType (env : Env) (span : Span) (target : DataType) (e : Expr) (implicit : Bool) :
    Check OwnedType := do
  let t := e.type
  if !target.isPrimitive || !t.type.isPrimitive then
    throw (env.fault (.invalidCast (env.describe t) target.display) span)
  if let .numberLit v := t.type then
    if !implicit && target.isNumeric && !target.canRepresent v then
      throw (env.fault (.literalOutOfRange v target.display) span)
  if implicit || !t.isPrivate then return .mk target t.owner
  if !env.isAccessible t then throw (env.fault .castInaccessible span)
  return .ofMe target

/-! ## Operators -/

/-- The value of a constant's type. -/
def literalOf : DataType → Literal
  | .numberLit v => .number v
  | .boolLit b => .bool b
  | _ => .bool false

/-- The type of an operator on constants. -/
def folded (env : Env) (span : Span) (op : Operator) (args : List Expr) : Check OwnedType :=
  match op.fold (args.map fun a => literalOf a.type.type) with
  | some (.number v) => return .ofAll (.numberLit v)
  | some (.bool b) => return .ofAll (.boolLit b)
  | none => throw (env.fault (.foldUndefined op) span)

/-- Whether an operand is of the kind that an operator takes. -/
def suits (op : Operator) (t : DataType) : Bool :=
  match op.operand with
  | .number => t.isNumeric
  | .bool => t.isBool
  | .any => t.isPrimitive

/-- The type that an unsuitable operand should have had. -/
def wanted (op : Operator) : DataType :=
  match op.operand with
  | .bool => .bool
  | _ => .uint 256

def checkOperands (env : Env) (op : Operator) : List Expr → Check Unit
  | [] => return ()
  | a :: rest => do
    if !suits op a.type.type then throw (env.mismatch (.mk (wanted op) a.type.owner) a)
    checkOperands env op rest

/-- The declarable type that two operands are converted to. -/
def commonType (env : Env) (a b : Expr) : Check DataType :=
  match a.type.type.common? b.type.type with
  | some (.type t) => return t.toAbstract
  | some .literal => return a.type.type.toAbstract
  | none => throw (env.mismatch (.ofAll a.type.type) b)

/-- The type in which an operator works. The amount of a shift has no part in it. -/
def operandType (env : Env) (op : Operator) (args : List Expr) : Check DataType :=
  match args with
  | [] => return .bool
  | [a] => return a.type.type.toAbstract
  | a :: b :: _ => if op.isShift then return a.type.type.toAbstract else commonType env a b

/-- Converts the operands, but not the amount of a shift. -/
def convertOperands (op : Operator) (convert : Expr → Check Expr) (args : List Expr) :
    Check (List Expr) :=
  match args with
  | a :: rest =>
    if op.isShift then return (← convert a) :: rest else (a :: rest).mapM convert
  | [] => return []

/-- The amounts by which circuits can shift. -/
def isShiftAmount : DataType → Bool
  | .numberLit v => 0 ≤ v
  | _ => false

/-- What the circuit cannot compute. -/
def checkPrivate (env : Env) (span : Span) (op : Operator) (t : DataType) (args : List Expr) :
    Check Unit := do
  let fault (f : CircuitFault) : Check Unit := throw (.circuit f (env.context span))
  if !op.hasEncoding then fault (.operator op)
  if (op.isBitwise || op.isShift) && t.width = 256 then fault (.wideBitwise op)
  if op.isShift && !isShiftAmount (args.getD 1 default).type.type then fault .shiftAmount
  if (op.isArithmetic || op.isComparison) && t.width = 256 then warn span

/-- A choice. With a public condition its owner is the one that both branches have in common. -/
def choice (env : Env) (i : Expr.Info) (args : List Expr) (isPrivate : Bool) : Check Expr := do
  let c := args.headD default
  if !c.type.type.isBool then throw (env.mismatch (.mk .bool c.type.owner) c)
  if args.all fun a => a.type.type.isLiteral then
    let t ← folded env i.span .ite args
    return .builtin { i with type? := some t } .ite args isPrivate
  let [c, a, b] := args | throw (env.fault (.foldUndefined .ite) i.span)
  let t ← commonType env a b
  if c.type.isPrivate then
    let c ← coerce env c (.ofMe .bool)
    let a ← coerce env a (.ofMe t)
    let b ← coerce env b (.ofMe t)
    return .builtin { i with type? := some (.ofMe t) } .ite [c, a, b] true
  let o ←
    if env.sameOwner a.type.owner b.type.owner then pure a.type.owner
    else if a.type.owner.isAll then pure b.type.owner
    else if b.type.owner.isAll then pure a.type.owner
    else throw (env.mismatch (.mk t a.type.owner) b)
  let a ← coerce env a (.mk t o)
  let b ← coerce env b (.mk t o)
  return .builtin { i with type? := some (.mk t o) } .ite [c, a, b] isPrivate

/-- An operator other than a choice, on operands that the sender can see. -/
def operation (env : Env) (i : Expr.Info) (op : Operator) (args : List Expr) (isPrivate : Bool) :
    Check Expr := do
  checkOperands env op args
  if args.all fun a => a.type.type.isLiteral then
    let t ← folded env i.span op args
    return .builtin { i with type? := some t } op args isPrivate
  let t ← operandType env op args
  let result := if op.returnsBool then .bool else t
  if args.all fun a => !a.type.isPrivate then
    let args ← convertOperands op
      (fun a => if a.type.type = t then pure a else coerce env a (.mk t a.type.owner)) args
    return .builtin { i with type? := some (.ofAll result) } op args isPrivate
  checkPrivate env i.span op t args
  let args ← convertOperands op (fun a => coerce env a (.ofMe t)) args
  return .builtin { i with type? := some (.ofMe result) } op args true

/-- An operator on checked operands. -/
def builtin (env : Env) (i : Expr.Info) (op : Operator) (args : List Expr) (isPrivate : Bool) :
    Check Expr := do
  let first := (args.headD default).type
  if op = .paren then return .builtin { i with type? := some first } op args isPrivate
  let isOpenChoice := op = .ite && !first.isPrivate
  if !isOpenChoice && args.any fun a => !env.isAccessible a.type then
    throw (env.fault .operandInaccessible i.span)
  if op = .ite then choice env i args isPrivate else operation env i op args isPrivate

mutual

/-- Types an expression from the inside out and puts in the implicit conversions. -/
def expr (env : Env) : Expr → Check Expr
  | .bool i b => return .bool { i with type? := some (.ofAll (.boolLit b)) } b
  | .number i n => do
    if !Literal.fitsWord n then throw (env.fault (.literalTooWide n) i.span)
    return .number { i with type? := some (.ofAll (.numberLit n)) } n
  | .me i => return .me { i with type? := some (.ofAll .address) }
  | .ident i v => return .ident { i with type? := some (env.program.var v).type } v
  | .tuple i es => do
    let es ← exprs env es
    return .tuple { i with type? := some (.ofAll (.tuple (es.map Expr.type))) } es
  | .index i base idx => do
    let base ← expr env base
    let idx ← expr env idx
    let (idx, t) ← element env i.span base idx
    return .index { i with type? := some t } base idx
  | .call i f args => do
    let args ← exprs env args
    let callee := env.program.function f
    let args ← arguments env args (callee.params.map fun v => (env.program.var v).type)
    return .call { i with type? := some (returned callee.returns) } f args
  | .reclassify i e o implicit => do
    let e ← expr env e
    let t ← reclassified env i.span e o implicit
    return .reclassify { i with type? := some t } e o implicit
  | .cast i target e implicit => do
    let e ← expr env e
    let t ← castType env i.span target e implicit
    return .cast { i with type? := some t } target e implicit
  | .builtin i op args isPrivate => do
    let args ← exprs env args
    builtin env i op args isPrivate

def exprs (env : Env) : List Expr → Check (List Expr)
  | [] => return []
  | e :: es => do
    let e ← expr env e
    let es ← exprs env es
    return e :: es

end

end Shroud.Typing
