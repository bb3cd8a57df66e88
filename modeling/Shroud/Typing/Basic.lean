import Shroud.Error
import Shroud.Program.Walk

/-! # Conversions

When a value can stand where another type is expected, and the implicit casts and changes of owner
that put it there. Two owners agree where they are known to be the same party.
-/

namespace Shroud.Typing

/-- Checks that may refuse, and warn of places on the way. -/
abbrev Check := ExceptT Error (StateM (List Span))

def warn (span : Span) : Check Unit := modify (· ++ [span])

/-- Where an expression stands. -/
structure Env where
  program : Program
  site : Site
  /-- The owners that are known to be equal before the statement around. -/
  before? : Option (Partition Label) := none

namespace Env

def context (env : Env) (span : Span) : Context := env.program.context env.site span

def fault (env : Env) (fault : TypeFault) (span : Span) : Error := .type fault (env.context span)

def mismatch (env : Env) (expected : OwnedType) (e : Expr) : Error :=
  .mismatch (env.program.describe expected) (env.program.describe e.type) (env.context e.span)

def describe (env : Env) (t : OwnedType) : String := env.program.describe t

/-- Whether two owners are the same party, as far as is known. -/
def sameOwner (env : Env) (a b : Owner) : Bool :=
  a = b || match a.label?, b.label?, env.before? with
    | some x, some y, some s => s.same x y
    | _, _, _ => false

/-- Whether the sender can see a value. -/
def isAccessible (env : Env) (t : OwnedType) : Bool :=
  !t.isPrivate || env.sameOwner t.owner .me

end Env

/-- How a type fits an expected one. -/
inductive Fit where
  | exact
  /-- Only the owner has to change, from `all`. -/
  | upgrade
  | mismatch
deriving DecidableEq, Repr

def fitPlain (env : Env) (actual expected : OwnedType) : Fit :=
  if !actual.type.convertsTo expected.type then .mismatch
  else if env.sameOwner actual.owner expected.owner then .exact
  else if actual.owner.isAll then .upgrade
  else .mismatch

mutual

/-- How one type fits another. Tuples fit if all their elements do without a change of owner. -/
def fit (env : Env) : OwnedType → OwnedType → Fit
  | .mk (.tuple as) _, .mk (.tuple bs) _ => if fitAll env as bs then .exact else .mismatch
  | actual, expected => fitPlain env actual expected

def fitAll (env : Env) : List OwnedType → List OwnedType → Bool
  | [], [] => true
  | a :: as, b :: bs => fit env a b = .exact && fitAll env as bs
  | _, _ => false

end

/-- Wraps an implicit cast around a value. -/
def castTo (env : Env) (target : DataType) (e : Expr) : Check Expr :=
  if e.type.type.isPrimitive && target.isPrimitive then
    return .cast { span := e.span, type? := some (.mk target e.type.owner) } target e true
  else throw (env.fault (.notConvertible (env.describe e.type) target.display) e.span)

/-- Converts the data of a value. The value under a change of owner is converted before it. -/
def convert (env : Env) (target : DataType) : Expr → Check Expr
  | .reclassify i e o implicit => do
    let t := (Expr.reclassify i e o implicit).type
    if t.isPrivate then
      let e ← convert env target e
      return .reclassify { i with type? := some (.mk e.type.type t.owner) } e o implicit
    else castTo env target (.reclassify i e o implicit)
  | e => castTo env target e

/-- Wraps an implicit change of owner around a value. -/
def raise (o : Owner) (e : Expr) : Expr :=
  .reclassify { span := e.span, type? := some (.mk e.type.type o) } e o true

def coercePlain (env : Env) (e : Expr) (expected : OwnedType) : Check Expr := do
  let actual := e.type
  let result := fit env actual expected
  if result = .mismatch then throw (env.mismatch expected e)
  let isTuple := match expected.type with
    | .tuple _ => true
    | _ => false
  let e ← if actual.type ≠ expected.type ∧ !isTuple then convert env expected.type e else pure e
  return if result = .upgrade then raise expected.owner e else e

mutual

/-- Puts a value where a type is expected, a written tuple element by element. -/
def coerce (env : Env) : Expr → OwnedType → Check Expr
  | .tuple i es, .mk (.tuple ts) o => do
    if es.length ≠ ts.length then throw (env.mismatch (.mk (.tuple ts) o) (.tuple i es))
    let es ← coerceAll env es ts
    return .tuple { i with type? := some (.ofAll (.tuple (es.map Expr.type))) } es
  | e, expected => coercePlain env e expected

def coerceAll (env : Env) : List Expr → List OwnedType → Check (List Expr)
  | e :: es, t :: ts => do
    let e ← coerce env e t
    let es ← coerceAll env es ts
    return e :: es
  | _, _ => return []

end

end Shroud.Typing
