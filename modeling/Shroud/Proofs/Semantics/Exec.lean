import Shroud.Proofs.Semantics.Value
import Shroud.Typing.Expr

/-! # Execution

What checked programs do, as a big-step interpreter. Operands, arguments and statements are
evaluated in order, from the left to the right, and an assignment finds its target before it
computes the value. Conditions decide which later operands are evaluated at all.

The interpreter is a function of a `Machine`, which says what a call does, so that statements about
expressions and statements hold of any behaviour of calls. `Program.machine` closes the recursion:
its calls run the bodies of the called functions, nested up to a depth. Loops are bounded by the
rounds that a machine has. A revealed constant gets the type that it is revealed with, as a cast one
does. What needs more of either has no result, as has division by zero, a
failed requirement, or an access to a variable or an element that is not there.
-/

namespace Shroud

/-- The values of variables, each of the type that its variable is declared with. -/
structure Store (p : Program) where
  get : VarId → Option Value
  typed : ∀ v a, get v = some a → (p.var v).type.type.convert a = a
  /-- The calls made so far; they let a machine answer equal calls differently. -/
  calls : Nat := 0

namespace Store

variable {p : Program} {v : VarId} {outer : Store p} {vs : List VarId} {σ : Store p}

/-- Every variable holds the zero of its type. -/
def zeros (p : Program) : Store p where
  get v := some (p.var v).type.type.zero
  typed _ _ h := by cases h; exact DataType.convert_convert _ _

/-- Gives a variable a value, in the variable's type. -/
def set (σ : Store p) (v : VarId) (a : Value) : Store p where
  get w := if w = v then some ((p.var v).type.type.convert a) else σ.get w
  typed w b h := by
    split at h
    · cases h; subst w; exact DataType.convert_convert _ _
    · exact σ.typed w b h
  calls := σ.calls

/-- Takes the values of some variables from another store. -/
def restore (σ outer : Store p) (vs : List VarId) : Store p where
  get w := if w ∈ vs then outer.get w else σ.get w
  typed w b h := by
    split at h
    · exact outer.typed w b h
    · exact σ.typed w b h
  calls := σ.calls

/-- The state of one store with the parameters and locals of another. -/
def resume (σ caller : Store p) : Store p where
  get w := if p.isState w then σ.get w else caller.get w
  typed w b h := by
    split at h
    · exact σ.typed w b h
    · exact caller.typed w b h
  calls := σ.calls

/-- The state with nothing but the given variables beside it. -/
def activate (σ : Store p) (args : List (VarId × Value)) : Store p where
  get w := if p.isState w then σ.get w else (args.lookup w).map (p.var w).type.type.convert
  typed w b h := by
    split at h
    · exact σ.typed w b h
    · obtain ⟨a, -, rfl⟩ := Option.map_eq_some_iff.1 h
      exact DataType.convert_convert _ _
  calls := σ.calls

@[simp] theorem get_set_self (σ : Store p) (v : VarId) (a : Value) :
    (σ.set v a).get v = some ((p.var v).type.type.convert a) := if_pos rfl

theorem get_set_of_ne (σ : Store p) {w : VarId} (a : Value) (h : w ≠ v) :
    (σ.set v a).get w = σ.get w := if_neg h

theorem get_restore_of_mem (h : v ∈ vs) : (σ.restore outer vs).get v = outer.get v := if_pos h

theorem get_restore_of_not_mem (h : v ∉ vs) : (σ.restore outer vs).get v = σ.get v := if_neg h

end Store

/-- A computation on the store that may have no result. -/
abbrev Run (p : Program) := StateT (Store p) Option

/-- A computation ends with a result and a store. -/
def Runs {p : Program} {α : Type} (x : Run p α) (σ : Store p) (a : α) (τ : Store p) : Prop :=
  x.run σ = some (a, τ)

/-- How a statement ends. -/
inductive Outcome where
  | normal
  | leave
  | next
  | ret (a : Value)

namespace Outcome

def isNormal : Outcome → Bool
  | normal => true
  | _ => false

/-- Whether a loop goes on after its body. -/
def goesOn : Outcome → Bool
  | normal | next => true
  | leave | ret _ => false

/-- How a loop ends that does not go on. -/
def afterLoop : Outcome → Outcome
  | leave => normal
  | o => o

/-- What a function gives back when its body has ended; the end is no jump. -/
def value? (p : Program) (f : FunctionId) : Outcome → Option Value
  | ret a => some ((Typing.returned (p.function f).returns).type.convert a)
  | normal => some (Typing.returned (p.function f).returns).type.zero
  | leave | next => none

end Outcome

/-- The sender of the transaction, the arithmetic, the rounds of a loop, and what calls do. -/
structure Machine (p : Program) where
  sender : Int
  /-- Whether overflow is an error. -/
  checked : Bool
  rounds : Nat
  call : FunctionId → List Value → Store p → Option (Value × Store p)

/-- The part of a store that an assignment changes. -/
inductive Location where
  | var (v : VarId)
  | entry (base : Location) (k : Literal)
  | tuple (elems : List Location)

namespace Location

variable {p : Program}

/-- The value in a place; a tuple of places has none. -/
def read (σ : Store p) : Location → Option Value
  | var v => σ.get v
  | entry base k => (base.read σ).bind fun t => if t.hasKey k then some (t.entry k) else none
  | tuple _ => none

mutual

/-- Stores a value in a place that has one already. -/
def write : Location → Value → Store p → Option (Store p)
  | .var v, a, σ => (σ.get v).map fun _ => σ.set v a
  | .entry base k, a, σ =>
    (base.read σ).bind fun t => if t.hasKey k then base.write (t.put k a) σ else none
  | .tuple qs, .tuple as, σ => writeList qs as σ
  | .tuple _, _, _ => none

/-- Stores values one after another. -/
def writeList : List Location → List Value → Store p → Option (Store p)
  | [], [], σ => some σ
  | q :: qs, a :: as, σ => (q.write a σ).bind (writeList qs as)
  | _, _, _ => none

end

end Location

/-- A value in the type of an expression, if the expression has one. -/
def Expr.Info.settle (i : Expr.Info) (a : Value) : Value := i.type?.elim a (·.convert a)

namespace Machine

variable {p : Program} (m : Machine p)

/-- The sender's address. -/
def me : Value := DataType.address.scalar (.number m.sender)

/-- Calls a function, and counts the call. -/
def invoke (f : FunctionId) (args : List Value) : Run p Value := fun σ =>
  (m.call f args σ).map fun (a, τ) => (a, { τ with calls := σ.calls + 1 })

mutual

def eval : Expr → Run p Value
  | .bool _ b => return .bool b
  | .number _ n => return .number (.numberLit n) n
  | .me _ => return m.me
  | .ident _ v => do liftM ((← get).get v)
  | .builtin _ op args _ => op.operate m.checked (evalEach args)
  | .call _ f args => do
    let as ← Operator.inOrder (evalEach args)
    m.invoke f as
  | .index _ base idx => do
    let t ← eval base
    let k ← eval idx
    liftM (if t.hasKey k.datum then some (t.entry k.datum) else none)
  | .reclassify i e _ _ => do
    let a ← eval e
    return i.settle a
  | .cast _ t e _ => do
    let a ← eval e
    return t.convert a
  | .tuple _ es => do
    let as ← Operator.inOrder (evalEach es)
    return .tuple as

def evalEach : List Expr → List (Run p Value)
  | [] => []
  | e :: es => eval e :: evalEach es

end

def evalList (es : List Expr) : Run p (List Value) := Operator.inOrder (m.evalEach es)

mutual

/-- Finds the place that an expression stands for. -/
def locate : Expr → Run p Location
  | .ident _ v => return .var v
  | .index _ base idx => do
    let q ← locate base
    let k ← m.eval idx
    return .entry q k.datum
  | .tuple _ es => do
    let qs ← locateList es
    return .tuple qs
  | _ => failure

def locateList : List Expr → Run p (List Location)
  | [] => return []
  | e :: es => do
    let q ← locate e
    let qs ← locateList es
    return q :: qs

end

def store (q : Location) (a : Value) : Run p Unit := fun σ => (q.write a σ).map ((), ·)

def test (c : Expr) : Run p Bool := do
  match ← m.eval c with
  | .bool b => return b
  | _ => failure

/-- A missing condition holds. -/
def testOption : Option Expr → Run p Bool
  | some c => m.test c
  | none => return true

/-- The value that a declaration gives its variable. -/
def initial (v : VarId) : Option Expr → Run p Value
  | some e => m.eval e
  | none => return (p.var v).type.type.zero

/-- Runs something after which some variables have their old values again. -/
def within {α : Type} (vs : List VarId) (x : Run p α) : Run p α := do
  let outer ← get
  let a ← x
  modify fun σ => σ.restore outer vs
  return a

/-- Goes round a loop until the head fails or a round leaves. -/
def iterate (head : Run p Bool) (round : Run p Outcome) : Nat → Run p Outcome
  | 0 => failure
  | n + 1 => do
    if ← head then
      let o ← round
      if o.goesOn then iterate head round n else return o.afterLoop
    else return .normal

mutual

def exec : Stmt → Run p Outcome
  | .block i body => within (Stmt.block i body).declared (execList body)
  | .cond _ c yes no => do
    if ← m.test c then exec yes else execOption no
  | .loop _ c body => iterate (m.test c) (exec body) m.rounds
  | .doLoop _ body c => do
    let o ← exec body
    if o.goesOn then iterate (m.test c) (exec body) m.rounds else return o.afterLoop
  | .forLoop i init c update body => within (Stmt.forLoop i init c update body).declared do
    let o ← execOption init
    if o.isNormal then
      iterate (m.testOption c)
        (do let o ← exec body; if o.goesOn then execOption update else return o) m.rounds
    else return o
  | .decl _ v init => do
    let a ← m.initial v init
    modify fun σ => σ.set v a
    return .normal
  | .assign _ lhs rhs => do
    let q ← m.locate lhs
    let a ← m.eval rhs
    store q a
    return .normal
  | .expr _ e => do
    let _ ← m.eval e
    return .normal
  | .require _ e => do
    if ← m.test e then return .normal else failure
  | .ret _ none => return .ret .nothing
  | .ret _ (some e) => do
    let a ← m.eval e
    return .ret a
  | .leave _ => return .leave
  | .next _ => return .next

def execList : List Stmt → Run p Outcome
  | [] => return .normal
  | s :: ss => do
    let o ← exec s
    if o.isNormal then execList ss else return o

def execOption : Option Stmt → Run p Outcome
  | none => return .normal
  | some s => exec s

end

/-- Runs the body of a function on a frame of its own. -/
def perform (f : FunctionId) (args : List Value) (σ : Store p) : Option (Value × Store p) :=
  if args.length = (p.function f).params.length then
    ((m.exec (p.function f).body).run (σ.activate ((p.function f).params.zip args))).bind
      fun (o, τ) => (o.value? p f).map fun a => (a, τ.resume σ)
  else none

end Machine

/-- The machine whose calls run the called functions, at most so many inside each other. -/
def Program.machine (p : Program) (sender : Int) (checked : Bool) (rounds : Nat) :
    Nat → Machine p
  | 0 => { sender, checked, rounds, call := fun _ _ _ => none }
  | depth + 1 =>
    { sender, checked, rounds, call := (p.machine sender checked rounds depth).perform }

end Shroud
