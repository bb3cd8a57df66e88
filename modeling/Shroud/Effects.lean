import Shroud.Program.Walk

/-! # Effects

The call graph, the state that functions write and read, and the variables that statements write
and read. Everything that a function reaches through calls counts for the function, and everything
that it writes counts for a statement with a call of it.
-/

namespace Shroud

namespace Effects

/-- The variables that a piece of code writes and reads, in ascending order. -/
structure Access where
  modified : List VarId := []
  read : List VarId := []
deriving DecidableEq, Inhabited

/-- The variables in an expression's place: a target is written, anything else is read. -/
def occurrence : Use × Expr → Access
  | (.target, .ident _ v) => ⟨[v], []⟩
  | (.value, .ident _ v) => ⟨[], [v]⟩
  | _ => {}

def Access.gather (as : List Access) : Access where
  modified := Sorted.ofList (as.flatMap Access.modified)
  read := Sorted.ofList (as.flatMap Access.read)

/-- The state that a body writes and reads itself. -/
def ownState (p : Program) (body : Stmt) : Access :=
  let a := Access.gather (body.uses.map occurrence)
  ⟨a.modified.filter p.isState, a.read.filter p.isState⟩

/-- The functions that a body calls, in order of their first calls. -/
def calls (body : Stmt) : List FunctionId := (body.exprs.filterMap Expr.callee?).eraseDups

/-- Whether a statement has a loop in it. -/
def hasLoop (body : Stmt) : Bool := body.walk.any Stmt.isLoop

/-- Adds what the fresh ones among some functions call, and what these call in turn, until nothing
is new. Each round but the last adds a function, so their number bounds the rounds. -/
def closure (next : FunctionId → List FunctionId) :
    Nat → List FunctionId → List FunctionId → List FunctionId
  | 0, known, _ => known
  | n + 1, known, fresh =>
    let more := Sorted.ofList ((fresh.flatMap next).filter fun g => !known.contains g)
    if more.isEmpty then known else closure next n (Sorted.union known more) more

/-- Records what each body calls. -/
def recordCalls (p : Program) : Program :=
  p.mapFunctions fun _ f => { f with facts := { f.facts with calls := calls f.body } }

/-- Records what each function reaches. -/
def recordReached (p : Program) : Program :=
  let calls := (p.functions.map fun f => f.facts.calls).toArray
  p.mapFunctions fun _ f =>
    let first := Sorted.ofList f.facts.calls
    { f with facts := { f.facts with
        reached := closure (fun g => calls.getD g.index []) p.functions.length first first } }

/-- Records what is known about each function. What it writes and reads is what it or anything that
it reaches writes and reads. -/
def recordFacts (p : Program) : Program :=
  let own := (p.functions.map fun f => ownState p f.body).toArray
  p.mapFunctions fun id f =>
    let access := Access.gather ((id :: f.facts.reached).map fun g => own.getD g.index {})
    let isRecursive := f.facts.reached.contains id
    { f with facts := { f.facts with
        isRecursive
        isStatic := !hasLoop f.body && !isRecursive
        hasEffects := !access.modified.isEmpty
        modified := access.modified
        read := access.read } }

/-- What a call adds to the code around it. -/
def callAccess (p : Program) : Expr → Access
  | .call _ f _ => ⟨(p.function f).facts.modified, (p.function f).facts.read⟩
  | _ => {}

/-- The variables that a statement writes and reads. A declaration writes its variable. -/
def access (p : Program) (s : Stmt) : Access :=
  .gather (⟨s.declared, []⟩ ::
    s.uses.flatMap fun use => [occurrence use, callAccess p use.2])

/-- Records what each statement writes and reads. -/
def recordAccess (p : Program) : Program :=
  p.mapFunctions fun _ f => { f with body := f.body.annotate fun s =>
    let a := access p s
    { s.info with modified := a.modified, read := a.read } }

end Effects

namespace Program

/-- The program with the call graph and all effects. -/
def withEffects (p : Program) : Program :=
  Effects.recordAccess (Effects.recordFacts (Effects.recordReached (Effects.recordCalls p)))

/-- Whether evaluating an expression may change state. -/
def exprHasEffects (p : Program) (e : Expr) : Bool :=
  e.callees.any fun f => (p.function f).facts.hasEffects

/-- Whether executing a statement may change state. -/
def stmtHasEffects (p : Program) (s : Stmt) : Bool :=
  s.info.modified.any p.isState || s.exprs.any p.exprHasEffects

/-- Whether executing a statement writes any variable. -/
def stmtWrites (p : Program) (s : Stmt) : Bool :=
  !s.info.modified.isEmpty || p.stmtHasEffects s

end Program

end Shroud
