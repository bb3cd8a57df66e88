import Shroud.Effects

/-! # Equal owners

Which labels are known to stand for the same party before and after each statement. Tests unite
classes; an assignment moves its target into the class of the assigned label; code with effects
forgets all but the equality of labels that never change, and so does a loop that writes anything.
-/

namespace Shroud.Alias

abbrev Classes := Partition Label

/-- Whether the party that a label stands for never changes. -/
def isFixed (p : Program) : Label → Bool
  | .me | .all => true
  | .var v => (p.var v).isFixed

/-- What remains known after code that may change anything. -/
def forget (p : Program) (s : Classes) : Classes := s.separate (isFixed p)

def forgetIf (p : Program) (b : Bool) (s : Classes) : Classes := if b then forget p s else s

/-- What an equality of two expressions says about labels. -/
def equate (a b : Expr) (s : Classes) : Classes :=
  match a.label?, b.label? with
  | some x, some y => if s.has x && s.has y then s.merge x y else s
  | _, _ => s

mutual

/-- What is known once a condition has the given value. -/
def guard (holds : Bool) : Expr → Classes → Classes
  | .builtin _ op args _, s => guardOp holds op args s
  | _, s => s

def guardOp (holds : Bool) (op : Operator) : List Expr → Classes → Classes
  | [a], s => match op with
    | .paren => guard holds a s
    | .not => guard (!holds) a s
    | _ => s
  | [a, b], s => match op, holds with
    | .and, true | .or, false => guard holds b (guard holds a s)
    | .eq, true | .ne, false => equate a b s
    | _, _ => s
  | _, s => s

end

/-- Assigns the label of a value, if it has one. -/
def assignLabel (v : VarId) (value : Option Label) (s : Classes) : Classes :=
  match value with
  | some l => if l = .var v then s else s.moveTo (.var v) l
  | none => s.moveApart (.var v)

mutual

/-- The effect of an assignment, one target of a tuple after another. -/
def assign : Expr → Option Expr → Classes → Classes
  | .ident _ v, value, s => assignLabel v (value.bind Expr.label?) s
  | .tuple _ targets, value, s =>
    match value with
    | some (.tuple _ values) =>
      if values.length = targets.length then assignList targets (values.map some) s
      else assignList targets [] s
    | _ => assignList targets [] s
  | _, _, s => s

def assignList : List Expr → List (Option Expr) → Classes → Classes
  | [], _, s => s
  | t :: ts, values, s => assignList ts values.tail (assign t (values.headD none) s)

end

/-- Forgets variables that go out of scope. -/
def dropScope (vs : List VarId) (s : Classes) : Classes :=
  vs.foldl (fun s v => s.remove (.var v)) s

def guardOption (c : Option Expr) (s : Classes) : Classes :=
  match c with
  | some c => guard true c s
  | none => s

/-- A declaration, from what is known before it. -/
def declare (p : Program) (v : VarId) (init : Option Expr) (s : Classes) : Classes :=
  let s := forgetIf p (init.any p.exprHasEffects) s
  let s := s.insert (.var v)
  match init.bind Expr.label? with
  | some l => s.moveTo (.var v) l
  | none => s

mutual

/-- Records what is known around every statement, and says what is known after the last. -/
def stmt (p : Program) (s : Stmt) (before : Classes) : Stmt × Classes :=
  match s with
  | .block i body =>
    let (body', cur) := stmts p body before
    let after := dropScope (Stmt.block i body).scope cur
    (.block { i with flow? := some ⟨before, after⟩ } body', after)
  | .cond i c yes no =>
    let base := forgetIf p (p.exprHasEffects c) before
    let (yes, afterYes) := stmt p yes (guard true c base)
    let (no, afterNo) := stmtOption p no (guard false c base)
    let after := afterYes.join afterNo
    (.cond { i with flow? := some ⟨before, after⟩ } c yes no, after)
  | .loop i c body =>
    let base := forgetIf p (p.stmtWrites (.loop i c body)) before
    let (body, last) := stmt p body (guard true c base)
    let after := base.join last
    (.loop { i with flow? := some ⟨before, after⟩ } c body, after)
  | .doLoop i body c =>
    let base := forgetIf p (p.stmtWrites (.doLoop i body c)) before
    let (body, last) := stmt p body base
    let after := base.join last
    (.doLoop { i with flow? := some ⟨before, after⟩ } body c, after)
  | .forLoop i init c update body =>
    let writes := p.stmtWrites (.forLoop i init c update body)
    let scope := (Stmt.forLoop i init c update body).scope
    let (init, start) := stmtOption p init before
    let base := forgetIf p writes start
    let (body, last) := stmt p body (guardOption c base)
    let (update, last) := stmtOption p update last
    let after := dropScope scope (base.join last)
    (.forLoop { i with flow? := some ⟨before, after⟩ } init c update body, after)
  | .decl i v init =>
    let after := declare p v init before
    (.decl { i with flow? := some ⟨before, after⟩ } v init, after)
  | .assign i lhs rhs =>
    let base := forgetIf p (p.exprHasEffects lhs || p.exprHasEffects rhs) before
    let after := assign lhs (some rhs) base
    (.assign { i with flow? := some ⟨before, after⟩ } lhs rhs, after)
  | .expr i e =>
    let after := forgetIf p (p.exprHasEffects e) before
    (.expr { i with flow? := some ⟨before, after⟩ } e, after)
  | .require i c =>
    let after := guard true c (forgetIf p (p.exprHasEffects c) before)
    (.require { i with flow? := some ⟨before, after⟩ } c, after)
  | .ret i e => (.ret { i with flow? := some ⟨before, before⟩ } e, before)
  | .leave i => (.leave { i with flow? := some ⟨before, before⟩ }, before)
  | .next i => (.next { i with flow? := some ⟨before, before⟩ }, before)

def stmts (p : Program) (ss : List Stmt) (before : Classes) : List Stmt × Classes :=
  match ss with
  | [] => ([], before)
  | s :: ss =>
    let (s, cur) := stmt p s before
    let (ss, after) := stmts p ss cur
    (s :: ss, after)

def stmtOption (p : Program) (s : Option Stmt) (before : Classes) : Option Stmt × Classes :=
  match s with
  | none => (none, before)
  | some s =>
    let (s, after) := stmt p s before
    (some s, after)

end

/-- What is known when a function starts: `me`, `all`, the state and the parameters are there, and
nothing is known to be equal. -/
def initial (p : Program) (f : Function) : Classes :=
  let vars := (p.contract f.contract).stateVars ++ f.params
  (Label.me :: Label.all :: vars.map Label.var).foldl Partition.insert .empty

end Alias

/-- The program with what is known about equal owners around every statement. -/
def Program.withAliases (p : Program) : Program :=
  p.mapFunctions fun _ f => { f with body := (Alias.stmt p f.body (Alias.initial p f)).1 }

end Shroud
