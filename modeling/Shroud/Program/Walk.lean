import Shroud.Program.Basic

/-! # Parts of programs

The expressions and statements inside an expression or statement, from the outside in and in order
of execution. Every expression comes with its use: it is a target where an assignment stores into
it.
-/

namespace Shroud

/-- How an expression is used. -/
inductive Use where
  | value
  /-- What an assignment stores into, or part of it. -/
  | target
deriving DecidableEq, Repr

namespace Expr

mutual

/-- The expression and all expressions inside it, with their uses. The base of a target is one,
the index is not; so are the elements of a tuple of targets. -/
def uses (u : Use) : Expr → List (Use × Expr)
  | .builtin i op args p => (u, .builtin i op args p) :: usesList .value args
  | .call i f args => (u, .call i f args) :: usesList .value args
  | .index i base idx => (u, .index i base idx) :: (base.uses u ++ idx.uses .value)
  | .reclassify i e o b => (u, .reclassify i e o b) :: e.uses .value
  | .cast i t e b => (u, .cast i t e b) :: e.uses .value
  | .tuple i es => (u, .tuple i es) :: usesList u es
  | e => [(u, e)]

def usesList (u : Use) : List Expr → List (Use × Expr)
  | [] => []
  | e :: es => e.uses u ++ usesList u es

end

/-- The expression and all expressions inside it. -/
def subterms (e : Expr) : List Expr := (e.uses .value).map Prod.snd

def callee? : Expr → Option FunctionId
  | call _ f _ => some f
  | _ => none

/-- The functions that an expression calls, once for each call. -/
def callees (e : Expr) : List FunctionId := e.subterms.filterMap callee?

end Expr

namespace Stmt

/-- The expressions of the statement itself. -/
def roots : Stmt → List (Use × Expr)
  | cond _ c _ _ | loop _ c _ | doLoop _ _ c => [(.value, c)]
  | forLoop _ _ c _ _ => c.toList.map fun c => (.value, c)
  | decl _ _ init => init.toList.map fun e => (.value, e)
  | assign _ lhs rhs => [(.target, lhs), (.value, rhs)]
  | expr _ e | require _ e => [(.value, e)]
  | ret _ e => e.toList.map fun e => (.value, e)
  | block _ _ | leave _ | next _ => []

/-- The statements right inside the statement, in order of execution. -/
def children : Stmt → List Stmt
  | block _ body => body
  | cond _ _ yes no => yes :: no.toList
  | loop _ _ body | doLoop _ body _ => [body]
  | forLoop _ init _ update body => init.toList ++ body :: update.toList
  | _ => []

mutual

/-- The statement and all statements inside it. -/
def walk : Stmt → List Stmt
  | .block i body => .block i body :: walkList body
  | .cond i c yes no => .cond i c yes no :: (yes.walk ++ walkOption no)
  | .loop i c body => .loop i c body :: body.walk
  | .doLoop i body c => .doLoop i body c :: body.walk
  | .forLoop i init c update body =>
    .forLoop i init c update body :: (walkOption init ++ body.walk ++ walkOption update)
  | s => [s]

def walkList : List Stmt → List Stmt
  | [] => []
  | s :: ss => s.walk ++ walkList ss

def walkOption : Option Stmt → List Stmt
  | none => []
  | some s => s.walk

end

/-- All expressions inside the statement, with their uses. -/
def uses (s : Stmt) : List (Use × Expr) :=
  s.walk.flatMap fun t => t.roots.flatMap fun (u, e) => e.uses u

def exprs (s : Stmt) : List Expr := s.uses.map Prod.snd

/-- The variable that the statement declares. -/
def declared? : Stmt → Option VarId
  | decl _ v _ => some v
  | _ => none

/-- The variables that end with the statement: those declared right in a block or in the head of a
`for`. -/
def scope : Stmt → List VarId
  | block _ body => body.filterMap declared?
  | forLoop _ init _ _ _ => init.toList.filterMap declared?
  | _ => []

/-- The variables declared anywhere in the statement. -/
def declared (s : Stmt) : List VarId := s.walk.filterMap declared?

def declaresOutside (s : Stmt) (v : VarId) : Bool := !s.declared.contains v

mutual

/-- Replaces what is known about every statement. -/
def annotate (f : Stmt → Info) : Stmt → Stmt
  | .block i body => .block (f (.block i body)) (annotateList f body)
  | .cond i c yes no => .cond (f (.cond i c yes no)) c (yes.annotate f) (annotateOption f no)
  | .loop i c body => .loop (f (.loop i c body)) c (body.annotate f)
  | .doLoop i body c => .doLoop (f (.doLoop i body c)) (body.annotate f) c
  | .forLoop i init c update body =>
    .forLoop (f (.forLoop i init c update body)) (annotateOption f init) c
      (annotateOption f update) (body.annotate f)
  | .decl i v init => .decl (f (.decl i v init)) v init
  | .assign i lhs rhs => .assign (f (.assign i lhs rhs)) lhs rhs
  | .expr i e => .expr (f (.expr i e)) e
  | .require i e => .require (f (.require i e)) e
  | .ret i e => .ret (f (.ret i e)) e
  | .leave i => .leave (f (.leave i))
  | .next i => .next (f (.next i))

def annotateList (f : Stmt → Info) : List Stmt → List Stmt
  | [] => []
  | s :: ss => s.annotate f :: annotateList f ss

def annotateOption (f : Stmt → Info) : Option Stmt → Option Stmt
  | none => none
  | some s => some (s.annotate f)

end

end Stmt

end Shroud
