import Shroud.Error
import Shroud.Solidity.Basic

/-! # Call sites

A call of a function with a circuit hands over a slice of the caller's buffers. Such calls are
numbered while bodies are built, and get their arguments when the layout of all buffers is known.
-/

namespace Shroud.Solidity

namespace Expr

/-- The arguments that hand over a slice with the given offsets. -/
def sliceArgs (s : Settings) (offsets : Nat × Nat) : List Expr :=
  [.ident s.inName, offset (.ident s.inStart) offsets.1, .ident s.outName,
    offset (.ident s.outStart) offsets.2]

/-- The arguments of a numbered call; a number without offsets adds none. -/
def siteArgs (s : Settings) (offsets : List (Nat × Nat)) : Option Nat → List Expr
  | none => []
  | some i => match offsets[i]? with
    | some o => sliceArgs s o
    | none => []

mutual

/-- Adds the buffer arguments to numbered calls and drops the numbers. -/
def patch (s : Settings) (offsets : List (Nat × Nat)) : Expr → Expr
  | .member base name => .member (base.patch s offsets) name
  | .index base idx => .index (base.patch s offsets) (idx.patch s offsets)
  | .op o args => .op o (patchList s offsets args)
  | .cast t e => .cast t (e.patch s offsets)
  | .call f args site => .call f (patchList s offsets args ++ siteArgs s offsets site) none
  | .method target name args => .method (target.patch s offsets) name (patchList s offsets args)
  | .newWords len => .newWords (len.patch s offsets)
  | .tuple elems => .tuple (patchList s offsets elems)
  | e => e

def patchList (s : Settings) (offsets : List (Nat × Nat)) : List Expr → List Expr
  | [] => []
  | e :: es => e.patch s offsets :: patchList s offsets es

end

def site? : Expr → Option Nat
  | .call _ _ site => site
  | _ => none

/-- The numbers of the calls in an expression. -/
def sites (e : Expr) : List Nat := e.subterms.filterMap site?

end Expr

namespace Stmt

mutual

/-- All expressions of a statement. -/
def exprs : Stmt → List Expr
  | .block body => exprsList body
  | .cond c yes no => c :: exprsList yes ++ exprsElse no
  | .loop c body | .doLoop body c => c :: exprsList body
  | .forLoop init c update body => exprsOption init ++ c.toList ++ exprsOption update ++ exprsList body
  | .decl _ _ _ init _ => init.toList
  | .assign lhs rhs => [lhs, rhs]
  | .expr e | .require e => [e]
  | .ret e => e.toList
  | .comment _ | .leave | .next => []

def exprsList : List Stmt → List Expr
  | [] => []
  | s :: ss => s.exprs ++ exprsList ss

def exprsElse : Option (List Stmt) → List Expr
  | none => []
  | some no => exprsList no

def exprsOption : Option Stmt → List Expr
  | none => []
  | some s => s.exprs

end

mutual

def patch (s : Settings) (offsets : List (Nat × Nat)) : Stmt → Stmt
  | .comment text => .comment text
  | .block body => .block (patchList s offsets body)
  | .cond c yes no =>
    .cond (c.patch s offsets) (patchList s offsets yes) (patchElse s offsets no)
  | .loop c body => .loop (c.patch s offsets) (patchList s offsets body)
  | .doLoop body c => .doLoop (patchList s offsets body) (c.patch s offsets)
  | .forLoop init c update body =>
    .forLoop (patchOption s offsets init) (c.map (Expr.patch s offsets))
      (patchOption s offsets update) (patchList s offsets body)
  | .decl t name loc init var => .decl t name loc (init.map (Expr.patch s offsets)) var
  | .assign lhs rhs => .assign (lhs.patch s offsets) (rhs.patch s offsets)
  | .expr e => .expr (e.patch s offsets)
  | .require e => .require (e.patch s offsets)
  | .ret e => .ret (e.map (Expr.patch s offsets))
  | .leave => .leave
  | .next => .next

def patchList (s : Settings) (offsets : List (Nat × Nat)) : List Stmt → List Stmt
  | [] => []
  | t :: ts => t.patch s offsets :: patchList s offsets ts

def patchElse (s : Settings) (offsets : List (Nat × Nat)) : Option (List Stmt) → Option (List Stmt)
  | none => none
  | some no => some (patchList s offsets no)

def patchOption (s : Settings) (offsets : List (Nat × Nat)) : Option Stmt → Option Stmt
  | none => none
  | some t => some (t.patch s offsets)

end

end Stmt

/-- The numbers of the calls in a body. -/
def sites (body : List Stmt) : List Nat := (Stmt.exprsList body).flatMap Expr.sites

/-- Gives every numbered call its slice. There must be as many calls as slices, and no number
without one. -/
def patchSites (s : Settings) (offsets : List (Nat × Nat)) (body : List Stmt) :
    Except Error (List Stmt) :=
  let numbers := sites body
  let patched := numbers.countP fun i => i < offsets.length
  if patched = offsets.length ∧ patched = numbers.length then
    .ok (Stmt.patchList s offsets body)
  else .error (.internal (.sitesPatched patched offsets.length))

end Shroud.Solidity
