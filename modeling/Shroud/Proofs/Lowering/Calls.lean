import Mathlib
import Shroud.Lowering.Contract
import Shroud.Proofs.Success

/-! # The calls of lowered code

`calls` are the function calls in public code, each with its name, its number of arguments and its
site. `numbered` is how lowering numbers them: it notes the functions that it calls, and numbers the
calls of those with circuits. Casts and methods of other contracts are no calls here.
-/

namespace Shroud.Solidity

/-- What a call says: a name, a number of arguments, and its own number if it has one. -/
structure Call where
  name : String
  count : Nat
  site : Option Nat
deriving DecidableEq

namespace Expr

def call? : Expr → Option Call
  | .call f args site => some ⟨f, args.length, site⟩
  | _ => none

/-- The calls in an expression. -/
def calls (e : Expr) : List Call := e.subterms.filterMap call?

theorem subtermsList_eq_flatMap (es : List Expr) : subtermsList es = es.flatMap subterms := by
  induction es with
  | nil => rfl
  | cons e es ih => rw [subtermsList, ih, List.flatMap_cons]

theorem filterMap_subtermsList (es : List Expr) :
    (subtermsList es).filterMap call? = es.flatMap calls := by
  rw [subtermsList_eq_flatMap, List.filterMap_flatMap]
  rfl

@[simp] theorem calls_bool (b : Bool) : (bool b).calls = [] := rfl
@[simp] theorem calls_number (n : Int) : (number n).calls = [] := rfl
@[simp] theorem calls_ident (name : String) (v : Option VarId) : (ident name v).calls = [] := rfl
@[simp] theorem calls_member (base : Expr) (name : String) :
    (member base name).calls = base.calls := rfl
@[simp] theorem calls_cast (t : DataType) (e : Expr) : (cast t e).calls = e.calls := rfl
@[simp] theorem calls_newWords (len : Expr) : (newWords len).calls = len.calls := rfl

@[simp] theorem calls_index (base idx : Expr) : (index base idx).calls = base.calls ++ idx.calls := by
  rw [calls, subterms, List.cons_append, List.filterMap_cons_none rfl, List.filterMap_append]
  rfl

@[simp] theorem calls_op (o : Operator) (args : List Expr) :
    (op o args).calls = args.flatMap calls := by
  rw [← filterMap_subtermsList]
  rfl

@[simp] theorem calls_call (f : String) (args : List Expr) (site : Option Nat) :
    (call f args site).calls = ⟨f, args.length, site⟩ :: args.flatMap calls := by
  rw [← filterMap_subtermsList]
  rfl

@[simp] theorem calls_method (target : Expr) (name : String) (args : List Expr) :
    (method target name args).calls = target.calls ++ args.flatMap calls := by
  rw [calls, subterms, List.cons_append, List.filterMap_cons_none rfl, List.filterMap_append,
    filterMap_subtermsList]
  rfl

@[simp] theorem calls_tuple (es : List Expr) : (tuple es).calls = es.flatMap calls := by
  rw [← filterMap_subtermsList]
  rfl

/-- The numbers of calls are those of all calls. -/
theorem sites_eq (e : Expr) : e.sites = e.calls.filterMap Call.site := by
  rw [sites, calls, List.filterMap_filterMap]
  refine List.filterMap_congr fun x _ => ?_
  cases x <;> rfl

end Expr

namespace Stmt

/-- The calls in a statement. -/
def calls (s : Stmt) : List Call := s.exprs.flatMap Expr.calls

theorem exprsList_eq_flatMap (ss : List Stmt) : exprsList ss = ss.flatMap exprs := by
  induction ss with
  | nil => rfl
  | cons s ss ih => rw [exprsList, ih, List.flatMap_cons]

end Stmt

/-- The calls in a body. -/
def calls (body : List Stmt) : List Call := body.flatMap Stmt.calls

theorem calls_eq (body : List Stmt) : calls body = (Stmt.exprsList body).flatMap Expr.calls := by
  rw [Stmt.exprsList_eq_flatMap, List.flatMap_assoc]
  rfl

theorem sites_eq (body : List Stmt) : sites body = (calls body).filterMap Call.site := by
  rw [calls_eq, sites, List.filterMap_flatMap]
  exact List.flatMap_congr fun e _ => e.sites_eq

@[simp] theorem calls_nil : calls [] = [] := rfl
@[simp] theorem calls_cons (s : Stmt) (ss : List Stmt) : calls (s :: ss) = s.calls ++ calls ss := rfl
@[simp] theorem calls_append (ss ts : List Stmt) : calls (ss ++ ts) = calls ss ++ calls ts :=
  List.flatMap_append

namespace Stmt

attribute [local simp] calls exprs exprsElse exprsOption

@[simp] theorem calls_comment (text : String) : (comment text).calls = [] := rfl

@[simp] theorem calls_block (body : List Stmt) : (block body).calls = Solidity.calls body := by
  rw [calls_eq]
  rfl

@[simp] theorem calls_cond (c : Expr) (yes : List Stmt) (no : Option (List Stmt)) :
    (cond c yes no).calls = c.calls ++ Solidity.calls yes ++ (no.map Solidity.calls).getD [] := by
  cases no <;> simp [calls_eq]

@[simp] theorem calls_loop (c : Expr) (body : List Stmt) :
    (loop c body).calls = c.calls ++ Solidity.calls body := by
  simp [calls_eq]

@[simp] theorem calls_doLoop (body : List Stmt) (c : Expr) :
    (doLoop body c).calls = c.calls ++ Solidity.calls body := by
  simp [calls_eq]

@[simp] theorem calls_forLoop (init : Option Stmt) (c : Option Expr) (update : Option Stmt)
    (body : List Stmt) : (forLoop init c update body).calls =
      init.toList.flatMap calls ++ c.toList.flatMap Expr.calls ++ update.toList.flatMap calls ++
        Solidity.calls body := by
  cases init <;> cases update <;> simp [calls_eq]

@[simp] theorem calls_decl (t : DataType) (name : String) (location : Option Location)
    (init : Option Expr) (v : Option VarId) :
    (decl t name location init v).calls = init.toList.flatMap Expr.calls := rfl

@[simp] theorem calls_assign (lhs rhs : Expr) : (assign lhs rhs).calls = lhs.calls ++ rhs.calls := by
  simp

@[simp] theorem calls_expr (e : Expr) : (expr e).calls = e.calls := by
  simp

@[simp] theorem calls_require (e : Expr) : (require e).calls = e.calls := by
  simp

@[simp] theorem calls_ret (e : Option Expr) : (ret e).calls = e.toList.flatMap Expr.calls := rfl

end Stmt

end Shroud.Solidity

namespace Shroud.Lowering

open Solidity (calls Call)
open scoped List

/-! ## Calls by function -/

variable {p : Program} {s : Settings}

/-- The public function that a call is made of. -/
def calleeName (p : Program) (s : Settings) (f : FunctionId) : String :=
  if (p.function f).facts.isVerifiedOutside then s.internalName (p.function f).name
  else (p.function f).name

/-- The called functions that have circuits. -/
def verified (p : Program) (fs : List FunctionId) : List FunctionId :=
  fs.filter fun f => (p.function f).facts.isVerified

@[simp] theorem verified_append (fs gs : List FunctionId) :
    verified p (fs ++ gs) = verified p fs ++ verified p gs := List.filter_append ..

/-- Calls of functions, in which those with circuits are numbered from a number on. -/
def numbered (p : Program) (s : Settings) : Nat → List FunctionId → List Call
  | _, [] => []
  | n, f :: fs =>
    let callee := p.function f
    if callee.facts.isVerified then
      ⟨calleeName p s f, callee.params.length, some n⟩ :: numbered p s (n + 1) fs
    else ⟨calleeName p s f, callee.params.length, none⟩ :: numbered p s n fs

theorem numbered_append (n : Nat) (fs gs : List FunctionId) :
    numbered p s n (fs ++ gs) =
      numbered p s n fs ++ numbered p s (n + (verified p fs).length) gs := by
  induction fs generalizing n with
  | nil => rfl
  | cons f fs ih =>
    by_cases h : (p.function f).facts.isVerified = true
    · simp [numbered, verified, h, ih, Nat.add_assoc, Nat.add_comm 1]
    · simp [numbered, verified, h, ih]

theorem filterMap_site_numbered (n : Nat) (fs : List FunctionId) :
    (numbered p s n fs).filterMap Call.site = List.range' n (verified p fs).length := by
  induction fs generalizing n with
  | nil => rfl
  | cons f fs ih =>
    by_cases h : (p.function f).facts.isVerified = true
    · simp [numbered, verified, h, ih, List.range'_succ]
    · simp [numbered, verified, h, ih]

/-- A numbered call is of one of the functions, and has a number if this has a circuit. -/
theorem of_mem_numbered {n : Nat} {fs : List FunctionId} {c : Call} (h : c ∈ numbered p s n fs) :
    ∃ f ∈ fs, c.site.isSome = (p.function f).facts.isVerified := by
  induction fs generalizing n with
  | nil => cases h
  | cons f fs ih =>
    by_cases hv : (p.function f).facts.isVerified = true
    · simp only [numbered, hv, if_true, List.mem_cons] at h
      rcases h with rfl | h
      · exact ⟨f, by simp, by simp [hv]⟩
      · obtain ⟨g, hg, hc⟩ := ih h
        exact ⟨g, by simp [hg], hc⟩
    · simp only [numbered, hv, Bool.false_eq_true, if_false, List.mem_cons] at h
      rcases h with rfl | h
      · exact ⟨f, by simp, by simp [hv]⟩
      · obtain ⟨g, hg, hc⟩ := ih h
        exact ⟨g, by simp [hg], hc⟩

end Shroud.Lowering
