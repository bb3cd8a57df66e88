import Shroud.Circuit.Term
import Shroud.Proofs.Constants
import Shroud.Proofs.Operator

/-! # Trees of constants

An expression of a constant type is a tree of operators over constants. Without folding, a circuit
holds the tree as it stands; with folding, it holds the constant that the type has. Both have the
same exact value. `Expr.Forms` says how the two terms of any expression hang together: they differ
at the outermost parts of constant types, and nowhere else.
-/

namespace Shroud

open Circuit (Term)

namespace Circuit.Term

/-- The term that stands for a constant. -/
def ofLiteral : Literal → Term
  | .number n => .number n
  | .bool b => .bool b

mutual

/-- The exact value of a term of operators over constants. -/
def value? : Term → Option Literal
  | .number n => some (.number n)
  | .bool b => some (.bool b)
  | .op o args => (values? args).bind o.result
  | .wire _ | .cast _ _ | .encrypt _ _ => none

def values? : List Term → Option (List Literal)
  | [] => some []
  | t :: ts => (value? t).bind fun l => (values? ts).map (l :: ·)

end

end Circuit.Term

namespace DataType

/-- The constant that a type has as its only value. -/
def literal? : DataType → Option Literal
  | numberLit v => some (.number v)
  | boolLit b => some (.bool b)
  | _ => none

theorem isLiteral_of_literal? {t : DataType} {l : Literal} (h : t.literal? = some l) :
    t.isLiteral = true := by
  cases t <;> first | rfl | cases h

theorem literal?_of_isLiteral {t : DataType} (h : t.isLiteral = true) :
    t.literal? = some (Typing.literalOf t) := by
  cases t <;> first | rfl | cases h

theorem literal?_literalType (l : Literal) : (Typing.literalType l).literal? = some l := by
  cases l <;> rfl

end DataType

namespace Expr

mutual

/-- The tree of operators over constants that an expression is. -/
def tree? : Expr → Option Term
  | .bool _ b => some (.bool b)
  | .number _ n => some (.number n)
  | .builtin _ op args _ => (trees? args).map (.op op)
  | _ => none

def trees? : List Expr → Option (List Term)
  | [] => some []
  | e :: es => (tree? e).bind fun t => (trees? es).map (t :: ·)

end

/-- The expression is a tree with the exact value that its type has. -/
def IsTree (e : Expr) : Prop :=
  ∀ l, e.type.type.literal? = some l → ∃ t, e.tree? = some t ∧ t.value? = some l

/-- Constants that are written out have constant types. -/
def NumeralsTyped : Expr → Prop
  | bool i b => (bool i b).type.type.isLiteral = true
  | number i n => (number i n).type.type.isLiteral = true
  | _ => True

/-- The expression is moved into the circuit, or computed there by a held function. -/
def isMoved : Expr → Bool
  | me _ | ident _ _ | index _ _ _ | call _ _ _ | reclassify _ _ _ _ => true
  | _ => false

mutual

/-- The terms of an expression with folding and without it. -/
inductive Forms : Expr → Term → Term → Prop
  /-- A constant stands for a tree with its exact value. -/
  | constant {e : Expr} {l : Literal} {t : Term} (hl : e.type.type.literal? = some l)
      (ht : e.tree? = some t) (hv : t.value? = some l) : Forms e (.ofLiteral l) t
  | wire {e : Expr} {name : String} (hl : e.type.type.literal? = none) (hm : e.isMoved = true) :
      Forms e (.wire name) (.wire name)
  | reclassify {i : Info} {e : Expr} {o : Owner} {implicit : Bool} {s t : Term}
      (hl : (Expr.reclassify i e o implicit).type.type.literal? = none) (h : Forms e s t) :
      Forms (.reclassify i e o implicit) s t
  | cast {i : Info} {type : DataType} {e : Expr} {implicit : Bool} {s t : Term}
      (hl : (Expr.cast i type e implicit).type.type.literal? = none) (h : Forms e s t) :
      Forms (.cast i type e implicit) (.cast type s) (.cast type t)
  | builtin {i : Info} {op : Operator} {args : List Expr} {isPrivate : Bool} {ss ts : List Term}
      (hl : (Expr.builtin i op args isPrivate).type.type.literal? = none)
      (h : FormsAll args ss ts) : Forms (.builtin i op args isPrivate) (.op op ss) (.op op ts)

inductive FormsAll : List Expr → List Term → List Term → Prop
  | nil : FormsAll [] [] []
  | cons {e : Expr} {es : List Expr} {s t : Term} {ss ts : List Term} (h : Forms e s t)
      (hs : FormsAll es ss ts) : FormsAll (e :: es) (s :: ss) (t :: ts)

end

end Expr

namespace Typing

variable {env : Env} {e : Expr}

/-- What the operands of a constant have as trees. -/
theorem trees_of_args {args : List Expr} (hlit : ∀ a ∈ args, a.type.type.isLiteral = true)
    (htree : ∀ a ∈ args, a.IsTree) : ∃ ts, Expr.trees? args = some ts ∧
      Term.values? ts = some (args.map fun a => literalOf a.type.type) := by
  induction args with
  | nil => exact ⟨[], rfl, rfl⟩
  | cons a as ih =>
    rw [List.forall_mem_cons] at hlit htree
    obtain ⟨t, ht, hv⟩ := htree.1 _ (DataType.literal?_of_isLiteral hlit.1)
    obtain ⟨ts, hts, hvs⟩ := ih hlit.2 htree.2
    refine ⟨t :: ts, ?_, ?_⟩
    · rw [Expr.trees?, ht, hts]
      rfl
    · rw [Term.values?, hv, hvs]
      rfl

/-- The number of a constant type fits a machine word. -/
theorem Typed.fitsWord (hp : Declares env.program) (h : Typed env e) {n : Int}
    (ht : e.type.type = .numberLit n) : Literal.fitsWord n = true := by
  have hv := h.isValue hp
  rw [ht] at hv
  cases hv with
  | number hn => exact hn
  | declarable hd => cases hd

/-- **A typed constant is a tree with the value of its type.** -/
theorem Typed.isTree (hp : Declares env.program) (h : Typed env e) (hs : e.ConstantsSaturated) :
    e.IsTree := by
  induction e using Expr.induct_children with
  | h e ih =>
    intro l hl
    have hlit := DataType.isLiteral_of_literal? hl
    have hchild : ∀ c ∈ e.children, c.IsTree := fun c hc =>
      ih c hc (h.children c hc) fun x hx => hs x (Expr.mem_subterms_iff.2 (.inr ⟨c, hc, hx⟩))
    have hself := hs e (by simp) hlit
    rcases h.literal_shape hp hlit with ⟨i, b, rfl, ht⟩ | ⟨i, n, rfl, -, ht⟩ | ⟨i, args, rfl, ht⟩ |
      ⟨i, op, args, r, rfl, -, hargs, hfold, ht⟩
    · rw [ht] at hl
      exact ⟨.bool b, rfl, hl⟩
    · rw [ht] at hl
      exact ⟨.number n, rfl, hl⟩
    · -- Parentheses have the type of what is in them.
      obtain ⟨a, rfl⟩ := List.length_eq_one_iff.1 hself
      rw [ht] at hl
      obtain ⟨t, ha, hv⟩ := hchild a (.head _) l hl
      refine ⟨.op .paren [t], ?_, ?_⟩
      · simp [Expr.tree?, Expr.trees?, ha]
      · simp [Term.value?, Term.values?, hv, Operator.result]
    · obtain ⟨ts, hts, hvs⟩ := trees_of_args hargs fun a ha => hchild a ha
      refine ⟨.op op ts, by rw [Expr.tree?, hts]; rfl, ?_⟩
      rw [ht, OwnedType.type_mk, DataType.literal?_literalType] at hl
      rw [Term.value?, hvs, Option.bind_some, ← hl]
      refine Operator.result_of_fold (fun n hn => ?_) hfold
      obtain ⟨a, ha, hn⟩ := List.mem_map.1 hn
      refine (h.children a ha).fitsWord hp ?_
      have hla := hargs a ha
      cases hta : a.type.type <;> simp_all [literalOf, DataType.isLiteral]

theorem Typed.numeralsTyped (h : Typed env e) : e.NumeralsTyped := by
  cases h with
  | bool h | number _ h => rw [Expr.NumeralsTyped, h.type_eq]; rfl
  | _ => trivial

end Typing

namespace Program

/-- The expression is part of a function's body. -/
def Contains (p : Program) (e : Expr) : Prop :=
  ∃ f : FunctionId, f.index < p.functions.length ∧
    ∃ t ∈ (p.function f).body.walk, ∃ r ∈ t.roots, e ∈ r.2.subterms

theorem Contains.child {p : Program} {e c : Expr} (h : p.Contains e) (hc : c ∈ e.children) :
    p.Contains c := by
  obtain ⟨f, hf, t, ht, r, hr, he⟩ := h
  exact ⟨f, hf, t, ht, r, hr,
    Expr.mem_subterms_trans he (Expr.mem_subterms_iff.2 (.inr ⟨c, hc, by simp⟩))⟩

end Program

/-- The constants of a checked program are trees with the values of their types. -/
theorem SourceUnit.check_isTree {u : SourceUnit} {p : Program} (h : Passes u.check p) {e : Expr}
    (he : p.Contains e) : e.IsTree ∧ e.NumeralsTyped := by
  obtain ⟨f, hf, t, ht, r, hr, he⟩ := he
  have hq := check_checked h
  have htyped := (((hq.types.function f hf).body t ht).roots r hr).subterms e he
  refine ⟨htyped.isTree (Typing.declares_of_scoped hq.names) fun x hx => ?_, htyped.numeralsTyped⟩
  exact check_constantsSaturated h hf ht r hr x (Expr.mem_subterms_trans he hx)

end Shroud
