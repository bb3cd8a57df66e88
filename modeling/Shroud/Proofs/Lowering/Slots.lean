import Shroud.Proofs.Constants

/-! # Types of slots

The values that programs have are moved word by word, each in a slot of its own (`fillsSlot`,
`IsMoved`). Tuples have no such type: by `Splits` their elements are moved in and published one after
another, and what is a tuple as a whole is never computed inside. How words encode values
is left to `Words`.
-/

namespace Shroud

/-! ## Types of slots -/

/-- The types of single slots: all but tuples and proofs. -/
def DataType.fillsSlot : DataType → Bool
  | .tuple _ | .proof => false
  | _ => true

namespace DataType

variable {t : DataType}

/-- The types of the values that programs have. They are no keys. -/
structure IsMoved (t : DataType) : Prop where
  fillsSlot : t.fillsSlot = true
  ne_key : t ≠ .key

theorem isMoved_of_isPrimitive (h : t.isPrimitive = true) : t.toAbstract.IsMoved := by
  cases t with
  | numberLit v =>
    rw [toAbstract]
    split <;> exact ⟨rfl, by rintro ⟨⟩⟩
  | tuple ts | proof | key => cases h
  | _ => exact ⟨rfl, by rintro ⟨⟩⟩

theorem IsDeclarable.isMoved (h : t.IsDeclarable) : t.toAbstract.IsMoved := by
  cases t with
  | numberLit v | tuple ts | proof | key => cases h
  | _ => exact ⟨rfl, by rintro ⟨⟩⟩

/-- The type of a value is that of a slot, or a tuple. -/
theorem IsValue.fillsSlot_or_tuple (h : t.IsValue) :
    t.toAbstract.fillsSlot = true ∨ ∃ ts, t = .tuple ts := by
  cases h with
  | declarable h => exact .inl h.isMoved.fillsSlot
  | number _ => exact .inl (isMoved_of_isPrimitive rfl).fillsSlot
  | bool => exact .inl rfl
  | tuple _ => exact .inr ⟨_, rfl⟩

theorem isLiteral_of_eq_tuple {ts : List OwnedType} (h : t = .tuple ts) : t.isLiteral = false := by
  rw [h]
  rfl

theorem ne_tuple_of_isPrimitive (h : t.isPrimitive = true) (ts : List OwnedType) :
    t ≠ .tuple ts := by
  rintro rfl
  cases h

end DataType

/-- Whatever changes its owner is computed inside. -/
def Expr.EntersWhole (e : Expr) : Prop :=
  ∀ i x o b, .reclassify i x o b ∈ e.subterms → x.info.inCircuit = true

theorem Expr.EntersWhole.child {e c : Expr} (h : e.EntersWhole) (hc : c ∈ e.children) :
    c.EntersWhole :=
  fun i x o b hx => h i x o b (Expr.mem_subterms_iff.2 (.inr ⟨c, hc, hx⟩))

/-- Whether the value of an expression is read where it is stored. -/
def Expr.isRead : Expr → Bool
  | .me _ | .ident _ _ | .index _ _ _ => true
  | _ => false

namespace Lowering

/-- An expression with several values at once, which have no form inside. -/
inductive Splits (p : Program) : Expr → Prop
  | tuple {i : Expr.Info} {es : List Expr} (hl : (Expr.tuple i es).type.type.isLiteral = false) :
      Splits p (.tuple i es)
  | call {i : Expr.Info} {f : FunctionId} {args : List Expr}
      (hl : (Expr.call i f args).type.type.isLiteral = false)
      (hr : (p.function f).returns.length ≠ 1) : Splits p (.call i f args)
  | reclassify {i : Expr.Info} {e : Expr} {o : Owner} {b : Bool}
      (hl : (Expr.reclassify i e o b).type.type.isLiteral = false) (hi : e.info.inCircuit = true)
      (he : Splits p e) : Splits p (.reclassify i e o b)
  | builtin {i : Expr.Info} {op : Operator} {args : List Expr} {b : Bool} {e : Expr}
      (hl : (Expr.builtin i op args b).type.type.isLiteral = false) (ha : e ∈ args)
      (he : Splits p e) : Splits p (.builtin i op args b)

end Lowering

namespace Typing

open Lowering (Splits)

variable {env : Env} {i : Expr.Info}

/-- The elements of a place can be declared. -/
theorem Typed.isDeclarable_index (hp : Declares env.program) {base idx : Expr}
    (h : Typed env (.index i base idx)) : (Expr.index i base idx).type.type.IsDeclarable := by
  cases h with
  | entry hb _ ht _ hu h =>
    have hbase := hb.isValue hp
    rw [ht] at hbase
    rw [h.type_eq, hu.type_eq]
    cases hbase with
    | declarable hd => exact OwnedType.isDeclarable_iff.1 hd.2
  | element hb _ ht _ _ h =>
    have hbase := hb.isValue hp
    rw [ht] at hbase
    rw [h.type_eq]
    cases hbase with
    | declarable hd => exact OwnedType.isDeclarable_iff.1 hd

/-- A tuple has several values at once. -/
theorem Typed.splits (hp : Declares env.program) {e : Expr} (h : Typed env e) (hin : e.EntersWhole)
    {ts : List OwnedType} (ht : e.type.type = .tuple ts) : Splits env.program e := by
  have hl := DataType.isLiteral_of_eq_tuple ht
  induction h generalizing ts with
  | bool h | number _ h | me h =>
    rw [h.type_eq] at ht
    cases ht
  | @ident i v h =>
    rw [h.type_eq] at ht
    have hd := OwnedType.isDeclarable_iff.1 (hp.vars v)
    rw [ht] at hd
    exact hd.elim
  | tuple _ _ _ => exact .tuple hl
  | entry hb hi htb hk hu h _ _ =>
    have hd := (Typed.entry hb hi htb hk hu h).isDeclarable_index hp
    rw [ht] at hd
    exact hd.elim
  | element hb hi htb hn hpub h _ _ =>
    have hd := (Typed.element hb hi htb hn hpub h).isDeclarable_index hp
    rw [ht] at hd
    exact hd.elim
  | @call i f args _ _ h _ =>
    refine .call hl fun hlen => ?_
    obtain ⟨t, hreturns⟩ := List.length_eq_one_iff.1 hlen
    have hd := OwnedType.isDeclarable_iff.1 (hp.returns f t (by simp [hreturns]))
    rw [h.type_eq, hreturns, returned] at ht
    rw [ht] at hd
    exact hd.elim
  | @raise i x o hx _ _ _ h ih =>
    have hxt : x.type.type = .tuple ts := by
      rw [h.type_eq] at ht
      exact ht
    refine .reclassify hl (hin i x o true (Expr.mem_subterms_self _)) ?_
    exact ih (hin.child (.head _)) hxt (DataType.isLiteral_of_eq_tuple hxt)
  | reveal _ hx _ _ hte _ _ h _ =>
    rw [h.type_eq] at ht
    rcases hte with rfl | rfl
    · exact absurd ht (DataType.ne_tuple_of_isPrimitive hx ts)
    · exact absurd ht (DataType.ne_tuple_of_isPrimitive (by simpa using hx) ts)
  | convert _ _ _ hx _ h _ | cast _ _ _ hx _ _ h _ =>
    rw [h.type_eq] at ht
    exact absurd ht (DataType.ne_tuple_of_isPrimitive hx ts)
  | @paren i args _ h ih =>
    rw [h.type_eq] at ht
    cases args with
    | nil => cases ht
    | cons a as =>
      have hat : a.type.type = .tuple ts := ht
      refine .builtin hl List.mem_cons_self ?_
      exact ih a List.mem_cons_self (hin.child (.head _)) hat
        (DataType.isLiteral_of_eq_tuple hat)
  | @fold _ _ _ l _ _ _ _ _ _ h _ =>
    rw [h.type_eq] at ht
    cases l <;> cases ht
  | @choose i c a b t o _ _ _ _ _ _ _ hta _ _ _ _ h _ iha _
  | @decide i c a b t _ _ _ _ _ _ hta _ _ _ _ _ _ h _ iha _ =>
    rw [h.type_eq] at ht
    have hat : a.type.type = .tuple ts := hta.trans ht
    refine .builtin hl (e := a) (by simp) ?_
    exact iha (hin.child (.tail _ (.head _))) hat (DataType.isLiteral_of_eq_tuple hat)
  | operate _ _ _ _ _ _ _ hx _ h _ | compute _ _ _ _ _ _ _ _ _ _ hx _ _ h _ =>
    rw [h.type_eq] at ht
    refine absurd ht (DataType.ne_tuple_of_isPrimitive ?_ ts)
    show (if _ then _ else _ : DataType).isPrimitive = true
    split
    · rfl
    · exact hx

theorem Typed.fillsSlot_or_splits (hp : Declares env.program) {e : Expr} (h : Typed env e)
    (hin : e.EntersWhole) : Splits env.program e ∨ e.type.type.toAbstract.fillsSlot = true := by
  rcases (h.isValue hp).fillsSlot_or_tuple with ht | ⟨ts, ht⟩
  · exact .inr ht
  · exact .inl (h.splits hp hin ht)

/-- The operand that decides about the others is a single value. -/
theorem Typed.isPrimitive_head {op : Operator} {a : Expr} {as : List Expr} {b : Bool}
    (h : Typed env (.builtin i op (a :: as) b)) (hop : op.isLazy = true) :
    a.type.type.isPrimitive = true := by
  have hbool : ∀ {t : DataType}, t.isBool = true → t.isPrimitive = true := fun ht => by
    simp [DataType.isPrimitive, ht]
  cases h with
  | paren _ _ => cases hop
  | fold _ _ hl _ _ _ _ => exact DataType.isPrimitive_of_isLiteral (hl a (by simp))
  | choose _ _ _ _ hb _ _ _ _ _ _ _ _ => exact hbool hb
  | decide _ _ _ _ _ _ _ _ _ _ hs _ _ _ =>
    rw [hs.2 trivial]
    rfl
  | operate _ _ _ hp _ _ _ _ _ _ => exact (hp a (by simp)).2
  | compute _ _ _ hp _ _ _ _ _ _ _ _ _ _ => exact hp a (by simp)

end Typing

end Shroud
