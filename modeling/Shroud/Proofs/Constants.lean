import Mathlib
import Shroud.Proofs.Checked

/-! # Constants

An expression of a constant type consists of constants, so it calls nothing. This needs the number
of operands: in parentheses, only the first one gives the type. A source has all operators with
their operands, and implicit conversions do not change that.
-/

namespace Shroud

namespace Expr

variable {e : Expr}

theorem mem_subterms_trans {x y : Expr} (hx : x ∈ e.subterms) (hy : y ∈ x.subterms) :
    y ∈ e.subterms :=
  forall_subterms (P := (·.subterms ⊆ e.subterms)) (List.Subset.refl _)
    (fun h c hc _ hy => h (mem_subterms_iff.2 (.inr ⟨c, hc, hy⟩))) x hx hy

/-- What implicit conversions do not affect holds of the written form if it holds. -/
theorem forall_subterms_plain {P : Expr → Prop} (himplicit : ∀ e, e.isImplicit = true → P e)
    (hplain : ∀ e, e.isImplicit = false → (P e.plain ↔ P e)) (e : Expr) :
    (∀ x ∈ e.plain.subterms, P x) ↔ ∀ x ∈ e.subterms, P x := by
  let g (x : Expr) : Option Prop := if x.isImplicit then none else some (P x)
  have hg : ∀ l : List Expr, (∀ Q ∈ l.filterMap g, Q) ↔ ∀ x ∈ l, P x := by
    intro l
    simp only [List.mem_filterMap]
    constructor
    · intro h x hx
      by_cases hi : x.isImplicit = true
      · exact himplicit x hi
      · exact h _ ⟨x, hx, if_neg hi⟩
    · rintro h Q ⟨x, hx, hQ⟩
      simp only [g] at hQ
      split_ifs at hQ
      cases hQ
      exact h x hx
  rw [← hg, ← hg, filterMap_subterms_plain g (fun x hx => if_pos hx)]
  intro x hx
  have hx' : x.plain.isImplicit = false := by
    cases x <;> simp_all [isImplicit, plain]
  simp [g, hx, hx', hplain x hx]

/-- All operators in the expression have as many operands as they take. -/
def Saturated (e : Expr) : Prop := ∀ x ∈ e.subterms, x.IsSaturated

theorem saturated_iff : e.Saturated ↔ e.IsSaturated ∧ ∀ c ∈ e.children, c.Saturated :=
  forall_subterms_iff

@[simp] theorem saturated_plain (e : Expr) : e.plain.Saturated ↔ e.Saturated := by
  refine forall_subterms_plain (fun x hx => ?_) (fun x hx => ?_) e
  · cases x <;> simp_all [isImplicit, IsSaturated]
  · cases x <;> simp_all [isImplicit, IsSaturated, plain, plainList_eq_map]

theorem Written.saturated (h : e.Written) (hs : e.IsSaturated) : e.Saturated := by
  induction e using Expr.induct_children with
  | h e ih =>
    refine saturated_iff.2 ⟨hs, fun c hc => ?_⟩
    obtain ⟨hcs, hcw⟩ := (written_iff.1 h).2 c hc
    exact ih c hc hcw hcs

/-- The operands of the operator, if the expression is one, are saturated. -/
def OperandsSaturated : Expr → Prop
  | builtin _ _ args _ => ∀ a ∈ args, a.Saturated
  | _ => True

theorem operandsSaturated_plain (e : Expr) :
    (∀ x ∈ e.plain.subterms, x.OperandsSaturated) ↔ ∀ x ∈ e.subterms, x.OperandsSaturated := by
  refine forall_subterms_plain (fun x hx => ?_) (fun x hx => ?_) e
  · cases x <;> simp_all [isImplicit, OperandsSaturated]
  · cases x <;> simp_all [isImplicit, OperandsSaturated, plain, plainList_eq_map]

theorem Written.operandsSaturated (h : e.Written) : ∀ x ∈ e.subterms, x.OperandsSaturated := by
  intro x hx
  have hw : x.Written := fun y hy => h y (mem_subterms_trans hx hy)
  cases x with
  | builtin i op args b =>
    intro a ha
    obtain ⟨has, haw⟩ := (written_iff.1 hw).2 a ha
    exact haw.saturated has
  | _ => trivial

/-- The expression is a place to store something, perhaps converted. -/
def isPlace : Expr → Bool
  | ident _ _ | index _ _ _ | tuple _ _ => true
  | reclassify _ e _ implicit | cast _ _ e implicit => implicit && e.isPlace
  | _ => false

@[simp] theorem isPlace_plain (e : Expr) : e.plain.isPlace = e.isPlace := by
  induction e using Expr.induct_children with
  | h e ih => cases e <;> simp_all [plain, isPlace, children, apply_ite]

/-- The expression is an operator with a place as its first operand. -/
def ReadsPlace : Expr → Prop
  | builtin _ _ (a :: _) _ => a.isPlace = true
  | _ => False

/-- All operators in the expression have as many operands as they take, or read a place. -/
theorem saturated_or_readsPlace_plain (e : Expr) :
    (∀ x ∈ e.plain.subterms, x.IsSaturated ∨ x.ReadsPlace) ↔
      ∀ x ∈ e.subterms, x.IsSaturated ∨ x.ReadsPlace := by
  refine forall_subterms_plain (fun x hx => ?_) (fun x hx => ?_) e
  · cases x <;> simp_all [isImplicit, IsSaturated]
  · rcases x with _ | _ | _ | _ | ⟨_, _, _ | ⟨a, as⟩, _⟩ | _ | _ | _ | _ | _ <;>
      simp_all [isImplicit, IsSaturated, ReadsPlace, plain, plainList_eq_map]

/-- The constants in the expression have as many operands as they take. -/
def ConstantsSaturated (e : Expr) : Prop :=
  ∀ x ∈ e.subterms, x.type.type.isLiteral = true → x.IsSaturated

/-- A constant, or an operator. -/
def IsConstant : Expr → Prop
  | bool _ _ | number _ _ | builtin _ _ _ _ => True
  | _ => False

end Expr

namespace Typing

variable {env : Env} {e : Expr}

theorem Typed.children (h : Typed env e) : ∀ c ∈ e.children, Typed env c := by
  cases h <;> simp_all [Expr.children]

theorem Typed.subterms (h : Typed env e) : ∀ x ∈ e.subterms, Typed env x :=
  Expr.forall_subterms h Typed.children

theorem IsTarget.isPlace {p : Program} (h : IsTarget p e) : e.isPlace = true := by
  cases h <;> rfl

section Literals

variable (hp : Declares env.program) (h : Typed env e)

include hp h

/-- An expression of a constant type is a constant, an expression in parentheses or an operator on
constants. -/
theorem Typed.literal_shape (hl : e.type.type.isLiteral = true) :
    (∃ i b, e = .bool i b ∧ e.type = .ofAll (.boolLit b)) ∨
    (∃ i n, e = .number i n ∧ Literal.fitsWord n = true ∧ e.type = .ofAll (.numberLit n)) ∨
    (∃ i args, e = .builtin i .paren args false ∧ e.type = (args.headD default).type) ∨
    ∃ i op args l, e = .builtin i op args false ∧ op ≠ .paren ∧
      (∀ a ∈ args, a.type.type.isLiteral = true) ∧
      op.fold (args.map fun a => literalOf a.type.type) = some l ∧
      e.type = .ofAll (literalType l) := by
  have hnot : ∀ {t : OwnedType}, e.type = t → t.type.isLiteral = false → False := by
    intro t ht hf
    rw [ht, hf] at hl
    cases hl
  cases h with
  | bool h => exact .inl ⟨_, _, rfl, h.type_eq⟩
  | number hn h => exact .inr (.inl ⟨_, _, rfl, hn, h.type_eq⟩)
  | me h => exact (hnot h.type_eq rfl).elim
  | ident h => exact (hnot h.type_eq (OwnedType.isDeclarable_iff.1 (hp.vars _)).isLiteral_eq).elim
  | tuple _ h => exact (hnot h.type_eq rfl).elim
  | entry hb _ ht _ hu h =>
    have hv := hb.isValue hp
    rw [ht] at hv
    cases hv with
    | declarable hd =>
      refine (hnot h.type_eq ?_).elim
      rw [hu.type_eq]
      exact (OwnedType.isDeclarable_iff.1 hd.2).isLiteral_eq
  | element hb _ ht _ _ h =>
    have hv := hb.isValue hp
    rw [ht] at hv
    cases hv with
    | declarable hd => exact (hnot h.type_eq (OwnedType.isDeclarable_iff.1 hd).isLiteral_eq).elim
  | call _ _ h => exact (hnot h.type_eq (returned_isConcrete (hp.returns _)).isLiteral_eq).elim
  | raise _ _ hl' _ h | reveal _ _ _ hl' _ _ _ h => exact (hnot h.type_eq hl').elim
  | convert _ _ hd _ _ h | cast _ _ hd _ _ _ h => exact (hnot h.type_eq hd.isLiteral_eq).elim
  | paren _ h => exact .inr (.inr (.inl ⟨_, _, rfl, h.type_eq⟩))
  | fold _ hop hlit _ _ hf h =>
    exact .inr (.inr (.inr ⟨_, _, _, _, rfl, hop, hlit, hf, h.type_eq⟩))
  | choose _ _ _ _ _ _ hl' _ _ _ _ _ h | decide _ _ _ _ _ hl' _ _ _ _ _ _ _ h =>
    exact (hnot h.type_eq hl').elim
  | operate _ _ _ _ _ _ hd _ _ h | compute _ _ _ _ _ _ _ _ _ hd _ _ _ h =>
    refine (hnot h.type_eq ?_).elim
    split
    · rfl
    · exact hd.isLiteral_eq

/-- Constants are public. -/
theorem Typed.owner_of_isLiteral (hl : e.type.type.isLiteral = true) : e.type.owner = .all := by
  induction e using Expr.induct_children with
  | h e ih =>
    rcases h.literal_shape hp hl with ⟨i, b, rfl, ht⟩ | ⟨i, n, rfl, -, ht⟩ | ⟨i, args, rfl, ht⟩ |
      ⟨i, op, args, l, rfl, -, -, -, ht⟩
    · rw [ht]; rfl
    · rw [ht]; rfl
    · rw [ht] at hl ⊢
      cases args with
      | nil => rfl
      | cons a as =>
        have ha : a ∈ (Expr.builtin i .paren (a :: as) false).children := by simp [Expr.children]
        exact ih a ha (h.children a ha) hl
    · rw [ht]; rfl

/-- An expression of a constant type is a constant, or an operator on constants. It is private only
if one of its operands is. -/
theorem Typed.literal_cases (hs : e.IsSaturated) (hl : e.type.type.isLiteral = true) :
    ((∃ i b, e = .bool i b) ∨ ∃ i n, e = .number i n) ∧ e.type.isPrivate = false ∨
    ∃ i op args, e = .builtin i op args false ∧ (∀ a ∈ args, a.type.type.isLiteral = true) ∧
      (e.type.isPrivate = true → ∃ a ∈ args, a.type.isPrivate = true) := by
  rcases h.literal_shape hp hl with ⟨i, b, rfl, ht⟩ | ⟨i, n, rfl, -, ht⟩ | ⟨i, args, rfl, ht⟩ |
    ⟨i, op, args, l, rfl, -, hlit, -, ht⟩
  · exact .inl ⟨.inl ⟨_, _, rfl⟩, by rw [ht]; rfl⟩
  · exact .inl ⟨.inr ⟨_, _, rfl⟩, by rw [ht]; rfl⟩
  · obtain ⟨a, rfl⟩ := List.length_eq_one_iff.1 hs
    rw [ht] at hl ⊢
    exact .inr ⟨_, _, _, rfl, by simpa using hl, by simp⟩
  · refine .inr ⟨_, _, _, rfl, hlit, fun hprivate => ?_⟩
    rw [ht] at hprivate
    cases hprivate

/-- An operator on a place is not constant. -/
theorem Typed.not_readsPlace (hl : e.type.type.isLiteral = true) : ¬ e.ReadsPlace := by
  have hplace : ∀ a ∈ e.children, a.type.type.isLiteral = true → a.isPlace = false := by
    intro a ha hla
    rcases (h.children a ha).literal_shape hp hla with ⟨_, _, rfl, -⟩ | ⟨_, _, rfl, -⟩ |
      ⟨_, _, rfl, -⟩ | ⟨_, _, _, _, rfl, -⟩ <;> rfl
  intro hreads
  rcases h.literal_shape hp hl with ⟨_, _, rfl, -⟩ | ⟨_, _, rfl, -⟩ | ⟨_, args, rfl, ht⟩ |
    ⟨_, _, args, _, rfl, -, hlit, -⟩
  · exact hreads
  · exact hreads
  · rcases args with _ | ⟨a, as⟩
    · exact hreads
    rw [ht] at hl
    exact Bool.false_ne_true ((hplace a (.head _) hl).symm.trans hreads)
  · rcases args with _ | ⟨a, as⟩
    · exact hreads
    refine Bool.false_ne_true ((hplace a (.head _) (hlit a ?_)).symm.trans hreads)
    simp

/-- Constants consist of constants and operators. -/
theorem Typed.constant_of_isLiteral (hs : e.Saturated) (hl : e.type.type.isLiteral = true) :
    ∀ x ∈ e.subterms, x.IsConstant := by
  induction e using Expr.induct_children with
  | h e ih =>
    obtain ⟨hself, hchildren⟩ := Expr.saturated_iff.1 hs
    have hparts : ∀ c ∈ e.children, c.type.type.isLiteral = true →
        ∀ x ∈ c.subterms, x.IsConstant := fun c hc hl =>
      ih c hc (h.children c hc) (hchildren c hc) hl
    intro x hx
    obtain ⟨⟨i, b, rfl⟩ | ⟨i, n, rfl⟩, -⟩ | ⟨i, op, args, rfl, hargs, -⟩ :=
        h.literal_cases hp hself hl <;>
      obtain rfl | ⟨c, hc, hx⟩ := Expr.mem_subterms_iff.1 hx
    · trivial
    · cases hc
    · trivial
    · cases hc
    · trivial
    · exact hparts c hc (hargs c hc) x hx

/-- Constants are public. -/
theorem Typed.isPublic_of_isLiteral (hs : e.Saturated) (hl : e.type.type.isLiteral = true) :
    e.type.isPrivate = false := by
  induction e using Expr.induct_children with
  | h e ih =>
    obtain ⟨hself, hchildren⟩ := Expr.saturated_iff.1 hs
    obtain ⟨-, hpublic⟩ | ⟨i, op, args, rfl, hargs, hprivate⟩ := h.literal_cases hp hself hl
    · exact hpublic
    · by_contra hcontra
      obtain ⟨a, ha, hap⟩ := hprivate (Bool.not_eq_false _ ▸ hcontra)
      rw [ih a ha (h.children a ha) (hchildren a ha) (hargs a ha)] at hap
      cases hap

end Literals

/-- The expressions of a statement that obeys the rules are typed. -/
theorem Obeys.roots {s : Stmt} (h : Obeys env s) : ∀ r ∈ s.roots, Typed env r.2 := by
  cases s <;> simp_all [Obeys, Stmt.roots, Open]

end Typing

/-! ## Checked programs -/

/-- The expressions of the statement have as many operands as they take. An assignment with an
operator is an exception: whatever the operator takes, it gets the target and the value. -/
def Stmt.RootsSaturated : Stmt → Prop
  | assign _ lhs rhs => lhs.IsSaturated ∧
    (rhs.IsSaturated ∨ ∃ i op value, rhs = .builtin i op [lhs, value] false)
  | s => ∀ r ∈ s.roots, r.2.IsSaturated

theorem Stmt.RootsSaturated.cases {s : Stmt} (h : s.RootsSaturated) {r : Use × Expr}
    (hr : r ∈ s.roots) : r.2.IsSaturated ∨
      ∃ i lhs j op value, s = .assign i lhs r.2 ∧ r.2 = .builtin j op [lhs, value] false := by
  cases s with
  | assign i lhs rhs =>
    obtain rfl | rfl : r = (.target, lhs) ∨ r = (.value, rhs) := by simpa [Stmt.roots] using hr
    · exact .inl h.1
    · exact h.2.imp_right fun ⟨j, op, value, hrhs⟩ => ⟨i, lhs, j, op, value, rfl, hrhs⟩
  | _ => exact .inl (h r hr)

theorem Scope.Env.ResolvedStmt.rootsSaturated {env : Scope.Env} {s : Stmt}
    (h : env.ResolvedStmt s) : s.RootsSaturated := by
  cases s with
  | assign i lhs rhs =>
    refine ⟨h.1.2.1, h.2.1.imp (fun hr => hr.2.1) ?_⟩
    rintro ⟨j, op, value, hrhs, -⟩
    exact ⟨j, op, value, hrhs⟩
  | _ => exact fun r hr => (h r hr).2.1

namespace SourceUnit

variable {u : SourceUnit} {f : FunctionId} {q : Program}

theorem resolve_rootsSaturated {p : Program} (h : u.resolve = .ok p) :
    ∀ f ∈ p.functions, ∀ t ∈ f.body.walk, t.RootsSaturated := by
  refine resolve_induct (P := fun _ p => ∀ f ∈ p.functions, ∀ t ∈ f.body.walk, t.RootsSaturated) h
    (List.forall_mem_nil _) fun _ q c r hc hq f hf => ?_
  obtain ⟨a⟩ := Scope.contract_adds hc
  rcases List.mem_append.1 (a.functions_eq ▸ hf) with hf | hf
  · exact hq f hf
  · exact fun t ht => (a.resolved f hf t ht).rootsSaturated

variable {t : Stmt} (h : Passes u.check q) (hf : q.Has f)
  (ht : t ∈ (q.function f).body.walk)

include h hf ht

/-- A statement of a checked program is like one that was written. -/
theorem check_written : ∃ t₀, (∀ r ∈ t₀.roots, r.2.Written) ∧
      t₀.RootsSaturated ∧ Stmt.Alike (fun _ _ => True) (fun e e' => e'.plain = e.plain) t₀ t := by
  obtain ⟨p, -, hp, -⟩ := check_typed h
  have halike := check_alike hp h
  have hfp : p.Has f := halike.has.1 hf
  obtain ⟨t₀, ht₀, htt⟩ := (halike.body f hfp).walk.exists_left ht
  exact ⟨t₀, (resolve_written hp _ (Program.function_mem hfp)).roots ht₀,
    resolve_rootsSaturated hp _ (Program.function_mem hfp) _ ht₀, htt⟩

/-- Checked programs have saturated operands, and saturated conditions. -/
theorem check_saturated : (∀ r ∈ t.roots, ∀ x ∈ r.2.subterms, x.OperandsSaturated) ∧
      ∀ i c yes no, t = .cond i c yes no → c.Saturated := by
  obtain ⟨t₀, hwritten, hroots, htt⟩ := check_written h hf ht
  constructor
  · intro r hr
    obtain ⟨r₀, hr₀, -, hrr⟩ := htt.roots.exists_left hr
    rw [← Expr.operandsSaturated_plain, hrr, Expr.operandsSaturated_plain]
    exact (hwritten r₀ hr₀).operandsSaturated
  · rintro i c yes no rfl
    cases htt with
    | @cond _ _ c₀ _ _ _ _ _ _ hcc _ _ =>
      have hw : c₀.Written := hwritten (.value, c₀) (.head _)
      rw [← Expr.saturated_plain, hcc, Expr.saturated_plain]
      exact hw.saturated (hroots (.value, c₀) (.head _))

/-- The constants of a checked program are saturated. The value of an assignment with an operator
may have other operands than the operator takes, but it reads the target, so it is not constant. -/
theorem check_constantsSaturated : ∀ r ∈ t.roots, r.2.ConstantsSaturated := by
  intro r hr
  have hq := check_checked h
  obtain ⟨t₀, hwritten, hroots, htt⟩ := check_written h hf ht
  obtain ⟨r₀, hr₀, -, hrr⟩ := htt.roots.exists_left hr
  have hw₀ : r₀.2.Written := hwritten r₀ hr₀
  have hobeys := (hq.types.function f hf).body t ht
  have hroot : r₀.2.IsSaturated ∨ r₀.2.ReadsPlace := by
    refine (hroots.cases hr₀).imp_right fun ⟨i, lhs₀, j, op, value, hassign, hvalue⟩ => ?_
    subst hassign
    cases htt with
    | assign _ hlhs _ =>
      obtain ⟨-, htarget, -⟩ := hobeys
      rw [hvalue, Expr.ReadsPlace, ← Expr.isPlace_plain, ← hlhs, Expr.isPlace_plain]
      exact htarget.isPlace
  have hall : ∀ x ∈ r.2.subterms, x.IsSaturated ∨ x.ReadsPlace := by
    rw [← Expr.saturated_or_readsPlace_plain, hrr, Expr.saturated_or_readsPlace_plain]
    intro x hx
    rcases Expr.mem_subterms_iff.1 hx with rfl | ⟨c, hc, hx⟩
    · exact hroot
    · obtain ⟨hcs, hcw⟩ := (Expr.written_iff.1 hw₀).2 c hc
      exact .inl (hcw.saturated hcs x hx)
  intro x hx hl
  refine (hall x hx).resolve_right fun hplace => ?_
  exact (hobeys.roots r hr |>.subterms x hx).not_readsPlace (Typing.declares_of_scoped hq.names) hl hplace

end SourceUnit

end Shroud
