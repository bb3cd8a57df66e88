import Shroud.Proofs.Scope
import Shroud.Typing.Program

/-! # Types of checked expressions

`Typed` says what the rules for types guarantee about an expression and everything in it, the
implicit conversions included: one rule for every way in which an expression comes to its type. The
checker finds only typed expressions, and an expression that is put where a type is expected
`Stands` there afterwards.
-/

namespace Shroud

variable {t : OwnedType}

/-! ## Types of places and of values -/

/-- The types that values are converted to: declarable types, and tuples of these. -/
inductive DataType.IsConcrete : DataType → Prop
  | declarable {t : DataType} : t.IsDeclarable → t.IsConcrete
  | tuple {ts : List OwnedType} : (∀ t ∈ ts, t.type.IsConcrete) → (DataType.tuple ts).IsConcrete

/-- The types of expressions: declarable types, constants that fit a machine word, and tuples of
these. -/
inductive DataType.IsValue : DataType → Prop
  | declarable {t : DataType} : t.IsDeclarable → t.IsValue
  | number {v : Int} : Literal.fitsWord v = true → (DataType.numberLit v).IsValue
  | bool {b : Bool} : (DataType.boolLit b).IsValue
  | tuple {ts : List OwnedType} : (∀ t ∈ ts, t.type.IsValue) → (DataType.tuple ts).IsValue

namespace DataType

variable {t : DataType}

theorem IsDeclarable.isLiteral_eq (h : t.IsDeclarable) : t.isLiteral = false := by
  cases t <;> first | rfl | cases h

theorem IsConcrete.isLiteral_eq (h : t.IsConcrete) : t.isLiteral = false := by
  cases h with
  | declarable h => exact h.isLiteral_eq
  | tuple _ => rfl

theorem IsConcrete.isValue (h : t.IsConcrete) : t.IsValue := by
  induction h with
  | declarable h => exact .declarable h
  | tuple _ ih => exact .tuple ih

/-- The declarable type of a primitive value. -/
theorem IsValue.toAbstract (h : t.IsValue) (hp : t.isPrimitive = true) :
    t.toAbstract.IsDeclarable := by
  cases h with
  | declarable h => cases t <;> first | exact h | cases h
  | number _ =>
    simp only [DataType.toAbstract]
    split <;> trivial
  | bool => trivial
  | tuple _ => cases hp

@[simp] theorem convertsTo_self (t : DataType) : t.convertsTo t = true := by
  cases t <;> simp [convertsTo]

@[simp] theorem isPrimitive_toAbstract (t : DataType) :
    t.toAbstract.isPrimitive = t.isPrimitive := by
  cases t with
  | numberLit v =>
    simp only [DataType.toAbstract]
    split <;> rfl
  | _ => rfl

end DataType

namespace Literal

/-- The type of a constant is wide enough for it. -/
theorem minBits_le_width {v : Int} (h : fitsWord v = true) : minBits v ≤ width v := by
  simp only [fitsWord, decide_eq_true_eq] at h
  simp only [width]
  omega

end Literal

/-- What the type of a constant converts to, the constant itself converts to. -/
theorem DataType.convertsTo_of_toAbstract {t u : DataType} (ht : t.IsValue)
    (h : t.toAbstract.convertsTo u = true) (hu : u.isLiteral = false) :
    t.convertsTo u = true := by
  cases ht with
  | @number v hv =>
    have hw := Literal.minBits_le_width hv
    cases v with
    | ofNat n =>
      have hpos : ¬ Int.ofNat n < 0 := by simp
      simp only [toAbstract, hpos, if_false, Literal.minBits] at h hw
      cases u <;> simp_all [convertsTo, canRepresent, Literal.fitsUnsigned, Literal.fitsSigned,
        isLiteral] <;> omega
    | negSucc n =>
      have hneg : Int.negSucc n < 0 := Int.negSucc_lt_zero n
      simp only [toAbstract, hneg, if_true, Literal.minBits] at h hw
      cases u <;> simp_all [convertsTo, canRepresent, Literal.fitsSigned, isLiteral]
      omega
  | @bool b => cases u <;> simp_all [toAbstract, convertsTo, isLiteral]
  | declarable hd =>
    cases t <;> first | exact h | cases hd
  | tuple _ => exact h

namespace DataType

variable {t u a b : DataType}

theorem IsDeclarable.toAbstract_eq (h : t.IsDeclarable) : t.toAbstract = t := by
  cases t <;> first | rfl | cases h

theorem isPrimitive_of_isLiteral (h : t.isLiteral = true) : t.isPrimitive = true := by
  cases t <;> first | rfl | cases h

/-- Of all primitive types, only the widest signed one cannot be private. -/
theorem not_revealable_iff (h : t.isPrimitive = true) :
    (!t.canBePrivate && !t.isLiteral) = true ↔ t = .int 256 := by
  cases t with
  | int n =>
    by_cases hn : n = 256
    · subst hn
      decide
    · simp [canBePrivate, hn]
  | _ => simp_all [canBePrivate, isLiteral, isPrimitive, isNumeric, isBool, isAddress]

theorem isLiteral_of_convertsTo (h : t.convertsTo u = true) (hu : u.isLiteral = true) :
    t.isLiteral = true := by
  cases u with
  | numberLit v => cases t <;> simp_all [convertsTo, isLiteral]
  | boolLit b => cases t <;> simp_all [convertsTo, isLiteral, canRepresent]
  | _ => cases hu

theorem common?_eq_type (h : a.common? b = some (.type t)) :
    ¬ (a.isLiteral && b.isLiteral) = true ∧
      (a.convertsTo b = true ∧ t = b ∨ b.convertsTo a = true ∧ t = a) := by
  unfold common? at h
  split_ifs at h <;> simp_all

theorem common?_eq_literal (h : a.common? b = some .literal) : a.isLiteral = true := by
  unfold common? at h
  split_ifs at h <;> simp_all

/-- What a value that is no constant is converted to is declarable, or it is a tuple. -/
theorem IsValue.of_convertsTo (h : u.IsValue) (hc : t.convertsTo u = true)
    (hl : ¬ (t.isLiteral && u.isLiteral) = true) :
    u.toAbstract.IsDeclarable ∨ ∃ ts, u = .tuple ts ∧ t = u := by
  have hu : u.isLiteral = false := by
    by_contra hne
    rw [Bool.not_eq_false] at hne
    exact hl (by rw [isLiteral_of_convertsTo hc hne, hne]; rfl)
  cases h with
  | declarable h => exact .inl (by rwa [h.toAbstract_eq])
  | number _ | bool => cases hu
  | @tuple ts _ =>
    refine .inr ⟨ts, rfl, ?_⟩
    cases t <;> simp_all [convertsTo, canRepresent]

end DataType

theorem OwnedType.isDeclarable_iff : t.IsDeclarable ↔ t.type.IsDeclarable := by
  cases t
  rfl

mutual

/-- Only single values have owners of their own, and keys are single values. -/
def OwnedType.WellOwned : OwnedType → Prop
  | .mk t o => (o.isPrivate = true → t.canBePrivate = true) ∧ t.WellOwned

def DataType.WellOwned : DataType → Prop
  | .mapping k _ v => k.isPrimitive = true ∧ v.WellOwned
  | .array e _ => e.WellOwned
  | _ => True

end

/-- The type is known. -/
def Expr.HasType (e : Expr) (t : OwnedType) : Prop := e.info.type? = some t

theorem Expr.HasType.type_eq {e : Expr} (h : e.HasType t) : e.type = t := by
  rw [Expr.type, h]
  rfl

theorem Expr.HasType.isPrivate_eq {e : Expr} (h : e.HasType t) : e.isPrivate = t.isPrivate := by
  rw [Expr.isPrivate, h]

namespace Typing

/-! ## The rules -/

/-- A value of the first type can stand where the second is expected, as it is. -/
def Stands (env : Env) (a b : OwnedType) : Prop :=
  fit env a b = .exact ∧ (b.type.IsDeclarable → a.type = b.type)

/-- The type of a constant. -/
def literalType : Literal → DataType
  | .number v => .numberLit v
  | .bool b => .boolLit b

/-- The operands that are converted to the type in which an operator works: all but the amount of a
shift. -/
def converted (op : Operator) (args : List Expr) : List Expr :=
  if op.isShift then args.take 1 else args

/-- The type of an element of a mapping, given the label of the index. An index for a named key has
to stand for an owner, which owns the element where the key is said to. -/
inductive EntryType : Option String → Option Label → OwnedType → OwnedType → Prop
  | anonymous {x : Option Label} {t : OwnedType} : EntryType none x t t
  | named {n : String} {x : Label} {t : OwnedType} (h : ∀ k, t.owner ≠ .key k) :
      EntryType (some n) (some x) t t
  | owned {n k : String} {x : Label} {t : OwnedType} (h : t.owner = .key k) :
      EntryType (some n) (some x) t (.mk t.type x.owner)

/-- The owner that the branches of a choice with a public condition have in common. -/
def commonOwner? (env : Env) (a b : Owner) : Option Owner :=
  if env.sameOwner a b then some a
  else if a.isAll then some b
  else if b.isAll then some a
  else none

/-- The expression has the type that the rules give it, and so does everything in it. -/
inductive Typed (env : Env) : Expr → Prop
  | bool {i : Expr.Info} {b : Bool} (h : Expr.HasType (.bool i b) (.ofAll (.boolLit b))) :
      Typed env (.bool i b)
  | number {i : Expr.Info} {n : Int} (hn : Literal.fitsWord n = true)
      (h : Expr.HasType (.number i n) (.ofAll (.numberLit n))) :
      Typed env (.number i n)
  | me {i : Expr.Info} (h : Expr.HasType (.me i) (.ofAll .address)) :
      Typed env (.me i)
  | ident {i : Expr.Info} {v : VarId} (h : Expr.HasType (.ident i v) (env.program.var v).type) :
      Typed env (.ident i v)
  | tuple {i : Expr.Info} {es : List Expr} (hes : ∀ e ∈ es, Typed env e)
      (h : Expr.HasType (.tuple i es) (.ofAll (.tuple (es.map Expr.type)))) :
      Typed env (.tuple i es)
  /-- An element of a mapping. Where the key names the owner, the index stands for it. -/
  | entry {i : Expr.Info} {base idx : Expr} {k : DataType} {l : Option String} {t u : OwnedType}
      (hb : Typed env base) (hi : Typed env idx) (ht : base.type.type = .mapping k l t)
      (hk : Stands env idx.type (.ofAll k))
      (hu : EntryType l idx.label? t u) (h : Expr.HasType (.index i base idx) u) :
      Typed env (.index i base idx)
  /-- An element of an array. -/
  | element {i : Expr.Info} {base idx : Expr} {t : OwnedType} {len : Option Nat}
      (hb : Typed env base) (hi : Typed env idx) (ht : base.type.type = .array t len)
      (hn : idx.type.type.isNumeric = true) (hp : idx.type.isPrivate = false)
      (h : Expr.HasType (.index i base idx) t) :
      Typed env (.index i base idx)
  | call {i : Expr.Info} {f : FunctionId} {args : List Expr} (ha : ∀ e ∈ args, Typed env e)
      (hs : ∀ q ∈ args.zip (env.program.function f).params,
        Stands env q.1.type (env.program.var q.2).type)
      (h : Expr.HasType (.call i f args) (returned (env.program.function f).returns)) :
      Typed env (.call i f args)
  /-- A public value for an owner. -/
  | raise {i : Expr.Info} {e : Expr} {o : Owner} (he : Typed env e)
      (hp : e.type.isPrivate = false) (hl : e.type.type.isLiteral = false)
      (ho : o.isPrivate = true) (h : Expr.HasType (.reclassify i e o true) (.mk e.type.type o)) :
      Typed env (.reclassify i e o true)
  | reveal {i : Expr.Info} {e : Expr} {o : Owner} {t : DataType} (he : Typed env e)
      (hp : e.type.type.isPrimitive = true) (ha : env.isAccessible e.type = true)
      (hl : t.isLiteral = false) (ht : t = e.type.type ∨ t = e.type.type.toAbstract)
      (hf : unfixedOwner? env.program o = none) (hn : env.sameOwner e.type.owner o = false)
      (h : Expr.HasType (.reclassify i e o false) (.mk t o)) :
      Typed env (.reclassify i e o false)
  | convert {i : Expr.Info} {e : Expr} {t : DataType} (he : Typed env e)
      (hp : e.type.type.isPrimitive = true) (hd : t.IsDeclarable) (ht : t.isPrimitive = true)
      (hc : e.type.type.convertsTo t = true) (h : Expr.HasType (.cast i t e true) (.mk t e.type.owner)) :
      Typed env (.cast i t e true)
  | cast {i : Expr.Info} {e : Expr} {t : DataType} {o : Owner} (he : Typed env e)
      (hp : e.type.type.isPrimitive = true) (hd : t.IsDeclarable) (ht : t.isPrimitive = true)
      (ho : e.type.isPrivate = false ∧ o = e.type.owner ∨
        e.type.isPrivate = true ∧ env.isAccessible e.type = true ∧ o = .me)
      (hr : ∀ v, e.type.type = .numberLit v → t.isNumeric = true → t.canRepresent v = true)
      (h : Expr.HasType (.cast i t e false) (.mk t o)) :
      Typed env (.cast i t e false)
  | paren {i : Expr.Info} {args : List Expr} (ha : ∀ e ∈ args, Typed env e)
      (h : Expr.HasType (.builtin i .paren args false) (args.headD default).type) :
      Typed env (.builtin i .paren args false)
  /-- An operator on constants. -/
  | fold {i : Expr.Info} {op : Operator} {args : List Expr} {l : Literal}
      (ha : ∀ e ∈ args, Typed env e) (hop : op ≠ .paren)
      (hl : ∀ e ∈ args, e.type.type.isLiteral = true)
      (hs : ∀ e ∈ args, suits op e.type.type = true)
      (hc : op = .ite → (args.headD default).type.type.isBool = true)
      (hf : op.fold (args.map fun a => literalOf a.type.type) = some l)
      (h : Expr.HasType (.builtin i op args false) (.ofAll (literalType l))) :
      Typed env (.builtin i op args false)
  /-- A choice with a public condition. -/
  | choose {i : Expr.Info} {c a b : Expr} {t : DataType} {o : Owner} (hc : Typed env c)
      (ha : Typed env a) (hb : Typed env b) (hp : c.type.isPrivate = false)
      (hbool : c.type.type.isBool = true) (hd : t.IsValue) (hl : t.isLiteral = false)
      (hta : a.type.type = t) (htb : b.type.type = t)
      (ho : commonOwner? env a.type.owner b.type.owner = some o)
      (hsa : Stands env a.type (.mk t o)) (hsb : Stands env b.type (.mk t o))
      (h : Expr.HasType (.builtin i .ite [c, a, b] false) (.mk t o)) :
      Typed env (.builtin i .ite [c, a, b] false)
  /-- A choice with a private condition. -/
  | decide {i : Expr.Info} {c a b : Expr} {t : DataType} (hc : Typed env c)
      (ha : Typed env a) (hb : Typed env b) (hp : c.type.isPrivate = true)
      (hd : t.IsValue) (hl : t.isLiteral = false)
      (hta : a.type.type = t) (htb : b.type.type = t)
      (haa : env.isAccessible a.type = true) (hab : env.isAccessible b.type = true)
      (hsc : Stands env c.type (.ofMe .bool))
      (hsa : Stands env a.type (.ofMe t)) (hsb : Stands env b.type (.ofMe t))
      (h : Expr.HasType (.builtin i .ite [c, a, b] true) (.ofMe t)) :
      Typed env (.builtin i .ite [c, a, b] true)
  /-- An operator on public values. -/
  | operate {i : Expr.Info} {op : Operator} {args : List Expr} {t : DataType}
      (ha : ∀ e ∈ args, Typed env e) (hop : op ≠ .paren) (hite : op ≠ .ite)
      (hp : ∀ e ∈ args, e.type.isPrivate = false ∧ e.type.type.isPrimitive = true)
      (hne : args ≠ []) (hsuit : ∀ e ∈ args, suits op e.type.type = true) (hd : t.IsDeclarable) (ht : t.isPrimitive = true)
      (hs : ∀ e ∈ converted op args, e.type.type = t)
      (h : Expr.HasType (.builtin i op args false) (.ofAll (if op.returnsBool then .bool else t))) :
      Typed env (.builtin i op args false)
  /-- An operator on values that only the sender sees. -/
  | compute {i : Expr.Info} {op : Operator} {args : List Expr} {t : DataType}
      (ha : ∀ e ∈ args, Typed env e) (hop : op ≠ .paren) (hite : op ≠ .ite)
      (hp : ∀ e ∈ args, e.type.type.isPrimitive = true)
      (hx : ∃ e ∈ args, e.type.isPrivate = true) (hacc : ∀ e ∈ args, env.isAccessible e.type = true)
      (hsuit : ∀ e ∈ args, suits op e.type.type = true)
      (hwide : ¬ ((op.isBitwise || op.isShift) && t.width = 256) = true)
      (henc : op.hasEncoding = true) (hd : t.IsDeclarable) (ht : t.isPrimitive = true)
      (hs : ∀ e ∈ converted op args, Stands env e.type (.ofMe t))
      (hn : op.isShift = true → isShiftAmount (args.getD 1 default).type.type = true)
      (h : Expr.HasType (.builtin i op args true) (.ofMe (if op.returnsBool then .bool else t))) :
      Typed env (.builtin i op args true)

/-- The declared types of a program are declarable. -/
structure Declares (p : Program) : Prop where
  vars : ∀ v, (p.var v).type.IsDeclarable
  returns : ∀ f, ∀ t ∈ (p.function f).returns, t.IsDeclarable

variable {env : Env} {t : OwnedType} {args : List Expr} {op : Operator} {e : Expr} {a : OwnedType}
  {i : Expr.Info} {e' : Expr} {es : List Expr} {b : OwnedType} {target : DataType} {o : Owner}
  {ts : List OwnedType} {args' : List Expr} {span : Span}

/-! ## Types of typed expressions -/

theorem EntryType.type_eq {l : Option String} {x : Option Label} {u : OwnedType}
    (h : EntryType l x t u) : u.type = t.type := by
  cases h <;> rfl

theorem returned_isConcrete (h : ∀ t ∈ ts, t.IsDeclarable) : (returned ts).type.IsConcrete := by
  have hall : ∀ t ∈ ts, t.type.IsConcrete := fun t ht =>
    .declarable (OwnedType.isDeclarable_iff.1 (h t ht))
  match ts with
  | [] => exact .tuple hall
  | [t] => exact hall t (by simp)
  | _ :: _ :: _ => exact .tuple hall

/-- A constant that was computed fits a machine word. -/
theorem literalType_isValue {args : List Literal} {l : Literal} (h : op.fold args = some l) :
    (literalType l).IsValue := by
  unfold Operator.fold at h
  split at h
  · split_ifs at h with hf
    cases h
    exact .number hf
  · rename_i hn
    cases l with
    | bool b => exact .bool
    | number n => exact absurd h (hn n)

theorem Typed.isValue (hp : Declares env.program) (h : Typed env e) : e.type.type.IsValue := by
  induction h with
  | bool h => rw [h.type_eq]; exact .bool
  | number hn h => rw [h.type_eq]; exact .number hn
  | me h => rw [h.type_eq]; exact .declarable trivial
  | ident h =>
    rw [h.type_eq]
    exact .declarable (OwnedType.isDeclarable_iff.1 (hp.vars _))
  | tuple _ h ih =>
    rw [h.type_eq]
    refine .tuple fun t ht => ?_
    obtain ⟨e, he, rfl⟩ := List.mem_map.1 ht
    exact ih e he
  | entry _ _ ht _ hu h ihb _ =>
    rw [h.type_eq]
    rw [ht] at ihb
    cases ihb with
    | declarable hd =>
      rw [hu.type_eq]
      exact .declarable (OwnedType.isDeclarable_iff.1 hd.2)
  | element _ _ ht _ _ h ihb _ =>
    rw [h.type_eq]
    rw [ht] at ihb
    cases ihb with
    | declarable hd => exact .declarable (OwnedType.isDeclarable_iff.1 hd)
  | call _ _ h _ =>
    rw [h.type_eq]
    exact (returned_isConcrete (hp.returns _)).isValue
  | raise _ _ _ _ h ih => rwa [h.type_eq]
  | reveal _ hp _ _ ht _ _ h ih =>
    rw [h.type_eq]
    rcases ht with rfl | rfl
    · exact ih
    · exact .declarable (ih.toAbstract hp)
  | convert _ _ hd _ _ h _ | cast _ _ hd _ _ _ h _ => rw [h.type_eq]; exact .declarable hd
  | @paren i args _ h ih =>
    rw [h.type_eq]
    cases args with
    | nil => exact .declarable trivial
    | cons a as => exact ih a (by simp)
  | fold _ _ _ _ _ hf h _ => rw [h.type_eq]; exact literalType_isValue hf
  | choose _ _ _ _ _ hd _ _ _ _ _ _ h _ _ _ | decide _ _ _ _ hd _ _ _ _ _ _ _ _ h _ _ _ =>
    rw [h.type_eq]; exact hd
  | operate _ _ _ _ _ _ hd _ _ h _ | compute _ _ _ _ _ _ _ _ _ hd _ _ _ h _ =>
    rw [h.type_eq]
    split
    · exact .declarable trivial
    · exact .declarable hd

/-! ## Conversions -/

@[simp] theorem Env.sameOwner_self (o : Owner) : env.sameOwner o o = true := by
  simp [Env.sameOwner]

theorem fit_of_isDeclarable (hb : b.type.IsDeclarable) : fit env a b = fitPlain env a b := by
  obtain ⟨ta, oa⟩ := a
  obtain ⟨tb, ob⟩ := b
  cases ta <;> cases tb <;> first | rfl | cases hb

theorem fit_of_isPrimitive (ha : a.type.isPrimitive = true) : fit env a b = fitPlain env a b := by
  obtain ⟨ta, oa⟩ := a
  cases ta <;> first | rfl | cases ha

theorem fitPlain_eq_exact :
    fitPlain env a b = .exact ↔
      a.type.convertsTo b.type = true ∧ env.sameOwner a.owner b.owner = true := by
  unfold fitPlain
  split_ifs <;> simp_all

/-- A declarable type is stood for by the same type with the same owner. -/
theorem stands_iff (hb : b.type.IsDeclarable) :
    Stands env a b ↔ a.type = b.type ∧ env.sameOwner a.owner b.owner = true := by
  rw [Stands, fit_of_isDeclarable hb, fitPlain_eq_exact]
  constructor
  · rintro ⟨⟨-, ho⟩, ht⟩
    exact ⟨ht hb, ho⟩
  · rintro ⟨ht, ho⟩
    exact ⟨⟨by rw [ht, DataType.convertsTo_self], ho⟩, fun _ => ht⟩

theorem castTo_typed (hd : target.IsDeclarable) (h : Passes (castTo env target e) e')
    (he : Typed env e) (hc : e.type.type.convertsTo target = true) :
    Typed env e' ∧ e'.type = .mk target e.type.owner ∧ target.isPrimitive = true ∧
      e'.plain = e.plain := by
  unfold castTo at h
  split at h
  · rename_i hp
    rw [Bool.and_eq_true] at hp
    obtain rfl := h.pure
    exact ⟨.convert he hp.1 hd hp.2 hc rfl, rfl, hp.2, rfl⟩
  · exact h.throw.elim

/-- What is converted keeps its owner. -/
theorem convert_typed (hp : Declares env.program) (hd : target.IsDeclarable) :
    ∀ {e e' : Expr}, Passes (convert env target e) e' → Typed env e →
      e.type.type.convertsTo target = true →
      Typed env e' ∧ e'.type = .mk target e.type.owner ∧ target.isPrimitive = true ∧
        e'.plain = e.plain
  | .reclassify i e o implicit, e', h, he, hc => by
    simp only [convert] at h
    split at h
    · obtain ⟨x, hx, hr⟩ := h.bind
      obtain rfl := hr.pure
      cases he with
      | raise he hpub hl ho hty =>
        rw [hty.type_eq] at hc ⊢
        obtain ⟨hx, ht, hprim, hplain⟩ := convert_typed hp hd hx he hc
        refine ⟨.raise hx (by rw [ht]; exact hpub) (by rw [ht]; exact hd.isLiteral_eq) ho rfl, ?_,
          hprim, ?_⟩
        · rw [Expr.type, Expr.info, ht]
          rfl
        · simp [Expr.plain, hplain]
      | reveal he hprim' hacc hl ht' hfixed hdiff hty =>
        rw [hty.type_eq] at hc ⊢
        have hc : e.type.type.convertsTo target = true := by
          rcases ht' with rfl | rfl
          · exact hc
          · exact DataType.convertsTo_of_toAbstract (he.isValue hp) hc hd.isLiteral_eq
        obtain ⟨hx, ht, hprim, hplain⟩ := convert_typed hp hd hx he hc
        refine ⟨.reveal hx (by rw [ht]; exact hprim) ?_ (by rw [ht]; exact hd.isLiteral_eq)
          (.inl rfl) hfixed ?_ rfl, ?_, hprim, ?_⟩
        · rw [ht]
          exact hacc
        · rw [ht]
          exact hdiff
        · rw [Expr.type, Expr.info, ht]
          rfl
        · simp [Expr.plain, hplain, Expr.Info.plain]
    · exact castTo_typed hd h he hc
  | .bool _ _, _, h, he, hc | .number _ _, _, h, he, hc | .me _, _, h, he, hc
  | .ident _ _, _, h, he, hc | .builtin _ _ _ _, _, h, he, hc | .call _ _ _, _, h, he, hc
  | .index _ _ _, _, h, he, hc | .cast _ _ _ _, _, h, he, hc | .tuple _ _, _, h, he, hc =>
    castTo_typed hd h he hc

/-- What a value becomes where a type is expected. -/
structure Coerced (env : Env) (e e' : Expr) (t : OwnedType) : Prop where
  typed : Typed env e'
  stands : Stands env e'.type t
  /-- Only public values change their owner. -/
  owner : e'.type.owner = e.type.owner ∨ e.type.owner = .all ∧ e'.type.owner = t.owner
  plain : e'.plain = e.plain

/-- Tuples fit as they are, or not at all. -/
theorem fit_tuple (h : fit env a (.mk (.tuple ts) o) ≠ .mismatch) :
    fit env a (.mk (.tuple ts) o) = .exact := by
  obtain ⟨t, oa⟩ := a
  cases t with
  | tuple as =>
    simp only [fit] at h ⊢
    split_ifs at h ⊢
    · rfl
    · exact absurd rfl h
  | _ => simp [fit, fitPlain, DataType.convertsTo, DataType.canRepresent] at h

theorem coercePlain_coerced (hp : Declares env.program) (ht : t.type.IsConcrete)
    (h : Passes (coercePlain env e t) e') (he : Typed env e) : Coerced env e e' t := by
  obtain ⟨hfit, h⟩ := Passes.of_guard h
  obtain ⟨t, o⟩ := t
  simp only [OwnedType.type_mk] at ht h
  cases ht with
  | @tuple ts hts =>
    have hexact := fit_tuple hfit
    simp only [Bool.not_true, Bool.false_eq_true, and_false, if_false, hexact, reduceCtorEq] at h
    obtain rfl := h.pure
    exact ⟨he, ⟨hexact, fun hd => hd.elim⟩, .inl rfl, rfl⟩
  | declarable hd =>
    have hplainFit := @fit_of_isDeclarable env e.type (.mk t o) hd
    rw [hplainFit] at hfit h
    have hconv : e.type.type.convertsTo t = true := by
      by_contra hc
      simp [fitPlain, hc] at hfit
    -- Whether or not the data had to be converted, only the owner is left to change.
    obtain ⟨x, hx, hxt, hplain, h⟩ : ∃ x, Typed env x ∧ x.type = .mk t e.type.owner ∧
        x.plain = e.plain ∧
        Passes (pure (if fitPlain env e.type (.mk t o) = .upgrade then raise o x else x)) e' := by
      split at h
      · exact hd.elim
      · split at h
        · obtain ⟨x, hx, h⟩ := h.bind
          obtain ⟨hxt, hxe, -, hplain⟩ := convert_typed hp hd hx he hconv
          exact ⟨x, hxt, hxe, hplain, h⟩
        · rename_i hneg
          obtain ⟨x, hx, h⟩ := h.bind
          obtain rfl := hx.pure
          have heq : x.type.type = t := by simpa using hneg
          exact ⟨x, he, OwnedType.ext heq rfl, rfl, h⟩
    obtain rfl := h.pure
    split
    · rename_i hup
      have hall : e.type.owner.isAll = true ∧ env.sameOwner e.type.owner o = false := by
        unfold fitPlain at hup
        split_ifs at hup
        simp_all
      have hpub : x.type.isPrivate = false := by
        rw [hxt, OwnedType.isPrivate, OwnedType.owner_mk, Owner.isPrivate, hall.1]
        rfl
      have hall' : e.type.owner = .all := by
        cases ho : e.type.owner <;> simp_all [Owner.isAll]
      have ho : o.isPrivate = true := by
        cases o <;> simp_all [Owner.isPrivate, Owner.isAll]
      refine ⟨.raise hx hpub (by rw [hxt]; exact hd.isLiteral_eq) ho rfl, ?_, .inr ⟨hall', rfl⟩, ?_⟩
      · refine (@stands_iff env _ (.mk t o) hd).2 ⟨?_, Env.sameOwner_self _⟩
        rw [raise, Expr.type, Expr.info, hxt]
        rfl
      · simp [raise, Expr.plain, hplain]
    · rename_i hup
      have hsame : env.sameOwner e.type.owner o = true := by
        unfold fitPlain at hup hfit
        split_ifs at hup hfit <;> simp_all
      refine ⟨hx, (@stands_iff env _ (.mk t o) hd).2 ?_, .inl ?_, hplain⟩
      · rw [hxt]
        exact ⟨rfl, hsame⟩
      · rw [hxt]
        rfl

/-! ## Values that stay as they are -/

mutual

@[simp] theorem fit_self : ∀ t : OwnedType, fit env t t = .exact
  | .mk (.tuple ts) o => by simp [fit, fitAll_self ts]
  | .mk .bool _ | .mk (.uint _) _ | .mk (.int _) _ | .mk .address _ | .mk .addressPayable _
  | .mk (.numberLit _) _ | .mk (.boolLit _) _ | .mk (.mapping _ _ _) _ | .mk (.array _ _) _
  | .mk .cipher _ | .mk .key _ | .mk .randomness _ | .mk .proof _ => by
    simp [fit, fitPlain_eq_exact]

theorem fitAll_self : ∀ ts : List OwnedType, fitAll env ts ts = true
  | [] => rfl
  | t :: ts => by simp [fitAll, fit_self t, fitAll_self ts]

end

/-- A type fits itself, and a tuple fits whatever the owner of the tuple. -/
theorem fit_of_type_eq (ht : t.type = a.type) (hor : t = a ∨ ∃ ts, t.type = .tuple ts) :
    fit env a t = .exact := by
  rcases hor with rfl | ⟨ts, hts⟩
  · exact fit_self _
  · obtain ⟨ta, oa⟩ := a
    obtain ⟨tt, ot⟩ := t
    cases hts
    cases ht
    simp [fit, fitAll_self]

mutual

/-- The value is as it has to be where a type is expected: a written tuple element by element. -/
def InPlace (env : Env) : Expr → OwnedType → Prop
  | .tuple _ es, .mk (.tuple ts) _ => InPlaceAll env es ts
  | e, t => fit env e.type t = .exact ∧ (t.type = e.type.type ∨ ∃ ts, t.type = .tuple ts)

def InPlaceAll (env : Env) : List Expr → List OwnedType → Prop
  | [], [] => True
  | e :: es, t :: ts => InPlace env e t ∧ InPlaceAll env es ts
  | _, _ => False

end

/-- Tuples that are written are put in place element by element, and all else as a whole. -/
theorem coerce_cases (e : Expr) (t : OwnedType) :
    (∃ i es ts o, e = .tuple i es ∧ t = .mk (.tuple ts) o) ∨
      ∀ env, coerce env e t = coercePlain env e t ∧
        (InPlace env e t ↔
          fit env e.type t = .exact ∧ (t.type = e.type.type ∨ ∃ ts, t.type = .tuple ts)) := by
  obtain ⟨t, o⟩ := t
  cases e with
  | tuple i es =>
    cases t with
    | tuple ts => exact .inl ⟨i, es, ts, o, rfl, rfl⟩
    | _ => exact .inr fun env => ⟨by simp only [coerce], by simp only [InPlace]⟩
  | _ => exact .inr fun env => ⟨by simp only [coerce], by simp only [InPlace]⟩

theorem inPlace_of_stands (hd : t.type.IsDeclarable) (h : Stands env e.type t) :
    InPlace env e t := by
  rcases coerce_cases e t with ⟨i, es, ts, o, rfl, rfl⟩ | hplain
  · exact hd.elim
  · exact (hplain env).2.2 ⟨h.1, .inl (h.2 hd).symm⟩

theorem inPlaceAll_self (h : ∀ e ∈ es, InPlace env e e.type) :
    InPlaceAll env es (es.map Expr.type) := by
  induction es with
  | nil => trivial
  | cons e es ih => exact ⟨h e (by simp), ih fun e he => h e (by simp [he])⟩

/-- Where a tuple of the same type is expected, or just the same type, a value is in place. -/
theorem Typed.inPlace (he : Typed env e) (ht : t.type = e.type.type)
    (hor : t = e.type ∨ ∃ ts, t.type = .tuple ts) : InPlace env e t := by
  induction e using Expr.induct_children generalizing t with
  | h e ih =>
    rcases coerce_cases e t with ⟨i, es, ts, o, rfl, rfl⟩ | hplain
    · cases he with
      | tuple hes hty =>
        rw [hty.type_eq] at ht
        cases ht
        exact inPlaceAll_self fun e hm => ih e hm (hes e hm) rfl (.inl rfl)
    · exact (hplain env).2.2 ⟨fit_of_type_eq ht hor, .inl ht⟩

theorem coercePlain_of_fit (hfit : fit env e.type t = .exact)
    (ht : t.type = e.type.type ∨ ∃ ts, t.type = .tuple ts) : coercePlain env e t = pure e := by
  rcases ht with ht | ⟨ts, ht⟩
  · simp [coercePlain, hfit, ht]
  · simp [coercePlain, hfit, ht]

theorem coerceAll_of_inPlace (h : ∀ e ∈ es, ∀ t, InPlace env e t → coerce env e t = pure e) :
    ∀ {ts : List OwnedType}, InPlaceAll env es ts →
      es.length = ts.length ∧ coerceAll env es ts = pure es := by
  induction es with
  | nil =>
    intro ts hts
    cases ts with
    | nil => exact ⟨rfl, rfl⟩
    | cons t ts => exact hts.elim
  | cons e es ih =>
    intro ts hts
    cases ts with
    | nil => exact hts.elim
    | cons t ts =>
      obtain ⟨hlen, hall⟩ := ih (fun e he => h e (by simp [he])) hts.2
      refine ⟨by simp [hlen], ?_⟩
      rw [coerceAll, h e (by simp) t hts.1, hall]
      rfl

/-- A value that is in place stays as it is. -/
theorem coerce_of_inPlace (he : Typed env e) (h : InPlace env e t) : coerce env e t = pure e := by
  induction e using Expr.induct_children generalizing t with
  | h e ih =>
    rcases coerce_cases e t with ⟨i, es, ts, o, rfl, rfl⟩ | hplain
    · cases he with
      | tuple hes hty =>
        have hes' : ∀ e ∈ es, ∀ t, InPlace env e t → coerce env e t = pure e :=
          fun e hm t => ih e hm (hes e hm)
        obtain ⟨hlen, hall⟩ := coerceAll_of_inPlace hes' h
        have hinfo : { i with type? := some (.ofAll (.tuple (es.map Expr.type))) } = i := by
          rw [← show i.type? = _ from hty]
        simp [coerce, hlen, hall, hinfo]
    · obtain ⟨hfit, ht⟩ := (hplain env).2.1 h
      rw [(hplain env).1, coercePlain_of_fit hfit ht]

theorem coerceAll_spec (h : ∀ e ∈ es, ∀ e' t, t.type.IsConcrete → Passes (coerce env e t) e' →
      Coerced env e e' t ∧ InPlace env e' t) :
    ∀ {es' : List Expr} {ts : List OwnedType}, (∀ t ∈ ts, t.type.IsConcrete) →
      es.length = ts.length → Passes (coerceAll env es ts) es' →
      (∀ e ∈ es', Typed env e) ∧ fitAll env (es'.map Expr.type) ts = true ∧
        Expr.plainList es' = Expr.plainList es ∧ InPlaceAll env es' ts := by
  induction es with
  | nil =>
    intro es' ts _ hlen hes
    obtain rfl := List.length_eq_zero_iff.1 hlen.symm
    obtain rfl := Passes.pure hes
    exact ⟨by simp, rfl, rfl, trivial⟩
  | cons e es ih =>
    intro es' ts hts hlen hes
    cases ts with
    | nil => cases hlen
    | cons t ts =>
      obtain ⟨x, hx, hes⟩ := Passes.bind hes
      obtain ⟨xs, hxs, hes⟩ := hes.bind
      obtain rfl := hes.pure
      obtain ⟨hc, hi⟩ := h e (by simp) x t (hts t (by simp)) hx
      obtain ⟨htyped, hfit, hplain, hall⟩ := ih (fun e he => h e (by simp [he]))
        (fun t ht => hts t (by simp [ht])) (by simpa using hlen) hxs
      refine ⟨by simpa using ⟨hc.typed, htyped⟩, ?_, ?_, hi, hall⟩
      · simp [fitAll, hc.stands.1, hfit]
      · rw [Expr.plainList, Expr.plainList, hc.plain, hplain]

theorem coerce_spec (hp : Declares env.program) (ht : t.type.IsConcrete)
    (h : Passes (coerce env e t) e') (he : Typed env e) :
    Coerced env e e' t ∧ InPlace env e' t := by
  induction e using Expr.induct_children generalizing t e' with
  | h e ih =>
    rcases coerce_cases e t with ⟨i, es, ts, o, rfl, rfl⟩ | hplain
    · obtain ⟨hlen, h⟩ := Passes.of_guard h
      obtain ⟨es', hes, h⟩ := h.bind
      obtain rfl := h.pure
      cases ht with
      | declarable hd => exact hd.elim
      | tuple hts =>
        cases he with
        | tuple hall hty =>
          obtain ⟨htyped, hfit, hplain, hin⟩ := coerceAll_spec
            (fun e hm e' t ht hc => ih e hm ht hc (hall e hm)) hts (not_not.1 hlen) hes
          refine ⟨⟨.tuple htyped rfl, ⟨?_, fun hd => hd.elim⟩, .inl ?_, ?_⟩, hin⟩
          · simp [Expr.type, Expr.info, fit, hfit]
          · rw [hty.type_eq]
            rfl
          · simp [Expr.plain, hplain, Expr.children, Expr.Info.plain]
    · obtain ⟨heq, hiff⟩ := hplain env
      rw [heq] at h
      have hc := coercePlain_coerced hp ht h he
      refine ⟨hc, ?_⟩
      obtain ⟨t, o⟩ := t
      cases ht with
      | declarable hd => exact inPlace_of_stands hd hc.stands
      | @tuple ts hts =>
        have hfit : fit env e.type (.mk (.tuple ts) o) = .exact := fit_tuple (Passes.of_guard h).1
        have hrest : ∃ us, (OwnedType.mk (.tuple ts) o).type = .tuple us := ⟨ts, rfl⟩
        rw [coercePlain_of_fit hfit (.inr hrest)] at h
        obtain rfl := h.pure
        exact hiff.2 ⟨hfit, .inr hrest⟩

/-- A value that was put where a type is expected stands there. -/
theorem coerce_coerced (hp : Declares env.program) (ht : t.type.IsConcrete)
    (h : Passes (coerce env e t) e') (he : Typed env e) : Coerced env e e' t :=
  (coerce_spec hp ht h he).1

/-- What was put where a type is expected is in place there. -/
theorem coerce_inPlace (hp : Declares env.program) (ht : t.type.IsConcrete)
    (h : Passes (coerce env e t) e') (he : Typed env e) : InPlace env e' t :=
  (coerce_spec hp ht h he).2

theorem Coerced.isPrivate (h : Coerced env e e' t) (he : e.type.isPrivate = true) :
    e'.type.isPrivate = true := by
  rcases h.owner with ho | ⟨ho, -⟩
  · rw [OwnedType.isPrivate, ho]
    exact he
  · rw [OwnedType.isPrivate, ho] at he
    cases he

/-! ## Operators -/

/-- The common type of two operands is a declarable type, or that of two equal tuples. -/
theorem commonType_eq (hp : Declares env.program) {a b : Expr} {t : DataType}
    (h : Passes (commonType env a b) t) (ha : Typed env a) (hb : Typed env b) :
    t.IsDeclarable ∨ ∃ ts, t = .tuple ts ∧ a.type.type = t ∧ b.type.type = t := by
  have hva := ha.isValue hp
  have hvb := hb.isValue hp
  unfold commonType at h
  split at h
  · rename_i u hu
    obtain rfl := h.pure
    obtain ⟨hlit, ⟨hc, rfl⟩ | ⟨hc, rfl⟩⟩ := DataType.common?_eq_type hu
    · rcases hvb.of_convertsTo hc hlit with hd | ⟨ts, hts, heq⟩
      · exact .inl hd
      · rw [heq, hts]
        exact .inr ⟨ts, rfl, rfl, rfl⟩
    · rw [Bool.and_comm] at hlit
      rcases hva.of_convertsTo hc hlit with hd | ⟨ts, hts, heq⟩
      · exact .inl hd
      · rw [heq, hts]
        exact .inr ⟨ts, rfl, rfl, rfl⟩
  · rename_i hu
    obtain rfl := h.pure
    exact .inl (hva.toAbstract (DataType.isPrimitive_of_isLiteral (DataType.common?_eq_literal hu)))
  · exact h.throw.elim

/-- A common type is a type that values are converted to, or they are of it already. -/
theorem coerce_common (hp : Declares env.program) {t : DataType}
    (ht : t.IsDeclarable ∨ ∃ ts, t = .tuple ts ∧ e.type.type = t)
    (h : Passes (coerce env e (.mk t o)) e') (he : Typed env e) :
    Coerced env e e' (.mk t o) ∧ e'.type.type = t ∧ (t.IsDeclarable ∨ e'.type = e.type) := by
  rcases ht with hd | ⟨ts, rfl, heq⟩
  · have hc := coerce_coerced (t := .mk t o) hp (.declarable hd) h he
    exact ⟨hc, hc.stands.2 hd, .inl hd⟩
  · have hty : (OwnedType.mk (.tuple ts) o).type = e.type.type := heq.symm
    have hrest : ∃ us, (OwnedType.mk (.tuple ts) o).type = .tuple us := ⟨ts, rfl⟩
    rw [coerce_of_inPlace he (he.inPlace hty (.inr hrest))] at h
    obtain rfl := h.pure
    exact ⟨⟨he, ⟨fit_of_type_eq hty (.inr hrest), fun hd => hd.elim⟩, .inl rfl, rfl⟩, heq, .inr rfl⟩

theorem isAccessible_of_stands {t : DataType} (hd : t.IsDeclarable) (h : Stands env a (.ofMe t)) :
    env.isAccessible a = true := by
  have hme := ((@stands_iff env a (.ofMe t) hd).1 h).2
  rw [Env.isAccessible, show env.sameOwner a.owner .me = true from hme, Bool.or_true]

@[simp] theorem commonOwner?_self (o : Owner) : commonOwner? env o o = some o := by
  simp [commonOwner?]

/-- Branches that were given their common owner still have it in common. -/
theorem Coerced.commonOwner? {a a' b b' : Expr} {t : DataType} (ha : Coerced env a a' (.mk t o))
    (hb : Coerced env b b' (.mk t o)) (h : commonOwner? env a.type.owner b.type.owner = some o) :
    Typing.commonOwner? env a'.type.owner b'.type.owner = some o := by
  rcases ha.owner with ha | ⟨ha, ha'⟩ <;> rcases hb.owner with hb | ⟨hb, hb'⟩
  · rwa [ha, hb]
  · rw [hb] at h
    have ho : a.type.owner = o := by
      unfold Typing.commonOwner? at h
      split_ifs at h with h₁ h₂ h₃
      · exact Option.some.inj h
      · cases ho : a.type.owner <;> simp_all [Owner.isAll]
      · exact Option.some.inj h
    rw [ha, hb', OwnedType.owner_mk, ho, commonOwner?_self]
  · rw [ha] at h
    by_cases hs : env.sameOwner .all b.type.owner = true
    · simp only [Typing.commonOwner?, hs, if_true, Option.some.injEq] at h
      rw [ha', hb, OwnedType.owner_mk, ← h, Typing.commonOwner?, if_pos hs]
    · rw [Typing.commonOwner?, if_neg hs, Owner.isAll, if_pos rfl, Option.some.injEq] at h
      rw [ha', hb, OwnedType.owner_mk, ← h]
      exact commonOwner?_self _
  · rw [ha', hb']
    exact commonOwner?_self _

/-- An operator on constants. -/
theorem folded_typed (h : Passes (folded env span op args) t) (ha : ∀ e ∈ args, Typed env e)
    (hop : op ≠ .paren) (hl : (args.all fun a => a.type.type.isLiteral) = true)
    (hs : ∀ e ∈ args, suits op e.type.type = true)
    (hc : op = .ite → (args.headD default).type.type.isBool = true) :
    Typed env (.builtin { i with type? := some t } op args false) := by
  have hl : ∀ e ∈ args, e.type.type.isLiteral = true := by simpa using hl
  unfold folded at h
  split at h
  · rename_i hf
    obtain rfl := h.pure
    exact .fold ha hop hl hs hc hf rfl
  · rename_i hf
    obtain rfl := h.pure
    exact .fold ha hop hl hs hc hf rfl
  · exact h.throw.elim

theorem choice_typed (hp : Declares env.program) (h : Passes (choice env i args false) e')
    (ha : ∀ e ∈ args, Typed env e) (hacc : (args.headD default).type.isPrivate = true →
      ∀ e ∈ args, env.isAccessible e.type = true) :
    Typed env e' ∧ e'.plain = (Expr.builtin i .ite args false).plain := by
  obtain ⟨hbool, hrest⟩ := Passes.of_guard h
  by_cases hl : (args.all fun a => a.type.type.isLiteral) = true
  · rw [if_pos hl] at hrest
    obtain ⟨t, ht, h⟩ := hrest.bind
    obtain rfl := h.pure
    refine ⟨folded_typed ht ha (by decide) hl (fun e he => ?_) fun _ => by simpa using hbool, rfl⟩
    exact DataType.isPrimitive_of_isLiteral (List.all_eq_true.1 hl e he)
  rw [if_neg hl] at hrest
  match args, hrest with
  | [c, a, b], hrest =>
    obtain ⟨t, ht, h⟩ := hrest.bind
    have htc := ha c (by simp)
    have hta := ha a (by simp)
    have htb := ha b (by simp)
    have hcommon := commonType_eq hp ht hta htb
    have hca : t.IsDeclarable ∨ ∃ ts, t = .tuple ts ∧ a.type.type = t :=
      hcommon.imp id fun ⟨ts, h₁, h₂, _⟩ => ⟨ts, h₁, h₂⟩
    have hcb : t.IsDeclarable ∨ ∃ ts, t = .tuple ts ∧ b.type.type = t :=
      hcommon.imp id fun ⟨ts, h₁, _, h₂⟩ => ⟨ts, h₁, h₂⟩
    have hvalue : t.IsValue ∧ t.isLiteral = false := by
      rcases hcommon with hd | ⟨ts, rfl, heq, _⟩
      · exact ⟨.declarable hd, hd.isLiteral_eq⟩
      · exact ⟨heq ▸ hta.isValue hp, rfl⟩
    by_cases hpriv : c.type.isPrivate = true
    · rw [if_pos hpriv] at h
      obtain ⟨c', hc, h⟩ := h.bind
      obtain ⟨a', ha', h⟩ := h.bind
      obtain ⟨b', hb', h⟩ := h.bind
      obtain rfl := h.pure
      have hc := coerce_coerced (t := .ofMe .bool) hp (.declarable trivial) hc htc
      obtain ⟨ha', hat, haor⟩ := coerce_common hp hca ha' hta
      obtain ⟨hb', hbt, hbor⟩ := coerce_common hp hcb hb' htb
      have hacc := hacc hpriv
      have haa : env.isAccessible a'.type = true := haor.elim
        (fun hd => isAccessible_of_stands hd ha'.stands) fun hty => hty ▸ hacc a (by simp)
      have hab : env.isAccessible b'.type = true := hbor.elim
        (fun hd => isAccessible_of_stands hd hb'.stands) fun hty => hty ▸ hacc b (by simp)
      refine ⟨.decide hc.typed ha'.typed hb'.typed (hc.isPrivate hpriv) hvalue.1 hvalue.2 hat hbt
        haa hab hc.stands ha'.stands hb'.stands rfl, ?_⟩
      simp [Expr.plain, Expr.plainList, hc.plain, ha'.plain, hb'.plain, Expr.Info.plain]
    · rw [if_neg hpriv] at h
      obtain ⟨o, ho, h⟩ : ∃ o, commonOwner? env a.type.owner b.type.owner = some o ∧ Passes (do
          let a ← coerce env a (.mk t o)
          let b ← coerce env b (.mk t o)
          return .builtin { i with type? := some (.mk t o) } .ite [c, a, b] false) e' := by
        unfold commonOwner?
        split_ifs at h with h₁ h₂ h₃
        · exact ⟨_, if_pos h₁, h⟩
        · exact ⟨_, by rw [if_neg h₁, if_pos h₂], h⟩
        · exact ⟨_, by rw [if_neg h₁, if_neg h₂, if_pos h₃], h⟩
        · obtain ⟨_, h, -⟩ := h.bind
          exact h.throw.elim
      obtain ⟨a', ha', h⟩ := h.bind
      obtain ⟨b', hb', h⟩ := h.bind
      obtain rfl := h.pure
      obtain ⟨ha', hat, -⟩ := coerce_common hp hca ha' hta
      obtain ⟨hb', hbt, -⟩ := coerce_common hp hcb hb' htb
      refine ⟨.choose htc ha'.typed hb'.typed (by simpa using hpriv) (by simpa using hbool) hvalue.1
        hvalue.2 hat hbt (ha'.commonOwner? hb' ho) ha'.stands hb'.stands rfl, ?_⟩
      simp [Expr.plain, Expr.plainList, ha'.plain, hb'.plain, Expr.Info.plain]
  | [], hrest | [_], hrest | [_, _], hrest | _ :: _ :: _ :: _ :: _, hrest => exact hrest.throw.elim

/-- What is done to operands: those that are converted have a property then, and all operands are
related to what they become. -/
theorem convertOperands_spec {convert : Expr → Check Expr} {Q : Expr → Expr → Prop}
    {S : Expr → Prop} (h : Passes (convertOperands op convert args) args')
    (hconv : ∀ a ∈ args, ∀ a', Passes (convert a) a' → Q a a' ∧ S a') (hrefl : ∀ a ∈ args, Q a a) :
    List.Forall₂ Q args args' ∧ (∀ a' ∈ converted op args', S a') ∧
      (op.isShift = true → args'.tail = args.tail) := by
  have hall : ∀ {xs ys : List Expr}, List.Forall₂ (fun x y => Passes (convert x) y) xs ys →
      (∀ x ∈ xs, x ∈ args) → List.Forall₂ Q xs ys ∧ ∀ y ∈ ys, S y := by
    intro xs ys hxy hsub
    induction hxy with
    | nil => exact ⟨.nil, by simp⟩
    | @cons x y xs ys hx _ ih =>
      obtain ⟨hq, hs⟩ := hconv x (hsub x (by simp)) y hx
      obtain ⟨hqs, hss⟩ := ih fun x hx => hsub x (by simp [hx])
      exact ⟨.cons hq hqs, by simpa using ⟨hs, hss⟩⟩
  cases args with
  | nil =>
    obtain rfl := h.pure
    exact ⟨.nil, by simp [converted], fun _ => rfl⟩
  | cons a rest =>
    simp only [convertOperands] at h
    split at h
    · rename_i hshift
      obtain ⟨a', ha, h⟩ := h.bind
      obtain rfl := h.pure
      obtain ⟨hq, hs⟩ := hconv a (by simp) a' ha
      refine ⟨.cons hq ?_, by simpa [converted, hshift] using hs, fun _ => rfl⟩
      exact List.forall₂_same.2 fun x hx => hrefl x (by simp [hx])
    · rename_i hshift
      obtain ⟨hq, hs⟩ := hall h.mapM fun x hx => hx
      exact ⟨hq, by simpa [converted, hshift] using hs, fun h' => absurd h' hshift⟩

theorem isPrimitive_of_suits {t : DataType} (h : suits op t = true) : t.isPrimitive = true := by
  unfold suits at h
  split at h <;> simp_all [DataType.isPrimitive]

@[simp] theorem suits_toAbstract (op : Operator) (t : DataType) :
    suits op t.toAbstract = suits op t := by
  cases t with
  | numberLit v =>
    simp only [DataType.toAbstract]
    split <;> rfl
  | _ => rfl

theorem checkOperands_suits {u : Unit} (h : Passes (checkOperands env op args) u) :
    ∀ a ∈ args, suits op a.type.type = true := by
  induction args with
  | nil => simp
  | cons a rest ih =>
    obtain ⟨ha, h⟩ := Passes.of_guard h
    simpa using ⟨by simpa using ha, ih h⟩

/-- The common type of two operands is the type of one of them. -/
theorem commonType_toAbstract {a b : Expr} {t : DataType} (h : Passes (commonType env a b) t) :
    t = a.type.type.toAbstract ∨ t = b.type.type.toAbstract := by
  unfold commonType at h
  split at h
  · rename_i u hu
    obtain rfl := h.pure
    obtain ⟨-, ⟨-, rfl⟩ | ⟨-, rfl⟩⟩ := DataType.common?_eq_type hu
    · exact .inr rfl
    · exact .inl rfl
  · exact .inl h.pure
  · exact h.throw.elim

/-- Operators work in the type of an operand. -/
theorem operandType_toAbstract {t : DataType} (h : Passes (operandType env op args) t)
    (hne : args ≠ []) : ∃ a ∈ args, t = a.type.type.toAbstract := by
  match args with
  | [a] => exact ⟨a, by simp, Passes.pure h⟩
  | a :: b :: _ =>
    simp only [operandType] at h
    split at h
    · exact ⟨a, by simp, h.pure⟩
    · rcases commonType_toAbstract h with ht | ht
      · exact ⟨a, by simp, ht⟩
      · exact ⟨b, by simp, ht⟩

theorem checkPrivate_spec {t : DataType} {u : Unit} (h : Passes (checkPrivate env span op t args) u) :
    op.hasEncoding = true ∧
      ¬ ((op.isBitwise || op.isShift) && t.width = 256) = true ∧
      (op.isShift = true → isShiftAmount (args.getD 1 default).type.type = true) := by
  obtain ⟨henc, h⟩ := Passes.of_guard h
  obtain ⟨hwide, h⟩ := Passes.of_guard (b := ()) h
  obtain ⟨hshift, -⟩ := Passes.of_guard (b := ()) h
  simp only [Bool.not_eq_true', Bool.not_eq_false, Bool.and_eq_true, not_and] at henc hshift
  exact ⟨henc, hwide, hshift⟩

theorem plainList_congr (h : List.Forall₂ (fun a a' : Expr => a'.plain = a.plain) args args') :
    Expr.plainList args' = Expr.plainList args := by
  induction h with
  | nil => rfl
  | cons ha _ ih => rw [Expr.plainList, Expr.plainList, ha, ih]

section Declared

variable (hp : Declares env.program)

include hp

theorem operation_typed (h : Passes (operation env i op args false) e')
    (ha : ∀ e ∈ args, Typed env e) (hop : op ≠ .paren) (hite : op ≠ .ite)
    (hacc : ∀ e ∈ args, env.isAccessible e.type = true) :
    Typed env e' ∧ e'.plain = (Expr.builtin i op args false).plain := by
  obtain ⟨_, hcheck, hrest⟩ := h.bind
  have hsuits := checkOperands_suits hcheck
  have hprim : ∀ a ∈ args, a.type.type.isPrimitive = true := fun a hm =>
    isPrimitive_of_suits (hsuits a hm)
  by_cases hl : (args.all fun a => a.type.type.isLiteral) = true
  · rw [if_pos hl] at hrest
    obtain ⟨t, ht, h⟩ := hrest.bind
    obtain rfl := h.pure
    exact ⟨folded_typed ht ha hop hl hsuits fun h => absurd h hite, rfl⟩
  rw [if_neg hl] at hrest
  obtain ⟨t, ht, h⟩ := hrest.bind
  have hne : args ≠ [] := by
    rintro rfl
    exact hl rfl
  obtain ⟨hd, htp, hts⟩ : t.IsDeclarable ∧ t.isPrimitive = true ∧ suits op t = true := by
    obtain ⟨a, hm, rfl⟩ := operandType_toAbstract ht hne
    exact ⟨((ha a hm).isValue hp).toAbstract (hprim a hm), by simpa using hprim a hm,
      by simpa using hsuits a hm⟩
  by_cases hpub : (args.all fun a => !a.type.isPrivate) = true
  · rw [if_pos hpub] at h
    obtain ⟨args', hargs, h⟩ := h.bind
    obtain rfl := h.pure
    have hpub : ∀ a ∈ args, a.type.isPrivate = false := by simpa using hpub
    have hconv : ∀ a ∈ args, ∀ a', Passes
        (if a.type.type = t then pure a else coerce env a (.mk t a.type.owner)) a' →
        (Typed env a' ∧ (a'.type.isPrivate = false ∧ a'.type.type.isPrimitive = true) ∧
          suits op a'.type.type = true ∧ a'.plain = a.plain) ∧ a'.type.type = t := by
      intro a hm a' h
      split at h
      · rename_i heq
        obtain rfl := h.pure
        exact ⟨⟨ha _ hm, ⟨hpub _ hm, hprim _ hm⟩, hsuits _ hm, rfl⟩, heq⟩
      · have hc := coerce_coerced (t := .mk t a.type.owner) hp (.declarable hd) h (ha a hm)
        have hty : a'.type.type = t := hc.stands.2 hd
        refine ⟨⟨hc.typed, ⟨?_, by rwa [hty]⟩, by rwa [hty], hc.plain⟩, hty⟩
        rw [OwnedType.isPrivate, hc.owner.elim id And.right]
        exact hpub a hm
    obtain ⟨hall, hty, -⟩ := convertOperands_spec hargs hconv fun a hm =>
      ⟨ha a hm, ⟨hpub a hm, hprim a hm⟩, hsuits a hm, rfl⟩
    refine ⟨.operate ?_ hop hite ?_ ?_ ?_ hd htp hty rfl, ?_⟩
    · exact hall.forall_right fun _ _ h => h.1
    · exact hall.forall_right fun _ _ h => h.2.1
    · rintro rfl
      exact hne (List.forall₂_nil_right_iff.1 hall)
    · exact hall.forall_right fun _ _ h => h.2.2.1
    · simp [Expr.plain, Expr.Info.plain, plainList_congr (hall.imp fun _ _ h => h.2.2.2)]
  · rw [if_neg hpub] at h
    obtain ⟨_, hcheck, h⟩ := h.bind
    obtain ⟨args', hargs, h⟩ := h.bind
    obtain rfl := h.pure
    obtain ⟨henc, hwide, hshift⟩ := checkPrivate_spec hcheck
    have hconv : ∀ a ∈ args, ∀ a', Passes (coerce env a (.ofMe t)) a' →
        (Typed env a' ∧ a'.type.type.isPrimitive = true ∧
          (a.type.isPrivate = true → a'.type.isPrivate = true) ∧ env.isAccessible a'.type = true ∧
          suits op a'.type.type = true ∧ a'.plain = a.plain) ∧ Stands env a'.type (.ofMe t) := by
      intro a hm a' h
      have hc := coerce_coerced (t := .ofMe t) hp (.declarable hd) h (ha a hm)
      have hty : a'.type.type = t := hc.stands.2 hd
      exact ⟨⟨hc.typed, by rwa [hty], hc.isPrivate, isAccessible_of_stands hd hc.stands,
        by rwa [hty], hc.plain⟩, hc.stands⟩
    obtain ⟨hall, hty, htail⟩ := convertOperands_spec hargs hconv fun a hm =>
      ⟨ha a hm, hprim a hm, id, hacc a hm, hsuits a hm, rfl⟩
    refine ⟨.compute ?_ hop hite ?_ ?_ ?_ ?_ hwide henc hd htp hty ?_ rfl, ?_⟩
    · exact hall.forall_right fun _ _ h => h.1
    · exact hall.forall_right fun _ _ h => h.2.1
    · obtain ⟨a, hm, hpriv⟩ : ∃ a ∈ args, a.type.isPrivate = true := by simpa using hpub
      obtain ⟨e, he, h⟩ := hall.exists_right hm
      exact ⟨e, he, h.2.2.1 hpriv⟩
    · exact hall.forall_right fun _ _ h => h.2.2.2.1
    · exact hall.forall_right fun _ _ h => h.2.2.2.2.1
    · intro hs
      have hget : args'.getD 1 default = args.getD 1 default := by
        cases args <;> cases args' <;> simp_all
      rw [hget]
      exact hshift hs
    · simp [Expr.plain, Expr.Info.plain, plainList_congr (hall.imp fun _ _ h => h.2.2.2.2.2)]

/-- An operator on typed operands. -/
theorem builtin_typed (h : Passes (builtin env i op args false) e') (ha : ∀ e ∈ args, Typed env e) :
    Typed env e' ∧ e'.plain = (Expr.builtin i op args false).plain := by
  unfold builtin at h
  by_cases hop : op = .paren
  · subst hop
    obtain rfl := Passes.pure h
    exact ⟨.paren ha rfl, rfl⟩
  rw [if_neg hop] at h
  obtain ⟨hacc, h⟩ := Passes.of_guard (b := ()) h
  by_cases hite : op = .ite
  · subst hite
    refine choice_typed hp h ha fun hpriv => ?_
    rw [List.headD_eq_head?_getD] at hpriv
    simpa [hpriv] using hacc
  · simp only [hite, if_false] at h
    exact operation_typed hp h ha hop hite (by simpa [hite] using hacc)

/-! ## Expressions -/

theorem element_typed {base idx idx' : Expr} (h : Passes (element env i.span base idx) (idx', t))
    (hb : Typed env base) (hi : Typed env idx) :
    Typed env (.index { i with type? := some t } base idx') ∧ idx'.plain = idx.plain := by
  unfold element at h
  split at h
  · rename_i k l u hbase
    have hk : k.IsDeclarable := by
      have hv := hb.isValue hp
      rw [hbase] at hv
      cases hv with
      | declarable hd => exact hd.1
    obtain ⟨x, hx, h⟩ := h.bind
    have hc := coerce_coerced (t := .ofAll k) hp (.declarable hk) hx hi
    cases l with
    | none =>
      cases h.pure
      exact ⟨.entry hb hc.typed hbase hc.stands .anonymous rfl, hc.plain⟩
    | some n =>
      rw [if_neg (by simp)] at h
      split at h
      · rename_i x' hlabel
        split at h
        · rename_i k hkey
          cases h.pure
          exact ⟨.entry hb hc.typed hbase hc.stands (hlabel ▸ .owned hkey) rfl, hc.plain⟩
        · rename_i hkey
          cases h.pure
          exact ⟨.entry hb hc.typed hbase hc.stands (hlabel ▸ .named hkey) rfl, hc.plain⟩
      · exact h.throw.elim
  · rename_i u n hbase
    obtain ⟨hpub, h⟩ := Passes.of_guard (b := ()) h
    cases h.pure
    simp only [Bool.or_eq_true, Bool.not_eq_true', not_or, Bool.not_eq_true, Bool.not_eq_false] at hpub
    exact ⟨.element hb hi hbase hpub.1 hpub.2 rfl, rfl⟩
  · exact h.throw.elim

theorem arguments_typed {es' : List Expr} {vs : List VarId}
    (h : Passes (arguments env es (vs.map fun v => (env.program.var v).type)) es')
    (he : ∀ e ∈ es, Typed env e) : (∀ e ∈ es', Typed env e) ∧
      (∀ q ∈ es'.zip vs, Stands env q.1.type (env.program.var q.2).type) ∧
      Expr.plainList es' = Expr.plainList es := by
  induction es generalizing es' vs with
  | nil =>
    obtain rfl : es' = [] := by
      cases vs <;> exact Passes.pure h
    exact ⟨by simp, by simp, rfl⟩
  | cons e es ih =>
    cases vs with
    | nil =>
      obtain rfl := Passes.pure h
      exact ⟨he, by simp, rfl⟩
    | cons v vs =>
      obtain ⟨x, hx, h⟩ := h.bind
      obtain ⟨xs, hxs, h⟩ := h.bind
      obtain rfl := h.pure
      have hd := OwnedType.isDeclarable_iff.1 (hp.vars v)
      have hc := coerce_coerced hp (.declarable hd) hx (he e (by simp))
      obtain ⟨hts, hss, hps⟩ := ih hxs fun e h => he e (by simp [h])
      refine ⟨by simpa using ⟨hc.typed, hts⟩, ?_, ?_⟩
      · exact List.forall_mem_cons.2 ⟨hc.stands, hss⟩
      · rw [Expr.plainList, Expr.plainList, hc.plain, hps]

theorem reclassified_typed (h : Passes (reclassified env i.span e o false) t) (he : Typed env e) :
    Typed env (.reclassify { i with type? := some t } e o false) := by
  obtain ⟨hfixed, hrev, hacc, hexact, rfl⟩ : unfixedOwner? env.program o = none ∧
      ¬ (!e.type.type.canBePrivate && !e.type.type.isLiteral) = true ∧
      ¬ (!env.isAccessible e.type) = true ∧ ¬ fit env e.type (.mk e.type.type o) = .exact ∧
      t = .mk e.type.type.toAbstract o := by
    unfold reclassified at h
    simp only [Bool.false_eq_true, if_false] at h
    split at h
    · obtain ⟨_, h, -⟩ := h.bind
      exact h.throw.elim
    · rename_i hnone
      obtain ⟨h₁, h⟩ := Passes.of_guard (b := ()) h
      obtain ⟨h₂, h⟩ := Passes.of_guard (b := ()) h
      obtain ⟨h₃, h⟩ := Passes.of_guard (b := ()) h
      refine ⟨?_, h₁, h₂, h₃, h.pure⟩
      cases ho : unfixedOwner? env.program o with
      | none => rfl
      | some v => exact absurd ho (hnone v)
  have hprim : e.type.type.isPrimitive = true := by
    cases hty : e.type.type <;> simp_all [DataType.canBePrivate, DataType.isLiteral,
      DataType.isPrimitive, DataType.isNumeric, DataType.isBool, DataType.isAddress]
  have hdiff : env.sameOwner e.type.owner o = false := by
    rw [fit_of_isPrimitive hprim, fitPlain_eq_exact] at hexact
    simpa using hexact
  exact .reveal he hprim (by simpa using hacc) ((he.isValue hp).toAbstract hprim).isLiteral_eq
    (.inr rfl) hfixed hdiff rfl

omit hp in
theorem castType_typed (hd : target.IsDeclarable)
    (h : Passes (castType env i.span target e false) t) (he : Typed env e) :
    Typed env (.cast { i with type? := some t } target e false) := by
  unfold castType at h
  obtain ⟨hprim, h⟩ := Passes.of_guard (b := ()) h
  simp only [Bool.or_eq_true, Bool.not_eq_true', not_or, Bool.not_eq_false] at hprim
  have hrange : ∀ v, e.type.type = .numberLit v → target.isNumeric = true →
      target.canRepresent v = true := by
    intro v hv hn
    simp only [hv, Bool.not_false, Bool.true_and] at h
    obtain ⟨hr, -⟩ := Passes.of_guard (b := ()) h
    simpa [hn] using hr
  obtain ⟨o, ho, rfl⟩ : ∃ o, (e.type.isPrivate = false ∧ o = e.type.owner ∨
      e.type.isPrivate = true ∧ env.isAccessible e.type = true ∧ o = .me) ∧ t = .mk target o := by
    cases hpriv : e.type.isPrivate with
    | false =>
      refine ⟨_, .inl ⟨rfl, rfl⟩, ?_⟩
      simp only [hpriv, Bool.not_false, Bool.or_true, if_true] at h
      split at h
      · exact (Passes.of_guard (b := ()) h).2.pure
      · exact h.pure
    | true =>
      simp only [hpriv, Bool.not_true, Bool.or_false, Bool.false_eq_true, if_false] at h
      obtain ⟨hacc, h⟩ : ¬ (!env.isAccessible e.type) = true ∧ Passes (pure (.ofMe target)) t := by
        split at h
        · exact Passes.of_guard (Passes.of_guard (b := ()) h).2
        · exact Passes.of_guard h
      exact ⟨_, .inr ⟨rfl, by simpa using hacc, rfl⟩, h.pure⟩
  exact .cast he hprim.2 hd hprim.1 ho hrange rfl

end Declared

mutual

/-- Checked expressions are typed, and written as they were. -/
theorem expr_typed (hp : Declares env.program) : ∀ {e e' : Expr}, Passes (expr env e) e' →
    e.Written → Typed env e' ∧ e'.plain = e.plain
  | .bool i b, e', h, _ => by
    obtain rfl := Passes.pure h
    exact ⟨.bool rfl, rfl⟩
  | .number i n, e', h, _ => by
    simp only [expr] at h
    obtain ⟨hn, h⟩ := Passes.of_guard (b := ()) h
    obtain rfl := h.pure
    exact ⟨.number (by simpa using hn) rfl, rfl⟩
  | .me i, e', h, _ => by
    obtain rfl := Passes.pure h
    exact ⟨.me rfl, rfl⟩
  | .ident i v, e', h, _ => by
    obtain rfl := Passes.pure h
    exact ⟨.ident rfl, rfl⟩
  | .tuple i es, e', h, hw => by
    obtain ⟨es', hes, h⟩ := h.bind
    obtain rfl := h.pure
    obtain ⟨hts, hps⟩ := exprs_typed hp hes hw.children
    exact ⟨.tuple hts rfl, by simp [Expr.plain, hps, Expr.Info.plain]⟩
  | .index i base idx, e', h, hw => by
    obtain ⟨b, hb, h⟩ := h.bind
    obtain ⟨x, hx, h⟩ := h.bind
    obtain ⟨⟨x', t⟩, ht, h⟩ := h.bind
    obtain rfl := h.pure
    obtain ⟨hbt, hbp⟩ := expr_typed hp hb (hw.children base (.head _))
    obtain ⟨hxt, hxp⟩ := expr_typed hp hx (hw.children idx (.tail _ (.head _)))
    obtain ⟨htyped, hplain⟩ := element_typed hp ht hbt hxt
    exact ⟨htyped, by simp [Expr.plain, hbp, hplain, hxp, Expr.Info.plain]⟩
  | .call i f args, e', h, hw => by
    obtain ⟨xs, hxs, h⟩ := h.bind
    obtain ⟨ys, hys, h⟩ := h.bind
    obtain rfl := h.pure
    obtain ⟨hts, hps⟩ := exprs_typed hp hxs hw.children
    obtain ⟨htyped, hs, hplain⟩ := arguments_typed hp hys hts
    exact ⟨.call htyped hs rfl, by simp [Expr.plain, hplain, hps, Expr.Info.plain]⟩
  | .reclassify i e o implicit, e', h, hw => by
    obtain ⟨x, hx, h⟩ := h.bind
    obtain ⟨t, ht, h⟩ := h.bind
    obtain rfl := h.pure
    obtain ⟨-, rfl⟩ := (Expr.written_iff.1 hw).1
    obtain ⟨hxt, hxp⟩ := expr_typed hp hx (hw.children e (.head _))
    exact ⟨reclassified_typed hp ht hxt, by simp [Expr.plain, hxp, Expr.Info.plain]⟩
  | .cast i target e implicit, e', h, hw => by
    obtain ⟨x, hx, h⟩ := h.bind
    obtain ⟨t, ht, h⟩ := h.bind
    obtain rfl := h.pure
    obtain ⟨-, rfl, hd⟩ := (Expr.written_iff.1 hw).1
    obtain ⟨hxt, hxp⟩ := expr_typed hp hx (hw.children e (.head _))
    exact ⟨castType_typed hd ht hxt, by simp [Expr.plain, hxp, Expr.Info.plain]⟩
  | .builtin i op args isPrivate, e', h, hw => by
    obtain ⟨xs, hxs, h⟩ := h.bind
    obtain ⟨-, rfl⟩ := (Expr.written_iff.1 hw).1
    obtain ⟨hts, hps⟩ := exprs_typed hp hxs hw.children
    obtain ⟨htyped, hplain⟩ := builtin_typed hp h hts
    exact ⟨htyped, by simp [hplain, Expr.plain, hps]⟩

theorem exprs_typed (hp : Declares env.program) : ∀ {es es' : List Expr},
    Passes (exprs env es) es' → (∀ e ∈ es, e.Written) →
      (∀ e ∈ es', Typed env e) ∧ Expr.plainList es' = Expr.plainList es
  | [], es', h, _ => by
    obtain rfl := Passes.pure h
    exact ⟨nofun, rfl⟩
  | e :: es, es', h, hw => by
    obtain ⟨x, hx, h⟩ := h.bind
    obtain ⟨xs, hxs, h⟩ := h.bind
    obtain rfl := h.pure
    obtain ⟨ht, hp'⟩ := expr_typed hp hx (hw e (by simp))
    obtain ⟨hts, hps⟩ := exprs_typed hp hxs fun e h => hw e (by simp [h])
    exact ⟨by simpa using ⟨ht, hts⟩, by rw [Expr.plainList, Expr.plainList, hp', hps]⟩

end

end Typing

end Shroud
