import Shroud.Proofs.Constants

/-! # Checking types again

The rules for types are checked on a program that has no types yet. Their result can be checked
again: every conversion that a rule puts in is one that the rule then finds in place, so what comes
out is what went in. One rule can refuse on the second run what it let pass on the first. A private
value is converted under the change of its owner, and a written change of the owner does not take
the widest signed type. `WellTyped.settles` says both: a typed program is given back, just where no
such change is left in it.
-/

namespace Shroud

variable {α β : Type}

/-! ## Checks that give back a value -/

/-- The check can only give back the value, and does so just where the condition holds. -/
structure Settles (x : Typing.Check α) (a : α) (P : Prop) : Prop where
  unique : ∀ {b}, Passes x b → b = a ∧ P
  accepts : P → ∀ w, ∃ w', x.run.run w = (.ok a, w')

namespace Settles

variable {x : Typing.Check α} {a : α} {b : β} {P Q : Prop}

theorem congr (h : Settles x a P) (hPQ : P ↔ Q) : Settles x a Q :=
  ⟨fun hb => ⟨(h.unique hb).1, hPQ.1 (h.unique hb).2⟩, fun hq => h.accepts (hPQ.2 hq)⟩

theorem passes (h : Settles x a P) (hP : P) : Passes x a := by
  obtain ⟨w', hw⟩ := h.accepts hP []
  exact ⟨[], w', hw⟩

protected theorem pure (a : α) : Settles (pure a) a True :=
  ⟨fun h => ⟨h.pure, trivial⟩, fun _ w => ⟨w, rfl⟩⟩

theorem of_eq (h : x = Pure.pure a) : Settles x a True := h ▸ .pure a

theorem warn (span : Span) : Settles (Typing.warn span) () True :=
  ⟨fun _ => ⟨rfl, trivial⟩, fun _ w => ⟨w ++ [span], rfl⟩⟩

protected theorem bind {f : α → Typing.Check β} (hx : Settles x a P) (hf : Settles (f a) b Q) :
    Settles (x >>= f) b (P ∧ Q) where
  unique h := by
    obtain ⟨a', ha, hb⟩ := h.bind
    obtain ⟨rfl, hP⟩ := hx.unique ha
    obtain ⟨rfl, hQ⟩ := hf.unique hb
    exact ⟨rfl, hP, hQ⟩
  accepts h w := by
    obtain ⟨w', hw⟩ := hx.accepts h.1 w
    obtain ⟨w'', hw'⟩ := hf.accepts h.2 w'
    refine ⟨w'', ?_⟩
    rw [ExceptT.run_bind, StateT.run_bind, hw]
    exact hw'

/-- A check goes on only where a condition fails. -/
theorem guard {c : Prop} [Decidable c] {e : Error} {k : α → Typing.Check β}
    (h : Settles (k a) b Q) :
    Settles (if c then throw e >>= k else k a) b (¬ c ∧ Q) where
  unique hb := by
    obtain ⟨hc, hb⟩ := Passes.of_guard hb
    exact ⟨(h.unique hb).1, hc, (h.unique hb).2⟩
  accepts hcQ w := by
    rw [if_neg hcQ.1]
    exact h.accepts hcQ.2 w

theorem foldlM {f : α → β → Typing.Check α} {xs : List β} {P : β → Prop}
    (h : ∀ x ∈ xs, Settles (f a x) a (P x)) : Settles (xs.foldlM f a) a (∀ x ∈ xs, P x) := by
  induction xs with
  | nil => exact (Settles.pure a).congr (by simp)
  | cons x xs ih =>
    rw [List.foldlM_cons]
    refine ((h x (by simp)).bind (ih fun x hx => h x (by simp [hx]))).congr ?_
    rw [List.forall_mem_cons]

theorem forM {f : α → Typing.Check PUnit} {xs : List α} (h : ∀ x ∈ xs, Settles (f x) ⟨⟩ True) :
    Settles (xs.forM f) ⟨⟩ True := by
  induction xs with
  | nil => exact Settles.pure _
  | cons x xs ih =>
    exact ((h x (by simp)).bind (ih fun x hx => h x (by simp [hx]))).congr (and_self_iff)

end Settles

/-! ## Changes of the owner -/

/-- A written change of the owner is of a type that can have one. -/
def Expr.IsNarrowReveal : Expr → Prop
  | .reclassify _ e _ false => e.type.type ≠ .int 256
  | _ => True

/-- All written changes of the owner in an expression are of types that can have one. -/
def Expr.NarrowReveals (e : Expr) : Prop := ∀ x ∈ e.subterms, x.IsNarrowReveal

theorem Expr.narrowReveals_iff {e : Expr} :
    e.NarrowReveals ↔ e.IsNarrowReveal ∧ ∀ c ∈ e.children, c.NarrowReveals :=
  forall_subterms_iff

def Stmt.NarrowReveals (s : Stmt) : Prop := ∀ t ∈ s.walk, ∀ r ∈ t.roots, r.2.NarrowReveals

theorem Stmt.narrowReveals_iff {s : Stmt} : s.NarrowReveals ↔
    (∀ r ∈ s.roots, r.2.NarrowReveals) ∧ ∀ c ∈ s.children, c.NarrowReveals :=
  forall_walk_iff

theorem Stmt.narrowReveals_iff_exprs {s : Stmt} :
    s.NarrowReveals ↔ ∀ e ∈ s.exprs, e.IsNarrowReveal := by
  simp only [NarrowReveals, Expr.NarrowReveals, mem_exprs_iff]
  constructor
  · rintro h e ⟨t, ht, r, hr, he⟩
    exact h t ht r hr e he
  · intro h t ht r hr e he
    exact h e ⟨t, ht, r, hr, he⟩

theorem Expr.Info.with_type_eq {i : Expr.Info} {t : OwnedType} (h : i.type? = some t) :
    { i with type? := some t } = i := by
  rw [← h]

theorem DataType.toAbstract_eq_self {t : DataType} (h : t.isLiteral = false) :
    t.toAbstract = t := by
  cases t <;> first | rfl | cases h

namespace Typing

variable {env : Env} {args : List Expr} {t : DataType} {op : Operator} {span : Span} {i : Expr.Info}
  {e : Expr} {es : List Expr} {p : Program} {o : Owner} {convert : Expr → Check Expr} {c a b : Expr}
  {P : Stmt → Prop} {l : Literal} {base : Expr}

/-! ## Operators on typed operands -/

theorem commonType_self (ha : a.type.type = t) (hb : b.type.type = t) (hl : t.isLiteral = false) :
    commonType env a b = pure t := by
  simp [commonType, DataType.common?, ha, hb, hl, DataType.toAbstract_eq_self hl]

theorem checkOperands_of_suits (h : ∀ a ∈ args, suits op a.type.type = true) :
    checkOperands env op args = pure () := by
  induction args with
  | nil => rfl
  | cons a args ih =>
    rw [checkOperands, ih fun a ha => h a (by simp [ha])]
    simp [h a (by simp)]

/-- Operators work in the type that their operands already have. -/
theorem operandType_of_converted (hne : args ≠ []) (hd : t.IsDeclarable)
    (h : ∀ e ∈ converted op args, e.type.type = t) : operandType env op args = pure t := by
  have habstract : ∀ {e : Expr}, e.type.type = t → e.type.type.toAbstract = t := fun he => by
    rw [he, hd.toAbstract_eq]
  match args with
  | [a] =>
    have ha : a.type.type = t := h a (by by_cases hs : op.isShift = true <;> simp [converted, hs])
    rw [operandType, habstract ha]
  | a :: b :: args =>
    have ha : a.type.type = t := h a (by by_cases hs : op.isShift = true <;> simp [converted, hs])
    rw [operandType]
    split
    · rw [habstract ha]
    · rename_i hs
      exact commonType_self ha (h b (by simp [converted, hs])) hd.isLiteral_eq

theorem mapM_of_fixed (h : ∀ e ∈ es, convert e = pure e) : es.mapM convert = pure es := by
  induction es with
  | nil => rfl
  | cons e es ih =>
    rw [List.mapM_cons, h e (by simp), ih fun e he => h e (by simp [he])]
    rfl

theorem convertOperands_of_fixed (h : ∀ e ∈ converted op args, convert e = pure e) :
    convertOperands op convert args = pure args := by
  cases args with
  | nil => rfl
  | cons a rest =>
    rw [convertOperands]
    split
    · rename_i hs
      rw [h a (by simp [converted, hs])]
      rfl
    · rename_i hs
      exact mapM_of_fixed fun e he => h e (by simpa [converted, hs] using he)

/-- What a choice and the other operators have in common. -/
theorem builtin_eq {b : Bool} (hop : op ≠ .paren)
    (hacc : op = .ite ∧ (args.headD default).type.isPrivate = false ∨
      ∀ e ∈ args, env.isAccessible e.type = true) :
    builtin env i op args b =
      if op = .ite then choice env i args b else operation env i op args b := by
  have hguard : (!(decide (op = .ite) && !(args.headD default).type.isPrivate) &&
      args.any fun a => !env.isAccessible a.type) = false := by
    rcases hacc with ⟨rfl, hpub⟩ | hacc
    · rw [hpub]
      rfl
    · have hany : (args.any fun a => !env.isAccessible a.type) = false := by simpa using hacc
      rw [hany, Bool.and_false]
  rw [builtin, if_neg hop, if_neg (by rw [hguard]; decide)]

theorem folded_eq (h : op.fold (args.map fun a => literalOf a.type.type) = some l) :
    folded env span op args = pure (.ofAll (literalType l)) := by
  cases l <;> simp [folded, h, literalType]

theorem builtin_fold (hp : Declares env.program) (ha : ∀ e ∈ args, Typed env e) (hop : op ≠ .paren)
    (hl : ∀ e ∈ args, e.type.type.isLiteral = true) (hs : ∀ e ∈ args, suits op e.type.type = true)
    (hc : op = .ite → (args.headD default).type.type.isBool = true)
    (hf : op.fold (args.map fun a => literalOf a.type.type) = some l)
    (h : Expr.HasType (.builtin i op args false) (.ofAll (literalType l))) :
    builtin env i op args false = pure (.builtin i op args false) := by
  have hacc : ∀ e ∈ args, env.isAccessible e.type = true := by
    intro e he
    rw [Env.isAccessible, OwnedType.isPrivate, (ha e he).owner_of_isLiteral hp (hl e he)]
    rfl
  have hall : (args.all fun a => a.type.type.isLiteral) = true := List.all_eq_true.2 hl
  rw [builtin_eq hop (.inr hacc)]
  split
  · rename_i hite
    subst hite
    rw [choice.eq_def, if_neg (by rw [hc rfl]; decide), if_pos hall, folded_eq hf, pure_bind]
    dsimp only
    rw [Expr.Info.with_type_eq (i := i) h]
  · rw [operation, checkOperands_of_suits hs, pure_bind, if_pos hall, folded_eq hf, pure_bind,
      Expr.Info.with_type_eq (i := i) h]

/-- The branches of a choice are in place. -/
theorem coerce_branch (he : Typed env e) (ht : e.type.type = t) (hd : t.IsValue)
    (hl : t.isLiteral = false) (hs : Stands env e.type (.mk t o)) :
    coerce env e (.mk t o) = pure e := by
  refine coerce_of_inPlace he ?_
  cases hd with
  | declarable hd => exact inPlace_of_stands (t := .mk _ o) hd hs
  | number | bool => cases hl
  | tuple => exact he.inPlace (t := .mk _ o) ht.symm (.inr ⟨_, rfl⟩)

theorem choice_choose (ha : Typed env a) (hb : Typed env b) (hp : c.type.isPrivate = false)
    (hbool : c.type.type.isBool = true) (hd : t.IsValue) (hl : t.isLiteral = false)
    (hta : a.type.type = t) (htb : b.type.type = t)
    (ho : commonOwner? env a.type.owner b.type.owner = some o) (hsa : Stands env a.type (.mk t o))
    (hsb : Stands env b.type (.mk t o))
    (h : Expr.HasType (.builtin i .ite [c, a, b] false) (.mk t o)) :
    builtin env i .ite [c, a, b] false = pure (.builtin i .ite [c, a, b] false) := by
  have hall : ¬ ([c, a, b].all fun a => a.type.type.isLiteral) = true := by simp [hta, hl]
  have howner : ∀ {k : Owner → Check Expr}, (do
      let o ←
        if env.sameOwner a.type.owner b.type.owner then pure a.type.owner
        else if a.type.owner.isAll then pure b.type.owner
        else if b.type.owner.isAll then pure a.type.owner
        else throw (env.mismatch (.mk t a.type.owner) b)
      k o) = k o := by
    intro k
    unfold commonOwner? at ho
    split_ifs at ho ⊢ <;> cases ho <;> rfl
  have hhead : ([c, a, b].headD default).type.isPrivate = false := hp
  rw [builtin_eq (by decide) (.inl ⟨rfl, hhead⟩), if_pos rfl, choice, if_neg (by simp [hbool]),
    if_neg hall]
  dsimp only
  rw [commonType_self hta htb hl, pure_bind, if_neg (by simp [hp]), howner,
    coerce_branch ha hta hd hl hsa, pure_bind, coerce_branch hb htb hd hl hsb, pure_bind,
    Expr.Info.with_type_eq (i := i) h]

theorem choice_decide (hc : Typed env c) (ha : Typed env a) (hb : Typed env b)
    (hp : c.type.isPrivate = true) (hd : t.IsValue) (hl : t.isLiteral = false)
    (hta : a.type.type = t) (htb : b.type.type = t) (haa : env.isAccessible a.type = true)
    (hab : env.isAccessible b.type = true) (hsc : Stands env c.type (.ofMe .bool))
    (hsa : Stands env a.type (.ofMe t)) (hsb : Stands env b.type (.ofMe t))
    (h : Expr.HasType (.builtin i .ite [c, a, b] true) (.ofMe t)) :
    builtin env i .ite [c, a, b] true = pure (.builtin i .ite [c, a, b] true) := by
  have hbool : c.type.type = .bool := hsc.2 trivial
  have hac : env.isAccessible c.type = true := isAccessible_of_stands (t := .bool) trivial hsc
  have hall : ¬ ([c, a, b].all fun a => a.type.type.isLiteral) = true := by simp [hta, hl]
  rw [builtin_eq (by decide) (.inr (by simp [hac, haa, hab])), if_pos rfl, choice,
    if_neg (by simp [hbool, DataType.isBool]), if_neg hall]
  dsimp only
  rw [commonType_self hta htb hl, pure_bind, if_pos hp,
    coerce_branch hc hbool (.declarable trivial) rfl hsc, pure_bind,
    coerce_branch ha hta hd hl hsa, pure_bind, coerce_branch hb htb hd hl hsb, pure_bind,
    Expr.Info.with_type_eq (i := i) h]

/-- The operands that an operator works on are no constants. -/
theorem not_all_isLiteral (hne : args ≠ []) (hd : t.IsDeclarable)
    (h : ∀ e ∈ converted op args, e.type.type = t) :
    ¬ (args.all fun a => a.type.type.isLiteral) = true := by
  obtain ⟨a, as, rfl⟩ := List.exists_cons_of_ne_nil hne
  have ha : a.type.type = t := h a (by by_cases hs : op.isShift = true <;> simp [converted, hs])
  simp [ha, hd.isLiteral_eq]

theorem operation_operate (hop : op ≠ .paren) (hite : op ≠ .ite)
    (hp : ∀ e ∈ args, e.type.isPrivate = false) (hne : args ≠ [])
    (hsuit : ∀ e ∈ args, suits op e.type.type = true) (hd : t.IsDeclarable)
    (hs : ∀ e ∈ converted op args, e.type.type = t)
    (h : Expr.HasType (.builtin i op args false) (.ofAll (if op.returnsBool then .bool else t))) :
    builtin env i op args false = pure (.builtin i op args false) := by
  have hacc : ∀ e ∈ args, env.isAccessible e.type = true := by
    intro e he
    simp [Env.isAccessible, hp e he]
  have hpub : (args.all fun a => !a.type.isPrivate) = true := by simpa using hp
  rw [builtin_eq hop (.inr hacc), if_neg hite, operation, checkOperands_of_suits hsuit, pure_bind,
    if_neg (not_all_isLiteral hne hd hs), operandType_of_converted hne hd hs, pure_bind]
  dsimp only
  rw [if_pos hpub, convertOperands_of_fixed fun e he => if_pos (hs e he), pure_bind,
    Expr.Info.with_type_eq (i := i) h]

theorem checkPrivate_settles (henc : op.hasEncoding = true)
    (hwide : ¬ ((op.isBitwise || op.isShift) && t.width = 256) = true)
    (hn : op.isShift = true → isShiftAmount (args.getD 1 default).type.type = true) :
    Settles (checkPrivate env span op t args) () True := by
  rw [checkPrivate, if_neg (by simp [henc]), if_neg hwide, if_neg (by simpa using hn)]
  split
  · exact .warn span
  · exact .pure ()

theorem operation_compute (ha : ∀ e ∈ args, Typed env e) (hop : op ≠ .paren) (hite : op ≠ .ite)
    (hx : ∃ e ∈ args, e.type.isPrivate = true) (hacc : ∀ e ∈ args, env.isAccessible e.type = true)
    (hsuit : ∀ e ∈ args, suits op e.type.type = true)
    (hwide : ¬ ((op.isBitwise || op.isShift) && t.width = 256) = true)
    (henc : op.hasEncoding = true) (hd : t.IsDeclarable)
    (hs : ∀ e ∈ converted op args, Stands env e.type (.ofMe t))
    (hn : op.isShift = true → isShiftAmount (args.getD 1 default).type.type = true)
    (h : Expr.HasType (.builtin i op args true) (.ofMe (if op.returnsBool then .bool else t))) :
    Settles (builtin env i op args true) (.builtin i op args true) True := by
  have hne : args ≠ [] := by
    rintro rfl
    obtain ⟨_, he, -⟩ := hx
    cases he
  have hty : ∀ e ∈ converted op args, e.type.type = t := fun e he => (hs e he).2 hd
  have hpriv : ¬ (args.all fun a => !a.type.isPrivate) = true := by simpa using hx
  have hmem : ∀ e ∈ converted op args, e ∈ args := by
    intro e he
    unfold converted at he
    split at he
    · exact List.mem_of_mem_take he
    · exact he
  have hfixed : ∀ e ∈ converted op args, coerce env e (.ofMe t) = pure e := fun e he =>
    coerce_of_inPlace (ha e (hmem e he)) (inPlace_of_stands (t := .ofMe t) hd (hs e he))
  rw [builtin_eq hop (.inr hacc), if_neg hite, operation, checkOperands_of_suits hsuit, pure_bind,
    if_neg (not_all_isLiteral hne hd hty), operandType_of_converted hne hd hty, pure_bind]
  dsimp only
  rw [if_neg hpriv]
  refine ((checkPrivate_settles henc hwide hn).bind ?_).congr (and_self_iff)
  rw [convertOperands_of_fixed hfixed, pure_bind, Expr.Info.with_type_eq (i := i) h]
  exact .pure _

/-! ## Expressions -/

theorem exprs_settles {P : Expr → Prop} (h : ∀ e ∈ es, Settles (expr env e) e (P e)) :
    Settles (exprs env es) es (∀ e ∈ es, P e) := by
  induction es with
  | nil => exact (Settles.pure []).congr (by simp)
  | cons e es ih =>
    have hes := ih fun e he => h e (by simp [he])
    refine ((h e (by simp)).bind (hes.bind (Settles.pure (e :: es)))).congr ?_
    rw [List.forall_mem_cons, and_true]

theorem arguments_of_stands {vs : List VarId} (hp : Declares env.program)
    (he : ∀ e ∈ es, Typed env e)
    (hs : ∀ q ∈ es.zip vs, Stands env q.1.type (env.program.var q.2).type) :
    arguments env es (vs.map fun v => (env.program.var v).type) = pure es := by
  induction es generalizing vs with
  | nil => cases vs <;> rfl
  | cons e es ih =>
    cases vs with
    | nil => rfl
    | cons v vs =>
      have hd := OwnedType.isDeclarable_iff.1 (hp.vars v)
      rw [List.zip_cons_cons, List.forall_mem_cons] at hs
      rw [List.map_cons, arguments,
        coerce_of_inPlace (he e (by simp)) (inPlace_of_stands hd hs.1), pure_bind,
        ih (fun e h => he e (by simp [h])) hs.2]
      rfl

theorem element_entry (hp : Declares env.program) {idx : Expr} {k : DataType} {l : Option String}
    {t u : OwnedType} (hb : Typed env base) (hi : Typed env idx)
    (ht : base.type.type = .mapping k l t) (hk : Stands env idx.type (.ofAll k))
    (hu : EntryType l idx.label? t u) : element env span base idx = pure (idx, u) := by
  have hd : k.IsDeclarable := by
    have hv := hb.isValue hp
    rw [ht] at hv
    cases hv with
    | declarable hd => exact hd.1
  have hidx : coerce env idx (.ofAll k) = pure idx :=
    coerce_of_inPlace hi (inPlace_of_stands (t := .ofAll k) hd hk)
  simp only [element, ht, hidx, pure_bind]
  generalize idx.label? = x at hu
  cases hu with
  | anonymous => rfl
  | named h => simp only [Option.isNone_some, Bool.false_eq_true, if_false]
  | owned h => simp [h]

theorem element_array {idx : Expr} {t : OwnedType} {len : Option Nat}
    (ht : base.type.type = .array t len) (hn : idx.type.type.isNumeric = true)
    (hp : idx.type.isPrivate = false) : element env span base idx = pure (idx, t) := by
  simp [element, ht, hn, hp]

theorem reclassified_reveal (hp : e.type.type.isPrimitive = true)
    (ha : env.isAccessible e.type = true) (hl : t.isLiteral = false)
    (ht : t = e.type.type ∨ t = e.type.type.toAbstract) (hf : unfixedOwner? env.program o = none)
    (hn : env.sameOwner e.type.owner o = false) :
    Settles (reclassified env span e o false) (.mk t o) (e.type.type ≠ .int 256) := by
  have habstract : e.type.type.toAbstract = t := by
    rcases ht with rfl | rfl
    · exact DataType.toAbstract_eq_self hl
    · rfl
  have hfit : ¬ fit env e.type (.mk e.type.type o) = .exact := by
    rw [fit_of_isPrimitive hp, fitPlain_eq_exact]
    simp [hn]
  simp only [reclassified, Bool.false_eq_true, if_false, hf]
  refine (Settles.guard (a := ()) (Q := True) ?_).congr ?_
  · rw [if_neg (by simp [ha]), if_neg hfit, habstract]
    exact .pure _
  · rw [and_true, DataType.not_revealable_iff hp]

theorem castType_cast (hp : e.type.type.isPrimitive = true) (ht : t.isPrimitive = true)
    (ho : e.type.isPrivate = false ∧ o = e.type.owner ∨
      e.type.isPrivate = true ∧ env.isAccessible e.type = true ∧ o = .me)
    (hr : ∀ v, e.type.type = .numberLit v → t.isNumeric = true → t.canRepresent v = true) :
    castType env span t e false = pure (.mk t o) := by
  have howner : (if (false || !e.type.isPrivate) = true then pure (.mk t e.type.owner)
      else if (!env.isAccessible e.type) = true then
        throw (env.fault .castInaccessible span) >>= fun _ : Unit => pure (.ofMe t)
      else pure (.ofMe t) : Check OwnedType) = pure (.mk t o) := by
    rcases ho with ⟨hpub, rfl⟩ | ⟨hpriv, hacc, rfl⟩
    · rw [if_pos (by simp [hpub])]
    · rw [if_neg (by simp [hpriv]), if_neg (by simp [hacc])]
  rw [castType, if_neg (by simp [hp, ht])]
  dsimp only
  split
  · rename_i v hv
    rw [if_neg, howner]
    cases hn : t.isNumeric
    · simp
    · simp [hr v hv hn]
  · exact howner

/-- Checking a typed expression again gives it back. -/
theorem Typed.settles (hp : Declares env.program) (h : Typed env e) :
    Settles (expr env e) e e.NarrowReveals := by
  have hbuiltin : ∀ {i : Expr.Info} {op : Operator} {args : List Expr} {b : Bool},
      (∀ e ∈ args, Settles (expr env e) e e.NarrowReveals) →
      Settles (builtin env i op args b) (.builtin i op args b) True →
      Settles (expr env (.builtin i op args b)) (.builtin i op args b)
        (Expr.builtin i op args b).NarrowReveals := by
    intro i op args b hargs h
    refine ((exprs_settles hargs).bind h).congr ?_
    rw [Expr.narrowReveals_iff, and_true]
    exact (true_and _).symm.to_iff
  induction h with
  | @bool i _ h | @me i h | @ident i _ h =>
    rw [expr, Expr.Info.with_type_eq (i := i) h, Expr.narrowReveals_iff]
    exact (Settles.pure _).congr (by simp [Expr.IsNarrowReveal, Expr.children])
  | @number i _ hn h =>
    rw [expr, if_neg (by simp [hn]), Expr.Info.with_type_eq (i := i) h, Expr.narrowReveals_iff]
    exact (Settles.pure _).congr (by simp [Expr.IsNarrowReveal, Expr.children])
  | @tuple i es _ h ih =>
    rw [expr, Expr.narrowReveals_iff]
    have hes := exprs_settles ih
    refine (hes.bind (Q := True) ?_).congr (by simp [Expr.IsNarrowReveal, Expr.children])
    rw [Expr.Info.with_type_eq (i := i) h]
    exact .pure _
  | @entry i base idx _ _ _ _ hb hi ht hk hu h ihb ihi =>
    rw [expr, Expr.narrowReveals_iff]
    refine (ihb.bind (ihi.bind (Q := True) ?_)).congr
      (by simp [Expr.IsNarrowReveal, Expr.children])
    rw [element_entry hp hb hi ht hk hu, pure_bind]
    dsimp only
    rw [Expr.Info.with_type_eq (i := i) h]
    exact .pure _
  | @element i base idx _ _ _ _ ht hn hpub h ihb ihi =>
    rw [expr, Expr.narrowReveals_iff]
    refine (ihb.bind (ihi.bind (Q := True) ?_)).congr
      (by simp [Expr.IsNarrowReveal, Expr.children])
    rw [element_array ht hn hpub, pure_bind]
    dsimp only
    rw [Expr.Info.with_type_eq (i := i) h]
    exact .pure _
  | @call i f args ha hs h ih =>
    rw [expr, Expr.narrowReveals_iff]
    refine ((exprs_settles ih).bind (Q := True) ?_).congr
      (by simp [Expr.IsNarrowReveal, Expr.children])
    dsimp only
    rw [arguments_of_stands hp ha hs, pure_bind, Expr.Info.with_type_eq (i := i) h]
    exact .pure _
  | @raise i e o _ _ _ _ h ih =>
    rw [expr, Expr.narrowReveals_iff]
    refine (ih.bind (Q := True) ?_).congr (by simp [Expr.IsNarrowReveal, Expr.children])
    rw [reclassified, if_pos rfl, pure_bind, Expr.Info.with_type_eq (i := i) h]
    exact .pure _
  | @reveal i e o t _ hprim ha hl ht hf hn h ih =>
    rw [expr, Expr.narrowReveals_iff]
    have hreveal : Settles (reclassified env i.span e o false) (.mk t o) (e.type.type ≠ .int 256) :=
      reclassified_reveal hprim ha hl ht hf hn
    refine (ih.bind (hreveal.bind (Q := True) ?_)).congr ?_
    · rw [Expr.Info.with_type_eq (i := i) h]
      exact .pure _
    · simp [Expr.IsNarrowReveal, Expr.children, and_comm]
  | @convert i e t _ hprim _ ht _ h ih =>
    rw [expr, Expr.narrowReveals_iff]
    refine (ih.bind (Q := True) ?_).congr (by simp [Expr.IsNarrowReveal, Expr.children])
    have hcast : castType env i.span t e true = pure (.mk t e.type.owner) := by
      cases hty : e.type.type <;> simp_all [castType]
    rw [hcast, pure_bind, Expr.Info.with_type_eq (i := i) h]
    exact .pure _
  | @cast i e t o _ hprim _ ht ho hr h ih =>
    rw [expr, Expr.narrowReveals_iff]
    refine (ih.bind (Q := True) ?_).congr (by simp [Expr.IsNarrowReveal, Expr.children])
    rw [castType_cast hprim ht ho hr, pure_bind, Expr.Info.with_type_eq (i := i) h]
    exact .pure _
  | @paren i _ _ h ih =>
    refine hbuiltin ih ?_
    rw [builtin, if_pos rfl, Expr.Info.with_type_eq (i := i) h]
    exact .pure _
  | fold ha hop hl hs hc hf h ih =>
    exact hbuiltin ih (.of_eq (builtin_fold hp ha hop hl hs hc hf h))
  | choose _ ha hb hpub hbool hd hl hta htb ho hsa hsb h ihc iha ihb =>
    exact hbuiltin (by simpa using ⟨ihc, iha, ihb⟩)
      (.of_eq (choice_choose ha hb hpub hbool hd hl hta htb ho hsa hsb h))
  | decide hc ha hb hpriv hd hl hta htb haa hab hsc hsa hsb h ihc iha ihb =>
    exact hbuiltin (by simpa using ⟨ihc, iha, ihb⟩)
      (.of_eq (choice_decide hc ha hb hpriv hd hl hta htb haa hab hsc hsa hsb h))
  | operate _ hop hite hpub hne hsuit hd _ hs h ih =>
    exact hbuiltin ih (.of_eq (operation_operate hop hite (fun e he => (hpub e he).1) hne hsuit hd hs h))
  | compute ha hop hite _ hx hacc hsuit hwide henc hd _ hs hn h ih =>
    exact hbuiltin ih (operation_compute ha hop hite hx hacc hsuit hwide henc hd hs hn h)

/-! ## Statements -/

theorem openCondition_settles (hp : Declares env.program) (h : Open env c) :
    Settles (openCondition env c) c c.NarrowReveals := by
  refine ((h.1.settles hp).bind (Q := True) ?_).congr (and_true _).to_iff
  rw [if_neg (by simp [h.2])]
  exact .pure _

theorem openConditionOption_settles (hp : Declares env.program) {o : Option Expr}
    (h : ∀ c ∈ o, Open env c) :
    Settles (openConditionOption env o) o (∀ c ∈ o, c.NarrowReveals) := by
  cases o with
  | none => exact (Settles.pure none).congr (by simp)
  | some c =>
    exact ((openCondition_settles hp (h c rfl)).bind (.pure (some c))).congr (by simp)

theorem branchCondition_settles (hp : Declares env.program) (ht : Typed env c)
    (hbool : c.type.type.isBool = true) (hacc : env.isAccessible c.type = true) :
    Settles (branchCondition env c) c c.NarrowReveals := by
  refine ((ht.settles hp).bind (Q := True) ?_).congr (and_true _).to_iff
  rw [if_neg (by simp [hbool]), if_neg (by simp [hacc])]
  exact .pure _

theorem checkDeclared_of_faultless {t : OwnedType} {c : Context} (h : declaredFault? p t = none) :
    checkDeclared p t c = pure () := by
  rw [checkDeclared, h]

theorem checkTargets_of_forall (h : ∀ e ∈ es, checkTarget env e = pure ()) :
    checkTargets env es = pure () := by
  induction es with
  | nil => rfl
  | cons e es ih =>
    rw [checkTargets, h e (by simp), pure_bind, ih fun e he => h e (by simp [he])]

theorem checkTarget_of_isTarget (h : IsTarget env.program e) : checkTarget env e = pure () := by
  induction h with
  | ident hc => rw [checkTarget, if_neg (by simp [hc])]
  | index _ ih => rw [checkTarget, ih]
  | tuple _ ih => rw [checkTarget, checkTargets_of_forall ih]

theorem returnValue_settles (hp : Declares env.program) {o : Option Expr}
    (hnone : o = none ↔ env.returns = []) (h : ∀ x ∈ o, Typed env x ∧ InPlace env x env.returned) :
    Settles (returnValue env span o) o (∀ x ∈ o, x.NarrowReveals) := by
  have hreturns : (env.site.function.map fun f => (env.program.function f).returns).getD [] =
      env.returns := rfl
  simp only [returnValue, hreturns]
  cases o with
  | none =>
    rw [hnone.1 rfl]
    exact (Settles.pure none).congr (by simp)
  | some x =>
    obtain ⟨ht, hi⟩ := h x rfl
    obtain ⟨r, rs, hrs⟩ := List.exists_cons_of_ne_nil fun hnil => by simpa using hnone.2 hnil
    rw [Env.returned, hrs] at hi
    rw [hrs]
    refine ((ht.settles hp).bind (Q := True) ?_).congr (by simp)
    rw [coerce_of_inPlace ht hi, pure_bind]
    exact .pure _

theorem stmts_settles {ss : List Stmt} (h : ∀ s ∈ ss, Settles (stmt env s) s (P s)) :
    Settles (stmts env ss) ss (∀ s ∈ ss, P s) := by
  induction ss with
  | nil =>
    rw [stmts]
    exact (Settles.pure []).congr (by simp)
  | cons s ss ih =>
    rw [stmts]
    have hss := ih fun s hs => h s (by simp [hs])
    refine ((h s (by simp)).bind (hss.bind (Settles.pure (s :: ss)))).congr ?_
    rw [List.forall_mem_cons, and_true]

theorem stmtOption_settles {o : Option Stmt} (h : ∀ s ∈ o, Settles (stmt env s) s (P s)) :
    Settles (stmtOption env o) o (∀ s ∈ o, P s) := by
  cases o with
  | none =>
    rw [stmtOption]
    exact (Settles.pure none).congr (by simp)
  | some s =>
    rw [stmtOption]
    exact ((h s rfl).bind (.pure (some s))).congr (by simp)

/-- Checking a typed statement again gives it back. -/
theorem TypedStmt.settles (hp : ∀ b, Declares ({ env with before? := b } : Env).program) {s : Stmt}
    (h : TypedStmt env s) (before : Option (Partition Label)) :
    Settles (stmt { env with before? := before } s) s s.NarrowReveals := by
  induction s using Stmt.induct generalizing before with
  | block i body ih =>
    obtain ⟨-, hchildren⟩ := typedStmt_iff.1 h
    rw [stmt, Stmt.narrowReveals_iff]
    refine Settles.congr (.bind (stmts_settles fun s hs => ih s hs (hchildren s hs) _) (.pure _)) ?_
    simp [Stmt.roots, Stmt.children]
  | cond i c yes no ihy ihn =>
    obtain ⟨⟨hc, hbool, hacc⟩, hchildren⟩ := typedStmt_iff.1 h
    have hyes := ihy (hchildren yes (.head _))
    have hno := fun s hs => ihn s hs (hchildren s (by simpa [Stmt.children] using .inr hs))
    rw [stmt, Stmt.narrowReveals_iff]
    refine Settles.congr (.bind (branchCondition_settles (hp _) hc hbool hacc) (.bind (hyes _)
      (.bind (stmtOption_settles fun s hs => hno s hs _) (.pure _)))) ?_
    simp [Stmt.roots, Stmt.children]
  | loop i c body ih | doLoop i body c ih =>
    obtain ⟨hc, hchildren⟩ := typedStmt_iff.1 h
    have hbody := ih (hchildren body (.head _))
    rw [stmt, Stmt.narrowReveals_iff]
    refine Settles.congr (.bind (openCondition_settles (hp _) hc) (.bind (hbody _) (.pure _))) ?_
    simp [Stmt.roots, Stmt.children]
  | forLoop i init c update body ihi ihu ihb =>
    obtain ⟨hc, hchildren⟩ := typedStmt_iff.1 h
    obtain ⟨hi, hb, hu⟩ := Stmt.forall_children_forLoop.1 hchildren
    have hinit := fun s hs => ihi s hs (hi s hs)
    have hbody := ihb hb
    have hupdate := fun s hs => ihu s hs (hu s hs)
    rw [stmt, Stmt.narrowReveals_iff]
    refine Settles.congr (.bind (stmtOption_settles fun s hs => hinit s hs _)
      (.bind (openConditionOption_settles (hp _) hc) (.bind (hbody _)
        (.bind (stmtOption_settles fun s hs => hupdate s hs _) (.pure _))))) ?_
    simp only [Stmt.roots, Stmt.children, List.mem_append, List.mem_cons, Option.mem_toList,
      List.mem_map, forall_exists_index, and_imp, forall_apply_eq_imp_iff₂, and_true, or_imp,
      forall_and, forall_eq]
    exact and_left_comm
  | decl i v init =>
    obtain ⟨⟨hd, hinit⟩, -⟩ := typedStmt_iff.1 h
    rw [Stmt.narrowReveals_iff]
    cases init with
    | none =>
      rw [stmt]
      refine Settles.congr (P := True) ?_ (by simp [Stmt.roots, Stmt.children])
      rw [checkDeclared_of_faultless hd, pure_bind]
      exact .pure _
    | some e =>
      obtain ⟨ht, hs⟩ := hinit e rfl
      have hdecl := OwnedType.isDeclarable_iff.1 ((hp none).vars v)
      rw [stmt]
      refine Settles.congr (P := e.NarrowReveals ∧ True) ?_ (by simp [Stmt.roots, Stmt.children])
      rw [checkDeclared_of_faultless hd, pure_bind]
      refine (Typed.settles (hp _) ht).bind ?_
      rw [coerce_of_inPlace ht (inPlace_of_stands hdecl hs), pure_bind]
      exact .pure _
  | assign i lhs rhs =>
    obtain ⟨⟨hl, htarget, hr, -, hi⟩, -⟩ := typedStmt_iff.1 h
    rw [stmt, Stmt.narrowReveals_iff]
    refine Settles.congr (.bind (Q := rhs.NarrowReveals ∧ True) (Typed.settles (hp _) hl) ?_)
      (by simp [Stmt.roots, Stmt.children])
    rw [checkTarget_of_isTarget htarget, pure_bind]
    refine (Typed.settles (hp _) hr).bind ?_
    rw [coerce_of_inPlace hr hi, pure_bind]
    exact .pure _
  | expr i e =>
    have he := (typedStmt_iff.1 h).1
    rw [stmt, Stmt.narrowReveals_iff]
    refine Settles.congr (.bind (Typed.settles (hp _) he) (.pure _)) ?_
    simp [Stmt.roots, Stmt.children]
  | require i e =>
    have he := (typedStmt_iff.1 h).1
    rw [stmt, Stmt.narrowReveals_iff]
    refine Settles.congr (.bind (openCondition_settles (hp _) he) (.pure _)) ?_
    simp [Stmt.roots, Stmt.children]
  | ret i e =>
    obtain ⟨⟨hnone, he⟩, -⟩ := typedStmt_iff.1 h
    rw [stmt, Stmt.narrowReveals_iff]
    refine Settles.congr (.bind (returnValue_settles (hp _) hnone fun x hx =>
      ⟨(he x hx).1, (he x hx).2.2⟩) (.pure _)) ?_
    simp [Stmt.roots, Stmt.children]
  | leave i | next i =>
    rw [stmt, Stmt.narrowReveals_iff]
    exact (Settles.pure _).congr (by simp [Stmt.roots, Stmt.children])

/-! ## Programs -/

/-- Checking a typed function again gives the program back. -/
theorem FunctionTyped.settles {f : FunctionId} (hp : Declares p) (h : FunctionTyped p f) :
    Settles (function p f) p (p.function f).body.NarrowReveals := by
  have hparams : Settles ((p.function f).params.forM (param p)) ⟨⟩ True := by
    refine .forM fun v hv => ?_
    obtain ⟨ho, hd⟩ := h.params v hv
    rw [param, if_neg (by simp [ho]), checkDeclared_of_faultless hd]
    exact .pure _
  have hreturns : Settles ((p.function f).returns.forM fun t => do
      if (p.function f).canBeExternal && !isOwnerOutside t.owner then
        throw (.type .returnOwner (p.functionContext f (p.function f).span))
      checkDeclared p t (p.functionContext f (p.function f).span)) ⟨⟩ True := by
    refine .forM fun t ht => ?_
    obtain ⟨ho, hd⟩ := h.returns t ht
    rw [if_neg (by simpa using ho), checkDeclared_of_faultless hd]
    exact .pure _
  have hbody : Settles (stmt { program := p, site := p.site f } (p.function f).body)
      (p.function f).body (p.function f).body.NarrowReveals :=
    h.body.settles (fun _ => hp) none
  refine Settles.congr (.bind hparams (.bind hreturns (.bind hbody (Q := True) ?_))) (by simp)
  rw [← Program.setBody, Program.setBody_self]
  exact .pure _

/-- Initializers change no owners. -/
theorem narrowReveals_of_hasPrivate (h : hasPrivate e = false) : e.NarrowReveals := by
  intro x hx
  have hx := List.any_eq_false.1 h x hx
  cases x with
  | reclassify i e o implicit => simp [isReclassify] at hx
  | _ => trivial

theorem VarTyped.settles {v : VarId} (hp : Declares p) (h : VarTyped p v) :
    Settles (stateVar p v) p True := by
  rw [stateVar]
  dsimp only
  rw [checkDeclared_of_faultless h.declared, pure_bind]
  split
  · exact .pure _
  · rename_i e he
    obtain ⟨ht, hs, hpub⟩ := h.init e he
    have hd := OwnedType.isDeclarable_iff.1 (hp.vars v)
    have hsettles : Settles (expr (initEnv p v) e) e e.NarrowReveals := ht.settles hp
    refine Settles.congr (.bind hsettles (Q := True) ?_)
      (iff_of_true ⟨narrowReveals_of_hasPrivate hpub, trivial⟩ trivial)
    have hcoerce : coerce (initEnv p v) e (p.var v).type = pure e :=
      coerce_of_inPlace ht (inPlace_of_stands hd hs)
    rw [initEnv] at hcoerce
    rw [hcoerce, pure_bind, if_neg (by simp [hpub]), ← Program.setInit, Program.setInit_self he]
    exact .pure _

/-- Checking a typed program again gives it back, just where all written changes of the owner are
of types that can have one. -/
theorem WellTyped.settles (hs : p.Scoped) (h : WellTyped p) :
    Settles p.withTypes p (∀ f ∈ p.functions, f.body.NarrowReveals) := by
  have hp := declares_of_scoped hs
  have hcontract : ∀ c ∈ p.contractIds, Settles (contract p c) p
      (∀ f ∈ (p.contract c).functions, (p.function f).body.NarrowReveals) := by
    intro c hc
    obtain ⟨i, hi, rfl⟩ := List.mem_map.1 hc
    have hvars := Settles.foldlM (f := stateVar) fun v hv =>
      (h.state ⟨i⟩ (List.mem_range.1 hi) v hv).settles hp
    have hfunctions := Settles.foldlM (f := Typing.function) (P := fun f =>
      (p.function f).body.NarrowReveals) fun f hf =>
        (h.function f (hs.contract ⟨i⟩ f hf).1).settles hp
    exact Settles.congr (.bind hvars hfunctions) (by simp)
  refine Settles.congr (.foldlM hcontract) ⟨fun hall g hg => ?_, fun hall c _ f hf => ?_⟩
  · obtain ⟨f, hf, rfl⟩ := Program.exists_function hg
    obtain ⟨hc, hmem⟩ := hs.mem f hf
    exact hall _ (List.mem_map.2 ⟨_, List.mem_range.2 hc, rfl⟩) _ hmem
  · exact hall _ (Program.function_mem (hs.contract c f hf).1)

end Typing

/-! ## Units whose types are checked twice -/

namespace SourceUnit

/-- Checking the types of a unit a second time gives the program of the first time back, just where
all written changes of the owner are of types that can have one. -/
theorem checkUpTo_settles {u : SourceUnit} {p : Program}
    (h : Passes (u.checkUpTo .types false) p) :
    Settles p.withTypes p (∀ f ∈ p.functions, f.body.NarrowReveals) := by
  obtain ⟨p₀, hp₀, h⟩ := h.bind
  obtain ⟨_, -, h⟩ := h.bind
  obtain ⟨r, hr, h⟩ := h.bind
  obtain ⟨_, hr', h⟩ := h.bind
  obtain rfl := hr'.pure
  obtain rfl := Passes.pure h
  obtain ⟨hscoped, halike, -, htyped⟩ := withTypes_typed hp₀.lift hr
  exact htyped.settles (Typing.scoped_of_alike halike hscoped)

/-- A unit passes the check of its types a second time just where the conversions of the first time
have made no value under a written change of the owner one of the widest signed type. -/
theorem typed_accepted_again_iff {u : SourceUnit} {p : Program}
    (h : Passes (u.checkUpTo .types false) p) :
    (∃ q, Passes p.withTypes q) ↔
      ∀ f ∈ p.functions, ∀ i e o, .reclassify i e o false ∈ f.body.exprs →
        e.type.type ≠ .int 256 := by
  have hsettles := checkUpTo_settles h
  have hnarrow : (∀ f ∈ p.functions, f.body.NarrowReveals) ↔
      ∀ f ∈ p.functions, ∀ i e o, .reclassify i e o false ∈ f.body.exprs →
        e.type.type ≠ .int 256 := by
    refine forall₂_congr fun f _ => ?_
    rw [Stmt.narrowReveals_iff_exprs]
    constructor
    · intro hall i e o he
      exact hall _ he
    · intro hall x hx
      unfold Expr.IsNarrowReveal
      split
      · exact hall _ _ _ hx
      · trivial
  rw [← hnarrow]
  constructor
  · rintro ⟨q, hq⟩
    exact (hsettles.unique hq).2
  · intro hall
    exact ⟨p, hsettles.passes hall⟩

/-- A value that gets a wider type after it was revealed. -/
def widened : SourceUnit := .single "Widened" [] [
  { name := "f"
    params := [
      { name := "x", type := .mk (.uint 8) .all }, { name := "y", type := .mk (.int 256) .all }]
    body := [.decl {} "z" (.mk .bool .me) false
      (some (.builtin {} .lt [.reveal {} "x" .me, "y"]))] }]

theorem widened_types : (do
    let p ← ((widened.checkUpTo .types false).run.run []).1
    return p.functions.map fun f => f.body.exprs.map fun e => e.type) =
      Except.ok [[.ofMe .bool, .ofMe (.int 256), .ofAll (.int 256), .ofAll (.uint 8),
        .ofMe (.int 256), .ofAll (.int 256)]] := by
  decide +kernel

/-- The rules accept a unit, and refuse what they make of it. -/
theorem widened_refused_again : (∃ p, Passes (widened.checkUpTo .types false) p) ∧
    ((widened.checkUpTo .types true).run.run []).1 = .error (.type (.notRevealable "int256")
      { span := {}, function := some "f", contract := some "Widened" }) := by
  obtain ⟨p, hp, -⟩ := bind_eq_ok.1 widened_types
  exact ⟨⟨p, .of_run hp⟩, by cbv⟩

theorem typed_accepted_again_iff_widened : ∃ p, Passes (widened.checkUpTo .types false) p ∧
    ((∃ q, Passes p.withTypes q) ↔
      ∀ f ∈ p.functions, ∀ i e o, .reclassify i e o false ∈ f.body.exprs →
        e.type.type ≠ .int 256) := by
  obtain ⟨p, hp, -⟩ := bind_eq_ok.1 widened_types
  have hpasses : Passes (widened.checkUpTo .types false) p := .of_run hp
  exact ⟨p, hpasses, typed_accepted_again_iff hpasses⟩

/-- What passes the check of its types a second time is left as it was: all implicit conversions are
in place. -/
theorem typed_unchanged_again {u : SourceUnit} {p q : Program}
    (h : Passes (u.checkUpTo .types false) p) (hq : Passes p.withTypes q) : q = p :=
  ((checkUpTo_settles h).unique hq).1

/-- Casts and changes of the owner for operands, branches, arguments, tuples and results. -/
def mixed : SourceUnit := .single "Mixed"
  [{ name := "s", type := .mk (.uint 32) .all, init := some 7 }] [
  { name := "g"
    visibility := .internal
    params := [{ name := "a", type := .mk (.uint 16) .me }]
    returns := [.mk (.uint 16) .me, .mk (.uint 16) .all]
    body := [.ret {} (some (.tuple {} ["a", 5]))] },
  { name := "f"
    params := [
      { name := "x", type := .mk (.uint 8) .me }, { name := "y", type := .mk (.uint 8) .all },
      { name := "c", type := .mk .bool .me }]
    body := [
      .decl {} "t" (.mk (.uint 16) .me) false
        (some (.builtin {} .add [.builtin {} .ite ["c", "x", "y"],
          .reveal {} "y" .me])),
      .expr {} (.call {} "g" ["y"])] }]

theorem mixed_types : (do
    let p ← ((mixed.checkUpTo .types false).run.run []).1
    let q ← (p.withTypes.run.run []).1
    return q.functions.map fun f => f.body.exprs.length) = Except.ok [4, 13] := by
  decide +kernel

theorem typed_unchanged_again_mixed : ∃ p q, Passes (mixed.checkUpTo .types false) p ∧
    Passes p.withTypes q ∧ q = p := by
  obtain ⟨p, hp, h⟩ := bind_eq_ok.1 mixed_types
  obtain ⟨q, hq, -⟩ := bind_eq_ok.1 h
  have hpasses : Passes (mixed.checkUpTo .types false) p := .of_run hp
  have hagain : Passes p.withTypes q := .of_run hq
  exact ⟨p, q, hpasses, hagain, typed_unchanged_again hpasses hagain⟩

end SourceUnit

end Shroud
