import Shroud.Compile
import Shroud.Proofs.Lowering.Trace

/-! # Lowering along a trace

Code is lowered along every trace. The proofs follow the code once: expressions (`publicExpr_runs`,
`circuitExpr_runs`), then statements inside a circuit (`circuitStmt_runs`), then bodies
(`lower_runs`). They ask of expressions to be `Traceable` and of statements to be `Inside` or
`Outside`; that checked programs are is left to `Bodies`.

What is plain need not stand under a test. So where a lazy operator or an `if` leaves the circuit
alone, no guard is needed for it.
-/

namespace Shroud.Lowering

open Circuit (Term Wire)
open Solidity (Reading)
open scoped List

variable {base : Env} {R : Reading base.settings.dataName} {h : Here} {depth : Nat} {σ τ : State}
  {ts : List Term} {e : Expr} {f : FunctionId}

/-! ## What is never computed -/

theorem length_inlineBody {values : List Term}
    (hx : Yields (inlineBody base depth f values) σ ts τ) :
    ts.length = (base.program.function f).returns.length := by
  cases depth with
  | zero => exact (Yields.throw_iff.1 hx).elim
  | succ depth =>
    obtain ⟨_, _, -, hx⟩ := Yields.bind_iff.1 hx
    obtain ⟨_, _, -, hx⟩ := Yields.bind_iff.1 hx
    rw [Yields.mapM_length hx, List.length_range]

/-- A call gives back what its function does, and leaves the versions of everything but state as they
were. -/
theorem inlineCall_yields {env : Env} {args : Lower (List Term)}
    (hx : Yields (inlineCall env e f args) σ ts τ) :
    (∃ values ρ υ, Yields (env.inline f values) ρ ts υ) ∧ ∀ key,
      (∀ v, key = .var v → env.program.isState v = false) →
      τ.versions.get? key = σ.versions.get? key := by
  unfold inlineCall at hx
  simp only [Yields.bind_iff, Yields.get_iff] at hx
  obtain ⟨_, _, ⟨rfl, rfl⟩, hx⟩ := hx
  split at hx
  · obtain ⟨_, _, hthrow, -⟩ := Yields.bind_iff.1 hx
    exact (Yields.throw_iff.1 hthrow).elim
  · simp only [Yields.bind_iff, Yields.get_iff, Yields.modify_iff, Yields.pure_iff, inBlock_iff] at hx
    obtain ⟨_, _, ⟨rfl, rfl⟩, _, _, ⟨_, hbody, rfl⟩, _, _, rfl, rfl, rfl⟩ := hx
    obtain ⟨_, _, -, _, _, rfl, _, _, hheld, _, _, rfl, rfl, rfl⟩ := hbody
    refine ⟨⟨_, _, _, hheld⟩, fun key hkey => Bindings.get?_foldl_bind fun x hx heq => ?_⟩
    have hstate := (List.mem_filter.1 hx).2
    rw [heq] at hstate
    cases key with
    | var v => cases (hkey v rfl).symm.trans hstate
    | ret => cases hstate

theorem length_inlineCall {args : Lower (List Term)}
    (hx : Yields (inlineCall (base.placed h depth) e f args) σ ts τ) :
    ts.length = (base.program.function f).returns.length := by
  obtain ⟨⟨_, _, _, hheld⟩, -⟩ := inlineCall_yields hx
  exact length_inlineBody hheld

/-- A function that declares a result and has no `return`. -/
def unset : SourceUnit := .single "Unset" [
  { name := "x", type := .mk (.uint 8) .me }, { name := "r", type := .mk (.uint 8) .me }] [
  { name := "g"
    visibility := .internal
    returns := [.mk (.uint 8) .me] },
  { name := "f"
    body := [.assign {} "r" none
      (.builtin {} .add ["x", .call {} "g" []])] }]

/-- In `r = x + g();` the circuit holds `g`. The checks let `g` through, and its result is never
bound. -/
theorem unset_returnUnbound : (∃ p, Passes unset.check p) ∧
    ((unset.compile {}).run.run []).1 = .error (.internal (.returnUnbound "g" 0)) := by
  have hchecked : Passes.test unset.check (fun _ => true) = true := by decide +kernel
  obtain ⟨p, hp, -⟩ := Passes.of_test hchecked
  have hfails : (match ((unset.compile {}).run.run []).1 with
      | .ok _ => false
      | .error e => e = .internal (.returnUnbound "g" 0)) = true := by
    decide +kernel
  refine ⟨⟨p, hp⟩, ?_⟩
  split at hfails
  · cases hfails
  · rename_i he
    rw [he, of_decide_eq_true hfails]

theorem yields_constantOr {asTerm : Lower Term} {t : Term} (hl : e.type.type.isLiteral = false)
    (hx : Yields (constantOr base.settings e asTerm) σ t τ) : Yields asTerm σ t τ := by
  unfold constantOr at hx
  split at hx
  · rename_i hc
    unfold constant? at hc
    split at hc
    · cases hc
    · split at hc <;> rename_i ht <;> simp_all [DataType.isLiteral]
  · exact hx

/-- A list is not computed inside if one of its elements is not. -/
theorem circuitExprs_of_mem {es : List Expr} (he : e ∈ es)
    (hnone : ∀ σ t τ, ¬ Yields (circuitExpr (base.placed h depth) e) σ t τ) :
    ¬ Yields (circuitExprs (base.placed h depth) es) σ ts τ := by
  intro hx
  induction es generalizing σ τ ts with
  | nil => cases he
  | cons a as ih =>
    obtain ⟨_, _, ha, hx⟩ := Yields.bind_iff.1 hx
    obtain ⟨_, _, has, -⟩ := Yields.bind_iff.1 hx
    rcases List.mem_cons.1 he with rfl | he
    · exact hnone _ _ _ ha
    · exact ih he has

/-- Several values at once are not computed inside. -/
theorem circuitExpr_of_splits (hs : Splits base.program e) :
    ∀ σ t τ, ¬ Yields (circuitExpr (base.placed h depth) e) σ t τ := by
  induction hs with
  | tuple hl =>
    intro σ t τ hx
    exact Yields.throw_iff.1 (yields_constantOr hl hx)
  | call hl hr =>
    intro σ t τ hx
    obtain ⟨ts, _, hts, hx⟩ := Yields.bind_iff.1 (yields_constantOr hl hx)
    split at hx
    · exact hr (length_inlineCall hts).symm
    · exact Yields.throw_iff.1 hx
  | reclassify hl hi _ ih =>
    intro σ t τ hx
    have hx := yields_constantOr hl hx
    rw [if_pos hi] at hx
    exact ih _ _ _ hx
  | builtin hl ha _ ih =>
    intro σ t τ hx
    obtain ⟨_, _, hts, -⟩ := Yields.bind_iff.1 (yields_constantOr hl hx)
    exact circuitExprs_of_mem ha ih hts

/-! ## Expressions -/

/-- Whether the parts of an expression are computed inside, if it is. -/
def partsWithin (inside : Bool) : Expr → Bool
  | .reclassify _ _ _ _ => true
  | .index _ _ _ => false
  | .cast i _ _ _ | .builtin i _ _ _ => inside || i.inCircuit
  | _ => inside

/-- What decides about lazy operands or branches outside: it is public and can be moved, and if it is
a constant it has two forms. -/
structure Decides (base : Env) (e : Expr) : Prop where
  isPublic : e.type.isPrivate = false
  moved : e.type.type.toAbstract.IsMoved
  forms : e.type.type.isLiteral = true → ∃ c t, ConstantForms base e c t

namespace Trace

/-- An expression that is computed inside or outside. It is published as a single value or not at all,
what is read inside can be moved, and it calls functions that may be called and holds functions of
`G` only. -/
structure Fits (T : Trace base R) (G : FunctionId → Prop) (inside : Bool) (e : Expr) : Prop where
  slot : Splits base.program e ∨ e.type.type.toAbstract.fillsSlot = true
  moved : inside = true → e.isRead = true → e.type.type.toAbstract.IsMoved
  held : inside = true → ∀ f ∈ e.callee?, G f
  called : inside = false → ∀ i f args, e = .call i f args →
    T.callable f ∧ args.length = (base.program.function f).params.length
  entered : ∀ i x o b, e = .reclassify i x o b → x.info.inCircuit = true
  head : ∀ i op a as b, e = .builtin i op (a :: as) b → op.isLazy = true →
    inside = false → i.inCircuit = false → Decides base a

/-- An expression that fits, and so do its parts. -/
inductive Traceable (T : Trace base R) (G : FunctionId → Prop) : Bool → Expr → Prop
  | intro {inside : Bool} {e : Expr} (here : T.Fits G inside e)
      (parts : ∀ x ∈ e.children, Traceable T G (partsWithin inside e) x) : Traceable T G inside e

namespace Traceable

variable {T : Trace base R} {G : FunctionId → Prop} {inside : Bool} {e : Expr}

theorem here (he : T.Traceable G inside e) : T.Fits G inside e := by
  cases he with
  | intro here => exact here

theorem part (he : T.Traceable G inside e) {x : Expr} (hx : x ∈ e.children) :
    T.Traceable G (partsWithin inside e) x := by
  cases he with
  | intro _ parts => exact parts x hx

theorem returned (he : T.Traceable G true e) {ts : List OwnedType} :
    ∀ x ∈ returnedExprs ts e, T.Traceable G true x := by
  intro x hx
  unfold returnedExprs at hx
  split at hx
  · split at hx
    · exact he.part hx
    · rwa [List.mem_singleton.1 hx]
  · rwa [List.mem_singleton.1 hx]

end Traceable

variable {T : Trace base R} {D : Discipline} {c : T.Context} {σ : State} {G : FunctionId → Prop}
  {body : List Solidity.Stmt} {s : Stmt} {e : Expr} {τ : State} {env : Env}
  {content act : Lower (List Solidity.Stmt)} {o : Option Expr} {f : FunctionId} {holds : Bool}

/-- No function in `G` is held already, and their bodies keep to the trace, if so many are held inside
each other at most. -/
def Holds (T : Trace base R) (D : Discipline) (G : FunctionId → Prop) (depth : Nat) : Prop :=
  ∀ f, G f → (D.strict → f ∉ D.stack) ∧ ∀ values c σ, T.terms c σ values →
    T.Silent (D.hold base.program f) c σ (inlineBody base depth f values) T.terms

theorem constantOr_runs {asTerm : Lower Term} (hx : T.Silent D c σ asTerm T.term) :
    T.Silent D c σ (constantOr base.settings e asTerm) T.term := by
  unfold constantOr
  split
  · rename_i t ht
    refine .result (T.closed c σ ?_)
    unfold constant? at ht
    split at ht
    · cases ht
    · split at ht <;> cases ht <;> rfl
  · exact hx

theorem inlineCall_runs (hh : T.Holds D G depth) (hf : G f) {args : Lower (List Term)}
    (ha : ∀ σ, T.Silent D c σ args T.terms) :
    T.Silent D c σ (inlineCall (base.placed h depth) e f args) T.terms := by
  obtain ⟨hfree, hbody⟩ := hh f hf
  refine .of_good fun hg => .get_bind ?_
  split
  · rename_i hin
    refine .throw_bind fun hs => (hfree hs ?_).elim
    simpa [hg.stack] using hin
  intro hg
  simp only [inBlock, Meets.bind_iff, Meets.get_iff, Meets.modify_iff, Meets.pure_iff]
  refine (ha _ (hg.steps [])).mono ?_
  rintro values ρ ⟨c₁, new, pre, hr, hg₁, hvalues, hpre, hperm⟩
  have hpush := T.quiet c₁ ρ ρ.versions (f :: ρ.stack) ρ.pre
  refine (hbody values c₁ { ρ with stack := f :: ρ.stack } (Leads.terms ⟨_, hpush⟩ hvalues)
    ⟨congrArg _ hg₁.stack, fun e' he' => ?_⟩).mono ?_
  · obtain ⟨hstored, hallows⟩ := hg₁.entries e' he'
    exact ⟨T.stored_mono hpush hstored, hallows.hold⟩
  rintro ts τ ⟨c₂, new', pre', hr', hg₂, hts, hpre', hperm'⟩
  have hback (υ : State) (versions : Versions) := T.quiet c₂ υ versions υ.stack.tail υ.pre
  have hrel := fun versions => T.trans (T.block ("INLINED " ++ base.program.exprText e)
    (T.trans hr (T.trans hpush hr'))) (hback _ versions)
  refine ⟨c₂, _, pre ++ pre', hrel _, ⟨congrArg List.tail hg₂.stack, fun e' he' => ?_⟩,
    Leads.terms ⟨_, hback _ _⟩ (stepless_terms _ _ _ _ hts), ?_, ?_⟩
  · -- only versions of state come from the held function
    rcases Bindings.mem_rollback he' with he' | ⟨he', hstate⟩
    · exact Leads.entries ⟨_, hrel _⟩ hg.entries e' he'
    · obtain ⟨hstored, hallows⟩ := hg₂.entries e' he'
      refine ⟨T.stored_mono (hback _ _) (T.stored_steps _ hstored), ?_⟩
      obtain ⟨v | _, w⟩ := e'
      · exact hallows.resolve_right (by simp [show base.program.isState v = true from hstate])
      · cases hstate
  · rw [hpre', hpre, List.append_assoc]
  · simpa using hperm.append hperm'

/-- A call in public code. -/
theorem call_runs {args : List Solidity.Expr} (hf : T.callable f)
    (hargs : args.length = (base.program.function f).params.length) :
    T.Runs D c σ (args.flatMap R.expr) (do
      noteCall f
      if (base.program.function f).facts.isVerified then
        let site := (← get).calls.length
        callCircuit base.program base.settings f
        return .call (calleeName base.program base.settings f) args (some site)
      else return .call (calleeName base.program base.settings f) args none) R.expr
      fun _ _ _ => True := by
  refine fun hg => Meets.bind_iff.2 ?_
  split
  · rename_i hv
    have hr := T.call c σ hf hv
    exact ⟨c, _, [], hr, hg.of_rel hr ⟨rfl, rfl⟩, trivial, by simp, by simpa [hargs] using List.perm_append_comm⟩
  · rename_i hv
    have hr := T.note c σ hf (by simpa using hv)
    exact ⟨c, _, [], hr, hg.of_rel hr ⟨rfl, rfl⟩, trivial, by simp, by simpa [hargs] using List.perm_append_comm⟩

/-- What decides about lazy operands or branches is made known inside, and a condition in the code has
its value. -/
theorem inputExpr_runs (hp : Sited base.program h) (he : Decides base e)
    (hx : T.Emits D c σ (publicExpr (base.placed h depth) e) R.expr) :
    T.Silent D c σ (inputExpr (base.placed h depth) e (publicExpr (base.placed h depth) e)
      (circuitExpr (base.placed h depth) e)) fun c τ guard => ∃ cond, T.test c τ cond guard ∧
        (if e.type.type.isLiteral then publicExpr (base.placed h depth) e
          else pure ((base.placed h depth).member guard)) = pure cond := by
  unfold inputExpr
  split
  · rename_i hlit
    obtain ⟨cond, t, hforms⟩ := he.forms hlit
    rw [compute, hforms.inside, pure_bind]
    exact (newTemporary_runs _ (T.closed c σ hforms.closed)).weaken fun _ _ _ hw =>
      ⟨cond, hw.2 e cond hforms, hforms.outside h depth⟩
  · exact (inputLocation_runs hp he.moved hx).weaken fun _ _ _ hw => ⟨_, hw.2 he.isPublic, rfl⟩

theorem condition_runs {β : Type} {k : Wire → Solidity.Expr → Lower β} {held : β → List R.Item}
    {S : T.Context → State → β → Prop} (hp : Sited base.program h)
    (he : Decides base e) (hx : T.Emits D c σ (publicExpr (base.placed h depth) e) R.expr)
    (hk : ∀ guard cond c' ρ, T.Leads c σ c' ρ → T.test c' ρ cond guard →
      T.Runs D c' ρ [] (k guard cond) held S) :
    T.Runs D c σ [] (do
      let guard ← inputExpr (base.placed h depth) e (publicExpr (base.placed h depth) e)
        (circuitExpr (base.placed h depth) e)
      let cond ← if e.type.type.isLiteral then publicExpr (base.placed h depth) e
        else pure ((base.placed h depth).member guard)
      k guard cond) held S := by
  refine (inputExpr_runs hp he hx).andThen fun guard c' ρ hl hguard => ?_
  obtain ⟨cond, ht, hcond⟩ := hguard
  have hnext := hk guard cond c' ρ hl ht
  split at hcond <;> rename_i hlit
  · simpa only [if_pos hlit, hcond, pure_bind] using hnext
  · simpa only [if_neg hlit, hcond, pure_bind] using hnext

/-- A lazy operand, with what prepares it under its condition, before the other operands. -/
theorem lazy_runs {β : Type} {guard : Wire} {cond : Solidity.Expr} {act : Lower Solidity.Expr}
    {k : Solidity.Expr → Lower β} {held : β → List R.Item} {S : T.Context → State → β → Prop}
    (ht : T.test c σ cond guard) (hx : ∀ σ, T.Emits D c σ act R.expr)
    (hk : ∀ value ρ, T.Leads c σ c ρ →
      T.Runs D c ρ ((R.expr value).map (R.under cond holds)) (k value) held S) :
    T.Runs D c σ [] (do
      let r ← takePre (guarded guard holds act)
      if !r.2.isEmpty then addPre (.cond (lazyCondition cond holds) r.2 none)
      k r.1) held S := by
  intro hg
  simp only [takePre, Meets.bind_iff, Meets.get_iff, Meets.modify_iff, Meets.pure_iff]
  have hcleared := T.quiet c σ σ.versions σ.stack []
  refine (guarded_runs (T.test_mono hcleared ht) (hg.pre c []) (hx _)).mono ?_
  rintro value ρ ⟨new, pre, hr, hg', hpre, hperm⟩
  obtain rfl : pre = ρ.pre := by rw [hpre, List.nil_append]
  have hback := fun pre => T.trans hcleared (T.trans hr (T.quiet c ρ ρ.versions ρ.stack pre))
  have hunder : ((R.code ρ.pre).map (R.under cond holds) ++
      (R.expr value).map (R.under cond holds)).Perm (new.map (R.under cond holds)) := by
    rw [← List.map_append]
    exact hperm.map _
  -- what the operand adds before the statement, and the items that this accounts for
  have hnext : ∀ added us, (R.code added).Perm (us ++ (R.code ρ.pre).map (R.under cond holds)) →
      T.rel c { ρ with pre := σ.pre ++ added } c { ρ with pre := σ.pre ++ added } us →
      Meets D.strict (k value) { ρ with pre := σ.pre ++ added } fun b τ => ∃ c' new pre,
        T.rel c σ c' τ new ∧ T.Good D τ ∧ S c' τ b ∧ τ.pre = σ.pre ++ pre ∧
        (R.code pre ++ held b).Perm ([] ++ new) := by
    intro added us hadded hrel
    have hlead := T.trans (hback (σ.pre ++ added)) hrel
    refine (hk value _ ⟨_, hlead⟩ (hg'.pre c _)).mono ?_
    rintro b τ ⟨c', new', pre, hr', hg'', hq, hpre, hperm'⟩
    refine ⟨c', _, added ++ pre, T.trans hlead hr', hg'', hq, ?_, ?_⟩
    · rw [hpre, List.append_assoc]
    simp only [List.append_nil, List.nil_append]
    rw [Reading.code, List.flatMap_append, List.append_assoc]
    calc R.code added ++ (R.code pre ++ held b)
      _ ~ (us ++ (R.code ρ.pre).map (R.under cond holds)) ++
            ((R.expr value).map (R.under cond holds) ++ new') := hadded.append hperm'
      _ = us ++ ((R.code ρ.pre).map (R.under cond holds) ++
            (R.expr value).map (R.under cond holds)) ++ new' := by simp only [List.append_assoc]
      _ ~ us ++ new.map (R.under cond holds) ++ new' := (hunder.append_left us).append_right new'
      _ ~ new.map (R.under cond holds) ++ us ++ new' := List.perm_append_comm.append_right new'
  split
  · refine Meets.bind_iff.2 (hnext _ (R.expr cond) ?_ (T.reread (T.test_mono (hback _) ht)))
    rw [Reading.code, List.flatMap_singleton, R.stmt_cond_lazy]
  · rename_i hempty
    have hnil : ρ.pre = [] := by simpa using hempty
    simpa using hnext [] [] (by simp [hnil]) (T.refl _ _)

/-- What is computed inside is published. -/
theorem computed_runs (hp : Sited base.program h) {o : Owner}
    (he : Splits base.program e ∨ e.type.type.toAbstract.fillsSlot = true)
    (hx : T.Silent D c { σ with steps := [] } (circuitExpr (base.placed h depth) e) T.term) :
    T.Emits D c σ (outputExpr (base.placed h depth) e o (compute e (circuitExpr (base.placed h depth) e)))
      R.expr := by
  refine outputExpr_runs hp (he.symm.imp_right fun hs σ w τ hw => ?_) (compute_runs hx)
  obtain ⟨_, _, ht, -⟩ := Yields.bind_iff.1 hw
  exact circuitExpr_of_splits hs _ _ _ ht

theorem publicExprs_length {es : List Expr} {es' : List Solidity.Expr}
    (h : Yields (publicExprs env es) σ es' τ) : es'.length = es.length := by
  induction es generalizing σ τ es' with
  | nil =>
    obtain ⟨rfl, -⟩ := Yields.pure_iff.1 h
    rfl
  | cons e es ih =>
    obtain ⟨e', _, -, h⟩ := Yields.bind_iff.1 h
    obtain ⟨es₁, _, hes, h⟩ := Yields.bind_iff.1 h
    obtain ⟨rfl, -⟩ := Yields.pure_iff.1 h
    rw [List.length_cons, ih hes, List.length_cons]

mutual

theorem publicExpr_runs (hh : T.Holds D G depth) (hp : Sited base.program h)
    {c : T.Context} {σ : State} : ∀ (e : Expr), T.Traceable G false e →
    T.Emits D c σ (publicExpr (base.placed h depth) e) R.expr
  | .bool _ _, _ | .number _ _, _ | .me _, _ | .ident _ _, _ => .gives (by simp)
  | .index _ a idx, he => by
    refine (publicExpr_runs hh hp a (he.part (.head _))).next fun a' _ _ => ?_
    exact (publicExpr_runs hh hp idx (he.part (.tail _ (.head _)))).next fun idx' _ _ =>
      .gives (by simp)
  | .tuple _ es, he => by
    exact (publicExprs_runs hh hp es fun x hx => he.part hx).next fun es' _ _ => .gives (by simp)
  | .reclassify _ e o _, he => by
    have hterm := he.part (x := e) (.head _)
    rw [publicExpr, if_pos (by rw [he.here.entered _ _ _ _ rfl, Bool.true_or])]
    exact computed_runs hp hterm.here.slot (circuitExpr_runs hh hp e hterm)
  | .cast i t e implicit, he => by
    have hpart := he.part (x := e) (.head _)
    rw [publicExpr]
    split
    · rename_i hi
      rw [partsWithin, hi, Bool.or_true] at hpart
      have hterm : T.Silent D c { σ with steps := [] } (circuitExpr (base.placed h depth)
          (.cast i t e implicit)) T.term := by
        refine constantOr_runs ?_
        exact (circuitExpr_runs hh hp e hpart).andThen fun _ _ _ _ ht => .result (T.cast t ht)
      have hruns := computed_runs (o := (Expr.cast i t e implicit).type.owner) hp he.here.slot hterm
      rwa [circuitExpr] at hruns
    · rename_i hi
      rw [partsWithin, Bool.false_or, (Bool.not_eq_true _).mp hi] at hpart
      refine (publicExpr_runs hh hp e hpart).next fun e' _ _ => .gives ?_
      split <;> simp
  | .builtin i op args b, he => by
    have hparts : ∀ a ∈ args, T.Traceable G (partsWithin false (.builtin i op args b)) a :=
      fun a ha => he.part ha
    rw [publicExpr.eq_def]
    dsimp only
    split
    · rename_i hi
      rw [partsWithin, hi, Bool.or_true] at hparts
      have hterm : T.Silent D c { σ with steps := [] } (circuitExpr (base.placed h depth)
          (.builtin i op args b)) T.term := by
        refine constantOr_runs ?_
        exact (circuitExprs_runs hh hp args hparts).andThen fun _ _ _ _ hts => .result (T.op op hts)
      have hruns := computed_runs (o := (Expr.builtin i op args b).type.owner) hp he.here.slot hterm
      rwa [circuitExpr] at hruns
    rename_i hi
    have hi : i.inCircuit = false := by simpa using hi
    rw [partsWithin, hi, Bool.or_false] at hparts
    split
    · rename_i hlazy
      rw [Bool.and_eq_true] at hlazy
      match args with
      | [] => exact .gives (by simp)
      | first :: rest =>
        have hfirst := hparts first (by simp)
        refine condition_runs hp (he.here.head _ _ _ _ _ rfl hlazy.1 rfl hi)
          (publicExpr_runs hh hp first hfirst) fun guard cond c' ρ _ ht => .of_rel (T.reread ht) ?_
        refine (lazyExprs_runs hh hp op guard cond 1 rest ht
          fun a ha => hparts a (by simp [ha])).next fun rest' _ _ => .gives ?_
        rw [R.expr_lazy _ _ _ hlazy.1, List.nil_append]
    · rename_i hlazy
      match args with
      | [] => exact .gives (by simp)
      | first :: rest =>
        rw [publicExprs]
        simp only [bind_assoc, pure_bind]
        refine (publicExpr_runs hh hp first (hparts first (by simp))).next fun first' _ _ => ?_
        refine (publicExprs_runs hh hp rest fun a ha => hparts a (by simp [ha])).bind
          fun rest' _ _ hrest _ _ => .gives ?_
        rw [R.expr_op]
        · simp
        -- nothing of the circuit stands under the test of the operator
        intro hop
        have hopen : ∀ a ∈ rest, OpenExpr base.program a := by
          intro a ha
          have hfree : ¬ rest.any (touchesCircuit base.program) = true := by
            simpa [hop] using hlazy
          rw [List.any_eq_true, not_exists] at hfree
          exact touchesCircuit_eq_false.1 (by simpa using fun ht => hfree a ⟨ha, ht⟩)
        have hplain : Untouched True _ (publicExprs (base.placed h depth) rest) :=
          publicExprs_untouched _ hopen
        exact (hplain.yields hrest).1
  | .call _ f args, he => by
    obtain ⟨hf, hlen⟩ := he.here.called rfl _ _ _ rfl
    exact (publicExprs_runs hh hp args fun x hx => he.part hx).bind fun args' _ _ hargs _ _ =>
      call_runs hf ((publicExprs_length hargs).trans hlen)

theorem publicExprs_runs (hh : T.Holds D G depth) (hp : Sited base.program h)
    {c : T.Context} {σ : State} : ∀ (es : List Expr),
    (∀ e ∈ es, T.Traceable G false e) →
    T.Emits D c σ (publicExprs (base.placed h depth) es) (List.flatMap R.expr)
  | [], _ => .gives (by simp)
  | e :: es, hes => by
    refine (publicExpr_runs hh hp e (hes e (by simp))).next fun e' _ _ => ?_
    exact (publicExprs_runs hh hp es fun x hx => hes x (by simp [hx])).next fun es' _ _ =>
      .gives (by simp)

theorem lazyExprs_runs (hh : T.Holds D G depth) (hp : Sited base.program h)
    (op : Operator) (guard : Wire) (cond : Solidity.Expr) {c : T.Context} {σ : State} :
    ∀ (position : Nat) (es : List Expr), T.test c σ cond guard →
    (∀ e ∈ es, T.Traceable G false e) →
    T.Emits D c σ (lazyExprs (base.placed h depth) op guard cond position es)
      (Solidity.lazyItems R.expr R.under op cond position)
  | _, [], _, _ => .gives (.refl _)
  | position, e :: es, ht, hes => by
    refine lazy_runs (k := fun value => do
      let rest ← lazyExprs (base.placed h depth) op guard cond (position + 1) es
      return value :: rest) ht (fun _ => publicExpr_runs hh hp e (hes e (by simp)))
      fun value ρ hl => ?_
    exact (lazyExprs_runs hh hp op guard cond (position + 1) es (hl.test ht)
      fun x hx => hes x (by simp [hx])).next fun rest' _ _ => .gives (.refl _)

theorem circuitExpr_runs (hh : T.Holds D G depth) (hp : Sited base.program h)
    {c : T.Context} {σ : State} : ∀ (e : Expr), T.Traceable G true e →
    T.Silent D c σ (circuitExpr (base.placed h depth) e) T.term
  | .bool _ _, _ | .number _ _, _ => constantOr_runs (.result (T.closed _ _ rfl))
  | .me _, he => constantOr_runs ((inputLocation_runs hp (he.here.moved rfl rfl) (.gives (by
      simp))).andThen fun _ _ _ _ hw => .result hw.1)
  | .ident _ v, he => by
    refine constantOr_runs (.of_good fun hg => .get_bind ?_)
    split
    · rename_i w hw
      exact .result (T.of_stored _ (hg.entries _ (Bindings.mem_of_get? hw)).1)
    · exact (inputLocation_runs hp (he.here.moved rfl rfl) (.gives (by simp))).andThen
        fun _ _ _ _ hw => .result hw.1
  | .index _ a idx, he => by
    refine constantOr_runs ((inputLocation_runs hp (he.here.moved rfl rfl) ?_).andThen
      fun _ _ _ _ hw => .result hw.1)
    refine (publicExpr_runs hh hp a (he.part (.head _))).next fun a' _ _ => ?_
    exact (publicExpr_runs hh hp idx (he.part (.tail _ (.head _)))).next fun idx' _ _ =>
      .gives (by simp)
  | .reclassify _ e _ _, he => by
    have hterm := he.part (x := e) (.head _)
    rw [circuitExpr, if_pos (he.here.entered _ _ _ _ rfl)]
    exact constantOr_runs (circuitExpr_runs hh hp e hterm)
  | .cast _ t e _, he => constantOr_runs ((circuitExpr_runs hh hp e (he.part (.head _))).andThen
      fun _ _ _ _ ht => .result (T.cast t ht))
  | .builtin _ op args _, he => constantOr_runs ((circuitExprs_runs hh hp args fun a ha =>
      he.part ha).andThen fun _ _ _ _ hts => .result (T.op op hts))
  | .call _ f args, he => by
    refine constantOr_runs ((inlineCall_runs hh (he.here.held rfl _ rfl) fun _ =>
      circuitExprs_runs hh hp args fun a ha => he.part ha).andThen fun results _ _ _ hts => ?_)
    split
    · exact .result (hts _ (by simp))
    · exact .throw
  | .tuple _ _, _ => constantOr_runs .throw

theorem circuitExprs_runs (hh : T.Holds D G depth) (hp : Sited base.program h)
    {c : T.Context} {σ : State} : ∀ (es : List Expr),
    (∀ e ∈ es, T.Traceable G true e) →
    T.Silent D c σ (circuitExprs (base.placed h depth) es) T.terms
  | [], _ => .result nofun
  | e :: es, hes => by
    refine (circuitExpr_runs hh hp e (hes e (by simp))).andThen fun t _ _ _ ht => ?_
    exact (circuitExprs_runs hh hp es fun x hx => hes x (by simp [hx])).andThen
      fun ts _ _ hl hts => .result (List.forall_mem_cons.2 ⟨hl.term ht, hts⟩)

end

/-! ## Statements inside -/

section Inside

variable {guard : Wire} {first second : Versions} (hp : Sited base.program h)

include hp

theorem versionOr_runs (v : VarId) {o : Option Wire} (ho : ∀ w ∈ o, T.stored σ w) :
    T.Silent D c σ (versionOr (base.placed h depth) v o) T.term := by
  cases o with
  | none => exact (inputVar_runs hp v).andThen fun _ _ _ _ hw => .result hw
  | some w => exact .result (T.of_stored c (ho w rfl))

variable (hguard : T.term c σ guard.term)

include hguard

theorem joinVersion_runs (k : Key) {yes no : Option Wire} (hy : ∀ w ∈ yes, T.stored σ w)
    (hn : ∀ w ∈ no, T.stored σ w) :
    T.Silent D c σ (joinVersion (base.placed h depth) guard k yes no) fun _ τ w => T.stored τ w := by
  unfold joinVersion
  split
  · refine (versionOr_runs hp _ hy).andThen fun yes' c' ρ hl hyes => ?_
    refine (versionOr_runs hp _ fun w hw => hl.stored (hn w hw)).andThen fun no' c'' τ hl' hno => ?_
    refine newVersion_runs _ _ (T.op .ite ?_)
    simp only [List.forall_mem_cons]
    exact ⟨hl'.term (hl.term hguard), hl'.term hyes, hno, nofun⟩
  · exact .throw

theorem joinAll_runs {ts : List (Key × Option Wire × Option Wire)}
    (hts : ∀ t ∈ ts, (∀ w, w ∈ t.2.1 ∨ w ∈ t.2.2 → T.stored σ w) ∧ D.Allows t.1) :
    T.Silent D c σ (Bindings.joinAll (joinVersion (base.placed h depth) guard) ts)
      fun _ τ js => T.Entries D τ js := by
  induction ts generalizing c σ with
  | nil => exact .result nofun
  | cons t ts ih =>
    obtain ⟨ht, hts⟩ := List.forall_mem_cons.1 hts
    have hjoin : T.Silent D c σ (Bindings.joinOne (joinVersion (base.placed h depth) guard) t.1 t.2.1
        t.2.2) fun _ τ w => T.stored τ w := by
      unfold Bindings.joinOne
      split
      · rename_i v hv
        exact .result (ht.1 v (.inl (Option.filter_eq_some_iff.1 hv).1))
      · exact joinVersion_runs hp hguard _ (fun w hw => ht.1 w (.inl hw)) fun w hw => ht.1 w (.inr hw)
    rw [Bindings.joinAll, List.mapM_cons, bind_assoc]
    refine hjoin.andThen fun j c' ρ hl hj => ?_
    rw [pure_bind]
    exact (ih (hl.term hguard) fun t ht => (hts t ht).imp_left fun h w hw => hl.stored (h w hw)).andThen
      fun js _ _ hl' hjs => .result (List.forall_mem_cons.2 ⟨⟨hl'.stored hj, ht.2⟩, hjs⟩)

theorem join_runs (hf : T.Entries D σ first.entries) (hs : T.Entries D σ second.entries) :
    T.Silent D c σ (first.join second (joinVersion (base.placed h depth) guard))
      fun _ τ b => T.Entries D τ b.entries := by
  rw [Bindings.join, Bindings.joinFirst_eq, Bindings.joinSecond_eq]
  refine (joinAll_runs hp hguard ?_).andThen fun shared c' ρ hl hshared => ?_
  · refine List.forall_mem_map.2 fun e he => ⟨fun w hw => ?_, (hf e he).2⟩
    rcases hw with hw | hw
    · exact Option.some.inj hw ▸ (hf e he).1
    · exact (hs _ (Bindings.mem_of_get? hw)).1
  refine (joinAll_runs hp (hl.term hguard) (List.forall_mem_map.2 fun e he => ?_)).andThen
    fun added _ _ hl' hadded => .result fun e he => ?_
  · have hentry := hl.entries hs e (List.mem_filter.1 he).1
    exact ⟨fun w hw => Option.some.inj (hw.resolve_left nofun) ▸ hentry.1, hentry.2⟩
  · rcases Bindings.mem_foldl_bind he with he | he
    · exact hadded e he
    · exact hl'.entries hshared e he

theorem branches_runs (hb : T.branches) {yes : Lower Unit} {no : Option (Lower Unit)}
    (hy : ∀ c σ, T.Does D c σ yes) (hn : ∀ x ∈ no, ∀ c σ, T.Does D c σ x) :
    T.Does D c σ (Lowering.branches (base.placed h depth) guard yes no) := by
  have hjoin : ∀ {c' : T.Context} {ρ : State}, T.Leads c σ c' ρ → ∀ {first : Versions},
      T.Entries D ρ first.entries → T.Does D c' ρ (do
        Lowering.comment ("join (" ++ guard.name ++ ")")
        let joined ← first.join (← get).versions (joinVersion (base.placed h depth) guard)
        modify fun s => { s with versions := joined }) := by
    intro c' ρ hl first hf
    refine (comment_runs _).andThen fun _ c'' ρ' hl' _ => .of_good fun hg => .get_bind ?_
    exact (join_runs hp (hl'.term (hl.term hguard)) (hl'.entries hf) hg.entries).andThen
      fun joined _ _ _ hjoined => .setVersions rfl fun _ => hjoined
  refine .of_good fun hg => .get_bind ((comment_runs _).andThen fun _ c₁ ρ₁ hl₁ _ => ?_)
  refine (branch_runs hb (hl₁.term hguard) (hy _ _)).andThen fun _ c₂ ρ₂ hl₂ _ =>
    .of_good fun hg₂ => .get_bind ?_
  refine Runs.andThen (.setVersions rfl fun _ => hl₂.entries (hl₁.entries hg.entries))
    fun _ c₃ ρ₃ hl₃ _ => ?_
  have hlead : T.Leads c σ c₃ ρ₃ := (hl₁.trans hl₂).trans hl₃
  cases no with
  | none => exact hjoin hlead (hl₃.entries hg₂.entries)
  | some no =>
    refine (comment_runs _).andThen fun _ c₄ ρ₄ hl₄ _ => ?_
    refine (branch_runs hb ((hlead.trans hl₄).term hguard) (hn no rfl _ _)).andThen
      fun _ c₅ ρ₅ hl₅ _ => ?_
    exact hjoin ((hlead.trans hl₄).trans hl₅) (hl₅.entries (hl₄.entries (hl₃.entries hg₂.entries)))

end Inside

theorem assignVars_runs {c : T.Context} {σ : State} : ∀ (ts : List Expr) (values : List Term),
    (∀ t ∈ ts, ∀ v ∈ t.targets, D.may v) → T.terms c σ values →
      T.Does D c σ (assignVars (base.placed h depth) ts values)
  | [], _, _, _ => .result trivial
  | _ :: _, [], _, _ => by
    rw [assignVars]
    · exact .result trivial
    · simp
    · simp
  | t :: ts, value :: values, hts, hv => by
    obtain ⟨hvalue, hvalues⟩ := List.forall_mem_cons.1 hv
    obtain ⟨ht, hrest⟩ := List.forall_mem_cons.1 hts
    cases t with
    | ident i v =>
      exact (assignVar_runs (ht v (.head _)) hvalue).andThen fun _ _ _ hl _ =>
        assignVars_runs ts values hrest (hl.terms hvalues)
    | _ => exact .throw

section Assignments

variable (hh : T.Holds D G depth) (hp : Sited base.program h)

include hh hp

theorem tupleValues_runs (he : T.Traceable G true e) :
    T.Silent D c σ (tupleValues (base.placed h depth) e) T.terms := by
  cases e with
  | tuple i es => exact circuitExprs_runs hh hp es fun x hx => he.part hx
  | call i f args =>
    exact inlineCall_runs hh (he.here.held rfl _ rfl) fun _ =>
      circuitExprs_runs hh hp args fun x hx => he.part hx
  | _ => exact .throw

theorem assign_runs {lhs rhs : Expr} (hl : ∀ v ∈ lhs.targets, D.may v) (he : T.Traceable G true rhs) :
    T.Does D c σ (assign (base.placed h depth) lhs rhs) := by
  cases lhs with
  | ident i v =>
    exact (circuitExpr_runs hh hp rhs he).andThen fun _ _ _ _ ht => assignVar_runs (hl v (.head _)) ht
  | tuple i targets =>
    refine (tupleValues_runs hh hp he).andThen fun values _ _ _ hvalues => ?_
    split
    · exact .throw_bind
    · refine assignVars_runs targets values (fun t ht v hv => hl v ?_) hvalues
      rw [Expr.targets, Expr.targetsList_eq_flatMap]
      exact List.mem_flatMap.2 ⟨t, ht, hv⟩
  | _ => exact .throw

theorem returnValues_runs (hD : D.stack ≠ []) (f : FunctionId) {c : T.Context} {σ : State} :
    ∀ (position : Nat) (es : List Expr), (∀ e ∈ es, T.Traceable G true e) →
    T.Does D c σ (returnValues (base.placed h depth) f position es)
  | _, [], _ => .result trivial
  | position, e :: es, hes => by
    refine .get_bind ?_
    split
    · exact .throw_bind
    · refine (circuitExpr_runs hh hp e (hes e (by simp))).andThen fun _ _ _ _ ht => ?_
      refine (newVersion_runs _ _ ht).andThen fun _ _ _ _ hw => ?_
      refine (bindVersion_runs (k := .ret f position) (.inl hD) hw).andThen fun _ _ _ _ _ => ?_
      exact returnValues_runs hD f (position + 1) es fun x hx => hes x (by simp [hx])

theorem returnExpr_runs (he : T.Traceable G true e) :
    T.Does D c σ (returnExpr (base.placed h depth) e) := by
  refine .of_good fun hg => .get_bind ?_
  split
  · exact .throw
  · rename_i hstack
    exact returnValues_runs hh hp (by simp [← hg.stack, hstack]) _ 0 _ he.returned

end Assignments

/-- A statement of a function is traceable inside, an `if` may run there, and what it declares or
stores into may have versions. -/
structure Within (T : Trace base R) (D : Discipline) (G : FunctionId → Prop) (f : FunctionId)
    (s : Stmt) : Prop where
  sited : Sited base.program ((Here.ofFunction base.program f).inStmt s)
  roots : ∀ r ∈ s.roots, T.Traceable G true r.2
  branches : ∀ i c yes no, s = .cond i c yes no → T.branches
  may : ∀ v, v ∈ s.declared? ∨ v ∈ s.targets → D.may v

/-- Everything in a statement of a function is traceable inside. -/
def Inside (T : Trace base R) (D : Discipline) (G : FunctionId → Prop) (f : FunctionId) (s : Stmt) :
    Prop := ∀ t ∈ s.walk, T.Within D G f t

theorem Inside.here (hs : T.Inside D G f s) : T.Within D G f s := hs s (Stmt.mem_walk_self s)

theorem Inside.root (hs : T.Inside D G f s) {u : Use} (he : (u, e) ∈ s.roots) :
    T.Traceable G true e := hs.here.roots (u, e) he

theorem Inside.child {t : Stmt} (hs : T.Inside D G h.function s) (ht : t ∈ s.children) :
    T.Inside D G (h.inStmt s).function t :=
  fun x hx => hs x (Stmt.mem_walk_iff.2 (.inr ⟨t, ht, hx⟩))

mutual

theorem circuitStmt_runs (hh : T.Holds D G depth) {h : Here} {c : T.Context} {σ : State} :
    ∀ (s : Stmt), T.Inside D G h.function s → T.Does D c σ (circuitStmt (base.placed h depth) s)
  | .block i body, hs => by
    refine (circuitStmts_runs hh body fun t ht => hs.child ht).andThen fun _ c' ρ _ _ => ?_
    exact .setVersions rfl fun hg e he => hg.entries e (List.mem_filter.1 he).1
  | .cond i cond yes no, hs => by
    have hp : Sited base.program (h.inStmt (.cond i cond yes no)) := hs.here.sited
    refine inBlock_runs stepless_true ?_
    refine (compute_runs (circuitExpr_runs hh hp cond (hs.root (.head _)))).andThen
      fun guard _ _ _ hw => ?_
    refine branches_runs hp hw (hs.here.branches i cond yes no rfl)
      (fun _ _ => circuitStmt_runs hh yes (hs.child (.head _))) ?_
    exact circuitStmtOption_runs hh no fun t ht =>
      hs.child (List.mem_cons_of_mem _ (Option.mem_toList.2 ht))
  | .decl i v (some e), hs => (circuitExpr_runs hh hs.here.sited e (hs.root (.head _))).andThen
      fun _ _ _ _ ht => assignVar_runs (hs.here.may v (.inl rfl)) ht
  | .decl i v none, hs => by
    refine assignVar_runs (hs.here.may v (.inl rfl)) (T.closed _ _ ?_)
    unfold zero
    split <;> rfl
  | .assign i lhs rhs, hs => assign_runs hh hs.here.sited (fun v hv => hs.here.may v (.inr hv))
      (hs.root (.tail _ (.head _)))
  | .expr i e, hs => (circuitExpr_runs hh hs.here.sited e (hs.root (.head _))).discard
  | .ret i (some e), hs => returnExpr_runs hh hs.here.sited (hs.root (.head _))
  | .ret _ none, _ => .result trivial
  | .loop _ _ _, _ | .doLoop _ _ _, _ | .forLoop _ _ _ _ _, _ | .require _ _, _ | .leave _, _
  | .next _, _ => .throw

theorem circuitStmts_runs (hh : T.Holds D G depth) {h : Here} {c : T.Context} {σ : State} :
    ∀ (ss : List Stmt), (∀ s ∈ ss, T.Inside D G h.function s) →
    T.Does D c σ (circuitStmts (base.placed h depth) ss)
  | [], _ => .result trivial
  | s :: ss, hs => (circuitStmt_runs hh s (hs s (by simp))).andThen fun _ _ _ _ _ =>
      circuitStmts_runs hh ss fun t ht => hs t (by simp [ht])

theorem circuitStmtOption_runs (hh : T.Holds D G depth) {h : Here} : ∀ (o : Option Stmt),
    (∀ s ∈ o, T.Inside D G h.function s) → ∀ x ∈ circuitStmtOption (base.placed h depth) o,
      ∀ c σ, T.Does D c σ x
  | none, _ => by
    rintro _ ⟨⟩
  | some s, hs => by
    rintro _ ⟨⟩ c σ
    exact circuitStmt_runs hh s (hs s rfl)

end

theorem bindParams_runs {c : T.Context} {σ : State} : ∀ (vs : List VarId) (values : List Term),
    (∀ v ∈ vs, D.may v) → T.terms c σ values →
      T.Does D c σ (bindParams (base.placed h depth) vs values)
  | [], _, _, _ | _ :: _, [], _, _ => .result trivial
  | v :: vs, _ :: values, hvs, hv =>
    (assignVar_runs (hvs v (.head _)) (List.forall_mem_cons.1 hv).1).andThen fun _ _ _ hl _ =>
      bindParams_runs vs values (fun v hv => hvs v (.tail _ hv)) (hl.terms (List.forall_mem_cons.1 hv).2)

theorem returnedValues_runs (f : FunctionId) (is : List Nat) :
    T.Silent D c σ (is.mapM (returnedValue (base.placed h depth) f)) T.terms := by
  induction is generalizing c σ with
  | nil => exact .result nofun
  | cons i is ih =>
    rw [List.mapM_cons]
    have hvalue : T.Silent D c σ (returnedValue (base.placed h depth) f i) T.term := by
      refine .of_good fun hg => .get_bind ?_
      split
      · rename_i w hw
        exact .result (T.of_stored c (hg.entries _ (Bindings.mem_of_get? hw)).1)
      · exact .throw
    exact hvalue.andThen fun t _ _ _ ht => ih.andThen fun ts _ _ hl hts =>
      .result (List.forall_mem_cons.2 ⟨hl.term ht, hts⟩)

/-- The body of a function is held. -/
theorem inlineBody_runs (hh : T.Holds D G depth)
    (hparams : ∀ v ∈ (base.program.function f).params, D.may v)
    (hs : T.Inside D G f (base.program.function f).body) {values : List Term}
    (hvalues : T.terms c σ values) : T.Silent D c σ (inlineBody base (depth + 1) f values) T.terms := by
  refine (bindParams_runs _ values hparams hvalues).andThen fun _ _ _ _ _ => ?_
  exact (circuitStmt_runs hh _ hs).andThen fun _ _ _ _ _ => returnedValues_runs f _

/-! ## Statements -/

/-- The discipline of public statements: nothing is held, and nothing has a version. -/
def idle : Discipline := {}

/-- The discipline of a statement that runs inside as a whole. -/
def whole : Discipline := { may := fun _ => True }

theorem Good.entries_eq_nil (hg : T.Good idle σ) : σ.versions.entries = [] := by
  refine List.eq_nil_iff_forall_not_mem.2 fun e he => ?_
  have hallows := (hg.entries e he).2
  cases hk : e.1 <;> simp [hk, idle, Discipline.Allows] at hallows

theorem inputReads_runs (hp : Sited base.program h) (s : Stmt) {c : T.Context} {σ : State} :
    ∀ vs : List VarId, T.Does whole c σ (inputReads (base.placed h depth) s vs)
  | [] => .result trivial
  | v :: vs => by
    rw [inputReads]
    split
    · refine (inputVar_runs hp v).andThen fun _ _ _ _ hw => ?_
      exact (assignVar_runs trivial hw).andThen fun _ _ _ _ _ => inputReads_runs hp s vs
    · exact inputReads_runs hp s vs

theorem outputWrites_runs (hp : Sited base.program h) (s : Stmt) {c : T.Context} {σ : State} :
    ∀ vs : List VarId, T.Emits D c σ (outputWrites (base.placed h depth) s vs)
      (fun ws => ws.flatMap fun w => R.expr w.2)
  | [] => .gives (by simp)
  | v :: vs => by
    rw [outputWrites]
    split
    · exact outputWrites_runs hp s vs
    · refine .of_good fun hg => .get_bind ?_
      split
      · rename_i w hw
        have hstored := T.stored_steps [] (hg.entries _ (Bindings.mem_of_get? hw)).1
        refine (output_runs hp (.inl (hp.vars v).fillsSlot) (.result (T.of_stored c hstored))).next
          fun value _ _ => ?_
        exact (outputWrites_runs hp s vs).next fun rest _ _ => .gives (by simp)
      · exact .throw

/-- An `if` that runs inside leaves an assignment of its outputs. -/
theorem runInside_runs (hw : T.Holds whole G depth) (hs : T.Inside whole G h.function s) :
    T.Emits idle c σ (runInside (base.placed h depth) s) R.code := by
  refine .of_good fun hg => .get_bind ?_
  rw [if_neg (by simp [Bindings.isEmpty, hg.entries_eq_nil])]
  have hp : Sited base.program (h.inStmt s) := hs.here.sited
  have hread : ∀ σ, T.Emits whole c σ (do
      inputReads (base.placed (h.inStmt s) depth) s s.info.read
      circuitStmt (base.placed (h.inStmt s) depth) s
      outputWrites (base.placed (h.inStmt s) depth) s s.info.modified)
      (fun ws => ws.flatMap fun w => R.expr w.2) := by
    intro σ
    refine (inputReads_runs hp s _).andThen fun _ _ _ _ _ => ?_
    exact (circuitStmt_runs hw s (h := h.inStmt s) hs).andThen
      fun _ _ _ _ _ => outputWrites_runs hp s _
  have hg : T.Good whole σ := ⟨hg.stack, by rw [hg.entries_eq_nil]; nofun⟩
  refine fun _ => Meets.bind_iff.2 ((inBlock_runs stepless_true (hread _) hg).mono ?_)
  rintro written τ ⟨c', new, pre, hr, hg', -, hpre, hperm⟩
  refine ⟨c', new ++ [], pre, T.trans hr (T.quiet c' τ .empty τ.stack τ.pre), ⟨hg'.stack, nofun⟩,
    trivial, hpre, ?_⟩
  rw [List.append_nil]
  refine (List.Perm.append_left _ ?_).trans hperm
  split
  · simp
  · rw [Reading.code, List.flatMap_singleton, R.stmt_assign _ _ rfl]
    simp
  · rw [Reading.code, List.flatMap_singleton, R.stmt_assign _ _ rfl]
    have hnil : written.flatMap (fun _ => ([] : List R.Item)) = [] := by
      simp [List.flatMap_eq_nil_iff]
    simp [List.flatMap_map, hnil]

/-- A statement of a function that runs outside. -/
structure Open (T : Trace base R) (G : FunctionId → Prop) (f : FunctionId) (s : Stmt) : Prop where
  sited : Sited base.program ((Here.ofFunction base.program f).inStmt s)
  roots : ∀ r ∈ s.roots, T.Traceable G false r.2
  target : ∀ i lhs rhs, s = .assign i lhs rhs → Typing.IsTarget base.program lhs
  condition : ∀ i c yes no, s = .cond i c yes no → Decides base c ∧ ∀ t ∈ s.children,
    stmtTouchesCircuit base.program t = false → OpenStmt base.program t

/-- A statement in the body of a function. One that runs inside as a whole is traceable there. -/
inductive Outside (T : Trace base R) (G : FunctionId → Prop) (f : FunctionId) : Stmt → Prop
  | inside {s : Stmt} (hp : s.isPrivateIf = true) (hs : T.Inside whole G f s) : Outside T G f s
  | outside {s : Stmt} (hp : s.isPrivateIf = false) (here : T.Open G f s)
      (parts : ∀ t ∈ s.children, Outside T G f t) : Outside T G f s

namespace Outside

theorem toInside (hs : T.Outside G f s) (hp : s.isPrivateIf = true) : T.Inside whole G f s := by
  cases hs with
  | inside _ hs => exact hs
  | outside hp' => rw [hp] at hp'; cases hp'

theorem here (hs : T.Outside G f s) (hp : s.isPrivateIf = false) :
    T.Open G f s ∧ ∀ t ∈ s.children, T.Outside G f t := by
  cases hs with
  | inside hp' => rw [hp] at hp'; cases hp'
  | outside _ here parts => exact ⟨here, parts⟩

theorem sited (hs : T.Outside G h.function s) (hp : s.isPrivateIf = false) :
    Sited base.program (h.inStmt s) := (hs.here hp).1.sited

theorem root (hs : T.Outside G f s) (hp : s.isPrivateIf = false) {u : Use} (he : (u, e) ∈ s.roots) :
    T.Traceable G false e := (hs.here hp).1.roots (u, e) he

theorem child (hs : T.Outside G h.function s) (hp : s.isPrivateIf = false) {t : Stmt}
    (ht : t ∈ s.children) : T.Outside G (h.inStmt s).function t := (hs.here hp).2 t ht

end Outside

/-- Targets are not fields. -/
theorem publicExpr_isMember {p : Program} (he : Typing.IsTarget p e) {a : Solidity.Expr}
    (hx : Yields (publicExpr env e) σ a τ) : a.isMember = false := by
  cases he with
  | ident _ =>
    obtain ⟨rfl, -⟩ := Yields.pure_iff.1 hx
    rfl
  | index _ =>
    obtain ⟨_, _, -, hx⟩ := Yields.bind_iff.1 hx
    obtain ⟨_, _, -, hx⟩ := Yields.bind_iff.1 hx
    obtain ⟨rfl, -⟩ := Yields.pure_iff.1 hx
    rfl
  | tuple _ =>
    obtain ⟨_, _, -, hx⟩ := Yields.bind_iff.1 hx
    obtain ⟨rfl, -⟩ := Yields.pure_iff.1 hx
    rfl

theorem prepared_pre {st : Stmt} (h : Yields (prepared env st act) σ body τ) : τ.pre = σ.pre := by
  obtain ⟨r, hr, -⟩ := Yields.bind_pure_iff.1 h
  obtain ⟨_, -, -, rfl⟩ := takePre_iff.1 hr
  rfl

theorem lowerList_pre {ss : List Stmt} {isBody : Bool}
    (h : Yields (lowerList env isBody ss) σ body τ) : τ.pre = σ.pre := by
  induction ss generalizing σ body with
  | nil =>
    obtain ⟨-, rfl⟩ := Yields.pure_iff.1 h
    rfl
  | cons st ss ih =>
    obtain ⟨st', ρ, hst, h⟩ := Yields.bind_iff.1 h
    obtain ⟨ss', hss, -⟩ := Yields.bind_pure_iff.1 h
    rw [ih hss, prepared_pre hst]

/-- The body of a branch puts nothing before it. -/
theorem asBody_pre (hx : Yields (asBody env s (lower env false s)) σ body τ) : τ.pre = σ.pre := by
  unfold asBody at hx
  split at hx
  · rename_i hblock
    cases s with
    | block i ss => exact lowerList_pre hx
    | _ => cases hblock
  · exact prepared_pre hx

theorem functionBody_pre (h : Yields (functionBody env) σ body τ) : τ.pre = σ.pre := by
  unfold functionBody at h
  split at h
  · exact lowerList_pre h
  · exact asBody_pre h

theorem prepared_runs (hx : ∀ σ, T.Emits D c σ act R.code) :
    T.Emits D c σ (prepared (base.placed h depth) s act) R.code := by
  intro hg
  simp only [prepared, takePre, Meets.bind_iff, Meets.get_iff, Meets.modify_iff, Meets.pure_iff]
  refine (hx _ (hg.pre c [])).mono ?_
  rintro body τ ⟨c', new, pre, hr, hg', -, hpre, hperm⟩
  have hcleared := T.quiet c σ σ.versions σ.stack []
  have hback := T.quiet c' τ τ.versions τ.stack σ.pre
  refine ⟨c', new, [], ?_, hg'.pre c' σ.pre, trivial, by simp, ?_⟩
  · simpa using T.trans hcleared (T.trans hr hback)
  rw [List.nil_append] at hpre
  split
  · rename_i hempty
    rw [hpre, List.isEmpty_iff] at hempty
    simpa [hempty] using hperm
  · simpa [hpre, List.flatMap_append] using hperm

theorem inList_runs (hx : ∀ σ, T.Emits D c σ content R.code) :
    T.Emits D c σ (inList (base.placed h depth) s content) R.code := by
  refine prepared_runs fun σ => ?_
  split
  · exact (hx σ).next fun body _ _ => .gives (by simp)
  · exact hx σ

theorem asBody_runs (hx : ∀ σ, T.Emits D c σ content R.code) :
    T.Emits D c σ (asBody (base.placed h depth) s content) R.code := by
  unfold asBody
  split
  · exact hx σ
  · exact prepared_runs hx

/-- A branch between the marks of its guard. -/
theorem guardedBody_runs {e : Solidity.Expr} {w : Wire} (ht : T.test c σ e w)
    (hx : ∀ σ, T.Emits D c σ (lower (base.placed h depth) false s) R.code) :
    T.Emits D c σ (guarded w holds (asBody (base.placed h depth) s (lower (base.placed h depth) false s)))
      (fun body => (R.code body).map (R.under e holds)) := by
  refine fun hg => (guarded_runs ht hg (asBody_runs hx)).and_yields.mono ?_
  rintro body τ ⟨⟨new, pre, hr, hg', hpre, hperm⟩, hrun⟩
  have hnil : pre = [] := by
    obtain ⟨ρ, hbody, rfl⟩ := guarded_iff.1 hrun
    have hsame := asBody_pre hbody
    rw [hsame] at hpre
    simpa using hpre
  subst hnil
  exact ⟨c, _, [], hr, hg', trivial, hpre, by simpa using hperm.map _⟩

/-- The head of a `for` keeps all of what its initialization turns into. -/
theorem code_forLoop_init (init : List Solidity.Stmt) :
    R.code init.dropLast ++ init.getLast?.toList.flatMap R.stmt = R.code init := by
  rcases List.eq_nil_or_concat init with rfl | ⟨rest, last, rfl⟩
  · rfl
  · simp

theorem publicExprOption_runs (hh : T.Holds D G depth) (hp : Sited base.program h)
    (ho : ∀ e ∈ o, T.Traceable G false e) :
    T.Emits D c σ (publicExprOption (base.placed h depth) o) (fun o => o.toList.flatMap R.expr) := by
  cases o with
  | none => exact .gives (by simp)
  | some e => exact (publicExpr_runs hh hp e (ho e rfl)).next fun e' _ _ => .gives (by simp)

theorem returnTargets_isMember (s : Settings) (n : Nat) : (returnTargets s n).isMember = false := by
  unfold returnTargets
  split <;> rfl

theorem expr_returnTargets (s : Settings) (n : Nat) : R.expr (returnTargets s n) = [] := by
  unfold returnTargets
  split <;> simp [List.flatMap_eq_nil_iff]

theorem lowerReturn_runs (hh : T.Holds D G depth) (hp : Sited base.program h)
    {span : Span} {isLast : Bool} (ho : ∀ e ∈ o, T.Traceable G false e) :
    T.Emits D c σ (lowerReturn (base.placed h depth) span isLast o) R.code := by
  unfold lowerReturn
  dsimp only
  split
  · cases o with
    | none => exact .gives (by simp)
    | some e => exact (publicExpr_runs hh hp e (ho e rfl)).next fun e' _ _ => .gives (by simp)
  · split
    · exact .throw
    · cases o with
      | none => exact .gives (by simp)
      | some e =>
        refine (publicExpr_runs hh hp e (ho e rfl)).next fun e' _ _ => .gives ?_
        rw [Reading.code, List.flatMap_singleton, R.stmt_assign _ _ (returnTargets_isMember _ _),
          expr_returnTargets]

theorem lowerDecl_runs (hh : T.Holds D G depth) (hp : Sited base.program h)
    (v : VarId) (ho : ∀ e ∈ o, T.Traceable G false e) :
    T.Emits D c σ (lowerDecl (base.placed h depth) v o) R.code :=
  (publicExprOption_runs hh hp ho).next fun init _ _ => .gives (by simp)

mutual

theorem lower_runs (hh : T.Holds idle G depth) (hw : T.Holds whole G depth)
    {h : Here} {c : T.Context} {σ : State} : ∀ (s : Stmt) (isLast : Bool),
    T.Outside G h.function s →
    T.Emits idle c σ (lower (base.placed h depth) isLast s) R.code
  | .block i body, _, hs => lowerList_runs hh hw body false fun t ht => hs.child rfl ht
  | .cond i e yes no, _, hs => by
    rw [lower]
    split
    · rename_i hp
      exact runInside_runs hw (hs.toInside hp)
    rename_i hp
    have hp : (Stmt.cond i e yes no).isPrivateIf = false := by simpa [Stmt.isPrivateIf] using hp
    have hcond := hs.root hp (.head _)
    have hyes : yes ∈ (Stmt.cond i e yes no).children := by simp [Stmt.children]
    have hno : ∀ t ∈ no, t ∈ (Stmt.cond i e yes no).children := fun t ht => by
      simp [Stmt.children, Option.mem_def.1 ht]
    split
    · -- both branches leave the circuit alone, so nothing stands under the condition
      rename_i hfree
      rw [Bool.and_eq_true, Bool.not_eq_true', Bool.not_eq_true'] at hfree
      have hopen : ∀ t ∈ (Stmt.cond i e yes no).children, stmtTouchesCircuit base.program t = false →
          OpenIn True (base.placed (h.inStmt (.cond i e yes no)) depth) t := fun t ht hfree =>
        ⟨((hs.here hp).1.condition _ _ _ _ rfl).2 t ht hfree, fun _ => trivial⟩
      have hplain : Untouched True _ (asBody (base.placed (h.inStmt (.cond i e yes no)) depth) yes _) :=
        asBody_untouched (lower_untouched yes false (hopen yes hyes hfree.1) nofun)
      have hplain' := lowerElse_untouched no fun t ht =>
        hopen t (hno t ht) (by simpa [Option.mem_def.1 ht] using hfree.2)
      refine (publicExpr_runs hh (hs.sited hp) e hcond).next fun e' _ _ => ?_
      refine (asBody_runs fun _ => lower_runs hh hw yes false (hs.child hp hyes)).bind
        fun yes' _ _ hy _ _ => ?_
      refine (lowerElse_runs hh hw no fun t ht => hs.child hp (hno t ht)).bind
        fun no' _ _ hn _ _ => .gives ?_
      rw [Reading.code, List.flatMap_singleton,
        R.stmt_cond_plain _ _ _ (hplain.yields hy).1 (hplain'.yields hn).1]
      simp
    · refine condition_runs (hs.sited hp) ((hs.here hp).1.condition _ _ _ _ rfl).1
        (publicExpr_runs hh (hs.sited hp) e hcond)
        fun guard cond c' ρ _ ht => .of_rel (T.reread ht) ?_
      refine (guardedBody_runs ht fun _ =>
        lower_runs hh hw yes false (hs.child hp hyes)).bind fun yes' _ _ _ hl _ => ?_
      refine (guardedElse_runs hh hw no (hl.test ht) fun t ht => hs.child hp (hno t ht)).next
        fun no' _ _ => .gives ?_
      simp
  | .loop i e body, _, hs => by
    refine (publicExpr_runs hh (hs.sited rfl) e (hs.root rfl (.head _))).next
      fun e' _ _ => ?_
    refine (asBody_runs fun _ => lower_runs hh hw body false (hs.child rfl (.head _))).next
      fun body' _ _ => .gives (by simp)
  | .doLoop i body e, _, hs => by
    refine (asBody_runs fun _ =>
      lower_runs hh hw body false (hs.child rfl (.head _))).next fun body' _ _ => ?_
    refine (publicExpr_runs hh (hs.sited rfl) e (hs.root rfl (.head _))).next
      fun e' _ _ => .gives (by
        simpa using R.stmt_doLoop body' e')
  | .forLoop i init e update body, _, hs => by
    have hbody : ∀ (init' : Option (List Solidity.Stmt)) e' (update' : Option Solidity.Stmt)
        {c : T.Context} {σ : State}, T.Runs idle c σ
          ((init'.map R.code).getD [] ++
            e'.toList.flatMap R.expr ++
            update'.toList.flatMap R.stmt) (do
          let body ← asBody (base.placed (h.inStmt (.forLoop i init e update body)) depth) body
            (lower (base.placed (h.inStmt (.forLoop i init e update body)) depth) false body)
          let init := init'.getD []
          return init.dropLast ++ [Solidity.Stmt.forLoop init.getLast? e' update' body])
          R.code fun _ _ _ => True := by
      intro init' e' update' c σ
      refine (asBody_runs fun _ => lower_runs hh hw body false (hs.child rfl (by
        simp [Stmt.children]))).next fun body' _ _ => .gives ?_
      have hinit := @code_forLoop_init base R (init'.getD [])
      have hmap : (init'.map R.code).getD [] = R.code (init'.getD []) := by cases init' <;> rfl
      rw [hmap, ← hinit, Reading.code, List.flatMap_append, List.flatMap_singleton, R.stmt_forLoop]
      simp only [List.append_assoc, List.Perm.refl]
    refine (lowerOption_runs hh hw init fun t ht => hs.child rfl (by
      simp [Stmt.children, Option.mem_def.1 ht])).next fun init' _ _ => ?_
    refine (publicExprOption_runs hh (hs.sited rfl) fun x hx => hs.root rfl (u := .value) (by
      simpa [Stmt.roots] using hx)).next fun e' _ _ => ?_
    refine (lowerOption_runs hh hw update fun t ht => hs.child rfl (by
      simp [Stmt.children, Option.mem_def.1 ht])).next fun update' _ _ => ?_
    split
    · rw [pure_bind]
      simpa using hbody init' e' none
    · rw [pure_bind]
      simpa using hbody init' e' (some _)
    · exact .throw_bind
  | .decl i v init, _, hs =>
    lowerDecl_runs hh (hs.sited rfl) v fun e he => hs.root rfl (u := .value) (by
      simpa [Stmt.roots] using he)
  | .assign i lhs rhs, _, hs => by
    refine (publicExpr_runs hh (hs.sited rfl) lhs (hs.root rfl (.head _))).bind
      fun lhs' _ _ hl _ _ => ?_
    refine (publicExpr_runs hh (hs.sited rfl) rhs (hs.root rfl (.tail _ (.head _)))).next
      fun rhs' _ _ => .gives ?_
    rw [Reading.code, List.flatMap_singleton,
      R.stmt_assign _ _ (publicExpr_isMember ((hs.here rfl).1.target _ _ _ rfl) hl)]
    simp
  | .expr i e, _, hs | .require i e, _, hs =>
    (publicExpr_runs hh (hs.sited rfl) e (hs.root rfl (.head _))).next
      fun e' _ _ => .gives (by simp)
  | .ret i e, _, hs =>
    lowerReturn_runs hh (hs.sited rfl) fun e he => hs.root rfl (u := .value) (by
      simpa [Stmt.roots] using he)
  | .leave _, _, _ | .next _, _, _ => .gives (by simp)

theorem lowerList_runs (hh : T.Holds idle G depth) (hw : T.Holds whole G depth)
    {h : Here} {c : T.Context} {σ : State} : ∀ (ss : List Stmt) (isBody : Bool),
    (∀ s ∈ ss, T.Outside G h.function s) →
    T.Emits idle c σ (lowerList (base.placed h depth) isBody ss) R.code
  | [], _, _ => .gives (by simp)
  | s :: ss, isBody, hs => by
    refine (inList_runs fun _ => lower_runs hh hw s _ (hs s (by simp))).next
      fun s' _ _ => ?_
    exact (lowerList_runs hh hw ss isBody fun t ht => hs t (by simp [ht])).next
      fun ss' _ _ => .gives (by simp)

theorem lowerElse_runs (hh : T.Holds idle G depth) (hw : T.Holds whole G depth)
    {h : Here} {c : T.Context} {σ : State} : ∀ (o : Option Stmt),
    (∀ s ∈ o, T.Outside G h.function s) →
    T.Emits idle c σ (lowerElse (base.placed h depth) none o) (fun no => (no.map R.code).getD [])
  | none, _ => .gives (by simp)
  | some s, hs => (asBody_runs fun _ => lower_runs hh hw s false (hs s rfl)).next
      fun no _ _ => .gives (by simp)

theorem guardedElse_runs (hh : T.Holds idle G depth) (hw : T.Holds whole G depth)
    {h : Here} {c : T.Context} {σ : State} {e : Solidity.Expr} {w : Wire} :
    ∀ (o : Option Stmt), T.test c σ e w →
    (∀ s ∈ o, T.Outside G h.function s) →
    T.Emits idle c σ (lowerElse (base.placed h depth) (some w) o) (fun no =>
      ((no.map R.code).getD []).map (R.under e false))
  | none, _, _ => .gives (by simp)
  | some s, ht, hs =>
    (guardedBody_runs ht fun _ => lower_runs hh hw s false (hs s rfl)).next
      fun no _ _ => .gives (by simp)

theorem lowerOption_runs (hh : T.Holds idle G depth) (hw : T.Holds whole G depth)
    {h : Here} {c : T.Context} {σ : State} : ∀ (o : Option Stmt),
    (∀ s ∈ o, T.Outside G h.function s) →
    T.Emits idle c σ (lowerOption (base.placed h depth) o) (fun o =>
      (o.map R.code).getD [])
  | none, _ => .gives (by simp)
  | some s, hs => (inList_runs fun _ => lower_runs hh hw s false (hs s rfl)).next
      fun s' _ _ => .gives (by simp)

end

end Trace

end Shroud.Lowering
