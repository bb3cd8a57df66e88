import Shroud.Proofs.Semantics.Exec

/-! # What a run consists of

One statement for every construct: it runs from one store to another with a result if and only if
its parts do. Everything that is proved about runs starts from here and does not look at the
interpreter again.
-/

namespace Shroud

variable {p : Program} {α β : Type} {σ τ : Store p}

namespace Runs

variable {a : α} {x : Run p α}

@[simp] theorem bind_iff {f : α → Run p β} {b : β} :
    Runs (x >>= f) σ b τ ↔ ∃ a ρ, Runs x σ a ρ ∧ Runs (f a) ρ b τ := by
  simp [Runs, StateT.run_bind, Option.bind_eq_some_iff]

@[simp] theorem pure_iff {b : α} : Runs (pure a : Run p α) σ b τ ↔ b = a ∧ τ = σ := by
  simp [Runs, eq_comm]

theorem bind_pure_iff {f : α → β} {b : β} :
    Runs (x >>= fun a => pure (f a)) σ b τ ↔ ∃ a, Runs x σ a τ ∧ b = f a := by
  simp only [bind_iff, pure_iff]
  constructor
  · rintro ⟨a, ρ, h, rfl, rfl⟩
    exact ⟨a, h, rfl⟩
  · rintro ⟨a, h, rfl⟩
    exact ⟨a, τ, h, rfl, rfl⟩

@[simp] theorem lift_iff {o : Option α} : Runs (liftM o : Run p α) σ a τ ↔ o = some a ∧ τ = σ := by
  cases o <;> simp [Runs, eq_comm]

@[simp] theorem get_iff {ρ : Store p} : Runs (get : Run p (Store p)) σ ρ τ ↔ ρ = σ ∧ τ = σ := by
  simp [Runs, eq_comm]

@[simp] theorem modify_iff {f : Store p → Store p} {u : Unit} :
    Runs (modify f : Run p Unit) σ u τ ↔ τ = f σ := by
  simp [Runs, eq_comm]

@[simp] theorem failure_iff : Runs (failure : Run p α) σ a τ ↔ False :=
  iff_false_intro fun h => by cases h

@[simp] theorem ite_iff {c : Prop} [Decidable c] {y : Run p α} :
    Runs (if c then x else y) σ a τ ↔ if c then Runs x σ a τ else Runs y σ a τ := by
  split_ifs <;> rfl

end Runs

namespace Machine

variable {m : Machine p} {a : Value} {i : Expr.Info} {es : List Expr} {b : Bool} {e : Expr}
  {args : List Expr} {as : List Value} {q : Location} {body : Stmt} {f : FunctionId} {op : Operator}
  {c : Expr} {v : VarId} {update : Option Stmt} {qs : List Location} {s : Stmt} {head : Run p Bool}
  {ss : List Stmt} {base : Expr}

-- The interpreter is opened here, and nowhere after this module.
attribute [local simp] eval evalEach locate locateList exec execList execOption

/-! ## Expressions -/

@[simp] theorem runs_bool : Runs (m.eval (.bool i b)) σ a τ ↔ a = .bool b ∧ τ = σ := by
  simp [eval]

@[simp] theorem runs_number {n : Int} :
    Runs (m.eval (.number i n)) σ a τ ↔ a = .number (.numberLit n) n ∧ τ = σ := by
  simp [eval]

@[simp] theorem runs_me : Runs (m.eval (.me i)) σ a τ ↔ a = m.me ∧ τ = σ := by
  simp [eval]

@[simp] theorem runs_ident : Runs (m.eval (.ident i v)) σ a τ ↔ σ.get v = some a ∧ τ = σ := by
  simp only [eval, Runs.bind_iff, Runs.get_iff, Runs.lift_iff]
  constructor
  · rintro ⟨_, _, ⟨rfl, rfl⟩, h, rfl⟩
    exact ⟨h, rfl⟩
  · rintro ⟨h, rfl⟩
    exact ⟨_, _, ⟨rfl, rfl⟩, h, rfl⟩

theorem evalEach_eq_map (es : List Expr) : m.evalEach es = es.map m.eval := by
  induction es with
  | nil => rfl
  | cons e es ih => rw [evalEach, ih, List.map_cons]

/-- A pair of parentheses. -/
@[simp] theorem runs_paren :
    Runs (m.eval (.builtin i .paren args b)) σ a τ ↔ ∃ e, args = [e] ∧ Runs (m.eval e) σ a τ := by
  rcases args with _ | ⟨e, _ | ⟨e', es⟩⟩ <;>
    simp [eval, Operator.operate, evalEach, Operator.arity]

/-- An operator that evaluates all its operands. -/
theorem runs_strict (hp : op ≠ .paren) (hl : op.isLazy = false) :
    Runs (m.eval (.builtin i op args b)) σ a τ ↔ args.length = op.arity ∧
      ∃ as, Runs (m.evalList args) σ as τ ∧ op.apply m.checked as = some a := by
  by_cases h : args.length = op.arity
  · simp only [eval, Operator.operate, evalEach_eq_map, List.length_map, h, ne_eq,
      not_true_eq_false, if_false, hp, hl, decide_false, Bool.or_self, Bool.false_eq_true,
      Runs.bind_iff, Runs.lift_iff, true_and, evalList]
    constructor
    · rintro ⟨as, ρ, hs, ha, rfl⟩
      exact ⟨as, hs, ha⟩
    · rintro ⟨as, hs, ha⟩
      exact ⟨as, τ, hs, ha, rfl⟩
  · simp [eval, Operator.operate, evalEach_eq_map, h]

theorem runs_decideLater {c : Value} :
    Runs (op.decideLater (es.map m.eval) c) σ a τ ↔ ∃ b, c = .bool b ∧
      ((∃ e, op.later? b es = some e ∧ Runs (m.eval e) σ a τ) ∨
        op.later? b es = none ∧ a = .bool b ∧ τ = σ) := by
  cases c with
  | bool b => cases h : op.later? b es <;> simp [Operator.decideLater, Operator.later?_map, h]
  | number _ _ | table _ _ | tuple _ => simp [Operator.decideLater]

/-- A lazy operator: its first operand decides which of the others comes next, if any. -/
theorem runs_lazy (hl : op.isLazy = true) :
    Runs (m.eval (.builtin i op args b)) σ a τ ↔ args.length = op.arity ∧
      ∃ e es c ρ, args = e :: es ∧ Runs (m.eval e) σ (.bool c) ρ ∧
        ((∃ e', op.later? c es = some e' ∧ Runs (m.eval e') ρ a τ) ∨
          op.later? c es = none ∧ a = .bool c ∧ τ = ρ) := by
  have harity : op.arity ≠ 0 ∧ op.arity ≠ 1 := by
    cases op <;> simp_all [Operator.isLazy, Operator.arity]
  by_cases h : args.length = op.arity
  · rcases args with _ | ⟨e, _ | ⟨e', es⟩⟩
    · exact absurd h.symm harity.1
    · exact absurd h.symm harity.2
    · have hop : m.eval (.builtin i op (e :: e' :: es) b) =
          m.eval e >>= op.decideLater ((e' :: es).map m.eval) := by
        have h' : ((e :: e' :: es).map m.eval).length = op.arity := by rw [List.length_map, h]
        simp only [eval, Operator.operate, evalEach_eq_map, h', ne_eq, not_true_eq_false, if_false,
          hl, Bool.or_true, if_true]
        rfl
      rw [hop, Runs.bind_iff]
      simp only [runs_decideLater, h, true_and, List.cons.injEq]
      constructor
      · rintro ⟨_, ρ, he, c, rfl, hc⟩
        exact ⟨e, e' :: es, c, ρ, ⟨rfl, rfl⟩, he, hc⟩
      · rintro ⟨e, es, c, ρ, ⟨rfl, rfl⟩, he, hc⟩
        exact ⟨_, ρ, he, c, rfl, hc⟩
  · simp [eval, Operator.operate, evalEach_eq_map, h]

@[simp] theorem runs_call :
    Runs (m.eval (.call i f args)) σ a τ ↔
      ∃ as ρ, Runs (m.evalList args) σ as ρ ∧ Runs (m.invoke f as) ρ a τ := by
  simp [eval, evalList]

theorem runs_invoke :
    Runs (m.invoke f as) σ a τ ↔
      ∃ ρ, m.call f as σ = some (a, ρ) ∧ τ = { ρ with calls := σ.calls + 1 } := by
  simp only [Runs, invoke, StateT.run, Option.map_eq_some_iff, Prod.mk.injEq]
  constructor
  · rintro ⟨⟨b, ρ⟩, h, rfl, rfl⟩
    exact ⟨ρ, h, rfl⟩
  · rintro ⟨ρ, h, rfl⟩
    exact ⟨_, h, rfl, rfl⟩

@[simp] theorem runs_index {idx : Expr} :
    Runs (m.eval (.index i base idx)) σ a τ ↔
      ∃ t ρ k, Runs (m.eval base) σ t ρ ∧ Runs (m.eval idx) ρ k τ ∧
        t.hasKey k.datum = true ∧ a = t.entry k.datum := by
  simp only [eval, Runs.bind_iff, Runs.lift_iff, Option.ite_none_right_eq_some, Option.some.injEq]
  constructor
  · rintro ⟨t, ρ, ht, k, ρ', hk, ⟨hb, rfl⟩, rfl⟩
    exact ⟨t, ρ, k, ht, hk, hb, rfl⟩
  · rintro ⟨t, ρ, k, ht, hk, hb, rfl⟩
    exact ⟨t, ρ, ht, k, τ, hk, ⟨hb, rfl⟩, rfl⟩

@[simp] theorem runs_reclassify {o : Owner} :
    Runs (m.eval (.reclassify i e o b)) σ a τ ↔
      ∃ c, Runs (m.eval e) σ c τ ∧ a = i.settle c := by
  simp only [eval, Runs.bind_pure_iff]

@[simp] theorem runs_cast {t : DataType} :
    Runs (m.eval (.cast i t e b)) σ a τ ↔ ∃ c, Runs (m.eval e) σ c τ ∧ a = t.convert c := by
  simp only [eval, Runs.bind_pure_iff]

@[simp] theorem runs_tuple :
    Runs (m.eval (.tuple i es)) σ a τ ↔ ∃ as, Runs (m.evalList es) σ as τ ∧ a = .tuple as := by
  simp only [eval, evalList, Runs.bind_pure_iff]

@[simp] theorem runs_evalList_nil : Runs (m.evalList []) σ as τ ↔ as = [] ∧ τ = σ := by
  simp [evalList, evalEach, Operator.inOrder]

@[simp] theorem runs_evalList_cons :
    Runs (m.evalList (e :: es)) σ as τ ↔
      ∃ a ρ bs, Runs (m.eval e) σ a ρ ∧ Runs (m.evalList es) ρ bs τ ∧ as = a :: bs := by
  simp only [evalList, evalEach, Operator.inOrder, Runs.bind_iff, Runs.pure_iff]
  constructor
  · rintro ⟨a, ρ, ha, bs, ρ', hs, rfl, rfl⟩
    exact ⟨a, ρ, bs, ha, hs, rfl⟩
  · rintro ⟨a, ρ, bs, ha, hs, rfl⟩
    exact ⟨a, ρ, ha, bs, τ, hs, rfl, rfl⟩

/-! ## Locations -/

@[simp] theorem runs_locate_ident : Runs (m.locate (.ident i v)) σ q τ ↔ q = .var v ∧ τ = σ := by
  simp [locate]

@[simp] theorem runs_locate_index {idx : Expr} :
    Runs (m.locate (.index i base idx)) σ q τ ↔
      ∃ r ρ k, Runs (m.locate base) σ r ρ ∧ Runs (m.eval idx) ρ k τ ∧ q = .entry r k.datum := by
  simp only [locate, Runs.bind_iff, Runs.pure_iff]
  constructor
  · rintro ⟨r, ρ, hr, k, ρ', hk, rfl, rfl⟩
    exact ⟨r, ρ, k, hr, hk, rfl⟩
  · rintro ⟨r, ρ, k, hr, hk, rfl⟩
    exact ⟨r, ρ, hr, k, τ, hk, rfl, rfl⟩

@[simp] theorem runs_locate_tuple :
    Runs (m.locate (.tuple i es)) σ q τ ↔
      ∃ qs, Runs (m.locateList es) σ qs τ ∧ q = .tuple qs := by
  simp only [locate, Runs.bind_pure_iff]

@[simp] theorem runs_locateList_nil : Runs (m.locateList []) σ qs τ ↔ qs = [] ∧ τ = σ := by
  simp [locateList]

@[simp] theorem runs_locateList_cons :
    Runs (m.locateList (e :: es)) σ qs τ ↔
      ∃ q ρ rs, Runs (m.locate e) σ q ρ ∧ Runs (m.locateList es) ρ rs τ ∧ qs = q :: rs := by
  simp only [locateList, Runs.bind_iff, Runs.pure_iff]
  constructor
  · rintro ⟨q, ρ, hq, rs, ρ', hs, rfl, rfl⟩
    exact ⟨q, ρ, rs, hq, hs, rfl⟩
  · rintro ⟨q, ρ, rs, hq, hs, rfl⟩
    exact ⟨q, ρ, hq, rs, τ, hs, rfl, rfl⟩

@[simp] theorem runs_store {u : Unit} : Runs (store q a) σ u τ ↔ q.write a σ = some τ := by
  simp [Runs, store, StateT.run]

/-! ## Statements -/

variable {o : Outcome}

@[simp] theorem runs_test : Runs (m.test c) σ b τ ↔ Runs (m.eval c) σ (.bool b) τ := by
  simp only [test, Runs.bind_iff]
  constructor
  · rintro ⟨a, ρ, ha, h⟩
    cases a with
    | bool b' =>
      obtain ⟨rfl, rfl⟩ := Runs.pure_iff.1 h
      exact ha
    | number _ _ | table _ _ | tuple _ => cases h
  · intro h
    exact ⟨_, τ, h, Runs.pure_iff.2 ⟨rfl, rfl⟩⟩

@[simp] theorem runs_within {vs : List VarId} {x : Run p α} {b : α} :
    Runs (within vs x) σ b τ ↔ ∃ ρ, Runs x σ b ρ ∧ τ = ρ.restore σ vs := by
  simp only [within, Runs.bind_iff, Runs.get_iff, Runs.modify_iff, Runs.pure_iff]
  constructor
  · rintro ⟨_, _, ⟨rfl, rfl⟩, _, ρ, h, _, _, rfl, rfl, rfl⟩
    exact ⟨ρ, h, rfl⟩
  · rintro ⟨ρ, h, rfl⟩
    exact ⟨σ, σ, ⟨rfl, rfl⟩, b, ρ, h, (), _, rfl, rfl, rfl⟩

@[simp] theorem runs_iterate_zero {round : Run p Outcome} :
    Runs (iterate head round 0) σ o τ ↔ False := Runs.failure_iff

theorem runs_iterate_succ {round : Run p Outcome} {n : Nat} :
    Runs (iterate head round (n + 1)) σ o τ ↔
      (Runs head σ false τ ∧ o = .normal) ∨
      ∃ ρ o' ρ', Runs head σ true ρ ∧ Runs round ρ o' ρ' ∧
        if o'.goesOn then Runs (iterate head round n) ρ' o τ else o = o'.afterLoop ∧ τ = ρ' := by
  simp only [iterate, Runs.bind_iff]
  constructor
  · rintro ⟨b, ρ, hb, h⟩
    cases b with
    | false =>
      obtain ⟨rfl, rfl⟩ := Runs.pure_iff.1 h
      exact .inl ⟨hb, rfl⟩
    | true =>
      obtain ⟨o', ρ', hr, h⟩ := Runs.bind_iff.1 h
      refine .inr ⟨ρ, o', ρ', hb, hr, ?_⟩
      split_ifs at h ⊢
      · exact h
      · exact Runs.pure_iff.1 h
  · rintro (⟨hb, rfl⟩ | ⟨ρ, o', ρ', hb, hr, h⟩)
    · exact ⟨false, τ, hb, Runs.pure_iff.2 ⟨rfl, rfl⟩⟩
    · refine ⟨true, ρ, hb, Runs.bind_iff.2 ⟨o', ρ', hr, ?_⟩⟩
      split_ifs at h ⊢
      · exact h
      · exact Runs.pure_iff.2 h

variable {i : Stmt.Info}

@[simp] theorem runs_block {body : List Stmt} : Runs (m.exec (.block i body)) σ o τ ↔
      ∃ ρ, Runs (m.execList body) σ o ρ ∧ τ = ρ.restore σ (Stmt.block i body).declared := by
  simp [exec]

@[simp] theorem runs_cond {yes : Stmt} {no : Option Stmt} :
    Runs (m.exec (.cond i c yes no)) σ o τ ↔ ∃ b ρ, Runs (m.eval c) σ (.bool b) ρ ∧
      if b then Runs (m.exec yes) ρ o τ else Runs (m.execOption no) ρ o τ := by
  simp [exec]

@[simp] theorem runs_loop : Runs (m.exec (.loop i c body)) σ o τ ↔
      Runs (iterate (m.test c) (m.exec body) m.rounds) σ o τ := by
  rw [exec]

@[simp] theorem runs_doLoop :
    Runs (m.exec (.doLoop i body c)) σ o τ ↔ ∃ o' ρ, Runs (m.exec body) σ o' ρ ∧
      if o'.goesOn then Runs (iterate (m.test c) (m.exec body) m.rounds) ρ o τ
      else o = o'.afterLoop ∧ τ = ρ := by
  simp [exec]

/-- A round of a `for`: the body, and the update unless the body leaves. -/
def round (m : Machine p) (update : Option Stmt) (body : Stmt) : Run p Outcome := do
  let o ← m.exec body
  if o.goesOn then m.execOption update else return o

theorem runs_round :
    Runs (m.round update body) σ o τ ↔ ∃ o' ρ, Runs (m.exec body) σ o' ρ ∧
      if o'.goesOn then Runs (m.execOption update) ρ o τ else o = o' ∧ τ = ρ := by
  simp [round]

@[simp] theorem runs_forLoop {init : Option Stmt} {c : Option Expr} :
    Runs (m.exec (.forLoop i init c update body)) σ o τ ↔ ∃ o' ρ ρ',
      Runs (m.execOption init) σ o' ρ ∧
      (if o'.isNormal then
        Runs (iterate (m.testOption c) (m.round update body) m.rounds) ρ o ρ'
      else o = o' ∧ ρ' = ρ) ∧
      τ = ρ'.restore σ (Stmt.forLoop i init c update body).declared := by
  rw [exec, runs_within]
  simp only [Runs.bind_iff, Runs.ite_iff, Runs.pure_iff]
  constructor
  · rintro ⟨ρ', ⟨o', ρ, hi, h⟩, rfl⟩
    exact ⟨o', ρ, ρ', hi, h, rfl⟩
  · rintro ⟨o', ρ, ρ', hi, h, rfl⟩
    exact ⟨ρ', ⟨o', ρ, hi, h⟩, rfl⟩

@[simp] theorem runs_decl {init : Option Expr} : Runs (m.exec (.decl i v init)) σ o τ ↔
      ∃ a ρ, Runs (m.initial v init) σ a ρ ∧ o = .normal ∧ τ = ρ.set v a := by
  simp only [exec, Runs.bind_iff, Runs.modify_iff, Runs.pure_iff]
  constructor
  · rintro ⟨a, ρ, ha, _, _, rfl, rfl, rfl⟩
    exact ⟨a, ρ, ha, rfl, rfl⟩
  · rintro ⟨a, ρ, ha, rfl, rfl⟩
    exact ⟨a, ρ, ha, (), _, rfl, rfl, rfl⟩

@[simp] theorem runs_assign {lhs rhs : Expr} :
    Runs (m.exec (.assign i lhs rhs)) σ o τ ↔ ∃ q ρ a ρ', Runs (m.locate lhs) σ q ρ ∧
      Runs (m.eval rhs) ρ a ρ' ∧ q.write a ρ' = some τ ∧ o = .normal := by
  simp only [exec, Runs.bind_iff, Runs.pure_iff, runs_store]
  constructor
  · rintro ⟨q, ρ, hq, a, ρ', ha, _, _, hw, rfl, rfl⟩
    exact ⟨q, ρ, a, ρ', hq, ha, hw, rfl⟩
  · rintro ⟨q, ρ, a, ρ', hq, ha, hw, rfl⟩
    exact ⟨q, ρ, hq, a, ρ', ha, (), τ, hw, rfl, rfl⟩

@[simp] theorem runs_expr :
    Runs (m.exec (.expr i e)) σ o τ ↔ ∃ a, Runs (m.eval e) σ a τ ∧ o = .normal := by
  simp only [exec, Runs.bind_iff, Runs.pure_iff]
  constructor
  · rintro ⟨a, ρ, ha, rfl, rfl⟩
    exact ⟨a, ha, rfl⟩
  · rintro ⟨a, ha, rfl⟩
    exact ⟨a, τ, ha, rfl, rfl⟩

@[simp] theorem runs_require :
    Runs (m.exec (.require i e)) σ o τ ↔ Runs (m.eval e) σ (.bool true) τ ∧ o = .normal := by
  simp only [exec, Runs.bind_iff, runs_test, Runs.ite_iff,
    Runs.pure_iff, Runs.failure_iff]
  constructor
  · rintro ⟨b, ρ, hb, h⟩
    split_ifs at h with hb'
    subst hb'
    obtain ⟨rfl, rfl⟩ := h
    exact ⟨hb, rfl⟩
  · rintro ⟨hb, rfl⟩
    exact ⟨true, τ, hb, rfl, rfl⟩

@[simp] theorem runs_ret_none : Runs (m.exec (.ret i none)) σ o τ ↔ o = .ret .nothing ∧ τ = σ := by
  simp [exec]

@[simp] theorem runs_ret_some :
    Runs (m.exec (.ret i (some e))) σ o τ ↔ ∃ a, Runs (m.eval e) σ a τ ∧ o = .ret a := by
  simp only [exec, Runs.bind_iff, Runs.pure_iff]
  constructor
  · rintro ⟨a, ρ, ha, rfl, rfl⟩
    exact ⟨a, ha, rfl⟩
  · rintro ⟨a, ha, rfl⟩
    exact ⟨a, τ, ha, rfl, rfl⟩

@[simp] theorem runs_leave : Runs (m.exec (.leave i)) σ o τ ↔ o = .leave ∧ τ = σ := by
  simp [exec]

@[simp] theorem runs_next : Runs (m.exec (.next i)) σ o τ ↔ o = .next ∧ τ = σ := by
  simp [exec]

@[simp] theorem runs_execList_nil : Runs (m.execList []) σ o τ ↔ o = .normal ∧ τ = σ := by
  simp [execList]

@[simp] theorem runs_execList_cons :
    Runs (m.execList (s :: ss)) σ o τ ↔ ∃ o' ρ, Runs (m.exec s) σ o' ρ ∧
      if o'.isNormal then Runs (m.execList ss) ρ o τ else o = o' ∧ τ = ρ := by
  simp [execList]

/-- Statements end normally one after another. -/
theorem runs_cons_normal (h : Runs (m.execList (s :: ss)) σ .normal τ) :
    ∃ ρ, Runs (m.exec s) σ .normal ρ ∧ Runs (m.execList ss) ρ .normal τ := by
  obtain ⟨o, ρ, hs, h⟩ := runs_execList_cons.1 h
  cases o with
  | normal => exact ⟨ρ, hs, h⟩
  | leave | next | ret a => cases h.1

@[simp] theorem runs_execOption_none : Runs (m.execOption none) σ o τ ↔ o = .normal ∧ τ = σ := by
  simp [execOption]

@[simp] theorem runs_execOption_some :
    Runs (m.execOption (some s)) σ o τ ↔ Runs (m.exec s) σ o τ := by
  rw [execOption]

/-! ## Calls -/

/-- A call runs the body on its own frame, and keeps the state. -/
theorem perform_eq_some :
    m.perform f as σ = some (a, τ) ↔ as.length = (p.function f).params.length ∧ ∃ o ρ,
      Runs (m.exec (p.function f).body) (σ.activate ((p.function f).params.zip as)) o ρ ∧
      o.value? p f = some a ∧ τ = ρ.resume σ := by
  simp only [perform, Option.ite_none_right_eq_some, Option.bind_eq_some_iff,
    Option.map_eq_some_iff, Prod.mk.injEq, Runs]
  constructor
  · rintro ⟨hl, ⟨o, ρ⟩, h, b, hb, rfl, rfl⟩
    exact ⟨hl, o, ρ, h, hb, rfl⟩
  · rintro ⟨hl, o, ρ, h, hb, rfl⟩
    exact ⟨hl, ⟨o, ρ⟩, h, a, hb, rfl, rfl⟩

end Machine

end Shroud
