import Shroud.Proofs.Semantics.Frame

/-! # Compound assignments

A compound assignment is resolved to an assignment that reads its target once more. If nothing is
called to find the target, that is the same as to find it once. A function that is called there runs
twice.
-/

namespace Shroud

variable {p : Program} {m : Machine p} {σ τ : Store p} {e : Expr} {q : Location}

theorem Operator.operate_congr {x y : Run p Value} (h : x.run σ = y.run σ) (op : Operator)
    (checked : Bool) (xs : List (Run p Value)) :
    (op.operate checked (x :: xs)).run σ = (op.operate checked (y :: xs)).run σ := by
  unfold operate
  simp only [List.length_cons]
  split
  · rfl
  · split
    · cases xs with
      | nil => exact h
      | cons _ _ => simp only [StateT.run_bind, h]
    · simp only [inOrder, StateT.run_bind, h]

/-- A variable, or an element of one. -/
def Expr.isElement : Expr → Bool
  | .ident _ _ => true
  | .index _ base _ => base.isElement
  | _ => false

namespace Machine

/-- What a compound assignment says: find the target, read it, compute the value, and store it. -/
def update (m : Machine p) (op : Operator) (lhs rhs : Expr) : Run p Outcome := do
  let q ← m.locate lhs
  let a ← op.operate m.checked [do liftM (q.read (← get)), m.eval rhs]
  store q a
  return .normal

theorem eq_keeping : Keeping (@Eq (Store p)) where
  refl _ := rfl
  trans := Eq.trans
  restore {σ ρ} vs h := by
    subst h
    simp [Store.restore]

/-- A place that is found without calls holds the value of its expression. -/
theorem run_eval_of_locate (he : e.isElement = true) (hcalls : e.callees = [])
    (h : Runs (m.locate e) σ q σ) : (m.eval e).run σ = (q.read σ).map (·, σ) := by
  induction e using Expr.induct_children generalizing q with
  | h e ih =>
    cases e with
    | ident i v =>
      obtain ⟨rfl, -⟩ := runs_locate_ident.1 h
      simp only [eval, Location.read]
      cases hv : σ.get v <;> simp [hv]
    | index i base idx =>
      obtain ⟨r, ρ, k, hr, hk, rfl⟩ := runs_locate_index.1 h
      have hbase : base.callees = [] := List.eq_nil_iff_forall_not_mem.2 fun f hf =>
        List.not_mem_nil (hcalls ▸ Expr.mem_callees_of_mem_children (.head _) hf)
      obtain rfl : σ = ρ := locate_keeps eq_keeping (by simp [hbase]) hr
      replace hbase := ih base (.head _) he hbase hr
      replace hk : (m.eval idx).run σ = some (k, σ) := hk
      simp only [eval, StateT.run_bind, hbase, Location.read]
      cases r.read σ with
      | none => rfl
      | some t =>
        simp only [Option.map_some, Option.bind_eq_bind, Option.bind_some, hk]
        split <;> rfl
    | _ => cases he

/-- Reading the target once more is the same as finding it once, if that calls nothing. -/
theorem run_exec_assign (he : e.isElement = true) (hcalls : e.callees = []) (i : Stmt.Info)
    (j : Expr.Info) (op : Operator) (rhs : Expr) (b : Bool) :
    (m.exec (.assign i e (.builtin j op [e, rhs] b))).run σ = (m.update op e rhs).run σ := by
  simp only [exec, update, eval, evalEach, StateT.run_bind]
  cases h : (m.locate e).run σ with
  | none => rfl
  | some r =>
    obtain ⟨q, τ⟩ := r
    obtain rfl : σ = τ := locate_keeps eq_keeping (by simp [hcalls]) h
    have hread : (m.eval e).run σ = (do liftM (q.read (← get)) : Run p Value).run σ := by
      rw [run_eval_of_locate he hcalls h]
      cases hq : q.read σ <;> simp [hq]
    simp only [Option.bind_eq_bind, Option.bind_some, Operator.operate_congr hread]

end Machine

/-- A compound assignment does what it says if finding its target calls nothing. -/
theorem Scope.compound_runs {env : Scope.Env} {span : Span} {lhs rhs : Source.Expr} {op : Operator}
    {s s' : Scope.State} {t : Stmt}
    (h : Yields (Scope.stmt env (.assign span lhs (some op) rhs)) s t s') :
    ∃ target value, Scope.expr env s.frames lhs = .ok target ∧
      Scope.expr env s.frames rhs = .ok value ∧
      (target.isElement = true → target.callees = [] → ∀ {p : Program} (m : Machine p) σ,
        (m.exec t).run σ = (m.update op target value).run σ) := by
  obtain ⟨target, _, ht, h⟩ := Yields.bind_iff.1 h
  obtain ⟨current, _, hc, h⟩ := Yields.bind_iff.1 h
  obtain ⟨value, hv, rfl⟩ := Yields.bind_pure_iff.1 h
  obtain ⟨ht, rfl⟩ := Scope.exprHere_iff.1 ht
  obtain ⟨hc, rfl⟩ := Scope.exprHere_iff.1 hc
  obtain ⟨hv, rfl⟩ := Scope.exprHere_iff.1 hv
  obtain rfl : target = current := Except.ok.inj (ht.symm.trans hc)
  exact ⟨target, value, ht, hv, fun he hcalls _ m σ =>
    m.run_exec_assign he hcalls { span } { span } op value false⟩

/-- In `m[i] += 1` finding the target calls nothing, so the assignment does what it says. -/
theorem Scope.compound_runs_element : ∃ t s', Yields (Scope.stmt ⟨⟨0⟩, "C", none, []⟩
      (.assign {} (.index {} "m" "i") (some .add) 1))
      { frames := [[("m", ⟨0⟩), ("i", ⟨1⟩)]] } t s' ∧
    ∃ target value, ∀ {p : Program} (m : Machine p) σ,
      (m.exec t).run σ = (m.update .add target value).run σ := by
  have h : Yields (Scope.stmt ⟨⟨0⟩, "C", none, []⟩
      (.assign {} (.index {} "m" "i") (some .add) 1))
      { frames := [[("m", ⟨0⟩), ("i", ⟨1⟩)]] } _ _ := rfl
  obtain ⟨target, value, ht, -, hrun⟩ := Scope.compound_runs h
  cases ht
  exact ⟨_, _, h, _, value, hrun rfl rfl⟩

namespace SourceUnit

/-- A compound assignment whose target calls a function that counts. -/
def doubled : SourceUnit where
  contracts := counted.contracts.map fun c => { c with
    functions := c.functions.map fun f => if f.name = "next" then f else { f with
      body := [.assign {} (.index {} "m" (.call {} "next" [])) (some .add)
        1] } }

/-- The target is written twice when it is resolved, so the function is called twice. -/
theorem doubled_calls_twice : ∃ q τ, Passes doubled.check q ∧
    Runs ((q.machine 7 true 1 1).exec (q.function ⟨1⟩).body) (Store.zeros q) .normal τ ∧
    τ.calls = 2 := by
  have htest : Passes.test doubled.check (fun q =>
      (((q.machine 7 true 1 1).exec (q.function ⟨1⟩).body).run (Store.zeros q)).any fun r =>
        r.1.isNormal && r.2.calls = 2) = true := by
    decide +kernel
  obtain ⟨q, hq, htest⟩ := Passes.of_test htest
  obtain ⟨⟨o, τ⟩, hrun, htest⟩ := (Option.any_eq_true _ _).1 htest
  cases o <;> simp [Outcome.isNormal] at htest
  exact ⟨q, τ, hq, hrun, htest⟩

end SourceUnit

end Shroud
