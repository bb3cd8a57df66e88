import Shroud.Proofs.Semantics.Frame

/-! # Where control gets to

`Machine.Reaches` says which statements a run gets to, and in which store. It follows the run from
the outside in and needs only the parts of it that lie before, so it also speaks of runs that fail
later or never end.

A run gives a value to a variable that has none only by a declaration, and such a variable has none
again when the block of the declaration ends.
-/

namespace Shroud

theorem Outcome.afterLoop_ne_next (o : Outcome) (h : o.goesOn = false) : o.afterLoop ≠ .next := by
  cases o with
  | normal | next => cases h
  | leave | ret a => nofun

variable {p : Program}

namespace Machine

/-- Some rounds of a loop, after each of which it goes on. -/
def Rounds (head : Run p Bool) (round : Run p Outcome) : Store p → Store p → Prop :=
  Relation.ReflTransGen fun σ τ => ∃ ρ o, Runs head σ true ρ ∧ Runs round ρ o τ ∧ o.goesOn = true

/-- Control enters a statement right inside another one that runs. -/
inductive Enters (m : Machine p) : Stmt → Store p → Stmt → Store p → Prop
  | block {i : Stmt.Info} {done rest : List Stmt} {s : Stmt} {σ ρ : Store p}
      (h : Runs (m.execList done) σ .normal ρ) : Enters m (.block i (done ++ s :: rest)) σ s ρ
  | yes {i : Stmt.Info} {c : Expr} {yes : Stmt} {no : Option Stmt} {σ ρ : Store p}
      (h : Runs (m.test c) σ true ρ) : Enters m (.cond i c yes no) σ yes ρ
  | no {i : Stmt.Info} {c : Expr} {yes no : Stmt} {σ ρ : Store p}
      (h : Runs (m.test c) σ false ρ) : Enters m (.cond i c yes (some no)) σ no ρ
  | loop {i : Stmt.Info} {c : Expr} {body : Stmt} {σ ρ ρ' : Store p}
      (hr : Rounds (m.test c) (m.exec body) σ ρ) (h : Runs (m.test c) ρ true ρ') :
      Enters m (.loop i c body) σ body ρ'
  | first {i : Stmt.Info} {c : Expr} {body : Stmt} {σ : Store p} :
      Enters m (.doLoop i body c) σ body σ
  | again {i : Stmt.Info} {c : Expr} {body : Stmt} {σ ρ ρ' ρ'' : Store p} {o : Outcome}
      (hb : Runs (m.exec body) σ o ρ) (ho : o.goesOn = true)
      (hr : Rounds (m.test c) (m.exec body) ρ ρ') (h : Runs (m.test c) ρ' true ρ'') :
      Enters m (.doLoop i body c) σ body ρ''
  | init {i : Stmt.Info} {init : Stmt} {c : Option Expr} {update : Option Stmt} {body : Stmt}
      {σ : Store p} : Enters m (.forLoop i (some init) c update body) σ init σ
  | body {i : Stmt.Info} {init : Option Stmt} {c : Option Expr} {update : Option Stmt} {body : Stmt}
      {σ ρ ρ' ρ'' : Store p} (hi : Runs (m.execOption init) σ .normal ρ)
      (hr : Rounds (m.testOption c) (m.round update body) ρ ρ')
      (h : Runs (m.testOption c) ρ' true ρ'') : Enters m (.forLoop i init c update body) σ body ρ''
  | update {i : Stmt.Info} {init : Option Stmt} {c : Option Expr} {update body : Stmt}
      {σ ρ ρ' ρ'' τ : Store p} {o : Outcome} (hi : Runs (m.execOption init) σ .normal ρ)
      (hr : Rounds (m.testOption c) (m.round (some update) body) ρ ρ')
      (h : Runs (m.testOption c) ρ' true ρ'') (hb : Runs (m.exec body) ρ'' o τ)
      (ho : o.goesOn = true) : Enters m (.forLoop i init c (some update) body) σ update τ

/-- Control reaches a statement inside another one that runs. -/
inductive Reaches (m : Machine p) : Stmt → Store p → Stmt → Store p → Prop
  | here {s : Stmt} {σ : Store p} : Reaches m s σ s σ
  | inside {s c t : Stmt} {σ ρ τ : Store p} (h : m.Enters s σ c ρ) (ht : Reaches m c ρ t τ) :
      Reaches m s σ t τ

variable {m : Machine p} {σ τ : Store p} {o : Outcome} {head : Run p Bool} {round : Run p Outcome}
  {ρ : Store p}

/-- Control enters the children of a statement. -/
theorem Enters.mem_children {s c : Stmt} (h : m.Enters s σ c ρ) : c ∈ s.children := by
  cases h <;> simp [Stmt.children]

/-- A loop that ends has gone some rounds, and then its head fails or a round leaves. -/
theorem runs_iterate {n : Nat} (h : Runs (iterate head round n) σ o τ) :
    ∃ ρ, Rounds head round σ ρ ∧
      (Runs head ρ false τ ∧ o = .normal ∨ ∃ ρ' o', Runs head ρ true ρ' ∧ Runs round ρ' o' τ ∧
        o'.goesOn = false ∧ o = o'.afterLoop) := by
  induction n generalizing σ with
  | zero => exact (runs_iterate_zero.1 h).elim
  | succ n ih =>
    rcases runs_iterate_succ.1 h with ⟨hb, rfl⟩ | ⟨ρ, o', ρ', hb, hround, h⟩
    · exact ⟨σ, .refl, .inl ⟨hb, rfl⟩⟩
    split at h
    · rename_i ho
      obtain ⟨ρ₁, hr, hend⟩ := ih h
      exact ⟨ρ₁, .head ⟨ρ, o', hb, hround, ho⟩ hr, hend⟩
    · rename_i ho
      obtain ⟨rfl, rfl⟩ := h
      exact ⟨σ, .refl, .inr ⟨ρ, o', hb, hround, by simpa using ho, rfl⟩⟩

/-- Rounds keep what the head and one round keep. -/
theorem Rounds.keeps {K : Store p → Store p → Prop} (hK : Keeping K) (hh : Keeps K head)
    (hr : Keeps K round) (h : Rounds head round σ τ) : K σ τ := by
  induction h with
  | refl => exact hK.refl σ
  | tail _ hstep ih =>
    obtain ⟨ρ, o, hhead, hround, -⟩ := hstep
    exact hK.trans ih (hK.trans (hh hhead) (hr hround))

/-- When a body of a `for` ends and the loop goes on, so did the body in the first round. -/
theorem Rounds.exists_first {update : Option Stmt} {body : Stmt} {ρ' : Store p}
    (hr : Rounds head (m.round update body) σ ρ) (h : Runs head ρ true ρ')
    (hb : Runs (m.exec body) ρ' o τ) (ho : o.goesOn = true) :
    ∃ ρ' o τ, Runs head σ true ρ' ∧ Runs (m.exec body) ρ' o τ ∧ o.goesOn = true := by
  rcases Relation.ReflTransGen.cases_head hr with rfl | ⟨_, ⟨ρ₁, o₁, hhead, hround, ho₁⟩, -⟩
  · exact ⟨ρ', o, τ, h, hb, ho⟩
  · obtain ⟨o₂, ρ₂, hbody, hrest⟩ := runs_round.1 hround
    refine ⟨ρ₁, o₂, ρ₂, hhead, hbody, ?_⟩
    split at hrest
    · assumption
    · exact hrest.1 ▸ ho₁

/-! ## Variables without values -/

/-- A variable that has no value gets none. -/
def StaysAbsent (v : VarId) (σ τ : Store p) : Prop := σ.get v = none → τ.get v = none

variable {v : VarId}

theorem staysAbsent_keeping (v : VarId) : Keeping (StaysAbsent (p := p) v) where
  refl _ h := h
  trans h h' hσ := h' (h hσ)
  restore {σ ρ} vs h hσ := by
    by_cases hv : v ∈ vs
    · exact (Store.get_restore_of_mem hv).trans hσ
    · exact (Store.get_restore_of_not_mem hv).trans (h hσ)

theorem SameAt.staysAbsent (h : SameAt v σ τ) : StaysAbsent v σ τ := fun hσ => Eq.trans h hσ

section

variable {M : FunctionId → List VarId} (hm : m.Framed M) (hM : ∀ f, v ∉ M f)

include hm hM

/-- Calls and expressions declare nothing. -/
theorem eval_absent (e : Expr) : Keeps (StaysAbsent v) (m.eval e) := fun _ _ _ h =>
  SameAt.staysAbsent (eval_frame hm h fun f _ => hM f)

/-- What is not declared gets no value: an assignment gives a new value only. -/
theorem exec_absent_of_not_mem {s : Stmt} (hs : v ∉ s.declared) :
    Keeps (StaysAbsent v) (m.exec s) := by
  refine exec_keeps (staysAbsent_keeping v) ?_ ?_ ?_
  · intro t _ r _ f _ as σ a τ h
    exact SameAt.staysAbsent (hm.invoke (hM f) as h)
  · intro w hw ρ a hρ
    have hne : v ≠ w := fun heq => hs (heq ▸ hw)
    exact (ρ.get_set_of_ne a hne).trans hρ
  · intro t _ w _ ρ a hw hρ
    have hne : v ≠ w := fun heq => hw (heq ▸ hρ)
    exact (ρ.get_set_of_ne a hne).trans hρ

/-- What a statement does not leave open has no value after it if it had none before. -/
theorem exec_absent {s : Stmt} (hs : v ∉ s.opens) : Keeps (StaysAbsent v) (m.exec s) := by
  have hK := staysAbsent_keeping (p := p) v
  induction s using Stmt.induct_children with
  | h s ih =>
    by_cases hd : v ∈ s.declared
    swap
    · exact exec_absent_of_not_mem hm hM hd
    intro σ o τ h
    cases s with
    | block i body =>
      obtain ⟨ρ, -, rfl⟩ := runs_block.1 h
      exact fun hσ => (Store.get_restore_of_mem hd).trans hσ
    | forLoop i init c update body =>
      obtain ⟨_, _, ρ, -, -, rfl⟩ := runs_forLoop.1 h
      exact fun hσ => (Store.get_restore_of_mem hd).trans hσ
    | cond i c yes no =>
      obtain ⟨b, ρ, hc, h⟩ := runs_cond.1 h
      rw [Stmt.opens, List.mem_append, not_or] at hs
      refine hK.trans (eval_absent hm hM c hc) ?_
      split at h
      · exact ih yes (.head _) hs.2 h
      · refine execOption_keeps hK (fun t ht => ?_) h
        obtain rfl := ht
        exact ih t (.tail _ (.head _)) hs.1
    | loop i c body =>
      exact iterate_keeps hK (test_keeps (eval_absent hm hM c))
        (ih body (.head _) hs) _ (runs_loop.1 h)
    | doLoop i body c =>
      obtain ⟨o', ρ, hbody, h⟩ := runs_doLoop.1 h
      have hbody' : Keeps (StaysAbsent v) (m.exec body) := ih body (.head _) hs
      split at h
      · exact hK.trans (hbody' hbody)
          (iterate_keeps hK (test_keeps (eval_absent hm hM c)) hbody' _ h)
      · obtain ⟨-, rfl⟩ := h
        exact hbody' hbody
    | decl i w init => exact (hs hd).elim
    | assign i lhs rhs | expr i e | require i e | ret i e | leave i | next i => cases hd

end

/-! ## Going on with the next round -/

theorem iterate_ne_next {n : Nat} (h : Runs (iterate head round n) σ o τ) : o ≠ .next := by
  obtain ⟨_, -, ⟨-, rfl⟩ | ⟨_, o', -, -, ho, rfl⟩⟩ := runs_iterate h
  · nofun
  · exact o'.afterLoop_ne_next ho

/-- A list of statements that does not end normally ends as one of them does. -/
theorem execList_outcome {ss : List Stmt} (h : Runs (m.execList ss) σ o τ) (ho : o ≠ .normal) :
    ∃ s ∈ ss, ∃ ρ, Runs (m.exec s) ρ o τ := by
  induction ss generalizing σ with
  | nil =>
    obtain ⟨rfl, -⟩ := runs_execList_nil.1 h
    exact (ho rfl).elim
  | cons s ss ih =>
    obtain ⟨o', ρ, hs, h⟩ := runs_execList_cons.1 h
    split at h
    · obtain ⟨t, ht, ρ', hrun⟩ := ih h
      exact ⟨t, List.mem_cons_of_mem s ht, ρ', hrun⟩
    · obtain ⟨rfl, rfl⟩ := h
      exact ⟨s, List.mem_cons_self, σ, hs⟩

/-- Only a jump to the next round ends like one. -/
theorem exists_next {s : Stmt} (h : Runs (m.exec s) σ .next τ) : ∃ i, Stmt.next i ∈ s.walk := by
  induction s using Stmt.induct_children generalizing σ τ with
  | h s ih =>
    suffices hchild : (∃ i, s = .next i) ∨
        ∃ c ∈ s.children, ∃ σ τ, Runs (m.exec c) σ .next τ by
      rcases hchild with ⟨i, rfl⟩ | ⟨c, hc, ρ, ρ', hrun⟩
      · exact ⟨i, Stmt.mem_walk_self _⟩
      · obtain ⟨i, hi⟩ := ih c hc hrun
        exact ⟨i, Stmt.mem_walk_iff.2 (.inr ⟨c, hc, hi⟩)⟩
    cases s with
    | block i body =>
      obtain ⟨ρ, hbody, -⟩ := runs_block.1 h
      obtain ⟨c, hc, ρ', hrun⟩ := execList_outcome hbody nofun
      exact .inr ⟨c, hc, ρ', ρ, hrun⟩
    | cond i c yes no =>
      obtain ⟨b, ρ, -, h⟩ := runs_cond.1 h
      split at h
      · exact .inr ⟨yes, by simp [Stmt.children], ρ, τ, h⟩
      · cases no with
        | none => cases (runs_execOption_none.1 h).1
        | some no => exact .inr ⟨no, by simp [Stmt.children], ρ, τ, runs_execOption_some.1 h⟩
    | loop i c body => exact (iterate_ne_next (runs_loop.1 h) rfl).elim
    | doLoop i body c =>
      obtain ⟨o', ρ, -, h⟩ := runs_doLoop.1 h
      split at h
      · exact (iterate_ne_next h rfl).elim
      · rename_i ho
        exact (o'.afterLoop_ne_next (by simpa using ho) h.1.symm).elim
    | forLoop i init c update body =>
      obtain ⟨o', ρ, ρ', hinit, h, -⟩ := runs_forLoop.1 h
      split at h
      · exact (iterate_ne_next h rfl).elim
      · obtain ⟨rfl, -⟩ := h
        cases init with
        | none => cases (runs_execOption_none.1 hinit).1
        | some init =>
          exact .inr ⟨init, by simp [Stmt.children], σ, ρ, runs_execOption_some.1 hinit⟩
    | decl i v init => obtain ⟨_, _, -, ho, -⟩ := runs_decl.1 h; cases ho
    | assign i lhs rhs => obtain ⟨_, _, _, _, -, -, -, ho⟩ := runs_assign.1 h; cases ho
    | expr i e => obtain ⟨_, -, ho⟩ := runs_expr.1 h; cases ho
    | require i e => cases (runs_require.1 h).2
    | ret i e =>
      cases e with
      | none => cases (runs_ret_none.1 h).1
      | some e => obtain ⟨_, -, ho⟩ := runs_ret_some.1 h; cases ho
    | leave i => cases (runs_leave.1 h).1
    | next i => exact .inl ⟨i, rfl⟩

/-- Where the second of two statements is reached, if the first one ends normally. -/
def second? (m : Machine p) (body : Stmt) (σ : Store p) : Option (Stmt × Store p) :=
  match body with
  | .block _ [s, t] =>
    match (m.exec s).run σ with
    | some (.normal, ρ) => some (t, ρ)
    | _ => none
  | _ => none

theorem enters_second {body t : Stmt} (h : m.second? body σ = some (t, ρ)) :
    m.Enters body σ t ρ := by
  unfold second? at h
  split at h
  · rename_i i s t
    split at h
    · rename_i ρ hs
      cases h
      have hfirst : Runs (m.execList [s]) σ .normal ρ :=
        runs_execList_cons.2 ⟨.normal, ρ, hs, runs_execList_nil.2 ⟨rfl, rfl⟩⟩
      have henters : m.Enters (.block i ([s] ++ [t])) σ t ρ := .block hfirst
      exact henters
    · cases h
  · cases h

end Machine

namespace SourceUnit

/-- A branch that is a declaration, and a use of the variable after it. -/
def unframed : SourceUnit := .single "Unframed" [] [
  { name := "f"
    params := [{ name := "c", type := .mk .bool .all }]
    returns := [.mk (.uint 8) .all]
    body := [
      .cond {} "c"
        (.decl {} "x" (.mk (.uint 8) .all) false (some 1)) none,
      .ret {} (some "x")] }]

/-- The variable that a statement returns. -/
def returned? : Stmt → Option VarId
  | .ret _ (some (.ident _ v)) => some v
  | _ => none

/-- A branch opens no frame, so the variable is found after it. If the branch is not taken, the use
is reached without the declaration. -/
theorem unframed_undeclared : ∃ q i j v ρ, Passes unframed.check q ∧
    v ∈ (q.function ⟨0⟩).body.declared ∧
    (q.machine 7 true 1 0).Reaches (q.function ⟨0⟩).body
      ((Store.zeros q).activate ((q.function ⟨0⟩).params.zip [.bool false]))
      (.ret i (some (.ident j v))) ρ ∧ ρ.get v = none := by
  have htest : Passes.test unframed.check (fun q =>
      ((q.machine 7 true 1 0).second? (q.function ⟨0⟩).body
        ((Store.zeros q).activate ((q.function ⟨0⟩).params.zip [.bool false]))).any fun r =>
          (returned? r.1).any fun v => v ∈ (q.function ⟨0⟩).body.declared && (r.2.get v).isNone) =
      true := by
    decide +kernel
  obtain ⟨q, hq, htest⟩ := Passes.of_test htest
  obtain ⟨⟨s, ρ⟩, hreached, htest⟩ := (Option.any_eq_true _ _).1 htest
  obtain ⟨v, hv, hnone⟩ := (Option.any_eq_true _ _).1 htest
  simp only [Bool.and_eq_true, decide_eq_true_eq, Option.isNone_iff_eq_none] at hnone
  change returned? s = some v at hv
  unfold returned? at hv
  split at hv
  · cases hv
    exact ⟨q, _, _, v, ρ, hq, hnone.1, .inside (Machine.enters_second hreached) .here, hnone.2⟩
  · cases hv

end SourceUnit

end Shroud
