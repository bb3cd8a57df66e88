import Shroud.Proofs.Lowering.Bodies

/-! # Regimes

A `Regime` is a trace that reads nothing in the code and holds in all contexts: a relation between the
states before and after an action that the actions at the boundary keep to. Then the circuits of all
checked functions are built in the regime.
-/

namespace Shroud.Lowering

open Circuit (Term Wire)
open Solidity (Reading)

/-- What is said about a circuit while it is built. -/
structure Regime (base : Env) where
  /-- The terms that may be used. -/
  term : State → Term → Prop
  /-- What an action does to the state. -/
  rel : State → State → Prop
  refl (σ : State) : rel σ σ
  trans {σ ρ τ : State} : rel σ ρ → rel ρ τ → rel σ τ
  closed (σ : State) {t : Term} : t.wires = [] → term σ t
  op {σ : State} {ts : List Term} (o : Operator) : (∀ t ∈ ts, term σ t) → term σ (.op o ts)
  cast {σ : State} {e : Term} (t : DataType) : term σ e → term σ (.cast t e)
  mono {σ τ : State} {t : Term} : rel σ τ → term σ t → term τ t
  term_steps {σ : State} {t : Term} (steps : List Circuit.Step) :
    term σ t → term { σ with steps } t
  /-- Bookkeeping does not count. -/
  quiet (σ : State) (versions : Versions) (stack called : List FunctionId)
    (pre : List Solidity.Stmt) : rel σ { σ with versions, stack, called, pre }
  comment (σ : State) (text : String) : rel σ { σ with steps := σ.steps ++ [.comment text] }
  call (σ : State) (f : FunctionId) : rel σ { σ with
    calls := σ.calls ++ [f]
    steps := σ.steps ++ [.call (circuitName base.program base.settings f)] }
  temporary {σ τ : State} {t : DataType} {value : Term} {w : Wire} : term σ value →
    Yields (newTemporary t value) σ w τ → rel σ τ ∧ term τ w.term
  version {σ τ : State} {name : String} {t : DataType} {value : Term} {w : Wire} : term σ value →
    Yields (newVersion name t value) σ w τ → rel σ τ ∧ term τ w.term
  input {σ τ : State} {h : Here} {depth : Nat} {t : OwnedType} {text : String}
      {value : Solidity.Expr} {w : Wire} : Sited base.program h → t.type.toAbstract.IsMoved →
    Yields (input (base.placed h depth) t text value) σ w τ → rel σ τ ∧ term τ w.term
  publish {σ τ : State} {h : Here} {depth : Nat} {l : Label} {t : DataType} {plain out : Wire} :
    Sited base.program h → t.fillsSlot = true → term σ plain.term →
    Yields (publish (base.placed h depth) plain l t) σ out τ → rel σ τ
  block {σ τ : State} (name : String) : rel { σ with steps := [] } τ → rel σ { τ with
    steps := if τ.steps.isEmpty then σ.steps else σ.steps ++ [.block name τ.steps] }
  guard {σ τ : State} {cond : Wire} (holds : Bool) : term σ cond.term →
    rel { σ with steps := σ.steps ++ [.enterGuard cond.name holds] } τ →
    rel σ { τ with steps := τ.steps ++ [.leaveGuard] }

/-- A trace that looks for nothing in the code. -/
def Regime.toTrace {base : Env} (T : Regime base) : Trace base (.nothing _) where
  Context := Unit
  term _ := T.term
  stored σ w := T.term σ w.term
  test _ σ _ w := T.term σ w.term
  branches := True
  callable _ := True
  rel _ σ _ τ _ := T.rel σ τ
  refl _ := T.refl
  trans := T.trans
  perm h _ := h
  closed _ := T.closed
  op := T.op
  cast := T.cast
  of_stored _ h := h
  mono := T.mono
  stored_mono := T.mono
  test_mono := T.mono
  term_steps := T.term_steps
  stored_steps := T.term_steps
  quiet _ σ versions stack := T.quiet σ versions stack σ.called
  comment _ := T.comment
  note _ σ {f} _ _ := T.quiet σ σ.versions σ.stack (σ.called ++ [f]) σ.pre
  call _ σ {f} _ _ := T.trans (T.quiet σ σ.versions σ.stack (σ.called ++ [f]) σ.pre) (T.call _ f)
  temporary hv h := by
    obtain ⟨hr, hw⟩ := T.temporary hv h
    exact ⟨(), hr, hw, fun _ _ _ => hw⟩
  version hv h := ⟨(), T.version hv h⟩
  input hp ht h := by
    obtain ⟨-, -, x, hpre⟩ := input_frame h
    obtain ⟨hr, hw⟩ := T.input hp ht h
    exact ⟨(), x, hpre, hr, hw, fun _ => hw⟩
  publish hp ht hv h := by
    obtain ⟨pre, hpre, -⟩ := (publish_frame h).pre
    exact ⟨(), pre, hpre, T.publish hp ht hv h⟩
  block := T.block
  guard := T.guard
  branch holds _ := T.guard holds
  reread {_ σ _ _} _ := T.refl σ

/-- A regime for the circuit of a function. -/
abbrev ContractEnv.Regime (u : ContractEnv) (f : FunctionId) : Type :=
  Lowering.Regime (Env.within u.program u.settings u.owners f)

/-- The circuit of a checked function is built in the regime. -/
theorem lowerFunction_rel {unit : SourceUnit} {u : ContractEnv} (h : Passes unit.check u.program)
    {f : FunctionId} {l : Lowered} (hl : lowerFunction u f = .ok l) (T : u.Regime f) :
    T.rel (State.new u.settings) l.circuit := by
  obtain ⟨_, hr⟩ := lowerFunction_traced h T.toTrace (fun _ _ => trivial) (fun _ _ _ => trivial)
    (fun _ _ _ _ _ _ _ => trivial) hl ()
  exact hr

end Shroud.Lowering
