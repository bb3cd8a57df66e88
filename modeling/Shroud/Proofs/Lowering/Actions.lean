import Mathlib
import Shroud.Lowering.Contract
import Shroud.Proofs.Success

/-! # The actions of lowering

What each action on a circuit under construction, such as `emit`, `guarded` and `inBlock`, does to its
`State`, stated as equivalences of `Yields`. Later proofs take these statements and do not open the
actions again. The actions at the boundary are left to `Boundary`.
-/

namespace Shroud.Lowering

variable {α : Type} {σ τ : State} {a : α} {x : Lower α} {u : Unit} {w : Circuit.Wire}
  {f : FunctionId}

@[simp] theorem emit_iff {step : Circuit.Step} :
    Yields (emit step) σ u τ ↔ τ = { σ with steps := σ.steps ++ [step] } := Yields.modify_iff

@[simp] theorem addPre_iff {stmt : Solidity.Stmt} :
    Yields (addPre stmt) σ u τ ↔ τ = { σ with pre := σ.pre ++ [stmt] } := Yields.modify_iff

@[simp] theorem noteSealed_iff {env : Env} {cipher key : Circuit.Wire} {l : Label} :
    Yields (noteSealed env cipher key l) σ u τ ↔
      τ = { σ with sealed := σ.sealed ++ [⟨cipher, key, l, env.here⟩] } := Yields.modify_iff

@[simp] theorem noteCall_iff :
    Yields (noteCall f) σ u τ ↔ τ = { σ with called := σ.called ++ [f] } := Yields.modify_iff

@[simp] theorem callCircuit_iff {p : Program} {s : Settings} :
    Yields (callCircuit p s f) σ u τ ↔ τ = { σ with
      calls := σ.calls ++ [f], steps := σ.steps ++ [.call (circuitName p s f)] } := by
  simp [callCircuit]

/-- The steps of an action in a block follow those before it. -/
theorem inBlock_iff {name : String} : Yields (inBlock name x) σ a τ ↔
    ∃ ρ, Yields x { σ with steps := [] } a ρ ∧ τ = { ρ with steps :=
      if ρ.steps.isEmpty then σ.steps else σ.steps ++ [.block name ρ.steps] } := by
  simp only [inBlock, Yields.bind_iff, Yields.get_iff, Yields.modify_iff, Yields.pure_iff]
  constructor
  · rintro ⟨_, _, ⟨rfl, rfl⟩, _, _, rfl, _, ρ, hx, _, _, rfl, rfl, rfl⟩
    exact ⟨ρ, hx, rfl⟩
  · rintro ⟨ρ, hx, rfl⟩
    exact ⟨_, _, ⟨rfl, rfl⟩, ⟨⟩, _, rfl, _, ρ, hx, ⟨⟩, _, rfl, rfl, rfl⟩

/-- The steps of a guarded action stand between the marks of its guard. -/
theorem guarded_iff {cond : Circuit.Wire} {holds : Bool} : Yields (guarded cond holds x) σ a τ ↔
    ∃ ρ, Yields x { σ with steps := σ.steps ++ [.enterGuard cond.name holds] } a ρ ∧
      τ = { ρ with steps := ρ.steps ++ [.leaveGuard] } := by
  simp only [guarded, Yields.bind_iff, emit_iff, Yields.pure_iff]
  constructor
  · rintro ⟨_, _, rfl, _, ρ, hx, _, _, rfl, rfl, rfl⟩
    exact ⟨ρ, hx, rfl⟩
  · rintro ⟨ρ, hx, rfl⟩
    exact ⟨⟨⟩, _, rfl, _, ρ, hx, ⟨⟩, _, rfl, rfl, rfl⟩

/-- What an action puts before the statement becomes part of the value. -/
theorem takePre_iff {r : α × List Solidity.Stmt} : Yields (takePre x) σ r τ ↔
    ∃ ρ, Yields x { σ with pre := [] } r.1 ρ ∧ r.2 = ρ.pre ∧ τ = { ρ with pre := σ.pre } := by
  simp only [takePre, Yields.bind_iff, Yields.get_iff, Yields.modify_iff, Yields.pure_iff]
  constructor
  · rintro ⟨_, _, ⟨rfl, rfl⟩, _, _, rfl, _, _, hx, _, _, ⟨rfl, rfl⟩, _, _, rfl, rfl, rfl⟩
    exact ⟨_, hx, rfl, rfl⟩
  · rintro ⟨ρ, hx, hr, rfl⟩
    exact ⟨_, _, ⟨rfl, rfl⟩, ⟨⟩, _, rfl, _, ρ, hx, _, _, ⟨rfl, rfl⟩, ⟨⟩, _, rfl, Prod.ext rfl hr,
      rfl⟩

end Shroud.Lowering
