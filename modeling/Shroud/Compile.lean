import Shroud.Check
import Shroud.Lowering.Contract
import Shroud.Solidity.Printer

/-! # Compilation

From a source unit to contracts on ciphertexts and the circuits that prove what they do.
-/

namespace Shroud

/-- What a source unit compiles to. -/
structure Compilation where
  contracts : List Solidity.Contract := []
  circuits : List Circuit := []

namespace Compilation

def verifiers (c : Compilation) : List String := c.circuits.filterMap Circuit.verifier

/-- The source text of all contracts. -/
def render (c : Compilation) : String :=
  String.intercalate "\n" (c.contracts.map Solidity.Contract.render)

/-- The first circuit of a name. -/
def circuit? (c : Compilation) (function : String) : Option Circuit :=
  c.circuits.find? fun k => k.function == function

end Compilation

namespace Program

/-- Lowers all contracts of a checked program. -/
def lower (p : Program) (s : Settings) : Except Error Compilation := do
  let lowered ← p.contractIds.mapM (Lowering.contract p s)
  return ⟨lowered.map Prod.fst, lowered.flatMap Prod.snd⟩

end Program

/-- Compiles a source unit. -/
def SourceUnit.compile (u : SourceUnit) (s : Settings) : Typing.Check Compilation := do
  match s.validate with
  | .error e => throw (.settings e)
  | .ok () =>
    let p ← u.check
    p.lower s

end Shroud
