import Shroud.Alias
import Shroud.FinalRule
import Shroud.Placement
import Shroud.Scope
import Shroud.Typing.Program

/-! # Checked programs

All analyses of a source unit, one after another.
-/

namespace Shroud

/-- The last analysis to run. -/
inductive Stage where
  | names
  | effects
  | aliases
  | finals
  | types
  | placement
deriving DecidableEq, Repr, Inhabited

namespace Stage

def rank : Stage → Nat
  | names => 0
  | effects => 1
  | aliases => 2
  | finals => 3
  | types => 4
  | placement => 5

/-- Whether an analysis runs if a stage is the last. -/
def includes (last stage : Stage) : Bool := stage.rank ≤ last.rank

end Stage

namespace SourceUnit

/-- Runs the analyses up to a stage. The types can be checked twice. -/
def checkUpTo (u : SourceUnit) (last : Stage) (again : Bool) : Typing.Check Program := do
  let p ← u.resolve
  if !last.includes .effects then return p
  let p := p.withEffects
  if !last.includes .aliases then return p
  let p := p.withAliases
  if !last.includes .finals then return p
  p.checkFinal
  if !last.includes .types then return p
  let p ← p.withTypes
  let p ← if again then p.withTypes else pure p
  if !last.includes .placement then return p
  p.withPlacement

/-- Runs all analyses. -/
def check (u : SourceUnit) : Typing.Check Program := u.checkUpTo .placement false

end SourceUnit

end Shroud
