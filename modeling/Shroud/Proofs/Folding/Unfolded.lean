import Mathlib
import Shroud.Lowering.Contract

/-! # What does not depend on folding

Apart from the terms of circuits, nothing that is generated depends on whether constants are folded:
the types and sizes of what crosses the boundary, the slices of calls, and the initializers of state.
-/

namespace Shroud

/-- The settings without folding. -/
def Settings.unfolded (s : Settings) : Settings := { s with foldsConstants := false }

-- None of these definitions reads whether constants are folded, so both sides unfold to the same term.

theorem DataType.toSolidity_unfolded (s : Settings) (t : DataType) :
    t.toSolidity s.unfolded = t.toSolidity s := by
  delta DataType.toSolidity
  rfl

theorem OwnedType.toSolidity_unfolded (s : Settings) (t : OwnedType) :
    t.toSolidity s.unfolded = t.toSolidity s := by
  delta OwnedType.toSolidity
  rfl

theorem DataType.words_unfolded (s : Settings) (t : DataType) : t.words s.unfolded = t.words s := by
  delta DataType.words
  rfl

/-! ## Streams -/

namespace Circuit.Stream

def unfolded (t : Stream) : Stream := { t with settings := t.settings.unfolded }

@[simp] theorem size_unfolded (t : Stream) : t.unfolded.size = t.size := by
  have hwords : ∀ ws, wordsOf t.settings.unfolded ws = wordsOf t.settings ws := by
    intro ws
    induction ws with
    | nil => rfl
    | cons w ws ih => rw [wordsOf, wordsOf, ih, DataType.words_unfolded]
  exact hwords t.wires

@[simp] theorem layout_unfolded (t : Stream) : t.unfolded.layout = t.layout := by
  have hslots : ∀ ws offset, layoutFrom t.settings.unfolded offset ws =
      layoutFrom t.settings offset ws := by
    intro ws
    induction ws with
    | nil => exact fun _ => rfl
    | cons w ws ih =>
      intro offset
      simp only [layoutFrom, DataType.words_unfolded, ih]
  exact hslots t.wires 0

end Circuit.Stream

/-! ## Call sites -/

namespace Solidity

theorem Expr.patch_unfolded (s : Settings) (offsets : List (Nat × Nat)) :
    Expr.patch s.unfolded offsets = Expr.patch s offsets := by
  delta Expr.patch
  rfl

-- Statements are patched by one recursion, whose steps read the settings through expressions only.
theorem Stmt.patchList_unfolded (s : Settings) (offsets : List (Nat × Nat)) (body : List Stmt) :
    Stmt.patchList s.unfolded offsets body = Stmt.patchList s offsets body := by
  delta Stmt.patchList Stmt.patch._f Stmt.patchList._f Stmt.patchElse._f Stmt.patchOption._f
  rw [Expr.patch_unfolded]

theorem patchSites_unfolded (s : Settings) (offsets : List (Nat × Nat)) (body : List Stmt) :
    patchSites s.unfolded offsets body = patchSites s offsets body := by
  rw [patchSites, patchSites, Stmt.patchList_unfolded]

end Solidity

/-! ## Contracts -/

namespace Lowering

def ContractEnv.unfolded (u : ContractEnv) : ContractEnv :=
  { u with settings := u.settings.unfolded }

mutual

theorem initializer_unfolded (u : ContractEnv) :
    ∀ e : Expr, initializer u.unfolded e = initializer u e
  | .builtin _ _ args _ | .call _ _ args => by
    rw [initializer, initializer, initializers_unfolded u args]
    rfl
  | .index _ base idx => by
    rw [initializer, initializer, initializer_unfolded u base, initializer_unfolded u idx]
    rfl
  | .cast _ t e _ => by
    rw [initializer, initializer, initializer_unfolded u e,
      show u.unfolded.settings = u.settings.unfolded from rfl, DataType.toSolidity_unfolded]
    rfl
  | .tuple _ es => by
    rw [initializer, initializer, initializers_unfolded u es]
    rfl
  | .bool _ _ | .number _ _ | .me _ | .ident _ _ | .reclassify _ _ _ _ => by
    rw [initializer, initializer]
    rfl

theorem initializers_unfolded (u : ContractEnv) :
    ∀ es : List Expr, initializers u.unfolded es = initializers u es
  | [] => by rw [initializers, initializers]
  | e :: es => by
    rw [initializers, initializers, initializer_unfolded u e, initializers_unfolded u es]

end

theorem stateVar_unfolded (u : ContractEnv) (v : VarId) : stateVar u.unfolded v = stateVar u v := by
  unfold stateVar
  simp only [initializer_unfolded, show u.unfolded.settings = u.settings.unfolded from rfl,
    show u.unfolded.program = u.program from rfl, OwnedType.toSolidity_unfolded]

namespace ContractEnv

variable (u : ContractEnv)

theorem param_unfolded (location : Solidity.Location) :
    u.unfolded.param location = u.param location := by
  funext v
  simp only [param, show u.unfolded.settings = u.settings.unfolded from rfl,
    show u.unfolded.program = u.program from rfl, OwnedType.toSolidity_unfolded]

theorem returns_unfolded (f : FunctionId) : u.unfolded.returns f = u.returns f :=
  List.map_congr_left fun t _ => t.toSolidity_unfolded u.settings

theorem returnDecls_unfolded (f : FunctionId) : u.unfolded.returnDecls f = u.returnDecls f := by
  rw [returnDecls, returnDecls, returns_unfolded]
  rfl

theorem plain_unfolded (f : FunctionId) (body : List Solidity.Stmt) :
    u.unfolded.plain f body = u.plain f body := by
  rw [plain, plain, param_unfolded, returns_unfolded]
  rfl

end ContractEnv

end Lowering

end Shroud
