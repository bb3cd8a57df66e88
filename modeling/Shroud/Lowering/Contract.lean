import Shroud.Lowering.Function
import Shroud.Solidity.Site

/-! # Lowering contracts

All bodies of a contract are lowered first; then the layout of the shared buffers is known, and the
call sites get their slices.
-/

namespace Shroud.Lowering

mutual

/-- The Solidity form of a state variable's initializer, which needs no proof. -/
def initializer (u : ContractEnv) (e : Expr) : Except Error Solidity.Expr := do
  let unsupported (fault : Unsupported) : Except Error Solidity.Expr :=
    .error (.unsupported fault (u.program.context ⟨none, u.contract⟩ e.span))
  if e.info.inCircuit || e.isPrivate then unsupported .privateInitializer
  else match e with
  | .bool _ b => return .bool b
  | .number _ n => return .number n
  | .me _ => return .sender
  | .ident _ v => return .ident (u.program.varName v) v
  | .builtin _ op args _ => do
    let args ← initializers u args
    return .op op args
  | .index _ base idx => do
    let base ← initializer u base
    let idx ← initializer u idx
    return .index base idx
  | .cast _ t e implicit => do
    let e ← initializer u e
    return if implicit then e else .cast (t.toSolidity u.settings) e
  | .tuple _ es => do
    let es ← initializers u es
    return .tuple es
  | .call _ f args =>
    if (u.function f).facts.isVerifiedOutside then unsupported .provenInitializer
    else do
      let args ← initializers u args
      return .call (u.function f).name args none
  | .reclassify _ _ _ _ => unsupported .provenInitializer

def initializers (u : ContractEnv) (es : List Expr) : Except Error (List Solidity.Expr) := do
  match es with
  | [] => return []
  | e :: es =>
    let e ← initializer u e
    let es ← initializers u es
    return e :: es

end

def stateVar (u : ContractEnv) (v : VarId) : Except Error Solidity.StateVar := do
  let var := u.program.var v
  let init ← match var.init with
    | none => pure none
    | some e => do
      let e ← initializer u e
      pure (some e)
  return ⟨var.type.toSolidity u.settings, var.name, var.isConstant, init⟩

/-! ## Verifiers -/

/-- Adds the verifiers to a constructor, before everything else. -/
def receiveVerifiers (verifiers : List String) (f : Solidity.Function) : Solidity.Function :=
  let instances := verifiers.map fun v => (v, Settings.instanceName v)
  { f with
    params := (instances.map fun (v, i) => ⟨.contract v, "_" ++ i, none⟩) ++ f.params
    body := (instances.map fun (_, i) => .assign (.ident i) (.ident ("_" ++ i))) ++ f.body }

def emptyConstructor : Solidity.Function where
  name := "constructor"
  isConstructor := true
  visibility := .pub
  mutability := .nonPayable

/-- The constructor gets the addresses of the verifiers; without one, there is a new one. -/
def addVerifiers (verifiers : List String) (fs : List Solidity.Function) :
    List Solidity.Function :=
  if verifiers.isEmpty then fs
  else match fs.findIdx? fun f => f.isConstructor with
    | some i => fs.modify i (receiveVerifiers verifiers)
    | none => receiveVerifiers verifiers emptyConstructor :: fs

def importOf (contract : String) : String := contract ++ ".sol"

/-- The instance of the key infrastructure. -/
def pkiInstance (s : Settings) : Solidity.StateVar where
  type := .contract s.pkiName
  name := Settings.instanceName s.pkiName
  isConstant := true
  init := some (.cast (.contract s.pkiName) (.nat 0))

def verifierInstance (verifier : String) : Solidity.StateVar where
  type := .contract verifier
  name := Settings.instanceName verifier

/-! ## Contracts -/

/-- What one function turns into. -/
structure Output where
  functions : List Solidity.Function := []
  structs : List Solidity.Struct := []
  circuits : List Circuit := []
  verifiers : List String := []

def Output.append (a b : Output) : Output where
  functions := a.functions ++ b.functions
  structs := a.structs ++ b.structs
  circuits := a.circuits ++ b.circuits
  verifiers := a.verifiers ++ b.verifiers

/-- The wrapper of a function, if it can be called from outside and needs a proof. -/
def outer (u : ContractEnv) (l : Lowered) (sizes : Frames.Sizes) : Except Error Output := do
  if !(u.function l.id).facts.isVerifiedOutside then return {}
  let (wrapper, circuit) ← u.wrapper l sizes
  return { functions := [wrapper], circuits := [circuit], verifiers := [u.verifier l.id] }

/-- The function with the body. -/
def inner (u : ContractEnv) (l : Lowered) (sizes : Frames.Sizes) : Except Error Output := do
  if !(u.function l.id).facts.isVerified then
    return { functions := [u.plain l.id l.body] }
  let some below := Sorted.find? sizes l.id | throw (.internal .missingCircuit)
  let own := l.circuit.frame
  return {
    functions := [u.internal l below]
    structs := if own.ins + own.outs > 0 then [u.dataStruct l.id l.circuit] else []
    circuits := [u.circuit l.circuit (circuitName u.program u.settings l.id) none below] }

def outputs (u : ContractEnv) (sizes : Frames.Sizes) : List Lowered → Except Error Output
  | [] => return {}
  | l :: ls => do
    let a ← outer u l sizes
    let b ← inner u l sizes
    let rest ← outputs u sizes ls
    return (a.append b).append rest

/-- The frames of all functions with circuits. -/
def frames (u : ContractEnv) (ls : List Lowered) : Frames :=
  (ls.filter fun l => (u.function l.id).facts.isVerified).map fun l => (l.id, l.circuit.frame)

/-- Gives the call sites of a function with a circuit their slices. -/
def patchLowered (u : ContractEnv) (fs : Frames) (sizes : Frames.Sizes) (l : Lowered) :
    Except Error Lowered := do
  if !(u.function l.id).facts.isVerified then return l
  let offsets ← fs.storedOffsets sizes l.id
  let body ← Solidity.patchSites u.settings offsets l.body
  return { l with body }

/-- A contract in public form, with the circuits of its functions. -/
def contract (p : Program) (s : Settings) (c : ContractId) :
    Except Error (Solidity.Contract × List Circuit) := do
  let u := ContractEnv.new p s c
  let source := p.contract c
  if (source.functions.filter fun f => (p.function f).isConstructor).length > 1 then
    throw (.internal (.severalConstructors source.name))
  let ls ← source.functions.mapM (lowerFunction u)
  let fs := frames u ls
  let sizes ← fs.storedSizes
  let ls ← ls.mapM (patchLowered u fs sizes)
  let out ← outputs u sizes ls
  let stateVars ← source.stateVars.mapM (stateVar u)
  let usesKeys := !out.circuits.isEmpty
  let contract : Solidity.Contract := {
    name := source.name
    imports := (if usesKeys then [importOf s.pkiName] else []) ++ out.verifiers.map importOf
    instances := (if usesKeys then [pkiInstance s] else []) ++ out.verifiers.map verifierInstance
    stateVars
    structs := out.structs
    functions := addVerifiers out.verifiers out.functions }
  return (contract, out.circuits)

end Shroud.Lowering
