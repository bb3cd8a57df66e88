import Shroud.Circuit.Basic
import Shroud.Lowering.Stmt
import Shroud.Lowering.Words

/-! # Lowering functions

A function without private work stays as it is. One with a circuit keeps its body in a function
that gets slices of the shared buffers: it reads the circuit's outputs first and writes the inputs
last. One that can be called from outside gets a wrapper, which takes the outputs and a proof,
fills in encrypted parameters and keys, calls the body and has the proof verified.
-/

namespace Shroud.Lowering

/-- What all functions of a contract share. -/
structure ContractEnv where
  program : Program
  settings : Settings
  contract : ContractId
  /-- `me` and the public addresses that never change. -/
  owners : List Label

/-- The owners whose keys can be looked up once. -/
def fixedOwners (p : Program) (c : ContractId) : List Label :=
  .me :: ((p.contract c).stateVars.filter fun v =>
    let var := p.var v
    var.isFixed && var.type.type.isAddress && !var.type.isPrivate).map Label.var

def ContractEnv.new (p : Program) (s : Settings) (c : ContractId) : ContractEnv := ⟨p, s, c, fixedOwners p c⟩

/-- A function's body in public form, with its circuit. -/
structure Lowered where
  id : FunctionId
  circuit : State
  body : List Solidity.Stmt

def lowerFunction (u : ContractEnv) (f : FunctionId) : Except Error Lowered := do
  let env := Env.ofFunction u.program u.settings u.owners f
  let (body, circuit) ← (functionBody env).run (State.new u.settings)
  return ⟨f, circuit, body⟩

namespace ContractEnv

def function (u : ContractEnv) (f : FunctionId) : Function := u.program.function f

def contractName (u : ContractEnv) : String := (u.program.contract u.contract).name

def param (u : ContractEnv) (location : Solidity.Location) (v : VarId) : Solidity.Param :=
  let var := u.program.var v
  let t := var.type.toSolidity u.settings
  ⟨t, var.name, if t.isReference then some location else none⟩

def returns (u : ContractEnv) (f : FunctionId) : List Solidity.DataType :=
  (u.function f).returns.map fun t => t.toSolidity u.settings

/-- Declares the variables for returned values. -/
def returnDecls (u : ContractEnv) (f : FunctionId) : List Solidity.Stmt :=
  (u.returns f).mapIdx fun i t =>
    .decl t (u.settings.returnVar i) (if t.isReference then some .memory else none) none

/-- The returned values, if there are any. -/
def returnExpr? (u : ContractEnv) (f : FunctionId) : Option Solidity.Expr :=
  if (u.function f).returns.isEmpty then none
  else some (returnTargets u.settings (u.function f).returns.length)

def returnStmts (u : ContractEnv) (f : FunctionId) : List Solidity.Stmt :=
  match u.returnExpr? f with
  | none => []
  | some e => [.ret (some e)]

/-- The function with the body. -/
def bodyName (u : ContractEnv) (f : FunctionId) : String :=
  let fn := u.function f
  if fn.facts.isVerifiedOutside then u.settings.internalName fn.name else fn.name

/-- Functions that only other functions call receive no ether. -/
def internalMutability : Mutability → Mutability
  | .payable => .nonPayable
  | m => m

/-- A function without a circuit, perhaps behind a wrapper. -/
def plain (u : ContractEnv) (f : FunctionId) (body : List Solidity.Stmt) : Solidity.Function :=
  let fn := u.function f
  let isSplit := fn.facts.isVerifiedOutside
  { name := u.bodyName f
    isConstructor := fn.isConstructor && !isSplit
    visibility := if isSplit then .internal else fn.visibility
    mutability := if isSplit then internalMutability fn.mutability else fn.mutability
    params := fn.params.map (u.param .memory)
    returns := u.returns f
    body }

/-! ## Functions with circuits -/

/-- The fields of a circuit's data: outputs, then inputs. -/
def dataStruct (u : ContractEnv) (f : FunctionId) (c : State) : Solidity.Struct where
  name := u.settings.dataStructName (u.function f).uniqueName
  fields := (c.outputs.layout ++ c.inputs.layout).map fun slot =>
    (slot.type.toSolidity u.settings, slot.name)

/-- The slice of so many words lies inside a buffer. -/
def fits (start : Solidity.Expr) (len : Nat) (buffer : Solidity.Expr) : Solidity.Stmt :=
  .require (.op .le [.op .add [start, .nat (Count.kept len)], .member buffer "length"])

/-- A function whose circuit works on slices of the shared buffers. -/
def internal (u : ContractEnv) (l : Lowered) (below : Callees) : Solidity.Function :=
  let s := u.settings
  let fn := u.function l.id
  let isSplit := fn.facts.isVerifiedOutside
  let own := l.circuit.frame
  let ins := Solidity.Expr.ident s.inName
  let outs := Solidity.Expr.ident s.outName
  let inStart := Solidity.Expr.ident s.inStart
  let outStart := Solidity.Expr.ident s.outStart
  let member (slot : Circuit.Slot) : Solidity.Expr := .member (.ident s.dataName) slot.name
  let data : List Solidity.Stmt :=
    if own.ins + own.outs > 0 then
      [.decl (.struct (s.dataStructName fn.uniqueName)) s.dataName (some .memory) none]
    else []
  { name :=
      if isSplit && fn.isConstructor then s.internalName "constructor" else u.bodyName l.id
    visibility := if isSplit then .internal else fn.visibility
    mutability := internalMutability fn.mutability
    params := fn.params.map (u.param .memory) ++
      [⟨.words none, s.inName, some .memory⟩, ⟨.uint 256, s.inStart, none⟩,
        ⟨.words none, s.outName, some .memory⟩, ⟨.uint 256, s.outStart, none⟩]
    returns := u.returns l.id
    body :=
      [fits inStart (own.ins + below.ins) ins, fits outStart (own.outs + below.outs) outs] ++ data ++
      u.returnDecls l.id ++
      (l.circuit.outputs.layout.flatMap fun slot =>
        readSlot slot (word outs outStart) (member slot)) ++
      l.body ++
      (l.circuit.inputs.layout.flatMap fun slot =>
        writeSlot slot (word ins inStart) (member slot)) ++
      u.returnStmts l.id }

/-- The finished circuit, given what its callees add. -/
def circuit (u : ContractEnv) (c : State) (function : String) (verifier : Option String)
    (below : Callees) : Circuit where
  contract := u.contractName
  function := function
  verifier := verifier
  steps := c.steps
  secrets := c.secrets.layout
  inputs := c.inputs.layout
  outputs := c.outputs.layout
  secretSize := c.secrets.size
  inSize := c.inputs.size
  outSize := c.outputs.size
  calleeSecretSize := below.secrets
  calleeInSize := below.ins
  calleeOutSize := below.outs
  keys := below.keys.map (keyName u.program)
  calls := c.calls.map (circuitName u.program u.settings)
  usesHash :=
    u.settings.usesHash (Count.kept (c.inputs.size + below.ins + (c.outputs.size + below.outs)))

/-! ## Wrappers -/

/-- Proves that an encrypted parameter is encrypted under the sender's key. -/
def encryptParam (u : ContractEnv) (env : Env) (v : VarId) : Lower Circuit.Wire := do
  let var := u.program.var v
  let plain ← newSecretAs var.name var.type.type.toAbstract
  let cipher ← newInputFor var.name .cipher
  encrypted env plain.name plain .me cipher false
  return cipher

def encryptParams (u : ContractEnv) (env : Env) : List VarId → Lower (List (VarId × Circuit.Wire))
  | [] => return []
  | v :: vs => do
    let w ← u.encryptParam env v
    let ws ← u.encryptParams env vs
    return (v, w) :: ws

/-- Makes an input for every key that is looked up once. -/
def inputKeys (u : ContractEnv) : List Label → Lower (List (Label × Circuit.Wire))
  | [] => return []
  | l :: ls => do
    let w ← newInputAs (keyName u.program l) .key
    let ws ← u.inputKeys ls
    return (l, w) :: ws

/-- The circuit of a wrapper: parameters, keys, and the circuit of the body if it has one. -/
def wrapperCircuit (u : ContractEnv) (f : FunctionId) (keys : List Label) :
    Lower (List (VarId × Circuit.Wire) × List (Label × Circuit.Wire)) := do
  let env := Env.ofFunction u.program u.settings u.owners f
  modify fun s => { s with keys }
  let params ← u.encryptParams env
    ((u.function f).params.filter fun v => (u.program.var v).type.isPrivate)
  let keys ← u.inputKeys (← get).keys
  if (u.function f).facts.isVerified then callCircuit u.program u.settings f
  return (params, keys)

/-- Where an input's words start. -/
def offsetOf (layout : List Circuit.Slot) (name : String) : Except Error Nat :=
  match layout.find? fun slot => slot.name == name with
  | some slot => .ok slot.offset
  | none => .error (.internal (.noInputSlot name))

/-- Copies a buffer into the words of an input. -/
def copyIn (u : ContractEnv) (offset len : Nat) (buffer : Solidity.Expr) : List Solidity.Stmt :=
  (List.range len).map fun i =>
    .assign (.index (.ident u.settings.inName) (.nat (offset + i))) (.index buffer (.nat i))

def copyParam (u : ContractEnv) (layout : List Circuit.Slot) (entry : VarId × Circuit.Wire) :
    Except Error (List Solidity.Stmt) := do
  let name := u.program.varName entry.1
  let offset ← offsetOf layout entry.2.name
  return .comment ("Encrypted parameter " ++ name) ::
    u.copyIn offset u.settings.sizes.cipherLen (.ident name entry.1)

/-- The address of an owner. -/
def ownerExpr (u : ContractEnv) : Label → Except Error Solidity.Expr
  | .me => .ok .sender
  | .var v => .ok (.ident (u.program.varName v) v)
  | .all => .error (.internal .globalKeyOfAll)

def keyVar : String := "_tmp_key"

def copyKey (u : ContractEnv) (layout : List Circuit.Slot) (entry : Label × Circuit.Wire) :
    Except Error (List Solidity.Stmt) := do
  let owner ← u.ownerExpr entry.1
  let offset ← offsetOf layout entry.2.name
  return .assign (.ident keyVar) (.method (pki u.settings) "getPk" [owner]) ::
    u.copyIn offset u.settings.sizes.keyLen (.ident keyVar)

def copyKeys (u : ContractEnv) (layout : List Circuit.Slot) (keys : List (Label × Circuit.Wire)) :
    Except Error (List Solidity.Stmt) := do
  if keys.isEmpty then return []
  let copies ← keys.mapM (u.copyKey layout)
  return .decl (.key u.settings.sizes.keyLen) keyVar (some .memory) none :: copies.flatten

/-- The call of the body, with its slices if it has a circuit. -/
def bodyCall (u : ContractEnv) (f : FunctionId) (ins outs : Nat) : Solidity.Expr :=
  let s := u.settings
  let fn := u.function f
  let name := if fn.isConstructor then s.internalName "constructor" else u.bodyName f
  let slices : List Solidity.Expr :=
    if fn.facts.isVerified then [.ident s.inName, .nat ins, .ident s.outName, .nat outs] else []
  .call name ((fn.params.map fun v => .ident (u.program.varName v) v) ++ slices) none

/-- The name of the contract that verifies proofs for a function. -/
def verifier (u : ContractEnv) (f : FunctionId) : String :=
  Settings.verifierName u.contractName (u.function f).uniqueName

/-- What a call of the body adds to the wrapper's circuit. -/
def bodyFrame (u : ContractEnv) (l : Lowered) (sizes : Frames.Sizes) : Except Error Callees := do
  if !(u.function l.id).facts.isVerified then return {}
  let some below := Sorted.find? sizes l.id | throw (.internal .missingCircuit)
  let own := l.circuit.frame
  return (Callees.mk (own.ins + below.ins) (own.outs + below.outs) (own.secrets + below.secrets)
    below.keys).stored

/-- The wrapper of a function that is called from outside, and the circuit of its proof. -/
def wrapper (u : ContractEnv) (l : Lowered) (sizes : Frames.Sizes) :
    Except Error (Solidity.Function × Circuit) := do
  let s := u.settings
  let f := l.id
  let fn := u.function f
  let body ← u.bodyFrame l sizes
  let ((params, keys), c) ← (u.wrapperCircuit f body.keys).run (State.new s)
  let ins := Solidity.Expr.ident s.inName
  let outs := Solidity.Expr.ident s.outName
  let layout := c.inputs.layout
  let copiedParams ← params.mapM (u.copyParam layout)
  let copiedKeys ← u.copyKeys layout keys
  let call := u.bodyCall f c.inputs.size c.outputs.size
  let location : Solidity.Location := if fn.isConstructor then .memory else .calldata
  let wrapper : Solidity.Function := {
    name := fn.name
    isConstructor := fn.isConstructor
    visibility := fn.visibility
    mutability := fn.mutability
    params := fn.params.map (u.param location) ++
      [⟨.words none, s.outName, some location⟩,
        ⟨.proof s.scheme.proofLen, s.proofName, some location⟩]
    returns := u.returns f
    body :=
      [.require (.op .eq [.member outs "length", .nat (Count.kept (c.outputs.size + body.outs))]),
        .decl (.words none) s.inName (some .memory)
          (some (.newWords (.nat (Count.kept (c.inputs.size + body.ins)))))] ++
      copiedParams.flatten ++ copiedKeys ++ u.returnDecls f ++
      [match u.returnExpr? f with
        | some e => .assign e call
        | none => .expr call,
        .expr (.method (.ident (Settings.instanceName (u.verifier f))) s.verifyName
          [.ident s.proofName, ins, outs])] ++
      u.returnStmts f }
  return (wrapper, u.circuit c fn.uniqueName (some (u.verifier f)) { body with keys := c.keys })

end ContractEnv

end Shroud.Lowering
