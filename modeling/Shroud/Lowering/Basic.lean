import Shroud.Bindings
import Shroud.Circuit.Stream
import Shroud.Effects
import Shroud.Frame
import Shroud.Program.Text
import Shroud.Solidity.Basic

/-! # Building a circuit

The state of one function's circuit while the function's body is lowered, and the ways in which
values cross the boundary. A value moves in as an input, a private one with a proof that it was
decrypted correctly; it moves out in the open, or encrypted for its new owner.
-/

namespace Shroud.Lowering

/-- The names that have versions inside a circuit. -/
inductive Key where
  | var (v : VarId)
  /-- A value that a function returns to the place where it is held. -/
  | ret (f : FunctionId) (i : Nat)
deriving DecidableEq, Repr, Inhabited

namespace Key

/-- Variables come first, then returned values function by function. -/
def cmp : Key → Key → Ordering
  | var v, var w => compare v w
  | var _, ret _ _ => .lt
  | ret _ _, var _ => .gt
  | ret f i, ret g j => (compare f g).then (compare i j)

instance : Ord Key := ⟨cmp⟩

end Key

abbrev Versions := Bindings Key Circuit.Wire

/-- The statement around the code that is being lowered. -/
structure Here where
  function : FunctionId
  span : Span
  before? : Option (Partition Label) := none

/-- A ciphertext with the key that it is under: the owner that it is for, and the statement that it
belongs to. -/
structure Sealed where
  cipher : Circuit.Wire
  key : Circuit.Wire
  owner : Label
  here : Here

/-- A circuit under construction. -/
structure State where
  steps : List Circuit.Step := []
  secrets : Circuit.Stream
  temporaries : Circuit.Stream
  inputs : Circuit.Stream
  outputs : Circuit.Stream
  /-- The owners whose keys are looked up once. -/
  keys : List Label := []
  /-- Called functions with circuits of their own, once for each call site. -/
  calls : List FunctionId := []
  versions : Versions := {}
  /-- What the public contract does before the statement that is being lowered. -/
  pre : List Solidity.Stmt := []
  /-- The functions that are held in the places of their calls, the innermost first. -/
  stack : List FunctionId := []
  /-- The ciphertexts, in the order of their constraints. -/
  sealed : List Sealed := []
  /-- The functions that the public contract calls, once for each call. -/
  called : List FunctionId := []

def State.new (s : Settings) : State where
  secrets := ⟨"secret", .secret, s, []⟩
  temporaries := ⟨"tmp", .temporary, s, []⟩
  inputs := ⟨s.inName, .boundary, s, []⟩
  outputs := ⟨s.outName, .boundary, s, []⟩

abbrev Lower := StateT State (Except Error)

/-- What is fixed while code is lowered. -/
structure Env where
  program : Program
  settings : Settings
  /-- The function whose body is lowered. -/
  function : FunctionId
  /-- `me` and the public addresses that never change. -/
  owners : List Label
  here : Here
  /-- Holds the body of a function in the place of a call, given the arguments. -/
  inline : FunctionId → List Circuit.Term → Lower (List Circuit.Term)

namespace Env

/-- The environment of a statement of the same function. -/
def inStmt (env : Env) (s : Stmt) : Env :=
  { env with here := { env.here with span := s.span, before? := s.before? } }

def context (env : Env) (span : Span) : Context :=
  env.program.functionContext env.here.function span

def unsupported (env : Env) (fault : Unsupported) (span : Span) : Error :=
  .unsupported fault (env.context span)

/-- The field of the circuit's data with the value of a boundary variable. -/
def member (env : Env) (w : Circuit.Wire) : Solidity.Expr :=
  .member (.ident env.settings.dataName) w.name

end Env

/-- The input with the key of an owner that is looked up once. -/
def keyName (p : Program) (l : Label) : String := "glob_key_" ++ p.describeLabel l

/-- The instance of the contract that knows all keys. -/
def pki (s : Settings) : Solidity.Expr := .ident (Settings.instanceName s.pkiName)

/-! ## Steps -/

def emit (step : Circuit.Step) : Lower Unit := modify fun s => { s with steps := s.steps ++ [step] }

def comment (text : String) : Lower Unit := emit (.comment text)

/-- Collects the steps of an action in a block, if there are any. -/
def inBlock {α : Type} (name : String) (act : Lower α) : Lower α := do
  let outer := (← get).steps
  modify fun s => { s with steps := [] }
  let a ← act
  modify fun s => { s with steps :=
    if s.steps.isEmpty then outer else outer ++ [.block name s.steps] }
  return a

/-- The steps of an action hold only if a condition has the given value. -/
def guarded {α : Type} (cond : Circuit.Wire) (holds : Bool) (act : Lower α) : Lower α := do
  emit (.enterGuard cond.name holds)
  let a ← act
  emit .leaveGuard
  return a

/-- Collects what the public contract has to do before an action's result is used. -/
def takePre {α : Type} (act : Lower α) : Lower (α × List Solidity.Stmt) := do
  let outer := (← get).pre
  modify fun s => { s with pre := [] }
  let a ← act
  let inner := (← get).pre
  modify fun s => { s with pre := outer }
  return (a, inner)

def addPre (s : Solidity.Stmt) : Lower Unit := modify fun st => { st with pre := st.pre ++ [s] }

/-! ## Variables -/

def newSecret (t : DataType) : Lower Circuit.Wire := modifyGet fun s =>
  let (w, secrets) := s.secrets.issue t none
  (w, { s with secrets })

def newSecretAs (name : String) (t : DataType) : Lower Circuit.Wire := modifyGet fun s =>
  let (w, secrets) := s.secrets.issueAs name t
  (w, { s with secrets })

def newInput (t : DataType) (origin : Option Circuit.Term) : Lower Circuit.Wire := modifyGet fun s =>
  let (w, inputs) := s.inputs.issue t origin
  (w, { s with inputs })

def newInputAs (name : String) (t : DataType) : Lower Circuit.Wire := modifyGet fun s =>
  let (w, inputs) := s.inputs.issueAs name t
  (w, { s with inputs })

/-- An input whose generated name ends with a given one. -/
def newInputFor (name : String) (t : DataType) : Lower Circuit.Wire := do
  newInputAs ((← get).inputs.nextName t ++ "_" ++ name) t

def newOutput (t : DataType) (origin : Option Circuit.Term) : Lower Circuit.Wire :=
  modifyGet fun s =>
    let (w, outputs) := s.outputs.issue t origin
    (w, { s with outputs })

/-- A temporary with the value of a private expression, and a record of where it comes from. -/
def newTemporary (t : DataType) (value : Circuit.Term) : Lower Circuit.Wire := do
  let w ← modifyGet fun s =>
    let (w, temporaries) := s.temporaries.issue t none
    (w, { s with temporaries := temporaries.setOrigin w.name value })
  emit (.declare w value)
  return { w with origin := some value }

/-- A new version of something with a name. -/
def newVersion (name : String) (t : DataType) (value : Circuit.Term) : Lower Circuit.Wire := do
  let w ← modifyGet fun s =>
    let (w, temporaries) := s.temporaries.issueAs (s.temporaries.nextName t ++ "_" ++ name) t
    (w, { s with temporaries })
  emit (.assign w value)
  return w

def bindVersion (k : Key) (w : Circuit.Wire) : Lower Unit :=
  modify fun s => { s with versions := s.versions.bind k w }

/-- A new version of a variable. -/
def assignVar (env : Env) (v : VarId) (value : Circuit.Term) : Lower Unit := do
  let var := env.program.var v
  let w ← newVersion var.name var.type.type.toAbstract value
  bindVersion (.var v) w

/-! ## Keys -/

/-- A fixed owner that is known to be the same party here, or the label itself. -/
def canonical (env : Env) (l : Label) : Label :=
  if env.owners.contains l then l
  else ((env.here.before?.bind fun s => env.owners.find? fun o => s.same o l)).getD l

/-- The variable with the public key of an owner. The key of a fixed owner is one input of the
whole proof; that of any other has an input of its own, which the contract looks up. -/
def publicKey (env : Env) (l : Label) : Lower Circuit.Wire := do
  let l := canonical env l
  if env.owners.contains l then
    modify fun s => { s with keys := if s.keys.contains l then s.keys else s.keys ++ [l] }
    return ⟨keyName env.program l, .key, .boundary, none⟩
  let .var v := l | throw (.internal .keyOfAll)
  let name := env.program.varName v
  if !env.program.isState v && !(← get).stack.isEmpty then
    throw (env.unsupported (.inlinedEncryption name) env.here.span)
  let w ← newInputFor name .key
  addPre (.assign (env.member w) (.method (pki env.settings) "getPk" [.ident name v]))
  return w

/-- Notes the owner that a ciphertext is for, and where it belongs. -/
def noteSealed (env : Env) (cipher key : Circuit.Wire) (l : Label) : Lower Unit :=
  modify fun s => { s with sealed := s.sealed ++ [⟨cipher, key, l, env.here⟩] }

/-- Links a plaintext and a ciphertext under the key of an owner, with randomness of a given
name. -/
def encrypted (env : Env) (randomness : String) (plain : Circuit.Wire) (l : Label)
    (cipher : Circuit.Wire) (isDecryption : Bool) : Lower Unit := do
  let r ← newSecretAs (randomness ++ "_R") .randomness
  let k ← publicKey env l
  emit (.encryption plain r k cipher isDecryption)
  noteSealed env cipher k l

/-! ## Moving values in -/

/-- Moves the value of a location in, as the public contract has it, and gives the variable with
the plaintext. -/
def input (env : Env) (t : OwnedType) (text : String) (value : Solidity.Expr) :
    Lower Circuit.Wire := do
  let data := t.type.toAbstract
  if t.isPrivate then
    let plain ← newSecret data
    let cipher ← newInput .cipher (some plain.term)
    encrypted env cipher.name plain .me cipher true
    comment (cipher.name ++ " (dec: " ++ plain.name ++ ") = " ++ text)
    addPre (.assign (env.member cipher) value)
    return plain
  let w ← newInput data none
  comment (w.name ++ " = " ++ text)
  addPre (.assign (env.member w) value)
  return w

def inputVar (env : Env) (v : VarId) : Lower Circuit.Wire :=
  let var := env.program.var v
  input env var.type var.name (.ident var.name v)

def readsLocals (p : Program) (e : Expr) : Bool :=
  e.subterms.any fun
    | .ident _ v => !p.isState v
    | _ => false

/-- Moves in what the public contract reads. Inside a function that is held in the place of its
call, the contract knows no locals. -/
def inputLocation (env : Env) (e : Expr) (asPublic : Lower Solidity.Expr) : Lower Circuit.Wire := do
  if !(← get).stack.isEmpty && readsLocals env.program e then
    throw (env.unsupported .inlinedLocation e.span)
  let value ← asPublic
  input env e.type (env.program.exprText e) value

/-- Computes an expression inside. -/
def compute (e : Expr) (asTerm : Lower Circuit.Term) : Lower Circuit.Wire := do
  let value ← asTerm
  newTemporary e.type.type.toAbstract value

/-- Makes a public expression's value known inside; constants need no input. -/
def inputExpr (env : Env) (e : Expr) (asPublic : Lower Solidity.Expr)
    (asTerm : Lower Circuit.Term) : Lower Circuit.Wire :=
  if e.type.type.isLiteral then compute e asTerm else inputLocation env e asPublic

/-! ## Moving values out -/

/-- Publishes a value for an owner: in the open for `all`, else encrypted. -/
def publish (env : Env) (plain : Circuit.Wire) (l : Label) (t : DataType) : Lower Circuit.Wire := do
  if l = .all then
    let out ← newOutput t plain.origin
    emit (.equal plain out)
    return out
  let owner := env.program.describeLabel (canonical env l)
  let out ← newOutput .cipher (some (.encrypt plain.term owner))
  encrypted env out.name plain l out false
  return out

/-- Publishes the value that an action computes, under a text. -/
def output (env : Env) (o : Owner) (t : DataType) (text : String) (value : Lower Circuit.Wire) :
    Lower Solidity.Expr := do
  let some l := o.label? | throw (.internal .unresolvedKeyLabel)
  let out ← inBlock text do
    let plain ← value
    publish env plain l t
  comment (out.name ++ " = " ++ text)
  return env.member out

/-- Publishes an expression that is computed inside. -/
def outputExpr (env : Env) (e : Expr) (o : Owner) (value : Lower Circuit.Wire) :
    Lower Solidity.Expr := do
  if !(← get).versions.isEmpty then throw (env.unsupported .nestedPrivate e.span)
  output env o e.type.type.toAbstract (env.program.exprText e) value

/-! ## Calls of functions with circuits -/

/-- The name of the circuit of a function, and of the public function with its body. -/
def circuitName (p : Program) (s : Settings) (f : FunctionId) : String :=
  let fn := p.function f
  if fn.facts.isVerifiedOutside then s.internalName fn.uniqueName else fn.uniqueName

/-- Notes a call in the public contract. -/
def noteCall (f : FunctionId) : Lower Unit := modify fun s => { s with called := s.called ++ [f] }

/-- Includes the circuit of a called function. -/
def callCircuit (p : Program) (settings : Settings) (f : FunctionId) : Lower Unit := do
  modify fun s => { s with calls := s.calls ++ [f] }
  emit (.call (circuitName p settings f))

/-- The buffer words of the circuit. -/
def State.frame (s : State) : Frame where
  ins := s.inputs.size
  outs := s.outputs.size
  secrets := s.secrets.size
  calls := s.calls
  keys := s.keys

end Shroud.Lowering
