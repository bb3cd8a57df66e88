import Shroud.Circuit.Stream

/-! # Circuits

What a proving back end gets for one function: the steps, and the layout of the buffers that carry
secrets, inputs and outputs.
-/

namespace Shroud

structure Circuit where
  contract : String
  /-- The name of the function that the circuit belongs to. -/
  function : String
  /-- The contract that checks proofs, if there are proofs of this circuit alone. -/
  verifier : Option String
  steps : List Circuit.Step
  secrets : List Circuit.Slot
  inputs : List Circuit.Slot
  outputs : List Circuit.Slot
  secretSize : Nat
  inSize : Nat
  outSize : Nat
  /-- The words of called functions' circuits. -/
  calleeSecretSize : Nat
  calleeInSize : Nat
  calleeOutSize : Nat
  /-- The inputs for keys that are looked up once. -/
  keys : List String
  calls : List String
  usesHash : Bool

namespace Circuit

def totalSecrets (c : Circuit) : Nat := Count.kept (c.secretSize + c.calleeSecretSize)

def totalIns (c : Circuit) : Nat := Count.kept (c.inSize + c.calleeInSize)

def totalOuts (c : Circuit) : Nat := Count.kept (c.outSize + c.calleeOutSize)

/-- Whether there are proofs of this circuit alone. -/
def isProven (c : Circuit) : Bool := c.verifier.isSome

/-- The members of the written form. -/
def members (c : Circuit) : List (String × Json) :=
  [("contract", .str c.contract), ("function", .str c.function),
    ("verifier", .ofOption .str c.verifier), ("phi", .arr (Step.toJsonList c.steps)),
    ("secret", .ofList Slot.toJson c.secrets), ("inputs", .ofList Slot.toJson c.inputs),
    ("outputs", .ofList Slot.toJson c.outputs), ("priv_in_size", .ofNat c.secretSize),
    ("in_size", .ofNat c.inSize), ("out_size", .ofNat c.outSize),
    ("trans_priv_size", .ofNat c.calleeSecretSize), ("trans_in_size", .ofNat c.calleeInSize),
    ("trans_out_size", .ofNat c.calleeOutSize), ("global_keys", .ofStrings c.keys),
    ("calls", .ofStrings c.calls), ("uses_hash", .bool c.usesHash)]

def toJson (c : Circuit) : Json := .obj c.members

end Circuit

end Shroud
