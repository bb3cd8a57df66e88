import Shroud.DataType.Basic
import Shroud.Settings.Backend

/-! # Settings of a compilation

The back ends, the circuit options, and the names that generated code uses.
-/

namespace Shroud

structure Settings where
  backend : Backend := .dummy
  scheme : ProvingScheme := .groth16
  /-- More public circuit arguments than this are passed as one hash. -/
  hashThreshold : Nat := 70
  /-- Whether circuits hold the values of constant expressions instead of the expressions. -/
  foldsConstants : Bool := true
  inName : String := "zk__in"
  outName : String := "zk__out"
  dataName : String := "zk__data"
  proofName : String := "zk__proof"
  returnName : String := "zk__ret"
  internalMark : String := "_zk__"
  pkiName : String := "PublicKeyInfrastructure"
  verifyName : String := "check_verify"
deriving DecidableEq, Repr, Inhabited

namespace Settings

inductive Error where
  | notIdentifier (name : String)
  | usedTwice (name : String)
  | unknownScheme (name : String)
  | unknownBackend (name : String)
deriving DecidableEq, Repr

def sizes (s : Settings) : CryptoSizes := s.backend.sizes

def usesHash (s : Settings) (arguments : Nat) : Bool := arguments > s.hashThreshold

/-- The name of the internal function behind a wrapper. -/
def internalName (s : Settings) (function : String) : String := s.internalMark ++ function

def verifierName (contract function : String) : String :=
  "zk__Verify_" ++ contract ++ "_" ++ function

def instanceName (contract : String) : String := contract ++ "_inst"

def dataStructName (s : Settings) (function : String) : String := function ++ "_" ++ s.dataName

def inStart (s : Settings) : String := s.inName ++ "_start_idx"

def outStart (s : Settings) : String := s.outName ++ "_start_idx"

def returnVar (s : Settings) (i : Nat) : String := s.returnName ++ "_" ++ Nat.repr i

/-- The names that generated code uses, in the order in which they are checked. -/
def names (s : Settings) : List String :=
  [s.inName, s.outName, s.dataName, s.proofName, s.returnName, s.internalMark, s.pkiName,
    s.verifyName]

def isIdentifierChar (c : Char) : Bool :=
  ('a' ≤ c && c ≤ 'z') || ('A' ≤ c && c ≤ 'Z') || ('0' ≤ c && c ≤ '9') || c == '_'

def isIdentifier (name : String) : Bool := !name.isEmpty && name.toList.all isIdentifierChar

/-- Checks names in order against those before them. -/
def checkNames (seen : List String) : List String → Except Error Unit
  | [] => .ok ()
  | name :: rest =>
    if !isIdentifier name then .error (.notIdentifier name)
    else if seen.contains name then .error (.usedTwice name)
    else checkNames (seen ++ [name]) rest

/-- Generated names must be identifiers, and no two the same. -/
def validate (s : Settings) : Except Error Unit := checkNames [] s.names

def fields : List String :=
  ["crypto_backend", "proving_scheme", "opt_hash_threshold", "opt_eval_constexpr_in_circuit",
    "zk_in_name", "zk_out_name", "zk_data_var_name", "proof_param_name", "return_var_name",
    "internal_prefix", "pki_contract_name", "verification_function_name"]

/-- Reads settings; what is not given has its default. -/
def ofJson? (j : Json) : Option Settings := do
  let field ← j.record? fields
  let d : Settings := {}
  let text (name default : String) := (field name).orElse default Json.str?
  return {
    backend := ← (field "crypto_backend").orElse d.backend Backend.ofJson?
    scheme := ← (field "proving_scheme").orElse d.scheme ProvingScheme.ofJson?
    hashThreshold := ← (field "opt_hash_threshold").orElse d.hashThreshold Json.word64?
    foldsConstants := ← (field "opt_eval_constexpr_in_circuit").orElse d.foldsConstants Json.bool?
    inName := ← text "zk_in_name" d.inName
    outName := ← text "zk_out_name" d.outName
    dataName := ← text "zk_data_var_name" d.dataName
    proofName := ← text "proof_param_name" d.proofName
    returnName := ← text "return_var_name" d.returnName
    internalMark := ← text "internal_prefix" d.internalMark
    pkiName := ← text "pki_contract_name" d.pkiName
    verifyName := ← text "verification_function_name" d.verifyName }

def toJson (s : Settings) : Json :=
  .obj [("crypto_backend", s.backend.toJson), ("proving_scheme", s.scheme.toJson),
    ("opt_hash_threshold", .ofNat s.hashThreshold),
    ("opt_eval_constexpr_in_circuit", .bool s.foldsConstants),
    ("zk_in_name", .str s.inName), ("zk_out_name", .str s.outName),
    ("zk_data_var_name", .str s.dataName), ("proof_param_name", .str s.proofName),
    ("return_var_name", .str s.returnName), ("internal_prefix", .str s.internalMark),
    ("pki_contract_name", .str s.pkiName), ("verification_function_name", .str s.verifyName)]

end Settings

mutual

/-- The words that a value takes in circuit buffers. -/
def DataType.words (s : Settings) : DataType → Nat
  | .cipher => s.sizes.cipherLen
  | .key => s.sizes.keyLen
  | .randomness => s.sizes.randomnessLen
  | .proof => s.scheme.proofLen
  | .tuple es => OwnedType.wordsList s es
  | _ => 1

def OwnedType.words (s : Settings) : OwnedType → Nat
  | .mk t _ => t.words s

def OwnedType.wordsList (s : Settings) : List OwnedType → Nat
  | [] => 0
  | t :: ts => t.words s + OwnedType.wordsList s ts

end

end Shroud
