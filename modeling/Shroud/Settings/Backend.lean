import Shroud.Json.Record

/-! # Encryption and proving back ends

A compilation encrypts nothing itself; it needs to know how many words keys, ciphertexts,
randomness and proofs take. Counts of words are kept in 64 bits: an exact count that is reduced once
is the same as one that is reduced after every addition.
-/

namespace Shroud

namespace Count

/-- What 64 bits keep of a count. -/
def kept (n : Nat) : Nat := n % 0x10000000000000000

theorem kept_kept (n : Nat) : kept (kept n) = kept n := Nat.mod_mod _ _

theorem kept_add_kept (m n : Nat) : kept (kept m + kept n) = kept (m + n) :=
  (Nat.add_mod m n _).symm

end Count

/-- The sizes of an encryption scheme, in bytes but for the key's bits. -/
structure CryptoSizes where
  keyBits : Nat
  cipherPayloadBytes : Nat
  cipherChunk : Nat
  symmetric : Bool
  randomnessBytes : Nat
  randomnessChunk : Nat
deriving DecidableEq, Repr

/-- How many chunks of a size hold a number of bytes; chunks of size zero hold nothing. -/
def chunks (bytes size : Nat) : Nat :=
  if size = 0 then 0 else Count.kept (bytes + size - 1) / size

namespace CryptoSizes

def keyBytes (s : CryptoSizes) : Nat := chunks s.keyBits 8

/-- The words of a public key. -/
def keyLen (s : CryptoSizes) : Nat := if s.symmetric then 1 else chunks s.keyBytes s.cipherChunk

def payloadLen (s : CryptoSizes) : Nat := chunks s.cipherPayloadBytes s.cipherChunk

/-- The words of a ciphertext; symmetric schemes append the sender's public key. -/
def cipherLen (s : CryptoSizes) : Nat :=
  if s.symmetric then Count.kept (s.payloadLen + 1) else s.payloadLen

def randomnessLen (s : CryptoSizes) : Nat :=
  if s.symmetric then 0 else chunks s.randomnessBytes s.randomnessChunk

def fields : List String :=
  ["key_bits", "cipher_payload_bytes", "cipher_chunk_size", "symmetric", "rnd_bytes",
    "rnd_chunk_size"]

def ofJson? (j : Json) : Option CryptoSizes := do
  let field ← j.record? fields
  return {
    keyBits := ← (field "key_bits").required Json.word64?
    cipherPayloadBytes := ← (field "cipher_payload_bytes").required Json.word64?
    cipherChunk := ← (field "cipher_chunk_size").required Json.word64?
    symmetric := ← (field "symmetric").required Json.bool?
    randomnessBytes := ← (field "rnd_bytes").required Json.word64?
    randomnessChunk := ← (field "rnd_chunk_size").required Json.word64? }

def toJson (s : CryptoSizes) : Json :=
  .obj [("key_bits", .ofNat s.keyBits), ("cipher_payload_bytes", .ofNat s.cipherPayloadBytes),
    ("cipher_chunk_size", .ofNat s.cipherChunk), ("symmetric", .bool s.symmetric),
    ("rnd_bytes", .ofNat s.randomnessBytes), ("rnd_chunk_size", .ofNat s.randomnessChunk)]

end CryptoSizes

/-- The encryption scheme for private values. -/
inductive Backend where
  | dummy
  | dummyHom
  | rsaOaep
  | rsaPkcs
  | ecdhAes
  | ecdhChaskey
  | paillier
  | elgamal
deriving DecidableEq, Repr, Inhabited

namespace Backend

def all : List Backend :=
  [dummy, dummyHom, rsaOaep, rsaPkcs, ecdhAes, ecdhChaskey, paillier, elgamal]

def name : Backend → String
  | dummy => "dummy"
  | dummyHom => "dummy-hom"
  | rsaOaep => "rsa-oaep"
  | rsaPkcs => "rsa-pkcs1.5"
  | ecdhAes => "ecdh-aes"
  | ecdhChaskey => "ecdh-chaskey"
  | paillier => "paillier"
  | elgamal => "elgamal"

def ofName? (s : String) : Option Backend := all.find? fun b => b.name == s

def sizes : Backend → CryptoSizes
  | dummy => ⟨248, 31, 31, false, 31, 31⟩
  | dummyHom => ⟨248, 32, 32, false, 32, 32⟩
  | rsaOaep => ⟨2048, 256, 29, false, 32, 16⟩
  | rsaPkcs => ⟨2048, 256, 29, false, 221, 28⟩
  | ecdhAes => ⟨253, 48, 24, true, 0, 0⟩
  | ecdhChaskey => ⟨253, 48, 24, true, 0, 0⟩
  | paillier => ⟨320, 80, 15, false, 40, 15⟩
  | elgamal => ⟨506, 128, 32, false, 32, 32⟩

def ofJson? (j : Json) : Option Backend := j.tag?.bind ofName?

def toJson (b : Backend) : Json := .str b.name

end Backend

/-- The scheme of the proofs. -/
inductive ProvingScheme where
  | groth16
  | gm17
deriving DecidableEq, Repr, Inhabited

namespace ProvingScheme

def name : ProvingScheme → String
  | groth16 => "groth16"
  | gm17 => "gm17"

def ofName? : String → Option ProvingScheme
  | "groth16" => some groth16
  | "gm17" => some gm17
  | _ => none

/-- The words of a proof. -/
def proofLen (_ : ProvingScheme) : Nat := 8

def ofJson? (j : Json) : Option ProvingScheme := j.tag?.bind ofName?

def toJson (s : ProvingScheme) : Json := .str s.name

end ProvingScheme

end Shroud
