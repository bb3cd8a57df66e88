import Shroud.Circuit.Term

/-! # Steps of a circuit

A circuit is an ordered list of steps over named variables. The order is that of evaluation and of
constraints.
-/

namespace Shroud.Circuit

/-- The part that a circuit variable plays. -/
inductive Role where
  /-- A witness that only the prover knows. -/
  | secret
  /-- An argument that the public contract shares with the circuit. -/
  | boundary
  /-- A value computed inside the circuit. -/
  | temporary
deriving DecidableEq, Repr, Inhabited

namespace Role

def tag : Role → String
  | secret => "priv_circuit_val"
  | boundary => "pub_circuit_arg"
  | temporary => "tmp_circuit_val"

def ofJson? (j : Json) : Option Role :=
  j.tag?.bind fun t => [secret, boundary, temporary].find? fun r => r.tag == t

end Role

/-- A circuit variable. -/
structure Wire where
  name : String
  type : DataType
  role : Role
  /-- The private computation that the value comes from. -/
  origin : Option Term := none
deriving DecidableEq, Inhabited

namespace Wire

def term (w : Wire) : Term := .wire w.name

def ofJson? (j : Json) : Option Wire := do
  let field ← j.record? ["name", "ty", "arg_type", "corresponding_priv_expr"]
  return {
    name := ← (field "name").required Json.str?
    type := ← (field "ty").required DataType.ofJson?
    role := ← (field "arg_type").required Role.ofJson?
    origin := ← (field "corresponding_priv_expr").optional Term.ofJson? }

def toJson (w : Wire) : Json :=
  .obj ([("name", .str w.name), ("ty", w.type.toJson), ("arg_type", .str w.role.tag)] ++
    match w.origin with
    | some e => [("corresponding_priv_expr", e.toJson)]
    | none => [])

end Wire

inductive Step where
  | comment (text : String)
  /-- The steps that one construct of the program gives rise to. -/
  | block (name : String) (steps : List Step)
  /-- A temporary with the value of a private expression. -/
  | declare (lhs : Wire) (e : Term)
  /-- A new version of a variable, a parameter or a returned value. -/
  | assign (lhs : Wire) (e : Term)
  /-- The public output equals the computed plaintext. -/
  | equal (plain output : Wire)
  /-- The ciphertext encrypts the plaintext with some randomness under a key; for an input it is
  the decryption that is proved. -/
  | encryption (plain randomness key cipher : Wire) (isDecryption : Bool)
  /-- What follows holds only if the condition has the given value, up to the matching end. -/
  | enterGuard (cond : String) (holds : Bool)
  | leaveGuard
  /-- The circuit of a called function stands here. -/
  | call (function : String)

namespace Step

mutual

/-- The step and all steps inside it, from the outside in. -/
def walk : Step → List Step
  | .block name steps => .block name steps :: walkList steps
  | s => [s]

def walkList : List Step → List Step
  | [] => []
  | s :: ss => s.walk ++ walkList ss

end

def isBlock : Step → Bool
  | .block _ _ => true
  | _ => false

/-- The steps without the blocks around them. -/
def flatten (steps : List Step) : List Step := (walkList steps).filter fun s => !s.isBlock

mutual

def toJson : Step → Json
  | .comment text => .obj [("kind", .str "comment"), ("text", .str text)]
  | .block name steps =>
    .obj [("kind", .str "indent_block"), ("name", .str name), ("statements", .arr (toJsonList steps))]
  | .declare lhs e =>
    .obj [("kind", .str "temp_var_decl"), ("lhs", lhs.toJson), ("expr", e.toJson)]
  | .assign lhs e => .obj [("kind", .str "assignment"), ("lhs", lhs.toJson), ("expr", e.toJson)]
  | .equal plain output =>
    .obj [("kind", .str "eq_constraint"), ("tgt", plain.toJson), ("val", output.toJson)]
  | .encryption plain randomness key cipher isDecryption =>
    .obj [("kind", .str "enc_constraint"), ("plain", plain.toJson), ("rnd", randomness.toJson),
      ("pk", key.toJson), ("cipher", cipher.toJson), ("is_dec", .bool isDecryption)]
  | .enterGuard cond holds =>
    .obj [("kind", .str "enter_guard"), ("cond", .str cond), ("is_true", .bool holds)]
  | .leaveGuard => .obj [("kind", .str "leave_guard")]
  | .call function => .obj [("kind", .str "call"), ("function", .str function)]

def toJsonList : List Step → List Json
  | [] => []
  | s :: ss => s.toJson :: toJsonList ss

end

/-- The tags of steps, in the order in which steps are numbered. -/
def tags : List String :=
  ["comment", "indent_block", "temp_var_decl", "assignment", "eq_constraint", "enc_constraint",
    "enter_guard", "leave_guard", "call"]

/-- The tag that a value names. Inside a block, a step may be named by its number. -/
def tag? (inside : Bool) : Json → Option String
  | .str tag => some tag
  | .int (.ofNat n) => if inside then tags[n]? else none
  | _ => none

/-- The tag of a step and the value that holds its other fields. -/
def tagged? (inside : Bool) : Json → Option (String × Json)
  | .obj members => match members.filter fun m => m.1 == "kind" with
    | [(_, j)] => (tag? inside j).map fun tag => (tag, .obj (members.filter fun m => m.1 != "kind"))
    | _ => none
  | .arr (j :: rest) => (tag? inside j).map fun tag => (tag, .arr rest)
  | _ => none

mutual

/-- Reads a step, entering at most the given number of levels. -/
def read (inside : Bool) : Nat → Json → Option Step
  | 0, _ => none
  | n + 1, j => do
    let (tag, j) ← tagged? inside j
    match tag with
    | "comment" =>
      let field ← j.record? ["text"]
      return .comment (← (field "text").required Json.str?)
    | "indent_block" =>
      let field ← j.record? ["name", "statements"]
      return .block (← (field "name").required Json.str?)
        (← (field "statements").required (readList n))
    | "temp_var_decl" =>
      let field ← j.record? ["lhs", "expr"]
      return .declare (← (field "lhs").required Wire.ofJson?) (← (field "expr").required Term.ofJson?)
    | "assignment" =>
      let field ← j.record? ["lhs", "expr"]
      return .assign (← (field "lhs").required Wire.ofJson?) (← (field "expr").required Term.ofJson?)
    | "eq_constraint" =>
      let field ← j.record? ["tgt", "val"]
      return .equal (← (field "tgt").required Wire.ofJson?) (← (field "val").required Wire.ofJson?)
    | "enc_constraint" =>
      let field ← j.record? ["plain", "rnd", "pk", "cipher", "is_dec"]
      return .encryption (← (field "plain").required Wire.ofJson?)
        (← (field "rnd").required Wire.ofJson?) (← (field "pk").required Wire.ofJson?)
        (← (field "cipher").required Wire.ofJson?) (← (field "is_dec").required Json.bool?)
    | "enter_guard" =>
      let field ← j.record? ["cond", "is_true"]
      return .enterGuard (← (field "cond").required Json.str?) (← (field "is_true").required Json.bool?)
    | "leave_guard" =>
      let _ ← j.record? []
      return .leaveGuard
    | "call" =>
      let field ← j.record? ["function"]
      return .call (← (field "function").required Json.str?)
    | _ => none

def readList : Nat → Json → Option (List Step)
  | n + 1, .arr elems => elems.mapM (read true n)
  | _, _ => none

end

/-- Reads a step. In it, a tag alone may also be an object with an empty object behind the tag. -/
def ofJson? (j : Json) : Option Step := read false j.depth j.closeTags

end Step

end Shroud.Circuit
