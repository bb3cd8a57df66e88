import Shroud.DataType.Basic
import Shroud.Json.Record
import Shroud.Operator.Basic
import Shroud.Text.Basic

/-! # Types in JSON -/

namespace Shroud

namespace Json

/-- An integer literal: an integer, or a text with a decimal. -/
def literal? : Json → Option Int
  | .int n => some n
  | .str s => Text.decimal? s
  | _ => none

def ofLiteral (v : Int) : Json := .str (Text.decimal v)

end Json

namespace Operator

def ofJson? (j : Json) : Option Operator := j.tag?.bind ofTag?

def toJson (op : Operator) : Json := .str op.tag

end Operator

namespace Owner

def ofJson? : Json → Option Owner
  | .obj [("Var", j)] => j.word32?.map fun n => var ⟨n⟩
  | .obj [("KeyLabel", j)] => j.str?.map key
  | j => match j.tag? with
    | some "All" => some all
    | some "Me" => some me
    | _ => none

def toJson : Owner → Json
  | all => .str "All"
  | me => .str "Me"
  | var v => .obj [("Var", .ofNat v.index)]
  | key l => .obj [("KeyLabel", .str l)]

end Owner

def Label.toJson (l : Label) : Json := l.owner.toJson

def DataType.ofTag? : String → Option DataType
  | "Bool" => some .bool
  | "Address" => some .address
  | "AddressPayable" => some .addressPayable
  | "Cipher" => some .cipher
  | "Key" => some .key
  | "Randomness" => some .randomness
  | "Proof" => some .proof
  | _ => none

mutual

/-- Reads a type, entering at most the given number of levels. -/
def DataType.ofJsonWithin : Nat → Json → Option DataType
  | 0, .str tag => DataType.ofTag? tag
  | 0, _ => none
  | n + 1, .obj [(tag, j)] =>
    match tag with
    | "Uint" => j.word16?.map .uint
    | "Int" => j.word16?.map .int
    | "NumberLiteral" => j.literal?.map .numberLit
    | "BoolLiteral" => j.bool?.map .boolLit
    | "Tuple" => match n with
      | 0 => none
      | m + 1 => (j.list? (OwnedType.ofJsonWithin m)).map .tuple
    | "Mapping" => match n with
      | 0 => none
      | m + 1 => do
        let field ← j.record? ["key", "key_label", "value"]
        let keyType ← (field "key").required (DataType.ofJsonWithin m)
        let label ← (field "key_label").nullable Json.str?
        let value ← (field "value").required (OwnedType.ofJsonWithin m)
        return .mapping keyType label value
    | "Array" => match n with
      | 0 => none
      | m + 1 => do
        let field ← j.record? ["elem", "len"]
        let elem ← (field "elem").required (OwnedType.ofJsonWithin m)
        let len ← (field "len").nullable Json.word64?
        return .array elem len
    | tag => match j with
      | .null => DataType.ofTag? tag
      | _ => none
  | _ + 1, .str tag => DataType.ofTag? tag
  | _ + 1, _ => none

def OwnedType.ofJsonWithin : Nat → Json → Option OwnedType
  | 0, _ => none
  | n + 1, j => do
    let field ← j.record? ["ty", "privacy"]
    let type ← (field "ty").required (DataType.ofJsonWithin n)
    let owner ← (field "privacy").required Owner.ofJson?
    return .mk type owner

end

def DataType.ofJson? (j : Json) : Option DataType := DataType.ofJsonWithin j.depth j

def OwnedType.ofJson? (j : Json) : Option OwnedType := OwnedType.ofJsonWithin j.depth j

mutual

def DataType.toJson : DataType → Json
  | .bool => .str "Bool"
  | .uint n => .obj [("Uint", .ofNat n)]
  | .int n => .obj [("Int", .ofNat n)]
  | .address => .str "Address"
  | .addressPayable => .str "AddressPayable"
  | .numberLit v => .obj [("NumberLiteral", .ofLiteral v)]
  | .boolLit b => .obj [("BoolLiteral", .bool b)]
  | .mapping k l v =>
    .obj [("Mapping", .obj
      [("key", k.toJson), ("key_label", .ofOption .str l), ("value", v.toJson)])]
  | .array e n => .obj [("Array", .obj [("elem", e.toJson), ("len", .ofOption .ofNat n)])]
  | .tuple es => .obj [("Tuple", .arr (OwnedType.toJsonList es))]
  | .cipher => .str "Cipher"
  | .key => .str "Key"
  | .randomness => .str "Randomness"
  | .proof => .str "Proof"

def OwnedType.toJson : OwnedType → Json
  | .mk t o => .obj [("ty", t.toJson), ("privacy", o.toJson)]

def OwnedType.toJsonList : List OwnedType → List Json
  | [] => []
  | t :: ts => t.toJson :: OwnedType.toJsonList ts

end

end Shroud
