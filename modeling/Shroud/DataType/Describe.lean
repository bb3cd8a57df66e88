import Shroud.DataType.Basic
import Shroud.Text.Basic

/-! # Written form of types -/

namespace Shroud

def describeBool : Bool → String
  | true => "true"
  | false => "false"

mutual

/-- The written form of a type, with variables named by `name`. -/
def DataType.describe (name : VarId → String) : DataType → String
  | .bool => "bool"
  | .uint n => "uint" ++ Nat.repr n
  | .int n => "int" ++ Nat.repr n
  | .address => "address"
  | .addressPayable => "address payable"
  | .numberLit v => "literal " ++ Text.decimal v
  | .boolLit b => "literal " ++ describeBool b
  | .mapping k l v =>
    let label := match l with
      | some l => "!" ++ l
      | none => ""
    "mapping(" ++ k.describe name ++ label ++ " => " ++ v.describe name ++ ")"
  | .array e (some n) => e.describe name ++ "[" ++ Nat.repr n ++ "]"
  | .array e none => e.describe name ++ "[]"
  | .tuple es => "(" ++ String.intercalate ", " (OwnedType.describeList name es) ++ ")"
  | .cipher => "cipher"
  | .key => "key"
  | .randomness => "randomness"
  | .proof => "proof"

def OwnedType.describe (name : VarId → String) : OwnedType → String
  | .mk t .all => t.describe name
  | .mk t o => t.describe name ++ "@" ++ o.describe name

def OwnedType.describeList (name : VarId → String) : List OwnedType → List String
  | [] => []
  | t :: ts => t.describe name :: OwnedType.describeList name ts

end

/-- The written form with variables by number. -/
def DataType.display (t : DataType) : String := t.describe fun v => "$" ++ Nat.repr v.index

end Shroud
