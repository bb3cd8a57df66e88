import Shroud.Literal.Basic
import Shroud.Owner

/-! # Types

A data type says what a value is, and an owned type also says who may see it. Constants have a
type of their own each, and circuits add the types of what crosses their boundary.
-/

namespace Shroud

mutual

inductive DataType where
  | bool
  | uint (bits : Nat)
  | int (bits : Nat)
  | address
  | addressPayable
  | numberLit (v : Int)
  | boolLit (b : Bool)
  | mapping (key : DataType) (keyLabel : Option String) (value : OwnedType)
  | array (elem : OwnedType) (len : Option Nat)
  | tuple (elems : List OwnedType)
  | cipher
  | key
  | randomness
  | proof

inductive OwnedType where
  | mk (type : DataType) (owner : Owner)

end

instance : Inhabited DataType := ⟨.bool⟩

instance : Inhabited OwnedType := ⟨.mk .bool .all⟩

namespace OwnedType

def type : OwnedType → DataType
  | mk t _ => t

def owner : OwnedType → Owner
  | mk _ o => o

@[simp] theorem type_mk (t : DataType) (o : Owner) : (mk t o).type = t := rfl
@[simp] theorem owner_mk (t : DataType) (o : Owner) : (mk t o).owner = o := rfl

theorem ext {a b : OwnedType} (ht : a.type = b.type) (ho : a.owner = b.owner) : a = b := by
  cases a; cases b; simp_all

/-- A value that everyone may see. -/
abbrev ofAll (t : DataType) : OwnedType := mk t .all

/-- A value of the sender of a transaction. -/
abbrev ofMe (t : DataType) : OwnedType := mk t .me

def isPrivate (t : OwnedType) : Bool := t.owner.isPrivate

end OwnedType

mutual

def DataType.beq : DataType → DataType → Bool
  | .bool, .bool => true
  | .uint m, .uint n => m == n
  | .int m, .int n => m == n
  | .address, .address => true
  | .addressPayable, .addressPayable => true
  | .numberLit v, .numberLit w => v == w
  | .boolLit b, .boolLit c => b == c
  | .mapping k l v, .mapping k' l' v' => k.beq k' && l == l' && v.beq v'
  | .array e n, .array e' n' => e.beq e' && n == n'
  | .tuple es, .tuple es' => OwnedType.beqList es es'
  | .cipher, .cipher => true
  | .key, .key => true
  | .randomness, .randomness => true
  | .proof, .proof => true
  | _, _ => false

def OwnedType.beq : OwnedType → OwnedType → Bool
  | .mk t o, .mk t' o' => t.beq t' && o == o'

def OwnedType.beqList : List OwnedType → List OwnedType → Bool
  | [], [] => true
  | t :: ts, t' :: ts' => t.beq t' && OwnedType.beqList ts ts'
  | _, _ => false

end

mutual

theorem DataType.beq_iff : ∀ a b : DataType, a.beq b = true ↔ a = b
  | a, b => by
    cases a <;> cases b <;>
      simp [DataType.beq, DataType.beq_iff, OwnedType.beq_iff, OwnedType.beqList_iff, and_assoc]

theorem OwnedType.beq_iff : ∀ a b : OwnedType, a.beq b = true ↔ a = b
  | .mk t o, .mk t' o' => by simp [OwnedType.beq, DataType.beq_iff]

theorem OwnedType.beqList_iff : ∀ a b : List OwnedType, OwnedType.beqList a b = true ↔ a = b
  | [], [] => by simp [OwnedType.beqList]
  | [], _ :: _ => by simp [OwnedType.beqList]
  | _ :: _, [] => by simp [OwnedType.beqList]
  | t :: ts, t' :: ts' => by simp [OwnedType.beqList, OwnedType.beq_iff, OwnedType.beqList_iff]

end

instance : DecidableEq DataType := fun a b => decidable_of_iff _ (DataType.beq_iff a b)

instance : DecidableEq OwnedType := fun a b => decidable_of_iff _ (OwnedType.beq_iff a b)

namespace DataType

def isNumeric : DataType → Bool
  | uint _ | int _ | numberLit _ => true
  | _ => false

def isBool : DataType → Bool
  | bool | boolLit _ => true
  | _ => false

def isAddress : DataType → Bool
  | address | addressPayable => true
  | _ => false

def isLiteral : DataType → Bool
  | numberLit _ | boolLit _ => true
  | _ => false

def isPrimitive (t : DataType) : Bool := t.isNumeric || t.isBool || t.isAddress

def isSigned : DataType → Bool
  | int _ => true
  | numberLit v => v < 0
  | _ => false

/-- The bits of a value's representation. -/
def width : DataType → Nat
  | uint n | int n => n
  | bool | boolLit _ => 1
  | address | addressPayable => 160
  | numberLit v => Literal.width v
  | _ => 256

/-- The types that may have an owner other than `all`. -/
def canBePrivate : DataType → Bool
  | int 256 => false
  | bool | uint _ | int _ | address | addressPayable => true
  | _ => false

/-- The declarable type of a constant; every other type is its own. -/
def toAbstract : DataType → DataType
  | numberLit v => if v < 0 then int (Literal.width v) else uint (Literal.width v)
  | boolLit _ => bool
  | t => t

def canRepresent (t : DataType) (v : Int) : Bool :=
  match t with
  | uint n => Literal.fitsUnsigned v n
  | int n => Literal.fitsSigned v n
  | _ => false

/-- Whether a value of the first type can stand where one of the second is expected. -/
def convertsTo (a b : DataType) : Bool :=
  match a, b with
  | numberLit _, numberLit _ => true
  | numberLit v, t => t.canRepresent v
  | boolLit _, bool => true
  | boolLit _, boolLit _ => true
  | uint m, uint n => m ≤ n
  | int m, int n => m ≤ n
  | uint m, int n => m < n
  | addressPayable, address => true
  | a, b => a = b

/-- What two operands have in common. -/
inductive Common where
  /-- Both are constants. -/
  | literal
  | type (t : DataType)

/-- The type that two operands are converted to, if any. -/
def common? (a b : DataType) : Option Common :=
  if a.isLiteral && b.isLiteral then some .literal
  else if a.convertsTo b then some (.type b)
  else if b.convertsTo a then some (.type a)
  else none

end DataType

end Shroud
