import Mathlib
import Shroud.DataType.Basic
import Shroud.Operator.Fold

/-! # Values

What expressions denote. A number carries the type that it is computed in, so that an operator
knows where to wrap around; a constant carries its own literal type and is exact. Mappings and
arrays are tables from keys to values.

`DataType.convert` brings any value into a type. It is idempotent, and a value is *of* a type if
conversion leaves it alone.
-/

namespace Shroud

inductive Value where
  | bool (b : Bool)
  | number (t : DataType) (n : Int)
  /-- A mapping, or an array if there is a length. -/
  | table (len : Option Nat) (get : Literal → Value)
  | tuple (elems : List Value)

namespace Literal

def toInt : Literal → Int
  | number n => n
  | bool b => if b then 1 else 0

def truth : Literal → Bool
  | number n => n ≠ 0
  | bool b => b

/-- Whether an array of a length has an element there. -/
def isBelow (n : Nat) : Literal → Bool
  | number i => 0 ≤ i && i < n
  | bool _ => false

end Literal

namespace Value

/-- The value of a variable that holds nothing. -/
def nothing : Value := .tuple []

/-- A constant. -/
def ofLiteral : Literal → Value
  | .number n => .number (.numberLit n) n
  | .bool b => .bool b

/-- The truth value or number, whatever the type. -/
def datum : Value → Literal
  | bool b => .bool b
  | number _ n => .number n
  | table _ _ | tuple _ => .number 0

/-- The element of a table. -/
def entry (k : Literal) : Value → Value
  | table _ f => f k
  | _ => nothing

/-- The length of an array. -/
def size : Value → Nat
  | table len _ => len.getD 0
  | _ => 0

def elems : Value → List Value
  | tuple as => as
  | _ => []

/-- Whether a table has an element at a key: a mapping has one everywhere. -/
def hasKey (k : Literal) : Value → Bool
  | table none _ => true
  | table (some n) _ => k.isBelow n
  | _ => false

/-- The table with another element at a key. -/
def put (t : Value) (k : Literal) (a : Value) : Value :=
  match t with
  | table len f => .table len fun j => if j = k then a else f j
  | b => b

/-- Constants, and truth values, on which all types compute alike. -/
def isConstant : Value → Bool
  | bool _ | number (.numberLit _) _ => true
  | _ => false

@[simp] theorem entry_table (len : Option Nat) (f : Literal → Value) (k : Literal) :
    (table len f).entry k = f k := rfl

@[simp] theorem size_table (len : Option Nat) (f : Literal → Value) :
    (table len f).size = len.getD 0 := rfl

end Value

/-! ## Conversion -/

namespace DataType

/-- The number of a type that an exact number stands for. -/
def wrap : DataType → Int → Int
  | uint n, k => k % 2 ^ n
  | int n, k => k.bmod (2 ^ n)
  | address, k | addressPayable, k => k % 2 ^ 160
  | _, k => k

/-- Wrapping around twice is wrapping around once. -/
@[simp] theorem wrap_wrap (t : DataType) (k : Int) : t.wrap (t.wrap k) = t.wrap k := by
  cases t <;> simp [wrap]

/-- The truth value or number of a type. -/
def scalar (t : DataType) (d : Literal) : Value :=
  if t.isBool then .bool d.truth else .number t (t.wrap d.toInt)

theorem scalar_datum_scalar (t : DataType) (d : Literal) :
    t.scalar (t.scalar d).datum = t.scalar d := by
  by_cases h : t.isBool = true
  · simp [scalar, h, Value.datum, Literal.truth]
  · simp [scalar, h, Value.datum, Literal.toInt]

end DataType

mutual

/-- Brings a value into a type. An array has zeros where it has no elements. -/
def DataType.convert : DataType → Value → Value
  | .mapping _ _ v, a => .table none fun k => v.convert (a.entry k)
  | .array e len, a =>
    let n := len.getD a.size
    .table (some n) fun k => e.convert (if k.isBelow n then a.entry k else .nothing)
  | .tuple ts, a => .tuple (OwnedType.convertList ts a.elems)
  | t, a => t.scalar a.datum

def OwnedType.convert : OwnedType → Value → Value
  | .mk t _, a => t.convert a

def OwnedType.convertList : List OwnedType → List Value → List Value
  | [], _ => []
  | t :: ts, as => t.convert (as.headD .nothing) :: OwnedType.convertList ts as.tail

end

mutual

/-- A converted value is of the type. -/
@[simp] theorem DataType.convert_convert :
    ∀ (t : DataType) (a : Value), t.convert (t.convert a) = t.convert a
  | .mapping _ _ v, a => by simp [DataType.convert, Value.entry, OwnedType.convert_convert v]
  | .array e len, a => by
    have hlen : len.getD (len.getD a.size) = len.getD a.size := by cases len <;> rfl
    simp only [DataType.convert, Value.size_table, Option.getD_some, Value.entry_table, hlen]
    congr 1
    funext k
    split
    · exact OwnedType.convert_convert e _
    · rfl
  | .tuple ts, a => by simp [DataType.convert, Value.elems, OwnedType.convertList_convertList ts]
  | .bool, a | .uint _, a | .int _, a | .address, a | .addressPayable, a | .numberLit _, a
  | .boolLit _, a | .cipher, a | .key, a | .randomness, a | .proof, a => by
    simp only [DataType.convert, DataType.scalar_datum_scalar]

theorem OwnedType.convert_convert :
    ∀ (t : OwnedType) (a : Value), t.convert (t.convert a) = t.convert a
  | .mk t _, a => by simp [OwnedType.convert, DataType.convert_convert t]

theorem OwnedType.convertList_convertList : ∀ (ts : List OwnedType) (as : List Value),
    OwnedType.convertList ts (OwnedType.convertList ts as) = OwnedType.convertList ts as
  | [], _ => rfl
  | t :: ts, as => by
    simp [OwnedType.convertList, OwnedType.convert_convert t,
      OwnedType.convertList_convertList ts]

end

namespace DataType

/-- The value of a variable that is declared without one. -/
def zero (t : DataType) : Value := t.convert .nothing

/-- Primitive types hold truth values and numbers. -/
theorem convert_of_isPrimitive {t : DataType} (h : t.isPrimitive = true) (a : Value) :
    t.convert a = t.scalar a.datum := by
  cases t <;> simp_all [isPrimitive, isNumeric, isBool, isAddress, DataType.convert]

end DataType

/-! ## Operators -/

namespace Operator

/-- The mathematical result of an operator, whatever its size. -/
def exact (op : Operator) (args : List Literal) : Option Literal :=
  match op, args with
  | pow, [.number a, .number b] => if b < 0 then none else some (.number (a ^ b.toNat))
  | shl, [.number a, .number b] =>
    if b < 0 then none else some (.number (Bits.shiftLeft a b.toNat))
  | shr, [.number a, .number b] =>
    if b < 0 then none else some (.number (Bits.shiftRight a b.toNat))
  | op, args => op.foldExact args

/-- The type that an operator computes in: that of its first operand. -/
def workingType : List Value → DataType
  | .number t _ :: _ => t
  | _ => .bool

/-- A number brought into the type of a computation; there is none where overflow is an error. -/
def settle (checked : Bool) (op : Operator) (t : DataType) : Literal → Option Value
  | .bool b => some (.bool b)
  | .number n =>
    if checked && op.isArithmetic && t.wrap n ≠ n then none else some (.number t (t.wrap n))

/-- The value of an operator that evaluates all its operands. Constants are exact as long as they
fit a machine word; all other numbers wrap around, or overflow is an error. -/
def apply (checked : Bool) (op : Operator) (args : List Value) : Option Value :=
  if args.all Value.isConstant then (op.fold (args.map Value.datum)).map Value.ofLiteral
  else (op.exact (args.map Value.datum)).bind (settle checked op (workingType args))

/-- The operand that a lazy operator evaluates after its first one; if there is none, the first one
decides alone. -/
def later? {α : Type} (op : Operator) (first : Bool) (rest : List α) : Option α :=
  match op, first, rest with
  | and, true, [x] | or, false, [x] | ite, true, [x, _] | ite, false, [_, x] => some x
  | _, _, _ => none

theorem later?_map {α β : Type} (f : α → β) (op : Operator) (first : Bool) (rest : List α) :
    op.later? first (rest.map f) = (op.later? first rest).map f := by
  rcases rest with _ | ⟨x, _ | ⟨y, _ | ⟨z, rest⟩⟩⟩ <;> cases op <;> cases first <;> rfl

/-- What is evaluated later is one of the later operands. -/
theorem mem_of_later? {α : Type} {op : Operator} {first : Bool} {rest : List α} {x : α}
    (h : op.later? first rest = some x) : x ∈ rest := by
  unfold later? at h
  split at h <;> simp_all

section Operate

variable {μ : Type → Type} [Monad μ]

/-- The results of computations, one after another. -/
def inOrder {α : Type} : List (μ α) → μ (List α)
  | [] => return []
  | x :: xs => do
    let a ← x
    let as ← inOrder xs
    return a :: as

variable [MonadLiftT Option μ]

/-- The first operand of a lazy operator decides which of the others is computed, if any. -/
def decideLater (op : Operator) (rest : List (μ Value)) : Value → μ Value
  | .bool b => match later? op b rest with
    | some x => x
    | none => return .bool b
  | _ => liftM (none : Option Value)

/-- An operator on computations of its operands. -/
def operate (checked : Bool) (op : Operator) (args : List (μ Value)) : μ Value :=
  if args.length ≠ op.arity then liftM (none : Option Value)
  else if op = .paren || op.isLazy then match args with
    | [x] => x
    | x :: rest => do decideLater op rest (← x)
    | [] => liftM (none : Option Value)
  else do liftM (op.apply checked (← inOrder args))

end Operate

end Operator

end Shroud
