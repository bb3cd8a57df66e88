/-! # JSON values

Members of an object stand in written order, and a name may be repeated; whether that is an error
is for the reader of a record to say. Integers are those that fit a signed or an unsigned 64-bit
word; any other number is kept as its text.
-/

namespace Shroud

inductive Json where
  | null
  | bool (b : Bool)
  | int (n : Int)
  | real (text : String)
  | str (s : String)
  | arr (elems : List Json)
  | obj (members : List (String × Json))
  /-- A value that can be skipped but not read: a string in which an escape leaves half of a
  surrogate pair, or an object with such a member name. -/
  | unreadable
deriving Inhabited, Repr, BEq

namespace Json

/-- Integers that are kept as such. -/
def isWord (n : Int) : Bool := -0x8000000000000000 ≤ n && n < 0x10000000000000000

mutual

/-- The number of arrays and objects on the longest path into a value. -/
def depth : Json → Nat
  | .arr elems => depthList elems + 1
  | .obj members => depthMembers members + 1
  | _ => 0

def depthList : List Json → Nat
  | [] => 0
  | j :: rest => max j.depth (depthList rest)

def depthMembers : List (String × Json) → Nat
  | [] => 0
  | (_, j) :: rest => max j.depth (depthMembers rest)

end

/-- The value of the first member with a name. -/
def get? (j : Json) (name : String) : Option Json :=
  match j with
  | .obj members => (members.find? fun m => m.1 == name).map Prod.snd
  | _ => none

def str? : Json → Option String
  | .str s => some s
  | _ => none

def bool? : Json → Option Bool
  | .bool b => some b
  | _ => none

def arr? : Json → Option (List Json)
  | .arr elems => some elems
  | _ => none

/-- A natural number below a bound. -/
def natBelow? (bound : Nat) : Json → Option Nat
  | .int (.ofNat n) => if n < bound then some n else none
  | _ => none

def ofNat (n : Nat) : Json := .int n

/-- The value, or `null` for none. -/
def ofOption (f : α → Json) : Option α → Json
  | none => .null
  | some a => f a

def ofList (f : α → Json) (xs : List α) : Json := .arr (xs.map f)

def ofStrings (xs : List String) : Json := ofList .str xs

end Json

end Shroud
