import Shroud.DataType.Describe
import Shroud.DataType.Json

/-! # Terms over circuit variables -/

namespace Shroud.Circuit

inductive Term where
  | wire (name : String)
  | number (n : Int)
  | bool (b : Bool)
  | op (op : Operator) (args : List Term)
  | cast (type : DataType) (e : Term)
  /-- The encryption under an owner's public key. -/
  | encrypt (e : Term) (owner : String)

instance : Inhabited Term := ⟨.bool false⟩

namespace Term

mutual

def beq : Term → Term → Bool
  | .wire m, .wire n => m == n
  | .number m, .number n => m == n
  | .bool a, .bool b => a == b
  | .op p as, .op q bs => p == q && beqList as bs
  | .cast t a, .cast u b => t == u && a.beq b
  | .encrypt a o, .encrypt b p => a.beq b && o == p
  | _, _ => false

def beqList : List Term → List Term → Bool
  | [], [] => true
  | a :: as, b :: bs => a.beq b && beqList as bs
  | _, _ => false

end

mutual

theorem beq_iff : ∀ a b : Term, a.beq b = true ↔ a = b
  | a, b => by cases a <;> cases b <;> simp [beq, beq_iff, beqList_iff]

theorem beqList_iff : ∀ as bs : List Term, beqList as bs = true ↔ as = bs
  | [], [] => by simp [beqList]
  | [], _ :: _ => by simp [beqList]
  | _ :: _, [] => by simp [beqList]
  | a :: as, b :: bs => by simp [beqList, beq_iff, beqList_iff]

end

instance : DecidableEq Term := fun a b => decidable_of_iff _ (beq_iff a b)

/-- The choice between two terms. -/
def ite (c a b : Term) : Term := .op .ite [c, a, b]

mutual

def display : Term → String
  | .wire name => name
  | .number n => Text.decimal n
  | .bool b => describeBool b
  | .op o args => displayOp o (displayList args)
  | .cast t e => t.display ++ "(" ++ e.display ++ ")"
  | .encrypt e owner => "enc(" ++ e.display ++ ", " ++ owner ++ ")"

def displayList : List Term → List String
  | [] => []
  | e :: es => e.display :: displayList es

/-- An operator between its operands. -/
def displayOp (o : Operator) (args : List String) : String :=
  match o, args with
  | .paren, [a] => "(" ++ a ++ ")"
  | .ite, [c, a, b] => c ++ " ? " ++ a ++ " : " ++ b
  | o, [a] => o.symbol ++ a
  | o, [a, b] => a ++ " " ++ o.symbol ++ " " ++ b
  | o, _ => o.symbol ++ "(..)"

end

mutual

/-- Reads a term, entering at most the given number of levels. -/
def read : Nat → Json → Option Term
  | n + 1, .obj [(tag, j)] => match tag with
    | "idf" => j.str?.map .wire
    | "number" => j.literal?.map .number
    | "bool" => j.bool?.map .bool
    | "op" => match n with
      | 0 => none
      | n + 1 => do
        let field ← j.record? ["op", "args"]
        let o ← (field "op").required Operator.ofJson?
        let args ← (field "args").required (readList n)
        return .op o args
    | "cast" => match n with
      | 0 => none
      | n + 1 => do
        let field ← j.record? ["ty", "expr"]
        let type ← (field "ty").required DataType.ofJson?
        let e ← (field "expr").required (read n)
        return .cast type e
    | "encrypt" => match n with
      | 0 => none
      | n + 1 => do
        let field ← j.record? ["expr", "owner"]
        let e ← (field "expr").required (read n)
        let owner ← (field "owner").required Json.str?
        return .encrypt e owner
    | _ => none
  | _, _ => none

def readList : Nat → Json → Option (List Term)
  | n + 1, .arr elems => elems.mapM (read n)
  | _, _ => none

end

def ofJson? (j : Json) : Option Term := read j.depth j

mutual

def toJson : Term → Json
  | .wire name => .obj [("idf", .str name)]
  | .number n => .obj [("number", .ofLiteral n)]
  | .bool b => .obj [("bool", .bool b)]
  | .op o args => .obj [("op", .obj [("op", o.toJson), ("args", .arr (toJsonList args))])]
  | .cast t e => .obj [("cast", .obj [("ty", t.toJson), ("expr", e.toJson)])]
  | .encrypt e owner => .obj [("encrypt", .obj [("expr", e.toJson), ("owner", .str owner)])]

def toJsonList : List Term → List Json
  | [] => []
  | e :: es => e.toJson :: toJsonList es

end

end Term

end Shroud.Circuit
