import Shroud.Json.Basic

/-! # Records and variants in JSON

A record is an object with one member for each field, or an array of its fields in order. Other
members are skipped, and a field must not be given twice. A variant is its tag alone, or an
object with the tag as its only member.

Readers of nested data take the number of levels that they may still enter.
-/

namespace Shroud.Json

/-- What a record says about a field. -/
inductive Field where
  | given (j : Json)
  /-- Not among the members of an object. -/
  | absent
  /-- Beyond the end of an array. -/
  | beyond

namespace Field

def required (read : Json → Option α) : Field → Option α
  | .given j => read j
  | _ => none

def orElse (default : α) (read : Json → Option α) : Field → Option α
  | .given j => read j
  | _ => some default

/-- A field that may be `null`, or missing from an object. -/
def nullable (read : Json → Option α) : Field → Option (Option α)
  | .given .null => some none
  | .given j => (read j).map some
  | .absent => some none
  | .beyond => none

/-- A field that may be `null` or missing. -/
def optional (read : Json → Option α) : Field → Option (Option α)
  | .given .null => some none
  | .given j => (read j).map some
  | _ => some none

end Field

/-- The field of an object with a name. -/
def member (members : List (String × Json)) (name : String) : Field :=
  match members.find? fun m => m.1 == name with
  | some (_, j) => .given j
  | none => .absent

/-- The field of an array whose position is that of the name among the names of the record. -/
def position (names : List String) (elems : List Json) (name : String) : Field :=
  match elems[names.idxOf name]? with
  | some j => .given j
  | none => .beyond

def givenTwice (members : List (String × Json)) (name : String) : Bool :=
  1 < members.countP fun m => m.1 == name

/-- The fields of a record with the given names. -/
def record? (names : List String) : Json → Option (String → Field)
  | .obj members => if names.any (givenTwice members) then none else some (member members)
  | .arr elems => if elems.length ≤ names.length then some (position names elems) else none
  | _ => none

/-- A variant that is its tag alone. -/
def tag? : Json → Option String
  | .str tag => some tag
  | .obj [(tag, .null)] => some tag
  | _ => none

mutual

/-- The value with `null` for an empty object behind a tag, wherever a tag stands alone. -/
def closeTags : Json → Json
  | .arr elems => .arr (closeTagsList elems)
  | .obj [(tag, .obj [])] => .obj [(tag, .null)]
  | .obj members => .obj (closeTagsMembers members)
  | j => j

def closeTagsList : List Json → List Json
  | [] => []
  | j :: rest => j.closeTags :: closeTagsList rest

def closeTagsMembers : List (String × Json) → List (String × Json)
  | [] => []
  | (name, j) :: rest => (name, j.closeTags) :: closeTagsMembers rest

end

/-- Reads a value that has at most one level, if that may be entered. -/
def flat (levels : Nat) (read : Json → Option α) : Json → Option α
  | .arr elems => if levels = 0 then none else read (.arr elems)
  | .obj members => if levels = 0 then none else read (.obj members)
  | j => read j

/-- The elements of an array. -/
def list? (read : Json → Option α) : Json → Option (List α)
  | .arr elems => elems.mapM read
  | _ => none

def word16? : Json → Option Nat := natBelow? 0x10000

def word32? : Json → Option Nat := natBelow? 0x100000000

def word64? : Json → Option Nat := natBelow? 0x10000000000000000

end Shroud.Json
