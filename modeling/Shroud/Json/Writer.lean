import Shroud.Json.Basic
import Shroud.Text.Basic

/-! # Writing JSON text

A compact form on one line, and an indented form with two spaces a level in which empty arrays
and objects stay closed.
-/

namespace Shroud.Json

def hexChar (n : Nat) : Char :=
  if n < 10 then Char.ofNat ('0'.toNat + n) else Char.ofNat ('a'.toNat + (n - 10))

/-- The characters that a string literal writes for one character. -/
def escapeChar (c : Char) : List Char :=
  match c with
  | '"' => ['\\', '"']
  | '\\' => ['\\', '\\']
  | '\n' => ['\\', 'n']
  | '\r' => ['\\', 'r']
  | '\t' => ['\\', 't']
  | c =>
    if c.toNat == 8 then ['\\', 'b']
    else if c.toNat == 12 then ['\\', 'f']
    else if c.toNat < 0x20 then
      ['\\', 'u', '0', '0', hexChar (c.toNat / 16), hexChar (c.toNat % 16)]
    else [c]

def quote (s : String) : String := "\"" ++ String.ofList (s.toList.flatMap escapeChar) ++ "\""

/-- Scalars; `unreadable` values are never written by the encoders of this library. -/
def scalar : Json → String
  | .bool true => "true"
  | .bool false => "false"
  | .int n => Text.decimal n
  | .real text => text
  | .str s => quote s
  | _ => "null"

mutual

/-- The value on one line. -/
def compact : Json → String
  | .arr elems => "[" ++ String.intercalate "," (compactList elems) ++ "]"
  | .obj members => "\x7b" ++ String.intercalate "," (compactMembers members) ++ "\x7d"
  | j => scalar j

def compactList : List Json → List String
  | [] => []
  | j :: rest => j.compact :: compactList rest

def compactMembers : List (String × Json) → List String
  | [] => []
  | (name, j) :: rest => (quote name ++ ":" ++ j.compact) :: compactMembers rest

end

def indentation (level : Nat) : String := String.ofList (List.replicate (2 * level) ' ')

/-- Items on lines of their own between brackets. -/
def bracketed (level : Nat) (left right : String) (items : List String) : String :=
  match items with
  | [] => left ++ right
  | items =>
    let pad := indentation (level + 1)
    left ++ "\n" ++ String.intercalate ",\n" (items.map (pad ++ ·)) ++ "\n" ++
      indentation level ++ right

mutual

/-- The value over several lines, inside `level` brackets. -/
def prettyAt (level : Nat) : Json → String
  | .arr elems => bracketed level "[" "]" (prettyList (level + 1) elems)
  | .obj members => bracketed level "\x7b" "\x7d" (prettyMembers (level + 1) members)
  | j => scalar j

def prettyList (level : Nat) : List Json → List String
  | [] => []
  | j :: rest => prettyAt level j :: prettyList level rest

def prettyMembers (level : Nat) : List (String × Json) → List String
  | [] => []
  | (name, j) :: rest => (quote name ++ ": " ++ prettyAt level j) :: prettyMembers level rest

end

def pretty (j : Json) : String := prettyAt 0 j

end Shroud.Json
