import Shroud.Json.Token

/-! # Reading JSON text

One value with nothing but white space around it. Nesting is not limited here; a reader of
records counts the levels that it enters.
-/

namespace Shroud.Json

/-- Member names and values as an object, if every name can be read. -/
def ofMembers (ms : List (Option String × Json)) : Json :=
  match ms.mapM fun m => m.1.map fun name => (name, m.2) with
  | some ms => .obj ms
  | none => .unreadable

mutual

/-- A value at the head of the tokens, given a bound on their number. -/
def valueWithin : Nat → List Token → Option (Json × List Token)
  | n + 1, .openBrace :: rest =>
    match rest with
    | .closeBrace :: rest => some (.obj [], rest)
    | rest => (membersWithin n rest).map fun (ms, rest) => (ofMembers ms, rest)
  | n + 1, .openBracket :: rest =>
    match rest with
    | .closeBracket :: rest => some (.arr [], rest)
    | rest => (elemsWithin n rest).map fun (es, rest) => (.arr es, rest)
  | _, .word j :: rest => some (j, rest)
  | _, .text (some s) :: rest => some (.str s, rest)
  | _, .text none :: rest => some (.unreadable, rest)
  | _, _ => none

/-- One or more elements and the closing bracket. -/
def elemsWithin : Nat → List Token → Option (List Json × List Token)
  | 0, _ => none
  | n + 1, ts => do
    let (j, rest) ← valueWithin n ts
    match rest with
    | .closeBracket :: rest => some ([j], rest)
    | .comma :: rest => do
      let (js, rest) ← elemsWithin n rest
      return (j :: js, rest)
    | _ => none

/-- One or more members and the closing brace. -/
def membersWithin : Nat → List Token → Option (List (Option String × Json) × List Token)
  | n + 1, .text name :: .colon :: ts => do
    let (j, rest) ← valueWithin n ts
    match rest with
    | .closeBrace :: rest => some ([(name, j)], rest)
    | .comma :: rest => do
      let (ms, rest) ← membersWithin n rest
      return ((name, j) :: ms, rest)
    | _ => none
  | _, _ => none

end

/-- The value that a text holds. -/
def parse? (s : String) : Option Json := do
  let ts ← Token.tokens? s
  match ← valueWithin (ts.length + 1) ts with
  | (j, []) => some j
  | _ => none

end Shroud.Json
