import Shroud.Json.Record
import Shroud.Text.Basic

/-! # Places in a source text -/

namespace Shroud

/-- A line and a column, counted from one; zeros if unknown. -/
structure Span where
  line : Nat := 0
  column : Nat := 0
deriving DecidableEq, Repr, Inhabited

namespace Span

def ofJson? (j : Json) : Option Span := do
  let field ← j.record? ["line", "column"]
  return ⟨← (field "line").required Json.word32?, ← (field "column").required Json.word32?⟩

def toJson (s : Span) : Json := .obj [("line", .ofNat s.line), ("column", .ofNat s.column)]

/-- The line of a text with a caret below the column. A column beyond the end of the line, which
is measured in bytes, stands right after it. -/
def excerpt? (s : Span) (text : String) : Option (String × String) :=
  (Text.lines text)[s.line - 1]?.map fun line =>
    (line, Text.spaces (min (s.column - 1) (Text.byteLength line)) ++ "^")

end Span

/-- The place of a diagnostic, with the definitions around it. -/
structure Context where
  span : Span
  function : Option String := none
  contract : Option String := none
deriving DecidableEq, Repr, Inhabited

namespace Context

def display (c : Context) : String :=
  let place := Nat.repr c.span.line ++ ":" ++ Nat.repr c.span.column
  match c.function, c.contract with
  | some f, some k => place ++ ", in function '" ++ f ++ "' of contract '" ++ k ++ "'"
  | none, some k => place ++ ", in contract '" ++ k ++ "'"
  | some f, none => place ++ ", in function '" ++ f ++ "'"
  | none, none => place

def ofJson? (j : Json) : Option Context := do
  let field ← j.record? ["line", "column", "function", "contract"]
  let line ← (field "line").required Json.word32?
  let column ← (field "column").required Json.word32?
  let function ← (field "function").nullable Json.str?
  let contract ← (field "contract").nullable Json.str?
  return ⟨⟨line, column⟩, function, contract⟩

end Context

end Shroud
