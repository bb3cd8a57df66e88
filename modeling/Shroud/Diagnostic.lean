import Shroud.Span

/-! # Diagnostics

What a user is told: the kind of a fault, a text, and often a place. On one line the place
follows in parentheses; a rendered diagnostic has it on a line of its own, with an excerpt of the
source if there is one.
-/

namespace Shroud

namespace Diagnostic

/-- The families of faults. -/
inductive Kind where
  | name
  | mismatch
  | type
  | compliance
  | unsupported
  | internal
  | settings
  | backend
  | manifest
  | incompatible
  | other
deriving DecidableEq, Repr

namespace Kind

/-- The words before the text of a diagnostic. -/
def lead : Kind → String
  | name => "Name resolution error: "
  | mismatch => "Type mismatch: "
  | type => "Type error: "
  | compliance => "Circuit compliance error: "
  | unsupported => "Unsupported construct: "
  | internal => "Internal invariant violated: "
  | settings => "Invalid configuration: "
  | backend => "Unknown crypto backend: "
  | manifest => "Invalid manifest: "
  | incompatible => "Incompatible manifest: "
  | other => ""

/-- Faults of a program have a place in it. -/
def isLocated : Kind → Bool
  | name | mismatch | type | compliance | unsupported => true
  | _ => false

end Kind

/-- What was expected and what was found, in one text. -/
def mismatchText (expected actual : String) : String := "expected " ++ expected ++ ", got " ++ actual

end Diagnostic

structure Diagnostic where
  kind : Diagnostic.Kind
  text : String
  context : Option Context := none
deriving DecidableEq, Repr

namespace Diagnostic

def headline (d : Diagnostic) : String := d.kind.lead ++ d.text

def display (d : Diagnostic) : String :=
  match d.context with
  | some c => d.headline ++ " (" ++ c.display ++ ")"
  | none => d.headline

def render (d : Diagnostic) (source : Option String) : String :=
  match d.context with
  | none => d.headline
  | some c =>
    let located := d.headline ++ "\n" ++ c.display
    match source.bind c.span.excerpt? with
    | some (line, caret) => located ++ "\n" ++ line ++ "\n" ++ caret
    | none => located

end Diagnostic

end Shroud
