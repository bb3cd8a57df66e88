import Shroud.DataType.Describe
import Shroud.Solidity.Basic

/-! # Solidity text

Contracts as source text, four spaces to a level. An operand that is itself an operation with
more than one operand stands in parentheses.
-/

namespace Shroud.Solidity

namespace DataType

mutual

def render : DataType → String
  | .bool => "bool"
  | .uint n => "uint" ++ Nat.repr n
  | .int n => "int" ++ Nat.repr n
  | .address => "address"
  | .addressPayable => "address payable"
  | .cipher n | .key n | .proof n | .words (some n) => "uint[" ++ Nat.repr n ++ "]"
  | .words none => "uint[]"
  | .mapping k v => "mapping(" ++ k.render ++ " => " ++ v.render ++ ")"
  | .array e (some n) => e.render ++ "[" ++ Nat.repr n ++ "]"
  | .array e none => e.render ++ "[]"
  | .tuple es => "(" ++ String.intercalate ", " (renderList es) ++ ")"
  | .struct name | .contract name => name

def renderList : List DataType → List String
  | [] => []
  | t :: ts => t.render :: renderList ts

end

end DataType

def Location.render : Option Location → String
  | some .memory => " memory"
  | some .calldata => " calldata"
  | none => ""

namespace Expr

/-- Whether an operand stands in parentheses. -/
def isCompound : Expr → Bool
  | .op o _ => o.arity > 1
  | _ => false

def parenthesized (e : Expr) (text : String) : String :=
  if e.isCompound then "(" ++ text ++ ")" else text

/-- An operator between its operands, which are given plain and as operands. -/
def renderOp (o : Operator) (plain operands : List String) : String :=
  match o, plain, operands with
  | .paren, [a], _ => "(" ++ a ++ ")"
  | .ite, _, [c, a, b] => c ++ " ? " ++ a ++ " : " ++ b
  | o, _, [a] => o.symbol ++ a
  | o, _, [a, b] => a ++ " " ++ o.symbol ++ " " ++ b
  | o, plain, _ => o.symbol ++ "(" ++ String.intercalate ", " plain ++ ")"

mutual

def render : Expr → String
  | .bool b => describeBool b
  | .number n => Text.decimal n
  | .ident name _ => name
  | .sender => "msg.sender"
  | .member base name => parenthesized base base.render ++ "." ++ name
  | .index base idx => parenthesized base base.render ++ "[" ++ idx.render ++ "]"
  | .op o args =>
    let plain := renderList args
    renderOp o plain (args.zipWith parenthesized plain)
  | .cast t e => t.render ++ "(" ++ e.render ++ ")"
  | .call f args _ => f ++ "(" ++ String.intercalate ", " (renderList args) ++ ")"
  | .method target name args =>
    parenthesized target target.render ++ "." ++ name ++ "(" ++
      String.intercalate ", " (renderList args) ++ ")"
  | .newWords len => "new uint[](" ++ len.render ++ ")"
  | .tuple elems => "(" ++ String.intercalate ", " (renderList elems) ++ ")"

def renderList : List Expr → List String
  | [] => []
  | e :: es => e.render :: renderList es

end

/-- Two signs in a row are not held apart, so they read as the symbol of a decrement. -/
theorem render_neg_neg : (op .neg [op .neg [.ident "x" none]]).render = "--x" := by
  decide

end Expr

/-- A line at its level. -/
structure Line where
  level : Nat
  text : String

namespace Line

def render (l : Line) : String :=
  if l.text.isEmpty then "\n"
  else String.ofList (List.replicate (4 * l.level) ' ') ++ l.text ++ "\n"

def blank : Line := ⟨0, ""⟩

end Line

namespace Stmt

/-- A statement without its semicolon, for the head of a `for`. Statements that are not simple
have no such form. -/
def renderSimple : Stmt → String
  | .decl t name loc init _ =>
    t.render ++ Location.render loc ++ " " ++ name ++
      match init with
      | some e => " = " ++ e.render
      | none => ""
  | .assign lhs rhs => lhs.render ++ " = " ++ rhs.render
  | .expr e => e.render
  | _ => ""

/-- The head of a `for`. -/
def forHead (init : Option Stmt) (c : Option Expr) (update : Option Stmt) : String :=
  let simple (s : Option Stmt) := (s.map renderSimple).getD ""
  "for (" ++ simple init ++ "; " ++ (c.map Expr.render).getD "" ++ "; " ++ simple update ++ ")"

mutual

def lines (level : Nat) : Stmt → List Line
  | .comment text => [⟨level, "// " ++ text⟩]
  | .block body => ⟨level, "\x7b"⟩ :: linesList (level + 1) body ++ [⟨level, "\x7d"⟩]
  | .cond c yes no =>
    ⟨level, "if (" ++ c.render ++ ") \x7b"⟩ :: linesList (level + 1) yes ++
      linesElse level no ++ [⟨level, "\x7d"⟩]
  | .loop c body =>
    ⟨level, "while (" ++ c.render ++ ") \x7b"⟩ :: linesList (level + 1) body ++ [⟨level, "\x7d"⟩]
  | .doLoop body c =>
    ⟨level, "do \x7b"⟩ :: linesList (level + 1) body ++
      [⟨level, "\x7d while (" ++ c.render ++ ");"⟩]
  | .forLoop init c update body =>
    ⟨level, forHead init c update ++ " \x7b"⟩ :: linesList (level + 1) body ++ [⟨level, "\x7d"⟩]
  | .require e => [⟨level, "require(" ++ e.render ++ ");"⟩]
  | .ret (some e) => [⟨level, "return " ++ e.render ++ ";"⟩]
  | .ret none => [⟨level, "return;"⟩]
  | .leave => [⟨level, "break;"⟩]
  | .next => [⟨level, "continue;"⟩]
  | s => [⟨level, s.renderSimple ++ ";"⟩]

def linesList (level : Nat) : List Stmt → List Line
  | [] => []
  | s :: ss => s.lines level ++ linesList level ss

/-- What follows the first branch of an `if`. -/
def linesElse (level : Nat) : Option (List Stmt) → List Line
  | none => []
  | some no => ⟨level, "\x7d else \x7b"⟩ :: linesList (level + 1) no

end

end Stmt

def visibilityWord : Visibility → String
  | .pub => "public"
  | .external => "external"
  | .internal => "internal"
  | .priv => "private"

def mutabilityWord : Mutability → String
  | .nonPayable => ""
  | .payable => " payable"
  | .view => " view"
  | .pure => " pure"

namespace Function

def head (f : Function) : String :=
  let params := String.intercalate ", " <|
    f.params.map fun p => p.type.render ++ Location.render p.location ++ " " ++ p.name
  let returned (t : DataType) :=
    t.render ++ Location.render (if t.isReference then some .memory else none)
  let name :=
    if f.isConstructor then "constructor(" ++ params ++ ")"
    else "function " ++ f.name ++ "(" ++ params ++ ") " ++ visibilityWord f.visibility
  let returns :=
    if f.returns.isEmpty then ""
    else " returns (" ++ String.intercalate ", " (f.returns.map returned) ++ ")"
  name ++ mutabilityWord f.mutability ++ returns

def lines (level : Nat) (f : Function) : List Line :=
  ⟨level, f.head ++ " \x7b"⟩ :: Stmt.linesList (level + 1) f.body ++ [⟨level, "\x7d"⟩]

end Function

namespace Contract

def pragma : String := "pragma solidity ^0.8.0;"

def stateVarLine (v : StateVar) : String :=
  v.type.render ++ (if v.isConstant then " constant" else "") ++ " " ++ v.name ++
    (match v.init with
    | some e => " = " ++ e.render
    | none => "") ++ ";"

/-- A titled group of state variables, if there are any. -/
def group (title : String) (vars : List StateVar) : List Line :=
  if vars.isEmpty then []
  else ⟨1, "// " ++ title⟩ :: vars.map (fun v => ⟨1, stateVarLine v⟩) ++ [.blank]

def structLines (s : Struct) : List Line :=
  ⟨1, "struct " ++ s.name ++ " \x7b"⟩ ::
    s.fields.map (fun (t, name) => ⟨2, t.render ++ " " ++ name ++ ";"⟩) ++ [⟨1, "\x7d"⟩, .blank]

def lines (c : Contract) : List Line :=
  [⟨0, pragma⟩, .blank] ++
  (if c.imports.isEmpty then []
    else c.imports.map (fun i => ⟨0, "import \"./" ++ i ++ "\";"⟩) ++ [.blank]) ++
  [⟨0, "contract " ++ c.name ++ " \x7b"⟩] ++
  group "External contracts" c.instances ++
  group "User state variables" c.stateVars ++
  c.structs.flatMap structLines ++
  [Line.blank].intercalate (c.functions.map (Function.lines 1)) ++
  [⟨0, "\x7d"⟩]

/-- The source file of a contract. -/
def render (c : Contract) : String := String.join (c.lines.map Line.render)

end Contract

end Shroud.Solidity
