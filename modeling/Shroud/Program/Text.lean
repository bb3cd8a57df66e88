import Shroud.Program.Basic

/-! # Source text of programs

Expressions and statements as they are written in comments of circuits. Implicit conversions are
not shown, and a compound statement shows its head only.
-/

namespace Shroud.Program

/-- Whether an operand stands in parentheses. -/
def isCompound : Expr → Bool
  | .builtin _ op _ _ => op.arity > 1
  | .reclassify _ e _ true => isCompound e
  | .cast _ _ e true => isCompound e
  | _ => false

def parenthesized (e : Expr) (text : String) : String :=
  if isCompound e then "(" ++ text ++ ")" else text

/-- An operator between its operands, which are given plain and as operands. -/
def opText (op : Operator) (plain operands : List String) : String :=
  match op, plain, operands with
  | .paren, [a], _ => "(" ++ a ++ ")"
  | .ite, _, [c, a, b] => c ++ " ? " ++ a ++ " : " ++ b
  | op, _, [a] => op.symbol ++ a
  | op, _, [a, b] => a ++ " " ++ op.symbol ++ " " ++ b
  | op, _, _ => op.symbol ++ "(..)"

mutual

def exprText (p : Program) : Expr → String
  | .bool _ b => describeBool b
  | .number _ n => Text.decimal n
  | .me _ => "me"
  | .ident _ v => p.varName v
  | .builtin _ op args _ =>
    let plain := exprTexts p args
    opText op plain (args.zipWith parenthesized plain)
  | .call _ f args =>
    (p.function f).name ++ "(" ++ String.intercalate ", " (exprTexts p args) ++ ")"
  | .index _ base idx => parenthesized base (exprText p base) ++ "[" ++ exprText p idx ++ "]"
  | .reclassify _ e _ true => exprText p e
  | .reclassify _ e o false => "reveal(" ++ exprText p e ++ ", " ++ p.describeOwner o ++ ")"
  | .cast _ _ e true => exprText p e
  | .cast _ t e false => t.describe p.varName ++ "(" ++ exprText p e ++ ")"
  | .tuple _ es => "(" ++ String.intercalate ", " (exprTexts p es) ++ ")"

def exprTexts (p : Program) : List Expr → List String
  | [] => []
  | e :: es => exprText p e :: exprTexts p es

end

def stmtText (p : Program) : Stmt → String
  | .block _ _ => "\x7b ... \x7d"
  | .cond _ c _ _ => "if (" ++ exprText p c ++ ")"
  | .loop _ c _ => "while (" ++ exprText p c ++ ")"
  | .doLoop _ _ c => "do ... while (" ++ exprText p c ++ ")"
  | .forLoop _ _ c _ _ => "for (...; " ++ (c.map (exprText p)).getD "" ++ "; ...)"
  | .decl _ v init =>
    p.describe (p.var v).type ++ " " ++ p.varName v ++
      match init with
      | some e => " = " ++ exprText p e
      | none => ""
  | .assign _ lhs rhs => exprText p lhs ++ " = " ++ exprText p rhs
  | .expr _ e => exprText p e
  | .require _ e => "require(" ++ exprText p e ++ ")"
  | .ret _ (some e) => "return " ++ exprText p e
  | .ret _ none => "return"
  | .leave _ => "break"
  | .next _ => "continue"

end Shroud.Program
