import Shroud.DataType.Json
import Shroud.Json.Reader
import Shroud.Source.Basic

/-! # Source units in JSON

Readers take the number of levels that they may still enter; a text may nest 127 of them.
-/

namespace Shroud

namespace FunctionKind

def tag : FunctionKind → String
  | function => "function"
  | constructor => "constructor"

def ofJson? (j : Json) : Option FunctionKind :=
  j.tag?.bind fun t => [function, constructor].find? fun k => k.tag == t

end FunctionKind

namespace Visibility

def tag : Visibility → String
  | pub => "public"
  | external => "external"
  | internal => "internal"
  | priv => "private"

def ofJson? (j : Json) : Option Visibility :=
  j.tag?.bind fun t => [pub, external, internal, priv].find? fun v => v.tag == t

end Visibility

namespace Mutability

def tag : Mutability → String
  | nonPayable => "non_payable"
  | payable => "payable"
  | view => "view"
  | pure => "pure"

def ofJson? (j : Json) : Option Mutability :=
  j.tag?.bind fun t => [nonPayable, payable, view, pure].find? fun m => m.tag == t

end Mutability

namespace Source

def Owner.ofJson? : Json → Option Owner
  | .obj [("name", j)] => j.str?.map .name
  | j => match j.tag? with
    | some "all" => some .all
    | some "me" => some .me
    | _ => none

def Owner.toJson : Owner → Json
  | .all => .str "all"
  | .me => .str "me"
  | .name n => .obj [("name", .str n)]

def DataType.ofTag? : String → Option DataType
  | "bool" => some .bool
  | "address" => some .address
  | "address_payable" => some .addressPayable
  | _ => none

mutual

def DataType.read : Nat → Json → Option DataType
  | n, j => match j with
    | .str tag => DataType.ofTag? tag
    | .obj [(tag, j)] => match n with
      | 0 => none
      | n + 1 => match tag with
        | "uint" => j.word16?.map .uint
        | "int" => j.word16?.map .int
        | "mapping" => match n with
          | 0 => none
          | n + 1 => do
            let field ← j.record? ["key", "key_label", "value"]
            let key ← (field "key").required (DataType.read n)
            let label ← (field "key_label").optional Json.str?
            let value ← (field "value").required (OwnedType.read n)
            return .mapping key label value
        | "array" => match n with
          | 0 => none
          | n + 1 => do
            let field ← j.record? ["elem", "len"]
            let elem ← (field "elem").required (OwnedType.read n)
            let len ← (field "len").optional Json.word64?
            return .array elem len
        | tag => match j with
          | .null => DataType.ofTag? tag
          | _ => none
    | _ => none

def OwnedType.read : Nat → Json → Option OwnedType
  | 0, _ => none
  | n + 1, j => do
    let field ← j.record? ["ty", "privacy"]
    let type ← (field "ty").required (DataType.read n)
    let owner ← (field "privacy").orElse .all (Json.flat n Owner.ofJson?)
    return .mk type owner

end

mutual

def Expr.read : Nat → Json → Option Expr
  | 0, _ => none
  | n + 1, j => do
    let field ← j.record? ["kind", "span"]
    let span ← (field "span").orElse {} (Json.flat n Span.ofJson?)
    (field "kind").required (Expr.readKind n span)

def Expr.readKind : Nat → Span → Json → Option Expr
  | n, span, j => match j with
    | .str "me" => some (.me span)
    | .obj [(tag, j)] => match n with
      | 0 => none
      | n + 1 => match tag with
        | "bool" => j.bool?.map (.bool span)
        | "number" => j.literal?.map (.number span)
        | "me" => if j matches .null then some (.me span) else none
        | "ident" => j.str?.map (.ident span)
        | "builtin" => match n with
          | 0 => none
          | n + 1 => do
            let field ← j.record? ["op", "args"]
            let op ← (field "op").required (Json.flat n Operator.ofJson?)
            let args ← (field "args").required (Expr.readList n)
            return .builtin span op args
        | "call" => match n with
          | 0 => none
          | n + 1 => do
            let field ← j.record? ["func", "args"]
            let function ← (field "func").required Json.str?
            let args ← (field "args").required (Expr.readList n)
            return .call span function args
        | "index" => match n with
          | 0 => none
          | n + 1 => do
            let field ← j.record? ["base", "index"]
            let base ← (field "base").required (Expr.read n)
            let idx ← (field "index").required (Expr.read n)
            return .index span base idx
        | "reveal" => match n with
          | 0 => none
          | n + 1 => do
            let field ← j.record? ["expr", "to"]
            let e ← (field "expr").required (Expr.read n)
            let owner ← (field "to").required (Json.flat n Owner.ofJson?)
            return .reveal span e owner
        | "cast" => match n with
          | 0 => none
          | n + 1 => do
            let field ← j.record? ["ty", "expr"]
            let type ← (field "ty").required (DataType.read n)
            let e ← (field "expr").required (Expr.read n)
            return .cast span type e
        | "tuple" => (Expr.readList n j).map (.tuple span)
        | _ => none
    | _ => none

def Expr.readList : Nat → Json → Option (List Expr)
  | n + 1, .arr elems => elems.mapM (Expr.read n)
  | _, _ => none

end

mutual

def Stmt.read : Nat → Json → Option Stmt
  | 0, _ => none
  | n + 1, j => do
    let field ← j.record? ["kind", "span"]
    let span ← (field "span").orElse {} (Json.flat n Span.ofJson?)
    (field "kind").required (Stmt.readKind n span)

def Stmt.readKind : Nat → Span → Json → Option Stmt
  | n, span, j => match j with
    | .str "break" => some (.leave span)
    | .str "continue" => some (.next span)
    | .obj [(tag, j)] => match n with
      | 0 => none
      | n + 1 => match tag with
        | "block" => (Stmt.readList n j).map (.block span)
        | "if" => match n with
          | 0 => none
          | n + 1 => do
            let field ← j.record? ["cond", "then", "otherwise"]
            let c ← (field "cond").required (Expr.read n)
            let yes ← (field "then").required (Stmt.read n)
            let no ← (field "otherwise").optional (Stmt.read n)
            return .cond span c yes no
        | "while" => match n with
          | 0 => none
          | n + 1 => do
            let field ← j.record? ["cond", "body"]
            let c ← (field "cond").required (Expr.read n)
            let body ← (field "body").required (Stmt.read n)
            return .loop span c body
        | "do_while" => match n with
          | 0 => none
          | n + 1 => do
            let field ← j.record? ["body", "cond"]
            let body ← (field "body").required (Stmt.read n)
            let c ← (field "cond").required (Expr.read n)
            return .doLoop span body c
        | "for" => match n with
          | 0 => none
          | n + 1 => do
            let field ← j.record? ["init", "cond", "update", "body"]
            let init ← (field "init").optional (Stmt.read n)
            let c ← (field "cond").optional (Expr.read n)
            let update ← (field "update").optional (Stmt.read n)
            let body ← (field "body").required (Stmt.read n)
            return .forLoop span init c update body
        | "var_decl" => match n with
          | 0 => none
          | n + 1 => do
            let field ← j.record? ["name", "ty", "is_final", "init"]
            let name ← (field "name").required Json.str?
            let type ← (field "ty").required (OwnedType.read n)
            let isFinal ← (field "is_final").orElse false Json.bool?
            let init ← (field "init").optional (Expr.read n)
            return .decl span name type isFinal init
        | "assign" => match n with
          | 0 => none
          | n + 1 => do
            let field ← j.record? ["lhs", "op", "rhs"]
            let lhs ← (field "lhs").required (Expr.read n)
            let op ← (field "op").optional (Json.flat n Operator.ofJson?)
            let rhs ← (field "rhs").required (Expr.read n)
            return .assign span lhs op rhs
        | "expr" => (Expr.read n j).map (.expr span)
        | "require" => (Expr.read n j).map (.require span)
        | "return" => match j with
          | .null => some (.ret span none)
          | j => (Expr.read n j).map fun e => .ret span (some e)
        | "break" => if j matches .null then some (.leave span) else none
        | "continue" => if j matches .null then some (.next span) else none
        | _ => none
    | _ => none

def Stmt.readList : Nat → Json → Option (List Stmt)
  | n + 1, .arr elems => elems.mapM (Stmt.read n)
  | _, _ => none

end

/-- An array that enters one level, with elements that may enter the rest. -/
def readList (read : Nat → Json → Option α) : Nat → Json → Option (List α)
  | n + 1, .arr elems => elems.mapM (read n)
  | _, _ => none

def StateVar.read : Nat → Json → Option StateVar
  | 0, _ => none
  | n + 1, j => do
    let field ← j.record? ["name", "ty", "is_final", "is_constant", "init", "span"]
    return {
      name := ← (field "name").required Json.str?
      type := ← (field "ty").required (OwnedType.read n)
      isFinal := ← (field "is_final").orElse false Json.bool?
      isConstant := ← (field "is_constant").orElse false Json.bool?
      init := ← (field "init").optional (Expr.read n)
      span := ← (field "span").orElse {} (Json.flat n Span.ofJson?) }

def Param.read : Nat → Json → Option Param
  | 0, _ => none
  | n + 1, j => do
    let field ← j.record? ["name", "ty", "is_final", "span"]
    return {
      name := ← (field "name").required Json.str?
      type := ← (field "ty").required (OwnedType.read n)
      isFinal := ← (field "is_final").orElse false Json.bool?
      span := ← (field "span").orElse {} (Json.flat n Span.ofJson?) }

def Function.read : Nat → Json → Option Function
  | 0, _ => none
  | n + 1, j => do
    let field ← j.record?
      ["name", "kind", "visibility", "mutability", "params", "returns", "body", "span"]
    return {
      name := ← (field "name").required Json.str?
      kind := ← (field "kind").orElse .function (Json.flat n FunctionKind.ofJson?)
      visibility := ← (field "visibility").orElse .pub (Json.flat n Visibility.ofJson?)
      mutability := ← (field "mutability").orElse .nonPayable (Json.flat n Mutability.ofJson?)
      params := ← (field "params").orElse [] (readList Param.read n)
      returns := ← (field "returns").orElse [] (readList OwnedType.read n)
      body := ← (field "body").orElse [] (Stmt.readList n)
      span := ← (field "span").orElse {} (Json.flat n Span.ofJson?) }

def Contract.read : Nat → Json → Option Contract
  | 0, _ => none
  | n + 1, j => do
    let field ← j.record? ["name", "state_vars", "functions", "span"]
    return {
      name := ← (field "name").required Json.str?
      stateVars := ← (field "state_vars").orElse [] (readList StateVar.read n)
      functions := ← (field "functions").orElse [] (readList Function.read n)
      span := ← (field "span").orElse {} (Json.flat n Span.ofJson?) }

mutual

def DataType.toJson : DataType → Json
  | .bool => .str "bool"
  | .uint n => .obj [("uint", .ofNat n)]
  | .int n => .obj [("int", .ofNat n)]
  | .address => .str "address"
  | .addressPayable => .str "address_payable"
  | .mapping k l v =>
    .obj [("mapping", .obj
      [("key", k.toJson), ("key_label", .ofOption .str l), ("value", v.toJson)])]
  | .array e n => .obj [("array", .obj [("elem", e.toJson), ("len", .ofOption .ofNat n)])]

def OwnedType.toJson : OwnedType → Json
  | .mk t o => .obj [("ty", t.toJson), ("privacy", o.toJson)]

end

/-- A node of the tree: its kind and its place. -/
def node (span : Span) (kind : Json) : Json := .obj [("kind", kind), ("span", span.toJson)]

mutual

def Expr.toJson : Expr → Json
  | .bool s b => node s (.obj [("bool", .bool b)])
  | .number s n => node s (.obj [("number", .ofLiteral n)])
  | .me s => node s (.str "me")
  | .ident s name => node s (.obj [("ident", .str name)])
  | .builtin s op args =>
    node s (.obj [("builtin", .obj [("op", op.toJson), ("args", .arr (Expr.toJsonList args))])])
  | .call s f args =>
    node s (.obj [("call", .obj [("func", .str f), ("args", .arr (Expr.toJsonList args))])])
  | .index s base idx =>
    node s (.obj [("index", .obj [("base", base.toJson), ("index", idx.toJson)])])
  | .reveal s e o => node s (.obj [("reveal", .obj [("expr", e.toJson), ("to", o.toJson)])])
  | .cast s t e => node s (.obj [("cast", .obj [("ty", t.toJson), ("expr", e.toJson)])])
  | .tuple s es => node s (.obj [("tuple", .arr (Expr.toJsonList es))])

def Expr.toJsonList : List Expr → List Json
  | [] => []
  | e :: es => e.toJson :: Expr.toJsonList es

end

mutual

def Stmt.toJson : Stmt → Json
  | .block s body => node s (.obj [("block", .arr (Stmt.toJsonList body))])
  | .cond s c yes no =>
    node s (.obj [("if", .obj
      [("cond", c.toJson), ("then", yes.toJson), ("otherwise", Stmt.toJsonOption no)])])
  | .loop s c body => node s (.obj [("while", .obj [("cond", c.toJson), ("body", body.toJson)])])
  | .doLoop s body c =>
    node s (.obj [("do_while", .obj [("body", body.toJson), ("cond", c.toJson)])])
  | .forLoop s init c update body =>
    node s (.obj [("for", .obj
      [("init", Stmt.toJsonOption init), ("cond", .ofOption Expr.toJson c),
        ("update", Stmt.toJsonOption update), ("body", body.toJson)])])
  | .decl s name type isFinal init =>
    node s (.obj [("var_decl", .obj
      [("name", .str name), ("ty", type.toJson), ("is_final", .bool isFinal),
        ("init", .ofOption Expr.toJson init)])])
  | .assign s lhs op rhs =>
    node s (.obj [("assign", .obj
      [("lhs", lhs.toJson), ("op", .ofOption Operator.toJson op), ("rhs", rhs.toJson)])])
  | .expr s e => node s (.obj [("expr", e.toJson)])
  | .require s e => node s (.obj [("require", e.toJson)])
  | .ret s e => node s (.obj [("return", .ofOption Expr.toJson e)])
  | .leave s => node s (.str "break")
  | .next s => node s (.str "continue")

def Stmt.toJsonList : List Stmt → List Json
  | [] => []
  | s :: ss => s.toJson :: Stmt.toJsonList ss

def Stmt.toJsonOption : Option Stmt → Json
  | none => .null
  | some s => s.toJson

end

def StateVar.toJson (v : StateVar) : Json :=
  .obj [("name", .str v.name), ("ty", v.type.toJson), ("is_final", .bool v.isFinal),
    ("is_constant", .bool v.isConstant), ("init", .ofOption Expr.toJson v.init),
    ("span", v.span.toJson)]

def Param.toJson (p : Param) : Json :=
  .obj [("name", .str p.name), ("ty", p.type.toJson), ("is_final", .bool p.isFinal),
    ("span", p.span.toJson)]

def Function.toJson (f : Function) : Json :=
  .obj [("name", .str f.name), ("kind", .str f.kind.tag), ("visibility", .str f.visibility.tag),
    ("mutability", .str f.mutability.tag), ("params", .ofList Param.toJson f.params),
    ("returns", .ofList OwnedType.toJson f.returns), ("body", .arr (Stmt.toJsonList f.body)),
    ("span", f.span.toJson)]

def Contract.toJson (c : Contract) : Json :=
  .obj [("name", .str c.name), ("state_vars", .ofList StateVar.toJson c.stateVars),
    ("functions", .ofList Function.toJson c.functions), ("span", c.span.toJson)]

end Source

namespace SourceUnit

/-- Reads a unit, entering at most the given number of levels. -/
def read : Nat → Json → Option SourceUnit
  | 0, _ => none
  | n + 1, j => do
    let field ← j.record? ["contracts"]
    return ⟨← (field "contracts").required (Source.readList Source.Contract.read n)⟩

/-- The levels that a text may nest. -/
def textLevels : Nat := 127

/-- Reads a unit from a value of any nesting. -/
def ofJson? (j : Json) : Option SourceUnit := read j.depth j

/-- Reads a unit from a text. -/
def ofText? (s : String) : Option SourceUnit := (Json.parse? s).bind (read textLevels)

def toJson (u : SourceUnit) : Json := .obj [("contracts", .ofList Source.Contract.toJson u.contracts)]

end SourceUnit

end Shroud
