import Shroud.Json.Basic
import Shroud.Text.Basic

/-! # Tokens of JSON text -/

namespace Shroud.Json

inductive Token where
  | openBrace
  | closeBrace
  | openBracket
  | closeBracket
  | comma
  | colon
  | word (j : Json)
  /-- A string literal; `none` if its escapes leave half of a surrogate pair. -/
  | text (s : Option String)
deriving Repr

namespace Token

/-- An element of a string literal: a character as such, or the 16-bit unit of an escape. -/
inductive Element where
  | plain (c : Char)
  | unit (n : Nat)
deriving Repr

def hexDigit? (c : Char) : Option Nat :=
  if '0' ≤ c && c ≤ '9' then some (c.toNat - '0'.toNat)
  else if 'a' ≤ c && c ≤ 'f' then some (c.toNat - 'a'.toNat + 10)
  else if 'A' ≤ c && c ≤ 'F' then some (c.toNat - 'A'.toNat + 10)
  else none

def hexUnit? (a b c d : Char) : Option Nat := do
  let a ← hexDigit? a
  let b ← hexDigit? b
  let c ← hexDigit? c
  let d ← hexDigit? d
  return ((a * 16 + b) * 16 + c) * 16 + d

/-- The escapes of one letter. -/
def escaped? : Char → Option Char
  | '"' => some '"'
  | '\\' => some '\\'
  | '/' => some '/'
  | 'b' => some '\x08'
  | 'f' => some '\x0c'
  | 'n' => some '\n'
  | 'r' => some '\r'
  | 't' => some '\t'
  | _ => none

/-- The elements of a literal up to its closing quote, and the text after that. -/
def elements? : List Char → Option (List Element × List Char)
  | [] => none
  | '"' :: rest => some ([], rest)
  | '\\' :: 'u' :: a :: b :: c :: d :: rest => do
    let n ← hexUnit? a b c d
    let (es, rest) ← elements? rest
    return (.unit n :: es, rest)
  | '\\' :: e :: rest => do
    let c ← escaped? e
    let (es, rest) ← elements? rest
    return (.plain c :: es, rest)
  | c :: rest => do
    guard (c != '\\' && 0x20 ≤ c.toNat)
    let (es, rest) ← elements? rest
    return (.plain c :: es, rest)

def isHighSurrogate (n : Nat) : Bool := 0xd800 ≤ n && n < 0xdc00

def isLowSurrogate (n : Nat) : Bool := 0xdc00 ≤ n && n < 0xe000

/-- The characters of a literal: a high surrogate and the low one right after it are one
character, and neither may stand alone. -/
def characters? : List Element → Option (List Char)
  | [] => some []
  | .plain c :: rest => (characters? rest).map (c :: ·)
  | .unit hi :: .unit lo :: rest =>
    if isHighSurrogate hi then
      if isLowSurrogate lo then
        (characters? rest).map (Char.ofNat (0x10000 + (hi - 0xd800) * 0x400 + (lo - 0xdc00)) :: ·)
      else none
    else if isLowSurrogate hi then none
    else (characters? (.unit lo :: rest)).map (Char.ofNat hi :: ·)
  | .unit n :: rest =>
    if isHighSurrogate n || isLowSurrogate n then none
    else (characters? rest).map (Char.ofNat n :: ·)

def isNumberChar (c : Char) : Bool :=
  Text.isDigit c || c == '-' || c == '+' || c == '.' || c == 'e' || c == 'E'

/-- A digit sequence without a superfluous leading zero. -/
def isPlainDigits (ds : List Char) : Bool :=
  !ds.isEmpty && ds.all Text.isDigit && (ds.head? != some '0' || ds.length == 1)

def isExponent (cs : List Char) : Bool :=
  let ds := match cs with
    | '-' :: ds => ds
    | '+' :: ds => ds
    | ds => ds
  !ds.isEmpty && ds.all Text.isDigit

def isExponentMark (c : Char) : Bool := c == 'e' || c == 'E'

/-- What may follow the integer digits of a number: a fraction, an exponent, or both. -/
def isTail (cs : List Char) : Bool :=
  match cs with
  | [] => true
  | '.' :: frac =>
    let ds := frac.takeWhile Text.isDigit
    !ds.isEmpty && match frac.dropWhile Text.isDigit with
      | [] => true
      | m :: rest => isExponentMark m && isExponent rest
  | m :: rest => isExponentMark m && isExponent rest

/-- A number. An integer that fits no 64-bit word, and minus zero, are reals. -/
def number? (cs : List Char) : Option Json :=
  let (negative, body) := match cs with
    | '-' :: body => (true, body)
    | body => (false, body)
  let ds := body.takeWhile Text.isDigit
  let tail := body.dropWhile Text.isDigit
  if !(isPlainDigits ds && isTail tail) then none
  else
    let n := ds.foldl (fun acc d => 10 * acc + Text.digitValue d) 0
    let v : Int := if negative then -(n : Int) else n
    if tail.isEmpty && isWord v && !(negative && n == 0) then some (.int v)
    else some (.real (String.ofList cs))

def isBlank (c : Char) : Bool := c == ' ' || c == '\n' || c == '\t' || c == '\r'

/-- Cuts off the first token; the rest is shorter than the text for each step of `tokens?`. -/
def next? (c : Char) (rest : List Char) : Option (Option Token × List Char) :=
  if isBlank c then some (none, rest)
  else match c, rest with
    | '{', _ => some (some .openBrace, rest)
    | '}', _ => some (some .closeBrace, rest)
    | '[', _ => some (some .openBracket, rest)
    | ']', _ => some (some .closeBracket, rest)
    | ',', _ => some (some .comma, rest)
    | ':', _ => some (some .colon, rest)
    | 't', 'r' :: 'u' :: 'e' :: rest => some (some (.word (.bool true)), rest)
    | 'f', 'a' :: 'l' :: 's' :: 'e' :: rest => some (some (.word (.bool false)), rest)
    | 'n', 'u' :: 'l' :: 'l' :: rest => some (some (.word .null), rest)
    | '"', _ => do
      let (es, rest) ← elements? rest
      return (some (.text ((characters? es).map String.ofList)), rest)
    | _, _ => do
      let j ← number? (c :: rest.takeWhile isNumberChar)
      return (some (.word j), rest.dropWhile isNumberChar)

/-- The tokens of a text, given a bound on its length. -/
def tokensWithin : Nat → List Char → Option (List Token)
  | _, [] => some []
  | 0, _ :: _ => none
  | n + 1, c :: rest => do
    let (t, rest) ← next? c rest
    let ts ← tokensWithin n rest
    return match t with
      | none => ts
      | some t => t :: ts

def tokens? (s : String) : Option (List Token) :=
  let cs := s.toList
  tokensWithin cs.length cs

end Token

end Shroud.Json
