/-! # Texts

White space, splitting, lines and decimal integers. White space is what has the Unicode property
`White_Space`. A split text has one more part than separators. A line ends at a line feed, which may
follow a carriage return; a last line needs none, and a final one opens no further line. Underscores
in a decimal may stand anywhere after the first digit and carry no value.
-/

namespace Shroud.Text

/-! ## White space -/

/-- The code points with the property `White_Space`. -/
def isBlankCode (n : Nat) : Bool :=
  (0x9 ≤ n && n ≤ 0xd) || n == 0x20 || n == 0x85 || n == 0xa0 || n == 0x1680 ||
  (0x2000 ≤ n && n ≤ 0x200a) || n == 0x2028 || n == 0x2029 || n == 0x202f || n == 0x205f ||
  n == 0x3000

def isBlank (c : Char) : Bool := isBlankCode c.toNat

/-- The text without white space at its ends. -/
def trimBlank (s : List Char) : List Char :=
  ((s.dropWhile isBlank).reverse.dropWhile isBlank).reverse

/-! ## Parts and lines -/

/-- The parts, with `pending` the reversed part read so far. -/
def splitFrom (sep : Char) (pending : List Char) : List Char → List (List Char)
  | [] => [pending.reverse]
  | c :: rest =>
    if c == sep then pending.reverse :: splitFrom sep [] rest
    else splitFrom sep (c :: pending) rest

def split (sep : Char) (s : String) : List String :=
  (splitFrom sep [] s.toList).map String.ofList

/-- Drops one carriage return at the end of a line that a line feed closed. -/
def dropReturn (line : List Char) : List Char :=
  if line.getLast? == some '\r' then line.dropLast else line

/-- The lines of a text, with `pending` the reversed part of the line read so far. -/
def linesFrom (pending : List Char) : List Char → List (List Char)
  | [] => if pending.isEmpty then [] else [pending.reverse]
  | c :: rest =>
    if c == '\n' then dropReturn pending.reverse :: linesFrom [] rest
    else linesFrom (c :: pending) rest

def lines (s : String) : List String := (linesFrom [] s.toList).map String.ofList

/-- The number of bytes of the UTF-8 form. -/
def byteLength (s : String) : Nat := s.utf8ByteSize

def spaces (n : Nat) : String := String.ofList (List.replicate n ' ')

/-! ## Decimal integers -/

def isDigit (c : Char) : Bool := '0' ≤ c && c ≤ '9'

def digitValue (c : Char) : Nat := c.toNat - '0'.toNat

/-- Digits and underscores after the first digit, on top of the value read so far. -/
def digitsFrom (acc : Nat) : List Char → Option Nat
  | [] => some acc
  | c :: rest =>
    if c == '_' then digitsFrom acc rest
    else if isDigit c then digitsFrom (10 * acc + digitValue c) rest
    else none

/-- An unsigned decimal: a digit, then digits and underscores. -/
def unsigned? : List Char → Option Nat
  | [] => none
  | c :: rest => if isDigit c then digitsFrom (digitValue c) rest else none

/-- A decimal with at most one sign. -/
def signed? : List Char → Option Int
  | '-' :: rest => (unsigned? rest).map fun n => -(n : Int)
  | '+' :: rest => (unsigned? rest).map fun n => (n : Int)
  | cs => (unsigned? cs).map fun n => (n : Int)

/-- A decimal between white space. -/
def decimal? (s : String) : Option Int := signed? (trimBlank s.toList)

/-- A plain decimal: an optional minus sign and the digits. -/
def decimal (n : Int) : String :=
  match n with
  | .ofNat m => Nat.repr m
  | .negSucc m => "-" ++ Nat.repr (m + 1)

end Shroud.Text
