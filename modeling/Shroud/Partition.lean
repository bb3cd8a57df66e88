import Shroud.Sorted

/-! # Partitions

Disjoint classes of elements that are known to be equal. Classes keep the order in which they
arose, except that the last class takes the place of one that disappears; the elements of a class
are sorted.
-/

namespace Shroud

structure Partition (α : Type) where
  classes : List (List α) := []
deriving Repr, DecidableEq, Inhabited

namespace Partition

variable {α : Type} [DecidableEq α]

def empty : Partition α := ⟨[]⟩

/-- Removes the class at a position, in favour of the last one. -/
def dropClass (classes : List (List α)) (i : Nat) : List (List α) :=
  match classes.getLast? with
  | none => []
  | some last => (classes.set i last).dropLast

/-- The position of the class of an element. -/
def position? (p : Partition α) (x : α) : Option Nat := p.classes.findIdx? fun c => c.contains x

def has (p : Partition α) (x : α) : Bool := (p.position? x).isSome

/-- The class of an element. -/
def class? (p : Partition α) (x : α) : Option (List α) :=
  (p.position? x).bind fun i => p.classes[i]?

/-- Whether two elements are known to be equal. Every element equals itself. -/
def same (p : Partition α) (x y : α) : Bool :=
  x = y || match p.position? x, p.position? y with
    | some i, some j => i = j
    | _, _ => false

def elements (p : Partition α) : List α := p.classes.flatten

/-- Adds an element that is in no class yet as a class of its own. -/
def insert (p : Partition α) (x : α) : Partition α :=
  if p.has x then p else ⟨p.classes ++ [[x]]⟩

def remove (p : Partition α) (x : α) : Partition α :=
  match p.position? x with
  | none => p
  | some i =>
    let rest := (p.classes[i]?.getD []).erase x
    if rest.isEmpty then ⟨dropClass p.classes i⟩ else ⟨p.classes.set i rest⟩

variable [Ord α]

/-- Unites the classes of two elements that are both present. -/
def merge (p : Partition α) (x y : α) : Partition α :=
  match p.position? x, p.position? y with
  | some i, some j =>
    if i = j then p
    else
      let kept := min i j
      let moved := max i j
      let united := Sorted.union (p.classes[kept]?.getD []) (p.classes[moved]?.getD [])
      ⟨(dropClass p.classes moved).set kept united⟩
  | _, _ => p

/-- Takes `x` out of its class and puts it into that of `target`. -/
def moveTo (p : Partition α) (x target : α) : Partition α :=
  if p.same x target && p.has x then p
  else
    let q := p.remove x
    match q.position? target with
    | some i => ⟨q.classes.set i (Sorted.insert x (q.classes[i]?.getD []))⟩
    | none => q.insert x

omit [Ord α] in
/-- Takes `x` out of its class and makes it a class of its own. -/
def moveApart (p : Partition α) (x : α) : Partition α := (p.remove x).insert x

omit [DecidableEq α] [Ord α] in
/-- The pieces of a class of which only some elements stay together. -/
def splitClass (keep : α → Bool) (c : List α) : List (List α) :=
  let kept := c.filter keep
  let rest := (c.filter fun x => !keep x).map fun x => [x]
  if kept.isEmpty then rest else kept :: rest

omit [DecidableEq α] [Ord α] in
/-- Forgets what is known, except between elements that `keep` singles out. -/
def separate (p : Partition α) (keep : α → Bool) : Partition α :=
  ⟨p.classes.flatMap (splitClass keep)⟩

omit [Ord α] in
/-- What two partitions have in common. -/
def join (p q : Partition α) : Partition α :=
  ⟨p.classes.flatMap fun c =>
    (q.classes.map fun d => c.filter d.contains).filter fun e => !e.isEmpty⟩

omit [DecidableEq α] in
/-- The classes in order, whatever their history. -/
def normalized (p : Partition α) : List (List α) := Sorted.ofList p.classes

/-- Equality up to the order of classes. -/
def agrees (p q : Partition α) : Bool := p.normalized = q.normalized

omit [DecidableEq α] in
/-- The written form: classes and elements between braces. -/
def describe (name : α → String) (p : Partition α) : String :=
  let braces (xs : List String) := "\x7b" ++ String.intercalate ", " xs ++ "\x7d"
  braces (p.normalized.map fun c => braces (c.map name))

end Partition

end Shroud
