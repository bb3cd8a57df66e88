import Shroud.Sorted

/-! # Bindings

The current versions of names inside a circuit. Circuit variables never change; where the program
writes a variable, its name is bound to a new version. After a branch, the versions at the ends of
both sides are joined.
-/

namespace Shroud

/-- Names with their current versions, in ascending order of names. -/
structure Bindings (κ ν : Type) where
  entries : List (κ × ν) := []
deriving Repr, Inhabited

namespace Bindings

variable {κ ν : Type} [DecidableEq κ] [Ord κ]

def empty : Bindings κ ν := ⟨[]⟩

def isEmpty (b : Bindings κ ν) : Bool := b.entries.isEmpty

def get? (b : Bindings κ ν) (k : κ) : Option ν := Sorted.find? b.entries k

def isBound (b : Bindings κ ν) (k : κ) : Bool := (b.get? k).isSome

/-- Binds a name to its newest version. -/
def bind (b : Bindings κ ν) (k : κ) (v : ν) : Bindings κ ν := ⟨Sorted.put k v b.entries⟩

/-- Forgets the versions of names that go out of scope. -/
def drop (b : Bindings κ ν) (keys : List κ) : Bindings κ ν :=
  ⟨b.entries.filter fun e => !keys.contains e.1⟩

/-- Goes back to a saved state, except for the names that persist. -/
def rollback (b saved : Bindings κ ν) (persists : κ → Bool) : Bindings κ ν :=
  (b.entries.filter fun e => persists e.1).foldl (fun s e => s.bind e.1 e.2) saved

section Join

variable [DecidableEq ν] {m : Type → Type} [Monad m]

/-- The names bound at the end of the first branch, each with its joined version: a version that
both branches share stays, any other two are merged. -/
def joinFirst (second : Bindings κ ν) (merge : κ → Option ν → Option ν → m ν) :
    List (κ × ν) → m (List (κ × ν))
  | [] => pure []
  | (k, v) :: rest => do
    let joined ←
      if second.get? k = some v then pure v
      else merge k (some v) (second.get? k)
    return (k, joined) :: (← joinFirst second merge rest)

/-- The names bound at the end of the second branch only. -/
def joinSecond (merge : κ → Option ν → Option ν → m ν) : List (κ × ν) → m (List (κ × ν))
  | [] => pure []
  | (k, w) :: rest => do
    let joined ← merge k none (some w)
    return (k, joined) :: (← joinSecond merge rest)

/-- Joins the ends of two branches. Merging goes through the names of the first branch in
ascending order, then through the remaining names of the second. -/
def join (first second : Bindings κ ν) (merge : κ → Option ν → Option ν → m ν) :
    m (Bindings κ ν) := do
  let shared ← joinFirst second merge first.entries
  let added ← joinSecond merge (second.entries.filter fun e => !first.isBound e.1)
  return added.foldl (fun b e => b.bind e.1 e.2) ⟨shared⟩

/-- What is bound after a join: nothing if a merge failed. -/
def afterJoin {ε : Type} : Except ε (Bindings κ ν) → Bindings κ ν
  | .ok b => b
  | .error _ => empty

end Join

end Bindings

end Shroud
