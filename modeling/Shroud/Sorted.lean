/-! # Sorted lists

Finite sets and finite maps as lists in ascending order, without repetition.
-/

namespace Shroud.Sorted

variable {α β : Type}

section Set

variable [Ord α]

/-- Adds an element in its place. -/
def insert (x : α) : List α → List α
  | [] => [x]
  | y :: ys =>
    match compare x y with
    | .lt => x :: y :: ys
    | .eq => y :: ys
    | .gt => y :: insert x ys

def ofList (xs : List α) : List α := xs.foldl (fun s x => insert x s) []

def union (s t : List α) : List α := t.foldl (fun s x => insert x s) s

end Set

section Map

variable [Ord α]

/-- Binds a key in its place, in favour of the new value. -/
def put (k : α) (v : β) : List (α × β) → List (α × β)
  | [] => [(k, v)]
  | (l, w) :: rest =>
    match compare k l with
    | .lt => (k, v) :: (l, w) :: rest
    | .eq => (k, v) :: rest
    | .gt => (l, w) :: put k v rest

/-- The value of a key. -/
def find? [BEq α] (m : List (α × β)) (k : α) : Option β :=
  (m.find? fun e => e.1 == k).map Prod.snd

end Map

end Shroud.Sorted
