import Shroud.Error

/-! # Frames in the shared buffers

A function with a circuit keeps its arguments in a slice of shared buffers: its own words first,
then the slices of the functions that it calls, in order of the calls. The sizes of these slices
follow from the call tree; they are computed exactly, and stored as counts are kept.
-/

namespace Shroud

/-- The buffer words of one circuit without those of its callees. -/
structure Frame where
  ins : Nat := 0
  outs : Nat := 0
  secrets : Nat := 0
  /-- Called functions, once for each call site. -/
  calls : List FunctionId := []
  keys : List Label := []
deriving DecidableEq, Repr, Inhabited

/-- The buffer words of all functions below a call tree's root. -/
structure Callees where
  ins : Nat := 0
  outs : Nat := 0
  secrets : Nat := 0
  /-- The global keys of the root and of everything below it. -/
  keys : List Label := []
deriving DecidableEq, Repr, Inhabited

/-- Frames by function, in ascending order. -/
abbrev Frames := List (FunctionId × Frame)

namespace Callees

/-- Keys after those that are there already. -/
def addKeys (keys : List Label) (more : List Label) : List Label :=
  more.foldl (fun ks k => if ks.contains k then ks else ks ++ [k]) keys

/-- Adds the slice of one call. -/
def addCall (t : Callees) (callee : Frame) (below : Callees) : Callees where
  ins := t.ins + (callee.ins + below.ins)
  outs := t.outs + (callee.outs + below.outs)
  secrets := t.secrets + (callee.secrets + below.secrets)
  keys := addKeys t.keys below.keys

/-- The sizes as they are kept. -/
def stored (t : Callees) : Callees where
  ins := Count.kept t.ins
  outs := Count.kept t.outs
  secrets := Count.kept t.secrets
  keys := t.keys

end Callees

namespace Frames

/-- Sizes that are known already. -/
abbrev Sizes := List (FunctionId × Callees)

/-- Adds the slices of the calls to what is there, given the sizes below each called function. -/
def visitCalls (frames : Frames) (visit : FunctionId → StateT Sizes (Except Error) Callees) :
    List FunctionId → Callees → StateT Sizes (Except Error) Callees
  | [], t => return t
  | g :: rest, t => do
    match Sorted.find? frames g with
    | none => throw (.internal .callWithoutCircuit)
    | some callee =>
      let below ← visit g
      visitCalls frames visit rest (t.addCall callee below)

/-- The sizes below a function. The path holds the functions whose sizes are being computed;
it can grow by as many as there are functions. -/
def visit (frames : Frames) : Nat → List FunctionId → FunctionId →
    StateT Sizes (Except Error) Callees
  | n, path, f => do
    if let some t := Sorted.find? (← get) f then return t
    if path.contains f then throw (.internal .cycle)
    match Sorted.find? frames f with
    | none => throw (.internal .callWithoutCircuit)
    | some own => match n with
      | 0 => throw (.internal .cycle)
      | n + 1 =>
        let t ← visitCalls frames (visit frames n (path ++ [f])) own.calls { keys := own.keys }
        modify (Sorted.put f t)
        return t

/-- The sizes below every function, in ascending order of functions. -/
def sizes (frames : Frames) : Except Error Sizes := do
  let visitAll := frames.forM fun e => discard (visit frames frames.length [] e.1)
  let ((), done) ← visitAll.run []
  return done

/-- The sizes below every function as they are kept. -/
def storedSizes (frames : Frames) : Except Error Sizes := do
  return (← frames.sizes).map fun (f, t) => (f, t.stored)

/-- The offsets of call sites from a position on, and the position after the last slice. -/
def offsetsFrom (frames : Frames) (sizes : Sizes) (ins outs : Nat) :
    List FunctionId → Except Error (List (Nat × Nat) × Nat × Nat)
  | [] => return ([], ins, outs)
  | g :: rest => do
    let some callee := Sorted.find? frames g | throw (.internal .callWithoutCircuit)
    let some below := Sorted.find? sizes g | throw (.internal .callWithoutCircuit)
    let (offsets, last) ←
      offsetsFrom frames sizes (ins + (callee.ins + below.ins)) (outs + (callee.outs + below.outs))
        rest
    return ((ins, outs) :: offsets, last)

/-- Where the slice of each call of a function starts, relative to the function's own slice. -/
def offsets (frames : Frames) (sizes : Sizes) (f : FunctionId) :
    Except Error (List (Nat × Nat)) := do
  let some own := Sorted.find? frames f | throw (.internal .callWithoutCircuit)
  let (offsets, ins, outs) ← offsetsFrom frames sizes own.ins own.outs own.calls
  let some total := Sorted.find? sizes f | throw (.internal .callWithoutCircuit)
  if Count.kept ins ≠ Count.kept (own.ins + total.ins) ∨
      Count.kept outs ≠ Count.kept (own.outs + total.outs) then
    throw (.internal .offsetsDisagree)
  return offsets

/-- Where the slices of a function's calls start, as these counts are kept. -/
def storedOffsets (frames : Frames) (sizes : Sizes) (f : FunctionId) :
    Except Error (List (Nat × Nat)) := do
  return (← frames.offsets sizes f).map fun (ins, outs) => (Count.kept ins, Count.kept outs)

end Frames

end Shroud
