import Mathlib
import Shroud.Circuit.Basic

/-! # Well-formed circuits

A circuit is checked and evaluated step by step. For that its guards must be bracketed, each block
by itself, and a step may read only what is given from outside or was defined before. Temporaries
have one definition each.
-/

namespace Shroud

namespace Circuit

namespace Term

mutual

/-- The variables that a term reads. -/
def wires : Term → List String
  | .wire name => [name]
  | .number _ | .bool _ => []
  | .op _ args => wiresList args
  | .cast _ e | .encrypt e _ => e.wires

def wiresList : List Term → List String
  | [] => []
  | e :: es => e.wires ++ wiresList es

end

theorem mem_wiresList {x : String} {es : List Term} : x ∈ wiresList es ↔ ∃ e ∈ es, x ∈ e.wires := by
  induction es with
  | nil => simp [wiresList]
  | cons e es ih => simp [wiresList, ih]

end Term

@[simp] theorem Wire.wires_term (w : Wire) : w.term.wires = [w.name] := rfl

namespace Step

variable {ss : List Step} {s : Step} {known : Set String} {ts : List Step}

/-- The variables that a step reads. -/
def reads : Step → List String
  | .declare _ e | .assign _ e => e.wires
  | .equal plain output => [plain.name, output.name]
  | .encryption plain randomness key cipher _ =>
    [plain.name, randomness.name, key.name, cipher.name]
  | .enterGuard cond _ => [cond]
  | _ => []

/-- The temporary that a step defines. -/
def defined? : Step → Option String
  | .declare w _ | .assign w _ => some w.name
  | _ => none

def callee? : Step → Option String
  | .call f => some f
  | _ => none

/-- The temporaries that some steps define. -/
def defined (ss : List Step) : List String := ss.filterMap defined?

/-- The circuits that some steps call. -/
def called (ss : List Step) : List String := ss.filterMap callee?

@[simp] theorem defined_nil : defined [] = [] := rfl

@[simp] theorem defined_append (ss ts : List Step) :
    defined (ss ++ ts) = defined ss ++ defined ts := List.filterMap_append

@[simp] theorem called_append (ss ts : List Step) : called (ss ++ ts) = called ss ++ called ts :=
  List.filterMap_append

/-! ## Blocks -/

@[simp] theorem walkList_append (ss ts : List Step) :
    walkList (ss ++ ts) = walkList ss ++ walkList ts := by
  induction ss with
  | nil => rfl
  | cons s ss ih => rw [List.cons_append, walkList, ih, walkList, List.append_assoc]

@[simp] theorem flatten_nil : flatten [] = [] := rfl

@[simp] theorem flatten_append (ss ts : List Step) :
    flatten (ss ++ ts) = flatten ss ++ flatten ts := by
  rw [flatten, walkList_append, List.filter_append]
  rfl

theorem walk_of_not_isBlock (h : s.isBlock = false) : s.walk = [s] := by
  cases s with
  | block name steps => cases h
  | _ => rfl

theorem walkList_singleton (h : s.isBlock = false) : walkList [s] = [s] := by
  rw [walkList, walk_of_not_isBlock h, walkList]
  rfl

@[simp] theorem flatten_singleton (h : s.isBlock = false) : flatten [s] = [s] := by
  rw [flatten, walkList_singleton h]
  simp [h]

@[simp] theorem flatten_block (name : String) (steps : List Step) :
    flatten [.block name steps] = flatten steps := by
  rw [flatten, walkList, walk, walkList, List.append_nil, List.filter_cons_of_neg (by simp [isBlock])]
  rfl

/-! ## Guards -/

/-- How many guards are open after some steps, if each of them was opened before it is closed. -/
def openGuards (n : Nat) : List Step → Option Nat
  | [] => some n
  | .enterGuard _ _ :: ss => openGuards (n + 1) ss
  | .leaveGuard :: ss => match n with
    | 0 => none
    | n + 1 => openGuards n ss
  | _ :: ss => openGuards n ss

/-- Every guard is closed, and none is closed that was not opened. -/
def Bracketed (ss : List Step) : Prop := openGuards 0 ss = some 0

def isGuard : Step → Bool
  | .enterGuard _ _ | .leaveGuard => true
  | _ => false

theorem openGuards_append (n : Nat) (ss ts : List Step) :
    openGuards n (ss ++ ts) = (openGuards n ss).bind fun m => openGuards m ts := by
  induction ss generalizing n with
  | nil => rfl
  | cons s ss ih =>
    cases s with
    | leaveGuard => cases n with
      | zero => rfl
      | succ n => exact ih n
    | enterGuard cond holds => exact ih (n + 1)
    | _ => exact ih n

/-- Guards around the steps make no difference. -/
theorem openGuards_add {n m : Nat} (h : openGuards n ss = some m) (k : Nat) :
    openGuards (n + k) ss = some (m + k) := by
  induction ss generalizing n with
  | nil =>
    cases h
    rfl
  | cons s ss ih =>
    cases s with
    | leaveGuard => cases n with
      | zero => cases h
      | succ n =>
        rw [Nat.add_right_comm]
        exact ih h
    | enterGuard cond holds =>
      have hs := ih (n := n + 1) h
      rw [Nat.add_right_comm] at hs
      exact hs
    | _ => exact ih h

theorem bracketed_nil : Bracketed [] := rfl

theorem bracketed_singleton (h : s.isGuard = false) : Bracketed [s] := by
  cases s with
  | enterGuard cond holds | leaveGuard => cases h
  | _ => rfl

theorem Bracketed.append (hs : Bracketed ss) (ht : Bracketed ts) : Bracketed (ss ++ ts) := by
  rw [Bracketed, openGuards_append, hs]
  exact ht

theorem Bracketed.guarded (h : Bracketed ss) (cond : String) (holds : Bool) :
    Bracketed (.enterGuard cond holds :: ss ++ [.leaveGuard]) := by
  have hopen : openGuards 1 ss = some 1 := openGuards_add h 1
  show openGuards 1 (ss ++ [.leaveGuard]) = some 0
  rw [openGuards_append, hopen]
  rfl

/-! ## Definitions before uses -/

/-- A step reads only what is known before it, or defined by an earlier step. -/
def Grounded (known : Set String) : List Step → Prop
  | [] => True
  | s :: ss => (∀ x ∈ s.reads, x ∈ known) ∧ Grounded (known ∪ {x | x ∈ s.defined?}) ss

theorem Grounded.mono {known' : Set String} (h : Grounded known ss) (hk : known ⊆ known') :
    Grounded known' ss := by
  induction ss generalizing known known' with
  | nil => trivial
  | cons s ss ih =>
    exact ⟨fun x hx => hk (h.1 x hx), ih h.2 (Set.union_subset_union_left _ hk)⟩

theorem defined_cons (s : Step) (ss : List Step) :
    {x | x ∈ defined (s :: ss)} = {x | x ∈ s.defined?} ∪ {x | x ∈ defined ss} := by
  ext x
  rw [defined, List.filterMap_cons]
  cases s.defined? <;> simp [defined, eq_comm]

theorem grounded_append :
    Grounded known (ss ++ ts) ↔ Grounded known ss ∧ Grounded (known ∪ {x | x ∈ defined ss}) ts := by
  induction ss generalizing known with
  | nil => simp [Grounded]
  | cons s ss ih =>
    rw [List.cons_append, Grounded, Grounded, ih, defined_cons, Set.union_assoc, and_assoc]

/-- What is read at some point of the steps was known or is defined before that point. -/
theorem Grounded.reads (h : Grounded known ss) {before after : List Step}
    (hs : ss = before ++ s :: after) : ∀ x ∈ s.reads, x ∈ known ∨ x ∈ defined before := by
  subst hs
  exact (grounded_append.1 h).2.1

end Step

/-- The variables that the buffers of a circuit hold. -/
def slotNames (c : Circuit) : List String := (c.secrets ++ c.inputs ++ c.outputs).map Slot.name

end Circuit

open Circuit (Step)

/-- What a back end may rely on when it goes through the steps of a circuit. -/
structure Circuit.WellFormed (c : Circuit) : Prop where
  bracketed : Step.Bracketed (Step.flatten c.steps)
  /-- The guards in a block are closed in it. -/
  blocks : ∀ name steps, Step.block name steps ∈ Step.walkList c.steps →
    Step.Bracketed (Step.flatten steps)
  /-- A step reads buffers, keys and temporaries that are defined before it. -/
  grounded : ∀ before s after, Step.flatten c.steps = before ++ s :: after → ∀ x ∈ s.reads,
    x ∈ c.slotNames ∨ x ∈ c.keys ∨ x ∈ Step.defined before
  /-- No temporary is defined twice. -/
  nodup : (Step.defined (Step.flatten c.steps)).Nodup
  /-- Circuits are called in the order in which the layout has their slices. -/
  calls : Step.called (Step.flatten c.steps) = c.calls

end Shroud
