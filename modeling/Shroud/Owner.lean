/-! # Owners

Who may see a value. An owner that stands for one party at a program point is a label; the owner
of a mapping's values that is named by the mapping's own key becomes one when the mapping is
indexed.
-/

namespace Shroud

/-- A declared name: state variable, parameter or local. -/
structure VarId where
  index : Nat
deriving DecidableEq, Repr, Inhabited

structure FunctionId where
  index : Nat
deriving DecidableEq, Repr, Inhabited

structure ContractId where
  index : Nat
deriving DecidableEq, Repr, Inhabited

instance : Ord VarId := ⟨fun a b => compare a.index b.index⟩

instance : Ord FunctionId := ⟨fun a b => compare a.index b.index⟩

/-- The owner of a value. -/
inductive Owner where
  | all
  | me
  | var (v : VarId)
  /-- The key of the mapping that holds the value. -/
  | key (name : String)
deriving DecidableEq, Repr, Inhabited

/-- An owner that the alias analysis can reason about. -/
inductive Label where
  | me
  | all
  | var (v : VarId)
deriving DecidableEq, Repr, Inhabited

namespace Label

/-- Labels in order: `me`, `all`, then the variables. -/
def rank : Label → Nat
  | me => 0
  | all => 1
  | var v => v.index + 2

instance : Ord Label := ⟨fun a b => compare a.rank b.rank⟩

def owner : Label → Owner
  | me => .me
  | all => .all
  | var v => .var v

end Label

namespace Owner

def isAll : Owner → Bool
  | all => true
  | _ => false

def isPrivate (o : Owner) : Bool := !o.isAll

def label? : Owner → Option Label
  | all => some .all
  | me => some .me
  | var v => some (.var v)
  | key _ => none

/-- The written form, with variables named by `name`. -/
def describe (name : VarId → String) : Owner → String
  | all => "all"
  | me => "me"
  | var v => name v
  | key l => l

end Owner

end Shroud
