import Shroud.Proofs.Lowering.Functions
import Shroud.Proofs.Lowering.Supply

/-! # Guards and tests

The steps of a circuit stand between guards (`Step.located`), and the code that moves its data stands
under tests (`DataUse`). A `Segment` pairs steps with the code beside them; in one that `Agrees`, the
guards around the step for some data are the tests around the code for it, one for one. The trace
`guards` builds such a segment for each whole body. So what is read was constrained, and what is
constrained was written. Private `if`s are left out: inside them code and circuit do not branch alike.
-/

namespace Shroud

/-! ## Guards around steps -/

namespace Circuit.Step

/-- The condition of a guard, with the value that it has where the guard lets steps through. -/
abbrev Guard := String × Bool

/-- Steps with the guards around them, from the outside in. -/
def located (path : List Guard) : List Step → List (List Guard × Step)
  | [] => []
  | .enterGuard cond holds :: ss =>
    (path, .enterGuard cond holds) :: located (path ++ [(cond, holds)]) ss
  | .leaveGuard :: ss => located path.dropLast ss
  | s :: ss => (path, s) :: located path ss

/-- Guards that stay open around some steps are around each of them. -/
theorem located_append_of_openGuards {ss : List Step} {inner : List Guard} {m : Nat}
    (h : openGuards inner.length ss = some m) : ∃ inner' : List Guard, inner'.length = m ∧
      ∀ path ts, located (path ++ inner) (ss ++ ts) =
        (located inner ss).map (Prod.map (path ++ ·) id) ++ located (path ++ inner') ts := by
  induction ss generalizing inner with
  | nil =>
    cases h
    exact ⟨inner, rfl, fun path ts => rfl⟩
  | cons s ss ih =>
    cases s with
    | enterGuard cond holds =>
      have hopen : openGuards (inner ++ [(cond, holds)]).length ss = some m := by
        rw [List.length_append]
        exact h
      obtain ⟨inner', hlength, heq⟩ := ih hopen
      refine ⟨inner', hlength, fun path ts => ?_⟩
      rw [List.cons_append, located, List.append_assoc, heq]
      rfl
    | leaveGuard =>
      cases inner using List.reverseRecOn with
      | nil => cases h
      | append_singleton inner g =>
        have hopen : openGuards inner.length ss = some m := by simpa [openGuards] using h
        obtain ⟨inner', hlength, heq⟩ := ih hopen
        refine ⟨inner', hlength, fun path ts => ?_⟩
        rw [List.cons_append, located, ← List.append_assoc, List.dropLast_concat, heq, located,
          List.dropLast_concat]
    | _ =>
      obtain ⟨inner', hlength, heq⟩ := ih h
      refine ⟨inner', hlength, fun path ts => ?_⟩
      rw [List.cons_append, located, heq]
      · rfl
      all_goals nofun

variable {ss ts : List Step}

/-- Steps between which and others no guard stays open. -/
theorem Bracketed.located_append (h : Bracketed ss) (path : List Guard) (ts : List Step) :
    located path (ss ++ ts) = (located [] ss).map (Prod.map (path ++ ·) id) ++ located path ts := by
  obtain ⟨inner, hinner, heq⟩ := @located_append_of_openGuards ss [] 0 h
  obtain rfl := List.length_eq_zero_iff.1 hinner
  simpa using heq path ts

theorem Bracketed.located_append_nil (h : Bracketed ss) (ts : List Step) :
    located [] (ss ++ ts) = located [] ss ++ located [] ts := by
  rw [h.located_append]
  simp [Prod.map_def]

/-- A step in a guard, with that guard around it. -/
def inGuard (g : Guard) (x : List Guard × Step) : List Guard × Step := (g :: x.1, x.2)

theorem Bracketed.located_guarded (h : Bracketed ss) (cond : String) (holds : Bool) :
    located [] (.enterGuard cond holds :: ss ++ [.leaveGuard]) =
      ([], .enterGuard cond holds) :: (located [] ss).map (inGuard (cond, holds)) := by
  rw [List.cons_append, located, h.located_append, List.nil_append]
  simp [located, inGuard, Prod.map_def]

theorem located_singleton {s : Step} (h : s.isGuard = false) : located [] [s] = [([], s)] := by
  cases s with
  | enterGuard cond holds | leaveGuard => cases h
  | _ => rfl

/-- The output that a step constrains. -/
def output? : Step → Option String
  | .equal _ output => some output.name
  | .encryption _ _ _ cipher false => some cipher.name
  | _ => none

/-- A step is the first to be about an input: it says what its value is, or uses it as the ciphertext
of a secret or as a key. -/
def Introduces (x : String) : Step → Prop
  | .comment text => ∃ value, text = x ++ " = " ++ value
  | .encryption _ _ key cipher isDec => key.name = x ∨ isDec = true ∧ cipher.name = x
  | _ => False

/-- The outputs that steps constrain, with the guards around these. -/
def published (xs : List (List Guard × Step)) : List (List Guard × String) :=
  xs.filterMap fun x => x.2.output?.map fun name => (x.1, name)

@[simp] theorem published_append (xs ys : List (List Guard × Step)) :
    published (xs ++ ys) = published xs ++ published ys := List.filterMap_append

theorem published_map_inGuard (g : Guard) (xs : List (List Guard × Step)) :
    published (xs.map (inGuard g)) = (published xs).map fun x => (g :: x.1, x.2) := by
  induction xs with
  | nil => rfl
  | cons x xs ih =>
    have hcons : ∀ y ys, published (y :: ys) = published [y] ++ published ys := fun y ys =>
      published_append [y] ys
    rw [List.map_cons, hcons, ih, hcons x, List.map_append]
    cases hx : x.2.output? <;> simp [published, inGuard, hx]

/-- The temporaries that are declared, with their values. -/
def declared (ss : List Step) : List (String × Term) :=
  ss.filterMap fun
    | .declare w value => some (w.name, value)
    | _ => none

@[simp] theorem declared_append (ss ts : List Step) :
    declared (ss ++ ts) = declared ss ++ declared ts := List.filterMap_append

end Circuit.Step

namespace Lowering

open Circuit (Stream Term Wire Step)
open Circuit.Step (Guard)
open Solidity (DataUse Test uses)

/-! ## Tests and guards -/

/-- The atoms of conditions at a place: the inputs that the code has written, and the constants that the
circuit has declared, with their values. -/
structure Atoms where
  inputs : List String := []
  constants : List (String × Term) := []

/-- A test in the code has the value of a guard's condition: both are about one input, or about one
constant, which the circuit has as a temporary. -/
inductive Stands (base : Env) (c : Atoms) : Test → Guard → Prop
  | input {name : String} (holds : Bool) (h : name ∈ c.inputs) :
      Stands base c ⟨.member (.ident base.settings.dataName) name, holds⟩ (name, holds)
  | constant {e : Expr} {cond : Solidity.Expr} {value : Term} {name : String} (holds : Bool)
      (h : ConstantForms base e cond value) (hname : (name, value) ∈ c.constants) :
      Stands base c (.of cond holds) (name, holds)

/-- The atoms of one place are among those of another. -/
structure Atoms.Within (c c' : Atoms) : Prop where
  inputs : c.inputs ⊆ c'.inputs
  constants : c.constants ⊆ c'.constants

variable {base : Env} {c c' c'' : Atoms} {u : ContractEnv} {f : FunctionId}

theorem Atoms.Within.refl (c : Atoms) : c.Within c := ⟨.refl _, .refl _⟩

theorem Atoms.Within.trans (h : c.Within c') (h' : c'.Within c'') : c.Within c'' :=
  ⟨List.Subset.trans h.inputs h'.inputs, List.Subset.trans h.constants h'.constants⟩

theorem Stands.mono {t : Test} {g : Guard} (hs : Stands base c t g) (h : c.Within c') :
    Stands base c' t g := by
  cases hs with
  | input holds hx => exact .input holds (h.inputs hx)
  | constant holds hforms hx => exact .constant holds hforms (h.constants hx)

/-- Tests and guards, one for one. -/
abbrev StandAll (base : Env) (c : Atoms) : List Test → List Guard → Prop :=
  List.Forall₂ (Stands base c)

theorem StandAll.mono {ts : List Test} {gs : List Guard} (hs : StandAll base c ts gs)
    (h : c.Within c') : StandAll base c' ts gs := hs.imp fun _ _ ht => ht.mono h

/-! ## What crosses the boundary -/

/-- A field of the circuit's data, with the tests around the code for it and the guards around the step
for it. -/
structure Crossing where
  name : String
  tests : List Test := []
  guards : List Guard := []

/-- An input, with the value that the code gives it. -/
structure Fill extends Crossing where
  value : Solidity.Expr

def Crossing.under (t : Test) (g : Guard) (x : Crossing) : Crossing :=
  { x with tests := t :: x.tests, guards := g :: x.guards }

def Fill.under (t : Test) (g : Guard) (x : Fill) : Fill :=
  { x with tests := t :: x.tests, guards := g :: x.guards }

/-- An output is read. -/
def Crossing.use (x : Crossing) : DataUse := ⟨x.tests, .read x.name⟩

/-- An input is written. -/
def Fill.use (x : Fill) : DataUse := ⟨x.tests, .write x.name x.value⟩

/-- A segment of a circuit with the code beside it: the steps, the outputs that the code reads, and the
inputs that it writes. -/
structure Segment where
  steps : List Step := []
  outs : List Crossing := []
  ins : List Fill := []
  /-- Inputs that tests read. -/
  again : List DataUse := []

namespace Segment

def append (d d' : Segment) : Segment :=
  ⟨d.steps ++ d'.steps, d.outs ++ d'.outs, d.ins ++ d'.ins, d.again ++ d'.again⟩

/-- A segment in one more guard. -/
def under (cond : Solidity.Expr) (name : String) (holds : Bool) (d : Segment) : Segment where
  steps := .enterGuard name holds :: d.steps ++ [.leaveGuard]
  outs := d.outs.map (.under (.of cond holds) (name, holds))
  ins := d.ins.map (.under (.of cond holds) (name, holds))
  again := d.again.map (.under cond holds)

def uses (d : Segment) : List DataUse := d.outs.map Crossing.use ++ d.ins.map Fill.use ++ d.again

/-- The steps with the guards around them. -/
abbrev located (d : Segment) : List (List Guard × Step) := Step.located [] d.steps

end Segment

/-- The atoms after a segment, also those that it has in guards. -/
def Atoms.with (c : Atoms) (d : Segment) : Atoms :=
  ⟨c.inputs ++ d.ins.map (·.name), c.constants ++ Step.declared d.steps⟩

/-- The atoms that may be used after a segment: its inputs among them stand in no guard. -/
structure Atoms.Follows (c : Atoms) (d : Segment) (c' : Atoms) : Prop where
  keeps : c.Within c'
  adds : c'.Within (c.with d)
  outside : ∀ x ∈ c'.inputs, x ∈ c.inputs ∨ ∃ i ∈ d.ins, i.name = x ∧ i.tests = [] ∧ i.guards = []

/-- The variables of a circuit that are no inputs. -/
def State.internal (p : Program) (σ : State) : Set String :=
  { x | x ∈ σ.temporaries.names ∨ x ∈ σ.secrets.names ∨ x ∈ σ.outputs.names ∨
    ∃ o ∈ σ.keys, x = keyName p o }

/-- Code and circuit agree in a segment that begins with the atoms `c`. -/
structure Segment.Agrees (base : Env) (c : Atoms) (τ : State) (d : Segment) : Prop where
  bracketed : Step.Bracketed d.steps
  /-- The steps constrain the outputs that the code reads. -/
  published : Step.published d.located = d.outs.map fun o => (o.guards, o.name)
  /-- The steps introduce the inputs that the code writes. -/
  introduced : ∀ i ∈ d.ins, ∃ s, (i.guards, s) ∈ d.located ∧ s.Introduces i.name
  outs : ∀ o ∈ d.outs, StandAll base (c.with d) o.tests o.guards
  ins : ∀ i ∈ d.ins, StandAll base (c.with d) i.tests i.guards
  /-- Tests read inputs that were written under fewer tests. -/
  again : ∀ r ∈ d.again, ∃ x, r.access = .read x ∧
    (x ∈ c.inputs ∨ ∃ i ∈ d.ins, i.name = x ∧ i.tests <+: r.tests)
  /-- Steps read inputs that were introduced in fewer guards. -/
  reads : ∀ s ∈ d.located, ∀ x ∈ s.2.reads,
    x ∈ c.inputs ∨ (∃ i ∈ d.ins, i.name = x ∧ i.guards <+: s.1) ∨ x ∈ τ.internal base.program

/-- The segment `d` leads from one state to another, and the code beside it has the uses `us`. -/
structure Matched (base : Env) (c : Atoms) (σ : State) (c' : Atoms) (τ : State) (us : List DataUse)
    (d : Segment) : Prop where
  steps : Step.flatten τ.steps = Step.flatten σ.steps ++ d.steps
  outputs : τ.outputs.names = σ.outputs.names ++ d.outs.map (·.name)
  inputs : τ.inputs.names = σ.inputs.names ++ d.ins.map (·.name)
  /-- Outputs are told apart by their numbers. -/
  numbered : σ.outputs.Numbered → τ.outputs.Numbered
  internal : σ.internal base.program ⊆ τ.internal base.program
  used : us.Perm d.uses
  agrees : d.Agrees base c τ
  follows : c.Follows d c'

namespace Atoms

theorem within_with (c : Atoms) (d : Segment) : c.Within (c.with d) :=
  ⟨List.subset_append_left .., List.subset_append_left ..⟩

theorem Follows.self (c : Atoms) (d : Segment) : c.Follows d c :=
  ⟨.refl c, c.within_with d, fun _ => .inl⟩

theorem with_append_left (c : Atoms) (d d' : Segment) : (c.with d).Within (c.with (d.append d')) where
  inputs := by
    intro x
    simp only [Atoms.with, Segment.append, List.map_append, List.mem_append]
    tauto
  constants := by
    intro x
    simp only [Atoms.with, Segment.append, Step.declared_append, List.mem_append]
    tauto

theorem Within.with_append_right {d : Segment} (h : c'.Within (c.with d)) (d' : Segment) :
    (c'.with d').Within (c.with (d.append d')) where
  inputs := by
    intro x hx
    have hc := @h.inputs x
    simp only [Atoms.with, Segment.append, List.map_append, List.mem_append] at hx hc ⊢
    tauto
  constants := by
    intro x hx
    have hc := @h.constants x
    simp only [Atoms.with, Segment.append, Step.declared_append, List.mem_append] at hx hc ⊢
    tauto

theorem with_under (c : Atoms) (d : Segment) (cond : Solidity.Expr) (name : String) (holds : Bool) :
    (c.with d).Within (c.with (d.under cond name holds)) where
  inputs := by
    intro x hx
    simpa [Atoms.with, Segment.under, Fill.under, Function.comp_def] using hx
  constants := by
    intro x hx
    simpa [Atoms.with, Segment.under, Step.declared] using hx

theorem Follows.trans {d d' : Segment} (h : c.Follows d c') (h' : c'.Follows d' c'') :
    c.Follows (d.append d') c'' where
  keeps := h.keeps.trans h'.keeps
  adds := h'.adds.trans (h.adds.with_append_right d')
  outside x hx := by
    rcases h'.outside x hx with hx | ⟨i, hi, hname⟩
    · refine (h.outside x hx).imp id ?_
      rintro ⟨i, hi, hname⟩
      exact ⟨i, List.mem_append_left _ hi, hname⟩
    · exact .inr ⟨i, List.mem_append_right _ hi, hname⟩

end Atoms

namespace Segment.Agrees

variable {d d' : Segment} {ρ τ : State}

protected theorem append (h : d.Agrees base c ρ) (hf : c.Follows d c') (h' : d'.Agrees base c' τ)
    (hi : ρ.internal base.program ⊆ τ.internal base.program) : (d.append d').Agrees base c τ where
  bracketed := h.bracketed.append h'.bracketed
  published := by
    simp only [Segment.located, Segment.append, h.bracketed.located_append_nil, Step.published_append,
      List.map_append]
    rw [← h.published, ← h'.published]
  introduced i hi := by
    simp only [Segment.located, Segment.append, h.bracketed.located_append_nil, List.mem_append] at hi ⊢
    rcases hi with hi | hi
    · obtain ⟨s, hs, hintro⟩ := h.introduced i hi
      exact ⟨s, .inl hs, hintro⟩
    · obtain ⟨s, hs, hintro⟩ := h'.introduced i hi
      exact ⟨s, .inr hs, hintro⟩
  outs := List.forall_mem_append.2 ⟨fun o ho => (h.outs o ho).mono (c.with_append_left d d'),
    fun o ho => (h'.outs o ho).mono (hf.adds.with_append_right d')⟩
  ins := List.forall_mem_append.2 ⟨fun i hi => (h.ins i hi).mono (c.with_append_left d d'),
    fun i hi => (h'.ins i hi).mono (hf.adds.with_append_right d')⟩
  again := by
    refine List.forall_mem_append.2 ⟨fun r hr => ?_, fun r hr => ?_⟩
    · obtain ⟨x, hx, hwritten⟩ := h.again r hr
      refine ⟨x, hx, hwritten.imp id ?_⟩
      rintro ⟨i, hi, hname⟩
      exact ⟨i, List.mem_append_left _ hi, hname⟩
    · obtain ⟨x, hx, hwritten⟩ := h'.again r hr
      refine ⟨x, hx, ?_⟩
      rcases hwritten with hwritten | ⟨i, hi, hname⟩
      · refine (hf.outside x hwritten).imp id ?_
        rintro ⟨i, hi, hname, htests, -⟩
        exact ⟨i, List.mem_append_left _ hi, hname, htests ▸ List.nil_prefix⟩
      · exact .inr ⟨i, List.mem_append_right _ hi, hname⟩
  reads s hs x hx := by
    simp only [Segment.located, Segment.append, h.bracketed.located_append_nil, List.mem_append] at hs
    rcases hs with hs | hs
    · refine (h.reads s hs x hx).imp id (Or.imp ?_ (@hi x))
      rintro ⟨i, hi, hname⟩
      exact ⟨i, List.mem_append_left _ hi, hname⟩
    · rcases h'.reads s hs x hx with hwritten | ⟨i, hi, hname⟩ | hx
      · refine (hf.outside x hwritten).imp id ?_
        rintro ⟨i, hi, hname, -, hguards⟩
        exact .inl ⟨i, List.mem_append_left _ hi, hname, hguards ▸ List.nil_prefix⟩
      · exact .inr (.inl ⟨i, List.mem_append_right _ hi, hname⟩)
      · exact .inr (.inr hx)

/-- What agrees in a guard agrees around it, where the guard's condition is that of the test. -/
protected theorem under {cond : Solidity.Expr} {name : String} {holds : Bool}
    (h : d.Agrees base c τ) (ht : Stands base c (.of cond holds) (name, holds))
    (hname : name ∈ c.inputs ∨ name ∈ τ.internal base.program) :
    (d.under cond name holds).Agrees base c τ where
  bracketed := h.bracketed.guarded name holds
  published := by
    have hout : ∀ xs, Step.published (([], .enterGuard name holds) :: xs) = Step.published xs :=
      fun _ => rfl
    simp only [Segment.located, Segment.under, h.bracketed.located_guarded, hout,
      Step.published_map_inGuard, h.published, List.map_map]
    rfl
  introduced := by
    simp only [Segment.under, List.forall_mem_map]
    intro i hi
    obtain ⟨s, hs, hintro⟩ := h.introduced i hi
    refine ⟨s, ?_, hintro⟩
    rw [Segment.located, h.bracketed.located_guarded]
    exact List.mem_cons_of_mem _ (List.mem_map.2 ⟨_, hs, rfl⟩)
  outs := by
    have hwith := c.with_under d cond name holds
    refine List.forall_mem_map.2 fun o ho => .cons ?_ ((h.outs o ho).mono hwith)
    exact ht.mono ((c.within_with d).trans hwith)
  ins := by
    have hwith := c.with_under d cond name holds
    refine List.forall_mem_map.2 fun i hi => .cons ?_ ((h.ins i hi).mono hwith)
    exact ht.mono ((c.within_with d).trans hwith)
  again := by
    refine List.forall_mem_map.2 fun r hr => ?_
    obtain ⟨x, hx, hwritten⟩ := h.again r hr
    refine ⟨x, hx, hwritten.imp id ?_⟩
    rintro ⟨i, hi, hname, htests⟩
    exact ⟨_, List.mem_map.2 ⟨i, hi, rfl⟩, hname, List.cons_prefix_cons.2 ⟨rfl, htests⟩⟩
  reads s hs x hx := by
    rw [Segment.located, Segment.under, h.bracketed.located_guarded] at hs
    rcases List.mem_cons.1 hs with rfl | hs
    · obtain rfl := List.mem_singleton.1 hx
      exact hname.imp id .inr
    · obtain ⟨s, hmem, rfl⟩ := List.mem_map.1 hs
      refine (h.reads s hmem x hx).imp id (Or.imp ?_ id)
      rintro ⟨i, hi, hname, hguards⟩
      exact ⟨_, List.mem_map.2 ⟨i, hi, rfl⟩, hname, List.cons_prefix_cons.2 ⟨rfl, hguards⟩⟩

end Segment.Agrees

/-- Writes of inputs, under no test. -/
def written (fills : List (String × Solidity.Expr)) : List DataUse :=
  fills.map fun x => ⟨[], .write x.1 x.2⟩

namespace Matched

variable {σ ρ τ : State} {us us' : List DataUse} {d d' : Segment}

/-- Nothing was added. -/
theorem of_eq (hsteps : τ.steps = σ.steps) (houts : τ.outputs = σ.outputs)
    (hins : τ.inputs.names = σ.inputs.names)
    (hi : σ.internal base.program ⊆ τ.internal base.program) : Matched base c σ c τ [] {} where
  steps := by simp [hsteps]
  outputs := by simp [houts]
  inputs := by simp [hins]
  numbered := houts ▸ id
  internal := hi
  used := .refl _
  agrees := ⟨rfl, rfl, nofun, nofun, nofun, nofun, nofun⟩
  follows := .self c _

theorem trans (h : Matched base c σ c' ρ us d) (h' : Matched base c' ρ c'' τ us' d') :
    Matched base c σ c'' τ (us ++ us') (d.append d') where
  steps := by rw [h'.steps, h.steps, Segment.append, List.append_assoc]
  outputs := by rw [h'.outputs, h.outputs, Segment.append, List.map_append, List.append_assoc]
  inputs := by rw [h'.inputs, h.inputs, Segment.append, List.map_append, List.append_assoc]
  numbered := h'.numbered ∘ h.numbered
  internal := h.internal.trans h'.internal
  used := by
    refine (h.used.append h'.used).trans ?_
    rw [← Multiset.coe_eq_coe]
    simp only [Segment.uses, Segment.append, List.map_append, ← Multiset.coe_add]
    abel
  agrees := h.agrees.append h.follows h'.agrees h'.internal
  follows := h.follows.trans h'.follows

/-- The part that one step outside all guards makes up. -/
def single (s : Step) (fills : List (String × Solidity.Expr)) : Segment where
  steps := [s]
  outs := s.output?.toList.map fun name => { name }
  ins := fills.map fun x => { name := x.1, value := x.2 }

/-- A step was added, with the inputs that it introduces. -/
theorem of_step (s : Step) (fills : List (String × Solidity.Expr)) (hguard : s.isGuard = false)
    (hblock : s.isBlock = false) (hsteps : τ.steps = σ.steps ++ [s])
    (houts : τ.outputs.names = σ.outputs.names ++ s.output?.toList)
    (hnumbered : σ.outputs.Numbered → τ.outputs.Numbered)
    (hins : τ.inputs.names = σ.inputs.names ++ fills.map Prod.fst)
    (hi : σ.internal base.program ⊆ τ.internal base.program)
    (hintro : ∀ x ∈ fills, s.Introduces x.1)
    (hreads : ∀ x ∈ s.reads, x ∈ c.inputs ∨ x ∈ fills.map Prod.fst ∨ x ∈ τ.internal base.program)
    (hf : c.Follows (single s fills) c') : Matched base c σ c' τ
      (s.output?.toList.map (fun x => ⟨[], .read x⟩) ++ written fills) (single s fills) where
  steps := by rw [hsteps, Step.flatten_append, Step.flatten_singleton hblock]; rfl
  outputs := by simp [houts, single, Function.comp_def]
  inputs := by simp [hins, single, Function.comp_def]
  numbered := hnumbered
  internal := hi
  used := by simp [Segment.uses, single, written, Crossing.use, Fill.use, Function.comp_def]
  agrees := by
    have hlocated : (single s fills).located = [([], s)] := Step.located_singleton hguard
    refine ⟨Step.bracketed_singleton hguard, ?_, ?_, ?_, ?_, nofun, ?_⟩
    · rw [hlocated]
      cases hs : s.output? <;> simp [Step.published, single, hs]
    · rw [hlocated]
      simp only [single, List.forall_mem_map]
      exact fun x hx => ⟨s, List.mem_singleton_self _, hintro x hx⟩
    · simp only [single, List.forall_mem_map]
      exact fun _ _ => .nil
    · simp only [single, List.forall_mem_map]
      exact fun _ _ => .nil
    · rw [hlocated, List.forall_mem_singleton]
      intro x hx
      refine (hreads x hx).imp id (Or.imp ?_ id)
      intro hx
      obtain ⟨y, hy, rfl⟩ := List.mem_map.1 hx
      exact ⟨_, List.mem_map.2 ⟨y, hy, rfl⟩, rfl, List.nil_prefix⟩
  follows := hf

/-- All that a step outside guards adds may be known after it. -/
theorem follows_single (c : Atoms) (s : Step) (fills : List (String × Solidity.Expr)) :
    c.Follows (single s fills) (c.with (single s fills)) where
  keeps := c.within_with _
  adds := .refl _
  outside x hx := by
    refine (List.mem_append.1 hx).imp id fun hx => ?_
    obtain ⟨i, hi, rfl⟩ := List.mem_map.1 hx
    obtain ⟨y, -, rfl⟩ := List.mem_map.1 hi
    exact ⟨_, hi, rfl, rfl, rfl⟩

theorem block (name : String) (h : Matched base c { σ with steps := [] } c' τ us d) :
    Matched base c σ c' { τ with
      steps := if τ.steps.isEmpty then σ.steps else σ.steps ++ [.block name τ.steps] } us d where
  steps := by
    have hsteps := h.steps
    split
    · rename_i hnil
      rw [List.isEmpty_iff.1 hnil] at hsteps
      simpa using hsteps
    · simpa using hsteps
  outputs := h.outputs
  inputs := h.inputs
  numbered := h.numbered
  internal := h.internal
  used := h.used
  agrees := { h.agrees with }
  follows := h.follows

theorem guard {cond : Solidity.Expr} {w : Wire} {holds : Bool}
    (h : Matched base c { σ with steps := σ.steps ++ [.enterGuard w.name holds] } c' τ us d)
    (ht : Stands base c (.of cond holds) (w.name, holds))
    (hw : w.name ∈ c.inputs ∨ w.name ∈ τ.internal base.program) :
    Matched base c σ c { τ with steps := τ.steps ++ [.leaveGuard] } (us.map (.under cond holds))
      (d.under cond w.name holds) where
  steps := by
    have hsteps := h.steps
    rw [Step.flatten_append, Step.flatten_singleton rfl] at hsteps
    rw [Step.flatten_append, Step.flatten_singleton rfl, hsteps]
    simp [Segment.under]
  outputs := by simpa [Segment.under, Function.comp_def, Crossing.under] using h.outputs
  inputs := by simpa [Segment.under, Function.comp_def, Fill.under] using h.inputs
  numbered := h.numbered
  internal := h.internal
  used := by
    have hused := h.used.map (DataUse.under cond holds)
    simpa [Segment.uses, Segment.under, Function.comp_def, Crossing.under, Fill.under, Crossing.use,
      Fill.use, DataUse.under] using hused
  agrees := { h.agrees.under ht hw with }
  follows := .self c _

/-- Notes for the reader are part of the steps. -/
theorem comment (c : Atoms) {text : String} (hsteps : τ.steps = σ.steps ++ [.comment text])
    (houts : τ.outputs = σ.outputs) (hins : τ.inputs = σ.inputs)
    (hi : σ.internal base.program ⊆ τ.internal base.program) :
    Matched base c σ c τ [] (single (.comment text) []) :=
  of_step (.comment text) [] rfl rfl hsteps (by simp [houts, Step.output?]) (houts ▸ id)
    (by simp [hins]) hi (by simp) (by rintro _ ⟨⟩) (.self c _)

end Matched

/-- A variable of the circuit may be used: it is an input that is known, or no input. -/
def Usable (base : Env) (c : Atoms) (σ : State) (x : String) : Prop :=
  x ∈ c.inputs ∨ x ∈ σ.internal base.program

theorem Matched.usable {σ τ : State} {us : List DataUse} {d : Segment}
    (h : Matched base c σ c' τ us d) {x : String} (hx : Usable base c σ x) : Usable base c' τ x :=
  hx.imp (@h.follows.keeps.inputs x) (@h.internal x)

section Boundary

variable {σ ρ τ : State} {h : Here} {depth : Nat} {l : Label} {w : Wire} {name : String}
  {plain : Wire} {t : DataType} {cipher : Wire} {isDec : Bool} {value : Term}

theorem State.internal_mono {p : Program} (ht : σ.temporaries.names ⊆ τ.temporaries.names)
    (hs : σ.secrets.names ⊆ τ.secrets.names) (ho : σ.outputs.names ⊆ τ.outputs.names)
    (hk : σ.keys ⊆ τ.keys) : σ.internal p ⊆ τ.internal p := by
  rintro x (hx | hx | hx | ⟨o, ho, hx⟩)
  · exact .inl (ht hx)
  · exact .inr (.inl (hs hx))
  · exact .inr (.inr (.inl (ho hx)))
  · exact .inr (.inr (.inr ⟨o, hk ho, hx⟩))

/-- What an encryption adds to a circuit. A key that is no fixed owner's is an input, which the code
fills before the statement. -/
theorem encrypted_adds
    (henc : Yields (encrypted (base.placed h depth) name plain l cipher isDec) ρ ⟨⟩ τ) :
    ∃ r k keys pre, τ.steps = ρ.steps ++ [.encryption plain r k cipher isDec] ∧
      τ.outputs = ρ.outputs ∧ τ.inputs.names = ρ.inputs.names ++ keys.map Prod.fst ∧
      ρ.internal base.program ⊆ τ.internal base.program ∧ r.name ∈ τ.internal base.program ∧
      (∀ x ∈ keys, k.name = x.1) ∧
      (k.name ∈ keys.map Prod.fst ∨ k.name ∈ τ.internal base.program) ∧
      τ.pre = ρ.pre ++ pre ∧ uses base.settings.dataName pre = written keys ∧
      (l = .me → pre = []) := by
  obtain ⟨k, ρ', hkey, rfl⟩ := encrypted_iff.1 henc
  have hsecrets : ρ.secrets.names ⊆ (ρ.secrets.issueAs (name ++ "_R") .randomness).2.names ∧
      name ++ "_R" ∈ (ρ.secrets.issueAs (name ++ "_R") .randomness).2.names := by simp
  rcases publicKey_cases hkey with ⟨-, rfl, rfl⟩ | ⟨v, rfl, -, hk, rfl⟩
  · refine ⟨_, _, [], [], rfl, rfl, (List.append_nil _).symm, ?_, .inr (.inl hsecrets.2), by simp,
      .inr (.inr (.inr (.inr ⟨_, (subset_withKey _ _).2, rfl⟩))), (List.append_nil _).symm, rfl,
      fun _ => rfl⟩
    exact State.internal_mono (.refl _) hsecrets.1 (.refl _) (subset_withKey _ _).1
  · refine ⟨_, k, [(k.name, fetchKey base.program base.settings v)], [_], rfl, rfl, List.map_append, ?_,
      .inr (.inl hsecrets.2), by simp, .inl (by simp), rfl, ?_, by simp⟩
    · exact State.internal_mono (.refl _) hsecrets.1 (.refl _) (.refl _)
    · simp [written, Env.member, Solidity.Stmt.uses_assign_field, fetchKey, pki]

/-- A ciphertext was made or opened: a new output, or an input with the code that fills it. -/
theorem Matched.encrypted (c : Atoms)
    (henc : Yields (encrypted (base.placed h depth) name plain l cipher isDec) ρ ⟨⟩ τ)
    (fills : List (String × Solidity.Expr)) (hsteps : ρ.steps = σ.steps)
    (houts : ρ.outputs.names = σ.outputs.names ++ if isDec then [] else [cipher.name])
    (hnumbered : σ.outputs.Numbered → ρ.outputs.Numbered)
    (hins : ρ.inputs.names = σ.inputs.names ++ fills.map Prod.fst)
    (hi : σ.internal base.program ⊆ ρ.internal base.program)
    (hfills : ∀ x ∈ fills, isDec = true ∧ cipher.name = x.1) (hplain : Usable base c ρ plain.name)
    (hcipher : cipher.name ∈ fills.map Prod.fst ∨ cipher.name ∈ ρ.internal base.program) :
    ∃ c' d keys pre, τ.pre = ρ.pre ++ pre ∧ uses base.settings.dataName pre = written keys ∧
      (l = .me → pre = []) ∧ ρ.internal base.program ⊆ τ.internal base.program ∧
      Matched base c σ c' τ
        ((if isDec then [] else [⟨[], .read cipher.name⟩]) ++ written (fills ++ keys)) d := by
  obtain ⟨r, k, keys, pre, hadd, hsame, hkeys, hgrows, hr, hk, hkey, hpre, huses, hme⟩ :=
    encrypted_adds henc
  have hout : (Step.encryption plain r k cipher isDec).output?.toList =
      if isDec then [] else [cipher.name] := by cases isDec <;> rfl
  have hread : (Step.encryption plain r k cipher isDec).output?.toList.map (fun x => ⟨[], .read x⟩) =
      (if isDec then [] else [⟨[], .read cipher.name⟩] : List DataUse) := by
    cases isDec <;> rfl
  have hmatched : Matched base c σ _ τ _ _ := .of_step _ (fills ++ keys) rfl rfl (hsteps ▸ hadd) ?_
    (hsame ▸ hnumbered) ?_ (hi.trans hgrows) ?_ ?_ (follows_single ..)
  · rw [hread] at hmatched
    exact ⟨_, _, keys, pre, hpre, huses, hme, hgrows, hmatched⟩
  · rw [hsame, houts, hout]
  · rw [hkeys, hins, List.map_append, List.append_assoc]
  · exact List.forall_mem_append.2 ⟨fun x hx => .inr (hfills x hx), fun x hx => .inl (hk x hx)⟩
  · simp only [Step.reads, List.forall_mem_cons, List.map_append, List.mem_append]
    refine ⟨hplain.imp id fun hx => .inr (hgrows hx), .inr (.inr hr), ?_, ?_, by simp⟩
    · exact .inr (hkey.imp .inr id)
    · exact .inr (hcipher.imp .inl (@hgrows _))

/-- A value is moved in by the code, and introduced by a step. -/
theorem Matched.input (c : Atoms) {t : OwnedType} {text : String} {value : Solidity.Expr}
    (hw : Yields (input (base.placed h depth) t text value) σ w τ) : ∃ c' x d,
      τ.pre = σ.pre ++ [.assign (.member (.ident base.settings.dataName) x) value] ∧
      Matched base c σ c' τ [⟨[], .write x value⟩] d ∧ Usable base c' τ w.name ∧
      (t.isPrivate = false → w.name ∈ c'.inputs) := by
  rcases input_cases hw with ⟨hprivate, cipher, ρ, hsecret, hcipher, henc, rfl⟩ | ⟨-, rfl, rfl⟩
  · have hmem : w.name ∈ (σ.secrets.issue t.type.toAbstract none).2.names := by
      rw [hsecret, Stream.names_issue]
      exact List.mem_append_right _ (List.mem_singleton_self _)
    obtain ⟨c', d, keys, pre, hpre, huses, hme, hi, hmatched⟩ := Matched.encrypted (σ := σ) c henc
      [(cipher.name, value)] rfl (List.append_nil _).symm id
      (hcipher ▸ Stream.names_issue _ (some w.term))
      (State.internal_mono (.refl _) (by simp) (.refl _) (.refl _))
      (List.forall_mem_singleton.2 ⟨rfl, rfl⟩) (.inr (.inr (.inl hmem))) (.inl (by simp))
    obtain rfl := hme rfl
    obtain rfl : keys = [] := List.map_eq_nil_iff.1 huses.symm
    rw [List.append_nil] at hpre
    refine ⟨c', cipher.name, _, ?_, hmatched.trans (.comment c' rfl rfl rfl subset_rfl), ?_, ?_⟩
    · rw [hpre]
      rfl
    · exact .inr (hi (.inr (.inl hmem)))
    · simp [hprivate]
  · refine ⟨_, _, _, rfl, .of_step (.comment _)
      [((σ.inputs.issue t.type.toAbstract none).1.name, value)] rfl rfl rfl
      (List.append_nil _).symm id (Stream.names_issue _ none) subset_rfl ?_ (by rintro _ ⟨⟩)
      (follows_single ..), ?_⟩
    · exact List.forall_mem_singleton.2 ⟨text, rfl⟩
    · simp [Usable, Atoms.with, single]

/-- A value is moved out by a step that constrains an output, and read by the code. -/
theorem Matched.publish {out : Wire} (hplain : Usable base c σ plain.name)
    (hout : Yields (publish (base.placed h depth) plain l t) σ out τ) : ∃ c' pre d,
      τ.pre = σ.pre ++ pre ∧
      Matched base c σ c' τ (uses base.settings.dataName pre ++ [⟨[], .read out.name⟩]) d := by
  rcases publish_cases hout with ⟨-, rfl, rfl⟩ | ⟨-, origin, rfl, henc⟩
  · have hi : σ.internal base.program ⊆
        State.internal base.program { σ with outputs := (σ.outputs.issue t plain.origin).2 } :=
      State.internal_mono (.refl _) (.refl _) (by simp) (.refl _)
    have hnew : (σ.outputs.issue t plain.origin).1.name ∈
        State.internal base.program { σ with outputs := (σ.outputs.issue t plain.origin).2 } := by
      refine .inr (.inr (.inl ?_))
      rw [Stream.names_issue]
      exact List.mem_append_right _ (List.mem_singleton_self _)
    refine ⟨c, [], _, (List.append_nil _).symm, .of_step (.equal plain _) [] rfl rfl rfl
      (Stream.names_issue t plain.origin) (·.issue t plain.origin) (List.append_nil _).symm hi
      (by simp) ?_ (.self c _)⟩
    simp only [Step.reads, List.forall_mem_cons]
    exact ⟨hplain.imp id fun hx => .inr (hi hx), .inr (.inr hnew), by simp⟩
  · have hi : σ.internal base.program ⊆
        State.internal base.program { σ with outputs := (σ.outputs.issue .cipher origin).2 } :=
      State.internal_mono (.refl _) (.refl _) (by simp) (.refl _)
    have hnew : (σ.outputs.issue .cipher origin).1.name ∈ (σ.outputs.issue .cipher origin).2.names := by
      rw [Stream.names_issue]
      exact List.mem_append_right _ (List.mem_singleton_self _)
    obtain ⟨c', d, keys, pre, hpre, huses, -, -, hmatched⟩ := Matched.encrypted (σ := σ) c henc [] rfl
      (Stream.names_issue _ origin) (·.issue _ origin) (List.append_nil _).symm hi (by simp)
      (hplain.imp id (@hi _)) (.inr (.inr (.inr (.inl hnew))))
    refine ⟨c', pre, d, hpre, { hmatched with used := ?_ }⟩
    rw [huses]
    exact List.perm_append_comm.trans hmatched.used

/-- A temporary is declared. It may be known as a constant. -/
theorem Matched.temporary (hvalue : ∀ x ∈ value.wires, Usable base c σ x)
    (hw : Yields (newTemporary t value) σ w τ) : ∃ c' d, Matched base c σ c' τ [] d ∧
      (w.name, value) ∈ c'.constants ∧ w.name ∈ τ.internal base.program := by
  obtain ⟨rfl, rfl⟩ := newTemporary_iff.1 hw
  have hnames : ((σ.temporaries.issue t none).2.setOrigin (σ.temporaries.nextName t) value).names =
      σ.temporaries.names ++ [σ.temporaries.nextName t] :=
    (Stream.names_setOrigin _ value).trans (Stream.names_issue t none)
  have hi : σ.internal base.program ⊆ State.internal base.program { σ with
      temporaries := (σ.temporaries.issue t none).2.setOrigin (σ.temporaries.nextName t) value } :=
    State.internal_mono (by simp [hnames]) (.refl _) (.refl _) (.refl _)
  refine ⟨_, _, .of_step (.declare _ value) [] rfl rfl rfl (List.append_nil _).symm id
    (List.append_nil _).symm hi (by simp) (fun x hx => ?_) (follows_single ..), ?_, .inl ?_⟩
  · exact (hvalue x hx).imp id fun hx => .inr (hi hx)
  · simp [Atoms.with, single, Step.declared]
  · rw [hnames]
    exact List.mem_append_right _ (List.mem_singleton_self _)

theorem Matched.version (hvalue : ∀ x ∈ value.wires, Usable base c σ x)
    (hw : Yields (newVersion name t value) σ w τ) :
    ∃ d, Matched base c σ c τ [] d ∧ w.name ∈ τ.internal base.program := by
  obtain ⟨-, rfl⟩ := newVersion_iff.1 hw
  have hi : σ.internal base.program ⊆ State.internal base.program { σ with
      temporaries := { σ.temporaries with wires := σ.temporaries.wires ++ [w] } } :=
    State.internal_mono (by simp [Stream.names]) (.refl _) (.refl _) (.refl _)
  refine ⟨_, .of_step (.assign w value) [] rfl rfl rfl (List.append_nil _).symm id
    (List.append_nil _).symm hi (by simp) (fun x hx => ?_) (.self c _), .inl ?_⟩
  · exact (hvalue x hx).imp id fun hx => .inr (hi hx)
  · simp [Stream.names]

end Boundary

/-- A condition in the code has the value of a variable of the circuit. -/
inductive Tests (base : Env) (c : Atoms) (σ : State) : Solidity.Expr → Wire → Prop
  | input {w : Wire} (h : w.name ∈ c.inputs) : Tests base c σ (base.member w) w
  | constant {e : Expr} {cond : Solidity.Expr} {value : Term} {w : Wire}
      (h : ConstantForms base e cond value) (hw : (w.name, value) ∈ c.constants)
      (hi : w.name ∈ σ.internal base.program) : Tests base c σ cond w

namespace Tests

variable {σ τ : State} {cond : Solidity.Expr} {w : Wire}

theorem stands (h : Tests base c σ cond w) (holds : Bool) :
    Stands base c (.of cond holds) (w.name, holds) := by
  cases h with
  | input h => exact .input holds h
  | constant h hw _ => exact .constant holds h hw

theorem usable (h : Tests base c σ cond w) : Usable base c σ w.name := by
  cases h with
  | input h => exact .inl h
  | constant _ _ hi => exact .inr hi

theorem mono (h : Tests base c σ cond w) {us : List DataUse} {d : Segment}
    (hm : Matched base c σ c' τ us d) : Tests base c' τ cond w := by
  cases h with
  | input h => exact .input (hm.follows.keeps.inputs h)
  | constant h hw hi => exact .constant h (hm.follows.keeps.constants hw) (hm.internal hi)

/-- A test may be made again. -/
theorem reread (h : Tests base c σ cond w) :
    ∃ d, Matched base c σ c σ (cond.uses base.settings.dataName) d := by
  cases h with
  | input h =>
    have hsame : Matched base c σ c σ [] {} := .of_eq rfl rfl rfl subset_rfl
    have hread : (base.member w).uses base.settings.dataName = [⟨[], .read w.name⟩] := by
      simp [Env.member]
    rw [hread]
    refine ⟨{ again := [⟨[], .read w.name⟩] }, { hsame with
      used := .refl _
      agrees := { hsame.agrees with again := ?_ }
      follows := .self c _ }⟩
    exact List.forall_mem_singleton.2 ⟨w.name, rfl, .inl h⟩
  | constant h _ _ =>
    rw [h.plain.uses_eq]
    exact ⟨_, .of_eq rfl rfl rfl subset_rfl⟩

end Tests

/-- The steps of a circuit and the uses of its data, where no `if` runs inside. -/
def guards (base : Env) : Trace base (.ofUses _) where
  Context := Atoms
  term c σ t := ∀ x ∈ t.wires, Usable base c σ x
  stored σ w := w.name ∈ σ.internal base.program
  test := Tests base
  branches := False
  callable _ := True
  rel c σ c' τ us := ∃ d, Matched base c σ c' τ us d
  refl c σ := ⟨_, .of_eq rfl rfl rfl subset_rfl⟩
  trans := by
    rintro c c' c'' σ ρ τ us us' ⟨d, h⟩ ⟨d', h'⟩
    exact ⟨_, h.trans h'⟩
  perm := by
    rintro c c' σ τ us us' ⟨d, h⟩ hperm
    exact ⟨d, { h with used := hperm.symm.trans h.used }⟩
  closed c σ t ht := by simp [ht]
  op o h := by
    intro x hx
    obtain ⟨t, ht, hx⟩ := Term.mem_wiresList.1 hx
    exact h t ht x hx
  cast _ h := h
  of_stored c h := List.forall_mem_singleton.2 (.inr h)
  mono := by
    rintro c c' σ τ us t ⟨d, h⟩ ht x hx
    exact h.usable (ht x hx)
  stored_mono := by
    rintro c c' σ τ us w ⟨d, h⟩ hw
    exact h.internal hw
  test_mono := by
    rintro c c' σ τ us e w ⟨d, h⟩ ht
    exact ht.mono h
  term_steps _ h := h
  stored_steps _ h := h
  quiet c σ _ _ _ := ⟨_, .of_eq rfl rfl rfl subset_rfl⟩
  comment c σ text := ⟨_, .comment c rfl rfl rfl subset_rfl⟩
  note c σ _ _ _ := ⟨_, .of_eq rfl rfl rfl subset_rfl⟩
  call c σ _ _ _ := ⟨_, .of_step (.call _) [] rfl rfl rfl (List.append_nil _).symm id
    (List.append_nil _).symm subset_rfl (by simp) (by rintro _ ⟨⟩) (.self c _)⟩
  temporary := by
    intro c σ τ t value w hvalue hw
    obtain ⟨c', d, hm, hconstant, hi⟩ := Matched.temporary hvalue hw
    exact ⟨c', ⟨d, hm⟩, List.forall_mem_singleton.2 (.inr hi), fun e cond hforms =>
      .constant hforms hconstant hi⟩
  version := by
    intro c σ τ name t value w hvalue hw
    obtain ⟨d, hm, hi⟩ := Matched.version hvalue hw
    exact ⟨c, ⟨d, hm⟩, hi⟩
  input := by
    intro c σ τ h depth t text value w _ _ hw
    obtain ⟨c', x, d, hpre, hmatched, husable, hpublic⟩ := Matched.input c hw
    exact ⟨c', x, hpre, ⟨d, hmatched⟩, List.forall_mem_singleton.2 husable, fun ht =>
      .input (hpublic ht)⟩
  publish := by
    intro c σ τ h depth l t plain out _ _ hplain hout
    obtain ⟨c', pre, d, hpre, hmatched⟩ := Matched.publish (hplain _ (List.mem_singleton_self _)) hout
    refine ⟨c', pre, hpre, d, ?_⟩
    rw [Solidity.Reading.field_ofUses]
    exact hmatched
  block name := by
    rintro ⟨d, h⟩
    exact ⟨d, h.block name⟩
  guard := by
    rintro c c' σ τ us e w holds ht ⟨d, h⟩
    exact ⟨_, h.guard (ht.stands holds) (ht.usable.imp id (@h.internal _))⟩
  branch _ h := h.elim
  reread h := h.reread

/-! ## Circuits -/

/-- Values for the conditions of tests and of guards, the same where these are about the same. -/
structure Valuation (base : Env) (c : Atoms) where
  code : Solidity.Expr → Bool
  wire : String → Bool
  agree : ∀ t g, Stands base c t g → (code t.cond = t.holds ↔ wire g.1 = g.2)

namespace Valuation

variable (v : Valuation base c) {gs : List Guard}

/-- The code under some tests runs. -/
def Runs (tests : List Test) : Prop := ∀ t ∈ tests, v.code t.cond = t.holds

/-- The steps in some guards are switched on. -/
def Opens (guards : List Guard) : Prop := ∀ g ∈ guards, v.wire g.1 = g.2

theorem runs_iff_opens {ts : List Test} (h : StandAll base c ts gs) : v.Runs ts ↔ v.Opens gs := by
  induction h with
  | nil => simp [Runs, Opens]
  | @cons t g ts gs ht _ ih =>
    simp only [Runs, Opens, List.forall_mem_cons] at ih ⊢
    rw [v.agree t g ht, ih]

theorem Opens.of_prefix {v : Valuation base c} {gs' : List Guard} (h : v.Opens gs')
    (hp : gs <+: gs') : v.Opens gs := fun g hg => h g (hp.subset hg)

end Valuation

/-- The guards in the circuit of a function are the tests in its body. -/
structure GuardsAgree (base : Env) (l : Lowered) (d : Segment) : Prop where
  /-- All steps, outputs, inputs and uses of data are accounted for. -/
  steps : Step.flatten l.circuit.steps = d.steps
  outputs : l.circuit.outputs.names = d.outs.map (·.name)
  inputs : l.circuit.inputs.names = d.ins.map (·.name)
  used : (uses base.settings.dataName l.body).Perm d.uses
  agrees : d.Agrees base {} l.circuit
  /-- An output is read in one place only. -/
  read : ∀ o ∈ d.outs, o.name ∉ l.circuit.inputs.names →
    ∀ x ∈ uses base.settings.dataName l.body, x.access = .read o.name → x = o.use
  /-- An input is written in one place only. -/
  written : ∀ i ∈ d.ins, ∀ x ∈ uses base.settings.dataName l.body, ∀ value,
    x.access = .write i.name value → x = i.use
  /-- An output is used just if its constraint is switched on. -/
  active : ∀ v : Valuation base (({} : Atoms).with d), ∀ o ∈ d.outs, v.Runs o.tests ↔ v.Opens o.guards
  /-- A step that is switched on is about inputs that were written. -/
  assigned : ∀ v : Valuation base (({} : Atoms).with d), ∀ s ∈ d.located, v.Opens s.1 →
    ∀ x ∈ s.2.reads, x ∉ l.circuit.internal base.program → ∃ i ∈ d.ins, i.name = x ∧ v.Runs i.tests

namespace Segment.Agrees

variable {d : Segment} {τ : State} {x : DataUse}

theorem assigned (h : d.Agrees base {} τ) (v : Valuation base (({} : Atoms).with d))
    {s : List Guard × Step} (hs : s ∈ d.located) (hopen : v.Opens s.1) {x : String}
    (hx : x ∈ s.2.reads) (hnot : x ∉ τ.internal base.program) :
    ∃ i ∈ d.ins, i.name = x ∧ v.Runs i.tests := by
  rcases h.reads s hs x hx with hx | ⟨i, hi, hname, hguards⟩ | hx
  · cases hx
  · exact ⟨i, hi, hname, (v.runs_iff_opens (h.ins i hi)).2 (hopen.of_prefix hguards)⟩
  · exact (hnot hx).elim

/-- Where outputs are told apart, and from inputs, each of them is read in one place. -/
theorem read_once (h : d.Agrees base {} τ) (hnodup : (d.outs.map (·.name)).Nodup) {o : Crossing}
    (ho : o ∈ d.outs) (hnot : o.name ∉ d.ins.map (·.name)) (hx : x ∈ d.uses)
    (hread : x.access = .read o.name) : x = o.use := by
  rcases List.mem_append.1 hx with hx | hx
  · rcases List.mem_append.1 hx with hx | hx
    · obtain ⟨o', ho', rfl⟩ := List.mem_map.1 hx
      obtain rfl := List.inj_on_of_nodup_map hnodup ho' ho (by simpa [Crossing.use] using hread)
      rfl
    · obtain ⟨i, -, rfl⟩ := List.mem_map.1 hx
      cases hread
  · obtain ⟨y, hy, hwritten⟩ := h.again x hx
    rcases hwritten with hy' | ⟨i, hi, hname, -⟩
    · cases hy'
    · rw [hread] at hy
      injection hy with hy
      exact (hnot (List.mem_map.2 ⟨i, hi, hname.trans hy.symm⟩)).elim

/-- Where inputs are told apart, each of them is written in one place. -/
theorem written_once (h : d.Agrees base {} τ) (hnodup : (d.ins.map (·.name)).Nodup) {i : Fill}
    (hi : i ∈ d.ins) (hx : x ∈ d.uses) {value : Solidity.Expr}
    (hwrite : x.access = .write i.name value) : x = i.use := by
  rcases List.mem_append.1 hx with hx | hx
  · rcases List.mem_append.1 hx with hx | hx
    · obtain ⟨o, -, rfl⟩ := List.mem_map.1 hx
      cases hwrite
    · obtain ⟨i', hi', rfl⟩ := List.mem_map.1 hx
      have hname : i'.name = i.name := by
        simp only [Fill.use, Solidity.Access.write.injEq] at hwrite
        exact hwrite.1
      obtain rfl := List.inj_on_of_nodup_map hnodup hi' hi hname
      rfl
  · obtain ⟨y, hy, -⟩ := h.again x hx
    rw [hwrite] at hy
    cases hy

end Segment.Agrees

/-- In a checked function without private `if`s, that inlines no function with an `if`, guards and
tests agree. -/
theorem lowerFunction_guardsAgree {unit : SourceUnit} (hp : Passes unit.check u.program)
    {l : Lowered} (hl : lowerFunction u f = .ok l)
    (hprivate : ∀ t ∈ (u.program.function f).body.walk, t.isPrivateIf = false)
    (hheld : ∀ g, Inlined u.program f g → ∀ i c yes no,
      .cond i c yes no ∉ (u.program.function g).body.walk) :
    ∃ d, GuardsAgree (Env.within u.program u.settings u.owners f) l d := by
  obtain ⟨c', d, hm⟩ := lowerFunction_traced hp (guards _) (fun _ _ => trivial)
    (fun t ht hif => by rw [hprivate t ht] at hif; cases hif)
    (fun g hg i c yes no hc => hheld g hg i c yes no hc) hl {}
  have hsteps : Step.flatten l.circuit.steps = d.steps := by simpa [State.new] using hm.steps
  have houts : l.circuit.outputs.names = d.outs.map (·.name) := by
    simpa [State.new, Stream.names] using hm.outputs
  have hins : l.circuit.inputs.names = d.ins.map (·.name) := by
    simpa [State.new, Stream.names] using hm.inputs
  have houtputs : (d.outs.map (·.name)).Nodup := by
    rw [← houts]
    exact (hm.numbered (by intro i x hx; cases hx)).nodup
  have hinputs : (d.ins.map (·.name)).Nodup := by
    have hnumbered := (lowerFunction_supplies hp hl).numbered (by intro i x hx; cases hx)
    rw [← hins]
    exact hnumbered.nodup
  exact ⟨d, hsteps, houts, hins, hm.used, hm.agrees,
    fun o ho hnot x hx => hm.agrees.read_once houtputs ho (hins ▸ hnot) (hm.used.subset hx),
    fun i hi x hx value => hm.agrees.written_once hinputs hi (hm.used.subset hx),
    fun v o ho => v.runs_iff_opens (hm.agrees.outs o ho),
    fun v s hs hopen x hx => hm.agrees.assigned v hs hopen hx⟩

/-- A function with a circuit has it among those of its contract. -/
theorem Emitted.exists_circuit {k : Solidity.Contract} {cs : List Circuit} (e : Emitted u k cs)
    (hf : f ∈ (u.program.contract u.contract).functions)
    (hv : (u.program.function f).facts.isVerified = true) : ∃ l below, lowerFunction u f = .ok l ∧
      u.circuit l.circuit (circuitName u.program u.settings f) none below ∈ cs := by
  obtain ⟨l', hl', rfl⟩ := e.exists_patched hf
  obtain ⟨l, -, hlow, hpatch⟩ := e.exists_body hl'
  obtain ⟨body, rfl, -⟩ := patchLowered_eq hpatch
  obtain ⟨pieces, hpieces, -, hcircuits, -⟩ := outputs_pieces e.outputs
  obtain ⟨⟨a, b⟩, hpiece, -, hinner⟩ := hpieces.exists_right hl'
  rcases inner_cases hinner with ⟨hnot, -⟩ | ⟨-, below, -, rfl⟩
  · cases hnot.symm.trans hv
  · refine ⟨l, below, hlow, ?_⟩
    rw [e.circuits, hcircuits]
    exact List.mem_flatMap.2 ⟨_, hpiece, by simp⟩

end Lowering

open Lowering in
/-- **Guards and tests agree.** Take a function with a circuit, without private `if`s and with no `if`
in what it inlines. The tests around the place where its body reads an output are the guards around the
constraint of that output, one for one; and those around the place where it writes an input are the
guards around the step that introduces this. So no output is read whose constraint is switched off, and
no step that is switched on is about an input that was not written. -/
theorem SourceUnit.guards_agree {u : SourceUnit} {s : Settings} {p : Program} {out : Compilation}
    (hp : Passes u.check p) (hout : p.lower s = .ok out) {c : ContractId} (hc : c ∈ p.contractIds)
    {f : FunctionId} (hf : f ∈ (p.contract c).functions)
    (hv : (p.function f).facts.isVerified = true)
    (hprivate : ∀ t ∈ (p.function f).body.walk, t.isPrivateIf = false)
    (hheld : ∀ g, Inlined p f g → ∀ i e yes no, .cond i e yes no ∉ (p.function g).body.walk) :
    ∃ l below d, lowerFunction (.new p s c) f = .ok l ∧
      (ContractEnv.new p s c).circuit l.circuit (circuitName p s f) none below ∈ out.circuits ∧
      GuardsAgree (Env.within p s (ContractEnv.new p s c).owners f) l d := by
  obtain ⟨pieces, hpieces, -, hcircuits⟩ := Program.lower_emitted hout
  obtain ⟨piece, hpiece, ⟨e⟩⟩ := hpieces.exists_right hc
  obtain ⟨l, below, hl, hcircuit⟩ := e.exists_circuit hf hv
  obtain ⟨d, hd⟩ := lowerFunction_guardsAgree hp hl hprivate hheld
  refine ⟨l, below, d, hl, ?_, hd⟩
  rw [hcircuits]
  exact List.mem_flatMap.2 ⟨piece, hpiece, hcircuit⟩

/-- A secret is used in a branch, and there in an operand that is not always evaluated. -/
def quiz : SourceUnit := .single "Quiz" [
  { name := "score", type := .mk (.uint 8) .all },
  { name := "won", type := .mk .bool .all }] [
  { name := "next"
    visibility := .internal
    params := [{ name := "n", type := .mk (.uint 8) .me }]
    returns := [.mk (.uint 8) .me]
    body := [.ret {} (some (.builtin {} .add ["n", 1]))] },
  { name := "answer"
    params := [
      { name := "live", type := .mk .bool .all },
      { name := "x", type := .mk (.uint 8) .me }]
    body := [.cond {} "live" (.block {} [
      .assign {} "score" none (.reveal {} (.call {} "next" ["x"]) .all),
      .assign {} "won" none (.builtin {} .and [
        .builtin {} .lt [3, "score"],
        .reveal {} (.builtin {} .eq ["x", 2]) .all])]) none] }]

open Lowering in
/-- The second output is in two guards: that of the branch, and that of the operand. -/
theorem SourceUnit.guards_agree_quiz : ∃ p out l below d, Passes quiz.check p ∧
    p.lower {} = .ok out ∧ lowerFunction (.new p {} ⟨0⟩) ⟨1⟩ = .ok l ∧
    Circuit.Step.published (Circuit.Step.located [] (Circuit.Step.flatten l.circuit.steps)) =
      [([("zk__in0_plain", true)], "zk__out0_plain"),
        ([("zk__in0_plain", true), ("zk__in2_plain", true)], "zk__out1_plain")] ∧
    (ContractEnv.new p {} ⟨0⟩).circuit l.circuit (circuitName p {} ⟨1⟩) none below ∈ out.circuits ∧
    GuardsAgree (Env.within p {} (ContractEnv.new p {} ⟨0⟩).owners ⟨1⟩) l d := by
  have hrun : Passes.test quiz.check (fun p => (p.lower {}).toOption.any fun _ =>
      (lowerFunction (.new p {} ⟨0⟩) ⟨1⟩).toOption.any fun l =>
        ⟨0⟩ ∈ p.contractIds ∧ ⟨1⟩ ∈ (p.contract ⟨0⟩).functions ∧
        (p.function ⟨1⟩).facts.isVerified = true ∧
        (∀ t ∈ (p.function ⟨1⟩).body.walk, t.isPrivateIf = false) ∧
        Effects.calls (p.function ⟨1⟩).body = [⟨0⟩] ∧ Effects.calls (p.function ⟨0⟩).body = [] ∧
        (∀ t ∈ (p.function ⟨0⟩).body.walk,
          t.ctorIdx ≠ (Stmt.cond default default default none).ctorIdx) ∧
        Circuit.Step.published (Circuit.Step.located [] (Circuit.Step.flatten l.circuit.steps)) =
          [([("zk__in0_plain", true)], "zk__out0_plain"),
            ([("zk__in0_plain", true), ("zk__in2_plain", true)], "zk__out1_plain")]) = true := by
    decide +kernel
  obtain ⟨p, hp, htest⟩ := Passes.of_test hrun
  obtain ⟨out, hout, htest⟩ := any_toOption.1 htest
  obtain ⟨l, hl, htest⟩ := any_toOption.1 htest
  obtain ⟨hc, hf, hv, hprivate, hcalls, hleaf, hbranch, hpublished⟩ := of_decide_eq_true htest
  have hnext : ∀ g, Relation.TransGen p.Calls ⟨1⟩ g → g = ⟨0⟩ := by
    intro g hg
    induction hg with
    | single h => simpa [Program.Calls, hcalls] using h
    | tail _ h ih =>
      rw [Program.Calls, ih, hleaf] at h
      cases h
  have hheld : ∀ g, Inlined p ⟨1⟩ g → ∀ i e yes no, .cond i e yes no ∉ (p.function g).body.walk := by
    intro g hg i e yes no hmem
    rw [hnext g hg.transGen] at hmem
    exact hbranch _ hmem rfl
  obtain ⟨l', below, d, hl', hcircuit, hd⟩ := guards_agree hp hout hc hf hv hprivate hheld
  obtain rfl : l = l' := Except.ok.inj (hl.symm.trans hl')
  exact ⟨p, out, l, below, d, hp, hout, hl, hpublished, hcircuit, hd⟩

end Shroud
