import Shroud.Proofs.Bindings
import Shroud.Proofs.Folding.Trees
import Shroud.Proofs.Folding.Unfolded

/-! # Twin circuits

A circuit is built twice, with folding and without it. The two states under construction differ in
the terms of their steps and in the origins of temporaries, and only as `Expr.Forms` allows; so the
same variables are issued in the same order. `Twins` relates two actions that keep states so and
fail with the same errors.
-/

namespace Shroud

namespace Circuit

/-- Terms that do not come from expressions: variables, choices between them, and the zeros of
variables that are declared without a value. -/
inductive Term.IsMade : Term → Prop
  | wire (name : String) : IsMade (.wire name)
  | choice (c a b : String) : IsMade (.ite (.wire c) (.wire a) (.wire b))
  | zero (t : DataType) : IsMade (Lowering.zero t)

/-- Terms with folding and without it: both are the same term that was made, or the terms of an
expression of the program. -/
inductive Term.Twins (p : Program) : Term → Term → Prop
  | made {t : Term} (h : t.IsMade) : Twins p t t
  | forms {e : Expr} {s t : Term} (he : p.Contains e) (h : e.Forms s t) : Twins p s t

/-- Variables that differ at most in the terms that they come from. -/
inductive Wire.Twins (p : Program) : Wire → Wire → Prop
  | mk {name : String} {type : DataType} {role : Role} {s t : Option Term}
      (h : Option.Rel (Term.Twins p) s t) : Twins p ⟨name, type, role, s⟩ ⟨name, type, role, t⟩

/-- Steps that differ at most in their terms. -/
inductive Step.Twins (p : Program) : Step → Step → Prop
  | comment (text : String) : Twins p (.comment text) (.comment text)
  | block (name : String) {ss ts : List Step} (h : List.Forall₂ (Twins p) ss ts) :
      Twins p (.block name ss) (.block name ts)
  | declare {v w : Wire} {s t : Term} (hw : v.Twins p w) (h : s.Twins p t) :
      Twins p (.declare v s) (.declare w t)
  | assign {v w : Wire} {s t : Term} (hw : v.Twins p w) (h : s.Twins p t) :
      Twins p (.assign v s) (.assign w t)
  | equal {v w v' w' : Wire} (hv : v.Twins p v') (hw : w.Twins p w') :
      Twins p (.equal v w) (.equal v' w')
  | encryption {v v' : Wire} (r k c : Wire) (isDecryption : Bool) (hv : v.Twins p v') :
      Twins p (.encryption v r k c isDecryption) (.encryption v' r k c isDecryption)
  | enterGuard (cond : String) (holds : Bool) : Twins p (.enterGuard cond holds) (.enterGuard cond holds)
  | leaveGuard : Twins p .leaveGuard .leaveGuard
  | call (function : String) : Twins p (.call function) (.call function)

/-- Circuits that differ at most in the terms of their steps. -/
structure Twins (p : Program) (c d : Circuit) : Prop where
  others : { c with steps := [] } = { d with steps := [] }
  steps : List.Forall₂ (Step.Twins p) c.steps d.steps

namespace Wire.Twins

variable {p : Program} {v w : Wire}

/-- A variable without an origin is its own twin. -/
theorem refl_of_none (h : w.origin = none) : w.Twins p w := by
  obtain ⟨name, type, role, origin⟩ := w
  obtain rfl : origin = none := h
  exact .mk .none

theorem name_eq (h : v.Twins p w) : v.name = w.name := by
  cases h
  rfl

theorem term_eq (h : v.Twins p w) : v.term = w.term := congrArg Term.wire h.name_eq

theorem origin (h : v.Twins p w) : Option.Rel (Term.Twins p) v.origin w.origin := by
  cases h with
  | mk h => exact h

theorem withOrigin (h : v.Twins p w) {s t : Option Term} (ho : Option.Rel (Term.Twins p) s t) :
    Wire.Twins p { v with origin := s } { w with origin := t } := by
  cases h with
  | mk _ => exact .mk ho

end Wire.Twins

end Circuit

namespace Lowering

open Circuit (Term Wire Step Stream)

/-- The state of a circuit without folding: it has steps and temporaries of its own. -/
def State.twin (σ : State) (steps : List Step) (wires : List Wire) : State :=
  { σ with
    steps
    secrets := σ.secrets.unfolded
    temporaries := { σ.temporaries.unfolded with wires }
    inputs := σ.inputs.unfolded
    outputs := σ.outputs.unfolded }

/-- States that differ at most in the terms of steps and temporaries. -/
structure State.Twins (p : Program) (σ τ : State) : Prop where
  others : τ = σ.twin τ.steps τ.temporaries.wires
  steps : List.Forall₂ (Step.Twins p) σ.steps τ.steps
  temporaries : List.Forall₂ (Wire.Twins p) σ.temporaries.wires τ.temporaries.wires
  /-- Versions are the same in both, because they have no origins. -/
  versions : ∀ e ∈ σ.versions.entries, e.2.origin = none

theorem State.Twins.exists_twin {p : Program} {σ τ : State} (h : σ.Twins p τ) : ∃ steps wires,
    τ = σ.twin steps wires ∧ List.Forall₂ (Step.Twins p) σ.steps steps ∧
      List.Forall₂ (Wire.Twins p) σ.temporaries.wires wires ∧
      ∀ e ∈ σ.versions.entries, e.2.origin = none :=
  ⟨_, _, h.others, h.steps, h.temporaries, h.versions⟩

/-- Two computations both fail, with the same error, or both succeed with related results. -/
inductive Parallel {α β : Type} (R : α → β → Prop) : Except Error α → Except Error β → Prop
  | error (e : Error) : Parallel R (.error e) (.error e)
  | ok {a : α} {b : β} (h : R a b) : Parallel R (.ok a) (.ok b)

namespace Parallel

variable {α β γ δ : Type} {R : α → β → Prop} {Q : γ → δ → Prop} {x : Except Error α}
  {y : Except Error β} {f : α → Except Error γ} {g : β → Except Error δ}

theorem bind (h : Parallel R x y) (hf : ∀ a b, R a b → Parallel Q (f a) (g b)) :
    Parallel Q (x >>= f) (y >>= g) := by
  cases h with
  | error e => exact .error e
  | ok h => exact hf _ _ h

theorem weaken {R' : α → β → Prop} (h : Parallel R x y) (hR : ∀ a b, R a b → R' a b) :
    Parallel R' x y := by
  cases h with
  | error e => exact .error e
  | ok h => exact .ok (hR _ _ h)

theorem mapM {xs : List α} {ys : List β} (h : List.Forall₂ R xs ys)
    (hf : ∀ a b, R a b → Parallel Q (f a) (g b)) :
    Parallel (List.Forall₂ Q) (xs.mapM f) (ys.mapM g) := by
  induction h with
  | nil => exact .ok .nil
  | cons hab _ ih =>
    rw [List.mapM_cons, List.mapM_cons]
    exact (hf _ _ hab).bind fun c d hcd => ih.bind fun cs ds hcs => .ok (.cons hcd hcs)

theorem ite {c : Prop} [Decidable c] {x' : Except Error α} {y' : Except Error β}
    (h : c → Parallel R x y) (h' : ¬ c → Parallel R x' y') :
    Parallel R (if c then x else x') (if c then y else y') := by
  split
  · exact h ‹_›
  · exact h' ‹_›

theorem refl (x : Except Error α) : Parallel Eq x x := by
  cases x with
  | error e => exact .error e
  | ok a => exact .ok rfl

end Parallel

/-- Two actions that keep states twins and have related results. -/
def Twins {α β : Type} (p : Program) (R : α → β → Prop) (x : Lower α) (y : Lower β) : Prop :=
  ∀ σ τ, σ.Twins p τ → Parallel (fun a b => R a.1 b.1 ∧ a.2.Twins p b.2) (x.run σ) (y.run τ)

namespace Twins

variable {α β γ δ : Type} {p : Program} {R : α → β → Prop} {Q : γ → δ → Prop} {x : Lower α}
  {y : Lower β} {f : α → Lower γ} {g : β → Lower δ}

theorem pure {a : α} {b : β} (h : R a b) : Twins p R (pure a) (pure b) :=
  fun _ _ hσ => .ok ⟨h, hσ⟩

theorem throw (e : Error) : Twins p R (throw e) (throw e) := fun _ _ _ => .error e

theorem throw_bind (e : Error) :
    Twins p Q (MonadExcept.throw e >>= f) (MonadExcept.throw e >>= g) := fun _ _ _ => .error e

theorem ite {c : Prop} [Decidable c] {x' : Lower α} {y' : Lower β} (h : c → Twins p R x y)
    (h' : ¬ c → Twins p R x' y') : Twins p R (if c then x else x') (if c then y else y') := by
  split
  · exact h ‹_›
  · exact h' ‹_›

theorem bind (h : Twins p R x y) (hf : ∀ a b, R a b → Twins p Q (f a) (g b)) :
    Twins p Q (x >>= f) (y >>= g) := by
  intro σ τ hσ
  rw [StateT.run_bind, StateT.run_bind]
  exact (h σ τ hσ).bind fun a b hab => hf _ _ hab.1 _ _ hab.2

/-- The same value goes on in both. -/
theorem bind_eq {y : Lower α} {g : α → Lower δ} (h : Twins p Eq x y)
    (hf : ∀ a, Twins p Q (f a) (g a)) : Twins p Q (x >>= f) (y >>= g) :=
  h.bind fun a _ hab => hab ▸ hf a

theorem weaken {R' : α → β → Prop} (h : Twins p R x y) (hR : ∀ a b, R a b → R' a b) :
    Twins p R' x y := fun σ τ hσ => (h σ τ hσ).weaken fun _ _ hab => ⟨hR _ _ hab.1, hab.2⟩

/-- The states that are read are a state and its twin. -/
theorem get_bind {f g : State → Lower γ} {Q : γ → γ → Prop} (h : ∀ σ steps wires,
      σ.Twins p (σ.twin steps wires) → Twins p Q (f σ) (g (σ.twin steps wires))) :
    Twins p Q (get >>= f) (get >>= g) := by
  intro σ τ hσ
  obtain ⟨_, _, rfl, -⟩ := hσ.exists_twin
  exact h σ _ _ hσ _ _ hσ

theorem modify {f g : State → State} (h : ∀ σ steps wires,
      List.Forall₂ (Step.Twins p) σ.steps steps →
      List.Forall₂ (Wire.Twins p) σ.temporaries.wires wires →
      (∀ e ∈ σ.versions.entries, e.2.origin = none) → (f σ).Twins p (g (σ.twin steps wires))) :
    Twins p Eq (modify f) (modify g) := by
  intro σ τ hσ
  obtain ⟨_, _, rfl, hs, hw, hv⟩ := hσ.exists_twin
  exact .ok ⟨rfl, h σ _ _ hs hw hv⟩

theorem modifyGet {f : State → α × State} {g : State → β × State}
    (h : ∀ σ τ, σ.Twins p τ → R (f σ).1 (g τ).1 ∧ (f σ).2.Twins p (g τ).2) :
    Twins p R (modifyGet f) (modifyGet g) := fun σ τ hσ => .ok (h σ τ hσ)

theorem mapM {f : γ → Lower α} {g : γ → Lower β} {xs : List γ} (h : ∀ c, Twins p R (f c) (g c)) :
    Twins p (List.Forall₂ R) (xs.mapM f) (xs.mapM g) := by
  induction xs with
  | nil => exact .pure .nil
  | cons c cs ih =>
    rw [List.mapM_cons, List.mapM_cons]
    exact (h c).bind fun a b hab => ih.bind fun as bs habs => .pure (.cons hab habs)

end Twins

variable {α : Type} {p : Program} {σ τ : State} {ws' ws : List Wire} {a b : Term} {x y : Lower α}
  {R : α → α → Prop}

/-! ## Actions -/

/-- An action that leaves steps, temporaries and versions alone. -/
theorem frame_twins {α β : Type} {R : α → β → Prop} {f : State → α × State} {g : State → β × State}
    (h : ∀ σ steps wires, R (f σ).1 (g (σ.twin steps wires)).1 ∧
      (g (σ.twin steps wires)).2 = (f σ).2.twin steps wires ∧ (f σ).2.steps = σ.steps ∧
      (f σ).2.temporaries = σ.temporaries ∧ (f σ).2.versions = σ.versions) :
    Twins p R (modifyGet f) (modifyGet g) := by
  refine .modifyGet fun σ τ hσ => ?_
  obtain ⟨steps, wires, rfl, hs, hw, hv⟩ := hσ.exists_twin
  obtain ⟨hr, heq, hsteps, htemporaries, hversions⟩ := h σ steps wires
  rw [heq]
  exact ⟨hr, rfl, by rwa [hsteps], by rwa [htemporaries], by rwa [hversions]⟩

theorem emit_twins {s t : Step} (h : s.Twins p t) : Twins p Eq (emit s) (emit t) := by
  exact .modify fun σ steps wires hs hw hv => ⟨rfl, List.rel_append hs (.cons h .nil), hw, hv⟩

theorem comment_twins (text : String) : Twins p Eq (comment text) (comment text) :=
  emit_twins (.comment text)

theorem addPre_twins (s : Solidity.Stmt) : Twins p Eq (addPre s) (addPre s) :=
  frame_twins fun _ _ _ => ⟨rfl, rfl, rfl, rfl, rfl⟩

theorem inBlock_twins (name : String) (h : Twins p R x y) :
    Twins p R (inBlock name x) (inBlock name y) := by
  refine .get_bind fun σ steps wires hσ => ?_
  refine (Twins.modify fun _ _ _ _ hw hv => ?_).bind_eq fun _ => h.bind fun a b hab => ?_
  · exact ⟨rfl, .nil, hw, hv⟩
  refine (Twins.modify fun σ' steps' _ hs' hw hv => ?_).bind_eq fun _ => .pure hab
  refine ⟨rfl, ?_, hw, hv⟩
  have hempty : σ'.steps.isEmpty = steps'.isEmpty := by
    rw [Bool.eq_iff_iff, List.isEmpty_iff_length_eq_zero, List.isEmpty_iff_length_eq_zero,
      hs'.length_eq]
  change List.Forall₂ _ (if σ'.steps.isEmpty then _ else _) (if steps'.isEmpty then _ else _)
  rw [hempty]
  split
  · exact hσ.steps
  · exact List.rel_append hσ.steps (.cons (.block name hs') .nil)

theorem guarded_twins {v w : Wire} (holds : Bool) (hw : v.name = w.name) (h : Twins p R x y) :
    Twins p R (guarded v holds x) (guarded w holds y) := by
  unfold guarded
  rw [hw]
  refine (emit_twins (.enterGuard w.name holds)).bind_eq fun _ => h.bind fun a b hab => ?_
  exact (emit_twins .leaveGuard).bind_eq fun _ => .pure hab

theorem takePre_twins (h : Twins p Eq x y) : Twins p Eq (takePre x) (takePre y) := by
  refine .get_bind fun σ _ _ _ => ?_
  have hpre (pre : List Solidity.Stmt) : Twins p Eq (modify fun s => { s with pre } : Lower PUnit)
      (modify fun s => { s with pre }) := frame_twins fun _ _ _ => ⟨rfl, rfl, rfl, rfl, rfl⟩
  refine (hpre _).bind_eq fun _ => h.bind_eq fun a => ?_
  exact .get_bind fun ρ _ _ _ => (hpre _).bind_eq fun _ => .pure rfl

/-! ## Variables -/

/-- Both have the same variable, without an origin. -/
def Same (v w : Wire) : Prop := v = w ∧ v.origin = none

theorem newSecret_twins (t : DataType) : Twins p Same (newSecret t) (newSecret t) :=
  frame_twins fun _ _ _ => ⟨⟨rfl, rfl⟩, rfl, rfl, rfl, rfl⟩

theorem newSecretAs_twins (name : String) (t : DataType) :
    Twins p Same (newSecretAs name t) (newSecretAs name t) :=
  frame_twins fun _ _ _ => ⟨⟨rfl, rfl⟩, rfl, rfl, rfl, rfl⟩

theorem newInput_twins (t : DataType) (origin : Option Term) :
    Twins p Eq (newInput t origin) (newInput t origin) :=
  frame_twins fun _ _ _ => ⟨rfl, rfl, rfl, rfl, rfl⟩

theorem newInput_none_twins (t : DataType) : Twins p Same (newInput t none) (newInput t none) :=
  frame_twins fun _ _ _ => ⟨⟨rfl, rfl⟩, rfl, rfl, rfl, rfl⟩

theorem newInputAs_twins (name : String) (t : DataType) :
    Twins p Eq (newInputAs name t) (newInputAs name t) :=
  frame_twins fun _ _ _ => ⟨rfl, rfl, rfl, rfl, rfl⟩

theorem newInputFor_twins (name : String) (t : DataType) :
    Twins p Eq (newInputFor name t) (newInputFor name t) := by
  exact .get_bind fun _ _ _ _ => newInputAs_twins _ t

theorem newOutput_twins (t : DataType) {s s' : Option Term} (h : Option.Rel (Term.Twins p) s s') :
    Twins p (Wire.Twins p) (newOutput t s) (newOutput t s') :=
  frame_twins fun _ _ _ => ⟨.mk h, rfl, rfl, rfl, rfl⟩

theorem newOutput_same (t : DataType) (origin : Option Term) :
    Twins p Eq (newOutput t origin) (newOutput t origin) :=
  frame_twins fun _ _ _ => ⟨rfl, rfl, rfl, rfl, rfl⟩

/-- The variable of a name is at the same place in both. -/
theorem findIdx?_twins (h : List.Forall₂ (Wire.Twins p) ws ws') (name : String) :
    (ws.findIdx? fun w => w.name == name) = ws'.findIdx? fun w => w.name == name := by
  induction h with
  | nil => rfl
  | cons hw _ ih => rw [List.findIdx?_cons, List.findIdx?_cons, ih, hw.name_eq]

theorem modify_twins (h : List.Forall₂ (Wire.Twins p) ws ws') (i : Nat) {s t : Term}
    (hst : s.Twins p t) :
    List.Forall₂ (Wire.Twins p) (ws.modify i fun w => { w with origin := some s })
      (ws'.modify i fun w => { w with origin := some t }) := by
  induction h generalizing i with
  | nil => simp
  | cons hw htail ih =>
    cases i with
    | zero => exact .cons (hw.withOrigin (.some hst)) htail
    | succ i => exact .cons hw (ih i)

theorem setOrigin_eq (t : Stream) (name : String) (a : Term) :
    t.setOrigin name a = { t with wires := (t.setOrigin name a).wires } := by
  unfold Stream.setOrigin
  split <;> rfl

theorem setOrigin_twins {t t' : Stream} (h : List.Forall₂ (Wire.Twins p) t.wires t'.wires)
    (name : String) (hab : a.Twins p b) :
    List.Forall₂ (Wire.Twins p) (t.setOrigin name a).wires (t'.setOrigin name b).wires := by
  rw [Stream.setOrigin, Stream.setOrigin, findIdx?_twins h name]
  split
  · exact h
  · exact modify_twins h _ hab

/-- The next temporary has the same name in both. -/
theorem nextName_twins (h : σ.Twins p τ) (t : DataType) :
    τ.temporaries.nextName t = σ.temporaries.nextName t := by
  obtain ⟨steps, wires, rfl, -, hw, -⟩ := h.exists_twin
  rw [Stream.nextName, Stream.nextName, hw.length_eq]
  rfl

theorem State.Twins.withWires (h : σ.Twins p τ) (hw : List.Forall₂ (Wire.Twins p) ws ws') :
    State.Twins p { σ with temporaries := { σ.temporaries with wires := ws } }
      { τ with temporaries := { τ.temporaries with wires := ws' } } := by
  obtain ⟨steps, wires, rfl, hs, -, hv⟩ := h.exists_twin
  exact ⟨rfl, hs, hw, hv⟩

theorem State.Twins.setOrigin (h : σ.Twins p τ) (name : String) (hab : a.Twins p b) :
    State.Twins p { σ with temporaries := σ.temporaries.setOrigin name a }
      { τ with temporaries := τ.temporaries.setOrigin name b } := by
  rw [setOrigin_eq σ.temporaries, setOrigin_eq τ.temporaries]
  exact h.withWires (setOrigin_twins h.temporaries name hab)

/-- A temporary without an origin is issued alike. -/
theorem State.Twins.issueAs (h : σ.Twins p τ) (name : String) (t : DataType) :
    (σ.temporaries.issueAs name t).1 = (τ.temporaries.issueAs name t).1 ∧
      State.Twins p { σ with temporaries := (σ.temporaries.issueAs name t).2 }
        { τ with temporaries := (τ.temporaries.issueAs name t).2 } := by
  obtain ⟨steps, wires, rfl, hs, hw, hv⟩ := h.exists_twin
  exact ⟨rfl, rfl, hs, List.rel_append hw (.cons (.refl_of_none rfl) .nil), hv⟩

theorem newTemporary_twins (t : DataType) (h : a.Twins p b) :
    Twins p (Wire.Twins p) (newTemporary t a) (newTemporary t b) := by
  refine Twins.bind (R := Same) (.modifyGet fun σ τ hσ => ?_) ?_
  · obtain ⟨heq, hissued⟩ := hσ.issueAs (σ.temporaries.nextName t) t
    simp only [Stream.issue, nextName_twins hσ]
    exact ⟨⟨congrArg (fun w : Wire => { w with origin := none }) heq, rfl⟩,
      hissued.setOrigin _ h⟩
  · rintro ⟨name, type, role, origin⟩ _ ⟨rfl, rfl⟩
    exact (emit_twins (.declare (.refl_of_none rfl) h)).bind_eq fun _ => .pure (.mk (.some h))

theorem newVersion_twins (name : String) (t : DataType) (h : a.Twins p b) :
    Twins p Same (newVersion name t a) (newVersion name t b) := by
  refine Twins.bind (R := Same) (.modifyGet fun σ τ hσ => ?_) ?_
  · obtain ⟨heq, hissued⟩ := hσ.issueAs (σ.temporaries.nextName t ++ "_" ++ name) t
    rw [nextName_twins hσ]
    exact ⟨⟨heq, rfl⟩, hissued⟩
  · rintro w _ ⟨rfl, hw⟩
    exact (emit_twins (.assign (.refl_of_none hw) h)).bind_eq fun _ => .pure ⟨rfl, hw⟩

theorem bindVersion_twins (k : Key) {w : Wire} (ho : w.origin = none) :
    Twins p Eq (bindVersion k w) (bindVersion k w) := by
  refine .modify fun σ _ _ hs hw hv => ⟨rfl, hs, hw, fun e he => ?_⟩
  rcases Bindings.mem_bind he with rfl | he
  · exact ho
  · exact hv e he

theorem dropVars_twins (vs : List VarId) : Twins p Eq (dropVars vs) (dropVars vs) :=
  .modify fun _ _ _ hs hw hv => ⟨rfl, hs, hw, fun e he => hv e (List.mem_of_mem_filter he)⟩

theorem noteCall_twins (f : FunctionId) : Twins p Eq (noteCall f) (noteCall f) :=
  frame_twins fun _ _ _ => ⟨rfl, rfl, rfl, rfl, rfl⟩

theorem callCircuit_twins (q : Program) (s : Settings) (f : FunctionId) :
    Twins p Eq (callCircuit q s f) (callCircuit q s.unfolded f) := by
  exact (frame_twins fun _ _ _ => ⟨rfl, rfl, rfl, rfl, rfl⟩).bind_eq fun _ => emit_twins (.call _)

/-! ## Crossing the boundary -/

/-- The environment without folding, which holds functions in a way of its own. -/
def Env.unfolded (env : Env) (inline : FunctionId → List Term → Lower (List Term)) : Env :=
  { env with settings := env.settings.unfolded, inline }

section Boundary

variable {env : Env} {inline : FunctionId → List Term → Lower (List Term)}
  {x y : Lower Solidity.Expr} {v w : Wire}

theorem assignVar_twins (v : VarId) (h : a.Twins p b) :
    Twins p Eq (assignVar env v a) (assignVar (env.unfolded inline) v b) :=
  (newVersion_twins _ _ h).bind fun _ _ ⟨heq, ho⟩ => heq ▸ bindVersion_twins (.var v) ho

theorem publicKey_twins (l : Label) :
    Twins p Eq (publicKey env l) (publicKey (env.unfolded inline) l) := by
  unfold publicKey
  rw [show canonical (env.unfolded inline) l = canonical env l from rfl]
  generalize canonical env l = k
  refine .ite (fun _ => ?_) fun _ => ?_
  · exact (frame_twins fun _ _ _ => ⟨rfl, rfl, rfl, rfl, rfl⟩).bind_eq fun _ => .pure rfl
  cases k with
  | all | me => exact .throw _
  | var v =>
    refine .get_bind fun _ _ _ _ => .ite (fun _ => .throw_bind _) fun _ => ?_
    exact (newInputFor_twins _ _).bind_eq fun w => (addPre_twins _).bind_eq fun _ => .pure rfl

theorem noteSealed_twins (cipher key : Wire) (l : Label) :
    Twins p Eq (noteSealed env cipher key l) (noteSealed (env.unfolded inline) cipher key l) :=
  frame_twins fun _ _ _ => ⟨rfl, rfl, rfl, rfl, rfl⟩

theorem encrypted_twins (randomness : String) (hw : v.Twins p w) (l : Label) (cipher : Wire)
    (isDecryption : Bool) :
    Twins p Eq (encrypted env randomness v l cipher isDecryption)
      (encrypted (env.unfolded inline) randomness w l cipher isDecryption) := by
  refine (newSecretAs_twins _ _).bind fun r _ ⟨hr, _⟩ => hr ▸ ?_
  refine (publicKey_twins l).bind_eq fun k => ?_
  exact (emit_twins (.encryption r k cipher isDecryption hw)).bind_eq fun _ => noteSealed_twins _ _ _

theorem input_twins (t : OwnedType) (text : String) (value : Solidity.Expr) :
    Twins p Same (input env t text value) (input (env.unfolded inline) t text value) := by
  refine .ite (fun _ => ?_) fun _ => ?_
  · refine (newSecret_twins _).bind fun plain _ ⟨hplain, ho⟩ => hplain ▸ ?_
    refine (newInput_twins _ _).bind_eq fun cipher => ?_
    refine (encrypted_twins _ (.refl_of_none ho) _ _ _).bind_eq fun _ => ?_
    refine (comment_twins _).bind_eq fun _ => (addPre_twins _).bind_eq fun _ => ?_
    exact .pure ⟨rfl, ho⟩
  · refine (newInput_none_twins _).bind fun w _ ⟨hw, ho⟩ => hw ▸ ?_
    refine (comment_twins _).bind_eq fun _ => (addPre_twins _).bind_eq fun _ => ?_
    exact .pure ⟨rfl, ho⟩

theorem inputVar_twins (v : VarId) :
    Twins p Same (inputVar env v) (inputVar (env.unfolded inline) v) := input_twins _ _ _

theorem inputLocation_twins (e : Expr) (h : Twins p Eq x y) :
    Twins p Same (inputLocation env e x) (inputLocation (env.unfolded inline) e y) := by
  refine .get_bind fun _ _ _ _ => .ite (fun _ => .throw_bind _) fun _ => ?_
  exact h.bind_eq fun value => input_twins _ _ _

theorem compute_twins (e : Expr) {x y : Lower Term} (h : Twins p (Term.Twins p) x y) :
    Twins p (Wire.Twins p) (compute e x) (compute e y) :=
  h.bind fun _ _ hab => newTemporary_twins _ hab

theorem Same.twins (h : Same v w) : v.Twins p w := by
  obtain ⟨rfl, ho⟩ := h
  exact .refl_of_none ho

theorem inputExpr_twins (e : Expr) (h : Twins p Eq x y) {x' y' : Lower Term}
    (h' : Twins p (Term.Twins p) x' y') :
    Twins p (Wire.Twins p) (inputExpr env e x x') (inputExpr (env.unfolded inline) e y y') := by
  exact .ite (fun _ => compute_twins e h') fun _ =>
    (inputLocation_twins e h).weaken fun _ _ => Same.twins

theorem publish_twins (h : v.Twins p w) (l : Label) (t : DataType) :
    Twins p (fun a b => a.name = b.name) (publish env v l t) (publish (env.unfolded inline) w l t) := by
  refine .ite (fun _ => ?_) fun _ => ?_
  · refine (newOutput_twins t h.origin).bind fun a b hab => ?_
    exact (emit_twins (.equal h hab)).bind_eq fun _ => .pure hab.name_eq
  · rw [h.term_eq]
    refine (newOutput_same _ _).bind_eq fun out => ?_
    exact (encrypted_twins _ h _ _ _).bind_eq fun _ => .pure rfl

theorem output_twins (o : Owner) (t : DataType) (text : String) {x y : Lower Wire}
    (h : Twins p (Wire.Twins p) x y) :
    Twins p Eq (output env o t text x) (output (env.unfolded inline) o t text y) := by
  unfold output
  cases o.label? with
  | none => exact .throw _
  | some l =>
    refine (inBlock_twins text (h.bind fun v w hvw => publish_twins hvw _ t)).bind fun a b hab => ?_
    rw [hab]
    refine (comment_twins _).bind_eq fun _ => .pure ?_
    rw [Env.member, hab]
    rfl

theorem outputExpr_twins (e : Expr) (o : Owner) {x y : Lower Wire}
    (h : Twins p (Wire.Twins p) x y) :
    Twins p Eq (outputExpr env e o x) (outputExpr (env.unfolded inline) e o y) := by
  refine .get_bind fun _ _ _ _ => ?_
  exact .ite (fun _ => .throw_bind _) fun _ => output_twins _ _ _ h

end Boundary

end Lowering

end Shroud
