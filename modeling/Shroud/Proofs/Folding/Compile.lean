import Shroud.Compile
import Shroud.Proofs.Folding.Lowered

/-! # Compiling with and without folding

Both compilations fail with the same error, or give the same contracts and twin circuits: the same
slots, sizes, names and calls, and steps that differ at most in their terms.
-/

namespace Shroud

open Circuit (Step)

namespace Lowering

variable {p : Program} {u : ContractEnv} {s : Settings}

/-! ## Functions -/

theorem new_twins (p : Program) (s : Settings) : (State.new s).Twins p (State.new s.unfolded) :=
  ⟨rfl, .nil, .nil, fun _ he => absurd he List.not_mem_nil⟩

/-- A function is lowered alike. -/
structure Lowered.Twins (p : Program) (l m : Lowered) : Prop where
  id : l.id = m.id
  circuit : l.circuit.Twins p m.circuit
  body : l.body = m.body

theorem functionBody_twins (hs : s.foldsConstants = true)
    (ht : ∀ e, p.Contains e → e.IsTree ∧ e.NumeralsTyped) (owners : List Label) (f : FunctionId) :
    Twins p Eq (functionBody (.ofFunction p s owners f))
      (functionBody (.ofFunction p s.unfolded owners f)) := by
  let base : Env := {
    program := p, settings := s, function := f, owners
    here := { function := f, span := (p.function f).span }
    inline := fun _ _ => throw (.internal .returnOutsideInlining) }
  have hpairs : Env.Pairs p (.ofFunction p s owners f)
      (inlineBody (base.unfolded base.inline) p.functions.length) :=
    ⟨rfl, hs, ht, inlineBody_twins base rfl hs ht base.inline p.functions.length⟩
  have hb := covers_body p f
  unfold functionBody
  simp only [Env.ofFunction]
  generalize (p.function f).body = b at hb ⊢
  cases b with
  | block i body => exact lowerList_twins body true hpairs fun c hc => hb.child hc
  | _ => exact asBody_twins _ _ _ (lower_twins _ false hpairs hb)

theorem lowerFunction_twins (hp : u.program = p) (hs : u.settings.foldsConstants = true)
    (ht : ∀ e, p.Contains e → e.IsTree ∧ e.NumeralsTyped) (f : FunctionId) :
    Parallel (Lowered.Twins p) (lowerFunction u f) (lowerFunction u.unfolded f) := by
  subst hp
  refine (functionBody_twins hs ht u.owners f _ _ (new_twins _ _)).bind fun a b hab => ?_
  exact .ok ⟨rfl, hab.2, hab.1⟩

section Sizes

variable {l m : Lowered} {σ τ : State}

theorem State.Twins.frame_eq (h : σ.Twins p τ) : τ.frame = σ.frame := by
  obtain ⟨steps, wires, rfl, -⟩ := h.exists_twin
  simp [State.frame, State.twin]

theorem State.Twins.inputs_eq (h : σ.Twins p τ) : τ.inputs = σ.inputs.unfolded := by
  obtain ⟨steps, wires, rfl, -⟩ := h.exists_twin
  rfl

theorem State.Twins.outputs_eq (h : σ.Twins p τ) : τ.outputs = σ.outputs.unfolded := by
  obtain ⟨steps, wires, rfl, -⟩ := h.exists_twin
  rfl

theorem frames_twins {ls ms : List Lowered} (h : List.Forall₂ (Lowered.Twins p) ls ms) :
    frames u.unfolded ms = frames u ls := by
  induction h with
  | nil => rfl
  | @cons l m ls ms hlm _ ih =>
    have hv : (u.unfolded.function m.id).facts.isVerified = (u.function l.id).facts.isVerified := by
      rw [← hlm.id]
      rfl
    unfold frames at ih ⊢
    rw [List.filter_cons, List.filter_cons, hv]
    split
    · rw [List.map_cons, List.map_cons, ih, hlm.id, hlm.circuit.frame_eq]
    · exact ih

theorem patchLowered_twins (fs : Frames) (sizes : Frames.Sizes) (h : l.Twins p m) :
    Parallel (Lowered.Twins p) (patchLowered u fs sizes l)
      (patchLowered u.unfolded fs sizes m) := by
  obtain ⟨id, circuit, body⟩ := m
  obtain ⟨rfl, hcircuit, rfl⟩ := h
  unfold patchLowered
  rw [show (u.unfolded.function l.id) = u.function l.id from rfl]
  split
  · exact .ok ⟨rfl, hcircuit, rfl⟩
  · refine (Parallel.refl _).bind fun offsets _ ho => ?_
    subst ho
    rw [show u.unfolded.settings = u.settings.unfolded from rfl, Solidity.patchSites_unfolded]
    refine (Parallel.refl _).bind fun body _ hb => ?_
    subst hb
    exact .ok ⟨rfl, hcircuit, rfl⟩

/-- The finished circuits are twins. -/
theorem circuit_twins (h : σ.Twins p τ) (function : String) (verifier : Option String)
    (below : Callees) : (u.circuit σ function verifier below).Twins p
      (u.unfolded.circuit τ function verifier below) := by
  obtain ⟨steps, wires, rfl, hs, -⟩ := h.exists_twin
  refine ⟨?_, hs⟩
  simp only [ContractEnv.circuit, State.twin, Circuit.Stream.layout_unfolded,
    Circuit.Stream.size_unfolded]
  rfl

end Sizes

/-! ## Wrappers -/

section Wrappers

variable {env : Env} {inline : FunctionId → List Circuit.Term → Lower (List Circuit.Term)}
  {l m : Lowered}

theorem encryptParam_twins (v : VarId) :
    Twins p Eq (u.encryptParam env v) (u.unfolded.encryptParam (env.unfolded inline) v) := by
  refine (newSecretAs_twins _ _).bind fun plain _ hplain => ?_
  obtain ⟨rfl, ho⟩ := hplain
  refine (newInputFor_twins _ _).bind_eq fun cipher => ?_
  exact (encrypted_twins _ (.refl_of_none ho) _ _ _).bind_eq fun _ => .pure rfl

variable (env inline) in
theorem encryptParams_twins : ∀ vs : List VarId,
    Twins p Eq (u.encryptParams env vs) (u.unfolded.encryptParams (env.unfolded inline) vs)
  | [] => .pure rfl
  | v :: vs => (encryptParam_twins v).bind_eq fun _ =>
    (encryptParams_twins vs).bind_eq fun _ => .pure rfl

theorem inputKeys_twins : ∀ ls : List Label, Twins p Eq (u.inputKeys ls) (u.unfolded.inputKeys ls)
  | [] => .pure rfl
  | _ :: ls => (newInputAs_twins _ _).bind_eq fun _ =>
    (inputKeys_twins ls).bind_eq fun _ => .pure rfl

theorem wrapperCircuit_twins (f : FunctionId) (keys : List Label) :
    Twins p Eq (u.wrapperCircuit f keys) (u.unfolded.wrapperCircuit f keys) := by
  refine (frame_twins fun _ _ _ => ⟨rfl, rfl, rfl, rfl, rfl⟩).bind_eq fun _ => ?_
  refine (encryptParams_twins (.ofFunction u.program u.settings u.owners f)
    (Env.ofFunction u.program u.settings.unfolded u.owners f).inline _).bind_eq
    fun params => .get_bind fun σ _ _ _ => ?_
  refine (inputKeys_twins _).bind_eq fun keys => ?_
  refine .ite (fun _ => ?_) fun _ => .pure rfl
  exact (callCircuit_twins _ _ f).bind_eq fun _ => .pure rfl

theorem bodyFrame_twins (sizes : Frames.Sizes) (h : l.Twins p m) :
    u.unfolded.bodyFrame m sizes = u.bodyFrame l sizes := by
  rw [ContractEnv.bodyFrame, ContractEnv.bodyFrame, h.circuit.frame_eq, ← h.id]
  rfl

theorem wrapper_twins (sizes : Frames.Sizes) (h : l.Twins p m) :
    Parallel (fun a b => a.1 = b.1 ∧ a.2.Twins p b.2) (u.wrapper l sizes)
      (u.unfolded.wrapper m sizes) := by
  unfold ContractEnv.wrapper
  rw [bodyFrame_twins sizes h, ← h.id]
  refine (Parallel.refl _).bind fun below _ hb => ?_
  subst hb
  refine (wrapperCircuit_twins l.id below.keys _ _ (new_twins p _)).bind fun r r' hr => ?_
  obtain ⟨⟨params, keys⟩, σ⟩ := r
  obtain ⟨_, τ⟩ := r'
  obtain ⟨rfl, hσ⟩ := hr
  dsimp only
  rw [hσ.inputs_eq, hσ.outputs_eq, Circuit.Stream.layout_unfolded]
  refine (Parallel.refl _).bind fun copiedParams _ hcopied => ?_
  subst hcopied
  refine (Parallel.refl _).bind fun copiedKeys _ hcopied => ?_
  subst hcopied
  refine .ok ⟨?_, ?_⟩
  · rw [ContractEnv.param_unfolded, ContractEnv.returns_unfolded, ContractEnv.returnDecls_unfolded,
      Circuit.Stream.size_unfolded, Circuit.Stream.size_unfolded]
    rfl
  · have hkeys : τ.keys = σ.keys := by
      obtain ⟨_, _, rfl, -⟩ := hσ.exists_twin
      rfl
    rw [hkeys]
    exact circuit_twins hσ _ _ _

end Wrappers

/-! ## Contracts -/

/-- Functions turn into the same code, with twin circuits. -/
structure Output.Twins (p : Program) (a b : Output) : Prop where
  functions : a.functions = b.functions
  structs : a.structs = b.structs
  circuits : List.Forall₂ (Circuit.Twins p) a.circuits b.circuits
  verifiers : a.verifiers = b.verifiers

theorem Output.Twins.append {a b c d : Output} (h : a.Twins p b) (h' : c.Twins p d) :
    (a.append c).Twins p (b.append d) where
  functions := by rw [Output.append, Output.append, h.functions, h'.functions]
  structs := by rw [Output.append, Output.append, h.structs, h'.structs]
  circuits := List.rel_append h.circuits h'.circuits
  verifiers := by rw [Output.append, Output.append, h.verifiers, h'.verifiers]

section Outputs

variable {l m : Lowered}

theorem outer_twins (sizes : Frames.Sizes) (h : l.Twins p m) :
    Parallel (Output.Twins p) (outer u l sizes) (outer u.unfolded m sizes) := by
  unfold outer
  rw [show u.unfolded.function m.id = u.function l.id by rw [← h.id]; rfl]
  split
  · exact .ok ⟨rfl, rfl, .nil, rfl⟩
  · refine (wrapper_twins sizes h).bind fun a b hab => ?_
    obtain ⟨hwrapper, hcircuit⟩ := hab
    refine .ok ⟨?_, rfl, .cons hcircuit .nil, ?_⟩
    · rw [hwrapper]
    · rw [← h.id]
      rfl

theorem internal_twins (h : l.Twins p m) (below : Callees) :
    u.unfolded.internal m below = u.internal l below := by
  rw [ContractEnv.internal, ContractEnv.internal, ← h.id, ← h.body, h.circuit.frame_eq,
    h.circuit.inputs_eq, h.circuit.outputs_eq, Circuit.Stream.layout_unfolded,
    Circuit.Stream.layout_unfolded, ContractEnv.param_unfolded, ContractEnv.returns_unfolded,
    ContractEnv.returnDecls_unfolded]
  rfl

theorem dataStruct_twins (f : FunctionId) {σ τ : State} (h : σ.Twins p τ) :
    u.unfolded.dataStruct f τ = u.dataStruct f σ := by
  simp only [ContractEnv.dataStruct, h.inputs_eq, h.outputs_eq, Circuit.Stream.layout_unfolded,
    show u.unfolded.settings = u.settings.unfolded from rfl, DataType.toSolidity_unfolded]
  rfl

theorem inner_twins (sizes : Frames.Sizes) (h : l.Twins p m) :
    Parallel (Output.Twins p) (inner u l sizes) (inner u.unfolded m sizes) := by
  unfold inner
  rw [show u.unfolded.function m.id = u.function l.id by rw [← h.id]; rfl, ← h.id, ← h.body]
  split
  · refine .ok ⟨?_, rfl, .nil, rfl⟩
    rw [ContractEnv.plain_unfolded]
  · cases Sorted.find? sizes l.id with
    | none => exact .error _
    | some below =>
      refine .ok ⟨?_, ?_, .cons (circuit_twins h.circuit _ _ _) .nil, rfl⟩
      · rw [internal_twins h]
      · rw [h.circuit.frame_eq, dataStruct_twins _ h.circuit]

theorem outputs_twins (sizes : Frames.Sizes) {ls ms : List Lowered}
    (h : List.Forall₂ (Lowered.Twins p) ls ms) :
    Parallel (Output.Twins p) (outputs u sizes ls) (outputs u.unfolded sizes ms) := by
  induction h with
  | nil => exact .ok ⟨rfl, rfl, .nil, rfl⟩
  | cons hlm _ ih =>
    rw [outputs, outputs]
    refine (outer_twins sizes hlm).bind fun a b hab => ?_
    refine (inner_twins sizes hlm).bind fun c d hcd => ih.bind fun e f hef => ?_
    exact .ok ((hab.append hcd).append hef)

end Outputs

theorem contract_twins (hs : s.foldsConstants = true)
    (ht : ∀ e, p.Contains e → e.IsTree ∧ e.NumeralsTyped) (c d : ContractId) (hcd : c = d) :
    Parallel (fun a b => a.1 = b.1 ∧ List.Forall₂ (Circuit.Twins p) a.2 b.2) (contract p s c)
      (contract p s.unfolded d) := by
  subst hcd
  refine Parallel.ite (fun _ => .error _) fun _ => ?_
  have hbodies : ∀ f g, f = g → Parallel (Lowered.Twins p) (lowerFunction (.new p s c) f)
      (lowerFunction (.new p s.unfolded c) g) := by
    rintro f _ rfl
    exact lowerFunction_twins (u := .new p s c) rfl hs ht f
  refine (Parallel.mapM (List.forall₂_same.2 fun f _ => rfl) hbodies).bind fun ls ms hlm => ?_
  rw [show ContractEnv.new p s.unfolded c = (ContractEnv.new p s c).unfolded from rfl,
    frames_twins hlm]
  refine (Parallel.refl _).bind fun sizes _ hsizes => ?_
  subst hsizes
  refine (Parallel.mapM hlm fun _ _ => patchLowered_twins _ sizes).bind fun ls ms hlm => ?_
  refine (outputs_twins sizes hlm).bind fun a b hab => ?_
  rw [show stateVar (ContractEnv.new p s c).unfolded = stateVar (.new p s c) from
    funext (stateVar_unfolded _)]
  refine (Parallel.refl _).bind fun vars _ hvars => ?_
  subst hvars
  have hempty : a.circuits.isEmpty = b.circuits.isEmpty := by
    rw [Bool.eq_iff_iff, List.isEmpty_iff_length_eq_zero, List.isEmpty_iff_length_eq_zero,
      hab.circuits.length_eq]
  refine .ok ⟨?_, hab.circuits⟩
  rw [hempty, hab.verifiers, hab.structs, hab.functions]
  rfl

end Lowering

/-- Compilations with the same contracts and twin circuits. -/
structure Compilation.Twins (p : Program) (a b : Compilation) : Prop where
  contracts : a.contracts = b.contracts
  circuits : List.Forall₂ (Circuit.Twins p) a.circuits b.circuits

open Lowering (Parallel)

theorem Program.lower_twins {p : Program} {s : Settings} (hs : s.foldsConstants = true)
    (ht : ∀ e, p.Contains e → e.IsTree ∧ e.NumeralsTyped) :
    Parallel (Compilation.Twins p) (p.lower s) (p.lower s.unfolded) := by
  have hids : List.Forall₂ (· = ·) p.contractIds p.contractIds := List.forall₂_same.2 fun _ _ => rfl
  refine (Parallel.mapM hids (Lowering.contract_twins hs ht)).bind fun as bs h => .ok ?_
  induction h with
  | nil => exact ⟨rfl, .nil⟩
  | cons hab _ ih =>
    refine ⟨?_, List.rel_append hab.2 ih.circuits⟩
    exact congrArg₂ List.cons hab.1 ih.contracts

/-- A run of the compiler: settings come first, then the check with its warnings, then lowering. -/
theorem SourceUnit.run_compile (u : SourceUnit) (s : Settings) (w : List Span) :
    (u.compile s).run.run w = match s.validate with
      | .error e => (.error (.settings e), w)
      | .ok () => match u.check.run.run w with
        | (.error e, w') => (.error e, w')
        | (.ok p, w') => (p.lower s, w') := by
  unfold compile
  cases s.validate with
  | error e => rfl
  | ok _ =>
    dsimp only
    rw [ExceptT.run_bind, StateT.run_bind]
    rcases u.check.run.run w with ⟨e | p, w'⟩
    · rfl
    · change ((liftM (p.lower s) : Typing.Check Compilation).run.run w') = (p.lower s, w')
      cases p.lower s <;> rfl

/-- **Folding constants preserves meaning.** With any settings and any warnings so far, compiling
with folding and without it gives the same warnings, and both fail with the same error or both
succeed. Then the contracts are the same, and the circuits have the same slots, sizes, names and
calls and the same steps, up to terms: where a term differs, an outermost part of a constant type is
one constant with folding, and without it the tree of operators whose exact value is that
constant. -/
theorem SourceUnit.compile_folding (u : SourceUnit) (s : Settings) (w : List Span) :
    let on := (u.compile { s with foldsConstants := true }).run.run w
    let off := (u.compile { s with foldsConstants := false }).run.run w
    on.2 = off.2 ∧
      Parallel (fun a b => ∃ p, Passes u.check p ∧ a.Twins p b) on.1 off.1 := by
  dsimp only
  rw [run_compile, run_compile,
    show ({ s with foldsConstants := true } : Settings).validate = s.validate from rfl,
    show ({ s with foldsConstants := false } : Settings).validate = s.validate from rfl]
  cases s.validate with
  | error e => exact ⟨rfl, .error _⟩
  | ok _ =>
    rcases hcheck : u.check.run.run w with ⟨e | p, w'⟩
    · exact ⟨rfl, .error e⟩
    · have hp : Passes u.check p := ⟨w, w', hcheck⟩
      have hlower := Program.lower_twins (s := { s with foldsConstants := true }) rfl
        fun e => check_isTree hp (e := e)
      exact ⟨rfl, hlower.weaken fun a b hab => ⟨p, hp, hab⟩⟩

end Shroud
