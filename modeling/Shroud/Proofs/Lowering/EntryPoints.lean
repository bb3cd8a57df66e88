import Shroud.Proofs.Lowering.Functions

/-! # Entry points of emitted contracts

A function that needs a proof can be entered from outside only through its wrapper, which has the
proof verified after the body has run. An `Origin` is the body or the wrapper of a function, or the
setup of the verifiers; `Entries` pairs the origins of a contract with its functions and circuits in
order, so that a circuit belongs to a function by its place and by how it was built (`Builds`), and
not by its name. What a verifier accepts is left out.
-/

namespace Shroud

/-- A function that anybody can call, or that runs when the contract is created. -/
def Solidity.Function.isExternal (g : Solidity.Function) : Bool :=
  g.isConstructor || g.visibility = .pub || g.visibility = .external

/-- A checked function has a wrapper if it can be called from outside, and needs a proof or takes
secrets. -/
theorem SourceUnit.check_isVerifiedOutside {u : SourceUnit} {p : Program} (h : Passes u.check p)
    {f : FunctionId} (hf : p.Has f) :
    (p.function f).facts.isVerifiedOutside = ((p.function f).canBeExternal &&
      ((p.function f).facts.isVerified || (p.function f).params.any fun v =>
        (p.var v).type.isPrivate)) := by
  obtain ⟨_, _, -, hq, -⟩ := check_typed h
  obtain ⟨r, -, -, rfl, -⟩ := Placement.withPlacement_eq_ok hq
  have halike := (Placement.recordVerified_placed r).alike
  rw [halike.has] at hf
  rw [Placement.isVerifiedOutside_recordVerified hf, halike.canBeExternal_eq, halike.params_eq]
  rfl

namespace Lowering

open Solidity (calls Call)

variable {u : ContractEnv} {k : Solidity.Contract} {circuits cs : List Circuit} {unit : SourceUnit}
  {f : FunctionId} {g : Solidity.Function} {l : Lowered}

/-- Where a function of an emitted contract comes from. -/
inductive Origin where
  /-- It has the body of a source function. -/
  | body (f : FunctionId)
  /-- It is the wrapper of a source function. -/
  | wrapper (f : FunctionId)
  /-- It is a constructor that is added to receive the verifiers. -/
  | setup
deriving DecidableEq

/-- A function of an emitted contract, with its origin and the circuit that is emitted with it. -/
structure Entry where
  origin : Origin
  function : Solidity.Function
  circuit? : Option Circuit

namespace ContractEnv

/-- The origins of the functions of a contract, but for an added constructor. -/
def origins (u : ContractEnv) : List Origin :=
  (u.program.contract u.contract).functions.flatMap fun f =>
    (if (u.program.function f).facts.isVerifiedOutside then [.wrapper f] else []) ++ [.body f]

/-- The emitted functions that have a circuit are the wrappers, and the bodies that need a proof. -/
def hasCircuit (u : ContractEnv) : Origin → Bool
  | .body f => (u.program.function f).facts.isVerified
  | .wrapper _ => true
  | .setup => false

/-- The functions that the lowered body of a function calls, as the source names them. -/
def calledBy (u : ContractEnv) (f : FunctionId) : List FunctionId :=
  match lowerFunction u f with
  | .ok l => l.circuit.called
  | .error _ => []

/-- The source functions whose bodies an emitted function calls. -/
def entered (u : ContractEnv) : Origin → List FunctionId
  | .body f => u.calledBy f
  | .wrapper f => [f]
  | .setup => []

/-- An emitted function reaches the body of a function through calls. -/
def Reaches (u : ContractEnv) (a : Origin) (f : FunctionId) : Prop :=
  ∃ g ∈ u.entered a, Relation.ReflTransGen (fun f g => g ∈ u.calledBy f) g f

end ContractEnv

/-- A circuit is made for an emitted function: from the state in which lowering the body of its source
function ends, or from that in which wrapping the parameters and the keys of this function ends. -/
inductive Builds (u : ContractEnv) : Origin → Circuit → State → Prop
  | body {f : FunctionId} {l : Lowered} {below : Callees} (h : lowerFunction u f = .ok l) :
      Builds u (.body f) (u.circuit l.circuit (circuitName u.program u.settings f) none below)
        l.circuit
  | wrapper {f : FunctionId} {keys : List Label}
      {r : List (VarId × Circuit.Wire) × List (Label × Circuit.Wire)} {c : State} {below : Callees}
      (h : Yields (u.wrapperCircuit f keys) (.new u.settings) r c) :
      Builds u (.wrapper f) (u.circuit c (u.program.function f).uniqueName
        (some (u.ownVerifier f)) below) c

/-- An emitted function has the circuit that is made for it, if it is one with a circuit. -/
structure Entry.Owns (u : ContractEnv) (x : Entry) : Prop where
  isSome : x.circuit?.isSome = u.hasCircuit x.origin
  builds : ∀ circuit ∈ x.circuit?, ∃ c, Builds u x.origin circuit c

/-- The functions and the circuits of an emitted contract, each in order: every function has its
origin, and every circuit stands with the function that it was made for. -/
structure Entries (Q : Entry → Prop) (os : List Origin) (gs : List Solidity.Function)
    (cs : List Circuit) (xs : List Entry) : Prop where
  origins : xs.map Entry.origin = os
  functions : xs.map Entry.function = gs
  circuits : xs.filterMap Entry.circuit? = cs
  all : ∀ x ∈ xs, Q x

/-- An emitted function has the body of a function, and calls what that calls. One with a circuit
takes slices of the circuit buffers and is only called from inside; the others take no slices. -/
structure CarriesBody (u : ContractEnv) (f : FunctionId) (g : Solidity.Function) : Prop where
  calls : (calls g.body).Perm ((u.calledBy f).map u.emittedCall)
  body : ∃ l fs sizes l', lowerFunction u f = .ok l ∧ patchLowered u fs sizes l = .ok l' ∧
    l'.body <:+: g.body
  verified : (u.program.function f).facts.isVerified = true →
    g.name = u.wrappedName f ∧ g.isExternal = false ∧
      g.params = (u.program.function f).params.map (u.param .memory) ++ bufferParams u.settings
  plain : (u.program.function f).facts.isVerified = false → ∃ received : List String,
    g.params = received.map (fun v => ⟨.contract v, "_" ++ Settings.instanceName v, none⟩) ++
      (u.program.function f).params.map (u.param .memory)

/-- An emitted function carries a body, or wraps one with the circuit that stands with it and calls
nothing else, or is a constructor that calls nothing. -/
def Entry.Implements (u : ContractEnv) (x : Entry) : Prop :=
  match x.origin with
  | .body f => CarriesBody u f x.function
  | .wrapper f => ∃ c, x.circuit? = some c ∧ Wraps u f c x.function ∧
    calls x.function.body = [⟨u.wrappedName f, (u.program.function f).params.length +
      if (u.program.function f).facts.isVerified then 4 else 0, none⟩]
  | .setup => calls x.function.body = []

/-- The functions of an emitted contract guard the bodies that need a proof: each such body is only
called from inside, has one wrapper if its function could be called from outside, and is reached from
outside through such wrappers only. -/
structure Guarded (u : ContractEnv) (k : Solidity.Contract) (circuits : List Circuit)
    (os : List Origin) (xs : List Entry) : Prop where
  origins : os = u.origins ∨ os = .setup :: u.origins
  nodup : os.Nodup
  entries : Entries (fun x => x.Owns u ∧ x.Implements u) os k.functions circuits xs
  bodies : ∀ f ∈ (u.program.contract u.contract).functions, .body f ∈ os
  wrappers : ∀ f ∈ (u.program.contract u.contract).functions,
    (u.program.function f).facts.isVerified = true → (u.program.function f).canBeExternal = true →
      .wrapper f ∈ os
  closed : ∀ x ∈ xs, x.function.isExternal = true →
    (∀ f, x.origin = .wrapper f → (u.program.function f).facts.isVerified = false) →
      ∀ f, u.Reaches x.origin f → (u.program.function f).facts.isVerified = false

/-! ## Origins -/

theorem mem_origins {o : Origin} : o ∈ u.origins ↔ ∃ f ∈ (u.program.contract u.contract).functions,
    o = .wrapper f ∧ (u.program.function f).facts.isVerifiedOutside = true ∨ o = .body f := by
  simp only [ContractEnv.origins, List.mem_flatMap, List.mem_append, List.mem_ite_nil_right,
    List.mem_singleton, and_comm]

theorem origins_nodup (h : (u.program.contract u.contract).functions.Nodup) : u.origins.Nodup := by
  refine List.nodup_flatMap.2 ⟨fun f _ => ?_, h.imp fun {f g} hne => ?_⟩
  · split <;> simp
  · intro a ha hb
    simp only [List.mem_append, List.mem_ite_nil_right, List.mem_singleton] at ha hb
    rcases ha with ⟨-, rfl⟩ | rfl <;> rcases hb with ⟨-, h⟩ | h <;> cases h <;> exact hne rfl

/-! ## Reaching -/

/-- A lowered body only calls what the source calls, directly or through inlined functions. -/
theorem calls_of_mem_calledBy (hp : Passes unit.check u.program) {g : FunctionId}
    (h : g ∈ u.calledBy f) : Relation.TransGen u.program.Calls f g := by
  unfold ContractEnv.calledBy at h
  split at h
  · rename_i l hlow
    obtain ⟨-, hcalled, -⟩ := lowerFunction_calls hp hlow
    exact hcalled g h
  · cases h

/-- What a function without a circuit reaches has no circuit. -/
theorem isVerified_of_reached (hp : Passes unit.check u.program) {g : FunctionId}
    (h : Relation.ReflTransGen (fun f g => g ∈ u.calledBy f) f g)
    (hf : (u.program.function f).facts.isVerified = false) :
    (u.program.function g).facts.isVerified = false := by
  induction h with
  | refl => exact hf
  | tail _ hstep ih =>
    by_contra hg
    have hv := (SourceUnit.check_graded hp).of_transGen (calls_of_mem_calledBy hp hstep)
      (by simpa using hg)
    rw [ih] at hv
    cases hv

theorem Entry.Implements.closed {x : Entry} (hp : Passes unit.check u.program) (h : x.Implements u)
    (hx : x.function.isExternal = true)
    (hwrapper : ∀ f, x.origin = .wrapper f → (u.program.function f).facts.isVerified = false)
    (hreach : u.Reaches x.origin f) : (u.program.function f).facts.isVerified = false := by
  obtain ⟨origin, g, c⟩ := x
  obtain ⟨f₁, hf₁, hreach⟩ := hreach
  refine isVerified_of_reached hp hreach ?_
  cases origin with
  | body f₀ =>
    have hplain : (u.program.function f₀).facts.isVerified = false := by
      by_contra hv
      rw [(h.verified (by simpa using hv)).2.1] at hx
      cases hx
    exact isVerified_of_reached hp (.single hf₁) hplain
  | wrapper f₀ =>
    cases List.mem_singleton.1 hf₁
    exact hwrapper _ rfl
  | setup => cases hf₁

/-! ## Emitted functions -/

/-- A function that receives the verifiers implements what it did. -/
theorem Entry.Implements.receiveVerifiers {x : Entry} (h : x.Implements u) (vs : List String)
    (hx : x.function.isConstructor = true) :
    Entry.Implements u { x with function := receiveVerifiers vs x.function } := by
  obtain ⟨origin, g, c⟩ := x
  cases origin with
  | body f =>
    obtain ⟨hcalls, ⟨l, fs, sizes, l', hlow, hpatch, hbody⟩, hverified, hplain⟩ := h
    refine ⟨by rwa [calls_receiveVerifiers], ⟨l, fs, sizes, l', hlow, hpatch, ?_⟩, fun hv => ?_,
      fun hv => ?_⟩
    · exact hbody.trans (List.suffix_append _ _).isInfix
    · have hnot := (hverified hv).2.1
      rw [Solidity.Function.isExternal, show g.isConstructor = true from hx] at hnot
      cases hnot
    · obtain ⟨received, hparams⟩ := hplain hv
      refine ⟨vs ++ received, ?_⟩
      show _ ++ g.params = _
      rw [hparams]
      simp
  | wrapper f =>
    obtain ⟨c, hc, hwraps, hcalls⟩ := h
    exact ⟨c, hc, hwraps.receiveVerifiers vs, by rwa [calls_receiveVerifiers]⟩
  | setup => exact (calls_receiveVerifiers vs g).trans h

theorem HoldsBody.carriesBody {e : Emitted u k cs} (hp : Passes unit.check u.program) (hl : l ∈ e.patched)
    (hf : u.program.Has l.id) (h : HoldsBody u l g) : CarriesBody u l.id g := by
  obtain ⟨l₀, -, hlow, hpatch⟩ := e.exists_body hl
  obtain ⟨body, hl', -⟩ := patchLowered_eq hpatch
  have hcalled : u.calledBy l.id = l.circuit.called := by
    rw [ContractEnv.calledBy, hlow, hl']
  refine ⟨?_, ⟨l₀, _, _, l, hlow, hpatch, h.body⟩, fun hv => ?_, fun hv => ⟨[], ?_⟩⟩
  · rw [h.calls, hcalled]
    exact (e.calls_patched hp hl).2
  · have houter := SourceUnit.check_isVerifiedOutside hp hf
    rw [hv, Bool.true_or, Bool.and_true] at houter
    refine ⟨?_, ?_, by rw [h.params, hv]; rfl⟩
    · rw [h.name, ContractEnv.innerName, ContractEnv.wrappedName, hv, houter]
      cases hc : (u.program.function l.id).isConstructor with
      | true => simp [Function.canBeExternal, hc]
      | false => simp
    · have hcons : g.isConstructor = false := by
        by_contra hc
        rw [(h.isConstructor (by simpa using hc)).2.2] at hv
        cases hv
      rw [Solidity.Function.isExternal, hcons, h.visibility, houter]
      unfold Function.canBeExternal
      cases (u.program.function l.id).visibility <;>
        cases (u.program.function l.id).isConstructor <;> rfl
  · rw [h.params, hv]
    simp

/-! ## Entries -/

section Entries

variable {Q : Entry → Prop} {os os' : List Origin} {gs gs' : List Solidity.Function}
  {cs' : List Circuit} {xs ys : List Entry}

theorem Entries.append (h : Entries Q os gs cs xs) (h' : Entries Q os' gs' cs' ys) :
    Entries Q (os ++ os') (gs ++ gs') (cs ++ cs') (xs ++ ys) where
  origins := by rw [List.map_append, h.origins, h'.origins]
  functions := by rw [List.map_append, h.functions, h'.functions]
  circuits := by rw [List.filterMap_append, h.circuits, h'.circuits]
  all := List.forall_mem_append.2 ⟨h.all, h'.all⟩

theorem Entries.cons (x : Entry) (hx : Q x) (h : Entries Q os gs cs xs) :
    Entries Q (x.origin :: os) (x.function :: gs) (x.circuit?.toList ++ cs) (x :: xs) where
  origins := by rw [List.map_cons, h.origins]
  functions := by rw [List.map_cons, h.functions]
  circuits := by cases hc : x.circuit? <;> simp [hc, h.circuits]
  all := List.forall_mem_cons.2 ⟨hx, h.all⟩

theorem Entries.nil : Entries Q [] [] [] [] := ⟨rfl, rfl, rfl, List.forall_mem_nil _⟩

theorem Entry.Owns.of_none {o : Origin} (h : u.hasCircuit o = false) (g : Solidity.Function) :
    Entry.Owns u ⟨o, g, none⟩ := ⟨h.symm, by simp⟩

theorem Entry.Owns.of_builds {o : Origin} {c : Circuit} (h : u.hasCircuit o = true)
    (hc : ∃ σ, Builds u o c σ) (g : Solidity.Function) : Entry.Owns u ⟨o, g, some c⟩ where
  isSome := h.symm
  builds := by
    rintro _ ⟨⟩
    exact hc

/-- Other functions may take the places of emitted ones. -/
theorem Entries.exists_replace {R : Solidity.Function → Solidity.Function → Prop}
    (h : Entries Q os gs cs xs) (hgs : List.Forall₂ R gs gs')
    (hR : ∀ x g, Q x → R x.function g → Q { x with function := g }) :
    ∃ ys, Entries Q os gs' cs ys := by
  obtain ⟨rfl, rfl, rfl, hall⟩ := h
  induction xs generalizing gs' with
  | nil =>
    cases hgs
    exact ⟨[], .nil⟩
  | cons x xs ih =>
    obtain ⟨g, gs', hg, hrest, rfl⟩ := List.forall₂_cons_left_iff.1 hgs
    rw [List.forall_mem_cons] at hall
    obtain ⟨ys, hys⟩ := ih hall.2 hrest
    have hcons := hys.cons _ (hR x g hall.1 hg)
    refine ⟨_, hcons.origins, hcons.functions, hcons.circuits.trans ?_, hcons.all⟩
    cases hc : x.circuit? <;> simp [hc]

end Entries

variable (e : Emitted u k cs)

include e

theorem Emitted.patched_ids :
    e.patched.map Lowered.id = (u.program.contract u.contract).functions := by
  have hlowered : e.bodies.map Lowered.id = (u.program.contract u.contract).functions := by
    rw [← List.forall₂_eq_eq_eq, List.forall₂_map_left_iff]
    exact ((mapM_eq_ok_iff.1 e.lowered).imp fun _ _ h => id_of_lowerFunction h).flip
  have hpatched : e.patched.map Lowered.id = e.bodies.map Lowered.id := by
    rw [← List.forall₂_eq_eq_eq, List.forall₂_map_left_iff, List.forall₂_map_right_iff]
    refine ((mapM_eq_ok_iff.1 e.patches).imp fun l l' h => ?_).flip
    obtain ⟨body, rfl, -⟩ := patchLowered_eq h
    rfl
  exact hpatched.trans hlowered

/-- The emitted functions are those of the contract. -/
theorem Emitted.owned (hp : Passes unit.check u.program) (hl : l ∈ e.patched) :
    u.program.Has l.id ∧ (u.program.function l.id).contract = u.contract := by
  refine (SourceUnit.check_checked hp).names.contract _ _ ?_
  rw [← e.patched_ids]
  exact List.mem_map_of_mem hl

section

variable {Q : Entry → Prop}
  (hwrapper : ∀ l ∈ e.patched, ∀ r, u.wrapper l e.sizes = .ok r →
    Q ⟨.wrapper l.id, r.1, some r.2⟩)
  (hbody : ∀ l ∈ e.patched, ∀ out, inner u l e.sizes = .ok out → ∃ g, out.functions = [g] ∧
    Q ⟨.body l.id, g, out.circuits.head?⟩)
include hwrapper hbody

/-- A source function turns into its wrapper and its body, with their circuits. -/
theorem Emitted.piece_entries (hl : l ∈ e.patched) {piece : Output × Output}
    (h : TurnsInto u e.sizes l piece) : ∃ xs, Entries (fun x => x.Owns u ∧ Q x)
      ((if (u.program.function l.id).facts.isVerifiedOutside then [.wrapper l.id] else []) ++
        [.body l.id]) (piece.1.functions ++ piece.2.functions)
      (piece.1.circuits ++ piece.2.circuits) xs := by
  obtain ⟨a, b⟩ := piece
  obtain ⟨houter, hinner⟩ := h
  have hlast : ∃ xs, Entries (fun x => x.Owns u ∧ Q x) [.body l.id] b.functions b.circuits xs := by
    obtain ⟨g, hg, hq⟩ := hbody l hl b hinner
    have hhas : u.hasCircuit (.body l.id) = (u.program.function l.id).facts.isVerified := rfl
    rw [hg]
    rcases inner_cases hinner with ⟨hv, rfl⟩ | ⟨hv, below, -, rfl⟩
    · exact ⟨_, .cons ⟨.body l.id, g, none⟩ ⟨.of_none (hhas.trans hv) g, hq⟩ .nil⟩
    · obtain ⟨l₀, hlow, hcircuit⟩ := e.exists_lowered hl
      refine ⟨_, .cons ⟨.body l.id, g, some _⟩ ⟨.of_builds (hhas.trans hv) ?_ g, hq⟩ .nil⟩
      rw [hcircuit]
      exact ⟨_, .body hlow⟩
  obtain ⟨xs, hxs⟩ := hlast
  rcases outer_cases houter with ⟨hv, rfl⟩ | ⟨hv, r, hr, rfl⟩
  · rw [hv]
    exact ⟨xs, hxs⟩
  · obtain ⟨_, wires, c, -, hc, heq⟩ := circuit_of_wrapper hr
    rw [if_pos hv]
    refine ⟨_, hxs.cons ⟨_, r.1, some r.2⟩ ⟨.of_builds rfl ?_ r.1, hwrapper l hl r hr⟩⟩
    rw [heq]
    exact ⟨c, .wrapper hc⟩

/-- The functions and the circuits of an emitted contract, with a property that the wrappers and the
bodies have and that receiving the verifiers keeps. -/
theorem Emitted.exists_entries
    (hreceive : ∀ x, Q x → ∀ vs, x.function.isConstructor = true →
      Q { x with function := receiveVerifiers vs x.function })
    (hsetup : ∀ vs, Q ⟨.setup, receiveVerifiers vs emptyConstructor, none⟩) :
    ∃ os xs, (os = u.origins ∨ os = .setup :: u.origins) ∧
      Entries (fun x => x.Owns u ∧ Q x) os k.functions cs xs := by
  obtain ⟨pieces, hpieces, hfunctions, hcircuits, -⟩ := outputs_pieces e.outputs
  have hall : ∃ xs, Entries (fun x => x.Owns u ∧ Q x) u.origins e.output.functions
      e.output.circuits xs := by
    rw [hcircuits, hfunctions, ContractEnv.origins, ← e.patched_ids, List.flatMap_map]
    generalize hls : e.patched = ls at hpieces
    have hsub : ls ⊆ e.patched := hls ▸ List.Subset.refl _
    clear hls hfunctions hcircuits
    induction hpieces with
    | nil => exact ⟨[], .nil⟩
    | cons h _ ih =>
      rw [List.cons_subset] at hsub
      obtain ⟨xs, hxs⟩ := e.piece_entries hwrapper hbody hsub.1 h
      obtain ⟨ys, hys⟩ := ih hsub.2
      exact ⟨_, hxs.append hys⟩
  obtain ⟨xs, hxs⟩ := hall
  obtain ⟨gs, hgs, heq⟩ := addVerifiers_eq e.output.verifiers e.output.functions
  obtain ⟨ys, hys⟩ := hxs.exists_replace hgs (by
    rintro x _ ⟨howns, hq⟩ (rfl | ⟨hx, rfl⟩)
    · exact ⟨howns, hq⟩
    · exact ⟨⟨howns.isSome, howns.builds⟩, hreceive x hq _ hx⟩)
  rw [← e.circuits] at hys
  rw [e.functions]
  rcases heq with heq | heq
  · exact ⟨_, ys, .inl rfl, heq ▸ hys⟩
  · rw [heq]
    exact ⟨_, _, .inr rfl, hys.cons ⟨_, _, none⟩ ⟨.of_none rfl _, hsetup _⟩⟩

end

/-- An emitted contract guards its bodies. -/
theorem Emitted.guarded (hp : Passes unit.check u.program) : ∃ os xs, Guarded u k cs os xs := by
  have hscoped := (SourceUnit.check_checked hp).names
  obtain ⟨os, xs, hos, hxs⟩ := e.exists_entries (Q := Entry.Implements u)
    (fun l _ r hr => ⟨r.2, rfl, wrapper_wraps hr, (wrapper_wraps hr).calls⟩)
    (fun l hl out hout => by
      obtain ⟨g, hg, -, hbody⟩ := inner_holdsBody hout
      exact ⟨g, hg, hbody.carriesBody hp hl (e.owned hp hl).1⟩)
    (fun _ h => h.receiveVerifiers) fun vs => calls_receiveVerifiers vs _
  have hsub : u.origins ⊆ os := by
    rcases hos with rfl | rfl
    · exact List.Subset.refl _
    · exact List.subset_cons_self _ _
  have hnodup : os.Nodup := by
    have hnodup := origins_nodup (hscoped.nodup u.contract)
    rcases hos with rfl | rfl
    · exact hnodup
    · exact List.nodup_cons.2 ⟨by simp [mem_origins], hnodup⟩
  refine ⟨os, xs, hos, hnodup, hxs, fun f hf => hsub (mem_origins.2 ⟨f, hf, .inr rfl⟩), ?_, ?_⟩
  · intro f hf hv hext
    have houter := SourceUnit.check_isVerifiedOutside hp (hscoped.contract _ _ hf).1
    rw [hv, hext] at houter
    exact hsub (mem_origins.2 ⟨f, hf, .inl ⟨rfl, houter⟩⟩)
  · intro x hx hexternal hwrapper f hreach
    exact (hxs.all x hx).2.closed hp hexternal hwrapper hreach

end Lowering

/-- The constructor and a public function need proofs, and call functions that need them too; one
public function does not. -/
def lottery : SourceUnit := .single "Lottery" [
  { name := "prize", type := .mk (.uint 8) .all },
  { name := "draws", type := .mk (.uint 8) .all }] [
  { name := "constructor"
    kind := .constructor
    params := [{ name := "first", type := .mk (.uint 8) .me }]
    body := [.expr {} (.call {} "set" ["first"])] },
  { name := "set"
    visibility := .internal
    params := [{ name := "x", type := .mk (.uint 8) .me }]
    body := [.assign {} "prize" none (.reveal {} "x" .all)] },
  { name := "draw"
    params := [{ name := "y", type := .mk (.uint 8) .me }]
    body := [.expr {} (.call {} "count" []), .expr {} (.call {} "set" ["y"])] },
  { name := "count"
    body := [.assign {} "draws" (some .add) 1] }]

end Shroud
