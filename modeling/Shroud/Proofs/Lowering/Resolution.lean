import Shroud.Proofs.Lowering.Functions

/-! # Calls of emitted contracts

`Contract.Resolves`: an emitted call names a function of its contract, with as many arguments as that
has parameters. This is so if no initializer calls a function with a circuit (`OpenInitializers`) and
the constructors that only take secrets have the name of a constructor (`NamedConstructors`). Without
these conditions a call can be left that names no function. Types of arguments are not compared.
-/

namespace Shroud

namespace Solidity

/-- A call names a function of a contract that takes its arguments. -/
def Contract.Resolves (k : Contract) (c : Call) : Prop :=
  ∃ f ∈ k.functions, f.isConstructor = false ∧ f.name = c.name ∧ f.params.length = c.count

instance (k : Contract) (c : Call) : Decidable (k.Resolves c) :=
  inferInstanceAs (Decidable (∃ f ∈ k.functions, _))

/-- The calls in the bodies of functions and in initializers. -/
def Contract.calls (k : Contract) : List Call :=
  (k.functions.flatMap fun f => Solidity.calls f.body) ++
    (k.instances ++ k.stateVars).flatMap fun v => v.init.toList.flatMap Expr.calls

end Solidity

namespace Lowering

open Solidity (calls Call)

variable {u : ContractEnv} {l : Lowered} {k : Solidity.Contract} {cs : List Circuit}

/-! ## Initializers -/

mutual

/-- The calls in an initializer are those of the source, of functions without wrappers. -/
theorem initializer_calls {P : FunctionId × Nat → Prop} : ∀ {e : Expr} {e' : Solidity.Expr},
    e.Applies P → initializer u e = .ok e' → ∀ c ∈ e'.calls, ∃ a, P a ∧
      (u.program.function a.1).facts.isVerifiedOutside = false ∧
      c = ⟨(u.program.function a.1).name, a.2, none⟩
  | .bool _ _, _, _, h | .number _ _, _, _, h | .me _, _, _, h | .ident _ _, _, _, h => by
    rw [initializer] at h
    split at h <;> cases h
    exact nofun
  | .builtin i op args b, _, ha, h => by
    rw [initializer] at h
    split at h
    · cases h
    obtain ⟨args', hargs, h⟩ := bind_eq_ok.1 h
    cases h
    have hall := (initializers_calls (Expr.applies_iff.1 ha).2 hargs).2
    simpa using hall
  | .index i base idx, _, ha, h => by
    rw [initializer] at h
    split at h
    · cases h
    obtain ⟨base', hbase, h⟩ := bind_eq_ok.1 h
    obtain ⟨idx', hidx, h⟩ := bind_eq_ok.1 h
    cases h
    have hchildren := (Expr.applies_iff.1 ha).2
    intro c hc
    rw [Solidity.Expr.calls_index, List.mem_append] at hc
    rcases hc with hc | hc
    · exact initializer_calls (hchildren base (.head _)) hbase c hc
    · exact initializer_calls (hchildren idx (.tail _ (.head _))) hidx c hc
  | .cast i t e b, _, ha, h => by
    rw [initializer] at h
    split at h
    · cases h
    obtain ⟨x, hx, h⟩ := bind_eq_ok.1 h
    cases h
    have hx := initializer_calls ((Expr.applies_iff.1 ha).2 e (.head _)) hx
    split <;> simpa using hx
  | .tuple i es, _, ha, h => by
    rw [initializer] at h
    split at h
    · cases h
    obtain ⟨es', hes, h⟩ := bind_eq_ok.1 h
    cases h
    have hall := (initializers_calls (Expr.applies_iff.1 ha).2 hes).2
    simpa using hall
  | .call i f args, _, ha, h => by
    rw [initializer] at h
    split at h
    · cases h
    dsimp only at h
    split at h
    · cases h
    rename_i hv
    obtain ⟨args', hargs, h⟩ := bind_eq_ok.1 h
    cases h
    obtain ⟨hlen, hall⟩ := initializers_calls (Expr.applies_iff.1 ha).2 hargs
    intro c hc
    rw [Solidity.Expr.calls_call, List.mem_cons] at hc
    rcases hc with rfl | hc
    · refine ⟨(f, args.length), (Expr.applies_iff.1 ha).1 _ rfl, ?_, by rw [hlen]; rfl⟩
      simpa [ContractEnv.function] using hv
    · exact hall c hc
  | .reclassify i e o b, _, _, h => by
    rw [initializer] at h
    split at h <;> cases h

theorem initializers_calls {P : FunctionId × Nat → Prop} : ∀ {es : List Expr}
    {es' : List Solidity.Expr}, (∀ e ∈ es, e.Applies P) → initializers u es = .ok es' →
      es'.length = es.length ∧ ∀ c ∈ es'.flatMap Solidity.Expr.calls, ∃ a, P a ∧
        (u.program.function a.1).facts.isVerifiedOutside = false ∧
        c = ⟨(u.program.function a.1).name, a.2, none⟩
  | [], _, _, h => by
    rw [initializers] at h
    cases h
    exact ⟨rfl, nofun⟩
  | e :: es, _, ha, h => by
    rw [initializers] at h
    obtain ⟨e', he, h⟩ := bind_eq_ok.1 h
    obtain ⟨es', hes, h⟩ := bind_eq_ok.1 h
    cases h
    rw [List.forall_mem_cons] at ha
    have hhead := initializer_calls ha.1 he
    obtain ⟨hlen, htail⟩ := initializers_calls ha.2 hes
    refine ⟨by simp [hlen], fun c hc => ?_⟩
    rw [List.flatMap_cons, List.mem_append] at hc
    exact hc.elim (hhead c) (htail c)

end

/-! ## Resolved calls -/

/-- No initializer calls a function with a circuit. -/
def OpenInitializers (p : Program) : Prop :=
  ∀ c ∈ p.contractIds, ∀ v ∈ (p.contract c).stateVars, ∀ e ∈ (p.var v).init.toList,
    ∀ f ∈ e.callees, (p.function f).facts.isVerified = false

/-- A constructor that takes secrets and has no circuit is named as one. -/
def NamedConstructors (p : Program) : Prop :=
  ∀ f ∈ p.functions, f.isConstructor = true → f.facts.isVerified = false →
    f.facts.isVerifiedOutside = true → f.name = "constructor"

instance (p : Program) : Decidable (OpenInitializers p) :=
  inferInstanceAs (Decidable (∀ c ∈ _, _))

instance (p : Program) : Decidable (NamedConstructors p) :=
  inferInstanceAs (Decidable (∀ f ∈ _, _))

namespace Emitted

variable {f : FunctionId}

/-- An emitted body that is no constructor can be called. -/
theorem resolves_inner (e : Emitted u k cs) (hf : f ∈ (u.program.contract u.contract).functions)
    (hc : (u.program.function f).isConstructor = false ∨
      (u.program.function f).facts.isVerifiedOutside = true) : k.Resolves
        ⟨u.innerName f, (u.program.function f).params.length +
          if (u.program.function f).facts.isVerified then 4 else 0, none⟩ := by
  obtain ⟨l, hl, rfl⟩ := e.exists_patched hf
  obtain ⟨g, hg, hbody⟩ := e.exists_holdsBody hl
  have hnot : g.isConstructor = false := by
    by_contra hcons
    obtain ⟨h₁, h₂, -⟩ := hbody.isConstructor (by simpa using hcons)
    rcases hc with hc | hc
    · rw [hc] at h₁
      cases h₁
    · rw [hc] at h₂
      cases h₂
  refine ⟨g, e.functions ▸ mem_addVerifiers hg hnot, hnot, hbody.name, ?_⟩
  rw [hbody.params, List.length_append, List.length_map]
  split <;> rfl

/-- A call that the source makes resolves. -/
theorem resolves_emittedCall (e : Emitted u k cs)
    (hf : f ∈ (u.program.contract u.contract).functions)
    (hc : (u.program.function f).isConstructor = false) : k.Resolves (u.emittedCall f) := by
  have hname : u.innerName f = calleeName u.program u.settings f := by
    unfold ContractEnv.innerName
    dsimp only
    rw [hc, Bool.and_false]
    rfl
  have hinner := e.resolves_inner hf (.inl hc)
  rwa [hname] at hinner

/-- The call of a wrapper resolves. -/
theorem resolves_wrapped (e : Emitted u k cs) (hf : f ∈ (u.program.contract u.contract).functions)
    (hv : (u.program.function f).facts.isVerifiedOutside = true)
    (hnamed : (u.program.function f).isConstructor = true →
      (u.program.function f).facts.isVerified = false →
      (u.program.function f).name = "constructor") : k.Resolves
        ⟨u.wrappedName f, (u.program.function f).params.length +
          if (u.program.function f).facts.isVerified then 4 else 0, none⟩ := by
  have hname : u.innerName f = u.wrappedName f := by
    unfold ContractEnv.innerName ContractEnv.wrappedName
    dsimp only
    by_cases hc : (u.program.function f).isConstructor = true
    · cases hfv : (u.program.function f).facts.isVerified with
      | true => simp [hv, hc]
      | false => simp [hc, ContractEnv.bodyName, ContractEnv.function, hv, hnamed hc hfv]
    · simp [hc]
  have hinner := e.resolves_inner hf (.inr hv)
  rwa [hname] at hinner

variable {unit : SourceUnit}

/-- The calls in the bodies of emitted functions resolve. -/
theorem resolves_body (e : Emitted u k cs) (hp : Passes unit.check u.program)
    (hnamed : NamedConstructors u.program) {g : Solidity.Function} (hg : g ∈ k.functions) :
    ∀ c ∈ calls g.body, k.Resolves c := by
  have hscoped := (SourceUnit.check_checked hp).names
  have hpatched : ∀ l ∈ e.patched, l.id ∈ (u.program.contract u.contract).functions := by
    intro l hl
    obtain ⟨l', hl', hlow, -⟩ := e.exists_body hl
    obtain ⟨f, hf, hlow'⟩ := (mapM_eq_ok_iff.1 e.lowered).exists_left hl'
    rw [← id_of_lowerFunction hlow, id_of_lowerFunction hlow']
    exact hf
  have houtput : ∀ g ∈ e.output.functions, ∀ c ∈ calls g.body, k.Resolves c := by
    intro g hg c hc
    obtain ⟨l, hl, hbody | ⟨hv, circuit, -, hwraps⟩⟩ := e.of_mem_functions hg
    · rw [hbody.calls] at hc
      obtain ⟨hcalled, hperm⟩ := e.calls_patched hp hl
      obtain ⟨f, hf, rfl⟩ := List.mem_map.1 (hperm.mem_iff.1 hc)
      have hmem := hscoped.of_transGen (hcalled f hf)
      rw [(hscoped.contract _ _ (hpatched l hl)).2] at hmem
      refine e.resolves_emittedCall hmem ?_
      obtain ⟨f', -, hcall⟩ := Relation.TransGen.tail'_iff.1 (hcalled f hf)
      exact (Effects.called_of_scoped hscoped hcall).2.2.1
    · rw [hwraps.calls, List.mem_singleton] at hc
      subst hc
      have hlt := (hscoped.contract _ _ (hpatched l hl)).1
      exact e.resolves_wrapped (hpatched l hl) hv fun hcons hfv =>
        hnamed _ (Program.function_mem hlt) hcons hfv hv
  rw [e.functions] at hg
  rcases of_mem_addVerifiers hg with rfl | ⟨f, hf, rfl | ⟨-, rfl⟩⟩
  · rw [calls_receiveVerifiers]
    exact nofun
  · exact houtput _ hf
  · rw [calls_receiveVerifiers]
    exact houtput _ hf

/-- The calls in initializers resolve. -/
theorem resolves_init (e : Emitted u k cs) (hp : Passes unit.check u.program)
    (hopen : OpenInitializers u.program) (hu : u.contract ∈ u.program.contractIds)
    {v : Solidity.StateVar} (hv : v ∈ k.stateVars) :
    ∀ c ∈ v.init.toList.flatMap Solidity.Expr.calls, k.Resolves c := by
  obtain ⟨x, hx, hvar⟩ := (mapM_eq_ok_iff.1 e.stateVars).exists_left hv
  unfold stateVar at hvar
  dsimp only at hvar
  split at hvar
  · cases hvar
    exact nofun
  rename_i e₀ he₀
  obtain ⟨e', he', hvar⟩ := bind_eq_ok.1 hvar
  cases hvar
  have happlied := (SourceUnit.check_applied hp).init _ x hx e₀ he₀
  intro c hc
  have hc : c ∈ e'.calls := by simpa using hc
  -- a callee takes the arguments, and stands in the source initializer
  have hboth : e₀.Applies fun a => u.program.Takes u.contract a ∧ a.1 ∈ e₀.callees := by
    intro a ha
    refine ⟨happlied a ha, ?_⟩
    obtain ⟨y, hy, hya⟩ := List.mem_filterMap.1 ha
    refine List.mem_filterMap.2 ⟨y, hy, ?_⟩
    cases y <;> cases hya
    rfl
  obtain ⟨a, ⟨⟨hmem, hcons, hcount⟩, hcallee⟩, hout, rfl⟩ := initializer_calls hboth he' c hc
  have hverified := hopen _ hu x hx e₀ (by simp [he₀]) a.1 hcallee
  have hresolves := e.resolves_emittedCall hmem hcons
  rwa [ContractEnv.emittedCall, calleeName, hout, hverified, ← hcount] at hresolves

end Emitted

end Lowering

open Lowering in
/-- **Emitted calls resolve.** If no initializer calls a function with a circuit, and constructors
that take secrets but have no circuit are named as constructors, then each call in an emitted
contract names one of its functions that takes as many arguments. -/
theorem SourceUnit.emitted_calls_resolve {u : SourceUnit} {p : Program} {s : Settings}
    {out : Compilation} (hp : Passes u.check p) (hout : p.lower s = .ok out)
    (hopen : OpenInitializers p) (hnamed : NamedConstructors p) :
    ∀ k ∈ out.contracts, ∀ c ∈ k.calls, k.Resolves c := by
  obtain ⟨pieces, hpieces, hcontracts, -⟩ := Program.lower_emitted hout
  intro k hk c hc
  rw [hcontracts] at hk
  obtain ⟨piece, hpiece, rfl⟩ := List.mem_map.1 hk
  obtain ⟨i, hid, ⟨e⟩⟩ := hpieces.exists_left hpiece
  have hinstances : ∀ v ∈ piece.1.instances, v.init.toList.flatMap Solidity.Expr.calls = [] := by
    intro v hv
    rw [e.instances, List.mem_append] at hv
    rcases hv with hv | hv
    · split at hv
      · obtain rfl := List.mem_singleton.1 hv
        rfl
      · cases hv
    · obtain ⟨_, -, rfl⟩ := List.mem_map.1 hv
      rfl
  rw [Solidity.Contract.calls, List.flatMap_append, List.mem_append, List.mem_append] at hc
  rcases hc with hc | hc | hc
  · obtain ⟨g, hg, hc⟩ := List.mem_flatMap.1 hc
    exact e.resolves_body hp hnamed hg c hc
  · obtain ⟨v, hv, hc⟩ := List.mem_flatMap.1 hc
    rw [hinstances v hv] at hc
    cases hc
  · obtain ⟨v, hv, hc⟩ := List.mem_flatMap.1 hc
    exact e.resolves_init hp hopen hid hv c hc

/-- An initializer calls a function without a circuit, and a constructor only takes a secret. -/
def sealed : SourceUnit := .single "Sealed" [
  { name := "start", type := .mk (.uint 8) .all,
    init := some (.call {} "first" [2]) },
  { name := "last", type := .mk (.uint 8) .me }] [
  { name := "first"
    visibility := .internal
    params := [{ name := "n", type := .mk (.uint 8) .all }]
    returns := [.mk (.uint 8) .all]
    body := [.ret {} (some "n")] },
  { name := "constructor"
    kind := .constructor
    params := [{ name := "x", type := .mk (.uint 8) .me }]
    body := [.assign {} "last" none "x"] },
  { name := "open"
    body := [.assign {} "start" none (.reveal {} "last" .all)] }]

open Lowering in
theorem SourceUnit.emitted_calls_resolve_sealed : ∃ p out, Passes sealed.check p ∧
    p.lower {} = .ok out ∧ OpenInitializers p ∧ NamedConstructors p ∧
    (out.contracts.map fun k => k.calls.map fun c => (c.name, c.count)) =
      [[("_zk__constructor", 1), ("_zk__open", 4), ("first", 1)]] ∧
    ∀ k ∈ out.contracts, ∀ c ∈ k.calls, k.Resolves c := by
  have hrun : Passes.test sealed.check (fun p => match p.lower {} with
      | .ok out => OpenInitializers p ∧ NamedConstructors p ∧
        (out.contracts.map fun k => k.calls.map fun c => (c.name, c.count)) =
          [[("_zk__constructor", 1), ("_zk__open", 4), ("first", 1)]]
      | .error _ => false) = true := by
    decide +kernel
  obtain ⟨p, hp, htest⟩ := Passes.of_test hrun
  split at htest
  · rename_i out hout
    obtain ⟨hopen, hnamed, hcalls⟩ := of_decide_eq_true htest
    exact ⟨p, out, hp, hout, hopen, hnamed, hcalls, emitted_calls_resolve hp hout hopen hnamed⟩
  · cases htest

/-- An initializer calls a function that needs a proof. -/
def early : SourceUnit := .single "Early" [
  { name := "x", type := .mk (.uint 8) .me },
  { name := "s", type := .mk (.uint 8) .all, init := some (.call {} "g" []) }] [
  { name := "g"
    visibility := .internal
    returns := [.mk (.uint 8) .all]
    body := [.ret {} (some (.reveal {} "x" .all))] }]

/-- The function that an initializer calls without arguments takes the circuit buffers. -/
theorem SourceUnit.early_call_unresolved : ∃ out, Passes (early.compile {}) out ∧
    ∃ k ∈ out.contracts, ∃ c ∈ k.calls, ¬ k.Resolves c := by
  have hrun : Passes.test (early.compile {}) (fun out =>
      ∃ k ∈ out.contracts, ∃ c ∈ k.calls, ¬ k.Resolves c) = true := by
    decide +kernel
  obtain ⟨out, hout, hcall⟩ := Passes.of_test hrun
  exact ⟨out, hout, of_decide_eq_true hcall⟩

end Shroud
