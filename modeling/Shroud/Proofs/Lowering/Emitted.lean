import Shroud.Proofs.Lowering.Sizing

/-! # Emitted contracts

`Emitted u k circuits` is what a successful compilation consists of for one contract: its lowered
bodies, the sizes of their circuits, and what every function turns into (`TurnsInto`). It keeps the
runs of the stages and not their results, so that each later module opens the stage that it needs.
-/

namespace Shroud

namespace Lowering

variable {p : Program} {s : Settings} {c : ContractId} {u : ContractEnv} {sizes : Frames.Sizes}
  {l : Lowered} {out : Output}

/-- The parts of an emitted contract. -/
structure Emitted (u : ContractEnv) (k : Solidity.Contract) (circuits : List Circuit) where
  bodies : List Lowered
  sizes : Frames.Sizes
  patched : List Lowered
  output : Output
  lowered : (u.program.contract u.contract).functions.mapM (lowerFunction u) = .ok bodies
  sized : (frames u bodies).storedSizes = .ok sizes
  patches : bodies.mapM (patchLowered u (frames u bodies) sizes) = .ok patched
  outputs : Lowering.outputs u sizes patched = .ok output
  stateVars : (u.program.contract u.contract).stateVars.mapM (stateVar u) = .ok k.stateVars
  structs : k.structs = output.structs
  functions : k.functions = addVerifiers output.verifiers output.functions
  instances : k.instances = (if !output.circuits.isEmpty then [pkiInstance u.settings] else []) ++
    output.verifiers.map verifierInstance
  circuits : circuits = output.circuits

theorem contract_emitted {k : Solidity.Contract} {cs : List Circuit}
    (h : contract p s c = .ok (k, cs)) : Nonempty (Emitted (.new p s c) k cs) := by
  unfold contract at h
  dsimp only at h
  split at h
  · cases h
  obtain ⟨bodies, hlowered, h⟩ := bind_eq_ok.1 h
  obtain ⟨sizes, hsized, h⟩ := bind_eq_ok.1 h
  obtain ⟨patched, hpatched, h⟩ := bind_eq_ok.1 h
  obtain ⟨output, hout, h⟩ := bind_eq_ok.1 h
  obtain ⟨vars, hvars, h⟩ := bind_eq_ok.1 h
  cases h
  exact ⟨⟨bodies, sizes, patched, output, hlowered, hsized, hpatched, hout, hvars, rfl, rfl, rfl,
    rfl⟩⟩

/-- The calls of a body get their slices, and nothing else changes. -/
theorem patchLowered_eq {fs : Frames} {l' : Lowered} (h : patchLowered u fs sizes l = .ok l') :
    ∃ body, l' = { l with body } ∧
      ((u.program.function l.id).facts.isVerified = false → body = l.body) ∧
      ((u.program.function l.id).facts.isVerified = true → ∃ offsets,
        fs.storedOffsets sizes l.id = .ok offsets ∧
          Solidity.patchSites u.settings offsets l.body = .ok body) := by
  unfold patchLowered at h
  split at h
  · rename_i hv
    cases h
    refine ⟨l.body, rfl, fun _ => rfl, fun hv' => ?_⟩
    rw [ContractEnv.function, hv'] at hv
    cases hv
  · rename_i hv
    obtain ⟨offsets, hoffsets, h⟩ := bind_eq_ok.1 h
    obtain ⟨body, hbody, h⟩ := bind_eq_ok.1 h
    cases h
    refine ⟨body, rfl, fun hv' => ?_, fun _ => ⟨offsets, hoffsets, hbody⟩⟩
    rw [ContractEnv.function, hv'] at hv
    exact absurd rfl hv

/-- A function turns into its wrapper, if it has one, and the function with its body. -/
def TurnsInto (u : ContractEnv) (sizes : Frames.Sizes) (l : Lowered) (piece : Output × Output) :
    Prop :=
  outer u l sizes = .ok piece.1 ∧ inner u l sizes = .ok piece.2

/-- There is a wrapper just if the function is proved from outside. -/
theorem outer_cases (h : outer u l sizes = .ok out) :
    (u.program.function l.id).facts.isVerifiedOutside = false ∧ out = {} ∨
    (u.program.function l.id).facts.isVerifiedOutside = true ∧ ∃ r, u.wrapper l sizes = .ok r ∧
      out = { functions := [r.1], circuits := [r.2], verifiers := [u.verifier l.id] } := by
  unfold outer at h
  split at h
  · rename_i hv
    cases h
    exact .inl ⟨by simpa [ContractEnv.function] using hv, rfl⟩
  · rename_i hv
    obtain ⟨r, hr, h⟩ := bind_eq_ok.1 h
    cases h
    exact .inr ⟨by simpa [ContractEnv.function] using hv, r, hr, rfl⟩

/-- The function with the body moves the data of its circuit, if it has one. -/
theorem inner_cases (h : inner u l sizes = .ok out) :
    (u.program.function l.id).facts.isVerified = false ∧
      out = { functions := [u.plain l.id l.body] } ∨
    (u.program.function l.id).facts.isVerified = true ∧ ∃ below,
      Sorted.find? sizes l.id = some below ∧ out = {
        functions := [u.internal l below]
        structs := if l.circuit.frame.ins + l.circuit.frame.outs > 0
          then [u.dataStruct l.id l.circuit] else []
        circuits := [u.circuit l.circuit (circuitName u.program u.settings l.id) none below] } := by
  unfold inner at h
  split at h
  · rename_i hv
    cases h
    exact .inl ⟨by simpa [ContractEnv.function] using hv, rfl⟩
  · rename_i hv
    split at h
    · rename_i below hbelow
      cases h
      exact .inr ⟨by simpa [ContractEnv.function] using hv, below, hbelow, rfl⟩
    · cases h

theorem outputs_pieces {ls : List Lowered} (h : outputs u sizes ls = .ok out) : ∃ pieces,
      List.Forall₂ (TurnsInto u sizes) ls pieces ∧
      out.functions = pieces.flatMap (fun a => a.1.functions ++ a.2.functions) ∧
      out.circuits = pieces.flatMap (fun a => a.1.circuits ++ a.2.circuits) ∧
      out.verifiers = pieces.flatMap (fun a => a.1.verifiers ++ a.2.verifiers) ∧
      out.structs = pieces.flatMap fun a => a.1.structs ++ a.2.structs := by
  induction ls generalizing out with
  | nil =>
    cases h
    exact ⟨[], .nil, rfl, rfl, rfl, rfl⟩
  | cons l ls ih =>
    obtain ⟨a, ha, h⟩ := bind_eq_ok.1 h
    obtain ⟨b, hb, h⟩ := bind_eq_ok.1 h
    obtain ⟨rest, hrest, h⟩ := bind_eq_ok.1 h
    cases h
    obtain ⟨pieces, hpieces, hf, hc, hv, hs⟩ := ih hrest
    refine ⟨(a, b) :: pieces, .cons ⟨ha, hb⟩ hpieces, ?_, ?_, ?_, ?_⟩
    · rw [List.flatMap_cons, ← hf]
      rfl
    · rw [List.flatMap_cons, ← hc]
      rfl
    · rw [List.flatMap_cons, ← hv]
      rfl
    · rw [List.flatMap_cons, ← hs]
      rfl

/-- The circuit of a wrapper. -/
theorem circuit_of_wrapper {r : Solidity.Function × Circuit} (h : u.wrapper l sizes = .ok r) :
    ∃ body wires c,
      u.bodyFrame l sizes = .ok body ∧
      Yields (u.wrapperCircuit l.id body.keys) (.new u.settings) wires c ∧
      r.2 = u.circuit c (u.function l.id).uniqueName (some (u.verifier l.id))
        { body with keys := c.keys } := by
  obtain ⟨body, hbody, h⟩ := bind_eq_ok.1 h
  obtain ⟨⟨wires, c⟩, hc, h⟩ := bind_eq_ok.1 h
  obtain ⟨_, -, h⟩ := bind_eq_ok.1 h
  obtain ⟨_, -, h⟩ := bind_eq_ok.1 h
  cases h
  exact ⟨body, wires, c, hbody, hc, rfl⟩

namespace Emitted

variable {k : Solidity.Contract} {cs : List Circuit} {l : Lowered} {circuit : Circuit}
  {below : Callees}

/-- A patched function was lowered. -/
theorem exists_body (e : Emitted u k cs) (hl : l ∈ e.patched) :
    ∃ l' ∈ e.bodies, lowerFunction u l.id = .ok l' ∧
      patchLowered u (frames u e.bodies) e.sizes l' = .ok l := by
  obtain ⟨l', hl', hpatch⟩ := (mapM_eq_ok_iff.1 e.patches).exists_left hl
  obtain ⟨f, -, hf⟩ := (mapM_eq_ok_iff.1 e.lowered).exists_left hl'
  obtain ⟨body, rfl, -⟩ := patchLowered_eq hpatch
  exact ⟨l', hl', (id_of_lowerFunction hf).symm ▸ hf, hpatch⟩

/-- The keys of a function's frame are those of its call tree. -/
theorem exists_tree (e : Emitted u k cs) (hl : l ∈ e.patched)
    (hv : (u.program.function l.id).facts.isVerified = true)
    (hbelow : Sorted.find? e.sizes l.id = some below) :
    ∃ t, (frames u e.bodies).Unfolds l.id t ∧ below.keys = t.keys := by
  obtain ⟨l', hl', -, hpatch⟩ := e.exists_body hl
  obtain ⟨body, rfl, -⟩ := patchLowered_eq hpatch
  obtain ⟨sizes, hsizes, hstored⟩ := bind_eq_ok.1 e.sized
  rw [← Except.ok.inj hstored, Frames.find?_map_stored] at hbelow
  obtain ⟨t, ht, hfind⟩ := Frames.sizes_find? hsizes (has_frames.2 ⟨l', hl', hv, rfl⟩)
  rw [hfind] at hbelow
  cases hbelow
  exact ⟨t, ht, rfl⟩

/-- A frame that is found is that of the function's circuit. -/
theorem exists_of_frame (e : Emitted u k cs) {f : FunctionId} {own : Frame}
    (h : Sorted.find? (frames u e.bodies) f = some own) :
    ∃ l, lowerFunction u f = .ok l ∧ own = l.circuit.frame := by
  obtain ⟨l, hl, rfl, rfl⟩ := of_find?_frames h
  obtain ⟨f, -, hf⟩ := (mapM_eq_ok_iff.1 e.lowered).exists_left hl
  exact ⟨l, (id_of_lowerFunction hf).symm ▸ hf, rfl⟩

/-- A patched function has the circuit that it was lowered to. -/
theorem exists_lowered (e : Emitted u k cs) (hl : l ∈ e.patched) :
    ∃ l₀, lowerFunction u l.id = .ok l₀ ∧ l.circuit = l₀.circuit := by
  obtain ⟨l₀, -, hlow, hpatch⟩ := e.exists_body hl
  obtain ⟨body, rfl, -⟩ := patchLowered_eq hpatch
  exact ⟨l₀, hlow, rfl⟩

/-- The keys of a function are among those of its call tree. -/
theorem keys_subset (e : Emitted u k cs) (hl : l ∈ e.patched)
    (hv : (u.program.function l.id).facts.isVerified = true)
    (hbelow : Sorted.find? e.sizes l.id = some below) : l.circuit.keys ⊆ below.keys := by
  obtain ⟨t, ht, hkeys⟩ := e.exists_tree hl hv hbelow
  obtain ⟨l₀, hlow, hcircuit⟩ := e.exists_lowered hl
  obtain ⟨l₂, hl₂, hown⟩ := e.exists_of_frame ht.find?
  obtain rfl : l₀ = l₂ := Except.ok.inj (hlow.symm.trans hl₂)
  intro x hx
  rw [hcircuit] at hx
  rw [hkeys, Callees.keys_eq_addKeys, Callees.mem_addKeys, hown]
  exact .inl hx

/-- Every circuit belongs to a function. -/
theorem of_mem_circuits (e : Emitted u k cs) (h : circuit ∈ cs) :
    ∃ l ∈ e.patched, ∃ piece, TurnsInto u e.sizes l piece ∧
      (circuit ∈ piece.1.circuits ∨ circuit ∈ piece.2.circuits) := by
  obtain ⟨pieces, hpieces, -, hc, -⟩ := outputs_pieces e.outputs
  rw [e.circuits, hc] at h
  obtain ⟨piece, hpiece, h⟩ := List.mem_flatMap.1 h
  obtain ⟨l, hl, hturns⟩ := hpieces.exists_left hpiece
  exact ⟨l, hl, piece, hturns, List.mem_append.1 h⟩

/-- A circuit is that of a wrapper, or that of a body. -/
theorem circuit_cases (e : Emitted u k cs) (h : circuit ∈ cs) :
    ∃ l ∈ e.patched, (∃ r, u.wrapper l e.sizes = .ok r ∧ circuit = r.2) ∨
      ∃ l₀ below, lowerFunction u l.id = .ok l₀ ∧ l.circuit = l₀.circuit ∧
        (u.program.function l.id).facts.isVerified = true ∧
        Sorted.find? e.sizes l.id = some below ∧
        circuit = u.circuit l₀.circuit (circuitName u.program u.settings l.id) none below := by
  obtain ⟨l, hl, ⟨a, b⟩, ⟨houter, hinner⟩, hmem⟩ := e.of_mem_circuits h
  refine ⟨l, hl, ?_⟩
  rcases hmem with hmem | hmem
  · rcases outer_cases houter with ⟨-, rfl⟩ | ⟨-, r, hr, rfl⟩
    · cases hmem
    · exact .inl ⟨r, hr, List.mem_singleton.1 hmem⟩
  · rcases inner_cases hinner with ⟨-, rfl⟩ | ⟨hv, below, hbelow, rfl⟩
    · cases hmem
    · obtain ⟨l₀, hlow, hcircuit⟩ := e.exists_lowered hl
      exact .inr ⟨l₀, below, hlow, hcircuit, hv, hbelow, hcircuit ▸ List.mem_singleton.1 hmem⟩

end Emitted

end Lowering

/-- The contracts of a lowered program are emitted one by one. -/
theorem Program.lower_emitted {p : Program} {s : Settings} {out : Compilation}
    (h : p.lower s = .ok out) : ∃ pieces : List (Solidity.Contract × List Circuit),
      List.Forall₂ (fun c k => Nonempty (Lowering.Emitted (.new p s c) k.1 k.2)) p.contractIds pieces ∧
      out.contracts = pieces.map Prod.fst ∧ out.circuits = pieces.flatMap Prod.snd := by
  obtain ⟨pieces, hpieces, h⟩ := bind_eq_ok.1 h
  cases h
  exact ⟨pieces, (mapM_eq_ok_iff.1 hpieces).imp fun _ _ => Lowering.contract_emitted, rfl, rfl⟩

namespace SourceUnit

variable {u : SourceUnit} {s : Settings} {out : Compilation}

/-- A compilation is the lowering of a checked program. -/
theorem compile_checked (h : Passes (u.compile s) out) :
    ∃ p, Passes u.check p ∧ p.lower s = .ok out := by
  unfold compile at h
  split at h
  · exact h.throw.elim
  · obtain ⟨p, hp, h⟩ := h.bind
    exact ⟨p, hp, h.lift⟩

/-- The contracts of a compilation are emitted one by one, with their circuits. -/
theorem compile_emitted (h : Passes (u.compile s) out) : ∃ p pieces, Passes u.check p ∧
    out.contracts = pieces.map Prod.fst ∧ out.circuits = pieces.flatMap Prod.snd ∧
    List.Forall₂ (fun c k => c ∈ p.contractIds ∧ Nonempty (Lowering.Emitted (.new p s c) k.1 k.2))
      p.contractIds pieces := by
  obtain ⟨p, hp, hout⟩ := compile_checked h
  obtain ⟨pieces, hpieces, hcontracts, hcircuits⟩ := Program.lower_emitted hout
  exact ⟨p, pieces, hp, hcontracts, hcircuits, List.forall₂_iff_zip.2 ⟨hpieces.length_eq, fun hk =>
    ⟨(List.of_mem_zip hk).1, List.forall₂_zip hpieces hk⟩⟩⟩

/-- Every circuit of a compilation is emitted with a contract. -/
theorem emitted_of_mem_circuits (h : Passes (u.compile s) out) {c : Circuit}
    (hc : c ∈ out.circuits) : ∃ p i k cs, Passes u.check p ∧ i ∈ p.contractIds ∧
      Nonempty (Lowering.Emitted (.new p s i) k cs) ∧ c ∈ cs := by
  obtain ⟨p, pieces, hp, -, hcircuits, hpieces⟩ := compile_emitted h
  rw [hcircuits] at hc
  obtain ⟨piece, hpiece, hc⟩ := List.mem_flatMap.1 hc
  obtain ⟨i, -, hi, he⟩ := hpieces.exists_left hpiece
  exact ⟨p, i, _, _, hp, hi, he, hc⟩

end SourceUnit

end Shroud
