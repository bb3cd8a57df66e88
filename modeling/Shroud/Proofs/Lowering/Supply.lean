import Shroud.Proofs.Lowering.Formed

/-! # What fills the buffers

While a circuit is built, its streams only get longer (`Extends`), and every new slot has a type whose
words are moved one by one. The keys that are looked up once belong to fixed owners, and each is asked
for once. `Supplies` is the regime of all this, and `WrapperWires` what a wrapper adds.
-/

namespace Shroud

open Circuit (Term Wire Stream)

/-! ## Growing buffers -/

namespace Circuit.Stream

variable {r s t : Stream} {type : DataType}

/-- More variables are issued, and all of them fill slots. -/
structure Extends (s t : Stream) : Prop where
  base : t.base = s.base
  role : t.role = s.role
  settings : t.settings = s.settings
  wires : ∃ ws, t.wires = s.wires ++ ws ∧ ∀ w ∈ ws, w.type.fillsSlot = true

theorem Extends.refl (s : Stream) : s.Extends s := ⟨rfl, rfl, rfl, [], by simp, nofun⟩

theorem Extends.trans (h : r.Extends s) (h' : s.Extends t) : r.Extends t := by
  obtain ⟨ws, hws, hfill⟩ := h.wires
  obtain ⟨ws', hws', hfill'⟩ := h'.wires
  refine ⟨h'.base.trans h.base, h'.role.trans h.role, h'.settings.trans h.settings, ws ++ ws', ?_, ?_⟩
  · rw [hws', hws, List.append_assoc]
  · exact List.forall_mem_append.2 ⟨hfill, hfill'⟩

theorem Extends.issueAs (name : String) (h : type.fillsSlot = true) :
    s.Extends (s.issueAs name type).2 :=
  ⟨rfl, rfl, rfl, [⟨name, type, s.role, none⟩], rfl, by simpa using h⟩

theorem Extends.issue (origin : Option Term) (h : type.fillsSlot = true) :
    s.Extends (s.issue type origin).2 :=
  .issueAs _ h

/-- All variables of a stream that started empty fill slots. -/
theorem Extends.fillsSlot (h : s.Extends t) (hs : s.wires = []) :
    ∀ w ∈ t.wires, w.type.fillsSlot = true := by
  obtain ⟨ws, hws, hfill⟩ := h.wires
  rw [hws, hs]
  exact hfill

end Circuit.Stream

namespace Lowering

variable {base : Env} {owners : List Label} {σ ρ τ : State} {w : Wire}

/-- A circuit gets more slots, and asks for more keys of fixed owners, each once. -/
structure Supplies (owners : List Label) (σ τ : State) : Prop where
  secrets : σ.secrets.Extends τ.secrets
  inputs : σ.inputs.Extends τ.inputs
  outputs : σ.outputs.Extends τ.outputs
  numbered : σ.inputs.Numbered → τ.inputs.Numbered
  keys : ∀ l ∈ τ.keys, l ∈ σ.keys ∨ l ∈ owners
  kept : σ.keys ⊆ τ.keys
  nodup : σ.keys.Nodup → τ.keys.Nodup

namespace Supplies

variable {t : DataType} {l : Label} {env : Env} {name : String} {origin : Option Term}
  {plain : Wire} {value : Term}

theorem of_eq (hs : τ.secrets = σ.secrets) (hi : τ.inputs = σ.inputs) (ho : τ.outputs = σ.outputs)
    (hk : τ.keys = σ.keys) : Supplies owners σ τ := by
  refine ⟨hs ▸ .refl _, hi ▸ .refl _, ho ▸ .refl _, hi ▸ id, ?_, ?_, hk ▸ id⟩
  · rw [hk]
    exact fun _ => .inl
  · rw [hk]
    exact List.Subset.refl _

theorem refl (σ : State) : Supplies owners σ σ := .of_eq rfl rfl rfl rfl

theorem trans (h : Supplies owners σ ρ) (h' : Supplies owners ρ τ) : Supplies owners σ τ where
  secrets := h.secrets.trans h'.secrets
  inputs := h.inputs.trans h'.inputs
  outputs := h.outputs.trans h'.outputs
  numbered := h'.numbered ∘ h.numbered
  keys l hl := (h'.keys l hl).elim (h.keys l) .inr
  kept := List.Subset.trans h.kept h'.kept
  nodup := h'.nodup ∘ h.nodup

theorem of_secrets {secrets : Stream} (h : σ.secrets.Extends secrets) :
    Supplies owners σ { σ with secrets } :=
  ⟨h, .refl _, .refl _, id, fun _ => .inl, List.Subset.refl _, id⟩

theorem of_inputs {inputs : Stream} (h : σ.inputs.Extends inputs)
    (hn : σ.inputs.Numbered → inputs.Numbered) : Supplies owners σ { σ with inputs } :=
  ⟨.refl _, h, .refl _, hn, fun _ => .inl, List.Subset.refl _, id⟩

theorem of_outputs {outputs : Stream} (h : σ.outputs.Extends outputs) :
    Supplies owners σ { σ with outputs } :=
  ⟨.refl _, .refl _, h, id, fun _ => .inl, List.Subset.refl _, id⟩

/-- The key of a fixed owner is asked for. -/
theorem addKey (hl : l ∈ owners) : Supplies owners σ { σ with keys := withKey σ.keys l } := by
  unfold withKey
  by_cases hmem : σ.keys.contains l = true
  · rw [if_pos hmem]
    exact .refl σ
  · rw [if_neg hmem]
    refine ⟨.refl _, .refl _, .refl _, id, ?_, List.subset_append_left _ _, fun hn => ?_⟩
    · intro x hx
      refine (List.mem_append.1 hx).imp_right fun hx => ?_
      rw [List.mem_singleton.1 hx]
      exact hl
    · refine List.nodup_append.2 ⟨hn, List.nodup_singleton l, ?_⟩
      rintro a ha b hb rfl
      rw [List.mem_singleton.1 hb] at ha
      exact hmem (List.contains_iff_mem.2 ha)

theorem publicKey (h : Yields (publicKey env l) σ w τ) : Supplies env.owners σ τ := by
  rcases publicKey_cases h with ⟨hfixed, -, rfl⟩ | ⟨v, -, -, rfl, rfl⟩
  · exact addKey (fixed_iff.2 hfixed)
  · refine (of_inputs (.issueAs _ rfl) fun hn => ?_).trans (.of_eq rfl rfl rfl rfl)
    exact hn.push rfl (String.append_assoc ..) (Stream.names_issueAs _ _)

theorem encrypted {randomness : String} {cipher : Wire} {b : Bool} {u : Unit}
    (h : Yields (encrypted env randomness plain l cipher b) σ u τ) : Supplies env.owners σ τ := by
  obtain ⟨k, ρ, hk, rfl⟩ := encrypted_iff.1 h
  exact (of_secrets (.issueAs _ rfl)).trans ((publicKey hk).trans (.of_eq rfl rfl rfl rfl))

theorem input {t : OwnedType} {text : String} {value : Solidity.Expr}
    (h : Yields (input env t text value) σ w τ) (ht : t.type.toAbstract.fillsSlot = true) :
    Supplies env.owners σ τ := by
  rcases input_cases h with ⟨-, cipher, ρ, -, -, henc, rfl⟩ | ⟨-, -, rfl⟩
  · exact (of_secrets (.issue none ht)).trans ((of_inputs (.issue _ rfl) fun hn => hn.issue _ _).trans
      ((encrypted henc).trans (.of_eq rfl rfl rfl rfl)))
  · exact (of_inputs (.issue none ht) fun hn => hn.issue _ _).trans (.of_eq rfl rfl rfl rfl)

theorem publish (h : Yields (publish env plain l t) σ w τ) (ht : t.fillsSlot = true) :
    Supplies env.owners σ τ := by
  rcases publish_cases h with ⟨-, -, rfl⟩ | ⟨-, origin, -, henc⟩
  · exact (of_outputs (.issue _ ht)).trans (.of_eq rfl rfl rfl rfl)
  · exact (of_outputs (.issue origin rfl)).trans (encrypted henc)

theorem newTemporary (h : Yields (newTemporary t value) σ w τ) : Supplies owners σ τ := by
  obtain ⟨-, rfl⟩ := newTemporary_iff.1 h
  exact .of_eq rfl rfl rfl rfl

theorem newVersion (h : Yields (newVersion name t value) σ w τ) : Supplies owners σ τ := by
  obtain ⟨-, rfl⟩ := newVersion_iff.1 h
  exact .of_eq rfl rfl rfl rfl

/-- What is around the buffers makes no difference. -/
theorem around (h : Supplies owners σ τ) {σ' τ' : State} (hs : σ'.secrets = σ.secrets)
    (hi : σ'.inputs = σ.inputs) (ho : σ'.outputs = σ.outputs) (hk : σ'.keys = σ.keys)
    (hs' : τ'.secrets = τ.secrets) (hi' : τ'.inputs = τ.inputs) (ho' : τ'.outputs = τ.outputs)
    (hk' : τ'.keys = τ.keys) : Supplies owners σ' τ' :=
  (of_eq hs.symm hi.symm ho.symm hk.symm).trans (h.trans (.of_eq hs' hi' ho' hk'))

end Supplies

/-- Values of all types but tuples and proofs cross the boundary. -/
def supply (base : Env) : Regime base where
  term _ _ := True
  rel := Supplies base.owners
  refl := .refl
  trans := .trans
  closed _ _ _ := trivial
  op _ _ := trivial
  cast _ _ := trivial
  mono _ _ := trivial
  term_steps _ _ := trivial
  quiet _ _ _ _ _ := .of_eq rfl rfl rfl rfl
  comment _ _ := .of_eq rfl rfl rfl rfl
  call _ _ := .of_eq rfl rfl rfl rfl
  temporary _ h := ⟨.newTemporary h, trivial⟩
  version _ h := ⟨.newVersion h, trivial⟩
  input _ hm h := by
    have hsupplies := Supplies.input h hm.fillsSlot
    exact ⟨hsupplies, trivial⟩
  publish _ ht _ h := by
    have hsupplies := Supplies.publish h ht
    exact hsupplies
  block _ h := h.around rfl rfl rfl rfl rfl rfl rfl rfl
  guard _ _ h := h.around rfl rfl rfl rfl rfl rfl rfl rfl

/-- The circuit of a checked function has slots for single values, and asks for keys of fixed
owners. -/
theorem lowerFunction_supplies {u : ContractEnv} {unit : SourceUnit}
    (hp : Passes unit.check u.program) {f : FunctionId} {l : Lowered}
    (h : lowerFunction u f = .ok l) : Supplies u.owners (State.new u.settings) l.circuit :=
  lowerFunction_rel hp h (supply _)

/-! ## Wrappers -/

section Wrapper

variable {u : ContractEnv} {f : FunctionId}

/-- The encrypted parameters are inputs, in their order. -/
theorem encryptParams_wires {env : Env} (hp : Typing.Declares u.program)
    {vs : List VarId} {ws : List (VarId × Wire)} (h : Yields (u.encryptParams env vs) σ ws τ) :
    Supplies env.owners σ τ ∧ τ.inputs.wires = σ.inputs.wires ++ ws.map Prod.snd ∧
      τ.outputs = σ.outputs ∧ ∀ e ∈ ws, e.2.type = .cipher := by
  induction vs generalizing σ ws with
  | nil =>
    obtain ⟨rfl, rfl⟩ := Yields.pure_iff.1 h
    exact ⟨.refl _, by simp, rfl, nofun⟩
  | cons v vs ih =>
    obtain ⟨plain, cipher, ρ, ws', rfl, rfl, rfl, henc, hws⟩ := encryptParams_cons h
    obtain ⟨hsupplies, hwires, houts, htypes⟩ := ih hws
    obtain ⟨hins, houts', -, -⟩ := encrypted_me henc
    refine ⟨?_, ?_, houts.trans houts', List.forall_mem_cons.2 ⟨rfl, htypes⟩⟩
    · have hslot := (OwnedType.isDeclarable_iff.1 (hp.vars v)).isMoved.fillsSlot
      refine (Supplies.of_secrets (.issueAs _ hslot)).trans
        ((Supplies.of_inputs (.issueAs _ rfl) fun hn => ?_).trans
          ((Supplies.encrypted henc).trans hsupplies))
      exact hn.push rfl (String.append_assoc ..) (Stream.names_issueAs _ _)
    · rw [hwires, hins, List.map_cons]
      exact List.append_assoc ..

/-- The inputs with keys follow, under the names of their owners. -/
theorem inputKeys_wires {ls : List Label} {ws : List (Label × Wire)}
    (h : Yields (u.inputKeys ls) σ ws τ) :
    ws = ls.map (fun l => (l, ⟨keyName u.program l, .key, σ.inputs.role, none⟩)) ∧
      τ = { σ with inputs := { σ.inputs with wires := σ.inputs.wires ++ ws.map Prod.snd } } := by
  induction ls generalizing σ ws with
  | nil =>
    obtain ⟨rfl, rfl⟩ := Yields.pure_iff.1 h
    exact ⟨rfl, by simp⟩
  | cons l ls ih =>
    simp only [ContractEnv.inputKeys, Yields.bind_iff, Yields.pure_iff] at h
    obtain ⟨w, ρ, hw, ws', τ', hws, rfl, rfl⟩ := h
    obtain ⟨rfl, rfl⟩ := Yields.modifyGet_iff.1 hw
    obtain ⟨rfl, rfl⟩ := ih hws
    exact ⟨rfl, by simp [Stream.issueAs]⟩

/-- A wrapper's circuit takes the encrypted parameters, then the keys; it has no outputs. -/
structure WrapperWires (u : ContractEnv) (keys : List Label)
    (r : List (VarId × Wire) × List (Label × Wire)) (c : State) : Prop where
  secrets : ∀ w ∈ c.secrets.wires, w.type.fillsSlot = true
  inputs : c.inputs.wires = r.1.map Prod.snd ++ r.2.map Prod.snd
  outputs : c.outputs.wires = []
  ciphers : ∀ e ∈ r.1, e.2.type = .cipher
  params : ∀ i e, r.1[i]? = some e →
    ∃ rest, e.2.name = u.settings.inName ++ Nat.repr i ++ "_" ++ rest
  slots : r.2 = c.keys.map fun l => (l, ⟨keyName u.program l, .key, .boundary, none⟩)
  owned : ∀ l ∈ c.keys, l ∈ keys ∨ l ∈ u.owners
  kept : keys ⊆ c.keys
  nodup : keys.Nodup → c.keys.Nodup
  settings : c.secrets.settings = u.settings ∧ c.inputs.settings = u.settings ∧
    c.outputs.settings = u.settings

theorem wrapperCircuit_wires (hp : Typing.Declares u.program)
    {keys : List Label} {r : List (VarId × Wire) × List (Label × Wire)} {c : State}
    (h : Yields (u.wrapperCircuit f keys) (.new u.settings) r c) : WrapperWires u keys r c := by
  obtain ⟨params, ks⟩ := r
  obtain ⟨ρ', υ, hparams, hks, hcall⟩ := wrapperCircuit_cases h
  obtain ⟨hsupplies, hwires, houts, htypes⟩ := encryptParams_wires (u := u) hp hparams
  obtain ⟨hnew, rfl⟩ := inputKeys_wires hks
  have hnumbered := hsupplies.numbered (by
    intro i x hx
    cases hx)
  have hnames : ρ'.inputs.names = params.map fun e => e.2.name := by
    rw [Stream.names, hwires]
    simp [State.new, Function.comp_def]
  have hwrapper : ∀ calls steps, WrapperWires u keys (params, ks) { ρ' with
      inputs := { ρ'.inputs with wires := ρ'.inputs.wires ++ ks.map Prod.snd }, calls, steps } := by
    intro calls steps
    refine ⟨hsupplies.secrets.fillsSlot rfl, by simp [hwires, State.new], by rw [houts]; rfl, htypes,
      fun i e he => ?_, ?_, hsupplies.keys, hsupplies.kept, hsupplies.nodup, hsupplies.secrets.settings,
      hsupplies.inputs.settings, hsupplies.outputs.settings⟩
    · have hi := hnumbered i e.2.name (by simp [hnames, he])
      rwa [hsupplies.inputs.base] at hi
    · rw [hnew, hsupplies.inputs.role]
      rfl
  rcases hcall with ⟨-, rfl⟩ | rfl
  · exact hwrapper _ _
  · exact hwrapper _ _

end Wrapper

end Lowering

end Shroud
