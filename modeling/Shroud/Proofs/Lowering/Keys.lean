import Shroud.Proofs.Lowering.Transfer

/-! # Keys

Every ciphertext of a circuit is under the key of some owner (`UnderKey`). If a fixed owner is known to
be the same party, it is that one's key, which is an input of the whole proof; else the circuit has an
input of its own for the key, and the contract looks it up. `lookups` is the trace of both, and
`KeyedCircuit` the result for bodies and wrappers: a wrapper has one input for each key of a fixed
owner that is used anywhere below it. Whether the registry has a key for a party is left out.
-/

namespace Shroud

open Circuit (Wire Step Stream)

/-! ## Encryptions -/

namespace Circuit.Step

/-- The key and the ciphertext of an encryption. -/
def encryption? : Step → Option (Wire × Wire)
  | encryption _ _ key cipher _ => some (key, cipher)
  | _ => none

/-- The keys and ciphertexts of all encryptions, in order. -/
def encryptions (steps : List Step) : List (Wire × Wire) := (flatten steps).filterMap encryption?

@[simp] theorem encryptions_nil : encryptions [] = [] := rfl

@[simp] theorem encryptions_append (ss ts : List Step) :
    encryptions (ss ++ ts) = encryptions ss ++ encryptions ts := by
  rw [encryptions, flatten_append, List.filterMap_append]
  rfl

@[simp] theorem encryptions_block (name : String) (steps : List Step) :
    encryptions [.block name steps] = encryptions steps := by
  rw [encryptions, flatten_block]
  rfl

@[simp] theorem encryptions_encryption (plain randomness key cipher : Wire) (b : Bool) :
    encryptions [.encryption plain randomness key cipher b] = [(key, cipher)] := by
  rw [encryptions, flatten_singleton rfl]
  rfl

theorem encryptions_singleton {s : Step} (h : s.isBlock = false) (hs : s.encryption? = none) :
    encryptions [s] = [] := by
  rw [encryptions, flatten_singleton h, List.filterMap_cons_none hs, List.filterMap_nil]

@[simp] theorem encryptions_comment (text : String) : encryptions [.comment text] = [] :=
  encryptions_singleton rfl rfl

@[simp] theorem encryptions_declare (w : Wire) (e : Term) : encryptions [.declare w e] = [] :=
  encryptions_singleton rfl rfl

@[simp] theorem encryptions_assign (w : Wire) (e : Term) : encryptions [.assign w e] = [] :=
  encryptions_singleton rfl rfl

@[simp] theorem encryptions_equal (plain out : Wire) : encryptions [.equal plain out] = [] :=
  encryptions_singleton rfl rfl

@[simp] theorem encryptions_call (f : String) : encryptions [.call f] = [] :=
  encryptions_singleton rfl rfl

@[simp] theorem encryptions_enterGuard (cond : String) (holds : Bool) :
    encryptions [.enterGuard cond holds] = [] := encryptions_singleton rfl rfl

@[simp] theorem encryptions_leaveGuard : encryptions [.leaveGuard] = [] :=
  encryptions_singleton rfl rfl

end Circuit.Step

namespace Solidity

/-- The fields that are written, with their values. -/
def writes (us : List DataUse) : List (String × Expr) := us.filterMap fun u => match u.access with
  | .write field value => some (field, value)
  | .read _ => none

@[simp] theorem writes_nil : writes [] = [] := rfl

@[simp] theorem writes_append (us us' : List DataUse) : writes (us ++ us') = writes us ++ writes us' :=
  List.filterMap_append

@[simp] theorem writes_write (tests : List Test) (field : String) (value : Expr) (us : List DataUse) :
    writes (⟨tests, .write field value⟩ :: us) = (field, value) :: writes us := rfl

@[simp] theorem writes_read (tests : List Test) (field : String) (us : List DataUse) :
    writes (⟨tests, .read field⟩ :: us) = writes us := rfl

@[simp] theorem writes_under (c : Expr) (holds : Bool) (us : List DataUse) :
    writes (us.map (.under c holds)) = writes us := by
  rw [writes, List.filterMap_map]
  rfl

end Solidity

namespace Lowering

open Solidity (DataUse uses writes)

variable {base env : Env} {p : Program} {owners : List Label} {places : Set Here} {σ ρ τ : State}
  {l : Label} {unit : SourceUnit} {u : ContractEnv} {f : FunctionId}

/-! ## Ciphertexts -/

instance (owners : List Label) (before : Option (Partition Label)) (l : Label) :
    Decidable (Fixed owners before l) :=
  decidable_of_iff (l ∈ owners ∨ before.any (fun s => owners.any fun o => s.same o l) = true) <| by
    cases before <;> simp [Fixed]

namespace Sealed

/-- A ciphertext is under the key of a fixed owner, if one is known to be the same party as the
owner that it is for. -/
structure UnderKey (p : Program) (owners keys : List Label) (e : Sealed) : Prop where
  fixed : Fixed owners e.here.before? e.owner →
    ∃ o ∈ keys, Represents owners e.here.before? e.owner o ∧ e.key = fixedKey p o
  other : ¬ Fixed owners e.here.before? e.owner → ∃ v, e.owner = .var v

theorem UnderKey.mono {e : Sealed} {keys keys' : List Label} (h : e.UnderKey p owners keys)
    (hk : keys ⊆ keys') : e.UnderKey p owners keys' where
  fixed hfixed := by
    obtain ⟨o, ho, hkey⟩ := h.fixed hfixed
    exact ⟨o, hk ho, hkey⟩
  other := h.other

/-- The key of a ciphertext, if it is not that of a fixed owner. -/
def ownKey? (owners : List Label) (e : Sealed) : Option Wire :=
  if Fixed owners e.here.before? e.owner then none else some e.key

end Sealed

/-- The inputs that are keys. -/
def keyInputs (σ : State) : List Wire := σ.inputs.wires.filter fun w => w.type = .key

/-- The circuit gets some ciphertexts for statements at certain places, and some inputs. Each input is
written once, and those with keys are for owners who are not fixed and get the keys that are looked
up for them. -/
structure Keyed (p : Program) (s : Settings) (owners : List Label) (places : Set Here) (σ τ : State)
    (us : List DataUse) (new : List Sealed) (fills : List (Wire × Solidity.Expr)) : Prop where
  noted : τ.sealed = σ.sealed ++ new
  constraints : Step.encryptions τ.steps =
    Step.encryptions σ.steps ++ new.map fun e => (e.key, e.cipher)
  inputs : τ.inputs.wires = σ.inputs.wires ++ fills.map Prod.fst
  own : (fills.map Prod.fst).filter (fun w => w.type = .key) =
    new.filterMap (Sealed.ownKey? owners)
  written : (writes us).Perm (fills.map fun x => (x.1.name, x.2))
  fetched : ∀ e ∈ new, ∀ v, e.owner = .var v → ¬ Fixed owners e.here.before? e.owner →
    (e.key, fetchKey p s v) ∈ fills
  stands : ∀ e ∈ new, e.here ∈ places
  under : ∀ e ∈ new, e.UnderKey p owners τ.keys
  kept : σ.keys ⊆ τ.keys

namespace Keyed

variable {s : Settings} {us us' : List DataUse} {fills fills' : List (Wire × Solidity.Expr)}
  {new new' : List Sealed} {value : Solidity.Expr} {w : Wire}

theorem of_eq (hs : τ.sealed = σ.sealed)
    (hc : Step.encryptions τ.steps = Step.encryptions σ.steps) (hi : τ.inputs = σ.inputs)
    (hk : τ.keys = σ.keys) (hu : writes us = []) : Keyed p s owners places σ τ us [] [] where
  noted := by simp [hs]
  constraints := by simp [hc]
  inputs := by simp [hi]
  own := rfl
  written := by simp [hu]
  fetched := by simp
  stands := by simp
  under := by simp
  kept := hk ▸ List.Subset.refl _

/-- Before that, an input is issued that is no key. -/
theorem issued (h : Keyed p s owners places ρ τ us new fills) (w : Wire) (value : Solidity.Expr)
    (hw : w.type ≠ .key) (hi : ρ.inputs.wires = σ.inputs.wires ++ [w]) (hs : ρ.sealed = σ.sealed)
    (hc : Step.encryptions ρ.steps = Step.encryptions σ.steps) (hk : ρ.keys = σ.keys) :
    Keyed p s owners places σ τ (⟨[], .write w.name value⟩ :: us) new ((w, value) :: fills) where
  noted := hs ▸ h.noted
  constraints := hc ▸ h.constraints
  inputs := by simp [h.inputs, hi]
  own := by simpa [hw] using h.own
  written := h.written.cons _
  fetched e he v hv hnot := List.mem_cons_of_mem _ (h.fetched e he v hv hnot)
  stands := h.stands
  under := h.under
  kept := hk ▸ h.kept

theorem trans (h : Keyed p s owners places σ ρ us new fills)
    (h' : Keyed p s owners places ρ τ us' new' fills') :
    Keyed p s owners places σ τ (us ++ us') (new ++ new') (fills ++ fills') where
  noted := by rw [h'.noted, h.noted, List.append_assoc]
  constraints := by rw [h'.constraints, h.constraints, List.map_append, List.append_assoc]
  inputs := by rw [h'.inputs, h.inputs, List.map_append, List.append_assoc]
  own := by rw [List.map_append, List.filter_append, h.own, h'.own, List.filterMap_append]
  written := by
    rw [Solidity.writes_append, List.map_append]
    exact h.written.append h'.written
  fetched := List.forall_mem_append.2
    ⟨fun e he v hv hnot => List.mem_append_left _ (h.fetched e he v hv hnot),
      fun e he v hv hnot => List.mem_append_right _ (h'.fetched e he v hv hnot)⟩
  stands := List.forall_mem_append.2 ⟨h.stands, h'.stands⟩
  under := List.forall_mem_append.2 ⟨fun e he => (h.under e he).mono h'.kept, h'.under⟩
  kept := List.Subset.trans h.kept h'.kept

/-- The steps stand elsewhere, between others that encrypt nothing. -/
theorem around {σ' τ' : State} (h : Keyed p s owners places σ' τ us new fills)
    (hs : σ'.sealed = σ.sealed) (hi : σ'.inputs = σ.inputs) (hk : σ'.keys = σ.keys)
    (hs' : τ'.sealed = τ.sealed) (hi' : τ'.inputs = τ.inputs) (hk' : τ'.keys = τ.keys)
    (hu : writes us' = writes us)
    (hc : ∀ es, Step.encryptions τ.steps = Step.encryptions σ'.steps ++ es →
      Step.encryptions τ'.steps = Step.encryptions σ.steps ++ es) :
    Keyed p s owners places σ τ' us' new fills where
  noted := by rw [hs', h.noted, hs]
  constraints := hc _ h.constraints
  inputs := by rw [hi', h.inputs, hi]
  own := h.own
  written := hu ▸ h.written
  fetched := h.fetched
  stands := h.stands
  under e he := by
    rw [hk']
    exact h.under e he
  kept := by
    rw [hk', ← hk]
    exact h.kept

variable (hh : env.here ∈ places)

include hh

/-- One more ciphertext. If its key is not that of a fixed owner, there is one more input, for which
the key is looked up. -/
theorem encrypted {name : String} {plain cipher : Wire} {b : Bool} {x : Unit}
    (h : Yields (encrypted env name plain l cipher b) σ x τ) :
    ∃ k pre fills, τ.pre = σ.pre ++ pre ∧ (l = .me → pre = []) ∧
      Keyed env.program env.settings env.owners places σ τ (uses env.settings.dataName pre)
        [⟨cipher, k, l, env.here⟩] fills := by
  obtain ⟨k, ρ, hkey, rfl⟩ := encrypted_iff.1 h
  rcases publicKey_cases hkey with ⟨hfixed, rfl, rfl⟩ | ⟨v, rfl, hnot, hk, rfl⟩
  · refine ⟨_, [], [], by simp, fun _ => rfl, rfl, by simp, by simp, ?_, by simp, ?_,
      by simpa using hh, ?_, (subset_withKey _ _).1⟩
    · simp [Sealed.ownKey?, hfixed]
    · exact List.forall_mem_singleton.2 fun v _ hnot => (hnot hfixed).elim
    · exact List.forall_mem_singleton.2 ⟨fun _ => ⟨_, (subset_withKey _ _).2,
        canonical_of_fixed hfixed, rfl⟩, fun hnot => (hnot hfixed).elim⟩
  · refine ⟨k, [_], [(k, fetchKey env.program env.settings v)], rfl, nofun, rfl, by simp, rfl, ?_, ?_,
      ?_, by simpa using hh, ?_, List.Subset.refl _⟩
    · simp [Sealed.ownKey?, hnot, hk, freshKey, Stream.issueAs]
    · simp [Env.member, Solidity.Stmt.uses_assign_field, fetchKey, pki]
    · refine List.forall_mem_singleton.2 fun v' hv' _ => ?_
      cases hv'
      simp
    · exact List.forall_mem_singleton.2 ⟨fun hfixed => (hnot hfixed).elim, fun _ => ⟨v, rfl⟩⟩

/-- A value that is moved in is written to its input. -/
theorem input {t : OwnedType} {text : String} (h : Yields (input env t text value) σ w τ)
    (ht : t.type.toAbstract ≠ .key) : ∃ x,
      τ.pre = σ.pre ++ [.assign (.member (.ident env.settings.dataName) x) value] ∧
      ∃ new fills, Keyed env.program env.settings env.owners places σ τ [⟨[], .write x value⟩] new
        fills := by
  rcases input_cases h with ⟨-, cipher, ρ, rfl, rfl, henc, rfl⟩ | ⟨-, rfl, hτ⟩
  · obtain ⟨k, pre, fills, hpre, hme, hkeyed⟩ := encrypted hh henc
    obtain rfl := hme rfl
    refine ⟨_, ?_, _, _, (hkeyed.issued (σ := σ) (σ.inputs.issueAs (σ.inputs.nextName .cipher) .cipher).1
      value nofun rfl rfl rfl rfl).around rfl rfl rfl rfl rfl rfl rfl fun es hes => by simpa using hes⟩
    show ρ.pre ++ _ = _
    rw [hpre, List.append_nil]
    rfl
  · have hdone : Keyed env.program env.settings env.owners places
        { σ with inputs := (σ.inputs.issue t.type.toAbstract none).2 } τ [] [] [] :=
      .of_eq (by rw [hτ]) (by simp [hτ]) (by rw [hτ]) (by rw [hτ]) rfl
    exact ⟨_, by rw [hτ]; rfl, _, _, hdone.issued (σ.inputs.issueAs (σ.inputs.nextName t.type.toAbstract)
      t.type.toAbstract).1 value ht rfl rfl rfl rfl⟩

/-- Where a value is published for an owner who is not fixed, the key is looked up. -/
theorem publish {plain out : Wire} {t : DataType} (h : Yields (publish env plain l t) σ out τ) :
    ∃ pre, τ.pre = σ.pre ++ pre ∧ ∃ new fills, Keyed env.program env.settings env.owners places σ τ
      (uses env.settings.dataName pre ++ [⟨[], .read out.name⟩]) new fills := by
  rcases publish_cases h with ⟨-, rfl, rfl⟩ | ⟨-, origin, rfl, henc⟩
  · exact ⟨[], by simp, [], [], .of_eq rfl (by simp) rfl rfl rfl⟩
  · obtain ⟨k, pre, fills, hpre, -, hkeyed⟩ := encrypted hh henc
    exact ⟨pre, hpre, _, _, hkeyed.around rfl rfl rfl rfl rfl rfl (by simp) fun es hes => hes⟩

end Keyed

/-! ## Bodies -/

/-- Ciphertexts belong to statements of the program, and all code that fills inputs is accounted
for. -/
def lookups (base : Env) : Trace base (.ofUses _) where
  Context := Unit
  term _ _ _ := True
  stored _ _ := True
  test _ _ e _ := writes (e.uses base.settings.dataName) = []
  branches := True
  callable _ := True
  rel _ σ _ τ us := ∃ new fills, Keyed base.program base.settings base.owners
    (statementPlaces base.program) σ τ us new fills
  refl _ _ := ⟨[], [], .of_eq rfl rfl rfl rfl rfl⟩
  trans := by
    rintro _ _ _ σ ρ τ us us' ⟨new, fills, h⟩ ⟨new', fills', h'⟩
    exact ⟨_, _, h.trans h'⟩
  perm := by
    rintro _ _ σ τ us us' ⟨new, fills, h⟩ hperm
    exact ⟨new, fills, { h with written := (hperm.filterMap _).symm.trans h.written }⟩
  closed _ _ _ _ := trivial
  op _ _ := trivial
  cast _ _ := trivial
  of_stored _ _ := trivial
  mono _ _ := trivial
  stored_mono _ _ := trivial
  test_mono _ h := h
  term_steps _ _ := trivial
  stored_steps _ _ := trivial
  quiet _ _ _ _ _ := ⟨[], [], .of_eq rfl rfl rfl rfl rfl⟩
  comment _ _ _ := ⟨[], [], .of_eq rfl (by simp) rfl rfl rfl⟩
  note _ _ _ _ _ := ⟨[], [], .of_eq rfl rfl rfl rfl rfl⟩
  call _ _ _ _ _ := ⟨[], [], .of_eq rfl (by simp) rfl rfl rfl⟩
  temporary _ h := by
    obtain ⟨-, rfl⟩ := newTemporary_iff.1 h
    refine ⟨⟨⟩, ⟨[], [], .of_eq rfl (by simp) rfl rfl rfl⟩, trivial, fun e cond hforms => ?_⟩
    rw [hforms.plain.uses_eq]
    rfl
  version _ h := by
    obtain ⟨-, rfl⟩ := newVersion_iff.1 h
    exact ⟨⟨⟩, ⟨[], [], .of_eq rfl (by simp) rfl rfl rfl⟩, trivial⟩
  input := by
    intro _ σ τ h depth t text value w hp hm hw
    have htest : writes ((base.member w).uses base.settings.dataName) = [] := by simp [Env.member]
    obtain ⟨x, hpre, hkeyed⟩ := Keyed.input hp.place hw hm.ne_key
    exact ⟨⟨⟩, x, hpre, hkeyed, trivial, fun _ => htest⟩
  publish := by
    intro _ σ τ h depth l t plain out hp _ _ hout
    obtain ⟨pre, hpre, hkeyed⟩ := Keyed.publish hp.place hout
    refine ⟨⟨⟩, pre, hpre, ?_⟩
    rw [Solidity.Reading.field_ofUses]
    exact hkeyed
  block _ := by
    rintro ⟨new, fills, h⟩
    refine ⟨new, fills, h.around rfl rfl rfl rfl rfl rfl rfl fun es hes => ?_⟩
    split
    · rename_i hempty
      rw [List.isEmpty_iff.1 hempty] at hes
      simpa using hes
    · simpa using hes
  guard _ _ := by
    rintro ⟨new, fills, h⟩
    exact ⟨new, fills, h.around rfl rfl rfl rfl rfl rfl (Solidity.writes_under _ _ _)
      fun es hes => by simpa using hes⟩
  branch _ _ _ := by
    rintro ⟨new, fills, h⟩
    exact ⟨new, fills, h.around rfl rfl rfl rfl rfl rfl rfl fun es hes => by simpa using hes⟩
  reread h := ⟨[], [], .of_eq rfl rfl rfl rfl h⟩

/-- The ciphertexts of a checked function are under keys that it has or asks for. Its body writes each
input once, and an input for a key gets the key that is looked up for the owner. -/
theorem lowerFunction_keyed (hp : Passes unit.check u.program) {l : Lowered}
    (hl : lowerFunction u f = .ok l) : ∃ fills,
      Keyed u.program u.settings u.owners (statementPlaces u.program) (State.new u.settings) l.circuit
        (uses u.settings.dataName l.body) l.circuit.sealed fills := by
  obtain ⟨_, new, fills, hkeyed⟩ := lowerFunction_traced hp (lookups _) (fun _ _ => trivial)
    (fun _ _ _ => trivial) (fun _ _ _ _ _ _ _ => trivial) hl ⟨⟩
  have hsame : l.circuit.sealed = new := by simpa [State.new] using hkeyed.noted
  rw [hsame]
  exact ⟨fills, hkeyed⟩

/-- Where names are not repeated, a filter by a name gives one entry. -/
theorem filter_fst_eq_of_nodup {α β : Type} [DecidableEq α] {xs : List (α × β)}
    (h : (xs.map Prod.fst).Nodup) {a : α} {b : β} (hab : (a, b) ∈ xs) :
    xs.filter (fun x => x.1 = a) = [(a, b)] := by
  refine List.perm_singleton.1 ((List.perm_ext_iff_of_nodup ((h.of_map _).filter _)
    (List.nodup_singleton _)).2 fun x => ?_)
  rw [List.mem_filter, List.mem_singleton, decide_eq_true_eq]
  constructor
  · rintro ⟨hx, hxa⟩
    exact List.inj_on_of_nodup_map h hx hab hxa
  · rintro rfl
    exact ⟨hab, rfl⟩

/-! ## Circuits -/

/-- There is one constraint for each ciphertext, under the key that belongs to it. -/
structure SealsUnderKeys (u : ContractEnv) (c : State) : Prop where
  constraints : Step.encryptions c.steps = c.sealed.map fun e => (e.key, e.cipher)
  under : ∀ e ∈ c.sealed, e.UnderKey u.program u.owners c.keys

/-- The keys in the circuit of a function. Its ciphertexts belong to statements of the program, its
inputs for keys are those of the ciphertexts that are for no fixed owner, and the body writes each of
these once, with the key of the owner. -/
structure KeyedBody (u : ContractEnv) (l : Lowered) : Prop extends SealsUnderKeys u l.circuit where
  stands : ∀ e ∈ l.circuit.sealed, e.here ∈ statementPlaces u.program
  inputs : keyInputs l.circuit = l.circuit.sealed.filterMap (Sealed.ownKey? u.owners)
  distinct : l.circuit.inputs.names.Nodup
  fetched : ∀ e ∈ l.circuit.sealed, ∀ v, e.owner = .var v →
    ¬ Fixed u.owners e.here.before? e.owner →
    (writes (uses u.settings.dataName l.body)).filter (fun x => x.1 = e.key.name) =
      [(e.key.name, fetchKey u.program u.settings v)]

/-- The circuit of a function is called. -/
def CallsCircuit (u : ContractEnv) (c d : State) : Prop :=
  ∃ g ∈ c.calls, ∃ l, lowerFunction u g = .ok l ∧ l.circuit = d

/-- A circuit asks for the key of a fixed owner, or something is encrypted under its name. -/
def UsesFixedKey (p : Program) (c : State) (o : Label) : Prop :=
  o ∈ c.keys ∨ ∃ k ∈ Step.encryptions c.steps, k.1.name = keyName p o

/-- The keys in the circuit of a wrapper. Its ciphertexts are the sender's, its inputs for keys are
those of fixed owners, and each key of a fixed owner that is used below it has one slot. -/
structure KeyedWrapper (u : ContractEnv) (c : State) (circuit : Circuit) : Prop
    extends SealsUnderKeys u c where
  owner : ∀ e ∈ c.sealed, e.owner = .me
  inputs : keyInputs c = c.keys.map (fixedKey u.program)
  complete : ∀ d, Relation.ReflTransGen (CallsCircuit u) c d → ∀ o, UsesFixedKey u.program d o →
    (circuit.inputs.filter fun slot => slot.name = keyName u.program o).length = 1

/-- The circuit of a function, or that of its wrapper, with all its keys. -/
inductive KeyedCircuit (u : ContractEnv) : Circuit → Prop
  | body {f : FunctionId} {l : Lowered} {below : Callees} (hl : lowerFunction u f = .ok l)
      (h : KeyedBody u l) :
      KeyedCircuit u (u.circuit l.circuit (circuitName u.program u.settings f) none below)
  | wrapper {f : FunctionId} {keys : List Label} {r : List (VarId × Wire) × List (Label × Wire)}
      {c : State} {below : Callees} (hc : Yields (u.wrapperCircuit f keys) (.new u.settings) r c)
      (h : KeyedWrapper u c (u.circuit c (u.function f).uniqueName (some (u.verifier f)) below)) :
      KeyedCircuit u (u.circuit c (u.function f).uniqueName (some (u.verifier f)) below)

section Circuits

variable {unit : SourceUnit} {u : ContractEnv} {k : Solidity.Contract} {cs : List Circuit}
  {f : FunctionId} {m : Lowered} {r : List (VarId × Wire) × List (Label × Wire)} {c : State}
  {keys : List Label}

theorem numbered_inputs (hp : Passes unit.check u.program) (hm : lowerFunction u f = .ok m) :
    m.circuit.inputs.Numbered ∧ m.circuit.inputs.base = u.settings.inName := by
  have hsupplies := lowerFunction_supplies hp hm
  exact ⟨hsupplies.numbered (by intro i x hx; cases hx), hsupplies.inputs.base⟩

theorem keyedBody (hp : Passes unit.check u.program) (hm : lowerFunction u f = .ok m) : KeyedBody u m := by
  obtain ⟨fills, hkeyed⟩ := lowerFunction_keyed hp hm
  have hnodup : m.circuit.inputs.names.Nodup := (numbered_inputs hp hm).1.nodup
  have hkeys : keyInputs m.circuit = m.circuit.sealed.filterMap (Sealed.ownKey? u.owners) := by
    rw [← hkeyed.own, keyInputs, hkeyed.inputs]
    rfl
  refine ⟨⟨hkeyed.constraints, hkeyed.under⟩, hkeyed.stands, hkeys, hnodup, fun e he v hv hnot => ?_⟩
  have hmem := hkeyed.fetched e he v hv hnot
  have hnames : (fills.map fun x => (x.1.name, x.2)).map Prod.fst = m.circuit.inputs.names := by
    rw [Stream.names, hkeyed.inputs]
    simp [State.new, Function.comp_def]
  -- the names are distinct, so what is written under one of them is written once
  have hfilter : (fills.map fun x => (x.1.name, x.2)).filter (fun x => x.1 = e.key.name) =
      [(e.key.name, fetchKey u.program u.settings v)] := by
    have hmem : (e.key.name, fetchKey u.program u.settings v) ∈ fills.map fun x => (x.1.name, x.2) :=
      List.mem_map.2 ⟨_, hmem, rfl⟩
    rw [← hnames] at hnodup
    exact filter_fst_eq_of_nodup hnodup hmem
  exact List.perm_singleton.1 (hfilter ▸ hkeyed.written.filter _)

/-- What encrypts under the name of a fixed owner's key has asked for it. -/
theorem UsesFixedKey.exists_key (hn : NamesApart u) (h : SealsUnderKeys u c)
    (hother : ∀ e ∈ c.sealed, ¬ Fixed u.owners e.here.before? e.owner →
      ∃ rest, e.key.name = u.settings.inName ++ rest) {o : Label} (ho : UsesFixedKey u.program c o) :
    ∃ o' ∈ c.keys, keyName u.program o' = keyName u.program o := by
  rcases ho with ho | ⟨key, hkey, hname⟩
  · exact ⟨o, ho, rfl⟩
  rw [h.constraints] at hkey
  obtain ⟨e, he, rfl⟩ := List.mem_map.1 hkey
  by_cases hfixed : Fixed u.owners e.here.before? e.owner
  · obtain ⟨o', ho', -, hkey⟩ := (h.under e he).fixed hfixed
    refine ⟨o', ho', ?_⟩
    rw [← hname, hkey]
    rfl
  · obtain ⟨rest, hrest⟩ := hother e he hfixed
    exact (hn.inputs o rest (hname.symm.trans hrest)).elim

theorem KeyedBody.exists_name (h : KeyedBody u m) (hnumbered : m.circuit.inputs.Numbered)
    (hbase : m.circuit.inputs.base = u.settings.inName) {e : Sealed} (he : e ∈ m.circuit.sealed)
    (hnot : ¬ Fixed u.owners e.here.before? e.owner) :
    ∃ rest, e.key.name = u.settings.inName ++ rest := by
  have hkey : e.key ∈ keyInputs m.circuit := by
    rw [h.inputs]
    exact List.mem_filterMap.2 ⟨e, he, if_neg hnot⟩
  have hwire : e.key.name ∈ m.circuit.inputs.names :=
    List.mem_map_of_mem (List.mem_filter.1 hkey).1
  obtain ⟨i, hi⟩ := List.mem_iff_getElem?.1 hwire
  obtain ⟨rest, hrest⟩ := hnumbered i _ hi
  refine ⟨Nat.repr i ++ "_" ++ rest, ?_⟩
  rw [hrest, hbase]
  simp [String.append_assoc]

/-! ## Wrappers -/

/-- Parameters are encrypted for the sender. -/
theorem encryptParams_keyed (hh : env.here ∈ places) {vs : List VarId}
    {ws : List (VarId × Wire)} (h : Yields (u.encryptParams env vs) σ ws τ) :
    ∃ us new fills, Keyed env.program env.settings env.owners places σ τ us new fills ∧
      (∀ e ∈ new, e.owner = .me) ∧ τ.calls = σ.calls := by
  induction vs generalizing σ ws with
  | nil =>
    obtain ⟨-, rfl⟩ := Yields.pure_iff.1 h
    exact ⟨[], [], [], .of_eq rfl rfl rfl rfl rfl, by simp, rfl⟩
  | cons v vs ih =>
    obtain ⟨plain, cipher, ρ, ws', rfl, rfl, rfl, henc, hws⟩ := encryptParams_cons h
    obtain ⟨us, new, fills, hnew, howner, hcalls⟩ := ih hws
    obtain ⟨key, pre, fills', -, -, hkeyed⟩ := Keyed.encrypted hh henc
    have hsame : ρ.calls = σ.calls := (encrypted_me henc).2.2.1
    refine ⟨_, _, _, (hkeyed.issued (σ := σ) (σ.inputs.issueAs _ .cipher).1 .sender nofun rfl rfl rfl
      rfl).trans hnew, ?_, hcalls.trans hsame⟩
    exact List.forall_mem_append.2 ⟨by simp, howner⟩

/-- The circuit of a wrapper calls that of its function. -/
theorem wrapperCircuit_sealed (h : Yields (u.wrapperCircuit f keys) (.new u.settings) r c) :
    SealsUnderKeys u c ∧ (∀ e ∈ c.sealed, e.owner = .me) ∧
      ∀ g ∈ c.calls, g = f ∧ (u.program.function f).facts.isVerified = true := by
  obtain ⟨ρ', υ, hparams, hks, hcall⟩ := wrapperCircuit_cases h
  obtain ⟨us, new, fills, hkeyed, howner, hcalls⟩ := encryptParams_keyed (Set.mem_univ _) hparams
  obtain ⟨-, rfl⟩ := inputKeys_wires hks
  have hsealed : ρ'.sealed = new := by simpa [State.new] using hkeyed.noted
  have hnone : ρ'.calls = [] := hcalls
  have hconstraints : Step.encryptions ρ'.steps = new.map fun e => (e.key, e.cipher) := by
    simpa [State.new] using hkeyed.constraints
  have hunder : ∀ e ∈ new, e.UnderKey u.program u.owners ρ'.keys := hkeyed.under
  rw [← hsealed] at hconstraints howner hunder
  rcases hcall with ⟨hv, rfl⟩ | rfl
  · refine ⟨⟨by simpa using hconstraints, hunder⟩, howner, fun g hg => ?_⟩
    rw [hnone, List.nil_append, List.mem_singleton] at hg
    exact ⟨hg, hv⟩
  · refine ⟨⟨hconstraints, hunder⟩, howner, fun g hg => ?_⟩
    rw [hnone] at hg
    cases hg

/-- The keys of a wrapper's inputs are those that it has. -/
theorem WrapperWires.keyInputs_eq (h : WrapperWires u keys r c) :
    keyInputs c = c.keys.map (fixedKey u.program) := by
  have hparams : (r.1.map Prod.snd).filter (fun w => w.type = .key) = [] := by
    refine List.filter_eq_nil_iff.2 fun w hw => ?_
    obtain ⟨e, he, rfl⟩ := List.mem_map.1 hw
    simp [h.ciphers e he]
  rw [keyInputs, h.inputs, List.filter_append, hparams, h.slots, List.nil_append, List.map_map]
  refine List.filter_eq_self.2 fun w hw => ?_
  obtain ⟨o, -, rfl⟩ := List.mem_map.1 hw
  simp

/-- The circuits that a wrapper reaches are those of the functions that its function reaches. -/
theorem Emitted.reaches (e : Emitted u k cs) {d : State} (hcalls : ∀ g ∈ c.calls, g = f)
    {t : CallTree} (ht : (frames u e.bodies).Unfolds f t)
    (h : Relation.ReflTransGen (CallsCircuit u) c d) : d = c ∨ ∃ g m,
      Relation.ReflTransGen (frames u e.bodies).Calls f g ∧ lowerFunction u g = .ok m ∧
        m.circuit = d := by
  induction h with
  | refl => exact .inl rfl
  | @tail d d' _ hstep ih =>
    obtain ⟨g', hg', m', hm', rfl⟩ := hstep
    refine .inr ⟨g', m', ?_, hm', rfl⟩
    rcases ih with rfl | ⟨g, m, hreach, hm, rfl⟩
    · obtain rfl := hcalls g' hg'
      exact .refl
    · obtain ⟨t', ht', -⟩ := ht.of_reaches hreach
      obtain ⟨m₂, hm₂, hown⟩ := e.exists_of_frame ht'.find?
      obtain rfl : m = m₂ := Except.ok.inj (hm.symm.trans hm₂)
      refine hreach.tail ⟨_, ht'.find?, ?_⟩
      rw [hown]
      exact hg'

variable (e : Emitted u k cs) (hp : Passes unit.check u.program)

include e hp

/-- All keys below a wrapper are its own. -/
theorem Emitted.keys_complete (hme : .me ∈ u.owners) (hn : NamesApart u) {l : Lowered}
    (hl : l ∈ e.patched) {body : Callees} (hbody : u.bodyFrame l e.sizes = .ok body) {d : State}
    (hc : Yields (u.wrapperCircuit l.id body.keys) (.new u.settings) r c)
    (hd : Relation.ReflTransGen (CallsCircuit u) c d) {o : Label} (ho : UsesFixedKey u.program d o) :
    ∃ o' ∈ c.keys, keyName u.program o' = keyName u.program o := by
  have hscoped := (SourceUnit.check_checked hp).names
  obtain ⟨hseals, howner, hcalls⟩ := wrapperCircuit_sealed hc
  have hown : UsesFixedKey u.program c o →
      ∃ o' ∈ c.keys, keyName u.program o' = keyName u.program o := fun ho =>
    ho.exists_key hn hseals fun e he hnot => (hnot (howner e he ▸ .inl hme)).elim
  rcases Relation.ReflTransGen.cases_head hd with rfl | ⟨d₁, ⟨g, hg, -⟩, -⟩
  · exact hown ho
  obtain ⟨rfl, hv⟩ := hcalls g hg
  have hbelow : ∃ below, Sorted.find? e.sizes l.id = some below ∧ body.keys = below.keys := by
    unfold ContractEnv.bodyFrame at hbody
    rw [if_neg (by simpa [ContractEnv.function] using hv)] at hbody
    split at hbody
    · rename_i below hbelow
      cases hbody
      exact ⟨below, hbelow, rfl⟩
    · cases hbody
  obtain ⟨below, hbelow, hkeys⟩ := hbelow
  obtain ⟨t, ht, htree⟩ := e.exists_tree hl hv hbelow
  rcases e.reaches (fun g hg => (hcalls g hg).1) ht hd with rfl | ⟨g, m, hreach, hm, rfl⟩
  · exact hown ho
  have hdeclares := Typing.declares_of_scoped hscoped
  have hwires := wrapperCircuit_wires hdeclares hc
  obtain ⟨t', ht', -⟩ := ht.of_reaches hreach
  obtain ⟨m₂, hm₂, hframe⟩ := e.exists_of_frame ht'.find?
  obtain rfl : m = m₂ := Except.ok.inj (hm.symm.trans hm₂)
  have hkeyed := keyedBody hp hm
  obtain ⟨hnumbered, hbase⟩ := numbered_inputs hp hm
  obtain ⟨o', ho', hname⟩ := ho.exists_key hn hkeyed.toSealsUnderKeys fun e he hnot =>
    hkeyed.exists_name hnumbered hbase he hnot
  refine ⟨o', hwires.kept ?_, hname⟩
  rw [hkeys, htree]
  exact (Frames.mem_keys_iff ht).2 ⟨g, _, hreach, ht'.find?, hframe ▸ ho'⟩

theorem Emitted.keyedWrapper (hme : .me ∈ u.owners) (hn : NamesApart u) {l : Lowered}
    (hl : l ∈ e.patched) {r : Solidity.Function × Circuit} (h : u.wrapper l e.sizes = .ok r) :
    r.2.keys.Nodup ∧ KeyedCircuit u r.2 := by
  obtain ⟨body, wires, c, hbody, hc, hcircuit⟩ := circuit_of_wrapper h
  have hdeclares := Typing.declares_of_scoped (SourceUnit.check_checked hp).names
  have hwires := wrapperCircuit_wires hdeclares hc
  obtain ⟨hnodup, howned⟩ := e.bodyFrame_owned hp hl hbody
  have hall : ∀ o ∈ c.keys, o ∈ u.owners := fun o ho => (hwires.owned o ho).elim (howned o) id
  obtain ⟨hseals, howner, -⟩ := wrapperCircuit_sealed hc
  rw [hcircuit]
  refine ⟨?_, .wrapper hc ⟨hseals, howner, hwires.keyInputs_eq, fun d hd o ho => ?_⟩⟩
  · exact (hwires.nodup hnodup).map_on fun o ho o' ho' => hn.keys o (hall o ho) o' (hall o' ho')
  · obtain ⟨o', ho', hname⟩ := e.keys_complete hp hme hn hl hbody hc hd ho
    have hslot : keyName u.program o ∈ c.inputs.wires.map Wire.name := by
      rw [hwires.inputs, hwires.slots, ← hname]
      simp only [List.map_append, List.map_map, List.mem_append, List.mem_map]
      exact .inr ⟨o', ho', rfl⟩
    have hcount := List.count_eq_one_of_mem (hwires.nodup_names hn hnodup howned) hslot
    rw [← map_name_layoutFrom c.inputs.settings 0, List.count, List.countP_map,
      List.countP_eq_length_filter] at hcount
    rw [← hcount]
    rfl

theorem Emitted.keyedCircuit (hme : .me ∈ u.owners) (hn : NamesApart u) {circuit : Circuit}
    (h : circuit ∈ cs) : circuit.keys.Nodup ∧ KeyedCircuit u circuit := by
  obtain ⟨l, hl, ⟨r, hr, rfl⟩ | ⟨l₀, below, hlow, -, hv, hbelow, rfl⟩⟩ := e.circuit_cases h
  · exact e.keyedWrapper hp hme hn hl hr
  · obtain ⟨hnodup, howned⟩ := e.keys_owned hp hl hv hbelow
    refine ⟨?_, .body hlow (keyedBody hp hlow)⟩
    exact hnodup.map_on fun o ho o' ho' => hn.keys o (howned o ho) o' (howned o' ho')

end Circuits

end Lowering

open Lowering in
/-- **Every key is supplied, and once.** With default names, and no state variable that is named like
the sender: a ciphertext is under the key of a fixed owner just if one is known to be the same party
at its statement, and else under an input of its own, which the body fills with the key that it looks
up; no circuit lists a key twice; and the circuit of a wrapper has one slot for each key of a fixed
owner that is used below it. -/
theorem SourceUnit.compile_keyed {u : SourceUnit} {s : Settings} {out : Compilation}
    (h : Passes (u.compile s) out) (hs : s.names = ({} : Settings).names)
    (hme : ∀ c ∈ u.contracts, ∀ v ∈ c.stateVars, v.name ≠ "me") :
    ∃ p pieces, Passes u.check p ∧ out.contracts = pieces.map Prod.fst ∧
      out.circuits = pieces.flatMap Prod.snd ∧
      List.Forall₂ (fun c piece => ∀ circuit ∈ piece.2,
        circuit.keys.Nodup ∧ KeyedCircuit (.new p s c) circuit) p.contractIds pieces := by
  obtain ⟨p, pieces, hp, hcontracts, hcircuits, hpieces⟩ := compile_emitted h
  refine ⟨p, pieces, hp, hcontracts, hcircuits, hpieces.imp ?_⟩
  rintro c piece ⟨hc, ⟨e⟩⟩
  exact fun circuit hcircuit =>
    e.keyedCircuit hp List.mem_cons_self (namesApart_of_check hp hc hs hme) hcircuit

/-- A secret of the sender is stored for a fixed owner, and for somebody whom the sender names. -/
def remittance : SourceUnit := .single "Remittance" [
  { name := "owner", type := .mk .address .all, isFinal := true },
  { name := "stored", type := .mk (.uint 8) (.name "owner") },
  { name := "balance"
    type := .mk (.mapping .address (some "a") (.mk (.uint 8) (.name "a"))) .all }] [
  { name := "constructor"
    kind := .constructor
    body := [.assign {} "owner" none (.me {})] },
  { name := "send"
    params := [
      { name := "x", type := .mk (.uint 8) .me },
      { name := "to", type := .mk .address .all, isFinal := true }]
    body := [
      .assign {} "stored" none (.reveal {} "x" (.name "owner")),
      .assign {} (.index {} "balance" "to") none
        (.reveal {} "x" (.name "to"))] }]

open Lowering in
/-- The wrapper has the two keys of fixed owners; the third key is an input of the body's circuit. -/
theorem SourceUnit.compile_keyed_remittance : ∃ out,
    Passes (remittance.compile {}) out ∧
    (out.circuits.map fun c => (c.keys, c.inputs.map Circuit.Slot.name,
        (Step.encryptions c.steps).map fun e => (e.1.name, e.2.name))) =
      [(["glob_key_me", "glob_key_owner"],
        ["zk__in0_cipher_x", "glob_key_me", "glob_key_owner"],
        [("glob_key_me", "zk__in0_cipher_x")]),
       (["glob_key_me", "glob_key_owner"],
        ["zk__in0_cipher", "zk__in1_cipher", "zk__in2_key_to"],
        [("glob_key_me", "zk__in0_cipher"), ("glob_key_owner", "zk__out0_cipher"),
          ("glob_key_me", "zk__in1_cipher"), ("zk__in2_key_to", "zk__out1_cipher")])] ∧
    ∃ p pieces, Passes remittance.check p ∧ out.contracts = pieces.map Prod.fst ∧
      out.circuits = pieces.flatMap Prod.snd ∧
      List.Forall₂ (fun c piece => ∀ circuit ∈ piece.2,
        circuit.keys.Nodup ∧ KeyedCircuit (.new p {} c) circuit) p.contractIds pieces :=
  Passes.exists_of_test (by decide +kernel) fun _ hout _ => compile_keyed hout rfl (by decide)

end Shroud
