import Shroud.Proofs.Lowering.Actions

/-! # Crossing the boundary

What it does to a circuit to ask for a key, to link a plaintext and a ciphertext, to move a value in
and to publish one. The key of a fixed owner (`Fixed`, `Represents`) is `fixedKey`, which is asked for
and nothing more; for any other owner there is a new input, `freshKey`, which the contract fills by
`fetchKey`. Ciphers are not modelled: a link is a step that names its four wires.
-/

namespace Shroud.Lowering

open Circuit (Term Wire)

variable {env : Env} {l : Label} {σ τ : State} {w : Wire} {t : DataType} {name : String}
  {plain : Wire} {value : Term}

/-! ## Owners -/

/-- Some fixed owner is known to be the same party as the owner of a label. -/
def Fixed (owners : List Label) (before : Option (Partition Label)) (l : Label) : Prop :=
  l ∈ owners ∨ ∃ s ∈ before, ∃ o ∈ owners, s.same o l = true

/-- The label is a fixed owner that is known to be the same party. -/
def Represents (owners : List Label) (before : Option (Partition Label)) (l o : Label) : Prop :=
  o ∈ owners ∧ (o = l ∨ ∃ s ∈ before, s.same o l = true)

theorem canonical_of_fixed (h : Fixed env.owners env.here.before? l) :
    Represents env.owners env.here.before? l (canonical env l) := by
  unfold canonical
  split
  · rename_i hl
    exact ⟨List.contains_iff_mem.1 hl, .inl rfl⟩
  · rename_i hl
    obtain ⟨s, hs, o, ho, hsame⟩ := h.resolve_left (by simpa using hl)
    cases hfind : env.owners.find? fun o => s.same o l with
    | none => exact absurd hsame (by simpa using List.find?_eq_none.1 hfind o ho)
    | some o' =>
      have hsame' : s.same o' l = true := List.find?_some (p := fun o => s.same o l) hfind
      have howner : ((env.here.before?.bind fun s => env.owners.find? fun o => s.same o l)).getD l =
          o' := by
        rw [Option.mem_def.1 hs, Option.bind_some, hfind]
        rfl
      rw [howner]
      exact ⟨List.mem_of_find?_eq_some hfind, .inr ⟨s, hs, hsame'⟩⟩

theorem canonical_of_not_fixed (h : ¬ Fixed env.owners env.here.before? l) : canonical env l = l := by
  unfold canonical
  rw [if_neg (by simpa using fun hl => h (.inl hl))]
  cases hs : env.here.before? with
  | none => rfl
  | some s =>
    have hnone : env.owners.find? (fun o => s.same o l) = none :=
      List.find?_eq_none.2 fun o ho hsame => h (.inr ⟨s, hs, o, ho, hsame⟩)
    rw [Option.bind_some, hnone]
    rfl

/-- The fixed owners are those that are their own representatives. -/
theorem fixed_iff : canonical env l ∈ env.owners ↔ Fixed env.owners env.here.before? l := by
  refine ⟨fun hl => ?_, fun hl => (canonical_of_fixed hl).1⟩
  by_contra hnot
  rw [canonical_of_not_fixed hnot] at hl
  exact hnot (.inl hl)

/-! ## Keys -/

/-- The key of a fixed owner, which is an input of the whole proof. -/
def fixedKey (p : Program) (l : Label) : Wire := ⟨keyName p l, .key, .boundary, none⟩

/-- What looks up the key of a variable's owner. -/
def fetchKey (p : Program) (s : Settings) (v : VarId) : Solidity.Expr :=
  .method (pki s) "getPk" [.ident (p.varName v) v]

/-- The input with the key of an owner who is not fixed. -/
def freshKey (p : Program) (inputs : Circuit.Stream) (v : VarId) : Wire :=
  (inputs.issueAs (inputs.nextName .key ++ "_" ++ p.varName v) .key).1

/-- The keys that are looked up once, with one more. -/
def withKey (keys : List Label) (l : Label) : List Label := if keys.contains l then keys else keys ++ [l]

theorem subset_withKey (keys : List Label) (l : Label) : keys ⊆ withKey keys l ∧ l ∈ withKey keys l := by
  unfold withKey
  split
  · rename_i hl
    exact ⟨List.Subset.refl _, List.contains_iff_mem.1 hl⟩
  · exact ⟨List.subset_append_left _ _, by simp⟩

theorem publicKey_cases {k : Wire} (h : Yields (publicKey env l) σ k τ) :
    (Fixed env.owners env.here.before? l ∧ k = fixedKey env.program (canonical env l) ∧
      τ = { σ with keys := withKey σ.keys (canonical env l) }) ∨
    ∃ v, l = .var v ∧ ¬ Fixed env.owners env.here.before? l ∧ k = freshKey env.program σ.inputs v ∧
      τ = { σ with
        inputs := { σ.inputs with wires := σ.inputs.wires ++ [k] }
        pre := σ.pre ++ [.assign (env.member k) (fetchKey env.program env.settings v)] } := by
  unfold publicKey at h
  dsimp only at h
  split at h
  · rename_i hl
    simp only [Yields.bind_iff, Yields.modify_iff, Yields.pure_iff] at h
    obtain ⟨_, _, rfl, rfl, rfl⟩ := h
    exact .inl ⟨fixed_iff.1 (List.contains_iff_mem.1 hl), rfl, rfl⟩
  rename_i hl
  have hnot : ¬ Fixed env.owners env.here.before? l := fun hfixed =>
    hl (List.contains_iff_mem.2 (fixed_iff.2 hfixed))
  split at h
  · rename_i v hv
    rw [canonical_of_not_fixed hnot] at hv
    obtain ⟨_, _, hget, hkey⟩ := Yields.bind_iff.1 h
    obtain ⟨rfl, rfl⟩ := Yields.get_iff.1 hget
    split at hkey
    · obtain ⟨_, _, hthrow, -⟩ := Yields.bind_iff.1 hkey
      exact (Yields.throw_iff.1 hthrow).elim
    simp only [newInputFor, newInputAs, Yields.bind_iff, Yields.get_iff, Yields.modifyGet_iff,
      addPre_iff, Yields.pure_iff] at hkey
    obtain ⟨_, _, ⟨_, _, ⟨rfl, rfl⟩, rfl, rfl⟩, _, _, rfl, rfl, rfl⟩ := hkey
    exact .inr ⟨v, hv, hnot, rfl, rfl⟩
  · exact (Yields.throw_iff.1 h).elim

/-- The sender's key is fixed. -/
theorem publicKey_me {k : Wire} (h : Yields (publicKey env .me) σ k τ) :
    τ = { σ with keys := withKey σ.keys (canonical env .me) } := by
  rcases publicKey_cases h with ⟨-, -, h⟩ | ⟨v, hv, -⟩
  · exact h
  · cases hv

/-- A constraint and a note follow the key. -/
theorem encrypted_iff {cipher : Wire} {b : Bool} {u : Unit} :
    Yields (encrypted env name plain l cipher b) σ u τ ↔
      ∃ k ρ, Yields (publicKey env l)
        { σ with secrets := (σ.secrets.issueAs (name ++ "_R") .randomness).2 } k ρ ∧
        τ = { ρ with
          steps := ρ.steps ++
            [.encryption plain (σ.secrets.issueAs (name ++ "_R") .randomness).1 k cipher b]
          sealed := ρ.sealed ++ [⟨cipher, k, l, env.here⟩] } := by
  simp only [encrypted, newSecretAs, Yields.bind_iff, Yields.modifyGet_iff, emit_iff, noteSealed_iff]
  constructor
  · rintro ⟨_, _, ⟨rfl, rfl⟩, k, ρ, hk, _, _, rfl, rfl⟩
    exact ⟨k, ρ, hk, rfl⟩
  · rintro ⟨k, ρ, hk, rfl⟩
    exact ⟨_, _, ⟨rfl, rfl⟩, k, ρ, hk, ⟨⟩, _, rfl, rfl⟩

/-- What is encrypted for the sender adds a secret only. -/
theorem encrypted_me {cipher : Wire} {b : Bool} {u : Unit}
    (h : Yields (encrypted env name plain .me cipher b) σ u τ) : τ.inputs = σ.inputs ∧
      τ.outputs = σ.outputs ∧ τ.calls = σ.calls ∧
      τ.secrets = (σ.secrets.issueAs (name ++ "_R") .randomness).2 := by
  obtain ⟨k, ρ, hk, rfl⟩ := encrypted_iff.1 h
  obtain rfl := publicKey_me hk
  exact ⟨rfl, rfl, rfl, rfl⟩

/-- Parameters are encrypted one by one: each is a secret, and its ciphertext is an input. -/
theorem encryptParams_cons {u : ContractEnv} {v : VarId} {vs : List VarId}
    {ws : List (VarId × Wire)} (h : Yields (u.encryptParams env (v :: vs)) σ ws τ) :
    ∃ plain cipher ρ ws', ws = (v, cipher.1) :: ws' ∧
      plain = σ.secrets.issueAs (u.program.varName v) (u.program.var v).type.type.toAbstract ∧
      cipher = σ.inputs.issueAs (σ.inputs.nextName .cipher ++ "_" ++ u.program.varName v) .cipher ∧
      Yields (encrypted env plain.1.name plain.1 .me cipher.1 false)
        { σ with secrets := plain.2, inputs := cipher.2 } ⟨⟩ ρ ∧
      Yields (u.encryptParams env vs) ρ ws' τ := by
  simp only [ContractEnv.encryptParams, ContractEnv.encryptParam, newSecretAs, newInputFor, newInputAs,
    Yields.bind_iff, Yields.get_iff, Yields.modifyGet_iff, Yields.pure_iff] at h
  obtain ⟨_, ρ, ⟨_, _, ⟨rfl, rfl⟩, _, _, ⟨_, _, ⟨rfl, rfl⟩, rfl, rfl⟩, _, _, henc, rfl, rfl⟩, ws', _,
    hws, rfl, rfl⟩ := h
  exact ⟨_, _, ρ, ws', rfl, rfl, rfl, henc, hws⟩

/-! ## Values -/

theorem newTemporary_iff : Yields (newTemporary t value) σ w τ ↔
    w = { (σ.temporaries.issue t none).1 with origin := some value } ∧ τ = { σ with
      temporaries := (σ.temporaries.issue t none).2.setOrigin (σ.temporaries.nextName t) value
      steps := σ.steps ++ [.declare (σ.temporaries.issue t none).1 value] } := by
  simp only [newTemporary, Yields.bind_iff, Yields.modifyGet_iff, emit_iff, Yields.pure_iff]
  constructor
  · rintro ⟨_, _, ⟨rfl, rfl⟩, _, _, rfl, rfl, rfl⟩
    exact ⟨rfl, rfl⟩
  · rintro ⟨rfl, rfl⟩
    exact ⟨_, _, ⟨rfl, rfl⟩, ⟨⟩, _, rfl, rfl, rfl⟩

theorem newVersion_iff :
    Yields (newVersion name t value) σ w τ ↔
      w = (σ.temporaries.issueAs (σ.temporaries.nextName t ++ "_" ++ name) t).1 ∧ τ = { σ with
        temporaries := { σ.temporaries with wires := σ.temporaries.wires ++ [w] }
        steps := σ.steps ++ [.assign w value] } := by
  simp only [newVersion, Yields.bind_iff, Yields.modifyGet_iff, emit_iff, Yields.pure_iff]
  constructor
  · rintro ⟨_, _, ⟨rfl, rfl⟩, _, _, rfl, rfl, rfl⟩
    exact ⟨rfl, rfl⟩
  · rintro ⟨rfl, rfl⟩
    exact ⟨_, _, ⟨rfl, rfl⟩, ⟨⟩, _, rfl, rfl, rfl⟩

/-- A private value is moved in with the proof that it was decrypted correctly, a public one as it
is. -/
theorem input_cases {t : OwnedType} {text : String} {value : Solidity.Expr}
    (h : Yields (input env t text value) σ w τ) :
    (t.isPrivate = true ∧ ∃ cipher ρ,
      w = (σ.secrets.issue t.type.toAbstract none).1 ∧
      cipher = (σ.inputs.issue .cipher (some w.term)).1 ∧
      Yields (encrypted env cipher.name w .me cipher true) { σ with
        secrets := (σ.secrets.issue t.type.toAbstract none).2
        inputs := (σ.inputs.issue .cipher (some w.term)).2 } ⟨⟩ ρ ∧
      τ = { ρ with
        steps := ρ.steps ++ [.comment (cipher.name ++ " (dec: " ++ w.name ++ ") = " ++ text)]
        pre := ρ.pre ++ [.assign (env.member cipher) value] }) ∨
    (t.isPrivate = false ∧ w = (σ.inputs.issue t.type.toAbstract none).1 ∧ τ = { σ with
      inputs := (σ.inputs.issue t.type.toAbstract none).2
      steps := σ.steps ++ [.comment (w.name ++ " = " ++ text)]
      pre := σ.pre ++ [.assign (env.member w) value] }) := by
  unfold input at h
  dsimp only at h
  split at h
  · rename_i ht
    simp only [newSecret, newInput, comment, Yields.bind_iff, Yields.modifyGet_iff, emit_iff,
      addPre_iff, Yields.pure_iff] at h
    obtain ⟨_, _, ⟨rfl, rfl⟩, _, _, ⟨rfl, rfl⟩, _, ρ, henc, _, _, rfl, _, _, rfl, rfl, rfl⟩ := h
    exact .inl ⟨ht, _, ρ, rfl, rfl, henc, rfl⟩
  · rename_i ht
    simp only [newInput, comment, Yields.bind_iff, Yields.modifyGet_iff, emit_iff, addPre_iff,
      Yields.pure_iff] at h
    obtain ⟨_, _, ⟨rfl, rfl⟩, _, _, rfl, _, _, rfl, rfl, rfl⟩ := h
    exact .inr ⟨by simpa using ht, rfl, rfl⟩

/-- A value is published in the open, or encrypted for its owner. -/
theorem publish_cases {out : Wire} (h : Yields (publish env plain l t) σ out τ) :
    (l = .all ∧ out = (σ.outputs.issue t plain.origin).1 ∧ τ = { σ with
      outputs := (σ.outputs.issue t plain.origin).2, steps := σ.steps ++ [.equal plain out] }) ∨
    (l ≠ .all ∧ ∃ origin, out = (σ.outputs.issue .cipher origin).1 ∧
      Yields (encrypted env out.name plain l out false)
        { σ with outputs := (σ.outputs.issue .cipher origin).2 } ⟨⟩ τ) := by
  unfold publish at h
  split at h
  · rename_i hl
    simp only [newOutput, Yields.bind_iff, Yields.modifyGet_iff, emit_iff, Yields.pure_iff] at h
    obtain ⟨_, _, ⟨rfl, rfl⟩, _, _, rfl, rfl, rfl⟩ := h
    exact .inl ⟨hl, rfl, rfl⟩
  · rename_i hl
    simp only [newOutput, Yields.bind_iff, Yields.modifyGet_iff, Yields.pure_iff] at h
    obtain ⟨_, _, ⟨rfl, rfl⟩, _, _, henc, rfl, rfl⟩ := h
    exact .inr ⟨hl, _, rfl, henc⟩

end Shroud.Lowering
