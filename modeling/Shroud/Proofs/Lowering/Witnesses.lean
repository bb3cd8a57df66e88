import Shroud.Proofs.Lowering.Names

/-! # Witnesses of wrappers

The circuit of a wrapper takes two secrets (`witnesses`) for each encrypted parameter: one that is
named like the parameter, and the randomness of its encryption, whose name is longer by a mark. The
names of a function's parameters are different, so two secrets have the same name just where one
parameter is named like the randomness of another. Circuits of bodies are in `Names`.
-/

namespace Shroud

/-- The names of the encrypted parameters of a function. -/
def Program.encryptedParams (p : Program) (f : FunctionId) : List String :=
  ((p.function f).params.filter fun v => (p.var v).type.isPrivate).map p.varName

namespace Lowering

open Circuit (Wire Stream)

/-- The secrets that come with an encrypted parameter: its value, and randomness. -/
def witnesses (name : String) : List String := [name, name ++ "_R"]

theorem ne_append_mark (n : String) : n ≠ n ++ "_R" := by
  intro h
  have hlen := congrArg String.length h
  rw [String.length_append] at hlen
  have hmark : "_R".length = 2 := by decide
  omega

/-- Different parameters share a secret just where one is named like the randomness of another. -/
theorem nodup_witnesses_iff {names : List String} (h : names.Nodup) :
    (names.flatMap witnesses).Nodup ↔ ∀ n ∈ names, n ++ "_R" ∉ names := by
  rw [List.nodup_flatMap]
  constructor
  · rintro ⟨-, hpairs⟩ n hn hmark
    have : Std.Symm (Function.onFun List.Disjoint witnesses) := ⟨fun _ _ => List.Disjoint.symm⟩
    have hdisjoint : List.Disjoint (witnesses n) (witnesses (n ++ "_R")) :=
      hpairs.forall hn hmark (ne_append_mark n)
    exact hdisjoint (a := n ++ "_R") (by simp [witnesses]) (by simp [witnesses])
  · intro hfree
    refine ⟨fun n _ => by simp [witnesses, ne_append_mark n], h.imp_of_mem fun {m n} hm hn hne => ?_⟩
    have hmarks : m ++ "_R" ≠ n ++ "_R" := fun heq => hne ((String.append_left_inj _).1 heq)
    have hleft : m ≠ n ++ "_R" := fun heq => hfree n hn (heq ▸ hm)
    have hright : m ++ "_R" ≠ n := fun heq => hfree m hm (heq ▸ hn)
    simp [Function.onFun, List.Disjoint, witnesses, hne, hleft, hright, hmarks]

variable {u : ContractEnv} {f : FunctionId} {σ τ : State}

theorem encryptParams_secrets {env : Env} {vs : List VarId} {ws : List (VarId × Wire)}
    (h : Yields (u.encryptParams env vs) σ ws τ) :
    τ.secrets.names = σ.secrets.names ++ (vs.map u.program.varName).flatMap witnesses := by
  induction vs generalizing σ ws with
  | nil =>
    obtain ⟨-, rfl⟩ := Yields.pure_iff.1 h
    simp
  | cons v vs ih =>
    obtain ⟨plain, cipher, ρ, ws', rfl, rfl, rfl, henc, hws⟩ := encryptParams_cons h
    obtain ⟨-, -, -, hsecrets⟩ := encrypted_me henc
    rw [ih hws, hsecrets]
    simp [Stream.names, Stream.issueAs, witnesses]

/-- The secrets of a wrapper's circuit are those of its parameters. -/
theorem wrapperCircuit_secrets {keys : List Label} {r : List (VarId × Wire) × List (Label × Wire)}
    {c : State} (h : Yields (u.wrapperCircuit f keys) (.new u.settings) r c) :
    c.secrets.names = (u.program.encryptedParams f).flatMap witnesses := by
  obtain ⟨ρ, υ, hparams, hks, hcall⟩ := wrapperCircuit_cases h
  have hsecrets := encryptParams_secrets hparams
  obtain ⟨-, rfl⟩ := inputKeys_wires hks
  rcases hcall with ⟨-, rfl⟩ | rfl
  · exact hsecrets
  · exact hsecrets

/-- A circuit with proofs of its own is that of a function's wrapper. -/
theorem Emitted.secrets_of_verifier {k : Solidity.Contract} {cs : List Circuit} (e : Emitted u k cs)
    {c : Circuit} (hc : c ∈ cs) (hv : c.verifier ≠ none) : ∃ l ∈ e.patched,
      c.contract = u.contractName ∧ c.function = (u.function l.id).uniqueName ∧
      c.secrets.map Circuit.Slot.name = (u.program.encryptedParams l.id).flatMap witnesses := by
  obtain ⟨l, hl, ⟨r, hr, rfl⟩ | ⟨l₀, below, -, -, -, -, rfl⟩⟩ := e.circuit_cases hc
  · obtain ⟨body, wires, circuit, -, hcircuit, heq⟩ := circuit_of_wrapper hr
    rw [heq]
    exact ⟨l, hl, rfl, rfl, (map_name_layout _).trans (wrapperCircuit_secrets hcircuit)⟩
  · exact absurd rfl hv

end Lowering

namespace SourceUnit

open Lowering

/-- The parameters of a checked function have different names. -/
theorem check_paramNames {u : SourceUnit} {p : Program} (h : Passes u.check p) {f : FunctionId}
    (hf : p.Has f) : ((p.function f).params.map p.varName).Nodup := by
  obtain ⟨_, _, hscoped, -⟩ := (check_checked h).names.function f hf
  obtain ⟨names, hnames⟩ := hscoped.names
  exact hnames.varName ▸ hnames.nodup

/-- **Wrapper witnesses clash just where a parameter is named like the randomness of another.** A
circuit with proofs of its own has two secrets for each encrypted parameter of its function, its value
and the randomness of its encryption. The secrets are named differently if and only if no encrypted
parameter has the name of another with the mark of randomness. -/
theorem compile_witnesses_distinct_iff {u : SourceUnit} {s : Settings} {out : Compilation}
    (h : Passes (u.compile s) out) {c : Circuit} (hc : c ∈ out.circuits) (hv : c.verifier ≠ none) :
    ∃ p f, Passes u.check p ∧ f.index < p.functions.length ∧
      c.contract = (p.contract (p.function f).contract).name ∧
      c.function = (p.function f).uniqueName ∧ (p.encryptedParams f).Nodup ∧
      c.secrets.map Circuit.Slot.name =
        (p.encryptedParams f).flatMap (fun n => [n, n ++ "_R"]) ∧
      ((c.secrets.map Circuit.Slot.name).Nodup ↔
        ∀ n ∈ p.encryptedParams f, n ++ "_R" ∉ p.encryptedParams f) := by
  obtain ⟨p, i, _, _, hp, -, ⟨e⟩, hc⟩ := emitted_of_mem_circuits h hc
  obtain ⟨l, hl, hcontract, hfunction, hsecrets⟩ := e.secrets_of_verifier hc hv
  obtain ⟨hf, howner⟩ := e.owned hp hl
  have hnodup : (p.encryptedParams l.id).Nodup :=
    (check_paramNames hp hf).sublist (List.filter_sublist.map _)
  refine ⟨p, l.id, hp, hf, ?_, hfunction, hnodup, hsecrets, ?_⟩
  · rw [hcontract, show (p.function l.id).contract = i from howner]
    rfl
  · rw [hsecrets]
    exact nodup_witnesses_iff hnodup

/-- Two encrypted parameters, the second named like the randomness of the first. -/
def clashing : SourceUnit := .single "Clashing" [{ name := "s", type := .mk (.uint 8) .me }] [{
  name := "f"
  params := [
    { name := "v", type := .mk (.uint 8) .me },
    { name := "v_R", type := .mk (.uint 8) .me }]
  body := [.assign {} "s" none "v"] }]

theorem clashing_secrets : ∃ out, Passes (clashing.compile {}) out ∧ ∃ c ∈ out.circuits,
    c.verifier ≠ none ∧ c.secrets.map Circuit.Slot.name = ["v", "v_R", "v_R", "v_R_R"] := by
  have hrun : Passes.test (clashing.compile {}) (fun out => out.circuits.any fun c =>
      c.verifier ≠ none ∧ c.secrets.map Circuit.Slot.name = ["v", "v_R", "v_R", "v_R_R"]) = true := by
    decide +kernel
  obtain ⟨out, hout, hany⟩ := Passes.of_test hrun
  obtain ⟨c, hc, hsecrets⟩ := List.any_eq_true.1 hany
  exact ⟨out, hout, c, hc, of_decide_eq_true hsecrets⟩

/-- The randomness of one parameter and the value of another are named alike. -/
theorem clashing_witnesses : ∃ out, Passes (clashing.compile {}) out ∧ ∃ c ∈ out.circuits,
    c.verifier ≠ none ∧ c.secrets.map Circuit.Slot.name = ["v", "v_R", "v_R", "v_R_R"] ∧
      ¬ (c.secrets.map Circuit.Slot.name).Nodup := by
  obtain ⟨out, hout, c, hc, hv, hnames⟩ := clashing_secrets
  exact ⟨out, hout, c, hc, hv, hnames, by rw [hnames]; decide⟩

/-- The parameters of the circuit's function are those that clash. -/
theorem compile_witnesses_distinct_iff_clashing : ∃ out, Passes (clashing.compile {}) out ∧
    ∃ c ∈ out.circuits, c.verifier ≠ none ∧
      c.secrets.map Circuit.Slot.name = ["v", "v_R", "v_R", "v_R_R"] ∧
      ∃ p f, Passes clashing.check p ∧ c.function = (p.function f).uniqueName ∧
        ∃ n ∈ p.encryptedParams f, n ++ "_R" ∈ p.encryptedParams f := by
  obtain ⟨out, hout, c, hc, hv, hnames⟩ := clashing_secrets
  have hclash : ¬ (c.secrets.map Circuit.Slot.name).Nodup := by
    rw [hnames]
    decide
  obtain ⟨p, f, hp, -, -, hfunction, -, -, hiff⟩ := compile_witnesses_distinct_iff hout hc hv
  have hmark : ∃ n ∈ p.encryptedParams f, n ++ "_R" ∈ p.encryptedParams f := by
    by_contra hfree
    exact hclash (hiff.2 fun n hn hmark => hfree ⟨n, hn, hmark⟩)
  exact ⟨out, hout, c, hc, hv, hnames, p, f, hp, hfunction, hmark⟩

end SourceUnit

end Shroud
