import Shroud.Proofs.Lowering.Emitted
import Shroud.Proofs.Lowering.Regime

/-! # Circuits are well-formed

Building a circuit only ever adds steps to it, between guards that it closes again: this is `GrowsBy`,
and `growth` is its regime. A step that is added reads what the buffers hold, keys, and temporaries
(`State.known`); every temporary is issued right when a step defines it, under a name that holds its
number. The names of the buffers themselves are compared in `Names`.
-/

namespace Shroud

open Circuit (Term Wire Step Stream)

/-! ## Numbered names -/

section Underscores

variable {a b a' b' : String}

/-- Two divisions of a name at an underscore are the same, or one is inside a part of the other. -/
theorem append_underscore_cases (h : a ++ "_" ++ b = a' ++ "_" ++ b') :
    (a = a' ∧ b = b') ∨ (∃ d, a' = a ++ "_" ++ d ∧ b = d ++ "_" ++ b') ∨
      ∃ d, a = a' ++ "_" ++ d ∧ b' = d ++ "_" ++ b := by
  have hlist : a.toList ++ '_' :: b.toList = a'.toList ++ '_' :: b'.toList := by
    simpa using congrArg String.toList h
  simp only [← String.toList_inj, String.toList_append]
  rcases List.append_eq_append_iff.1 hlist with ⟨_ | ⟨c, d⟩, ha, hb⟩ | ⟨_ | ⟨c, d⟩, ha, hb⟩
  · exact .inl (by simp_all)
  · exact .inr (.inl ⟨.ofList d, by simp_all [eq_comm]⟩)
  · exact .inl (by simp_all)
  · exact .inr (.inr ⟨.ofList d, by simp_all [eq_comm]⟩)

/-- A last part without an underscore can be read off. -/
theorem append_underscore_inj (h : a ++ "_" ++ b = a' ++ "_" ++ b') (hb : '_' ∉ b.toList)
    (hb' : '_' ∉ b'.toList) : a = a' ∧ b = b' := by
  rcases append_underscore_cases h with h | ⟨d, -, rfl⟩ | ⟨d, -, rfl⟩
  · exact h
  · simp at hb
  · simp at hb'

theorem underscore_notMem_repr (n : Nat) : '_' ∉ (Nat.repr n).toList := by
  rw [Nat.toList_repr]
  exact Nat.underscore_not_in_toDigits

end Underscores

namespace Circuit.Stream

variable {t : Stream} {rest : String} {t' : Stream}

def names (t : Stream) : List String := t.wires.map Wire.name

/-- A number can be read off a name that goes on with no digit. -/
theorem number_of_name {base rest' : String} {i j : Nat}
    (h : base ++ Nat.repr i ++ "_" ++ rest = base ++ Nat.repr j ++ "_" ++ rest') : i = j := by
  simp only [String.append_assoc, String.append_right_inj] at h
  rw [← String.append_assoc, ← String.append_assoc] at h
  rcases append_underscore_cases h with ⟨hij, -⟩ | ⟨d, hj, -⟩ | ⟨d, hi, -⟩
  · exact Nat.repr_inj.1 hij
  · exact absurd (underscore_notMem_repr j) (by simp [hj])
  · exact absurd (underscore_notMem_repr i) (by simp [hi])

/-- The names hold the numbers of the variables. -/
def Numbered (t : Stream) : Prop :=
  ∀ i x, t.names[i]? = some x → ∃ rest, x = t.base ++ Nat.repr i ++ "_" ++ rest

theorem Numbered.nodup (h : t.Numbered) : t.names.Nodup := by
  rw [List.nodup_iff_getElem?_ne_getElem?]
  intro i j hij hj heq
  obtain ⟨x, hx⟩ : ∃ x, t.names[j]? = some x := ⟨_, List.getElem?_eq_getElem hj⟩
  obtain ⟨rest, hrest⟩ := h i x (heq.trans hx)
  obtain ⟨rest', hrest'⟩ := h j x hx
  exact hij.ne (number_of_name (hrest.symm.trans hrest'))

theorem names_setOrigin (name : String) (e : Term) : (t.setOrigin name e).names = t.names := by
  unfold setOrigin
  split
  · rfl
  · rename_i i _
    refine List.ext_getElem? fun j => ?_
    simp only [names, List.getElem?_map, List.getElem?_modify]
    split <;> cases t.wires[j]? <;> rfl

theorem base_setOrigin (name : String) (e : Term) : (t.setOrigin name e).base = t.base := by
  unfold setOrigin
  split <;> rfl

theorem Numbered.congr (h : t.Numbered) (hb : t'.base = t.base) (hn : t'.names = t.names) :
    t'.Numbered := by
  unfold Numbered at *
  rwa [hb, hn]

/-- What holds of all names and their numbers holds with one name more. -/
theorem forall_names_push {P : Nat → String → Prop} {names : List String} {name : String}
    (h : ∀ i x, names[i]? = some x → P i x) (hname : P names.length name) :
    ∀ i x, (names ++ [name])[i]? = some x → P i x := by
  intro i x hx
  rcases lt_trichotomy i names.length with hi | rfl | hi
  · rw [List.getElem?_append_left hi] at hx
    exact h i x hx
  · rw [List.getElem?_concat_length] at hx
    cases hx
    exact hname
  · rw [List.getElem?_eq_none (by simpa using hi)] at hx
    cases hx

/-- A new variable whose name starts as the generated one keeps the numbering. -/
theorem Numbered.push (h : t.Numbered) (hb : t'.base = t.base) {name : String} {type : DataType}
    (hname : name = t.nextName type ++ rest) (hn : t'.names = t.names ++ [name]) : t'.Numbered := by
  rw [Numbered, hb, hn]
  refine forall_names_push h ⟨suffix type ++ rest, ?_⟩
  rw [hname, nextName, names, List.length_map, String.append_assoc, String.append_assoc]

@[simp] theorem names_issueAs (name : String) (type : DataType) :
    (t.issueAs name type).2.names = t.names ++ [name] := List.map_append

@[simp] theorem names_issue (type : DataType) (origin : Option Term) :
    (t.issue type origin).2.names = t.names ++ [t.nextName type] := List.map_append

theorem Numbered.issue (h : t.Numbered) (type : DataType) (origin : Option Term) :
    (t.issue type origin).2.Numbered :=
  h.push rfl String.append_empty.symm (names_issue type origin)

end Circuit.Stream

namespace Lowering

variable {p : Program} {s : Settings} {σ ρ τ : State} {u : ContractEnv} {w : Wire} {t : DataType}
  {env : Env} {unit : SourceUnit} {new : List Step} {plain : Wire} {value : Term} {step : Step}

/-! ## Growth -/

/-- The names that the buffers hold. -/
def State.slots (σ : State) : List String := σ.secrets.names ++ σ.inputs.names ++ σ.outputs.names

/-- What steps may read apart from temporaries. -/
def State.settled (p : Program) (σ : State) : Set String :=
  {x | x ∈ σ.slots ∨ x ∈ σ.keys.map (keyName p)}

/-- What steps may read. -/
def State.known (p : Program) (σ : State) : Set String :=
  σ.settled p ∪ {x | x ∈ σ.temporaries.names}

/-- The circuit grows by some steps. -/
structure GrowsBy (p : Program) (s : Settings) (σ : State) (new : List Step) (τ : State) : Prop where
  steps : τ.steps = σ.steps ++ new
  bracketed : Step.Bracketed (Step.flatten new)
  blocks : ∀ name inner, Step.block name inner ∈ Step.walkList new →
    Step.Bracketed (Step.flatten inner)
  temporaries : τ.temporaries.names = σ.temporaries.names ++ Step.defined (Step.flatten new)
  numbered : σ.temporaries.Numbered → τ.temporaries.Numbered
  calls : ∃ fs, τ.calls = σ.calls ++ fs ∧
    Step.called (Step.flatten new) = fs.map (circuitName p s)
  settled : σ.settled p ⊆ τ.settled p
  grounded : Step.Grounded (τ.settled p ∪ {x | x ∈ σ.temporaries.names}) (Step.flatten new)

/-- The circuit grows. -/
def Grows (p : Program) (s : Settings) (σ τ : State) : Prop := ∃ new, GrowsBy p s σ new τ

theorem GrowsBy.known (h : GrowsBy p s σ new τ) : σ.known p ⊆ τ.known p := by
  refine Set.union_subset_union h.settled fun x hx => ?_
  show x ∈ τ.temporaries.names
  rw [h.temporaries]
  exact List.mem_append_left _ hx

theorem Grows.known (h : Grows p s σ τ) : σ.known p ⊆ τ.known p := by
  obtain ⟨_, h⟩ := h
  exact h.known

/-- What may be read changes, and nothing else does. -/
theorem Grows.of_settled (hsteps : τ.steps = σ.steps) (htemps : τ.temporaries = σ.temporaries)
    (hcalls : τ.calls = σ.calls) (hsettled : σ.settled p ⊆ τ.settled p) : Grows p s σ τ := by
  refine ⟨[], by simpa using hsteps, Step.bracketed_nil, nofun, ?_, ?_, ⟨[], ?_, rfl⟩, hsettled,
    trivial⟩
  · simp [htemps]
  · rw [htemps]
    exact id
  · simpa using hcalls

theorem Grows.refl (σ : State) : Grows p s σ σ := .of_settled rfl rfl rfl subset_rfl

theorem GrowsBy.trans {new' : List Step} (h : GrowsBy p s σ new ρ) (h' : GrowsBy p s ρ new' τ) :
    GrowsBy p s σ (new ++ new') τ := by
  obtain ⟨fs, hfs, hcalled⟩ := h.calls
  obtain ⟨fs', hfs', hcalled'⟩ := h'.calls
  refine ⟨?_, ?_, ?_, ?_, h'.numbered ∘ h.numbered, ⟨fs ++ fs', ?_, ?_⟩,
    h.settled.trans h'.settled, ?_⟩
  · rw [h'.steps, h.steps, List.append_assoc]
  · rw [Step.flatten_append]
    exact h.bracketed.append h'.bracketed
  · intro name inner hmem
    rw [Step.walkList_append, List.mem_append] at hmem
    exact hmem.elim (h.blocks name inner) (h'.blocks name inner)
  · rw [h'.temporaries, h.temporaries, Step.flatten_append, Step.defined_append, List.append_assoc]
  · rw [hfs', hfs, List.append_assoc]
  · rw [Step.flatten_append, Step.called_append, hcalled, hcalled', List.map_append]
  · rw [Step.flatten_append, Step.grounded_append]
    refine ⟨h.grounded.mono (Set.union_subset_union_left _ h'.settled), h'.grounded.mono ?_⟩
    rw [h.temporaries, Set.union_assoc]
    refine Set.union_subset_union_right _ fun x hx => ?_
    exact List.mem_append.1 hx

theorem Grows.trans (h : Grows p s σ ρ) (h' : Grows p s ρ τ) : Grows p s σ τ := by
  obtain ⟨new, h⟩ := h
  obtain ⟨new', h'⟩ := h'
  exact ⟨new ++ new', h.trans h'⟩

/-- One step is added that is no mark of a guard or block and calls nothing; if it defines a
temporary, that one is issued. -/
theorem Grows.of_step {temporaries : Stream} (hb : step.isBlock = false) (hg : step.isGuard = false)
    (hc : step.callee? = none)
    (hd : temporaries.names = σ.temporaries.names ++ step.defined?.toList)
    (hn : σ.temporaries.Numbered → temporaries.Numbered) (hr : ∀ x ∈ step.reads, x ∈ σ.known p) :
    Grows p s σ { σ with temporaries, steps := σ.steps ++ [step] } := by
  have hflat : Step.flatten [step] = [step] := Step.flatten_singleton hb
  refine ⟨[step], rfl, ?_, ?_, ?_, hn, ⟨[], (List.append_nil _).symm, ?_⟩, subset_rfl, ?_⟩
  · rw [hflat]
    exact Step.bracketed_singleton hg
  · intro name inner hmem
    rw [Step.walkList_singleton hb, List.mem_singleton] at hmem
    subst hmem
    cases hb
  · rw [hflat, hd, Step.defined, List.filterMap_cons]
    cases step.defined? <;> rfl
  · rw [hflat, Step.called, List.filterMap_cons, hc]
    rfl
  · rw [hflat]
    exact ⟨hr, trivial⟩

/-- A constraint or a comment is added. -/
theorem Grows.emit (hb : step.isBlock = false) (hg : step.isGuard = false)
    (hc : step.callee? = none) (hd : step.defined? = none) (hr : ∀ x ∈ step.reads, x ∈ σ.known p) :
    Grows p s σ { σ with steps := σ.steps ++ [step] } :=
  .of_step hb hg hc (by rw [hd]; exact (List.append_nil _).symm) id hr

theorem Grows.call (f : FunctionId) : Grows p s σ { σ with
    calls := σ.calls ++ [f], steps := σ.steps ++ [.call (circuitName p s f)] } := by
  refine ⟨[.call (circuitName p s f)], rfl, rfl, ?_, ?_, id, ⟨[f], rfl, rfl⟩, subset_rfl, ?_⟩
  · intro name inner hmem
    rw [Step.walkList_singleton rfl, List.mem_singleton] at hmem
    cases hmem
  · exact (List.append_nil _).symm
  · exact ⟨nofun, trivial⟩

theorem Grows.block (name : String) (h : Grows p s { σ with steps := [] } τ) :
    Grows p s σ { τ with
      steps := if τ.steps.isEmpty then σ.steps else σ.steps ++ [.block name τ.steps] } := by
  obtain ⟨new, h⟩ := h
  have hsteps : τ.steps = new := h.steps
  by_cases hempty : τ.steps = []
  · rw [if_pos (List.isEmpty_iff.2 hempty)]
    obtain rfl : new = [] := hsteps.symm.trans hempty
    exact ⟨[], (List.append_nil _).symm, h.bracketed, h.blocks, h.temporaries, h.numbered, h.calls,
      h.settled, h.grounded⟩
  · rw [if_neg (by simpa using hempty), hsteps]
    refine ⟨[.block name new], rfl, ?_, ?_, ?_, h.numbered, ?_, h.settled, ?_⟩
    · rw [Step.flatten_block]
      exact h.bracketed
    · intro name' inner hmem
      rw [Step.walkList, Step.walk, Step.walkList, List.append_nil, List.mem_cons] at hmem
      rcases hmem with hmem | hmem
      · cases hmem
        exact h.bracketed
      · exact h.blocks name' inner hmem
    · rw [Step.flatten_block]
      exact h.temporaries
    · rw [Step.flatten_block]
      exact h.calls
    · rw [Step.flatten_block]
      exact h.grounded

theorem Grows.guard {cond : Wire} (holds : Bool) (hc : cond.name ∈ σ.known p)
    (h : Grows p s { σ with steps := σ.steps ++ [.enterGuard cond.name holds] } τ) :
    Grows p s σ { τ with steps := τ.steps ++ [.leaveGuard] } := by
  obtain ⟨new, h⟩ := h
  have hflat : Step.flatten (.enterGuard cond.name holds :: new ++ [.leaveGuard]) =
      .enterGuard cond.name holds :: Step.flatten new ++ [.leaveGuard] := by
    rw [← List.singleton_append, Step.flatten_append, Step.flatten_append,
      Step.flatten_singleton rfl, Step.flatten_singleton rfl]
    rfl
  refine ⟨.enterGuard cond.name holds :: new ++ [.leaveGuard], ?_, ?_, ?_, ?_, h.numbered, ?_,
    h.settled, ?_⟩
  · show τ.steps ++ [.leaveGuard] = _
    rw [h.steps]
    simp
  · rw [hflat]
    exact h.bracketed.guarded _ _
  · intro name inner hmem
    rw [← List.singleton_append, Step.walkList_append, Step.walkList_append,
      Step.walkList_singleton rfl, Step.walkList_singleton rfl] at hmem
    exact h.blocks name inner (by simpa using hmem)
  · rw [hflat, Step.defined_append]
    exact h.temporaries.trans (congrArg _ (List.append_nil _).symm)
  · obtain ⟨fs, hfs, hcalled⟩ := h.calls
    refine ⟨fs, hfs, ?_⟩
    rw [hflat, Step.called_append]
    exact (List.append_nil _).trans hcalled
  · rw [hflat, Step.grounded_append]
    refine ⟨⟨?_, h.grounded.mono Set.subset_union_left⟩, nofun, trivial⟩
    intro x hx
    obtain rfl := List.mem_singleton.1 hx
    exact Set.union_subset_union_left _ h.settled hc

/-! ## Values that cross the boundary -/

theorem State.settled_mono (hs : σ.secrets.names ⊆ τ.secrets.names)
    (hi : σ.inputs.names ⊆ τ.inputs.names) (ho : σ.outputs.names ⊆ τ.outputs.names)
    (hk : σ.keys ⊆ τ.keys) : σ.settled p ⊆ τ.settled p := by
  rintro x (hx | hx)
  · left
    simp only [slots, List.mem_append] at hx ⊢
    rcases hx with (hx | hx) | hx
    · exact .inl (.inl (hs hx))
    · exact .inl (.inr (hi hx))
    · exact .inr (ho hx)
  · exact .inr (List.map_subset _ hk hx)

/-- A variable is issued, in a buffer or as a key, and nothing else happens to the circuit. -/
structure Widens (p : Program) (σ : State) (w : Wire) (τ : State) : Prop where
  steps : τ.steps = σ.steps
  temporaries : τ.temporaries = σ.temporaries
  calls : τ.calls = σ.calls
  settled : σ.settled p ⊆ τ.settled p
  mem : w.name ∈ τ.settled p

namespace Widens

variable {w : Wire} {t : DataType} {name : String} {origin : Option Term}

theorem grows (h : Widens p σ w τ) (s : Settings) : Grows p s σ τ :=
  .of_settled h.steps h.temporaries h.calls h.settled

theorem mem_known (h : Widens p σ w τ) : w.name ∈ τ.known p := .inl h.mem

theorem of_secrets {secrets : Stream} (h : secrets.names = σ.secrets.names ++ [w.name]) :
    Widens p σ w { σ with secrets } := by
  have hsub : σ.secrets.names ⊆ secrets.names := h ▸ List.subset_append_left _ _
  refine ⟨rfl, rfl, rfl, State.settled_mono hsub (List.Subset.refl _) (List.Subset.refl _)
    (List.Subset.refl _), .inl ?_⟩
  simp [State.slots, h]

theorem of_inputs {inputs : Stream} (h : inputs.names = σ.inputs.names ++ [w.name]) :
    Widens p σ w { σ with inputs } := by
  have hsub : σ.inputs.names ⊆ inputs.names := h ▸ List.subset_append_left _ _
  refine ⟨rfl, rfl, rfl, State.settled_mono (List.Subset.refl _) hsub (List.Subset.refl _)
    (List.Subset.refl _), .inl ?_⟩
  simp [State.slots, h]

theorem of_outputs {outputs : Stream} (h : outputs.names = σ.outputs.names ++ [w.name]) :
    Widens p σ w { σ with outputs } := by
  have hsub : σ.outputs.names ⊆ outputs.names := h ▸ List.subset_append_left _ _
  refine ⟨rfl, rfl, rfl, State.settled_mono (List.Subset.refl _) (List.Subset.refl _) hsub
    (List.Subset.refl _), .inl ?_⟩
  simp [State.slots, h]

theorem newInputAs (h : Yields (newInputAs name t) σ w τ) : Widens p σ w τ := by
  obtain ⟨rfl, rfl⟩ := Yields.modifyGet_iff.1 h
  exact of_inputs (Stream.names_issueAs name t)

theorem pre (h : Widens p σ w τ) (stmts : List Solidity.Stmt) :
    Widens p σ w { τ with pre := stmts } := ⟨h.steps, h.temporaries, h.calls, h.settled, h.mem⟩

theorem publicKey {l : Label} (h : Yields (publicKey env l) σ w τ) : Widens env.program σ w τ := by
  rcases publicKey_cases h with ⟨-, rfl, rfl⟩ | ⟨v, -, -, rfl, rfl⟩
  · obtain ⟨hsub, hmem⟩ := subset_withKey σ.keys (canonical env l)
    exact ⟨rfl, rfl, rfl, State.settled_mono (List.Subset.refl _) (List.Subset.refl _)
      (List.Subset.refl _) hsub, .inr (List.mem_map_of_mem hmem)⟩
  · exact (of_inputs (Stream.names_issueAs _ _)).pre _

end Widens

theorem Grows.encrypted {randomness : String} {cipher : Wire} {l : Label} {isDecryption : Bool}
    {u : Unit} (h : Yields (encrypted env randomness plain l cipher isDecryption) σ u τ)
    (hplain : plain.name ∈ σ.known env.program) (hcipher : cipher.name ∈ σ.known env.program) :
    Grows env.program s σ τ := by
  obtain ⟨k, ρ', hk, rfl⟩ := encrypted_iff.1 h
  let r := (σ.secrets.issueAs (randomness ++ "_R") .randomness).1
  have hwr : Widens env.program σ r _ := .of_secrets (Stream.names_issueAs _ .randomness)
  have hwk := Widens.publicKey hk
  have hgrows : Grows env.program s σ ρ' := (hwr.grows s).trans (hwk.grows s)
  have hconstraint : Grows env.program s ρ' { ρ' with
      steps := ρ'.steps ++ [.encryption plain r k cipher isDecryption] } := by
    refine .emit rfl rfl rfl rfl ?_
    simp only [Step.reads, List.mem_cons, List.not_mem_nil, or_false, forall_eq_or_imp, forall_eq]
    exact ⟨hgrows.known hplain, (hwk.grows s).known hwr.mem_known, hwk.mem_known, hgrows.known hcipher⟩
  exact hgrows.trans (hconstraint.trans (.of_settled rfl rfl rfl subset_rfl))

/-- A comment and what is noted elsewhere read nothing. -/
theorem Grows.noted (text : String) (pre : List Solidity.Stmt) :
    Grows p s σ { σ with steps := σ.steps ++ [.comment text], pre } := by
  have hcomment : Grows p s σ { σ with steps := σ.steps ++ [.comment text] } :=
    .emit rfl rfl rfl rfl nofun
  exact hcomment.trans (.of_settled rfl rfl rfl subset_rfl)

theorem Grows.input {t : OwnedType} {text : String} {value : Solidity.Expr}
    (h : Yields (input env t text value) σ w τ) :
    Grows env.program s σ τ ∧ w.name ∈ τ.known env.program := by
  rcases input_cases h with ⟨-, cipher, ρ, rfl, rfl, henc, rfl⟩ | ⟨-, rfl, rfl⟩
  · let plain := (σ.secrets.issue t.type.toAbstract none).1
    have hp : Widens env.program σ plain _ := .of_secrets (Stream.names_issue _ none)
    have hc : Widens env.program { σ with secrets := (σ.secrets.issue t.type.toAbstract none).2 }
        (σ.inputs.issue .cipher (some plain.term)).1 _ :=
      .of_inputs (Stream.names_issue .cipher (some plain.term))
    have hmem := (hc.grows s).known hp.mem_known
    have hgrows : Grows env.program s _ ρ := .encrypted henc hmem hc.mem_known
    exact ⟨(hp.grows s).trans ((hc.grows s).trans (hgrows.trans (.noted _ _))),
      (Grows.noted (s := s) _ _).known (hgrows.known hmem)⟩
  · have hw : Widens env.program σ (σ.inputs.issue t.type.toAbstract none).1 _ :=
      .of_inputs (Stream.names_issue _ none)
    exact ⟨(hw.grows s).trans (.noted _ _), (Grows.noted (s := s) _ _).known hw.mem_known⟩

theorem Grows.publish {l : Label} (h : Yields (publish env plain l t) σ w τ)
    (hplain : plain.name ∈ σ.known env.program) : Grows env.program s σ τ := by
  rcases publish_cases h with ⟨-, rfl, rfl⟩ | ⟨-, origin, rfl, henc⟩
  · have hw : Widens env.program σ (σ.outputs.issue t plain.origin).1 _ :=
      .of_outputs (Stream.names_issue t plain.origin)
    refine (hw.grows s).trans (.emit rfl rfl rfl rfl ?_)
    simp only [Step.reads, List.mem_cons, List.not_mem_nil, or_false, forall_eq_or_imp, forall_eq]
    exact ⟨(hw.grows s).known hplain, hw.mem_known⟩
  · have hw : Widens env.program σ (σ.outputs.issue .cipher origin).1 _ :=
      .of_outputs (Stream.names_issue .cipher origin)
    exact (hw.grows s).trans (.encrypted henc ((hw.grows s).known hplain) hw.mem_known)

/-! ## Temporaries -/

theorem Grows.newTemporary (h : Yields (newTemporary t value) σ w τ)
    (hv : ∀ x ∈ value.wires, x ∈ σ.known p) : Grows p s σ τ ∧ w.name ∈ τ.known p := by
  obtain ⟨rfl, rfl⟩ := newTemporary_iff.1 h
  have hnames := (σ.temporaries.issue t none).2.names_setOrigin (σ.temporaries.nextName t) value
  rw [Stream.names_issue] at hnames
  have hmem := List.mem_append_right σ.temporaries.names
    (List.mem_singleton_self (σ.temporaries.nextName t))
  have hname : σ.temporaries.nextName t = σ.temporaries.nextName t ++ "" := String.append_empty.symm
  rw [← hnames] at hmem
  refine ⟨.of_step rfl rfl rfl hnames (fun hn => ?_) hv, .inr hmem⟩
  exact hn.push (Stream.base_setOrigin _ _) hname hnames

theorem Grows.newVersion {name : String} (h : Yields (newVersion name t value) σ w τ)
    (hv : ∀ x ∈ value.wires, x ∈ σ.known p) : Grows p s σ τ ∧ w.name ∈ τ.known p := by
  obtain ⟨rfl, rfl⟩ := newVersion_iff.1 h
  have hnames := σ.temporaries.names_issueAs (σ.temporaries.nextName t ++ "_" ++ name) t
  have hmem := List.mem_append_right σ.temporaries.names
    (List.mem_singleton_self (σ.temporaries.nextName t ++ "_" ++ name))
  rw [← hnames] at hmem
  refine ⟨.of_step rfl rfl rfl hnames (fun hn => ?_) hv, .inr hmem⟩
  exact hn.push rfl (String.append_assoc ..) hnames

/-! ## Whole circuits -/

/-- Circuits grow. -/
def growth (base : Env) : Regime base where
  term σ t := ∀ x ∈ t.wires, x ∈ σ.known base.program
  rel := Grows base.program base.settings
  refl := .refl
  trans := .trans
  closed _ _ ht x hx := by
    rw [ht] at hx
    cases hx
  op _ h x hx := by
    obtain ⟨t, ht, hx⟩ := Term.mem_wiresList.1 hx
    exact h t ht x hx
  cast _ h := h
  mono h ht x hx := h.known (ht x hx)
  term_steps _ h := h
  quiet _ _ _ _ _ := .of_settled rfl rfl rfl subset_rfl
  comment _ _ := .emit rfl rfl rfl rfl nofun
  call _ f := .call f
  temporary hv h := by
    obtain ⟨hgrows, hw⟩ := Grows.newTemporary h hv
    exact ⟨hgrows, by simpa using hw⟩
  version hv h := by
    obtain ⟨hgrows, hw⟩ := Grows.newVersion h hv
    exact ⟨hgrows, by simpa using hw⟩
  input _ _ h := by
    obtain ⟨hgrows, hw⟩ := Grows.input h
    exact ⟨hgrows, by simpa using hw⟩
  publish _ _ hplain h := by
    have hgrows := Grows.publish (s := base.settings) h (hplain _ (List.mem_singleton_self _))
    exact hgrows
  block name h := .block name h
  guard holds hc h := .guard holds (hc _ (List.mem_singleton_self _)) h

theorem lowerFunction_grows (hp : Passes unit.check u.program) {f : FunctionId} {l : Lowered}
    (h : lowerFunction u f = .ok l) :
    Grows u.program u.settings (State.new u.settings) l.circuit :=
  lowerFunction_rel hp h (growth _)

/-! ## Wrappers -/

section Wrapper

variable {u : ContractEnv} {f : FunctionId} {r : List (VarId × Wire) × List (Label × Wire)}
  {keys : List Label}

theorem Grows.encryptParams (henv : env.program = u.program) {vs : List VarId}
    {ws : List (VarId × Wire)} (h : Yields (u.encryptParams env vs) σ ws τ) :
    Grows u.program s σ τ := by
  induction vs generalizing σ ws with
  | nil =>
    obtain ⟨rfl, rfl⟩ := Yields.pure_iff.1 h
    exact .refl _
  | cons v vs ih =>
    obtain ⟨plain, cipher, ρ, ws', rfl, hplain, hcipher, henc, hws⟩ := encryptParams_cons h
    have hp : Widens env.program σ plain.1 { σ with secrets := plain.2 } :=
      .of_secrets (hplain ▸ Stream.names_issueAs _ _)
    have hc : Widens env.program { σ with secrets := plain.2 } cipher.1
        { σ with secrets := plain.2, inputs := cipher.2 } :=
      .of_inputs (hcipher ▸ Stream.names_issueAs _ _)
    have henc := Grows.encrypted (s := s) henc ((hc.grows s).known hp.mem_known) hc.mem_known
    exact henv ▸ (hp.grows s).trans ((hc.grows s).trans (henc.trans (henv ▸ ih hws)))

theorem Grows.inputKeys {ls : List Label} {ws : List (Label × Wire)}
    (h : Yields (u.inputKeys ls) σ ws τ) : Grows u.program s σ τ := by
  induction ls generalizing σ ws with
  | nil =>
    obtain ⟨rfl, rfl⟩ := Yields.pure_iff.1 h
    exact .refl _
  | cons l ls ih =>
    simp only [ContractEnv.inputKeys, Yields.bind_iff, Yields.pure_iff] at h
    obtain ⟨w, ρ, hw, ws', τ', hws, rfl, rfl⟩ := h
    exact ((Widens.newInputAs hw).grows s).trans (ih hws)

/-- A wrapper's circuit takes the parameters, then the keys, and calls the circuit of the body if
there is one. -/
theorem wrapperCircuit_cases (h : Yields (u.wrapperCircuit f keys) σ r τ) : ∃ ρ υ,
    Yields (u.encryptParams (.ofFunction u.program u.settings u.owners f)
      ((u.function f).params.filter fun v => (u.program.var v).type.isPrivate)) { σ with keys } r.1 ρ ∧
    Yields (u.inputKeys ρ.keys) ρ r.2 υ ∧
    ((u.program.function f).facts.isVerified = true ∧ τ = { υ with
        calls := υ.calls ++ [f]
        steps := υ.steps ++ [.call (circuitName u.program u.settings f)] } ∨ τ = υ) := by
  unfold ContractEnv.wrapperCircuit at h
  obtain ⟨_, _, hkeys, h⟩ := Yields.bind_iff.1 h
  obtain rfl := Yields.modify_iff.1 hkeys
  obtain ⟨params, ρ, hparams, h⟩ := Yields.bind_iff.1 h
  obtain ⟨_, ρ', hget, hrest⟩ := Yields.bind_iff.1 h
  obtain ⟨rfl, rfl⟩ := Yields.get_iff.1 hget
  obtain ⟨ks, υ, hks, hcall⟩ := Yields.bind_iff.1 hrest
  split at hcall
  · rename_i hv
    simp only [Yields.bind_iff, callCircuit_iff, Yields.pure_iff] at hcall
    obtain ⟨_, _, rfl, rfl, rfl⟩ := hcall
    exact ⟨_, υ, hparams, hks, .inl ⟨hv, rfl⟩⟩
  · obtain ⟨rfl, rfl⟩ := Yields.pure_iff.1 hcall
    exact ⟨_, _, hparams, hks, .inr rfl⟩

theorem wrapperCircuit_grows (h : Yields (u.wrapperCircuit f keys) σ r τ) :
    Grows u.program u.settings { σ with keys } τ := by
  obtain ⟨ρ, υ, hparams, hks, hcall⟩ := wrapperCircuit_cases h
  have hgrows : Grows u.program u.settings { σ with keys } υ :=
    (Grows.encryptParams rfl hparams).trans (.inputKeys hks)
  rcases hcall with ⟨-, rfl⟩ | rfl
  · exact hgrows.trans (.call f)
  · exact hgrows

end Wrapper

/-! ## Finished circuits -/

theorem map_name_layoutFrom (s : Settings) (offset : Nat) (ws : List Wire) :
    (Stream.layoutFrom s offset ws).map Circuit.Slot.name = ws.map Wire.name := by
  induction ws generalizing offset with
  | nil => rfl
  | cons w ws ih => exact congrArg (w.name :: ·) (ih _)

/-- A circuit that has grown from nothing but keys is well-formed. -/
theorem Grows.wellFormed {keys : List Label} {c : State}
    (h : Grows u.program u.settings { State.new u.settings with keys } c) (function : String)
    (verifier : Option String) {below : Callees} (hk : c.keys ⊆ below.keys) :
    (u.circuit c function verifier below).WellFormed := by
  obtain ⟨new, h⟩ := h
  obtain rfl : c.steps = new := h.steps
  have htemps : c.temporaries.names = Step.defined (Step.flatten c.steps) := h.temporaries
  have hslots : (u.circuit c function verifier below).slotNames = c.slots := by
    simp only [Circuit.slotNames, ContractEnv.circuit, List.map_append, Stream.layout,
      map_name_layoutFrom]
    rfl
  refine ⟨h.bracketed, h.blocks, ?_, ?_, ?_⟩
  · intro before step after heq x hx
    rw [hslots]
    rcases h.grounded.reads heq x hx with ((hx | hx) | hx) | hx
    · exact .inl hx
    · exact .inr (.inl (List.map_subset _ hk hx))
    · cases hx
    · exact .inr (.inr hx)
  · show (Step.defined (Step.flatten c.steps)).Nodup
    rw [← htemps]
    exact (h.numbered nofun).nodup
  · obtain ⟨fs, hfs, hcalled⟩ := h.calls
    show Step.called (Step.flatten c.steps) = c.calls.map _
    rw [hcalled, hfs]
    rfl

/-- The circuits of a contract are well-formed. -/
theorem Emitted.wellFormed {k : Solidity.Contract} {cs : List Circuit} (e : Emitted u k cs)
    (hp : Passes unit.check u.program) : ∀ c ∈ cs, c.WellFormed := by
  intro c hc
  obtain ⟨l, hl, ⟨r, hr, rfl⟩ | ⟨l₀, below, hlow, hcircuit, hv, hbelow, rfl⟩⟩ := e.circuit_cases hc
  · obtain ⟨body, wires, circuit, -, hcircuit, heq⟩ := circuit_of_wrapper hr
    rw [heq]
    exact (wrapperCircuit_grows hcircuit).wellFormed _ _ (List.Subset.refl _)
  · exact (lowerFunction_grows hp hlow).wellFormed _ _ (hcircuit ▸ e.keys_subset hl hv hbelow)

end Lowering

/-- **Circuits are well-formed.** In every circuit of a compilation guards are bracketed, in the whole
and in each block; steps read what the buffers hold, keys, and temporaries that are defined before,
once each; and the called circuits are those of the layout, in this order. -/
theorem SourceUnit.compile_circuits_wellFormed {u : SourceUnit} {s : Settings} {out : Compilation}
    (h : Passes (u.compile s) out) : ∀ c ∈ out.circuits, c.WellFormed := by
  intro c hc
  obtain ⟨p, i, _, _, hp, -, ⟨e⟩, hc⟩ := emitted_of_mem_circuits h hc
  exact e.wellFormed hp c hc

open Lowering in
/-- One circuit has a step in guards, and the others call circuits. -/
theorem SourceUnit.compile_circuits_wellFormed_tally : ∃ out, Passes (tally.compile {}) out ∧
    (out.circuits.map fun c => (c.function, c.calls)) =
      [("add", []), ("twice", ["_zk__twice"]), ("_zk__twice", ["add", "add"])] ∧
    ∀ c ∈ out.circuits, c.WellFormed :=
  Passes.exists_of_test (by decide +kernel) fun _ hout _ => compile_circuits_wellFormed hout

end Shroud
