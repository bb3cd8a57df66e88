import Shroud.Proofs.Lowering.Keys

/-! # Names of circuit variables

A circuit names its variables after the stream that issues them and their number there (`Titled`), and
the randomness of a ciphertext after the ciphertext. With default names the streams are told apart by
how their names begin, and randomness by how its name ends, whatever the variables of the program are
called. So no name is given twice. The circuits of wrappers are left to `Witnesses`.
-/

namespace Shroud

open Circuit (Term Wire Step Stream)

/-- Names that begin with two texts, neither of which begins with the other, are different. -/
theorem append_ne_append {a b : String} (h : ¬ a.toList <+: b.toList) (h' : ¬ b.toList <+: a.toList)
    (r r' : String) : a ++ r ≠ b ++ r' := by
  intro heq
  have ha : a.toList <+: (a ++ r).toList := ⟨r.toList, String.toList_append.symm⟩
  have hb : b.toList <+: (a ++ r).toList := heq ▸ ⟨r'.toList, String.toList_append.symm⟩
  exact (List.prefix_or_prefix_of_prefix ha hb).elim h h'

namespace Circuit.Stream

variable {t : Stream} {rest : String}

/-- The last part of the name of a ciphertext's randomness. -/
def randomnessMark : String := "cipher_R"

/-- The name of a variable with some number. -/
def title (base : String) (i : Nat) (rest : String) : String := base ++ Nat.repr i ++ "_" ++ rest

theorem title_inj {base rest' : String} {i j : Nat} (h : title base i rest = title base j rest') :
    i = j ∧ rest = rest' := by
  obtain rfl := number_of_name h
  exact ⟨rfl, (String.append_right_inj _).1 h⟩

theorem title_ne_title {a b : String} (h : ¬ a.toList <+: b.toList) (h' : ¬ b.toList <+: a.toList)
    (i j : Nat) (rest rest' : String) : title a i rest ≠ title b j rest' := by
  simp only [title, String.append_assoc]
  exact append_ne_append h h' _ _

/-- How the randomness of the next ciphertext is named. -/
theorem nextName_randomness (t : Stream) :
    t.nextName .cipher ++ "_R" = title t.base t.wires.length randomnessMark :=
  String.append_assoc ..

/-- The variables have their numbers in their names, and none is named like randomness. -/
def Titled (t : Stream) : Prop :=
  ∀ i x, t.names[i]? = some x → ∃ rest, rest ≠ randomnessMark ∧ x = title t.base i rest

theorem Titled.numbered (h : t.Titled) : t.Numbered := by
  intro i x hx
  obtain ⟨rest, -, rfl⟩ := h i x hx
  exact ⟨rest, rfl⟩

/-- A new variable has the next number. -/
theorem Titled.push {t' : Stream} (h : t.Titled) (hb : t'.base = t.base)
    (hrest : rest ≠ randomnessMark) (hn : t'.names = t.names ++ [title t.base t.wires.length rest]) :
    t'.Titled := by
  have hlen : t.names.length = t.wires.length := List.length_map _
  rw [Titled, hb, hn]
  exact forall_names_push h ⟨rest, hrest, by rw [hlen]⟩

theorem suffix_ne (type : DataType) : suffix type ≠ randomnessMark := by
  unfold suffix
  split <;> decide

theorem Titled.issue (h : t.Titled) (type : DataType) (origin : Option Term) :
    (t.issue type origin).2.Titled :=
  h.push rfl (suffix_ne type) (names_issue type origin)

/-- The name of an input with a key ends with that of its owner. -/
theorem Titled.issueKey (h : t.Titled) (name : String) :
    (t.issueAs (t.nextName .key ++ "_" ++ name) .key).2.Titled := by
  refine h.push rfl (?_ : "key" ++ ("_" ++ name) ≠ randomnessMark) ?_
  · exact fun heq => append_ne_append (a := "key") (b := "cipher_R") (by decide) (by decide) _ ""
      (heq.trans String.append_empty.symm)
  · rw [names_issueAs, nextName, title]
    simp only [suffix, String.append_assoc]

end Circuit.Stream

/-- The names of all variables of a circuit: those of the buffers, the temporaries that the steps
define, and the keys that are looked up once. -/
def Circuit.names (c : Circuit) : List String :=
  c.slotNames ++ Step.defined (Step.flatten c.steps) ++ c.keys

namespace Lowering

open Circuit.Stream (title)

variable {base : Env} {s : Settings} {σ τ : State} {w : Wire} {u : ContractEnv}

/-- The secret with a number is named after it, or it is the randomness of one of the first ciphertexts
that cross the boundary. -/
def IsSecretName (s : Settings) (ins outs i : Nat) (x : String) : Prop :=
  (∃ rest, x = title "secret" i rest) ∨ (∃ j < ins, x = title s.inName j Stream.randomnessMark) ∨
    ∃ j < outs, x = title s.outName j Stream.randomnessMark

theorem IsSecretName.mono {ins outs ins' outs' i : Nat} {x : String}
    (h : IsSecretName s ins outs i x) (hi : ins ≤ ins') (ho : outs ≤ outs') :
    IsSecretName s ins' outs' i x := by
  rcases h with h | ⟨j, hj, h⟩ | ⟨j, hj, h⟩
  · exact .inl h
  · exact .inr (.inl ⟨j, hj.trans_le hi, h⟩)
  · exact .inr (.inr ⟨j, hj.trans_le ho, h⟩)

/-- All names of a circuit are those that the streams give. -/
structure Titled (s : Settings) (σ : State) : Prop where
  bases : σ.secrets.base = "secret" ∧ σ.temporaries.base = "tmp" ∧ σ.inputs.base = s.inName ∧
    σ.outputs.base = s.outName
  temporaries : σ.temporaries.Numbered
  inputs : σ.inputs.Titled
  outputs : σ.outputs.Titled
  secrets : ∀ i x, σ.secrets.names[i]? = some x →
    IsSecretName s σ.inputs.wires.length σ.outputs.wires.length i x
  nodup : σ.secrets.names.Nodup

namespace Titled

variable {x name : String} {t : DataType} {value : Term}

theorem congr (h : Titled s σ) (hs : τ.secrets = σ.secrets) (ht : τ.temporaries = σ.temporaries)
    (hi : τ.inputs = σ.inputs) (ho : τ.outputs = σ.outputs) : Titled s τ := by
  constructor
  · rw [hs, ht, hi, ho]
    exact h.bases
  · rw [ht]
    exact h.temporaries
  · rw [hi]
    exact h.inputs
  · rw [ho]
    exact h.outputs
  · rw [hs, hi, ho]
    exact h.secrets
  · rw [hs]
    exact h.nodup

theorem new (s : Settings) : Titled s (State.new s) := by
  refine ⟨⟨rfl, rfl, rfl, rfl⟩, ?_, ?_, ?_, ?_, List.nodup_nil⟩ <;>
  · intro i x hx
    cases hx

/-! ## New variables -/

/-- A secret is issued whose name is new. -/
theorem pushSecret (h : Titled s σ) {secrets inputs outputs : Stream}
    (hs : secrets.base = σ.secrets.base ∧ secrets.names = σ.secrets.names ++ [name])
    (hi : inputs.base = σ.inputs.base ∧ inputs.Titled ∧ σ.inputs.wires.length ≤ inputs.wires.length)
    (ho : outputs.base = σ.outputs.base ∧ outputs.Titled ∧
      σ.outputs.wires.length ≤ outputs.wires.length)
    (hname : IsSecretName s inputs.wires.length outputs.wires.length σ.secrets.names.length name)
    (hnew : name ∉ σ.secrets.names) : Titled s { σ with secrets, inputs, outputs } := by
  refine ⟨?_, h.temporaries, hi.2.1, ho.2.1, fun i x hx => ?_, ?_⟩
  · rw [hs.1, hi.1, ho.1]
    exact h.bases
  · rw [hs.2] at hx
    rcases lt_trichotomy i σ.secrets.names.length with hlt | rfl | hlt
    · rw [List.getElem?_append_left hlt] at hx
      exact (h.secrets i x hx).mono hi.2.2 ho.2.2
    · rw [List.getElem?_concat_length] at hx
      cases hx
      exact hname
    · rw [List.getElem?_eq_none (by simpa using hlt)] at hx
      cases hx
  · rw [hs.2]
    exact List.nodup_append.2 ⟨h.nodup, List.nodup_singleton _, by grind⟩

section Default

variable (hs : s.names = ({} : Settings).names) {t : DataType} {env : Env} {name : String}

include hs

theorem names_eq : s.inName = "zk__in" ∧ s.outName = "zk__out" :=
  ⟨(List.cons.inj hs).1, (List.cons.inj (List.cons.inj hs).2).1⟩

/-- Secrets, inputs and outputs are numbered under different names. -/
theorem titles_apart (i j : Nat) (r r' : String) : title "secret" i r ≠ title s.inName j r' ∧
    title "secret" i r ≠ title s.outName j r' ∧ title s.inName i r ≠ title s.outName j r' := by
  obtain ⟨hin, hout⟩ := names_eq hs
  rw [hin, hout]
  refine ⟨?_, ?_, ?_⟩ <;> exact Stream.title_ne_title (by decide) (by decide) _ _ _ _

variable (h : Titled s σ)

include h

/-- A secret with a number of its own has a new name. -/
theorem issueSecret (t : DataType) : Titled s { σ with secrets := (σ.secrets.issue t none).2 } := by
  have hlen : σ.secrets.names.length = σ.secrets.wires.length := List.length_map _
  have hname : σ.secrets.nextName t = title "secret" σ.secrets.names.length (Stream.suffix t) := by
    rw [hlen, title, ← h.bases.1, Stream.nextName]
  refine h.pushSecret ⟨rfl, Stream.names_issue t none⟩ ⟨rfl, h.inputs, le_rfl⟩
    ⟨rfl, h.outputs, le_rfl⟩ (.inl ⟨_, hname⟩) fun hmem => ?_
  obtain ⟨i, hi⟩ := List.mem_iff_getElem?.1 hmem
  obtain ⟨hlt, -⟩ := List.getElem?_eq_some_iff.1 hi
  rw [hname] at hi
  rcases h.secrets i _ hi with ⟨rest, heq⟩ | ⟨j, -, heq⟩ | ⟨j, -, heq⟩
  · exact hlt.ne' (Stream.title_inj heq).1
  · exact (titles_apart hs ..).1 heq
  · exact (titles_apart hs ..).2.1 heq

/-- An input with a ciphertext is issued, and then its randomness. -/
theorem issueCipherIn : Titled s { σ with
    inputs := (σ.inputs.issue .cipher none).2
    secrets := (σ.secrets.issueAs (σ.inputs.nextName .cipher ++ "_R") .randomness).2 } := by
  have hname := h.bases.2.2.1 ▸ σ.inputs.nextName_randomness
  refine h.pushSecret ⟨rfl, Stream.names_issueAs _ _⟩
    ⟨rfl, h.inputs.issue _ _, by simp [Stream.issue, Stream.issueAs]⟩ ⟨rfl, h.outputs, le_rfl⟩
    (.inr (.inl ⟨_, by simp [Stream.issue, Stream.issueAs], hname⟩)) fun hmem => ?_
  obtain ⟨i, hi⟩ := List.mem_iff_getElem?.1 hmem
  rw [hname] at hi
  rcases h.secrets i _ hi with ⟨rest, heq⟩ | ⟨j, hj, heq⟩ | ⟨j, -, heq⟩
  · exact (titles_apart hs ..).1 heq.symm
  · exact hj.ne' (Stream.title_inj heq).1
  · exact (titles_apart hs ..).2.2 heq

/-- An output with a ciphertext is issued, and then its randomness. -/
theorem issueCipherOut : Titled s { σ with
    outputs := (σ.outputs.issue .cipher none).2
    secrets := (σ.secrets.issueAs (σ.outputs.nextName .cipher ++ "_R") .randomness).2 } := by
  have hname := h.bases.2.2.2 ▸ σ.outputs.nextName_randomness
  refine h.pushSecret ⟨rfl, Stream.names_issueAs _ _⟩ ⟨rfl, h.inputs, le_rfl⟩
    ⟨rfl, h.outputs.issue _ _, by simp [Stream.issue, Stream.issueAs]⟩
    (.inr (.inr ⟨_, by simp [Stream.issue, Stream.issueAs], hname⟩)) fun hmem => ?_
  obtain ⟨i, hi⟩ := List.mem_iff_getElem?.1 hmem
  rw [hname] at hi
  rcases h.secrets i _ hi with ⟨rest, heq⟩ | ⟨j, -, heq⟩ | ⟨j, hj, heq⟩
  · exact (titles_apart hs ..).2.1 heq.symm
  · exact (titles_apart hs ..).2.2 heq.symm
  · exact hj.ne' (Stream.title_inj heq).1

omit hs in
/-- An input is issued that needs no randomness. -/
theorem pushInput (ht : (σ.inputs.issueAs name t).2.Titled) :
    Titled s { σ with inputs := (σ.inputs.issueAs name t).2 } :=
  ⟨h.bases, h.temporaries, ht, h.outputs,
    fun i x hx => (h.secrets i x hx).mono (by simp [Stream.issueAs]) le_rfl, h.nodup⟩

omit hs in
/-- An output is issued that needs no randomness. -/
theorem pushOutput (ht : (σ.outputs.issueAs name t).2.Titled) :
    Titled s { σ with outputs := (σ.outputs.issueAs name t).2 } :=
  ⟨h.bases, h.temporaries, h.inputs, ht,
    fun i x hx => (h.secrets i x hx).mono le_rfl (by simp [Stream.issueAs]), h.nodup⟩

omit hs in
theorem publicKey {l : Label} (hk : Yields (publicKey env l) σ w τ) : Titled s τ := by
  rcases publicKey_cases hk with ⟨-, -, rfl⟩ | ⟨v, -, -, rfl, rfl⟩
  · exact h.congr rfl rfl rfl rfl
  · exact (h.pushInput (h.inputs.issueKey _)).congr rfl rfl rfl rfl

theorem input {t : OwnedType} {text : String} {value : Solidity.Expr}
    (hx : Yields (input env t text value) σ w τ) : Titled s τ := by
  rcases input_cases hx with ⟨-, cipher, ρ, rfl, rfl, henc, rfl⟩ | ⟨-, -, rfl⟩
  · obtain ⟨k, ρ', hk, rfl⟩ := encrypted_iff.1 henc
    have hsecret := issueSecret hs h t.type.toAbstract
    have hsealed := issueCipherIn hs hsecret
    exact (publicKey hsealed hk).congr rfl rfl rfl rfl
  · exact (h.pushInput (h.inputs.issue t.type.toAbstract none)).congr rfl rfl rfl rfl

theorem publish {plain : Wire} {l : Label} (hx : Yields (publish env plain l t) σ w τ) :
    Titled s τ := by
  rcases publish_cases hx with ⟨-, -, rfl⟩ | ⟨-, origin, rfl, henc⟩
  · exact (h.pushOutput (h.outputs.issue t plain.origin)).congr rfl rfl rfl rfl
  · obtain ⟨k, ρ, hk, rfl⟩ := encrypted_iff.1 henc
    exact (publicKey (issueCipherOut hs h) hk).congr rfl rfl rfl rfl

end Default

variable (h : Titled s σ)

include h

theorem newTemporary (hx : Yields (newTemporary t value) σ w τ) : Titled s τ := by
  obtain ⟨-, rfl⟩ := newTemporary_iff.1 hx
  have hbase := Stream.base_setOrigin (t := (σ.temporaries.issue t none).2)
    (σ.temporaries.nextName t) value
  have hnames := Stream.names_setOrigin (t := (σ.temporaries.issue t none).2)
    (σ.temporaries.nextName t) value
  refine ⟨?_, ?_, h.inputs, h.outputs, h.secrets, h.nodup⟩
  · exact ⟨h.bases.1, hbase.trans h.bases.2.1, h.bases.2.2⟩
  · exact (h.temporaries.issue t none).congr hbase hnames

theorem newVersion (hx : Yields (newVersion name t value) σ w τ) : Titled s τ := by
  obtain ⟨rfl, rfl⟩ := newVersion_iff.1 hx
  refine ⟨h.bases, ?_, h.inputs, h.outputs, h.secrets, h.nodup⟩
  exact h.temporaries.push rfl (String.append_assoc ..) (Stream.names_issueAs _ t)

/-! ## Different names -/

omit h in
/-- All names that a stream gives begin alike. -/
theorem begins_of_numbered {t : Stream} (h : t.Numbered) (hx : x ∈ t.names) :
    ∃ rest, x = t.base ++ rest := by
  obtain ⟨i, hi⟩ := List.mem_iff_getElem?.1 hx
  obtain ⟨rest, rfl⟩ := h i x hi
  exact ⟨Nat.repr i ++ "_" ++ rest, by simp only [String.append_assoc]⟩

variable (hs : s.names = ({} : Settings).names)

include hs

/-- A secret is named like no input and no output that has a mark of its own. -/
theorem secret_ne (hx : x ∈ σ.secrets.names) {rest : String} (hrest : rest ≠ Stream.randomnessMark)
    (j : Nat) : x ≠ title s.inName j rest ∧ x ≠ title s.outName j rest := by
  have hmark : ∀ base k, title base k Stream.randomnessMark ≠ title base j rest :=
    fun base k heq => hrest (Stream.title_inj heq).2.symm
  obtain ⟨i, hi⟩ := List.mem_iff_getElem?.1 hx
  rcases h.secrets i _ hi with ⟨rest', rfl⟩ | ⟨k, -, rfl⟩ | ⟨k, -, rfl⟩
  · exact ⟨(titles_apart hs ..).1, (titles_apart hs ..).2.1⟩
  · exact ⟨hmark _ k, (titles_apart hs ..).2.2⟩
  · exact ⟨(titles_apart hs ..).2.2.symm, hmark _ k⟩

/-- The names of secrets are those of no inputs and no outputs. -/
theorem secret_notMem (hx : x ∈ σ.secrets.names) : x ∉ σ.inputs.names ∧ x ∉ σ.outputs.names := by
  constructor <;> intro hmem <;> obtain ⟨j, hj⟩ := List.mem_iff_getElem?.1 hmem
  · obtain ⟨rest, hrest, heq⟩ := h.inputs j x hj
    exact (h.secret_ne hs hx hrest j).1 (h.bases.2.2.1 ▸ heq)
  · obtain ⟨rest, hrest, heq⟩ := h.outputs j x hj
    exact (h.secret_ne hs hx hrest j).2 (h.bases.2.2.2 ▸ heq)

/-- How the name of a secret begins. -/
theorem begins_of_secret (hx : x ∈ σ.secrets.names) :
    ∃ a ∈ ["secret", "zk__in", "zk__out"], ∃ rest, x = a ++ rest := by
  obtain ⟨hin, hout⟩ := names_eq hs
  obtain ⟨i, hi⟩ := List.mem_iff_getElem?.1 hx
  have hbegin : ∀ a j rest, ∃ rest', title a j rest = a ++ rest' := fun a j rest =>
    ⟨Nat.repr j ++ "_" ++ rest, by simp only [title, String.append_assoc]⟩
  rcases h.secrets i _ hi with ⟨rest, rfl⟩ | ⟨k, -, rfl⟩ | ⟨k, -, rfl⟩
  · exact ⟨"secret", by simp, hbegin _ _ _⟩
  · exact ⟨"zk__in", by simp, hin ▸ hbegin _ _ _⟩
  · exact ⟨"zk__out", by simp, hout ▸ hbegin _ _ _⟩

/-- No name is given twice. -/
theorem nodup_names (p : Program) {keys : List Label} (hkeys : (keys.map (keyName p)).Nodup) :
    (σ.slots ++ σ.temporaries.names ++ keys.map (keyName p)).Nodup := by
  obtain ⟨hin, hout⟩ := names_eq hs
  have hsecret := fun x (hx : x ∈ σ.secrets.names) => begins_of_secret h hs hx
  have hinput := fun x (hx : x ∈ σ.inputs.names) => begins_of_numbered h.inputs.numbered hx
  have houtput := fun x (hx : x ∈ σ.outputs.names) => begins_of_numbered h.outputs.numbered hx
  have htemp := fun x (hx : x ∈ σ.temporaries.names) => begins_of_numbered h.temporaries hx
  simp only [h.bases.2.2.1, hin] at hinput
  simp only [h.bases.2.2.2, hout] at houtput
  simp only [h.bases.2.1] at htemp
  have hslot : ∀ x ∈ σ.slots, ∃ a ∈ ["secret", "zk__in", "zk__out"], ∃ rest, x = a ++ rest := by
    intro x hx
    rw [State.slots, List.mem_append, List.mem_append] at hx
    rcases hx with (hx | hx) | hx
    · exact hsecret x hx
    · exact ⟨"zk__in", by simp, hinput x hx⟩
    · exact ⟨"zk__out", by simp, houtput x hx⟩
  have hslots : σ.slots.Nodup := by
    refine List.nodup_append.2 ⟨List.nodup_append.2 ⟨h.nodup, h.inputs.numbered.nodup, ?_⟩,
      h.outputs.numbered.nodup, ?_⟩
    · rintro x hx y hy rfl
      exact (h.secret_notMem hs hx).1 hy
    · rintro x hx y hy rfl
      rcases List.mem_append.1 hx with hx | hx
      · exact (h.secret_notMem hs hx).2 hy
      · obtain ⟨r, hr⟩ := hinput x hx
        obtain ⟨r', hr'⟩ := houtput x hy
        exact append_ne_append (by decide) (by decide) r r' (hr.symm.trans hr')
  have hlocal : (σ.slots ++ σ.temporaries.names).Nodup := by
    refine List.nodup_append.2 ⟨hslots, h.temporaries.nodup, ?_⟩
    rintro x hx y hy rfl
    obtain ⟨a, ha, r, hr⟩ := hslot x hx
    obtain ⟨r', hr'⟩ := htemp x hy
    have hapart : ∀ a ∈ ["secret", "zk__in", "zk__out"],
        ¬ a.toList <+: "tmp".toList ∧ ¬ "tmp".toList <+: a.toList := by decide
    exact append_ne_append (hapart a ha).1 (hapart a ha).2 r r' (hr.symm.trans hr')
  refine List.nodup_append.2 ⟨hlocal, hkeys, ?_⟩
  rintro x hx y hy rfl
  obtain ⟨l, -, hl⟩ := List.mem_map.1 hy
  have hbegin : ∃ a ∈ ["secret", "zk__in", "zk__out", "tmp"], ∃ rest, x = a ++ rest := by
    rcases List.mem_append.1 hx with hx | hx
    · obtain ⟨a, ha, hr⟩ := hslot x hx
      exact ⟨a, List.mem_append_left ["tmp"] ha, hr⟩
    · exact ⟨"tmp", by simp, htemp x hx⟩
  obtain ⟨a, ha, r, hr⟩ := hbegin
  have hapart : ∀ a ∈ ["secret", "zk__in", "zk__out", "tmp"],
      ¬ a.toList <+: "glob_key_".toList ∧ ¬ "glob_key_".toList <+: a.toList := by decide
  exact append_ne_append (hapart a ha).1 (hapart a ha).2 r _ (hr.symm.trans hl.symm)

end Titled

/-! ## Circuits of functions -/

/-- Names are those that the streams give. -/
def titles (base : Env) (hs : base.settings.names = ({} : Settings).names) : Regime base where
  term _ _ := True
  rel σ τ := Titled base.settings σ → Titled base.settings τ
  refl _ := id
  trans h h' := h' ∘ h
  closed _ _ _ := trivial
  op _ _ := trivial
  cast _ _ := trivial
  mono _ _ := trivial
  term_steps _ _ := trivial
  quiet _ _ _ _ _ h := h.congr rfl rfl rfl rfl
  comment _ _ h := h.congr rfl rfl rfl rfl
  call _ _ h := h.congr rfl rfl rfl rfl
  temporary _ h := ⟨fun ht => ht.newTemporary h, trivial⟩
  version _ h := ⟨fun ht => ht.newVersion h, trivial⟩
  input _ _ h := ⟨fun ht => ht.input hs h, trivial⟩
  publish _ _ _ h ht := ht.publish hs h
  block _ h ht := (h (ht.congr rfl rfl rfl rfl)).congr rfl rfl rfl rfl
  guard _ _ h ht := (h (ht.congr rfl rfl rfl rfl)).congr rfl rfl rfl rfl

theorem lowerFunction_titled {unit : SourceUnit} (hp : Passes unit.check u.program)
    (hs : u.settings.names = ({} : Settings).names) {f : FunctionId} {l : Lowered}
    (h : lowerFunction u f = .ok l) : Titled u.settings l.circuit :=
  lowerFunction_rel hp h (titles _ hs) (.new u.settings)

theorem map_name_layout (t : Stream) : t.layout.map Circuit.Slot.name = t.names :=
  map_name_layoutFrom _ _ _

/-- The fields of a circuit's data are named like the outputs and inputs. -/
theorem map_snd_dataStruct (u : ContractEnv) (f : FunctionId) (c : State) :
    (u.dataStruct f c).fields.map Prod.snd = c.outputs.names ++ c.inputs.names := by
  rw [ContractEnv.dataStruct, List.map_map, ← map_name_layout, ← map_name_layout, ← List.map_append]
  rfl

theorem nodup_dataStruct {c : State} (h : Titled u.settings c)
    (hs : u.settings.names = ({} : Settings).names) (f : FunctionId) :
    ((u.dataStruct f c).fields.map Prod.snd).Nodup := by
  have hnil : (([] : List Label).map (keyName u.program)).Nodup := List.nodup_nil
  have hslots := (List.nodup_append.1 (h.nodup_names hs u.program hnil)).1
  rw [map_snd_dataStruct, List.perm_append_comm.nodup_iff]
  rw [State.slots, List.append_assoc, List.append_assoc] at hslots
  have hboundary := (List.nodup_append.1 hslots).2.1
  exact (List.nodup_append.1 (List.append_assoc .. ▸ hboundary)).1

section Circuits

variable {unit : SourceUnit} {u : ContractEnv} {k : Solidity.Contract} {cs : List Circuit}

/-- The names of a circuit without proofs of its own are different. -/
theorem Emitted.nodup_names (e : Emitted u k cs) (hp : Passes unit.check u.program)
    (hs : u.settings.names = ({} : Settings).names) (hn : NamesApart u) {c : Circuit} (hc : c ∈ cs)
    (hv : c.verifier = none) : c.names.Nodup := by
  obtain ⟨l, hl, ⟨r, hr, rfl⟩ | ⟨l₀, below, hlow, -, hverified, hbelow, rfl⟩⟩ := e.circuit_cases hc
  · obtain ⟨_, _, _, -, -, hcircuit⟩ := circuit_of_wrapper hr
    rw [hcircuit] at hv
    cases hv
  obtain ⟨hnodup, howned⟩ := e.keys_owned hp hl hverified hbelow
  obtain ⟨new, hgrows⟩ := lowerFunction_grows hp hlow
  obtain rfl : l₀.circuit.steps = new := hgrows.steps
  have htemps : l₀.circuit.temporaries.names = Step.defined (Step.flatten l₀.circuit.steps) :=
    hgrows.temporaries
  have hkeys : (below.keys.map (keyName u.program)).Nodup :=
    hnodup.map_on fun o ho o' ho' => hn.keys o (howned o ho) o' (howned o' ho')
  have hall := (lowerFunction_titled hp hs hlow).nodup_names hs u.program hkeys
  rw [htemps] at hall
  simpa only [Circuit.names, Circuit.slotNames, ContractEnv.circuit, List.map_append,
    map_name_layout, State.slots] using hall

/-- The fields of all data of circuits have different names. -/
theorem Emitted.nodup_fields (e : Emitted u k cs) (hp : Passes unit.check u.program)
    (hs : u.settings.names = ({} : Settings).names) {t : Solidity.Struct} (ht : t ∈ k.structs) :
    (t.fields.map Prod.snd).Nodup := by
  obtain ⟨pieces, hpieces, -, -, -, hstructs⟩ := outputs_pieces e.outputs
  rw [e.structs, hstructs] at ht
  obtain ⟨⟨a, b⟩, hpiece, ht⟩ := List.mem_flatMap.1 ht
  obtain ⟨l, hl, houter, hinner⟩ := hpieces.exists_left hpiece
  dsimp only at ht houter hinner
  have hnone : a.structs = [] := by
    rcases outer_cases houter with ⟨-, rfl⟩ | ⟨-, r, -, rfl⟩ <;> rfl
  rw [hnone, List.nil_append] at ht
  rcases inner_cases hinner with ⟨-, rfl⟩ | ⟨-, below, -, rfl⟩
  · cases ht
  · dsimp only at ht
    split at ht
    · obtain ⟨l₀, hlow, hcircuit⟩ := e.exists_lowered hl
      rw [List.mem_singleton.1 ht, hcircuit]
      exact nodup_dataStruct (lowerFunction_titled hp hs hlow) hs l.id
    · cases ht

end Circuits

end Lowering

/-- **No two variables of a circuit have the same name.** With default names, and no state variable
that is named like the sender: the secrets, inputs and outputs of a circuit without proofs of its own,
the temporaries that its steps define and the keys that it lists are all named differently, and so are
the fields of the data that the contract keeps for a circuit. -/
theorem SourceUnit.compile_names_distinct {u : SourceUnit} {s : Settings} {out : Compilation}
    (h : Passes (u.compile s) out) (hs : s.names = ({} : Settings).names)
    (hme : ∀ c ∈ u.contracts, ∀ v ∈ c.stateVars, v.name ≠ "me") :
    (∀ c ∈ out.circuits, c.verifier = none → c.names.Nodup) ∧
      ∀ k ∈ out.contracts, ∀ t ∈ k.structs, (t.fields.map Prod.snd).Nodup := by
  constructor
  · intro circuit hcircuit hv
    obtain ⟨p, c, _, _, hp, hc, ⟨e⟩, hcircuit⟩ := emitted_of_mem_circuits h hcircuit
    exact e.nodup_names hp hs (Lowering.namesApart_of_check hp hc hs hme) hcircuit hv
  · intro k hk t ht
    obtain ⟨p, pieces, hp, hcontracts, -, hpieces⟩ := compile_emitted h
    rw [hcontracts] at hk
    obtain ⟨piece, hpiece, rfl⟩ := List.mem_map.1 hk
    obtain ⟨c, -, -, ⟨e⟩⟩ := hpieces.exists_left hpiece
    exact e.nodup_fields hp hs ht

open Lowering in
/-- A secret is stored for a fixed owner, and for somebody whom the sender names. -/
theorem SourceUnit.compile_names_distinct_remittance : ∃ out,
    Passes (remittance.compile {}) out ∧
    (out.circuits.filter (·.verifier.isNone)).map Circuit.names =
      [["secret0_plain", "zk__in0_cipher_R", "zk__out0_cipher_R", "secret3_plain", "zk__in1_cipher_R",
        "zk__out1_cipher_R", "zk__in0_cipher", "zk__in1_cipher", "zk__in2_key_to", "zk__out0_cipher",
        "zk__out1_cipher", "tmp0_plain", "tmp1_plain", "glob_key_me", "glob_key_owner"]] ∧
    (∀ c ∈ out.circuits, c.verifier = none → c.names.Nodup) ∧
      ∀ k ∈ out.contracts, ∀ t ∈ k.structs, (t.fields.map Prod.snd).Nodup :=
  Passes.exists_of_test (by decide +kernel) fun _ hout _ =>
    compile_names_distinct hout rfl (by decide)

end Shroud
