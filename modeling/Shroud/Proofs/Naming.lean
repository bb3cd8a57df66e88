import Shroud.Proofs.Lowering.EntryPoints
import Shroud.Proofs.Lowering.Formed

/-! # Generated names that clash

Generated names are put together from given ones, with an underscore or a number in between. A number
is all digits, so it can be read off after an underscore. Given names may have underscores and digits of
their own, and then two generated names can be the same: what is shown here is just where.
-/

namespace Shroud

/-! ## Overloads -/

namespace Scope

variable {names : List String} {m : String} {i j k : Nat}

theorem exists_take_count (h : k < names.count m) :
    ∃ i, names[i]? = some m ∧ (names.take i).count m = k := by
  induction names generalizing k with
  | nil => simp at h
  | cons n names ih =>
    by_cases hn : n = m ∧ k = 0
    · exact ⟨0, by simp [hn]⟩
    · obtain ⟨i, hi, hcount⟩ := ih (k := k - if n = m then 1 else 0) (by grind)
      exact ⟨i + 1, hi, by grind⟩

theorem count_take_lt (hij : i < j) (hi : names[i]? = some m) :
    (names.take i).count m < (names.take j).count m := by
  calc (names.take i).count m < (names.take (i + 1)).count m := by
        rw [List.take_add_one, hi]
        simp
    _ ≤ (names.take j).count m := (List.take_sublist_take_left hij).count_le m

theorem count_take_lt_count (hi : names[i]? = some m) : (names.take i).count m < names.count m := by
  simpa using count_take_lt (List.getElem?_eq_some_iff.1 hi).1 hi

/-- No name that is given once is one that is given more often, with the number of an overload. -/
def SuffixFree (names : List String) : Prop :=
  ∀ m k, k < names.count m → 1 < names.count m → names.count (m ++ "_" ++ Nat.repr k) ≠ 1

/-- Two functions get one name just where an overload gets the name of a function without overloads. -/
theorem nodup_uniqueName_iff :
    (names.zipIdx.map fun x => uniqueName names x.2 x.1).Nodup ↔ SuffixFree names := by
  have hget : ∀ i, (names.zipIdx.map fun x => uniqueName names x.2 x.1)[i]? =
      names[i]?.map (uniqueName names i) := by
    intro i
    cases h : names[i]? <;> simp [h]
  constructor
  · intro h m k hk hm hn
    obtain ⟨i, hi, hcount⟩ := exists_take_count hk
    obtain ⟨j, hj⟩ := List.mem_iff_getElem?.1 (List.count_pos_iff.1 (hn ▸ Nat.one_pos))
    have hij : i = j := by
      refine (List.getElem?_inj (by simpa using (List.getElem?_eq_some_iff.1 hi).1) h).1 ?_
      rw [hget, hget, hi, hj, Option.map_some, Option.map_some, uniqueName, uniqueName, if_pos hm,
        if_neg (by omega), hcount]
    subst hij
    rw [hi] at hj
    rw [← Option.some.inj hj] at hn
    omega
  · intro h
    rw [List.nodup_iff_getElem?_ne_getElem?]
    intro i j hij hj heq
    obtain ⟨b, hb⟩ : ∃ b, names[j]? = some b := ⟨_, List.getElem?_eq_getElem (by simpa using hj)⟩
    obtain ⟨a, ha⟩ : ∃ a, names[i]? = some a :=
      ⟨_, List.getElem?_eq_getElem (hij.trans (List.getElem?_eq_some_iff.1 hb).1)⟩
    have hca := count_take_lt_count ha
    have hcb := count_take_lt_count hb
    have hcount := count_take_lt hij ha
    rw [hget, hget, ha, hb, Option.map_some, Option.map_some, Option.some.injEq, uniqueName,
      uniqueName] at heq
    split_ifs at heq with hma hmb hmb
    · obtain ⟨rfl, hrepr⟩ := append_underscore_inj heq (underscore_notMem_repr _)
        (underscore_notMem_repr _)
      exact hcount.ne (Nat.repr_inj.1 hrepr)
    · exact h a _ hca hma (heq ▸ by omega)
    · exact h b _ hcb hmb (heq ▸ by omega)
    · subst heq
      omega

end Scope

namespace SourceUnit

variable {u : SourceUnit} {p : Program} {s : Settings} {out : Compilation}

/-- The functions of resolved contracts are named after those of the source. -/
theorem resolve_uniqueNames (h : u.resolve = .ok p) :
    List.Forall₂ (fun c d => d.name = c.name ∧ d.functions.map (fun f => (p.function f).uniqueName) =
      (c.functions.map Source.Function.name).zipIdx.map fun x =>
        Scope.uniqueName (c.functions.map Source.Function.name) x.2 x.1) u.contracts p.contracts := by
  refine (resolve_signed h).imp fun c d hd => ⟨hd.name, ?_⟩
  have hunique := congrArg (List.map fun x => x.2.2.2) hd.functions
  simp only [List.map_map, List.zipIdx_map] at hunique ⊢
  exact hunique

/-- **Overloads clash just with functions that are called like them.** The functions of a resolved
contract have different unique names if and only if none without overloads has the name of another one
that is overloaded, with the number of an overload. -/
theorem resolve_uniqueNames_nodup_iff (h : u.resolve = .ok p) :
    List.Forall₂ (fun c d => (d.functions.map fun f => (p.function f).uniqueName).Nodup ↔
      Scope.SuffixFree (c.functions.map Source.Function.name)) u.contracts p.contracts := by
  refine (resolve_uniqueNames h).imp fun c d hd => ?_
  rw [hd.2]
  exact Scope.nodup_uniqueName_iff

/-- A function is called like the first overload of another one. -/
def suffixed : SourceUnit := .single "Suffixed" [] [
  { name := "g", params := [{ name := "a", type := .mk (.uint 8) .all }], body := [] },
  { name := "g", body := [] },
  { name := "g_0", body := [] }]

theorem resolve_uniqueNames_nodup_iff_suffixed : ∃ p, suffixed.resolve = .ok p ∧
    List.Forall₂ (fun c d => (d.functions.map fun f => (p.function f).uniqueName).Nodup ↔
      Scope.SuffixFree (c.functions.map Source.Function.name)) suffixed.contracts p.contracts :=
  ⟨_, rfl, resolve_uniqueNames_nodup_iff rfl⟩

theorem suffixed_clash : ∃ p, suffixed.resolve = .ok p ∧
    ∃ d ∈ p.contracts, ¬ (d.functions.map fun f => (p.function f).uniqueName).Nodup := by
  refine ⟨_, rfl, by decide +kernel⟩

end SourceUnit

/-! ## Verifiers -/

namespace Program

/-- The contracts and functions with wrappers. -/
def proven (p : Program) : List (String × String) :=
  p.contracts.flatMap fun d => (d.functions.filter fun f =>
    (p.function f).facts.isVerifiedOutside).map fun f => (d.name, (p.function f).uniqueName)

end Program

namespace Lowering

variable {u : ContractEnv} {k : Solidity.Contract} {cs : List Circuit}

/-- The circuits with verifiers are those of the wrappers. -/
theorem Emitted.proven (e : Emitted u k cs) :
    (cs.filter Circuit.isProven).map (fun c => ((c.contract, c.function), c.verifier)) =
      ((u.program.contract u.contract).functions.filter fun f =>
        (u.program.function f).facts.isVerifiedOutside).map fun f =>
          ((u.contractName, (u.program.function f).uniqueName), some (u.verifier f)) := by
  obtain ⟨pieces, hpieces, -, hcircuits, -⟩ := outputs_pieces e.outputs
  rw [e.circuits, hcircuits, ← e.patched_ids]
  generalize e.patched = ls at hpieces
  clear hcircuits
  induction hpieces with
  | nil => rfl
  | cons hturns _ ih =>
    have hinner := inner_cases hturns.2
    rcases outer_cases hturns.1 with ⟨hv, ha⟩ | ⟨hv, r, hr, ha⟩
    · rcases hinner with ⟨-, hb⟩ | ⟨-, below, -, hb⟩ <;>
        simp [ha, hb, hv, ih, Circuit.isProven, ContractEnv.circuit]
    · obtain ⟨body, wires, c, -, -, hr⟩ := circuit_of_wrapper hr
      rcases hinner with ⟨-, hb⟩ | ⟨-, below, -, hb⟩ <;>
        simp [ha, hb, hv, hr, ih, List.filter_cons, Circuit.isProven, ContractEnv.circuit,
          ContractEnv.function]

end Lowering

/-- Verifiers are named alike just where the names of contract and function are divided differently. -/
theorem Program.lower_proven {p : Program} {s : Settings} {out : Compilation}
    (h : p.lower s = .ok out) :
    (out.circuits.filter Circuit.isProven).map (fun c => (c.contract, c.function)) = p.proven ∧
      out.verifiers = p.proven.map fun x => Settings.verifierName x.1 x.2 := by
  obtain ⟨pieces, hpieces, -, hcircuits⟩ := lower_emitted h
  have hproven : (out.circuits.filter Circuit.isProven).map
      (fun c => ((c.contract, c.function), c.verifier)) =
        p.proven.map fun x => (x, some (Settings.verifierName x.1 x.2)) := by
    rw [hcircuits, proven, ← Typing.flatMap_contractIds, List.filter_flatMap, List.map_flatMap,
      List.map_flatMap, eq_comm, ← List.forall₂_eq_eq_eq]
    refine List.rel_flatMap hpieces fun c piece ⟨e⟩ => ?_
    rw [List.forall₂_eq_eq_eq, e.proven, List.map_map]
    rfl
  have hif : ∀ c : Circuit, (if c.isProven then c.verifier else none) = c.verifier := by
    intro c
    cases h : c.verifier <;> simp [Circuit.isProven, h]
  constructor
  · simpa [Function.comp_def] using congrArg (List.map Prod.fst) hproven
  · simpa [Compilation.verifiers, List.filterMap_filter, List.filterMap_map, hif] using
      congrArg (List.filterMap Prod.snd) hproven

namespace SourceUnit

variable {u : SourceUnit} {p : Program} {s : Settings} {out : Compilation}

/-- Without overloads, no two wrappers belong to the same names. -/
theorem check_proven_nodup (h : Passes u.check p)
    (hnames : (u.contracts.map Source.Contract.name).Nodup)
    (hfunctions : ∀ c ∈ u.contracts, (c.functions.map Source.Function.name).Nodup) :
    p.proven.Nodup := by
  obtain ⟨q, -, hq, -⟩ := check_stages h
  have halike := check_alike hq h
  have hsource := resolve_uniqueNames hq
  have hunique : ∀ f, (p.function f).uniqueName = (q.function f).uniqueName := fun f => by
    rw [halike.function f]
  simp only [Program.proven, halike.contracts, hunique, List.nodup_flatMap]
  constructor
  · intro d hd
    obtain ⟨c, hc, -, hcd⟩ := hsource.exists_left hd
    refine List.Nodup.of_map Prod.snd ?_
    rw [List.map_map]
    refine List.Nodup.sublist (List.filter_sublist.map _) (?_ : (d.functions.map _).Nodup)
    refine hcd ▸ Scope.nodup_uniqueName_iff.2 fun m k _ hm => ?_
    exact absurd (List.nodup_iff_count_le_one.1 (hfunctions c hc) m) (by omega)
  · have hcontracts : (q.contracts.map Contract.name).Nodup := by
      convert hnames using 1
      rw [← List.forall₂_eq_eq_eq, List.forall₂_map_left_iff, List.forall₂_map_right_iff]
      exact (hsource.imp fun _ _ hd => hd.1).flip
    refine (List.pairwise_map.1 hcontracts).imp fun hne => ?_
    intro x hx hy
    obtain ⟨f, -, rfl⟩ := List.mem_map.1 hx
    obtain ⟨g, -, heq⟩ := List.mem_map.1 hy
    exact hne (congrArg Prod.fst heq).symm

/-- **Verifiers clash just where a contract's name has a part of a function's name.** In a unit without
overloads, whose contracts have different names, two circuits share a verifier if and only if the
contract of one is called like that of the other with more behind an underscore, and the function of the
other begins with that. -/
theorem compile_verifiers_nodup_iff (h : Passes (u.compile s) out)
    (hnames : (u.contracts.map Source.Contract.name).Nodup)
    (hfunctions : ∀ c ∈ u.contracts, (c.functions.map Source.Function.name).Nodup) :
    out.verifiers.Nodup ↔ ∀ a ∈ out.circuits, a.isProven → ∀ b ∈ out.circuits, b.isProven →
      ∀ d, b.contract = a.contract ++ "_" ++ d → a.function ≠ d ++ "_" ++ b.function := by
  obtain ⟨p, hp, hlower⟩ := compile_checked h
  obtain ⟨hproven, hverifiers⟩ := Program.lower_proven hlower
  have hname : ∀ c f c' f' : String, Settings.verifierName c f = Settings.verifierName c' f' ↔
      c ++ "_" ++ f = c' ++ "_" ++ f' := by
    simp [Settings.verifierName, String.append_assoc]
  rw [hverifiers, List.nodup_map_iff_inj_on (check_proven_nodup hp hnames hfunctions), ← hproven]
  simp only [List.forall_mem_map, List.mem_filter, and_imp, hname]
  constructor
  · intro hinj a ha hpa b hb hpb d hc hf
    have heq := hinj a ha hpa b hb hpb (by simp only [hc, hf, String.append_assoc])
    simp [hc, ← String.toList_inj] at heq
  · intro hfree a ha hpa b hb hpb heq
    rcases append_underscore_cases heq with ⟨hc, hf⟩ | ⟨d, hc, hf⟩ | ⟨d, hc, hf⟩
    · exact Prod.ext hc hf
    · exact absurd hf (hfree a ha hpa b hb hpb d hc)
    · exact absurd hf (hfree b hb hpb a ha hpa d hc)

/-- A contract that takes a secret. -/
def safe (name function : String) : Source.Contract where
  name
  stateVars := [{ name := "x", type := .mk (.uint 8) .me }]
  functions := [
    { name := function
      params := [{ name := "v", type := .mk (.uint 8) .me }]
      body := [.assign {} "x" none "v"] }]

/-- The name of a contract goes on with that of a function of the other. -/
def nested : SourceUnit where
  contracts := [safe "A" "b_c", safe "A_b" "c"]

theorem compile_verifiers_nodup_iff_nested : ∃ out, Passes (nested.compile {}) out ∧
    (out.circuits.filter Circuit.isProven).map (fun c => (c.contract, c.function)) =
      [("A", "b_c"), ("A_b", "c")] ∧
    (out.verifiers.Nodup ↔ ∀ a ∈ out.circuits, a.isProven → ∀ b ∈ out.circuits, b.isProven →
      ∀ d, b.contract = a.contract ++ "_" ++ d → a.function ≠ d ++ "_" ++ b.function) :=
  Passes.exists_of_test (by decide +kernel) fun _ hout _ =>
    compile_verifiers_nodup_iff hout (by decide) (by decide)

theorem nested_shared : ∃ out, Passes (nested.compile {}) out ∧ ¬ out.verifiers.Nodup ∧
    (nested.contracts.map Source.Contract.name).Nodup ∧
    ∀ c ∈ nested.contracts, (c.functions.map Source.Function.name).Nodup :=
  Passes.exists_of_test (by decide +kernel) fun _ _ _ => ⟨by decide, by decide⟩

end SourceUnit

/-! ## Settings -/

section Numbers

variable {a b : String}

theorem append_digit_inj {i j : Nat} (hi : i < 10) (hj : j < 10)
    (h : a ++ Nat.repr i = b ++ Nat.repr j) : a = b := by
  have hlist := congrArg String.toList h
  rw [String.toList_append, String.toList_append, Nat.toList_repr, Nat.toList_repr,
    Nat.toDigits_of_lt_base hi, Nat.toDigits_of_lt_base hj] at hlist
  exact String.toList_inj.1 (List.append_inj' hlist rfl).1

/-- Two names that are the same with some numbers go on with a number, one after the other. -/
theorem eq_append_repr_of_append_repr_eq {m n : Nat} (hne : a ≠ b)
    (h : a ++ Nat.repr m = b ++ Nat.repr n) :
    ∃ k > 0, b = a ++ Nat.repr k ∨ a = b ++ Nat.repr k := by
  have hsplit : ∀ c : String, ∀ i ≥ 10,
      c ++ Nat.repr i = c ++ Nat.repr (i / 10) ++ Nat.repr (i % 10) := fun c i hi => by
    rw [String.append_assoc, ← Nat.repr_eq_repr_append_repr hi]
  have hmod : ∀ i, i % 10 < 10 := fun i => Nat.mod_lt i (by decide)
  -- the last digits are taken off until one of the numbers has no more
  induction m using Nat.strongRecOn generalizing n with
  | ind m ih =>
    by_cases hm : m < 10 <;> by_cases hn : n < 10
    · exact absurd (append_digit_inj hm hn h) hne
    · rw [hsplit b n (by omega)] at h
      exact ⟨n / 10, by omega, .inr (append_digit_inj hm (hmod n) h)⟩
    · rw [hsplit a m (by omega)] at h
      exact ⟨m / 10, by omega, .inl (append_digit_inj (hmod m) hn h).symm⟩
    · rw [hsplit a m (by omega), hsplit b n (by omega)] at h
      exact ih (m / 10) (by omega) (append_digit_inj (hmod m) (hmod n) h)

/-- Two names are the same with some numbers just where one is the other with a number. -/
theorem append_repr_eq_iff (hne : a ≠ b) : (∃ m n, a ++ Nat.repr m = b ++ Nat.repr n) ↔
    ∃ k > 0, b = a ++ Nat.repr k ∨ a = b ++ Nat.repr k := by
  refine ⟨fun ⟨m, n, h⟩ => eq_append_repr_of_append_repr_eq hne h, ?_⟩
  rintro ⟨k, hk, h⟩
  have hrepr : Nat.repr (10 * k) = Nat.repr k ++ Nat.repr 0 := by
    rw [Nat.repr_eq_repr_append_repr (by omega)]
    simp
  rcases h with rfl | rfl
  · exact ⟨10 * k, 0, by rw [hrepr, String.append_assoc]⟩
  · exact ⟨0, 10 * k, by rw [hrepr, String.append_assoc]⟩

end Numbers

namespace Settings

open Circuit (Stream)

variable {s : Settings}

/-- The names that are generated into the scope of a function, but for those of returned values. -/
def scopeNames (s : Settings) : List String :=
  [s.inName, s.outName, s.inStart, s.outStart, s.dataName, s.proofName]

theorem checkNames_nodup {seen names : List String} (h : checkNames seen names = .ok ())
    (hseen : seen.Nodup) : (seen ++ names).Nodup := by
  induction names generalizing seen with
  | nil => simpa using hseen
  | cons name names ih =>
    unfold checkNames at h
    split_ifs at h with h₁ h₂
    rw [List.append_cons]
    exact ih h (List.nodup_append'.2 ⟨hseen, by simp, by simpa using h₂⟩)

/-- The name of a returned value ends with a digit. -/
theorem start_ne_returnVar (a : String) (i : Nat) : a ++ "_start_idx" ≠ s.returnVar i := by
  intro h
  have hsplit : a ++ "_start" ++ "_" ++ "idx" = s.returnName ++ "_" ++ Nat.repr i := by
    rw [← returnVar, ← h, String.append_assoc, String.append_assoc]
    rfl
  have hi := (append_underscore_inj hsplit (by decide) (underscore_notMem_repr i)).2
  have hx : 'x' ∈ Nat.toDigits 10 i := Nat.toList_repr ▸ hi ▸ by decide
  exact absurd (Nat.isDigit_of_mem_toDigits (by decide) (by decide) hx) (by decide)

/-- The names in the scope of a function are different. -/
structure ScopeApart (s : Settings) : Prop where
  nodup : s.scopeNames.Nodup
  returned : ∀ i, s.returnVar i ∉ s.scopeNames
  injective : Function.Injective s.returnVar

theorem scopeApart_iff (h : s.names.Nodup) : s.ScopeApart ↔
    ∀ x ∈ [s.inName, s.outName, s.dataName, s.proofName],
      x ≠ s.inStart ∧ x ≠ s.outStart ∧ ∀ i, x ≠ s.returnVar i := by
  have hin : s.inName ≠ s.inStart := by simp [inStart, ← String.toList_inj]
  have hout : s.outName ≠ s.outStart := by simp [outStart, ← String.toList_inj]
  have hstart : s.inStart = s.outStart ↔ s.inName = s.outName := String.append_left_inj _
  have hinj : Function.Injective s.returnVar := fun i j h =>
    Nat.repr_inj.1 ((String.append_right_inj _).1 h)
  have hends : ∀ i, s.inStart ≠ s.returnVar i ∧ s.outStart ≠ s.returnVar i := fun i =>
    ⟨start_ne_returnVar _ i, start_ne_returnVar _ i⟩
  have hall : s.ScopeApart ↔ s.scopeNames.Nodup ∧ ∀ i, s.returnVar i ∉ s.scopeNames :=
    ⟨fun h => ⟨h.nodup, h.returned⟩, fun h => ⟨h.1, h.2, hinj⟩⟩
  rw [hall]
  simp only [names, List.nodup_cons, List.mem_cons, List.not_mem_nil, or_false, not_or] at h
  simp only [scopeNames, List.nodup_cons, List.mem_cons, List.not_mem_nil, or_false, not_or]
  grind

theorem underscore_notMem_suffix (t : DataType) : '_' ∉ (Stream.suffix t).toList := by
  unfold Stream.suffix
  split <;> decide

/-- Where the variables of the two buffers have different names. -/
theorem nextName_ne_iff (h : s.inName ≠ s.outName) :
    (∀ a b : Stream, a.base = s.inName → b.base = s.outName → ∀ t t', a.nextName t ≠ b.nextName t') ↔
      ¬ ∃ k > 0, s.outName = s.inName ++ Nat.repr k ∨ s.inName = s.outName ++ Nat.repr k := by
  rw [← append_repr_eq_iff h]
  constructor
  · rintro hne ⟨m, n, heq⟩
    let wires (n : Nat) : List Circuit.Wire := List.replicate n ⟨"", .bool, default, none⟩
    refine hne ⟨s.inName, default, s, wires m⟩ ⟨s.outName, default, s, wires n⟩ rfl rfl .bool .bool ?_
    simp [Stream.nextName, wires, heq]
  · rintro hfree a b ha hb t t' heq
    refine hfree ⟨a.wires.length, b.wires.length, ?_⟩
    exact ha ▸ hb ▸
      (append_underscore_inj heq (underscore_notMem_suffix t) (underscore_notMem_suffix t')).1

/-- **Validated names clash just where one is made from another.** With names that pass the check, the
names in the scope of a function and those of the variables of the two buffers are different if and only
if no given name is the start of a buffer or a returned value, and neither buffer is called like the
other with a number. -/
theorem validate_names_distinct_iff (h : s.validate = .ok ()) :
    s.ScopeApart ∧ (∀ a b : Stream, a.base = s.inName → b.base = s.outName →
      ∀ t t', a.nextName t ≠ b.nextName t') ↔
    (∀ x ∈ [s.inName, s.outName, s.dataName, s.proofName],
      x ≠ s.inStart ∧ x ≠ s.outStart ∧ ∀ i, x ≠ s.returnVar i) ∧
      ¬ ∃ k > 0, s.outName = s.inName ++ Nat.repr k ∨ s.inName = s.outName ++ Nat.repr k := by
  have hnames : s.names.Nodup := checkNames_nodup h List.nodup_nil
  have hne : s.inName ≠ s.outName := by
    simp only [names, List.nodup_cons, List.mem_cons, not_or] at hnames
    exact hnames.1.1
  rw [scopeApart_iff hnames, nextName_ne_iff hne]

theorem validate_names_distinct_iff_default : ({} : Settings).validate = .ok () ∧
    (ScopeApart {} ∧ (∀ a b : Stream, a.base = inName {} → b.base = outName {} →
      ∀ t t', a.nextName t ≠ b.nextName t') ↔
    (∀ x ∈ [inName {}, outName {}, dataName {}, proofName {}],
      x ≠ inStart {} ∧ x ≠ outStart {} ∧ ∀ i, x ≠ returnVar {} i) ∧
      ¬ ∃ k > 0, outName {} = inName {} ++ Nat.repr k ∨ inName {} = outName {} ++ Nat.repr k) :=
  ⟨by decide, validate_names_distinct_iff (by decide)⟩

/-- Outputs may be called like the start of the inputs. -/
theorem validate_started : ∃ s : Settings, s.validate = .ok () ∧ ¬ s.ScopeApart :=
  ⟨{ outName := "zk__in_start_idx" }, by decide, fun h => absurd h.nodup (by decide)⟩

end Settings

end Shroud
