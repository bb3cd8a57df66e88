import Shroud.Proofs.Lowering.Emitted

/-! # Emitted functions

What a function of a contract turns into: `HoldsBody` is a function with its body, which takes slices
of the circuit buffers if there is a circuit, and `Wraps` is the wrapper of one that needs it, with
its checks, allocations and the verification. The code around a lowered body calls nothing, and the
call sites of a body get four arguments each, so the calls of an emitted function are known from those
that lowering noted. What the statements that fill a buffer write is left to `Transfer`.
-/

namespace Shroud.Solidity

/-! ## Patched calls -/

variable (s : Settings) (offsets : List (Nat × Nat))

/-- A call with the arguments that hand over its slice. -/
def Call.patched (c : Call) : Call := ⟨c.name, c.count + (Expr.siteArgs s offsets c.site).length, none⟩

theorem calls_eq_nil {ss : List Stmt} (h : ∀ t ∈ ss, t.calls = []) : calls ss = [] :=
  List.flatMap_eq_nil_iff.2 h

@[simp] theorem Expr.calls_nat (n : Nat) : (Expr.nat n).calls = [] := rfl

@[simp] theorem Expr.calls_offset (base : Expr) (n : Nat) : (base.offset n).calls = base.calls := by
  unfold offset
  split <;> simp

theorem Expr.calls_siteArgs (site : Option Nat) :
    (siteArgs s offsets site).flatMap Expr.calls = [] := by
  unfold siteArgs
  split
  · rfl
  · split <;> simp [sliceArgs]

namespace Expr

mutual

theorem calls_patch : ∀ e : Expr, (e.patch s offsets).calls = e.calls.map (Call.patched s offsets)
  | .bool _ | .number _ | .ident _ _ | .sender => rfl
  | .member base _ => by simpa [patch] using calls_patch base
  | .index base idx => by simp [patch, calls_patch base, calls_patch idx]
  | .op _ args => by simp [patch, calls_patchList args]
  | .cast _ e => by simpa [patch] using calls_patch e
  | .call f args site => by
    have hlen : (patchList s offsets args).length = args.length := length_patchList args
    simp [patch, calls_patchList args, calls_siteArgs, Call.patched, hlen]
  | .method target _ args => by simp [patch, calls_patch target, calls_patchList args]
  | .newWords len => by simpa [patch] using calls_patch len
  | .tuple es => by simp [patch, calls_patchList es]

theorem calls_patchList : ∀ es : List Expr, (patchList s offsets es).flatMap calls =
    (es.flatMap calls).map (Call.patched s offsets)
  | [] => rfl
  | e :: es => by simp [patchList, calls_patch e, calls_patchList es]

theorem length_patchList : ∀ es : List Expr, (patchList s offsets es).length = es.length
  | [] => rfl
  | _ :: es => by simp [patchList, length_patchList es]

end

theorem flatMap_calls_toList_map (o : Option Expr) :
    (o.map (patch s offsets)).toList.flatMap calls =
      (o.toList.flatMap calls).map (Call.patched s offsets) := by
  cases o <;> simp [calls_patch]

end Expr

namespace Stmt

mutual

theorem calls_patch : ∀ t : Stmt, (t.patch s offsets).calls = t.calls.map (Call.patched s offsets)
  | .comment _ | .leave | .next => rfl
  | .block body => by simp [patch, calls_patchList body]
  | .cond c yes no => by
    simp [patch, Expr.calls_patch, calls_patchList yes, calls_patchElse no]
  | .loop c body | .doLoop body c => by simp [patch, Expr.calls_patch, calls_patchList body]
  | .forLoop init c update body => by
    simp [patch, calls_patchOption init, calls_patchOption update, calls_patchList body,
      Expr.flatMap_calls_toList_map]
  | .decl _ _ _ init _ | .ret e => by simp [patch, Expr.flatMap_calls_toList_map]
  | .assign lhs rhs | .expr e | .require e => by simp [patch, Expr.calls_patch]

theorem calls_patchList : ∀ ss : List Stmt, Solidity.calls (patchList s offsets ss) =
    (Solidity.calls ss).map (Call.patched s offsets)
  | [] => rfl
  | t :: ss => by simp [patchList, calls_patch t, calls_patchList ss]

theorem calls_patchElse : ∀ no : Option (List Stmt),
    ((patchElse s offsets no).map Solidity.calls).getD [] =
      ((no.map Solidity.calls).getD []).map (Call.patched s offsets)
  | none => rfl
  | some no => by simp [patchElse, calls_patchList no]

theorem calls_patchOption : ∀ o : Option Stmt, (patchOption s offsets o).toList.flatMap calls =
    (o.toList.flatMap calls).map (Call.patched s offsets)
  | none => rfl
  | some t => by simp [patchOption, calls_patch t]

end

end Stmt

/-- Where all sites have slices, numbered calls get four arguments and the others none. -/
theorem calls_patchSites {body body' : List Stmt} (h : patchSites s offsets body = .ok body') :
    calls body' = (calls body).map fun c =>
      ⟨c.name, c.count + (if c.site.isSome then 4 else 0), none⟩ := by
  unfold patchSites at h
  dsimp only at h
  split at h
  · rename_i hcounts
    cases h
    rw [Stmt.calls_patchList]
    refine List.map_congr_left fun c hc => ?_
    have hall := List.countP_eq_length.1 hcounts.2
    cases hsite : c.site with
    | none => simp [Call.patched, hsite, Expr.siteArgs]
    | some i =>
      have hi : i ∈ sites body := by
        rw [sites_eq]
        exact List.mem_filterMap.2 ⟨c, hc, hsite⟩
      have hlt : i < offsets.length := of_decide_eq_true (hall i hi)
      simp [Call.patched, hsite, Expr.siteArgs, List.getElem?_eq_getElem hlt, Expr.sliceArgs]
  · cases h

end Shroud.Solidity

namespace Shroud.Lowering

open Solidity (calls Call)

variable {u : ContractEnv} {l : Lowered} {ss : List Solidity.Stmt} {g : Solidity.Function}
  {sizes : Frames.Sizes} {wordAt : Nat → Solidity.Expr} {fs : List Solidity.Function}
  {layout : List Circuit.Slot} {member : Solidity.Expr} {circuit : Circuit} {vs : List String}
  {f : FunctionId} {out : Output}

/-! ## The code around a body -/

theorem calls_slots (slot : Circuit.Slot) (hw : ∀ i, (wordAt i).calls = []) (hm : member.calls = []) :
    calls (readSlot slot wordAt member) = [] ∧ calls (writeSlot slot wordAt member) = [] := by
  have hword : ∀ t e, e.calls = [] → (fromWord t e).calls = [] ∧ (toWord t e).calls = [] := by
    intro t e he
    unfold fromWord toWord
    split <;> (try split) <;> simp [he]
  unfold readSlot writeSlot
  split
  · constructor <;> exact Solidity.calls_eq_nil (by simp [hw, hm])
  · simp [hw, hm, hword]

theorem calls_returnTargets (s : Settings) (n : Nat) : (returnTargets s n).calls = [] := by
  unfold returnTargets
  split <;> simp

theorem calls_returnDecls (u : ContractEnv) (f : FunctionId) : calls (u.returnDecls f) = [] := by
  refine Solidity.calls_eq_nil fun t ht => ?_
  obtain ⟨i, hi, rfl⟩ := List.mem_mapIdx.1 ht
  rfl

theorem calls_returnStmts (u : ContractEnv) (f : FunctionId) : calls (u.returnStmts f) = [] := by
  unfold ContractEnv.returnStmts ContractEnv.returnExpr?
  split <;> rename_i h
  · rfl
  · split at h
    · cases h
    · cases h
      simp [calls_returnTargets]

/-- A function with a circuit makes the calls of its body. -/
theorem calls_internal (u : ContractEnv) (l : Lowered) (below : Callees) :
    calls (u.internal l below).body = calls l.body := by
  have hslots : ∀ (slots : List Circuit.Slot) {f : Circuit.Slot → List Solidity.Stmt},
      (∀ slot, calls (f slot) = []) → calls (slots.flatMap f) = [] := by
    intro slots f hf
    induction slots with
    | nil => rfl
    | cons slot slots ih => rw [List.flatMap_cons, Solidity.calls_append, hf, ih]; rfl
  have hword : ∀ (buffer start : String) (i : Nat),
      (word (.ident buffer) (.ident start) i).calls = [] := by
    simp [word]
  unfold ContractEnv.internal
  simp only [Solidity.calls_append, Solidity.calls_cons, Solidity.calls_nil, calls_returnDecls,
    calls_returnStmts, ContractEnv.fits, Solidity.Stmt.calls_require]
  rw [hslots _ fun slot => (calls_slots slot (hword _ _) (by simp)).1,
    hslots _ fun slot => (calls_slots slot (hword _ _) (by simp)).2]
  split <;> simp

/-! ## Functions with bodies -/

/-- The parameters that take slices of the circuit buffers. -/
def bufferParams (s : Settings) : List Solidity.Param :=
  [⟨.words none, s.inName, some .memory⟩, ⟨.uint 256, s.inStart, none⟩,
    ⟨.words none, s.outName, some .memory⟩, ⟨.uint 256, s.outStart, none⟩]

/-- The name of the emitted function with a body. -/
def ContractEnv.innerName (u : ContractEnv) (f : FunctionId) : String :=
  let fn := u.program.function f
  if fn.facts.isVerified && fn.facts.isVerifiedOutside && fn.isConstructor then
    u.settings.internalName "constructor"
  else u.bodyName f

/-- An emitted function has the body of a function. -/
structure HoldsBody (u : ContractEnv) (l : Lowered) (g : Solidity.Function) : Prop where
  name : g.name = u.innerName l.id
  /-- It stays a constructor only if it gets no wrapper. -/
  isConstructor : g.isConstructor = true →
    (u.program.function l.id).isConstructor = true ∧
      (u.program.function l.id).facts.isVerifiedOutside = false ∧
      (u.program.function l.id).facts.isVerified = false
  visibility : g.visibility = if (u.program.function l.id).facts.isVerifiedOutside then .internal
    else (u.program.function l.id).visibility
  params : g.params = (u.program.function l.id).params.map (u.param .memory) ++
    if (u.program.function l.id).facts.isVerified then bufferParams u.settings else []
  body : l.body <:+: g.body
  calls : calls g.body = calls l.body

theorem inner_holdsBody (h : inner u l sizes = .ok out) :
    ∃ g, out.functions = [g] ∧ out.verifiers = [] ∧ HoldsBody u l g := by
  rcases inner_cases h with ⟨hv, rfl⟩ | ⟨hv, below, -, rfl⟩
  · refine ⟨_, rfl, rfl, ?_, ?_, rfl, ?_, List.infix_rfl, rfl⟩
    · simp [ContractEnv.innerName, hv, ContractEnv.plain]
    · intro hc
      simp only [ContractEnv.plain, Bool.and_eq_true, Bool.not_eq_true'] at hc
      exact ⟨hc.1, hc.2, hv⟩
    · simp [ContractEnv.plain, ContractEnv.function, hv]
  · refine ⟨_, rfl, rfl, ?_, by rintro ⟨⟩, rfl, ?_, ?_, calls_internal u l _⟩
    · simp [ContractEnv.innerName, hv, ContractEnv.internal, ContractEnv.function]
    · simp [ContractEnv.internal, ContractEnv.function, hv, bufferParams]
    · exact (List.infix_append _ _ _).trans (List.prefix_append _ _).isInfix

/-! ## Wrappers -/

/-- The arguments with which a wrapper calls the body. -/
def ContractEnv.bodyArgs (u : ContractEnv) (f : FunctionId) (ins outs : Nat) :
    List Solidity.Expr :=
  let fn := u.program.function f
  (fn.params.map fun v => .ident (u.program.varName v) v) ++
    if fn.facts.isVerified then
      [.ident u.settings.inName, .nat ins, .ident u.settings.outName, .nat outs]
    else []

/-- The name under which a wrapper calls the body. -/
def ContractEnv.wrappedName (u : ContractEnv) (f : FunctionId) : String :=
  if (u.program.function f).isConstructor then u.settings.internalName "constructor"
  else u.bodyName f

/-- The contract that verifies the proofs for a function, named after the function and its contract. -/
def ContractEnv.ownVerifier (u : ContractEnv) (f : FunctionId) : String :=
  "zk__Verify_" ++ (u.program.contract u.contract).name ++ "_" ++ (u.program.function f).uniqueName

/-- The statement that has a proof verified by the instance of the function's own verifier. -/
def ContractEnv.verification (u : ContractEnv) (f : FunctionId) : Solidity.Stmt :=
  .expr (.method (.ident (u.ownVerifier f ++ "_inst")) u.settings.verifyName
    [.ident u.settings.proofName, .ident u.settings.inName, .ident u.settings.outName])

/-- The statement that calls the body. -/
def ContractEnv.bodyStmt (u : ContractEnv) (f : FunctionId) (call : Solidity.Expr) : Solidity.Stmt :=
  match u.returnExpr? f with
  | some e => .assign e call
  | none => .expr call

/-- Some statements fill in inputs: they declare variables for keys and assign to words, and look up
keys. -/
def Fills (u : ContractEnv) (ss : List Solidity.Stmt) : Prop :=
  ∀ t ∈ ss, (∃ text, t = .comment text) ∨
    t = .decl (.key u.settings.sizes.keyLen) ContractEnv.keyVar (some .memory) none ∨
    (∃ owner : Solidity.Expr, owner.calls = [] ∧
      t = .assign (.ident ContractEnv.keyVar) (.method (pki u.settings) "getPk" [owner])) ∨
    ∃ offset i name v, t = .assign (.index (.ident u.settings.inName) (.nat offset))
      (.index (.ident name v) (.nat i))

theorem Fills.calls (h : Fills u ss) : calls ss = [] := by
  refine Solidity.calls_eq_nil fun t ht => ?_
  rcases h t ht with ⟨_, rfl⟩ | rfl | ⟨owner, ho, rfl⟩ | ⟨_, _, _, _, rfl⟩ <;> simp [pki, *]

theorem Fills.append {ts : List Solidity.Stmt} (hs : Fills u ss) (ht : Fills u ts) :
    Fills u (ss ++ ts) := by
  intro t hmem
  exact (List.mem_append.1 hmem).elim (hs t) (ht t)

theorem Fills.flatten {sss : List (List Solidity.Stmt)} (h : ∀ ss ∈ sss, Fills u ss) :
    Fills u sss.flatten := by
  intro t ht
  obtain ⟨ss, hss, ht⟩ := List.mem_flatten.1 ht
  exact h ss hss t ht

theorem copyIn_fills (offset len : Nat) (name : String) (v : Option VarId) :
    Fills u (u.copyIn offset len (.ident name v)) := by
  intro t ht
  obtain ⟨i, -, rfl⟩ := List.mem_map.1 ht
  exact .inr (.inr (.inr ⟨_, _, _, _, rfl⟩))

theorem copyParam_fills {entry : VarId × Circuit.Wire} (h : u.copyParam layout entry = .ok ss) :
    Fills u ss := by
  obtain ⟨offset, -, h⟩ := bind_eq_ok.1 h
  cases h
  exact List.forall_mem_cons.2 ⟨.inl ⟨_, rfl⟩, copyIn_fills _ _ _ _⟩

theorem copyKeys_fills {keys : List (Label × Circuit.Wire)} (h : u.copyKeys layout keys = .ok ss) :
    Fills u ss := by
  unfold ContractEnv.copyKeys at h
  split at h
  · cases h
    exact nofun
  obtain ⟨copies, hcopies, h⟩ := bind_eq_ok.1 h
  cases h
  have hall : Fills u copies.flatten := by
    refine .flatten fun ss hss => ?_
    obtain ⟨entry, -, hentry⟩ := (mapM_eq_ok_iff.1 hcopies).exists_left hss
    obtain ⟨owner, howner, hentry⟩ := bind_eq_ok.1 hentry
    obtain ⟨offset, -, hentry⟩ := bind_eq_ok.1 hentry
    cases hentry
    have hcalls : owner.calls = [] := by
      unfold ContractEnv.ownerExpr at howner
      split at howner <;> cases howner <;> rfl
    exact List.forall_mem_cons.2 ⟨.inr (.inr (.inl ⟨owner, hcalls, rfl⟩)), copyIn_fills _ _ _ _⟩
  intro t ht
  rcases List.mem_cons.1 ht with rfl | ht
  · exact .inr (.inl rfl)
  · exact hall t ht

/-- An emitted function is the wrapper of a function, and a circuit the wrapper's. It requires that
there are as many outputs as the proof of the circuit takes, allocates as many inputs and fills in
what it knows, calls the body with the slices behind its own and then has the proof verified, with
the inputs and outputs that the body got. A constructor receives the verifiers before that. -/
structure Wraps (u : ContractEnv) (f : FunctionId) (circuit : Circuit) (g : Solidity.Function) :
    Prop where
  name : g.name = (u.program.function f).name
  isConstructor : g.isConstructor = (u.program.function f).isConstructor
  visibility : g.visibility = (u.program.function f).visibility
  verifier : circuit.verifier = some (u.ownVerifier f)
  body : ∃ received fills,
    (∀ t ∈ received, ∃ x y : String, t = .assign (.ident x) (.ident y)) ∧ Fills u fills ∧ g.body =
    received ++
    [.require (.op .eq [.member (.ident u.settings.outName) "length", .nat circuit.totalOuts]),
      .decl (.words none) u.settings.inName (some .memory)
        (some (.newWords (.nat circuit.totalIns)))] ++
    fills ++ u.returnDecls f ++
    [u.bodyStmt f (.call (u.wrappedName f) (u.bodyArgs f circuit.inSize circuit.outSize) none),
      u.verification f] ++
    u.returnStmts f

theorem wrapper_wraps {r : Solidity.Function × Circuit} (h : u.wrapper l sizes = .ok r) :
    Wraps u l.id r.2 r.1 := by
  obtain ⟨body, -, h⟩ := bind_eq_ok.1 h
  obtain ⟨⟨⟨params, keys⟩, c⟩, -, h⟩ := bind_eq_ok.1 h
  obtain ⟨copiedParams, hparams, h⟩ := bind_eq_ok.1 h
  obtain ⟨copiedKeys, hkeys, h⟩ := bind_eq_ok.1 h
  cases h
  refine ⟨rfl, rfl, rfl, rfl, [], copiedParams.flatten ++ copiedKeys, nofun, ?_, ?_⟩
  · refine .append (.flatten fun ss hss => ?_) (copyKeys_fills hkeys)
    obtain ⟨entry, -, hentry⟩ := (mapM_eq_ok_iff.1 hparams).exists_left hss
    exact copyParam_fills hentry
  · simp only [← List.append_assoc]
    rfl

/-- The one call of a wrapper is that of the body. -/
theorem Wraps.calls (h : Wraps u f circuit g) : Solidity.calls g.body =
      [⟨u.wrappedName f, (u.program.function f).params.length +
        if (u.program.function f).facts.isVerified then 4 else 0, none⟩] := by
  obtain ⟨received, fills, hreceived, hfills, hbody⟩ := h.body
  have hassign : Solidity.calls received = [] := by
    refine Solidity.calls_eq_nil fun t ht => ?_
    obtain ⟨x, y, rfl⟩ := hreceived t ht
    simp
  have hargs : ∀ ins outs, (u.bodyArgs f ins outs).flatMap Solidity.Expr.calls = [] := by
    intro ins outs
    unfold ContractEnv.bodyArgs
    dsimp only
    split <;> simp [List.flatMap_map]
  have hlen : ∀ ins outs, (u.bodyArgs f ins outs).length = (u.program.function f).params.length +
      if (u.program.function f).facts.isVerified then 4 else 0 := by
    intro ins outs
    unfold ContractEnv.bodyArgs
    dsimp only
    split <;> simp
  have hcall : ∀ ins outs,
      (u.bodyStmt f (.call (u.wrappedName f) (u.bodyArgs f ins outs) none)).calls =
        [⟨u.wrappedName f, (u.bodyArgs f ins outs).length, none⟩] := by
    intro ins outs
    unfold ContractEnv.bodyStmt ContractEnv.returnExpr?
    split <;> rename_i hr
    · split at hr <;> cases hr
      simp [calls_returnTargets, hargs]
    · simp [hargs]
  rw [hbody]
  simp [hassign, hfills.calls, calls_returnDecls, calls_returnStmts, hcall, hlen,
    ContractEnv.verification]

theorem outer_wraps (h : outer u l sizes = .ok out) :
    ((u.program.function l.id).facts.isVerifiedOutside = false ∧ out.functions = [] ∧
      out.verifiers = []) ∨
    ((u.program.function l.id).facts.isVerifiedOutside = true ∧ ∃ g circuit,
      out.functions = [g] ∧ out.circuits = [circuit] ∧ out.verifiers = [u.verifier l.id] ∧
        Wraps u l.id circuit g) := by
  rcases outer_cases h with ⟨hv, rfl⟩ | ⟨hv, r, hr, rfl⟩
  · exact .inl ⟨hv, rfl, rfl⟩
  · exact .inr ⟨hv, r.1, r.2, rfl, rfl, rfl, wrapper_wraps hr⟩

/-! ## Constructors -/

theorem calls_receiveVerifiers (vs : List String) (g : Solidity.Function) :
    calls (receiveVerifiers vs g).body = calls g.body := by
  have hassign : calls ((vs.map fun v => (v, Settings.instanceName v)).map fun e =>
      Solidity.Stmt.assign (.ident e.2) (.ident ("_" ++ e.2))) = [] :=
    Solidity.calls_eq_nil (by simp)
  show calls (_ ++ g.body) = _
  rw [Solidity.calls_append, hassign]
  rfl

/-- Receiving the verifiers does not change what a constructor wraps. -/
theorem Wraps.receiveVerifiers (h : Wraps u f circuit g) (vs : List String) :
    Wraps u f circuit (receiveVerifiers vs g) := by
  obtain ⟨received, fills, hreceived, hfills, hbody⟩ := h.body
  let assigned : List Solidity.Stmt := (vs.map fun v => (v, Settings.instanceName v)).map fun e =>
    .assign (.ident e.2) (.ident ("_" ++ e.2))
  have hassigned : ∀ t ∈ assigned ++ received,
      ∃ x y : String, t = .assign (.ident x) (.ident y) := by
    exact List.forall_mem_append.2 ⟨List.forall_mem_map.2 fun e _ => ⟨_, _, rfl⟩, hreceived⟩
  refine ⟨h.name, h.isConstructor, h.visibility, h.verifier, assigned ++ received, fills, hassigned,
    hfills, ?_⟩
  show assigned ++ g.body = _
  rw [hbody]
  simp only [List.append_assoc]

/-- The verifiers are received by the first constructor, or by a new one. -/
theorem addVerifiers_eq (vs : List String) (fs : List Solidity.Function) : ∃ gs,
    List.Forall₂ (fun f g => g = f ∨ f.isConstructor = true ∧ g = receiveVerifiers vs f) fs gs ∧
      (addVerifiers vs fs = gs ∨ addVerifiers vs fs = receiveVerifiers vs emptyConstructor :: gs) := by
  have hsame : List.Forall₂ (fun f g : Solidity.Function =>
      g = f ∨ f.isConstructor = true ∧ g = receiveVerifiers vs f) fs fs :=
    List.forall₂_same.2 fun _ _ => .inl rfl
  unfold addVerifiers
  split
  · exact ⟨fs, hsame, .inl rfl⟩
  split
  · rename_i i hi
    refine ⟨fs.modify i (receiveVerifiers vs), ?_, .inl rfl⟩
    obtain ⟨hlt, hcons, -⟩ := List.findIdx?_eq_some_iff_getElem.1 hi
    rw [List.forall₂_iff_get]
    refine ⟨(List.length_modify ..).symm, fun j hj hj' => ?_⟩
    simp only [List.get_eq_getElem, List.getElem_modify]
    split
    · rename_i hij
      subst hij
      exact .inr ⟨hcons, rfl⟩
    · exact .inl rfl
  · exact ⟨fs, hsame, .inr rfl⟩

theorem mem_addVerifiers (hg : g ∈ fs) (hc : g.isConstructor = false) : g ∈ addVerifiers vs fs := by
  obtain ⟨gs, hall, heq⟩ := addVerifiers_eq vs fs
  obtain ⟨g', hg', hsame⟩ := hall.exists_right hg
  have hmem : g ∈ gs := by
    rcases hsame with rfl | ⟨hcons, -⟩
    · exact hg'
    · rw [hc] at hcons
      cases hcons
  rcases heq with heq | heq
  · exact heq ▸ hmem
  · exact heq ▸ List.mem_cons_of_mem _ hmem

theorem of_mem_addVerifiers (h : g ∈ addVerifiers vs fs) :
    g = receiveVerifiers vs emptyConstructor ∨
      ∃ f ∈ fs, g = f ∨ f.isConstructor = true ∧ g = receiveVerifiers vs f := by
  obtain ⟨gs, hall, heq⟩ := addVerifiers_eq vs fs
  have hmem : g = receiveVerifiers vs emptyConstructor ∨ g ∈ gs := by
    rcases heq with heq | heq
    · exact .inr (heq ▸ h)
    · exact List.mem_cons.1 (heq ▸ h)
  exact hmem.imp_right fun hmem => hall.exists_left hmem

/-! ## Contracts -/

/-- The call of a function as it stands in emitted code. -/
def ContractEnv.emittedCall (u : ContractEnv) (f : FunctionId) : Call where
  name := calleeName u.program u.settings f
  count := (u.program.function f).params.length +
    if (u.program.function f).facts.isVerified then 4 else 0
  site := none

namespace Emitted

variable {k : Solidity.Contract} {cs : List Circuit}

theorem exists_patched (e : Emitted u k cs) (hf : f ∈ (u.program.contract u.contract).functions) :
    ∃ l ∈ e.patched, l.id = f := by
  obtain ⟨l, hl, hlow⟩ := (mapM_eq_ok_iff.1 e.lowered).exists_right hf
  obtain ⟨l', hl', hpatch⟩ := (mapM_eq_ok_iff.1 e.patches).exists_right hl
  obtain ⟨body, rfl, -⟩ := patchLowered_eq hpatch
  exact ⟨_, hl', (id_of_lowerFunction hlow :)⟩

/-- Every function of the contract has its body in an emitted function. -/
theorem exists_holdsBody (e : Emitted u k cs) (hl : l ∈ e.patched) :
    ∃ g ∈ e.output.functions, HoldsBody u l g := by
  obtain ⟨pieces, hpieces, hfunctions, -⟩ := outputs_pieces e.outputs
  obtain ⟨piece, hpiece, -, hinner⟩ := hpieces.exists_right hl
  obtain ⟨g, hg, -, hbody⟩ := inner_holdsBody hinner
  rw [hfunctions]
  exact ⟨g, List.mem_flatMap.2 ⟨_, hpiece, by simp [hg]⟩, hbody⟩

/-- An emitted function has the body of a function or wraps one. -/
theorem of_mem_functions (e : Emitted u k cs) (hg : g ∈ e.output.functions) :
    ∃ l ∈ e.patched, HoldsBody u l g ∨
      (u.program.function l.id).facts.isVerifiedOutside = true ∧ ∃ c ∈ cs, Wraps u l.id c g := by
  obtain ⟨pieces, hpieces, hfunctions, hcircuits, -⟩ := outputs_pieces e.outputs
  rw [hfunctions] at hg
  obtain ⟨piece, hpiece, hg⟩ := List.mem_flatMap.1 hg
  obtain ⟨l, hl, houter, hinner⟩ := hpieces.exists_left hpiece
  refine ⟨l, hl, ?_⟩
  rcases List.mem_append.1 hg with hg | hg
  · rcases outer_wraps houter with ⟨-, hnone, -⟩ | ⟨hv, w, c, hw, hc, -, hwraps⟩
    · rw [hnone] at hg
      cases hg
    · rw [hw, List.mem_singleton] at hg
      subst hg
      refine .inr ⟨hv, c, ?_, hwraps⟩
      rw [e.circuits, hcircuits]
      exact List.mem_flatMap.2 ⟨_, hpiece, by simp [hc]⟩
  · obtain ⟨g', hg', -, hbody⟩ := inner_holdsBody hinner
    rw [hg', List.mem_singleton] at hg
    subst hg
    exact .inl hbody

/-- The calls in a patched body are of functions that the source calls, with slices for those that
have circuits. -/
theorem calls_patched {unit : SourceUnit} (e : Emitted u k cs) (hp : Passes unit.check u.program)
    (hl : l ∈ e.patched) : (∀ g ∈ l.circuit.called, Relation.TransGen u.program.Calls l.id g) ∧
      (calls l.body).Perm (l.circuit.called.map u.emittedCall) := by
  obtain ⟨l', -, hlow, hpatch⟩ := e.exists_body hl
  obtain ⟨body, rfl, hplain, hverified⟩ := patchLowered_eq hpatch
  obtain ⟨-, hcalled, hperm⟩ := lowerFunction_calls hp hlow
  have hnumbered : ∀ fs n, (numbered u.program u.settings n fs).map (fun c =>
      (⟨c.name, c.count + (if c.site.isSome then 4 else 0), none⟩ : Call)) =
        fs.map u.emittedCall := by
    intro fs
    induction fs with
    | nil => exact fun _ => rfl
    | cons f fs ih =>
      intro n
      by_cases hv : (u.program.function f).facts.isVerified = true <;>
        simp [numbered, hv, ih, ContractEnv.emittedCall]
  refine ⟨hcalled, ?_⟩
  by_cases hv : (u.program.function l'.id).facts.isVerified = true
  · obtain ⟨offsets, -, hsites⟩ := hverified hv
    rw [Solidity.calls_patchSites _ _ hsites]
    exact (hperm.map _).trans (.of_eq (hnumbered _ 0))
  · rw [hplain (by simpa using hv)]
    -- a function without a circuit calls none that has one, so its calls have no numbers
    have hsame : ∀ c ∈ numbered u.program u.settings 0 l'.circuit.called,
        (⟨c.name, c.count + (if c.site.isSome then 4 else 0), none⟩ : Call) = c := by
      intro c hc
      obtain ⟨g, hg, hsite⟩ := of_mem_numbered hc
      have hnone : c.site = none := by
        have hgv : (u.program.function g).facts.isVerified = false := by
          by_contra hgv
          exact hv ((SourceUnit.check_graded hp).of_transGen (hcalled g hg) (by simpa using hgv))
        rw [hgv] at hsite
        simpa using hsite
      obtain ⟨name, count, site⟩ := c
      cases hnone
      rfl
    refine hperm.trans (.of_eq ?_)
    rw [← hnumbered _ 0]
    exact ((List.map_congr_left hsame).trans (List.map_id _)).symm

end Emitted

end Shroud.Lowering
