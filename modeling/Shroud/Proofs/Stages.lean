import Mathlib.Data.List.GetD
import Shroud.Check
import Shroud.Proofs.Scope

/-! # Programs of the same shape

The analyses leave the definitions of a program as they are. They only add to what is known about
statements and expressions, put in implicit conversions, and record facts about functions.
-/

namespace Shroud

/-- What no analysis changes about a variable: all but the initializer. -/
def Variable.declaration (x : Variable) : Variable := { x with init := none }

/-- Programs with the same definitions. Statements are alike. -/
structure Program.Alike (I : Stmt.Info → Stmt.Info → Prop) (R : Expr → Expr → Prop)
    (p q : Program) : Prop where
  contracts : q.contracts = p.contracts
  vars : q.vars.map Variable.declaration = p.vars.map Variable.declaration
  length : q.functions.length = p.functions.length
  function : ∀ f, q.function f =
    { p.function f with body := (q.function f).body, facts := (q.function f).facts }
  body : ∀ f, f.index < p.functions.length →
    Stmt.Alike I R (p.function f).body (q.function f).body

theorem Program.Alike.has {I : Stmt.Info → Stmt.Info → Prop} {R : Expr → Expr → Prop} {p q : Program}
    {f : FunctionId} (h : Program.Alike I R p q) : q.Has f ↔ p.Has f := by
  rw [Has, h.length]

/-! ## Programs by function -/

namespace Program

variable {p : Program} {f : FunctionId} {I : Stmt.Info → Stmt.Info → Prop} {R : Expr → Expr → Prop}
  {g : FunctionId → Function → Function} {v : VarId} {e : Expr}

theorem function_mem (h : p.Has f) : p.function f ∈ p.functions := by
  rw [function, List.getD_eq_getElem?_getD, List.getElem?_eq_getElem h]
  exact List.getElem_mem h

theorem exists_function {f : Function} (h : f ∈ p.functions) :
    ∃ g : FunctionId, p.Has g ∧ p.function g = f := by
  obtain ⟨i, hi, rfl⟩ := List.getElem_of_mem h
  exact ⟨⟨i⟩, hi, by simp [function, List.getElem?_eq_getElem hi]⟩

theorem exists_contract {c : Contract} (h : c ∈ p.contracts) :
    ∃ d : ContractId, d.index < p.contracts.length ∧ p.contract d = c := by
  obtain ⟨i, hi, rfl⟩ := List.getElem_of_mem h
  exact ⟨⟨i⟩, hi, by simp [contract, List.getElem?_eq_getElem hi]⟩

theorem function_mapFunctions (h : f.index < p.functions.length) :
    (p.mapFunctions g).function f = g f (p.function f) := by
  simp [function, mapFunctions, List.getElem?_eq_getElem h]

theorem function_of_not_has (h : ¬ p.Has f) : p.function f = default :=
  List.getD_eq_default _ _ (Nat.le_of_not_lt h)

/-- Only the program's own functions have expressions. -/
theorem has_of_root {t : Stmt} (ht : t ∈ (p.function f).body.walk) {r : Use × Expr} (hr : r ∈ t.roots) :
    p.Has f := by
  by_contra hf
  rw [function_of_not_has hf] at ht
  obtain rfl := List.mem_singleton.1 ht
  cases hr

/-- What was computed for every function, looked up for one. -/
theorem getD_table {α : Type} {g : Function → α} {d : α} (h : f.index < p.functions.length) :
    (p.functions.map g).toArray.getD f.index d = g (p.function f) := by
  simp [function, List.getElem?_eq_getElem h]

theorem getD_table_of_not_has {α : Type} {g : Function → α} {d : α} (h : ¬ p.Has f) :
    (p.functions.map g).toArray.getD f.index d = d := by
  simp [List.getElem?_eq_none (Nat.le_of_not_lt h)]

@[simp] theorem length_mapFunctions (p : Program) (g : FunctionId → Function → Function) :
    (p.mapFunctions g).functions.length = p.functions.length := by
  simp [mapFunctions]

theorem alike_mapFunctions
    (hg : ∀ id f, g id f = { f with body := (g id f).body, facts := (g id f).facts })
    (hb : ∀ f, p.Has f →
      Stmt.Alike I R (p.function f).body (g f (p.function f)).body) :
    Program.Alike I R p (p.mapFunctions g) where
  contracts := rfl
  vars := rfl
  length := length_mapFunctions p g
  function f := by
    by_cases hf : p.Has f
    · rw [function_mapFunctions hf]
      exact hg f _
    · rw [function_of_not_has (by simpa using hf), function_of_not_has hf]
  body f hf := by
    rw [function_mapFunctions hf]
    exact hb f hf

/-! ## Other bodies -/

/-- The program with another body of a function. -/
def setBody (p : Program) (f : FunctionId) (body : Stmt) : Program :=
  { p with functions := p.functions.modify f.index fun g => { g with body } }

theorem function_setBody_self (body : Stmt) (h : p.Has f) :
    (p.setBody f body).function f = { p.function f with body } := by
  simp [setBody, function, List.getElem?_eq_getElem h]

theorem function_setBody_of_ne {g : FunctionId} (body : Stmt) (h : g ≠ f) :
    (p.setBody f body).function g = p.function g := by
  have hne : f.index ≠ g.index := fun heq => h (by cases f; cases g; simp_all)
  simp [setBody, function, hne]

theorem setBody_self (p : Program) (f : FunctionId) : p.setBody f (p.function f).body = p := by
  have hfunctions : (p.functions.modify f.index fun g => { g with body := (p.function f).body }) =
      p.functions := by
    refine List.ext_getElem? fun i => ?_
    rw [List.getElem?_modify]
    by_cases hi : f.index = i
    · subst hi
      cases hf : p.functions[f.index]? <;> simp [function, hf]
    · simp [hi]
  rw [setBody, hfunctions]

/-- Another body of the same shape gives a program of the same shape. -/
theorem alike_setBody {body : Stmt} (hI : ∀ i, I i i) (hR : ∀ e, R e e)
    (hf : p.Has f) (h : Stmt.Alike I R (p.function f).body body) :
    Program.Alike I R p (p.setBody f body) where
  contracts := rfl
  vars := rfl
  length := by simp [setBody]
  function g := by
    by_cases hg : g = f
    · subst hg
      rw [function_setBody_self body hf]
    · rw [function_setBody_of_ne body hg]
  body g _ := by
    by_cases hg : g = f
    · subst hg
      rw [function_setBody_self body hf]
      exact h
    · rw [function_setBody_of_ne body hg]
      exact Stmt.Alike.refl hI hR _

/-! ## Other initializers -/

/-- The program with another initializer of a variable. -/
def setInit (p : Program) (v : VarId) (e : Expr) : Program :=
  { p with vars := p.vars.modify v.index fun x => { x with init := some e } }

theorem var_setInit_of_ne {w : VarId} (e : Expr) (h : w ≠ v) : (p.setInit v e).var w = p.var w := by
  have hne : v.index ≠ w.index := fun heq => h (by cases v; cases w; simp_all)
  simp [setInit, var, hne]

/-- Only declared variables have initializers, and these can get others. -/
theorem init_setInit_self (e' : Expr) (h : (p.var v).init = some e) :
    ((p.setInit v e').var v).init = some e' := by
  rw [var, List.getD_eq_getElem?_getD] at h
  cases hx : p.vars[v.index]? with
  | none =>
    rw [hx] at h
    cases h
  | some x => simp [setInit, var, hx]

theorem setInit_self (h : (p.var v).init = some e) : p.setInit v e = p := by
  have hvars : (p.vars.modify v.index fun x => { x with init := some e }) = p.vars := by
    refine List.ext_getElem? fun i => ?_
    rw [List.getElem?_modify]
    by_cases hi : v.index = i
    · subst hi
      cases hx : p.vars[v.index]? with
      | none => rfl
      | some x =>
        have hinit : x.init = some e := by simpa [var, hx] using h
        simp [← hinit]
    · simp [hi]
  rw [setInit, hvars]

theorem alike_setInit (hI : ∀ i, I i i) (hR : ∀ e, R e e) :
    Program.Alike I R p (p.setInit v e) where
  contracts := rfl
  vars := by
    refine List.ext_getElem? fun i => ?_
    simp only [setInit, List.getElem?_map, List.getElem?_modify]
    split <;> cases p.vars[i]? <;> rfl
  length := rfl
  function _ := rfl
  body _ _ := .refl hI hR _

end Program

namespace Program.Alike

variable {I J K : Stmt.Info → Stmt.Info → Prop} {R Q S : Expr → Expr → Prop} {p q r : Program}

theorem trans (h : Program.Alike I R p q) (h' : Program.Alike J Q q r)
    (hI : ∀ i j k, I i j → J j k → K i k) (hR : ∀ e f g, R e f → Q f g → S e g) :
    Program.Alike K S p r where
  contracts := h'.contracts.trans h.contracts
  vars := h'.vars.trans h.vars
  length := h'.length.trans h.length
  function f := by rw [h'.function f, h.function f]
  body f hf := (h.body f hf).trans hI hR (h'.body f (h.has.2 hf))

theorem refl (hI : ∀ i, I i i) (hR : ∀ e, R e e) (p : Program) : Program.Alike I R p p :=
  ⟨rfl, rfl, rfl, fun _ => rfl, fun _ _ => Stmt.Alike.refl hI hR _⟩

variable (h : Program.Alike I R p q)

include h

theorem contract_eq (c : ContractId) : q.contract c = p.contract c := by
  rw [Program.contract, Program.contract, h.contracts]

theorem var_eq (v : VarId) : (q.var v).declaration = (p.var v).declaration := by
  have hget := congrArg (fun l => l[v.index]?) h.vars
  simp only [List.getElem?_map] at hget
  simp only [Program.var, List.getD_eq_getElem?_getD]
  cases hq : q.vars[v.index]? <;> cases hp : p.vars[v.index]? <;> simp_all

theorem type_eq (v : VarId) : (q.var v).type = (p.var v).type :=
  (congrArg Variable.type (h.var_eq v) :)

theorem isState_eq (v : VarId) : q.isState v = p.isState v :=
  (congrArg Variable.isState (h.var_eq v) :)

theorem isFixed_eq (v : VarId) : (q.var v).isFixed = (p.var v).isFixed :=
  (congrArg Variable.isFixed (h.var_eq v) :)

theorem varName_eq : q.varName = p.varName :=
  funext fun v => (congrArg Variable.name (h.var_eq v) :)

theorem isConstant_eq (v : VarId) : (q.var v).isConstant = (p.var v).isConstant :=
  (congrArg Variable.isConstant (h.var_eq v) :)

theorem isFinal_eq (v : VarId) : (q.var v).isFinal = (p.var v).isFinal :=
  (congrArg Variable.isFinal (h.var_eq v) :)

theorem params_eq (f : FunctionId) :
    (q.function f).params = (p.function f).params := by rw [h.function f]

theorem returns_eq (f : FunctionId) :
    (q.function f).returns = (p.function f).returns := by rw [h.function f]

theorem isConstructor_eq (f : FunctionId) :
    (q.function f).isConstructor = (p.function f).isConstructor := by
  rw [h.function f]
  rfl

theorem canBeExternal_eq (f : FunctionId) :
    (q.function f).canBeExternal = (p.function f).canBeExternal := by
  rw [h.function f]
  rfl

theorem site_eq (f : FunctionId) : q.site f = p.site f := by
  rw [Program.site, h.function f, Program.site]

theorem hasKind {k : Variable.Kind} {v : VarId} (hk : Variable.HasKind p.vars k v) :
    Variable.HasKind q.vars k v := by
  obtain ⟨x, hx, hkx⟩ := hk
  have hget := congrArg (fun l => l[v.index]?) h.vars
  simp only [List.getElem?_map, hx, Option.map_some] at hget
  obtain ⟨y, hy, hxy⟩ := Option.map_eq_some_iff.1 hget
  exact ⟨y, hy, (congrArg Variable.kind hxy).trans hkx⟩

theorem named {vs : List VarId} {names : List String} (hn : Variable.Named p.vars vs names) :
    Variable.Named q.vars vs names := by
  refine ⟨(List.map_congr_left fun v _ => ?_).trans hn.eq, hn.nodup⟩
  have hget := congrArg (fun l => l[v.index]?.map Variable.name) h.vars
  simp only [List.getElem?_map, Option.map_map] at hget
  exact hget

end Program.Alike

/-- What name resolution guarantees is still there. -/
theorem Program.Alike.scoped {I : Stmt.Info → Stmt.Info → Prop} {R : Expr → Expr → Prop}
    {p q : Program} (hR : ∀ e e' vis fs, R e e' → e.Within vis fs → e'.Within vis fs)
    (h : Program.Alike I R p q) (hp : p.Scoped) : q.Scoped where
  function f hf := by
    rw [h.length] at hf
    obtain ⟨fs, n, hs, hfs⟩ := hp.function f hf
    have hbody := h.body f hf
    have hlen : q.vars.length = p.vars.length := by simpa using congrArg List.length h.vars
    refine ⟨fs, n, ?_, ?_⟩
    · rw [h.contract_eq, h.function f]
      refine ⟨?_, ?_, hs.visible, ?_, ?_, ?_, hs.names.imp fun _ => h.named, hs.returns⟩
      · exact hbody.scoped (fun e e' vis => hR e e' vis fs) hs.body
      · obtain ⟨i, ss, hblock⟩ := hs.isBlock
        simp only
        rw [hblock] at hbody
        cases hb : (q.function f).body with
        | block i' ss' => exact ⟨i', ss', rfl⟩
        | _ => rw [hb] at hbody; cases hbody
      · simp only [hbody.declared_eq, hlen]
        exact hs.bound
      · simp only [hbody.declared_eq]
        exact fun v hv => h.hasKind (hs.locals v hv)
      · exact fun v hv => h.hasKind (hs.params v hv)
    · intro g hg
      obtain ⟨h₁, h₂, h₃⟩ := hfs g hg
      refine ⟨by rwa [h.length], by rwa [h.isConstructor_eq], ?_⟩
      rw [h.function g, h.function f]
      exact h₃
  mem f hf := by
    rw [h.length] at hf
    rw [h.contracts, h.contract_eq, h.function f]
    exact hp.mem f hf
  contract c f hf := by
    rw [h.contract_eq] at hf
    obtain ⟨h₁, h₂⟩ := hp.contract c f hf
    rw [h.length, h.function f]
    exact ⟨h₁, h₂⟩
  nodup c := by
    rw [h.contract_eq]
    exact hp.nodup c
  state c v hv := by
    rw [h.contract_eq] at hv
    exact h.hasKind (hp.state c v hv)
  distinct := by
    rw [h.contracts]
    exact hp.distinct
  types x hx := by
    obtain ⟨y, hy, hxy⟩ := List.mem_map.1 (h.vars ▸ List.mem_map_of_mem hx :
      x.declaration ∈ p.vars.map Variable.declaration)
    have htype : y.type = x.type := (congrArg Variable.type hxy :)
    exact htype ▸ hp.types y hy

theorem Variable.HasKind.isState_eq {p : Program} {k : Variable.Kind} {v : VarId}
    (h : Variable.HasKind p.vars k v) : p.isState v = decide (k = .state) := by
  obtain ⟨x, hx, hk⟩ := h
  rw [Program.isState, Program.var, List.getD_eq_getElem?_getD, hx, Option.getD_some,
    Variable.isState, hk]

end Shroud
