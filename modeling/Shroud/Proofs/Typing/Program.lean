import Shroud.Proofs.Stages
import Shroud.Proofs.Typing.Stmt

/-! # Types of checked programs

The rules speak about the declarations of a program only, so it does not matter which functions were
checked before. `WellTyped` collects what is known when all of them are.
-/

namespace Shroud.Typing

variable {p q : Program} {I : Stmt.Info → Stmt.Info → Prop} {R : Expr → Expr → Prop}
  {fs : List FunctionId} {vs : List VarId} {f : FunctionId}

/-! ## The rules under other analyses -/

section Congr

variable {I : Stmt.Info → Stmt.Info → Prop} {R : Expr → Expr → Prop} {env env' : Env}
  {p q : Program} {e : Expr}

theorem InPlaceAll.congr {es : List Expr} (h : ∀ e ∈ es, ∀ t, InPlace env e t → InPlace env' e t) :
    ∀ {ts : List OwnedType}, InPlaceAll env es ts → InPlaceAll env' es ts := by
  induction es with
  | nil =>
    intro ts hts
    cases ts <;> exact hts
  | cons e es ih =>
    intro ts hts
    cases ts with
    | nil => exact hts
    | cons t ts => exact ⟨h e (by simp) t hts.1, ih (fun e he => h e (by simp [he])) hts.2⟩

section Before

variable (hb : env'.before? = env.before?)

include hb

theorem sameOwner_congr (a b : Owner) : env'.sameOwner a b = env.sameOwner a b := by
  rw [Env.sameOwner, hb, Env.sameOwner]

theorem isAccessible_congr (t : OwnedType) : env'.isAccessible t = env.isAccessible t := by
  rw [Env.isAccessible, sameOwner_congr hb, Env.isAccessible]

theorem fitPlain_congr (a b : OwnedType) : fitPlain env' a b = fitPlain env a b := by
  rw [fitPlain, sameOwner_congr hb, fitPlain]

omit hb in
mutual

theorem fit_congr (hb : env'.before? = env.before?) : ∀ a b : OwnedType, fit env' a b = fit env a b
  | .mk (.tuple as) _, .mk (.tuple bs) _ => by rw [fit, fitAll_congr hb as bs, fit]
  | .mk .bool _, _ | .mk (.uint _) _, _ | .mk (.int _) _, _ | .mk .address _, _
  | .mk .addressPayable _, _ | .mk (.numberLit _) _, _ | .mk (.boolLit _) _, _
  | .mk (.mapping _ _ _) _, _ | .mk (.array _ _) _, _ | .mk .cipher _, _ | .mk .key _, _
  | .mk .randomness _, _ | .mk .proof _, _ => fitPlain_congr hb _ _
  | .mk (.tuple _) _, .mk .bool _ | .mk (.tuple _) _, .mk (.uint _) _
  | .mk (.tuple _) _, .mk (.int _) _ | .mk (.tuple _) _, .mk .address _
  | .mk (.tuple _) _, .mk .addressPayable _ | .mk (.tuple _) _, .mk (.numberLit _) _
  | .mk (.tuple _) _, .mk (.boolLit _) _ | .mk (.tuple _) _, .mk (.mapping _ _ _) _
  | .mk (.tuple _) _, .mk (.array _ _) _ | .mk (.tuple _) _, .mk .cipher _
  | .mk (.tuple _) _, .mk .key _ | .mk (.tuple _) _, .mk .randomness _
  | .mk (.tuple _) _, .mk .proof _ => fitPlain_congr hb _ _

theorem fitAll_congr (hb : env'.before? = env.before?) :
    ∀ as bs : List OwnedType, fitAll env' as bs = fitAll env as bs
  | [], [] | [], _ :: _ | _ :: _, [] => rfl
  | a :: as, b :: bs => by rw [fitAll, fitAll, fit_congr hb a b, fitAll_congr hb as bs]

end

theorem Stands.congr {a b : OwnedType} (h : Stands env a b) : Stands env' a b := by
  rwa [Stands, fit_congr hb]

theorem InPlace.congr {t : OwnedType} (h : InPlace env e t) : InPlace env' e t := by
  induction e using Expr.induct_children generalizing t with
  | h e ih =>
    rcases coerce_cases e t with ⟨i, es, ts, o, rfl, rfl⟩ | hplain
    · exact InPlaceAll.congr (fun e he t => ih e he) h
    · rw [(hplain env').2, fit_congr hb]
      exact (hplain env).2.1 h

theorem commonOwner?_congr (a b : Owner) : commonOwner? env' a b = commonOwner? env a b := by
  rw [commonOwner?, sameOwner_congr hb, commonOwner?]

end Before

theorem isOwnerVar_congr (hp : Program.Alike I R p q) : isOwnerVar q = isOwnerVar p := by
  funext v
  rw [isOwnerVar, hp.isFixed_eq, hp.type_eq, isOwnerVar]

theorem unfixedOwner?_congr (hp : Program.Alike I R p q) (o : Owner) :
    unfixedOwner? q o = unfixedOwner? p o := by
  cases o <;> simp only [unfixedOwner?, isOwnerVar_congr hp]

mutual

theorem declaredFault?_congr {p q : Program} (hp : Program.Alike I R p q) :
    ∀ t : OwnedType, declaredFault? q t = declaredFault? p t
  | .mk t o => by
    have howner : ownerFault? q t o = ownerFault? p t o := by
      simp only [ownerFault?, unfixedOwner?_congr hp, hp.varName_eq, Program.describe]
    rw [declaredFault?, declaredFault?, howner, dataFault?_congr hp t]

theorem dataFault?_congr {p q : Program} (hp : Program.Alike I R p q) :
    ∀ t : DataType, dataFault? q t = dataFault? p t
  | .mapping k l v => by rw [dataFault?, dataFault?, declaredFault?_congr hp v]
  | .array e n => by rw [dataFault?, dataFault?, declaredFault?_congr hp e]
  | .bool | .uint _ | .int _ | .address | .addressPayable | .numberLit _ | .boolLit _ | .tuple _
  | .cipher | .key | .randomness | .proof => by simp only [dataFault?]

end

/-- What is typed in one program is typed in any program with the same declarations. -/
theorem Typed.congr (hb : env'.before? = env.before?)
    (hp : Program.Alike I R env.program env'.program) (h : Typed env e) : Typed env' e := by
  induction h with
  | bool h => exact .bool h
  | number hn h => exact .number hn h
  | me h => exact .me h
  | ident h => exact .ident (by rwa [hp.type_eq])
  | tuple _ h ih => exact .tuple ih h
  | entry _ _ ht hk hu h ihb ihi => exact .entry ihb ihi ht (hk.congr hb) hu h
  | element _ _ ht hn hpub h ihb ihi => exact .element ihb ihi ht hn hpub h
  | call _ hs h ih =>
    refine .call ih ?_ (by rwa [hp.returns_eq])
    intro q hq
    rw [hp.params_eq] at hq
    rw [hp.type_eq]
    exact (hs q hq).congr hb
  | raise _ hpub hl ho h ih => exact .raise ih hpub hl ho h
  | reveal _ hprim ha hl ht hf hn h ih =>
    exact .reveal ih hprim (by rwa [isAccessible_congr hb]) hl ht (by rwa [unfixedOwner?_congr hp])
      (by rwa [sameOwner_congr hb]) h
  | convert _ hprim hd ht hc h ih => exact .convert ih hprim hd ht hc h
  | cast _ hprim hd ht ho hr h ih => exact .cast ih hprim hd ht (by rwa [isAccessible_congr hb]) hr h
  | paren _ h ih => exact .paren ih h
  | fold _ hop hl hs hc hf h ih => exact .fold ih hop hl hs hc hf h
  | choose _ _ _ hpub hbool hd hl hta htb ho hsa hsb h ihc iha ihb =>
    exact .choose ihc iha ihb hpub hbool hd hl hta htb (by rwa [commonOwner?_congr hb])
      (hsa.congr hb) (hsb.congr hb) h
  | decide _ _ _ hpriv hd hl hta htb haa hab hsc hsa hsb h ihc iha ihb =>
    exact .decide ihc iha ihb hpriv hd hl hta htb (by rwa [isAccessible_congr hb])
      (by rwa [isAccessible_congr hb]) (hsc.congr hb) (hsa.congr hb) (hsb.congr hb) h
  | operate _ hop hite hpub hne hsuit hd ht hs h ih =>
    exact .operate ih hop hite hpub hne hsuit hd ht hs h
  | compute _ hop hite hprim hx hacc hsuit hwide henc hd ht hs hn h ih =>
    refine .compute ih hop hite hprim hx (fun e he => ?_) hsuit hwide henc hd ht
      (fun e he => (hs e he).congr hb) hn h
    rw [isAccessible_congr hb]
    exact hacc e he

theorem IsTarget.congr (hp : Program.Alike I R p q) (h : IsTarget p e) : IsTarget q e := by
  induction h with
  | ident hc => exact .ident (by rwa [hp.isConstant_eq])
  | index _ ih => exact .index ih
  | tuple _ ih => exact .tuple ih

theorem Obeys.congr (hb : env'.before? = env.before?) (hs : env'.site = env.site)
    (hp : Program.Alike I R env.program env'.program) {s : Stmt} (h : Obeys env s) :
    Obeys env' s := by
  have hopen : ∀ {c : Expr}, Open env c → Open env' c := fun hc =>
    ⟨hc.1.congr hb hp, (fit_congr hb _ _).trans hc.2⟩
  have hrets : env'.returns = env.returns := by
    simp only [Env.returns, hs, hp.returns_eq]
  have hret : env'.returned = env.returned := by rw [Env.returned, hrets, Env.returned]
  cases s with
  | cond i c yes no => exact ⟨h.1.congr hb hp, h.2.1, by rw [isAccessible_congr hb]; exact h.2.2⟩
  | loop i c body | doLoop i body c | require i c => exact hopen h
  | forLoop i init c update body => exact fun x hx => hopen (h x hx)
  | decl i v init =>
    rw [Obeys, hp.type_eq, declaredFault?_congr hp]
    exact ⟨h.1, fun e he => ⟨(h.2 e he).1.congr hb hp, (h.2 e he).2.congr hb⟩⟩
  | assign i lhs rhs =>
    obtain ⟨hl, ht, hr, hs, hi⟩ := h
    exact ⟨hl.congr hb hp, ht.congr hp, hr.congr hb hp, hs.congr hb, hi.congr hb⟩
  | expr i e => exact Typed.congr hb hp h
  | ret i e =>
    refine ⟨by rw [hrets]; exact h.1, fun x hx => ?_⟩
    obtain ⟨ht, hs, hi⟩ := h.2 x hx
    rw [hret]
    exact ⟨ht.congr hb hp, hs.congr hb, hi.congr hb⟩
  | block i body | leave i | next i => trivial

theorem TypedStmt.congr (hs : env'.site = env.site)
    (hp : Program.Alike I R env.program env'.program) {s : Stmt} (h : TypedStmt env s) :
    TypedStmt env' s := by
  intro t ht
  exact @Obeys.congr I R { env with before? := t.before? } { env' with before? := t.before? } rfl hs
    hp t (h t ht)

end Congr

/-! ## Functions -/

/-- What the rules guarantee about a function. -/
structure FunctionTyped (p : Program) (f : FunctionId) : Prop where
  params : ∀ v ∈ (p.function f).params,
    isOwnerOutside (p.var v).type.owner = true ∧ declaredFault? p (p.var v).type = none
  returns : ∀ t ∈ (p.function f).returns,
    ((p.function f).canBeExternal = true → isOwnerOutside t.owner = true) ∧
      declaredFault? p t = none
  body : TypedStmt { program := p, site := p.site f } (p.function f).body

theorem FunctionTyped.congr (hp : Program.Alike I R p q)
    (hb : (q.function f).body = (p.function f).body) (h : FunctionTyped p f) :
    FunctionTyped q f where
  params v hv := by
    rw [hp.params_eq] at hv
    rw [hp.type_eq, declaredFault?_congr hp]
    exact h.params v hv
  returns t ht := by
    rw [hp.returns_eq] at ht
    rw [hp.canBeExternal_eq, declaredFault?_congr hp]
    exact h.returns t ht
  body := by
    rw [hb]
    exact h.body.congr (hp.site_eq f) hp

/-- Where the initializer of a variable stands. -/
def initEnv (p : Program) (v : VarId) : Env :=
  { program := p, site := ⟨none, (p.var v).contract⟩ }

/-- What the rules guarantee about a state variable. -/
structure VarTyped (p : Program) (v : VarId) : Prop where
  declared : declaredFault? p (p.var v).type = none
  init : ∀ e ∈ (p.var v).init, Typed (initEnv p v) e ∧
    Stands (initEnv p v) e.type (p.var v).type ∧ hasPrivate e = false

theorem VarTyped.congr {v : VarId} (hp : Program.Alike I R p q)
    (hi : (q.var v).init = (p.var v).init) (h : VarTyped p v) : VarTyped q v where
  declared := by
    rw [hp.type_eq, declaredFault?_congr hp]
    exact h.declared
  init e he := by
    rw [hi] at he
    rw [hp.type_eq]
    obtain ⟨ht, hs, hpub⟩ := h.init e he
    have hb : (initEnv q v).before? = (initEnv p v).before? := rfl
    exact ⟨ht.congr hb hp, hs.congr hb, hpub⟩

/-- Some variables and functions of a program are checked. -/
structure Retypes (p q : Program) (vs : List VarId) (fs : List FunctionId) : Prop where
  alike : Program.Alike Eq (fun e e' => e'.plain = e.plain) p q
  facts : ∀ f, (q.function f).facts = (p.function f).facts
  other : ∀ f, f ∉ fs → (q.function f).body = (p.function f).body
  typed : ∀ f ∈ fs, FunctionTyped q f
  otherInit : ∀ v, v ∉ vs → (q.var v).init = (p.var v).init
  typedVars : ∀ v ∈ vs, VarTyped q v
  inits : ∀ v, (q.var v).init.map Expr.plain = (p.var v).init.map Expr.plain

theorem Retypes.refl (p : Program) : Retypes p p [] [] :=
  ⟨.refl (R := fun e e' => e'.plain = e.plain) (fun _ => rfl) (fun _ => rfl) p, fun _ => rfl,
    fun _ _ => rfl, nofun, fun _ _ => rfl, nofun, fun _ => rfl⟩

theorem Retypes.trans {r : Program} {ws : List VarId} {gs : List FunctionId} (h : Retypes p q vs fs)
    (h' : Retypes q r ws gs) (hv : ∀ v ∈ vs, v ∉ ws) (hf : ∀ f ∈ fs, f ∉ gs) :
    Retypes p r (vs ++ ws) (fs ++ gs) where
  alike := h.alike.trans h'.alike (fun _ _ _ => Eq.trans) fun _ _ _ hpq hqr => hqr.trans hpq
  facts f := (h'.facts f).trans (h.facts f)
  other f hm := by
    rw [List.mem_append, not_or] at hm
    exact (h'.other f hm.2).trans (h.other f hm.1)
  typed f hm := by
    rcases List.mem_append.1 hm with hm | hm
    · exact (h.typed f hm).congr h'.alike (h'.other f (hf f hm))
    · exact h'.typed f hm
  otherInit v hm := by
    rw [List.mem_append, not_or] at hm
    exact (h'.otherInit v hm.2).trans (h.otherInit v hm.1)
  typedVars v hm := by
    rcases List.mem_append.1 hm with hm | hm
    · exact (h.typedVars v hm).congr h'.alike (h'.otherInit v (hv v hm))
    · exact h'.typedVars v hm
  inits v := (h'.inits v).trans (h.inits v)

theorem Declares.congr (hp : Program.Alike I R p q) (h : Declares p) : Declares q where
  vars v := by
    rw [hp.type_eq]
    exact h.vars v
  returns f := by
    rw [hp.returns_eq]
    exact h.returns f

theorem function_retypes (h : Passes (function p f) q) (hf : p.Has f)
    (hp : Declares p) (hw : (p.function f).body.Written) : Retypes p q [] [f] := by
  obtain ⟨_, hparams, h⟩ := h.bind
  obtain ⟨_, hreturns, h⟩ := h.bind
  obtain ⟨body, hbody, h⟩ := h.bind
  obtain rfl : q = p.setBody f body := h.pure
  have hbody : Passes (stmt { ({ program := p, site := p.site f } : Env) with before? := none }
    (p.function f).body) body := hbody
  obtain ⟨hr, ht⟩ := stmt_typed (fun _ => hp) hbody hw
  have hq : Program.Alike Eq (fun e e' => e'.plain = e.plain) p (p.setBody f body) :=
    Program.alike_setBody (fun _ => rfl) (fun _ => rfl) hf hr
  have hself := Program.function_setBody_self body hf
  refine ⟨hq, fun g => ?_, fun g hg => ?_, ?_, fun _ _ => rfl, nofun, fun _ => rfl⟩
  · by_cases hg : g = f
    · rw [hg, hself]
    · rw [Program.function_setBody_of_ne body hg]
  · rw [Program.function_setBody_of_ne body (by simpa using hg)]
  simp only [List.mem_singleton, forall_eq]
  refine ⟨fun v hv => ?_, fun t ht => ?_, ?_⟩
  · rw [hq.params_eq] at hv
    rw [hq.type_eq, declaredFault?_congr hq]
    have hv := hparams.forM v hv
    simp only [param] at hv
    obtain ⟨ho, hd⟩ := Passes.of_guard (b := ()) hv
    exact ⟨by simpa using ho, checkDeclared_faultless hd⟩
  · rw [hq.returns_eq] at ht
    rw [hq.canBeExternal_eq, declaredFault?_congr hq]
    obtain ⟨ho, hd⟩ := Passes.of_guard (b := ()) (hreturns.forM t ht)
    exact ⟨by simpa using ho, checkDeclared_faultless hd⟩
  · rw [hself]
    exact ht.congr (hq.site_eq f) hq

theorem functions_retypes : ∀ {p q : Program},
    Passes (fs.foldlM function p) q → fs.Nodup → (∀ f ∈ fs, p.Has f) →
    Declares p → (∀ f ∈ fs, (p.function f).body.Written) → Retypes p q [] fs := by
  induction fs with
  | nil =>
    intro p q h _ _ _ _
    obtain rfl := Passes.pure h
    exact .refl _
  | cons f fs ih =>
    intro p q h hnodup hlt hp hw
    rw [List.foldlM_cons] at h
    obtain ⟨r, hr, h⟩ := h.bind
    obtain ⟨hf, hnodup⟩ := List.nodup_cons.1 hnodup
    have hpr := function_retypes hr (hlt f (by simp)) hp (hw f (by simp))
    have hrq : Retypes r q [] fs := by
      refine ih h hnodup (fun g hg => ?_) (hp.congr hpr.alike) (fun g hg => ?_)
      · exact hpr.alike.has.2 (hlt g (by simp [hg]))
      · rw [hpr.other g (by rintro hgf; simp_all)]
        exact hw g (by simp [hg])
    exact hpr.trans hrq nofun (by simpa using hf)

/-! ## State variables -/

theorem stateVar_retypes {v : VarId} (h : Passes (stateVar p v) q) (hp : Declares p)
    (hw : ∀ e ∈ (p.var v).init, e.Written) : Retypes p q [v] [] := by
  obtain ⟨_, hd, h⟩ := h.bind
  have hd := checkDeclared_faultless hd
  dsimp only at h
  split at h
  · rename_i hnone
    obtain rfl := Passes.pure h
    refine ⟨(Retypes.refl _).alike, fun _ => rfl, fun _ _ => rfl, nofun, fun _ _ => rfl, ?_,
      fun _ => rfl⟩
    rw [List.forall_mem_singleton]
    exact ⟨hd, fun e he => absurd (he : _ = _) (by simp [hnone])⟩
  · rename_i e he
    obtain ⟨x, hx, h⟩ := h.bind
    obtain ⟨y, hy, h⟩ := h.bind
    obtain ⟨hpub, h⟩ := Passes.of_guard (b := ()) h
    obtain rfl : q = p.setInit v y := Passes.pure h
    have hq : Program.Alike Eq (fun e e' => e'.plain = e.plain) p (p.setInit v y) :=
      Program.alike_setInit (fun _ => rfl) (fun _ => rfl)
    obtain ⟨hxt, hplain⟩ := @expr_typed (initEnv p v) hp _ _ hx (hw e he)
    have hc : Coerced (initEnv p v) x y (p.var v).type :=
      coerce_coerced hp (.declarable (OwnedType.isDeclarable_iff.1 (hp.vars v))) hy hxt
    refine ⟨hq, fun _ => rfl, fun _ _ => rfl, nofun, fun w hvw => ?_, ?_, fun w => ?_⟩
    · rw [Program.var_setInit_of_ne y (by simpa using hvw)]
    · rw [List.forall_mem_singleton]
      have hb : (initEnv (p.setInit v y) v).before? = (initEnv p v).before? := rfl
      refine ⟨by rwa [hq.type_eq, declaredFault?_congr hq], fun e' he' => ?_⟩
      obtain rfl : e' = y := Option.some.inj
        ((show _ = some e' from he').symm.trans (Program.init_setInit_self y he))
      rw [hq.type_eq]
      exact ⟨hc.typed.congr hb hq, hc.stands.congr hb, by simpa using hpub⟩
    · by_cases hwv : w = v
      · rw [hwv, Program.init_setInit_self y he, he, Option.map_some, Option.map_some, hc.plain,
          hplain]
      · rw [Program.var_setInit_of_ne y hwv]

theorem stateVars_retypes : ∀ {p q : Program},
    Passes (vs.foldlM stateVar p) q → vs.Nodup → Declares p →
    (∀ v ∈ vs, ∀ e ∈ (p.var v).init, e.Written) → Retypes p q vs [] := by
  induction vs with
  | nil =>
    intro p q h _ _ _
    obtain rfl := Passes.pure h
    exact .refl _
  | cons v vs ih =>
    intro p q h hnodup hp hw
    rw [List.foldlM_cons] at h
    obtain ⟨r, hr, h⟩ := h.bind
    obtain ⟨hv, hnodup⟩ := List.nodup_cons.1 hnodup
    have hpr := stateVar_retypes hr hp (hw v (by simp))
    have hrq : Retypes r q vs [] := by
      refine ih h hnodup (hp.congr hpr.alike) fun w hw' => ?_
      rw [hpr.otherInit w (by rintro hwv; simp_all)]
      exact hw w (by simp [hw'])
    exact hpr.trans hrq (by simpa using hv) nofun

/-! ## Programs -/

theorem declares_of_scoped (h : p.Scoped) : Declares p where
  vars v := by
    rw [Program.var, List.getD_eq_getElem?_getD]
    cases hv : p.vars[v.index]? with
    | none => trivial
    | some x => exact h.types x (List.mem_of_getElem? hv)
  returns f := by
    by_cases hf : p.Has f
    · obtain ⟨fs, n, hf, -⟩ := h.function f hf
      exact hf.returns
    · rw [Program.function, List.getD_eq_getElem?_getD, List.getElem?_eq_none (by omega)]
      rintro _ ⟨⟩

theorem scoped_of_alike (h : Program.Alike I (fun e e' => e'.plain = e.plain) p q) (hp : p.Scoped) :
    q.Scoped := by
  refine h.scoped (fun e e' vis fs he hw => ?_) hp
  rw [← Expr.within_plain, he, Expr.within_plain]
  exact hw

theorem contract_retypes {c : ContractId} (h : Passes (contract p c) q) (hs : p.Scoped)
    (hnodup : (p.contract c).stateVars.Nodup)
    (hw : ∀ f ∈ (p.contract c).functions, (p.function f).body.Written)
    (hi : ∀ v ∈ (p.contract c).stateVars, ∀ e ∈ (p.var v).init, e.Written) :
    Retypes p q (p.contract c).stateVars (p.contract c).functions := by
  obtain ⟨r, hr, h⟩ := h.bind
  have hp := declares_of_scoped hs
  have hpr := stateVars_retypes hr hnodup hp hi
  rw [hpr.alike.contract_eq] at h
  have hrq : Retypes r q [] (p.contract c).functions := by
    refine functions_retypes h (hs.nodup c) (fun f hf => ?_) (hp.congr hpr.alike) fun f hf => ?_
    · exact hpr.alike.has.2 (hs.contract c f hf).1
    · rw [hpr.other f nofun]
      exact hw f hf
  have hpq := hpr.trans hrq (fun _ _ => nofun) nofun
  rwa [List.append_nil] at hpq

theorem contracts_retypes {cs : List ContractId} : ∀ {p q : Program},
    Passes (cs.foldlM contract p) q → cs.Nodup → p.Scoped →
    (cs.flatMap fun c => (p.contract c).stateVars).Nodup →
    (∀ c ∈ cs, ∀ f ∈ (p.contract c).functions, (p.function f).body.Written) →
    (∀ c ∈ cs, ∀ v ∈ (p.contract c).stateVars, ∀ e ∈ (p.var v).init, e.Written) →
    Retypes p q (cs.flatMap fun c => (p.contract c).stateVars)
      (cs.flatMap fun c => (p.contract c).functions) := by
  induction cs with
  | nil =>
    intro p q h _ _ _ _ _
    obtain rfl := Passes.pure h
    exact .refl _
  | cons c cs ih =>
    intro p q h hnodup hs hstate hw hi
    rw [List.foldlM_cons] at h
    obtain ⟨r, hr, h⟩ := h.bind
    obtain ⟨hc, hnodup⟩ := List.nodup_cons.1 hnodup
    rw [List.flatMap_cons] at hstate
    obtain ⟨hstate, hstates, hvs⟩ := List.nodup_append'.1 hstate
    have hpr := contract_retypes hr hs hstate (hw c (by simp)) (hi c (by simp))
    -- a function stands in one contract only
    have hfs : ∀ d ∈ cs, ∀ f ∈ (p.contract c).functions, f ∉ (p.contract d).functions := by
      intro d hd f hf hf'
      have hcd : c = d := (hs.contract c f hf).2.symm.trans (hs.contract d f hf').2
      exact hc (hcd ▸ hd)
    have hrq := ih h hnodup (scoped_of_alike hpr.alike hs)
      (by simpa only [hpr.alike.contract_eq] using hstates)
      (by
        intro d hd f hf
        rw [hpr.alike.contract_eq] at hf
        rw [hpr.other f fun hf' => hfs d hd f hf' hf]
        exact hw d (by simp [hd]) f hf)
      (by
        intro d hd v hv
        rw [hpr.alike.contract_eq] at hv
        rw [hpr.otherInit v fun hv' => hvs hv' (List.mem_flatMap.2 ⟨d, hd, hv⟩)]
        exact hi d (by simp [hd]) v hv)
    simp only [hpr.alike.contract_eq] at hrq
    rw [List.flatMap_cons, List.flatMap_cons]
    refine hpr.trans hrq (fun v hv hv' => hvs hv hv') fun f hf hf' => ?_
    obtain ⟨d, hd, hfd⟩ := List.mem_flatMap.1 hf'
    exact hfs d hd f hf hfd

/-- What the rules guarantee about a program. -/
structure WellTyped (p : Program) : Prop where
  state : ∀ c, c.index < p.contracts.length → ∀ v ∈ (p.contract c).stateVars, VarTyped p v
  function : ∀ f, f.index < p.functions.length → FunctionTyped p f

theorem flatMap_contractIds {α : Type} (p : Program) (g : Contract → List α) :
    (p.contractIds.flatMap fun c => g (p.contract c)) = p.contracts.flatMap g := by
  have hmap : p.contractIds.map p.contract = p.contracts := by
    refine List.ext_getElem (by simp [Program.contractIds]) fun i h₁ h₂ => ?_
    simp [Program.contractIds, Program.contract, List.getElem?_eq_getElem h₂]
  rw [← hmap, List.flatMap_map]

/-- All state variables and functions of a program are checked, contract by contract. -/
theorem withTypes_retypes (h : Passes p.withTypes q) (hs : p.Scoped) (hw : p.Written)
    (hi : p.InitWritten) :
    Retypes p q (p.contractIds.flatMap fun c => (p.contract c).stateVars)
      (p.contractIds.flatMap fun c => (p.contract c).functions) := by
  have hnodup : p.contractIds.Nodup :=
    List.Nodup.map (fun _ _ hab => congrArg ContractId.index hab) List.nodup_range
  have hbody : ∀ c ∈ p.contractIds, ∀ f ∈ (p.contract c).functions, (p.function f).body.Written :=
    fun c _ f hf => hw _ (Program.function_mem (hs.contract c f hf).1)
  have hinit : ∀ c ∈ p.contractIds, ∀ v ∈ (p.contract c).stateVars, ∀ e ∈ (p.var v).init,
      e.Written := by
    intro c _ v hv
    obtain ⟨x, hx, -⟩ := hs.state c v hv
    rw [Program.var, List.getD_eq_getElem?_getD, hx]
    exact hi x (List.mem_of_getElem? hx)
  have hdistinct : (p.contractIds.flatMap fun c => (p.contract c).stateVars).Nodup := by
    rw [flatMap_contractIds p Contract.stateVars]
    exact hs.distinct
  exact contracts_retypes h hnodup hs hdistinct hbody hinit

/-- A program that passes the rules is the same program with types, and well typed. -/
theorem withTypes_wellTyped (h : Passes p.withTypes q) (hs : p.Scoped) (hw : p.Written)
    (hi : p.InitWritten) :
    Program.Alike Eq (fun e e' => e'.plain = e.plain) p q ∧
      (∀ f, (q.function f).facts = (p.function f).facts) ∧ WellTyped q := by
  have hpq := withTypes_retypes h hs hw hi
  have hmem : ∀ c : ContractId, c.index < p.contracts.length → c ∈ p.contractIds := fun c hc =>
    List.mem_map.2 ⟨c.index, List.mem_range.2 hc, rfl⟩
  refine ⟨hpq.alike, hpq.facts, fun c hc v hv => ?_, fun f hf => ?_⟩
  · rw [hpq.alike.contracts] at hc
    rw [hpq.alike.contract_eq] at hv
    exact hpq.typedVars v (List.mem_flatMap.2 ⟨c, hmem c hc, hv⟩)
  · obtain ⟨hc, hf⟩ := hs.mem f (hpq.alike.has.1 hf)
    exact hpq.typed f (List.mem_flatMap.2 ⟨_, hmem _ hc, hf⟩)

end Shroud.Typing
