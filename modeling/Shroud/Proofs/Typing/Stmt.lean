import Shroud.Proofs.Typing.Expr

/-! # Types of checked statements

`Obeys` says what the rules guarantee about a statement itself. Every statement of a checked
function obeys them at its own place, and is written as before.
-/

namespace Shroud.Typing

/-- Something can be stored into the expression. -/
inductive IsTarget (p : Program) : Expr → Prop
  | ident {i : Expr.Info} {v : VarId} : (p.var v).isConstant = false → IsTarget p (.ident i v)
  | index {i : Expr.Info} {base idx : Expr} : IsTarget p base → IsTarget p (.index i base idx)
  | tuple {i : Expr.Info} {es : List Expr} : (∀ e ∈ es, IsTarget p e) → IsTarget p (.tuple i es)

/-- A public truth value. -/
def Open (env : Env) (c : Expr) : Prop := Typed env c ∧ fit env c.type (.ofAll .bool) = .exact

/-- The types of what the function around a place returns. -/
def Env.returns (env : Env) : List OwnedType :=
  (env.site.function.map fun f => (env.program.function f).returns).getD []

/-- The type of what the function around a place returns. -/
def Env.returned (env : Env) : OwnedType := Typing.returned env.returns

/-- The rules for a statement itself. -/
def Obeys (env : Env) : Stmt → Prop
  | .cond _ c _ _ => Typed env c ∧ c.type.type.isBool = true ∧ env.isAccessible c.type = true
  | .loop _ c _ | .doLoop _ _ c | .require _ c => Open env c
  | .forLoop _ _ c _ _ => ∀ x ∈ c, Open env x
  | .decl _ v init => declaredFault? env.program (env.program.var v).type = none ∧
    ∀ e ∈ init, Typed env e ∧ Stands env e.type (env.program.var v).type
  | .assign _ lhs rhs => Typed env lhs ∧ IsTarget env.program lhs ∧ Typed env rhs ∧
    Stands env rhs.type lhs.type ∧ InPlace env rhs lhs.type
  | .expr _ e => Typed env e
  | .ret _ e => (e = none ↔ env.returns = []) ∧
    ∀ x ∈ e, Typed env x ∧ Stands env x.type env.returned ∧ InPlace env x env.returned
  | .block _ _ | .leave _ | .next _ => True

variable {env : Env} {o' o : Option Expr}

theorem openCondition_open (hp : Declares env.program) {c c' : Expr}
    (h : Passes (openCondition env c) c') (hw : c.Written) :
    Open env c' ∧ c'.plain = c.plain := by
  obtain ⟨x, hx, h⟩ := h.bind
  obtain ⟨hfit, h⟩ := Passes.of_guard (b := ()) h
  obtain rfl := h.pure
  obtain ⟨ht, hplain⟩ := expr_typed hp hx hw
  exact ⟨⟨ht, not_not.1 hfit⟩, hplain⟩

theorem branchCondition_typed (hp : Declares env.program) {c c' : Expr}
    (h : Passes (branchCondition env c) c') (hw : c.Written) :
    Typed env c' ∧ c'.type.type.isBool = true ∧ env.isAccessible c'.type = true ∧
      c'.plain = c.plain := by
  obtain ⟨x, hx, h⟩ := h.bind
  obtain ⟨hbool, h⟩ := Passes.of_guard (b := ()) h
  obtain ⟨hacc, h⟩ := Passes.of_guard (b := ()) h
  obtain rfl := h.pure
  obtain ⟨ht, hplain⟩ := expr_typed hp hx hw
  refine ⟨ht, by simpa using hbool, ?_, hplain⟩
  cases hpriv : c'.type.isPrivate <;> simp_all [Env.isAccessible]

mutual

/-- A declared type without faults is well owned. -/
theorem wellOwned_of_declaredFault? {p : Program} : ∀ {t : OwnedType}, declaredFault? p t = none →
    t.WellOwned
  | .mk t o, h => by
    rw [declaredFault?, Option.or_eq_none_iff] at h
    refine ⟨?_, wellOwned_of_dataFault? h.2⟩
    intro ho
    have hfault := h.1
    unfold ownerFault? at hfault
    split at hfault
    · cases hfault
    · split_ifs at hfault with hopen
      simpa [ho] using hopen

theorem wellOwned_of_dataFault? {p : Program} : ∀ {t : DataType}, dataFault? p t = none →
    t.WellOwned
  | .mapping k l v, h => by
    rw [dataFault?] at h
    split_ifs at h with hk
    exact ⟨by simpa using hk, wellOwned_of_declaredFault? h⟩
  | .array e n, h => by
    rw [dataFault?] at h
    exact wellOwned_of_declaredFault? h
  | .bool, _ | .uint _, _ | .int _, _ | .address, _ | .addressPayable, _ | .numberLit _, _
  | .boolLit _, _ | .tuple _, _ | .cipher, _ | .key, _ | .randomness, _ | .proof, _ => trivial

end

theorem checkDeclared_faultless {p : Program} {t : OwnedType} {c : Context} {u : Unit}
    (h : Passes (checkDeclared p t c) u) : declaredFault? p t = none := by
  unfold checkDeclared at h
  split at h
  · exact h.throw.elim
  · assumption

mutual

theorem checkTarget_isTarget : ∀ {e : Expr} {u : Unit}, Passes (checkTarget env e) u →
    IsTarget env.program e
  | .ident i v, _, h => by
    simp only [checkTarget] at h
    split at h
    · exact h.throw.elim
    · rename_i hc
      exact .ident (by simpa using hc)
  | .index _ base _, _, h => by
    rw [checkTarget] at h
    exact .index (checkTarget_isTarget h)
  | .tuple _ es, _, h => by
    rw [checkTarget] at h
    exact .tuple (checkTargets_isTarget h)
  | .bool _ _, _, h | .number _ _, _, h | .me _, _, h | .builtin _ _ _ _, _, h | .call _ _ _, _, h
  | .reclassify _ _ _ _, _, h | .cast _ _ _ _, _, h => by
    rw [checkTarget] at h
    · exact h.throw.elim
    all_goals nofun

theorem checkTargets_isTarget : ∀ {es : List Expr} {u : Unit}, Passes (checkTargets env es) u →
    ∀ e ∈ es, IsTarget env.program e
  | [], _, _ => nofun
  | e :: es, _, h => by
    obtain ⟨_, he, hes⟩ := h.bind
    simpa using ⟨checkTarget_isTarget he, checkTargets_isTarget hes⟩

end

/-- What can be stored into has a type that values are converted to. -/
theorem IsTarget.isConcrete (hp : Declares env.program) {e : Expr} (h : IsTarget env.program e)
    (ht : Typed env e) : e.type.type.IsConcrete := by
  induction h with
  | ident _ =>
    cases ht with
    | ident h =>
      rw [h.type_eq]
      exact .declarable (OwnedType.isDeclarable_iff.1 (hp.vars _))
  | index _ _ =>
    cases ht with
    | entry hb _ hm _ hu h =>
      have hv := hb.isValue hp
      rw [hm] at hv
      rw [h.type_eq, hu.type_eq]
      cases hv with
      | declarable hd => exact .declarable (OwnedType.isDeclarable_iff.1 hd.2)
    | element hb _ hm _ _ h =>
      have hv := hb.isValue hp
      rw [hm] at hv
      rw [h.type_eq]
      cases hv with
      | declarable hd => exact .declarable (OwnedType.isDeclarable_iff.1 hd)
  | tuple _ ih =>
    cases ht with
    | tuple hes h =>
      rw [h.type_eq]
      refine .tuple fun t hm => ?_
      obtain ⟨e, he, rfl⟩ := List.mem_map.1 hm
      exact ih e he (hes e he)

/-- A return gives back what the function around returns. -/
theorem returnValue_typed (hp : Declares env.program) {span : Span}
    (h : Passes (returnValue env span o) o') (hw : Option.Rel (fun e _ => e.Written) o o) :
    (o' = none ↔ env.returns = []) ∧
      (∀ x ∈ o', Typed env x ∧ Stands env x.type env.returned ∧ InPlace env x env.returned) ∧
      Option.Rel (fun e e' => e'.plain = e.plain) o o' := by
  have hret : ∀ t ∈ env.returns, t.IsDeclarable := by
    unfold Env.returns
    cases env.site.function with
    | none => rintro _ ⟨⟩
    | some f => exact hp.returns f
  unfold returnValue at h
  dsimp only at h
  cases hw with
  | none =>
    split at h <;> try contradiction
    · rename_i hnil
      obtain rfl := h.pure
      exact ⟨iff_of_true rfl hnil, by rintro _ ⟨⟩, .none⟩
    · exact h.throw.elim
  | @some e _ hw =>
    split at h <;> try contradiction
    · exact h.throw.elim
    · rename_i heq hne
      cases heq
      obtain ⟨x, hx, h⟩ := h.bind
      obtain ⟨y, hy, h⟩ := h.bind
      obtain rfl := h.pure
      obtain ⟨hxt, hxp⟩ := expr_typed hp hx hw
      have hc := coerce_coerced hp (returned_isConcrete hret) hy hxt
      refine ⟨iff_of_false (by simp) hne, ?_, .some (hc.plain.trans hxp)⟩
      rintro _ ⟨⟩
      exact ⟨hc.typed, hc.stands, coerce_inPlace hp (returned_isConcrete hret) hy hxt⟩

/-- All statements in a statement obey the rules at their own places. -/
def TypedStmt (env : Env) (s : Stmt) : Prop :=
  ∀ t ∈ s.walk, Obeys { env with before? := t.before? } t

theorem typedStmt_iff {s : Stmt} : TypedStmt env s ↔
    Obeys { env with before? := s.before? } s ∧ ∀ c ∈ s.children, TypedStmt env c :=
  Stmt.forall_walk_iff

/-- The same statement, with the types and conversions of its expressions. -/
abbrev Retyped : Stmt → Stmt → Prop := Stmt.Alike Eq fun e e' => e'.plain = e.plain

abbrev RetypedList : List Stmt → List Stmt → Prop :=
  Stmt.AlikeList Eq fun e e' => e'.plain = e.plain

abbrev RetypedOption : Option Stmt → Option Stmt → Prop :=
  Stmt.AlikeOption Eq fun e e' => e'.plain = e.plain

theorem openConditionOption_open (hp : Declares env.program)
    (h : Passes (openConditionOption env o) o') (hw : Option.Rel (fun e _ => e.Written) o o) :
    (∀ x ∈ o', Open env x) ∧ Option.Rel (fun e e' => e'.plain = e.plain) o o' := by
  cases hw with
  | none =>
    obtain rfl := Passes.pure h
    exact ⟨by rintro _ ⟨⟩, .none⟩
  | some hw =>
    obtain ⟨x, hx, h⟩ := h.bind
    obtain rfl := h.pure
    obtain ⟨ho, hplain⟩ := openCondition_open hp hx hw
    refine ⟨?_, .some hplain⟩
    rintro _ ⟨⟩
    exact ho

mutual

/-- A checked statement obeys the rules. -/
theorem stmt_typed (hp : ∀ b, Declares ({ env with before? := b } : Env).program) :
    ∀ {s s' : Stmt} {before : Option (Partition Label)},
    Passes (stmt { env with before? := before } s) s' → s.Written →
      Retyped s s' ∧ TypedStmt env s'
  | .block i body, s', _, h, .block _ hw => by
    obtain ⟨body', hb, h⟩ := Passes.bind h
    obtain rfl := h.pure
    obtain ⟨hr, ht⟩ := stmts_typed hp hb hw
    exact ⟨.block rfl hr, typedStmt_iff.2 ⟨trivial, ht⟩⟩
  | .cond i c yes no, s', _, h, .cond _ hwc hwy hwn => by
    obtain ⟨c', hc, h⟩ := Passes.bind h
    obtain ⟨yes', hy, h⟩ := h.bind
    obtain ⟨no', hn, h⟩ := h.bind
    obtain rfl := h.pure
    obtain ⟨hct, hbool, hacc, hcp⟩ := branchCondition_typed (hp _) hc hwc
    obtain ⟨hyr, hyt⟩ := stmt_typed hp hy hwy
    obtain ⟨hnr, hnt⟩ := stmtOption_typed hp hn hwn
    refine ⟨.cond rfl hcp hyr hnr, typedStmt_iff.2 ⟨⟨hct, hbool, hacc⟩, ?_⟩⟩
    simpa [Stmt.children] using ⟨hyt, hnt⟩
  | .loop i c body, s', _, h, .loop _ hwc hwb => by
    obtain ⟨c', hc, h⟩ := Passes.bind h
    obtain ⟨body', hb, h⟩ := h.bind
    obtain rfl := h.pure
    obtain ⟨hct, hcp⟩ := openCondition_open (hp _) hc hwc
    obtain ⟨hbr, hbt⟩ := stmt_typed hp hb hwb
    exact ⟨.loop rfl hcp hbr, typedStmt_iff.2 ⟨hct, by simpa [Stmt.children] using hbt⟩⟩
  | .doLoop i body c, s', _, h, .doLoop _ hwb hwc => by
    obtain ⟨c', hc, h⟩ := Passes.bind h
    obtain ⟨body', hb, h⟩ := h.bind
    obtain rfl := h.pure
    obtain ⟨hct, hcp⟩ := openCondition_open (hp _) hc hwc
    obtain ⟨hbr, hbt⟩ := stmt_typed hp hb hwb
    exact ⟨.doLoop rfl hbr hcp, typedStmt_iff.2 ⟨hct, by simpa [Stmt.children] using hbt⟩⟩
  | .forLoop i init c update body, s', _, h, .forLoop _ hwi hwc hwu hwb => by
    obtain ⟨init', hi, h⟩ := Passes.bind h
    obtain ⟨c', hc, h⟩ := h.bind
    obtain ⟨body', hb, h⟩ := h.bind
    obtain ⟨update', hu, h⟩ := h.bind
    obtain rfl := h.pure
    obtain ⟨hir, hit⟩ := stmtOption_typed hp hi hwi
    obtain ⟨hct, hcp⟩ := openConditionOption_open (hp _) hc hwc
    obtain ⟨hbr, hbt⟩ := stmt_typed hp hb hwb
    obtain ⟨hur, hut⟩ := stmtOption_typed hp hu hwu
    exact ⟨.forLoop rfl hir hcp hur hbr,
      typedStmt_iff.2 ⟨hct, Stmt.forall_children_forLoop.2 ⟨hit, hbt, hut⟩⟩⟩
  | .decl i v none, s', _, h, _ => by
    obtain ⟨_, hd, h⟩ := Passes.bind h
    obtain rfl := h.pure
    exact ⟨.decl rfl .none, typedStmt_iff.2 ⟨⟨checkDeclared_faultless hd, nofun⟩, nofun⟩⟩
  | .decl i v (some e), s', _, h, .decl _ (.some hw) => by
    obtain ⟨_, hd, h⟩ := Passes.bind h
    obtain ⟨x, hx, h⟩ := h.bind
    obtain ⟨y, hy, h⟩ := h.bind
    obtain rfl := h.pure
    obtain ⟨hxt, hxp⟩ := expr_typed (hp _) hx hw
    have hc := coerce_coerced (hp _) (.declarable (OwnedType.isDeclarable_iff.1 ((hp none).vars v)))
      hy hxt
    refine ⟨.decl rfl (.some (hc.plain.trans hxp)),
      typedStmt_iff.2 ⟨⟨checkDeclared_faultless hd, ?_⟩, nofun⟩⟩
    rintro _ ⟨⟩
    exact ⟨hc.typed, hc.stands⟩
  | .assign i lhs rhs, s', _, h, .assign _ hwl hwr => by
    obtain ⟨l, hl, h⟩ := Passes.bind h
    obtain ⟨_, ht, h⟩ := h.bind
    obtain ⟨x, hx, h⟩ := h.bind
    obtain ⟨y, hy, h⟩ := h.bind
    obtain rfl := h.pure
    obtain ⟨hlt, hlp⟩ := expr_typed (hp _) hl hwl
    obtain ⟨hxt, hxp⟩ := expr_typed (hp _) hx hwr
    have htarget := checkTarget_isTarget ht
    have hconcrete := htarget.isConcrete (hp _) hlt
    have hc := coerce_coerced (hp _) hconcrete hy hxt
    exact ⟨.assign rfl hlp (hc.plain.trans hxp), typedStmt_iff.2
      ⟨⟨hlt, htarget, hc.typed, hc.stands, coerce_inPlace (hp _) hconcrete hy hxt⟩, nofun⟩⟩
  | .expr i e, s', _, h, .expr _ hw => by
    obtain ⟨x, hx, h⟩ := Passes.bind h
    obtain rfl := h.pure
    obtain ⟨hxt, hxp⟩ := expr_typed (hp _) hx hw
    exact ⟨.expr rfl hxp, typedStmt_iff.2 ⟨hxt, nofun⟩⟩
  | .require i e, s', _, h, .require _ hw => by
    obtain ⟨x, hx, h⟩ := Passes.bind h
    obtain rfl := h.pure
    obtain ⟨hxt, hxp⟩ := openCondition_open (hp _) hx hw
    exact ⟨.require rfl hxp, typedStmt_iff.2 ⟨hxt, nofun⟩⟩
  | .ret i e, s', _, h, .ret _ hw => by
    obtain ⟨x, hx, h⟩ := Passes.bind h
    obtain rfl := h.pure
    obtain ⟨hnone, hxt, hxp⟩ := returnValue_typed (hp _) hx hw
    exact ⟨.ret rfl hxp, typedStmt_iff.2 ⟨⟨hnone, hxt⟩, nofun⟩⟩
  | .leave i, s', _, h, _ => by
    obtain rfl := Passes.pure h
    exact ⟨.leave rfl, typedStmt_iff.2 ⟨trivial, nofun⟩⟩
  | .next i, s', _, h, _ => by
    obtain rfl := Passes.pure h
    exact ⟨.next rfl, typedStmt_iff.2 ⟨trivial, nofun⟩⟩

theorem stmts_typed (hp : ∀ b, Declares ({ env with before? := b } : Env).program) :
    ∀ {ss ss' : List Stmt} {before : Option (Partition Label)},
    Passes (stmts { env with before? := before } ss) ss' →
      Stmt.AlikeList (fun _ _ => True) (fun e _ => e.Written) ss ss →
      RetypedList ss ss' ∧ ∀ s ∈ ss', TypedStmt env s
  | [], _, _, h, _ => by
    obtain rfl := Passes.pure h
    exact ⟨.nil, nofun⟩
  | s :: ss, _, _, h, .cons hw hws => by
    obtain ⟨s', hs, h⟩ := Passes.bind h
    obtain ⟨ss', hss, h⟩ := h.bind
    obtain rfl := h.pure
    obtain ⟨hr, ht⟩ := stmt_typed hp hs hw
    obtain ⟨hrs, hts⟩ := stmts_typed hp hss hws
    exact ⟨.cons hr hrs, by simpa using ⟨ht, hts⟩⟩

theorem stmtOption_typed (hp : ∀ b, Declares ({ env with before? := b } : Env).program) :
    ∀ {o o' : Option Stmt} {before : Option (Partition Label)},
    Passes (stmtOption { env with before? := before } o) o' →
      Stmt.AlikeOption (fun _ _ => True) (fun e _ => e.Written) o o →
      RetypedOption o o' ∧ ∀ s ∈ o', TypedStmt env s
  | none, _, _, h, _ => by
    obtain rfl := Passes.pure h
    exact ⟨.none, nofun⟩
  | some s, _, _, h, .some hw => by
    obtain ⟨s', hs, h⟩ := Passes.bind h
    obtain rfl := h.pure
    obtain ⟨hr, ht⟩ := stmt_typed hp hs hw
    refine ⟨.some hr, ?_⟩
    rintro _ ⟨⟩
    exact ht

end

end Shroud.Typing
