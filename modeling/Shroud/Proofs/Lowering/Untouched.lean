import Shroud.Proofs.Constants
import Shroud.Proofs.Lowering.Actions
import Shroud.Proofs.Lowering.Calls
import Shroud.Proofs.Marks

/-! # Code that leaves circuits alone

What placement leaves in the open, lowering leaves in the open too. An expression without marks,
changes of the owner and calls of functions with proofs (`OpenExpr`) is lowered to one that reads
nothing of a circuit (`IsPlain`), and the circuit stays as it was (`Untouched`). Functions without a
proof consist of such expressions, and so do loops.
-/

namespace Shroud

namespace Solidity

/-- Whether an expression reads a field, asks another contract, or is a call with a slice of the
circuit buffers. -/
def Expr.readsCircuit : Expr → Bool
  | .member _ _ | .method _ _ _ | .call _ _ (some _) => true
  | _ => false

/-- No part of the expression reads anything of a circuit. -/
def Expr.IsPlain (e : Expr) : Prop := ∀ x ∈ e.subterms, x.readsCircuit = false

/-- No expression of the statement reads anything of a circuit. -/
def Stmt.IsPlain (s : Stmt) : Prop := ∀ e ∈ s.exprs, e.IsPlain

namespace Expr

attribute [local simp] IsPlain subterms subtermsList readsCircuit

theorem forall_subtermsList {P : Expr → Prop} {es : List Expr} :
    (∀ x ∈ subtermsList es, P x) ↔ ∀ e ∈ es, ∀ x ∈ e.subterms, P x := by
  induction es with
  | nil => simp
  | cons e es ih => simp [or_imp, forall_and, ih]

@[simp] theorem isPlain_bool (b : Bool) : (bool b).IsPlain := by simp

@[simp] theorem isPlain_number (n : Int) : (number n).IsPlain := by
  simp

@[simp] theorem isPlain_ident (name : String) (v : Option VarId) : (ident name v).IsPlain := by
  simp

@[simp] theorem isPlain_sender : sender.IsPlain := by simp

@[simp] theorem isPlain_index {base idx : Expr} :
    (index base idx).IsPlain ↔ base.IsPlain ∧ idx.IsPlain := by
  simp [or_imp, forall_and]

@[simp] theorem isPlain_cast {t : DataType} {e : Expr} : (cast t e).IsPlain ↔ e.IsPlain := by
  simp

@[simp] theorem isPlain_op {o : Operator} {args : List Expr} :
    (op o args).IsPlain ↔ ∀ a ∈ args, a.IsPlain := by
  simp [forall_subtermsList]

@[simp] theorem isPlain_call {f : String} {args : List Expr} :
    (call f args none).IsPlain ↔ ∀ a ∈ args, a.IsPlain := by
  simp [forall_subtermsList]

@[simp] theorem isPlain_tuple {es : List Expr} : (tuple es).IsPlain ↔ ∀ e ∈ es, e.IsPlain := by
  simp [forall_subtermsList]

end Expr

namespace Stmt

variable {body : List Stmt} {c : Expr}

attribute [local simp] IsPlain exprs exprsElse exprsOption

theorem forall_exprsList {P : Expr → Prop} {ss : List Stmt} :
    (∀ e ∈ exprsList ss, P e) ↔ ∀ s ∈ ss, ∀ e ∈ s.exprs, P e := by
  simp only [exprsList_eq_flatMap, List.mem_flatMap]
  constructor
  · intro h s hs e he
    exact h e ⟨s, hs, he⟩
  · rintro h e ⟨s, hs, he⟩
    exact h s hs e he

@[simp] theorem isPlain_block : (block body).IsPlain ↔ ∀ s ∈ body, s.IsPlain := by
  simp [forall_exprsList]

@[simp] theorem isPlain_cond {yes : List Stmt} {no : Option (List Stmt)} :
    (cond c yes no).IsPlain ↔
      c.IsPlain ∧ (∀ s ∈ yes, s.IsPlain) ∧ ∀ ss ∈ no, ∀ s ∈ ss, s.IsPlain := by
  cases no <;> simp [forall_exprsList, or_imp, forall_and]

@[simp] theorem isPlain_loop : (loop c body).IsPlain ↔ c.IsPlain ∧ ∀ s ∈ body, s.IsPlain := by
  simp [forall_exprsList]

@[simp] theorem isPlain_doLoop : (doLoop body c).IsPlain ↔ c.IsPlain ∧ ∀ s ∈ body, s.IsPlain := by
  simp [forall_exprsList]

@[simp] theorem isPlain_forLoop {init update : Option Stmt} {c : Option Expr} :
    (forLoop init c update body).IsPlain ↔ (∀ s ∈ init, s.IsPlain) ∧ (∀ e ∈ c, e.IsPlain) ∧
      (∀ s ∈ update, s.IsPlain) ∧ ∀ s ∈ body, s.IsPlain := by
  cases init <;> cases update <;>
    simp [forall_exprsList, or_imp, forall_and]

end Stmt

end Solidity

namespace Lowering

variable {p : Program} {α β : Type} {mayFail : Prop} {e : Expr} {o : Option Expr} {u : SourceUnit}
  {f : FunctionId} {q : Program}

/-! ## Actions that leave circuits alone -/

/-- The action does the same whatever the circuit is: it notes some calls and gives a value of which
`P` holds, or, where it may, it fails. -/
def Untouched (mayFail : Prop) (P : α → Prop) (x : Lower α) : Prop :=
  (∃ a fs, P a ∧ ∀ σ, Yields x σ a { σ with called := σ.called ++ fs }) ∨
    mayFail ∧ ∃ e, ∀ σ, x.run σ = .error e

namespace Untouched

variable {P : α → Prop} {Q : β → Prop} {x : Lower α}

protected theorem pure {a : α} (h : P a) : Untouched mayFail P (pure a) :=
  .inl ⟨a, [], h, fun σ => by simp⟩

protected theorem bind {f : α → Lower β} (hx : Untouched mayFail P x)
    (hf : ∀ a, P a → Untouched mayFail Q (f a)) : Untouched mayFail Q (x >>= f) := by
  rcases hx with ⟨a, fs, ha, hx⟩ | ⟨hfail, e, hx⟩
  · rcases hf a ha with ⟨b, gs, hb, hf⟩ | ⟨hfail, e, hf⟩
    · refine .inl ⟨b, fs ++ gs, hb, fun σ => Yields.bind_iff.2 ⟨a, _, hx σ, ?_⟩⟩
      simpa [List.append_assoc] using hf { σ with called := σ.called ++ fs }
    · refine .inr ⟨hfail, e, fun σ => ?_⟩
      rw [StateT.run_bind, hx σ]
      exact hf _
  · refine .inr ⟨hfail, e, fun σ => ?_⟩
    rw [StateT.run_bind, hx σ]
    rfl

theorem mono {P' : α → Prop} (hx : Untouched mayFail P x) (h : ∀ a, P a → P' a) :
    Untouched mayFail P' x := by
  rcases hx with ⟨a, fs, ha, hx⟩ | hx
  · exact .inl ⟨a, fs, h a ha, hx⟩
  · exact .inr hx

theorem throw {e : Error} (h : mayFail) : Untouched mayFail P (throw e : Lower α) :=
  .inr ⟨h, e, fun _ => rfl⟩

/-- Nothing is put before the statement. -/
theorem takePre (hx : Untouched mayFail P x) :
    Untouched mayFail (fun r => P r.1 ∧ r.2 = []) (takePre x) := by
  rcases hx with ⟨a, fs, ha, hx⟩ | ⟨hfail, e, hx⟩
  · exact .inl ⟨(a, []), fs, ⟨ha, rfl⟩, fun σ => takePre_iff.2 ⟨_, hx _, rfl, rfl⟩⟩
  · refine .inr ⟨hfail, e, fun σ => ?_⟩
    rw [Lowering.takePre]
    simp only [StateT.run_bind, StateT.run_get, StateT.run_modify, pure_bind, hx]
    rfl

/-- What the action makes of a circuit, if it succeeds. -/
theorem yields (hx : Untouched mayFail P x) {σ τ : State} {a : α} (h : Yields x σ a τ) :
    P a ∧ ∃ called, τ = { σ with called } := by
  rcases hx with ⟨b, fs, hb, hx⟩ | ⟨-, e, hx⟩
  · obtain ⟨rfl, rfl⟩ := Prod.mk.inj (Except.ok.inj ((hx σ).symm.trans h))
    exact ⟨hb, _, rfl⟩
  · rw [Yields, hx σ] at h
    cases h

end Untouched

/-! ## Expressions -/

/-- The expression itself involves no circuit: it is not computed inside, does not change its owner,
and does not call a function with a proof. -/
structure IsOpen (p : Program) (x : Expr) : Prop where
  outside : x.info.inCircuit = false
  owner : Placement.isReclassify x = false
  callee : ∀ f ∈ x.callee?, (p.function f).facts.isVerified = false

theorem touchesCircuit_eq_false : touchesCircuit p e = false ↔ ∀ x ∈ e.subterms, IsOpen p x := by
  simp only [touchesCircuit, List.any_eq_false, Bool.or_eq_true, not_or, Bool.not_eq_true]
  refine forall₂_congr fun x _ => ⟨?_, ?_⟩
  · rintro ⟨hinside, hx⟩
    refine ⟨hinside, ?_, ?_⟩ <;> cases x <;> simp_all [Placement.isReclassify, Expr.callee?]
  · rintro ⟨hinside, howner, hcallee⟩
    refine ⟨hinside, ?_⟩
    cases x <;> simp_all [Placement.isReclassify, Expr.callee?]

/-- The expression and everything in it involves no circuit. -/
def OpenExpr (p : Program) (e : Expr) : Prop := ∀ x ∈ e.subterms, IsOpen p x

theorem OpenExpr.child {c : Expr} (h : OpenExpr p e) (hc : c ∈ e.children) : OpenExpr p c :=
  fun x hx => h x (Expr.mem_subterms_iff.2 (.inr ⟨c, hc, hx⟩))

theorem OpenExpr.self (h : OpenExpr p e) : IsOpen p e := h e (Expr.mem_subterms_self e)

mutual

/-- The public form of an open expression is plain. -/
theorem publicExpr_untouched (env : Env) : ∀ {e : Expr}, OpenExpr env.program e →
    Untouched mayFail Solidity.Expr.IsPlain (publicExpr env e)
  | .bool _ _, _ | .number _ _, _ | .me _, _ | .ident _ _, _ => .pure (by simp)
  | .index _ base idx, h => by
    rw [publicExpr]
    refine (publicExpr_untouched env (h.child (.head _))).bind fun base' hb => ?_
    refine (publicExpr_untouched env (h.child (.tail _ (.head _)))).bind fun idx' hi => ?_
    exact .pure (by simp [hb, hi])
  | .tuple _ es, h => by
    rw [publicExpr]
    exact (publicExprs_untouched env fun e he => h.child he).bind fun es' hes => .pure (by simpa)
  | .reclassify _ _ _ _, h => by
    have howner := h.self.owner
    cases howner
  | .cast i t e implicit, h => by
    have hout : i.inCircuit = false := h.self.outside
    rw [publicExpr, hout, if_neg Bool.false_ne_true]
    refine (publicExpr_untouched env (h.child (.head _))).bind fun e' he => ?_
    refine .pure ?_
    split
    · exact he
    · simpa using he
  | .builtin i op args isPrivate, h => by
    have hout : i.inCircuit = false := h.self.outside
    have hargs : ((args.drop 1).any (touchesCircuit env.program)) = false := by
      rw [List.any_eq_false]
      intro a ha
      rw [Bool.not_eq_true, touchesCircuit_eq_false]
      exact h.child (List.mem_of_mem_drop ha)
    rw [publicExpr.eq_def]
    dsimp only
    rw [hout, if_neg Bool.false_ne_true, hargs, Bool.and_false, if_neg Bool.false_ne_true]
    exact (publicExprs_untouched env fun e he => h.child he).bind fun as has => .pure (by simpa)
  | .call i f args, h => by
    have hcallee : (env.program.function f).facts.isVerified = false := h.self.callee f rfl
    rw [publicExpr]
    dsimp only
    refine (publicExprs_untouched env fun e he => h.child he).bind fun as has => ?_
    refine Untouched.bind (P := fun _ => True) (.inl ⟨⟨⟩, [f], trivial, fun σ => by simp⟩)
      fun _ _ => ?_
    rw [hcallee, if_neg Bool.false_ne_true]
    exact .pure (by simpa using has)

theorem publicExprs_untouched (env : Env) : ∀ {es : List Expr}, (∀ e ∈ es, OpenExpr env.program e) →
    Untouched mayFail (fun as => ∀ a ∈ as, a.IsPlain) (publicExprs env es)
  | [], _ => .pure (by simp)
  | e :: es, h => by
    rw [publicExprs]
    refine (publicExpr_untouched env (h e (by simp))).bind fun e' he => ?_
    refine (publicExprs_untouched env fun x hx => h x (by simp [hx])).bind fun es' hes => ?_
    exact .pure (by simpa using ⟨he, hes⟩)

end

theorem publicExprOption_untouched (env : Env) (h : ∀ e ∈ o, OpenExpr env.program e) :
    Untouched mayFail (fun o => ∀ a ∈ o, a.IsPlain) (publicExprOption env o) := by
  cases o with
  | none => exact .pure (by simp)
  | some e => exact (publicExpr_untouched env (h e rfl)).bind fun e' he => .pure (by simpa using he)

/-! ## Statements -/

/-- The statement and everything in it involves no circuit, and no condition in it is private. -/
structure OpenStmt (p : Program) (s : Stmt) : Prop where
  exprs : ∀ x ∈ s.exprs, IsOpen p x
  conditions : ∀ t ∈ s.walk, t.isPrivateIf = false

namespace OpenStmt

theorem child {s t : Stmt} (h : OpenStmt p s) (ht : t ∈ s.children) : OpenStmt p t where
  exprs x hx := by
    obtain ⟨t', ht', r, hr, hx⟩ := Stmt.mem_exprs_iff.1 hx
    exact h.exprs x (Stmt.mem_exprs_iff.2
      ⟨t', Stmt.mem_walk_iff.2 (.inr ⟨t, ht, ht'⟩), r, hr, hx⟩)
  conditions t' ht' := h.conditions t' (Stmt.mem_walk_iff.2 (.inr ⟨t, ht, ht'⟩))

theorem stmtTouchesCircuit_eq {s : Stmt} (h : OpenStmt p s) : stmtTouchesCircuit p s = false := by
  rw [stmtTouchesCircuit, List.any_eq_false]
  intro e he
  obtain ⟨t, ht, r, hr, he⟩ := Stmt.mem_exprs_iff.1 he
  rw [Bool.not_eq_true, touchesCircuit_eq_false]
  intro x hx
  exact h.exprs x (Stmt.mem_exprs_iff.2 ⟨t, ht, r, hr, Expr.mem_subterms_trans he hx⟩)

end OpenStmt

/-- The form of an open statement: it is plain, and one statement unless it is a block. -/
def Lowers (s : Stmt) (out : List Solidity.Stmt) : Prop :=
  (∀ t ∈ out, t.IsPlain) ∧ (isBlock s = false → ∃ t, out = [t])

theorem Lowers.single {s : Stmt} {t : Solidity.Stmt} (h : t.IsPlain) : Lowers s [t] :=
  ⟨by simpa using h, fun _ => ⟨t, rfl⟩⟩

variable {env : Env} {s : Stmt} {x : Lower (List Solidity.Stmt)}

theorem prepared_untouched {P : List Solidity.Stmt → Prop} (h : Untouched mayFail P x) :
    Untouched mayFail P (prepared env s x) := by
  refine h.takePre.bind fun r hr => .pure ?_
  obtain ⟨out, pre⟩ := r
  obtain ⟨hout, rfl⟩ := hr
  exact hout

theorem inList_untouched (h : Untouched mayFail (Lowers s) x) :
    Untouched mayFail (fun out => ∃ t : Solidity.Stmt, t.IsPlain ∧ out = [t]) (inList env s x) := by
  refine prepared_untouched ?_
  split
  · exact h.bind fun body hbody => .pure ⟨_, by simpa using hbody.1, rfl⟩
  · rename_i hblock
    refine h.mono fun out hout => ?_
    obtain ⟨t, rfl⟩ := hout.2 (by simpa using hblock)
    exact ⟨t, hout.1 t (by simp), rfl⟩

theorem asBody_untouched (h : Untouched mayFail (Lowers s) x) :
    Untouched mayFail (fun out => ∀ t ∈ out, t.IsPlain) (asBody env s x) := by
  have hplain : Untouched mayFail (fun out => ∀ t ∈ out, t.IsPlain) x := h.mono fun _ ho => ho.1
  unfold asBody
  split
  · exact hplain
  · exact prepared_untouched hplain

/-- An open statement in an environment. Lowering may fail in functions with a proof, which must not
return early. -/
structure OpenIn (mayFail : Prop) (env : Env) (s : Stmt) : Prop extends OpenStmt env.program s where
  fails : (env.program.function env.function).facts.isVerified = true → mayFail

namespace OpenIn

theorem child {t : Stmt} (h : OpenIn mayFail env s) (ht : t ∈ s.children) :
    OpenIn mayFail (env.inStmt s) t := ⟨h.toOpenStmt.child ht, h.fails⟩

theorem root (h : OpenIn mayFail env s) {u : Use} (he : (u, e) ∈ s.roots) :
    OpenExpr (env.inStmt s).program e :=
  fun x hx => h.exprs x (Stmt.mem_exprs_iff.2 ⟨s, Stmt.mem_walk_self s, (u, e), he, hx⟩)

end OpenIn

theorem lowerReturn_untouched {i : Stmt.Info} {span : Span} {isLast : Bool}
    (hfail : (env.program.function env.function).facts.isVerified = true → mayFail)
    (hlast : isLast = true → (env.program.function env.function).facts.isVerified = false)
    (ho : ∀ e ∈ o, OpenExpr env.program e) :
    Untouched mayFail (Lowers (.ret i o)) (lowerReturn env span isLast o) := by
  unfold lowerReturn
  dsimp only
  split
  · cases o with
    | none => exact .pure (.single (by simp [Solidity.Stmt.IsPlain, Solidity.Stmt.exprs]))
    | some e =>
      refine (publicExpr_untouched env (ho e rfl)).bind fun e' he => .pure (.single ?_)
      simpa [Solidity.Stmt.IsPlain, Solidity.Stmt.exprs] using he
  · rename_i hv
    have hv : (env.program.function env.function).facts.isVerified = true := by simpa using hv
    cases isLast with
    | false => exact .throw (hfail hv)
    | true =>
      rw [hlast rfl] at hv
      cases hv

mutual

/-- Open statements are lowered without a circuit. Where one fails, it is an early return. -/
theorem lower_untouched {env : Env} : ∀ (s : Stmt) (isLast : Bool), OpenIn mayFail env s →
    (isLast = true → Placement.isReturn s = true →
      (env.program.function env.function).facts.isVerified = false) →
    Untouched mayFail (Lowers s) (lower env isLast s)
  | .block i body, _, hs, _ => by
    rw [lower]
    refine (lowerList_untouched body false (fun t ht => hs.child ht) nofun).mono fun out ho => ?_
    exact ⟨ho, nofun⟩
  | .cond i c yes no, _, hs, _ => by
    have hc : c.isPrivate = false := hs.conditions _ (Stmt.mem_walk_self _)
    have hyes := hs.child (t := yes) (.head _)
    have hno : ∀ t ∈ no, OpenIn mayFail (env.inStmt (.cond i c yes no)) t := fun t ht =>
      hs.child (List.mem_cons_of_mem _ (Option.mem_toList.2 ht))
    have htouch : no.any (stmtTouchesCircuit (env.inStmt (.cond i c yes no)).program) = false := by
      cases no with
      | none => rfl
      | some t => exact (hno t rfl).stmtTouchesCircuit_eq
    rw [lower, hc, if_neg Bool.false_ne_true, hyes.stmtTouchesCircuit_eq, htouch, if_pos (by rfl)]
    refine (publicExpr_untouched _ (hs.root (.head _))).bind fun c' hc' => ?_
    refine (asBody_untouched (lower_untouched yes false hyes nofun)).bind fun yes' hy => ?_
    refine (lowerElse_untouched no hno).bind fun no' hn => .pure (.single ?_)
    simpa using ⟨hc', hy, hn⟩
  | .loop i c body, _, hs, _ => by
    rw [lower]
    refine (publicExpr_untouched _ (hs.root (.head _))).bind fun c' hc' => ?_
    refine (asBody_untouched (lower_untouched body false (hs.child (.head _)) nofun)).bind
      fun body' hb => .pure (.single ?_)
    simpa using ⟨hc', hb⟩
  | .doLoop i body c, _, hs, _ => by
    rw [lower]
    refine (asBody_untouched (lower_untouched body false (hs.child (.head _)) nofun)).bind fun body' hb => ?_
    refine (publicExpr_untouched _ (hs.root (.head _))).bind fun c' hc' => .pure (.single ?_)
    simpa using ⟨hc', hb⟩
  | .forLoop i init c update body, _, hs, _ => by
    rw [lower]
    refine (lowerOption_untouched init fun t ht => hs.child (by
      simp [Stmt.children, Option.mem_def.1 ht])).bind fun init' hi => ?_
    refine (publicExprOption_untouched _ fun e he => hs.root (u := .value) (by
      simpa [Stmt.roots] using he)).bind fun c' hc' => ?_
    refine (lowerOption_untouched update fun t ht => hs.child (by
      simp [Stmt.children, Option.mem_def.1 ht])).bind fun update' hu => ?_
    have hbody : ∀ update' : Option Solidity.Stmt, (∀ t ∈ update', t.IsPlain) →
        Untouched mayFail (Lowers (.forLoop i init c update body)) (do
          let body ← asBody (env.inStmt (.forLoop i init c update body)) body
            (lower (env.inStmt (.forLoop i init c update body)) false body)
          let init := init'.getD []
          return init.dropLast ++ [.forLoop init.getLast? c' update' body]) := by
      intro update' hu
      refine (asBody_untouched (lower_untouched body false (hs.child (by
      simp [Stmt.children])) nofun)).bind fun body' hb => .pure ?_
      cases init' with
      | none => exact .single (by simpa using ⟨hc', hu, hb⟩)
      | some out =>
        obtain ⟨t, ht, rfl⟩ := hi out rfl
        exact .single (by simpa using ⟨ht, hc', hu, hb⟩)
    dsimp only
    cases update' with
    | none => exact hbody none nofun
    | some out =>
      obtain ⟨t, ht, rfl⟩ := hu out rfl
      exact hbody (some t) (by simpa using ht)
  | .decl i v init, _, hs, _ => by
    rw [lower]
    refine (publicExprOption_untouched _ fun e he => hs.root (u := .value) (by
      simpa [Stmt.roots] using he)).bind fun init' hi => .pure (Lowers.single ?_)
    simpa [Solidity.Stmt.IsPlain, Solidity.Stmt.exprs] using hi
  | .assign i lhs rhs, _, hs, _ => by
    rw [lower]
    refine (publicExpr_untouched _ (hs.root (.head _))).bind fun lhs' hl => ?_
    refine (publicExpr_untouched _ (hs.root (.tail _ (.head _)))).bind fun rhs' hr => .pure (.single ?_)
    simpa [Solidity.Stmt.IsPlain, Solidity.Stmt.exprs] using ⟨hl, hr⟩
  | .expr i e, _, hs, _ | .require i e, _, hs, _ => by
    rw [lower]
    refine (publicExpr_untouched _ (hs.root (.head _))).bind fun e' he => .pure (.single ?_)
    simpa [Solidity.Stmt.IsPlain, Solidity.Stmt.exprs] using he
  | .ret i e, isLast, hs, hlast => by
    rw [lower]
    exact lowerReturn_untouched hs.fails (fun hl => hlast hl rfl) fun x hx =>
      hs.root (u := .value) (by
      simpa [Stmt.roots] using hx)
  | .leave _, _, _, _ | .next _, _, _, _ =>
    .pure (.single (by simp [Solidity.Stmt.IsPlain, Solidity.Stmt.exprs]))

theorem lowerList_untouched {env : Env} : ∀ (ss : List Stmt) (isBody : Bool),
    (∀ s ∈ ss, OpenIn mayFail env s) →
    (isBody = true → (env.program.function env.function).facts.isVerified = false) →
    Untouched mayFail (fun out => ∀ t ∈ out, t.IsPlain) (lowerList env isBody ss)
  | [], _, _, _ => .pure (by simp)
  | s :: ss, isBody, hs, hbody => by
    rw [lowerList]
    refine (inList_untouched (lower_untouched s _ (hs s (by simp)) fun hl _ => hbody ?_)).bind
      fun s' hs' => ?_
    · rw [Bool.and_eq_true] at hl
      exact hl.1
    · refine (lowerList_untouched ss isBody (fun t ht => hs t (by simp [ht])) hbody).bind
        fun ss' hss => .pure ?_
      obtain ⟨t, ht, rfl⟩ := hs'
      simpa using ⟨ht, hss⟩

theorem lowerElse_untouched {env : Env} : ∀ o : Option Stmt, (∀ s ∈ o, OpenIn mayFail env s) →
    Untouched mayFail (fun no => ∀ out ∈ no, ∀ t ∈ out, t.IsPlain) (lowerElse env none o)
  | none, _ => .pure nofun
  | some s, hs => by
    rw [lowerElse]
    refine (asBody_untouched (lower_untouched s false (hs s rfl) nofun)).bind fun no hn => ?_
    exact .pure (by simpa using hn)

/-- The head of a `for` keeps its form. -/
theorem lowerOption_untouched {env : Env} : ∀ o : Option Stmt, (∀ s ∈ o, OpenIn mayFail env s) →
    Untouched mayFail (fun r => ∀ out ∈ r, ∃ t : Solidity.Stmt, t.IsPlain ∧ out = [t])
      (lowerOption env o)
  | none, _ => .pure nofun
  | some s, hs => by
    rw [lowerOption]
    refine (inList_untouched (lower_untouched s false (hs s rfl) nofun)).bind fun out ho => ?_
    exact .pure (by simpa using ho)

end

/-! ## What placement leaves in the open -/

/-- The operand of a change of owner stands beside it. -/
theorem mem_exprs_of_reclassify {i : Expr.Info} {o : Owner} {implicit : Bool}
    (h : .reclassify i e o implicit ∈ s.exprs) : e ∈ s.exprs := by
  obtain ⟨t, ht, r, hr, hx⟩ := Stmt.mem_exprs_iff.1 h
  refine Stmt.mem_exprs_iff.2 ⟨t, ht, r, hr, Expr.mem_subterms_trans hx ?_⟩
  exact Expr.mem_subterms_iff.2 (.inr ⟨e, by simp [Expr.children], Expr.mem_subterms_self e⟩)

/-- The condition of a private `if` is private. -/
theorem exists_condition {t : Stmt} (ht : t ∈ s.walk) (hp : t.isPrivateIf = true) :
    ∃ r ∈ t.roots, r.2 ∈ s.exprs ∧ r.2.isPrivate = true := by
  cases t with
  | cond i c yes no =>
    exact ⟨(.value, c), by simp [Stmt.roots], Stmt.mem_exprs_iff.2
      ⟨_, ht, (.value, c), by simp [Stmt.roots], Expr.mem_subterms_self c⟩, hp⟩
  | _ => cases hp

/-- A function without a proof is open. -/
theorem openStmt_of_not_isVerified (h : Passes u.check q) (hf : q.Has f)
    (hv : (q.function f).facts.isVerified = false) : OpenStmt q (q.function f).body := by
  have hgraded := SourceUnit.check_graded h
  obtain ⟨p, r, -, hq, -⟩ := SourceUnit.check_typed h
  have hsettled := Placement.withPlacement_settled hq f
  have houtside : ∀ x ∈ (q.function f).body.exprs, x.info.inCircuit = false := by
    obtain ⟨r', -, -, rfl, -⟩ := Placement.withPlacement_eq_ok hq
    have hfr : r'.Has f :=
      (Placement.recordVerified_placed r').alike.has.1 hf
    rw [← Bool.not_eq_true, Placement.isVerified_recordVerified hfr] at hv
    intro x hx
    rw [Placement.body_recordVerified hfr] at hx
    by_contra hinside
    refine hv ⟨f, by simp, hfr, List.any_eq_true.2 ⟨x, hx, ?_⟩⟩
    simpa using hinside
  refine ⟨fun x hx => ⟨houtside x hx, ?_, fun g hg => ?_⟩, fun t ht => ?_⟩
  · cases x with
    | reclassify i e o implicit =>
      have hinside := hsettled.reclassified hx
      rw [houtside e (mem_exprs_of_reclassify hx)] at hinside
      cases hinside
    | _ => rfl
  · rw [← Bool.not_eq_true]
    intro hg'
    have hcalls : q.Calls f g := Effects.mem_calls.2 ⟨x, hx, hg⟩
    rw [hgraded.caller hcalls hg'] at hv
    cases hv
  · rw [← Bool.not_eq_true]
    intro hp
    obtain ⟨r, hr, hmem, -⟩ := exists_condition ht hp
    have hinside := hsettled.condition ht hp r hr
    rw [houtside r.2 hmem] at hinside
    cases hinside

/-- Loops are open. -/
theorem openStmt_of_isLoop (h : Passes u.check q) (hf : q.Has f)
    (hs : s ∈ (q.function f).body.walk) (hloop : s.isLoop = true) : OpenStmt q s := by
  obtain ⟨p, r, -, hq, -⟩ := SourceUnit.check_typed h
  obtain ⟨r', -, hloops, rfl, hverified⟩ := Placement.withPlacement_eq_ok hq
  have hfr : r'.Has f :=
    (Placement.recordVerified_placed r').alike.has.1 hf
  have hsub : ∀ {x}, x ∈ s.exprs →
      x ∈ Placement.loopExprs ((Placement.recordVerified r').function f).body := fun hx =>
    List.mem_flatMap.2 ⟨s, List.mem_filter.2 ⟨hs, hloop⟩, hx⟩
  have hpublic : ∀ x ∈ s.exprs, x.info.inCircuit = false ∧ x.isPrivate = false ∧
      Placement.isReclassify x = false := by
    intro x hx
    have hcheck := hloops f hfr
    unfold Placement.checkLoops at hcheck
    split at hcheck
    · cases hcheck
    · rename_i hnone
      have hx' := hsub hx
      rw [Placement.body_recordVerified hfr] at hx'
      have hfree := List.find?_eq_none.1 hnone x hx'
      simpa [and_assoc] using hfree
  have hcallee : ∀ x ∈ s.exprs, ∀ g ∈ x.callee?,
      ((Placement.recordVerified r').function g).facts.isVerified = false := by
    intro x hx g hg
    have hcheck := hverified f hf
    unfold Placement.checkVerified at hcheck
    dsimp only at hcheck
    split at hcheck
    · cases hcheck
    · rename_i hnone
      have hfree := List.findSome?_eq_none_iff.1 hnone x (hsub hx)
      rw [Option.map_eq_none_iff, Placement.verifiedCallee?, Option.mem_def.1 hg] at hfree
      simpa [Option.filter] using hfree
  refine ⟨fun x hx => ⟨(hpublic x hx).1, (hpublic x hx).2.2, hcallee x hx⟩, fun t ht => ?_⟩
  rw [← Bool.not_eq_true]
  intro hp
  obtain ⟨r, -, hmem, hprivate⟩ := exists_condition ht hp
  rw [(hpublic r.2 hmem).2.1] at hprivate
  cases hprivate

end Lowering

namespace SourceUnit

open Lowering

/-- Circuits are touched only where placement allows it. A function without a proof is lowered, its
circuit stays new, and its body reads nothing of a circuit; a loop of any function leaves the circuit
as it was. In both cases only the calls that the public contract makes are noted. -/
theorem lowering_leaves_circuit {u : SourceUnit} {q : Program} (h : Passes u.check q)
    (settings : Settings) (c : ContractId) {f : FunctionId} (hf : f.index < q.functions.length) :
    ((q.function f).facts.isVerified = false →
      ∃ called body, lowerFunction (.new q settings c) f =
          .ok ⟨f, { State.new settings with called }, body⟩ ∧
        ∀ e ∈ Solidity.Stmt.exprsList body, e.IsPlain) ∧
    ∀ s ∈ (q.function f).body.walk, s.isLoop = true →
      ∀ (env : Env) (isLast : Bool) (σ τ : State) (out : List Solidity.Stmt), env.program = q →
        Yields (lower env isLast s) σ out τ → ∃ called, τ = { σ with called } := by
  constructor
  · intro hv
    have hopen := openStmt_of_not_isVerified h hf hv
    obtain ⟨i, body, hbody⟩ : ∃ i body, (q.function f).body = .block i body := by
      obtain ⟨_, _, hscoped, -⟩ := (check_checked h).names.function f hf
      exact hscoped.isBlock
    let env := Env.ofFunction q settings (fixedOwners q c) f
    have hlower : Untouched False (fun out => ∀ t ∈ out, t.IsPlain) (functionBody env) := by
      have hfunction : functionBody env = lowerList env true body := by
        unfold functionBody
        split
        · rename_i heq
          cases heq.symm.trans hbody
          rfl
        · rename_i hne
          exact (hne i body hbody).elim
      rw [hfunction]
      rw [hbody] at hopen
      exact lowerList_untouched body true (fun s hs => ⟨hopen.child hs, fun hv' => by
        cases hv.symm.trans hv'⟩) fun _ => hv
    rcases hlower with ⟨out, called, hout, hruns⟩ | ⟨hfalse, -⟩
    · refine ⟨called, out, ?_, ?_⟩
      · rw [lowerFunction, bind_eq_ok]
        exact ⟨_, hruns (State.new settings), by simp [State.new]; rfl⟩
      · exact Solidity.Stmt.forall_exprsList.2 hout
    · exact hfalse.elim
  · rintro s hs hloop env isLast σ τ out rfl hruns
    have hopen := openStmt_of_isLoop h hf hs hloop
    have huntouched : Untouched True (Lowers s) (lower env isLast s) := by
      refine lower_untouched s isLast ⟨hopen, fun _ => trivial⟩ fun _ hreturn => ?_
      cases s <;> simp_all [Placement.isReturn, Stmt.isLoop]
    exact (huntouched.yields hruns).2

/-- A function without a proof, and one with a proof and a loop. -/
def counter : SourceUnit := .single "Counter" [
  { name := "n", type := .mk (.uint 8) .all }, { name := "total", type := .mk (.uint 8) .all }] [
  { name := "count"
    body := [.loop {} (.builtin {} .lt ["n", 3]) (.block {} [
      .assign {} "n" (some .add) 1])] },
  { name := "show"
    params := [{ name := "x", type := .mk (.uint 8) .me }]
    body := [
      .loop {} (.builtin {} .lt ["n", 3]) (.block {} [
        .expr {} (.call {} "count" [])]),
      .assign {} "total" none (.reveal {} "x" .all)] }]

theorem counter_verified : (do
    let q ← (counter.check.run.run []).1
    return (q.functions.length, (q.function ⟨0⟩).facts.isVerified,
      (q.function ⟨1⟩).facts.isVerified, ((q.function ⟨1⟩).body.walk.filter Stmt.isLoop).length)) =
      Except.ok (2, false, true, 1) := by
  decide +kernel

theorem lowering_leaves_circuit_counter : ∃ q, Passes counter.check q ∧
    (∃ called body, lowerFunction (.new q {} ⟨0⟩) ⟨0⟩ =
      .ok ⟨⟨0⟩, { State.new {} with called }, body⟩) ∧
    ∀ s ∈ (q.function ⟨1⟩).body.walk, s.isLoop = true →
      ∀ (env : Env) (isLast : Bool) (σ τ : State) (out : List Solidity.Stmt), env.program = q →
        Yields (lower env isLast s) σ out τ → ∃ called, τ = { σ with called } := by
  obtain ⟨q, hq, h⟩ := bind_eq_ok.1 counter_verified
  have hpasses : Passes counter.check q := .of_run hq
  obtain ⟨hlen, hfacts⟩ := Prod.mk.inj (Except.ok.inj h)
  have hpublic : (q.function ⟨0⟩).facts.isVerified = false := (Prod.mk.inj hfacts).1
  obtain ⟨called, body, hlower, -⟩ :=
    (lowering_leaves_circuit hpasses {} ⟨0⟩ (f := ⟨0⟩) (by simp [hlen])).1 hpublic
  exact ⟨q, hpasses, ⟨called, body, hlower⟩,
    (lowering_leaves_circuit hpasses {} ⟨0⟩ (f := ⟨1⟩) (by simp [hlen])).2⟩

end SourceUnit

end Shroud
