import Shroud.Proofs.Folding.Twins

/-! # Lowering twice

Bodies are lowered with folding and without it, step by step in parallel. Inside the circuit an
expression of a constant type is one constant, or else its tree: neither issues a variable nor fails.
All other expressions and statements do the same in both.
-/

namespace Shroud.Lowering

open Circuit (Term Wire)

variable {p : Program} {env : Env} {inline : FunctionId → List Term → Lower (List Term)}
  {x y : Lower (List Solidity.Stmt)} {e : Expr} {o : Option Expr} {ss ts : List Term} {s : Stmt}
  {es : List Expr}

/-- Lists of terms that are twins one by one. -/
abbrev TermsTwins (p : Program) : List Term → List Term → Prop := List.Forall₂ (Term.Twins p)

/-- Both have the same variables. -/
def SameWires (ss ts : List Term) : Prop := ss = ts ∧ ∀ t ∈ ss, ∃ name, t = .wire name

theorem SameWires.twins (h : SameWires ss ts) : TermsTwins p ss ts := by
  obtain ⟨rfl, hs⟩ := h
  refine List.forall₂_same.2 fun t ht => ?_
  obtain ⟨name, rfl⟩ := hs t ht
  exact .made (.wire name)

/-- An environment with folding and one without it, in which the constants of the program are trees
and functions are held alike. -/
structure Env.Pairs (p : Program) (env : Env)
    (inline : FunctionId → List Term → Lower (List Term)) : Prop where
  program : env.program = p
  folds : env.settings.foldsConstants = true
  trees : ∀ e, p.Contains e → e.IsTree ∧ e.NumeralsTyped
  held : ∀ f ss ts, TermsTwins p ss ts → Twins p SameWires (env.inline f ss) (inline f ts)

theorem Env.Pairs.inStmt (h : env.Pairs p inline) (s : Stmt) : (env.inStmt s).Pairs p inline where
  program := h.program
  folds := h.folds
  trees := h.trees
  held := h.held

/-! ## Constants -/

theorem constant?_of_folds {s : Settings} (hs : s.foldsConstants = true) (e : Expr) :
    constant? s e = e.type.type.literal?.map Term.ofLiteral := by
  unfold constant?
  rw [hs]
  cases e.type.type <;> rfl

theorem constantOr_unfolded {s : Settings} (e : Expr) (x : Lower Term) :
    constantOr s.unfolded e x = x := rfl

mutual

/-- Without folding, a tree of constants is the term itself. -/
theorem circuitExpr_tree : ∀ {e : Expr} {t : Term}, e.tree? = some t →
    circuitExpr (env.unfolded inline) e = pure t
  | .bool i b, _, h => by
    cases h
    rfl
  | .number i n, _, h => by
    cases h
    rfl
  | .builtin i op args b, _, h => by
    obtain ⟨ts, hts, rfl⟩ := Option.map_eq_some_iff.1 h
    refine (constantOr_unfolded _ _).trans ?_
    rw [circuitExprs_trees hts, pure_bind]
  | .me _, _, h | .ident _ _, _, h | .index _ _ _, _, h | .call _ _ _, _, h
  | .reclassify _ _ _ _, _, h | .cast _ _ _ _, _, h | .tuple _ _, _, h => by cases h

theorem circuitExprs_trees : ∀ {es : List Expr} {ts : List Term}, Expr.trees? es = some ts →
    circuitExprs (env.unfolded inline) es = pure ts
  | [], _, h => by
    cases h
    rfl
  | e :: es, _, h => by
    obtain ⟨t, ht, h⟩ := Option.bind_eq_some_iff.1 h
    obtain ⟨ts, hts, rfl⟩ := Option.map_eq_some_iff.1 h
    rw [circuitExprs, circuitExpr_tree ht, pure_bind, circuitExprs_trees hts, pure_bind]

end

/-- An expression of a constant type is its constant, or its tree. Any other is the same in both. -/
theorem constantOr_twins (h : env.Pairs p inline) (he : p.Contains e) {x y : Lower Term}
    (hy : circuitExpr (env.unfolded inline) e = y)
    (hx : e.type.type.literal? = none → Twins p e.Forms x y) :
    Twins p e.Forms (constantOr env.settings e x)
      (constantOr (env.unfolded inline).settings e y) := by
  rw [constantOr, constant?_of_folds h.folds]
  cases hl : e.type.type.literal? with
  | none => exact hx hl
  | some l =>
    obtain ⟨t, ht, hv⟩ := (h.trees e he).1 l hl
    rw [← hy, circuitExpr_tree ht]
    exact .pure (.constant hl ht hv)

/-- The forms of expressions of the program are twins. -/
theorem forms_twins (he : p.Contains e) (s t : Term) (h : e.Forms s t) : s.Twins p t :=
  .forms he h

theorem formsAll_twins (he : ∀ e ∈ es, p.Contains e) (h : Expr.FormsAll es ss ts) :
    TermsTwins p ss ts := by
  induction es generalizing ss ts with
  | nil =>
    cases h
    exact .nil
  | cons e es ih =>
    rw [List.forall_mem_cons] at he
    cases h with
    | cons h hs => exact .cons (forms_twins he.1 _ _ h) (ih he.2 hs)

/-! ## Expressions -/

/-- An update of the functions that are held. -/
theorem stack_twins (f : List FunctionId → List FunctionId) :
    Twins p Eq (modify fun s => { s with stack := f s.stack } : Lower PUnit)
      (modify fun s => { s with stack := f s.stack }) :=
  frame_twins fun _ _ _ => ⟨rfl, rfl, rfl, rfl, rfl⟩

theorem inlineCall_twins (h : env.Pairs p inline) (e : Expr) (f : FunctionId)
    {args args' : Lower (List Term)} (ha : Twins p (TermsTwins p) args args') :
    Twins p SameWires (inlineCall env e f args) (inlineCall (env.unfolded inline) e f args') := by
  refine .get_bind fun σ _ _ _ => ?_
  refine .ite (fun _ => .throw_bind _) fun _ => ?_
  refine .get_bind fun σ _ _ hσ => ?_
  have hheld : Twins p SameWires (inBlock ("INLINED " ++ env.program.exprText e) do
      let values ← args
      modify fun s => { s with stack := f :: s.stack }
      let results ← env.inline f values
      modify fun s => { s with stack := s.stack.tail }
      return results) (inBlock ("INLINED " ++ env.program.exprText e) do
      let values ← args'
      modify fun s => { s with stack := f :: s.stack }
      let results ← inline f values
      modify fun s => { s with stack := s.stack.tail }
      return results) := by
    refine inBlock_twins _ (ha.bind fun ss ts hst => ?_)
    refine (stack_twins (f :: ·)).bind_eq fun _ => (h.held f ss ts hst).bind fun us vs huv => ?_
    exact (stack_twins List.tail).bind_eq fun _ => .pure huv
  refine hheld.bind fun us vs huv => Twins.bind_eq ?_ fun _ => .pure huv
  refine .modify fun _ _ _ hs hw hv => ⟨rfl, hs, hw, fun x hx => ?_⟩
  rcases Bindings.mem_foldl_bind hx with hx | hx
  · exact hv x (List.mem_of_mem_filter hx)
  · exact hσ.versions x hx

mutual

theorem publicExpr_twins (h : env.Pairs p inline) : ∀ e : Expr, p.Contains e →
    Twins p Eq (publicExpr env e) (publicExpr (env.unfolded inline) e)
  | .bool _ _, _ | .number _ _, _ | .me _, _ | .ident _ _, _ => .pure rfl
  | .index i a idx, he => by
    refine (publicExpr_twins h a (he.child (.head _))).bind_eq fun a' => ?_
    exact (publicExpr_twins h idx (he.child (.tail _ (.head _)))).bind_eq fun _ => .pure rfl
  | .tuple i es, he => (publicExprs_twins h es fun c hc => he.child hc).bind_eq fun _ => .pure rfl
  | .reclassify i e o b, he => by
    have hterm := (circuitExpr_twins h e (he.child (.head _))).weaken
      (forms_twins (he.child (.head _)))
    refine outputExpr_twins e o ?_
    refine .ite (fun _ => compute_twins e hterm) fun _ => ?_
    exact inputExpr_twins e (publicExpr_twins h e (he.child (.head _))) hterm
  | .cast i t e implicit, he => by
    refine .ite (fun _ => ?_) fun _ => ?_
    · refine outputExpr_twins _ _ (compute_twins _ ?_)
      refine (constantOr_twins h he rfl fun hl => ?_).weaken (forms_twins he)
      exact (circuitExpr_twins h e (he.child (.head _))).bind fun _ _ hf =>
        .pure (.cast hl hf)
    · refine (publicExpr_twins h e (he.child (.head _))).bind_eq fun e' => .pure ?_
      rw [show (env.unfolded inline).settings = env.settings.unfolded from rfl,
        DataType.toSolidity_unfolded]
  | .builtin i op args b, he => by
    have hargs : ∀ c ∈ args, p.Contains c := fun c hc => he.child hc
    rw [publicExpr.eq_def, publicExpr.eq_def (env.unfolded inline)]
    refine .ite (fun _ => ?_) fun _ => .ite (fun _ => ?_) fun _ => ?_
    · refine outputExpr_twins _ _ (compute_twins _ ?_)
      refine (constantOr_twins h he rfl fun hl => ?_).weaken (forms_twins he)
      exact (circuitExprs_twins h args hargs).bind fun _ _ hf => .pure (.builtin hl hf)
    · cases args with
      | nil => exact .pure rfl
      | cons first rest =>
        rw [List.forall_mem_cons] at hargs
        have hfirst := publicExpr_twins h first hargs.1
        refine (inputExpr_twins first hfirst
          ((circuitExpr_twins h first hargs.1).weaken (forms_twins hargs.1))).bind fun v w hvw => ?_
        have hrest (cond : Solidity.Expr) := (lazyExprs_twins h op hvw.name_eq cond 1 rest
          hargs.2).bind_eq (f := fun rest => pure (Solidity.Expr.op op (cond :: rest)))
          fun _ => .pure rfl
        refine .ite (fun _ => hfirst.bind_eq fun cond => hrest cond) fun _ => ?_
        rw [pure_bind, pure_bind, show (env.unfolded inline).member w = env.member v by
          rw [Env.member, Env.member, hvw.name_eq]; rfl]
        exact hrest _
    · exact (publicExprs_twins h args hargs).bind_eq fun _ => .pure rfl
  | .call i f args, he => by
    refine (publicExprs_twins h args fun c hc => he.child hc).bind_eq fun args' => ?_
    refine (noteCall_twins f).bind_eq fun _ => .ite (fun _ => ?_) fun _ => .pure rfl
    refine .get_bind fun σ _ _ _ => ?_
    exact (callCircuit_twins _ _ f).bind_eq fun _ => .pure rfl

theorem publicExprs_twins (h : env.Pairs p inline) : ∀ es : List Expr, (∀ e ∈ es, p.Contains e) →
    Twins p Eq (publicExprs env es) (publicExprs (env.unfolded inline) es)
  | [], _ => .pure rfl
  | e :: es, he => by
    rw [List.forall_mem_cons] at he
    refine (publicExpr_twins h e he.1).bind_eq fun _ => ?_
    exact (publicExprs_twins h es he.2).bind_eq fun _ => .pure rfl

theorem lazyExprs_twins (h : env.Pairs p inline) (op : Operator) {guard guard' : Wire}
    (hg : guard.name = guard'.name) (cond : Solidity.Expr) : ∀ (position : Nat) (es : List Expr),
    (∀ e ∈ es, p.Contains e) → Twins p Eq (lazyExprs env op guard cond position es)
      (lazyExprs (env.unfolded inline) op guard' cond position es)
  | _, [], _ => .pure rfl
  | position, e :: es, he => by
    rw [List.forall_mem_cons] at he
    refine (takePre_twins (guarded_twins _ hg (publicExpr_twins h e he.1))).bind_eq fun r => ?_
    have hrest := (lazyExprs_twins h op hg cond (position + 1) es he.2).bind_eq
      (f := fun rest => pure (r.1 :: rest)) fun _ => .pure rfl
    exact .ite (fun _ => (addPre_twins _).bind_eq fun _ => hrest) fun _ => hrest

theorem circuitExpr_twins (h : env.Pairs p inline) : ∀ e : Expr, p.Contains e →
    Twins p e.Forms (circuitExpr env e) (circuitExpr (env.unfolded inline) e)
  | .bool i b, he | .number i n, he => by
    refine constantOr_twins h he rfl fun hl => ?_
    rw [DataType.literal?_of_isLiteral (h.trees _ he).2] at hl
    cases hl
  | .me i, he => by
    refine constantOr_twins h he rfl fun hl => ?_
    refine (inputLocation_twins _ (.pure rfl)).bind fun w _ ⟨hw, _⟩ => .pure (hw ▸ ?_)
    exact .wire hl rfl
  | .ident i v, he => by
    refine constantOr_twins h he rfl fun hl => ?_
    refine .get_bind fun σ _ _ _ => ?_
    dsimp only [State.twin]
    cases σ.versions.get? (.var v) with
    | some w => exact .pure (.wire hl rfl)
    | none =>
      refine (inputLocation_twins _ (.pure rfl)).bind fun w _ ⟨hw, _⟩ => .pure (hw ▸ ?_)
      exact .wire hl rfl
  | .index i a idx, he => by
    refine constantOr_twins h he rfl fun hl => ?_
    refine (inputLocation_twins _ ?_).bind fun w _ ⟨hw, _⟩ => .pure (hw ▸ .wire hl rfl)
    refine (publicExpr_twins h a (he.child (.head _))).bind_eq fun a' => ?_
    exact (publicExpr_twins h idx (he.child (.tail _ (.head _)))).bind_eq fun _ => .pure rfl
  | .reclassify i e o b, he => by
    have hterm := circuitExpr_twins h e (he.child (.head _))
    refine constantOr_twins h he rfl fun hl => ?_
    refine .ite (fun _ => hterm.weaken fun _ _ => .reclassify hl) fun _ => ?_
    refine (inputExpr_twins e (publicExpr_twins h e (he.child (.head _)))
      (hterm.weaken (forms_twins (he.child (.head _))))).bind fun v w hvw => ?_
    exact .pure (hvw.term_eq ▸ .wire hl rfl)
  | .cast i t e b, he => by
    refine constantOr_twins h he rfl fun hl => ?_
    exact (circuitExpr_twins h e (he.child (.head _))).bind fun _ _ hf =>
      .pure (.cast hl hf)
  | .builtin i op args b, he => by
    refine constantOr_twins h he rfl fun hl => ?_
    exact (circuitExprs_twins h args fun c hc => he.child hc).bind fun _ _ hf =>
      .pure (.builtin hl hf)
  | .call i f args, he => by
    refine constantOr_twins h he rfl fun hl => ?_
    refine (inlineCall_twins h _ f ((circuitExprs_twins h args fun c hc => he.child hc).weaken
      fun _ _ => formsAll_twins fun c hc => he.child hc)).bind fun us _ ⟨hus, hwires⟩ => hus ▸ ?_
    split
    · rename_i value _
      obtain ⟨name, rfl⟩ := hwires value (by simp)
      exact .pure (.wire hl rfl)
    · exact .throw _
  | .tuple i es, he => constantOr_twins h he rfl fun _ => .throw _

theorem circuitExprs_twins (h : env.Pairs p inline) : ∀ es : List Expr, (∀ e ∈ es, p.Contains e) →
    Twins p (Expr.FormsAll es) (circuitExprs env es) (circuitExprs (env.unfolded inline) es)
  | [], _ => .pure .nil
  | e :: es, he => by
    rw [List.forall_mem_cons] at he
    refine (circuitExpr_twins h e he.1).bind fun s t hst => ?_
    exact (circuitExprs_twins h es he.2).bind fun ss ts hsts => .pure (.cons hst hsts)

end

/-- The terms of an expression of the program are twins. -/
theorem circuitTerm_twins (h : env.Pairs p inline) (he : p.Contains e) :
    Twins p (Term.Twins p) (circuitExpr env e) (circuitExpr (env.unfolded inline) e) :=
  (circuitExpr_twins h e he).weaken (forms_twins he)

theorem circuitTerms_twins (h : env.Pairs p inline) (he : ∀ e ∈ es, p.Contains e) :
    Twins p (TermsTwins p) (circuitExprs env es) (circuitExprs (env.unfolded inline) es) :=
  (circuitExprs_twins h es he).weaken fun _ _ => formsAll_twins he

/-! ## Branches -/

/-- The same term with a variable in both. -/
def SameWire (s t : Term) : Prop := s = t ∧ ∃ name, s = .wire name

theorem versionOr_twins (v : VarId) (w : Option Wire) :
    Twins p SameWire (versionOr env v w) (versionOr (env.unfolded inline) v w) := by
  cases w with
  | some w => exact .pure ⟨rfl, w.name, rfl⟩
  | none => exact (inputVar_twins v).bind fun w _ ⟨hw, _⟩ => .pure ⟨hw ▸ rfl, w.name, rfl⟩

theorem joinVersion_twins {guard guard' : Wire} (hg : guard.name = guard'.name) (k : Key)
    (yes no : Option Wire) : Twins p Same (joinVersion env guard k yes no)
      (joinVersion (env.unfolded inline) guard' k yes no) := by
  cases k with
  | ret f i => exact .throw _
  | var v =>
    refine (versionOr_twins v yes).bind fun _ _ ⟨hy, y, hyes⟩ => ?_
    refine (versionOr_twins v no).bind fun _ _ ⟨hn, n, hno⟩ => ?_
    subst hy hn hyes hno
    refine newVersion_twins _ _ ?_
    rw [Wire.term, Wire.term, hg]
    exact .made (.choice _ _ _)

/-- The same versions, without origins. -/
def SameEntries (es ds : List (Key × Wire)) : Prop := es = ds ∧ ∀ e ∈ es, e.2.origin = none

section Join

variable {guard guard' : Wire}

theorem joinAll_twins (hg : guard.name = guard'.name) {ts : List (Key × Option Wire × Option Wire)}
    (hts : ∀ t ∈ ts, ∀ w ∈ t.2.1, w.origin = none) :
    Twins p SameEntries (Bindings.joinAll (joinVersion env guard) ts)
      (Bindings.joinAll (joinVersion (env.unfolded inline) guard') ts) := by
  induction ts with
  | nil => exact .pure ⟨rfl, by simp⟩
  | cons t ts ih =>
    obtain ⟨ht, hts⟩ := List.forall_mem_cons.1 hts
    have hjoin : Twins p Same (Bindings.joinOne (joinVersion env guard) t.1 t.2.1 t.2.2)
        (Bindings.joinOne (joinVersion (env.unfolded inline) guard') t.1 t.2.1 t.2.2) := by
      unfold Bindings.joinOne
      split
      · rename_i w hw
        exact .pure ⟨rfl, ht w (Option.filter_eq_some_iff.1 hw).1⟩
      · exact joinVersion_twins hg _ _ _
    simp only [Bindings.joinAll, List.mapM_cons, bind_assoc, pure_bind]
    refine hjoin.bind fun w _ hw => (ih hts).bind fun js _ hjs => ?_
    exact .pure ⟨by rw [hw.1, hjs.1], List.forall_mem_cons.2 ⟨hw.2, hjs.2⟩⟩

theorem join_twins (hg : guard.name = guard'.name) (first second : Versions)
    (hf : ∀ e ∈ first.entries, e.2.origin = none) :
    Twins p (fun a b => a = b ∧ ∀ e ∈ a.entries, e.2.origin = none)
      (first.join second (joinVersion env guard))
      (first.join second (joinVersion (env.unfolded inline) guard')) := by
  simp only [Bindings.join, Bindings.joinFirst_eq, Bindings.joinSecond_eq]
  refine (joinAll_twins hg (List.forall_mem_map.2 fun e he w hw => ?_)).bind
    fun shared _ hs => ?_
  · exact Option.some.inj hw ▸ hf e he
  refine (joinAll_twins hg (List.forall_mem_map.2 fun _ _ _ hw => by cases hw)).bind
    fun added _ ha => ?_
  obtain ⟨rfl, hos⟩ := hs
  obtain ⟨rfl, hoa⟩ := ha
  refine .pure ⟨rfl, fun e he => ?_⟩
  rcases Bindings.mem_foldl_bind he with he | he
  · exact hoa e he
  · exact hos e he

/-- Going on from other versions. -/
theorem setVersions_twins {vs : Versions} (hv : ∀ e ∈ vs.entries, e.2.origin = none) :
    Twins p Eq (modify fun s => { s with versions := vs } : Lower PUnit)
      (modify fun s => { s with versions := vs }) :=
  .modify fun _ _ _ hs hw _ => ⟨rfl, hs, hw, hv⟩

theorem branches_twins (hg : guard.name = guard'.name) {yes yes' : Lower Unit}
    {no no' : Option (Lower Unit)} (hy : Twins p Eq yes yes')
    (hn : Option.Rel (Twins p Eq) no no') :
    Twins p Eq (branches env guard yes no) (branches (env.unfolded inline) guard' yes' no') := by
  refine .get_bind fun σ _ _ hσ => ?_
  have htext (text : String) : Twins p Eq (comment (text ++ guard.name ++ ")"))
      (comment (text ++ guard'.name ++ ")")) := hg ▸ comment_twins _
  refine (htext "if (").bind_eq fun _ => (guarded_twins true hg hy).bind_eq fun _ => ?_
  refine .get_bind fun σ' _ _ hσ' => (setVersions_twins hσ.versions).bind_eq fun _ => ?_
  have hend : Twins p Eq (do
        comment ("join (" ++ guard.name ++ ")")
        let joined ← σ'.versions.join (← get).versions (joinVersion env guard)
        modify fun s => { s with versions := joined }) (do
        comment ("join (" ++ guard'.name ++ ")")
        let joined ← σ'.versions.join (← get).versions (joinVersion (env.unfolded inline) guard')
        modify fun s => { s with versions := joined }) := by
    refine (htext "join (").bind_eq fun _ => .get_bind fun _ _ _ _ => ?_
    refine (join_twins hg _ _ hσ'.versions).bind fun joined _ ⟨hj, ho⟩ => ?_
    subst hj
    exact setVersions_twins ho
  cases hn with
  | none => exact hend
  | some hn =>
    refine (htext "else (").bind_eq fun _ => (guarded_twins false hg hn).bind_eq fun _ => ?_
    exact hend

end Join

/-! ## Statements inside circuits -/

theorem assignVars_twins : ∀ (targets : List Expr) {ss ts : List Term}, TermsTwins p ss ts →
    Twins p Eq (assignVars env targets ss) (assignVars (env.unfolded inline) targets ts)
  | [], ss, ts, h => by
    cases h <;> exact .pure rfl
  | target :: targets, _, _, .nil => by
    cases target <;> exact .pure rfl
  | target :: targets, _, _, .cons hst hsts => by
    cases target with
    | ident i v =>
      exact (assignVar_twins v hst).bind_eq fun _ => assignVars_twins targets hsts
    | _ => exact .throw _

theorem tupleValues_twins (h : env.Pairs p inline) (he : p.Contains e) :
    Twins p (TermsTwins p) (tupleValues env e) (tupleValues (env.unfolded inline) e) := by
  cases e with
  | tuple i es => exact circuitTerms_twins h fun c hc => he.child hc
  | call i f args =>
    exact (inlineCall_twins h _ f (circuitTerms_twins h fun c hc => he.child hc)).weaken
      fun _ _ => SameWires.twins
  | _ => exact .throw _

theorem assign_twins (h : env.Pairs p inline) (lhs : Expr) {rhs : Expr} (he : p.Contains rhs) :
    Twins p Eq (assign env lhs rhs) (assign (env.unfolded inline) lhs rhs) := by
  cases lhs with
  | ident i v => exact (circuitTerm_twins h he).bind fun _ _ => assignVar_twins v
  | tuple i targets =>
    refine (tupleValues_twins h he).bind fun ss ts hst => ?_
    rw [hst.length_eq]
    exact .ite (fun _ => .throw_bind _) fun _ => assignVars_twins targets hst
  | _ => exact .throw _

theorem returnValues_twins (h : env.Pairs p inline) (f : FunctionId) : ∀ (position : Nat)
    (es : List Expr), (∀ e ∈ es, p.Contains e) →
    Twins p Eq (returnValues env f position es) (returnValues (env.unfolded inline) f position es)
  | _, [], _ => .pure rfl
  | position, e :: es, he => by
    rw [List.forall_mem_cons] at he
    refine .get_bind fun σ _ _ _ => ?_
    refine .ite (fun _ => .throw_bind _) fun _ => ?_
    refine (circuitTerm_twins h he.1).bind fun _ _ hst => ?_
    refine (newVersion_twins _ _ hst).bind fun w _ ⟨hw, ho⟩ => ?_
    subst hw
    refine (bindVersion_twins _ ho).bind_eq fun _ => ?_
    exact returnValues_twins h f (position + 1) es he.2

theorem holds_returnedExprs {returns : List OwnedType} (he : p.Contains e) :
    ∀ x ∈ returnedExprs returns e, p.Contains x := by
  intro x hx
  unfold returnedExprs at hx
  split at hx
  · split at hx
    · exact he.child hx
    · exact List.mem_singleton.1 hx ▸ he
  · exact List.mem_singleton.1 hx ▸ he

theorem returnExpr_twins (h : env.Pairs p inline) (he : p.Contains e) :
    Twins p Eq (returnExpr env e) (returnExpr (env.unfolded inline) e) := by
  refine .get_bind fun σ _ _ _ => ?_
  dsimp only [State.twin]
  cases σ.stack with
  | nil => exact .throw _
  | cons f fs => exact returnValues_twins h f 0 _ (holds_returnedExprs he)

/-- The expressions in a statement are part of the program. -/
def Covers (p : Program) (s : Stmt) : Prop := ∀ t ∈ s.walk, ∀ r ∈ t.roots, p.Contains r.2

theorem Covers.root (h : Covers p s) {u : Use} (he : (u, e) ∈ s.roots) : p.Contains e :=
  h s (Stmt.mem_walk_iff.2 (.inl rfl)) (u, e) he

theorem Covers.child {c : Stmt} (h : Covers p s) (hc : c ∈ s.children) : Covers p c :=
  fun t ht => h t (Stmt.mem_walk_iff.2 (.inr ⟨c, hc, ht⟩))

/-- The body of every function is covered; one that does not exist has none. -/
theorem covers_body (p : Program) (f : FunctionId) : Covers p (p.function f).body := by
  intro t ht r hr
  by_cases hf : p.Has f
  · exact ⟨f, hf, t, ht, r, hr, by simp⟩
  · have hdefault : p.function f = default := List.getD_eq_default _ _ (not_lt.1 hf)
    rw [hdefault] at ht
    obtain rfl : t = default := List.mem_singleton.1 ht
    cases hr

mutual

theorem circuitStmt_twins : ∀ (s : Stmt) {env : Env}, env.Pairs p inline → Covers p s →
    Twins p Eq (circuitStmt env s) (circuitStmt (env.unfolded inline) s)
  | .block i body, env, h, hs => by
    refine (circuitStmts_twins body (h.inStmt (.block i body)) fun c hc => hs.child hc).bind_eq
      fun _ => ?_
    exact dropVars_twins _
  | .cond i c yes no, env, h, hs => by
    have h := h.inStmt (.cond i c yes no)
    refine inBlock_twins _ ?_
    refine (compute_twins c (circuitTerm_twins h (hs.root (.head _)))).bind fun v w hvw => ?_
    refine branches_twins hvw.name_eq (circuitStmt_twins yes h (hs.child (.head _)))
      (circuitStmtOption_twins no h fun c hc => hs.child (.tail _ (Option.mem_toList.2 hc)))
  | .decl i v (some e), env, h, hs => by
    have h := h.inStmt (.decl i v (some e))
    exact (circuitTerm_twins h (hs.root (.head _))).bind fun _ _ => assignVar_twins v
  | .decl i v none, env, h, hs => assignVar_twins v (.made (.zero _))
  | .assign i lhs rhs, env, h, hs =>
    assign_twins (h.inStmt (.assign i lhs rhs)) lhs (hs.root (.tail _ (.head _)))
  | .expr i e, env, h, hs => by
    have h := h.inStmt (.expr i e)
    have he : p.Contains e := hs.root (.head _)
    exact (circuitTerm_twins h he).bind fun _ _ _ => .pure rfl
  | .ret i (some e), env, h, hs => by
    have he : p.Contains e := hs.root (.head _)
    exact returnExpr_twins (h.inStmt (.ret i (some e))) he
  | .ret _ none, _, _, _ => .pure rfl
  | .loop _ _ _, _, _, _ | .doLoop _ _ _, _, _, _ | .forLoop _ _ _ _ _, _, _, _
  | .require _ _, _, _, _ | .leave _, _, _, _ | .next _, _, _, _ => .throw _

theorem circuitStmts_twins : ∀ (ss : List Stmt) {env : Env}, env.Pairs p inline →
    (∀ s ∈ ss, Covers p s) →
    Twins p Eq (circuitStmts env ss) (circuitStmts (env.unfolded inline) ss)
  | [], _, _, _ => .pure rfl
  | s :: ss, env, h, hs => by
    rw [List.forall_mem_cons] at hs
    exact (circuitStmt_twins s h hs.1).bind_eq fun _ => circuitStmts_twins ss h hs.2

theorem circuitStmtOption_twins : ∀ (o : Option Stmt) {env : Env}, env.Pairs p inline →
    (∀ s ∈ o, Covers p s) → Option.Rel (Twins p Eq) (circuitStmtOption env o)
      (circuitStmtOption (env.unfolded inline) o)
  | none, _, _, _ => .none
  | some s, _, h, hs => .some (circuitStmt_twins s h (hs s rfl))

end

/-! ## Held functions -/

theorem bindParams_twins : ∀ (vs : List VarId) {ss ts : List Term}, TermsTwins p ss ts →
    Twins p Eq (bindParams env vs ss) (bindParams (env.unfolded inline) vs ts)
  | [], _, _, _ | _ :: _, _, _, .nil => .pure rfl
  | v :: vs, _, _, .cons hst hsts => (assignVar_twins v hst).bind_eq fun _ => bindParams_twins vs hsts

theorem returnedValue_twins (f : FunctionId) (i : Nat) :
    Twins p SameWire (returnedValue env f i) (returnedValue (env.unfolded inline) f i) := by
  refine .get_bind fun σ _ _ _ => ?_
  dsimp only [State.twin]
  cases σ.versions.get? (.ret f i) with
  | some w => exact .pure ⟨rfl, w.name, rfl⟩
  | none => exact .throw _

theorem sameWires_of_forall₂ (h : List.Forall₂ SameWire ss ts) : SameWires ss ts := by
  induction h with
  | nil => exact ⟨rfl, nofun⟩
  | cons hst _ ih =>
    obtain ⟨rfl, hwire⟩ := hst
    obtain ⟨rfl, hwires⟩ := ih
    exact ⟨rfl, List.forall_mem_cons.2 ⟨hwire, hwires⟩⟩

variable (env) in
/-- Functions are held alike, whatever the depth. -/
theorem inlineBody_twins (hp : env.program = p) (hfolds : env.settings.foldsConstants = true)
    (htrees : ∀ e, p.Contains e → e.IsTree ∧ e.NumeralsTyped)
    (base : FunctionId → List Term → Lower (List Term)) : ∀ (depth : Nat) (f : FunctionId)
    (ss ts : List Term), TermsTwins p ss ts → Twins p SameWires (inlineBody env depth f ss)
      (inlineBody (env.unfolded base) depth f ts)
  | 0, f, _, _, _ => .throw _
  | depth + 1, f, ss, ts, hst => by
    have hpairs : Env.Pairs p { env with
        here := { function := f, span := (env.program.function f).span }
        inline := inlineBody env depth } (inlineBody (env.unfolded base) depth) :=
      ⟨hp, hfolds, htrees, inlineBody_twins hp hfolds htrees base depth⟩
    rw [inlineBody, inlineBody]
    refine (bindParams_twins _ hst).bind_eq fun _ => ?_
    refine (circuitStmt_twins _ hpairs (hp ▸ covers_body _ f)).bind_eq fun _ => ?_
    exact (Twins.mapM fun i => returnedValue_twins f i).weaken fun _ _ => sameWires_of_forall₂

/-! ## Statements that run inside -/

theorem inputReads_twins (s : Stmt) : ∀ vs : List VarId,
    Twins p Eq (inputReads env s vs) (inputReads (env.unfolded inline) s vs)
  | [] => .pure rfl
  | v :: vs => by
    refine .ite (fun _ => ?_) fun _ => inputReads_twins s vs
    refine (inputVar_twins v).bind fun w _ ⟨hw, _⟩ => ?_
    subst hw
    exact (assignVar_twins v (.made (.wire w.name))).bind_eq fun _ => inputReads_twins s vs

theorem outputWrites_twins (s : Stmt) : ∀ vs : List VarId,
    Twins p Eq (outputWrites env s vs) (outputWrites (env.unfolded inline) s vs)
  | [] => .pure rfl
  | v :: vs => by
    refine .ite (fun _ => outputWrites_twins s vs) fun _ => .get_bind fun σ _ _ hσ => ?_
    dsimp only [State.twin]
    cases hw : σ.versions.get? (.var v) with
    | none => exact .throw _
    | some w =>
      have ho : w.origin = none := hσ.versions _ (Bindings.mem_of_get? hw)
      refine (output_twins _ _ _ (.pure (.refl_of_none ho))).bind_eq fun value => ?_
      exact (outputWrites_twins s vs).bind_eq fun rest => .pure rfl

theorem runInside_twins (h : env.Pairs p inline) (hs : Covers p s) :
    Twins p Eq (runInside env s) (runInside (env.unfolded inline) s) := by
  refine .get_bind fun σ _ _ _ => ?_
  refine .ite (fun _ => .throw_bind _) fun _ => ?_
  refine Twins.bind_eq (inBlock_twins _ ?_) fun written => ?_
  · refine (inputReads_twins s _).bind_eq fun _ => ?_
    refine (circuitStmt_twins s (h.inStmt s) hs).bind_eq fun _ => ?_
    exact outputWrites_twins s _
  · exact (setVersions_twins fun _ he => absurd he List.not_mem_nil).bind_eq fun _ => .pure rfl

/-! ## Statements -/

theorem prepared_twins (s : Stmt) (h : Twins p Eq x y) :
    Twins p Eq (prepared env s x) (prepared (env.unfolded inline) s y) :=
  (takePre_twins h).bind_eq fun _ => .pure rfl

theorem inList_twins (s : Stmt) (h : Twins p Eq x y) :
    Twins p Eq (inList env s x) (inList (env.unfolded inline) s y) :=
  prepared_twins s (.ite (fun _ => h.bind_eq fun _ => .pure rfl) fun _ => h)

variable (env inline) in
theorem asBody_twins (s : Stmt) (h : Twins p Eq x y) :
    Twins p Eq (asBody env s x) (asBody (env.unfolded inline) s y) :=
  .ite (fun _ => h) fun _ => prepared_twins s h

theorem publicExprOption_twins (h : env.Pairs p inline) (ho : ∀ e ∈ o, p.Contains e) :
    Twins p Eq (publicExprOption env o) (publicExprOption (env.unfolded inline) o) := by
  cases o with
  | none => exact .pure rfl
  | some e => exact (publicExpr_twins h e (ho e rfl)).bind_eq fun _ => .pure rfl

theorem lowerReturn_twins (h : env.Pairs p inline) (span : Span) (isLast : Bool)
    (ho : ∀ e ∈ o, p.Contains e) :
    Twins p Eq (lowerReturn env span isLast o) (lowerReturn (env.unfolded inline) span isLast o) := by
  refine .ite (fun _ => ?_) fun _ => .ite (fun _ => .throw _) fun _ => ?_
  all_goals
    cases o with
    | none => exact .pure rfl
    | some e => exact (publicExpr_twins h e (ho e rfl)).bind_eq fun _ => .pure rfl

theorem lowerDecl_twins (h : env.Pairs p inline) (v : VarId) {init : Option Expr}
    (hi : ∀ e ∈ init, p.Contains e) :
    Twins p Eq (lowerDecl env v init) (lowerDecl (env.unfolded inline) v init) := by
  refine (publicExprOption_twins h hi).bind_eq fun init' => .pure ?_
  rw [show (env.unfolded inline).settings = env.settings.unfolded from rfl,
    show (env.unfolded inline).program = env.program from rfl, OwnedType.toSolidity_unfolded]

theorem Covers.option (h : Covers p s) (ho : s.roots = o.toList.map fun e => (.value, e)) :
    ∀ e ∈ o, p.Contains e := by
  intro e he
  refine h.root (u := .value) ?_
  rw [ho]
  exact List.mem_map_of_mem (Option.mem_toList.2 he)

mutual

theorem lower_twins : ∀ (s : Stmt) (isLast : Bool) {env : Env}, env.Pairs p inline → Covers p s →
    Twins p Eq (lower env isLast s) (lower (env.unfolded inline) isLast s)
  | .block i body, _, env, h, hs =>
    lowerList_twins body false (h.inStmt (.block i body)) fun c hc => hs.child hc
  | .cond i c yes no, _, env, h, hs => by
    have h := h.inStmt (.cond i c yes no)
    have hc : p.Contains c := hs.root (.head _)
    have hyes := asBody_twins (env.inStmt (.cond i c yes no)) inline yes
      (lower_twins yes false h (hs.child (.head _)))
    have hno : ∀ s ∈ no, Covers p s := fun s hs' =>
      hs.child (.tail _ (Option.mem_toList.2 hs'))
    refine .ite (fun _ => runInside_twins h hs) fun _ => .ite (fun _ => ?_) fun _ => ?_
    · refine (publicExpr_twins h c hc).bind_eq fun c' => hyes.bind_eq fun yes' => ?_
      exact (lowerElse_twins no h .none hno).bind_eq fun _ => .pure rfl
    · refine (inputExpr_twins c (publicExpr_twins h c hc) (circuitTerm_twins h hc)).bind
        fun v w hvw => ?_
      have hbranches (c' : Solidity.Expr) : Twins p Eq (do
          let yes' ← guarded v true (asBody (env.inStmt (.cond i c yes no)) yes
            (lower (env.inStmt (.cond i c yes no)) false yes))
          let no' ← lowerElse (env.inStmt (.cond i c yes no)) (some v) no
          return [Solidity.Stmt.cond c' yes' no']) (do
          let yes' ← guarded w true (asBody ((env.inStmt (.cond i c yes no)).unfolded inline) yes
            (lower ((env.inStmt (.cond i c yes no)).unfolded inline) false yes))
          let no' ← lowerElse ((env.inStmt (.cond i c yes no)).unfolded inline) (some w) no
          return [Solidity.Stmt.cond c' yes' no']) := by
        refine (guarded_twins true hvw.name_eq hyes).bind_eq fun yes' => ?_
        exact (lowerElse_twins no h (.some hvw.name_eq) hno).bind_eq fun _ => .pure rfl
      refine .ite (fun _ => (publicExpr_twins h c hc).bind_eq hbranches) fun _ => ?_
      rw [pure_bind, pure_bind, show ((env.unfolded inline).inStmt (.cond i c yes no)).member w =
        (env.inStmt (.cond i c yes no)).member v by rw [Env.member, Env.member, hvw.name_eq]; rfl]
      exact hbranches _
  | .loop i c body, _, env, h, hs => by
    have h := h.inStmt (.loop i c body)
    refine (publicExpr_twins h c (hs.root (.head _))).bind_eq fun c' => ?_
    exact (asBody_twins _ _ body (lower_twins body false h (hs.child (.head _)))).bind_eq
      fun _ => .pure rfl
  | .doLoop i body c, _, env, h, hs => by
    have h := h.inStmt (.doLoop i body c)
    refine (asBody_twins _ _ body (lower_twins body false h (hs.child (.head _)))).bind_eq
      fun body' => ?_
    exact (publicExpr_twins h c (hs.root (.head _))).bind_eq fun _ => .pure rfl
  | .forLoop i init c update body, _, env, h, hs => by
    have h := h.inStmt (.forLoop i init c update body)
    have hbody := asBody_twins (env.inStmt (.forLoop i init c update body)) inline
      body (lower_twins body false h (hs.child (by simp [Stmt.children])))
    refine (lowerOption_twins init h fun s hs' => hs.child (by
      simp [Stmt.children, Option.mem_def.1 hs'])).bind_eq fun init' => ?_
    refine (publicExprOption_twins h (hs.option rfl)).bind_eq fun c' => ?_
    refine (lowerOption_twins update h fun s hs' => hs.child (by
      simp [Stmt.children, Option.mem_def.1 hs'])).bind_eq fun update' => ?_
    split
    · rw [pure_bind, pure_bind]
      exact hbody.bind_eq fun _ => .pure rfl
    · rw [pure_bind, pure_bind]
      exact hbody.bind_eq fun _ => .pure rfl
    · exact .throw_bind _
  | .decl i v init, _, env, h, hs => lowerDecl_twins (h.inStmt (.decl i v init)) v (hs.option rfl)
  | .assign i lhs rhs, _, env, h, hs => by
    have h := h.inStmt (.assign i lhs rhs)
    refine (publicExpr_twins h lhs (hs.root (.head _))).bind_eq fun lhs' => ?_
    exact (publicExpr_twins h rhs (hs.root (.tail _ (.head _)))).bind_eq fun _ => .pure rfl
  | .expr i e, _, env, h, hs =>
    (publicExpr_twins (h.inStmt (.expr i e)) e (hs.root (.head _))).bind_eq fun _ => .pure rfl
  | .require i e, _, env, h, hs =>
    (publicExpr_twins (h.inStmt (.require i e)) e (hs.root (.head _))).bind_eq fun _ => .pure rfl
  | .ret i e, _, env, h, hs => lowerReturn_twins (h.inStmt (.ret i e)) _ _ (hs.option rfl)
  | .leave _, _, _, _, _ | .next _, _, _, _, _ => .pure rfl

theorem lowerList_twins : ∀ (ss : List Stmt) (isBody : Bool) {env : Env}, env.Pairs p inline →
    (∀ s ∈ ss, Covers p s) →
    Twins p Eq (lowerList env isBody ss) (lowerList (env.unfolded inline) isBody ss)
  | [], _, _, _, _ => .pure rfl
  | s :: ss, isBody, env, h, hs => by
    rw [List.forall_mem_cons] at hs
    refine (inList_twins s (lower_twins s _ h hs.1)).bind_eq fun _ => ?_
    exact (lowerList_twins ss isBody h hs.2).bind_eq fun _ => .pure rfl

theorem lowerElse_twins : ∀ (o : Option Stmt) {guard guard' : Option Wire} {env : Env},
    env.Pairs p inline → Option.Rel (fun v w : Wire => v.name = w.name) guard guard' →
    (∀ s ∈ o, Covers p s) →
    Twins p Eq (lowerElse env guard o) (lowerElse (env.unfolded inline) guard' o)
  | none, _, _, _, _, _, _ => .pure rfl
  | some s, _, _, env, h, hg, hs => by
    have hcontent := asBody_twins env inline s
      (lower_twins s false h (hs s rfl))
    cases hg with
    | none =>
      exact hcontent.bind_eq fun _ => .pure rfl
    | some hg =>
      exact (guarded_twins false hg hcontent).bind_eq fun _ => .pure rfl

theorem lowerOption_twins : ∀ (o : Option Stmt) {env : Env}, env.Pairs p inline →
    (∀ s ∈ o, Covers p s) →
    Twins p Eq (lowerOption env o) (lowerOption (env.unfolded inline) o)
  | none, _, _, _ => .pure rfl
  | some s, _, h, hs => (inList_twins s (lower_twins s false h (hs s rfl))).bind_eq fun _ => .pure rfl

end

end Shroud.Lowering
