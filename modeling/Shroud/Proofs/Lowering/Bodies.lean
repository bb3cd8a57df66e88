import Shroud.Proofs.Applications
import Shroud.Proofs.Lowering.Tracing
import Shroud.Proofs.Typing.Private

/-! # Bodies that can be traced

The bodies of a checked program satisfy `Traceable` and `Outside`. Types and marks agree on what
decides about lazy operands and branches outside: it is public, and a constant has one form in the
code and one in the circuit. `Inlined p f g` is the least relation between `f` and the functions that
its circuit holds; `lowerFunction_traced` assembles a trace of a whole function from this.
-/

namespace Shroud.Lowering

open Circuit (Term Wire)
open Placement (Settled SettledStmt)
open Solidity (Reading)
open Relation (ReflTransGen TransGen)

variable {base : Env} {R : Reading base.settings.dataName} {inside : Bool} {f : FunctionId}
  {e : Expr} {p : Program} {env : Typing.Env} {b : Bool} {es : List Expr} {g : FunctionId}

/-! ## Constants -/

theorem publicExprs_pure (hes : ∀ e ∈ es, ∃ c : Solidity.Expr, (c.IsPlain ∧ c.calls = []) ∧
    ∀ h depth, publicExpr (base.placed h depth) e = pure c) :
    ∃ cs : List Solidity.Expr, (∀ c ∈ cs, c.IsPlain ∧ c.calls = []) ∧
      ∀ h depth, publicExprs (base.placed h depth) es = pure cs := by
  induction es with
  | nil => exact ⟨[], by simp, fun _ _ => rfl⟩
  | cons e es ih =>
    obtain ⟨he, hes⟩ := List.forall_mem_cons.1 hes
    obtain ⟨c, hc, hpure⟩ := he
    obtain ⟨cs, hcs, hpures⟩ := ih hes
    refine ⟨c :: cs, List.forall_mem_cons.2 ⟨hc, hcs⟩, fun h depth => ?_⟩
    rw [publicExprs, hpure, hpures]
    rfl

theorem circuitExprs_pure (hes : ∀ e ∈ es, ∃ t : Term, t.wires = [] ∧
    ∀ h depth, circuitExpr (base.placed h depth) e = pure t) :
    ∃ ts : List Term, (∀ t ∈ ts, t.wires = []) ∧
      ∀ h depth, circuitExprs (base.placed h depth) es = pure ts := by
  induction es with
  | nil => exact ⟨[], by simp, fun _ _ => rfl⟩
  | cons e es ih =>
    obtain ⟨he, hes⟩ := List.forall_mem_cons.1 hes
    obtain ⟨t, ht, hpure⟩ := he
    obtain ⟨ts, hts, hpures⟩ := ih hes
    refine ⟨t :: ts, List.forall_mem_cons.2 ⟨ht, hts⟩, fun h depth => ?_⟩
    rw [circuitExprs, hpure, hpures]
    rfl

/-- Constants that are not computed inside read nothing and call nothing. -/
theorem publicExpr_constant (he : ∀ x ∈ e.subterms, x.IsConstant ∧ x.info.inCircuit = false) :
    ∃ c : Solidity.Expr, (c.IsPlain ∧ c.calls = []) ∧
      ∀ h depth, publicExpr (base.placed h depth) e = pure c := by
  induction e using Expr.induct with
  | bool i b => exact ⟨.bool b, by simp, fun _ _ => rfl⟩
  | number i n => exact ⟨.number n, by simp, fun _ _ => rfl⟩
  | builtin i op args b ih =>
    have hparts : ∀ a ∈ args, ∀ x ∈ a.subterms, x.IsConstant ∧ x.info.inCircuit = false :=
      fun a ha x hx => he x (Expr.mem_subterms_iff.2 (.inr ⟨a, ha, hx⟩))
    obtain ⟨cs, hplain, hpure⟩ := publicExprs_pure fun a ha => ih a ha (hparts a ha)
    refine ⟨.op op cs, ⟨?_, ?_⟩, fun h depth => ?_⟩
    · simpa using fun c hc => (hplain c hc).1
    · simpa using fun c hc => (hplain c hc).2
    · have hi : i.inCircuit = false := (he _ (Expr.mem_subterms_self _)).2
      have hquiet : (args.drop 1).any (touchesCircuit (base.placed h depth).program) = false := by
        rw [List.any_eq_false]
        intro a ha
        rw [Bool.not_eq_true, touchesCircuit_eq_false]
        intro x hx
        obtain ⟨hconstant, hin⟩ := hparts a (List.mem_of_mem_drop ha) x hx
        cases x with
        | bool | number | builtin => exact ⟨hin, rfl, nofun⟩
        | _ => exact hconstant.elim
      unfold publicExpr
      simp only [hi, hquiet, Bool.and_false, Bool.false_eq_true, if_false, hpure, pure_bind]
  | _ => exact (he _ (Expr.mem_subterms_self _)).1.elim

theorem constantOr_pure (s : Settings) (e : Expr) {t : Term} (ht : t.wires = []) :
    ∃ t' : Term, t'.wires = [] ∧ constantOr s e (pure t) = pure t' := by
  unfold constantOr constant?
  split
  · rename_i t' h
    refine ⟨t', ?_, rfl⟩
    split at h
    · cases h
    · split at h <;> cases h <;> rfl
  · exact ⟨t, ht, rfl⟩

/-- Constants are closed inside. -/
theorem circuitExpr_constant (he : ∀ x ∈ e.subterms, x.IsConstant) :
    ∃ t : Term, t.wires = [] ∧ ∀ h depth, circuitExpr (base.placed h depth) e = pure t := by
  induction e using Expr.induct with
  | bool i b =>
    obtain ⟨t, ht, heq⟩ := constantOr_pure base.settings (.bool i b) (t := .bool b) rfl
    exact ⟨t, ht, fun _ _ => heq⟩
  | number i n =>
    obtain ⟨t, ht, heq⟩ := constantOr_pure base.settings (.number i n) (t := .number n) rfl
    exact ⟨t, ht, fun _ _ => heq⟩
  | builtin i op args b ih =>
    obtain ⟨ts, hts, hpure⟩ := circuitExprs_pure fun a ha => ih a ha fun x hx =>
      he x (Expr.mem_subterms_iff.2 (.inr ⟨a, ha, hx⟩))
    have hclosed : (Term.op op ts).wires = [] := by
      refine List.eq_nil_iff_forall_not_mem.2 fun x hx => ?_
      obtain ⟨t, ht, hx⟩ := Circuit.Term.mem_wiresList.1 hx
      rw [hts t ht] at hx
      cases hx
    obtain ⟨t, ht, heq⟩ := constantOr_pure base.settings (.builtin i op args b) hclosed
    refine ⟨t, ht, fun h depth => ?_⟩
    rw [circuitExpr, hpure, pure_bind]
    exact heq
  | _ => exact (he _ (Expr.mem_subterms_self _)).elim

section Typed

variable {env : Typing.Env} {p : Program}

/-- Nothing in a constant outside is computed inside. -/
theorem inCircuit_constant (hp : Typing.Declares env.program) (ht : Typing.Typed env e)
    (hs : e.Saturated) (hl : e.type.type.isLiteral = true) (hset : Settled p false e) :
    ∀ x ∈ e.subterms, x.info.inCircuit = false := by
  induction e using Expr.induct_children with
  | h e ih =>
    obtain ⟨hself, hchildren⟩ := Expr.saturated_iff.1 hs
    obtain ⟨⟨i, b, rfl⟩ | ⟨i, n, rfl⟩, -⟩ | ⟨i, op, args, rfl, hargs, -⟩ :=
      ht.literal_cases hp hself hl
    all_goals
      intro x hx
      obtain rfl | ⟨c, hc, hx⟩ := Expr.mem_subterms_iff.1 hx
    · exact hset.mark
    · cases hc
    · exact hset.mark
    · cases hc
    · exact hset.mark
    · exact ih c hc (ht.children c hc) (hchildren c hc) (hargs c hc) (hset.part hc) x hx

theorem constantForms (hp : Typing.Declares env.program) (ht : Typing.Typed env e)
    (hs : e.Saturated) (hl : e.type.type.isLiteral = true) (hset : Settled p false e) :
    ∃ c t, ConstantForms base e c t := by
  have hconstant := ht.constant_of_isLiteral hp hs hl
  have hin := inCircuit_constant hp ht hs hl hset
  obtain ⟨c, ⟨hplain, huncalled⟩, hpublic⟩ := @publicExpr_constant base e fun x hx =>
    ⟨hconstant x hx, hin x hx⟩
  obtain ⟨t, hclosed, hcircuit⟩ := @circuitExpr_constant base e hconstant
  exact ⟨c, t, hl, hplain, huncalled, hclosed, hpublic, hcircuit⟩

end Typed

/-! ## Inlined functions -/

/-- The function is called inside, where the expression is computed inside or outside. -/
inductive Inlines : Bool → Expr → FunctionId → Prop
  | call {e : Expr} {f : FunctionId} (hf : f ∈ e.callee?) : Inlines true e f
  | part {inside : Bool} {e x : Expr} {f : FunctionId} (hx : x ∈ e.children)
      (hf : Inlines (partsWithin inside e) x f) : Inlines inside e f

/-- The function is called inside, where the statement runs inside or outside. -/
inductive InlinesStmt : Bool → Stmt → FunctionId → Prop
  | root {inside : Bool} {s : Stmt} {r : Use × Expr} {f : FunctionId} (hr : r ∈ s.roots)
      (hf : Inlines (inside || s.isPrivateIf) r.2 f) : InlinesStmt inside s f
  | part {inside : Bool} {s t : Stmt} {f : FunctionId} (ht : t ∈ s.children)
      (hf : InlinesStmt (inside || s.isPrivateIf) t f) : InlinesStmt inside s f

/-- The circuit of the first function holds the body of the second one. -/
inductive Inlined (p : Program) (f : FunctionId) : FunctionId → Prop
  | direct {g : FunctionId} (hg : InlinesStmt false (p.function f).body g) : Inlined p f g
  | held {g k : FunctionId} (hg : Inlined p f g) (hk : InlinesStmt true (p.function g).body k) :
      Inlined p f k

theorem Inlines.mem_callees (h : Inlines inside e f) : f ∈ e.callees := by
  induction h with
  | @call e f hf =>
    rw [Expr.callees_eq]
    exact List.mem_append_left _ (Option.mem_toList.2 hf)
  | @part _ e x _ hx _ ih =>
    rw [Expr.callees_eq]
    exact List.mem_append_right _ (List.mem_flatMap.2 ⟨x, hx, ih⟩)

theorem InlinesStmt.exists_root {s : Stmt} (h : InlinesStmt inside s f) :
    ∃ t ∈ s.walk, ∃ r ∈ t.roots, f ∈ r.2.callees := by
  induction h with
  | @root _ s r _ hr hf => exact ⟨s, Stmt.mem_walk_self s, r, hr, hf.mem_callees⟩
  | @part _ s t _ ht _ ih =>
    obtain ⟨t', ht', hr⟩ := ih
    exact ⟨t', Stmt.mem_walk_iff.2 (.inr ⟨t, ht, ht'⟩), hr⟩

theorem InlinesStmt.of_walk {s t : Stmt} (ht : t ∈ s.walk) (h : InlinesStmt true t f) :
    InlinesStmt true s f := by
  induction s using Stmt.induct_children with
  | h s ih =>
    rcases Stmt.mem_walk_iff.1 ht with rfl | ⟨c, hc, ht⟩
    · exact h
    · exact .part hc (ih c hc ht)

/-- Inlined functions are called. -/
theorem Inlined.transGen (h : Inlined p f g) : TransGen p.Calls f g := by
  induction h with
  | direct hg => exact .single (Effects.mem_calls_iff.2 hg.exists_root)
  | held _ hk ih => exact ih.tail (Effects.mem_calls_iff.2 hk.exists_root)

/-! ## Expressions -/

variable {G : FunctionId → Prop}

/-- Parts that are marked as inside are computed inside. -/
theorem partsWithin_of_partsInside (h : Settled p b e) (hb : b = true → inside = true)
    (hparts : Placement.partsInside (b || Placement.entersCircuit e) e = true) :
    partsWithin inside e = true := by
  cases e with
  | reclassify => rfl
  | index => cases hparts
  | cast i t x implicit | builtin i op args isPrivate =>
    rw [partsWithin, show i.inCircuit = true from h.mark.trans hparts, Bool.or_true]
  | _ => exact hb (by simpa [Placement.partsInside, Placement.entersCircuit] using hparts)

/-- What decides about lazy operands outside is public. -/
theorem isPublic_head (hp : Typing.Declares env.program) {i : Expr.Info} {op : Operator} {a : Expr}
    {as : List Expr} (ht : Typing.Typed env (.builtin i op (a :: as) false))
    (hop : op.isLazy = true) (hs : a.Saturated) : a.type.isPrivate = false := by
  cases ht with
  | paren => cases hop
  | fold hargs _ hlit => exact (hargs a (by simp)).isPublic_of_isLiteral hp hs (hlit a (by simp))
  | choose _ _ _ hpublic => exact hpublic
  | operate _ _ _ hpublic => exact (hpublic a (by simp)).1

/-- Whatever changes its owner is marked. -/
theorem entersWhole (h : Settled p b e) : e.EntersWhole := by
  intro i x o implicit hx
  obtain ⟨_, hb⟩ := h.subterm _ hx
  exact (hb.part (c := x) (.head _)).inCircuit

/-- What is read inside can be moved. -/
theorem isMoved_of_isRead (hp : Typing.Declares env.program) (ht : Typing.Typed env e)
    (hr : e.isRead = true) : e.type.type.toAbstract.IsMoved := by
  cases e with
  | me i =>
    cases ht with
    | me h =>
      rw [h.type_eq]
      exact ⟨rfl, nofun⟩
  | ident i v =>
    cases ht with
    | ident h =>
      rw [h.type_eq]
      exact (OwnedType.isDeclarable_iff.1 (hp.vars v)).isMoved
  | index i a idx => exact (ht.isDeclarable_index hp).isMoved
  | _ => cases hr

/-- Checked expressions are traceable, if they are inside where they are marked so. -/
theorem traceable {T : Trace base R} (henv : env.program = base.program)
    (hp : Typing.Declares env.program) (ht : Typing.Typed env e)
    (hsat : ∀ x ∈ e.subterms, x.OperandsSaturated) (hset : Settled p b e)
    (ha : e.Applies fun a => a.2 = (base.program.function a.1).params.length)
    (hc : ∀ f ∈ e.callees, T.callable f) (hb : b = true → inside = true)
    (hG : ∀ f, Inlines inside e f → G f) : T.Traceable G inside e := by
  induction e using Expr.induct_children generalizing b inside with
  | h e ih =>
    obtain ⟨hcount, hcounts⟩ := Expr.applies_iff.1 ha
    rw [Expr.callees_eq] at hc
    obtain ⟨hcall, hcalls⟩ := List.forall_mem_append.1 hc
    refine .intro ⟨?_, fun _ => isMoved_of_isRead hp ht, ?_, ?_, ?_, ?_⟩ fun x hx => ?_
    · rw [← henv]
      exact ht.fillsSlot_or_splits hp (entersWhole hset)
    · rintro rfl f hf
      exact hG f (.call hf)
    · rintro - i f args rfl
      exact ⟨hcall f (by simp [Expr.callee?]), hcount (f, args.length) rfl⟩
    · rintro i x o implicit rfl
      exact entersWhole hset i x o implicit (Expr.mem_subterms_self _)
    · rintro i op a as isPrivate rfl hop rfl hi
      obtain rfl : b = false := by simpa using hb
      obtain rfl : isPrivate = false := by
        rw [← hi]
        exact hset.mark.symm
      have ha : a ∈ (Expr.builtin i op (a :: as) false).children := by simp [Expr.children]
      have hs : a.Saturated := hsat _ (Expr.mem_subterms_self _) a (by simp)
      exact ⟨isPublic_head hp ht hop hs, DataType.isMoved_of_isPrimitive (ht.isPrimitive_head hop),
        fun hl => constantForms hp (ht.children a ha) hs hl (hset.part ha)⟩
    · exact ih x hx (ht.children x hx)
        (fun y hy => hsat y (Expr.mem_subterms_iff.2 (.inr ⟨x, hx, hy⟩))) (hset.part hx)
        (hcounts x hx) (fun f hf => hcalls f (List.mem_flatMap.2 ⟨x, hx, hf⟩))
        (partsWithin_of_partsInside hset hb) fun f hf => hG f (.part hx hf)

/-! ## Statements -/

section Checked

variable {unit : SourceUnit} {f : FunctionId} {T : Trace base R} {D : Discipline} {s : Stmt}
  {depth : Nat}

/-- The expressions of a checked function are traceable, if they are inside where they are marked
so. -/
theorem traceable_root (h : Passes unit.check base.program) {t : Stmt}
    (ht : t ∈ (base.program.function f).body.walk) {r : Use × Expr} (hr : r ∈ t.roots)
    (he : e ∈ r.2.subterms) (hc : ∀ g ∈ e.callees, T.callable g) (hset : Settled base.program b e)
    (hb : b = true → inside = true) (hG : ∀ g, Inlines inside e g → G g) :
    T.Traceable G inside e := by
  have hq := SourceUnit.check_checked h
  have hf := Program.has_of_root ht hr
  exact traceable rfl (Typing.declares_of_scoped hq.names)
    ((((hq.types.function f hf).body t ht).roots r hr).subterms e he)
    (fun x hx => (SourceUnit.check_saturated h hf ht).1 r hr x (Expr.mem_subterms_trans he hx)) hset
    (Expr.forall_subterms (((SourceUnit.check_applied h).body f hf t ht r hr).mono fun a ha => ha.2.2)
      (fun ha => (Expr.applies_iff.1 ha).2) e he) hc hb hG

theorem sited_of_checked (h : Passes unit.check base.program) {t : Stmt}
    (ht : t ∈ (base.program.function f).body.walk) :
    Sited base.program ((Here.ofFunction base.program f).inStmt t) where
  place := ⟨f, t, ht, rfl⟩
  vars v := (OwnedType.isDeclarable_iff.1
    ((Typing.declares_of_scoped (SourceUnit.check_checked h).names).vars v)).isMoved

/-- Statements of a checked function can run inside. -/
theorem inside_of_checked (h : Passes unit.check base.program)
    (hc : ∀ g, base.program.Calls f g → T.callable g)
    (hs : s ∈ (base.program.function f).body.walk) (hG : ∀ g, InlinesStmt true s g → G g)
    (hbranches : ∀ i c yes no, .cond i c yes no ∈ s.walk → T.branches)
    (hmay : ∀ t ∈ s.walk, ∀ v, v ∈ t.declared? ∨ v ∈ t.targets → D.may v) : T.Inside D G f s := by
  obtain ⟨_, _, -, hplaced, -⟩ := SourceUnit.check_typed h
  intro t ht
  have hwalk : t ∈ (base.program.function f).body.walk := Stmt.mem_walk_trans ht hs
  obtain ⟨b, hset, -⟩ := (Placement.withPlacement_settled hplaced f).walk t hwalk
  refine ⟨sited_of_checked h hwalk, fun r hr => ?_, ?_, hmay t ht⟩
  · exact traceable_root h hwalk hr (Expr.mem_subterms_self _)
      (fun g hg => hc g (Effects.mem_calls_iff.2 ⟨t, hwalk, r, hr, hg⟩)) (hset.root hr) (fun _ => rfl)
      fun g hg => hG g (.of_walk ht (.root hr hg))
  · rintro i c yes no rfl
    exact hbranches i c yes no ht

/-- A branch that leaves the circuit alone is open. -/
theorem openStmt_of_untouched {q : Program} (hset : SettledStmt q false s)
    (hs : stmtTouchesCircuit q s = false) : OpenStmt q s := by
  have hopen : ∀ x ∈ s.exprs, IsOpen q x := by
    intro x hx
    rw [stmtTouchesCircuit, List.any_eq_false] at hs
    exact touchesCircuit_eq_false.1 (Bool.not_eq_true _ ▸ hs x hx) x (Expr.mem_subterms_self x)
  refine ⟨hopen, fun t ht => ?_⟩
  rw [← Bool.not_eq_true]
  intro hp
  obtain ⟨r, hr, hmem, -⟩ := exists_condition ht hp
  have hinside := hset.condition ht hp r hr
  rw [(hopen r.2 hmem).1] at hinside
  cases hinside

/-- Statements of a checked function can be traced outside. -/
theorem outside_of_checked (h : Passes unit.check base.program)
    (hc : ∀ g, base.program.Calls f g → T.callable g)
    (hs : s ∈ (base.program.function f).body.walk) (hset : SettledStmt base.program false s)
    (hG : ∀ g, InlinesStmt false s g → G g)
    (hbranches : ∀ t ∈ s.walk, t.isPrivateIf = true → T.branches) : T.Outside G f s := by
  have hq := SourceUnit.check_checked h
  induction s using Stmt.induct_children with
  | h s ih =>
    by_cases hp : s.isPrivateIf = true
    · refine .inside hp (inside_of_checked h hc hs (fun g hg => hG g ?_) (fun _ _ _ _ _ =>
        hbranches s (Stmt.mem_walk_self s) hp) fun _ _ _ _ => trivial)
      cases hg with
      | root hr hg => exact .root hr (by simpa [hp] using hg)
      | part ht hg => exact .part ht (by simpa [hp] using hg)
    · rw [Bool.not_eq_true] at hp
      have hsettled : ∀ t ∈ s.children, SettledStmt base.program false t := by
        intro t ht
        simpa [hp] using hset.part ht
      have hroot : ∀ r ∈ s.roots, Settled base.program false r.2 := by
        intro r hr
        simpa [hp] using hset.root hr
      have hobeys : ∀ {r}, r ∈ s.roots → _ := fun hr =>
        (hq.types.function f (Program.has_of_root hs hr)).body s hs
      refine .outside hp ⟨sited_of_checked h hs, fun r hr => ?_, ?_, ?_⟩ fun t ht => ?_
      · exact traceable_root h hs hr (Expr.mem_subterms_self _)
          (fun g hg => hc g (Effects.mem_calls_iff.2 ⟨s, hs, r, hr, hg⟩)) (hroot r hr) id fun g hg =>
          hG g (.root hr (by simpa [hp] using hg))
      · rintro i lhs rhs rfl
        exact (hobeys (.head _)).2.1
      · rintro i c yes no rfl
        have hroots : (Use.value, c) ∈ (Stmt.cond i c yes no).roots := by simp [Stmt.roots]
        obtain ⟨htyped, hbool, -⟩ := hobeys hroots
        refine ⟨⟨htyped.isPrivate_eq.symm.trans hp, ?_, fun hl => ?_⟩, fun t ht hfree =>
          openStmt_of_untouched (hsettled t ht) hfree⟩
        · exact DataType.isMoved_of_isPrimitive (by simp [DataType.isPrimitive, hbool])
        · exact constantForms (Typing.declares_of_scoped hq.names) htyped
            ((SourceUnit.check_saturated h (Program.has_of_root hs hroots) hs).2 i c yes no rfl) hl
            (hroot _ hroots)
      · exact ih t ht (Stmt.mem_walk_trans (Stmt.mem_walk_of_mem_children ht) hs) (hsettled t ht)
          (fun g hg => hG g (.part ht (by simpa [hp] using hg)))
          fun x hx => hbranches x (Stmt.mem_walk_iff.2 (.inr ⟨t, ht, hx⟩))

/-! ## Held functions -/

/-- Parts that are computed inside are marked as inside. -/
theorem partsInside_of_partsWithin (h : Settled p b e) (hb : inside = true → b = true)
    (hparts : partsWithin inside e = true) :
    Placement.partsInside (b || Placement.entersCircuit e) e = true := by
  have hself : inside = true ∨ e.info.inCircuit = true → (b || Placement.entersCircuit e) = true := by
    rintro (hin | hin)
    · rw [hb hin, Bool.true_or]
    · rwa [← h.mark]
  cases e with
  | reclassify => rfl
  | index => cases hparts
  | cast | builtin => exact hself (by simpa [partsWithin, Expr.info] using hparts)
  | _ => exact hself (.inl hparts)

/-- A function that is called inside can be held. -/
theorem Inlines.canBePrivate (h : Inlines inside e f) (hset : Settled p b e)
    (hb : inside = true → b = true) : (p.function f).facts.canBePrivate = true := by
  induction h generalizing b with
  | call hf =>
    obtain rfl := hb rfl
    exact hset.callee hf
  | part hx _ ih => exact ih (hset.part hx) (partsInside_of_partsWithin hset hb)

theorem InlinesStmt.canBePrivate (h : InlinesStmt b s f) (hs : SettledStmt p b s) :
    (p.function f).facts.canBePrivate = true := by
  induction h with
  | root hr hf => exact hf.canBePrivate (hs.root hr) id
  | part ht _ ih => exact ih (hs.part ht)

theorem Inlined.holdable (h : Passes unit.check p) (hg : Inlined p f g) : p.Holdable g := by
  obtain ⟨_, _, -, hplaced, -⟩ := SourceUnit.check_typed h
  induction hg with
  | direct hg =>
    exact SourceUnit.check_holdable h (hg.canBePrivate (Placement.withPlacement_settled hplaced f))
  | held _ hk ih => exact SourceUnit.check_holdable h (ih.calls (Effects.mem_calls_iff.2 hk.exists_root))

/-- What a function that can be held declares or stores into is no state. -/
theorem isState_of_holdable (hp : p.Checked) (hh : p.Holdable f) {t : Stmt}
    (ht : t ∈ (p.function f).body.walk) {v : VarId} (hv : v ∈ t.declared? ∨ v ∈ t.targets) :
    p.isState v = false := by
  obtain ⟨_, _, hs, -⟩ := hp.names.function f hh.declared
  rcases hv with hv | hv
  · exact (hs.locals v (List.mem_filterMap.2 ⟨t, ht, hv⟩)).isState_eq
  · by_contra hstate
    have hmodified := hp.recorded.targets f hh.declared t ht v hv (by simpa using hstate)
    rw [hh.modified] at hmodified
    cases hmodified

/-- The function is held where another one stands in the circuit of a third. -/
def Held (p : Program) (k f g : FunctionId) : Prop := p.Calls f g ∧ Inlined p k g

/-- The code of a function stands where all functions that are held lead to it, and there is room for
those that are not. -/
structure Discipline.Ready (D : Discipline) (p : Program) (f : FunctionId) (depth : Nat) : Prop where
  calls : ∀ g ∈ D.stack, ReflTransGen p.Calls g f
  room : (p.functionIds.toFinset \ D.stack.toFinset).card ≤ depth

theorem Discipline.ready_of_nil (hD : D.stack = []) : D.Ready p f p.functions.length where
  calls := by simp [hD]
  room := by
    rw [hD, List.toFinset_nil, Finset.sdiff_empty]
    exact (List.toFinset_card_le _).trans (by simp [Program.functionIds])

/-- A function that can be held is not held yet, and there is room for it. -/
theorem Discipline.Ready.enter (h : D.Ready p f depth) (hg : p.Calls f g) (hh : p.Holdable g) :
    g ∉ D.stack ∧ depth ≠ 0 ∧ (D.hold p g).Ready p g (depth - 1) := by
  have hfree : g ∉ D.stack := fun hmem => hh.acyclic (.tail' (h.calls g hmem) hg)
  have hlt : (p.functionIds.toFinset \ (g :: D.stack).toFinset).card <
      (p.functionIds.toFinset \ D.stack.toFinset).card := by
    rw [List.toFinset_cons, Finset.sdiff_insert]
    exact Finset.card_erase_lt_of_mem (by simp [hfree, Placement.mem_functionIds, hh.declared])
  have hroom := h.room
  refine ⟨hfree, by omega, List.forall_mem_cons.2 ⟨.refl, fun k hk => (h.calls k hk).tail hg⟩, ?_⟩
  exact Nat.le_sub_one_of_lt (hlt.trans_le hroom)

/-- What a checked function holds keeps to the trace, wherever its code stands. -/
theorem holds_of_checked (h : Passes unit.check base.program) {k : FunctionId}
    (hc : ∀ g, TransGen base.program.Calls k g → T.callable g)
    (hheld : ∀ g, Inlined base.program k g → ∀ i c yes no,
      .cond i c yes no ∈ (base.program.function g).body.walk → T.branches)
    (hD : D.Ready base.program f depth) : T.Holds D (Held base.program k f) depth := by
  induction depth generalizing D f with
  | zero =>
    rintro g ⟨hcalls, hg⟩
    exact absurd rfl (hD.enter hcalls (hg.holdable h)).2.1
  | succ depth ih =>
    rintro g ⟨hcalls, hg⟩
    have hh := hg.holdable h
    have hq := SourceUnit.check_checked h
    obtain ⟨hfree, -, hready⟩ := hD.enter hcalls hh
    refine ⟨fun _ => hfree, fun values c σ => Trace.inlineBody_runs (ih hready) (fun v hv => .inr ?_) ?_⟩
    · obtain ⟨_, _, hs, -⟩ := hq.names.function g hh.declared
      exact (hs.params v hv).isState_eq
    · exact inside_of_checked h (fun k hk => hc k (hg.transGen.tail hk)) (Stmt.mem_walk_self _)
        (fun k hk => ⟨Effects.mem_calls_iff.2 hk.exists_root, hg.held hk⟩) (hheld g hg)
        fun t ht v hv => .inr (isState_of_holdable hq hh ht hv)

end Checked

/-! ## Functions -/

/-- The environment in which the circuit of a function is built. -/
def Env.within (p : Program) (s : Settings) (owners : List Label) (f : FunctionId) : Env where
  program := p
  settings := s
  function := f
  owners := owners
  here := .ofFunction p f
  inline := fun _ _ => throw (.internal .returnOutsideInlining)

theorem ofFunction_eq (p : Program) (s : Settings) (owners : List Label) (f : FunctionId) :
    Env.ofFunction p s owners f =
      (Env.within p s owners f).placed (.ofFunction p f) p.functions.length := rfl

/-- A trace of the circuit of a function. -/
abbrev ContractEnv.Trace (u : ContractEnv) (f : FunctionId) (R : Reading u.settings.dataName) :
    Type 1 :=
  Lowering.Trace (Env.within u.program u.settings u.owners f) R

section Whole

variable {unit : SourceUnit} {u : ContractEnv} (h : Passes unit.check u.program)
  {R : Reading u.settings.dataName} (T : u.Trace f R)
  (hc : ∀ g, TransGen u.program.Calls f g → T.callable g)
  (hprivate : ∀ t ∈ (u.program.function f).body.walk, t.isPrivateIf = true → T.branches)
  (hheld : ∀ g, Inlined u.program f g → ∀ i c yes no,
    .cond i c yes no ∈ (u.program.function g).body.walk → T.branches)

include h hc hprivate hheld

/-- The body of a checked function can be traced, and so can what it holds. -/
theorem body_of_checked : T.Outside (Held u.program f f) f (u.program.function f).body ∧
    T.Holds Trace.idle (Held u.program f f) u.program.functions.length ∧
    T.Holds Trace.whole (Held u.program f f) u.program.functions.length := by
  obtain ⟨_, _, -, hplaced, -⟩ := SourceUnit.check_typed h
  refine ⟨outside_of_checked h (fun g hg => hc g (.single hg)) (Stmt.mem_walk_self _)
    (Placement.withPlacement_settled hplaced f)
    (fun g hg => ⟨Effects.mem_calls_iff.2 hg.exists_root, .direct hg⟩) hprivate, ?_, ?_⟩
  · exact holds_of_checked h hc hheld (Discipline.ready_of_nil rfl)
  · exact holds_of_checked h hc hheld (Discipline.ready_of_nil rfl)

theorem functionBody_runs (c : T.Context) : T.Emits Trace.idle c (State.new u.settings)
    (functionBody (Env.ofFunction u.program u.settings u.owners f)) R.code := by
  obtain ⟨hs, hidle, hwhole⟩ := body_of_checked h T hc hprivate hheld
  rw [ofFunction_eq]
  unfold functionBody
  split
  · rename_i i ss hss
    have hss : (u.program.function f).body = .block i ss := hss
    rw [hss] at hs
    exact Trace.lowerList_runs hidle hwhole ss true fun t ht =>
      hs.child (h := .ofFunction u.program f) rfl ht
  · exact Trace.asBody_runs fun _ => Trace.lower_runs hidle hwhole _ false hs

/-- What happens to the circuit of a function, and what is read in its body. -/
theorem lowerFunction_traced {l : Lowered} (hl : lowerFunction u f = .ok l) (c : T.Context) :
    ∃ c', T.rel c (State.new u.settings) c' l.circuit (R.code l.body) := by
  obtain ⟨⟨body, circuit⟩, hbody, hl⟩ := bind_eq_ok.1 hl
  cases hl
  obtain ⟨c', new, pre, hr, -, -, hpre, hperm⟩ :=
    (functionBody_runs h T hc hprivate hheld c ⟨rfl, nofun⟩).yields hbody
  obtain rfl : pre = [] := by
    have hnone : circuit.pre = [] := Trace.functionBody_pre hbody
    rw [hnone] at hpre
    exact (List.append_eq_nil_iff.1 hpre.symm).2
  exact ⟨c', T.perm hr (by simpa using hperm.symm)⟩

end Whole

end Shroud.Lowering
