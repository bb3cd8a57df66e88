import Shroud.Proofs.Checked
import Shroud.Proofs.Semantics.Runs

/-! # What execution leaves alone

A run changes nothing but what it stores into, what it declares, and what the functions that it
calls change. So a relation between stores that these changes keep is kept by every run: see
`Machine.exec_keeps`. In a checked program all changes are recorded, and a call of a function
changes nothing but the state that the function is recorded to write.
-/

namespace Shroud

variable {p : Program} {M : FunctionId → List VarId} {v : VarId}

/-- The expression calls nothing that changes the variable. -/
def Expr.Quiet (M : FunctionId → List VarId) (v : VarId) (e : Expr) : Prop :=
  ∀ g ∈ e.callees, v ∉ M g

theorem Expr.mem_callees_of_mem_children {e c : Expr} (hc : c ∈ e.children) {f : FunctionId}
    (hf : f ∈ c.callees) : f ∈ e.callees := by
  rw [callees_eq, List.mem_append]
  exact .inr (List.mem_flatMap.2 ⟨c, hc, hf⟩)

theorem Stmt.not_changes_iff {s : Stmt} : ¬ s.Changes M v ↔ v ∉ s.declared ∧
    ∀ t ∈ s.walk, v ∉ t.targets ∧ ∀ r ∈ t.roots, r.2.Quiet M v := by
  simp only [Changes, not_or, not_exists, not_and, Expr.Quiet]

/-- A relation between the stores before and after a run that steps and the ends of blocks keep. -/
structure Keeping (K : Store p → Store p → Prop) : Prop where
  refl : ∀ σ, K σ σ
  trans : ∀ {σ ρ τ}, K σ ρ → K ρ τ → K σ τ
  restore : ∀ {σ ρ} vs, K σ ρ → K σ (ρ.restore σ vs)

variable {K : Store p → Store p → Prop}

namespace Location

/-- The variables that a place is in. -/
def vars : Location → List VarId
  | var v => [v]
  | entry base _ => base.vars
  | tuple qs => varsList qs
where
  varsList : List Location → List VarId
  | [] => []
  | q :: qs => q.vars ++ varsList qs

/-- What is in a place depends on its variables only. -/
theorem read_congr {q : Location} {σ τ : Store p} (h : ∀ v ∈ q.vars, τ.get v = σ.get v) :
    q.read τ = q.read σ := by
  cases q with
  | var v => exact h v (List.mem_singleton_self v)
  | entry base k => rw [read, read, read_congr (q := base) h]
  | tuple qs => rfl

mutual

/-- Storing a value gives new values to variables that have values. -/
theorem write_keeps (hK : Keeping K) : ∀ {q : Location} {a : Value} {σ τ : Store p},
    q.write a σ = some τ →
    (∀ w ∈ q.vars, ∀ (σ : Store p) a, σ.get w ≠ none → K σ (σ.set w a)) → K σ τ
  | .var w, a, σ, τ, h, hset => by
    rw [write] at h
    obtain ⟨b, hb, rfl⟩ := Option.map_eq_some_iff.1 h
    exact hset w (by simp [vars]) σ a (by simp [hb])
  | .entry base k, a, σ, τ, h, hset => by
    rw [write] at h
    obtain ⟨t, -, h⟩ := Option.bind_eq_some_iff.1 h
    split at h
    · exact write_keeps hK h hset
    · cases h
  | .tuple qs, .tuple as, σ, τ, h, hset => writeList_keeps hK h hset
  | .tuple _, .bool _, _, _, h, _ | .tuple _, .number _ _, _, _, h, _
  | .tuple _, .table _ _, _, _, h, _ => by cases h

theorem writeList_keeps (hK : Keeping K) : ∀ {qs : List Location} {as : List Value}
    {σ τ : Store p}, writeList qs as σ = some τ →
    (∀ w ∈ vars.varsList qs, ∀ (σ : Store p) a, σ.get w ≠ none → K σ (σ.set w a)) → K σ τ
  | [], [], σ, τ, h, _ => by
    cases h
    exact hK.refl σ
  | q :: qs, a :: as, σ, τ, h, hset => by
    rw [writeList] at h
    obtain ⟨ρ, hq, hqs⟩ := Option.bind_eq_some_iff.1 h
    rw [vars.varsList, List.forall_mem_append] at hset
    exact hK.trans (write_keeps hK hq hset.1) (writeList_keeps hK hqs hset.2)
  | [], _ :: _, _, _, h, _ | _ :: _, [], _, _, h, _ => by cases h

end

end Location

namespace Machine

variable {m : Machine p} {σ τ : Store p} {e : Expr} {es : List Expr} {f : FunctionId} {q : Location}
  {a : Value}

/-! ## Expressions -/

/-- Running something keeps a relation. -/
def Keeps {α : Type} (K : Store p → Store p → Prop) (x : Run p α) : Prop :=
  ∀ ⦃σ a τ⦄, Runs x σ a τ → K σ τ

theorem vars_locateList {qs : List Location}
    (he : ∀ e ∈ es, ∀ {σ τ : Store p} {q : Location}, Runs (m.locate e) σ q τ →
      q.vars ⊆ e.targets) (h : Runs (m.locateList es) σ qs τ) :
    Location.vars.varsList qs ⊆ es.flatMap Expr.targets := by
  induction es generalizing σ qs with
  | nil =>
    obtain ⟨rfl, -⟩ := runs_locateList_nil.1 h
    exact nofun
  | cons e es ih =>
    obtain ⟨q, ρ, rs, hq, hrs, rfl⟩ := runs_locateList_cons.1 h
    rw [List.forall_mem_cons] at he
    rw [Location.vars.varsList, List.flatMap_cons]
    exact List.append_subset_of_subset_of_subset
      (List.Subset.trans (he.1 hq) (List.subset_append_left _ _))
      (List.Subset.trans (ih he.2 hrs) (List.subset_append_right _ _))

/-- A target is found among the variables that are stored into. -/
theorem vars_locate (h : Runs (m.locate e) σ q τ) : q.vars ⊆ e.targets := by
  induction e using Expr.induct generalizing σ τ q with
  | ident i w =>
    obtain ⟨rfl, -⟩ := runs_locate_ident.1 h
    exact List.Subset.refl _
  | index i base idx hb _ =>
    obtain ⟨r, ρ, k, hr, -, rfl⟩ := runs_locate_index.1 h
    rw [Location.vars, Expr.targets]
    exact hb hr
  | tuple i es ih =>
    obtain ⟨qs, hqs, rfl⟩ := runs_locate_tuple.1 h
    rw [Expr.targets, Expr.targetsList_eq_flatMap, Location.vars]
    exact vars_locateList ih hqs
  | _ => cases h

theorem test_keeps {c : Expr} (hc : Keeps K (m.eval c)) : Keeps K (m.test c) :=
  fun _ _ _ h => hc (runs_test.1 h)

section Keeping

variable (hK : Keeping K)

include hK

theorem evalList_keeps (he : ∀ e ∈ es, Keeps K (m.eval e)) : Keeps K (m.evalList es) := by
  induction es with
  | nil =>
    intro σ as τ h
    obtain ⟨-, rfl⟩ := runs_evalList_nil.1 h
    exact hK.refl τ
  | cons e es ih =>
    intro σ as τ h
    obtain ⟨a, ρ, bs, ha, hbs, -⟩ := runs_evalList_cons.1 h
    rw [List.forall_mem_cons] at he
    exact hK.trans (he.1 ha) (ih he.2 hbs)

/-- Operators keep what their operands keep. -/
theorem builtin_keeps {i : Expr.Info} {op : Operator} {args : List Expr} {b : Bool}
    (he : ∀ e ∈ args, Keeps K (m.eval e)) : Keeps K (m.eval (.builtin i op args b)) := by
  intro σ a τ h
  by_cases hp : op = .paren
  · subst hp
    obtain ⟨e, rfl, h⟩ := runs_paren.1 h
    exact he e (by simp) h
  cases hl : op.isLazy with
  | false =>
    obtain ⟨-, as, h, -⟩ := (runs_strict hp hl).1 h
    exact evalList_keeps hK he h
  | true =>
    obtain ⟨-, e, es, c, ρ, rfl, hc, hlater⟩ := (runs_lazy hl).1 h
    rw [List.forall_mem_cons] at he
    rcases hlater with ⟨e', he', h⟩ | ⟨-, -, rfl⟩
    · exact hK.trans (he.1 hc) (he.2 e' (Operator.mem_of_later? he') h)
    · exact he.1 hc

/-- An expression keeps what the functions that it calls keep. -/
theorem eval_keeps (hcall : ∀ f ∈ e.callees, ∀ as, Keeps K (m.invoke f as)) :
    Keeps K (m.eval e) := by
  induction e using Expr.induct_children with
  | h e ih =>
    replace ih : ∀ c ∈ e.children, Keeps K (m.eval c) := fun c hc =>
      ih c hc fun f hf => hcall f (Expr.mem_callees_of_mem_children hc hf)
    intro σ a τ h
    cases e with
    | bool i b =>
      obtain ⟨-, rfl⟩ := runs_bool.1 h
      exact hK.refl τ
    | number i n =>
      obtain ⟨-, rfl⟩ := runs_number.1 h
      exact hK.refl τ
    | me i =>
      obtain ⟨-, rfl⟩ := runs_me.1 h
      exact hK.refl τ
    | ident i w =>
      obtain ⟨-, rfl⟩ := runs_ident.1 h
      exact hK.refl τ
    | builtin i op args b => exact builtin_keeps hK ih h
    | call i f args =>
      obtain ⟨as, ρ, hargs, hinvoke⟩ := runs_call.1 h
      have hf : f ∈ (Expr.call i f args).callees := by
        rw [Expr.callees_eq, List.mem_append]
        exact .inl (List.mem_singleton_self f)
      exact hK.trans (evalList_keeps hK ih hargs) (hcall f hf as hinvoke)
    | index i base idx =>
      obtain ⟨t, ρ, k, ht, hk, -⟩ := runs_index.1 h
      exact hK.trans (ih base (.head _) ht) (ih idx (.tail _ (.head _)) hk)
    | reclassify i e o b =>
      obtain ⟨c, h, -⟩ := runs_reclassify.1 h
      exact ih e (.head _) h
    | cast i t e b =>
      obtain ⟨c, h, -⟩ := runs_cast.1 h
      exact ih e (.head _) h
    | tuple i es =>
      obtain ⟨as, h, -⟩ := runs_tuple.1 h
      exact evalList_keeps hK ih h

theorem locateList_keeps (he : ∀ e ∈ es, Keeps K (m.locate e)) : Keeps K (m.locateList es) := by
  induction es with
  | nil =>
    intro σ qs τ h
    obtain ⟨-, rfl⟩ := runs_locateList_nil.1 h
    exact hK.refl τ
  | cons e es ih =>
    intro σ qs τ h
    obtain ⟨q, ρ, rs, hq, hrs, -⟩ := runs_locateList_cons.1 h
    rw [List.forall_mem_cons] at he
    exact hK.trans (he.1 hq) (ih he.2 hrs)

theorem locate_keeps (hcall : ∀ f ∈ e.callees, ∀ as, Keeps K (m.invoke f as)) :
    Keeps K (m.locate e) := by
  induction e using Expr.induct_children with
  | h e ih =>
    replace ih : ∀ c ∈ e.children, Keeps K (m.locate c) := fun c hc =>
      ih c hc fun f hf => hcall f (Expr.mem_callees_of_mem_children hc hf)
    intro σ q τ h
    cases e with
    | ident i w =>
      obtain ⟨-, rfl⟩ := runs_locate_ident.1 h
      exact hK.refl τ
    | index i base idx =>
      obtain ⟨r, ρ, k, hr, hk, -⟩ := runs_locate_index.1 h
      refine hK.trans (ih base (.head _) hr) (eval_keeps hK (fun f hf => ?_) hk)
      exact hcall f (Expr.mem_callees_of_mem_children (.tail _ (.head _)) hf)
    | tuple i es =>
      obtain ⟨qs, h, -⟩ := runs_locate_tuple.1 h
      exact locateList_keeps hK ih h
    | _ => cases h

/-! ## Statements -/

theorem testOption_keeps {c : Option Expr} (hc : ∀ e ∈ c, Keeps K (m.eval e)) :
    Keeps K (m.testOption c) := by
  intro σ b τ h
  cases c with
  | none =>
    obtain ⟨-, rfl⟩ := Runs.pure_iff.1 h
    exact hK.refl τ
  | some c => exact test_keeps (hc c rfl) h

theorem iterate_keeps {head : Run p Bool} {round : Run p Outcome} (hh : Keeps K head)
    (hr : Keeps K round) (n : Nat) : Keeps K (iterate head round n) := by
  induction n with
  | zero =>
    intro σ o τ h
    exact (runs_iterate_zero.1 h).elim
  | succ n ih =>
    intro σ o τ h
    rcases runs_iterate_succ.1 h with ⟨hb, -⟩ | ⟨ρ, o', ρ', hb, hround, h⟩
    · exact hh hb
    have hstep := hK.trans (hh hb) (hr hround)
    split at h
    · exact hK.trans hstep (ih h)
    · obtain ⟨-, rfl⟩ := h
      exact hstep

theorem execList_keeps {ss : List Stmt} (hs : ∀ s ∈ ss, Keeps K (m.exec s)) :
    Keeps K (m.execList ss) := by
  induction ss with
  | nil =>
    intro σ o τ h
    obtain ⟨-, rfl⟩ := runs_execList_nil.1 h
    exact hK.refl τ
  | cons s ss ih =>
    intro σ o τ h
    obtain ⟨o', ρ, hs', h⟩ := runs_execList_cons.1 h
    rw [List.forall_mem_cons] at hs
    split at h
    · exact hK.trans (hs.1 hs') (ih hs.2 h)
    · obtain ⟨-, rfl⟩ := h
      exact hs.1 hs'

theorem execOption_keeps {s : Option Stmt} (hs : ∀ t ∈ s, Keeps K (m.exec t)) :
    Keeps K (m.execOption s) := by
  intro σ o τ h
  cases s with
  | none =>
    obtain ⟨-, rfl⟩ := runs_execOption_none.1 h
    exact hK.refl τ
  | some s => exact hs s rfl (runs_execOption_some.1 h)

theorem round_keeps {update : Option Stmt} {body : Stmt} (hb : Keeps K (m.exec body))
    (hu : ∀ s ∈ update, Keeps K (m.exec s)) : Keeps K (m.round update body) := by
  intro σ o τ h
  obtain ⟨o', ρ, hbody, h⟩ := runs_round.1 h
  split at h
  · exact hK.trans (hb hbody) (execOption_keeps hK hu h)
  · obtain ⟨-, rfl⟩ := h
    exact hb hbody

/-- A statement keeps what its calls, its declarations and its assignments keep. -/
theorem exec_keeps {s : Stmt}
    (hcall : ∀ t ∈ s.walk, ∀ r ∈ t.roots, ∀ f ∈ r.2.callees, ∀ as, Keeps K (m.invoke f as))
    (hdecl : ∀ w ∈ s.declared, ∀ (σ : Store p) a, K σ (σ.set w a))
    (hset : ∀ t ∈ s.walk, ∀ w ∈ t.targets, ∀ (σ : Store p) a, σ.get w ≠ none → K σ (σ.set w a)) :
    Keeps K (m.exec s) := by
  induction s using Stmt.induct_children with
  | h s ih =>
    have hself : s ∈ s.walk := Stmt.mem_walk_self s
    have hchild : ∀ c ∈ s.children, Keeps K (m.exec c) := by
      intro c hc
      have hsub : ∀ t ∈ c.walk, t ∈ s.walk := fun t ht => Stmt.mem_walk_iff.2 (.inr ⟨c, hc, ht⟩)
      refine ih c hc (fun t ht => hcall t (hsub t ht)) (fun w hw => hdecl w ?_)
        (fun t ht => hset t (hsub t ht))
      exact Stmt.declared_subset_of_mem_walk (hsub c (Stmt.mem_walk_self c)) hw
    have heval : ∀ r ∈ s.roots, Keeps K (m.eval r.2) := fun r hr =>
      eval_keeps hK (hcall s hself r hr)
    intro σ o τ h
    cases s with
    | block i body =>
      obtain ⟨ρ, hbody, rfl⟩ := runs_block.1 h
      exact hK.restore _ (execList_keeps hK hchild hbody)
    | cond i c yes no =>
      obtain ⟨b, ρ, hc, h⟩ := runs_cond.1 h
      have hc := heval (.value, c) (.head _) hc
      split at h
      · exact hK.trans hc (hchild yes (.head _) h)
      · refine hK.trans hc (execOption_keeps hK (fun t ht => ?_) h)
        obtain rfl := ht
        exact hchild t (.tail _ (.head _))
    | loop i c body =>
      refine iterate_keeps hK (test_keeps ?_) (hchild body (.head _)) _
        (runs_loop.1 h)
      exact heval (.value, c) (.head _)
    | doLoop i body c =>
      obtain ⟨o', ρ, hbody, h⟩ := runs_doLoop.1 h
      have hbody' : Keeps K (m.exec body) := hchild body (.head _)
      split at h
      · refine hK.trans (hbody' hbody) (iterate_keeps hK (test_keeps ?_) hbody' _ h)
        exact heval (.value, c) (.head _)
      · obtain ⟨-, rfl⟩ := h
        exact hbody' hbody
    | forLoop i init c update body =>
      obtain ⟨o', ρ, ρ', hinit, hloop, rfl⟩ := runs_forLoop.1 h
      have hinit : K σ ρ := by
        refine execOption_keeps hK (fun t ht => ?_) hinit
        obtain rfl := ht
        exact hchild t (.head _)
      refine hK.restore _ ?_
      split at hloop
      · refine hK.trans hinit (iterate_keeps hK (testOption_keeps hK fun e he => ?_)
          (round_keeps hK (hchild body (by simp [Stmt.children])) fun t ht => ?_) _ hloop)
        · exact heval (.value, e) (by simpa [Stmt.roots] using he)
        · obtain rfl := ht
          exact hchild t (by simp [Stmt.children])
      · obtain ⟨-, rfl⟩ := hloop
        exact hinit
    | decl i w init =>
      obtain ⟨a, ρ, ha, -, rfl⟩ := runs_decl.1 h
      refine hK.trans ?_ (hdecl w (by simp) ρ a)
      cases init with
      | none =>
        obtain ⟨-, rfl⟩ := Runs.pure_iff.1 ha
        exact hK.refl ρ
      | some e => exact heval (.value, e) (.head _) ha
    | assign i lhs rhs =>
      obtain ⟨q, ρ, a, ρ', hq, ha, hw, -⟩ := runs_assign.1 h
      have hlhs := locate_keeps hK (hcall _ hself (.target, lhs) (.head _)) hq
      have hrhs := heval (.value, rhs) (.tail _ (.head _)) ha
      refine hK.trans hlhs (hK.trans hrhs (Location.write_keeps hK hw fun w hw => ?_))
      exact hset _ hself w (vars_locate hq hw)
    | expr i e =>
      obtain ⟨a, h, -⟩ := runs_expr.1 h
      exact heval (.value, e) (.head _) h
    | require i e => exact heval (.value, e) (.head _) (runs_require.1 h).1
    | ret i e =>
      cases e with
      | none =>
        obtain ⟨-, rfl⟩ := runs_ret_none.1 h
        exact hK.refl τ
      | some e =>
        obtain ⟨a, h, -⟩ := runs_ret_some.1 h
        exact heval (.value, e) (.head _) h
    | leave i =>
      obtain ⟨-, rfl⟩ := runs_leave.1 h
      exact hK.refl τ
    | next i =>
      obtain ⟨-, rfl⟩ := runs_next.1 h
      exact hK.refl τ

end Keeping

/-! ## The value of a variable -/

/-- The value of a variable stays the same. -/
def SameAt (v : VarId) (σ τ : Store p) : Prop := τ.get v = σ.get v

theorem sameAt_keeping (v : VarId) : Keeping (SameAt (p := p) v) where
  refl _ := rfl
  trans h h' := h'.trans h
  restore {σ ρ} vs h := by
    by_cases hv : v ∈ vs
    · exact Store.get_restore_of_mem hv
    · exact (Store.get_restore_of_not_mem hv).trans h

/-- Calls change nothing but the given variables. -/
def Framed (m : Machine p) (M : FunctionId → List VarId) : Prop :=
  ∀ f as σ a τ, m.call f as σ = some (a, τ) → ∀ v ∉ M f, τ.get v = σ.get v

theorem Framed.invoke (hm : m.Framed M) (hf : v ∉ M f) (as : List Value) :
    Keeps (SameAt v) (m.invoke f as) := by
  intro σ a τ h
  obtain ⟨ρ, hcall, rfl⟩ := runs_invoke.1 h
  exact hm f as σ a ρ hcall v hf

/-- An expression changes what the functions that it calls change. -/
theorem eval_frame (hm : m.Framed M) (h : Runs (m.eval e) σ a τ) (hq : e.Quiet M v) :
    τ.get v = σ.get v :=
  eval_keeps (sameAt_keeping v) (fun f hf as => hm.invoke (hq f hf) as) h

theorem locate_frame (hm : m.Framed M) (h : Runs (m.locate e) σ q τ) (hq : e.Quiet M v) :
    τ.get v = σ.get v :=
  locate_keeps (sameAt_keeping v) (fun f hf as => hm.invoke (hq f hf) as) h

theorem write_frame (h : q.write a σ = some τ) (hv : v ∉ q.vars) : τ.get v = σ.get v := by
  refine Location.write_keeps (sameAt_keeping v) h fun w hw ρ b _ => ?_
  exact ρ.get_set_of_ne b fun heq => hv (heq ▸ hw)

/-- A statement leaves alone what it does not change. -/
theorem exec_frame (hm : m.Framed M) {s : Stmt} {o : Outcome} (h : Runs (m.exec s) σ o τ)
    (hs : ¬ s.Changes M v) : τ.get v = σ.get v := by
  obtain ⟨hdecl, hwalk⟩ := Stmt.not_changes_iff.1 hs
  refine exec_keeps (sameAt_keeping v) ?_ ?_ ?_ h
  · intro t ht r hr f hf as
    exact hm.invoke ((hwalk t ht).2 r hr f hf) as
  · intro w hw ρ a
    exact ρ.get_set_of_ne a fun heq => hdecl (heq ▸ hw)
  · intro t ht w hw ρ a _
    exact ρ.get_set_of_ne a fun heq => (hwalk t ht).1 (heq ▸ hw)

/-! ## Calls -/

/-- A function that is checked changes the state that it is recorded to write. -/
theorem not_changes_body (hp : p.Checked) (hv : p.isState v = true) (hf : v ∉ p.modified f) :
    ¬ (p.function f).body.Changes p.modified v := by
  by_cases hlt : p.Has f
  · rintro (hd | ⟨t, ht, htarget | ⟨r, hr, g, hg, hvg⟩⟩)
    · obtain ⟨fs, n, hs, -⟩ := hp.names.function f hlt
      exact absurd (hv.symm.trans (hs.locals v hd).isState_eq) (by simp)
    · exact hf (hp.recorded.targets f hlt t ht v htarget hv)
    · exact hf (hp.recorded.calls f hlt t ht r hr g hg hvg)
  · rw [Program.function_of_not_has hlt]
    rintro (hd | ⟨t, ht, htarget | ⟨r, hr, -⟩⟩)
    · cases hd
    · obtain rfl := List.mem_singleton.1 ht
      cases htarget
    · obtain rfl := List.mem_singleton.1 ht
      cases hr

/-- Calls that run the bodies of checked functions change nothing but the recorded state. -/
theorem perform_framed (hp : p.Checked) (hm : m.Framed p.modified) {as : List Value}
    (h : m.perform f as σ = some (a, τ)) (hv : v ∉ p.modified f) : τ.get v = σ.get v := by
  obtain ⟨-, o, ρ, hbody, -, rfl⟩ := perform_eq_some.1 h
  cases hstate : p.isState v with
  | false => simp [Store.resume, hstate]
  | true =>
    have hρ := exec_frame hm hbody (not_changes_body hp hstate hv)
    simpa [Store.resume, Store.activate, hstate] using hρ

end Machine

/-- No call of a checked program changes more than it is recorded to. -/
theorem Program.machine_framed (hp : p.Checked) (sender : Int) (checked : Bool)
    (rounds depth : Nat) : (p.machine sender checked rounds depth).Framed p.modified := by
  induction depth with
  | zero => exact nofun
  | succ depth ih =>
    intro f as σ a τ h v hv
    exact Machine.perform_framed hp ih h hv

namespace SourceUnit

/-- **The recorded variables frame every statement.** What a run changes is a variable that the
statement is recorded to write, or lies in one, however the run ends. -/
theorem modified_frames {u : SourceUnit} {q : Program} (h : Passes u.check q) (sender : Int)
    (checked : Bool) (rounds depth : Nat) {f : FunctionId} (hf : f.index < q.functions.length)
    {s : Stmt} (hs : s ∈ (q.function f).body.walk) {σ τ : Store q} {o : Outcome}
    (hrun : Runs ((q.machine sender checked rounds depth).exec s) σ o τ) :
    (∀ v, τ.get v ≠ σ.get v → v ∈ s.info.modified) ∧
      ∀ x : Location, x.read τ ≠ x.read σ → ∃ v ∈ x.vars, v ∈ s.info.modified := by
  have hp := check_checked h
  have hframe : ∀ v, v ∉ s.info.modified → τ.get v = σ.get v := by
    intro v hv
    refine Machine.exec_frame (Program.machine_framed hp sender checked rounds depth) hrun ?_
    exact fun hchanges => hv (hp.recorded.stmts f hf s hs v hchanges)
  refine ⟨fun v => not_imp_comm.1 (hframe v), fun x hx => ?_⟩
  by_contra! hnone
  exact hx (Location.read_congr fun v hv => hframe v (hnone v hv))

/-- A loop that stores under an index which a called function counts, and leaves. -/
def counted : SourceUnit := .single "Counted" [
  { name := "n", type := .mk (.uint 8) .all },
  { name := "m", type := .mk (.mapping (.uint 8) none (.mk (.uint 8) .all)) .all }] [
  { name := "next"
    returns := [.mk (.uint 8) .all]
    body := [
      .assign {} "n" none (.builtin {} .add ["n", 1]),
      .ret {} (some "n")] },
  { name := "f"
    body := [.loop {} (.bool {} true) (.block {} [
      .assign {} (.index {} "m" (.call {} "next" [])) none 5,
      .leave {}])] }]

/-- The loop changes the count and an element of the mapping, and both are recorded for it. -/
theorem modified_frames_counted : ∃ q s τ, Passes counted.check q ∧
    s ∈ (q.function ⟨1⟩).body.walk ∧
    Runs ((q.machine 7 true 2 1).exec s) (Store.zeros q) .normal τ ∧
    (Location.read τ (.entry (.var ⟨1⟩) (.number 1))).map Value.datum = some (.number 5) ∧
    (Location.read (Store.zeros q) (.entry (.var ⟨1⟩) (.number 1))).map Value.datum =
      some (.number 0) ∧ (⟨1⟩ : VarId) ∈ s.info.modified := by
  let element {p : Program} (σ : Store p) : Option Literal :=
    (Location.read σ (.entry (.var ⟨1⟩) (.number 1))).map Value.datum
  have hrun : Passes.test counted.check (fun q => (q.function ⟨1⟩).body.walk[1]?.any fun s =>
      (((q.machine 7 true 2 1).exec s).run (Store.zeros q)).any fun r => r.1.isNormal &&
        (q.functions.length, element r.2, element (Store.zeros q)) =
          (2, some (.number 5), some (.number 0))) = true := by
    decide +kernel
  obtain ⟨q, hq, htest⟩ := Passes.of_test hrun
  obtain ⟨s, hs, htest⟩ := (Option.any_eq_true _ _).1 htest
  obtain ⟨⟨o, τ⟩, hr, htest⟩ := (Option.any_eq_true _ _).1 htest
  simp only [Bool.and_eq_true, decide_eq_true_eq, Prod.mk.injEq] at htest
  obtain ⟨ho, hlen, hτ, hσ⟩ := htest
  obtain rfl : o = .normal := by cases o <;> first | rfl | exact absurd ho Bool.false_ne_true
  have hmem := List.mem_of_getElem? hs
  refine ⟨q, s, τ, hq, hmem, hr, hτ, hσ, ?_⟩
  have hdiff : Location.read τ (.entry (.var ⟨1⟩) (.number 1)) ≠
      Location.read (Store.zeros q) (.entry (.var ⟨1⟩) (.number 1)) := by
    intro heq
    have : element τ = element (Store.zeros q) := congrArg (Option.map Value.datum) heq
    simp [hτ, hσ] at this
  obtain ⟨v, hv, hmod⟩ :=
    (modified_frames hq 7 true 2 1 (f := ⟨1⟩) (by simp [hlen]) hmem hr).2 _ hdiff
  rwa [← List.mem_singleton.1 hv]

end SourceUnit

end Shroud
