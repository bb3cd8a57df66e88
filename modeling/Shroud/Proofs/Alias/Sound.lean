import Shroud.Proofs.Alias.Flow
import Shroud.Proofs.Finals
import Shroud.Proofs.Semantics.Labels

/-! # What is known is true

Whenever control gets to a statement, labels of one class before it denote equal values, and so do
labels of one class after it once it has ended normally.

The invariant of a run is `Alias.Ready`. Beside the equalities it says that nothing is known yet
about the variables that are declared later, and that most of them have no values: only so can a
declaration add its variable to a class that is there already. A loop may run its body again, and
what is known before it survives since its variables are not changed: either the loop changes
nothing, or they are fixed.
-/

namespace Shroud

namespace Stmt

/-- The conditions that decide how the statement goes on. -/
def conditions : Stmt → List Expr
  | .cond _ c _ _ | .loop _ c _ | .doLoop _ _ c | .require _ c => [c]
  | .forLoop _ _ c _ _ => c.toList
  | _ => []

/-- The conditions that something is learned from, with the values that they have then. -/
def tests : Stmt → List (Bool × Expr)
  | .cond _ c _ _ => [(true, c), (false, c)]
  | .loop _ c _ | .require _ c => [(true, c)]
  | .forLoop _ _ c _ _ => c.toList.map (true, ·)
  | _ => []

/-- The statement goes on with the next round of a loop. -/
def isNext : Stmt → Bool
  | .next _ => true
  | _ => false

theorem value_mem_roots {s : Stmt} {c : Expr} (h : c ∈ s.conditions) : (.value, c) ∈ s.roots := by
  cases s <;> simp_all [conditions, roots]

theorem mem_conditions_of_mem_tests {s : Stmt} {x : Bool} {c : Expr} (h : (x, c) ∈ s.tests) :
    c ∈ s.conditions := by
  cases s <;> simp_all [conditions, tests, ← or_and_right]

end Stmt

theorem Typing.Open.isBool {env : Typing.Env} {c : Expr} (h : Typing.Open env c) :
    c.type.type.isBool = true := by
  have hfit := h.2
  rw [@Typing.fit_of_isDeclarable env c.type (.ofAll .bool) trivial,
    Typing.fitPlain_eq_exact] at hfit
  exact DataType.isBool_of_convertsTo hfit.1 rfl

namespace Alias

/-- What the analysis accounts for: conditions without effects, assignments to single targets, and
rounds of a `for` that come to its update only by the end of its body. -/
def isFollowed (p : Program) (s : Stmt) : Bool :=
  s.conditions.all (fun c => !p.exprHasEffects c) &&
    match s with
    | .assign _ (.tuple _ _) _ => false
    | .forLoop _ _ _ (some _) body => !body.walk.any Stmt.isNext
    | _ => true

/-- The same with effects in conditions, as long as they leave alone what was tested before them. -/
def isTracked (p : Program) (s : Stmt) : Bool :=
  s.tests.all (fun t => isLasting p.modified t.1 t.2.plain) &&
    match s with
    | .assign _ (.tuple _ _) _ => false
    | .forLoop _ _ _ (some _) body => !body.walk.any Stmt.isNext
    | _ => true

theorem isTracked_of_isFollowed {q : Program} (hq : EffectsIn q q) {s : Stmt}
    (h : isFollowed q s = true) : isTracked q s = true := by
  unfold isFollowed at h
  unfold isTracked
  rw [Bool.and_eq_true, List.all_eq_true] at h ⊢
  refine ⟨fun t ht => isLasting_of_quiet t.1 fun f hf => ?_, h.2⟩
  have hcalm := h.1 t.2 (Stmt.mem_conditions_of_mem_tests ht)
  exact hq.isCalm (by simpa using hcalm) rfl f (by rwa [Expr.callees_plain] at hf)

/-- When a function starts, each label is alone in its class. -/
theorem related_initial {p : Program} {f : Function} {x y : Label}
    (h : (initial p f).Related x y) : x = y ∧ x ∈ Label.me :: Label.all ::
      ((p.contract f.contract).stateVars ++ f.params).map Label.var := by
  have hfold : ∀ (ls : List Label) {s : Classes}, (ls.foldl Partition.insert s).Related x y →
      s.Related x y ∨ x = y ∧ x ∈ ls := by
    intro ls
    induction ls with
    | nil => exact fun h => .inl h
    | cons l ls ih =>
      intro s h
      rcases ih h with h | ⟨heq, hmem⟩
      · rcases Partition.related_insert_iff.1 h with h | ⟨rfl, rfl⟩
        · exact .inl h
        · exact .inr ⟨rfl, List.mem_cons_self⟩
      · exact .inr ⟨heq, List.mem_cons_of_mem _ hmem⟩
  exact (hfold _ h).resolve_left Partition.not_related_empty

/-- A function of a checked program, all of which the analysis accounts for, on a machine whose
calls change no more than is recorded. -/
structure Setting (u : SourceUnit) (q : Program) (m : Machine q) (f : FunctionId) : Prop where
  passes : Passes u.check q
  framed : m.Framed q.modified
  tracked : ∀ g, g.index < q.functions.length → ∀ t ∈ (q.function g).body.walk,
    isTracked q t = true
  mem : f.index < q.functions.length

namespace Setting

variable {u : SourceUnit} {q : Program} {m : Machine q} {f : FunctionId} {v : VarId} {t : Stmt}
  {σ τ : Store q} {s : Classes} (H : Setting u q m f)

include H

theorem checked : q.Checked := SourceUnit.check_checked H.passes

theorem assignsSingly : q.AssignsSingly := by
  intro g hg i j es rhs ht
  simpa [isTracked, Stmt.tests] using H.tracked g hg _ ht

theorem isState_of_declared (hv : v ∈ (q.function f).body.declared) : q.isState v = false := by
  obtain ⟨fs, n, hs, -⟩ := H.checked.names.function f H.mem
  rw [(hs.locals v hv).isState_eq]
  rfl

/-- Calls change state only. -/
theorem not_modified (hv : q.isState v = false) (g : FunctionId) : v ∉ q.modified g := by
  intro hg
  rw [H.checked.recorded.state g v hg] at hv
  cases hv

variable (ht : t ∈ (q.function f).body.walk)

include ht

theorem nodup : t.declared.Nodup := by
  obtain ⟨fs, n, hs, -⟩ := H.checked.names.function f H.mem
  exact Stmt.nodup_declared_of_mem_walk hs.body.nodup ht

/-- A calm expression calls nothing that changes a variable, and no expression calls anything that
changes a fixed one. -/
theorem quiet {r : Use × Expr} (hr : r ∈ t.roots) (h : r.2.IsCalm q ∨
      (q.var v).type.type.isPrimitive = true ∧ (q.var v).isFixed = true) :
    r.2.Quiet q.modified v := by
  intro g hg
  rcases h with h | ⟨hprim, hfixed⟩
  · simp [h g hg]
  · obtain ⟨fs, n, hs, hfs⟩ := H.checked.names.function f H.mem
    obtain ⟨hlt, hctor, -⟩ := hfs g ((hs.body.within t ht r hr).2 g hg)
    exact SourceUnit.check_not_modified H.passes H.assignsSingly hlt hctor hprim hfixed

/-- A condition leaves alone what is left of what is known before it. -/
theorem condition_leaves {c : Expr} (hc : c ∈ t.conditions) {P : Prop} {s' : Classes}
    (hd : Drops q P s s') (hP : P → ∀ v, c.Quiet q.modified v) : c.Leaves q q.modified s' := by
  intro v y hvy hne hprim
  cases hd with
  | all h => exact hP h v
  | fixed =>
    obtain ⟨-, heq | ⟨hfixed, -⟩⟩ := Partition.related_separate_iff.1 hvy
    · exact (hne heq.symm).elim
    · exact H.quiet ht (Stmt.value_mem_roots hc) (.inr ⟨hprim, hfixed⟩)

/-- Once a condition has a value, what it says is true. -/
theorem guard_holds {c : Expr} {b : Bool} (hc : (b, c) ∈ t.tests)
    (h : Runs (m.eval c) σ (.bool b) τ) (hs : m.Holds s σ) (hleaves : c.Leaves q q.modified s) :
    m.Holds (guard b c.plain s) τ := by
  have htracked := H.tracked f H.mem t ht
  unfold isTracked at htracked
  rw [Bool.and_eq_true, List.all_eq_true] at htracked
  have hlasts : isLasting q.modified b c.plain = true := htracked.1 _ hc
  replace hc := Stmt.mem_conditions_of_mem_tests hc
  have hp := Typing.declares_of_scoped H.checked.names
  obtain ⟨htyped, hbool⟩ : Typing.Typed { program := q, site := q.site f, before? := t.before? } c ∧
      c.type.type.isBool = true := by
    have hobeys := (H.checked.types.function f H.mem).body t ht
    cases t with
    | cond i e yes no =>
      obtain rfl := List.mem_singleton.1 hc
      exact ⟨hobeys.1, hobeys.2.1⟩
    | loop i e body | doLoop i body e | require i e =>
      obtain rfl := List.mem_singleton.1 hc
      exact ⟨hobeys.1, hobeys.isBool⟩
    | forLoop i init e update body =>
      have hc := hobeys c (Option.mem_toList.1 hc)
      exact ⟨hc.1, hc.isBool⟩
    | _ => cases hc
  exact Machine.guard_tells hp H.framed htyped hbool h hs hleaves hlasts

end Setting

/-! ## The invariant -/

variable {q : Program}

/-- What is true when control gets to statements that declare some variables: all that is known,
and nothing is known about these variables. Only those that stay visible may have values. -/
structure Ready (m : Machine q) (declared opens : List VarId) (b : Classes) (σ : Store q) :
    Prop where
  apart : AllApart b
  holds : m.Holds b σ
  isLocal : ∀ v ∈ declared, q.isState v = false
  fresh : ∀ v ∈ declared, ¬ Lists b v
  absent : ∀ v ∈ declared, v ∉ opens → σ.get v = none

/-- What is true when such statements have ended normally. New variables are listed only if they
are declared there, or if they had values already. -/
structure Done (m : Machine q) (declared : List VarId) (b a : Classes) (σ τ : Store q) : Prop where
  holds : m.Holds a τ
  lists : ∀ v, q.isState v = false → Lists a v → Lists b v ∨ v ∈ declared ∨ σ.get v ≠ none

section

variable {m : Machine q} {new new' kept kept' : List VarId} {b c a : Classes} {σ ρ τ : Store q}
  {P : Prop}

/-- What is true before statements is true before some of them. -/
theorem Ready.mono (h : Ready m new kept b σ) (hsub : new' ⊆ new)
    (hkept : ∀ v ∈ new', v ∉ kept' → v ∉ kept) : Ready m new' kept' b σ where
  apart := h.apart
  holds := h.holds
  isLocal v hv := h.isLocal v (hsub hv)
  fresh v hv := h.fresh v (hsub hv)
  absent v hv hv' := h.absent v (hsub hv) (hkept v hv hv')

/-- What some statements leave behind lists none of the variables of later ones. -/
theorem Done.fresh (h : Done m new b a σ τ) (hlocal : ∀ v ∈ new', q.isState v = false)
    (hdisjoint : ∀ v ∈ new', v ∉ new) (hfresh : ∀ v ∈ new', ¬ Lists b v)
    (habsent : ∀ v ∈ new', σ.get v = none) : ∀ v ∈ new', ¬ Lists a v := by
  intro v hv hlists
  rcases h.lists v (hlocal v hv) hlists with hb | hv' | hσ
  · exact hfresh v hv hb
  · exact hdisjoint v hv hv'
  · exact hσ (habsent v hv)

theorem Done.trans (h : Done m new b c σ ρ) (h' : Done m new' c a ρ τ)
    (habsent : ∀ v, q.isState v = false → v ∉ new → σ.get v = none → ρ.get v = none) :
    Done m (new ++ new') b a σ τ where
  holds := h'.holds
  lists v hv hlists := by
    rw [List.mem_append]
    by_cases hnew : v ∈ new
    · exact .inr (.inl (.inl hnew))
    rcases h'.lists v hv hlists with hc | hnew' | hρ
    · exact (h.lists v hv hc).imp_right (.imp_left .inl)
    · exact .inr (.inl (.inr hnew'))
    · exact .inr (.inr fun hσ => hρ (habsent v hv hnew hσ))

theorem Done.mono {b' a' : Classes} (h : Done m new b a ρ τ)
    (ha : ∀ x y, a'.Related x y → a.Related x y) (hb : ∀ v, Lists b v → Lists b' v)
    (hnew : new ⊆ new') (habsent : ∀ v, q.isState v = false → σ.get v = none → ρ.get v = none) :
    Done m new' b' a' σ τ where
  holds := h.holds.mono ha
  lists v hv hlists := by
    rcases h.lists v hv (ha _ _ hlists) with hb' | hv' | hρ
    · exact .inl (hb v hb')
    · exact .inr (.inl (hnew hv'))
    · exact .inr (.inr fun hσ => hρ (habsent v hv hσ))

/-- After some statements, later ones are ready. -/
theorem Done.ready (h : Done m new b a σ τ) (hb : Ready m new' [] b σ) (ha : AllApart a)
    (hdisjoint : ∀ v ∈ new', v ∉ new)
    (habsent : ∀ v ∈ new', σ.get v = none → τ.get v = none) : Ready m new' [] a τ where
  apart := ha
  holds := h.holds
  isLocal := hb.isLocal
  fresh := h.fresh hb.isLocal hdisjoint hb.fresh fun v hv => hb.absent v hv nofun
  absent v hv hv' := habsent v hv (hb.absent v hv hv')

theorem Ready.drops (h : Ready m new kept b σ) (hd : Drops q P b c) : Ready m new kept c σ where
  apart := hd.keeps (allApart_invariant q) h.apart
  holds := h.holds.mono fun _ _ => hd.related
  isLocal := h.isLocal
  fresh v hv hlists := h.fresh v hv (hd.related hlists)
  absent := h.absent

/-- Changes that spare what is known, and give no values to variables that are declared later. -/
structure Spares (c : Classes) (declared opens : List VarId) (σ τ : Store q) : Prop where
  same : ∀ v y, c.Related (.var v) y → y ≠ .var v → (q.var v).type.type.isPrimitive = true →
    Machine.SameAt v σ τ
  absent : ∀ v ∈ declared, v ∉ opens → Machine.StaysAbsent v σ τ

theorem spares_keeping (c : Classes) (new kept : List VarId) :
    Keeping (Spares (q := q) c new kept) where
  refl σ := ⟨fun v _ _ _ _ => (Machine.sameAt_keeping v).refl σ,
    fun v _ _ => (Machine.staysAbsent_keeping v).refl σ⟩
  trans h h' := ⟨fun v y hvy hne hp =>
      (Machine.sameAt_keeping v).trans (h.same v y hvy hne hp) (h'.same v y hvy hne hp),
    fun v hv hv' => (Machine.staysAbsent_keeping v).trans (h.absent v hv hv') (h'.absent v hv hv')⟩
  restore vs h := ⟨fun v y hvy hne hp =>
      (Machine.sameAt_keeping v).restore vs (h.same v y hvy hne hp),
    fun v hv hv' => (Machine.staysAbsent_keeping v).restore vs (h.absent v hv hv')⟩

theorem Ready.spared (h : Ready m new kept c σ) (hs : Spares c new kept σ τ) :
    Ready m new kept c τ where
  apart := h.apart
  holds := h.holds.congr hs.same
  isLocal := h.isLocal
  fresh := h.fresh
  absent v hv hv' := hs.absent v hv hv' (h.absent v hv hv')

/-- After changes that spare it, what is known before a loop is still known, and more than that is
not known after it. -/
theorem Ready.done_join (h : Ready m new kept c σ) (hd : Drops q P b c) (hs : Spares c new kept σ τ) :
    Done m new' b (c.join a) σ τ where
  holds := (h.spared hs).holds.mono fun _ _ hxy => hxy.of_join.1
  lists _ _ hlists := .inl (hd.related hlists.of_join.1)

/-- What is left of what is known holds after changes that spare it. -/
theorem Drops.holds (hd : Drops q P b c) (hb : m.Holds b σ) (hsame : P → ∀ v, τ.get v = σ.get v)
    (hfixed : ∀ v, Lists b v →
      (q.var v).type.type.isPrimitive = true → (q.var v).isFixed = true → τ.get v = σ.get v) :
    m.Holds c τ := by
  cases hd with
  | all h => exact hb.congr fun v _ _ _ _ => hsame h v
  | fixed =>
    refine (hb.mono fun x y hxy => (Partition.related_separate_iff.1 hxy).1).congr fun v y hvy hne hprim => ?_
    obtain ⟨hb', heq | ⟨hv, -⟩⟩ := Partition.related_separate_iff.1 hvy
    · exact (hne heq.symm).elim
    · exact hfixed v hb'.left hprim hv

end

/-- If the statement ends normally, what is known after it is true. -/
def Sound (m : Machine q) (s : Stmt) : Prop := ∀ ⦃b a σ τ⦄, Flows q s b a →
  Ready m s.declared s.opens b σ → Runs (m.exec s) σ .normal τ → Done m s.declared b a σ τ

namespace Setting

variable {u : SourceUnit} {m : Machine q} {f : FunctionId} {t : Stmt} {b c a : Classes}
  {σ ρ τ : Store q} {v : VarId} {i : Stmt.Info} {e : Expr} {s : Stmt} {o : Outcome}
  (H : Setting u q m f)

include H

/-! ## Single statements -/

/-- A declaration adds its variable to the class of its value. -/
theorem decl_done {init : Option Expr} (ht : .decl i v init ∈ (q.function f).body.walk)
    (hd : Drops q (∀ e ∈ init, e.IsCalm q) b c) (hb : Ready m [v] [v] b σ)
    (h : Runs (m.exec (.decl i v init)) σ o τ) :
    Done m [v] b (introduce v (init.bind fun e => e.plain.label?) c) σ τ := by
  have hvalid : c.Valid := (hd.keeps (allApart_invariant q) hb.apart).valid
  obtain ⟨x, ρ, hx, -, rfl⟩ := Machine.runs_decl.1 h
  have hother : ∀ y, y ≠ .var v → m.denote (ρ.set v x) y = m.denote ρ y :=
    fun y hy => Machine.denote_set_of_ne hy
  have hnew : ¬ Lists c v := fun hv => hb.fresh v (List.mem_singleton_self v) (hd.related hv)
  refine ⟨?_, fun w _ hw => ?_⟩
  swap
  · rcases lists_of_introduce hvalid hw with hw | rfl
    · exact .inl (hd.related hw)
    · exact .inr (.inl (List.mem_singleton_self w))
  cases init with
  | none =>
    obtain ⟨rfl, rfl⟩ := Runs.pure_iff.1 hx
    have hc : m.Holds c ρ := hd.holds hb.holds (fun _ _ => rfl) fun _ _ _ _ => rfl
    exact hc.insert_new hother hnew
  | some e =>
    have hroot : (Use.value, e) ∈ (Stmt.decl i v (some e)).roots := List.mem_singleton_self _
    have hc : m.Holds c ρ := by
      refine hd.holds hb.holds (fun hcalm w => ?_) (fun w _ hprim hfixed => ?_)
      · exact Machine.eval_frame H.framed hx (H.quiet ht hroot (.inl (hcalm e rfl)))
      · exact Machine.eval_frame H.framed hx (H.quiet ht hroot (.inr ⟨hprim, hfixed⟩))
    show m.Holds (introduce v e.plain.label? c) _
    cases hl : e.plain.label? with
    | none => exact hc.insert_new hother hnew
    | some l =>
      obtain ⟨htyped, hstands⟩ := ((H.checked.types.function f H.mem).body _ ht).2 e rfl
      have hp := Typing.declares_of_scoped H.checked.names
      have htype := ((Typing.stands_iff (OwnedType.isDeclarable_iff.1 (hp.vars v))).1 hstands).1
      exact (hc.insert (.var v)).moveTo hother hvalid.insert
        (Machine.denote_set_label hp htyped htype hl hx)

/-- An assignment moves its target to the class of its value. -/
theorem assign_done {lhs rhs : Expr} (ht : .assign i lhs rhs ∈ (q.function f).body.walk)
    (hd : Drops q (lhs.IsCalm q ∧ rhs.IsCalm q) b c) (hb : Ready m [] [] b σ)
    (h : Runs (m.exec (.assign i lhs rhs)) σ o τ) :
    Done m [] b (assign lhs.plain (some rhs.plain) c) σ τ := by
  have hvalid : c.Valid := (hd.keeps (allApart_invariant q) hb.apart).valid
  have hp := Typing.declares_of_scoped H.checked.names
  obtain ⟨hlhs, htarget, hrhs, hstands, -⟩ := (H.checked.types.function f H.mem).body _ ht
  obtain ⟨x, ρ₁, k, ρ, hx, hk, hwrite, -⟩ := Machine.runs_assign.1 h
  have hsame : ∀ w, lhs.IsCalm q ∧ rhs.IsCalm q ∨
      (q.var w).type.type.isPrimitive = true ∧ (q.var w).isFixed = true → ρ.get w = σ.get w := by
    intro w hw
    have hquiet : lhs.Quiet q.modified w ∧ rhs.Quiet q.modified w :=
      ⟨H.quiet ht (r := (.target, lhs)) (.head _) (hw.imp_left And.left),
        H.quiet ht (r := (.value, rhs)) (.tail _ (.head _)) (hw.imp_left And.right)⟩
    exact (Machine.eval_frame H.framed hk hquiet.2).trans
      (Machine.locate_frame H.framed hx hquiet.1)
  have hc : m.Holds c ρ := hd.holds hb.holds (fun hcalm w => hsame w (.inl hcalm))
    fun w _ hprim hfixed => hsame w (.inr ⟨hprim, hfixed⟩)
  cases htarget with
  | @ident j v hconst =>
    obtain ⟨rfl, rfl⟩ := Machine.runs_locate_ident.1 hx
    obtain ⟨old, hold, rfl⟩ := Option.map_eq_some_iff.1 hwrite
    show Done m [] b (assignLabel v rhs.plain.label? c) _ (ρ.set v k)
    refine ⟨?_, fun w hw hlists => ?_⟩
    swap
    · rcases lists_of_assignLabel hvalid hlists with hlists | rfl
      · exact .inl (hd.related hlists)
      · have hkept := Machine.eval_frame H.framed hk fun g _ => H.not_modified hw g
        rw [hold] at hkept
        exact .inr (.inr (by simp [← hkept]))
    have hother : ∀ y, y ≠ .var v → m.denote (ρ.set v k) y = m.denote ρ y :=
      fun y hy => Machine.denote_set_of_ne hy
    cases hl : rhs.plain.label? with
    | none => exact hc.moveApart hother hvalid
    | some l =>
      have htype : rhs.type.type = (q.var v).type.type := by
        cases hlhs with
        | ident hvar =>
          rw [hvar.type_eq] at hstands
          exact ((Typing.stands_iff (OwnedType.isDeclarable_iff.1 (hp.vars v))).1 hstands).1
      have hvalue := Machine.denote_set_label hp hrhs htype hl hk
      simp only [assignLabel]
      split
      · rename_i heq
        subst heq
        refine hc.of_denote fun y n hn => ?_
        by_cases hy : y = .var v
        · subst hy
          exact hvalue n hn
        · rwa [hother y hy] at hn
      · exact hc.moveTo hother hvalid hvalue
  | @index j base idx hbase =>
    refine ⟨hc.congr fun w _ _ _ hprim => ?_, fun w _ hw => .inl (hd.related hw)⟩
    refine Machine.write_frame hwrite fun hw => ?_
    obtain ⟨_, heq, -⟩ := (Typing.IsTarget.index hbase).eq_ident hlhs (Machine.vars_locate hx hw)
      hprim (by simp)
    cases heq
  | tuple _ => exact (H.assignsSingly f H.mem i _ _ rhs ht).elim

/-! ## Conditions and loops -/

/-- Expressions change no local variables. -/
theorem eval_local (hv : q.isState v = false) {x : Value} (h : Runs (m.eval e) σ x τ) :
    τ.get v = σ.get v :=
  Machine.eval_frame H.framed h fun g _ => H.not_modified hv g

section Conditions

variable {new kept : List VarId} (ht : t ∈ (q.function f).body.walk)

include ht

/-- Once a condition has a value, what it says is known. -/
theorem guard_ready {x : Bool} (he : (x, e) ∈ t.tests) (hleaves : e.Leaves q q.modified b)
    (h : Runs (m.eval e) σ (.bool x) τ) (hb : Ready m new kept b σ) :
    Ready m new kept (guard x e.plain b) τ where
  apart := (allApart_invariant q).guard x _ hb.apart
  holds := H.guard_holds ht he h hb.holds hleaves
  isLocal := hb.isLocal
  fresh v hv hlists := hb.fresh v hv (lists_of_guard hlists)
  absent v hv hv' := (H.eval_local (hb.isLocal v hv) h).trans (hb.absent v hv hv')

/-- A test that drops what its effects may change. -/
theorem test_ready {x : Bool} (he : (x, e) ∈ t.tests) (hd : Drops q (e.IsCalm q) b c)
    (h : Runs (m.eval e) σ (.bool x) τ) (hb : Ready m new kept b σ) :
    Ready m new kept (guard x e.plain c) τ := by
  refine H.guard_ready ht he ?_ h (hb.drops hd)
  exact H.condition_leaves ht (Stmt.mem_conditions_of_mem_tests he) hd fun hcalm v g hg => by
    simp [hcalm g hg]

/-- The condition of a loop leaves alone what is known before all rounds. -/
theorem head_leaves (he : e ∈ t.conditions) (hd : Drops q (t.info.modified = []) b c) :
    e.Leaves q q.modified c := by
  refine H.condition_leaves ht he hd fun hnone v => ?_
  have hnot : ¬ t.Changes q.modified v := fun h => by
    simpa [hnone] using H.checked.recorded.stmts f H.mem t ht v h
  exact ((Stmt.not_changes_iff.1 hnot).2 t t.mem_walk_self).2 _ (Stmt.value_mem_roots he)

theorem guardOption_ready {e : Option Expr} (he : ∀ x ∈ e, (true, x) ∈ t.tests)
    (hd : Drops q (t.info.modified = []) b c) (h : Runs (m.testOption e) σ true τ)
    (hb : Ready m new kept c σ) : Ready m new kept (guardOption (e.map Expr.plain) c) τ := by
  cases e with
  | none =>
    obtain ⟨-, rfl⟩ := Runs.pure_iff.1 h
    exact hb
  | some e =>
    have hleaves := H.head_leaves ht (Stmt.mem_conditions_of_mem_tests (he e rfl)) hd
    exact H.guard_ready ht (he e rfl) hleaves (Machine.runs_test.1 h) hb

theorem head_spares (he : e ∈ t.conditions) (hd : Drops q (t.info.modified = []) b c)
    (hlocal : ∀ v ∈ new, q.isState v = false) : Machine.Keeps (Spares c new kept) (m.eval e) := by
  intro σ a τ h
  refine ⟨fun v y hvy hne hprim => ?_, fun v hv _ hσ => (H.eval_local (hlocal v hv) h).trans hσ⟩
  exact Machine.eval_frame H.framed h (H.head_leaves ht he hd v y hvy hne hprim)

/-- A loop does not change what is known about before it: either it changes nothing, or only
equalities of fixed variables are left. -/
theorem not_changes_repeated (hd : Drops q (t.info.modified = []) b c) (hs : s ∈ t.repeated)
    (hfresh : ∀ v ∈ s.declared, ¬ Lists b v) {y : Label} (hvy : c.Related (.var v) y)
    (hne : y ≠ .var v) (hprim : (q.var v).type.type.isPrimitive = true) :
    ¬ s.Changes q.modified v := by
  have hchild : s ∈ t.walk :=
    Stmt.mem_walk_of_mem_children (t.mem_children_of_mem_repeated hs)
  cases hd with
  | all hnone =>
    have hnot : ¬ t.Changes q.modified v := fun h => by
      simpa [hnone] using H.checked.recorded.stmts f H.mem t ht v h
    obtain ⟨hdecl, hwalk⟩ := Stmt.not_changes_iff.1 hnot
    exact Stmt.not_changes_iff.2 ⟨fun hv => hdecl (Stmt.declared_subset_of_mem_walk hchild hv),
      fun x hx => hwalk x (Stmt.mem_walk_trans hx hchild)⟩
  | fixed =>
    obtain ⟨hb, heq | ⟨hfixed, -⟩⟩ := Partition.related_separate_iff.1 hvy
    · exact (hne heq.symm).elim
    refine Stmt.not_changes_iff.2 ⟨fun hv => hfresh v hv hb.left, fun x hx => ⟨?_, ?_⟩⟩
    · exact H.checked.not_targets_repeated (SourceUnit.check_keepsFinals H.passes) H.assignsSingly
        H.mem ht hs hprim hfixed x hx
    · intro r hr
      exact H.quiet (Stmt.mem_walk_trans (Stmt.mem_walk_trans hx hchild) ht) hr
        (.inr ⟨hprim, hfixed⟩)

/-- What a loop runs again spares what is known before it. -/
theorem repeated_spares (hd : Drops q (t.info.modified = []) b c) (hfresh : ∀ v ∈ new, ¬ Lists b v)
    (hlocal : ∀ v ∈ new, q.isState v = false) (hs : s ∈ t.repeated) (hnew : s.declared ⊆ new)
    (hkept : s.opens ⊆ kept) : Machine.Keeps (Spares c new kept) (m.exec s) := by
  intro σ o τ h
  refine ⟨fun v y hvy hne hprim => ?_, fun v hv hv' => ?_⟩
  · exact Machine.exec_frame H.framed h
      (H.not_changes_repeated ht hd hs (fun w hw => hfresh w (hnew hw)) hvy hne hprim)
  · exact Machine.exec_absent H.framed (H.not_modified (hlocal v hv)) (fun ho => hv' (hkept ho)) h

end Conditions

/-! ## Compound statements -/

theorem stays_absent (hv : q.isState v = false) (hs : v ∉ s.declared) :
    Machine.Keeps (Machine.StaysAbsent v) (m.exec s) :=
  Machine.exec_absent_of_not_mem H.framed (H.not_modified hv) hs

theorem list_done {ss : List Stmt} (hs : ∀ s ∈ ss, s ∈ (q.function f).body.walk ∧ Sound m s)
    (hnodup : (ss.flatMap Stmt.declared).Nodup) (hflows : FlowsList q ss b a)
    (hb : Ready m (ss.flatMap Stmt.declared) [] b σ) (h : Runs (m.execList ss) σ .normal τ) :
    Done m (ss.flatMap Stmt.declared) b a σ τ ∧
      ∀ v, q.isState v = false → v ∉ ss.flatMap Stmt.declared → Machine.StaysAbsent v σ τ := by
  induction ss generalizing b σ with
  | nil =>
    cases hflows
    obtain ⟨-, rfl⟩ := Machine.runs_execList_nil.1 h
    exact ⟨⟨hb.holds, fun v _ hv => .inl hv⟩, fun v _ _ => id⟩
  | cons s ss ih =>
    rw [List.forall_mem_cons] at hs
    rw [List.flatMap_cons] at hnodup hb ⊢
    obtain ⟨-, hnodup, hdisjoint⟩ := List.nodup_append'.1 hnodup
    cases hflows with
    | @cons _ _ _ c _ hflow hflows =>
    obtain ⟨ρ, hrun, h⟩ := Machine.runs_cons_normal h
    have hfirst : Done m s.declared b c σ ρ :=
      hs.1.2 hflow (hb.mono (List.subset_append_left _ _) fun v _ _ => nofun) hrun
    have habsent : ∀ v, q.isState v = false → v ∉ s.declared → Machine.StaysAbsent v σ ρ :=
      fun v hv hv' => H.stays_absent hv hv' hrun
    have hrest : Ready m (ss.flatMap Stmt.declared) [] c ρ :=
      hfirst.ready (hb.mono (List.subset_append_right _ _) fun v _ _ => nofun)
        (hflow.keeps (allApart_invariant q) hb.apart) (fun v hv hv' => hdisjoint hv' hv)
        fun v hv => habsent v (hb.isLocal v (List.mem_append_right _ hv)) fun hv' => hdisjoint hv' hv
    obtain ⟨hdone, habsent'⟩ := ih hs.2 hnodup hflows hrest h
    refine ⟨hfirst.trans hdone fun v hv hv' => habsent v hv hv', fun v hv hv' => ?_⟩
    rw [List.mem_append, not_or] at hv'
    exact (Machine.staysAbsent_keeping v).trans (habsent v hv hv'.1) (habsent' v hv hv'.2)

theorem block_done {body : List Stmt} (ht : .block i body ∈ (q.function f).body.walk)
    (hs : ∀ s ∈ body, Sound m s) : Sound m (.block i body) := by
  intro b a σ τ hflows hb h
  cases hflows with
  | @block _ _ _ c _ hflows ha _ =>
  subst ha
  obtain ⟨ρ, hrun, rfl⟩ := Machine.runs_block.1 h
  have hnodup := H.nodup ht
  rw [Stmt.declared_block] at hb hnodup ⊢
  have hmem : ∀ s ∈ body, s ∈ (q.function f).body.walk := fun s hs =>
    Stmt.mem_walk_trans (Stmt.mem_walk_of_mem_children (s := .block i body) hs) ht
  obtain ⟨hdone, -⟩ := H.list_done (fun s hs' => ⟨hmem s hs', hs s hs'⟩) hnodup hflows hb hrun
  have hvalid := (hflows.keeps (allApart_invariant q) hb.apart).valid
  refine ⟨?_, fun v hv hlists => hdone.lists v hv (related_of_dropScope hvalid hlists)⟩
  refine (hdone.holds.mono fun x y => related_of_dropScope hvalid).restore fun v hv => ?_
  exact hb.absent v hv nofun

omit H in
theorem option_done {o : Option Stmt} (hs : ∀ s ∈ o, Sound m s) (hflows : FlowsOption q o b a)
    (hb : Ready m (Stmt.declaredOption o) (Stmt.opensOption o) b σ)
    (h : Runs (m.execOption o) σ .normal τ) : Done m (Stmt.declaredOption o) b a σ τ := by
  cases hflows with
  | none =>
    obtain ⟨-, rfl⟩ := Machine.runs_execOption_none.1 h
    exact ⟨hb.holds, fun v _ hv => .inl hv⟩
  | @some s _ _ hflow =>
    rw [Stmt.declaredOption_some] at hb ⊢
    exact hs s rfl hflow hb (Machine.runs_execOption_some.1 h)

section Cond

variable {i : Stmt.Info} {e : Expr} {yes : Stmt} {no : Option Stmt}
  (ht : .cond i e yes no ∈ (q.function f).body.walk)

include ht

/-- A branch is ready if the condition is. -/
theorem yes_ready (hb : Ready m (Stmt.cond i e yes no).declared (Stmt.cond i e yes no).opens b σ) :
    Ready m yes.declared yes.opens b σ := by
  have hnodup := H.nodup ht
  rw [Stmt.declared_cond] at hb hnodup
  refine hb.mono (List.subset_append_left _ _) fun v hv hv' ho => ?_
  rcases List.mem_append.1 ho with ho | ho
  · exact (List.nodup_append'.1 hnodup).2.2 hv (Stmt.opensOption_subset no ho)
  · exact hv' ho

theorem no_ready (hb : Ready m (Stmt.cond i e yes no).declared (Stmt.cond i e yes no).opens b σ) :
    Ready m (Stmt.declaredOption no) (Stmt.opensOption no) b σ := by
  have hnodup := H.nodup ht
  rw [Stmt.declared_cond] at hb hnodup
  refine hb.mono (List.subset_append_right _ _) fun v hv hv' ho => ?_
  rcases List.mem_append.1 ho with ho | ho
  · exact hv' ho
  · exact (List.nodup_append'.1 hnodup).2.2 (Stmt.opens_subset yes ho) hv

theorem cond_done (hyes : Sound m yes) (hno : ∀ s ∈ no, Sound m s) :
    Sound m (.cond i e yes no) := by
  intro b a σ τ hflows hb h
  cases hflows with
  | @cond _ _ _ _ _ c y n hd hy hn _ =>
  obtain ⟨x, ρ, hx, h⟩ := Machine.runs_cond.1 h
  have he : (x, e) ∈ (Stmt.cond i e yes no).tests := by cases x <;> simp [Stmt.tests]
  have habsent : ∀ v, q.isState v = false → σ.get v = none → ρ.get v = none :=
    fun v hv hσ => (H.eval_local hv hx).trans hσ
  have hready := H.test_ready ht he hd hx hb
  have hlists : ∀ x v, Lists (guard x e.plain c) v → Lists b v :=
    fun _ _ hv => hd.related (lists_of_guard hv)
  rw [Stmt.declared_cond]
  cases x with
  | true =>
    exact (hyes hy (H.yes_ready ht hready) h).mono (fun x y hxy => hxy.of_join.1) (hlists true)
      (List.subset_append_left _ _) habsent
  | false =>
    exact (option_done hno hn (H.no_ready ht hready) h).mono (fun x y hxy => hxy.of_join.2)
      (hlists false) (List.subset_append_right _ _) habsent

end Cond

section Loop

variable {i : Stmt.Info} {e : Expr} {body : Stmt}

/-- The rounds of a loop spare what is known before them. -/
theorem loop_spares (ht : t ∈ (q.function f).body.walk) (he : e ∈ t.conditions)
    (hbody : body ∈ t.repeated) (hd : Drops q (t.info.modified = []) b c)
    (hb : Ready m body.declared body.opens b σ) :
    Machine.Keeps (Spares c body.declared body.opens) (m.test e) ∧
      Machine.Keeps (Spares c body.declared body.opens) (m.exec body) := by
  refine ⟨Machine.test_keeps (H.head_spares ht he hd hb.isLocal), ?_⟩
  exact H.repeated_spares ht hd hb.fresh hb.isLocal hbody (List.Subset.refl _) (List.Subset.refl _)

/-- A loop leaves behind no more than what is known before all its rounds. -/
theorem loop_done (ht : .loop i e body ∈ (q.function f).body.walk) : Sound m (.loop i e body) := by
  intro b a σ τ hflows hb h
  cases hflows with
  | loop hd _ _ =>
  obtain ⟨htest, hround⟩ := H.loop_spares ht (List.mem_singleton_self e)
    (List.mem_singleton_self body) hd hb
  exact (hb.drops hd).done_join hd
    (Machine.iterate_keeps (spares_keeping _ _ _) htest hround _ (Machine.runs_loop.1 h))

theorem doLoop_done (ht : .doLoop i body e ∈ (q.function f).body.walk) :
    Sound m (.doLoop i body e) := by
  intro b a σ τ hflows hb h
  cases hflows with
  | @doLoop _ _ _ _ c last hd _ _ =>
  obtain ⟨htest, hround⟩ := H.loop_spares ht (List.mem_singleton_self e)
    (List.mem_singleton_self body) hd hb
  have hK := spares_keeping (q := q) c body.declared body.opens
  refine (hb.drops hd).done_join hd ?_
  obtain ⟨o, ρ, hrun, h⟩ := Machine.runs_doLoop.1 h
  split at h
  · exact hK.trans (hround hrun) (Machine.iterate_keeps hK htest hround _ h)
  · obtain ⟨-, rfl⟩ := h
    exact hround hrun

end Loop

section For

variable {i : Stmt.Info} {init : Option Stmt} {e : Option Expr} {update : Option Stmt} {body : Stmt}
  (ht : .forLoop i init e update body ∈ (q.function f).body.walk)

include ht

/-- After its first statement, the rest of a `for` is ready. -/
theorem init_done (hinit : ∀ s ∈ init, Sound m s) (hflows : FlowsOption q init b a)
    (hb : Ready m (Stmt.forLoop i init e update body).declared [] b σ)
    (h : Runs (m.execOption init) σ .normal τ) : Done m (Stmt.declaredOption init) b a σ τ ∧
      Ready m (body.declared ++ Stmt.declaredOption update) [] a τ := by
  have hnodup := H.nodup ht
  rw [Stmt.declared_forLoop] at hnodup hb
  have hdisjoint := (List.nodup_append'.1 hnodup).2.2
  have hdone := option_done hinit hflows
    (hb.mono (List.subset_append_left _ _) fun v _ _ => nofun) h
  refine ⟨hdone, hdone.ready (hb.mono (List.subset_append_right _ _) fun v _ _ => nofun) ?_
    (fun v hv hv' => hdisjoint hv' hv) fun v hv hσ => ?_⟩
  · exact hflows.keeps (allApart_invariant q) hb.apart
  · refine Machine.execOption_keeps (Machine.staysAbsent_keeping v) (fun s hs => ?_) h hσ
    obtain rfl := hs
    exact H.stays_absent (hb.isLocal v (List.mem_append_right _ hv)) fun hv' =>
      hdisjoint (by rwa [Stmt.declaredOption_some]) hv

theorem for_spares (hd : Drops q (i.modified = []) b c)
    (hb : Ready m (body.declared ++ Stmt.declaredOption update) kept b σ) :
    Machine.Keeps (Spares c (body.declared ++ Stmt.declaredOption update)
        (body.opens ++ Stmt.opensOption update)) (m.testOption e) ∧
      Machine.Keeps (Spares c (body.declared ++ Stmt.declaredOption update)
        (body.opens ++ Stmt.opensOption update)) (m.exec body) ∧
      Machine.Keeps (Spares c (body.declared ++ Stmt.declaredOption update)
        (body.opens ++ Stmt.opensOption update)) (m.round update body) := by
  have hbody := H.repeated_spares ht hd hb.fresh hb.isLocal
    List.mem_cons_self (List.subset_append_left _ _)
    (List.subset_append_left body.opens (Stmt.opensOption update))
  have hK := spares_keeping (q := q) c (body.declared ++ Stmt.declaredOption update)
    (body.opens ++ Stmt.opensOption update)
  refine ⟨Machine.testOption_keeps hK fun x hx => ?_, hbody,
    Machine.round_keeps hK hbody fun s hs => ?_⟩
  · exact H.head_spares ht (Option.mem_toList.2 hx) hd hb.isLocal
  · obtain rfl := hs
    refine H.repeated_spares ht hd hb.fresh hb.isLocal (by simp [Stmt.repeated]) ?_ ?_
    · rw [Stmt.declaredOption_some]
      exact List.subset_append_right _ _
    · exact List.subset_append_right _ _

theorem for_done (hinit : ∀ s ∈ init, Sound m s) : Sound m (.forLoop i init e update body) := by
  intro b a σ τ hflows hb h
  cases hflows with
  | @forLoop _ _ _ _ _ _ start c mid last _ hstart hd hbody hupdate ha _ =>
  subst ha
  obtain ⟨o, ρ, ρ', hrun, h, rfl⟩ := Machine.runs_forLoop.1 h
  cases o with
  | leave | next | ret x => cases h.1
  | normal =>
  obtain ⟨hdone, hready⟩ := H.init_done ht hinit hstart hb hrun
  obtain ⟨htest, -, hround⟩ := H.for_spares ht hd hready
  have hspared := Machine.iterate_keeps (spares_keeping _ _ _) htest hround _ h
  have hbase := ((hready.mono (List.Subset.refl _) fun v _ _ => nofun).drops hd).spared hspared
  have hvalid : (c.join last).Valid := by
    have hI := allApart_invariant q
    have hc := hbase.apart
    exact (hI.join hc (hupdate.keeps hI (hbody.keeps hI (hI.guardOption _ hc)))).valid
  have hrelated : ∀ x y, (dropScope (Stmt.forLoop i init e update body).scope (c.join last)).Related
      x y → c.Related x y := fun x y hxy => (related_of_dropScope hvalid hxy).of_join.1
  refine ⟨(hbase.holds.mono hrelated).restore fun v hv => hb.absent v hv nofun, ?_⟩
  intro v hv hlists
  rcases hdone.lists v hv (hd.related (hrelated _ _ hlists)) with hv' | hv' | hσ
  · exact .inl hv'
  · rw [Stmt.declared_forLoop]
    exact .inr (.inl (List.mem_append_left _ hv'))
  · exact .inr (.inr hσ)

end For

/-! ## Runs -/

/-- What is known after a statement is true once it has ended normally. -/
theorem sound (ht : t ∈ (q.function f).body.walk) : Sound m t := by
  induction t using Stmt.induct_children with
  | h t ih =>
    have hchild : ∀ c ∈ t.children, Sound m c := fun c hc =>
      ih c hc (Stmt.mem_walk_trans (Stmt.mem_walk_of_mem_children hc) ht)
    cases t with
    | block i body => exact H.block_done ht hchild
    | cond i e yes no =>
      refine H.cond_done ht (hchild yes (.head _)) fun s hs => ?_
      obtain rfl := hs
      exact hchild s (.tail _ (.head _))
    | loop i e body => exact H.loop_done ht
    | doLoop i body e => exact H.doLoop_done ht
    | forLoop i init e update body =>
      refine H.for_done ht fun s hs => ?_
      obtain rfl := hs
      exact hchild s (.head _)
    | decl i v init =>
      intro b a σ τ hflows hb h
      cases hflows with
      | decl hd _ => exact H.decl_done ht hd hb h
    | assign i lhs rhs =>
      intro b a σ τ hflows hb h
      cases hflows with
      | assign hd _ => exact H.assign_done ht hd hb h
    | expr i e =>
      intro b a σ τ hflows hb h
      cases hflows with
      | expr hd _ =>
      obtain ⟨x, hx, -⟩ := Machine.runs_expr.1 h
      have hquiet := fun v => H.quiet (v := v) ht (List.mem_singleton_self (Use.value, e))
      refine ⟨hd.holds hb.holds (fun hcalm v => ?_) fun v _ hprim hfixed => ?_,
        fun v _ hlists => .inl (hd.related hlists)⟩
      · exact Machine.eval_frame H.framed hx (hquiet v (.inl hcalm))
      · exact Machine.eval_frame H.framed hx (hquiet v (.inr ⟨hprim, hfixed⟩))
    | require i e =>
      intro b a σ τ hflows hb h
      cases hflows with
      | require hd _ =>
      have hready := H.test_ready ht (List.mem_singleton_self _) hd (Machine.runs_require.1 h).1 hb
      exact ⟨hready.holds, fun v _ hlists => .inl (hd.related (lists_of_guard hlists))⟩
    | ret i e =>
      intro b a σ τ hflows hb h
      cases e with
      | none => cases (Machine.runs_ret_none.1 h).1
      | some e =>
        obtain ⟨_, -, ho⟩ := Machine.runs_ret_some.1 h
        cases ho
    | leave i =>
      intro b a σ τ hflows hb h
      cases (Machine.runs_leave.1 h).1
    | next i =>
      intro b a σ τ hflows hb h
      cases (Machine.runs_next.1 h).1

/-- A body after which a `for` with an update goes on has ended normally. -/
theorem eq_normal {init : Option Stmt} {e : Option Expr} {update body : Stmt}
    (ht : .forLoop i init e (some update) body ∈ (q.function f).body.walk)
    (h : Runs (m.exec body) σ o τ) (ho : o.goesOn = true) : o = .normal := by
  cases o with
  | normal => rfl
  | leave | ret a => cases ho
  | next =>
    obtain ⟨j, hj⟩ := Machine.exists_next h
    have htracked := H.tracked f H.mem _ ht
    simp only [isTracked, Bool.and_eq_true, Bool.not_eq_true', List.any_eq_false] at htracked
    exact (htracked.2 _ hj rfl).elim

section For

variable {i : Stmt.Info} {init : Option Stmt} {e : Option Expr} {update : Option Stmt} {body : Stmt}
  {start : Classes} {ρ' : Store q}

omit H in
theorem mem_tests_of_mem {x : Expr} (hx : x ∈ e) :
    (true, x) ∈ (Stmt.forLoop i init e update body).tests :=
  List.mem_map_of_mem (Option.mem_toList.2 hx)

variable (ht : .forLoop i init e update body ∈ (q.function f).body.walk)

include ht

theorem sound_init : ∀ s ∈ init, Sound m s := by
  intro s hs
  obtain rfl := hs
  have hchild : s ∈ (Stmt.forLoop i (some s) e update body).children := by simp [Stmt.children]
  exact H.sound (Stmt.mem_walk_trans (Stmt.mem_walk_of_mem_children hchild) ht)

/-- What is known before all rounds of a `for` is true before each. -/
theorem rounds_ready (hstart : FlowsOption q init b start) (hd : Drops q (i.modified = []) start c)
    (hb : Ready m (Stmt.forLoop i init e update body).declared [] b σ)
    (hi : Runs (m.execOption init) σ .normal ρ)
    (hr : Machine.Rounds (m.testOption e) (m.round update body) ρ τ) :
    Ready m (body.declared ++ Stmt.declaredOption update)
      (body.opens ++ Stmt.opensOption update) c τ := by
  obtain ⟨-, hready⟩ := H.init_done ht (H.sound_init ht) hstart hb hi
  obtain ⟨htest, -, hround⟩ := H.for_spares ht hd hready
  exact ((hready.mono (List.Subset.refl _) fun v _ _ => nofun).drops hd).spared
    (hr.keeps (spares_keeping _ _ _) htest hround)

theorem disjoint_update : List.Disjoint body.declared (Stmt.declaredOption update) := by
  have hnodup := H.nodup ht
  rw [Stmt.declared_forLoop] at hnodup
  exact (List.nodup_append'.1 (List.nodup_append'.1 hnodup).2.1).2.2

theorem body_ready (hd : Drops q (i.modified = []) b c)
    (hb : Ready m (body.declared ++ Stmt.declaredOption update)
      (body.opens ++ Stmt.opensOption update) c σ) (h : Runs (m.testOption e) σ true τ) :
    Ready m body.declared body.opens (guardOption (e.map Expr.plain) c) τ := by
  have hready := H.guardOption_ready ht (fun x hx => mem_tests_of_mem hx) hd h hb
  refine hready.mono (List.subset_append_left _ _) fun v hv hv' ho => ?_
  rcases List.mem_append.1 ho with ho | ho
  · exact hv' ho
  · exact H.disjoint_update ht hv (Stmt.opensOption_subset update ho)

omit ht in
/-- The update of a `for` is ready after every round. Its variables may occur in the body, but the
body has not listed them, since they had no values when it ended for the first time. -/
theorem update_ready (ht : .forLoop i init e (some s) body ∈ (q.function f).body.walk)
    (hstart : FlowsOption q init b start) (hd : Drops q (i.modified = []) start c)
    (hbody : Flows q body (guardOption (e.map Expr.plain) c) a)
    (hb : Ready m (Stmt.forLoop i init e (some s) body).declared [] b σ) {ρ₁ ρ₂ : Store q}
    (hi : Runs (m.execOption init) σ .normal ρ)
    (hr : Machine.Rounds (m.testOption e) (m.round (some s) body) ρ ρ₁)
    (h : Runs (m.testOption e) ρ₁ true ρ₂) (hrun : Runs (m.exec body) ρ₂ o τ) (ho : o.goesOn = true) :
    Ready m s.declared s.opens a τ := by
  have hchild : body ∈ (Stmt.forLoop i init e (some s) body).children := by simp [Stmt.children]
  have hsound := H.sound (Stmt.mem_walk_trans (Stmt.mem_walk_of_mem_children hchild) ht)
  have hdisjoint : ∀ v ∈ s.declared, v ∉ body.declared := fun v hv hv' =>
    H.disjoint_update ht hv' (by rwa [Stmt.declaredOption_some])
  have hround := H.rounds_ready ht hstart hd hb hi hr
  obtain ⟨-, hinit⟩ := H.init_done ht (H.sound_init ht) hstart hb hi
  have hmem : ∀ v ∈ s.declared, v ∈ body.declared ++ Stmt.declaredOption (some s) := fun v hv =>
    List.mem_append_right _ (by rwa [Stmt.declaredOption_some])
  have hfresh : ∀ v ∈ s.declared, ¬ Lists a v := by
    obtain ⟨ρ', o', τ', h', hrun', ho'⟩ := hr.exists_first h hrun ho
    obtain rfl := H.eq_normal ht hrun' ho'
    have hfirst := H.guardOption_ready ht (fun x hx => mem_tests_of_mem hx) hd h' (hinit.drops hd)
    have hdone := hsound hbody (hfirst.mono (List.subset_append_left _ _) fun v _ _ => nofun) hrun'
    exact hdone.fresh (fun v hv => hinit.isLocal v (hmem v hv)) hdisjoint (fun v hv => hfirst.fresh v (hmem v hv))
      fun v hv => hfirst.absent v (hmem v hv) nofun
  obtain ⟨htest, hkeeps, -⟩ := H.for_spares ht hd hinit
  have hspared := hround.spared ((spares_keeping _ _ _).trans (htest h) (hkeeps hrun))
  obtain rfl := H.eq_normal ht hrun ho
  have hdone := hsound hbody (H.body_ready ht hd hround h) hrun
  refine ⟨hbody.keeps (allApart_invariant q) ?_, hdone.holds,
    fun v hv => hinit.isLocal v (hmem v hv), hfresh, fun v hv hv' => ?_⟩
  · exact (allApart_invariant q).guardOption _ hspared.apart
  · refine hspared.absent v (hmem v hv) fun ho => ?_
    rcases List.mem_append.1 ho with ho | ho
    · exact hdisjoint v hv (Stmt.opens_subset body ho)
    · exact hv' ho

end For

/-- Where control enters a statement inside another one, what is known before it is true. -/
theorem enters_ready (ht : t ∈ (q.function f).body.walk) (hflows : Flows q t b a)
    (hb : Ready m t.declared t.opens b σ) (h : m.Enters t σ s ρ) :
    ∃ b a, Flows q s b a ∧ Ready m s.declared s.opens b ρ := by
  have hchild : ∀ c ∈ t.children, c ∈ (q.function f).body.walk := fun c hc =>
    Stmt.mem_walk_trans (Stmt.mem_walk_of_mem_children hc) ht
  have hI := allApart_invariant q
  cases h with
  | @block i done rest _ _ _ hrun =>
    cases hflows with
    | @block _ _ _ c _ hflows _ _ =>
    obtain ⟨d, hdone, hrest⟩ := hflows.append
    cases hrest with
    | @cons _ _ _ d' _ hs hrest =>
    have hnodup := H.nodup ht
    rw [Stmt.declared_block, List.flatMap_append, List.flatMap_cons] at hb hnodup
    obtain ⟨hnodup, -, hdisjoint⟩ := List.nodup_append'.1 hnodup
    have hdisjoint' : ∀ v ∈ s.declared, v ∉ done.flatMap Stmt.declared := fun v hv hv' =>
      hdisjoint hv' (List.mem_append_left _ hv)
    have hmem : ∀ c ∈ done, c ∈ (q.function f).body.walk := fun c hc =>
      hchild c (by simp [Stmt.children, hc])
    obtain ⟨hend, habsent⟩ := H.list_done (fun c hc => ⟨hmem c hc, H.sound (hmem c hc)⟩)
      hnodup hdone (hb.mono (List.subset_append_left _ _) fun v _ _ => nofun) hrun
    have hready : Ready m s.declared [] d ρ :=
      hend.ready (hb.mono (fun v hv => by simp [hv]) fun v _ _ => nofun)
        (hdone.keeps hI hb.apart) hdisjoint'
        fun v hv => habsent v (hb.isLocal v (by simp [hv])) (hdisjoint' v hv)
    exact ⟨d, d', hs, hready.mono (List.Subset.refl _) fun v _ _ => nofun⟩
  | @yes i e _ no _ _ hrun =>
    cases hflows with
    | cond hd hy hn _ =>
    have he : (true, e) ∈ (Stmt.cond i e s no).tests := by simp [Stmt.tests]
    exact ⟨_, _, hy, H.yes_ready ht (H.test_ready ht he hd (Machine.runs_test.1 hrun) hb)⟩
  | @no i e yes _ _ _ hrun =>
    cases hflows with
    | cond hd hy hn _ =>
    cases hn with
    | some hn =>
    refine ⟨_, _, hn, ?_⟩
    have he : (false, e) ∈ (Stmt.cond i e yes (some s)).tests := by simp [Stmt.tests]
    have hready := H.no_ready ht (H.test_ready ht he hd (Machine.runs_test.1 hrun) hb)
    rwa [Stmt.declaredOption_some] at hready
  | @loop i e _ _ _ _ hr hrun =>
    cases hflows with
    | loop hd hbody _ =>
    obtain ⟨htest, hround⟩ := H.loop_spares ht (List.mem_singleton_self e)
      (List.mem_singleton_self s) hd hb
    have hready := (hb.drops hd).spared (hr.keeps (spares_keeping _ _ _) htest hround)
    have hleaves := H.head_leaves ht (List.mem_singleton_self e) hd
    exact ⟨_, _, hbody,
      H.guard_ready ht (List.mem_singleton_self _) hleaves (Machine.runs_test.1 hrun) hready⟩
  | @first i e _ _ =>
    cases hflows with
    | doLoop hd hbody _ =>
    exact ⟨_, _, hbody, hb.drops hd⟩
  | @again i e _ _ _ _ _ _ hrun ho hr hrun' =>
    cases hflows with
    | @doLoop _ _ _ _ c _ hd hbody _ =>
    obtain ⟨htest, hround⟩ := H.loop_spares ht (List.mem_singleton_self e)
      (List.mem_singleton_self s) hd hb
    have hK := spares_keeping (q := q) c s.declared s.opens
    refine ⟨_, _, hbody, (hb.drops hd).spared ?_⟩
    exact hK.trans (hround hrun) (hK.trans (hr.keeps hK htest hround) (htest hrun'))
  | @init i _ e update body _ =>
    cases hflows with
    | forLoop hs _ _ _ _ _ =>
    cases hs with
    | some hs =>
    refine ⟨_, _, hs, hb.mono ?_ fun v _ _ => nofun⟩
    rw [Stmt.declared_forLoop, Stmt.declaredOption_some]
    exact List.subset_append_left _ _
  | @body i init e update _ _ _ _ _ hi hr hrun =>
    cases hflows with
    | forLoop hstart hd hbody _ _ _ =>
    exact ⟨_, _, hbody, H.body_ready ht hd (H.rounds_ready ht hstart hd hb hi hr) hrun⟩
  | @update i init e _ body _ ρ₀ _ _ _ o hi hr hrun hrun' ho =>
    cases hflows with
    | @forLoop _ _ _ _ _ _ start c mid _ _ hstart hd hbody hupdate _ _ =>
    cases hupdate with
    | some hupdate =>
    exact ⟨_, _, hupdate, H.update_ready ht hstart hd hbody hb hi hr hrun hrun' ho⟩

/-- Wherever control gets to, what is known there is true. -/
theorem reaches_ready (ht : t ∈ (q.function f).body.walk) (hflows : Flows q t b a)
    (hb : Ready m t.declared t.opens b σ) (h : m.Reaches t σ s ρ) :
    s ∈ (q.function f).body.walk ∧ ∃ b a, Flows q s b a ∧ Ready m s.declared s.opens b ρ := by
  induction h generalizing b a with
  | here => exact ⟨ht, b, a, hflows, hb⟩
  | inside henters _ ih =>
    obtain ⟨b', a', hflows', hb'⟩ := H.enters_ready ht hflows hb henters
    have hchild := Stmt.mem_walk_of_mem_children henters.mem_children
    exact ih (Stmt.mem_walk_trans hchild ht) hflows' hb'

/-- When a function starts, its body is ready. -/
theorem start_ready (σ : Store q) (args : List Value) :
    Ready m (q.function f).body.declared (q.function f).body.opens (initial q (q.function f))
      (σ.activate ((q.function f).params.zip args)) := by
  obtain ⟨fs, n, hs, -⟩ := H.checked.names.function f H.mem
  have hvisible : ∀ v ∈ (q.function f).body.declared,
      v ∉ (q.function f).params ++ (q.contract (q.function f).contract).stateVars := by
    intro v hv hmem
    have := hs.visible v hmem
    have := hs.body.bounds v hv
    omega
  refine ⟨initial_allApart q _, ?_, fun v => H.isState_of_declared, fun v hv hlists => ?_,
    fun v hv _ => ?_⟩
  · intro x y hxy k hk l hl
    obtain rfl := (related_initial hxy).1
    exact Option.some.inj (hk.symm.trans hl)
  · have hmem := (related_initial hlists).2
    simp only [List.mem_cons, reduceCtorEq, List.mem_map, Label.var.injEq, false_or] at hmem
    obtain ⟨w, hw, rfl⟩ := hmem
    exact hvisible w hv (List.mem_append.2 (List.mem_append.1 hw).symm)
  · simp only [Store.activate, H.isState_of_declared hv, Bool.false_eq_true, if_false,
      Option.map_eq_none_iff]
    refine List.lookup_eq_none_iff.2 fun x hx => ?_
    have hne : v ≠ x.1 := by
      rintro rfl
      exact hvisible _ hv (List.mem_append_left _ (List.of_mem_zip hx).1)
    simpa using hne

end Setting

end Alias

open Alias in
/-- Whenever an execution of a function gets to a statement, labels that are known to be equal
before the statement denote equal values, and so do labels that are known to be equal after it if
it ends normally. -/
theorem SourceUnit.labels_denote_equal {u : SourceUnit} {q : Program} (h : Passes u.check q)
    (hfollowed : ∀ g, g.index < q.functions.length → ∀ t ∈ (q.function g).body.walk,
      isFollowed q t = true) {m : Machine q} (hm : m.Framed q.modified) {f : FunctionId}
    (hf : f.index < q.functions.length) {σ ρ : Store q} {args : List Value} {t : Stmt}
    (ht : m.Reaches (q.function f).body (σ.activate ((q.function f).params.zip args)) t ρ) :
    ∃ flow, t.info.flow? = some flow ∧
      (∀ x y, flow.before.same x y = true →
        ∀ k ∈ m.denote ρ x, ∀ l ∈ m.denote ρ y, k = l) ∧
      ∀ τ, Runs (m.exec t) ρ .normal τ → ∀ x y, flow.after.same x y = true →
        ∀ k ∈ m.denote τ x, ∀ l ∈ m.denote τ y, k = l := by
  have H : Setting u q m f := ⟨h, hm, fun g hg t ht =>
    isTracked_of_isFollowed (check_effects h) (hfollowed g hg t ht), hf⟩
  obtain ⟨a, hflows⟩ := SourceUnit.check_flows h hf
  obtain ⟨hmem, b, a, hflows, hready⟩ :=
    H.reaches_ready (Stmt.mem_walk_self _) hflows (H.start_ready σ args) ht
  exact ⟨⟨b, a⟩, hflows.recorded, hready.holds.same, fun τ hrun =>
    (H.sound hmem hflows hready hrun).holds.same⟩

namespace SourceUnit

/-- Whether the statements of a checked unit are `ok`, and what is known and true about the sender 7 and
a variable where the second statement of a function is reached. -/
def outcome (u : SourceUnit) (ok : Program → Stmt → Bool) (f : FunctionId) (v : VarId)
    (start : (q : Program) → Store q) : Except Error (Bool × Option (Bool × List (Option Literal))) := do
  let q ← (u.check.run.run []).1
  let m := q.machine 7 true 1 1
  let reached := m.second? (q.function f).body (start q)
  return (decide (q.Has f) && q.functions.all fun f => f.body.walk.all (ok q),
    reached.bind fun r => r.1.info.flow?.map fun flow =>
      (flow.before.same .me (.var v), [m.denote r.2 .me, m.denote r.2 (.var v)]))

theorem of_outcome {u : SourceUnit} {ok : Program → Stmt → Bool} {f : FunctionId} {v : VarId}
    {start : (q : Program) → Store q} {fine same : Bool} {ks : List (Option Literal)}
    (h : u.outcome ok f v start = .ok (fine, some (same, ks))) : ∃ q t ρ flow, Passes u.check q ∧
      (fine = true → q.Has f ∧ ∀ g, q.Has g → ∀ t ∈ (q.function g).body.walk, ok q t = true) ∧
      (q.machine 7 true 1 1).Enters (q.function f).body (start q) t ρ ∧
      t.info.flow? = some flow ∧ flow.before.same .me (.var v) = same ∧
      [(q.machine 7 true 1 1).denote ρ .me, (q.machine 7 true 1 1).denote ρ (.var v)] = ks := by
  obtain ⟨q, hq, h⟩ := bind_eq_ok.1 h
  obtain ⟨hok, hreached⟩ := Prod.mk.inj (Except.ok.inj h)
  obtain ⟨⟨t, ρ⟩, ht, hflow⟩ := Option.bind_eq_some_iff.1 hreached
  obtain ⟨flow, hflow, heq⟩ := Option.map_eq_some_iff.1 hflow
  obtain ⟨hsame, hks⟩ := Prod.mk.inj heq
  refine ⟨q, t, ρ, flow, .of_run hq, ?_, Machine.enters_second ht, hflow, hsame, hks⟩
  rintro rfl
  rw [Bool.and_eq_true, decide_eq_true_iff, List.all_eq_true] at hok
  exact ⟨hok.1, fun g hg => List.all_eq_true.1 (hok.2 _ (Program.function_mem hg))⟩

/-- Two parties, data of each party, and data of the sender. -/
def parties : List Source.StateVar := [
  { name := "x", type := .mk .address .all }, { name := "y", type := .mk .address .all },
  { name := "m", type := .mk (.mapping .address (some "k") (.mk (.uint 8) (.name "k"))) .all },
  { name := "r", type := .mk (.uint 8) .me }]

/-- Data of a party that proves to be the sender becomes the sender's own. -/
def claimed : SourceUnit := .single "Claimed" parties [
  { name := "claim"
    params := [{ name := "a", type := .mk .address .all }]
    body := [
      .require {} (.builtin {} .eq ["a", .me {}]), .assign {} "r" none (.index {} "m" "a")] }]

/-- The store in which the party is the sender. -/
def claimant (q : Program) : Store q :=
  (Store.zeros q).activate ((q.function ⟨0⟩).params.zip [.number .address 7])

theorem outcome_claimed : claimed.outcome Alias.isFollowed ⟨0⟩ ⟨4⟩ claimant =
    .ok (true, some (true, [some (.number 7), some (.number 7)])) := by
  decide +kernel

/-- Data is claimed by the party that the sender is known to be. -/
theorem labels_denote_equal_claimed : ∃ q t ρ flow, Passes claimed.check q ∧
    (q.machine 7 true 1 1).Framed q.modified ∧
    (q.machine 7 true 1 1).Reaches (q.function ⟨0⟩).body (claimant q) t ρ ∧
    t.info.flow? = some flow ∧ flow.before.same .me (.var ⟨4⟩) = true ∧
    ∀ k ∈ (q.machine 7 true 1 1).denote ρ .me, ∀ l ∈ (q.machine 7 true 1 1).denote ρ (.var ⟨4⟩),
      k = l := by
  obtain ⟨q, t, ρ, flow, hq, hfollowed, henters, hflow, hsame, -⟩ := of_outcome outcome_claimed
  obtain ⟨hf, hfollowed⟩ := hfollowed rfl
  have hframed := Program.machine_framed (check_checked hq) 7 true 1 1
  have hreaches : (q.machine 7 true 1 1).Reaches (q.function ⟨0⟩).body (claimant q) t ρ :=
    .inside henters .here
  obtain ⟨flow', hflow', hbefore, -⟩ := labels_denote_equal hq hfollowed hframed hf hreaches
  obtain rfl := Option.some.inj (hflow.symm.trans hflow')
  exact ⟨q, t, ρ, flow, hq, hframed, hreaches, hflow, hsame, hbefore .me (.var ⟨4⟩) hsame⟩

end SourceUnit

end Shroud
