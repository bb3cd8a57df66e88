import Shroud.Proofs.CallGraph.Propagation
import Shroud.Proofs.Lowering.Guards

/-! # Inlining

A circuit holds the bodies of functions in the places of their calls. While a body is held, its
function is on the stack of the `State`, and what it binds is forgotten after the call. `Between` are
the states between the public statements of a function: nothing is bound in them, and no function is
held inside itself. Other errors are left out.
-/

namespace Shroud.Lowering

open Circuit (Term)

variable {unit : SourceUnit} {c : ContractEnv} {f : FunctionId} {place : Here} {s : Stmt} {σ : State}
  {base : Env} {D : Discipline} {depth : Nat}

/-- The environment of a place in the circuit of a function. -/
def siteEnv (c : ContractEnv) (f : FunctionId) (place : Here) : Env :=
  (Env.within c.program c.settings c.owners f).placed place c.program.functions.length

/-- Lowering a function comes to a state between the parts of a public statement, which stand at a
place: it has lowered some of them and kept the books. -/
inductive Between (c : ContractEnv) (f : FunctionId) : Here → Stmt → State → Prop
  | start : Between c f (.ofFunction c.program f) (c.program.function f).body (State.new c.settings)
  | enter {h s σ t} (hs : Between c f h s σ) (ht : t ∈ s.children) (hp : t.isPrivateIf = false) :
      Between c f (h.inStmt t) t σ
  | part {h s σ t isLast out τ} (hs : Between c f h s σ) (ht : t ∈ s.children)
      (hx : Yields (lower (siteEnv c f h) isLast t) σ out τ) : Between c f h s τ
  | value {h s σ r e τ} (hs : Between c f h s σ) (hr : r ∈ s.roots)
      (hx : Yields (publicExpr (siteEnv c f h) r.2) σ e τ) : Between c f h s τ
  | test {h i e yes no σ w τ} (hs : Between c f h (.cond i e yes no) σ)
      (hx : Yields (inputExpr (siteEnv c f h) e (publicExpr (siteEnv c f h) e)
        (circuitExpr (siteEnv c f h) e)) σ w τ) : Between c f h (.cond i e yes no) τ
  | books {h s σ τ} (hs : Between c f h s σ) (hstack : τ.stack = σ.stack)
      (hversions : τ.versions = σ.versions) : Between c f h s τ

/-- A trace in which all calls may stand. -/
abbrev anyCalls (c : ContractEnv) (f : FunctionId) : c.Trace f (.ofCalls _) :=
  callNotes _ fun _ => True

/-- Between public statements, the state is as their discipline says. -/
theorem Between.good (h : Passes unit.check c.program) (hf : c.program.Has f)
    (hs : Between c f place s σ) : (anyCalls c f).Good Trace.idle σ := by
  obtain ⟨hbody, hidle, hwhole⟩ := body_of_checked h (anyCalls c f) (fun _ _ => trivial)
    (fun _ _ _ => trivial) fun _ _ _ _ _ _ _ => trivial
  suffices place.function = f ∧ s.isPrivateIf = false ∧ (∀ r ∈ s.roots, Sited c.program place) ∧
      (anyCalls c f).Outside (Held c.program f f) f s ∧ (anyCalls c f).Good Trace.idle σ from
    this.2.2.2.2
  induction hs with
  | start =>
    obtain ⟨_, _, hs, -⟩ := (SourceUnit.check_checked h).names.function f hf
    obtain ⟨i, ss, heq⟩ := hs.isBlock
    rw [heq] at hbody ⊢
    exact ⟨rfl, rfl, nofun, hbody, rfl, nofun⟩
  | @enter place _ _ _ _ ht hp ih =>
    obtain ⟨rfl, hs, -, hout, hgood⟩ := ih
    have hchild := hout.child (h := place) hs ht
    exact ⟨rfl, hp, fun _ _ => hchild.sited (h := place) hp, hchild, hgood⟩
  | @part place _ _ _ _ _ _ _ ht hx ih =>
    obtain ⟨rfl, hs, hp, hout, hgood⟩ := ih
    obtain ⟨_, _, _, -, hgood, -⟩ :=
      (Trace.lower_runs (h := place) (c := ()) hidle hwhole _ _ ((hout.here hs).2 _ ht) hgood).yields hx
    exact ⟨rfl, hs, hp, hout, hgood⟩
  | value _ hr hx ih =>
    obtain ⟨rfl, hs, hp, hout, hgood⟩ := ih
    obtain ⟨_, _, _, -, hgood, -⟩ :=
      (Trace.publicExpr_runs (c := ()) hidle (hp _ hr) _ (hout.root hs hr) hgood).yields hx
    exact ⟨rfl, hs, hp, hout, hgood⟩
  | test _ hx ih =>
    obtain ⟨rfl, hs, hp, hout, hgood⟩ := ih
    have hsited := hp _ (.head _)
    obtain ⟨_, _, _, -, hgood, -⟩ := (Trace.inputExpr_runs (c := ()) hsited
      ((hout.here hs).1.condition _ _ _ _ rfl).1
      (Trace.publicExpr_runs hidle hsited _ (hout.root hs (.head _))) hgood).yields hx
    exact ⟨rfl, hs, hp, hout, hgood⟩
  | books _ hstack hversions ih =>
    obtain ⟨hplace, hs, hp, hout, hgood⟩ := ih
    refine ⟨hplace, hs, hp, hout, hstack.trans hgood.stack, ?_⟩
    rw [hversions, hgood.entries_eq_nil]
    nofun

/-- Lowering a checked function never runs into confusion. -/
theorem lowerFunction_not_confused (h : Passes unit.check c.program) {e : Error}
    (hl : lowerFunction c f = .error e) : ¬ Confused e := by
  have hruns := functionBody_runs h (anyCalls c f) (fun _ _ => trivial) (fun _ _ _ => trivial)
    (fun _ _ _ _ _ _ _ => trivial) () ⟨rfl, nofun⟩
  unfold Meets at hruns
  change (functionBody (Env.ofFunction c.program c.settings c.owners f)).run _ >>= _ = _ at hl
  cases hrun : (functionBody (Env.ofFunction c.program c.settings c.owners f)).run
    (State.new c.settings) <;> rw [hrun] at hl hruns <;> cases hl
  exact hruns trivial

/-- Where confusion does not count and everything may have versions, all functions can be held. -/
theorem holds_of_loose (h : Passes unit.check c.program) (hD : ¬ D.strict) (hmay : ∀ v, D.may v)
    (depth : Nat) : (anyCalls c f).Holds D (fun _ => True) depth := by
  induction depth generalizing D with
  | zero => exact fun _ _ => ⟨fun hs => (hD hs).elim, fun _ _ _ _ _ hs => (hD hs).elim⟩
  | succ depth ih =>
    refine fun g _ => ⟨fun hs => (hD hs).elim, fun values _ _ => Trace.inlineBody_runs
      (ih (D := D.hold c.program g) hD fun v => .inl (hmay v)) (fun v _ => .inl (hmay v)) ?_⟩
    exact inside_of_checked h (fun _ _ => trivial) (Stmt.mem_walk_self _) (fun _ _ => trivial)
      (fun _ _ _ _ _ => trivial) fun _ _ v _ => .inl (hmay v)

/-- A call leaves the stack as it was. -/
theorem inlineCall_stack (h : Passes unit.check c.program) {k : FunctionId}
    (hs : s ∈ (c.program.function k).body.walk) {r : Use × Expr} (hr : r ∈ s.roots) {i : Expr.Info}
    {g : FunctionId} {args : List Expr} (hcall : .call i g args ∈ r.2.subterms) {env : Env}
    (henv : env = (Env.within c.program c.settings c.owners f).placed
      ((Here.ofFunction c.program k).inStmt s) depth) {ts : List Term} {τ : State}
    (hx : Yields (inlineCall env (.call i g args) g (circuitExprs env args)) σ ts τ) :
    τ.stack = σ.stack := by
  obtain ⟨_, _, -, hplaced, -⟩ := SourceUnit.check_typed h
  obtain ⟨b, hset⟩ := (Placement.withPlacement_settled hplaced k).subterm
    (Stmt.mem_exprs_iff.2 ⟨s, hs, r, hr, hcall⟩)
  have htrace : (anyCalls c f).Traceable (fun _ => True) true (.call i g args) :=
    traceable_root h hs hr hcall (fun _ _ => trivial) hset (fun _ => rfl) fun _ _ => trivial
  let D : Discipline := ⟨False, σ.stack, fun _ => True⟩
  have hh : (anyCalls c f).Holds D _ depth := holds_of_loose h id (fun _ => trivial) depth
  have hgood : (anyCalls c f).Good D σ := by
    refine ⟨rfl, fun e _ => ⟨trivial, ?_⟩⟩
    cases e.1 with
    | var => trivial
    | ret => exact .inr id
  subst henv
  obtain ⟨_, _, _, -, hgood, -⟩ := (Trace.inlineCall_runs (c := ()) hh trivial (fun _ =>
    Trace.circuitExprs_runs hh (sited_of_checked h hs) args fun a ha => htrace.part ha) hgood).yields hx
  exact hgood.stack

end Shroud.Lowering

namespace Shroud.SourceUnit

open Lowering

/-- **Inlining is well founded.** A circuit can hold a function just if it can hold all functions that
the function leads to, each on its own. In a checked program, nothing is bound and nothing is held
between the public statements of a function, a call leaves the stack and everything bound but state
as they were, and lowering meets neither a function inside itself nor bindings that are left over. -/
theorem inlining_wellFounded (u : SourceUnit) :
    (∀ p r, u.resolve = .ok p → Passes p.withEffects.withAliases.withTypes r → ∀ f, r.Has f →
      (((Placement.recordHeld r).function f).facts.canBePrivate = true ↔
        ∀ g, Relation.ReflTransGen p.Calls f g → Placement.holdsOwn r (r.function g) = true)) ∧
    ∀ c : ContractEnv, Passes u.check c.program → ∀ f, c.program.Has f →
      (∀ place s σ, Between c f place s σ → σ.stack = [] ∧ σ.versions.entries = []) ∧
      (∀ k, ∀ s ∈ (c.program.function k).body.walk, ∀ r ∈ s.roots, ∀ i g args,
        .call i g args ∈ r.2.subterms → ∀ env depth σ ts τ,
          env = (Env.within c.program c.settings c.owners f).placed
            ((Here.ofFunction c.program k).inStmt s) depth →
          Yields (inlineCall env (.call i g args) g (circuitExprs env args)) σ ts τ →
          τ.stack = σ.stack ∧ ∀ key, (∀ v, key = .var v → c.program.isState v = false) →
            τ.versions.get? key = σ.versions.get? key) ∧
      (∀ name, lowerFunction c f ≠ .error (.internal (.recursiveInlining name))) ∧
      lowerFunction c f ≠ .error (.internal .liveBindings) := by
  refine ⟨fun p r hp hr f hf => ?_, fun c h f hf => ⟨fun place s σ hs => ?_, ?_,
    fun name hl => lowerFunction_not_confused h hl (.recursive name),
    fun hl => lowerFunction_not_confused h hl .live⟩⟩
  · obtain ⟨-, halike, hfacts, -⟩ := withTypes_typed hp hr
    have hscoped := resolve_scoped hp
    have hhas : ∀ {g}, r.Has g ↔ p.Has g :=
      (halike.has.trans (Program.withAliases_alike _).has).trans (Effects.withEffects_alike p).has
    have hcalls : Placement.Records r = p.Calls := by
      ext f g
      rw [Placement.Records, hfacts, Effects.calls_withEffects]
      rfl
    rw [Placement.canBePrivate_recordHeld hf, hcalls]
    refine forall₂_congr fun g hg => and_iff_right ?_
    rcases Relation.reflTransGen_iff_eq_or_transGen.1 hg with rfl | hg
    · exact hf
    · exact hhas.2 (hscoped.contract _ g (hscoped.of_transGen hg)).1
  · exact ⟨(hs.good h hf).stack, (hs.good h hf).entries_eq_nil⟩
  · intro k s hs r hr i g args hcall env depth σ ts τ henv hx
    refine ⟨inlineCall_stack h hs hr hcall henv hx, ?_⟩
    subst henv
    exact (inlineCall_yields hx).2

/-- The circuit of `answer` holds `next`, which it calls in the first of two public statements. -/
theorem inlining_wellFounded_quiz : ∃ p l, Passes quiz.check p ∧ p.Calls ⟨1⟩ ⟨0⟩ ∧
    (p.function ⟨0⟩).facts.canBePrivate = true ∧ lowerFunction (.new p {} ⟨0⟩) ⟨1⟩ = .ok l ∧
    ∀ place s σ, Between (.new p {} ⟨0⟩) ⟨1⟩ place s σ → σ.stack = [] ∧ σ.versions.entries = [] := by
  have hrun : Passes.test quiz.check (fun p =>
      (lowerFunction (.new p {} ⟨0⟩) ⟨1⟩).toOption.any fun _ => p.Has ⟨1⟩ ∧
        ⟨0⟩ ∈ Effects.calls (p.function ⟨1⟩).body ∧
        (p.function ⟨0⟩).facts.canBePrivate = true) = true := by
    decide +kernel
  obtain ⟨p, hp, htest⟩ := Passes.of_test hrun
  obtain ⟨l, hl, htest⟩ := any_toOption.1 htest
  obtain ⟨hf, hcalls, hprivate⟩ := of_decide_eq_true htest
  obtain ⟨-, hchecked⟩ := inlining_wellFounded quiz
  exact ⟨p, l, hp, hcalls, hprivate, hl, (hchecked (.new p {} ⟨0⟩) hp ⟨1⟩ hf).1⟩

end Shroud.SourceUnit
