import Shroud.Proofs.Marks
import Shroud.Proofs.Constants

/-! # Effects of what runs inside

A circuit cannot change state, so no function with effects is called inside. The marks that this
is checked along end at a location: the base and the index of what is read inside are computed in the
open, and their calls go unchecked. So what runs inside is free of effects just if those locations
are.
-/

namespace Shroud

def Expr.isIndex : Expr → Bool
  | .index _ _ _ => true
  | _ => false

namespace Program

variable {p : Program} {e : Expr}

/-- Nothing that runs inside calls a function with effects: neither an expression that a circuit
computes, nor anything in an `if` with a private condition. -/
structure EffectFreeInside (p : Program) : Prop where
  computed : ∀ f ∈ p.functions, ∀ e ∈ f.body.exprs, e.info.inCircuit = true →
    p.exprHasEffects e = false
  privateIf : ∀ f ∈ p.functions, ∀ s ∈ f.body.walk, s.isPrivateIf = true → ∀ e ∈ s.exprs,
    p.exprHasEffects e = false

/-- No location that is read inside has a call of a function with effects in its base or index. -/
def EffectFreeLocations (p : Program) : Prop :=
  ∀ f ∈ p.functions, ∀ e ∈ f.body.exprs, e.isIndex = true → e.info.inCircuit = true →
    p.exprHasEffects e = false

instance (p : Program) : Decidable p.EffectFreeLocations :=
  inferInstanceAs (Decidable (∀ f ∈ p.functions, _))

theorem exprHasEffects_eq_false_iff :
    p.exprHasEffects e = false ↔ ∀ f ∈ e.callees, (p.function f).facts.hasEffects = false := by
  simp [exprHasEffects]

/-- An expression is free of effects if its parts and the function that it calls are. -/
theorem exprHasEffects_of_children
    (hcallee : ∀ f ∈ e.callee?, (p.function f).facts.hasEffects = false)
    (hparts : ∀ c ∈ e.children, p.exprHasEffects c = false) : p.exprHasEffects e = false := by
  rw [exprHasEffects_eq_false_iff]
  intro f hf
  rw [Expr.callees_eq, List.mem_append, Option.mem_toList, List.mem_flatMap] at hf
  rcases hf with hf | ⟨c, hc, hf⟩
  · exact hcallee f hf
  · exact exprHasEffects_eq_false_iff.1 (hparts c hc) f hf

theorem exprHasEffects_of_mem_subterms (h : p.exprHasEffects e = false) {x : Expr}
    (hx : x ∈ e.subterms) : p.exprHasEffects x = false := by
  rw [exprHasEffects_eq_false_iff] at h ⊢
  intro f hf
  obtain ⟨y, hy, hcallee⟩ := List.mem_filterMap.1 hf
  exact h f (List.mem_filterMap.2 ⟨y, Expr.mem_subterms_trans hx hy, hcallee⟩)

theorem EffectFreeInside.locations (h : p.EffectFreeInside) : p.EffectFreeLocations :=
  fun f hf e he _ => h.computed f hf e he

end Program

namespace Placement

variable {p : Program} {inside : Bool}

/-- What is computed inside has effects only through the locations that it reads. -/
theorem Settled.effectFree {e : Expr} (h : Settled p inside e) (hin : e.info.inCircuit = true)
    (hheld : ∀ f, (p.function f).facts.canBePrivate = true →
      (p.function f).facts.hasEffects = false)
    (hlocations : ∀ x ∈ e.subterms, x.isIndex = true → x.info.inCircuit = true →
      p.exprHasEffects x = false) : p.exprHasEffects e = false := by
  induction e using Expr.induct_children generalizing inside with
  | h e ih =>
    by_cases hindex : e.isIndex = true
    · exact hlocations e (by simp) hindex hin
    -- whatever is not a location takes its parts inside
    have hparts : partsInside (inside || entersCircuit e) e = true := by
      rw [h.mark] at hin
      cases e with
      | index => exact absurd rfl hindex
      | reclassify => rfl
      | _ => exact hin
    refine Program.exprHasEffects_of_children (fun f hf => hheld f ?_) fun c hc => ?_
    · cases e with
      | call i g args =>
        cases hf
        exact h.of_marked_call hin
      | _ => cases hf
    · have hc' := h.part hc
      rw [hparts] at hc'
      refine ih c hc hc' hc'.inCircuit fun x hx => hlocations x ?_
      exact Expr.mem_subterms_iff.2 (.inr ⟨c, hc, hx⟩)

/-- Everything that an `if` with a private condition contains stands inside. -/
theorem SettledStmt.root_of_privateIf {s t : Stmt} (h : SettledStmt p inside s)
    (hs : s.isPrivateIf = true) (ht : t ∈ s.walk) {r : Use × Expr} (hr : r ∈ t.roots) :
    Settled p true r.2 := by
  rcases Stmt.mem_walk_iff.1 ht with rfl | ⟨c, hc, ht⟩
  · simpa [hs] using h.root hr
  · have hc' := h.part hc
    rw [hs, Bool.or_true] at hc'
    obtain ⟨b, hb, hin⟩ := hc'.walk t ht
    simpa [hin rfl] using hb.root hr

end Placement

/-- **What runs inside has no effects** just if no location that is read inside calls a function with
effects in its base or index. -/
theorem SourceUnit.effectFreeInside_iff {u : SourceUnit} {q : Program} (h : Passes u.check q) :
    q.EffectFreeInside ↔ q.EffectFreeLocations := by
  obtain ⟨_, _, -, hq, -⟩ := check_typed h
  refine ⟨Program.EffectFreeInside.locations, fun hlocations => ?_⟩
  have hheld : ∀ f, (q.function f).facts.canBePrivate = true →
      (q.function f).facts.hasEffects = false := fun f hf => (check_holdable h hf).effects
  have hsettled : ∀ f ∈ q.functions, Placement.SettledStmt q false f.body := by
    intro f hf
    obtain ⟨n, hn, rfl⟩ := List.mem_iff_getElem.1 hf
    simpa [Program.function, hn] using Placement.withPlacement_settled hq ⟨n⟩
  constructor
  case computed =>
    intro f hf e he hin
    obtain ⟨b, hb⟩ := (hsettled f hf).subterm he
    refine hb.effectFree hin hheld fun x hx => hlocations f hf x ?_
    obtain ⟨t, ht, r, hr, he⟩ := Stmt.mem_exprs_iff.1 he
    exact Stmt.mem_exprs_iff.2 ⟨t, ht, r, hr, Expr.mem_subterms_trans he hx⟩
  case privateIf =>
    intro f hf s hs hprivate e he
    obtain ⟨b, hb, -⟩ := (hsettled f hf).walk s hs
    obtain ⟨t, ht, r, hr, he⟩ := Stmt.mem_exprs_iff.1 he
    have hroot := hb.root_of_privateIf hprivate ht hr
    refine Program.exprHasEffects_of_mem_subterms ?_ he
    refine hroot.effectFree hroot.inCircuit hheld fun x hx => hlocations f hf x ?_
    exact Stmt.mem_exprs_iff.2 ⟨t, Stmt.mem_walk_trans ht hs, r, hr, hx⟩

/-- A private `if` that reads a mapping at an index which a function without effects gives. -/
def looked : SourceUnit := .single "Looked" [
  { name := "c", type := .mk .bool .me },
  { name := "r", type := .mk (.uint 8) .me },
  { name := "m", type := .mk (.mapping (.uint 8) none (.mk (.uint 8) .me)) .all }] [
  { name := "first"
    visibility := .internal
    returns := [.mk (.uint 8) .all]
    body := [.ret {} (some 1)] },
  { name := "f"
    body := [.cond {} "c"
      (.block {} [.assign {} "r" none
        (.index {} "m" (.call {} "first" []))]) none] }]

theorem SourceUnit.effectFreeInside_looked : ∃ q, Passes looked.check q ∧
    q.EffectFreeLocations ∧ q.EffectFreeInside :=
  Passes.exists_of_test (by decide +kernel) fun _ hq => (effectFreeInside_iff hq).2

/-- The same with an index that says when it is computed. -/
def overwritten : SourceUnit where
  contracts := looked.contracts.map fun c => { c with
    functions := c.functions.map fun f => if f.name = "f" then f else { f with
      body := .assign {} "r" none 1 :: f.body } }

/-- A private `if` calls a function that changes state, and passes the check. -/
theorem SourceUnit.overwritten_effect_inside : ∃ q, Passes overwritten.check q ∧
    (∃ f ∈ q.functions, ∃ s ∈ f.body.walk, s.isPrivateIf = true ∧
      ∃ e ∈ s.exprs, q.exprHasEffects e = true) ∧ ¬ q.EffectFreeInside := by
  refine Passes.exists_of_test (by decide +kernel) fun q _ heffect hfree => ?_
  obtain ⟨f, hf, s, hs, hprivate, e, he, heffects⟩ := heffect
  exact Bool.false_ne_true ((hfree.privateIf f hf s hs hprivate e he).symm.trans heffects)

end Shroud
