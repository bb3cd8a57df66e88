import Mathlib
import Shroud.Proofs.Checked

/-! # The call graph of a checked program

What a function is recorded to reach contains all that it reaches through calls. So the functions
that need a proof are closed under callers, and none of them can reach itself.
-/

namespace Shroud

/-- The body of one function calls another. -/
def Program.Calls (p : Program) (f g : FunctionId) : Prop := g ∈ Effects.calls (p.function f).body

/-- What placement guarantees about calls. -/
structure Program.Graded (p : Program) : Prop where
  /-- A function that calls one with a proof needs a proof. -/
  caller : ∀ {f g}, p.Calls f g → (p.function g).facts.isVerified = true →
    (p.function f).facts.isVerified = true
  /-- A function with a proof does not call itself, not even through others. -/
  acyclic : ∀ {f}, (p.function f).facts.isVerified = true → ¬ Relation.TransGen p.Calls f f

namespace Effects

variable {p q : Program} {f g : FunctionId} {I : Stmt.Info → Stmt.Info → Prop}
  {R : Expr → Expr → Prop}

theorem mem_calls_of_alike {s s' : Stmt} (hR : ∀ e e', R e e' → e'.callees = e.callees)
    (h : Stmt.Alike I R s s') : g ∈ calls s' ↔ g ∈ calls s := by
  simp only [mem_calls_iff]
  constructor
  · rintro ⟨t', ht', r', hr', hg⟩
    obtain ⟨t, ht, htt⟩ := h.walk.exists_left ht'
    obtain ⟨r, hr, -, hrr⟩ := htt.roots.exists_left hr'
    exact ⟨t, ht, r, hr, hR _ _ hrr ▸ hg⟩
  · rintro ⟨t, ht, r, hr, hg⟩
    obtain ⟨t', ht', htt⟩ := h.walk.exists_right ht
    obtain ⟨r', hr', -, hrr⟩ := htt.roots.exists_right hr
    exact ⟨t', ht', r', hr', (hR _ _ hrr).symm ▸ hg⟩

theorem calls_iff_of_alike (hR : ∀ e e', R e e' → e'.callees = e.callees)
    (h : Program.Alike I R p q) : q.Calls f g ↔ p.Calls f g := by
  by_cases hf : p.Has f
  · exact mem_calls_of_alike hR (h.body f hf)
  · have hq : ¬ q.Has f := mt h.has.1 hf
    rw [Program.Calls, Program.Calls, Program.function_of_not_has hf,
      Program.function_of_not_has hq]

/-- Everything that calls lead to is reached. -/
theorem mem_reached_of_transGen (hp : p.Scoped) (h : Relation.TransGen p.Calls f g) :
    g ∈ reached p f := by
  induction h using Relation.TransGen.head_induction_on with
  | single h => exact (reached_closed hp h).1
  | head h _ ih => exact (reached_closed hp h).2 _ ih

end Effects

namespace Placement

variable {p : Program} {f : FunctionId}

/-- A function needs a proof if it, or one that it reaches, computes something inside. -/
theorem isVerified_recordVerified (hf : p.Has f) :
    ((recordVerified p).function f).facts.isVerified = true ↔
      ∃ g ∈ f :: (p.function f).facts.reached, p.Has g ∧
        isPrivateItself (p.function g) = true := by
  rw [recordVerified, Program.function_mapFunctions hf]
  simp only [List.any_eq_true]
  refine exists_congr fun g => and_congr_right fun _ => ?_
  by_cases hg : p.Has g
  · rw [Program.getD_table hg]
    exact (and_iff_right hg).symm
  · rw [Program.getD_table_of_not_has hg]
    simp [hg]

/-- Only the functions that can be called from outside get a wrapper, and only if they need a proof
or take secrets. -/
theorem isVerifiedOutside_recordVerified (hf : p.Has f) :
    ((recordVerified p).function f).facts.isVerifiedOutside =
      ((p.function f).canBeExternal && (((recordVerified p).function f).facts.isVerified ||
        (p.function f).params.any fun v => (p.var v).type.isPrivate)) := by
  rw [recordVerified, Program.function_mapFunctions hf]

theorem checkVerified_not_recursive (h : checkVerified p f = .ok ())
    (hv : (p.function f).facts.isVerified = true) : (p.function f).facts.isRecursive = false := by
  by_contra hr
  rw [Bool.not_eq_false] at hr
  unfold checkVerified at h
  dsimp only at h
  rw [hv, hr] at h
  split at h <;> cases h

end Placement

/-- A checked program has the calls of the resolved one, and records what they lead to. -/
theorem SourceUnit.check_reached {u : SourceUnit} {p q : Program} (hp : u.resolve = .ok p)
    (h : Passes u.check q) : q.Calls = p.Calls ∧ (∀ {f}, q.Has f ↔ p.Has f) ∧
      ∀ {f : FunctionId}, p.Has f →
        (q.function f).facts.reached = Effects.reached p f ∧
        (q.function f).facts.isRecursive = (Effects.reached p f).contains f := by
  obtain ⟨p', r, hp', hq, -, -, hfacts, -⟩ := check_typed h
  obtain rfl : p = p' := by
    rw [hp] at hp'
    exact Except.ok.inj hp'
  have halike := check_alike hp h
  refine ⟨?_, halike.has, fun {f} hf => ?_⟩
  · ext f g
    refine Effects.calls_iff_of_alike (fun e e' he => ?_) halike
    rw [← Expr.callees_plain, he, Expr.callees_plain]
  · rw [(Placement.withPlacement_placed hq).facts f]
    simp only [hfacts f, Effects.facts_withEffects hf]
    exact ⟨rfl, rfl⟩

/-- The call graph of a program that passes the check. -/
theorem SourceUnit.check_graded {u : SourceUnit} {q : Program} (h : Passes u.check q) :
    q.Graded := by
  obtain ⟨p, r, hp, hq, -⟩ := check_typed h
  obtain ⟨hcalls, hhas, hreached⟩ := check_reached hp h
  have hscoped := resolve_scoped hp
  obtain ⟨r', hr', -, rfl, hchecked⟩ := Placement.withPlacement_eq_ok hq
  have hplaced := Placement.recordVerified_placed r'
  have hverified : ∀ {f}, p.Has f →
      (((Placement.recordVerified r').function f).facts.isVerified = true ↔
        ∃ g ∈ f :: Effects.reached p f, r'.Has g ∧
          Placement.isPrivateItself (r'.function g) = true) := by
    intro f hf
    have hrf : r'.Has f := hplaced.alike.has.1 (hhas.2 hf)
    have hsame : (r'.function f).facts.reached = Effects.reached p f := by
      rw [← (hreached hf).1, hplaced.facts f]
    rw [Placement.isVerified_recordVerified hrf, hsame]
  have hinside : ∀ {f}, ((Placement.recordVerified r').function f).facts.isVerified = true →
      p.Has f := by
    intro f hv
    by_contra hf
    rw [Program.function_of_not_has (mt hhas.1 hf)] at hv
    cases hv
  refine ⟨fun {f g} hfg hg => ?_, fun {f} hv hcycle => ?_⟩
  · rw [hcalls] at hfg
    have hf := (Effects.called_of_scoped hscoped hfg).1
    obtain ⟨hmem, hsub⟩ := Effects.reached_closed hscoped hfg
    obtain ⟨k, hk, hown⟩ := (hverified (hinside hg)).1 hg
    refine (hverified hf).2 ⟨k, List.mem_cons_of_mem _ ?_, hown⟩
    rcases List.mem_cons.1 hk with rfl | hk
    · exact hmem
    · exact hsub k hk
  · have hf := hinside hv
    have hrec := Placement.checkVerified_not_recursive (hchecked f (hhas.2 hf)) hv
    rw [(hreached hf).2] at hrec
    rw [hcalls] at hcycle
    simp [Effects.mem_reached_of_transGen hscoped hcycle] at hrec

section Paths

open Relation (TransGen)

variable {p : Program} {f g : FunctionId}

theorem Program.Scoped.of_transGen (hp : p.Scoped) (h : TransGen p.Calls f g) :
    g ∈ (p.contract (p.function f).contract).functions := by
  have hg : p.Has g ∧
      (p.function g).contract = (p.function f).contract := by
    induction h with
    | single h =>
      obtain ⟨-, hg, -, hc⟩ := Effects.called_of_scoped hp h
      exact ⟨hg, hc⟩
    | tail _ h ih =>
      obtain ⟨-, hg, -, hc⟩ := Effects.called_of_scoped hp h
      exact ⟨hg, hc.trans ih.2⟩
  rw [← hg.2]
  exact (hp.mem g hg.1).2

/-- A function on a path of calls to one with a proof needs a proof. -/
theorem Program.Graded.of_transGen (hp : p.Graded) (h : TransGen p.Calls f g)
    (hg : (p.function g).facts.isVerified = true) : (p.function f).facts.isVerified = true := by
  induction h using TransGen.head_induction_on with
  | single h => exact hp.caller h hg
  | head h _ ih => exact hp.caller h ih

end Paths

end Shroud
