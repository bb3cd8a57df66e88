import Mathlib
import Shroud.Proofs.Checked

/-! # Applications

A call stands for the one function of its name that takes so many arguments. So in a resolved
program calls stay in their contract and have as many arguments as the function has parameters, in
the bodies of functions and in initializers. No later stage changes that.
-/

namespace Shroud

namespace Expr

variable {P Q : FunctionId × Nat → Prop} {e : Expr}

theorem Applies.mono (h : e.Applies P) (hPQ : ∀ a, P a → Q a) : e.Applies Q :=
  fun a ha => hPQ a (h a ha)

@[simp] theorem applies_plain : e.plain.Applies P ↔ e.Applies P := by
  have hplain := filterMap_subterms_plain application?
    (fun e h => by cases e <;> simp_all [isImplicit, application?])
    (fun e h => by cases e <;> simp_all [isImplicit, application?, plain, plainList_eq_map]) e
  rw [Applies, hplain, Applies]

end Expr

namespace Stmt

/-- All calls in the expressions of a statement have `P`. -/
def Applies (P : FunctionId × Nat → Prop) (s : Stmt) : Prop :=
  ∀ t ∈ s.walk, ∀ r ∈ t.roots, r.2.Applies P

variable {P Q : FunctionId × Nat → Prop} {s : Stmt}

theorem Applies.mono (h : s.Applies P) (hPQ : ∀ a, P a → Q a) : s.Applies Q :=
  fun t ht r hr => (h t ht r hr).mono hPQ

/-- Implicit conversions call nothing. -/
theorem Applies.congr {I : Info → Info → Prop} {s' : Stmt}
    (h : Stmt.Alike I (fun e e' => e'.plain = e.plain) s s') (hs : s.Applies P) : s'.Applies P := by
  intro t' ht' r' hr'
  obtain ⟨t, ht, htt⟩ := h.walk.exists_left ht'
  obtain ⟨r, hr, -, hrr⟩ := htt.roots.exists_left hr'
  rw [← Expr.applies_plain, hrr, Expr.applies_plain]
  exact hs t ht r hr

end Stmt

/-! ## Resolution -/

theorem Scope.applies_of_resolved {env : Env} {s : Stmt} (h : ∀ t ∈ s.walk, env.ResolvedStmt t) :
    s.Applies env.Takes := by
  intro t ht r hr
  have hres := h t ht
  cases t with
  | assign i lhs rhs =>
    obtain rfl | rfl : r = (.target, lhs) ∨ r = (.value, rhs) := by simpa [Stmt.roots] using hr
    · exact hres.1.1
    · obtain hrhs | ⟨_, _, value, rfl, hvalue⟩ := hres.2.1
      · exact hrhs.1
      · refine Expr.applies_of_children rfl ?_
        simpa [Expr.children] using ⟨hres.1.1, hvalue.1⟩
  | _ => exact (hres r hr).1

/-- A function of a contract that can be called takes so many arguments. -/
def Program.Takes (p : Program) (c : ContractId) (a : FunctionId × Nat) : Prop :=
  a.1 ∈ (p.contract c).functions ∧ (p.function a.1).isConstructor = false ∧
    a.2 = (p.function a.1).params.length

/-- Calls stay in their contract, and have the arguments that the functions take. -/
structure Program.Applied (p : Program) : Prop where
  body : ∀ f, f.index < p.functions.length →
    (p.function f).body.Applies (p.Takes (p.function f).contract)
  init : ∀ c, ∀ v ∈ (p.contract c).stateVars, ∀ e ∈ (p.var v).init, e.Applies (p.Takes c)

namespace Scope

theorem contract_applied {p q : Program} {c : Source.Contract} (h : contract p c = .ok q)
    (hs : p.Scoped) (hp : p.Applied) : q.Applied := by
  have hq : q.Scoped := contract_scoped h hs
  obtain ⟨a⟩ := contract_adds h
  -- what could be called before, or is callable now, can be called in the larger program
  have hold : ∀ d, d.index < p.contracts.length → ∀ b, p.Takes d b → q.Takes d b := by
    rintro d hd b ⟨hmem, hcons, hcount⟩
    have hlt := (hs.contract d _ hmem).1
    exact ⟨by rwa [a.contract_old hd], by rwa [a.function_old hlt], by rwa [a.function_old hlt]⟩
  have hnew : ∀ b, a.env.Takes b → q.Takes a.env.contract b := by
    intro b hb
    obtain ⟨hlt, hcons, hcontract, hcount⟩ := a.takes hb
    exact ⟨hcontract ▸ (hq.mem b.1 hlt).2, hcons, hcount⟩
  refine ⟨fun f hf => ?_, fun d v hv => ?_⟩
  · by_cases hlt : p.Has f
    · rw [a.function_old hlt]
      exact (hp.body f hlt).mono (hold _ (hs.mem f hlt).1)
    · have hmem := a.function_new (not_lt.1 hlt) hf
      rw [a.owner _ hmem]
      exact (applies_of_resolved (a.resolved _ hmem)).mono hnew
  · rcases a.contract_cases d with ⟨hlt, hd⟩ | rfl | hd
    · rw [hd] at hv
      obtain ⟨x, hx, -⟩ := hs.state d v hv
      obtain ⟨hidx, -⟩ := List.getElem?_eq_some_iff.1 hx
      have hvar : q.var v = p.var v := by
        rw [Program.var, a.vars_eq, List.getD_append _ _ _ _ hidx, Program.var]
      rw [hvar]
      exact fun e he => (hp.init d v hv e he).mono (hold d hlt)
    · rw [a.contract_new] at hv
      obtain ⟨x, hx, -⟩ := a.kinds v hv
      have hvar : q.var v = x := by rw [Program.var, List.getD_eq_getElem?_getD, hx]; rfl
      rw [a.vars_eq, List.getElem?_append_right (a.above v hv)] at hx
      rw [hvar]
      exact fun e he => ((a.sound x (List.mem_of_getElem? hx)).2 e he).1.mono hnew
    · rw [hd] at hv
      cases hv

end Scope

namespace SourceUnit

theorem resolve_applied {u : SourceUnit} {p : Program} (h : u.resolve = .ok p) : p.Applied := by
  have hboth : p.Scoped ∧ p.Applied := by
    refine resolve_induct (P := fun _ p => p.Scoped ∧ p.Applied) h ?_ fun _ _ _ _ hc hq =>
      ⟨Scope.contract_scoped hc hq.1, Scope.contract_applied hc hq.1 hq.2⟩
    refine ⟨resolve_scoped (u := { contracts := [] }) rfl, nofun, ?_⟩
    intro c v hv
    cases hv
  exact hboth.2

/-- The calls of checked programs stay in their contract, and have the arguments that the functions
take. -/
theorem check_applied {u : SourceUnit} {q : Program} (h : Passes u.check q) : q.Applied := by
  obtain ⟨p, r, hp, -, hr, hq⟩ := check_stages h
  have halike := check_alike hp h
  have happlied := resolve_applied hp
  have htakes : ∀ c a, p.Takes c a → q.Takes c a := by
    rintro c a ⟨hmem, hcons, hcount⟩
    rw [Program.Takes, halike.contract_eq, halike.function, Function.isConstructor]
    exact ⟨hmem, hcons, hcount⟩
  refine ⟨fun f hf => ?_, fun c v hv e' he' => ?_⟩
  · have hf := halike.has.1 hf
    rw [halike.function f]
    exact ((happlied.body f hf).congr (halike.body f hf)).mono (htakes _)
  · have hscoped := (withTypes_typed hp hr).1
    have hinits := (Typing.withTypes_retypes hr hscoped
      (((resolve_written hp).congr (Effects.withEffects_alike p)).congr
        (Program.withAliases_alike p.withEffects))
      (show p.InitWritten from resolve_initWritten hp)).inits v
    rw [Program.var, (Placement.withPlacement_placed hq).vars] at he'
    obtain ⟨e, he, hplain⟩ : ∃ e ∈ (p.var v).init, e.plain = e'.plain := by
      have hmem : e'.plain ∈ ((p.var v).init).map Expr.plain :=
        hinits ▸ Option.mem_map.2 ⟨e', he', rfl⟩
      exact Option.mem_map.1 hmem
    rw [halike.contract_eq] at hv
    rw [← Expr.applies_plain, ← hplain, Expr.applies_plain]
    exact (happlied.init c v hv e he).mono (htakes c)

end SourceUnit

end Shroud
