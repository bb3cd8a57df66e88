import Shroud.Proofs.Alias
import Shroud.Proofs.Effects
import Shroud.Proofs.Placement
import Shroud.Proofs.Resolve

/-! # Checked programs

What all analyses together guarantee about a program. Statements about executions start from here
and do not look at the analyses again.
-/

namespace Shroud

variable {I : Info → Info → Prop} {s : Stmt}

/-- A program that has passed all analyses. -/
structure Program.Checked (p : Program) : Prop where
  names : p.Scoped
  types : Typing.WellTyped p
  recorded : p.Recorded
  /-- Nobody is ever taken for everybody. -/
  apart : ∀ f, f.index < p.functions.length → ∀ t ∈ (p.function f).body.walk, ∀ b ∈ t.before?,
    Alias.AllApart b

namespace Typing

variable {env : Env}

theorem Env.sameOwner_comm (env : Env) (a b : Owner) : env.sameOwner a b = env.sameOwner b a := by
  unfold Env.sameOwner
  cases a.label? <;> cases b.label? <;> cases env.before? <;>
    simp [eq_comm, Partition.same_comm]

/-- Nobody is taken for everybody at a place. -/
def Env.Apart (env : Env) : Prop := ∀ b ∈ env.before?, Alias.AllApart b

theorem Env.Apart.eq_all {o : Owner} (h : env.Apart) (ho : env.sameOwner o .all = true) :
    o = .all := by
  by_contra hne
  rw [Env.sameOwner, Bool.or_eq_true, decide_eq_true_eq] at ho
  rcases ho with ho | ho
  · exact hne ho
  split at ho
  · rename_i x y s hx hy hs
    cases hy
    have hxne : x ≠ .all := by
      rintro rfl
      cases o <;> cases hx
      exact hne rfl
    rw [(h s hs).not_same hxne] at ho
    cases ho
  · cases ho

end Typing

theorem Expr.targets_subset_plain (e : Expr) : e.targets ⊆ e.plain.targets := by
  induction e using Expr.induct with
  | index i base idx hb _ => exact hb
  | tuple i es ih =>
    intro v hv
    simp only [targets, plain, plainList_eq_map, targetsList_eq_flatMap, List.mem_flatMap,
      List.mem_map, exists_exists_and_eq_and] at hv ⊢
    obtain ⟨e, he, hv⟩ := hv
    exact ⟨e, he, ih e he hv⟩
  | ident i v => exact List.Subset.refl _
  | _ => rintro _ ⟨⟩

/-- What stands in a written statement is written. -/
theorem Stmt.Written.roots (h : s.Written) {t : Stmt} (ht : t ∈ s.walk) :
    ∀ r ∈ t.roots, r.2.Written := by
  intro r hr
  obtain ⟨t', -, htt⟩ := (Stmt.Alike.walk h).exists_right ht
  obtain ⟨r', -, -, hw⟩ := htt.roots.exists_right hr
  exact hw

/-- Implicit conversions bring no new targets. -/
theorem Stmt.targets_subset {s' t : Stmt} (hs : s.Written) (ht : t ∈ s.walk)
    (h : Stmt.Alike I (fun e e' => e'.plain = e.plain) t s') : s'.targets ⊆ t.targets := by
  cases h with
  | @assign _ _ lhs lhs' rhs _ _ hl _ =>
    have hw : lhs.Written := hs.roots ht (.target, lhs) (by simp [Stmt.roots])
    have hsub := Expr.targets_subset_plain lhs'
    rw [hl, hw.plain_eq] at hsub
    exact hsub
  | _ => exact List.Subset.refl _

theorem Stmt.Written.congr {s' : Stmt} (hs : s.Written) (h : Stmt.Alike I Eq s s') :
    s'.Written := by
  have hback : Stmt.Alike (fun _ _ => True) (fun e _ => e.Written) s' s := by
    refine h.symm.trans (fun _ _ _ _ _ => trivial) ?_ hs
    rintro e _ _ rfl he
    exact he
  refine Stmt.Alike.trans (fun _ _ _ _ _ => trivial) ?_ hback h
  intro e _ _ he _
  exact he

theorem Program.Written.congr {I : Stmt.Info → Stmt.Info → Prop} {p q : Program} (hp : p.Written)
    (h : Program.Alike I Eq p q) : q.Written := by
  intro f hf
  obtain ⟨g, hg, rfl⟩ := exists_function hf
  have hgp : p.Has g := h.has.1 hg
  exact (hp _ (function_mem hgp)).congr (h.body g hgp)

namespace SourceUnit

variable {u : SourceUnit} {q p : Program}

/-- The stages of a successful check. -/
theorem check_stages (h : Passes u.check q) :
    ∃ p r, u.resolve = .ok p ∧ p.withEffects.withAliases.checkFinal = .ok () ∧
      Passes p.withEffects.withAliases.withTypes r ∧ r.withPlacement = .ok q := by
  obtain ⟨p, hp, h⟩ := h.bind
  obtain ⟨_, hf, h⟩ := h.bind
  obtain ⟨r, hr, h⟩ := h.bind
  obtain ⟨r', hr', h⟩ := h.bind
  obtain rfl := hr'.pure
  exact ⟨p, r', hp.lift, hf.lift, hr, h.lift⟩

/-- The annotated program of a resolved unit is scoped. -/
theorem resolve_annotated_scoped (hp : u.resolve = .ok p) : p.withEffects.withAliases.Scoped := by
  refine (Program.withAliases_alike p.withEffects).scoped ?_
    ((Effects.withEffects_alike p).scoped ?_ (resolve_scoped hp)) <;>
    · rintro e _ _ _ rfl he
      exact he

/-- What typing makes of the annotated program of a resolved unit. -/
theorem withTypes_typed {r : Program} (hp : u.resolve = .ok p)
    (hr : Passes p.withEffects.withAliases.withTypes r) : p.withEffects.withAliases.Scoped ∧
      Program.Alike Eq (fun e e' => e'.plain = e.plain) p.withEffects.withAliases r ∧
      (∀ f, (r.function f).facts = (p.withEffects.function f).facts) ∧ Typing.WellTyped r := by
  have heffects := Effects.withEffects_alike p
  have haliases := Program.withAliases_alike p.withEffects
  have hscoped := resolve_annotated_scoped hp
  have hinit : p.withEffects.withAliases.InitWritten := show p.InitWritten from resolve_initWritten hp
  obtain ⟨hpr, hfacts, htyped⟩ := Typing.withTypes_wellTyped hr hscoped
    (((resolve_written hp).congr heffects).congr haliases) hinit
  refine ⟨hscoped, hpr, fun f => ?_, htyped⟩
  rw [hfacts f, Program.facts_withAliases]

/-- What typing makes of the annotated program of a unit that passes the check. -/
theorem check_typed (h : Passes u.check q) :
    ∃ p r, u.resolve = .ok p ∧ r.withPlacement = .ok q ∧ p.withEffects.withAliases.Scoped ∧
      Program.Alike Eq (fun e e' => e'.plain = e.plain) p.withEffects.withAliases r ∧
      (∀ f, (r.function f).facts = (p.withEffects.function f).facts) ∧ Typing.WellTyped r := by
  obtain ⟨p, r, hp, -, hr, hq⟩ := check_stages h
  obtain ⟨hscoped, hpr, hfacts, htyped⟩ := withTypes_typed hp hr
  exact ⟨p, r, hp, hq, hscoped, hpr, hfacts, htyped⟩

/-- The checked program has the annotations and the recorded effects of the resolved one. -/
theorem check_annotated (hp : u.resolve = .ok p) (h : Passes u.check q) :
    Program.Alike Eq (fun e e' => e'.plain = e.plain) p.withEffects.withAliases q ∧
      ∀ f, (q.function f).facts.modified = (p.withEffects.function f).facts.modified ∧
        (q.function f).facts.hasEffects = (p.withEffects.function f).facts.hasEffects := by
  obtain ⟨p', r, hp', hq, -, hpr, hfacts, -⟩ := check_typed h
  obtain rfl : p = p' := by
    rw [hp] at hp'
    exact Except.ok.inj hp'
  have hrq := Placement.withPlacement_placed hq
  refine ⟨hpr.trans hrq.alike (fun _ _ _ => Eq.trans) fun _ _ _ he hm => hm.plain_eq.trans he, ?_⟩
  intro f
  rw [hrq.facts f, ← hfacts f]
  exact ⟨rfl, rfl⟩

/-- The resolved program and the checked one differ in implicit conversions only. -/
theorem check_alike (hp : u.resolve = .ok p) (h : Passes u.check q) :
    Program.Alike (fun _ _ => True) (fun e e' => e'.plain = e.plain) p q := by
  have hannotated : Program.Alike (fun _ _ => True) Eq p p.withEffects.withAliases :=
    (Effects.withEffects_alike p).trans (Program.withAliases_alike p.withEffects)
      (fun _ _ _ _ _ => trivial) fun _ _ _ => Eq.trans
  refine hannotated.trans (check_annotated hp h).1 (fun _ _ _ _ _ => trivial) ?_
  rintro e _ _ rfl he
  exact he

/-- The state variables of checked contracts have the names of the source, each once. -/
theorem check_stateNames (h : Passes u.check q) :
    List.Forall₂ (fun c d => d.stateVars.map q.varName = c.stateVars.map Source.StateVar.name ∧
      (c.stateVars.map Source.StateVar.name).Nodup) u.contracts q.contracts := by
  obtain ⟨p, -, hp, -⟩ := check_typed h
  have halike := check_alike hp h
  rw [halike.contracts, halike.varName_eq]
  exact (resolve_stateNames hp).imp fun c d hnames => ⟨Variable.Named.varName hnames, hnames.nodup⟩

/-- An invariant of the alias analysis holds before every statement of a checked program. -/
theorem check_before {I : Alias.Classes → Prop} (hI : ∀ p, Alias.Invariant p I)
    (hinitial : ∀ p f, I (Alias.initial p f)) (h : Passes u.check q) {f : FunctionId}
    (hf : q.Has f) (hs : s ∈ (q.function f).body.walk) :
    ∃ b, s.before? = some b ∧ I b := by
  obtain ⟨p, -, hp, -⟩ := check_stages h
  have hplaced := (check_annotated hp h).1
  have haliases := Program.withAliases_alike p.withEffects
  rw [hplaced.has, haliases.has] at hf
  obtain ⟨t, ht, hts⟩ := (hplaced.body f (haliases.has.2 hf)).walk.exists_left hs
  obtain ⟨flow, hflow, hbefore, -⟩ := (hI p.withEffects).withAliases hf (hinitial _ _) t ht
  rw [Stmt.before?, ← hts.info, hflow]
  exact ⟨_, rfl, hbefore⟩

/-- Programs that pass the check are checked. -/
theorem check_checked (h : Passes u.check q) : q.Checked := by
  obtain ⟨p, r, hp, hq, hscoped, -, -, htyped⟩ := check_typed h
  have heffects := Effects.withEffects_alike p
  have haliases := Program.withAliases_alike p.withEffects
  have hwritten : p.withEffects.Written := (resolve_written hp).congr heffects
  have hrq := Placement.withPlacement_placed hq
  obtain ⟨hplaced, hfacts⟩ := check_annotated hp h
  have hstages : Program.Alike (fun i j => j.modified = i.modified) (fun e e' => e'.plain = e.plain)
      p.withEffects q := by
    refine haliases.trans hplaced ?_ ?_
    · rintro i _ _ hi rfl
      rw [hi]
    · rintro e _ _ rfl he
      exact he
  refine ⟨Typing.scoped_of_alike hplaced hscoped, htyped.marked hrq.alike hrq.vars, ?_, ?_⟩
  · refine (Effects.withEffects_recorded (resolve_scoped hp)).congr hstages (fun _ _ h => h) ?_ ?_
      (funext fun f => (hfacts f).1)
    · intro f hf t ht t' htt
      exact Stmt.targets_subset (hwritten _ (Program.function_mem hf)) ht htt
    · intro e e' he
      rw [← Expr.callees_plain, he, Expr.callees_plain]
  · intro f hf s hs b hb
    obtain ⟨b', hb', hapart⟩ := check_before Alias.allApart_invariant Alias.initial_allApart h hf hs
    obtain rfl := Option.some.inj (hb.symm.trans hb')
    exact hapart

end SourceUnit

end Shroud
