import Shroud.Proofs.CallGraph

/-! # Propagation along calls

What is recorded about the functions of a resolved program is exact: the functions that calls lead
to, and the state that is written and read on the way. The same sets arise when functions take over,
one after another and again and again, what those that they call are known to write and read, until
a round of this finds no set of another size.
-/

namespace Shroud

open Relation (TransGen ReflTransGen)

namespace Effects

/-! ## Sets of variables -/

namespace Access

/-- The variables of one access are among those of another. -/
def Within (a b : Access) : Prop := a.modified ⊆ b.modified ∧ a.read ⊆ b.read

structure Ascending (a : Access) : Prop where
  modified : Sorted.Ascending a.modified
  read : Sorted.Ascending a.read

def size (a : Access) : Nat := a.modified.length + a.read.length

variable {a b c : Access} {as : List Access}

theorem Within.refl (a : Access) : a.Within a := ⟨fun _ h => h, fun _ h => h⟩

theorem Within.trans (h : a.Within b) (h' : b.Within c) : a.Within c :=
  ⟨fun _ hv => h'.1 (h.1 hv), fun _ hv => h'.2 (h.2 hv)⟩

@[simp] theorem mem_read_gather {v : VarId} :
    v ∈ (gather as).read ↔ ∃ a ∈ as, v ∈ a.read := by
  simp [gather]

theorem within_gather (h : a ∈ as) : a.Within (gather as) :=
  ⟨fun _ hv => mem_modified_gather.2 ⟨a, h, hv⟩, fun _ hv => mem_read_gather.2 ⟨a, h, hv⟩⟩

theorem gather_within (h : ∀ a ∈ as, a.Within b) : (gather as).Within b := by
  refine ⟨fun v hv => ?_, fun v hv => ?_⟩
  · obtain ⟨a, ha, hv⟩ := mem_modified_gather.1 hv
    exact (h a ha).1 hv
  · obtain ⟨a, ha, hv⟩ := mem_read_gather.1 hv
    exact (h a ha).2 hv

theorem ascending_gather (as : List Access) : (gather as).Ascending :=
  ⟨Sorted.ascending_ofList _, Sorted.ascending_ofList _⟩

theorem Ascending.size_le (ha : a.Ascending) (h : a.Within b) : a.size ≤ b.size :=
  Nat.add_le_add (ha.modified.nodup.subperm h.1).length_le (ha.read.nodup.subperm h.2).length_le

theorem Ascending.eq (ha : a.Ascending) (hb : b.Ascending) (h : a.Within b) (h' : b.Within a) :
    a = b := by
  obtain ⟨am, ar⟩ := a
  obtain ⟨bm, br⟩ := b
  obtain rfl : am = bm := ha.modified.ext hb.modified fun v => ⟨fun hv => h.1 hv, fun hv => h'.1 hv⟩
  obtain rfl : ar = br := ha.read.ext hb.read fun v => ⟨fun hv => h.2 hv, fun hv => h'.2 hv⟩
  rfl

/-- To see whether sets that can only grow have grown, it is enough to look at their sizes. -/
theorem Ascending.eq_of_length_eq (ha : a.Ascending) (hb : b.Ascending) (h : a.Within b)
    (hm : b.modified.length = a.modified.length) (hr : b.read.length = a.read.length) : a = b :=
  ha.eq hb h ⟨((ha.modified.nodup.subperm h.1).perm_of_length_le hm.le).symm.subset,
    ((ha.read.nodup.subperm h.2).perm_of_length_le hr.le).symm.subset⟩

end Access

/-! ## Rounds -/

/-- What the functions are known to write and read so far. -/
abbrev Known := FunctionId → Access

/-- What a function is known to write and read, and what those that it calls are. -/
def absorb (p : Program) (known : Known) (f : FunctionId) : Access :=
  .gather (known f :: (calls (p.function f).body).map known)

/-- A function takes over what those that it calls are known to do, if the sizes tell a change. -/
def visit (p : Program) (known : Known) (f : FunctionId) : Known × Bool :=
  let a := absorb p known f
  if a.modified.length ≠ (known f).modified.length ∨ a.read.length ≠ (known f).read.length then
    (Function.update known f a, true)
  else (known, false)

/-- Functions take over one after another. Says whether anything has changed. -/
def round (p : Program) : List FunctionId → Known → Known × Bool
  | [], known => (known, false)
  | f :: fs, known =>
    let (known, changed) := visit p known f
    let (known, later) := round p fs known
    (known, changed || later)

/-- Rounds over all functions, until one changes nothing. -/
inductive Settles (p : Program) : Known → Known → Prop
  | done {known final : Known} : round p p.functionIds known = (final, false) → Settles p known final
  | again {known next final : Known} : round p p.functionIds known = (next, true) →
    Settles p next final → Settles p known final

/-- What each function does itself. -/
def own (p : Program) : Known := fun f => ownState p (p.function f).body

variable {p : Program} {f g : FunctionId} {known next final : Known} {fs : List FunctionId}

theorem mem_reached_iff (hp : p.Scoped) : g ∈ reached p f ↔ TransGen p.Calls f g := by
  refine ⟨fun h => ?_, mem_reached_of_transGen hp⟩
  refine closure_subset (S := TransGen p.Calls f) (fun k hk m hm => hk.tail hm) ?_ ?_ g h <;>
    exact fun k hk => .single (Sorted.mem_ofList.1 hk)

theorem mem_cons_reached_iff (hp : p.Scoped) : g ∈ f :: reached p f ↔ ReflTransGen p.Calls f g := by
  rw [List.mem_cons, mem_reached_iff hp, Relation.reflTransGen_iff_eq_or_transGen]

/-- What is known lies between what functions do themselves and what is recorded. -/
structure Between (p : Program) (known : Known) : Prop where
  own : ∀ f, (own p f).Within (known f)
  full : ∀ f, (known f).Within (fullAccess p f)
  ascending : ∀ f, (known f).Ascending

theorem own_between (p : Program) : Between p (own p) where
  own _ := .refl _
  full f := Access.within_gather (List.mem_map.2 ⟨f, List.mem_cons_self, rfl⟩)
  ascending _ := ⟨(Sorted.ascending_ofList _).filter _, (Sorted.ascending_ofList _).filter _⟩

theorem fullAccess_within (hp : p.Scoped) (h : p.Calls f g) :
    (fullAccess p g).Within (fullAccess p f) := by
  refine Access.gather_within fun a ha => ?_
  obtain ⟨k, hk, rfl⟩ := List.mem_map.1 ha
  refine Access.within_gather (List.mem_map.2 ⟨k, ?_, rfl⟩)
  rw [mem_cons_reached_iff hp] at hk ⊢
  exact hk.head h

theorem Between.absorb_within (hp : p.Scoped) (h : Between p known) (f : FunctionId) :
    (absorb p known f).Within (fullAccess p f) := by
  refine Access.gather_within (List.forall_mem_cons.2 ⟨h.full f, fun a ha => ?_⟩)
  obtain ⟨g, hg, rfl⟩ := List.mem_map.1 ha
  exact (h.full g).trans (fullAccess_within hp hg)

/-- What one visit does: nothing, if there is nothing to take over, or else the sets grow. -/
theorem visit_cases (h : Between p known) (f : FunctionId) :
    visit p known f = (known, false) ∧ absorb p known f = known f ∨
      visit p known f = (Function.update known f (absorb p known f), true) ∧
        (known f).size < (absorb p known f).size := by
  have hwithin : (known f).Within (absorb p known f) := Access.within_gather List.mem_cons_self
  have hascending : (absorb p known f).Ascending := Access.ascending_gather _
  rw [visit]
  split
  · rename_i hne
    refine .inr ⟨rfl, Nat.lt_of_le_of_ne ((h.ascending f).size_le hwithin) fun heq => ?_⟩
    have hm := ((h.ascending f).modified.nodup.subperm hwithin.1).length_le
    have hr := ((h.ascending f).read.nodup.subperm hwithin.2).length_le
    simp only [Access.size] at heq
    omega
  · rename_i hne
    rw [not_or, not_not, not_not] at hne
    exact .inl ⟨rfl, ((h.ascending f).eq_of_length_eq hascending hwithin hne.1 hne.2).symm⟩

theorem Between.update (hp : p.Scoped) (h : Between p known) (f : FunctionId) :
    Between p (Function.update known f (absorb p known f)) := by
  have hwithin : (known f).Within (absorb p known f) := Access.within_gather List.mem_cons_self
  refine ⟨fun g => ?_, fun g => ?_, fun g => ?_⟩ <;> by_cases hg : g = f
  · subst hg
    rw [Function.update_self]
    exact (h.own g).trans hwithin
  · rw [Function.update_of_ne hg]
    exact h.own g
  · subst hg
    rw [Function.update_self]
    exact h.absorb_within hp g
  · rw [Function.update_of_ne hg]
    exact h.full g
  · subst hg
    rw [Function.update_self]
    exact Access.ascending_gather _
  · rw [Function.update_of_ne hg]
    exact h.ascending g

/-- A round that changes nothing finds nothing to take over; any other makes some set grow. -/
theorem round_cases (hp : p.Scoped) : ∀ (fs : List FunctionId) {known : Known}, Between p known →
    Between p (round p fs known).1 ∧ (∀ f, (known f).size ≤ ((round p fs known).1 f).size) ∧
      (round p fs known = (known, false) ∧ (∀ f ∈ fs, absorb p known f = known f) ∨
        (round p fs known).2 = true ∧ ∃ f ∈ fs, (known f).size < ((round p fs known).1 f).size)
  | [], known, h => ⟨h, fun _ => le_rfl, .inl ⟨rfl, nofun⟩⟩
  | f :: fs, known, h => by
    rcases visit_cases h f with ⟨hvisit, heq⟩ | ⟨hvisit, hlt⟩
    · obtain ⟨hbetween, hle, hround⟩ := round_cases hp fs h
      have hcons : round p (f :: fs) known = round p fs known := by
        rw [round, hvisit]
        rfl
      rw [hcons]
      refine ⟨hbetween, hle, hround.imp ?_ ?_⟩
      · rintro ⟨hround, hall⟩
        exact ⟨hround, List.forall_mem_cons.2 ⟨heq, hall⟩⟩
      · rintro ⟨hchanged, g, hg, hlt⟩
        exact ⟨hchanged, g, List.mem_cons_of_mem _ hg, hlt⟩
    · obtain ⟨hbetween, hle, -⟩ := round_cases hp fs (h.update hp f)
      have hcons : round p (f :: fs) known =
          ((round p fs (Function.update known f (absorb p known f))).1, true) := by
        rw [round, hvisit]
        rfl
      have hself := hle f
      rw [Function.update_self] at hself
      rw [hcons]
      refine ⟨hbetween, fun g => ?_, .inr ⟨rfl, f, List.mem_cons_self, hlt.trans_le hself⟩⟩
      by_cases hg : g = f
      · subst hg
        exact hlt.le.trans hself
      · have hother := hle g
        rwa [Function.update_of_ne hg] at hother

/-- Rounds come to an end: the sets grow in each round but the last, and are bounded. -/
theorem exists_settles (hp : p.Scoped) (h : Between p known) :
    ∃ final, Settles p known final ∧ Between p final ∧
      ∀ f ∈ p.functionIds, absorb p final f = final f := by
  obtain ⟨n, hn⟩ : ∃ n, (p.functionIds.map fun f => (fullAccess p f).size).sum ≤
      (p.functionIds.map fun f => (known f).size).sum + n := ⟨_, Nat.le_add_left _ _⟩
  induction n generalizing known with
  | zero =>
    obtain ⟨hbetween, hle, ⟨hround, hall⟩ | ⟨-, hlt⟩⟩ := round_cases hp p.functionIds h
    · exact ⟨known, .done hround, h, hall⟩
    · have hgrows := List.sum_lt_sum (fun f => (known f).size) _ (fun f _ => hle f) hlt
      have hbound := List.sum_le_sum fun f (_ : f ∈ p.functionIds) =>
        (hbetween.ascending f).size_le (hbetween.full f)
      omega
  | succ n ih =>
    obtain ⟨hbetween, hle, ⟨hround, hall⟩ | ⟨hchanged, hlt⟩⟩ := round_cases hp p.functionIds h
    · exact ⟨known, .done hround, h, hall⟩
    · have hgrows := List.sum_lt_sum (fun f => (known f).size) _ (fun f _ => hle f) hlt
      obtain ⟨final, hsettles, hfinal⟩ := ih hbetween (by omega)
      exact ⟨final, .again (Prod.ext rfl hchanged) hsettles, hfinal⟩

/-- Where there is nothing to take over, everything has been taken over. -/
theorem Between.eq_fullAccess (hp : p.Scoped) (h : Between p known)
    (hfixed : ∀ f ∈ p.functionIds, absorb p known f = known f) (f : FunctionId) :
    known f = fullAccess p f := by
  have hcalls : ∀ {f g}, p.Calls f g → (known g).Within (known f) := by
    intro f g hg
    rw [← hfixed f (List.mem_map.2 ⟨_, List.mem_range.2 (called_of_scoped hp hg).1, rfl⟩)]
    exact Access.within_gather (List.mem_cons_of_mem _ (List.mem_map_of_mem hg))
  refine (h.ascending f).eq (Access.ascending_gather _) (h.full f)
    (Access.gather_within fun a ha => ?_)
  obtain ⟨g, hg, rfl⟩ := List.mem_map.1 ha
  rw [mem_cons_reached_iff hp] at hg
  refine (h.own g).trans ?_
  clear ha
  induction hg with
  | refl => exact .refl _
  | tail _ hcall ih => exact (hcalls hcall).trans ih

/-! ## Exact facts -/

theorem mem_read_ownState {body : Stmt} {v : VarId} : v ∈ (ownState p body).read ↔
    p.isState v = true ∧ ∃ i, (.value, .ident i v) ∈ body.uses := by
  have hocc : ∀ u : Use × Expr, v ∈ (occurrence u).read ↔ ∃ i, u = (.value, .ident i v) := by
    rintro ⟨u, e⟩
    cases u <;> cases e <;> simp [occurrence, eq_comm]
  simp only [ownState, List.mem_filter, Access.mem_read_gather, List.mem_map,
    exists_exists_and_eq_and, hocc]
  rw [and_comm]
  refine and_congr_right fun _ => ⟨?_, ?_⟩
  · rintro ⟨u, hu, i, rfl⟩
    exact ⟨i, hu⟩
  · rintro ⟨i, hu⟩
    exact ⟨_, hu, i, rfl⟩

/-- The facts about a function say no more and no less than they should. -/
structure Exact (p : Program) (f : FunctionId) (facts : Function.Facts) : Prop where
  calls : ∀ g, g ∈ facts.calls ↔ ∃ i args, .call i g args ∈ (p.function f).body.exprs
  reached : ∀ g, g ∈ facts.reached ↔ TransGen p.Calls f g
  isRecursive : facts.isRecursive = true ↔ TransGen p.Calls f f
  modified : ∀ v, v ∈ facts.modified ↔ p.isState v = true ∧ ∃ g, ReflTransGen p.Calls f g ∧
    ∃ i, (.target, .ident i v) ∈ (p.function g).body.uses
  read : ∀ v, v ∈ facts.read ↔ p.isState v = true ∧ ∃ g, ReflTransGen p.Calls f g ∧
    ∃ i, (.value, .ident i v) ∈ (p.function g).body.uses
  hasEffects : facts.hasEffects = true ↔ facts.modified ≠ []
  isStatic : facts.isStatic = true ↔
    (∀ s ∈ (p.function f).body.walk, s.isLoop = false) ∧ ¬ TransGen p.Calls f f

/-- What is recorded is exact. -/
theorem exact_factsOf (hp : p.Scoped) (f : FunctionId) : Exact p f (factsOf p f) := by
  have hrecursive : (reached p f).contains f = true ↔ TransGen p.Calls f f := by
    rw [List.contains_iff_mem, mem_reached_iff hp]
  have houtside : ∀ {S : Prop} {Q : FunctionId → Prop},
      (∃ g, ReflTransGen p.Calls f g ∧ S ∧ Q g) ↔ S ∧ ∃ g, ReflTransGen p.Calls f g ∧ Q g :=
    ⟨fun ⟨g, hg, hs, hq⟩ => ⟨hs, g, hg, hq⟩, fun ⟨hs, g, hg, hq⟩ => ⟨g, hg, hs, hq⟩⟩
  constructor
  case calls =>
    intro g
    rw [factsOf, mem_calls]
    constructor
    · rintro ⟨e, he, hg⟩
      cases e <;> cases hg
      exact ⟨_, _, he⟩
    · rintro ⟨i, args, he⟩
      exact ⟨_, he, rfl⟩
  case reached => exact fun g => mem_reached_iff hp
  case isRecursive => exact hrecursive
  case modified =>
    intro v
    simp only [factsOf, fullAccess, Access.mem_modified_gather, List.mem_map,
      exists_exists_and_eq_and, mem_cons_reached_iff hp, mem_modified_ownState,
      Stmt.exists_target_uses_iff]
    exact houtside
  case read =>
    intro v
    simp only [factsOf, fullAccess, Access.mem_read_gather, List.mem_map,
      exists_exists_and_eq_and, mem_cons_reached_iff hp, mem_read_ownState]
    exact houtside
  case hasEffects => simp [factsOf]
  case isStatic =>
    rw [factsOf, Bool.and_eq_true, Bool.not_eq_true', Bool.not_eq_true', ← hrecursive]
    simp [hasLoop]

end Effects

/-- The recorded call graph and effects of a resolved program are exact, and propagation along calls
ends and finds the same effects. -/
theorem SourceUnit.effects_exact {u : SourceUnit} {p : Program} (h : u.resolve = .ok p) :
    (∀ f, f.index < p.functions.length → Effects.Exact p f (p.withEffects.function f).facts) ∧
    ∃ final, Effects.Settles p (Effects.own p) final ∧ ∀ f, f.index < p.functions.length →
      final f = ⟨(p.withEffects.function f).facts.modified, (p.withEffects.function f).facts.read⟩ := by
  have hp := resolve_scoped h
  refine ⟨fun f hf => ?_, ?_⟩
  · rw [Effects.facts_withEffects hf]
    exact Effects.exact_factsOf hp f
  · obtain ⟨final, hsettles, hbetween, hfixed⟩ :=
      Effects.exists_settles hp (Effects.own_between p)
    refine ⟨final, hsettles, fun f hf => ?_⟩
    rw [hbetween.eq_fullAccess hp hfixed, Effects.facts_withEffects hf]
    rfl

/-- Two functions that call each other, and one that calls them. -/
def SourceUnit.tossed : SourceUnit := .single "Tossed" [
  { name := "x", type := .mk (.uint 8) .all },
  { name := "y", type := .mk (.uint 8) .all }] [
  { name := "start", body := [.expr {} (.call {} "ping" [])] },
  { name := "ping"
    body := [
      .assign {} "x" none "y",
      .expr {} (.call {} "pong" [])] },
  { name := "pong"
    body := [
      .assign {} "y" none 1,
      .expr {} (.call {} "ping" [])] }]

theorem SourceUnit.effects_exact_tossed : ∃ p, tossed.resolve = .ok p ∧
    (p.withEffects.function ⟨0⟩).facts.modified = [⟨0⟩, ⟨1⟩] ∧
    Effects.Exact p ⟨0⟩ (p.withEffects.function ⟨0⟩).facts ∧
    ∃ final, Effects.Settles p (Effects.own p) final ∧
      final ⟨0⟩ = ⟨[⟨0⟩, ⟨1⟩], (p.withEffects.function ⟨0⟩).facts.read⟩ := by
  have hrun : (do
      let p ← tossed.resolve
      return (p.functions.length, (p.withEffects.function ⟨0⟩).facts.modified)) =
        Except.ok (3, [⟨0⟩, ⟨1⟩]) := by
    decide +kernel
  obtain ⟨p, hp, hfacts⟩ := bind_eq_ok.1 hrun
  obtain ⟨hlength, hmodified⟩ := Prod.mk.inj (Except.ok.inj hfacts)
  have hzero : (⟨0⟩ : FunctionId).index < p.functions.length := by
    rw [hlength]
    decide
  obtain ⟨hexact, final, hsettles, hfinal⟩ := effects_exact hp
  refine ⟨p, hp, hmodified, hexact _ hzero, final, hsettles, ?_⟩
  rw [hfinal _ hzero, hmodified]

end Shroud
