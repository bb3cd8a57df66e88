import Shroud.Proofs.CallGraph

/-! # What runs inside

Placement marks what the circuit computes. `Settled` says which marks a marked expression has, and
that the functions called inside can be held; what an `if` with a private condition contains stands
inside as a whole. A function that is held in the place of a call has no effects and can be held with
all that it reaches.
-/

namespace Shroud

namespace Placement

variable {p q : Program} {site : FunctionId} {inside : Bool}

/-! ## Marked expressions -/

/-- Whether the parts of an expression stand inside, if it does. -/
def partsInside (inside : Bool) : Expr → Bool
  | .reclassify _ _ _ _ => true
  | .index _ _ _ => false
  | _ => inside

/-- The marks of an expression that stands inside or outside. -/
inductive Settled (p : Program) : Bool → Expr → Prop
  | intro {inside : Bool} {e : Expr} (mark : e.info.inCircuit = (inside || entersCircuit e))
      (call : ∀ f ∈ e.callee?, inside = true → (p.function f).facts.canBePrivate = true)
      (parts : ∀ c ∈ e.children, Settled p (partsInside (inside || entersCircuit e) e) c) :
      Settled p inside e

namespace Settled

variable {e : Expr}

theorem mark (h : Settled p inside e) : e.info.inCircuit = (inside || entersCircuit e) := by
  cases h
  assumption

theorem part (h : Settled p inside e) {c : Expr} (hc : c ∈ e.children) :
    Settled p (partsInside (inside || entersCircuit e) e) c := by
  cases h with
  | intro _ _ parts => exact parts c hc

theorem callee (h : Settled p true e) {f : FunctionId} (hf : e.callee? = some f) :
    (p.function f).facts.canBePrivate = true := by
  cases h with
  | intro _ call _ => exact call f hf rfl

theorem inCircuit (h : Settled p true e) : e.info.inCircuit = true := by
  rw [h.mark, Bool.true_or]

theorem subterm (h : Settled p inside e) : ∀ x ∈ e.subterms, ∃ b, Settled p b x :=
  Expr.forall_subterms ⟨inside, h⟩ fun ⟨_, h⟩ _ hc => ⟨_, h.part hc⟩

/-- A marked call stands inside. -/
theorem of_marked_call {i : Expr.Info} {f : FunctionId} {args : List Expr}
    (h : Settled p inside (.call i f args)) (hi : i.inCircuit = true) :
    (p.function f).facts.canBePrivate = true := by
  obtain rfl : inside = true := by simpa [entersCircuit, hi, Expr.info] using h.mark.symm
  exact h.callee rfl

end Settled

theorem checkCall_eq_ok {span : Span} {f : FunctionId} (h : checkCall p site span f = .ok ()) :
    (p.function f).facts.canBePrivate = true := by
  unfold checkCall callFault? at h
  split_ifs at h with hrec heff hheld
  simpa using hheld

/-- Marking settles the marks. -/
theorem mark_settled (hpq : ∀ f, (p.function f).facts.canBePrivate = (q.function f).facts.canBePrivate)
    {e e' : Expr} (h : mark p site inside e = .ok e') : Settled q inside e' := by
  induction e using Expr.induct generalizing inside e' with
  | bool i b | number i n | me i | ident i v =>
    cases h
    exact .intro (by simp [Expr.info, markIf, entersCircuit]) (by rintro _ ⟨⟩) (by rintro _ ⟨⟩)
  | reclassify i x o implicit ih =>
    simp only [mark, bind_eq_ok] at h
    obtain ⟨x', hx, h⟩ := h
    cases h
    refine .intro (by simp [Expr.info, markIf, entersCircuit]) (by rintro _ ⟨⟩) fun c hc => ?_
    obtain rfl := List.mem_singleton.1 hc
    exact ih hx
  | index i base idx ihb ihi =>
    simp only [mark, bind_eq_ok] at h
    obtain ⟨base', hb, idx', hi, h⟩ := h
    cases h
    refine .intro (by simp [Expr.info, markIf, entersCircuit]) (by rintro _ ⟨⟩) ?_
    simp only [Expr.children, List.mem_cons, List.not_mem_nil, or_false, forall_eq_or_imp, forall_eq]
    exact ⟨ihb hb, ihi hi⟩
  | call i f args ih =>
    simp only [mark] at h
    obtain ⟨hcall, h⟩ := check_eq_ok h
    obtain ⟨args', ha, h⟩ := bind_eq_ok.1 h
    cases h
    refine .intro (by simp [Expr.info, markIf, entersCircuit]) ?_ fun c hc => ?_
    · rintro _ ⟨⟩ hi
      rw [← hpq]
      exact checkCall_eq_ok (hcall hi)
    · obtain ⟨x, hx, hm⟩ := (markAll_forall₂ ha).exists_left hc
      simpa [entersCircuit, partsInside] using ih x hx hm
  | builtin i op args b ih =>
    simp only [mark, bind_eq_ok] at h
    obtain ⟨args', ha, h⟩ := h
    cases h
    refine .intro (by simp [Expr.info, markIf, entersCircuit]) (by rintro _ ⟨⟩) fun c hc => ?_
    obtain ⟨x, hx, hm⟩ := (markAll_forall₂ ha).exists_left hc
    exact ih x hx hm
  | cast i t x implicit ih =>
    simp only [mark, bind_eq_ok] at h
    obtain ⟨x', hx, h⟩ := h
    cases h
    have henters : entersCircuit (.cast (markIf (inside || entersCircuit (.cast i t x implicit)) i) t x'
        implicit) = entersCircuit (.cast i t x implicit) := by
      cases implicit
      · exact (mark_marked hx).isPrivate_eq
      · rfl
    refine .intro ?_ (by rintro _ ⟨⟩) fun c hc => ?_
    · rw [henters]
      rfl
    · obtain rfl := List.mem_singleton.1 hc
      rw [henters]
      exact ih hx
  | tuple i es ih =>
    simp only [mark, bind_eq_ok] at h
    obtain ⟨es', ha, h⟩ := h
    cases h
    refine .intro (by simp [Expr.info, markIf, entersCircuit]) (by rintro _ ⟨⟩) fun c hc => ?_
    obtain ⟨x, hx, hm⟩ := (markAll_forall₂ ha).exists_left hc
    simpa [entersCircuit, partsInside] using ih x hx hm

/-! ## Marked statements -/

/-- The marks of a statement that stands inside or outside. -/
inductive SettledStmt (p : Program) : Bool → Stmt → Prop
  | intro {inside : Bool} {s : Stmt}
      (roots : ∀ r ∈ s.roots, Settled p (inside || s.isPrivateIf) r.2)
      (parts : ∀ c ∈ s.children, SettledStmt p (inside || s.isPrivateIf) c) : SettledStmt p inside s

/-- Marking settles the marks of all statements. -/
theorem markStmt_settled
    (hpq : ∀ f, (p.function f).facts.canBePrivate = (q.function f).facts.canBePrivate)
    {s s' : Stmt} (h : markStmt p site inside s = .ok s') : SettledStmt q inside s' := by
  induction s' using Stmt.induct_children generalizing s inside with
  | h s' ih =>
    have hmarks := markStmt_marks h
    refine .intro (fun r' hr' => ?_) fun t' ht' => ?_
    · obtain ⟨r, -, -, hm⟩ := hmarks.roots.exists_left hr'
      exact mark_settled hpq hm
    · obtain ⟨t, -, hm⟩ := hmarks.parts.exists_left ht'
      exact ih t' ht' hm

namespace SettledStmt

variable {s : Stmt} (h : SettledStmt p inside s)

include h

theorem root {r : Use × Expr} (hr : r ∈ s.roots) : Settled p (inside || s.isPrivateIf) r.2 := by
  cases h with
  | intro roots _ => exact roots r hr

theorem part {c : Stmt} (hc : c ∈ s.children) : SettledStmt p (inside || s.isPrivateIf) c := by
  cases h with
  | intro _ parts => exact parts c hc

/-- What stands inside a statement that runs inside runs inside. -/
theorem walk : ∀ t ∈ s.walk, ∃ b, SettledStmt p b t ∧ (inside = true → b = true) :=
  Stmt.forall_walk_of ⟨inside, h, id⟩ fun ⟨_, hb, hi⟩ _ hc =>
    ⟨_, hb.part hc, fun hin => by rw [hi hin, Bool.true_or]⟩

theorem subterm {x : Expr} (hx : x ∈ s.exprs) : ∃ b, Settled p b x := by
  obtain ⟨t, ht, r, hr, hsub⟩ := Stmt.mem_exprs_iff.1 hx
  obtain ⟨b, hb, -⟩ := h.walk t ht
  exact (hb.root hr).subterm x hsub

/-- What changes its owner is computed inside. -/
theorem reclassified {i : Expr.Info} {x : Expr} {o : Owner} {implicit : Bool}
    (hx : .reclassify i x o implicit ∈ s.exprs) : x.info.inCircuit = true := by
  obtain ⟨b, hb⟩ := h.subterm hx
  exact (hb.part (c := x) (.head _)).inCircuit

/-- Private conditions are computed inside. -/
theorem condition {t : Stmt} (ht : t ∈ s.walk) (hp : t.isPrivateIf = true) :
    ∀ r ∈ t.roots, r.2.info.inCircuit = true := by
  intro r hr
  obtain ⟨b, hb, -⟩ := h.walk t ht
  have hroot := hb.root hr
  rw [hp, Bool.or_true] at hroot
  exact hroot.inCircuit

end SettledStmt

/-- The bodies of a placed program are settled. -/
theorem withPlacement_settled (h : p.withPlacement = .ok q) (f : FunctionId) :
    SettledStmt q false (q.function f).body := by
  by_cases hf : q.Has f
  · obtain ⟨r, s, hheld, hs⟩ := withPlacement_body h hf
    exact markStmt_settled hheld hs
  · rw [Program.function_of_not_has hf]
    exact .intro nofun nofun

/-! ## Functions in the places of calls -/

/-- One function is recorded to call another. -/
abbrev Records (p : Program) (f g : FunctionId) : Prop := g ∈ (p.function f).facts.calls

variable {f g : FunctionId} {held fs : List FunctionId} {n : Nat}

theorem giveUp_sublist (held : List FunctionId) (f : FunctionId) :
    (giveUp p held f).Sublist held := by
  unfold giveUp
  split
  · exact List.erase_sublist
  · exact .refl _

theorem round_sublist (fs held : List FunctionId) : (fs.foldl (giveUp p) held).Sublist held := by
  induction fs generalizing held with
  | nil => exact .refl _
  | cons f fs ih => exact (ih _).trans (giveUp_sublist held f)

theorem settle_sublist (n : Nat) (held : List FunctionId) : (settle p n held).Sublist held := by
  induction n generalizing held with
  | zero => exact .refl _
  | succ n ih =>
    rw [settle]
    split
    · exact .refl _
    · exact (ih _).trans (round_sublist _ _)

/-- A round that gives none up finds none that calls one that has been given up. -/
theorem calls_of_round (hround : (fs.foldl (giveUp p) held).length = held.length) (hf : f ∈ fs)
    (hheld : f ∈ held) (hg : Records p f g) : g ∈ held := by
  induction fs generalizing held with
  | nil => cases hf
  | cons k fs ih =>
    have hkept : giveUp p held k = held := by
      refine (giveUp_sublist held k).eq_of_length_le ?_
      rw [← hround]
      exact (round_sublist fs _).length_le
    rw [List.foldl_cons, hkept] at hround
    rcases List.mem_cons.1 hf with rfl | hf
    · by_contra hnot
      have hcalls : (held.contains f && (p.function f).facts.calls.any fun g => !held.contains g) =
          true := by
        simpa [hheld] using ⟨g, hg, hnot⟩
      rw [giveUp, if_pos hcalls] at hkept
      have hlength := List.length_erase_of_mem hheld
      have hpos := List.length_pos_of_mem hheld
      rw [hkept] at hlength
      omega
    · exact ih hround hf hheld

/-- What is left calls only what is left. -/
theorem settle_closed (hn : held.length ≤ n) (hsub : held ⊆ p.functionIds)
    (hf : f ∈ settle p n held) (hg : Records p f g) : g ∈ settle p n held := by
  induction n generalizing held with
  | zero =>
    rw [List.length_eq_zero_iff.1 (Nat.le_zero.1 hn)] at hf
    cases hf
  | succ n ih =>
    rw [settle] at hf ⊢
    split at hf
    · rename_i hround
      rw [if_pos hround]
      exact calls_of_round hround (hsub hf) hf hg
    · rename_i hround
      rw [if_neg hround]
      have hless := round_sublist (p := p) p.functionIds held
      have hlength := hless.length_le
      exact ih (by omega) (fun _ hk => hsub (hless.subset hk)) hf

section Greatest

variable {S : FunctionId → Prop} (hclosed : ∀ f g, Records p f g → S f → S g)
include hclosed

theorem mem_giveUp (hheld : ∀ f, S f → f ∈ held) (k : FunctionId) :
    ∀ f, S f → f ∈ giveUp p held k := by
  intro f hf
  unfold giveUp
  split
  · rename_i hk
    obtain ⟨-, g, hg, hnot⟩ : k ∈ held ∧ ∃ g ∈ (p.function k).facts.calls, g ∉ held := by
      simpa using hk
    refine (List.mem_erase_of_ne ?_).2 (hheld f hf)
    rintro rfl
    exact hnot (hheld g (hclosed f g hg hf))
  · exact hheld f hf

theorem mem_round (hheld : ∀ f, S f → f ∈ held) (fs : List FunctionId) :
    ∀ f, S f → f ∈ fs.foldl (giveUp p) held := by
  induction fs generalizing held with
  | nil => exact hheld
  | cons k fs ih => exact ih (mem_giveUp hclosed hheld k)

/-- Functions that call only one another are never given up. -/
theorem mem_settle (hheld : ∀ f, S f → f ∈ held) (n : Nat) : ∀ f, S f → f ∈ settle p n held := by
  induction n generalizing held with
  | zero => exact hheld
  | succ n ih =>
    rw [settle]
    split
    · exact hheld
    · exact ih (mem_round hclosed hheld _)

end Greatest

/-- A function can be held if a circuit can hold it and all that its calls lead to. -/
theorem canBePrivate_recordHeld (hf : p.Has f) :
    ((recordHeld p).function f).facts.canBePrivate = true ↔
      ∀ g, Relation.ReflTransGen (Records p) f g → p.Has g ∧
        holdsOwn p (p.function g) = true := by
  have hown : ∀ {g}, g ∈ p.functionIds.filter (fun f => holdsOwn p (p.function f)) ↔
      p.Has g ∧ holdsOwn p (p.function g) = true := by
    simp [mem_functionIds]
  rw [recordHeld, Program.function_mapFunctions hf]
  change (heldFunctions p).contains f = true ↔ _
  rw [List.contains_iff_mem]
  constructor
  · intro hheld g hg
    suffices hmem : g ∈ heldFunctions p from hown.1 ((settle_sublist _ _).subset hmem)
    induction hg with
    | refl => exact hheld
    | tail _ hcall ih =>
      refine settle_closed ?_ List.filter_sublist.subset ih hcall
      simpa [Program.functionIds] using List.length_filter_le _ p.functionIds
  · intro hall
    let S f := ∀ g, Relation.ReflTransGen (Records p) f g → p.Has g ∧ holdsOwn p (p.function g) = true
    have hclosed : ∀ f g, Records p f g → S f → S g := fun k g hkg hk m hm => hk m (hm.head hkg)
    exact mem_settle hclosed (fun k hk => hown.2 (hk k .refl)) _ f hall

theorem withPlacement_canBePrivate (h : p.withPlacement = .ok q)
    (hf : q.Has f) : (q.function f).facts.canBePrivate = true ↔
      ∀ g, Relation.ReflTransGen (Records p) f g → p.Has g ∧
        holdsOwn p (p.function g) = true := by
  have hhas := (withPlacement_placed h).alike.has (f := f)
  obtain ⟨r, hr, -, rfl, -⟩ := withPlacement_eq_ok h
  obtain ⟨-, -, -, hfacts⟩ := markFunctions_placed hr (nodup_functionIds _)
    fun g hg => mem_functionIds.1 hg
  rw [canBePrivate_recordVerified, hfacts, canBePrivate_recordHeld (hhas.1 hf)]

end Placement

/-- What is known of a function that a circuit can hold. -/
structure Program.Holdable (p : Program) (f : FunctionId) : Prop where
  declared : f.index < p.functions.length
  effects : (p.function f).facts.hasEffects = false
  modified : p.modified f = []
  acyclic : ¬ Relation.TransGen p.Calls f f
  calls : ∀ {g}, p.Calls f g → (p.function g).facts.canBePrivate = true

/-- A function that can be held has no effects, and neither has anything that it calls. -/
theorem SourceUnit.check_holdable {u : SourceUnit} {q : Program} (h : Passes u.check q)
    {f : FunctionId} (hheld : (q.function f).facts.canBePrivate = true) : q.Holdable f := by
  obtain ⟨p, r, hp, hq, -, -, hfacts, -⟩ := check_typed h
  obtain ⟨hcalls, hhas, hreached⟩ := check_reached hp h
  have hscoped := resolve_scoped hp
  have hplaced := Placement.withPlacement_placed hq
  have hf : q.Has f := by
    by_contra hf
    rw [Program.function_of_not_has hf] at hheld
    cases hheld
  have hall := (Placement.withPlacement_canBePrivate hq hf).1 hheld
  have hown := (hall f .refl).2
  simp only [Placement.holdsOwn, Bool.and_eq_true, Bool.not_eq_true', List.all_eq_true] at hown
  obtain ⟨⟨⟨⟨⟨⟨-, heffects⟩, hrecursive⟩, -⟩, -⟩, -⟩, -⟩ := hown
  refine ⟨hf, ?_, ?_, fun hcycle => ?_, fun {g} hg => ?_⟩
  · rw [hplaced.facts f]
    exact heffects
  · have hq := ((check_annotated hp h).2 f).1
    rw [Program.modified, hq]
    refine Effects.modified_of_hasEffects ?_
    rw [← hfacts f]
    exact heffects
  · have hrec : (q.function f).facts.isRecursive = false := by
      rw [hplaced.facts f]
      exact hrecursive
    rw [hcalls] at hcycle
    rw [(hreached (hhas.1 hf)).2] at hrec
    simp [Effects.mem_reached_of_transGen hscoped hcycle] at hrec
  · -- what a callee's calls lead to, the caller's lead to
    have hcall : Placement.Records r f g := by
      rw [hcalls] at hg
      rw [Placement.Records, hfacts, Effects.calls_withEffects]
      exact hg
    have hgq : q.Has g := hplaced.alike.has.2 (hall g (.single hcall)).1
    exact (Placement.withPlacement_canBePrivate hq hgq).2 fun k hk => hall k (hk.head hcall)

end Shroud
