import Shroud.Proofs.Checked

/-! # Assignments to final variables

The rule for final variables lets only a constructor assign them, and not in a loop. So neither a
function that is called nor a loop ever changes one.
-/

namespace Shroud

variable {I : Info → Info → Prop} {p q : Program}

/-- The statements that a loop repeats. -/
def Stmt.repeated : Stmt → List Stmt
  | loop _ _ body | doLoop _ body _ => [body]
  | forLoop _ _ _ update body => body :: update.toList
  | _ => []

theorem Stmt.mem_children_of_mem_repeated (s : Stmt) {c : Stmt} (h : c ∈ s.repeated) :
    c ∈ s.children := by
  cases s with
  | loop _ _ _ | doLoop _ _ _ => exact h
  | forLoop _ _ _ _ _ => exact List.mem_append_right _ h
  | _ => cases h

namespace FinalRule

variable {env : Env} {a b : Assigned} {s : Stmt}

/-- No final variable may be assigned. -/
def Env.isClosed (env : Env) : Bool := env.inLoop || !env.isConstructor

theorem isFinal_of_write {span : Span} {v : VarId} (h : write env span v a = .ok b)
    (henv : env.isClosed = true) : (env.program.var v).isFinal = false := by
  by_contra hfinal
  rw [Bool.not_eq_false] at hfinal
  simp only [Env.isClosed, Bool.or_eq_true, Bool.not_eq_eq_eq_not, Bool.not_true] at henv
  simp only [write, hfinal, Bool.not_true, Bool.false_eq_true, if_false] at h
  split_ifs at h
  simp_all

theorem stmtOption_mem {o : Option Stmt} (h : stmtOption env o a = .ok b) :
    ∀ s ∈ o, ∃ b', stmt env s a = .ok b' := by
  rintro s rfl
  exact ⟨b, h⟩

theorem stmts_mem {ss : List Stmt} (h : stmts env ss a = .ok b) :
    ∀ s ∈ ss, ∃ a' b', stmt env s a' = .ok b' := by
  induction ss generalizing a with
  | nil => simp
  | cons s ss ih =>
    rw [stmts] at h
    obtain ⟨a', hs, hss⟩ := bind_eq_ok.1 h
    exact List.forall_mem_cons.2 ⟨⟨a, a', hs⟩, ih hss⟩

/-- What a loop repeats is checked as part of a loop. -/
theorem stmt_repeated (h : stmt env s a = .ok b) :
    ∀ c ∈ s.repeated, ∃ a' b', stmt { env with inLoop := true } c a' = .ok b' := by
  intro c hc
  cases s with
  | loop i e body | doLoop i body e =>
    obtain rfl := List.mem_singleton.1 hc
    rw [stmt] at h
    obtain ⟨_, -, h⟩ := bind_eq_ok.1 h
    exact ⟨a, b, h⟩
  | forLoop i init e update body =>
    rw [stmt] at h
    obtain ⟨_, -, h⟩ := bind_eq_ok.1 h
    obtain ⟨a₁, -, h⟩ := bind_eq_ok.1 h
    obtain ⟨a₂, hbody, hupdate⟩ := bind_eq_ok.1 h
    rcases List.mem_cons.1 hc with rfl | hc
    · exact ⟨a₁, a₂, hbody⟩
    · obtain ⟨b', hc⟩ := stmtOption_mem hupdate c (Option.mem_toList.1 hc)
      exact ⟨a₂, b', hc⟩
  | _ => cases hc

/-- The statements inside a checked one are checked, and in a loop if it is in one. -/
theorem stmt_children (h : stmt env s a = .ok b) : ∀ c ∈ s.children, ∃ l a' b',
    (env.inLoop = true → l = true) ∧ stmt { env with inLoop := l } c a' = .ok b' := by
  intro c hc
  have hrepeated : c ∈ s.repeated → ∃ l a' b', (env.inLoop = true → l = true) ∧
      stmt { env with inLoop := l } c a' = .ok b' := by
    intro hc
    obtain ⟨a', b', hc⟩ := stmt_repeated h c hc
    exact ⟨true, a', b', fun _ => rfl, hc⟩
  cases s with
  | block i body =>
    rw [stmt] at h
    obtain ⟨_, -, h⟩ := bind_eq_ok.1 h
    obtain ⟨a', b', hc⟩ := stmts_mem h c hc
    exact ⟨env.inLoop, a', b', id, hc⟩
  | cond i e yes no =>
    rw [stmt] at h
    obtain ⟨_, -, h⟩ := bind_eq_ok.1 h
    obtain ⟨inYes, hyes, h⟩ := bind_eq_ok.1 h
    obtain ⟨inNo, hno, -⟩ := bind_eq_ok.1 h
    rcases List.mem_cons.1 hc with rfl | hc
    · exact ⟨env.inLoop, a, inYes, id, hyes⟩
    · obtain ⟨b', hc⟩ := stmtOption_mem hno c (Option.mem_toList.1 hc)
      exact ⟨env.inLoop, a, b', id, hc⟩
  | loop i e body | doLoop i body e => exact hrepeated hc
  | forLoop i init e update body =>
    rw [Stmt.children, List.mem_append] at hc
    rcases hc with hc | hc
    · rw [stmt] at h
      obtain ⟨_, -, h⟩ := bind_eq_ok.1 h
      obtain ⟨a₁, hinit, -⟩ := bind_eq_ok.1 h
      obtain ⟨b', hc⟩ := stmtOption_mem hinit c (Option.mem_toList.1 hc)
      exact ⟨env.inLoop, a, b', id, hc⟩
    · exact hrepeated hc
  | _ => cases hc

/-- All parts of a checked statement are checked. -/
theorem stmt_walk (h : stmt env s a = .ok b) : ∀ t ∈ s.walk, ∃ l a' b',
    (env.inLoop = true → l = true) ∧ stmt { env with inLoop := l } t a' = .ok b' := by
  refine Stmt.forall_walk_of ⟨env.inLoop, a, b, id, h⟩ ?_
  rintro s ⟨l, a', b', hl, hs⟩ c hc
  obtain ⟨l', a'', b'', hl', hc'⟩ := stmt_children hs c hc
  exact ⟨l', a'', b'', hl' ∘ hl, hc'⟩

/-- Where no final variable may be assigned, none is. -/
theorem isFinal_of_assign (h : stmt env s a = .ok b) (henv : env.isClosed = true) {i : Stmt.Info}
    {j : Expr.Info} {v : VarId} {rhs : Expr} (ht : .assign i (.ident j v) rhs ∈ s.walk) :
    (env.program.var v).isFinal = false := by
  obtain ⟨l, a', b', hl, ht⟩ := stmt_walk h _ ht
  rw [stmt] at ht
  obtain ⟨_, -, ht⟩ := bind_eq_ok.1 ht
  have hclosed : Env.isClosed { env with inLoop := l } = true := by
    simp only [Env.isClosed, Bool.or_eq_true] at henv ⊢
    exact henv.imp hl id
  exact @isFinal_of_write { env with inLoop := l } _ _ _ _ ht hclosed

theorem functions_mem {fs : List FunctionId} (h : functions p fs a = .ok b) :
    ∀ f ∈ fs, ∃ a' b', stmt { program := p, id := f } (p.function f).body a' = .ok b' := by
  induction fs generalizing a with
  | nil => simp
  | cons f fs ih =>
    rw [functions] at h
    obtain ⟨after, hf, hfs⟩ := bind_eq_ok.1 h
    exact List.forall_mem_cons.2 ⟨⟨a, after, hf⟩, ih hfs⟩

end FinalRule

/-- Called functions and loops assign no final variable. -/
structure Program.KeepsFinals (p : Program) : Prop where
  called : ∀ f, f.index < p.functions.length → (p.function f).isConstructor = false →
    ∀ i j v rhs, .assign i (.ident j v) rhs ∈ (p.function f).body.walk → (p.var v).isFinal = false
  repeated : ∀ f, f.index < p.functions.length → ∀ t ∈ (p.function f).body.walk, ∀ c ∈ t.repeated,
    ∀ i j v rhs, .assign i (.ident j v) rhs ∈ c.walk → (p.var v).isFinal = false

theorem Program.checkFinal_keepsFinals (hp : p.Scoped) (h : p.checkFinal = .ok ()) :
    p.KeepsFinals := by
  have hbody : ∀ f, p.Has f → ∃ a b,
      FinalRule.stmt { program := p, id := f } (p.function f).body a = .ok b := by
    intro f hf
    obtain ⟨hc, hmem⟩ := hp.mem f hf
    have hid : (p.function f).contract ∈ p.contractIds :=
      List.mem_map.2 ⟨_, List.mem_range.2 hc, rfl⟩
    obtain ⟨a, hfs, -⟩ := bind_eq_ok.1 (forM_eq_ok h _ hid)
    exact FinalRule.functions_mem hfs f hmem
  constructor
  · intro f hf hctor i j v rhs ht
    obtain ⟨a, b, hs⟩ := hbody f hf
    refine FinalRule.isFinal_of_assign hs ?_ ht
    simp [FinalRule.Env.isClosed, FinalRule.Env.isConstructor, hctor]
  · intro f hf t ht c hc i j v rhs hassign
    obtain ⟨a, b, hs⟩ := hbody f hf
    obtain ⟨l, a', b', -, ht'⟩ := FinalRule.stmt_walk hs t ht
    obtain ⟨a'', b'', hc'⟩ := FinalRule.stmt_repeated ht' c hc
    exact FinalRule.isFinal_of_assign hc' rfl hassign

/-! ## Checked programs -/

theorem Stmt.Alike.repeated {R : Expr → Expr → Prop} {s s' : Stmt} (h : Alike I R s s') :
    List.Forall₂ (Alike I R) s.repeated s'.repeated := by
  cases h with
  | loop _ _ hb | doLoop _ hb _ => exact .cons hb .nil
  | forLoop _ _ _ hu hb => exact .cons hb hu.forall₂
  | _ => exact .nil

/-- Implicit conversions bring no new assignments to variables. -/
theorem Stmt.exists_assign {s s' : Stmt} (hs : ∀ t ∈ s.walk, ∀ r ∈ t.roots, r.2.Written)
    (h : Alike I (fun e e' => e'.plain = e.plain) s s') {i : Info} {j : Expr.Info} {v : VarId}
    {rhs : Expr} (ht : .assign i (.ident j v) rhs ∈ s'.walk) :
    ∃ i' j' rhs', .assign i' (.ident j' v) rhs' ∈ s.walk := by
  obtain ⟨t, ht, htt⟩ := h.walk.exists_left ht
  cases htt with
  | @assign i' _ lhs _ rhs' _ _ hl _ =>
    have hw : lhs.Written := hs _ ht (.target, lhs) (by simp [Stmt.roots])
    rw [hw.plain_eq] at hl
    subst hl
    exact ⟨i', _, rhs', ht⟩

theorem Program.KeepsFinals.congr {I : Stmt.Info → Stmt.Info → Prop} (hp : p.KeepsFinals)
    (hw : p.Written) (h : Program.Alike I (fun e e' => e'.plain = e.plain) p q) :
    q.KeepsFinals where
  called f hf hctor i j v rhs ht := by
    rw [h.length] at hf
    rw [h.isConstructor_eq] at hctor
    obtain ⟨i', j', rhs', ht⟩ := Stmt.exists_assign
      (fun t => (hw _ (function_mem hf)).roots) (h.body f hf) ht
    exact (h.isFinal_eq v).trans (hp.called f hf hctor i' j' v rhs' ht)
  repeated f hf t' ht' c' hc' i j v rhs hassign := by
    rw [h.length] at hf
    obtain ⟨t, ht, htt⟩ := (h.body f hf).walk.exists_left ht'
    obtain ⟨c, hc, hcc⟩ := htt.repeated.exists_left hc'
    have hwalk : c ∈ (p.function f).body.walk := Stmt.mem_walk_trans
      (Stmt.mem_walk_of_mem_children (t.mem_children_of_mem_repeated hc)) ht
    obtain ⟨i', j', rhs', hassign⟩ := Stmt.exists_assign
      (fun t ht => (hw _ (function_mem hf)).roots (Stmt.mem_walk_trans ht hwalk)) hcc hassign
    exact (h.isFinal_eq v).trans (hp.repeated f hf t ht c hc i' j' v rhs' hassign)

/-- Called functions and loops of a checked program assign no final variable. -/
theorem SourceUnit.check_keepsFinals {u : SourceUnit} (h : Passes u.check q) : q.KeepsFinals := by
  obtain ⟨p, r, hp, hfinal, hr, -⟩ := check_stages h
  refine (Program.checkFinal_keepsFinals (withTypes_typed hp hr).1 hfinal).congr ?_
    (check_annotated hp h).1
  exact ((resolve_written hp).congr (Effects.withEffects_alike p)).congr
    (Program.withAliases_alike p.withEffects)

/-! ## Fixed variables -/

namespace Typing

/-- Targets are written as they are. -/
theorem IsTarget.targets_plain {e : Expr} (h : IsTarget p e) : e.plain.targets = e.targets := by
  induction h with
  | ident _ => rfl
  | index _ ih => exact ih
  | @tuple i es _ ih =>
    rw [Expr.plain, Expr.targets, Expr.targets, Expr.targetsList_eq_flatMap,
      Expr.targetsList_eq_flatMap, Expr.plainList_eq_map, List.flatMap_map]
    exact List.flatMap_congr ih

/-- The base of an index is a table. -/
theorem Typed.index_base {env : Env} {i : Expr.Info} {base idx : Expr}
    (h : Typed env (.index i base idx)) : Typed env base ∧
      base.type.type.isPrimitive = false ∧ ∀ ts, base.type.type ≠ .tuple ts := by
  cases h with
  | entry hb _ hm _ _ _ | element hb _ hm _ _ _ =>
    rw [hm]
    exact ⟨hb, rfl, nofun⟩

/-- A variable with a single value is stored into as a whole. -/
theorem IsTarget.eq_ident {env : Env} {e : Expr} (h : IsTarget env.program e) (ht : Typed env e)
    {v : VarId} (hv : v ∈ e.targets) (hprim : (env.program.var v).type.type.isPrimitive = true)
    (htuple : ∀ i es, e ≠ .tuple i es) :
    ∃ j, e = .ident j v ∧ (env.program.var v).isConstant = false := by
  induction h with
  | @ident j w hw =>
    obtain rfl := List.mem_singleton.1 hv
    exact ⟨j, rfl, hw⟩
  | @index i base idx hb ih =>
    obtain ⟨hbt, htable, hnot⟩ := ht.index_base
    obtain ⟨j, rfl, -⟩ := ih hbt hv (by
      rintro j es rfl
      cases hbt with
      | tuple _ h => exact hnot _ (congrArg OwnedType.type h.type_eq))
    cases hbt with
    | ident h =>
      rw [h.type_eq, hprim] at htable
      cases htable
  | tuple _ _ => exact (htuple _ _ rfl).elim

end Typing

namespace Program

/-- No statement of the program assigns to a tuple. -/
def AssignsSingly (p : Program) : Prop := ∀ f, f.index < p.functions.length → ∀ i j es rhs,
  Stmt.assign i (.tuple j es) rhs ∉ (p.function f).body.walk

variable {p : Program} {f : FunctionId} {v : VarId}

/-- Storing into a variable with a single value is assigning it. -/
theorem Checked.eq_assign (hp : p.Checked) (hsingle : p.AssignsSingly)
    (hf : p.Has f) {t : Stmt} (ht : t ∈ (p.function f).body.walk)
    (hv : v ∈ t.targets) (hprim : (p.var v).type.type.isPrimitive = true) :
    ∃ i j rhs, t = .assign i (.ident j v) rhs ∧ (p.var v).isConstant = false := by
  have hobeys := (hp.types.function f hf).body t ht
  cases t with
  | assign i lhs rhs =>
    obtain ⟨hlhs, htarget, -⟩ := hobeys
    obtain ⟨j, rfl, hconst⟩ := htarget.eq_ident hlhs hv hprim (by
      rintro j es rfl
      exact hsingle f hf i j es rhs ht)
    exact ⟨i, j, rhs, rfl, hconst⟩
  | _ => cases hv

/-- A loop changes no fixed variable that it does not declare. -/
theorem Checked.not_targets_repeated (hp : p.Checked) (hfinals : p.KeepsFinals)
    (hsingle : p.AssignsSingly) (hf : p.Has f) {t c : Stmt}
    (ht : t ∈ (p.function f).body.walk) (hc : c ∈ t.repeated)
    (hprim : (p.var v).type.type.isPrimitive = true) (hfixed : (p.var v).isFixed = true) :
    ∀ u ∈ c.walk, v ∉ u.targets := by
  intro u hu hv
  have hcwalk : c ∈ (p.function f).body.walk := Stmt.mem_walk_trans
    (Stmt.mem_walk_of_mem_children (t.mem_children_of_mem_repeated hc)) ht
  obtain ⟨i, j, rhs, rfl, hconst⟩ :=
    hp.eq_assign hsingle hf (Stmt.mem_walk_trans hu hcwalk) hv hprim
  have hfinal := hfinals.repeated f hf t ht c hc i j v rhs hu
  simp [Variable.isFixed, hconst, hfinal] at hfixed

end Program

namespace SourceUnit

variable {u : SourceUnit} {q : Program} {f : FunctionId} {v : VarId}

/-- The state that a function is recorded to write is stored into by it or by a function that can
be called. -/
theorem check_modified (h : Passes u.check q) (hf : q.Has f)
    (hv : v ∈ q.modified f) : ∃ g, q.Has g ∧
      (g = f ∨ (q.function g).isConstructor = false) ∧
      ∃ t ∈ (q.function g).body.walk, v ∈ t.targets := by
  obtain ⟨p, -, hp, -⟩ := check_stages h
  have halike := check_alike hp h
  have hscoped := resolve_scoped hp
  have hcalled : ∀ g, ∀ k ∈ Effects.calls (p.function g).body,
      p.Has k ∧ (p.function k).isConstructor = false := by
    intro g k hk
    obtain ⟨-, hlt, hctor, -⟩ := Effects.called_of_scoped hscoped hk
    exact ⟨hlt, hctor⟩
  rw [Program.modified, ((check_annotated hp h).2 f).1] at hv
  rw [halike.has] at hf
  obtain ⟨g, hg, -, t, ht, hvt⟩ := (Effects.mem_modified_withEffects hf).1 hv
  have hgp : p.Has g ∧ (g = f ∨ (p.function g).isConstructor = false) := by
    rcases List.mem_cons.1 hg with rfl | hg
    · exact ⟨hf, .inl rfl⟩
    · obtain ⟨hlt, hctor⟩ := Effects.reached_induct hcalled g hg
      exact ⟨hlt, .inr hctor⟩
  obtain ⟨t', ht', htt⟩ := (halike.body g hgp.1).walk.exists_right ht
  refine ⟨g, halike.has.2 hgp.1, hgp.2.imp_right fun hc => by rwa [halike.isConstructor_eq],
    t', ht', ?_⟩
  cases htt with
  | @assign _ _ lhs lhs' _ _ _ hl _ =>
    have hlt : q.Has g := halike.has.2 hgp.1
    obtain ⟨-, htarget, -⟩ := ((check_checked h).types.function g hlt).body _ ht'
    have hw : lhs.Written := (resolve_written hp _ (Program.function_mem hgp.1)).roots ht
      (.target, lhs) (by simp [Stmt.roots])
    rw [Stmt.targets, ← htarget.targets_plain, hl, hw.plain_eq]
    exact hvt
  | _ => cases hvt

/-- A function that can be called changes no fixed variable with a single value. -/
theorem check_not_modified (h : Passes u.check q) (hsingle : q.AssignsSingly)
    (hf : q.Has f) (hctor : (q.function f).isConstructor = false)
    (hprim : (q.var v).type.type.isPrimitive = true) (hfixed : (q.var v).isFixed = true) :
    v ∉ q.modified f := by
  intro hv
  obtain ⟨g, hg, hgf, t, ht, hvt⟩ := check_modified h hf hv
  have hgctor : (q.function g).isConstructor = false := by
    rcases hgf with rfl | hg
    · exact hctor
    · exact hg
  obtain ⟨i, j, rhs, rfl, hconst⟩ := (check_checked h).eq_assign hsingle hg ht hvt hprim
  have hfinal := (check_keepsFinals h).called g hg hgctor i j v rhs ht
  simp [Variable.isFixed, hconst, hfinal] at hfixed

end SourceUnit

end Shroud
