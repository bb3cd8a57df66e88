import Mathlib.Data.List.GetD
import Shroud.Proofs.Scope

/-! # What name resolution guarantees

Every function of a resolved program is scoped: see `Program.Scoped`.
-/

namespace Shroud

namespace Scope

variable {s' s : State} {env : Env} {v : VarId} {c : Source.Contract} {span : Span}
  {vs : List VarId} {name : String} {p q : Program} {xs : List Source.StateVar} {x : Source.Param}

/-- The variables of some frames. -/
def visible (frames : List Frame) : List VarId := frames.flatMap fun f => f.map Prod.snd

/-- The functions that can be called. -/
def Env.functions (env : Env) : List FunctionId := env.callable.map fun c => c.2.1

/-- A function can be called with so many arguments. -/
def Env.Takes (env : Env) (a : FunctionId × Nat) : Prop := ∃ name, (name, a.1, a.2) ∈ env.callable

theorem mem_visible_of_lookup? {frames : List Frame} (h : lookup? frames name = some v) :
    v ∈ visible frames := by
  obtain ⟨f, hf, hv⟩ := List.exists_of_findSome?_eq_some h
  obtain ⟨l, r, rfl, -⟩ := List.lookup_eq_some_iff.1 hv
  exact List.mem_flatMap.2 ⟨_, hf, by simp⟩

/-! ## Types -/

mutual

theorem dataType_declarable {env : Env} {frames : List Frame} {span : Span} :
    ∀ {t : Source.DataType} {t' : DataType}, dataType env frames span t = .ok t' → t'.IsDeclarable
  | .bool, _, h | .address, _, h | .addressPayable, _, h => by cases h; trivial
  | .uint bits, _, h | .int bits, _, h => by
    simp only [dataType] at h
    split at h <;> cases h
    trivial
  | .mapping k label v, _, h => by
    obtain ⟨k', hk, h⟩ := bind_eq_ok.1 h
    obtain ⟨v', hv, h⟩ := bind_eq_ok.1 h
    cases h
    exact ⟨dataType_declarable hk, ownedType_declarable hv⟩
  | .array elem len, _, h => by
    obtain ⟨e', he, h⟩ := bind_eq_ok.1 h
    cases h
    exact ownedType_declarable he

theorem ownedType_declarable {env : Env} {frames : List Frame} {label : Option String}
    {span : Span} : ∀ {t : Source.OwnedType} {t' : OwnedType},
    ownedType env frames label span t = .ok t' → t'.IsDeclarable
  | .mk t o, _, h => by
    obtain ⟨t', ht, h⟩ := bind_eq_ok.1 h
    obtain ⟨o', ho, h⟩ := bind_eq_ok.1 h
    cases h
    exact dataType_declarable ht

end

theorem declaredType_iff {t : Source.OwnedType} {t' : OwnedType} :
    Yields (declaredType env t span) s t' s' ↔
      ownedType env s.frames none span t = .ok t' ∧ s' = s := by
  simp [declaredType, and_comm]

/-! ## Expressions -/

theorem callee_takes {k : Nat} {f : FunctionId} (h : callee env name k span = .ok f) :
    env.Takes (f, k) := by
  unfold callee at h
  split at h <;> cases h
  rename_i n arity heq
  obtain ⟨hmem, htest⟩ := List.mem_filter.1 (heq ▸ List.mem_singleton_self _)
  obtain rfl : arity = k := by simp at htest; exact htest.2
  exact ⟨n, hmem⟩

/-- The expression is as it was written, and calls functions with the arguments that these take. -/
def Env.Resolved (env : Env) (e : Expr) : Prop :=
  e.Applies env.Takes ∧ e.IsSaturated ∧ e.Written

/-- An expression is resolved if its parts are, and what it says itself. -/
theorem resolved_of_children {frames : List Frame} {e : Expr}
    (hv : ∀ v ∈ e.ident?, v ∈ visible frames) (ha : ∀ a ∈ e.application?, env.Takes a)
    (hs : e.IsSaturated) (hw : e.IsWritten)
    (h : ∀ c ∈ e.children, c.Within (visible frames) env.functions ∧ env.Resolved c) :
    e.Within (visible frames) env.functions ∧ env.Resolved e := by
  refine ⟨Expr.within_iff.2 ⟨hv, fun f hf => ?_, fun c hc => (h c hc).1⟩,
    Expr.applies_iff.2 ⟨ha, fun c hc => (h c hc).2.1⟩, hs,
    Expr.written_iff.2 ⟨hw, fun c hc => (h c hc).2.2⟩⟩
  cases e with
  | call i g args =>
    cases hf
    obtain ⟨n, hn⟩ := ha _ rfl
    exact List.mem_map.2 ⟨_, hn, rfl⟩
  | _ => cases hf

mutual

/-- A resolved expression mentions only what is visible. -/
theorem expr_within {env : Env} {frames : List Frame} :
    ∀ {e : Source.Expr} {e' : Expr}, expr env frames e = .ok e' →
      e'.Within (visible frames) env.functions ∧ env.Resolved e'
  | .bool _ _, _, h | .number _ _, _, h | .me _, _, h => by
    cases h
    exact resolved_of_children nofun nofun trivial rfl nofun
  | .ident _ name, _, h => by
    simp only [expr] at h
    split at h <;> cases h
    rename_i v hv
    refine resolved_of_children ?_ nofun trivial rfl nofun
    rintro _ ⟨⟩
    exact mem_visible_of_lookup? hv
  | .builtin _ op args, _, h => by
    simp only [expr] at h
    split at h
    · cases h
    · rename_i harity
      obtain ⟨as, has, h⟩ := bind_eq_ok.1 h
      cases h
      obtain ⟨hlen, has⟩ := exprs_within has
      exact resolved_of_children nofun nofun (hlen.trans (not_not.1 harity)) ⟨rfl, rfl⟩ has
  | .call _ name args, _, h => by
    obtain ⟨f, hf, h⟩ := bind_eq_ok.1 h
    obtain ⟨as, has, h⟩ := bind_eq_ok.1 h
    cases h
    obtain ⟨hlen, has⟩ := exprs_within has
    refine resolved_of_children nofun ?_ trivial rfl has
    rintro _ ⟨⟩
    rw [hlen]
    exact callee_takes hf
  | .index _ base idx, _, h => by
    obtain ⟨b, hb, h⟩ := bind_eq_ok.1 h
    obtain ⟨i, hi, h⟩ := bind_eq_ok.1 h
    cases h
    refine resolved_of_children nofun nofun trivial rfl ?_
    simpa [Expr.children] using ⟨expr_within hb, expr_within hi⟩
  | .reveal _ e o, _, h => by
    obtain ⟨x, hx, h⟩ := bind_eq_ok.1 h
    obtain ⟨o', ho, h⟩ := bind_eq_ok.1 h
    cases h
    exact resolved_of_children nofun nofun trivial ⟨rfl, rfl⟩
      (List.forall_mem_singleton.2 (expr_within hx))
  | .cast _ t e, _, h => by
    obtain ⟨t', ht, h⟩ := bind_eq_ok.1 h
    obtain ⟨x, hx, h⟩ := bind_eq_ok.1 h
    cases h
    exact resolved_of_children nofun nofun trivial ⟨rfl, rfl, dataType_declarable ht⟩
      (List.forall_mem_singleton.2 (expr_within hx))
  | .tuple _ es, _, h => by
    obtain ⟨as, has, h⟩ := bind_eq_ok.1 h
    cases h
    exact resolved_of_children nofun nofun trivial rfl (exprs_within has).2

theorem exprs_within {env : Env} {frames : List Frame} :
    ∀ {es : List Source.Expr} {es' : List Expr}, exprs env frames es = .ok es' →
      es'.length = es.length ∧
        ∀ e ∈ es', e.Within (visible frames) env.functions ∧ env.Resolved e
  | [], _, h => by
    cases h
    exact ⟨rfl, nofun⟩
  | e :: es, _, h => by
    obtain ⟨e', he, h⟩ := bind_eq_ok.1 h
    obtain ⟨es', hes, h⟩ := bind_eq_ok.1 h
    cases h
    obtain ⟨hlen, hes⟩ := exprs_within hes
    exact ⟨by simp [hlen], List.forall_mem_cons.2 ⟨expr_within he, hes⟩⟩

end

/-- The expressions of the statement are resolved. The value of an assignment with an operator is
the operator on the target and another one. -/
def Env.ResolvedStmt (env : Env) : Stmt → Prop
  | .assign _ lhs rhs => env.Resolved lhs ∧ (env.Resolved rhs ∨
    ∃ i op value, rhs = .builtin i op [lhs, value] false ∧ env.Resolved value) ∧ rhs.Written
  | s => ∀ r ∈ s.roots, env.Resolved r.2

theorem exprHere_iff {e : Source.Expr} {e' : Expr} :
    Yields (exprHere env e) s e' s' ↔ expr env s.frames e = .ok e' ∧ s' = s := by
  simp [exprHere, and_comm]

theorem exprHere_within {e : Source.Expr} {e' : Expr} (h : Yields (exprHere env e) s e' s') :
    s' = s ∧ e'.Within (visible s.frames) env.functions ∧ env.Resolved e' := by
  obtain ⟨he, rfl⟩ := exprHere_iff.1 h
  exact ⟨rfl, expr_within he⟩

theorem exprOption_within {o : Option Source.Expr} {o' : Option Expr}
    (h : Yields (exprOption env o) s o' s') :
    s' = s ∧ (∀ e ∈ o', e.Within (visible s.frames) env.functions) ∧ ∀ e ∈ o', env.Resolved e := by
  cases o with
  | none =>
    obtain ⟨rfl, rfl⟩ := Yields.pure_iff.1 h
    exact ⟨rfl, by simp, by simp⟩
  | some e =>
    obtain ⟨e', he, rfl⟩ := Yields.bind_pure_iff.1 h
    obtain ⟨rfl, hw, hr⟩ := exprHere_within he
    refine ⟨rfl, ?_, ?_⟩
    · rintro _ ⟨⟩
      exact hw
    · rintro _ ⟨⟩
      exact hr

/-! ## Statements -/

/-- What resolution guarantees about a declared variable: its type can be declared, and its
initializer is resolved. -/
def Sound (env : Env) (x : Variable) : Prop := x.type.IsDeclarable ∧ ∀ e ∈ x.init, env.Resolved e

/-- The innermost frame has some more variables, and so many more variables were declared, all of
one kind. -/
structure Grows (env : Env) (kind : Variable.Kind) (s s' : State) (opened : List VarId)
    (count : Nat) : Prop where
  frames : ∀ f fs, s.frames = f :: fs → ∃ more, s'.frames = (more ++ f) :: fs ∧
    more.map Prod.snd = opened
  next : s'.next = s.next + count
  vars : ∃ more, s'.vars = s.vars ++ more ∧ more.length = count ∧
    ∀ x ∈ more, x.kind = kind ∧ Sound env x

namespace Grows

variable {env : Env} {k : Variable.Kind} {s s' s'' : State} {vs ws : List VarId} {m n : Nat}

theorem refl (s : State) : Grows env k s s [] 0 where
  frames f fs h := ⟨[], by simp [h], rfl⟩
  next := rfl
  vars := ⟨[], by simp⟩

theorem trans (h : Grows env k s s' vs m) (h' : Grows env k s' s'' ws n) :
    Grows env k s s'' (ws ++ vs) (m + n) where
  frames f fs hf := by
    obtain ⟨more, hm, rfl⟩ := h.frames f fs hf
    obtain ⟨more', hm', rfl⟩ := h'.frames _ _ hm
    exact ⟨more' ++ more, by simp [hm'], by simp⟩
  next := by rw [h'.next, h.next, Nat.add_assoc]
  vars := by
    obtain ⟨more, hm, hl, hk⟩ := h.vars
    obtain ⟨more', hm', hl', hk'⟩ := h'.vars
    refine ⟨more ++ more', by rw [hm', hm, List.append_assoc], by simp [hl, hl'], ?_⟩
    exact List.forall_mem_append.2 ⟨hk, hk'⟩

theorem visible_eq (h : Grows env k s s' vs n) (hf : s.frames ≠ []) :
    visible s'.frames = vs ++ visible s.frames := by
  obtain ⟨f, fs, hs⟩ := List.exists_cons_of_ne_nil hf
  obtain ⟨more, hm, rfl⟩ := h.frames f fs hs
  simp [visible, hm, hs]

theorem frames_ne_nil (h : Grows env k s s' vs n) (hf : s.frames ≠ []) : s'.frames ≠ [] := by
  obtain ⟨f, fs, hs⟩ := List.exists_cons_of_ne_nil hf
  obtain ⟨more, hm, -⟩ := h.frames f fs hs
  simp [hm]

/-- What a frame of its own held is gone after it. -/
theorem of_framed (h : Grows env k { s with frames := [] :: s.frames } s' vs n) :
    Grows env k s { s' with frames := s'.frames.tail } [] n where
  frames f fs hf := by
    obtain ⟨more, hm, -⟩ := h.frames [] s.frames rfl
    exact ⟨[], by simp [hm, hf], rfl⟩
  next := h.next
  vars := h.vars

end Grows

theorem framed_iff {α : Type} {r : Resolve α} {a : α} :
    Yields (framed r) s a s' ↔ ∃ s'', Yields r { s with frames := [] :: s.frames } a s'' ∧
      s' = { s'' with frames := s''.frames.tail } := by
  simp only [framed, Yields.bind_iff, Yields.modify_iff, Yields.pure_iff]
  constructor
  · rintro ⟨_, _, rfl, _, s'', h, _, _, rfl, rfl, rfl⟩
    exact ⟨s'', h, rfl⟩
  · rintro ⟨s'', h, rfl⟩
    exact ⟨⟨⟩, _, rfl, a, s'', h, ⟨⟩, _, rfl, rfl, rfl⟩

/-- A name that was free in the innermost frame is opened for the next identity, and records of
variables are made. -/
structure Opens (name : String) (new : List Variable) (s s' : State) (v : VarId) : Prop where
  free : (s.frames.headD []).lookup name = none
  id : v = ⟨s.next⟩
  state : s' = { frames := ((name, v) :: s.frames.headD []) :: s.frames.tail, next := s.next + 1,
                 vars := s.vars ++ new }

theorem declareName_opens (h : Yields (declareName env name span) s v s') :
    Opens name [] s s' v := by
  simp only [declareName, Yields.bind_iff, Yields.get_iff] at h
  obtain ⟨_, _, ⟨rfl, rfl⟩, h⟩ := h
  split at h
  · simp at h
  · rename_i hnone
    obtain ⟨_, _, hs, h⟩ := Yields.bind_iff.1 h
    obtain rfl := Yields.set_iff.1 hs
    obtain ⟨rfl, rfl⟩ := Yields.pure_iff.1 h
    exact ⟨Option.not_isSome_iff_eq_none.1 hnone, rfl, by rw [List.append_nil]⟩

theorem declare_opens {x : Variable} (h : Yields (declare env x) s v s') :
    Opens x.name [x] s s' v := by
  obtain ⟨_, _, hd, h⟩ := Yields.bind_iff.1 h
  obtain ⟨_, hr, rfl⟩ := Yields.bind_pure_iff.1 h
  obtain rfl := Yields.modify_iff.1 hr
  obtain ⟨hfree, rfl, rfl⟩ := declareName_opens hd
  exact ⟨hfree, rfl, by rw [List.append_nil]⟩

/-- Names are opened one after another. -/
structure OpensAll (names : List String) (new : List Variable) (s s' : State) (vs : List VarId) :
    Prop where
  free : ∀ n ∈ names, (s.frames.headD []).lookup n = none
  nodup : names.Nodup
  ids : vs = (List.range names.length).map fun i => ⟨s.next + i⟩
  next : s'.next = s.next + names.length
  vars : s'.vars = s.vars ++ new
  visible : visible s'.frames = vs.reverse ++ visible s.frames

theorem OpensAll.bounds {names : List String} {new : List Variable} (h : OpensAll names new s s' vs) :
    ∀ v ∈ vs, s.next ≤ v.index ∧ v.index < s'.next := by
  intro v hv
  rw [h.ids, List.mem_map] at hv
  obtain ⟨i, hi, rfl⟩ := hv
  rw [h.next]
  exact ⟨Nat.le_add_right _ _, Nat.add_lt_add_left (List.mem_range.1 hi) _⟩

theorem OpensAll.nodup_ids {names : List String} {new : List Variable}
    (h : OpensAll names new s s' vs) : vs.Nodup := by
  rw [h.ids]
  exact List.nodup_range.map fun i j hij => by simpa using hij

/-- No name is opened twice, and identities are given out in order. -/
theorem mapM_opens {α : Type} {r : α → Resolve VarId} {name : α → String} (records : α → List String)
    (hr : ∀ {x s v s'}, Yields (r x) s v s' →
      ∃ new, new.map Variable.name = records x ∧ Opens (name x) new s s' v) {xs : List α}
    (h : Yields (xs.mapM r) s vs s') :
    ∃ new, new.map Variable.name = xs.flatMap records ∧ OpensAll (xs.map name) new s s' vs := by
  induction xs generalizing s vs with
  | nil =>
    obtain ⟨rfl, rfl⟩ := Yields.mapM_nil_iff.1 h
    exact ⟨[], rfl, nofun, List.nodup_nil, rfl, rfl, by simp, rfl⟩
  | cons x xs ih =>
    obtain ⟨v, _, ws, hv, hws, rfl⟩ := Yields.mapM_cons_iff.1 h
    obtain ⟨first, hfirst, hfree, rfl, rfl⟩ := hr hv
    obtain ⟨new, hnew, hall⟩ := ih hws
    -- the frame in which the other names are opened holds the first one
    have hother : ∀ n ∈ xs.map name, n ≠ name x ∧ (s.frames.headD []).lookup n = none := by
      intro n hn
      have hn' := hall.free n hn
      rw [List.headD_cons, List.lookup_cons] at hn'
      split at hn'
      · cases hn'
      · rename_i hne
        exact ⟨by simpa using hne, hn'⟩
    refine ⟨first ++ new, by simp [hfirst, hnew], ?_, ?_, ?_, ?_, ?_, ?_⟩
    · exact List.forall_mem_cons.2 ⟨hfree, fun n hn => (hother n hn).2⟩
    · exact List.nodup_cons.2 ⟨fun hmem => (hother _ hmem).1 rfl, hall.nodup⟩
    · rw [hall.ids, List.map_cons, List.length_cons, List.range_succ_eq_map]
      simp [Function.comp_def, Nat.add_assoc, Nat.add_comm 1]
    · rw [hall.next, List.map_cons, List.length_cons, Nat.add_assoc, Nat.add_comm 1]
    · rw [hall.vars, List.append_assoc]
    · rw [hall.visible, List.reverse_cons, List.append_assoc]
      cases s.frames <;> rfl

theorem declare_grows {x : Variable} (ht : Sound env x) (h : Yields (declare env x) s v s') :
    v.index = s.next ∧ Grows env x.kind s s' [v] 1 := by
  obtain ⟨-, rfl, rfl⟩ := declare_opens h
  refine ⟨rfl, ⟨?_, rfl, ⟨[x], rfl, rfl, by simp [ht]⟩⟩⟩
  intro f fs hf
  exact ⟨[(x.name, ⟨s.next⟩)], by simp [hf], rfl⟩

mutual

/-- A resolved statement is scoped. Its expressions are resolved. -/
theorem stmt_scoped {env : Env} : ∀ {s : Source.Stmt} {st st' : State} {s' : Stmt},
    Yields (stmt env s) st s' st' → st.frames ≠ [] →
      s'.Scoped env.functions (visible st.frames) st.next ∧
      Grows env .local_ st st' s'.opens s'.declared.length ∧
      ∀ t ∈ s'.walk, env.ResolvedStmt t
  | .block span body, st, _, _, h, hf => by
    rw [stmt, framed_iff] at h
    obtain ⟨st'', h, rfl⟩ := h
    obtain ⟨ss, hs, rfl⟩ := Yields.bind_pure_iff.1 h
    obtain ⟨hscoped, hgrows, hres⟩ := stmts_scoped hs (List.cons_ne_nil _ _)
    refine ⟨?_, ?_, Stmt.forall_walk nofun hres⟩
    · simpa [Stmt.Scoped, visible] using hscoped
    · simpa [Stmt.opens] using hgrows.of_framed
  | .cond span c yes no, st, _, _, h, hf => by
    obtain ⟨c', _, hc, h⟩ := Yields.bind_iff.1 h
    obtain ⟨yes', st₁, hy, h⟩ := Yields.bind_iff.1 h
    obtain ⟨no', hn, rfl⟩ := Yields.bind_pure_iff.1 h
    obtain ⟨rfl, hcw, hcr⟩ := exprHere_within hc
    obtain ⟨hys, hyg, hyr⟩ := stmt_scoped hy hf
    obtain ⟨hns, hng, hnr⟩ := stmtOption_scoped hn (hyg.frames_ne_nil hf)
    rw [hyg.visible_eq hf, hyg.next] at hns
    refine ⟨⟨hcw, hys, hns⟩, ?_,
      Stmt.forall_walk (List.forall_mem_singleton.2 hcr) ?_⟩
    · simpa [Stmt.opens] using hyg.trans hng
    · exact List.forall_mem_cons.2 ⟨hyr, fun t ht => hnr t (Option.mem_toList.1 ht)⟩
  | .loop span c body, st, _, _, h, hf => by
    obtain ⟨c', _, hc, h⟩ := Yields.bind_iff.1 h
    obtain ⟨body', hb, rfl⟩ := Yields.bind_pure_iff.1 h
    obtain ⟨rfl, hcw, hcr⟩ := exprHere_within hc
    obtain ⟨hbs, hbg, hbr⟩ := stmt_scoped hb hf
    exact ⟨⟨hcw, hbs⟩, by simpa [Stmt.opens] using hbg,
      Stmt.forall_walk (List.forall_mem_singleton.2 hcr) (List.forall_mem_singleton.2 hbr)⟩
  | .doLoop span body c, st, _, _, h, hf => by
    obtain ⟨body', st₁, hb, h⟩ := Yields.bind_iff.1 h
    obtain ⟨c', hc, rfl⟩ := Yields.bind_pure_iff.1 h
    obtain ⟨rfl, hcw, hcr⟩ := exprHere_within hc
    obtain ⟨hbs, hbg, hbr⟩ := stmt_scoped hb hf
    rw [hbg.visible_eq hf] at hcw
    exact ⟨⟨hbs, hcw⟩, by simpa [Stmt.opens] using hbg,
      Stmt.forall_walk (List.forall_mem_singleton.2 hcr) (List.forall_mem_singleton.2 hbr)⟩
  | .forLoop span init c update body, st, _, _, h, hf => by
    rw [stmt, framed_iff] at h
    obtain ⟨st'', h, rfl⟩ := h
    obtain ⟨init', st₁, hi, h⟩ := Yields.bind_iff.1 h
    obtain ⟨c', _, hc, h⟩ := Yields.bind_iff.1 h
    obtain ⟨update', st₂, hu, h⟩ := Yields.bind_iff.1 h
    obtain ⟨body', hb, rfl⟩ := Yields.bind_pure_iff.1 h
    have hf₀ := List.cons_ne_nil ([] : Frame) st.frames
    obtain ⟨his, hig, hir⟩ := stmtOption_scoped hi hf₀
    have hf₁ := hig.frames_ne_nil hf₀
    obtain ⟨rfl, hcw, hcr⟩ := exprOption_within hc
    obtain ⟨hus, hug, hur⟩ := stmtOption_scoped hu hf₁
    have hf₂ := hug.frames_ne_nil hf₁
    obtain ⟨hbs, hbg, hbr⟩ := stmt_scoped hb hf₂
    rw [hug.visible_eq hf₁, hig.visible_eq hf₀, hug.next, hig.next] at hbs
    rw [hig.visible_eq hf₀] at hcw
    rw [hig.visible_eq hf₀, hig.next] at hus
    refine ⟨⟨his, hcw, hus, hbs⟩, ?_,
      Stmt.forall_walk (by simpa [Env.ResolvedStmt, Stmt.roots] using hcr)
        (Stmt.forall_children_forLoop.2 ⟨hir, hbr, hur⟩)⟩
    simp only [Stmt.opens, Stmt.declared_forLoop, List.length_append]
    rw [Nat.add_comm body'.declared.length, ← Nat.add_assoc]
    exact ((hig.trans hug).trans hbg).of_framed
  | .decl span name type isFinal init, st, _, _, h, hf => by
    obtain ⟨init', _, hi, h⟩ := Yields.bind_iff.1 h
    obtain ⟨t, _, ht, h⟩ := Yields.bind_iff.1 h
    obtain ⟨v, hd, rfl⟩ := Yields.bind_pure_iff.1 h
    obtain ⟨rfl, hiw, hir⟩ := exprOption_within hi
    obtain ⟨ht, rfl⟩ := declaredType_iff.1 ht
    obtain ⟨hv, hg⟩ := declare_grows ⟨ownedType_declarable ht, hir⟩ hd
    exact ⟨⟨hiw, hv⟩, hg,
      Stmt.forall_walk (by simpa [Env.ResolvedStmt, Stmt.roots] using hir) nofun⟩
  | .assign span lhs none rhs, st, _, _, h, hf => by
    obtain ⟨l, _, hl, h⟩ := Yields.bind_iff.1 h
    obtain ⟨r, hr, rfl⟩ := Yields.bind_pure_iff.1 h
    obtain ⟨rfl, hlw, hlr⟩ := exprHere_within hl
    obtain ⟨rfl, hrw, hrr⟩ := exprHere_within hr
    exact ⟨⟨hlw, hrw⟩, Grows.refl _, Stmt.forall_walk ⟨hlr, .inl hrr, hrr.2.2⟩ nofun⟩
  | .assign span lhs (some op) rhs, st, _, _, h, hf => by
    obtain ⟨l, _, hl, h⟩ := Yields.bind_iff.1 h
    obtain ⟨l', _, hl', h⟩ := Yields.bind_iff.1 h
    obtain ⟨r, hr, rfl⟩ := Yields.bind_pure_iff.1 h
    obtain ⟨hl, rfl⟩ := exprHere_iff.1 hl
    obtain ⟨hl', rfl⟩ := exprHere_iff.1 hl'
    obtain ⟨hr, rfl⟩ := exprHere_iff.1 hr
    -- the target is resolved twice, with the same outcome
    obtain rfl : l = l' := Except.ok.inj (hl.symm.trans hl')
    obtain ⟨hlw, hlr⟩ := expr_within hl
    obtain ⟨hrw, hrr⟩ := expr_within hr
    refine ⟨⟨hlw, Expr.within_of_children rfl rfl ?_⟩, Grows.refl _,
      Stmt.forall_walk ⟨hlr, .inr ⟨_, _, _, rfl, hrr⟩, Expr.written_iff.2 ⟨⟨rfl, rfl⟩, ?_⟩⟩ nofun⟩
    · simpa [Expr.children] using ⟨hlw, hrw⟩
    · simpa [Expr.children] using ⟨hlr.2, hrr.2⟩
  | .expr span e, st, _, _, h, hf | .require span e, st, _, _, h, hf => by
    obtain ⟨e', he, rfl⟩ := Yields.bind_pure_iff.1 h
    obtain ⟨rfl, hw, hr⟩ := exprHere_within he
    exact ⟨hw, Grows.refl _, Stmt.forall_walk (List.forall_mem_singleton.2 hr) nofun⟩
  | .ret span e, st, _, _, h, hf => by
    obtain ⟨e', he, rfl⟩ := Yields.bind_pure_iff.1 h
    obtain ⟨rfl, hw, hr⟩ := exprOption_within he
    exact ⟨hw, Grows.refl _,
      Stmt.forall_walk (by simpa [Env.ResolvedStmt, Stmt.roots] using hr) nofun⟩
  | .leave span, st, _, _, h, hf | .next span, st, _, _, h, hf => by
    obtain ⟨rfl, rfl⟩ := Yields.pure_iff.1 h
    exact ⟨trivial, Grows.refl _, Stmt.forall_walk nofun nofun⟩

theorem stmts_scoped {env : Env} : ∀ {ss : List Source.Stmt} {st st' : State} {ss' : List Stmt},
    Yields (stmts env ss) st ss' st' → st.frames ≠ [] →
      Stmt.ScopedList env.functions ss' (visible st.frames) st.next ∧
      Grows env .local_ st st' (Stmt.opensList ss') (ss'.flatMap Stmt.declared).length ∧
      ∀ s ∈ ss', ∀ t ∈ s.walk, env.ResolvedStmt t
  | [], st, _, _, h, hf => by
    obtain ⟨rfl, rfl⟩ := Yields.pure_iff.1 h
    exact ⟨trivial, Grows.refl _, nofun⟩
  | s :: ss, st, _, _, h, hf => by
    obtain ⟨s', st₁, hs, h⟩ := Yields.bind_iff.1 h
    obtain ⟨ss', hss, rfl⟩ := Yields.bind_pure_iff.1 h
    obtain ⟨hscoped, hgrows, hres⟩ := stmt_scoped hs hf
    obtain ⟨hscopeds, hgrowss, hress⟩ := stmts_scoped hss (hgrows.frames_ne_nil hf)
    rw [hgrows.visible_eq hf, hgrows.next] at hscopeds
    refine ⟨⟨hscoped, hscopeds⟩, ?_, List.forall_mem_cons.2 ⟨hres, hress⟩⟩
    simpa [Stmt.opensList] using hgrows.trans hgrowss

theorem stmtOption_scoped {env : Env} :
    ∀ {o : Option Source.Stmt} {st st' : State} {o' : Option Stmt},
    Yields (stmtOption env o) st o' st' → st.frames ≠ [] →
      Stmt.ScopedOption env.functions o' (visible st.frames) st.next ∧
      Grows env .local_ st st' (Stmt.opensOption o') (Stmt.declaredOption o').length ∧
      ∀ s ∈ o', ∀ t ∈ s.walk, env.ResolvedStmt t
  | none, st, _, _, h, hf => by
    obtain ⟨rfl, rfl⟩ := Yields.pure_iff.1 h
    exact ⟨trivial, Grows.refl _, nofun⟩
  | some s, st, _, _, h, hf => by
    obtain ⟨s', hs, rfl⟩ := Yields.bind_pure_iff.1 h
    obtain ⟨hscoped, hgrows, hres⟩ := stmt_scoped hs hf
    refine ⟨hscoped, by simpa [Stmt.opensOption] using hgrows, ?_⟩
    rintro _ ⟨⟩
    exact hres

end

/-- A resolved statement is as it was written. -/
theorem written_of_resolved {s : Stmt} (h : ∀ t ∈ s.walk, env.ResolvedStmt t) : s.Written := by
  induction s using Stmt.induct_children with
  | h s ih =>
    have hself := h s (Stmt.mem_walk_self s)
    refine .of_parts rfl trivial (List.forall₂_same.2 fun r hr => ⟨rfl, ?_⟩)
      (List.forall₂_same.2 fun c hc => ih c hc fun t ht =>
        h t (Stmt.mem_walk_iff.2 (.inr ⟨c, hc, ht⟩)))
    cases s with
    | assign i lhs rhs =>
      obtain rfl | rfl : r = (.target, lhs) ∨ r = (.value, rhs) := by simpa [Stmt.roots] using hr
      · exact hself.1.2.2
      · exact hself.2.2
    | _ => exact (hself r hr).2.2

/-! ## Functions -/

/-- Identities are given out in step with records. -/
def Aligned (s : State) : Prop := s.vars.length = s.next

namespace Grows

variable {env : Env} {k : Variable.Kind} {s s' : State} {vs : List VarId} {n : Nat}

theorem aligned (h : Grows env k s s' vs n) (ha : Aligned s) : Aligned s' := by
  obtain ⟨more, hm, hl, -⟩ := h.vars
  rw [Aligned, hm, List.length_append, hl, h.next, ha]

/-- A variable with a new identity is of the kind that was declared. -/
theorem hasKind (h : Grows env k s s' vs n) (ha : Aligned s) (hlo : s.next ≤ v.index)
    (hhi : v.index < s'.next) : Variable.HasKind s'.vars k v := by
  obtain ⟨more, hm, hl, hk⟩ := h.vars
  rw [hm]
  refine Variable.hasKind_append_right (fun x hx => (hk x hx).1) (ha ▸ hlo) ?_
  rwa [ha, hl, ← h.next]

end Grows

theorem param_grows (h : Yields (param env x) s v s') :
    v.index = s.next ∧ Grows env .param s s' [v] 1 := by
  obtain ⟨t, _, ht, hd⟩ := Yields.bind_iff.1 h
  obtain ⟨ht, rfl⟩ := declaredType_iff.1 ht
  exact declare_grows ⟨ownedType_declarable ht, by rintro _ ⟨⟩⟩ hd

theorem params_grow {xs : List Source.Param} (h : Yields (xs.mapM (param env)) s vs s') :
    Grows env .param s s' vs.reverse vs.length := by
  induction xs generalizing s vs with
  | nil =>
    obtain ⟨rfl, rfl⟩ := Yields.mapM_nil_iff.1 h
    exact Grows.refl _
  | cons x xs ih =>
    obtain ⟨v, r, ws, hv, hws, rfl⟩ := Yields.mapM_cons_iff.1 h
    rw [List.reverse_cons, List.length_cons, Nat.add_comm]
    exact (param_grows hv).2.trans (ih hws)

/-- The parameters are recorded under the names of their declarations. -/
theorem params_open {xs : List Source.Param} (h : Yields (xs.mapM (param env)) s vs s') :
    ∃ new, new.map Variable.name = xs.map Source.Param.name ∧
      OpensAll (xs.map Source.Param.name) new s s' vs := by
  have hparam : ∀ {x s v s'}, Yields (param env x) s v s' →
      ∃ new, new.map Variable.name = [x.name] ∧ Opens x.name new s s' v := by
    intro x s v s' hx
    obtain ⟨t, _, ht, hd⟩ := Yields.bind_iff.1 hx
    obtain ⟨-, rfl⟩ := declaredType_iff.1 ht
    exact ⟨_, rfl, declare_opens hd⟩
  obtain ⟨new, hnew, hopened⟩ := mapM_opens _ hparam h
  exact ⟨new, hnew.trans (List.flatMap_pure_eq_map _ xs), hopened⟩

/-- Variables that are recorded under the names that were opened have these names. -/
theorem OpensAll.named {names : List String} {new opened : List Variable}
    (h : OpensAll names opened s s' vs) (hnew : new.map Variable.name = names) {vars : List Variable}
    (hvars : vars.length = s.next) : Variable.Named (vars ++ new) vs names := by
  subst hnew
  rw [h.ids, List.length_map, ← hvars]
  exact Variable.named_of_recorded h.nodup

theorem returns_declarable {ts : List Source.OwnedType} {ts' : List OwnedType}
    (h : Yields (ts.mapM fun t => declaredType env t span) s ts' s') :
    s' = s ∧ ∀ t ∈ ts', t.IsDeclarable := by
  induction ts generalizing s ts' with
  | nil =>
    obtain ⟨rfl, rfl⟩ := Yields.mapM_nil_iff.1 h
    exact ⟨rfl, nofun⟩
  | cons t ts ih =>
    obtain ⟨t', r, us, ht, hus, rfl⟩ := Yields.mapM_cons_iff.1 h
    obtain ⟨ht, rfl⟩ := declaredType_iff.1 ht
    obtain ⟨rfl, hd⟩ := ih hus
    exact ⟨rfl, List.forall_mem_cons.2 ⟨ownedType_declarable ht, hd⟩⟩

/-- What resolving one function after another keeps. -/
structure Extends (env : Env) (s s' : State) : Prop where
  frames : s'.frames = s.frames
  next : s.next ≤ s'.next
  aligned : Aligned s'
  vars : ∃ more, s'.vars = s.vars ++ more ∧ ∀ x ∈ more, Sound env x

theorem function_scoped {id : FunctionId} {unique : String} {f : Source.Function} {f' : Function}
    (h : Yields (function env id unique f) s f' s') (ha : Aligned s)
    (hv : ∀ v ∈ visible s.frames, v.index < s.next) :
    Extends env s s' ∧ (∃ n, f'.Scoped env.functions (visible s.frames) s'.vars n) ∧
      (∀ t ∈ f'.body.walk, env.ResolvedStmt t) ∧ f'.contract = env.contract ∧
      f'.signature = (f.kind, f.params.length, f.name, unique) := by
  rw [function, framed_iff] at h
  obtain ⟨s₂, h, rfl⟩ := h
  obtain ⟨params, _, hp, h⟩ := Yields.bind_iff.1 h
  obtain ⟨returns, s₁, hr, h⟩ := Yields.bind_iff.1 h
  obtain ⟨body, hb, rfl⟩ := Yields.bind_pure_iff.1 h
  have hpg := params_grow hp
  obtain ⟨new, hnew, hopened⟩ := params_open hp
  obtain ⟨rfl, hret⟩ := returns_declarable hr
  have hf₀ := List.cons_ne_nil ([] : Frame) s.frames
  obtain ⟨hbs, hbg, hbr⟩ := stmt_scoped hb (hpg.frames_ne_nil hf₀)
  have hblock : ∃ i ss, body = .block i ss := by
    rw [stmt, framed_iff] at hb
    obtain ⟨_, hb, -⟩ := hb
    obtain ⟨ss, _, -, hb⟩ := Yields.bind_iff.1 hb
    exact ⟨_, ss, (Yields.pure_iff.1 hb).1⟩
  have ha₁ : Aligned s₁ := hpg.aligned ha
  have ha₂ : Aligned s₂ := hbg.aligned ha₁
  have hvis : visible s₁.frames = params.reverse ++ visible s.frames := by
    rw [hpg.visible_eq hf₀]
    simp [visible]
  refine ⟨⟨?_, ?_, ha₂, ?_⟩, ⟨s₁.next, ?_⟩, hbr, rfl,
    by rw [← Yields.mapM_length hp]; rfl⟩
  · obtain ⟨more, hm, -⟩ := hpg.frames _ _ rfl
    obtain ⟨more', hm', -⟩ := hbg.frames _ _ hm
    rw [hm', List.tail_cons]
  · have h₁ : s₁.next = s.next + params.length := hpg.next
    have h₂ := hbg.next
    simp only
    omega
  · obtain ⟨more, hm, -, hk⟩ := hpg.vars
    obtain ⟨more', hm', -, hk'⟩ := hbg.vars
    refine ⟨more ++ more', by simp [hm', hm], ?_⟩
    exact List.forall_mem_append.2 ⟨fun x hx => (hk x hx).2, fun x hx => (hk' x hx).2⟩
  · refine ⟨?_, hblock, ?_, ?_, ?_, ?_, ⟨f.params.map Source.Param.name, ?_⟩, hret⟩
    · refine hbs.mono ?_
      rw [hvis]
      intro v hm
      simpa using hm
    · intro v hm
      rcases List.mem_append.1 hm with hm | hm
      · exact (hopened.bounds v hm).2
      · have h₁ : s₁.next = s.next + params.length := hpg.next
        have := hv v hm
        omega
    · have h₂ := hbg.next
      have h₃ : s₂.vars.length = s₂.next := ha₂
      simp only
      omega
    · intro v hm
      have hbounds := hbs.bounds v hm
      exact hbg.hasKind ha₁ hbounds.1 (hbg.next ▸ hbounds.2)
    · intro v hm
      have hidx := hopened.bounds v hm
      have hkind := hpg.hasKind ha hidx.1 hidx.2
      obtain ⟨more, hmore, -⟩ := hbg.vars
      rw [hmore]
      exact hkind.append
    · obtain ⟨more, hmore, -⟩ := hbg.vars
      rw [hmore, hopened.vars]
      exact (hopened.named hnew ha).append

theorem functions_scoped {id : Source.Function × Nat → FunctionId}
    {unique : Source.Function × Nat → String} {xs : List (Source.Function × Nat)}
    {fs : List Function} (h : Yields (xs.mapM fun x => function env (id x) (unique x) x.1) s fs s')
    (ha : Aligned s) (hv : ∀ v ∈ visible s.frames, v.index < s.next) :
    Extends env s s' ∧ fs.map Function.signature =
        xs.map (fun x => (x.1.kind, x.1.params.length, x.1.name, unique x)) ∧
      ∀ f ∈ fs, f.contract = env.contract ∧
        (∀ t ∈ f.body.walk, env.ResolvedStmt t) ∧
        ∃ n, f.Scoped env.functions (visible s.frames) s'.vars n := by
  induction xs generalizing s fs with
  | nil =>
    obtain ⟨rfl, rfl⟩ := Yields.mapM_nil_iff.1 h
    exact ⟨⟨rfl, Nat.le_refl _, ha, [], by simp, by simp⟩, rfl, by simp⟩
  | cons x xs ih =>
    obtain ⟨f, r, gs, hx, hgs, rfl⟩ := Yields.mapM_cons_iff.1 h
    obtain ⟨hext, ⟨n, hscoped⟩, hres, hcontract, hkind⟩ := function_scoped hx ha hv
    have hv' : ∀ v ∈ visible r.frames, v.index < r.next := by
      intro v hm
      rw [hext.frames] at hm
      exact Nat.lt_of_lt_of_le (hv v hm) hext.next
    obtain ⟨hext', hkinds, hall⟩ := ih hgs hext.aligned hv'
    obtain ⟨more, hmore, hdecl⟩ := hext.vars
    obtain ⟨more', hmore', hdecl'⟩ := hext'.vars
    refine ⟨⟨hext'.frames.trans hext.frames, Nat.le_trans hext.next hext'.next, hext'.aligned,
      more ++ more', by rw [hmore', hmore, List.append_assoc], ?_⟩, ?_, ?_⟩
    · exact List.forall_mem_append.2 ⟨hdecl, hdecl'⟩
    · rw [List.map_cons, List.map_cons, hkind, hkinds]
    · intro g hg
      rcases List.mem_cons.1 hg with rfl | hg
      · rw [hmore']
        exact ⟨hcontract, hres, n, hscoped.append⟩
      · rw [← hext.frames]
        exact hall g hg

/-! ## Contracts -/

/-- The state variables of a contract have the names of its source, each once. -/
def StateNames (vars : List Variable) (state : List VarId) (c : Source.Contract) : Prop :=
  Variable.Named vars state (c.stateVars.map Source.StateVar.name)

theorem stateVars_recorded {u : PUnit} (h : Yields (xs.forM (stateVar env)) s u s') :
    s'.frames = s.frames ∧ s'.next = s.next ∧
      ∃ more, s'.vars = s.vars ++ more ∧ more.map Variable.name = xs.map Source.StateVar.name ∧
        ∀ x ∈ more, x.kind = .state ∧ Sound env x := by
  induction xs generalizing s with
  | nil =>
    obtain ⟨-, rfl⟩ := Yields.pure_iff.1 h
    exact ⟨rfl, rfl, [], by simp⟩
  | cons x xs ih =>
    obtain ⟨_, r, hx, hxs⟩ := Yields.bind_iff.1 h
    obtain ⟨t, _, ht, hinit⟩ := Yields.bind_iff.1 hx
    obtain ⟨i, _, hi, hrecord⟩ := Yields.bind_iff.1 hinit
    obtain ⟨ht, rfl⟩ := declaredType_iff.1 ht
    obtain ⟨rfl, -, hr⟩ := exprOption_within hi
    obtain rfl := Yields.modify_iff.1 hrecord
    obtain ⟨hf, hn, more, hm, hl, hk⟩ := ih hxs
    refine ⟨hf, hn, _ :: more, by rw [hm, List.append_assoc]; rfl, by simp [hl], ?_⟩
    exact List.forall_mem_cons.2 ⟨⟨rfl, ownedType_declarable ht, hr⟩, hk⟩

/-- The callable functions are those of the contract that are no constructors. -/
theorem mem_callable {first : Nat} {fs : List Source.Function} {n : String} {g : FunctionId}
    {k : Nat} (h : (n, g, k) ∈ callable first fs) :
    ∃ f, fs[g.index - first]? = some f ∧ first ≤ g.index ∧ f.kind = .function ∧
      k = f.params.length := by
  obtain ⟨⟨f, i⟩, hm, hg⟩ := List.mem_filterMap.1 h
  obtain ⟨hlo, hhi, hf⟩ := List.mem_zipIdx hm
  cases hk : f.kind with
  | constructor => simp [hk] at hg
  | function =>
    simp only [hk, Option.some.injEq, Prod.mk.injEq] at hg
    obtain ⟨-, rfl, rfl⟩ := hg
    exact ⟨f, by simp [hf, List.getElem?_eq_getElem (by omega : i - first < fs.length)], hlo, hk,
      rfl⟩

/-- What a contract adds to the program before it: its own definitions, after those that are there. -/
structure Adds (p q : Program) (c : Source.Contract) where
  state : List VarId
  functions : List Function
  vars : List Variable
  env : Env
  contract_eq : env.contract = ⟨p.contracts.length⟩
  callable_eq : env.callable = callable p.functions.length c.functions
  contracts_eq : q.contracts = p.contracts ++ [{
    name := c.name, stateVars := state,
    functions := (List.range functions.length).map fun i => ⟨p.functions.length + i⟩,
    span := c.span }]
  functions_eq : q.functions = p.functions ++ functions
  vars_eq : q.vars = p.vars ++ vars
  sound : ∀ x ∈ vars, Sound env x
  signatures : functions.map Function.signature = c.functions.zipIdx.map c.signature
  above : ∀ v ∈ state, p.vars.length ≤ v.index
  kinds : ∀ v ∈ state, Variable.HasKind q.vars .state v
  nodup : state.Nodup
  names : StateNames q.vars state c
  owner : ∀ f ∈ functions, f.contract = env.contract
  resolved : ∀ f ∈ functions, ∀ t ∈ f.body.walk, env.ResolvedStmt t
  inScope : ∀ f ∈ functions, ∃ n, f.Scoped env.functions state q.vars n

theorem contract_adds (h : contract p c = .ok q) : Nonempty (Adds p q c) := by
  obtain ⟨⟨⟨state, fs⟩, s⟩, hrun, h⟩ := bind_eq_ok.1 h
  cases h
  let env : Env := {
    contract := ⟨p.contracts.length⟩, contractName := c.name,
    callable := callable p.functions.length c.functions }
  obtain ⟨_, s₁, hs₁, hrest⟩ := Yields.bind_iff.1 (show Yields _ _ _ _ from hrun)
  obtain ⟨_, s₂, hs₂, hrest⟩ := Yields.bind_iff.1 hrest
  obtain ⟨_, _, hs₃, hrest⟩ := Yields.bind_iff.1 hrest
  obtain ⟨heq, rfl⟩ := Yields.pure_iff.1 hrest
  obtain ⟨rfl, rfl⟩ := Prod.mk.inj heq
  obtain ⟨opened, hnone, hopened⟩ :=
    mapM_opens (fun _ => []) (fun hx => ⟨[], rfl, declareName_opens hx⟩) hs₁
  obtain rfl := List.map_eq_nil_iff.1 (hnone.trans (List.flatMap_eq_nil_iff.2 fun _ _ => rfl))
  have hidx := hopened.bounds
  have hnext₁ : s₁.next = p.vars.length + c.stateVars.length := by simpa using hopened.next
  have hvars₁ : s₁.vars = p.vars := by simpa using hopened.vars
  obtain ⟨hframes₂, hnext₂, new, hnew, hnames, hkind⟩ := stateVars_recorded hs₂
  have hlen : new.length = c.stateVars.length := by simpa using congrArg List.length hnames
  have hvis : visible s₂.frames = state.reverse := by
    rw [hframes₂, hopened.visible]
    simp [visible]
  have haligned : Aligned s₂ := by
    rw [Aligned, hnew, hnext₂, hnext₁, List.length_append, hvars₁, hlen]
  have hbelow : ∀ v ∈ visible s₂.frames, v.index < s₂.next := by
    intro v hv
    rw [hvis, List.mem_reverse] at hv
    rw [hnext₂]
    exact (hidx v hv).2
  have hs₃' : Yields (c.functions.zipIdx.mapM fun x => function env ⟨p.functions.length + x.2⟩
      (uniqueName (c.functions.map Source.Function.name) x.2 x.1.name) x.1) s₂ fs s := hs₃
  obtain ⟨hext, hkinds, hall⟩ := functions_scoped hs₃' haligned hbelow
  obtain ⟨more, hmore, hdecl⟩ := hext.vars
  have hall_vars : s.vars = p.vars ++ (new ++ more) := by
    rw [hmore, hnew, hvars₁, List.append_assoc]
  have hstateNames : StateNames s.vars state c := by
    rw [StateNames, hall_vars, ← List.append_assoc]
    exact (hopened.named hnames rfl).append
  refine ⟨state, fs, new ++ more, env, rfl, rfl, rfl, rfl, hall_vars, ?_, hkinds,
    fun v hv => (hidx v hv).1, ?_, hopened.nodup_ids, hstateNames, fun f hf => (hall f hf).1,
    fun f hf => (hall f hf).2.1, ?_⟩
  · exact List.forall_mem_append.2 ⟨fun x hx => (hkind x hx).2, hdecl⟩
  · intro v hv
    obtain ⟨hlo, hhi⟩ := hidx v hv
    have hstate : Variable.HasKind (p.vars ++ new) .state v :=
      Variable.hasKind_append_right (fun x hx => (hkind x hx).1) hlo
        (by rwa [hlen, ← hnext₁])
    simp only [hall_vars, ← List.append_assoc]
    exact hstate.append
  · intro f hf
    obtain ⟨-, -, n, hn⟩ := hall f hf
    rw [hvis] at hn
    exact ⟨n, hn.congr fun v => List.mem_reverse⟩

namespace Adds

variable {p q : Program} {c : Source.Contract} (a : Adds p q c) {f g : FunctionId}

include a

theorem function_old (hf : p.Has f) : q.function f = p.function f := by
  rw [Program.function, a.functions_eq, List.getD_append _ _ _ _ hf, Program.function]

theorem contract_old {d : ContractId} (hd : d.index < p.contracts.length) :
    q.contract d = p.contract d := by
  rw [Program.contract, a.contracts_eq, List.getD_append _ _ _ _ hd, Program.contract]

theorem length_functions : q.functions.length = p.functions.length + a.functions.length := by
  rw [a.functions_eq, List.length_append]

theorem length_contracts : q.contracts.length = p.contracts.length + 1 := by simp [a.contracts_eq]

theorem function_new (hlo : p.functions.length ≤ f.index) (hhi : f.index < q.functions.length) :
    q.function f ∈ a.functions := by
  have hlt : f.index - p.functions.length < a.functions.length := by
    rw [a.length_functions] at hhi
    omega
  rw [Program.function, a.functions_eq, List.getD_append_right _ _ _ _ hlo,
    List.getD_eq_getElem _ _ hlt]
  exact List.getElem_mem hlt

theorem contract_new : q.contract a.env.contract = {
    name := c.name, stateVars := a.state,
    functions := (List.range a.functions.length).map fun i => ⟨p.functions.length + i⟩,
    span := c.span } := by
  rw [Program.contract, a.contracts_eq, a.contract_eq, List.getD_append_right _ _ _ _ (Nat.le_refl _)]
  simp

/-- A contract was there before, or it is the new one. -/
theorem contract_cases (d : ContractId) :
    (d.index < p.contracts.length ∧ q.contract d = p.contract d) ∨ d = a.env.contract ∨
      q.contract d = default := by
  rcases Nat.lt_trichotomy d.index p.contracts.length with hlt | heq | hgt
  · exact .inl ⟨hlt, a.contract_old hlt⟩
  · refine .inr (.inl ?_)
    rw [a.contract_eq]
    exact congrArg ContractId.mk heq
  · refine .inr (.inr ?_)
    rw [Program.contract, List.getD_eq_default _ _ (by rw [a.length_contracts]; omega)]

/-- The functions that a contract's code calls are the contract's own, and no constructors, and they
take the arguments of the calls. -/
theorem takes {k : Nat} (h : a.env.Takes (g, k)) :
    g.index < q.functions.length ∧ (q.function g).isConstructor = false ∧
      (q.function g).contract = a.env.contract ∧ k = (q.function g).params.length := by
  obtain ⟨n, hm⟩ := h
  rw [a.callable_eq] at hm
  obtain ⟨f, hf, hlo, hkind, rfl⟩ := mem_callable hm
  have hlen : a.functions.length = c.functions.length := by
    simpa using congrArg List.length a.signatures
  obtain ⟨hlt, -⟩ := List.getElem?_eq_some_iff.1 hf
  have hlt : g.index - p.functions.length < a.functions.length := hlen ▸ hlt
  have hfun : q.function g = a.functions[g.index - p.functions.length] := by
    rw [Program.function, a.functions_eq, List.getD_append_right _ _ _ _ hlo,
      List.getD_eq_getElem _ _ hlt]
  have hs : (q.function g).signature = c.signature (f, g.index - p.functions.length) := by
    have hs := congrArg (fun l => l[g.index - p.functions.length]?) a.signatures
    simpa [hfun, hf, List.getElem?_eq_getElem hlt] using hs
  obtain ⟨hk, hrest⟩ := Prod.mk.inj hs
  obtain ⟨hparams, -⟩ := Prod.mk.inj hrest
  refine ⟨?_, by rw [Function.isConstructor, hk, hkind]; rfl, ?_, hparams.symm⟩
  · rw [a.length_functions]
    omega
  · rw [hfun]
    exact a.owner _ (List.getElem_mem hlt)

theorem callees (hg : g ∈ a.env.functions) : q.Has g ∧
    (q.function g).isConstructor = false ∧ (q.function g).contract = a.env.contract := by
  obtain ⟨⟨n, g, k⟩, hm, rfl⟩ := List.mem_map.1 hg
  obtain ⟨hlt, hkind, hcontract, -⟩ := a.takes ⟨n, hm⟩
  exact ⟨hlt, hkind, hcontract⟩

/-- The identities of a contract's variables are above all those before it. -/
theorem nodup_state (hp : p.Scoped) : (q.contracts.flatMap Contract.stateVars).Nodup := by
  rw [a.contracts_eq, List.flatMap_append, List.nodup_append']
  refine ⟨hp.distinct, by simpa using a.nodup, ?_⟩
  intro v hold hnew
  obtain ⟨d, hd, hv⟩ := List.mem_flatMap.1 hold
  obtain ⟨i, hi, rfl⟩ := List.getElem_of_mem hd
  have hpc : p.contract ⟨i⟩ = p.contracts[i] := List.getD_eq_getElem _ _ hi
  obtain ⟨x, hx, -⟩ := hp.state ⟨i⟩ v (by rwa [hpc])
  obtain ⟨hlt, -⟩ := List.getElem?_eq_some_iff.1 hx
  have := a.above v (by simpa using hnew)
  omega

end Adds

theorem contract_scoped (h : contract p c = .ok q) (hp : p.Scoped) : q.Scoped := by
  obtain ⟨a⟩ := contract_adds h
  have hlenf := a.length_functions
  have hlenc := a.length_contracts
  refine ⟨?_, ?_, ?_, ?_, ?_, a.nodup_state hp, ?_⟩
  · intro f hf
    by_cases hlt : f.index < p.functions.length
    · obtain ⟨gs, n, hs, hg⟩ := hp.function f hlt
      refine ⟨gs, n, ?_, ?_⟩
      · rw [a.function_old hlt, a.contract_old (hp.mem f hlt).1, a.vars_eq]
        exact hs.append
      · intro g hm
        obtain ⟨h₁, h₂, h₃⟩ := hg g hm
        rw [a.function_old h₁, a.function_old hlt]
        exact ⟨by omega, h₂, h₃⟩
    · have hnew := a.function_new (Nat.not_lt.1 hlt) hf
      obtain ⟨n, hn⟩ := a.inScope _ hnew
      refine ⟨a.env.functions, n, ?_, ?_⟩
      · rwa [a.owner _ hnew, a.contract_new]
      · rw [a.owner _ hnew]
        exact fun g hg => a.callees hg
  · intro f hf
    by_cases hlt : f.index < p.functions.length
    · obtain ⟨h₁, h₂⟩ := hp.mem f hlt
      rw [a.function_old hlt, a.contract_old h₁]
      exact ⟨by omega, h₂⟩
    · rw [a.owner _ (a.function_new (Nat.not_lt.1 hlt) hf), a.contract_new, a.contract_eq]
      refine ⟨by simp [hlenc], List.mem_map.2 ⟨f.index - p.functions.length, ?_, ?_⟩⟩
      · rw [List.mem_range]
        omega
      · rw [Nat.add_sub_cancel' (by omega)]
  · intro d f hf
    rcases a.contract_cases d with ⟨-, hd⟩ | rfl | hd
    · rw [hd] at hf
      obtain ⟨h₁, h₂⟩ := hp.contract d f hf
      rw [a.function_old h₁]
      exact ⟨by omega, h₂⟩
    · rw [a.contract_new] at hf
      obtain ⟨i, hi, rfl⟩ := List.mem_map.1 hf
      rw [List.mem_range] at hi
      refine ⟨by simp only; omega, ?_⟩
      exact a.owner _ (a.function_new (Nat.le_add_right _ _) (by simp only; omega))
    · rw [hd] at hf
      cases hf
  · intro d
    rcases a.contract_cases d with ⟨-, hd⟩ | rfl | hd
    · rw [hd]
      exact hp.nodup d
    · rw [a.contract_new]
      refine List.Nodup.map ?_ List.nodup_range
      intro i j hij
      simpa using hij
    · rw [hd]
      exact List.nodup_nil
  · intro d v hv
    rcases a.contract_cases d with ⟨-, hd⟩ | rfl | hd
    · rw [hd] at hv
      rw [a.vars_eq]
      exact (hp.state d v hv).append
    · rw [a.contract_new] at hv
      exact a.kinds v hv
    · rw [hd] at hv
      cases hv
  · rw [a.vars_eq]
    exact List.forall_mem_append.2 ⟨hp.types, fun x hx => (a.sound x hx).1⟩

theorem contract_written (h : contract p c = .ok q) (hp : p.Written) : q.Written := by
  obtain ⟨a⟩ := contract_adds h
  rw [Program.Written, a.functions_eq]
  exact List.forall_mem_append.2 ⟨hp, fun f hf => written_of_resolved (a.resolved f hf)⟩

theorem contract_initWritten (h : contract p c = .ok q) (hp : p.InitWritten) : q.InitWritten := by
  obtain ⟨a⟩ := contract_adds h
  rw [Program.InitWritten, a.vars_eq]
  exact List.forall_mem_append.2 ⟨hp, fun x hx e he => ((a.sound x hx).2 e he).2.2⟩

end Scope

namespace SourceUnit

variable {u : SourceUnit} {p : Program}

/-- What holds of no contracts and the empty program, and still holds with one more contract. -/
theorem resolve_induct {P : List Source.Contract → Program → Prop} (h : u.resolve = .ok p)
    (hempty : P [] {})
    (hstep : ∀ done q c r, Scope.contract q c = .ok r → P done q → P (done ++ [c]) r) :
    P u.contracts p := by
  have hfold : ∀ (cs done : List Source.Contract) (q : Program), P done q →
      cs.foldlM Scope.contract q = .ok p → P (done ++ cs) p := by
    intro cs
    induction cs with
    | nil =>
      intro done q hq h
      cases h
      rwa [List.append_nil]
    | cons c cs ih =>
      intro done q hq h
      obtain ⟨r, hr, h⟩ := bind_eq_ok.1 h
      rw [List.append_cons]
      exact ih (done ++ [c]) r (hstep done q c r hr hq) h
  exact hfold u.contracts [] {} hempty h

/-- Resolved programs are scoped. -/
theorem resolve_scoped (h : u.resolve = .ok p) : p.Scoped := by
  refine resolve_induct (P := fun _ => Program.Scoped) h ?_ fun _ _ _ _ hc => Scope.contract_scoped hc
  refine ⟨nofun, nofun, ?_, ?_, ?_, List.nodup_nil, nofun⟩
  · intro c f hf
    cases hf
  · intro c
    exact List.nodup_nil
  · intro c v hv
    cases hv

/-- Resolved programs are as they were written. -/
theorem resolve_written (h : u.resolve = .ok p) : p.Written := by
  refine resolve_induct (P := fun _ => Program.Written) h ?_ fun _ _ _ _ hc => Scope.contract_written hc
  intro f hf
  cases hf

/-- What holds of every contract when it is added, and still holds with one more contract. -/
theorem resolve_forall₂ {R : Program → Source.Contract → Contract → Prop} (h : u.resolve = .ok p)
    (hold : ∀ q c r, Scope.Adds q r c → ∀ c' d, R q c' d → R r c' d)
    (hnew : ∀ q c r, ∀ a : Scope.Adds q r c, R r c (r.contract a.env.contract)) :
    List.Forall₂ (R p) u.contracts p.contracts := by
  refine resolve_induct (P := fun cs q => List.Forall₂ (R q) cs q.contracts) h .nil ?_
  intro done q c r hr hq
  obtain ⟨a⟩ := Scope.contract_adds hr
  rw [a.contracts_eq]
  exact List.rel_append (hq.imp (hold q c r a)) (.cons (a.contract_new ▸ hnew q c r a) .nil)

/-- The state variables of resolved contracts have the names of the source. -/
theorem resolve_stateNames (h : u.resolve = .ok p) :
    List.Forall₂ (fun c d => Scope.StateNames p.vars d.stateVars c) u.contracts p.contracts := by
  refine resolve_forall₂ (R := fun q c d => Scope.StateNames q.vars d.stateVars c) h
    (fun _ _ _ a _ _ hn => a.vars_eq ▸ hn.append) fun q c r a => ?_
  rw [a.contract_new]
  exact a.names

/-- A resolved contract has the functions of the source, in their order. -/
structure Signed (p : Program) (c : Source.Contract) (d : Contract) : Prop where
  name : d.name = c.name
  lt : ∀ f ∈ d.functions, f.index < p.functions.length
  functions : d.functions.map (fun f => (p.function f).signature) = c.functions.zipIdx.map c.signature

theorem resolve_signed (h : u.resolve = .ok p) : List.Forall₂ (Signed p) u.contracts p.contracts := by
  refine resolve_forall₂ h (fun q c r a c' d hd => ⟨hd.name, fun f hf => ?_, ?_⟩) fun q c r a => ?_
  · rw [a.length_functions]
    exact Nat.lt_add_right _ (hd.lt f hf)
  · refine hd.functions ▸ List.map_congr_left fun f hf => ?_
    rw [a.function_old (hd.lt f hf)]
  · rw [a.contract_new]
    refine ⟨rfl, ?_, a.signatures ▸ List.ext_getElem (by simp) fun i h₁ h₂ => ?_⟩
    · simp [a.length_functions]
    · have hi : i < a.functions.length := by simpa using h₂
      simp [Program.function, a.functions_eq, hi]

theorem resolve_initWritten (h : u.resolve = .ok p) : p.InitWritten := by
  refine resolve_induct (P := fun _ => Program.InitWritten) h ?_ fun _ _ _ _ hc =>
    Scope.contract_initWritten hc
  intro x hx
  cases hx

end SourceUnit

end Shroud
