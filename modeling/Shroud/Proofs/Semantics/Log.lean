import Shroud.Proofs.Finals
import Shroud.Proofs.Semantics.Runs

/-! # When final variables are assigned

`Machine.trace` runs a statement and keeps a log of the statements whose expressions it evaluates,
in order, also where the run has no result; without the log it is `Machine.exec`. The rule for final
variables follows the text of a constructor, and `FinalRule.stmt_meets` carries it over to all logs:
every path through the text assigns a final variable once at most, and does not read it before.
-/

namespace Shroud

variable {p : Program} {α β δ : Type} {v : VarId}

mutual

/-- The variables that storing into the expression assigns as a whole. -/
def Expr.wholes : Expr → List VarId
  | .ident _ v => [v]
  | .tuple _ es => wholesList es
  | _ => []

def Expr.wholesList : List Expr → List VarId
  | [] => []
  | e :: es => e.wholes ++ wholesList es

end

namespace Stmt

/-- The variables that the statement itself assigns as a whole. -/
def assigned : Stmt → List VarId
  | assign _ lhs _ => lhs.wholes
  | _ => []

/-- The variables that the expressions of the statement itself read. -/
def reads (s : Stmt) : List VarId :=
  (s.roots.flatMap fun (u, e) => e.uses u).filterMap fun
    | (.value, .ident _ v) => some v
    | _ => none

theorem exists_use_of_reads {s : Stmt} (h : v ∈ s.reads) :
    ∃ i, (Use.value, Expr.ident i v) ∈ s.roots.flatMap fun (u, e) => e.uses u := by
  obtain ⟨⟨u, e⟩, hmem, hread⟩ := List.mem_filterMap.1 h
  cases u <;> cases e <;> cases hread
  exact ⟨_, hmem⟩

/-- From whether a variable is assigned before a log to whether it is after it: the log assigns it
once at most, and does not read it while it is not assigned. -/
structure Once (v : VarId) (done : Bool) (log : List Stmt) (after : Bool) : Prop where
  writes : done.toNat + (log.flatMap assigned).count v = after.toNat
  reads : ∀ l s l', log = l ++ s :: l' → v ∈ s.reads → done = true ∨ v ∈ l.flatMap assigned

end Stmt

/-- A run with the statements that it comes to. -/
def Logged (p : Program) (α : Type) := Store p → List Stmt × Option (α × Store p)

namespace Logged

instance : Monad (Logged p) where
  pure a σ := ([], some (a, σ))
  bind x f σ := match (x σ).2 with
    | none => ((x σ).1, none)
    | some (a, τ) => ((x σ).1 ++ (f a τ).1, (f a τ).2)

/-- What the expressions of a statement do, with the statement as the log. -/
def noting (s : Stmt) (x : Run p α) : Logged p α := fun σ => ([s], x.run σ)

def within (vs : List VarId) (x : Logged p α) : Logged p α := fun σ =>
  ((x σ).1, (x σ).2.map fun (a, τ) => (a, τ.restore σ vs))

def iterate (head : Logged p Bool) (round : Logged p Outcome) : Nat → Logged p Outcome
  | 0 => fun _ => ([], none)
  | n + 1 => do
    if ← head then
      let o ← round
      if o.goesOn then iterate head round n else return o.afterLoop
    else return .normal

end Logged

namespace Machine

variable (m : Machine p)

mutual

/-- Runs a statement with a log of the statements whose expressions are evaluated; a loop is there
each time that it tests its condition. -/
def trace : Stmt → Logged p Outcome
  | .block i body => .within (Stmt.block i body).declared (traceList body)
  | .cond i c yes no => do
    if ← .noting (.cond i c yes no) (m.test c) then trace yes else traceOption no
  | .loop i c body => .iterate (.noting (.loop i c body) (m.test c)) (trace body) m.rounds
  | .doLoop i body c => do
    let o ← trace body
    if o.goesOn then .iterate (.noting (.doLoop i body c) (m.test c)) (trace body) m.rounds
    else return o.afterLoop
  | .forLoop i init c update body => .within (Stmt.forLoop i init c update body).declared do
    let o ← traceOption init
    if o.isNormal then
      .iterate (.noting (.forLoop i init c update body) (m.testOption c))
        (do let o ← trace body; if o.goesOn then traceOption update else return o) m.rounds
    else return o
  | s => .noting s (m.exec s)

def traceList : List Stmt → Logged p Outcome
  | [] => return .normal
  | s :: ss => do
    let o ← trace s
    if o.isNormal then traceList ss else return o

def traceOption : Option Stmt → Logged p Outcome
  | none => return .normal
  | some s => trace s

end

/-- The statements that a run from a store comes to. -/
def log (s : Stmt) (σ : Store p) : List Stmt := (m.trace s σ).1

end Machine

/-! ## Without the log -/

namespace Logged

/-- The run without its log. -/
def erase (x : Logged p α) : Run p α := fun σ => (x σ).2

@[simp] theorem erase_pure (a : α) : (pure a : Logged p α).erase = pure a := rfl

@[simp] theorem erase_noting (s : Stmt) (x : Run p α) : (noting s x).erase = x := rfl

theorem bind_of_none {x : Logged p α} {σ : Store p} (h : (x σ).2 = none) (f : α → Logged p β) :
    (x >>= f) σ = ((x σ).1, none) := by
  simp only [bind, h]

theorem bind_of_some {x : Logged p α} {σ τ : Store p} {a : α} (h : (x σ).2 = some (a, τ))
    (f : α → Logged p β) : (x >>= f) σ = ((x σ).1 ++ (f a τ).1, (f a τ).2) := by
  simp only [bind, h]

@[simp] theorem erase_bind (x : Logged p α) (f : α → Logged p β) :
    (x >>= f).erase = x.erase >>= fun a => (f a).erase := by
  funext σ
  change ((x >>= f) σ).2 = ((x σ).2).bind fun r => (f r.1 r.2).2
  cases h : (x σ).2 with
  | none => rw [bind_of_none h, Option.bind_none]
  | some r => rw [bind_of_some h, Option.bind_some]

@[simp] theorem erase_within (vs : List VarId) (x : Logged p α) :
    (within vs x).erase = Machine.within vs x.erase := by
  funext σ
  change ((x σ).2).map _ = ((x σ).2).bind _
  rcases (x σ).2 with _ | ⟨a, τ⟩ <;> rfl

@[simp] theorem erase_iterate (head : Logged p Bool) (round : Logged p Outcome) (n : Nat) :
    (iterate head round n).erase = Machine.iterate head.erase round.erase n := by
  induction n with
  | zero => rfl
  | succ n ih => simp only [iterate, Machine.iterate, erase_bind, apply_ite erase, erase_pure, ih]

end Logged

namespace Machine

variable {m : Machine p}

theorem erase_traceList {ss : List Stmt} (h : ∀ s ∈ ss, (m.trace s).erase = m.exec s) :
    (m.traceList ss).erase = m.execList ss := by
  induction ss with
  | nil => rfl
  | cons s ss ih =>
    rw [List.forall_mem_cons] at h
    simp only [traceList, execList, Logged.erase_bind, apply_ite Logged.erase, h.1, ih h.2,
      Logged.erase_pure]

theorem erase_traceOption {o : Option Stmt} (h : ∀ s ∈ o, (m.trace s).erase = m.exec s) :
    (m.traceOption o).erase = m.execOption o := by
  cases o with
  | none => rfl
  | some s => exact h s rfl

/-- Without the log, the run is the one of the statement. -/
theorem erase_trace (s : Stmt) : (m.trace s).erase = m.exec s := by
  induction s using Stmt.induct_children with
  | h s ih =>
    cases s with
    | block i body =>
      rw [trace, exec, Logged.erase_within]
      exact congrArg _ (erase_traceList ih)
    | cond i c yes no =>
      have hno := erase_traceOption fun s (hs : s ∈ no) => ih s (by simp_all [Stmt.children])
      simp only [trace, exec, Logged.erase_bind, Logged.erase_noting, apply_ite Logged.erase,
        ih yes (.head _), hno]
    | loop i c body =>
      rw [trace, exec, Logged.erase_iterate, ih body (.head _)]
      rfl
    | doLoop i body c =>
      simp only [trace, exec, Logged.erase_bind, apply_ite Logged.erase, Logged.erase_iterate,
        ih body (.head _), Logged.erase_noting, Logged.erase_pure]
    | forLoop i init c update body =>
      have hinit := erase_traceOption fun s (hs : s ∈ init) => ih s (by simp_all [Stmt.children])
      have hupdate := erase_traceOption fun s (hs : s ∈ update) => ih s (by simp_all [Stmt.children])
      simp only [trace, exec, Logged.erase_within, Logged.erase_bind, apply_ite Logged.erase,
        Logged.erase_iterate, Logged.erase_noting, Logged.erase_pure,
        ih body (by simp [Stmt.children]), hinit, hupdate]
    | _ => rfl

end Machine

/-! ## Facts along logs -/

namespace Stmt.Once

variable {d e e' : Bool} {l l' : List Stmt}

theorem nil (v : VarId) (d : Bool) : Once v d [] d := ⟨rfl, fun _ _ _ h => by simp at h⟩

theorem append (h : Once v d l e) (h' : Once v e l' e') : Once v d (l ++ l') e' := by
  refine ⟨?_, fun pre s post hlog hs => ?_⟩
  · rw [List.flatMap_append, List.count_append, ← Nat.add_assoc, h.writes, h'.writes]
  have hsecond : ∀ mid, l' = mid ++ s :: post → d = true ∨ v ∈ (l ++ mid).flatMap assigned := by
    intro mid hl'
    rw [List.flatMap_append, List.mem_append]
    rcases h'.reads mid s post hl' hs with rfl | hmid
    · refine (Bool.eq_false_or_eq_true d).imp_right fun hd => .inl (List.count_pos_iff.1 ?_)
      have hcount := h.writes
      simp only [hd, Bool.toNat_false, Bool.toNat_true] at hcount
      omega
    · exact .inr (.inr hmid)
  rcases List.append_eq_append_iff.1 hlog with ⟨mid, rfl, hl'⟩ | ⟨rest, rfl, hrest⟩
  · exact hsecond mid hl'
  · cases rest with
    | nil => simpa using hsecond [] hrest.symm
    | cons t rest =>
      obtain ⟨rfl, rfl⟩ := List.cons.inj hrest
      exact h.reads pre s rest rfl hs

end Stmt.Once

namespace Logged

/-- Every log of the run assigns a variable once at most, and its results come with whether the
variable is assigned after. -/
def Meets (v : VarId) (d : Bool) (x : Logged p α) (Q : α → Bool → Prop) : Prop :=
  ∀ σ, ∃ e, Stmt.Once v d (x σ).1 e ∧ ∀ r ∈ (x σ).2, Q r.1 e

namespace Meets

variable {d e : Bool} {x y : Logged p α} {Q Q' : α → Bool → Prop} {S : β → Bool → Prop}

theorem mono (h : x.Meets v d Q) (hQ : ∀ a e, Q a e → Q' a e) : x.Meets v d Q' := by
  intro σ
  obtain ⟨e, hlog, hr⟩ := h σ
  exact ⟨e, hlog, fun r hmem => hQ _ _ (hr r hmem)⟩

theorem pure {a : α} (h : Q a d) : (Pure.pure a : Logged p α).Meets v d Q :=
  fun _ => ⟨d, .nil v d, by rintro _ ⟨⟩; exact h⟩

theorem bind (hx : x.Meets v d Q) {f : α → Logged p β}
    (hf : ∀ a e, Q a e → (f a).Meets v e S) : (x >>= f).Meets v d S := by
  intro σ
  obtain ⟨e, hlog, hr⟩ := hx σ
  cases h : (x σ).2 with
  | none =>
    rw [bind_of_none h]
    exact ⟨e, hlog, nofun⟩
  | some r =>
    rw [bind_of_some h]
    obtain ⟨e', hlog', hr'⟩ := hf r.1 e (hr r h) r.2
    exact ⟨e', hlog.append hlog', hr'⟩

theorem ite {c : Prop} [Decidable c] (hx : c → x.Meets v d Q) (hy : ¬c → y.Meets v d Q) :
    (if c then x else y).Meets v d Q := by
  split
  · exact hx ‹_›
  · exact hy ‹_›

theorem noting {s : Stmt} {x : Run p α} (h : Stmt.Once v d [s] e) :
    (noting s x).Meets v d fun _ e' => e' = e :=
  fun _ => ⟨e, h, fun _ _ => rfl⟩

theorem within {vs : List VarId} (h : x.Meets v d Q) : (within vs x).Meets v d Q := by
  intro σ
  obtain ⟨e, hlog, hr⟩ := h σ
  refine ⟨e, hlog, fun r hmem => ?_⟩
  obtain ⟨r', hr', rfl⟩ := Option.map_eq_some_iff.1 hmem
  exact hr r' hr'

/-- A loop changes nothing if its condition and its rounds change nothing. -/
theorem iterate {head : Logged p Bool} {round : Logged p Outcome}
    (hh : head.Meets v d fun _ e => e = d) (hr : round.Meets v d fun _ e => e = d) (n : Nat) :
    (iterate head round n).Meets v d fun _ e => e = d := by
  induction n with
  | zero => exact fun _ => ⟨d, .nil v d, nofun⟩
  | succ n ih =>
    refine hh.bind fun b e he => ?_
    subst he
    refine ite (fun _ => hr.bind fun o e he => ?_) fun _ => pure rfl
    subst he
    exact ite (fun _ => ih) fun _ => pure rfl

end Meets

end Logged

/-! ## The rule along logs -/

namespace FinalRule

variable {env : Env} {a b : Assigned} {s : Stmt} {q : Program}

theorem write_count {span : Span} {w : VarId} (h : write env span w a = .ok b)
    (hv : (env.program.var v).isFinal = true) :
    (w = v → (env.program.var v).isState = true ∧ env.isClosed = false) ∧
    ∀ d, Sorted.find? a v = some d →
      ∃ d', Sorted.find? b v = some d' ∧ Bool.toNat d + [w].count v = Bool.toNat d' := by
  rw [write] at h
  by_cases hw : w = v
  · subst hw
    simp only [hv, Bool.not_true, Bool.false_eq_true, if_false] at h
    split_ifs at h with hstate hctor hdone
    cases h
    simp only [Bool.or_eq_true, not_or, Bool.not_eq_true] at hdone
    refine ⟨fun _ => ⟨by simpa using hstate, by simp_all [Env.isClosed]⟩, fun d hd => ?_⟩
    refine ⟨true, Sorted.find?_put_self _ _ _, ?_⟩
    simp_all
  · refine ⟨fun h => absurd h hw, fun d hd => ⟨d, ?_, by simp [hw]⟩⟩
    split_ifs at h <;> cases h
    · exact hd
    · rw [Sorted.find?_put, if_neg hw, hd]

mutual

/-- Storing into a target assigns a final variable once at most, and only where the rule is open. -/
theorem target_count : ∀ {e : Expr} {a b : Assigned}, target env e a = .ok b →
    (env.program.var v).isFinal = true →
    (v ∈ e.wholes → (env.program.var v).isState = true ∧ env.isClosed = false) ∧
    ∀ d, Sorted.find? a v = some d →
      ∃ d', Sorted.find? b v = some d' ∧ Bool.toNat d + e.wholes.count v = Bool.toNat d'
  | .ident i w, a, b, h, hv => by
    obtain ⟨hopen, hcount⟩ := write_count h hv
    exact ⟨fun hw => hopen (List.mem_singleton.1 hw).symm, hcount⟩
  | .tuple i es, a, b, h, hv => targets_count h hv
  | .bool .., a, b, h, _ | .number .., a, b, h, _ | .me .., a, b, h, _ | .builtin .., a, b, h, _
  | .call .., a, b, h, _ | .index .., a, b, h, _ | .reclassify .., a, b, h, _
  | .cast .., a, b, h, _ => by
    cases h
    exact ⟨nofun, fun d hd => ⟨d, hd, rfl⟩⟩

theorem targets_count : ∀ {es : List Expr} {a b : Assigned}, targets env es a = .ok b →
    (env.program.var v).isFinal = true →
    (v ∈ Expr.wholesList es → (env.program.var v).isState = true ∧ env.isClosed = false) ∧
    ∀ d, Sorted.find? a v = some d →
      ∃ d', Sorted.find? b v = some d' ∧
        Bool.toNat d + (Expr.wholesList es).count v = Bool.toNat d'
  | [], a, b, h, _ => by
    cases h
    exact ⟨nofun, fun d hd => ⟨d, hd, rfl⟩⟩
  | e :: es, a, b, h, hv => by
    rw [targets] at h
    obtain ⟨a', he, hes⟩ := bind_eq_ok.1 h
    obtain ⟨hopen, hcount⟩ := target_count he hv
    obtain ⟨hopen', hcount'⟩ := targets_count hes hv
    rw [Expr.wholesList]
    refine ⟨fun hw => (List.mem_append.1 hw).elim hopen hopen', fun d hd => ?_⟩
    obtain ⟨d', hd', heq⟩ := hcount d hd
    obtain ⟨d'', hd'', heq'⟩ := hcount' d' hd'
    exact ⟨d'', hd'', by rw [List.count_append]; omega⟩

end

/-- Only a constructor assigns final variables, the state among them, and not in a loop. -/
theorem stmt_assigned (h : stmt env s a = .ok b) (hv : (env.program.var v).isFinal = true)
    (hmem : v ∈ s.assigned) : (env.program.var v).isState = true ∧ env.isClosed = false := by
  cases s with
  | assign i lhs rhs =>
    rw [stmt] at h
    obtain ⟨_, -, h⟩ := bind_eq_ok.1 h
    exact (target_count h hv).1 hmem
  | _ => cases hmem

/-- A constructor reads nothing that is not assigned. -/
theorem eq_true_of_reads (h : reads env s a = .ok ()) (hctor : env.isConstructor = true) {d : Bool}
    (hd : Sorted.find? a v = some d) (hv : v ∈ s.reads) : d = true := by
  simp only [reads, hctor, Bool.not_true, Bool.false_eq_true, if_false] at h
  split at h
  · cases h
  · rename_i hearly
    obtain ⟨i, hmem⟩ := Stmt.exists_use_of_reads hv
    simpa [hd] using List.findSome?_eq_none_iff.1 hearly _ hmem

variable {m : Machine p}

/-- All runs take what is known about a variable before to what the rule knows after, if they end
normally, and change nothing in loops. -/
def Tracks (env : Env) (v : VarId) (x : Logged p Outcome) (a b : Assigned) : Prop :=
  ∀ d, Sorted.find? a v = some d → ∃ d', Sorted.find? b v = some d' ∧ (d = true → d' = true) ∧
    (env.inLoop = true → d' = d) ∧
      x.Meets v d fun o e => o.isNormal = true ∨ env.inLoop = true → e = d'

theorem Tracks.stmts {ss : List Stmt} (ih : ∀ s ∈ ss, ∀ {a b}, stmt env s a = .ok b →
    Tracks env v (m.trace s) a b) (h : stmts env ss a = .ok b) :
    Tracks env v (m.traceList ss) a b := by
  induction ss generalizing a with
  | nil =>
    cases h
    exact fun d hd => ⟨d, hd, id, fun _ => rfl, .pure fun _ => rfl⟩
  | cons s ss ihss =>
    rw [FinalRule.stmts] at h
    obtain ⟨a', hs, hss⟩ := bind_eq_ok.1 h
    rw [List.forall_mem_cons] at ih
    intro d hd
    obtain ⟨d', hd', hle, hloop, hmeets⟩ := ih.1 hs d hd
    obtain ⟨d'', hd'', hle', hloop', hmeets'⟩ := ihss ih.2 hss d' hd'
    refine ⟨d'', hd'', hle' ∘ hle, fun hl => (hloop' hl).trans (hloop hl), ?_⟩
    refine hmeets.bind fun o e he => .ite (fun ho => ?_) fun ho => .pure fun h => ?_
    · obtain rfl := he (.inl ho)
      exact hmeets'
    · have hl := h.resolve_left ho
      exact (he h).trans (hloop' hl).symm

theorem Tracks.stmtOption {o : Option Stmt} (ih : ∀ s ∈ o, ∀ {a b}, stmt env s a = .ok b →
    Tracks env v (m.trace s) a b) (h : stmtOption env o a = .ok b) :
    Tracks env v (m.traceOption o) a b := by
  cases o with
  | none =>
    cases h
    exact fun d hd => ⟨d, hd, id, fun _ => rfl, .pure fun _ => rfl⟩
  | some s => exact ih s rfl h

/-- In a loop nothing changes. -/
theorem Tracks.repeated {x : Logged p Outcome} {d : Bool}
    (h : Tracks { env with inLoop := true } v x a b) (hd : Sorted.find? a v = some d) :
    Sorted.find? b v = some d ∧ x.Meets v d fun _ e => e = d := by
  obtain ⟨d', hd', -, hloop, hmeets⟩ := h d hd
  obtain rfl := hloop rfl
  exact ⟨hd', hmeets.mono fun _ _ h => h (.inr rfl)⟩

/-- **The rule holds on every path.** -/
theorem stmt_tracks (hctor : env.isConstructor = true) (hv : (env.program.var v).isFinal = true)
    (h : stmt env s a = .ok b) : Tracks env v (m.trace s) a b := by
  induction s using Stmt.induct_children generalizing env a b with
  | h s ih =>
    rw [stmt.eq_def] at h
    obtain ⟨_, hreads, h⟩ := bind_eq_ok.1 h
    intro d hd
    have hread := eq_true_of_reads hreads hctor hd
    -- what the statement itself reads is assigned when it starts, and so later
    have hself : ∀ {d₁ d₂ : Bool}, (d = true → d₁ = true) →
        d₁.toNat + s.assigned.count v = d₂.toNat → Stmt.Once v d₁ [s] d₂ := by
      intro d₁ d₂ hle hcount
      refine ⟨by simpa using hcount, fun l t l' hlog ht => ?_⟩
      obtain ⟨rfl, rfl, rfl⟩ : l = [] ∧ t = s ∧ l' = [] := by cases l <;> simp_all
      exact .inl (hle (hread ht))
    have hctor' : Env.isConstructor { env with inLoop := true } = true := hctor
    cases s with
    | block i body =>
      obtain ⟨d', hd', hle, hloop, hmeets⟩ := Tracks.stmts (fun c hc _ _ => ih c hc hctor hv) h d hd
      rw [Machine.trace]
      exact ⟨d', hd', hle, hloop, hmeets.within⟩
    | cond i c yes no =>
      obtain ⟨inYes, hyes, h⟩ := bind_eq_ok.1 h
      obtain ⟨inNo, hno, h⟩ := bind_eq_ok.1 h
      obtain ⟨d', hd', hle, hloop, hmeets⟩ := ih yes (.head _) hctor hv hyes d hd
      obtain ⟨e, he, -, -, hmeets'⟩ := Tracks.stmtOption
        (fun c hc _ _ => ih c (by simp_all [Stmt.children]) hctor hv) hno d hd
      split at h <;> cases h
      rename_i hagree
      have hsame : Sorted.find? inNo v = some d' := by
        simpa using List.find?_eq_none.1 (Option.map_eq_none_iff.1 hagree) _
          (Sorted.mem_of_find? hd')
      obtain rfl : e = d' := Option.some.inj (he.symm.trans hsame)
      refine ⟨e, hd', hle, hloop, ?_⟩
      rw [Machine.trace]
      refine (Logged.Meets.noting (hself id rfl)).bind fun b d' hd' => ?_
      subst hd'
      exact .ite (fun _ => hmeets) fun _ => hmeets'
    | loop i c body =>
      obtain ⟨hd', hmeets⟩ := (ih body (.head _) hctor' hv h).repeated hd
      refine ⟨d, hd', id, fun _ => rfl, ?_⟩
      rw [Machine.trace]
      exact .mono (.iterate (.noting (hself id rfl)) hmeets _) fun _ _ h _ => h
    | doLoop i body c =>
      obtain ⟨hd', hmeets⟩ := (ih body (.head _) hctor' hv h).repeated hd
      refine ⟨d, hd', id, fun _ => rfl, ?_⟩
      rw [Machine.trace]
      refine hmeets.bind fun o e he => ?_
      subst he
      exact .ite (fun _ => .mono (.iterate (.noting (hself id rfl)) hmeets _) fun _ _ h _ => h)
        fun _ => .pure fun _ => rfl
    | forLoop i init c update body =>
      obtain ⟨a₁, hinit, h⟩ := bind_eq_ok.1 h
      obtain ⟨a₂, hbody, hupdate⟩ := bind_eq_ok.1 h
      obtain ⟨d', hd₁, hle, hloop, hmeets⟩ := Tracks.stmtOption
        (fun c hc _ _ => ih c (by simp_all [Stmt.children]) hctor hv) hinit d hd
      obtain ⟨hd₂, hmeets₂⟩ := (ih body (by simp [Stmt.children]) hctor' hv hbody).repeated hd₁
      obtain ⟨hd₃, hmeets₃⟩ := (Tracks.stmtOption
        (fun c hc _ _ => ih c (by simp_all [Stmt.children]) hctor' hv) hupdate).repeated hd₂
      refine ⟨d', hd₃, hle, hloop, ?_⟩
      rw [Machine.trace]
      refine .within (hmeets.bind fun o e he => .ite (fun ho => ?_) fun ho => .pure he)
      obtain rfl := he (.inl ho)
      refine .mono (.iterate (.noting (hself hle rfl)) (hmeets₂.bind fun o e' he' => ?_) _)
        fun _ _ h _ => h
      subst he'
      exact .ite (fun _ => hmeets₃) fun _ => .pure rfl
    | assign i lhs rhs =>
      obtain ⟨hopen, hcount⟩ := target_count h hv
      obtain ⟨d', hd', heq⟩ := hcount d hd
      refine ⟨d', hd', ?_, fun hl => ?_, .mono (.noting (hself id heq)) fun _ _ h _ => h⟩
      · rintro rfl
        cases d' <;> simp at heq ⊢
      · have hnone : lhs.wholes.count v = 0 := by
          refine List.count_eq_zero.2 fun hmem => ?_
          simpa [Env.isClosed, hl] using (hopen hmem).2
        rw [hnone] at heq
        cases d <;> cases d' <;> simp at heq ⊢
    | _ =>
      cases h
      exact ⟨d, hd, id, fun _ => rfl, .mono (.noting (hself id rfl)) fun _ _ h _ => h⟩

theorem find?_initial {c : Contract} (hv : v ∈ c.stateVars) (hfinal : (q.var v).isFinal = true)
    (hconst : (q.var v).isConstant = false) :
    Sorted.find? (initial q c) v = some (q.var v).init.isSome := by
  have hmem : v ∈ c.stateVars.filter fun v => (q.var v).isFinal && !(q.var v).isConstant := by
    simp [hv, hfinal, hconst]
  rw [initial]
  generalize c.stateVars.filter _ = vs at hmem
  induction vs with
  | nil => cases hmem
  | cons w vs ih =>
    rw [List.map_cons, Sorted.find?_cons]
    split
    · rename_i hw
      obtain rfl : w = v := hw
      rfl
    · rename_i hw
      exact ih ((List.mem_cons.1 hmem).resolve_left fun h => hw h.symm)

/-- Only constructors change what is known. -/
theorem functions_eq {fs : List FunctionId} (h : functions q fs a = .ok b)
    (hnone : ∀ g ∈ fs, (q.function g).isConstructor = false) : b = a := by
  induction fs with
  | nil =>
    cases h
    rfl
  | cons g fs ih =>
    rw [functions] at h
    obtain ⟨after, -, hfs⟩ := bind_eq_ok.1 h
    rw [List.forall_mem_cons] at hnone
    rw [hnone.1] at hfs
    exact ih hfs hnone.2

/-- The only constructor of a contract starts from the initial state, and what it leaves is left at
the end. -/
theorem functions_constructor {fs : List FunctionId} (h : functions q fs a = .ok b) {f : FunctionId}
    (hf : f ∈ fs) (hone : ∀ g ∈ fs, (q.function g).isConstructor = true → g = f) :
    ∃ b', stmt { program := q, id := f } (q.function f).body a = .ok b' ∧
      ((q.function f).isConstructor = true → fs.Nodup → b = b') := by
  induction fs with
  | nil => cases hf
  | cons g fs ih =>
    rw [functions] at h
    obtain ⟨after, hg, hfs⟩ := bind_eq_ok.1 h
    rw [List.forall_mem_cons] at hone
    by_cases hgf : g = f
    · subst hgf
      refine ⟨after, hg, fun hctor hnodup => ?_⟩
      rw [if_pos hctor] at hfs
      refine functions_eq hfs fun k hk => Bool.eq_false_iff.2 fun hk' => ?_
      exact (List.nodup_cons.1 hnodup).1 (hone.2 k hk hk' ▸ hk)
    · rw [if_neg fun hctor => hgf (hone.1 hctor)] at hfs
      obtain ⟨b', hb', heq⟩ := ih hfs ((List.mem_cons.1 hf).resolve_left fun h => hgf h.symm) hone.2
      exact ⟨b', hb', fun hctor hnodup => heq hctor (List.nodup_cons.1 hnodup).2⟩

end FinalRule

theorem Expr.wholes_subset_idents (e : Expr) : e.wholes ⊆ e.idents := by
  induction e using Expr.induct with
  | ident i w =>
    rw [idents_eq]
    exact List.subset_append_left _ _
  | tuple i es ih =>
    have hlist : wholesList es = es.flatMap wholes := by
      clear ih
      induction es with
      | nil => rfl
      | cons e es ih => rw [wholesList, ih, List.flatMap_cons]
    rw [wholes, hlist, idents_eq]
    intro v hv
    obtain ⟨e, he, hv⟩ := List.mem_flatMap.1 hv
    exact List.mem_append_right _ (List.mem_flatMap.2 ⟨e, he, ih e he hv⟩)
  | _ => exact nofun

namespace Program

variable {q : Program} {f : FunctionId}

/-- A function assigns the state of its own contract only. -/
theorem Scoped.mem_stateVars (hq : q.Scoped) (hf : q.Has f)
    (hv : (q.var v).isState = true) {t : Stmt} (ht : t ∈ (q.function f).body.walk)
    (hmem : v ∈ t.assigned) : v ∈ (q.contract (q.function f).contract).stateVars := by
  obtain ⟨fs, n, hs, -⟩ := hq.function f hf
  change q.isState v = true at hv
  have hvis : v ∈ (q.function f).body.declared ++
      ((q.function f).params ++ (q.contract (q.function f).contract).stateVars) := by
    cases t with
    | assign i lhs rhs =>
      exact (hs.body.within _ ht (.target, lhs) (.head _)).1 v
        (lhs.wholes_subset_idents hmem)
    | _ => cases hmem
  simp only [List.mem_append] at hvis
  rcases hvis with hlocal | hparam | hown
  · simp [(hs.locals v hlocal).isState_eq] at hv
  · simp [(hs.params v hparam).isState_eq] at hv
  · exact hown

end Program

namespace SourceUnit

/-- **Final variables are assigned once.** Locals and parameters are not assigned after their
declaration, and the state only by the constructor of its contract: once at most, not if it has an
initializer, and before all reads. -/
theorem final_assigned_once {u : SourceUnit} {p q : Program} (hp : u.resolve = .ok p)
    (hq : q = p.withEffects.withAliases) (hfinal : q.checkFinal = .ok ())
    (hone : ∀ c, ∀ f ∈ (q.contract c).functions, ∀ g ∈ (q.contract c).functions,
      (q.function f).isConstructor = true → (q.function g).isConstructor = true → f = g)
    (m : Machine q) {f : FunctionId} (hf : f.index < q.functions.length) (σ : Store q)
    {v : VarId} (hv : (q.var v).isFinal = true) :
    (m.trace (q.function f).body).erase = m.exec (q.function f).body ∧
    (∀ t ∈ (q.function f).body.walk, v ∈ t.assigned → (q.function f).isConstructor = true ∧
      v ∈ (q.contract (q.function f).contract).stateVars) ∧
    ((q.function f).isConstructor = true → (q.var v).isConstant = false →
      v ∈ (q.contract (q.function f).contract).stateVars →
      ((m.log (q.function f).body σ).flatMap Stmt.assigned).count v ≤
        (if (q.var v).init.isSome then 0 else 1) ∧
      ((q.var v).init = none → ∀ l s l', m.log (q.function f).body σ = l ++ s :: l' →
        v ∈ s.reads → v ∈ l.flatMap Stmt.assigned)) := by
  have hscoped : q.Scoped := hq ▸ resolve_annotated_scoped hp
  obtain ⟨hc, hmem⟩ := hscoped.mem f hf
  have hid : (q.function f).contract ∈ q.contractIds :=
    List.mem_map.2 ⟨_, List.mem_range.2 hc, rfl⟩
  obtain ⟨b, hfs, -⟩ := bind_eq_ok.1 (forM_eq_ok hfinal _ hid)
  refine ⟨Machine.erase_trace _, fun t ht hassigned => ?_, fun hctor hconst hvar => ?_⟩
  · obtain ⟨a, b, hbody⟩ := FinalRule.functions_mem hfs f hmem
    obtain ⟨l, a', b', -, ht'⟩ := FinalRule.stmt_walk hbody t ht
    obtain ⟨hstate, hopen⟩ := FinalRule.stmt_assigned ht' hv hassigned
    refine ⟨?_, hscoped.mem_stateVars hf hstate ht hassigned⟩
    simp_all [FinalRule.Env.isClosed, FinalRule.Env.isConstructor]
  · have henv : FinalRule.Env.isConstructor { program := q, id := f } = true := hctor
    obtain ⟨b', hbody, -⟩ := FinalRule.functions_constructor hfs hmem fun g hg hg' =>
      hone _ g hg f hmem hg' hctor
    obtain ⟨_, -, -, -, hmeets⟩ := FinalRule.stmt_tracks (m := m) henv hv hbody _
      (FinalRule.find?_initial hvar hv hconst)
    obtain ⟨e, honce, -⟩ := hmeets σ
    have hwrites : _ + ((m.log (q.function f).body σ).flatMap Stmt.assigned).count v = _ :=
      honce.writes
    refine ⟨?_, fun hinit l s l' hlog hs => ?_⟩
    · have hle := Bool.toNat_le e
      cases hinit : (q.var v).init.isSome <;> simp only [hinit] at hwrites ⊢ <;>
        simp only [Bool.toNat_true, Bool.toNat_false] at hwrites <;> simp <;> omega
    · exact (honce.reads l s l' hlog hs).resolve_left (by simp [hinit])

/-- A constructor that assigns a final variable in both branches and reads it in a loop. -/
def bounded : SourceUnit := .single "Bounded" [
  { name := "least", type := .mk (.uint 8) .all, isFinal := true, init := some 2 },
  { name := "bound", type := .mk (.uint 8) .all, isFinal := true },
  { name := "n", type := .mk (.uint 8) .all }] [
  { name := ""
    kind := .constructor
    params := [{ name := "start", type := .mk (.uint 8) .all, isFinal := true }]
    body := [
      .cond {} (.builtin {} .gt ["start", "least"])
        (.assign {} "bound" none "start")
        (some (.assign {} "bound" none "least")),
      .loop {} (.bool {} true) (.block {} [
        .assign {} "n" none "bound",
        .leave {}])] }]

/-- Its rules accept it, and it runs to its end: the bound is assigned, and then read. -/
theorem bounded_runs : ∃ p q, bounded.resolve = .ok p ∧ q = p.withEffects.withAliases ∧
    q.checkFinal = .ok () ∧ (∀ c, ∀ f ∈ (q.contract c).functions, f = ⟨0⟩) ∧ 0 < q.functions.length ∧
    (q.function ⟨0⟩).isConstructor = true ∧ (q.var ⟨1⟩).isFinal = true ∧
    (q.var ⟨1⟩).isConstant = false ∧ (q.var ⟨1⟩).init = none ∧
    (⟨1⟩ : VarId) ∈ (q.contract (q.function ⟨0⟩).contract).stateVars ∧
    ∃ (m : Machine q) (τ : Store q), Runs (m.exec (q.function ⟨0⟩).body) (Store.zeros q) .normal τ ∧
      let log := m.log (q.function ⟨0⟩).body (Store.zeros q)
      (log.flatMap Stmt.assigned).count ⟨1⟩ = 1 ∧ ∃ s ∈ log, (⟨1⟩ : VarId) ∈ s.reads := by
  let m (q : Program) := q.machine 7 true 2 1
  let log (q : Program) := (m q).log (q.function ⟨0⟩).body (Store.zeros q)
  let accepts (q : Program) : Bool :=
    q.checkFinal.toOption.any fun _ =>
      (((m q).exec (q.function ⟨0⟩).body).run (Store.zeros q)).any fun r => r.1.isNormal ∧
        q.functions.length = 1 ∧ (q.function ⟨0⟩).isConstructor ∧
        (q.var ⟨1⟩).isFinal ∧ (q.var ⟨1⟩).isConstant = false ∧ (q.var ⟨1⟩).init.isNone ∧
        (⟨1⟩ : VarId) ∈ (q.contract (q.function ⟨0⟩).contract).stateVars ∧
        ((log q).flatMap Stmt.assigned).count ⟨1⟩ = 1 ∧ ∃ s ∈ log q, (⟨1⟩ : VarId) ∈ s.reads
  have htest : bounded.resolve.toOption.any (fun p => accepts p.withEffects.withAliases) = true := by
    decide +kernel
  obtain ⟨p, hp, htest⟩ := any_toOption.1 htest
  generalize hq : p.withEffects.withAliases = q at htest
  obtain ⟨_, hfinal, htest⟩ := any_toOption.1 htest
  obtain ⟨⟨o, τ⟩, hrun, htest⟩ := (Option.any_eq_true _ _).1 htest
  obtain ⟨ho, hlen, hctor, hvar, hconst, hinit, hmem, hlog⟩ := of_decide_eq_true htest
  cases o <;> cases ho
  have hscoped : q.Scoped := hq ▸ resolve_annotated_scoped hp
  refine ⟨p, q, hp, hq.symm, hfinal, fun c f hf => ?_, by simp [hlen], hctor, hvar, hconst,
    by simpa using hinit, hmem, m q, _, hrun, hlog⟩
  have hlt := hlen ▸ (hscoped.contract c f hf).1
  cases f
  exact congrArg FunctionId.mk (Nat.lt_one_iff.1 hlt)

/-- The bound is assigned once, before the loop reads it. -/
theorem final_assigned_once_bounded : ∃ p q, bounded.resolve = .ok p ∧
    q = p.withEffects.withAliases ∧ q.checkFinal = .ok () ∧
    ∃ m : Machine q, let log := m.log (q.function ⟨0⟩).body (Store.zeros q)
      (log.flatMap Stmt.assigned).count ⟨1⟩ = 1 ∧
      (∃ s ∈ log, (⟨1⟩ : VarId) ∈ s.reads) ∧
      ∀ l s l', log = l ++ s :: l' → (⟨1⟩ : VarId) ∈ s.reads →
        (⟨1⟩ : VarId) ∈ l.flatMap Stmt.assigned := by
  obtain ⟨p, q, hp, hq, hfinal, hone, hf, hctor, hvar, hconst, hinit, hmem, m, τ, -, hcount, hread⟩ :=
    bounded_runs
  refine ⟨p, q, hp, hq, hfinal, m, hcount, hread, ?_⟩
  exact ((final_assigned_once hp hq hfinal
    (fun c f hf g hg _ _ => (hone c f hf).trans (hone c g hg).symm) m (f := ⟨0⟩) hf _ hvar).2.2 hctor
      hconst hmem).2 hinit

/-- A constructor that runs to its end has assigned the final state. -/
theorem final_initialized {u : SourceUnit} {p q : Program} (hp : u.resolve = .ok p)
    (hq : q = p.withEffects.withAliases) (hfinal : q.checkFinal = .ok ()) {f : FunctionId}
    (hf : f.index < q.functions.length) (hctor : (q.function f).isConstructor = true)
    (hone : ∀ g ∈ (q.contract (q.function f).contract).functions,
      (q.function g).isConstructor = true → g = f)
    (m : Machine q) {σ τ : Store q} (hrun : Runs (m.exec (q.function f).body) σ .normal τ) {v : VarId}
    (hmem : v ∈ (q.contract (q.function f).contract).stateVars) (hv : (q.var v).isFinal = true)
    (hconst : (q.var v).isConstant = false) (hinit : (q.var v).init = none) :
    ((m.log (q.function f).body σ).flatMap Stmt.assigned).count v = 1 := by
  have hscoped : q.Scoped := hq ▸ resolve_annotated_scoped hp
  obtain ⟨hc, hown⟩ := hscoped.mem f hf
  obtain ⟨b, hfs, hdone⟩ := bind_eq_ok.1 (forM_eq_ok hfinal _ (List.mem_map.2
    ⟨_, List.mem_range.2 hc, rfl⟩))
  obtain ⟨b', hbody, heq⟩ := FinalRule.functions_constructor hfs hown hone
  obtain rfl := heq hctor (hscoped.nodup _)
  have henv : FinalRule.Env.isConstructor { program := q, id := f } = true := hctor
  obtain ⟨d, hd, -, -, hmeets⟩ := FinalRule.stmt_tracks (m := m) henv hv hbody _
    (FinalRule.find?_initial hmem hv hconst)
  obtain ⟨e, honce, hend⟩ := hmeets σ
  have hresult : (m.trace (q.function f).body σ).2 = some (.normal, τ) :=
    (congrFun (Machine.erase_trace (q.function f).body) σ).trans hrun
  -- the rule has refused what is not assigned at the end
  have hassigned : d = true := by
    split at hdone
    · cases hdone
    · rename_i hnone
      simpa using List.find?_eq_none.1 hnone _ (Sorted.mem_of_find? hd)
  have hwrites : _ + ((m.log (q.function f).body σ).flatMap Stmt.assigned).count v = _ :=
    honce.writes
  rw [hend _ hresult (.inl rfl), hassigned, hinit] at hwrites
  simpa using hwrites

/-- The bound is assigned when the constructor has run to its end. -/
theorem final_initialized_bounded : ∃ p q, bounded.resolve = .ok p ∧
    q = p.withEffects.withAliases ∧ q.checkFinal = .ok () ∧
    ∃ m : Machine q, ∃ τ, Runs (m.exec (q.function ⟨0⟩).body) (Store.zeros q) .normal τ ∧
      ((m.log (q.function ⟨0⟩).body (Store.zeros q)).flatMap Stmt.assigned).count ⟨1⟩ = 1 := by
  obtain ⟨p, q, hp, hq, hfinal, hone, hf, hctor, hvar, hconst, hinit, hmem, m, τ, hrun, -⟩ :=
    bounded_runs
  exact ⟨p, q, hp, hq, hfinal, m, τ, hrun, final_initialized hp hq hfinal (f := ⟨0⟩) hf hctor
    (fun g hg _ => hone _ g hg) m hrun hmem hvar hconst hinit⟩

/-- A constructor that may return before it assigns the final owner. -/
def skipped : SourceUnit := .single "Skipped" [
  { name := "owner", type := .mk .address .all, isFinal := true },
  { name := "x", type := .mk (.uint 8) (.name "owner") }] [
  { name := ""
    kind := .constructor
    params := [{ name := "skip", type := .mk .bool .all }]
    body := [
      .cond {} "skip" (.block {} [.ret {} none]) none,
      .assign {} "owner" none (.me {})] }]

/-- The rules accept a constructor that returns early, and then nothing is assigned: the owner is the
zero address. -/
theorem skipped_uninitialized : ∃ q, Passes skipped.check q ∧
    (q.function ⟨0⟩).isConstructor = true ∧ (q.var ⟨0⟩).isFinal = true ∧
    (q.var ⟨0⟩).isConstant = false ∧ (q.var ⟨0⟩).init.isNone = true ∧
    ∃ (m : Machine q) (σ τ : Store q) (o : Outcome), Runs (m.exec (q.function ⟨0⟩).body) σ o τ ∧
      (o.value? q ⟨0⟩).isSome = true ∧
      (⟨0⟩ : VarId) ∉ (m.log (q.function ⟨0⟩).body σ).flatMap Stmt.assigned ∧
      (τ.get ⟨0⟩).map Value.datum = some (.number 0) := by
  let m (q : Program) := q.machine 7 true 1 1
  let σ (q : Program) := (Store.zeros q).set ⟨2⟩ (.bool true)
  have htest : Passes.test skipped.check (fun q =>
      match ((m q).exec (q.function ⟨0⟩).body).run (σ q) with
      | some (o, τ) => (q.function ⟨0⟩).isConstructor ∧ (q.var ⟨0⟩).isFinal ∧
          (q.var ⟨0⟩).isConstant = false ∧ (q.var ⟨0⟩).init.isNone ∧ (o.value? q ⟨0⟩).isSome ∧
          (⟨0⟩ : VarId) ∉ ((m q).log (q.function ⟨0⟩).body (σ q)).flatMap Stmt.assigned ∧
          (τ.get ⟨0⟩).map Value.datum = some (.number 0)
      | none => false) = true := by
    decide +kernel
  obtain ⟨q, hq, htest⟩ := Passes.of_test htest
  split at htest
  · rename_i o τ hrun
    obtain ⟨hctor, hfinal, hconst, hinit, hends, hnone, hzero⟩ := of_decide_eq_true htest
    exact ⟨q, hq, hctor, hfinal, hconst, hinit, m q, σ q, τ, o, hrun, hends, hnone, hzero⟩
  · cases htest

end SourceUnit

end Shroud
