import Mathlib.Data.List.Basic
import Mathlib.Data.List.Forall2
import Shroud.Program.Walk

/-! # Syntax trees

Induction over expressions and statements with a hypothesis for every element of a list, and the
tree behind a checked one: `plain` takes out the implicit conversions and everything that the
analyses found out about an expression.
-/

namespace List.Forall₂

variable {α β : Type} {r : α → β → Prop} {l : List α} {l' : List β}

theorem exists_left (h : Forall₂ r l l') {b : β} (hb : b ∈ l') : ∃ a ∈ l, r a b := by
  induction h with
  | nil => cases hb
  | @cons x y l l' hxy _ ih =>
    rcases mem_cons.1 hb with rfl | hb
    · exact ⟨x, mem_cons_self, hxy⟩
    · obtain ⟨a, ha, hr⟩ := ih hb
      exact ⟨a, mem_cons_of_mem _ ha, hr⟩

theorem exists_right (h : Forall₂ r l l') {a : α} (ha : a ∈ l) : ∃ b ∈ l', r a b :=
  h.flip.exists_left ha

/-- What follows for the right side holds of all that is there. -/
theorem forall_right {P : β → Prop} (h : Forall₂ r l l') (hr : ∀ a b, r a b → P b) :
    ∀ b ∈ l', P b := by
  intro b hb
  obtain ⟨a, -, hab⟩ := h.exists_left hb
  exact hr a b hab

end List.Forall₂

namespace Shroud

/-! ## Induction -/

namespace Expr

/-- Induction with a hypothesis for every operand, argument and element. -/
@[elab_as_elim]
theorem induct {P : Expr → Prop}
    (bool : ∀ i b, P (.bool i b)) (number : ∀ i n, P (.number i n)) (me : ∀ i, P (.me i))
    (ident : ∀ i v, P (.ident i v))
    (builtin : ∀ i op args b, (∀ e ∈ args, P e) → P (.builtin i op args b))
    (call : ∀ i f args, (∀ e ∈ args, P e) → P (.call i f args))
    (index : ∀ i base idx, P base → P idx → P (.index i base idx))
    (reclassify : ∀ i e o b, P e → P (.reclassify i e o b))
    (cast : ∀ i t e b, P e → P (.cast i t e b))
    (tuple : ∀ i es, (∀ e ∈ es, P e) → P (.tuple i es)) (e : Expr) : P e :=
  @Expr.rec P (fun es => ∀ e ∈ es, P e) bool number me ident builtin call index reclassify cast
    tuple (by simp) (fun e es he hes => by
      rintro x (_ | ⟨_, hx⟩)
      · exact he
      · exact hes x hx) e

/-- Induction with one case for all expressions. -/
theorem induct_children {P : Expr → Prop} (h : ∀ e, (∀ c ∈ e.children, P c) → P e) (e : Expr) :
    P e := by
  induction e using Expr.induct with
  | builtin i op args b ih | call i f args ih | tuple i es ih => exact h _ ih
  | index i base idx hb hi => exact h _ (by simp [children, hb, hi])
  | reclassify i e o b ih | cast i t e b ih => exact h _ (by simp [children, ih])
  | _ => exact h _ nofun

end Expr

namespace Stmt

/-- Induction with a hypothesis for every statement right inside. -/
@[elab_as_elim]
theorem induct {P : Stmt → Prop}
    (block : ∀ i body, (∀ s ∈ body, P s) → P (.block i body))
    (cond : ∀ i c yes no, P yes → (∀ s ∈ no, P s) → P (.cond i c yes no))
    (loop : ∀ i c body, P body → P (.loop i c body))
    (doLoop : ∀ i body c, P body → P (.doLoop i body c))
    (forLoop : ∀ i init c update body, (∀ s ∈ init, P s) → (∀ s ∈ update, P s) → P body →
      P (.forLoop i init c update body))
    (decl : ∀ i v init, P (.decl i v init)) (assign : ∀ i lhs rhs, P (.assign i lhs rhs))
    (expr : ∀ i e, P (.expr i e)) (require : ∀ i e, P (.require i e))
    (ret : ∀ i e, P (.ret i e)) (leave : ∀ i, P (.leave i)) (next : ∀ i, P (.next i))
    (s : Stmt) : P s :=
  @Stmt.rec P (fun ss => ∀ s ∈ ss, P s) (fun o => ∀ s ∈ o, P s)
    block cond loop doLoop forLoop decl assign expr require ret leave next (by simp)
    (fun s ss hs hss => by
      rintro x (_ | ⟨_, hx⟩)
      · exact hs
      · exact hss x hx)
    (by simp) (fun s hs => by rintro _ ⟨⟩; exact hs) s

theorem forall_children_forLoop {P : Stmt → Prop} {i : Info} {init update : Option Stmt}
    {c : Option Expr} {body : Stmt} : (∀ s ∈ (forLoop i init c update body).children, P s) ↔
      (∀ s ∈ init, P s) ∧ P body ∧ ∀ s ∈ update, P s := by
  simp only [children, List.forall_mem_append, List.forall_mem_cons, Option.mem_toList, Option.mem_def]

/-- Induction with one case for all statements. -/
theorem induct_children {P : Stmt → Prop} (h : ∀ s, (∀ c ∈ s.children, P c) → P s) (s : Stmt) :
    P s := by
  induction s using Stmt.induct with
  | block i body ih => exact h _ ih
  | cond i c yes no hy hn =>
    exact h _ (List.forall_mem_cons.2 ⟨hy, fun s hs => hn s (Option.mem_toList.1 hs)⟩)
  | loop i c body ih | doLoop i body c ih => exact h _ (by simp [children, ih])
  | forLoop i init c update body hi hu hb =>
    exact h _ (forall_children_forLoop.2 ⟨hi, hb, hu⟩)
  | _ => exact h _ nofun

end Stmt

/-! ## Parts -/

namespace Expr

theorem usesList_eq_flatMap (u : Use) (es : List Expr) : usesList u es = es.flatMap (uses u) := by
  induction es with
  | nil => rfl
  | cons e es ih => rw [usesList, ih, List.flatMap_cons]

theorem uses_value_eq (e : Expr) :
    e.uses .value = (.value, e) :: e.children.flatMap (uses .value) := by
  cases e <;> simp [uses, usesList_eq_flatMap, children]

/-- The parts of an expression are the expression and the parts of those right inside. -/
theorem subterms_eq (e : Expr) : e.subterms = e :: e.children.flatMap subterms := by
  rw [subterms, uses_value_eq, List.map_cons, List.map_flatMap]
  rfl

/-- The parts do not depend on the use. -/
theorem map_snd_uses (u : Use) (e : Expr) : (e.uses u).map Prod.snd = e.subterms := by
  induction e using Expr.induct generalizing u with
  | index i base idx hb hi =>
    rw [uses, List.map_cons, List.map_append, hb, hi, subterms_eq (.index i base idx)]
    simp [children]
  | tuple i es ih =>
    rw [uses, usesList_eq_flatMap, List.map_cons, List.map_flatMap, subterms_eq (.tuple i es)]
    exact congrArg _ (List.flatMap_congr fun e he => ih e he u)
  | _ => rfl

@[simp] theorem mem_subterms_self (e : Expr) : e ∈ e.subterms := by
  rw [subterms_eq]
  exact List.mem_cons_self

theorem mem_subterms_iff {e x : Expr} :
    x ∈ e.subterms ↔ x = e ∨ ∃ c ∈ e.children, x ∈ c.subterms := by
  rw [subterms_eq, List.mem_cons, List.mem_flatMap]

/-- What holds in an expression holds of it and in its operands. -/
theorem forall_subterms_iff {e : Expr} {P : Expr → Prop} :
    (∀ x ∈ e.subterms, P x) ↔ P e ∧ ∀ c ∈ e.children, ∀ x ∈ c.subterms, P x := by
  rw [subterms_eq, List.forall_mem_cons, List.forall_mem_flatMap]

/-- What passes to operands holds of all parts. -/
theorem forall_subterms {e : Expr} {P : Expr → Prop} (h : P e)
    (hc : ∀ {e}, P e → ∀ c ∈ e.children, P c) : ∀ x ∈ e.subterms, P x := by
  induction e using Expr.induct_children with
  | h e ih => exact forall_subterms_iff.2 ⟨h, fun c hm => ih c hm (hc h c hm)⟩

/-- The functions called by an expression are those called right in it and in its parts. -/
theorem callees_eq (e : Expr) : e.callees = e.callee?.toList ++ e.children.flatMap callees := by
  rw [callees, subterms_eq, List.filterMap_cons, List.filterMap_flatMap]
  cases e.callee? <;> rfl

/-- The variables that an assignment to the expression stores into. -/
def targets : Expr → List VarId
  | ident _ v => [v]
  | index _ base _ => base.targets
  | tuple _ es => targetsList es
  | _ => []
where
  targetsList : List Expr → List VarId
  | [] => []
  | e :: es => e.targets ++ targetsList es

theorem targetsList_eq_flatMap (es : List Expr) : targets.targetsList es = es.flatMap targets := by
  induction es with
  | nil => rfl
  | cons e es ih => rw [targets.targetsList, ih, List.flatMap_cons]

/-- What is used as a value is no target. -/
theorem not_target_of_mem_uses {e x : Expr} : (Use.target, x) ∉ e.uses .value := by
  induction e using Expr.induct with
  | builtin i op args b ih | call i f args ih | tuple i es ih =>
    simpa [uses, usesList_eq_flatMap] using ih
  | index i base idx hb hi => simp [uses, hb, hi]
  | reclassify i e o b ih | cast i t e b ih => simp [uses, ih]
  | _ => simp [uses]

/-- The variables that are targets are the variables stored into. -/
theorem mem_targets_iff {e : Expr} {v : VarId} :
    v ∈ e.targets ↔ ∃ i, (Use.target, Expr.ident i v) ∈ e.uses .target := by
  have hvalue : ∀ (es : List Expr) (i : Info),
      (Use.target, Expr.ident i v) ∉ es.flatMap (uses .value) := fun es i h => by
    obtain ⟨e, -, he⟩ := List.mem_flatMap.1 h
    exact not_target_of_mem_uses he
  induction e using Expr.induct with
  | ident i w =>
    simp only [targets, uses, List.mem_singleton, Prod.mk.injEq, Expr.ident.injEq, true_and]
    exact ⟨fun h => ⟨i, rfl, h⟩, fun ⟨_, _, h⟩ => h⟩
  | index i base idx hb _ => simp [targets, uses, hb, not_target_of_mem_uses]
  | tuple i es ih =>
    simp only [targets, uses, targetsList_eq_flatMap, usesList_eq_flatMap, List.mem_flatMap,
      List.mem_cons, Prod.mk.injEq, true_and, reduceCtorEq, false_or]
    constructor
    · rintro ⟨e, he, hv⟩
      obtain ⟨j, hj⟩ := (ih e he).1 hv
      exact ⟨j, e, he, hj⟩
    · rintro ⟨j, e, he, hj⟩
      exact ⟨e, he, (ih e he).2 ⟨j, hj⟩⟩
  | builtin i op args b _
  | call i f args _ => simpa [targets, uses, usesList_eq_flatMap] using hvalue args
  | reclassify i e o b _ | cast i t e b _ => simp [targets, uses, not_target_of_mem_uses]
  | _ => simp [targets, uses]

end Expr

namespace Stmt

variable {s : Stmt}

/-- The variables that the statement itself stores into. -/
def targets : Stmt → List VarId
  | assign _ lhs _ => lhs.targets
  | _ => []

theorem walkList_eq_flatMap (ss : List Stmt) : walkList ss = ss.flatMap walk := by
  induction ss with
  | nil => rfl
  | cons s ss ih => rw [walkList, ih, List.flatMap_cons]

theorem walkOption_eq_flatMap (o : Option Stmt) : walkOption o = o.toList.flatMap walk := by
  cases o <;> simp [walkOption]

/-- The parts of a statement are the statement and the parts of the statements right inside. -/
theorem walk_eq (s : Stmt) : s.walk = s :: s.children.flatMap walk := by
  cases s <;>
    simp [walk, children, walkList_eq_flatMap, walkOption_eq_flatMap, List.flatMap_append]

@[simp] theorem mem_walk_self (s : Stmt) : s ∈ s.walk := by
  rw [walk_eq]
  exact List.mem_cons_self

theorem mem_walk_iff {t : Stmt} : t ∈ s.walk ↔ t = s ∨ ∃ c ∈ s.children, t ∈ c.walk := by
  rw [walk_eq, List.mem_cons, List.mem_flatMap]

theorem forall_walk_iff {P : Stmt → Prop} :
    (∀ t ∈ s.walk, P t) ↔ P s ∧ ∀ c ∈ s.children, ∀ t ∈ c.walk, P t := by
  rw [walk_eq, List.forall_mem_cons, List.forall_mem_flatMap]

/-- What holds of a statement and in its parts holds in it. -/
theorem forall_walk {P : Stmt → Prop} (hs : P s) (hc : ∀ c ∈ s.children, ∀ t ∈ c.walk, P t) :
    ∀ t ∈ s.walk, P t :=
  forall_walk_iff.2 ⟨hs, hc⟩

theorem forall_walk_of {P : Stmt → Prop} (h : P s) (hc : ∀ {s}, P s → ∀ c ∈ s.children, P c) :
    ∀ t ∈ s.walk, P t := by
  induction s using Stmt.induct_children with
  | h s ih => exact forall_walk h fun c hm => ih c hm (hc h c hm)

theorem mem_walk_trans {t u : Stmt} (hu : u ∈ t.walk) (ht : t ∈ s.walk) : u ∈ s.walk :=
  forall_walk_of (P := (·.walk ⊆ s.walk)) (List.Subset.refl _)
    (fun h c hc _ hx => h (mem_walk_iff.2 (.inr ⟨c, hc, hx⟩))) t ht hu

theorem mem_walk_of_mem_children {c : Stmt} (hc : c ∈ s.children) : c ∈ s.walk :=
  mem_walk_iff.2 (.inr ⟨c, hc, mem_walk_self c⟩)

/-- The expressions of a statement are the parts of what stands right in its parts. -/
theorem mem_exprs_iff {e : Expr} : e ∈ s.exprs ↔ ∃ t ∈ s.walk, ∃ r ∈ t.roots, e ∈ r.2.subterms := by
  simp only [exprs, uses, List.map_flatMap, List.mem_flatMap, Expr.map_snd_uses]

/-- A variable is a target where a statement stores into it. -/
theorem exists_target_uses_iff {v : VarId} :
    (∃ i, (Use.target, Expr.ident i v) ∈ s.uses) ↔ ∃ t ∈ s.walk, v ∈ t.targets := by
  have hroots : ∀ t : Stmt, (∃ i, ∃ r ∈ t.roots, (Use.target, Expr.ident i v) ∈ r.2.uses r.1) ↔
      v ∈ t.targets := by
    intro t
    cases t <;>
      simp [roots, targets, Expr.mem_targets_iff, Expr.not_target_of_mem_uses]
  simp only [uses, List.mem_flatMap, ← hroots]
  constructor
  · rintro ⟨i, t, ht, r, hr, hv⟩
    exact ⟨t, ht, i, r, hr, hv⟩
  · rintro ⟨t, ht, i, r, hr, hv⟩
    exact ⟨i, t, ht, r, hr, hv⟩

/-- The declarations of a statement are its own and those right inside. -/
theorem declared_eq (s : Stmt) :
    s.declared = s.declared?.toList ++ s.children.flatMap declared := by
  rw [declared, walk_eq, List.filterMap_cons, List.filterMap_flatMap]
  cases s.declared? <;> rfl

end Stmt

/-! ## Trees without implicit conversions -/

namespace Expr

/-- Only the place in the source. -/
def Info.plain (i : Info) : Info := { span := i.span }

mutual

/-- The expression as it was written. -/
def plain : Expr → Expr
  | .bool i b => .bool i.plain b
  | .number i n => .number i.plain n
  | .me i => .me i.plain
  | .ident i v => .ident i.plain v
  | .builtin i op args _ => .builtin i.plain op (plainList args) false
  | .call i f args => .call i.plain f (plainList args)
  | .index i base idx => .index i.plain base.plain idx.plain
  | .reclassify i e o implicit => if implicit then e.plain else .reclassify i.plain e.plain o false
  | .cast i t e implicit => if implicit then e.plain else .cast i.plain t e.plain false
  | .tuple i es => .tuple i.plain (plainList es)

def plainList : List Expr → List Expr
  | [] => []
  | e :: es => e.plain :: plainList es

end

theorem plainList_eq_map (es : List Expr) : plainList es = es.map plain := by
  induction es with
  | nil => rfl
  | cons e es ih => rw [plainList, ih, List.map_cons]

/-- Whether the expression is a conversion that is not written in the source. -/
def isImplicit : Expr → Bool
  | reclassify _ _ _ implicit | cast _ _ _ implicit => implicit
  | _ => false

/-- A feature that implicit conversions do not have occurs as often as in the written form. -/
theorem filterMap_subterms_plain {α : Type} (g : Expr → Option α)
    (himplicit : ∀ e, e.isImplicit = true → g e = none)
    (hplain : ∀ e, e.isImplicit = false → g e.plain = g e) (e : Expr) :
    e.plain.subterms.filterMap g = e.subterms.filterMap g := by
  -- A written node keeps its place, and so do the nodes below it.
  have hnode : ∀ x : Expr, x.isImplicit = false → x.plain.children = x.children.map plain →
      (∀ c ∈ x.children, c.plain.subterms.filterMap g = c.subterms.filterMap g) →
      x.plain.subterms.filterMap g = x.subterms.filterMap g := by
    intro x hx hc ih
    rw [subterms_eq, subterms_eq x, hc, List.filterMap_cons, List.filterMap_cons, hplain x hx,
      List.flatMap_map, List.filterMap_flatMap, List.filterMap_flatMap,
      List.flatMap_congr fun c hc => ih c hc]
  have hskip : ∀ x y : Expr, x.isImplicit = true → x.children = [y] →
      y.plain.subterms.filterMap g = y.subterms.filterMap g →
      y.plain.subterms.filterMap g = x.subterms.filterMap g := by
    intro x y hx hc ih
    rw [subterms_eq x, hc, List.filterMap_cons, himplicit x hx]
    simpa using ih
  induction e using Expr.induct with
  | bool i b | number i n | me i | ident i v => exact hnode _ rfl rfl (by simp [children])
  | builtin i op args b ih | call i f args ih => exact hnode _ rfl (plainList_eq_map args) ih
  | tuple i es ih => exact hnode _ rfl (plainList_eq_map es) ih
  | index i base idx hb hi => exact hnode _ rfl rfl (by simp [children, hb, hi])
  | reclassify i e o b ih =>
    cases b with
    | true => exact hskip (.reclassify i e o true) e rfl rfl ih
    | false => exact hnode (.reclassify i e o false) rfl rfl (by simp [children, ih])
  | cast i t e b ih =>
    cases b with
    | true => exact hskip (.cast i t e true) e rfl rfl ih
    | false => exact hnode (.cast i t e false) rfl rfl (by simp [children, ih])

/-- The written form calls the same functions. -/
@[simp] theorem callees_plain (e : Expr) : e.plain.callees = e.callees :=
  filterMap_subterms_plain callee? (fun e h => by cases e <;> simp_all [isImplicit, callee?])
    (fun e h => by cases e <;> simp_all [isImplicit, callee?, plain]) e

def ident? : Expr → Option VarId
  | ident _ v => some v
  | _ => none

/-- The variables that occur in an expression. -/
def idents (e : Expr) : List VarId := e.subterms.filterMap ident?

theorem idents_eq (e : Expr) : e.idents = e.ident?.toList ++ e.children.flatMap idents := by
  rw [idents, subterms_eq, List.filterMap_cons, List.filterMap_flatMap]
  cases e.ident? <;> rfl

/-- The written form has the same variables. -/
@[simp] theorem idents_plain (e : Expr) : e.plain.idents = e.idents :=
  filterMap_subterms_plain ident? (fun e h => by cases e <;> simp_all [isImplicit, ident?])
    (fun e h => by cases e <;> simp_all [isImplicit, ident?, plain]) e

end Expr

/-! ## Statements of the same shape -/

namespace Stmt

section Alike

variable (I : Info → Info → Prop) (R : Expr → Expr → Prop)

mutual

/-- Statements of the same shape that declare the same variables. What is known about them is
related by `I`, and the expressions that stand in them by `R`. -/
inductive Alike : Stmt → Stmt → Prop
  | block {i i' body body'} : I i i' → AlikeList body body' → Alike (.block i body) (.block i' body')
  | cond {i i' c c' yes yes' no no'} : I i i' → R c c' → Alike yes yes' → AlikeOption no no' →
      Alike (.cond i c yes no) (.cond i' c' yes' no')
  | loop {i i' c c' body body'} : I i i' → R c c' → Alike body body' →
      Alike (.loop i c body) (.loop i' c' body')
  | doLoop {i i' c c' body body'} : I i i' → Alike body body' → R c c' →
      Alike (.doLoop i body c) (.doLoop i' body' c')
  | forLoop {i i' init init' c c' update update' body body'} : I i i' → AlikeOption init init' →
      Option.Rel R c c' → AlikeOption update update' → Alike body body' →
      Alike (.forLoop i init c update body) (.forLoop i' init' c' update' body')
  | decl {i i' v init init'} : I i i' → Option.Rel R init init' →
      Alike (.decl i v init) (.decl i' v init')
  | assign {i i' lhs lhs' rhs rhs'} : I i i' → R lhs lhs' → R rhs rhs' →
      Alike (.assign i lhs rhs) (.assign i' lhs' rhs')
  | expr {i i' e e'} : I i i' → R e e' → Alike (.expr i e) (.expr i' e')
  | require {i i' e e'} : I i i' → R e e' → Alike (.require i e) (.require i' e')
  | ret {i i' e e'} : I i i' → Option.Rel R e e' → Alike (.ret i e) (.ret i' e')
  | leave {i i'} : I i i' → Alike (.leave i) (.leave i')
  | next {i i'} : I i i' → Alike (.next i) (.next i')

inductive AlikeList : List Stmt → List Stmt → Prop
  | nil : AlikeList [] []
  | cons {s s' ss ss'} : Alike s s' → AlikeList ss ss' → AlikeList (s :: ss) (s' :: ss')

inductive AlikeOption : Option Stmt → Option Stmt → Prop
  | none : AlikeOption none none
  | some {s s'} : Alike s s' → AlikeOption (some s) (some s')

end

end Alike

variable {I I' J : Info → Info → Prop} {R R' Q : Expr → Expr → Prop} {s' : Stmt} {α : Type}
  {s : Stmt} {β : Type} {r : α → β → Prop} {l' : List β} {l : List α} {o' o : Option α}

theorem Alike.info (h : Alike I R s s') : I s.info s'.info := by
  cases h <;> assumption

theorem AlikeList.forall₂ {ss ss' : List Stmt} (h : AlikeList I R ss ss') :
    List.Forall₂ (Alike I R) ss ss' := by
  induction ss generalizing ss' with
  | nil =>
    cases h
    exact .nil
  | cons s ss ih =>
    cases h with
    | cons hs hss => exact .cons hs (ih hss)

theorem AlikeOption.forall₂ {o o' : Option Stmt} (h : AlikeOption I R o o') :
    List.Forall₂ (Alike I R) o.toList o'.toList := by
  cases h with
  | none => exact .nil
  | some h => exact .cons h .nil

/-- Alike statements have alike statements right inside. -/
theorem Alike.children (h : Alike I R s s') : List.Forall₂ (Alike I R) s.children s'.children := by
  cases h with
  | block _ hb => exact hb.forall₂
  | cond _ _ hy hn => exact .cons hy hn.forall₂
  | loop _ _ hb | doLoop _ hb _ => exact .cons hb .nil
  | forLoop _ hi _ hu hb => exact List.rel_append hi.forall₂ (.cons hb hu.forall₂)
  | _ => exact .nil

/-- Alike statements have related expressions in the same uses. -/
theorem Alike.roots (h : Alike I R s s') :
    List.Forall₂ (fun r r' => r.1 = r'.1 ∧ R r.2 r'.2) s.roots s'.roots := by
  have hoption : ∀ {o o' : Option Expr}, Option.Rel R o o' →
      List.Forall₂ (fun r r' => r.1 = r'.1 ∧ R r.2 r'.2) (o.toList.map fun e => (Use.value, e))
        (o'.toList.map fun e => (Use.value, e)) := by
    intro o o' ho
    cases ho with
    | none => exact .nil
    | some ho => exact .cons ⟨rfl, ho⟩ .nil
  cases h with
  | cond _ hc _ _ | loop _ hc _ | doLoop _ _ hc => exact .cons ⟨rfl, hc⟩ .nil
  | forLoop _ _ hc _ _ => exact hoption hc
  | decl _ hi => exact hoption hi
  | assign _ hl hr => exact .cons ⟨rfl, hl⟩ (.cons ⟨rfl, hr⟩ .nil)
  | expr _ he | require _ he => exact .cons ⟨rfl, he⟩ .nil
  | ret _ he => exact hoption he
  | block _ _ | leave _ | next _ => exact .nil

theorem forall₂_flatMap {γ δ : Type} {q : γ → δ → Prop} {f : α → List γ} {g : β → List δ}
    (h : List.Forall₂ r l l') (hf : ∀ a ∈ l, ∀ b, r a b → List.Forall₂ q (f a) (g b)) :
    List.Forall₂ q (l.flatMap f) (l'.flatMap g) := by
  induction h with
  | nil => exact .nil
  | @cons a b l l' hab _ ih =>
    rw [List.flatMap_cons, List.flatMap_cons]
    exact List.rel_append (hf a List.mem_cons_self b hab)
      (ih fun x hx => hf x (List.mem_cons_of_mem _ hx))

/-- The parts of alike statements are alike. -/
theorem Alike.walk (h : Alike I R s s') : List.Forall₂ (Alike I R) s.walk s'.walk := by
  induction s using Stmt.induct_children generalizing s' with
  | h s ih =>
    rw [walk_eq, walk_eq s']
    exact .cons h (forall₂_flatMap h.children fun c hc c' hc' => ih c hc hc')

theorem Alike.declared?_eq (h : Alike I R s s') : s'.declared? = s.declared? := by
  cases h <;> rfl

/-- Alike statements declare the same variables. -/
theorem Alike.declared_eq (h : Alike I R s s') : s'.declared = s.declared := by
  have hall : ∀ {l l' : List Stmt}, List.Forall₂ (Alike I R) l l' →
      l'.filterMap declared? = l.filterMap declared? := by
    intro l l' hl
    induction hl with
    | nil => rfl
    | cons hs _ ih => rw [List.filterMap_cons, List.filterMap_cons, hs.declared?_eq, ih]
  exact hall h.walk

theorem optionRel_refl {r : α → α → Prop} (h : ∀ a, r a a) (o : Option α) : Option.Rel r o o := by
  cases o with
  | none => exact .none
  | some a => exact .some (h a)

/-- What a statement is apart from its parts: its form, what it declares, and whether it is a `for`
with a first statement. -/
def kind (s : Stmt) : Nat × Option VarId × Bool :=
  (s.ctorIdx, s.declared?, match s with | .forLoop _ init _ _ _ => init.isSome | _ => false)

theorem Alike.kind_eq (h : Alike I R s s') : s'.kind = s.kind := by
  cases h with
  | forLoop _ hinit _ _ _ => cases hinit <;> rfl
  | _ => rfl

/-- Statements of one kind with alike parts are alike. -/
theorem Alike.of_parts (hkind : s'.kind = s.kind) (hi : I s.info s'.info)
    (hroots : List.Forall₂ (fun r r' => r.1 = r'.1 ∧ R r.2 r'.2) s.roots s'.roots)
    (hchildren : List.Forall₂ (Alike I R) s.children s'.children) : Alike I R s s' := by
  have hlist : ∀ {ss ss' : List Stmt}, List.Forall₂ (Alike I R) ss ss' → AlikeList I R ss ss' := by
    intro ss ss' h
    induction h with
    | nil => exact .nil
    | cons h _ ih => exact .cons h ih
  have hoption : ∀ {o o' : Option Stmt}, List.Forall₂ (Alike I R) o.toList o'.toList →
      AlikeOption I R o o' := by
    intro o o' h
    cases o <;> cases o' <;> cases h
    · exact .none
    · exact .some ‹_›
  have hexpr : ∀ {o o' : Option Expr}, List.Forall₂ (fun r r' => r.1 = r'.1 ∧ R r.2 r'.2)
      (o.toList.map fun e => (Use.value, e)) (o'.toList.map fun e => (Use.value, e)) →
      Option.Rel R o o' := by
    intro o o' h
    cases o <;> cases o' <;> cases h
    · exact .none
    · exact .some (And.right ‹_›)
  cases s <;> cases s' <;> try cases congrArg Prod.fst hkind
  case block.block => exact .block hi (hlist hchildren)
  case cond.cond =>
    rcases hchildren with _ | ⟨hyes, hno⟩
    rcases hroots with _ | ⟨hc, -⟩
    exact .cond hi hc.2 hyes (hoption hno)
  case loop.loop =>
    rcases hchildren with _ | ⟨hbody, -⟩
    rcases hroots with _ | ⟨hc, -⟩
    exact .loop hi hc.2 hbody
  case doLoop.doLoop =>
    rcases hchildren with _ | ⟨hbody, -⟩
    rcases hroots with _ | ⟨hc, -⟩
    exact .doLoop hi hbody hc.2
  case forLoop.forLoop i init c update body i' init' c' update' body' =>
    cases init <;> cases init' <;> try cases congrArg (·.2.2) hkind
    · rcases hchildren with _ | ⟨hbody, hupdate⟩
      exact .forLoop hi .none (hexpr hroots) (hoption hupdate) hbody
    · rcases hchildren with _ | ⟨hinit, _ | ⟨hbody, hupdate⟩⟩
      exact .forLoop hi (.some hinit) (hexpr hroots) (hoption hupdate) hbody
  case decl.decl =>
    cases congrArg (·.2.1) hkind
    exact .decl hi (hexpr hroots)
  case assign.assign =>
    rcases hroots with _ | ⟨hlhs, _ | ⟨hrhs, -⟩⟩
    exact .assign hi hlhs.2 hrhs.2
  case expr.expr =>
    rcases hroots with _ | ⟨he, -⟩
    exact .expr hi he.2
  case require.require =>
    rcases hroots with _ | ⟨he, -⟩
    exact .require hi he.2
  case ret.ret => exact .ret hi (hexpr hroots)
  case leave.leave => exact .leave hi
  case next.next => exact .next hi

theorem Alike.refl (hI : ∀ i, I i i) (hR : ∀ e, R e e) (s : Stmt) : Alike I R s s := by
  induction s using Stmt.induct_children with
  | h s ih =>
    exact .of_parts rfl (hI _) (List.forall₂_same.2 fun r _ => ⟨rfl, hR _⟩) (List.forall₂_same.2 ih)

theorem Alike.symm (h : Alike I R s s') : Alike (fun i j => I j i) (fun e f => R f e) s' s := by
  induction s using Stmt.induct_children generalizing s' with
  | h s ih =>
    refine .of_parts h.kind_eq.symm h.info ?_ ?_
    · exact (h.roots.imp fun _ _ hr => ⟨hr.1.symm, hr.2⟩).flip
    · exact (((List.forall₂_and_left _ _).2 ⟨ih, h.children⟩).imp fun _ _ hc => hc.1 hc.2).flip

theorem forall₂_trans {γ : Type} {q : β → γ → Prop} {r' : α → γ → Prop} {l'' : List γ}
    (h : List.Forall₂ r l l') (h' : List.Forall₂ q l' l'')
    (hr : ∀ a ∈ l, ∀ b c, r a b → q b c → r' a c) : List.Forall₂ r' l l'' := by
  induction h generalizing l'' with
  | nil =>
    cases h'
    exact .nil
  | cons hab _ ih =>
    rw [List.forall_mem_cons] at hr
    cases h' with
    | cons hbc h' => exact .cons (hr.1 _ _ hab hbc) (ih h' hr.2)

theorem Alike.trans (hI : ∀ i j k, I i j → J j k → I' i k)
    (hR : ∀ e f g, R e f → Q f g → R' e g) {s'' : Stmt} (h : Alike I R s s')
    (h' : Alike J Q s' s'') : Alike I' R' s s'' := by
  induction s using Stmt.induct_children generalizing s' s'' with
  | h s ih =>
    refine .of_parts (h'.kind_eq.trans h.kind_eq) (hI _ _ _ h.info h'.info) ?_ ?_
    · exact forall₂_trans h.roots h'.roots fun _ _ _ _ hr hr' =>
        ⟨hr.1.trans hr'.1, hR _ _ _ hr.2 hr'.2⟩
    · exact forall₂_trans h.children h'.children fun c hc _ _ => ih c hc

@[simp] theorem info_annotate (g : Stmt → Info) (s : Stmt) : (s.annotate g).info = g s := by
  cases s <;> rfl

theorem children_annotate (g : Stmt → Info) (s : Stmt) :
    (s.annotate g).children = s.children.map (annotate g) := by
  have hlist : ∀ ss : List Stmt, annotateList g ss = ss.map (annotate g) := fun ss => by
    induction ss with
    | nil => rfl
    | cons s ss ih => rw [annotateList, ih, List.map_cons]
  have hoption : ∀ o : Option Stmt, (annotateOption g o).toList = o.toList.map (annotate g) :=
    fun o => by cases o <;> rfl
  cases s <;> simp [annotate, children, hlist, hoption]

/-- Other annotations leave a statement alike. -/
theorem alike_annotate (g : Stmt → Info) (hR : ∀ e, R e e) (hI : ∀ s : Stmt, I s.info (g s))
    (s : Stmt) : Alike I R s (s.annotate g) := by
  induction s using Stmt.induct_children with
  | h s ih =>
    have hself : (s.annotate g).kind = s.kind ∧ (s.annotate g).roots = s.roots := by
      cases s with
      | forLoop i init c update body => cases init <;> exact ⟨rfl, rfl⟩
      | _ => exact ⟨rfl, rfl⟩
    refine .of_parts hself.1 (by rw [info_annotate]; exact hI s) ?_ ?_
    · rw [hself.2]
      exact List.forall₂_same.2 fun r _ => ⟨rfl, hR _⟩
    · rw [children_annotate, List.forall₂_map_right_iff]
      exact List.forall₂_same.2 ih

theorem walk_annotate (g : Stmt → Info) (s : Stmt) :
    (s.annotate g).walk = s.walk.map (annotate g) := by
  induction s using Stmt.induct_children with
  | h s ih =>
    rw [walk_eq, walk_eq s, children_annotate, List.map_cons, List.flatMap_map, List.map_flatMap]
    exact congrArg _ (List.flatMap_congr ih)

end Stmt

/-- The function is one of the program's. -/
abbrev Program.Has (p : Program) (f : FunctionId) : Prop := f.index < p.functions.length

end Shroud
