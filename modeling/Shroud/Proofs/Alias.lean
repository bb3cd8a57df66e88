import Shroud.Proofs.Partition
import Shroud.Proofs.Stages

/-! # Invariants of the alias analysis

The analysis annotates statements and changes nothing else. A property of partitions that all its
operations keep holds before and after every statement. Two such properties are `Partition.Valid`
and `AllApart`: nothing is ever known to equal `all`.
-/

namespace Shroud

namespace Alias

variable {p : Program}

/-! ## The annotated statement -/

/-- The same information up to what is known about labels. -/
def SameEffects (i j : Stmt.Info) : Prop := j = { i with flow? := j.flow? }

mutual

theorem stmt_alike : ∀ (s : Stmt) (before : Classes),
    Stmt.Alike SameEffects Eq s (stmt p s before).1
  | .block _ body, before => .block rfl (stmts_alike body before)
  | .cond _ _ yes no, _ => .cond rfl rfl (stmt_alike yes _) (stmtOption_alike no _)
  | .loop _ _ body, _ => .loop rfl rfl (stmt_alike body _)
  | .doLoop _ body _, _ => .doLoop rfl (stmt_alike body _) rfl
  | .forLoop _ init c update body, _ =>
    .forLoop rfl (stmtOption_alike init _) (Stmt.optionRel_refl (fun _ => rfl) c)
      (stmtOption_alike update _) (stmt_alike body _)
  | .decl _ _ init, _ => .decl rfl (Stmt.optionRel_refl (fun _ => rfl) init)
  | .assign _ _ _, _ => .assign rfl rfl rfl
  | .expr _ _, _ => .expr rfl rfl
  | .require _ _, _ => .require rfl rfl
  | .ret _ e, _ => .ret rfl (Stmt.optionRel_refl (fun _ => rfl) e)
  | .leave _, _ => .leave rfl
  | .next _, _ => .next rfl

theorem stmts_alike : ∀ (ss : List Stmt) (before : Classes),
    Stmt.AlikeList SameEffects Eq ss (stmts p ss before).1
  | [], _ => .nil
  | s :: ss, before => .cons (stmt_alike s before) (stmts_alike ss _)

theorem stmtOption_alike : ∀ (o : Option Stmt) (before : Classes),
    Stmt.AlikeOption SameEffects Eq o (stmtOption p o before).1
  | none, _ => .none
  | some s, before => .some (stmt_alike s before)

end

/-! ## Invariants -/

/-- A property of partitions of labels that the operations of the analysis keep. -/
structure Invariant (p : Program) (I : Classes → Prop) : Prop where
  forget {s} : I s → I (forget p s)
  insert {s} (v : VarId) : I s → I (s.insert (.var v))
  remove {s} (v : VarId) : I s → I (s.remove (.var v))
  moveApart {s} (v : VarId) : I s → I (s.moveApart (.var v))
  moveTo {s} (v : VarId) {l : Label} : l ≠ .all → I s → I (s.moveTo (.var v) l)
  merge {s} {l m : Label} : l ≠ .all → m ≠ .all → I s → I (s.merge l m)
  join {s t} : I s → I t → I (s.join t)

theorem label?_ne_all {e : Expr} {l : Label} (h : e.label? = some l) : l ≠ .all := by
  cases e <;> cases h <;> exact nofun

mutual

/-- The labels of the equalities that a condition says once it has the given value. -/
def learned (holds : Bool) : Expr → List Label
  | .builtin _ op args _ => learnedOp holds op args
  | _ => []

def learnedOp (holds : Bool) (op : Operator) : List Expr → List Label
  | [a] => match op with
    | .paren => learned holds a
    | .not => learned (!holds) a
    | _ => []
  | [a, b] => match op, holds with
    | .and, true | .or, false => learned holds a ++ learned holds b
    | .eq, true | .ne, false => a.label?.toList ++ b.label?.toList
    | _, _ => []
  | _ => []

end

/-- Uniting the classes of such labels keeps the property. -/
def MergeClosed (L : Label → Prop) (I : Classes → Prop) : Prop :=
  ∀ ⦃s l m⦄, L l → L m → l ≠ .all → m ≠ .all → I s → I (s.merge l m)

section

variable {L : Label → Prop} {I : Classes → Prop}

theorem MergeClosed.equate (hI : MergeClosed L I) {a b : Expr}
    (hL : ∀ l ∈ a.label?.toList ++ b.label?.toList, L l) {s : Classes} (h : I s) :
    I (equate a b s) := by
  rw [Alias.equate]
  split
  · rename_i x y hx hy
    split
    · exact hI (hL x (by simp [hx])) (hL y (by simp [hy])) (label?_ne_all hx) (label?_ne_all hy) h
    · exact h
  · exact h

mutual

/-- Tests do nothing but unite classes. -/
theorem MergeClosed.guard (hI : MergeClosed L I) (holds : Bool) : ∀ (e : Expr) {s : Classes},
    (∀ l ∈ learned holds e, L l) → I s → I (guard holds e s)
  | .builtin _ op args _, _, hL, h => MergeClosed.guardOp hI holds op args hL h
  | .bool _ _, _, _, h | .number _ _, _, _, h | .me _, _, _, h | .ident _ _, _, _, h
  | .call _ _ _, _, _, h | .index _ _ _, _, _, h | .reclassify _ _ _ _, _, _, h
  | .cast _ _ _ _, _, _, h | .tuple _ _, _, _, h => h

theorem MergeClosed.guardOp (hI : MergeClosed L I) (holds : Bool) (op : Operator) :
    ∀ (args : List Expr) {s : Classes}, (∀ l ∈ learnedOp holds op args, L l) → I s →
      I (guardOp holds op args s)
  | [], _, _, h => h
  | [a], s, hL, h => by
    unfold Alias.guardOp
    split
    · exact MergeClosed.guard hI holds a hL h
    · exact MergeClosed.guard hI (!holds) a hL h
    · exact h
  | [a, b], s, hL, h => by
    unfold Alias.guardOp
    split
    · obtain ⟨ha, hb⟩ := List.forall_mem_append.1 hL
      exact MergeClosed.guard hI _ b hb (MergeClosed.guard hI _ a ha h)
    · obtain ⟨ha, hb⟩ := List.forall_mem_append.1 hL
      exact MergeClosed.guard hI _ b hb (MergeClosed.guard hI _ a ha h)
    · exact hI.equate hL h
    · exact hI.equate hL h
    · exact h
  | _ :: _ :: _ :: _, _, _, h => h

end

end

namespace Invariant

variable {I : Classes → Prop} {s : Classes}

/-- What is known around a statement is recorded, and has the property before and after it. -/
def Around (I : Classes → Prop) (s : Stmt) : Prop := ∃ f ∈ s.info.flow?, I f.before ∧ I f.after

theorem around_cons {s : Stmt} {before after : Classes} {ts : List Stmt}
    (hs : s.info.flow? = some ⟨before, after⟩) (hb : I before) (ha : I after)
    (ht : ∀ t ∈ ts, Around I t) : ∀ t ∈ s :: ts, Around I t :=
  List.forall_mem_cons.2 ⟨⟨_, hs, hb, ha⟩, ht⟩

theorem forgetIf (hI : Invariant p I) (b : Bool) (h : I s) : I (forgetIf p b s) := by
  cases b with
  | false => exact h
  | true => exact hI.forget h

theorem guard (hI : Invariant p I) (holds : Bool) (e : Expr) (h : I s) : I (guard holds e s) :=
  MergeClosed.guard (L := fun _ => True) (fun _ _ _ _ _ => hI.merge) holds e (fun _ _ => trivial) h

theorem assignLabel (hI : Invariant p I) (v : VarId) {value : Option Label}
    (hv : ∀ l ∈ value, l ≠ .all) (h : I s) : I (assignLabel v value s) := by
  unfold Alias.assignLabel
  split
  · rename_i l
    split
    · exact h
    · exact hI.moveTo v (hv l rfl) h
  · exact hI.moveApart v h

mutual

theorem assign (hI : Invariant p I) : ∀ (target : Expr) (value : Option Expr) {s : Classes}, I s →
    I (assign target value s)
  | .ident _ v, value, s, h => by
    refine hI.assignLabel v (fun l hl => ?_) h
    obtain ⟨e, -, he⟩ := Option.bind_eq_some_iff.1 hl
    exact label?_ne_all he
  | .tuple _ targets, value, s, h => by
    unfold Alias.assign
    split
    · split
      · exact assignList hI targets _ h
      · exact assignList hI targets _ h
    · exact assignList hI targets _ h
  | .builtin _ _ _ _, _, _, h | .bool _ _, _, _, h | .number _ _, _, _, h | .me _, _, _, h
  | .call _ _ _, _, _, h | .index _ _ _, _, _, h | .reclassify _ _ _ _, _, _, h
  | .cast _ _ _ _, _, _, h => h

theorem assignList (hI : Invariant p I) : ∀ (targets : List Expr) (values : List (Option Expr))
    {s : Classes}, I s → I (assignList targets values s)
  | [], _, _, h => h
  | t :: ts, values, _, h => assignList hI ts values.tail (assign hI t _ h)

end

theorem dropScope (hI : Invariant p I) (vs : List VarId) (h : I s) : I (dropScope vs s) := by
  induction vs generalizing s with
  | nil => exact h
  | cons v vs ih => exact ih (hI.remove v h)

theorem guardOption (hI : Invariant p I) (c : Option Expr) (h : I s) : I (guardOption c s) := by
  cases c with
  | none => exact h
  | some c => exact hI.guard true c h

theorem declare (hI : Invariant p I) (v : VarId) (init : Option Expr) (h : I s) :
    I (declare p v init s) := by
  have hs := hI.insert v (hI.forgetIf (init.any p.exprHasEffects) h)
  simp only [Alias.declare]
  split
  · rename_i l hl
    obtain ⟨e, -, he⟩ := Option.bind_eq_some_iff.1 hl
    exact hI.moveTo v (label?_ne_all he) hs
  · exact hs

mutual

/-- What the analysis keeps holds around every statement. -/
theorem stmt (hI : Invariant p I) : ∀ (s : Stmt) {before : Classes}, I before →
    I (stmt p s before).2 ∧ ∀ t ∈ (stmt p s before).1.walk, Around I t
  | .block i body, before, h => by
    obtain ⟨ha, ht⟩ := stmts hI body h
    have hafter := hI.dropScope (Stmt.block i body).scope ha
    exact ⟨hafter, around_cons rfl h hafter ht⟩
  | .cond i c yes no, before, h => by
    have hbase := hI.forgetIf (p.exprHasEffects c) h
    obtain ⟨hy, hty⟩ := stmt hI yes (hI.guard true c hbase)
    obtain ⟨hn, htn⟩ := stmtOption hI no (hI.guard false c hbase)
    exact ⟨hI.join hy hn, around_cons rfl h (hI.join hy hn) (List.forall_mem_append.2 ⟨hty, htn⟩)⟩
  | .loop i c body, before, h => by
    have hbase := hI.forgetIf (p.stmtWrites (.loop i c body)) h
    obtain ⟨hb, ht⟩ := stmt hI body (hI.guard true c hbase)
    exact ⟨hI.join hbase hb, around_cons rfl h (hI.join hbase hb) ht⟩
  | .doLoop i body c, before, h => by
    have hbase := hI.forgetIf (p.stmtWrites (.doLoop i body c)) h
    obtain ⟨hb, ht⟩ := stmt hI body hbase
    exact ⟨hI.join hbase hb, around_cons rfl h (hI.join hbase hb) ht⟩
  | .forLoop i init c update body, before, h => by
    obtain ⟨hi, hti⟩ := stmtOption hI init h
    have hbase := hI.forgetIf (p.stmtWrites (.forLoop i init c update body)) hi
    obtain ⟨hb, htb⟩ := stmt hI body (hI.guardOption c hbase)
    obtain ⟨hu, htu⟩ := stmtOption hI update hb
    have hafter := hI.dropScope (Stmt.forLoop i init c update body).scope (hI.join hbase hu)
    exact ⟨hafter, around_cons rfl h hafter
      (List.forall_mem_append.2 ⟨List.forall_mem_append.2 ⟨hti, htb⟩, htu⟩)⟩
  | .decl i v init, before, h =>
    ⟨hI.declare v init h, around_cons rfl h (hI.declare v init h) nofun⟩
  | .assign i lhs rhs, before, h => by
    have hafter := hI.assign lhs (some rhs)
      (hI.forgetIf (p.exprHasEffects lhs || p.exprHasEffects rhs) h)
    exact ⟨hafter, around_cons rfl h hafter nofun⟩
  | .expr i e, before, h => by
    have hafter := hI.forgetIf (p.exprHasEffects e) h
    exact ⟨hafter, around_cons rfl h hafter nofun⟩
  | .require i c, before, h => by
    have hafter := hI.guard true c (hI.forgetIf (p.exprHasEffects c) h)
    exact ⟨hafter, around_cons rfl h hafter nofun⟩
  | .ret i e, before, h | .leave i, before, h | .next i, before, h => ⟨h, around_cons rfl h h nofun⟩

theorem stmts (hI : Invariant p I) : ∀ (ss : List Stmt) {before : Classes}, I before →
    I (stmts p ss before).2 ∧ ∀ t ∈ Stmt.walkList (stmts p ss before).1, Around I t
  | [], _, h => ⟨h, nofun⟩
  | s :: ss, _, h => by
    obtain ⟨ha, ht⟩ := stmt hI s h
    obtain ⟨ha', ht'⟩ := stmts hI ss ha
    refine ⟨ha', fun t hmem => ?_⟩
    rcases List.mem_append.1 hmem with hmem | hmem
    · exact ht t hmem
    · exact ht' t hmem

theorem stmtOption (hI : Invariant p I) : ∀ (o : Option Stmt) {before : Classes}, I before →
    I (stmtOption p o before).2 ∧ ∀ t ∈ Stmt.walkOption (stmtOption p o before).1, Around I t
  | none, _, h => ⟨h, nofun⟩
  | some s, _, h => stmt hI s h

end

end Invariant

/-! ## Valid partitions that keep `all` apart -/

/-- Nothing but `all` is known to equal `all`, and classes are disjoint. -/
structure AllApart (s : Classes) : Prop where
  valid : s.Valid
  apart : ∀ l, s.Related .all l → l = .all

theorem AllApart.not_same {s : Classes} (h : AllApart s) {l : Label} (hl : l ≠ .all) :
    s.same l .all = false := by
  by_contra hsame
  rcases Partition.related_of_same (by simpa using hsame) with heq | hr
  · exact hl heq
  · exact hl (h.apart l hr.symm)

/-- The analysis never finds a party equal to `all`. -/
theorem allApart_invariant (p : Program) : Invariant p AllApart where
  forget h := ⟨h.valid.separate, fun l hl => h.apart l (Partition.related_separate_iff.1 hl).1⟩
  insert v h := ⟨h.valid.insert, fun l hl => by
    rcases Partition.related_insert_iff.1 hl with hl | ⟨hall, -⟩
    · exact h.apart l hl
    · cases hall⟩
  remove v h := ⟨h.valid.remove, fun l hl =>
    h.apart l ((Partition.related_remove_iff h.valid).1 hl).1⟩
  moveApart v h := ⟨h.valid.moveApart, fun l hl => by
    rcases (Partition.related_moveApart_iff h.valid).1 hl with ⟨hl, -⟩ | ⟨hall, -⟩
    · exact h.apart l hl
    · cases hall⟩
  moveTo {_} v {m} hm h := ⟨h.valid.moveTo, fun l hl => by
    rcases (Partition.related_moveTo_iff h.valid).1 hl with ⟨hl, -⟩ | ⟨hall, -⟩ | ⟨-, hall | hr⟩
    · exact h.apart l hl
    · cases hall
    · cases hall
    · exact (hm (h.apart m hr.symm)).elim⟩
  merge {_ l m} hl hm h := ⟨h.valid.merge, fun n hn => by
    rcases hn.of_merge with hn | ⟨hr, -⟩ | ⟨hr, -⟩
    · exact h.apart n hn
    · exact (hl (h.apart l hr)).elim
    · exact (hm (h.apart m hr)).elim⟩
  join h h' := ⟨h.valid.join h'.valid, fun l hl => h.apart l hl.of_join.1⟩

theorem initial_allApart (p : Program) (f : Function) : AllApart (initial p f) := by
  have hinsert : ∀ (ls : List Label) {s : Classes}, AllApart s →
      AllApart (ls.foldl Partition.insert s) := by
    intro ls
    induction ls with
    | nil => exact fun h => h
    | cons l ls ih =>
      refine fun h => ih ⟨h.valid.insert, fun m hm => ?_⟩
      rcases Partition.related_insert_iff.1 hm with hm | ⟨hall, hml⟩
      · exact h.apart m hm
      · exact hml.trans hall.symm
  exact hinsert _ ⟨Partition.valid_empty, fun l hl => (Partition.not_related_empty hl).elim⟩

end Alias

/-- The program after the alias analysis. -/
theorem Program.withAliases_alike (p : Program) :
    Program.Alike Alias.SameEffects Eq p p.withAliases :=
  Program.alike_mapFunctions (fun _ _ => rfl) fun f _ => Alias.stmt_alike (p.function f).body _

theorem Program.facts_withAliases (p : Program) (f : FunctionId) :
    (p.withAliases.function f).facts = (p.function f).facts := by
  by_cases hf : p.Has f
  · rw [withAliases, function_mapFunctions hf]
  · rw [function_of_not_has (by simpa [withAliases] using hf),
      function_of_not_has hf]

/-- An invariant that holds when a function starts holds around all its statements. -/
theorem Alias.Invariant.withAliases {p : Program} {I : Classes → Prop} (hI : Invariant p I)
    {f : FunctionId} (hf : p.Has f) (h : I (initial p (p.function f))) :
    ∀ t ∈ (p.withAliases.function f).body.walk, Invariant.Around I t := by
  rw [Program.withAliases, Program.function_mapFunctions hf]
  exact (hI.stmt (p.function f).body h).2

end Shroud
