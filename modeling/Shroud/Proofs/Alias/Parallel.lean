import Shroud.Proofs.Alias.Sound
import Shroud.Proofs.Partition.Refinement

/-! # Assignments to several variables

A tuple of variables gets all its values at once, but the analysis moves one target after another,
and looks a label up when targets before it have been moved already. What it then knows is true just
when a value that reads such a target reads one that has kept its value: the label that it was given
had to be known to equal it. Any other value takes over what is known about the new value of the
target, but it is the old one.
-/

namespace Shroud

namespace Alias

/-- Labels of one class have equal values. -/
def Agrees {V : Type} (s : Classes) (d : Label → V) : Prop := ∀ ⦃x y⦄, s.Related x y → d x = d y

/-- What is known after variables have got the labels of their values, one after another. -/
def moveAll : List (VarId × Expr) → Classes → Classes
  | [], s => s
  | a :: as, s => moveAll as (assignLabel a.1 a.2.label? s)

/-- The values after variables have got those of some expressions, which were all computed before. -/
def storeAll {V : Type} (eval : Expr → V) : List (VarId × Expr) → (Label → V) → Label → V
  | [], d => d
  | a :: as, d => storeAll eval as (Function.update d (.var a.1) (eval a.2))

/-- A tuple of variables moves one by one. -/
theorem assign_tuple (i j : Expr.Info) (place : VarId → Expr.Info) (as : List (VarId × Expr))
    (s : Classes) : assign (.tuple i (as.map fun a => .ident (place a.1) a.1))
      (some (.tuple j (as.map Prod.snd))) s = moveAll as s := by
  have hlist : ∀ s, assignList (as.map fun a => .ident (place a.1) a.1)
      ((as.map Prod.snd).map some) s = moveAll as s := by
    induction as with
    | nil => exact fun s => rfl
    | cons a as ih => exact fun s => ih _
  rw [assign, if_pos (by simp), hlist]

section

variable {V : Type} {s : Classes} {d : Label → V} {v : VarId} {l : Option Label} {x y : Label}
  {a b : VarId × Expr} {as : List (VarId × Expr)} {eval : Expr → V}

theorem Agrees.of_same (h : Agrees s d) (hxy : s.same x y = true) : d x = d y := by
  rcases Partition.related_of_same hxy with rfl | hr
  · rfl
  · exact h hr

variable (hs : s.Valid)

include hs

theorem valid_assignLabel : (assignLabel v l s).Valid := by
  unfold assignLabel
  split
  · split
    · exact hs
    · exact hs.moveTo
  · exact hs.moveApart

/-- Other labels stay where they are. -/
theorem related_assignLabel_iff (hx : x ≠ .var v) (hy : y ≠ .var v) :
    (assignLabel v l s).Related x y ↔ s.Related x y := by
  cases l with
  | none => simp [assignLabel, Partition.related_moveApart_iff hs, hx, hy]
  | some l =>
    simp only [assignLabel]
    split
    · rfl
    · simp [Partition.related_moveTo_iff hs, hx, hy]

/-- What is known about a target is what is known about the label that it gets. -/
theorem related_of_assignLabel (h : (assignLabel v l s).Related (.var v) y) :
    y = .var v ∨ ∃ x ∈ l, s.Related x y := by
  cases l with
  | none =>
    rcases (Partition.related_moveApart_iff hs).1 h with ⟨-, hne, -⟩ | ⟨-, hy⟩
    · exact (hne rfl).elim
    · exact .inl hy
  | some x =>
    simp only [assignLabel] at h
    split at h
    · rename_i hx
      exact .inr ⟨x, rfl, hx ▸ h⟩
    rcases (Partition.related_moveTo_iff hs).1 h with ⟨-, hne, -⟩ | ⟨-, hy | hy⟩ | ⟨hy, -⟩
    · exact (hne rfl).elim
    · exact .inl hy
    · exact .inr ⟨x, rfl, hy⟩
    · exact .inl hy

/-- A target that gets the current value of its label keeps what is known true. -/
theorem Agrees.assignLabel {k : V} (h : Agrees s d) (hk : ∀ x ∈ l, k = d x) :
    Agrees (assignLabel v l s) (Function.update d (.var v) k) := by
  have htarget : ∀ y, (Alias.assignLabel v l s).Related (.var v) y →
      Function.update d (.var v) k y = k := by
    intro y hy
    by_cases hne : y = .var v
    · rw [hne, Function.update_self]
    · obtain ⟨x, hx, hxy⟩ := (related_of_assignLabel hs hy).resolve_left hne
      rw [Function.update_of_ne hne, hk x hx, h hxy]
  intro x y hxy
  by_cases hx : x = .var v
  · subst hx
    rw [Function.update_self, htarget y hxy]
  by_cases hy : y = .var v
  · subst hy
    rw [Function.update_self, htarget x hxy.symm]
  rw [Function.update_of_ne hx, Function.update_of_ne hy]
  exact h ((related_assignLabel_iff hs hx hy).1 hxy)

/-- What is known stays true if all values are those of their labels, and no target that is read
later has changed. The values of labels are the old ones, so the induction needs both for the values
that were stored so far. -/
theorem agrees_moveAll (h : Agrees s d) (hn : (as.map Prod.fst).Nodup)
    (heval : ∀ a ∈ as, ∀ x ∈ a.2.label?, eval a.2 = d x)
    (hkept : as.Pairwise fun a b => b.2.label? = some (.var a.1) → eval a.2 = d (.var a.1)) :
    Agrees (moveAll as s) (storeAll eval as d) := by
  induction as generalizing s d with
  | nil => exact h
  | cons a as ih =>
    rw [List.map_cons, List.nodup_cons] at hn
    rw [List.pairwise_cons] at hkept
    rw [List.forall_mem_cons] at heval
    refine ih (valid_assignLabel hs) (h.assignLabel hs heval.1) hn.2 (fun b hb x hx => ?_) ?_
    · rw [heval.2 b hb x hx]
      by_cases heq : x = .var a.1
      · rw [heq, Function.update_self, hkept.1 b hb (heq ▸ hx)]
      · rw [Function.update_of_ne heq]
    · refine hkept.2.imp_of_mem fun {b c} hb _ hbc hc => ?_
      have hne : Label.var b.1 ≠ .var a.1 := fun heq =>
        hn.1 (Label.var.inj heq ▸ List.mem_map_of_mem hb)
      rw [Function.update_of_ne hne, hbc hc]

/-- Moving targets leaves other labels where they are. -/
theorem related_moveAll (h : s.Related x y) (hx : ∀ a ∈ as, x ≠ .var a.1)
    (hy : ∀ a ∈ as, y ≠ .var a.1) : (moveAll as s).Related x y := by
  induction as generalizing s with
  | nil => exact h
  | cons a as ih =>
    rw [List.forall_mem_cons] at hx hy
    exact ih (valid_assignLabel hs) ((related_assignLabel_iff hs hx.1 hy.1).2 h) hx.2 hy.2

/-- A target is listed. -/
theorem lists_assignLabel (hl : l ≠ some (.var v)) : Lists (assignLabel v l s) v := by
  cases l with
  | none => exact (Partition.related_moveApart_iff hs).2 (.inr ⟨rfl, rfl⟩)
  | some x =>
    have hx : x ≠ .var v := fun heq => hl (congrArg some heq)
    rw [assignLabel, if_neg hx]
    exact (Partition.related_moveTo_iff hs).2 (.inr (.inl ⟨rfl, .inl rfl⟩))

/-- A target that reads a listed variable ends up in its class, unless that is a target too. -/
theorem related_of_reads (hv : Lists s v) (hn : (as.map Prod.fst).Nodup)
    (hnot : v ∉ as.map Prod.fst) (hb : b ∈ as) (hr : b.2.label? = some (.var v)) :
    (moveAll as s).Related (.var v) (.var b.1) := by
  induction as generalizing s with
  | nil => cases hb
  | cons a as ih =>
    rw [List.map_cons, List.nodup_cons] at hn
    rw [List.map_cons, List.mem_cons, not_or] at hnot
    have hne : Label.var v ≠ .var a.1 := fun heq => hnot.1 (Label.var.inj heq)
    rcases List.mem_cons.1 hb with rfl | hb
    · have hmoved : (assignLabel b.1 b.2.label? s).Related (.var v) (.var b.1) := by
        rw [hr, assignLabel, if_neg hne]
        exact (Partition.related_moveTo_iff hs).2 (.inr (.inr ⟨rfl, .inr hv⟩))
      rw [moveAll]
      refine related_moveAll (valid_assignLabel hs) hmoved (fun c hc heq => ?_) fun c hc heq => ?_
      · exact hnot.2 (Label.var.inj heq ▸ List.mem_map_of_mem hc)
      · exact hn.1 (Label.var.inj heq ▸ List.mem_map_of_mem hc)
    · exact ih (valid_assignLabel hs) ((related_assignLabel_iff hs hne hne).2 hv) hn.2 hnot.2 hb

/-- A target that reads an earlier one ends up in its class, if the earlier one has moved. -/
theorem related_of_sublist (hn : (as.map Prod.fst).Nodup) (hab : [a, b].Sublist as)
    (hr : b.2.label? = some (.var a.1)) (ha : a.2.label? ≠ some (.var a.1)) :
    (moveAll as s).Related (.var a.1) (.var b.1) := by
  induction as generalizing s with
  | nil => cases hab
  | cons c as ih =>
    rw [List.map_cons, List.nodup_cons] at hn
    cases hab with
    | cons _ hab => exact ih (valid_assignLabel hs) hn.2 hab
    | cons_cons _ hb =>
      rw [moveAll]
      exact related_of_reads (valid_assignLabel hs) (lists_assignLabel hs ha) hn.2 hn.1
        (List.singleton_sublist.1 hb) hr

omit hs

theorem storeAll_of_not_mem (hx : ∀ a ∈ as, x ≠ .var a.1) : storeAll eval as d x = d x := by
  induction as generalizing d with
  | nil => rfl
  | cons a as ih =>
    rw [List.forall_mem_cons] at hx
    rw [storeAll, ih hx.2, Function.update_of_ne hx.1]

theorem storeAll_of_mem (hn : (as.map Prod.fst).Nodup) (ha : a ∈ as) :
    storeAll eval as d (.var a.1) = eval a.2 := by
  induction as generalizing d with
  | nil => cases ha
  | cons b as ih =>
    rw [List.map_cons, List.nodup_cons] at hn
    rcases List.mem_cons.1 ha with rfl | ha
    · have hlater : ∀ c ∈ as, Label.var a.1 ≠ .var c.1 := fun c hc heq =>
        hn.1 (Label.var.inj heq ▸ List.mem_map_of_mem hc)
      rw [storeAll, storeAll_of_not_mem hlater, Function.update_self]
    · exact ih hn.2 ha

end

/-- What is known after an assignment to several variables is true in every store in which what was
known before is true, just when no value reads a target before it, unless that target was given a
label that was known to equal it. -/
theorem assign_agrees_iff {V : Type} [Nontrivial V] {s : Classes} (hs : s.Valid) (i j : Expr.Info)
    (place : VarId → Expr.Info) {as : List (VarId × Expr)} (hn : (as.map Prod.fst).Nodup) :
    (∀ (d : Label → V) (eval : Expr → V), Agrees s d →
      (∀ a ∈ as, ∀ x ∈ a.2.label?, eval a.2 = d x) →
      Agrees (assign (.tuple i (as.map fun a => .ident (place a.1) a.1))
        (some (.tuple j (as.map Prod.snd))) s) (storeAll eval as d)) ↔
    as.Pairwise fun a b => b.2.label? = some (.var a.1) →
      ∃ x ∈ a.2.label?, s.same x (.var a.1) = true := by
  rw [assign_tuple]
  constructor
  · intro h
    refine List.pairwise_iff_forall_sublist.2 fun {a b} hab hr => ?_
    by_contra hnot
    -- just the labels that are known to equal the earlier target have the first of two values
    obtain ⟨k, l, hkl⟩ := exists_pair_ne V
    let d : Label → V := fun x => if s.same x (.var a.1) = true then k else l
    let eval : Expr → V := fun e => (e.label?.map d).getD l
    have hd : Agrees s d := by
      intro x y hxy
      have hiff : s.same x (.var a.1) = true ↔ s.same y (.var a.1) = true :=
        ⟨Partition.same_trans ((Partition.related_iff hs).1 hxy.symm).2.2,
          Partition.same_trans ((Partition.related_iff hs).1 hxy).2.2⟩
      simp only [d, hiff]
    have heval : ∀ c ∈ as, ∀ x ∈ c.2.label?, eval c.2 = d x := by
      intro c _ x hx
      simp only [eval, Option.mem_def.1 hx, Option.map_some, Option.getD_some]
    have hself : s.same (.var a.1) (.var a.1) = true := by simp [Partition.same]
    have hmoved : a.2.label? ≠ some (.var a.1) := fun heq => hnot ⟨_, heq, hself⟩
    have hequal := h d eval hd heval (related_of_sublist hs hn hab hr hmoved)
    rw [storeAll_of_mem hn (hab.subset (by simp)), storeAll_of_mem hn (hab.subset (by simp))] at hequal
    have hnew : eval a.2 = l := by
      cases hl : a.2.label? with
      | none => simp [eval, hl]
      | some x => simp [eval, d, hl, show ¬ s.same x (.var a.1) = true from fun hx => hnot ⟨x, hl, hx⟩]
    have hold : eval b.2 = k := by simp [eval, d, hr]
    exact hkl (hold.symm.trans (hequal.symm.trans hnew))
  · intro h d eval hd heval
    refine agrees_moveAll hs hd hn heval (h.imp_of_mem fun {a b} ha _ hab hr => ?_)
    obtain ⟨x, hx, hsame⟩ := hab hr
    rw [heval a ha x hx, hd.of_same hsame]

/-- In `(x, y) = (z, x)` the second value reads the first target, which was known to equal `z`. -/
theorem assign_agrees_chained : let s : Classes := ⟨[[.me], [.var ⟨0⟩, .var ⟨2⟩], [.var ⟨1⟩]]⟩
    let as := [(⟨0⟩, Expr.ident default ⟨2⟩), ((⟨1⟩ : VarId), Expr.ident default ⟨0⟩)]
    s.Valid ∧ (as.map Prod.fst).Nodup ∧ ∀ (d : Label → Nat) (eval : Expr → Nat), Agrees s d →
      (∀ a ∈ as, ∀ x ∈ a.2.label?, eval a.2 = d x) →
      Agrees (assign (.tuple default (as.map fun a => .ident default a.1))
        (some (.tuple default (as.map Prod.snd))) s) (storeAll eval as d) := by
  have hs : (⟨[[.me], [.var ⟨0⟩, .var ⟨2⟩], [.var ⟨1⟩]]⟩ : Classes).Valid := by
    rw [Partition.Valid]
    decide
  have hn : ([(⟨0⟩, Expr.ident default ⟨2⟩), ((⟨1⟩ : VarId), Expr.ident default ⟨0⟩)].map
      Prod.fst).Nodup := by
    decide
  refine ⟨hs, hn, (assign_agrees_iff hs default default (fun _ => default) hn).2 ?_⟩
  simp only [List.pairwise_pair, Expr.label?]
  exact fun _ => ⟨_, rfl, by decide⟩

end Alias

/-- The sender takes the place of another party, which is remembered. -/
def SourceUnit.replaced : SourceUnit := .single "Replaced" parties [
  { name := "f"
    body := [
      .assign {} (.tuple {} ["x", "y"]) none
        (.tuple {} [.me {}, "x"]),
      .assign {} "r" none (.index {} "m" "y")] }]

theorem SourceUnit.outcome_replaced : replaced.outcome (fun _ _ => true) ⟨0⟩ ⟨1⟩ Store.zeros =
    .ok (true, some (true, [some (.number 7), some (.number 0)])) := by
  decide +kernel

/-- After `(x, y) = (me, x)` the former `x` is taken for the sender, whatever it was: its data is
read as the sender's own. -/
theorem SourceUnit.replaced_denotes_another : ∃ q t ρ flow, Passes replaced.check q ∧
    (q.machine 7 true 1 1).Reaches (q.function ⟨0⟩).body (Store.zeros q) t ρ ∧
    t.info.flow? = some flow ∧ flow.before.same .me (.var ⟨1⟩) = true ∧
    (q.machine 7 true 1 1).denote ρ .me = some (.number 7) ∧
    (q.machine 7 true 1 1).denote ρ (.var ⟨1⟩) = some (.number 0) := by
  obtain ⟨q, t, ρ, flow, hq, -, henters, hflow, hsame, hvalues⟩ := of_outcome outcome_replaced
  obtain ⟨hme, hy⟩ := List.cons.inj hvalues
  exact ⟨q, t, ρ, flow, hq, .inside henters .here, hflow, hsame, hme, (List.cons.inj hy).1⟩

end Shroud
