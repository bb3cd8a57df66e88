import Mathlib.Logic.Relation
import Shroud.Proofs.Partition

/-! # Partitions as equivalence relations

A partition that is made from the empty one by its operations has disjoint classes, none of them
empty, so that it stands for an equivalence relation on the elements that are present. What an
operation does is said by the elements and the relation that it leaves.
-/

namespace Shroud.Partition

variable {α : Type} [DecidableEq α] {p q : Partition α} {x y a b : α}

/-! ## What is related afterwards -/

theorem related_iff (hp : p.Valid) :
    p.Related x y ↔ p.has x = true ∧ p.has y = true ∧ p.same x y = true := by
  refine ⟨fun h => ?_, fun ⟨hx, _, h⟩ => (same_iff_related hp hx).1 h⟩
  have hx := has_iff.2 h.left
  exact ⟨hx, has_iff.2 h.symm.left, (same_iff_related hp hx).2 h⟩

theorem related_join_iff : (p.join q).Related a b ↔ p.Related a b ∧ q.Related a b := by
  refine ⟨Related.of_join, ?_⟩
  rintro ⟨⟨c, hc, hac, hbc⟩, d, hd, had, hbd⟩
  refine ⟨c.filter d.contains, List.mem_flatMap.2 ⟨c, hc, List.mem_filter.2 ⟨?_, ?_⟩⟩, ?_, ?_⟩
  · exact List.mem_map.2 ⟨d, hd, rfl⟩
  · simpa using ⟨a, hac, had⟩
  · simpa using ⟨hac, had⟩
  · simpa using ⟨hbc, hbd⟩

section Ordered

variable [Ord α] {P : List α → Prop}

theorem merge_of_absent (h : ¬ (p.has x = true ∧ p.has y = true)) : p.merge x y = p := by
  rcases hx : p.position? x with _ | i
  · rw [merge, hx]
  rcases hy : p.position? y with _ | j
  · rw [merge, hx, hy]
  · exact absurd ⟨by simp [has, hx], by simp [has, hy]⟩ h

/-! ## Properties of single classes -/

/-- A property of classes that is kept whenever a class is made, grows or loses elements. -/
structure Kept (P : List α → Prop) : Prop where
  single (x : α) : P [x]
  erase {c : List α} (x : α) : P c → c.erase x ≠ [] → P (c.erase x)
  filter {c : List α} (keep : α → Bool) : P c → c.filter keep ≠ [] → P (c.filter keep)
  insert {c : List α} (x : α) : P c → P (Sorted.insert x c)
  union {c d : List α} : P c → P (Sorted.union c d)

omit [DecidableEq α] [Ord α] in
theorem forall_classes_congr (h : p.classes.Perm q.classes) (hp : ∀ c ∈ p.classes, P c) :
    ∀ c ∈ q.classes, P c := fun c hc => hp c (h.mem_iff.2 hc)

namespace Kept

variable (hP : Kept P) (hp : ∀ c ∈ p.classes, P c)

include hP hp

theorem insertElement : ∀ c ∈ (p.insert x).classes, P c := by
  rw [Partition.insert]
  split
  · exact hp
  · exact List.forall_mem_append.2 ⟨hp, by simpa using hP.single x⟩

theorem remove : ∀ c ∈ (p.remove x).classes, P c := by
  rcases remove_cases p x with ⟨heq, -⟩ | ⟨c, cs, hperm, -, hrem⟩
  · rwa [heq]
  obtain ⟨hc, hcs⟩ := List.forall_mem_cons.1 (forall_classes_congr (q := ⟨c :: cs⟩) hperm hp)
  rcases hrem with ⟨-, hrem⟩ | ⟨hne, hrem⟩
  · exact forall_classes_congr (p := ⟨cs⟩) hrem.symm hcs
  · exact forall_classes_congr (p := ⟨c.erase x :: cs⟩) hrem.symm
      (List.forall_mem_cons.2 ⟨hP.erase x hc hne, hcs⟩)

theorem merge : ∀ c ∈ (p.merge x y).classes, P c := by
  rcases merge_cases p x y with ⟨heq, -⟩ | ⟨c, d, cs, hperm, hmerge, -⟩
  · rwa [heq]
  have hall := forall_classes_congr (q := ⟨c :: d :: cs⟩) hperm hp
  simp only [List.forall_mem_cons] at hall
  exact forall_classes_congr (p := ⟨Sorted.union c d :: cs⟩) hmerge.symm
    (List.forall_mem_cons.2 ⟨hP.union hall.1, hall.2.2⟩)

theorem moveTo : ∀ c ∈ (p.moveTo x y).classes, P c := by
  rw [Partition.moveTo]
  split
  · exact hp
  dsimp only
  split
  · rename_i i hi
    obtain ⟨c, hc, -⟩ := position?_eq_some hi
    obtain ⟨cs, hrem, hset⟩ := perm_set (d := Sorted.insert x c) hc
    rw [hc, Option.getD_some]
    obtain ⟨hc, hcs⟩ := List.forall_mem_cons.1
      (forall_classes_congr (q := ⟨c :: cs⟩) hrem (hP.remove hp))
    exact forall_classes_congr (p := ⟨Sorted.insert x c :: cs⟩) hset.symm
      (List.forall_mem_cons.2 ⟨hP.insert x hc, hcs⟩)
  · exact hP.insertElement (hP.remove hp)

theorem separate {keep : α → Bool} : ∀ c ∈ (p.separate keep).classes, P c := by
  intro d hd
  obtain ⟨c, hc, hd⟩ := List.mem_flatMap.1 hd
  rcases mem_splitClass.1 hd with ⟨rfl, hne⟩ | ⟨x, -, -, rfl⟩
  · exact hP.filter keep (hp c hc) hne
  · exact hP.single x

theorem join : ∀ c ∈ (p.join q).classes, P c := by
  intro e he
  obtain ⟨c, hc, he⟩ := List.mem_flatMap.1 he
  obtain ⟨he, hne⟩ := List.mem_filter.1 he
  obtain ⟨d, -, rfl⟩ := List.mem_map.1 he
  exact hP.filter _ (hp c hc) (by simpa using hne)

end Kept

theorem kept_ne_nil [Std.LawfulEqOrd α] : Kept fun c : List α => c ≠ [] where
  single _ := List.cons_ne_nil _ _
  erase _ _ h := h
  filter _ _ h := h
  insert x _ := List.ne_nil_of_mem (Sorted.mem_insert.2 (.inl rfl))
  union hc := by
    obtain ⟨x, hx⟩ := List.exists_mem_of_ne_nil _ hc
    exact List.ne_nil_of_mem (Sorted.mem_union.2 (.inl hx))

variable [Std.LawfulEqOrd α]

/-! ## Reachable partitions -/

/-- What the operations make of the empty partition. -/
inductive Reachable : Partition α → Prop
  | empty : Reachable empty
  | insert {p : Partition α} (x : α) : Reachable p → Reachable (p.insert x)
  | remove {p : Partition α} (x : α) : Reachable p → Reachable (p.remove x)
  | merge {p : Partition α} (x y : α) : Reachable p → Reachable (p.merge x y)
  | moveTo {p : Partition α} (x target : α) : Reachable p → Reachable (p.moveTo x target)
  | moveApart {p : Partition α} (x : α) : Reachable p → Reachable (p.moveApart x)
  | separate {p : Partition α} (keep : α → Bool) : Reachable p → Reachable (p.separate keep)
  | join {p q : Partition α} : Reachable p → Reachable q → Reachable (p.join q)

theorem Reachable.valid (h : p.Reachable) : p.Valid := by
  induction h with
  | empty => exact valid_empty
  | insert x _ ih => exact ih.insert
  | remove x _ ih => exact ih.remove
  | merge x y _ ih => exact ih.merge
  | moveTo x target _ ih => exact ih.moveTo
  | moveApart x _ ih => exact ih.moveApart
  | separate keep _ ih => exact ih.separate
  | join _ _ ihp ihq => exact ihp.join ihq

omit [Std.LawfulEqOrd α] in
/-- What the operations keep of single classes holds of all classes. -/
theorem Reachable.forall_classes (hP : Kept P) (h : p.Reachable) : ∀ c ∈ p.classes, P c := by
  induction h with
  | empty => exact nofun
  | insert x _ ih => exact hP.insertElement ih
  | remove x _ ih => exact hP.remove ih
  | merge x y _ ih => exact hP.merge ih
  | moveTo x target _ ih => exact hP.moveTo ih
  | moveApart x _ ih => exact hP.insertElement (hP.remove ih)
  | separate keep _ ih => exact hP.separate ih
  | join _ _ ih _ => exact hP.join ih

end Ordered

/-! ## The relation that an operation leaves -/

/-- A partition has these elements, and knows these of them to be equal. -/
structure Describes (p : Partition α) (elements : α → Prop) (related : α → α → Prop) : Prop where
  has_iff : ∀ a, p.has a = true ↔ elements a
  same_iff : ∀ a b, elements a → elements b → (p.same a b = true ↔ related a b)

theorem Valid.describes {elements : α → Prop} {related : α → α → Prop} (hp : p.Valid)
    (helements : ∀ a, p.Related a a ↔ elements a)
    (hrelated : ∀ a b, elements a → elements b → (p.Related a b ↔ related a b)) :
    p.Describes elements related where
  has_iff a := has_iff.trans (helements a)
  same_iff a b ha hb :=
    (same_iff_related hp (has_iff.2 ((helements a).2 ha))).trans (hrelated a b ha hb)

variable [Ord α]

/-- A partition stands for an equivalence relation on the elements that are present, and so do the
partitions that the operations make of it. -/
structure Refines (p : Partition α) : Prop where
  nonempty : ∀ c ∈ p.classes, c ≠ []
  disjoint : p.classes.Pairwise List.Disjoint
  equivalence : Equivalence fun x y : {x // p.has x = true} => p.same x.1 y.1 = true
  /-- A new element stands alone. -/
  insert : ∀ x, (p.insert x).Describes (fun a => p.has a = true ∨ a = x)
    (fun a b => a = b ∨ p.has a = true ∧ p.has b = true ∧ p.same a b = true)
  remove : ∀ x, (p.remove x).Describes (fun a => p.has a = true ∧ a ≠ x)
    (fun a b => p.same a b = true)
  /-- Two elements that are present become equal, with all that follows from that. -/
  merge : ∀ x y, p.has x = true → p.has y = true → (p.merge x y).Describes
    (fun a => p.has a = true)
    (Relation.EqvGen fun a b => p.has a = true ∧ p.has b = true ∧ p.same a b = true ∨ a = x ∧ b = y)
  merge_absent : ∀ x y, ¬ (p.has x = true ∧ p.has y = true) → p.merge x y = p
  /-- What moves is equal to what its target is equal to, and to nothing else. -/
  moveTo : ∀ x target, (p.moveTo x target).Describes (fun a => p.has a = true ∨ a = x)
    (fun a b => a ≠ x ∧ b ≠ x ∧ p.same a b = true ∨
      a = x ∧ (b = x ∨ p.has target = true ∧ p.has b = true ∧ p.same target b = true) ∨
      b = x ∧ (a = x ∨ p.has target = true ∧ p.has a = true ∧ p.same target a = true))
  moveApart : ∀ x, (p.moveApart x).Describes (fun a => p.has a = true ∨ a = x)
    (fun a b => a = b ∨ a ≠ x ∧ b ≠ x ∧ p.same a b = true)
  separate : ∀ keep : α → Bool, (p.separate keep).Describes (fun a => p.has a = true)
    (fun a b => a = b ∨ p.same a b = true ∧ keep a = true ∧ keep b = true)
  join : ∀ q : Partition α, q.Reachable → (p.join q).Describes
    (fun a => p.has a = true ∧ q.has a = true) (fun a b => p.same a b = true ∧ q.same a b = true)

variable [Std.LawfulEqOrd α]

/-- Uniting two classes gives the least equivalence that holds between their elements too. -/
theorem related_merge_iff_eqvGen (hp : p.Valid) (hx : p.has x = true) (hy : p.has y = true)
    (ha : p.has a = true) : (p.merge x y).Related a b ↔
      Relation.EqvGen (fun a b => p.Related a b ∨ a = x ∧ b = y) a b := by
  have hmerge := fun {z w : α} => related_merge_iff (x := x) (y := y) (a := z) (b := w) hp
  constructor
  · intro h
    have hrel : ∀ {z w : α}, p.Related z w →
        Relation.EqvGen (fun a b => p.Related a b ∨ a = x ∧ b = y) z w := fun h => .rel _ _ (.inl h)
    have hxy : Relation.EqvGen (fun a b => p.Related a b ∨ a = x ∧ b = y) x y :=
      .rel _ _ (.inr ⟨rfl, rfl⟩)
    rcases hmerge.1 h with h | ⟨hax, hyb⟩ | ⟨hay, hxb⟩
    · exact hrel h
    · exact ((hrel hax).trans _ _ _ hxy).trans _ _ _ (hrel hyb)
    · exact ((hrel hay).trans _ _ _ (hxy.symm _ _)).trans _ _ _ (hrel hxb)
  · intro h
    have hclosed : a = b ∨ (p.merge x y).Related a b := by
      clear ha
      induction h with
      | rel a b h =>
        refine .inr (hmerge.2 (h.imp_right ?_))
        rintro ⟨rfl, rfl⟩
        exact .inl ⟨has_iff.1 hx, has_iff.1 hy⟩
      | refl a => exact .inl rfl
      | symm a b _ ih => exact ih.imp Eq.symm Related.symm
      | trans a b c _ _ ihab ihbc =>
        rcases ihab with rfl | hab
        · exact ihbc
        · rcases ihbc with rfl | hbc
          · exact .inr hab
          · exact .inr (hp.merge.trans hab hbc)
    rcases hclosed with rfl | h
    · exact hmerge.2 (.inl (has_iff.1 ha))
    · exact h

/-- Every partition that is made by the operations stands for an equivalence relation, and each
operation changes that relation as it should. -/
theorem Reachable.refines (h : p.Reachable) : p.Refines := by
  have hp := h.valid
  have hrel := fun {z w : α} => related_iff (x := z) (y := w) hp
  constructor
  case nonempty => exact h.forall_classes kept_ne_nil
  case disjoint => exact (List.nodup_flatten.1 hp).2
  case equivalence =>
    exact ⟨fun x => same_self p x.1, fun h => by rwa [same_comm], fun h h' => same_trans h h'⟩
  case insert =>
    intro x
    refine hp.insert.describes (fun a => ?_) fun a b ha hb => ?_
    · rw [related_insert_iff, has_iff, and_self]
    · rw [related_insert_iff, hrel]
      grind
  case remove =>
    intro x
    refine hp.remove.describes (fun a => ?_) fun a b ha hb => ?_
    · rw [related_remove_iff hp, has_iff, and_self]
    · rw [related_remove_iff hp, hrel]
      grind
  case merge =>
    intro x y hx hy
    refine hp.merge.describes (fun a => ?_) fun a b ha hb => ?_
    · rw [related_merge_iff hp, has_iff]
      refine ⟨?_, .inl⟩
      rintro (h | ⟨h, -⟩ | ⟨h, -⟩)
      exacts [h, h.left, h.left]
    · simp only [← hrel]
      exact related_merge_iff_eqvGen hp hx hy ha
  case merge_absent => exact fun x y h => merge_of_absent h
  case moveTo =>
    intro x target
    refine hp.moveTo.describes (fun a => ?_) fun a b ha hb => ?_
    · rw [related_moveTo_iff hp, has_iff]
      grind
    · rw [related_moveTo_iff hp, hrel, hrel, hrel]
      grind
  case moveApart =>
    intro x
    refine hp.moveApart.describes (fun a => ?_) fun a b ha hb => ?_
    · rw [related_moveApart_iff hp, has_iff]
      grind
    · rw [related_moveApart_iff hp, hrel]
      grind
  case separate =>
    intro keep
    refine hp.separate.describes (fun a => ?_) fun a b ha hb => ?_
    · rw [related_separate_iff, has_iff]
      simp
    · rw [related_separate_iff, hrel]
      grind
  case join =>
    intro q hq
    refine (hp.join hq.valid).describes (fun a => ?_) fun a b ha hb => ?_
    · rw [related_join_iff, has_iff, has_iff]
    · rw [related_join_iff, hrel, related_iff hq.valid]
      grind

/-- After `1 = 3` is known, `3` becomes equal to `2` instead and `1` goes. -/
theorem Reachable.refines_moved :
    (⟨[[2, 3]]⟩ : Partition Nat).Reachable ∧ (⟨[[2, 3]]⟩ : Partition Nat).Refines := by
  obtain ⟨p, rfl, h⟩ : ∃ p : Partition Nat, p = ⟨[[2, 3]]⟩ ∧ p.Reachable :=
    ⟨_, by decide, .remove 1 (.moveTo 3 2 (.merge 1 3 (.insert 3 (.insert 2 (.insert 1 .empty)))))⟩
  exact ⟨h, h.refines⟩

end Shroud.Partition
