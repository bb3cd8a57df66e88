import Shroud.Owner
import Shroud.Sorted

/-! # Sorted lists as sets and maps -/

namespace Shroud

instance : Std.LawfulEqOrd VarId where
  compare_self := Nat.compare_eq_eq.2 rfl
  eq_of_compare {v w} h := by
    cases v; cases w
    exact congrArg VarId.mk (Nat.compare_eq_eq.1 h)

instance : Std.LawfulEqOrd FunctionId where
  compare_self := Nat.compare_eq_eq.2 rfl
  eq_of_compare {f g} h := by
    cases f; cases g
    exact congrArg FunctionId.mk (Nat.compare_eq_eq.1 h)

instance : Std.LawfulEqOrd Label where
  compare_self := Nat.compare_eq_eq.2 rfl
  eq_of_compare {l m} h := by
    have hrank : l.rank = m.rank := Nat.compare_eq_eq.1 h
    cases l <;> cases m <;> simp only [Label.rank] at hrank <;>
      first | rfl | omega | exact congrArg (fun n => Label.var ⟨n⟩) (by omega)

instance : Std.TransOrd VarId where
  eq_swap {v w} := Std.OrientedOrd.eq_swap (a := v.index) (b := w.index)
  isLE_trans {v w x} := Std.TransOrd.isLE_trans (a := v.index) (b := w.index) (c := x.index)

instance : Std.TransOrd Label where
  eq_swap {l m} := Std.OrientedOrd.eq_swap (a := l.rank) (b := m.rank)
  isLE_trans {l m n} := Std.TransOrd.isLE_trans (a := l.rank) (b := m.rank) (c := n.rank)

namespace Sorted

variable {α : Type} [Ord α] [Std.LawfulEqOrd α] {s : List α} {x : α} {t : List α}

theorem mem_insert {y : α} : y ∈ insert x s ↔ y = x ∨ y ∈ s := by
  induction s with
  | nil => simp [insert]
  | cons z zs ih =>
    rw [insert]
    split
    · simp
    · rename_i h
      obtain rfl := Std.LawfulEqOrd.eq_of_compare h
      simp
    · simp only [List.mem_cons, ih]
      exact or_left_comm

theorem mem_foldl_insert : x ∈ t.foldl (fun s x => insert x s) s ↔ x ∈ s ∨ x ∈ t := by
  induction t generalizing s with
  | nil => simp
  | cons y t ih =>
    rw [List.foldl_cons, ih, mem_insert, List.mem_cons, or_comm (a := x = y), or_assoc]

@[simp] theorem mem_ofList : x ∈ ofList s ↔ x ∈ s := by
  simp [ofList, mem_foldl_insert]

@[simp] theorem mem_union : x ∈ union s t ↔ x ∈ s ∨ x ∈ t :=
  mem_foldl_insert

/-- A new element is added once. -/
theorem perm_insert (h : x ∉ s) : (insert x s).Perm (x :: s) := by
  induction s with
  | nil => exact .refl _
  | cons y s ih =>
    rw [List.mem_cons, not_or] at h
    rw [insert]
    split
    · exact .refl _
    · rename_i heq
      exact absurd (Std.LawfulEqOrd.eq_of_compare heq) h.1
    · exact ((ih h.2).cons y).trans (.swap x y s)

theorem nodup_union (hs : s.Nodup) (ht : t.Nodup) (h : ∀ x ∈ t, x ∉ s) : (union s t).Nodup := by
  induction t generalizing s with
  | nil => exact hs
  | cons x t ih =>
    rw [List.nodup_cons] at ht
    rw [List.forall_mem_cons] at h
    refine ih ?_ ht.2 fun y hy hmem => ?_
    · exact (perm_insert h.1).nodup_iff.2 (List.nodup_cons.2 ⟨h.1, hs⟩)
    · rcases mem_insert.1 hmem with rfl | hmem
      · exact ht.1 hy
      · exact h.2 y hy hmem

/-! ## Ascending lists -/

section Ascending

variable [Std.TransOrd α] {s t : List α}

/-- In ascending order, without repetition. -/
def Ascending (s : List α) : Prop := s.Pairwise fun x y => compare x y = .lt

theorem Ascending.insert (h : Ascending s) : Ascending (Sorted.insert x s) := by
  induction s with
  | nil => exact List.pairwise_singleton _ _
  | cons y s ih =>
    obtain ⟨hy, hs⟩ := List.pairwise_cons.1 h
    rw [Sorted.insert]
    split
    · rename_i hxy
      refine List.pairwise_cons.2 ⟨List.forall_mem_cons.2 ⟨hxy, fun z hz => ?_⟩, h⟩
      exact Std.TransCmp.lt_trans hxy (hy z hz)
    · exact h
    · rename_i hxy
      refine List.pairwise_cons.2 ⟨fun z hz => ?_, ih hs⟩
      rcases mem_insert.1 hz with rfl | hz
      · exact Std.OrientedCmp.lt_of_gt hxy
      · exact hy z hz

theorem Ascending.union (h : Ascending s) : Ascending (Sorted.union s t) := by
  induction t generalizing s with
  | nil => exact h
  | cons x t ih => exact ih h.insert

theorem ascending_ofList (s : List α) : Ascending (ofList s) :=
  Ascending.union List.Pairwise.nil

omit [Std.LawfulEqOrd α] in
theorem Ascending.nodup (h : Ascending s) : s.Nodup := by
  refine h.imp fun {x y} hxy heq => ?_
  rw [heq, Std.ReflOrd.compare_self] at hxy
  cases hxy

omit [Std.LawfulEqOrd α] in
/-- Ascending lists with the same elements are equal. -/
theorem Ascending.ext (hs : Ascending s) (ht : Ascending t) (h : ∀ x, x ∈ s ↔ x ∈ t) : s = t := by
  refine List.Perm.eq_of_pairwise (fun x y _ _ hxy hyx => ?_) hs ht
    ((List.perm_ext_iff_of_nodup hs.nodup ht.nodup).2 h)
  exact (Std.OrientedCmp.not_lt_of_lt hxy hyx).elim

end Ascending

/-! ## Maps -/

section Map

variable {β : Type} [DecidableEq α] {m : List (α × β)}

omit [Ord α] [Std.LawfulEqOrd α] in
theorem find?_cons (e : α × β) (m : List (α × β)) (k : α) :
    find? (e :: m) k = if e.1 = k then some e.2 else find? m k := by
  by_cases h : e.1 = k <;> simp [find?, h]

omit [Ord α] [Std.LawfulEqOrd α] in
theorem isSome_find?_iff {k : α} : (find? m k).isSome ↔ k ∈ m.map Prod.fst := by
  simp [find?]

omit [Ord α] [Std.LawfulEqOrd α] in
theorem mem_of_find? {k : α} {v : β} (h : find? m k = some v) : (k, v) ∈ m := by
  obtain ⟨⟨l, w⟩, he, rfl⟩ := Option.map_eq_some_iff.1 h
  obtain rfl : l = k := by simpa using List.find?_some he
  exact List.mem_of_find?_eq_some he

/-- What is bound last is found, whatever the order of the entries. -/
theorem find?_put (k l : α) (v : β) (m : List (α × β)) :
    find? (put k v m) l = if k = l then some v else find? m l := by
  induction m with
  | nil => exact find?_cons _ _ _
  | cons e m ih =>
    rw [put]
    split
    · exact find?_cons _ _ _
    · rename_i h
      obtain rfl := Std.LawfulEqOrd.eq_of_compare h
      rw [find?_cons, find?_cons]
      split <;> rfl
    · rename_i h
      have hne : e.1 ≠ k := by
        rintro rfl
        rw [Std.ReflOrd.compare_self] at h
        cases h
      rw [find?_cons, ih, find?_cons]
      by_cases hl : e.1 = l
      · rw [if_pos hl, if_pos hl, if_neg fun hk => hne (hl.trans hk.symm)]
      · rw [if_neg hl, if_neg hl]

@[simp] theorem find?_put_self (k : α) (v : β) (m : List (α × β)) :
    find? (put k v m) k = some v := by simp [find?_put]

end Map

end Sorted

end Shroud
