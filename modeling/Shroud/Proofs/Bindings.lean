import Mathlib
import Shroud.Lowering.Basic
import Shroud.Proofs.Sorted
import Shroud.Proofs.Success

/-! # Bindings

What is bound after each change of the current versions.
-/

namespace Shroud

namespace Sorted

variable {α β : Type} [Ord α]

theorem eq_or_mem_of_mem_put {k : α} {v : β} {m : List (α × β)} {e : α × β}
    (h : e ∈ put k v m) : e = (k, v) ∨ e ∈ m := by
  induction m with
  | nil => exact .inl (List.mem_singleton.1 h)
  | cons x m ih =>
    rw [put] at h
    split at h
    · exact List.mem_cons.1 h
    · rcases List.mem_cons.1 h with h | h
      · exact .inl h
      · exact .inr (List.mem_cons_of_mem _ h)
    · rcases List.mem_cons.1 h with rfl | h
      · exact .inr (List.mem_cons_self ..)
      · exact (ih h).imp_right (List.mem_cons_of_mem _)

end Sorted

instance : Std.LawfulEqOrd Lowering.Key where
  compare_self {k} := by
    cases k with
    | var v => exact Std.ReflOrd.compare_self (a := v)
    | ret f i =>
      exact Ordering.then_eq_eq.2 ⟨Std.ReflOrd.compare_self, Std.ReflOrd.compare_self⟩
  eq_of_compare {k l} h := by
    cases k <;> cases l
    · exact congrArg _ (Std.LawfulEqOrd.eq_of_compare h)
    · cases h
    · cases h
    · obtain ⟨hf, hi⟩ := Ordering.then_eq_eq.1 h
      rw [Std.LawfulEqOrd.eq_of_compare hf, Std.LawfulEqOrd.eq_of_compare hi]

namespace Bindings

variable {κ ν : Type} {b c : Bindings κ ν} {k : κ}

theorem mem_of_get? [DecidableEq κ] {v : ν} (h : b.get? k = some v) : (k, v) ∈ b.entries :=
  Sorted.mem_of_find? h

section Change

variable [Ord κ] {e : κ × ν} {persists : κ → Bool} {es : List (κ × ν)}

theorem mem_bind {v : ν} (h : e ∈ (b.bind k v).entries) : e = (k, v) ∨ e ∈ b.entries :=
  Sorted.eq_or_mem_of_mem_put h

theorem mem_foldl_bind (h : e ∈ (es.foldl (fun s e => s.bind e.1 e.2) b).entries) :
    e ∈ es ∨ e ∈ b.entries := by
  induction es generalizing b with
  | nil => exact .inr h
  | cons x es ih =>
    rcases ih h with h | h
    · exact .inl (List.mem_cons_of_mem _ h)
    · rcases mem_bind h with rfl | h
      · exact .inl (List.mem_cons_self ..)
      · exact .inr h

theorem get?_foldl_bind [DecidableEq κ] [Std.LawfulEqOrd κ] (h : ∀ e ∈ es, e.1 ≠ k) :
    (es.foldl (fun s e => s.bind e.1 e.2) b).get? k = b.get? k := by
  induction es generalizing b with
  | nil => rfl
  | cons x es ih =>
    obtain ⟨hx, hes⟩ := List.forall_mem_cons.1 h
    rw [List.foldl_cons, ih hes]
    exact (Sorted.find?_put ..).trans (if_neg hx)

theorem mem_rollback (h : e ∈ (b.rollback c persists).entries) :
    e ∈ c.entries ∨ e ∈ b.entries ∧ persists e.1 = true := by
  rcases mem_foldl_bind h with h | h
  · exact .inr (List.mem_filter.1 h)
  · exact .inl h

end Change

section Join

variable [DecidableEq ν] {m : Type → Type} [Monad m] {merge : κ → Option ν → Option ν → m ν}

/-- Joins the versions of a name at both ends: one that they share stays. -/
def joinOne (merge : κ → Option ν → Option ν → m ν) (k : κ) (v w : Option ν) : m ν :=
  match v.filter (w = some ·) with
  | some v => pure v
  | none => merge k v w

theorem joinOne_iff {σ ε : Type} {merge : κ → Option ν → Option ν → StateT σ (Except ε) ν}
    {v w : Option ν} {s t : σ} {r : ν} (hk : v.isSome ∨ w.isSome) :
    Yields (joinOne merge k v w) s r t ↔
      if v = w then v = some r ∧ t = s else Yields (merge k v w) s r t := by
  unfold joinOne
  split
  · rename_i x hx
    obtain ⟨rfl, hw⟩ := Option.filter_eq_some_iff.1 hx
    obtain rfl := of_decide_eq_true hw
    simp [eq_comm]
  · rename_i hnone
    rw [if_neg]
    rintro rfl
    cases v with
    | none => simp at hk
    | some x => simp [Option.filter] at hnone

/-- Joins names one after another. -/
def joinAll (merge : κ → Option ν → Option ν → m ν) (ts : List (κ × Option ν × Option ν)) :
    m (List (κ × ν)) := ts.mapM fun t => do return (t.1, ← joinOne merge t.1 t.2.1 t.2.2)

theorem joinFirst_eq [LawfulMonad m] [DecidableEq κ] (second : Bindings κ ν) (es : List (κ × ν)) :
    joinFirst second merge es =
      joinAll merge (es.map fun e => (e.1, some e.2, second.get? e.1)) := by
  induction es with
  | nil => rfl
  | cons e es ih =>
    rw [joinFirst, ih]
    split <;> simp [joinAll, joinOne, Option.filter, *]

theorem joinSecond_eq [LawfulMonad m] (es : List (κ × ν)) : joinSecond merge es =
    joinAll merge (es.map fun e => (e.1, none, some e.2)) := by
  induction es with
  | nil => rfl
  | cons e es ih => simp [joinSecond, ih, joinAll, joinOne]

end Join

end Bindings

end Shroud
