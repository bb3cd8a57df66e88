import Mathlib.Data.List.Nodup
import Mathlib.Data.List.Perm.Basic
import Shroud.Partition
import Shroud.Proofs.Sorted

/-! # Related elements

A partition relates the elements of each of its classes. Every operation is described by the pairs
that it relates, in terms of the pairs that were related before.
-/

namespace Shroud.Partition

variable {α : Type} {cs : List (List α)} {c : List α} {keep : α → Bool} {i : Nat} {d : List α}

/-- Two elements are in one class. -/
def Related (p : Partition α) (x y : α) : Prop := ∃ c ∈ p.classes, x ∈ c ∧ y ∈ c

/-- Every element is in one class at most. -/
def Valid (p : Partition α) : Prop := p.classes.flatten.Nodup

theorem Related.symm {p : Partition α} {x y : α} (h : p.Related x y) : p.Related y x := by
  obtain ⟨c, hc, hx, hy⟩ := h
  exact ⟨c, hc, hy, hx⟩

theorem related_perm {p q : Partition α} (h : p.classes.Perm q.classes) {x y : α} :
    p.Related x y ↔ q.Related x y := by
  simp [Related, h.mem_iff]

theorem Valid.congr {p q : Partition α} (h : p.classes.Perm q.classes) (hp : p.Valid) : q.Valid :=
  h.flatten.nodup hp

@[simp] theorem related_cons {x y : α} :
    Related ⟨c :: cs⟩ x y ↔ x ∈ c ∧ y ∈ c ∨ Related ⟨cs⟩ x y := by
  simp [Related]

@[simp] theorem valid_cons :
    Valid ⟨c :: cs⟩ ↔ c.Nodup ∧ Valid ⟨cs⟩ ∧ ∀ x ∈ c, ¬ Related ⟨cs⟩ x x := by
  simp only [Valid, List.flatten_cons, List.nodup_append, Related, and_self]
  refine and_congr_right fun _ => and_congr_right fun _ => ⟨fun h x hx => ?_, fun h x hx y hy => ?_⟩
  · rintro ⟨d, hd, hxd⟩
    exact h x hx x (List.mem_flatten.2 ⟨d, hd, hxd⟩) rfl
  · rintro rfl
    exact h x hx (List.mem_flatten.1 hy)

theorem related_comm {p : Partition α} {x y : α} : p.Related x y ↔ p.Related y x :=
  ⟨.symm, .symm⟩

theorem Related.left {p : Partition α} {x y : α} (h : p.Related x y) : p.Related x x := by
  obtain ⟨c, hc, hx, -⟩ := h
  exact ⟨c, hc, hx, hx⟩

/-- Classes are disjoint. -/
theorem Valid.trans {p : Partition α} (h : p.Valid) {x y z : α} (hxy : p.Related x y)
    (hyz : p.Related y z) : p.Related x z := by
  obtain ⟨cs⟩ := p
  induction cs with
  | nil => simp [Related] at hxy
  | cons c cs ih =>
    rw [valid_cons] at h
    rw [related_cons] at *
    rcases hxy with ⟨hx, hy⟩ | hxy <;> rcases hyz with ⟨hy', hz⟩ | hyz
    · exact .inl ⟨hx, hz⟩
    · exact (h.2.2 y hy hyz.left).elim
    · exact (h.2.2 y hy' hxy.symm.left).elim
    · exact .inr (ih h.2.1 hxy hyz)

theorem valid_empty : (empty : Partition α).Valid := List.nodup_nil

theorem not_related_empty {x y : α} : ¬ (empty : Partition α).Related x y := by
  simp [Related, empty]

/-! ## Positions -/

theorem dropClass_concat {last : List α} :
    dropClass (cs ++ [last]) i = if i < cs.length then cs.set i last else cs := by
  have hlast : (cs ++ [last]).getLast? = some last := by simp
  simp only [dropClass, hlast]
  split
  · rename_i h
    rw [List.set_append_left _ _ h, List.dropLast_concat]
  · rename_i h
    rw [List.set_append_right _ _ (by omega)]
    cases hi : i - cs.length with
    | zero | succ k => simp

/-- Removing a class leaves the others. -/
theorem perm_dropClass (h : cs[i]? = some c) : cs.Perm (c :: dropClass cs i) := by
  rcases List.eq_nil_or_concat cs with rfl | ⟨ds, last, rfl⟩
  · cases h
  rw [List.concat_eq_append] at h ⊢
  rw [dropClass_concat]
  split
  · rename_i hi
    rw [List.getElem?_append_left hi] at h
    obtain ⟨_, rfl⟩ := List.getElem?_eq_some_iff.1 h
    refine List.perm_append_comm.trans ?_
    have hds := List.getElem_cons_eraseIdx_perm hi
    have hset := List.set_perm_cons_eraseIdx hi last
    exact (hds.symm.cons last).trans ((List.Perm.swap _ _ _).trans (hset.symm.cons _))
  · rename_i hi
    obtain ⟨hlt, rfl⟩ := List.getElem?_eq_some_iff.1 h
    have hi : i = ds.length := by simp at hlt; omega
    subst hi
    simp

theorem getElem?_dropClass {k : Nat} (h : i < cs.length) (hk : k < i) :
    (dropClass cs i)[k]? = cs[k]? := by
  rcases List.eq_nil_or_concat cs with rfl | ⟨ds, last, rfl⟩
  · cases h
  rw [List.concat_eq_append, List.length_append] at h
  rw [List.concat_eq_append, dropClass_concat, List.getElem?_append_left (by simp at h; omega)]
  split
  · rw [List.getElem?_set_ne (by omega)]
  · rfl

theorem perm_set (h : cs[i]? = some c) : ∃ ds, cs.Perm (c :: ds) ∧ (cs.set i d).Perm (d :: ds) := by
  obtain ⟨hi, rfl⟩ := List.getElem?_eq_some_iff.1 h
  exact ⟨cs.eraseIdx i, (List.getElem_cons_eraseIdx_perm hi).symm, List.set_perm_cons_eraseIdx hi d⟩

variable [DecidableEq α] {p q : Partition α} {x y a b : α}

theorem position?_eq_some (h : p.position? x = some i) : ∃ c, p.classes[i]? = some c ∧ x ∈ c := by
  obtain ⟨hi, hx, -⟩ := List.findIdx?_eq_some_iff_getElem.1 h
  exact ⟨p.classes[i], List.getElem?_eq_getElem hi, by simpa using hx⟩

theorem position?_eq_none (h : p.position? x = none) : ¬ p.Related x x := by
  rw [position?, List.findIdx?_eq_none_iff] at h
  rintro ⟨c, hc, hx, -⟩
  simpa [hx] using h c hc

theorem has_iff : p.has x = true ↔ p.Related x x := by
  rw [has]
  cases h : p.position? x with
  | none => simpa using position?_eq_none h
  | some i =>
    obtain ⟨c, hc, hx⟩ := position?_eq_some h
    simpa using ⟨c, List.mem_of_getElem? hc, hx, hx⟩

theorem same_comm (p : Partition α) (x y : α) : p.same x y = p.same y x := by
  unfold same
  cases p.position? x <;> cases p.position? y <;> simp [eq_comm]

theorem same_trans {z : α} (h : p.same x y = true) (h' : p.same y z = true) :
    p.same x z = true := by
  unfold same at h h' ⊢
  cases hx : p.position? x <;> cases hy : p.position? y <;> cases hz : p.position? z <;>
    simp_all <;> grind

/-- What is known to be equal is related, or the same. -/
theorem related_of_same (h : p.same x y = true) : x = y ∨ p.Related x y := by
  rw [same, Bool.or_eq_true, decide_eq_true_eq] at h
  refine h.imp_right fun h => ?_
  split at h
  · rename_i i j hi hj
    obtain rfl : i = j := by simpa using h
    obtain ⟨c, hc, hx⟩ := position?_eq_some hi
    obtain ⟨d, hd, hy⟩ := position?_eq_some hj
    obtain rfl : c = d := Option.some.inj (hc.symm.trans hd)
    exact ⟨c, List.mem_of_getElem? hc, hx, hy⟩
  · cases h

@[simp, grind =] theorem same_self (p : Partition α) (x : α) : p.same x x = true := by simp [same]

theorem position?_eq_of_related (hp : p.Valid) (h : p.Related x y) :
    p.position? x = p.position? y := by
  obtain ⟨cs⟩ := p
  induction cs with
  | nil => simp [Related] at h
  | cons c cs ih =>
    obtain ⟨-, hcs, hdisjoint⟩ := valid_cons.1 hp
    simp only [position?, List.findIdx?_cons, List.contains_iff_mem]
    rcases related_cons.1 h with ⟨hx, hy⟩ | h
    · rw [if_pos hx, if_pos hy]
    · rw [if_neg fun hx => hdisjoint x hx h.left, if_neg fun hy => hdisjoint y hy h.symm.left]
      exact congrArg (Option.map (· + 1)) (ih hcs h)

/-- Between elements that are present, to be known as equal is to be in one class. -/
theorem same_iff_related (hp : p.Valid) (hx : p.has x = true) :
    p.same x y = true ↔ p.Related x y := by
  refine ⟨fun h => ?_, fun h => ?_⟩
  · rcases related_of_same h with rfl | h
    · exact has_iff.1 hx
    · exact h
  · obtain ⟨i, hi⟩ := Option.isSome_iff_exists.1 hx
    simp [same, ← position?_eq_of_related hp h, hi]

/-- The class of an element holds what the element is related to. -/
theorem Valid.mem_iff_related (hp : p.Valid) {c : List α} (hc : c ∈ p.classes) (hx : x ∈ c) :
    y ∈ c ↔ p.Related x y := by
  refine ⟨fun hy => ⟨c, hc, hx, hy⟩, fun h => ?_⟩
  have hperm := List.perm_cons_erase hc
  rw [related_perm (q := ⟨c :: p.classes.erase c⟩) hperm, related_cons] at h
  have hv : Valid ⟨c :: p.classes.erase c⟩ := hp.congr hperm
  exact h.elim And.right fun h => ((valid_cons.1 hv).2.2 x hx h.left).elim

/-! ## Elements come and go -/

theorem perm_insert (h : p.has x = false) : (p.insert x).classes.Perm ([x] :: p.classes) := by
  rw [insert, h]
  exact List.perm_append_comm

theorem related_insert_iff : (p.insert x).Related a b ↔ p.Related a b ∨ a = x ∧ b = x := by
  cases hx : p.has x with
  | true =>
    rw [insert, hx, if_pos rfl, iff_self_or]
    rintro ⟨rfl, rfl⟩
    exact has_iff.1 hx
  | false =>
    rw [related_perm (q := ⟨[x] :: p.classes⟩) (perm_insert hx)]
    simp [or_comm]

theorem Valid.insert (h : p.Valid) : (p.insert x).Valid := by
  cases hx : p.has x with
  | true => rwa [Partition.insert, hx]
  | false =>
    refine Valid.congr (p := ⟨[x] :: p.classes⟩) (perm_insert hx).symm ?_
    have hnot : ¬ p.Related x x := fun hr => by simp [has_iff.2 hr] at hx
    simpa using ⟨h, hnot⟩

/-- Removing an element takes it out of its class. -/
theorem remove_cases (p : Partition α) (x : α) :
    p.remove x = p ∧ ¬ p.Related x x ∨
    ∃ c cs, p.classes.Perm (c :: cs) ∧ x ∈ c ∧
      (c.erase x = [] ∧ (p.remove x).classes.Perm cs ∨
        c.erase x ≠ [] ∧ (p.remove x).classes.Perm (c.erase x :: cs)) := by
  cases h : p.position? x with
  | none => exact .inl ⟨by rw [remove, h], position?_eq_none h⟩
  | some i =>
    obtain ⟨c, hc, hx⟩ := position?_eq_some h
    obtain ⟨cs, hp, hset⟩ := perm_set (d := c.erase x) hc
    refine .inr ⟨c, cs, hp, hx, ?_⟩
    simp only [remove, h, hc, Option.getD_some]
    split
    · rename_i hempty
      exact .inl ⟨List.isEmpty_iff.1 hempty, ((perm_dropClass hc).symm.trans hp).cons_inv⟩
    · rename_i hempty
      exact .inr ⟨fun h => hempty (List.isEmpty_iff.2 h), hset⟩

omit [DecidableEq α] in
theorem Related.ne (h : p.Related a b) (hx : ¬ p.Related x x) : a ≠ x ∧ b ≠ x := by
  constructor
  · rintro rfl
    exact hx h.left
  · rintro rfl
    exact hx h.symm.left

theorem related_remove_iff (hp : p.Valid) :
    (p.remove x).Related a b ↔ p.Related a b ∧ a ≠ x ∧ b ≠ x := by
  rcases remove_cases p x with ⟨heq, hx⟩ | ⟨c, cs, hperm, hx, hrem⟩
  · rw [heq, iff_self_and]
    exact fun h => h.ne hx
  have hv : Valid ⟨c :: cs⟩ := hp.congr hperm
  rw [valid_cons] at hv
  have herase : Related ⟨c.erase x :: cs⟩ a b ↔ p.Related a b ∧ a ≠ x ∧ b ≠ x := by
    have hne : Related ⟨cs⟩ a b → a ≠ x ∧ b ≠ x := fun h => h.ne (hv.2.2 x hx)
    rw [related_perm (q := ⟨c :: cs⟩) hperm, related_cons, related_cons, hv.1.mem_erase_iff,
      hv.1.mem_erase_iff]
    tauto
  rcases hrem with ⟨hempty, hrem⟩ | ⟨-, hrem⟩
  · rw [← herase, hempty, related_perm (q := ⟨cs⟩) hrem]
    simp
  · rw [← herase, related_perm hrem]

theorem Valid.remove (hp : p.Valid) : (p.remove x).Valid := by
  rcases remove_cases p x with ⟨heq, -⟩ | ⟨c, cs, hperm, hx, hrem⟩
  · rwa [heq]
  have hv : Valid ⟨c :: cs⟩ := hp.congr hperm
  rw [valid_cons] at hv
  rcases hrem with ⟨-, hrem⟩ | ⟨-, hrem⟩
  · exact Valid.congr (p := ⟨cs⟩) hrem.symm hv.2.1
  · refine Valid.congr (p := ⟨c.erase x :: cs⟩) hrem.symm ?_
    rw [valid_cons]
    exact ⟨hv.1.erase x, hv.2.1, fun z hz => hv.2.2 z (List.mem_of_mem_erase hz)⟩

theorem related_moveApart_iff (hp : p.Valid) :
    (p.moveApart x).Related a b ↔ p.Related a b ∧ a ≠ x ∧ b ≠ x ∨ a = x ∧ b = x := by
  rw [moveApart, related_insert_iff, related_remove_iff hp]

theorem Valid.moveApart (hp : p.Valid) : (p.moveApart x).Valid := hp.remove.insert

/-! ## Classes are split -/

omit [DecidableEq α] in
theorem mem_splitClass : d ∈ splitClass keep c ↔
    d = c.filter keep ∧ d ≠ [] ∨ ∃ z ∈ c, keep z = false ∧ d = [z] := by
  have hrest : d ∈ (c.filter fun x => !keep x).map (fun x => [x]) ↔
      ∃ z ∈ c, keep z = false ∧ d = [z] := by
    simp [and_assoc, eq_comm (a := d)]
  simp only [splitClass]
  split
  · rename_i h
    rw [hrest, List.isEmpty_iff.1 h]
    simp
  · rename_i h
    rw [List.mem_cons, hrest, and_iff_left_of_imp]
    rintro rfl
    simpa using h

omit [DecidableEq α] in
theorem related_separate_iff : (p.separate keep).Related a b ↔
    p.Related a b ∧ (a = b ∨ keep a = true ∧ keep b = true) := by
  simp only [Related, separate, List.mem_flatMap, mem_splitClass]
  constructor
  · rintro ⟨d, ⟨c, hc, ⟨rfl, -⟩ | ⟨z, hz, -, rfl⟩⟩, ha, hb⟩
    · rw [List.mem_filter] at ha hb
      exact ⟨⟨c, hc, ha.1, hb.1⟩, .inr ⟨ha.2, hb.2⟩⟩
    · rw [List.mem_singleton] at ha hb
      subst ha hb
      exact ⟨⟨c, hc, hz, hz⟩, .inl rfl⟩
  · rintro ⟨⟨c, hc, ha, hb⟩, hab⟩
    by_cases hk : keep a = true ∧ keep b = true
    · have ha := List.mem_filter.2 ⟨ha, hk.1⟩
      exact ⟨_, ⟨c, hc, .inl ⟨rfl, List.ne_nil_of_mem ha⟩⟩, ha, List.mem_filter.2 ⟨hb, hk.2⟩⟩
    · obtain rfl := hab.resolve_right hk
      exact ⟨[a], ⟨c, hc, .inr ⟨a, ha, by simpa using hk, rfl⟩⟩, by simp, by simp⟩

theorem Related.of_join (h : (p.join q).Related a b) : p.Related a b ∧ q.Related a b := by
  obtain ⟨e, he, ha, hb⟩ := h
  obtain ⟨c, hc, he⟩ := List.mem_flatMap.1 he
  obtain ⟨d, hd, rfl⟩ := List.mem_map.1 (List.mem_filter.1 he).1
  rw [List.mem_filter] at ha hb
  exact ⟨⟨c, hc, ha.1, hb.1⟩, ⟨d, hd, by simpa using ha.2, by simpa using hb.2⟩⟩

omit [DecidableEq α] in
theorem perm_flatten_splitClass (keep : α → Bool) (c : List α) :
    (splitClass keep c).flatten.Perm c := by
  have hrest : ∀ l : List α, (l.map fun x => [x]).flatten = l := fun l => by
    induction l with
    | nil => rfl
    | cons x l ih => rw [List.map_cons, List.flatten_cons, ih, List.singleton_append]
  have hsplit := List.filter_append_perm keep c
  simp only [splitClass]
  split
  · rename_i h
    rw [List.isEmpty_iff.1 h, List.nil_append] at hsplit
    rwa [hrest]
  · rwa [List.flatten_cons, hrest]

omit [DecidableEq α] in
theorem Valid.separate (hp : p.Valid) : (p.separate keep).Valid := by
  have hperm : ∀ cs : List (List α), (cs.flatMap (splitClass keep)).flatten.Perm cs.flatten := by
    intro cs
    induction cs with
    | nil => exact .refl _
    | cons c cs ih =>
      rw [List.flatMap_cons, List.flatten_append, List.flatten_cons]
      exact (perm_flatten_splitClass keep c).append ih
  exact (hperm p.classes).nodup_iff.2 hp

theorem Valid.join (hp : p.Valid) (hq : q.Valid) : (p.join q).Valid := by
  rw [Valid, List.nodup_flatten] at hp hq ⊢
  refine ⟨fun e he => ?_, ?_⟩
  · obtain ⟨c, hc, he⟩ := List.mem_flatMap.1 he
    obtain ⟨d, -, rfl⟩ := List.mem_map.1 (List.mem_filter.1 he).1
    exact (hp.1 c hc).filter _
  · rw [Partition.join, List.pairwise_flatMap]
    constructor
    · intro c _
      refine List.Pairwise.filter _ (List.pairwise_map.2 (hq.2.imp fun hde z hz hz' => ?_))
      exact hde (by simpa using (List.mem_filter.1 hz).2) (by simpa using (List.mem_filter.1 hz').2)
    · refine hp.2.imp fun hcd e he e' he' z hz hz' => ?_
      obtain ⟨d, -, rfl⟩ := List.mem_map.1 (List.mem_filter.1 he).1
      obtain ⟨d', -, rfl⟩ := List.mem_map.1 (List.mem_filter.1 he').1
      exact hcd (List.mem_filter.1 hz).1 (List.mem_filter.1 hz').1

/-! ## Classes are united -/

variable [Ord α] [Std.LawfulEqOrd α]

omit [Std.LawfulEqOrd α] in
theorem merge_cases (p : Partition α) (x y : α) :
    p.merge x y = p ∧ (p.has x = true → p.has y = true → p.Related x y) ∨
    ∃ c d cs, p.classes.Perm (c :: d :: cs) ∧
      (p.merge x y).classes.Perm (Sorted.union c d :: cs) ∧
      (x ∈ c ∧ y ∈ d ∨ x ∈ d ∧ y ∈ c) := by
  rcases hx : p.position? x with _ | i
  · exact .inl ⟨by rw [merge, hx], by simp [has, hx]⟩
  rcases hy : p.position? y with _ | j
  · exact .inl ⟨by rw [merge, hx, hy], by simp [has, hy]⟩
  obtain ⟨cx, hcx, hmx⟩ := position?_eq_some hx
  obtain ⟨cy, hcy, hmy⟩ := position?_eq_some hy
  by_cases hij : i = j
  · subst hij
    obtain rfl : cx = cy := Option.some.inj (hcx.symm.trans hcy)
    exact .inl ⟨by simp [merge, hx, hy], fun _ _ => ⟨cx, List.mem_of_getElem? hcx, hmx, hmy⟩⟩
  -- the class in front stays, and takes in the other one
  have hunite : ∀ {k m : Nat} {c d : List α}, k < m → p.classes[k]? = some c →
      p.classes[m]? = some d → ∃ cs, p.classes.Perm (c :: d :: cs) ∧
        ((dropClass p.classes m).set k (Sorted.union c d)).Perm (Sorted.union c d :: cs) := by
    intro k m c d hkm hc hd
    obtain ⟨hm, -⟩ := List.getElem?_eq_some_iff.1 hd
    rw [← getElem?_dropClass hm hkm] at hc
    obtain ⟨cs, hp, hset⟩ := perm_set (d := Sorted.union c d) hc
    exact ⟨cs, ((perm_dropClass hd).trans (hp.cons d)).trans (.swap c d cs), hset⟩
  right
  simp only [merge, hx, hy, hij, if_false]
  rcases Nat.lt_or_gt_of_ne hij with hlt | hlt
  · obtain ⟨cs, hp, hm⟩ := hunite hlt hcx hcy
    rw [Nat.min_eq_left (Nat.le_of_lt hlt), Nat.max_eq_right (Nat.le_of_lt hlt), hcx, hcy]
    exact ⟨cx, cy, cs, hp, hm, .inl ⟨hmx, hmy⟩⟩
  · obtain ⟨cs, hp, hm⟩ := hunite hlt hcy hcx
    rw [Nat.min_eq_right (Nat.le_of_lt hlt), Nat.max_eq_left (Nat.le_of_lt hlt), hcx, hcy]
    exact ⟨cy, cx, cs, hp, hm, .inr ⟨hmx, hmy⟩⟩

theorem Related.of_merge (h : (p.merge x y).Related a b) :
    p.Related a b ∨ p.Related a x ∧ p.Related y b ∨ p.Related a y ∧ p.Related x b := by
  rcases merge_cases p x y with ⟨heq, -⟩ | ⟨c, d, cs, hperm, hmerge, hxy⟩
  · rw [heq] at h
    exact .inl h
  simp only [related_perm (q := ⟨Sorted.union c d :: cs⟩) hmerge, related_cons,
    Sorted.mem_union] at h
  simp only [related_perm (q := ⟨c :: d :: cs⟩) hperm, related_cons]
  tauto

theorem related_merge_iff (hp : p.Valid) : (p.merge x y).Related a b ↔
    p.Related a b ∨ p.Related a x ∧ p.Related y b ∨ p.Related a y ∧ p.Related x b := by
  refine ⟨Related.of_merge, fun h => ?_⟩
  rcases merge_cases p x y with ⟨heq, hxy⟩ | ⟨c, d, cs, hperm, hmerge, hxy⟩
  · rw [heq]
    rcases h with h | ⟨hax, hyb⟩ | ⟨hay, hxb⟩
    · exact h
    · have hxy := hxy (has_iff.2 hax.symm.left) (has_iff.2 hyb.left)
      exact hp.trans (hp.trans hax hxy) hyb
    · have hxy := hxy (has_iff.2 hxb.left) (has_iff.2 hay.symm.left)
      exact hp.trans (hp.trans hay hxy.symm) hxb
  have hc {w z : α} := hp.mem_iff_related (x := w) (y := z) (hperm.mem_iff.2 (.head _))
  have hd {w z : α} := hp.mem_iff_related (x := w) (y := z) (hperm.mem_iff.2 (.tail _ (.head _)))
  simp only [related_perm (q := ⟨Sorted.union c d :: cs⟩) hmerge, related_cons, Sorted.mem_union]
  rw [related_comm (x := a) (y := x), related_comm (x := a) (y := y),
    related_perm (q := ⟨c :: d :: cs⟩) hperm, related_cons, related_cons] at h
  rcases hxy with ⟨hx, hy⟩ | ⟨hx, hy⟩
  · rw [← hc hx, ← hc hx, ← hd hy, ← hd hy] at h
    tauto
  · rw [← hd hx, ← hd hx, ← hc hy, ← hc hy] at h
    tauto

theorem Valid.merge (hp : p.Valid) : (p.merge x y).Valid := by
  rcases merge_cases p x y with ⟨heq, -⟩ | ⟨c, d, cs, hperm, hmerge, -⟩
  · rwa [heq]
  have hv : Valid ⟨c :: d :: cs⟩ := hp.congr hperm
  simp only [valid_cons, related_cons, not_or, and_self] at hv
  obtain ⟨hc, ⟨hd, hcs, hdcs⟩, hcd⟩ := hv
  refine Valid.congr (p := ⟨Sorted.union c d :: cs⟩) hmerge.symm ?_
  rw [valid_cons]
  refine ⟨Sorted.nodup_union hc hd fun z hz hz' => (hcd z hz').1 hz, hcs, fun z hz => ?_⟩
  rcases Sorted.mem_union.1 hz with hz | hz
  · exact (hcd z hz).2
  · exact hdcs z hz

/-- An element that moves joins the class of its target, or stands alone if there is none. -/
theorem related_moveTo_iff (hp : p.Valid) : (p.moveTo x y).Related a b ↔
    p.Related a b ∧ a ≠ x ∧ b ≠ x ∨
    a = x ∧ (b = x ∨ p.Related y b) ∨ b = x ∧ (a = x ∨ p.Related y a) := by
  by_cases hstay : (p.same x y && p.has x) = true
  · rw [moveTo, if_pos hstay]
    rw [Bool.and_eq_true] at hstay
    have hxy := (same_iff_related hp hstay.2).1 hstay.1
    have hy {z : α} : p.Related y z ↔ p.Related x z := ⟨hp.trans hxy, hp.trans hxy.symm⟩
    have hx := hxy.left
    have hcomm := related_comm (p := p) (x := a) (y := b)
    grind
  rw [moveTo, if_neg hstay]
  -- `x` is not in the class of `y`, so what `y` is related to stays when `x` goes
  have hstays {z : α} : p.Related y z ↔ (p.remove x).Related y z := by
    rw [related_remove_iff hp, iff_self_and]
    refine fun hyz => ⟨?_, ?_⟩
    · rintro rfl
      exact hstay (by simp [has_iff.2 hyz.left])
    · rintro rfl
      have hx := has_iff.2 hyz.symm.left
      exact hstay (by simp [(same_iff_related hp hx).2 hyz.symm, hx])
  rw [hstays, hstays, ← related_remove_iff hp]
  dsimp only
  split
  · rename_i i hi
    obtain ⟨c, hc, hyc⟩ := position?_eq_some hi
    obtain ⟨cs, hrem, hset⟩ := perm_set (d := Sorted.insert x c) hc
    have hclass {z : α} := hp.remove.mem_iff_related (y := z) (List.mem_of_getElem? hc) hyc
    rw [hc, Option.getD_some, related_perm (q := ⟨Sorted.insert x c :: cs⟩) hset, ← hclass,
      ← hclass, related_perm (q := ⟨c :: cs⟩) hrem, related_cons, related_cons, Sorted.mem_insert,
      Sorted.mem_insert]
    tauto
  · rename_i hnone
    have hy {z : α} : ¬ (p.remove x).Related y z := fun h => position?_eq_none hnone h.left
    rw [related_insert_iff]
    tauto

theorem Valid.moveTo (hp : p.Valid) : (p.moveTo x y).Valid := by
  rw [Partition.moveTo]
  split
  · exact hp
  dsimp only
  split
  · rename_i i hi
    obtain ⟨c, hc, -⟩ := position?_eq_some hi
    obtain ⟨cs, hrem, hset⟩ := perm_set (d := Sorted.insert x c) hc
    have hv : Valid ⟨c :: cs⟩ := hp.remove.congr hrem
    have hx : ¬ Related ⟨c :: cs⟩ x x := fun hr =>
      ((related_remove_iff hp).1 ((related_perm (q := ⟨c :: cs⟩) hrem).2 hr)).2.1 rfl
    rw [valid_cons] at hv
    rw [related_cons, not_or, and_self] at hx
    rw [hc, Option.getD_some]
    refine Valid.congr (p := ⟨Sorted.insert x c :: cs⟩) hset.symm ?_
    rw [valid_cons]
    refine ⟨(Sorted.perm_insert hx.1).nodup_iff.2 (List.nodup_cons.2 ⟨hx.1, hv.1⟩), hv.2.1, ?_⟩
    intro z hz
    rcases Sorted.mem_insert.1 hz with rfl | hz
    · exact hx.2
    · exact hv.2.2 z hz
  · exact hp.remove.insert

end Shroud.Partition
