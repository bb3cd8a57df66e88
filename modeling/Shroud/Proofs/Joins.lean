import Shroud.Proofs.Bindings

/-! # Joins

The versions after a branch. Both sides change one saved state; the join binds what either of them
binds, and merges the versions that differ.
-/

namespace Shroud.Bindings

variable {κ ν σ ε : Type} {b first second : Bindings κ ν} {k : κ} {es out : List (κ × ν)}

def keys (b : Bindings κ ν) : List κ := b.entries.map Prod.fst

/-! ## The merges of a join -/

/-- A merge that was made: a name, its versions at both ends, and the one it got. -/
structure Merge (κ ν : Type) where
  key : κ
  first : Option ν
  second : Option ν
  result : ν

/-- Merges in the same way, and keeps a log. -/
def recording (merge : κ → Option ν → Option ν → StateT σ (Except ε) ν) (k : κ) (v w : Option ν) :
    StateT (List (Merge κ ν) × σ) (Except ε) ν := fun (log, s) =>
  (merge k v w s).map fun (r, t) => (r, log ++ [⟨k, v, w, r⟩], t)

variable [DecidableEq κ]

theorem isBound_iff : b.isBound k ↔ k ∈ b.keys := Sorted.isSome_find?_iff

/-- The names of the first end, then those that only the second one binds. -/
def bothKeys (first second : Bindings κ ν) : List κ :=
  first.keys ++ second.keys.filter fun k => !first.isBound k

theorem mem_bothKeys : k ∈ bothKeys first second ↔ first.isBound k ∨ second.isBound k := by
  simp only [bothKeys, List.mem_append, List.mem_filter, ← isBound_iff]
  cases first.isBound k <;> simp

section Log

variable [DecidableEq ν] {merge : κ → Option ν → Option ν → StateT σ (Except ε) ν} {s t : σ}
  {ks : List κ}

/-- The merges behind joined versions, one for each name whose versions differ. -/
def merges (first second : Bindings κ ν) (out : List (κ × ν)) : List (Merge κ ν) :=
  (out.filter fun e => first.get? e.1 ≠ second.get? e.1).map fun e =>
    ⟨e.1, first.get? e.1, second.get? e.1, e.2⟩

theorem merges_append (out js : List (κ × ν)) : merges first second (out ++ js) =
    merges first second out ++ merges first second js := by
  simp [merges]

/-- Joining names makes the merges that lie behind the result; other versions stay. -/
theorem joinAll_recording (hks : ks ⊆ bothKeys first second)
    (h : Yields (joinAll merge (ks.map fun k => (k, first.get? k, second.get? k))) s out t) :
    out.map Prod.fst = ks ∧
    (∀ e ∈ out, first.get? e.1 = second.get? e.1 → first.get? e.1 = some e.2) ∧
    ∀ log, Yields (joinAll (recording merge) (ks.map fun k => (k, first.get? k, second.get? k)))
      (log, s) out (log ++ merges first second out, t) := by
  induction ks generalizing s out with
  | nil =>
    obtain ⟨rfl, rfl⟩ := Yields.pure_iff.1 h
    exact ⟨rfl, nofun, fun log => Yields.pure_iff.2 ⟨rfl, by simp [merges]⟩⟩
  | cons k ks ih =>
    obtain ⟨hk, hks⟩ := List.cons_subset.1 hks
    obtain ⟨e, u, js, he, hjs, rfl⟩ := Yields.mapM_cons_iff.1 h
    obtain ⟨r, hr, rfl⟩ := Yields.bind_pure_iff.1 he
    obtain ⟨hnames, hkept, hrun⟩ := ih hks hjs
    rw [joinOne_iff (mem_bothKeys.1 hk)] at hr
    refine ⟨congrArg (k :: ·) hnames, List.forall_mem_cons.2 ⟨fun heq => ?_, hkept⟩, fun log => ?_⟩
    · rw [if_pos heq] at hr
      exact hr.1
    · have hone : Yields (joinOne (recording merge) k (first.get? k) (second.get? k)) (log, s) r
          (log ++ merges first second [(k, r)], u) := by
        rw [joinOne_iff (mem_bothKeys.1 hk)]
        split at hr
        · simpa [merges, *] using hr
        · have hlog : Yields (recording merge k (first.get? k) (second.get? k)) (log, s) r
              (log ++ [⟨k, first.get? k, second.get? k, r⟩], u) := congrArg (Except.map _) hr
          simp [merges, *]
      refine Yields.mapM_cons_iff.2 ⟨_, _, js, Yields.bind_pure_iff.2 ⟨r, hone, rfl⟩, ?_, rfl⟩
      have hrest := hrun (log ++ merges first second [(k, r)])
      rwa [List.append_assoc, ← merges_append] at hrest

end Log

/-! ## Names in order -/

variable [Ord κ]

/-- The names are in ascending order. -/
def Ordered (b : Bindings κ ν) : Prop := Sorted.Ascending b.keys

section Ordered

variable [Std.LawfulEqOrd κ]

omit [DecidableEq κ] in
theorem keys_bind {v : ν} : (b.bind k v).keys = Sorted.insert k b.keys := by
  obtain ⟨es⟩ := b
  induction es with
  | nil => rfl
  | cons e es ih =>
    simp only [keys, bind, Sorted.put, List.map_cons, Sorted.insert] at ih ⊢
    split
    · rfl
    · rename_i heq
      rw [List.map_cons, Std.LawfulEqOrd.eq_of_compare heq]
    · rw [List.map_cons, ih]

omit [DecidableEq κ] in
theorem keys_foldl_bind : (es.foldl (fun s e => s.bind e.1 e.2) b).keys =
    Sorted.union b.keys (es.map Prod.fst) := by
  rw [Sorted.union, List.foldl_map]
  exact (List.foldl_hom keys fun _ _ => keys_bind.symm).symm

end Ordered

variable [Std.TransOrd κ]

theorem Ordered.get? {e : κ × ν} (hb : b.Ordered) (he : e ∈ b.entries) :
    b.get? e.1 = some e.2 := by
  obtain ⟨v, hv⟩ := Option.isSome_iff_exists.1 (isBound_iff.2 (List.mem_map_of_mem he))
  rw [hv, ← List.inj_on_of_nodup_map hb.nodup (mem_of_get? hv) he rfl]

variable [Std.LawfulEqOrd κ] [DecidableEq ν] {merge : κ → Option ν → Option ν → StateT σ (Except ε) ν} {s t : σ}
  {joined : Bindings κ ν}

theorem join_recording (hf : first.Ordered) (hs : second.Ordered)
    (h : Yields (first.join second merge) s joined t) :
    ∃ out, Yields (first.join second (recording merge)) ([], s) joined (merges first second out, t) ∧
      out.map Prod.fst = bothKeys first second ∧
      (∀ e ∈ out, first.get? e.1 = second.get? e.1 → first.get? e.1 = some e.2) ∧
      (∀ e ∈ joined.entries, e ∈ out) ∧ ∀ k, k ∈ joined.keys ↔ k ∈ out.map Prod.fst := by
  have hfirst : (first.entries.map fun e => (e.1, some e.2, second.get? e.1)) =
      first.keys.map fun k => (k, first.get? k, second.get? k) := by
    rw [keys, List.map_map]
    exact List.map_congr_left fun e he => by simp [hf.get? he]
  have hsecond : ((second.entries.filter fun e => !first.isBound e.1).map fun e =>
        (e.1, none, some e.2)) =
      (second.keys.filter fun k => !first.isBound k).map fun k =>
        (k, first.get? k, second.get? k) := by
    rw [keys, List.filter_map, List.map_map]
    refine List.map_congr_left fun e he => ?_
    obtain ⟨he, hn⟩ := List.mem_filter.1 he
    simp_all [hs.get? he, isBound]
  simp only [join, joinFirst_eq, joinSecond_eq, hfirst, hsecond] at h ⊢
  obtain ⟨shared, u, hshared, h⟩ := Yields.bind_iff.1 h
  obtain ⟨added, hadded, rfl⟩ := Yields.bind_pure_iff.1 h
  obtain ⟨hnames, hkept, hrun⟩ := joinAll_recording (List.subset_append_left _ _) hshared
  obtain ⟨hnames', hkept', hrun'⟩ := joinAll_recording (List.subset_append_right _ _) hadded
  refine ⟨shared ++ added, ?_, ?_, ?_, ?_, ?_⟩
  · refine Yields.bind_iff.2 ⟨shared, _, hrun [], Yields.bind_pure_iff.2 ⟨added, ?_, rfl⟩⟩
    rw [merges_append]
    exact hrun' _
  · rw [List.map_append, hnames, hnames', bothKeys]
  · exact List.forall_mem_append.2 ⟨hkept, hkept'⟩
  · exact fun e he => List.mem_append.2 (mem_foldl_bind he).symm
  · intro k
    rw [keys_foldl_bind, Sorted.mem_union, List.map_append, List.mem_append]
    rfl

/-- The names on which two ends differ are merged once each and no others, the names of the first
end before the rest, and both in ascending order. -/
structure MergedOnce (first second : Bindings κ ν) (calls : List (Merge κ ν)) : Prop where
  versions : ∀ c ∈ calls, c.first = first.get? c.key ∧ c.second = second.get? c.key
  once : ∀ k, (calls.map Merge.key).count k = if first.get? k = second.get? k then 0 else 1
  order : ∃ ks ls, calls.map Merge.key = ks ++ ls ∧ Sorted.Ascending ks ∧ Sorted.Ascending ls ∧
    (∀ k ∈ ks, first.isBound k) ∧ ∀ k ∈ ls, ¬ first.isBound k

omit [Std.LawfulEqOrd κ] in
theorem mergedOnce_merges (hf : first.Ordered) (hs : second.Ordered)
    (hout : out.map Prod.fst = bothKeys first second) :
    MergedOnce first second (merges first second out) := by
  have hkeys : (merges first second out).map Merge.key =
      (bothKeys first second).filter fun k => first.get? k ≠ second.get? k := by
    rw [← hout, List.filter_map, merges, List.map_map]
    rfl
  refine ⟨?_, fun k => ?_, _, _, hkeys.trans (List.filter_append ..), hf.filter _,
    (hs.filter _).filter _, ?_, ?_⟩
  · intro c hc
    obtain ⟨e, -, rfl⟩ := List.mem_map.1 hc
    exact ⟨rfl, rfl⟩
  · have hnodup : (bothKeys first second).Nodup := by
      refine hf.nodup.append (hs.nodup.filter _) fun k hk hk' => ?_
      simp [isBound_iff.2 hk] at hk'
    rw [hkeys, (hnodup.filter _).count]
    by_cases heq : first.get? k = second.get? k
    · simp [heq]
    · rw [if_neg heq, if_pos]
      refine List.mem_filter.2 ⟨mem_bothKeys.2 ?_, by simpa using heq⟩
      by_contra hnone
      simp_all [isBound]
  · exact fun k hk => isBound_iff.2 (List.mem_filter.1 hk).1
  · intro k hk
    simpa using (List.mem_filter.1 (List.mem_filter.1 hk).1).2

/-! ## Branches -/

variable (κ ν) in
/-- A state that can be saved. -/
def Saved : Type := {b : Bindings κ ν // b.Ordered}

variable (κ ν) in
/-- What changes the versions inside a branch. -/
inductive Change
  | bind (k : κ) (v : ν)
  | drop (ks : List κ)
  | rollback (saved : Saved κ ν) (persists : κ → Bool)

def Saved.change (b : Saved κ ν) : Change κ ν → Saved κ ν
  | .bind k v => ⟨b.1.bind k v, by rw [Ordered, keys_bind]; exact b.2.insert⟩
  | .drop ks => ⟨b.1.drop ks, b.2.sublist (List.filter_sublist.map _)⟩
  | .rollback saved persists =>
    ⟨b.1.rollback saved.1 persists, by rw [rollback, Ordered, keys_foldl_bind]; exact saved.2.union⟩

/-- The state at the end of a branch. -/
def Saved.after (b : Saved κ ν) (cs : List (Change κ ν)) : Bindings κ ν := (cs.foldl change b).1

/-- A join selects the branch that is taken, if its merges do. -/
theorem join_selects_branch (saved : Saved κ ν) (yes no : List (Change κ ν))
    (h : Yields ((saved.after yes).join (saved.after no) merge) s joined t) :
    ∃ calls, Yields ((saved.after yes).join (saved.after no) (recording merge)) ([], s) joined
        (calls, t) ∧ MergedOnce (saved.after yes) (saved.after no) calls ∧
      (∀ k, joined.isBound k ↔ (saved.after yes).isBound k ∨ (saved.after no).isBound k) ∧
      ∀ {δ : Type} (taken : Bool) (value : ν → δ) (before : κ → δ),
        (∀ c ∈ calls, value c.result =
          (if taken then c.first else c.second).elim (before c.key) value) →
        ∀ k v, joined.get? k = some v → value v =
          ((if taken then saved.after yes else saved.after no).get? k).elim (before k) value := by
  obtain ⟨out, hrun, hkeys, hkept, hmem, hnames⟩ :=
    join_recording (yes.foldl Saved.change saved).2 (no.foldl Saved.change saved).2 h
  refine ⟨_, hrun, mergedOnce_merges (Subtype.prop _) (Subtype.prop _) hkeys, fun k => ?_, ?_⟩
  · rw [isBound_iff, hnames, hkeys, mem_bothKeys]
    rfl
  intro δ taken value before hcalls k v hv
  have he := hmem _ (mem_of_get? hv)
  rw [apply_ite (Bindings.get? · k)]
  by_cases heq : (saved.after yes).get? k = (saved.after no).get? k
  · have hboth : (saved.after yes).get? k = some v := hkept _ he heq
    rw [← heq, ite_self, hboth]
    rfl
  · refine hcalls ⟨k, _, _, v⟩ (List.mem_map.2 ⟨(k, v), List.mem_filter.2 ⟨he, ?_⟩, rfl⟩)
    exact decide_eq_true heq

/-- A version is a pair, with what it is if the condition holds and what it is if not. -/
def pairing (k : Nat) (v w : Option (Nat × Nat)) : StateT Nat (Except Unit) (Nat × Nat) :=
  fun n => .ok (((v.getD (k, k)).1, (w.getD (k, k)).2), n + 1)

theorem join_selects_branch_pairing :
    let saved : Saved Nat (Nat × Nat) := ⟨⟨[(1, 10, 10), (2, 20, 20), (5, 50, 50)]⟩,
      (by decide : List.Pairwise (fun x y => compare x y = .lt) [1, 2, 5])⟩
    let yes := [.bind 1 (11, 11), .bind 3 (31, 31), .drop [2]]
    let no := [.bind 1 (12, 12), .bind 3 (32, 32), .rollback saved (· == 1), .bind 4 (42, 42)]
    let joined := ⟨[(1, 11, 12), (2, 2, 20), (3, 31, 3), (4, 4, 42), (5, 50, 50)]⟩
    Yields ((saved.after yes).join (saved.after no) pairing) 0 joined 4 ∧
      ∃ calls, MergedOnce (saved.after yes) (saved.after no) calls ∧
        calls.map Merge.key = [1, 3, 2, 4] ∧ ∀ k v, joined.get? k = some v →
          v.1 = ((saved.after yes).get? k).elim k Prod.fst := by
  intro saved yes no joined
  have h : Yields ((saved.after yes).join (saved.after no) pairing) 0 joined 4 := rfl
  have hrecorded : Yields ((saved.after yes).join (saved.after no) (recording pairing)) ([], 0)
    joined ([⟨1, some (11, 11), some (12, 12), 11, 12⟩, ⟨3, some (31, 31), none, 31, 3⟩,
      ⟨2, none, some (20, 20), 2, 20⟩, ⟨4, none, some (42, 42), 4, 42⟩], 4) := rfl
  obtain ⟨calls, hrun, honce, -, hselects⟩ := join_selects_branch saved yes no h
  cases hrecorded.symm.trans hrun
  exact ⟨h, _, honce, rfl, hselects true Prod.fst id (by simp)⟩

end Shroud.Bindings
