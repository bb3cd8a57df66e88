import Shroud.Proofs.Buffers.CallTree
import Shroud.Proofs.Success

/-! # Sizes of call trees

The sizes below all functions are computed with a table of those that are known already, and a path
of the functions whose sizes are under way. Every entry of the table counts a call tree, so the
table does not matter: sizes exist exactly for the functions with call trees, and they count them.
-/

namespace Shroud.Frames

variable {frames : Frames} {f : FunctionId} {c : Callees} {done done' : Sizes}
  {order : List FunctionId} {sizes : Sizes} {path : List FunctionId} {t : CallTree}
  {fs : List FunctionId} {acc : Callees}

/-! ## One function -/

theorem visitCalls_cons_iff {visit : FunctionId → StateT Sizes (Except Error) Callees}
    {rest : List FunctionId} :
    Yields (visitCalls frames visit (f :: rest) acc) done c done' ↔
      ∃ own below mid, Sorted.find? frames f = some own ∧ Yields (visit f) done below mid ∧
        Yields (visitCalls frames visit rest (acc.addCall own below)) mid c done' := by
  rw [visitCalls]
  cases hf : Sorted.find? frames f with
  | none | some own => simp

/-- Sizes of a function that are known are taken from the table; others are added up over the calls
and entered. -/
theorem visit_iff {n : Nat} :
    Yields (visit frames n path f) done c done' ↔
      (Sorted.find? done f = some c ∧ done' = done) ∨
      (Sorted.find? done f = none ∧ f ∉ path ∧ ∃ m own mid, n = m + 1 ∧
        Sorted.find? frames f = some own ∧
        Yields (visitCalls frames (visit frames m (path ++ [f])) own.calls { keys := own.keys })
          done c mid ∧
        done' = Sorted.put f c mid) := by
  rw [visit]
  simp only [Yields.bind_iff, Yields.get_iff]
  cases hdone : Sorted.find? done f with
  | some c' =>
    simp [hdone, eq_comm]
  | none =>
    by_cases hpath : f ∈ path
    · simp [hdone, hpath]
    · cases hf : Sorted.find? frames f with
      | none => simp [hdone, hpath]
      | some own =>
        cases n with
        | zero => simp [hdone, hpath]
        | succ m =>
          simp [hdone, hpath]

/-! ## What the table holds -/

/-- Every entry of a table counts the call tree of its function. -/
def Counted (frames : Frames) (done : Sizes) : Prop :=
  ∀ g c, Sorted.find? done g = some c → ∃ t, frames.Unfolds g t ∧ c = t.callees

/-- Nothing in a table is lost or changed. -/
def Kept (done done' : Sizes) : Prop :=
  ∀ g c, Sorted.find? done g = some c → Sorted.find? done' g = some c

theorem Kept.trans {done'' : Sizes} (h : Kept done done') (h' : Kept done' done'') :
    Kept done done'' := fun g c hg => h' g c (h g c hg)

theorem Counted.put (h : frames.Counted done) (ht : frames.Unfolds f t) :
    frames.Counted (Sorted.put f t.callees done) := by
  intro g c hg
  rw [Sorted.find?_put] at hg
  split at hg
  · cases hg
    subst g
    exact ⟨t, ht, rfl⟩
  · exact h g c hg

theorem Kept.put (h : Sorted.find? done f = none) (hk : Kept done done') :
    Kept done (Sorted.put f c done') := by
  intro g c' hg
  rw [Sorted.find?_put, if_neg]
  · exact hk g c' hg
  · rintro rfl
    rw [h] at hg
    cases hg

/-- The outcome of a visit: it counts the tree of the function, and enters it into the table. -/
structure Visited (frames : Frames) (f : FunctionId) (c : Callees) (done done' : Sizes) : Prop where
  counts : ∃ t, frames.Unfolds f t ∧ c = t.callees
  counted : frames.Counted done'
  kept : Kept done done'
  entered : Sorted.find? done' f = some c

/-- Calls that are visited one after another add up the trees of the called functions. -/
theorem visitCalls_counts {visit : FunctionId → StateT Sizes (Except Error) Callees}
    (hvisit : ∀ g c done done', Yields (visit g) done c done' → frames.Counted done →
      frames.Visited g c done done') (h : Yields (visitCalls frames visit fs acc) done c done')
    (hdone : frames.Counted done) :
    (∃ ts, List.Forall₂ frames.Unfolds fs ts ∧ c = ts.foldl Callees.addTree acc) ∧
      frames.Counted done' ∧ Kept done done' := by
  induction fs generalizing acc done with
  | nil =>
    obtain ⟨rfl, rfl⟩ := Yields.pure_iff.1 h
    exact ⟨⟨[], .nil, rfl⟩, hdone, fun _ _ hg => hg⟩
  | cons g fs ih =>
    obtain ⟨own, below, mid, hg, hv, h⟩ := visitCalls_cons_iff.1 h
    obtain ⟨⟨t, ht, rfl⟩, hmid, hkept, -⟩ := hvisit g below done mid hv hdone
    obtain rfl : t.own = own := by simpa using ht.find?.symm.trans hg
    obtain ⟨⟨ts, hts, rfl⟩, hcounted, hkept'⟩ := ih h hmid
    exact ⟨⟨t :: ts, .cons ht hts, rfl⟩, hcounted, hkept.trans hkept'⟩

/-- A visit that succeeds counts the call tree of its function. -/
theorem visit_counts (n : Nat) (h : Yields (visit frames n path f) done c done')
    (hdone : frames.Counted done) : frames.Visited f c done done' := by
  induction n generalizing path f c done done' with
  | zero =>
    obtain ⟨hf, rfl⟩ | ⟨-, -, m, own, mid, hm, -⟩ := visit_iff.1 h
    · exact ⟨hdone f c hf, hdone, fun _ _ hg => hg, hf⟩
    · cases hm
  | succ n ih =>
    obtain ⟨hf, rfl⟩ | ⟨hnone, -, m, own, mid, hm, hf, hcalls, rfl⟩ := visit_iff.1 h
    · exact ⟨hdone f c hf, hdone, fun _ _ hg => hg, hf⟩
    · cases hm
      obtain ⟨⟨ts, hts, rfl⟩, hmid, hkept⟩ :=
        visitCalls_counts (fun g c done done' hv hd => ih hv hd) hcalls hdone
      have ht : frames.Unfolds f (.node f own ts) := unfolds_node.2 ⟨rfl, hf, hts⟩
      have hc := Callees.callees_node f own ts
      rw [← hc] at *
      exact ⟨⟨_, ht, rfl⟩, hmid.put ht, hkept.put hnone, Sorted.find?_put_self _ _ _⟩

/-! ## Functions with call trees -/

theorem visitCalls_total {visit : FunctionId → StateT Sizes (Except Error) Callees}
    (hvisit : ∀ g ∈ fs, frames.Has g ∧ ∀ done, ∃ c done',
      Yields (visit g) done c done') (acc : Callees) (done : Sizes) :
    ∃ c done', Yields (visitCalls frames visit fs acc) done c done' := by
  induction fs generalizing acc done with
  | nil => exact ⟨acc, done, Yields.pure_iff.2 ⟨rfl, rfl⟩⟩
  | cons g fs ih =>
    rw [List.forall_mem_cons] at hvisit
    obtain ⟨⟨⟨own, hown⟩, hv⟩, hrest⟩ := hvisit
    obtain ⟨below, mid, hmid⟩ := hv done
    obtain ⟨c, done', h⟩ := ih hrest (acc.addCall own below) mid
    exact ⟨c, done', visitCalls_cons_iff.2 ⟨own, below, mid, hown, hmid, h⟩⟩

/-- Every function with a call tree can be visited, as long as the path of its callers and the depth
that is left make up for all functions. -/
theorem visit_total (ht : frames.Unfolds f t) {n : Nat} (hpath : frames.Path path f)
    (hn : path.length + n = frames.length) (done : Sizes) :
    ∃ c done', Yields (visit frames n path f) done c done' := by
  induction t using CallTree.induct generalizing f n path done with
  | node f' own ts ih =>
    obtain ⟨rfl, hown, hts⟩ := unfolds_node.1 ht
    cases hdone : Sorted.find? done f' with
    | some c => exact ⟨c, done, visit_iff.2 (.inl ⟨hdone, rfl⟩)⟩
    | none =>
      have hnot : f' ∉ path := fun hmem => ht.not_cycle (hpath.leads f' hmem)
      have hlt := hpath.length_lt hnot ⟨own, hown⟩
      obtain ⟨m, rfl⟩ : ∃ m, n = m + 1 := ⟨n - 1, by omega⟩
      have hcalls : ∀ g ∈ own.calls, frames.Has g ∧ ∀ done, ∃ c done',
          Yields (visit frames m (path ++ [f']) g) done c done' := by
        intro g hg
        have hfg : frames.Calls f' g := ⟨own, hown, hg⟩
        obtain ⟨u, hu, hgu⟩ := ht.of_calls hfg
        exact ⟨⟨_, hgu.find?⟩, ih u hu hgu (hpath.append hnot hfg) (by simp; omega)⟩
      obtain ⟨c, mid, h⟩ := visitCalls_total hcalls { keys := own.keys } done
      exact ⟨c, _, visit_iff.2 (.inr ⟨hdone, hnot, m, own, mid, rfl, hown, h, rfl⟩)⟩

/-! ## All functions -/

/-- Visits functions in a given order. -/
def visitAll (frames : Frames) (order : List FunctionId) : StateT Sizes (Except Error) PUnit :=
  order.forM fun f => discard (visit frames frames.length [] f)

theorem visitAll_cons_iff :
    Yields (visitAll frames (f :: order)) done ⟨⟩ done' ↔
      ∃ c mid, Yields (visit frames frames.length [] f) done c mid ∧
        Yields (visitAll frames order) mid ⟨⟩ done' := by
  have hcons : visitAll frames (f :: order) =
      (do discard (visit frames frames.length [] f); visitAll frames order) := rfl
  rw [hcons, Yields.bind_iff]
  simp only [Yields.discard_iff]
  constructor
  · rintro ⟨_, mid, ⟨c, hc⟩, h⟩
    exact ⟨c, mid, hc, h⟩
  · rintro ⟨c, mid, hc, h⟩
    exact ⟨⟨⟩, mid, ⟨c, hc⟩, h⟩

/-- The sizes are those of a visit of all functions in ascending order. -/
theorem sizes_eq_ok_iff :
    frames.sizes = .ok sizes ↔ Yields (visitAll frames (frames.map Prod.fst)) [] ⟨⟩ sizes := by
  have hmap : visitAll frames (frames.map Prod.fst) =
      frames.forM fun e => discard (visit frames frames.length [] e.1) := by
    exact List.forM_map
  rw [Frames.sizes, Yields, hmap, bind_eq_ok]
  constructor
  · rintro ⟨⟨⟨⟩, done⟩, h, hdone⟩
    cases hdone
    exact h
  · intro h
    exact ⟨_, h, rfl⟩

theorem visitAll_counts (h : Yields (visitAll frames order) done ⟨⟩ done')
    (hdone : frames.Counted done) :
    frames.Counted done' ∧ Kept done done' ∧ ∀ f ∈ order, ∃ c, Sorted.find? done' f = some c := by
  induction order generalizing done with
  | nil =>
    obtain ⟨-, rfl⟩ := Yields.pure_iff.1 h
    exact ⟨hdone, fun _ _ hg => hg, nofun⟩
  | cons f order ih =>
    obtain ⟨c, mid, hf, h⟩ := visitAll_cons_iff.1 h
    have hv := visit_counts _ hf hdone
    obtain ⟨hcounted, hkept, hall⟩ := ih h hv.counted
    refine ⟨hcounted, hv.kept.trans hkept, List.forall_mem_cons.2 ⟨⟨c, ?_⟩, hall⟩⟩
    exact hkept f c hv.entered

theorem visitAll_total (h : ∀ f ∈ order, ∃ t, frames.Unfolds f t) (done : Sizes) :
    ∃ done', Yields (visitAll frames order) done ⟨⟩ done' := by
  induction order generalizing done with
  | nil => exact ⟨done, Yields.pure_iff.2 ⟨rfl, rfl⟩⟩
  | cons f order ih =>
    rw [List.forall_mem_cons] at h
    obtain ⟨⟨t, ht⟩, hrest⟩ := h
    obtain ⟨c, mid, hc⟩ := visit_total ht (Path.nil frames f) (Nat.zero_add _) done
    obtain ⟨done', h⟩ := ih hrest mid
    exact ⟨done', visitAll_cons_iff.2 ⟨c, mid, hc, h⟩⟩

theorem counted_nil (frames : Frames) : frames.Counted [] := by
  intro g c hg
  cases hg

/-- In any order of visits, the functions that are visited get the sizes of their call trees. -/
theorem visitAll_find? (h : Yields (visitAll frames order) [] ⟨⟩ sizes) (hf : f ∈ order) :
    ∃ t, frames.Unfolds f t ∧ Sorted.find? sizes f = some t.callees := by
  obtain ⟨hcounted, -, hall⟩ := visitAll_counts h frames.counted_nil
  obtain ⟨c, hc⟩ := hall f hf
  obtain ⟨t, ht, rfl⟩ := hcounted f c hc
  exact ⟨t, ht, hc⟩

theorem sizes_isOk_iff :
    (∃ sizes, frames.sizes = .ok sizes) ↔ ∀ f, frames.Has f → ∃ t, frames.Unfolds f t := by
  simp only [sizes_eq_ok_iff, has_iff_mem_keys]
  constructor
  · rintro ⟨sizes, h⟩ f hf
    obtain ⟨t, ht, -⟩ := visitAll_find? h hf
    exact ⟨t, ht⟩
  · intro h
    exact visitAll_total h []

theorem sizes_find? (h : frames.sizes = .ok sizes) (hf : frames.Has f) :
    ∃ t, frames.Unfolds f t ∧ Sorted.find? sizes f = some t.callees :=
  visitAll_find? (sizes_eq_ok_iff.1 h) hf.mem_keys

/-- Sizes are known for functions with circuits only. -/
theorem Counted.has (h : frames.Counted sizes) (hf : Sorted.find? sizes f = some c) :
    frames.Has f := by
  obtain ⟨t, ht, -⟩ := h f c hf
  exact ⟨_, ht.find?⟩

/-- Two tables that hold all functions with circuits hold the same. -/
theorem Counted.find?_eq {sizes' : Sizes} (h : frames.Counted sizes) (h' : frames.Counted sizes')
    (hall : ∀ f, frames.Has f → ∃ c, Sorted.find? sizes f = some c)
    (hall' : ∀ f, frames.Has f → ∃ c, Sorted.find? sizes' f = some c) (f : FunctionId) :
    Sorted.find? sizes' f = Sorted.find? sizes f := by
  by_cases hf : frames.Has f
  · obtain ⟨c, hc⟩ := hall f hf
    obtain ⟨c', hc'⟩ := hall' f hf
    obtain ⟨t, ht, rfl⟩ := h f c hc
    obtain ⟨u, hu, rfl⟩ := h' f c' hc'
    rw [hc, hc', hu.unique ht]
  · have hnone : ∀ {s : Sizes}, frames.Counted s → Sorted.find? s f = none := fun hs =>
      Option.eq_none_iff_forall_ne_some.2 fun c hc => hf (hs.has hc)
    rw [hnone h, hnone h']

theorem mem_keys_iff (ht : frames.Unfolds f t) {k : Label} : k ∈ t.keys ↔
    ∃ g own, Relation.ReflTransGen frames.Calls f g ∧ Sorted.find? frames g = some own ∧
      k ∈ own.keys := by
  have hkeys : k ∈ t.keys ↔ ∃ own ∈ t.frames, k ∈ own.keys := by
    rw [Callees.keys_eq_addKeys, Callees.mem_addKeys, t.frames_eq]
    simp
  rw [hkeys]
  constructor
  · rintro ⟨own, hown, hk⟩
    obtain ⟨g, hg, hfind⟩ := ht.mem_frames_iff.1 hown
    exact ⟨g, own, hg, hfind, hk⟩
  · rintro ⟨g, own, hg, hfind, hk⟩
    exact ⟨own, ht.mem_frames_iff.2 ⟨g, hg, hfind⟩, hk⟩

theorem nodup_eraseDups {α : Type} [DecidableEq α] (l : List α) : l.eraseDups.Nodup := by
  induction hn : l.length using Nat.strongRecOn generalizing l with
  | ind n ih =>
    cases l with
    | nil => exact List.nodup_nil
    | cons a l =>
      rw [List.eraseDups_cons, List.nodup_cons]
      refine ⟨by simp, ih _ ?_ _ rfl⟩
      have hle := List.length_filter_le (fun b => !b == a) l
      rw [List.length_cons] at hn
      omega

theorem nodup_keys (h : t.own.keys.Nodup) : t.keys.Nodup := by
  rw [CallTree.keys, List.nodup_append]
  refine ⟨h, nodup_eraseDups _, ?_⟩
  rintro k hk _ hl rfl
  simp [hk] at hl

/-- **Sizes count call trees.** They cannot be computed exactly if the calls of some function lead
into a cycle or to a function without a circuit. Else the words below each function are those of
all activations in its call tree but the root, its keys are its own and then those below it in the
order of their first occurrence, and no other order of visits gives other sizes. -/
theorem sizes_exact (frames : Frames) :
    ((∃ e, frames.sizes = .error e) ↔
      ∃ f g, frames.Has f ∧ Relation.ReflTransGen frames.Calls f g ∧
        (Relation.TransGen frames.Calls g g ∨ ¬ frames.Has g)) ∧
    (∀ sizes, frames.sizes = .ok sizes → ∀ f, frames.Has f →
      ∃ t c, frames.Unfolds f t ∧ Sorted.find? sizes f = some c ∧
        c.ins = (t.descendants.map Frame.ins).sum ∧
        c.outs = (t.descendants.map Frame.outs).sum ∧
        c.secrets = (t.descendants.map Frame.secrets).sum ∧
        c.keys = t.own.keys ++
          ((t.descendants.flatMap Frame.keys).filter fun k => !t.own.keys.contains k).eraseDups ∧
        (∀ k, k ∈ c.keys ↔ ∃ g own, Relation.ReflTransGen frames.Calls f g ∧
          Sorted.find? frames g = some own ∧ k ∈ own.keys) ∧
        ((∀ g own, Sorted.find? frames g = some own → own.keys.Nodup) → c.keys.Nodup)) ∧
    (∀ order, (∀ f, f ∈ order ↔ frames.Has f) →
      ((∃ sizes, Yields (frames.visitAll order) [] ⟨⟩ sizes) ↔ ∃ sizes, frames.sizes = .ok sizes) ∧
      ∀ sizes sizes', frames.sizes = .ok sizes → Yields (frames.visitAll order) [] ⟨⟩ sizes' →
        ∀ f, Sorted.find? sizes' f = Sorted.find? sizes f) := by
  refine ⟨?_, ?_, ?_⟩
  · have hfails : (∃ e, frames.sizes = .error e) ↔ ¬ ∃ sizes, frames.sizes = .ok sizes := by
      cases frames.sizes <;> simp
    rw [hfails, sizes_isOk_iff]
    simp only [exists_unfolds_iff, Unsized]
    push Not
    simp only [exists_and_left]
  · intro sizes h f hf
    obtain ⟨t, ht, hfind⟩ := sizes_find? h hf
    refine ⟨t, t.callees, ht, hfind, rfl, rfl, rfl, rfl, fun k => mem_keys_iff ht, fun hnodup => ?_⟩
    exact nodup_keys (hnodup f _ ht.find?)
  · intro order horder
    constructor
    · rw [sizes_isOk_iff]
      constructor
      · rintro ⟨sizes, h⟩ f hf
        obtain ⟨t, ht, -⟩ := visitAll_find? h ((horder f).2 hf)
        exact ⟨t, ht⟩
      · intro h
        exact visitAll_total (fun f hf => h f ((horder f).1 hf)) []
    · intro sizes sizes' h h'
      obtain ⟨hcounted, -, hall⟩ := visitAll_counts (sizes_eq_ok_iff.1 h) frames.counted_nil
      obtain ⟨hcounted', -, hall'⟩ := visitAll_counts h' frames.counted_nil
      exact hcounted.find?_eq hcounted' (fun f hf => hall f hf.mem_keys)
        fun f hf => hall' f ((horder f).2 hf)

/-- Two callees that share one. -/
def diamond : Frames := [
  (⟨0⟩, { ins := 1, calls := [⟨1⟩, ⟨2⟩], keys := [.me] }),
  (⟨1⟩, { ins := 2, outs := 1, calls := [⟨3⟩] }),
  (⟨2⟩, { ins := 3, calls := [⟨3⟩], keys := [.me] }),
  (⟨3⟩, { ins := 5, secrets := 4, keys := [.var ⟨7⟩] })]

theorem sizes_diamond : diamond.sizes = .ok [(⟨0⟩, ⟨15, 1, 8, [.me, .var ⟨7⟩]⟩),
    (⟨1⟩, ⟨5, 0, 4, [.var ⟨7⟩]⟩), (⟨2⟩, ⟨5, 0, 4, [.me, .var ⟨7⟩]⟩),
    (⟨3⟩, ⟨0, 0, 0, [.var ⟨7⟩]⟩)] := by
  cbv

/-- A callee that two functions share counts twice, and its keys once. -/
theorem sizes_exact_diamond : ∃ sizes t, diamond.sizes = .ok sizes ∧ diamond.Unfolds ⟨0⟩ t ∧
    Sorted.find? sizes ⟨0⟩ = some ⟨15, 1, 8, [.me, .var ⟨7⟩]⟩ ∧
    (t.descendants.map Frame.ins).sum = 15 := by
  obtain ⟨t, c, ht, hc, hins, -⟩ := (sizes_exact diamond).2.1 _ sizes_diamond ⟨0⟩ ⟨_, rfl⟩
  obtain rfl : c = ⟨15, 1, 8, [.me, .var ⟨7⟩]⟩ := Option.some.inj (hc.symm.trans rfl)
  exact ⟨_, t, sizes_diamond, ht, hc, hins.symm⟩

end Shroud.Frames
