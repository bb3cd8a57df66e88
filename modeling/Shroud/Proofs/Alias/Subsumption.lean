import Shroud.Proofs.Alias.Sound
import Shroud.Proofs.Partition.Refinement

/-! # Labels that can stand for each other

The type checker compares owners up to what is known to be equal. `all` is never known to equal
anything, so two labels of one class fit the same types, are fitted by the same types and are
equally accessible.
-/

namespace Shroud

namespace Alias

variable {s : Classes}

/-- `me` and `all` are there, and `all` is alone. -/
structure Anchored (s : Classes) : Prop extends AllApart s where
  me : s.Related .me .me
  all : s.Related .all .all

/-- Elements stay if an operation keeps them. -/
theorem Anchored.of_keeps {t : Classes} (h : Anchored s) (ht : AllApart t)
    (hkeeps : ∀ l, (∀ v, l ≠ .var v) → s.Related l l → t.Related l l) : Anchored t :=
  ⟨ht, hkeeps .me (fun _ => nofun) h.me, hkeeps .all (fun _ => nofun) h.all⟩

theorem anchored_invariant (p : Program) : Invariant p Anchored where
  forget h := h.of_keeps ((allApart_invariant p).forget h.toAllApart) fun _ _ hl =>
    Partition.related_separate_iff.2 ⟨hl, .inl rfl⟩
  insert v h := h.of_keeps ((allApart_invariant p).insert v h.toAllApart) fun _ _ hl =>
    Partition.related_insert_iff.2 (.inl hl)
  remove v h := h.of_keeps ((allApart_invariant p).remove v h.toAllApart) fun _ hv hl =>
    (Partition.related_remove_iff h.valid).2 ⟨hl, hv v, hv v⟩
  moveApart v h := h.of_keeps ((allApart_invariant p).moveApart v h.toAllApart) fun _ hv hl =>
    (Partition.related_moveApart_iff h.valid).2 (.inl ⟨hl, hv v, hv v⟩)
  moveTo v _ hm h := h.of_keeps ((allApart_invariant p).moveTo v hm h.toAllApart) fun _ hv hl =>
    (Partition.related_moveTo_iff h.valid).2 (.inl ⟨hl, hv v, hv v⟩)
  merge hl hm h := h.of_keeps ((allApart_invariant p).merge hl hm h.toAllApart) fun _ _ hn =>
    (Partition.related_merge_iff h.valid).2 (.inl hn)
  join h h' := ⟨(allApart_invariant p).join h.toAllApart h'.toAllApart,
    Partition.related_join_iff.2 ⟨h.me, h'.me⟩, Partition.related_join_iff.2 ⟨h.all, h'.all⟩⟩

theorem initial_anchored (p : Program) (f : Function) : Anchored (initial p f) := by
  have hinsert : ∀ (ls : List Label) (s : Classes) {l : Label},
      l ∈ ls ∨ s.Related l l → (ls.foldl Partition.insert s).Related l l := by
    intro ls
    induction ls with
    | nil => simp
    | cons m ls ih =>
      intro s l h
      refine ih _ ?_
      rw [Partition.related_insert_iff, and_self]
      rw [List.mem_cons] at h
      tauto
  exact ⟨initial_allApart p f, hinsert _ _ (.inl (by simp)), hinsert _ _ (.inl (by simp))⟩

/-- `all` is a class of its own. -/
theorem Anchored.class?_all (h : Anchored s) : s.class? .all = some [.all] := by
  obtain ⟨i, hi⟩ := Option.isSome_iff_exists.1 (Partition.has_iff.2 h.all)
  obtain ⟨c, hc, hall⟩ := Partition.position?_eq_some hi
  have hmem := List.mem_of_getElem? hc
  have hsingle : c.Perm [.all] := by
    refine (List.perm_ext_iff_of_nodup ((List.nodup_flatten.1 h.valid).1 c hmem)
      (List.nodup_singleton _)).2 fun l => ?_
    rw [List.mem_singleton]
    refine ⟨fun hl => h.apart l ⟨c, hmem, hall, hl⟩, ?_⟩
    rintro rfl
    exact hall
  rw [Partition.class?, hi, Option.bind_some, hc, List.perm_singleton.1 hsingle]

/-- A label of the class of `all` is `all`. -/
theorem AllApart.isAll_eq (h : AllApart s) {x y : Label} (hxy : s.same x y = true) :
    x.owner.isAll = y.owner.isAll := by
  by_cases hx : x = .all
  · subst hx
    by_cases hy : y = .all
    · rw [hy]
    · rw [Partition.same_comm, h.not_same hy] at hxy
      cases hxy
  · by_cases hy : y = .all
    · rw [hy, h.not_same hx] at hxy
      cases hxy
    · cases x <;> cases y <;> first | rfl | contradiction

end Alias

namespace Typing

variable {env : Env} {s : Partition Label} {x y : Label}

theorem sameOwner_owner (hs : env.before? = some s) (x z : Label) :
    env.sameOwner x.owner z.owner = s.same x z := by
  have hlabel : ∀ l : Label, l.owner.label? = some l := by rintro (_ | _ | _) <;> rfl
  rw [Env.sameOwner, hlabel, hlabel, hs]
  by_cases hxz : x = z
  · simp [hxz]
  · have hne : x.owner ≠ z.owner := fun h => hxz <| by
      rw [← Option.some_inj, ← hlabel, ← hlabel, h]
    simp [hne]

/-- Two labels that are known to be equal are known to equal the same owners. -/
theorem sameOwner_of_same (hs : env.before? = some s) (hxy : s.same x y = true) (o : Owner) :
    env.sameOwner x.owner o = env.sameOwner y.owner o := by
  have hlabel : ∀ l : Label, env.sameOwner x.owner l.owner = env.sameOwner y.owner l.owner := by
    intro l
    rw [sameOwner_owner hs, sameOwner_owner hs, Bool.eq_iff_iff]
    exact ⟨Partition.same_trans (by rwa [Partition.same_comm]), Partition.same_trans hxy⟩
  cases o with
  | all => exact hlabel .all
  | me => exact hlabel .me
  | var v => exact hlabel (.var v)
  | key name =>
    have hkey : ∀ l : Label, env.sameOwner l.owner (.key name) = false := by
      rintro (_ | _ | _) <;> simp [Env.sameOwner, Label.owner, Owner.label?]
    rw [hkey, hkey]

/-- Of the owners of two types `fit` asks only whether they are the same, and whether the first is
`all`. -/
theorem fit_owner_congr {t t' : DataType} {o o' q q' : Owner}
    (hsame : env.sameOwner o q = env.sameOwner o' q') (hall : o.isAll = o'.isAll) :
    fit env (.mk t o) (.mk t' q) = fit env (.mk t o') (.mk t' q') := by
  have hplain : fitPlain env (.mk t o) (.mk t' q) = fitPlain env (.mk t o') (.mk t' q') := by
    show (if !t.convertsTo t' then Fit.mismatch else if env.sameOwner o q then .exact
      else if o.isAll then .upgrade else .mismatch) = _
    rw [hsame, hall]
    rfl
  cases t <;> first | exact hplain | cases t' <;> first | exact hplain | rfl

end Typing

/-- Before every statement of a checked program `all` is alone and `me` is there, and two labels that
are known to be equal there are interchangeable in all types that are compared there. -/
theorem SourceUnit.labels_interchangeable {u : SourceUnit} {p : Program} (h : Passes u.check p)
    {f : FunctionId} (hf : f.index < p.functions.length) {s : Stmt}
    (hs : s ∈ (p.function f).body.walk) :
    ∃ before, s.before? = some before ∧ before.class? .all = some [.all] ∧
      before.has .me = true ∧ ∀ env : Typing.Env, env.before? = s.before? →
      ∀ x y, before.same x y = true → ∀ (t : DataType) (a : OwnedType),
        Typing.fit env (.mk t x.owner) a = Typing.fit env (.mk t y.owner) a ∧
        Typing.fit env a (.mk t x.owner) = Typing.fit env a (.mk t y.owner) ∧
        env.isAccessible (.mk t x.owner) = env.isAccessible (.mk t y.owner) := by
  obtain ⟨before, hbefore, hanchored⟩ :=
    check_before Alias.anchored_invariant Alias.initial_anchored h hf hs
  refine ⟨before, hbefore, hanchored.class?_all, Partition.has_iff.2 hanchored.me, ?_⟩
  rintro env henv x y hxy t ⟨t', q⟩
  have hsame := Typing.sameOwner_of_same (henv.trans hbefore) hxy
  have hall := hanchored.isAll_eq hxy
  refine ⟨Typing.fit_owner_congr (hsame q) hall, Typing.fit_owner_congr ?_ rfl, ?_⟩
  · rw [Typing.Env.sameOwner_comm, hsame, Typing.Env.sameOwner_comm]
  · simp only [Typing.Env.isAccessible, OwnedType.isPrivate, Owner.isPrivate, OwnedType.owner_mk,
      hsame, hall]

/-- Data of a party that proves to be the sender has the types of the sender's own. -/
theorem SourceUnit.labels_interchangeable_claimed : ∃ p s before, Passes claimed.check p ∧
    s ∈ (p.function ⟨0⟩).body.walk ∧ s.before? = some before ∧
    before.same (.var ⟨4⟩) .me = true ∧ ∀ env : Typing.Env, env.before? = s.before? →
      Typing.fit env (.mk (.uint 8) (.var ⟨4⟩)) (.ofMe (.uint 8)) =
        Typing.fit env (.ofMe (.uint 8)) (.ofMe (.uint 8)) := by
  have htest : Passes.test claimed.check (fun p => p.functions.length = 1 &&
      (p.function ⟨0⟩).body.walk.any fun s => s.before?.any fun b => b.same (.var ⟨4⟩) .me) =
        true := by
    decide +kernel
  obtain ⟨p, hp, h⟩ := Passes.of_test htest
  obtain ⟨hlength, hany⟩ := Bool.and_eq_true_iff.1 h
  obtain ⟨s, hs, hbefore⟩ := List.any_eq_true.1 hany
  obtain ⟨before, hbefore, hsame⟩ := (Option.any_eq_true _ _).1 hbefore
  obtain ⟨before', hbefore', -, -, hlabels⟩ :=
    labels_interchangeable hp (by rw [of_decide_eq_true hlength]; decide) hs
  obtain rfl := Option.some.inj (hbefore.symm.trans hbefore')
  exact ⟨p, s, before, hp, hs, hbefore, hsame, fun env henv => (hlabels env henv _ _ hsame _ _).1⟩

end Shroud
