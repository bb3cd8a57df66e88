import Shroud.Proofs.Partition.Refinement

/-! # The meet of partitions

Partitions are ordered by their elements and by what they know to be equal. `join` gives the greatest
partition below two others. Two partitions that are below each other agree: the classes of a
partition that is made by the operations are ascending lists, so the relation determines them up to
their order, and the normal form has no order left.
-/

namespace Shroud.Partition

variable {α : Type} [DecidableEq α] {p q r : Partition α} {x y : α}

/-- Fewer elements, and fewer of them known to be equal. -/
structure Below (p q : Partition α) : Prop where
  has : ∀ x, p.has x = true → q.has x = true
  same : ∀ x y, p.has x = true → p.has y = true → p.same x y = true → q.same x y = true

theorem below_iff (hp : p.Valid) (hq : q.Valid) :
    p.Below q ↔ ∀ x y, p.Related x y → q.Related x y := by
  refine ⟨fun h x y hr => ?_, fun h => ⟨fun x hx => ?_, fun x y hx _ hs => ?_⟩⟩
  · obtain ⟨hx, hy, hs⟩ := (related_iff hp).1 hr
    exact (related_iff hq).2 ⟨h.has x hx, h.has y hy, h.same x y hx hy hs⟩
  · exact has_iff.2 (h x x (has_iff.1 hx))
  · exact ((related_iff hq).1 (h x y ((same_iff_related hp hx).1 hs))).2.2

/-! ## Agreement -/

section Ordered

variable [Ord α] [Std.LawfulEqOrd α] [Std.TransOrd α]

theorem kept_ascending : Kept fun c : List α => Sorted.Ascending c where
  single _ := List.pairwise_singleton _ _
  erase _ h _ := h.sublist List.erase_sublist
  filter _ h _ := h.filter _
  insert _ h := h.insert
  union h := h.union

/-- What is related determines the classes. -/
theorem Reachable.mem_classes (hp : p.Reachable) (hq : q.Reachable)
    (h : ∀ x y, p.Related x y ↔ q.Related x y) {c : List α} (hc : c ∈ p.classes) :
    c ∈ q.classes := by
  obtain ⟨x, hx⟩ := List.exists_mem_of_ne_nil c (hp.forall_classes kept_ne_nil c hc)
  obtain ⟨d, hd, hxd, -⟩ := (h x x).1 ⟨c, hc, hx, hx⟩
  have heq : c = d := by
    refine (hp.forall_classes kept_ascending c hc).ext (hq.forall_classes kept_ascending d hd) ?_
    intro y
    rw [hp.valid.mem_iff_related hc hx, hq.valid.mem_iff_related hd hxd, h]
  rwa [heq]

theorem Reachable.agrees_iff_related (hp : p.Reachable) (hq : q.Reachable) :
    p.agrees q = true ↔ ∀ x y, p.Related x y ↔ q.Related x y := by
  rw [agrees, decide_eq_true_eq]
  refine ⟨fun h x y => ?_, fun h => ?_⟩
  · have hmem : ∀ c, c ∈ p.classes ↔ c ∈ q.classes := fun c => by
      rw [← Sorted.mem_ofList (s := p.classes), ← Sorted.mem_ofList (s := q.classes)]
      exact iff_of_eq (congrArg (c ∈ ·) h)
    simp only [Related, hmem]
  · refine (Sorted.ascending_ofList _).ext (Sorted.ascending_ofList _) fun c => ?_
    show c ∈ Sorted.ofList p.classes ↔ c ∈ Sorted.ofList q.classes
    rw [Sorted.mem_ofList, Sorted.mem_ofList]
    exact ⟨hp.mem_classes hq h, hq.mem_classes hp fun x y => (h x y).symm⟩

theorem Reachable.agrees_iff_below (hp : p.Reachable) (hq : q.Reachable) :
    p.agrees q = true ↔ p.Below q ∧ q.Below p := by
  rw [hp.agrees_iff_related hq, below_iff hp.valid hq.valid, below_iff hq.valid hp.valid]
  exact ⟨fun h => ⟨fun x y => (h x y).1, fun x y => (h x y).2⟩,
    fun ⟨h, h'⟩ x y => ⟨h x y, h' x y⟩⟩

end Ordered

/-! ## Laws -/

variable [Ord α]

/-- What `join` makes of two partitions, compared with a third one. -/
structure JoinLaws (p q r : Partition α) : Prop where
  has_iff : ∀ x, (p.join q).has x = true ↔ p.has x = true ∧ q.has x = true
  same_iff : ∀ x y, (p.join q).has x = true → (p.join q).has y = true →
    ((p.join q).same x y = true ↔ p.same x y = true ∧ q.same x y = true)
  /-- Partitions agree if they have the same elements and know the same of them to be equal. -/
  agrees_iff : p.agrees q = true ↔ (∀ x, p.has x = true ↔ q.has x = true) ∧
    ∀ x y, p.has x = true → p.has y = true → (p.same x y = true ↔ q.same x y = true)
  comm : (p.join q).agrees (q.join p) = true
  assoc : ((p.join q).join r).agrees (p.join (q.join r)) = true
  idem : (p.join p).agrees p = true
  left : (p.join q).Below p
  right : (p.join q).Below q
  greatest : r.Below p → r.Below q → r.Below (p.join q)
  mono : ∀ p' q' : Partition α, p'.Reachable → q'.Reachable → p.Below p' → q.Below q' →
    (p.join q).Below (p'.join q')

variable [Std.LawfulEqOrd α] [Std.TransOrd α]

/-- `join` is the meet of the partitions that are made by the operations. -/
theorem Reachable.joinLaws (hp : p.Reachable) (hq : q.Reachable) (hr : r.Reachable) :
    JoinLaws p q r := by
  have hpq := hp.join hq
  constructor
  case has_iff =>
    intro x
    rw [Partition.has_iff, related_join_iff, Partition.has_iff, Partition.has_iff]
  case same_iff =>
    intro x y hx hy
    have hj := Partition.has_iff.1 hx
    rw [same_iff_related hpq.valid hx, related_join_iff, same_iff_related hp.valid,
      same_iff_related hq.valid]
    · exact Partition.has_iff.2 (related_join_iff.1 hj).2
    · exact Partition.has_iff.2 (related_join_iff.1 hj).1
  case agrees_iff =>
    rw [hp.agrees_iff_below hq]
    refine ⟨fun ⟨h, h'⟩ => ?_, fun ⟨h, h'⟩ => ?_⟩
    · refine ⟨fun x => ⟨h.has x, h'.has x⟩, fun x y hx hy => ⟨h.same x y hx hy, ?_⟩⟩
      exact h'.same x y (h.has x hx) (h.has y hy)
    · refine ⟨⟨fun x => (h x).1, fun x y hx hy => (h' x y hx hy).1⟩, fun x => (h x).2, ?_⟩
      exact fun x y hx hy => (h' x y ((h x).2 hx) ((h y).2 hy)).2
  case comm =>
    refine (hpq.agrees_iff_related (hq.join hp)).2 fun x y => ?_
    rw [related_join_iff, related_join_iff, and_comm]
  case assoc =>
    refine ((hpq.join hr).agrees_iff_related (hp.join (hq.join hr))).2 fun x y => ?_
    simp only [related_join_iff, and_assoc]
  case idem =>
    refine ((hp.join hp).agrees_iff_related hp).2 fun x y => ?_
    rw [related_join_iff, and_self]
  case left => exact (below_iff hpq.valid hp.valid).2 fun x y h => (related_join_iff.1 h).1
  case right => exact (below_iff hpq.valid hq.valid).2 fun x y h => (related_join_iff.1 h).2
  case greatest =>
    rw [below_iff hr.valid hp.valid, below_iff hr.valid hq.valid, below_iff hr.valid hpq.valid]
    exact fun h h' x y hxy => related_join_iff.2 ⟨h x y hxy, h' x y hxy⟩
  case mono =>
    intro p' q' hp' hq'
    rw [below_iff hp.valid hp'.valid, below_iff hq.valid hq'.valid,
      below_iff hpq.valid (hp'.join hq').valid]
    intro h h' x y hxy
    obtain ⟨hl, hr⟩ := related_join_iff.1 hxy
    exact related_join_iff.2 ⟨h x y hl, h' x y hr⟩

/-- One branch learns `me = x`, the other `me = x` and `x = y`. -/
theorem Reachable.joinLaws_branches : ∃ p q : Partition Label,
    p.Reachable ∧ q.Reachable ∧ p.classes = [[.me, .var ⟨0⟩], [.var ⟨1⟩]] ∧
    q.classes = [[.me, .var ⟨0⟩, .var ⟨1⟩]] ∧ JoinLaws p q p := by
  have hp := (((Reachable.empty.insert Label.me).insert (.var ⟨0⟩)).insert (.var ⟨1⟩)).merge .me
    (.var ⟨0⟩)
  have hq := hp.merge (.var ⟨0⟩) (.var ⟨1⟩)
  exact ⟨_, _, hp, hq, by decide, by decide, hp.joinLaws hq hp⟩

end Shroud.Partition
