import Shroud.Proofs.Buffers.Sizes

/-! # The layout of the shared buffers

Every activation in a call tree has words of its own in both buffers. Placing each callee where the
offsets of its caller say so fills the slice of the root without gaps and without overlaps.

Offsets are exact here; what the contract gets are the same numbers as counts are kept, and keeping
counts never makes the offsets disagree with the sizes.
-/

namespace Shroud

variable {slices slices' : List (Nat × Nat)} {p : Nat × Nat}

/-- The two buffers that a contract shares with the circuits. -/
inductive Buffer where
  | ins
  | outs

namespace Buffer

/-- The position in a buffer, of positions in both. -/
def of : Buffer → Nat × Nat → Nat
  | ins, p => p.1
  | outs, p => p.2

end Buffer

/-- The words of a circuit itself in a buffer. -/
def Frame.words (own : Frame) : Buffer → Nat
  | .ins => own.ins
  | .outs => own.outs

def Callees.words (c : Callees) : Buffer → Nat
  | .ins => c.ins
  | .outs => c.outs

/-- The words of a whole tree in a buffer. -/
def CallTree.words (t : CallTree) (b : Buffer) : Nat := (t.frames.map fun own => own.words b).sum

theorem CallTree.words_eq (t : CallTree) (b : Buffer) :
    t.words b = t.own.words b + t.callees.words b := by
  rw [words, t.frames_eq, List.map_cons, List.sum_cons]
  cases b <;> rfl

/-- The words of a call in both buffers. -/
def CallTree.slice (t : CallTree) : Nat × Nat := (t.words .ins, t.words .outs)

theorem CallTree.of_slice (t : CallTree) (b : Buffer) : b.of t.slice = t.words b := by
  cases b <;> rfl

/-- Slices one after another from a position on. -/
def starts (p : Nat × Nat) : List (Nat × Nat) → List (Nat × Nat)
  | [] => []
  | s :: slices => p :: starts (p.1 + s.1, p.2 + s.2) slices

@[simp] theorem length_starts (p : Nat × Nat) (slices : List (Nat × Nat)) :
    (starts p slices).length = slices.length := by
  induction slices generalizing p with
  | nil => rfl
  | cons s slices ih => rw [starts, List.length_cons, ih, List.length_cons]

/-- A slice starts where those before it end. -/
theorem of_getElem?_starts {o : Nat × Nat} {i : Nat} (h : (starts p slices)[i]? = some o)
    (b : Buffer) : b.of o = b.of p + ((slices.take i).map b.of).sum := by
  induction slices generalizing p i with
  | nil => cases h
  | cons s slices ih =>
    cases i with
    | zero =>
      obtain rfl : p = o := by simpa [starts] using h
      simp
    | succ i =>
      rw [ih (by simpa [starts] using h), List.take_succ_cons, List.map_cons, List.sum_cons,
        ← Nat.add_assoc]
      cases b <;> rfl

theorem sum_map_take_succ {i : Nat} {s : Nat × Nat} (h : slices[i]? = some s) (b : Buffer) :
    ((slices.take (i + 1)).map b.of).sum = ((slices.take i).map b.of).sum + b.of s := by
  rw [List.take_add_one, h]
  simp

theorem sum_map_take_le (slices : List (Nat × Nat)) (i : Nat) (b : Buffer) :
    ((slices.take i).map b.of).sum ≤ (slices.map b.of).sum := by
  conv_rhs => rw [← List.take_append_drop i slices, List.map_append, List.sum_append]
  exact Nat.le_add_right _ _

/-! ## Counts as they are kept -/

/-- Positions as counts are kept. -/
def keptPair (p : Nat × Nat) : Nat × Nat := (Count.kept p.1, Count.kept p.2)

theorem Count.kept_add_congr {m m' n n' : Nat} (hm : kept m = kept m') (hn : kept n = kept n') :
    kept (m + n) = kept (m' + n') := by
  rw [← kept_add_kept, hm, hn, kept_add_kept]

/-- Slices of the same size, as counts are kept, start at the same places, as counts are kept. -/
theorem map_keptPair_starts {p' : Nat × Nat} (hp : keptPair p = keptPair p')
    (h : List.Forall₂ (fun s s' => keptPair s = keptPair s') slices slices') :
    (starts p slices).map keptPair = (starts p' slices').map keptPair := by
  induction h generalizing p p' with
  | nil => rfl
  | cons hs _ ih =>
    obtain ⟨h₁, h₂⟩ := Prod.mk.inj hp
    obtain ⟨hs₁, hs₂⟩ := Prod.mk.inj hs
    rw [starts, starts, List.map_cons, List.map_cons, hp]
    congr 1
    apply ih
    exact Prod.ext (Count.kept_add_congr h₁ hs₁) (Count.kept_add_congr h₂ hs₂)

theorem kept_sum_congr (h : List.Forall₂ (fun s s' => keptPair s = keptPair s') slices slices')
    (b : Buffer) : Count.kept (slices.map b.of).sum = Count.kept (slices'.map b.of).sum := by
  induction h with
  | nil => rfl
  | cons hs _ ih =>
    obtain ⟨hs₁, hs₂⟩ := Prod.mk.inj hs
    rw [List.map_cons, List.map_cons, List.sum_cons, List.sum_cons]
    refine Count.kept_add_congr ?_ ih
    cases b
    · exact hs₁
    · exact hs₂

/-! ## Offsets of calls -/

namespace Frames

variable {frames : Frames} {f : FunctionId} {sizes : Sizes} {t : CallTree}
  {slices : List (Nat × Nat)}

/-- The slice of a call, by the sizes in a table. -/
def HasSlice (frames : Frames) (sizes : Sizes) (g : FunctionId) (s : Nat × Nat) : Prop :=
  ∃ own c, Sorted.find? frames g = some own ∧ Sorted.find? sizes g = some c ∧
    s = (own.ins + c.ins, own.outs + c.outs)

theorem offsetsFrom_eq {fs : List FunctionId} (h : List.Forall₂ (frames.HasSlice sizes) fs slices)
    (p : Nat × Nat) :
    frames.offsetsFrom sizes p.1 p.2 fs =
      .ok (starts p slices, p.1 + (slices.map Prod.fst).sum, p.2 + (slices.map Prod.snd).sum) := by
  induction h generalizing p with
  | nil => rfl
  | cons hs _ ih =>
    obtain ⟨own, c, hown, hc, rfl⟩ := hs
    rw [offsetsFrom, hown, hc]
    have hrest := ih (p.1 + (own.ins + c.ins), p.2 + (own.outs + c.outs))
    simp only [hrest, bind, Except.bind, pure, Except.pure, starts, List.map_cons, List.sum_cons,
      Nat.add_assoc]

/-- The offsets of a function's calls, if the sizes in the table add up. -/
theorem offsets_eq {own : Frame} {total : Callees} (hown : Sorted.find? frames f = some own)
    (htotal : Sorted.find? sizes f = some total)
    (h : List.Forall₂ (frames.HasSlice sizes) own.calls slices)
    (hins : Count.kept (slices.map Prod.fst).sum = Count.kept total.ins)
    (houts : Count.kept (slices.map Prod.snd).sum = Count.kept total.outs) :
    frames.offsets sizes f = .ok (starts (own.ins, own.outs) slices) := by
  have hfrom := offsetsFrom_eq h (own.ins, own.outs)
  have hi := Count.kept_add_congr (Eq.refl (Count.kept own.ins)) hins
  have ho := Count.kept_add_congr (Eq.refl (Count.kept own.outs)) houts
  simp only [] at hfrom
  rw [offsets, hown]
  simp only [hfrom, bind, Except.bind, htotal, hi, ho, ne_eq, not_true, or_self, if_false, pure,
    Except.pure]

theorem find?_of_unfolds (hsizes : frames.sizes = .ok sizes) (ht : frames.Unfolds f t) :
    Sorted.find? sizes f = some t.callees := by
  obtain ⟨u, hu, hfind⟩ := sizes_find? hsizes ⟨_, ht.find?⟩
  rwa [ht.unique hu]

theorem hasSlice_of_unfolds (hsizes : frames.sizes = .ok sizes) (ht : frames.Unfolds f t) :
    frames.HasSlice sizes f t.slice := by
  refine ⟨t.own, t.callees, ht.find?, find?_of_unfolds hsizes ht, ?_⟩
  rw [CallTree.slice, CallTree.words_eq, CallTree.words_eq]
  rfl

theorem sum_slices (t : CallTree) (b : Buffer) :
    ((t.calls.map CallTree.slice).map b.of).sum = t.callees.words b := by
  have hwords : ((t.calls.map CallTree.slice).map b.of).sum =
      (t.descendants.map fun own => own.words b).sum := by
    rw [List.map_map, CallTree.descendants, List.map_flatMap, List.flatMap_def, List.sum_flatten,
      List.map_map]
    congr 1
    refine List.map_congr_left fun u _ => ?_
    exact u.of_slice b
  rw [hwords]
  cases b <;> rfl

/-- With the computed sizes, the calls of a function have slices one after another, behind the
function's own words. -/
theorem offsets_of_unfolds (hsizes : frames.sizes = .ok sizes) (ht : frames.Unfolds f t) :
    frames.offsets sizes f = .ok (starts (t.own.ins, t.own.outs) (t.calls.map CallTree.slice)) := by
  refine offsets_eq ht.find? (find?_of_unfolds hsizes ht) ?_ ?_ ?_
  · rw [List.forall₂_map_right_iff]
    exact ht.calls.imp fun g v hv => hasSlice_of_unfolds hsizes hv
  · exact congrArg Count.kept (sum_slices t .ins)
  · exact congrArg Count.kept (sum_slices t .outs)

theorem find?_map_stored (sizes : Sizes) (g : FunctionId) :
    Sorted.find? (sizes.map fun e => (e.1, e.2.stored)) g =
      (Sorted.find? sizes g).map Callees.stored := by
  induction sizes with
  | nil => rfl
  | cons e sizes ih =>
    rw [List.map_cons, Sorted.find?_cons, Sorted.find?_cons, ih]
    split <;> rfl

theorem storedSizes_eq (hsizes : frames.sizes = .ok sizes) :
    frames.storedSizes = .ok (sizes.map fun e => (e.1, e.2.stored)) := by
  rw [storedSizes, hsizes]
  rfl

/-- The sizes that are kept give the same offsets, as these are kept. -/
theorem storedOffsets_of_unfolds (hsizes : frames.sizes = .ok sizes) (ht : frames.Unfolds f t) :
    frames.storedOffsets (sizes.map fun e => (e.1, e.2.stored)) f =
      .ok ((starts (t.own.ins, t.own.outs) (t.calls.map CallTree.slice)).map keptPair) := by
  let stored (v : CallTree) : Nat × Nat :=
    (v.own.ins + v.callees.stored.ins, v.own.outs + v.callees.stored.outs)
  have hkept : List.Forall₂ (fun s s' => keptPair s = keptPair s') (t.calls.map stored)
      (t.calls.map CallTree.slice) := by
    rw [List.forall₂_map_left_iff, List.forall₂_map_right_iff, List.forall₂_same]
    intro v _
    rw [CallTree.slice, CallTree.words_eq, CallTree.words_eq]
    exact Prod.ext (Count.kept_add_congr rfl (Count.kept_kept _))
      (Count.kept_add_congr rfl (Count.kept_kept _))
  have hoffsets : frames.offsets (sizes.map fun e => (e.1, e.2.stored)) f =
      .ok (starts (t.own.ins, t.own.outs) (t.calls.map stored)) := by
    have hfind : ∀ {g v}, frames.Unfolds g v →
        Sorted.find? (sizes.map fun e => (e.1, e.2.stored)) g = some v.callees.stored := by
      intro g v hv
      rw [find?_map_stored, find?_of_unfolds hsizes hv]
      rfl
    refine offsets_eq ht.find? (hfind ht) ?_ ?_ ?_
    · rw [List.forall₂_map_right_iff]
      exact ht.calls.imp fun g v hv => ⟨v.own, v.callees.stored, hv.find?, hfind hv, rfl⟩
    · refine (kept_sum_congr hkept .ins).trans ?_
      rw [sum_slices]
      exact (Count.kept_kept _).symm
    · refine (kept_sum_congr hkept .outs).trans ?_
      rw [sum_slices]
      exact (Count.kept_kept _).symm
  rw [storedOffsets, hoffsets]
  exact congrArg Except.ok (map_keptPair_starts rfl hkept)

end Frames

/-! ## Activations -/

/-- A function's frame at its place in both buffers. -/
structure Activation where
  function : FunctionId
  own : Frame
  start : Nat × Nat

/-- The words of an activation in a buffer. -/
def Activation.words (a : Activation) (b : Buffer) : List Nat :=
  List.range' (b.of a.start) (a.own.words b)

namespace Frames

variable {frames : Frames} {f : FunctionId} {sizes : Sizes} {t : CallTree} {ts : List CallTree}
  {p : Nat × Nat}

mutual

/-- Places the activations of a tree from a position on: every callee at the offset of its call from
the place of its caller. -/
def place (frames : Frames) (sizes : Sizes) (p : Nat × Nat) :
    CallTree → Except Error (List Activation)
  | .node f own ts => do
    let offsets ← frames.offsets sizes f
    let rest ← placeCalls frames sizes p offsets ts
    return ⟨f, own, p⟩ :: rest

def placeCalls (frames : Frames) (sizes : Sizes) (p : Nat × Nat) :
    List (Nat × Nat) → List CallTree → Except Error (List Activation)
  | o :: offsets, t :: ts => do
    let first ← place frames sizes (p.1 + o.1, p.2 + o.2) t
    let rest ← placeCalls frames sizes p offsets ts
    return first ++ rest
  | _, _ => return []

end

/-- Placed trees fill a stretch of both buffers, from the left to the right. -/
structure Tiles (p : Nat × Nat) (ts : List CallTree) (as : List Activation) : Prop where
  frames : as.map Activation.own = ts.flatMap CallTree.frames
  words : ∀ b : Buffer, as.flatMap (fun a => a.words b) =
    List.range' (b.of p) (ts.map fun t => t.words b).sum

theorem Tiles.append {as bs : List Activation} (h : Tiles p [t] as)
    (h' : Tiles (p.1 + t.words .ins, p.2 + t.words .outs) ts bs) :
    Tiles p (t :: ts) (as ++ bs) where
  frames := by
    rw [List.map_append, h.frames, h'.frames]
    simp
  words b := by
    rw [List.flatMap_append, h.words b, h'.words b, List.map_cons, List.sum_cons,
      ← List.range'_append_1]
    cases b <;> simp [Buffer.of]

/-- Calls that start one after another fill a stretch if each of them does. -/
theorem placeCalls_tiles (h : ∀ t ∈ ts, ∀ q, ∃ as, frames.place sizes q t = .ok as ∧ Tiles q [t] as)
    (o : Nat × Nat) :
    ∃ as, frames.placeCalls sizes p (starts o (ts.map CallTree.slice)) ts = .ok as ∧
      Tiles (p.1 + o.1, p.2 + o.2) ts as := by
  induction ts generalizing o with
  | nil => exact ⟨[], rfl, rfl, fun b => rfl⟩
  | cons t ts ih =>
    rw [List.forall_mem_cons] at h
    obtain ⟨as, has, htiles⟩ := h.1 (p.1 + o.1, p.2 + o.2)
    obtain ⟨bs, hbs, htiles'⟩ := ih h.2 (o.1 + t.words .ins, o.2 + t.words .outs)
    refine ⟨as ++ bs, ?_, htiles.append ?_⟩
    · rw [List.map_cons, starts, placeCalls, has]
      simp only [bind, Except.bind]
      rw [CallTree.slice, hbs]
      rfl
    · simpa only [Nat.add_assoc] using htiles'

/-- The activations of a function's tree fill its slice. -/
theorem place_tiles (hsizes : frames.sizes = .ok sizes) (ht : frames.Unfolds f t) (p : Nat × Nat) :
    ∃ as, frames.place sizes p t = .ok as ∧ Tiles p [t] as := by
  induction t using CallTree.induct generalizing f p with
  | node f' own ts ih =>
    have hoffsets := offsets_of_unfolds hsizes ht
    obtain ⟨rfl, hown, hts⟩ := unfolds_node.1 ht
    have hcalls : ∀ t ∈ ts, ∀ q, ∃ as, frames.place sizes q t = .ok as ∧ Tiles q [t] as := by
      intro u hu q
      obtain ⟨g, -, hg⟩ := hts.exists_left hu
      exact ih u hu hg q
    obtain ⟨as, has, htiles⟩ := placeCalls_tiles (p := p) hcalls (own.ins, own.outs)
    refine ⟨⟨f', own, p⟩ :: as, ?_, ?_, fun b => ?_⟩
    · rw [place, hoffsets]
      simp only [bind, Except.bind]
      rw [CallTree.own, CallTree.calls, has]
      rfl
    · rw [List.map_cons, htiles.frames]
      simp [CallTree.frames, CallTree.framesList_eq_flatMap]
    · have hwords : (CallTree.node f' own ts).words b =
          own.words b + (ts.map fun t => t.words b).sum := by
        rw [CallTree.words, CallTree.frames, CallTree.framesList_eq_flatMap, List.map_cons,
          List.sum_cons, List.map_flatMap, List.flatMap_def, List.sum_flatten, List.map_map]
        rfl
      rw [List.flatMap_cons, htiles.words b, List.map_singleton, List.sum_singleton, hwords,
        ← List.range'_append_1]
      cases b <;> rfl

/-- What the offsets of a function's calls are. -/
structure Adjacent (frames : Frames) (sizes : Sizes) (own : Frame) (total : Callees)
    (offsets : List (Nat × Nat)) : Prop where
  /-- Every call has an offset. -/
  length : offsets.length = own.calls.length
  /-- The slice of a call lies behind the caller's own words, inside the caller's slice, and right
  before the slice of the next call; the first one starts where the caller's own words end. -/
  slice : ∀ i o, offsets[i]? = some o → ∃ g callee below, own.calls[i]? = some g ∧
    Sorted.find? frames g = some callee ∧ Sorted.find? sizes g = some below ∧ ∀ b : Buffer,
      own.words b ≤ b.of o ∧
      b.of o + (callee.words b + below.words b) ≤ own.words b + total.words b ∧
      (i = 0 → b.of o = own.words b) ∧
      ∀ o', offsets[i + 1]? = some o' → b.of o' = b.of o + (callee.words b + below.words b)

theorem adjacent_of_unfolds (hsizes : frames.sizes = .ok sizes) (ht : frames.Unfolds f t) :
    frames.Adjacent sizes t.own t.callees
      (starts (t.own.ins, t.own.outs) (t.calls.map CallTree.slice)) where
  length := by rw [length_starts, List.length_map, ht.calls.length_eq]
  slice i o ho := by
    have hi : i < t.calls.length := by
      simpa using (List.getElem?_eq_some_iff.1 ho).1
    have hi' : i < t.own.calls.length := ht.calls.length_eq ▸ hi
    have hcall := (List.forall₂_iff_get.1 ht.calls).2 i hi' hi
    obtain ⟨callee, below, hcallee, hbelow, hslice⟩ := hasSlice_of_unfolds hsizes hcall
    refine ⟨_, callee, below, List.getElem?_eq_getElem hi', hcallee, hbelow, fun b => ?_⟩
    have hsize : b.of (t.calls.get ⟨i, hi⟩).slice = callee.words b + below.words b := by
      rw [hslice]
      cases b <;> rfl
    have hget : (t.calls.map CallTree.slice)[i]? = some (t.calls.get ⟨i, hi⟩).slice := by
      simp [List.getElem?_eq_getElem hi]
    have hown : b.of (t.own.ins, t.own.outs) = t.own.words b := by cases b <;> rfl
    have hstart := of_getElem?_starts ho b
    have hnext := sum_map_take_succ hget b
    have hle := sum_map_take_le (t.calls.map CallTree.slice) (i + 1) b
    rw [sum_slices] at hle
    refine ⟨by omega, by omega, ?_, fun o' ho' => ?_⟩
    · rintro rfl
      simpa [hown] using hstart
    · have hstart' := of_getElem?_starts ho' b
      omega

/-- Counts that fit are kept as they are. -/
theorem map_keptPair_eq {own : Frame} {total : Callees} {offsets : List (Nat × Nat)}
    (h : frames.Adjacent sizes own total offsets)
    (hfit : ∀ b : Buffer, own.words b + total.words b < 2 ^ 64) :
    offsets.map keptPair = offsets := by
  conv_rhs => rw [← List.map_id offsets]
  refine List.map_congr_left fun o ho => ?_
  obtain ⟨i, hi⟩ := List.getElem?_of_mem ho
  obtain ⟨g, callee, below, -, -, -, hslice⟩ := h.slice i o hi
  have hlt : ∀ b : Buffer, b.of o < 2 ^ 64 := fun b => by
    have hle := (hslice b).2.1
    have hfit := hfit b
    omega
  exact Prod.ext (Nat.mod_eq_of_lt (hlt .ins)) (Nat.mod_eq_of_lt (hlt .outs))

/-- **Call frames tile the shared buffers.** If sizes can be computed, every function has a call
tree, and its activations can be placed. In each buffer their words are disjoint and make up the
slice of the function. The offsets of its calls never fail; they put the slices of the calls inside
the slice of the function, side by side in the order of the calls. The offsets that are kept are
these, reduced, and exactly these as long as the slice is not longer than counts go. -/
theorem place_tiles_slice {frames : Frames} {sizes : Sizes} (hsizes : frames.sizes = .ok sizes)
    {f : FunctionId} (hf : frames.Has f) :
    ∃ t own total, frames.Unfolds f t ∧ Sorted.find? frames f = some own ∧
      Sorted.find? sizes f = some total ∧
      (∃ as, frames.place sizes (0, 0) t = .ok as ∧ as.map Activation.own = t.frames ∧
        ∀ b : Buffer, as.Pairwise (fun a a' => List.Disjoint (a.words b) (a'.words b)) ∧
          ∀ w, (∃ a ∈ as, w ∈ a.words b) ↔ w < own.words b + total.words b) ∧
      ∃ offsets, frames.offsets sizes f = .ok offsets ∧
        frames.Adjacent sizes own total offsets ∧
        ∃ stored, frames.storedSizes = .ok stored ∧
          frames.storedOffsets stored f = .ok (offsets.map keptPair) ∧
          ((∀ b : Buffer, own.words b + total.words b < 2 ^ 64) →
            offsets.map keptPair = offsets) := by
  obtain ⟨t, ht, htotal⟩ := sizes_find? hsizes hf
  have hadjacent := adjacent_of_unfolds hsizes ht
  refine ⟨t, t.own, t.callees, ht, ht.find?, htotal, ?_, _, offsets_of_unfolds hsizes ht, hadjacent,
    _, storedSizes_eq hsizes, storedOffsets_of_unfolds hsizes ht, map_keptPair_eq hadjacent⟩
  obtain ⟨as, has, hframes, hwords⟩ := place_tiles hsizes ht (0, 0)
  refine ⟨as, has, by simpa using hframes, fun b => ?_⟩
  have hrange : as.flatMap (fun a => a.words b) = List.range (t.own.words b + t.callees.words b) := by
    rw [hwords b, List.map_singleton, List.sum_singleton, t.words_eq, List.range_eq_range']
    cases b <;> rfl
  constructor
  · have hnodup : (as.flatMap fun a => a.words b).Nodup := by
      rw [hrange]
      exact List.nodup_range
    exact (List.nodup_flatMap.1 hnodup).2
  · intro w
    rw [← List.mem_range, ← hrange, List.mem_flatMap]

/-- The slice of a function with two callees that share one: five activations of sixteen words. -/
theorem place_tiles_slice_diamond : ∃ sizes t as, diamond.sizes = .ok sizes ∧
    diamond.Unfolds ⟨0⟩ t ∧ diamond.place sizes (0, 0) t = .ok as ∧
    as.Pairwise (fun a a' => List.Disjoint (a.words .ins) (a'.words .ins)) ∧
    ∀ w, (∃ a ∈ as, w ∈ a.words .ins) ↔ w < 16 := by
  obtain ⟨t, own, total, ht, hown, htotal, ⟨as, has, -, htiles⟩, -⟩ :=
    place_tiles_slice sizes_diamond (f := ⟨0⟩) ⟨_, rfl⟩
  obtain rfl : own = { ins := 1, calls := [⟨1⟩, ⟨2⟩], keys := [.me] } :=
    Option.some.inj (hown.symm.trans rfl)
  obtain rfl : total = ⟨15, 1, 8, [.me, .var ⟨7⟩]⟩ := Option.some.inj (htotal.symm.trans rfl)
  exact ⟨_, t, as, sizes_diamond, ht, has, (htiles .ins).1, (htiles .ins).2⟩

end Frames

end Shroud
