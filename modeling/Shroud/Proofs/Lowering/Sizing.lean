import Shroud.Proofs.Buffers.Layout
import Shroud.Proofs.Lowering.Placing

/-! # The sizes of lowered contracts

The calls that lowering records (`Recorded`, `Records`) follow the call graph of the program, which has
no cycle where proofs are needed. So every function with a circuit has a call tree, the shared buffers
have a layout, and all call sites get their slices.
-/

namespace Shroud

open Relation

variable {p : Program} {f : FunctionId}

namespace Solidity

/-- Calls that are numbered without gap or repetition all get their slices. -/
theorem patchSites_of_perm {body : List Stmt} {offsets : List (Nat × Nat)} (s : Settings)
    (h : (sites body).Perm (List.range offsets.length)) :
    patchSites s offsets body = .ok (Stmt.patchList s offsets body) := by
  have hlen : (sites body).length = offsets.length := by simpa using h.length_eq
  have hall : (sites body).countP (fun i => i < offsets.length) = (sites body).length := by
    rw [List.countP_eq_length]
    intro i hi
    simpa using h.subset hi
  rw [patchSites]
  simp [hall, hlen]

end Solidity

namespace Lowering

variable {unit : SourceUnit} {u : ContractEnv} {l : Lowered} {ls : List Lowered}

/-- What is recorded about the calls of a lowered function. -/
structure Recorded (u : ContractEnv) (l : Lowered) : Prop where
  /-- A recorded call has a circuit of its own, and is a call of the source. -/
  calls : ∀ g ∈ l.circuit.calls,
    (u.program.function g).facts.isVerified = true ∧ TransGen u.program.Calls l.id g
  /-- The recorded calls are numbered in order, and each number stands in one place. -/
  sites : (Solidity.sites l.body).Perm (List.range l.circuit.calls.length)

theorem id_of_lowerFunction (h : lowerFunction u f = .ok l) :
    l.id = f := by
  obtain ⟨_, -, h⟩ := bind_eq_ok.1 h
  cases h
  rfl

theorem lowerFunction_recorded (h : Passes unit.check u.program) (hl : lowerFunction u f = .ok l) :
    l.id = f ∧ Recorded u l := by
  obtain rfl := id_of_lowerFunction hl
  obtain ⟨hcalls, hcalled, hperm⟩ := lowerFunction_calls h hl
  refine ⟨rfl, fun g hg => ?_, ?_⟩
  · rw [hcalls, verified, List.mem_filter] at hg
    exact ⟨hg.2, hcalled g hg.1⟩
  · rw [Solidity.sites_eq, hcalls, List.range_eq_range']
    refine (hperm.filterMap _).trans (.of_eq ?_)
    exact filterMap_site_numbered 0 _

/-! ## Frames -/

theorem mem_frames {e : FunctionId × Frame} : e ∈ frames u ls ↔
    ∃ l ∈ ls, (u.program.function l.id).facts.isVerified = true ∧ (l.id, l.circuit.frame) = e := by
  simp [frames, ContractEnv.function, and_assoc]

theorem has_frames : (frames u ls).Has f ↔
    ∃ l ∈ ls, (u.program.function l.id).facts.isVerified = true ∧ l.id = f := by
  simp [Frames.has_iff_mem_keys, mem_frames]

/-- A frame that is found is the frame of a function that was lowered. -/
theorem of_find?_frames {own : Frame} (h : Sorted.find? (frames u ls) f = some own) :
    ∃ l ∈ ls, l.id = f ∧ l.circuit.frame = own := by
  obtain ⟨l, hl, -, he⟩ := mem_frames.1 (Sorted.mem_of_find? h)
  cases he
  exact ⟨l, hl, rfl, rfl⟩

/-! ## Contracts -/

/-- All functions of a contract are lowered. -/
structure LoweredContract (u : ContractEnv) (c : ContractId) (ls : List Lowered) : Prop where
  mem_iff : ∀ {f}, f ∈ (u.program.contract c).functions ↔ ∃ l ∈ ls, l.id = f
  lowered : ∀ {l}, l ∈ ls → lowerFunction u l.id = .ok l
  recorded : ∀ {l}, l ∈ ls → Recorded u l

theorem loweredContract_of_check (h : Passes unit.check u.program) {c : ContractId}
    (hls : (u.program.contract c).functions.mapM (lowerFunction u) = .ok ls) :
    LoweredContract u c ls := by
  have hall := mapM_eq_ok_iff.1 hls
  have hsource : ∀ {l}, l ∈ ls → ∃ f ∈ (u.program.contract c).functions,
      lowerFunction u f = .ok l := fun hl => hall.exists_left hl
  refine ⟨fun {f} => ⟨fun hf => ?_, ?_⟩, fun {l} hl => ?_, fun {l} hl => ?_⟩
  · obtain ⟨l, hl, hfl⟩ := hall.exists_right hf
    exact ⟨l, hl, (lowerFunction_recorded h hfl).1⟩
  · rintro ⟨l, hl, rfl⟩
    obtain ⟨f, hf, hfl⟩ := hsource hl
    exact (lowerFunction_recorded h hfl).1 ▸ hf
  · obtain ⟨f, -, hfl⟩ := hsource hl
    exact (lowerFunction_recorded h hfl).1.symm ▸ hfl
  · obtain ⟨f, -, hfl⟩ := hsource hl
    exact (lowerFunction_recorded h hfl).2

/-- A lowered function records a call of another. -/
def Records (ls : List Lowered) (f g : FunctionId) : Prop :=
  ∃ l ∈ ls, l.id = f ∧ g ∈ l.circuit.calls

theorem records_of_calls (h : (frames u ls).Calls f g) : Records ls f g := by
  obtain ⟨own, hown, hg⟩ := h
  obtain ⟨l, hl, hid, rfl⟩ := of_find?_frames hown
  exact ⟨l, hl, hid, hg⟩

namespace LoweredContract

variable {c : ContractId} (h : LoweredContract u c ls)

include h

/-- Recorded calls stay in the contract, among the functions that need a proof. -/
theorem of_records (hp : u.program.Scoped) (hfg : Records ls f g) :
    g ∈ (u.program.contract c).functions ∧ (u.program.function g).facts.isVerified = true := by
  obtain ⟨l, hl, rfl, hg⟩ := hfg
  obtain ⟨hv, hpath⟩ := (h.recorded hl).calls g hg
  have hc : (u.program.function l.id).contract = c :=
    (hp.contract c l.id (h.mem_iff.2 ⟨l, hl, rfl⟩)).2
  exact ⟨hc ▸ hp.of_transGen hpath, hv⟩

/-- A path of recorded calls is a path of calls in the source. -/
theorem of_transGen (hfg : TransGen (Records ls) f g) :
    TransGen u.program.Calls f g ∧ (u.program.function g).facts.isVerified = true := by
  have hstep : ∀ {f g}, Records ls f g →
      TransGen u.program.Calls f g ∧ (u.program.function g).facts.isVerified = true := by
    rintro _ g ⟨l, hl, rfl, hg⟩
    exact ((h.recorded hl).calls g hg).symm
  induction hfg with
  | single h => exact hstep h
  | tail _ h ih => exact ⟨ih.1.trans (hstep h).1, (hstep h).2⟩

theorem acyclic (hp : u.program.Graded) (f : FunctionId) : ¬ TransGen (Records ls) f f := by
  intro hcycle
  obtain ⟨hpath, hv⟩ := h.of_transGen hcycle
  exact hp.acyclic hv hpath

/-- Every function with a circuit has a call tree. -/
theorem exists_unfolds (hs : u.program.Scoped) (hp : u.program.Graded) (hf : (frames u ls).Has f) :
    ∃ t, (frames u ls).Unfolds f t := by
  rw [Frames.exists_unfolds_iff]
  intro g hfg
  have hhas : (frames u ls).Has g := by
    induction hfg with
    | refl => exact hf
    | tail _ hgk _ =>
      obtain ⟨hmem, hv⟩ := h.of_records hs (records_of_calls hgk)
      obtain ⟨l, hl, rfl⟩ := h.mem_iff.1 hmem
      exact has_frames.2 ⟨l, hl, hv, rfl⟩
  rintro (hcycle | hnot)
  · have hle : (frames u ls).Calls ≤ Records ls := fun _ _ => records_of_calls
    exact h.acyclic hp g (TransGen.mono hle _ _ hcycle)
  · exact hnot hhas

/-- A function has the frame that it was lowered with. -/
theorem find?_frames (hl : l ∈ ls) {own : Frame}
    (hown : Sorted.find? (frames u ls) l.id = some own) : own = l.circuit.frame := by
  obtain ⟨l', hl', hid, rfl⟩ := of_find?_frames hown
  have hsame : (Except.ok l' : Except Error Lowered) = .ok l := by
    rw [← h.lowered hl', hid, h.lowered hl]
  cases hsame
  rfl

variable {sizes : Frames.Sizes}

/-- The call sites of a function get their slices. -/
theorem patchLowered_total (hs : u.program.Scoped) (hp : u.program.Graded)
    (hsizes : (frames u ls).sizes = .ok sizes) (hl : l ∈ ls) :
    ∃ body, patchLowered u (frames u ls) (sizes.map fun e => (e.1, e.2.stored)) l =
      .ok { l with body } := by
  rw [patchLowered]
  by_cases hv : (u.program.function l.id).facts.isVerified = true
  · obtain ⟨t, ht⟩ := h.exists_unfolds hs hp (has_frames.2 ⟨l, hl, hv, rfl⟩)
    have hown : t.own = l.circuit.frame := h.find?_frames hl ht.find?
    have hlen : t.calls.length = l.circuit.calls.length := by
      rw [← ht.calls.length_eq, hown]
      rfl
    rw [if_neg (by simpa [ContractEnv.function] using hv),
      Frames.storedOffsets_of_unfolds hsizes ht]
    refine ⟨_, bind_eq_ok.2 ⟨_, rfl, bind_eq_ok.2 ⟨_, Solidity.patchSites_of_perm _ ?_, rfl⟩⟩⟩
    simpa [hlen] using (h.recorded hl).sites
  · rw [if_pos (by simpa [ContractEnv.function] using hv)]
    exact ⟨l.body, rfl⟩

end LoweredContract

/-- The functions with circuits have sizes. -/
theorem find?_sizes_of_mem (hsizes : (frames u ls).sizes = .ok sizes) (hl : l ∈ ls)
    (hv : (u.program.function l.id).facts.isVerified = true) :
    ∃ below, Sorted.find? (sizes.map fun e => (e.1, e.2.stored)) l.id = some below := by
  obtain ⟨t, -, ht⟩ := Frames.sizes_find? hsizes (has_frames.2 ⟨l, hl, hv, rfl⟩)
  exact ⟨_, by rw [Frames.find?_map_stored, ht]; rfl⟩

/-- Of a function with sizes, the words that its wrapper and its circuit take are known. -/
theorem output_total {sizes : Frames.Sizes}
    (h : (u.program.function l.id).facts.isVerified = true →
      ∃ below, Sorted.find? sizes l.id = some below) :
    (∃ below, u.bodyFrame l sizes = .ok below) ∧ ∃ out, inner u l sizes = .ok out := by
  rw [ContractEnv.bodyFrame, inner]
  by_cases hv : (u.program.function l.id).facts.isVerified = true
  · obtain ⟨below, hbelow⟩ := h hv
    have hv' : ¬ (!(u.function l.id).facts.isVerified) = true := by
      simpa [ContractEnv.function] using hv
    rw [if_neg hv', if_neg hv', hbelow]
    exact ⟨⟨_, rfl⟩, _, rfl⟩
  · have hv' : (!(u.function l.id).facts.isVerified) = true := by
      simpa [ContractEnv.function] using hv
    rw [if_pos hv', if_pos hv']
    exact ⟨⟨_, rfl⟩, _, rfl⟩

/-- Nothing that happens to the bodies of a contract after they are lowered can fail: the recorded
calls stay in the contract and have circuits, they form no cycle, and every one of them has one place
in the body. -/
theorem sizing_total (hp : Passes unit.check p) (s : Settings) (c : ContractId)
    (hls : (p.contract c).functions.mapM (lowerFunction (.new p s c)) = .ok ls) :
    (∀ f g, Records ls f g →
      g ∈ (p.contract c).functions ∧ (p.function g).facts.isVerified = true) ∧
    (∀ f, ¬ TransGen (Records ls) f f) ∧
    (∀ l ∈ ls, (Solidity.sites l.body).Perm (List.range l.circuit.calls.length)) ∧
    ∃ sizes patched, (frames (.new p s c) ls).storedSizes = .ok sizes ∧
      ls.mapM (patchLowered (.new p s c) (frames (.new p s c) ls) sizes) = .ok patched ∧
      ∀ l ∈ patched, (∃ below, (ContractEnv.new p s c).bodyFrame l sizes = .ok below) ∧
        ∃ out, inner (.new p s c) l sizes = .ok out := by
  have hscoped := (SourceUnit.check_checked hp).names
  have hgraded := SourceUnit.check_graded hp
  have h : LoweredContract (.new p s c) c ls := loweredContract_of_check hp hls
  obtain ⟨sizes, hsizes⟩ : ∃ sizes, (frames (.new p s c) ls).sizes = .ok sizes :=
    Frames.sizes_isOk_iff.2 fun f hf => h.exists_unfolds hscoped hgraded hf
  refine ⟨fun f g => h.of_records hscoped, h.acyclic hgraded, fun l hl => (h.recorded hl).sites,
    sizes.map fun e => (e.1, e.2.stored), ?_⟩
  have hpatch : ∀ l ∈ ls, ∃ body, patchLowered (.new p s c) (frames (.new p s c) ls)
      (sizes.map fun e => (e.1, e.2.stored)) l = .ok { l with body } := fun l hl =>
    h.patchLowered_total hscoped hgraded hsizes hl
  choose! body hbody using hpatch
  refine ⟨ls.map fun l => { l with body := body l }, Frames.storedSizes_eq hsizes, ?_, ?_⟩
  · rw [mapM_eq_ok_iff, List.forall₂_map_right_iff, List.forall₂_same]
    exact hbody
  · rw [List.forall_mem_map]
    intro l hl
    exact output_total fun hv => find?_sizes_of_mem (l := l) hsizes hl hv

/-- A function with a proof of its own publishes a secret in one branch; another one calls it twice. -/
def tally : SourceUnit := .single "Tally" [
  { name := "closed", type := .mk .bool .all }, { name := "total", type := .mk (.uint 8) .all }] [
  { name := "add"
    visibility := .internal
    params := [{ name := "x", type := .mk (.uint 8) .me }]
    body := [.cond {} "closed" (.block {} []) (some (.block {} [
      .assign {} "total" (some .add) (.reveal {} "x" .all)]))] },
  { name := "twice"
    params := [{ name := "y", type := .mk (.uint 8) .me }]
    body := [
      .expr {} (.call {} "add" ["y"]),
      .expr {} (.call {} "add" ["y"])] }]

theorem calls_tally : (do
    let p ← (tally.check.run.run []).1
    let ls ← (p.contract ⟨0⟩).functions.mapM (lowerFunction (.new p {} ⟨0⟩))
    return ls.map fun l => l.circuit.calls) = Except.ok [[], [⟨0⟩, ⟨0⟩]] := by
  decide +kernel

theorem sizing_total_tally : ∃ p ls, Passes tally.check p ∧
    (p.contract ⟨0⟩).functions.mapM (lowerFunction (.new p {} ⟨0⟩)) = .ok ls ∧
    (ls.map fun l => l.circuit.calls) = [[], [⟨0⟩, ⟨0⟩]] ∧
    (∀ l ∈ ls, (Solidity.sites l.body).Perm (List.range l.circuit.calls.length)) ∧
    ∃ sizes, (frames (.new p {} ⟨0⟩) ls).storedSizes = .ok sizes := by
  obtain ⟨p, hp, h⟩ := bind_eq_ok.1 calls_tally
  obtain ⟨ls, hls, h⟩ := bind_eq_ok.1 h
  have hpasses : Passes tally.check p := .of_run hp
  obtain ⟨-, -, hsites, sizes, -, hsizes, -⟩ := sizing_total hpasses {} ⟨0⟩ hls
  exact ⟨p, ls, hpasses, hls, Except.ok.inj h, hsites, sizes, hsizes⟩

end Lowering

end Shroud
