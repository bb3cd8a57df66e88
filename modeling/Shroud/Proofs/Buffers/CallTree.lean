import Mathlib
import Shroud.Frame
import Shroud.Proofs.Sorted
import Shroud.Proofs.Syntax

/-! # Call trees

A function with a circuit, its calls, and the calls of these in turn: the tree that the shared
buffers hold the frames of. A function that is called twice has two subtrees. There is a tree of a
function if and only if its calls lead neither into a cycle nor out of the known functions.

What is below the root of a tree is counted by `CallTree.callees`, which knows nothing of the way
in which the counts are computed.
-/

namespace Shroud

/-- An activation of a function, and the trees of its calls in their order. -/
inductive CallTree where
  | node (function : FunctionId) (own : Frame) (calls : List CallTree)

namespace CallTree

@[elab_as_elim]
theorem induct {P : CallTree → Prop}
    (node : ∀ f own ts, (∀ t ∈ ts, P t) → P (.node f own ts)) (t : CallTree) : P t :=
  CallTree.rec node nofun (fun _ _ ht hts => List.forall_mem_cons.2 ⟨ht, hts⟩) t

def own : CallTree → Frame
  | node _ own _ => own

def calls : CallTree → List CallTree
  | node _ _ ts => ts

mutual

/-- The frames of all activations, a caller's before those of its calls. -/
def frames : CallTree → List Frame
  | .node _ own ts => own :: framesList ts

def framesList : List CallTree → List Frame
  | [] => []
  | t :: ts => t.frames ++ framesList ts

end

theorem framesList_eq_flatMap (ts : List CallTree) : framesList ts = ts.flatMap frames := by
  induction ts with
  | nil => rfl
  | cons t ts ih => rw [framesList, ih, List.flatMap_cons]

/-- The frames of all activations but the root. -/
def descendants (t : CallTree) : List Frame := t.calls.flatMap frames

theorem frames_eq (t : CallTree) : t.frames = t.own :: t.descendants := by
  cases t
  rw [frames, framesList_eq_flatMap]
  rfl

/-- The keys of the root, then those below it in the order in which they occur first. -/
def keys (t : CallTree) : List Label :=
  t.own.keys ++ ((t.descendants.flatMap Frame.keys).filter fun k => !t.own.keys.contains k).eraseDups

/-- The words below the root, once for each activation, and all keys. -/
def callees (t : CallTree) : Callees where
  ins := (t.descendants.map Frame.ins).sum
  outs := (t.descendants.map Frame.outs).sum
  secrets := (t.descendants.map Frame.secrets).sum
  keys := t.keys

end CallTree

/-! ## Counting call by call -/

namespace Callees

theorem addKeys_cons (keys : List Label) (k : Label) (more : List Label) :
    addKeys keys (k :: more) = addKeys (if keys.contains k then keys else keys ++ [k]) more := rfl

theorem addKeys_append (keys more others : List Label) :
    addKeys keys (more ++ others) = addKeys (addKeys keys more) others := List.foldl_append

/-- New keys are those that are not there, in the order in which they occur first. -/
theorem addKeys_eq (keys more : List Label) :
    addKeys keys more = keys ++ (more.filter fun k => !keys.contains k).eraseDups := by
  induction more generalizing keys with
  | nil => exact (List.append_nil keys).symm
  | cons k more ih =>
    rw [addKeys_cons, ih]
    by_cases hk : k ∈ keys
    · simp [hk]
    · have hfilter : (more.filter fun x => !(keys ++ [k]).contains x) =
          (more.filter fun x => !keys.contains x).filter fun x => !x == k := by
        rw [List.filter_filter]
        refine List.filter_congr fun x _ => ?_
        rw [Bool.eq_iff_iff]
        simp [and_comm]
      have hcons : ((k :: more).filter fun x => !keys.contains x) =
          k :: more.filter fun x => !keys.contains x := by
        simp [hk]
      have hif : (if keys.contains k = true then keys else keys ++ [k]) = keys ++ [k] :=
        if_neg (by simpa using hk)
      rw [hif, hfilter, hcons, List.eraseDups_cons, List.append_assoc]
      rfl

theorem mem_addKeys {keys more : List Label} {k : Label} :
    k ∈ addKeys keys more ↔ k ∈ keys ∨ k ∈ more := by
  rw [addKeys_eq, List.mem_append, List.mem_eraseDups, List.mem_filter]
  by_cases hk : k ∈ keys <;> simp [hk]

/-- Keys that were counted once already count once. -/
theorem addKeys_addKeys (keys more others : List Label) :
    addKeys keys (addKeys more others) = addKeys keys (more ++ others) := by
  induction others generalizing more with
  | nil => exact congrArg (addKeys keys) (List.append_nil more).symm
  | cons k others ih =>
    rw [addKeys_cons, ih]
    by_cases hk : k ∈ more
    · have hmem : k ∈ addKeys keys more := mem_addKeys.2 (.inr hk)
      rw [addKeys_append keys more (k :: others), addKeys_cons]
      simp [hk, hmem, addKeys_append]
    · simp [hk, List.append_assoc]

/-- Adds the slice of one call, given the tree of the call. -/
def addTree (c : Callees) (t : CallTree) : Callees := c.addCall t.own t.callees

theorem keys_eq_addKeys (t : CallTree) :
    t.keys = addKeys t.own.keys (t.descendants.flatMap Frame.keys) := (addKeys_eq _ _).symm

theorem addTree_eq (c : Callees) (t : CallTree) : c.addTree t = {
    ins := c.ins + (t.frames.map Frame.ins).sum
    outs := c.outs + (t.frames.map Frame.outs).sum
    secrets := c.secrets + (t.frames.map Frame.secrets).sum
    keys := addKeys c.keys (t.frames.flatMap Frame.keys) } := by
  rw [t.frames_eq, List.flatMap_cons, ← addKeys_addKeys, ← keys_eq_addKeys]
  simp [addTree, addCall, CallTree.callees]

theorem foldl_addTree (c : Callees) (ts : List CallTree) : ts.foldl addTree c = {
    ins := c.ins + ((ts.flatMap CallTree.frames).map Frame.ins).sum
    outs := c.outs + ((ts.flatMap CallTree.frames).map Frame.outs).sum
    secrets := c.secrets + ((ts.flatMap CallTree.frames).map Frame.secrets).sum
    keys := addKeys c.keys ((ts.flatMap CallTree.frames).flatMap Frame.keys) } := by
  induction ts generalizing c with
  | nil => rfl
  | cons t ts ih =>
    rw [List.foldl_cons, ih, addTree_eq]
    simp [addKeys_append, Nat.add_assoc]

/-- Adding up the calls of a function one after another counts what is below its tree's root. -/
theorem callees_node (f : FunctionId) (own : Frame) (ts : List CallTree) :
    (CallTree.node f own ts).callees = ts.foldl addTree { keys := own.keys } := by
  rw [foldl_addTree]
  simp [CallTree.callees, keys_eq_addKeys, CallTree.descendants, CallTree.calls, CallTree.own]

end Callees

/-! ## Trees of functions -/

namespace Frames

variable {frames : Frames} {f g h : FunctionId} {t u : CallTree} {path : List FunctionId}
  {ts : List CallTree} {own : Frame}

/-- Whether a function has a circuit. -/
def Has (frames : Frames) (f : FunctionId) : Prop := ∃ own, Sorted.find? frames f = some own

/-- Whether a function with a circuit calls another one. -/
def Calls (frames : Frames) (f g : FunctionId) : Prop :=
  ∃ own, Sorted.find? frames f = some own ∧ g ∈ own.calls

/-- The functions whose calls have no tree: they are on a cycle of calls, or have no circuit. -/
def Unsized (frames : Frames) (f : FunctionId) : Prop :=
  Relation.TransGen frames.Calls f f ∨ ¬ frames.Has f

mutual

/-- A tree is the one of a function: it has the function's frame, and a tree for every call. -/
def Unfolds (frames : Frames) : FunctionId → CallTree → Prop
  | f, .node g own ts => g = f ∧ Sorted.find? frames f = some own ∧ UnfoldsAll frames own.calls ts

def UnfoldsAll (frames : Frames) : List FunctionId → List CallTree → Prop
  | [], [] => True
  | f :: fs, t :: ts => Unfolds frames f t ∧ UnfoldsAll frames fs ts
  | [], _ :: _ | _ :: _, [] => False

end

theorem unfoldsAll_iff {fs : List FunctionId} :
    frames.UnfoldsAll fs ts ↔ List.Forall₂ frames.Unfolds fs ts := by
  induction fs generalizing ts with
  | nil => cases ts <;> simp [UnfoldsAll]
  | cons f fs ih => cases ts <;> simp [UnfoldsAll, ih]

theorem unfolds_node :
    frames.Unfolds f (.node g own ts) ↔
      g = f ∧ Sorted.find? frames f = some own ∧ List.Forall₂ frames.Unfolds own.calls ts := by
  rw [Unfolds, unfoldsAll_iff]

theorem Unfolds.find? (h : frames.Unfolds f t) : Sorted.find? frames f = some t.own := by
  cases t
  exact (unfolds_node.1 h).2.1

theorem Unfolds.calls (h : frames.Unfolds f t) :
    List.Forall₂ frames.Unfolds t.own.calls t.calls := by
  cases t
  exact (unfolds_node.1 h).2.2

/-- A call of a function has its tree in the tree of the function. -/
theorem Unfolds.of_calls (h : frames.Unfolds f t) (hfg : frames.Calls f g) :
    ∃ u ∈ t.calls, frames.Unfolds g u := by
  obtain ⟨own, hown, hg⟩ := hfg
  obtain rfl : t.own = own := by simpa using h.find?.symm.trans hown
  exact h.calls.exists_right hg

/-- A function has one tree at most. -/
theorem Unfolds.unique (h : frames.Unfolds f t) (h' : frames.Unfolds f u) : t = u := by
  induction t using CallTree.induct generalizing f u with
  | node g own ts ih =>
    cases u with
    | node g' own' us =>
      obtain ⟨rfl, hown, hts⟩ := unfolds_node.1 h
      obtain ⟨rfl, hown', hus⟩ := unfolds_node.1 h'
      obtain rfl : own = own' := by simpa using hown.symm.trans hown'
      congr 1
      generalize own.calls = fs at hts hus
      clear h h' hown hown'
      induction hts generalizing us with
      | nil => cases hus; rfl
      | cons ht _ ihs =>
        cases hus with
        | cons hu hus =>
          rw [List.forall_mem_cons] at ih
          rw [ih.1 ht hu, ihs ih.2 _ hus]

/-- Everything that a function reaches has a tree that is no larger. -/
theorem Unfolds.of_reaches (h : frames.Unfolds f t)
    (hfg : Relation.ReflTransGen frames.Calls f g) :
    ∃ u, frames.Unfolds g u ∧ sizeOf u ≤ sizeOf t := by
  induction hfg with
  | refl => exact ⟨t, h, Nat.le_refl _⟩
  | tail _ hgh ih =>
    obtain ⟨u, hu, hle⟩ := ih
    obtain ⟨w, hw, hwt⟩ := hu.of_calls hgh
    refine ⟨w, hwt, ?_⟩
    cases u with
    | node _ _ us =>
      have hlt : sizeOf w < sizeOf us := List.sizeOf_lt_of_mem hw
      simp only [CallTree.node.sizeOf_spec] at hle
      omega

/-- The calls of a function with a tree lead into no cycle. -/
theorem Unfolds.not_cycle (h : frames.Unfolds f t) : ¬ Relation.TransGen frames.Calls f f := by
  intro hf
  obtain ⟨g, hfg, hgf⟩ := Relation.TransGen.head'_iff.1 hf
  obtain ⟨u, hu, hgu⟩ := h.of_calls hfg
  obtain ⟨w, hw, hle⟩ := hgu.of_reaches hgf
  obtain rfl := h.unique hw
  cases t with
  | node _ _ ts =>
    have hlt : sizeOf u < sizeOf ts := List.sizeOf_lt_of_mem hu
    simp only [CallTree.node.sizeOf_spec] at hle
    omega

theorem Unfolds.not_unsized (h : frames.Unfolds f t)
    (hfg : Relation.ReflTransGen frames.Calls f g) : ¬ frames.Unsized g := by
  obtain ⟨u, hu, -⟩ := h.of_reaches hfg
  rintro (hcycle | hnot)
  · exact hu.not_cycle hcycle
  · exact hnot ⟨_, hu.find?⟩

/-! ## Paths

A path of calls without repetition is no longer than the list of functions. It bounds the depth of
a tree. -/

/-- A list of different functions with circuits, all of which lead to a given one. -/
structure Path (frames : Frames) (path : List FunctionId) (f : FunctionId) : Prop where
  nodup : path.Nodup
  has : ∀ g ∈ path, frames.Has g
  leads : ∀ g ∈ path, Relation.TransGen frames.Calls g f

theorem Path.nil (frames : Frames) (f : FunctionId) : frames.Path [] f :=
  ⟨List.nodup_nil, nofun, nofun⟩

theorem Path.append (h : frames.Path path f) (hf : f ∉ path) (hfg : frames.Calls f g) :
    frames.Path (path ++ [f]) g where
  nodup := List.nodup_append_comm.2 (List.nodup_cons.2 ⟨hf, h.nodup⟩)
  has := by
    intro k hk
    rcases List.mem_append.1 hk with hk | hk
    · exact h.has k hk
    · obtain ⟨own, hown, -⟩ := hfg
      exact ⟨own, List.mem_singleton.1 hk ▸ hown⟩
  leads := by
    intro k hk
    rcases List.mem_append.1 hk with hk | hk
    · exact (h.leads k hk).tail hfg
    · exact List.mem_singleton.1 hk ▸ .single hfg

theorem Has.mem_keys (h : frames.Has f) : f ∈ frames.map Prod.fst := by
  obtain ⟨own, hown⟩ := h
  exact Sorted.isSome_find?_iff.1 (by rw [hown]; rfl)

theorem has_iff_mem_keys : frames.Has f ↔ f ∈ frames.map Prod.fst := by
  rw [← Sorted.isSome_find?_iff, Option.isSome_iff_exists]
  rfl

/-- There is always a function left for a path to go on to. -/
theorem Path.length_lt (h : frames.Path path f) (hf : f ∉ path) (hhas : frames.Has f) :
    path.length < frames.length := by
  have hnodup : (f :: path).Nodup := List.nodup_cons.2 ⟨hf, h.nodup⟩
  have hsub : f :: path ⊆ frames.map Prod.fst := by
    rw [List.cons_subset]
    exact ⟨hhas.mem_keys, fun g hg => (h.has g hg).mem_keys⟩
  have hle := (List.Nodup.subperm hnodup hsub).length_le
  rwa [List.length_cons, List.length_map, Nat.succ_le_iff] at hle

theorem forall₂_of_forall_exists {α β : Type} {r : α → β → Prop} :
    ∀ {l : List α}, (∀ a ∈ l, ∃ b, r a b) → ∃ l', List.Forall₂ r l l'
  | [], _ => ⟨[], .nil⟩
  | a :: l, h => by
    rw [List.forall_mem_cons] at h
    obtain ⟨b, hb⟩ := h.1
    obtain ⟨l', hl⟩ := forall₂_of_forall_exists h.2
    exact ⟨b :: l', .cons hb hl⟩

/-- A function whose calls lead into no cycle and to no unknown function has a tree. The induction
is on the number of functions that are not on the path of callers. -/
theorem exists_unfolds_of_path (n : Nat) (hpath : frames.Path path f)
    (hn : path.length + n = frames.length)
    (hf : ∀ g, Relation.ReflTransGen frames.Calls f g → ¬ frames.Unsized g) :
    ∃ t, frames.Unfolds f t := by
  induction n generalizing path f with
  | zero =>
    have hsized := hf f .refl
    rw [Unsized, not_or, not_not] at hsized
    have hlt := hpath.length_lt (fun hmem => hsized.1 (hpath.leads f hmem)) hsized.2
    omega
  | succ n ih =>
    have hsized := hf f .refl
    rw [Unsized, not_or, not_not] at hsized
    obtain ⟨own, hown⟩ := hsized.2
    have hnot : f ∉ path := fun hmem => hsized.1 (hpath.leads f hmem)
    have hcalls : ∀ g ∈ own.calls, ∃ t, frames.Unfolds g t := by
      intro g hg
      have hfg : frames.Calls f g := ⟨own, hown, hg⟩
      refine ih (hpath.append hnot hfg) (by simp; omega) fun k hk => hf k (hk.head hfg)
    obtain ⟨ts, hts⟩ := forall₂_of_forall_exists hcalls
    exact ⟨.node f own ts, unfolds_node.2 ⟨rfl, hown, hts⟩⟩

theorem exists_unfolds_iff : (∃ t, frames.Unfolds f t) ↔
    ∀ g, Relation.ReflTransGen frames.Calls f g → ¬ frames.Unsized g := by
  constructor
  · rintro ⟨t, ht⟩ g hg
    exact ht.not_unsized hg
  · exact exists_unfolds_of_path frames.length (Path.nil frames f) (Nat.zero_add _)

/-- The keys of a tree are those of everything that its function reaches. -/
theorem Unfolds.mem_frames_iff (h : frames.Unfolds f t) : own ∈ t.frames ↔
    ∃ g, Relation.ReflTransGen frames.Calls f g ∧ Sorted.find? frames g = some own := by
  induction t using CallTree.induct generalizing f with
  | node f' own' ts ih =>
    obtain ⟨rfl, hown, hts⟩ := unfolds_node.1 h
    rw [CallTree.frames, CallTree.framesList_eq_flatMap, List.mem_cons, List.mem_flatMap]
    constructor
    · rintro (rfl | ⟨u, hu, hmem⟩)
      · exact ⟨f', .refl, hown⟩
      · obtain ⟨k, hk, hku⟩ := hts.exists_left hu
        obtain ⟨g, hg, hfind⟩ := (ih u hu hku).1 hmem
        exact ⟨g, hg.head ⟨own', hown, hk⟩, hfind⟩
    · rintro ⟨g, hg, hfind⟩
      rcases Relation.ReflTransGen.cases_head hg with rfl | ⟨k, hk, hkg⟩
      · exact .inl (by simpa using hfind.symm.trans hown)
      · obtain ⟨u, hu, hku⟩ := h.of_calls hk
        exact .inr ⟨u, hu, (ih u hu hku).2 ⟨g, hkg, hfind⟩⟩

end Frames

end Shroud
