import Shroud.Proofs.Lowering.EntryPoints
import Shroud.Proofs.Lowering.Supply

/-! # Moving words

The slots of a buffer lie one after another (`Tiles`), so the code that moves them slot by slot touches
every word of the buffer once (`TouchesOnce`). By `MovesSlices` a body with a circuit reads the words
of its outputs before anything else, and writes those of its inputs in the end; by `FillsInputs` a
wrapper writes the words of its own inputs before it calls the body, which finds its slices behind
them. Words are counted as expressions in the code; what they encode is left to `Words`.
-/

namespace Shroud

/-! ## Words in code -/

namespace Solidity

/-- Whether an expression is a word of a generated buffer. -/
def Expr.isWordOf (buffer : String) : Expr → Bool
  | .index (.ident name none) _ => name == buffer
  | _ => false

/-- The words of a buffer that an expression uses, from left to right. -/
def Expr.words (buffer : String) (e : Expr) : List Expr := e.subterms.filter (Expr.isWordOf buffer)

/-- The words of a buffer that a body uses. -/
def wordsOf (buffer : String) (body : List Stmt) : List Expr :=
  (Stmt.exprsList body).flatMap (Expr.words buffer)

/-- A statement assigns a word, and uses no other word of the buffer. -/
def Stmt.Writes (buffer : String) (t : Stmt) (w : Expr) : Prop :=
  ∃ value, t = .assign w value ∧ value.words buffer = []

/-- A statement assigns what it reads from a word to something that is no word of the buffer. -/
def Stmt.Reads (buffer : String) (t : Stmt) (_ : Expr) : Prop :=
  ∃ target value, t = .assign target value ∧ target.words buffer = []

/-- A body uses so many words of a buffer from a position on, in order and each once, all in the same
way. -/
structure Touches (buffer : String) (wordAt : Nat → Expr) (use : Stmt → Expr → Prop)
    (start count : Nat) (body : List Stmt) : Prop where
  words : wordsOf buffer body = (List.range count).map fun j => wordAt (start + j)
  uses : ∀ t ∈ body, ∀ w ∈ wordsOf buffer [t], use t w

variable {buffer : String}

namespace Expr

@[simp] theorem words_nat (n : Nat) : (nat n).words buffer = [] := rfl
@[simp] theorem words_ident (name : String) (v : Option VarId) : (ident name v).words buffer = [] :=
  rfl
@[simp] theorem words_member (base : Expr) (name : String) :
    (member base name).words buffer = base.words buffer := rfl
@[simp] theorem words_cast (t : DataType) (e : Expr) : (cast t e).words buffer = e.words buffer :=
  rfl
@[simp] theorem words_newWords (len : Expr) : (newWords len).words buffer = len.words buffer := rfl

theorem filter_subtermsList (es : List Expr) :
    (subtermsList es).filter (isWordOf buffer) = es.flatMap (words buffer) := by
  rw [subtermsList_eq_flatMap, List.filter_flatMap]
  rfl

@[simp] theorem words_op (o : Operator) (es : List Expr) :
    (op o es).words buffer = es.flatMap (words buffer) := by
  rw [← filter_subtermsList]
  rfl

@[simp] theorem words_tuple (es : List Expr) :
    (tuple es).words buffer = es.flatMap (words buffer) := by
  rw [← filter_subtermsList]
  rfl

@[simp] theorem words_method (target : Expr) (name : String) (es : List Expr) :
    (method target name es).words buffer = target.words buffer ++ es.flatMap (words buffer) := by
  rw [← filter_subtermsList, words, words, ← List.filter_append]
  rfl

theorem words_index (base idx : Expr) : (index base idx).words buffer =
    (if isWordOf buffer (index base idx) then [index base idx] else []) ++
      (base.words buffer ++ idx.words buffer) := by
  rw [words, subterms, List.cons_append, List.filter_cons, List.filter_append]
  split <;> rfl

@[simp] theorem words_offset (base : Expr) (n : Nat) :
    (base.offset n).words buffer = base.words buffer := by
  unfold offset
  split <;> simp

theorem offset_injective (base : String) : Function.Injective (offset (.ident base)) := by
  intro m n h
  unfold offset at h
  split at h <;> split at h
  · rename_i hm hn
    rw [hm, hn]
  · cases h
  · cases h
  · simp only [op.injEq, List.cons.injEq, nat, number.injEq] at h
    omega

end Expr

@[simp] theorem wordsOf_append (ss ts : List Stmt) :
    wordsOf buffer (ss ++ ts) = wordsOf buffer ss ++ wordsOf buffer ts := by
  simp only [wordsOf, Stmt.exprsList_eq_flatMap, List.flatMap_append]

theorem wordsOf_cons (s : Stmt) (ss : List Stmt) :
    wordsOf buffer (s :: ss) = wordsOf buffer [s] ++ wordsOf buffer ss :=
  wordsOf_append [s] ss

theorem wordsOf_eq_flatMap (ss : List Stmt) :
    wordsOf buffer ss = ss.flatMap fun s => wordsOf buffer [s] := by
  induction ss with
  | nil => rfl
  | cons s ss ih => rw [wordsOf_cons, ih, List.flatMap_cons]

@[simp] theorem wordsOf_assign (lhs rhs : Expr) :
    wordsOf buffer [.assign lhs rhs] = lhs.words buffer ++ rhs.words buffer := by
  simp [wordsOf, Stmt.exprsList, Stmt.exprs]

@[simp] theorem wordsOf_require (e : Expr) : wordsOf buffer [.require e] = e.words buffer := by
  simp [wordsOf, Stmt.exprsList, Stmt.exprs]

@[simp] theorem wordsOf_comment (text : String) : wordsOf buffer [.comment text] = [] := rfl

@[simp] theorem wordsOf_decl (t : DataType) (name : String) (location : Option Location)
    (init : Option Expr) (v : Option VarId) :
    wordsOf buffer [.decl t name location init v] = init.toList.flatMap (Expr.words buffer) := by
  simp [wordsOf, Stmt.exprsList, Stmt.exprs]

theorem wordsOf_eq_nil {ss : List Stmt} (h : ∀ s ∈ ss, wordsOf buffer [s] = []) :
    wordsOf buffer ss = [] := by
  rw [wordsOf_eq_flatMap]
  exact List.flatMap_eq_nil_iff.2 h

/-- A body uses the first words of a buffer in order, each exactly once. -/
structure TouchesOnce (buffer : String) (wordAt : Nat → Expr) (use : Stmt → Expr → Prop)
    (count : Nat) (body : List Stmt) : Prop extends Touches buffer wordAt use 0 count body where
  nodup : (wordsOf buffer body).Nodup

namespace Touches

variable {wordAt : Nat → Expr} {use : Stmt → Expr → Prop} {start m n : Nat} {ss ts : List Stmt}

theorem of_quiet (h : ∀ s ∈ ss, wordsOf buffer [s] = []) : Touches buffer wordAt use start 0 ss where
  words := wordsOf_eq_nil h
  uses t ht w hw := by
    rw [h t ht] at hw
    cases hw

theorem append (hs : Touches buffer wordAt use start m ss)
    (ht : Touches buffer wordAt use (start + m) n ts) :
    Touches buffer wordAt use start (m + n) (ss ++ ts) where
  words := by
    rw [wordsOf_append, hs.words, ht.words, List.range_add, List.map_append, List.map_map]
    simp [Function.comp_def, Nat.add_assoc]
  uses t hmem := (List.mem_append.1 hmem).elim (hs.uses t) (ht.uses t)

theorem append_quiet (hs : Touches buffer wordAt use start m ss)
    (ht : ∀ t ∈ ts, wordsOf buffer [t] = []) : Touches buffer wordAt use start m (ss ++ ts) :=
  hs.append (of_quiet ht)

theorem quiet_append (hs : ∀ s ∈ ss, wordsOf buffer [s] = [])
    (ht : Touches buffer wordAt use start m ts) : Touches buffer wordAt use start m (ss ++ ts) := by
  have hquiet : Touches buffer wordAt use start 0 ss := of_quiet hs
  have happend := hquiet.append ht
  rwa [Nat.zero_add] at happend

theorem quiet_cons {s : Stmt} (hs : wordsOf buffer [s] = [])
    (ht : Touches buffer wordAt use start m ts) : Touches buffer wordAt use start m (s :: ts) :=
  quiet_append (List.forall_mem_singleton.2 hs) ht

/-- Different words that are used in order are used once. -/
theorem once (h : Touches buffer wordAt use 0 m ss) (hw : Function.Injective wordAt) :
    TouchesOnce buffer wordAt use m ss := by
  refine ⟨h, ?_⟩
  rw [h.words]
  refine List.Nodup.map (fun i j hij => ?_) List.nodup_range
  exact Nat.add_left_cancel (hw hij)

/-- One statement for each word. -/
theorem of_range {f : Nat → Stmt} (hw : ∀ i, wordsOf buffer [f i] = [wordAt (start + i)])
    (hu : ∀ i, use (f i) (wordAt (start + i))) :
    Touches buffer wordAt use start m ((List.range m).map f) where
  words := by
    rw [wordsOf_eq_flatMap, List.flatMap_map, List.flatMap_congr fun i _ => hw i]
    exact List.flatMap_pure_eq_map _ _
  uses t ht w hmem := by
    obtain ⟨i, -, rfl⟩ := List.mem_map.1 ht
    rw [hw, List.mem_singleton] at hmem
    subst hmem
    exact hu i

theorem of_singleton {s : Stmt} (hw : wordsOf buffer [s] = [wordAt start])
    (hu : use s (wordAt start)) : Touches buffer wordAt use start 1 [s] where
  words := hw
  uses t ht w hmem := by
    rw [List.mem_singleton] at ht
    subst ht
    rw [hw, List.mem_singleton] at hmem
    subst hmem
    exact hu

end Touches

end Solidity

/-! ## Slots one after another -/

namespace Circuit.Stream

/-- A buffer holds the variables that a stream has issued, one right after another. -/
structure Tiles (t : Stream) (slots : List Slot) (size : Nat) : Prop where
  order : slots.map (fun slot => (slot.name, slot.type)) = t.wires.map fun w => (w.name, w.type)
  offset : ∀ i slot, slots[i]? = some slot → slot.offset = ((slots.take i).map Slot.size).sum
  size : (slots.map Slot.size).sum = size
  type : ∀ slot ∈ slots, ∀ ts, slot.type ≠ .tuple ts

theorem wordsOf_append (s : Settings) (ws ws' : List Wire) :
    wordsOf s (ws ++ ws') = wordsOf s ws + wordsOf s ws' := by
  induction ws with
  | nil => simp [wordsOf]
  | cons w ws ih => simp [wordsOf, ih, Nat.add_assoc]

theorem sum_size_layoutFrom (s : Settings) (offset : Nat) (ws : List Wire) :
    ((layoutFrom s offset ws).map Slot.size).sum = wordsOf s ws := by
  induction ws generalizing offset with
  | nil => rfl
  | cons w ws ih => simp [layoutFrom, wordsOf, ih]

theorem offset_layoutFrom {s : Settings} {offset i : Nat} {ws : List Wire} {slot : Slot}
    (h : (layoutFrom s offset ws)[i]? = some slot) :
    slot.offset = offset + (((layoutFrom s offset ws).take i).map Slot.size).sum := by
  induction ws generalizing offset i with
  | nil => cases h
  | cons w ws ih =>
    cases i with
    | zero =>
      cases h
      rfl
    | succ i =>
      rw [ih h]
      simp [layoutFrom, Nat.add_assoc]

theorem map_layoutFrom (s : Settings) (offset : Nat) (ws : List Wire) :
    (layoutFrom s offset ws).map (fun slot => (slot.name, slot.type)) =
      ws.map fun w => (w.name, w.type) := by
  induction ws generalizing offset with
  | nil => rfl
  | cons w ws ih => exact congrArg ((w.name, w.type) :: ·) (ih _)

theorem mem_layoutFrom {s : Settings} {offset : Nat} {ws : List Wire} {slot : Slot}
    (h : slot ∈ layoutFrom s offset ws) :
    ∃ w ∈ ws, slot.type = w.type ∧ slot.size = w.type.words s := by
  induction ws generalizing offset with
  | nil => cases h
  | cons w ws ih =>
    rcases List.mem_cons.1 h with rfl | h
    · exact ⟨w, List.mem_cons_self, rfl, rfl⟩
    · obtain ⟨x, hx, htype⟩ := ih h
      exact ⟨x, List.mem_cons_of_mem _ hx, htype⟩

theorem tiles_layout (t : Stream) (h : ∀ w ∈ t.wires, w.type.fillsSlot = true) :
    t.Tiles t.layout t.size where
  order := map_layoutFrom _ _ _
  offset i slot hi := by
    rw [offset_layoutFrom hi, Nat.zero_add]
    rfl
  size := sum_size_layoutFrom _ _ _
  type slot hslot ts htuple := by
    obtain ⟨w, hw, htype, -⟩ := mem_layoutFrom hslot
    have hfills := h w hw
    rw [← htype, htuple] at hfills
    cases hfills

end Circuit.Stream

namespace Lowering

open Circuit (Wire Slot Stream)
open Solidity (Touches TouchesOnce wordsOf Stmt.Reads Stmt.Writes Expr.isWordOf Expr.words_index)

variable {c : ContractId} {p : Program} {s : Settings}

/-! ## Moving slots -/

section Slots

variable {s : Settings} {buffer : String} {wordAt : Nat → Solidity.Expr} {member : Solidity.Expr}
  {slot : Slot}

/-- A value that is no buffer has one word. -/
theorem words_of_not_isBuffer {t : DataType} (hf : t.fillsSlot = true) (hb : isBuffer t = false) :
    t.words s = 1 := by
  cases t with
  | cipher | key | randomness => cases hb
  | tuple ts | proof => cases hf
  | _ => rfl

theorem words_fromWord (t : DataType) (e : Solidity.Expr) :
    (fromWord t e).words buffer = e.words buffer := by
  unfold fromWord
  split <;> (try split) <;> simp

theorem words_toWord (t : DataType) (e : Solidity.Expr) :
    (toWord t e).words buffer = e.words buffer := by
  unfold toWord
  split <;> (try split) <;> simp

theorem slots_touch (hw : ∀ i, (wordAt i).words buffer = [wordAt i])
    (hm : member.words buffer = []) (hmi : ∀ i, (Solidity.Expr.index member i).isWordOf buffer = false)
    (hf : slot.type.fillsSlot = true) (hsize : slot.size = slot.type.words s) :
    Touches buffer wordAt (Stmt.Reads buffer) slot.offset slot.size (readSlot slot wordAt member) ∧
      Touches buffer wordAt (Stmt.Writes buffer) slot.offset slot.size
        (writeSlot slot wordAt member) := by
  have hindex : ∀ i : Nat, (Solidity.Expr.index member (.nat i)).words buffer = [] := fun i => by
    simp [Expr.words_index, hm, hmi]
  unfold readSlot writeSlot
  split
  · exact ⟨.of_range (fun i => by simp [hindex, hw]) fun i => ⟨_, _, rfl, hindex i⟩,
      .of_range (fun i => by simp [hindex, hw]) fun i => ⟨_, rfl, hindex i⟩⟩
  · rename_i hb
    rw [hsize, words_of_not_isBuffer hf (by simpa using hb)]
    have hvalue : (toWord slot.type member).words buffer = [] := (words_toWord _ _).trans hm
    exact ⟨.of_singleton (by simp [hm, words_fromWord, hw]) ⟨_, _, rfl, hm⟩,
      .of_singleton (by simp [hvalue, hw]) ⟨_, rfl, hvalue⟩⟩

/-- Slots that are moved one after another are moved as a whole. -/
theorem layoutFrom_touches {use : Solidity.Stmt → Solidity.Expr → Prop} {offset : Nat}
    {ws : List Wire} {move : Slot → List Solidity.Stmt} (hf : ∀ w ∈ ws, w.type.fillsSlot = true)
    (hmove : ∀ slot : Slot, slot.type.fillsSlot = true → slot.size = slot.type.words s →
      Touches buffer wordAt use slot.offset slot.size (move slot)) :
    Touches buffer wordAt use offset (Stream.wordsOf s ws)
      ((Stream.layoutFrom s offset ws).flatMap move) := by
  induction ws generalizing offset with
  | nil => exact .of_quiet nofun
  | cons w ws ih =>
    rw [List.forall_mem_cons] at hf
    rw [Stream.layoutFrom, Stream.wordsOf, List.flatMap_cons]
    exact (hmove ⟨w.name, w.type, offset, w.type.words s⟩ hf.1 rfl).append (ih hf.2)

end Slots

/-! ## Bodies -/

section Bodies

variable {u : ContractEnv} {l : Lowered} {buffer : String}

/-- The word of a buffer at a position after a start; no zero is added. -/
def sliceWord (buffer start : String) (j : Nat) : Solidity.Expr :=
  .index (.ident buffer) (if j = 0 then .ident start else .op .add [.ident start, .number j])

theorem words_word (buffer start : String) (i : Nat) :
    (word (.ident buffer) (.ident start) i).words buffer = [word (.ident buffer) (.ident start) i] := by
  simp [word, Expr.words_index, Expr.isWordOf]

theorem word_injective (buffer start : String) :
    Function.Injective (word (.ident buffer) (.ident start)) := by
  intro i j hij
  simp only [word, Solidity.Expr.index.injEq, true_and] at hij
  exact Solidity.Expr.offset_injective start hij

theorem wordsOf_returnDecls (u : ContractEnv) (f : FunctionId) :
    ∀ t ∈ u.returnDecls f, wordsOf buffer [t] = [] := by
  intro t ht
  obtain ⟨i, hi, rfl⟩ := List.mem_mapIdx.1 ht
  rfl

theorem words_returnTargets (s : Settings) (n : Nat) : (returnTargets s n).words buffer = [] := by
  unfold returnTargets
  split <;> simp

theorem wordsOf_returnStmts (u : ContractEnv) (f : FunctionId) :
    ∀ t ∈ u.returnStmts f, wordsOf buffer [t] = [] := by
  unfold ContractEnv.returnStmts ContractEnv.returnExpr?
  split <;> rename_i h
  · exact nofun
  · split at h
    · cases h
    · cases h
      intro t ht
      obtain rfl := List.mem_singleton.1 ht
      simp [wordsOf, Solidity.Stmt.exprsList, Solidity.Stmt.exprs, words_returnTargets]

/-- A body with a circuit reads the words of its outputs before the lowered statements, and writes
those of its inputs after them. -/
structure MovesSlices (u : ContractEnv) (body : List Solidity.Stmt) (circuit : Circuit)
    (g : Solidity.Function) : Prop where
  body : ∃ before after, g.body = before ++ body ++ after ∧
    TouchesOnce u.settings.outName (sliceWord u.settings.outName u.settings.outStart)
      (Stmt.Reads u.settings.outName) circuit.outSize before ∧
    TouchesOnce u.settings.inName (sliceWord u.settings.inName u.settings.inStart)
      (Stmt.Writes u.settings.inName) circuit.inSize after

theorem internal_moves (name : String) (verifier : Option String) (below : Callees)
    (hins : ∀ w ∈ l.circuit.inputs.wires, w.type.fillsSlot = true)
    (houts : ∀ w ∈ l.circuit.outputs.wires, w.type.fillsSlot = true) :
    MovesSlices u l.body (u.circuit l.circuit name verifier below) (u.internal l below) := by
  refine ⟨_, _, by
    simp only [ContractEnv.internal]
    rw [List.append_assoc (_ ++ l.body)], ?_, ?_⟩
  · refine Touches.once (.quiet_append (fun t ht => ?_) (layoutFrom_touches houts fun slot
      hf hsize => (slots_touch (words_word _ _) rfl (fun _ => rfl) hf hsize).1)) (word_injective _ _)
    rcases List.mem_append.1 ht with ht | ht
    · rcases List.mem_append.1 ht with ht | ht
      · simp only [List.mem_cons, List.not_mem_nil, or_false] at ht
        rcases ht with rfl | rfl <;> simp [ContractEnv.fits]
      · split at ht
        · obtain rfl := List.mem_singleton.1 ht
          simp
        · cases ht
    · exact wordsOf_returnDecls u _ t ht
  · exact Touches.once (.append_quiet (layoutFrom_touches hins fun slot
      hf hsize => (slots_touch (words_word _ _) rfl (fun _ => rfl) hf hsize).2) (wordsOf_returnStmts u _))
      (word_injective _ _)

end Bodies

/-! ## Wrappers -/

section Wrappers

variable {s : Settings} {u : ContractEnv}

/-- A word of the inputs that a wrapper allocates. -/
def ContractEnv.ownWord (u : ContractEnv) (j : Nat) : Solidity.Expr :=
  .index (.ident u.settings.inName) (.nat j)

theorem ownWord_injective (u : ContractEnv) : Function.Injective u.ownWord := by
  intro i j hij
  simpa [ContractEnv.ownWord, Solidity.Expr.nat] using hij

/-- A slot whose name is not used again starts where those before it end. -/
theorem offsetOf_layoutFrom {offset o : Nat} {pre rest : List Wire} {w : Wire}
    (hn : ((pre ++ w :: rest).map Wire.name).Nodup)
    (h : ContractEnv.offsetOf (Stream.layoutFrom s offset (pre ++ w :: rest)) w.name = .ok o) :
    o = offset + Stream.wordsOf s pre := by
  induction pre generalizing offset with
  | nil =>
    simp only [List.nil_append, Stream.layoutFrom, ContractEnv.offsetOf, List.find?_cons,
      BEq.rfl] at h
    exact (Except.ok.inj h).symm
  | cons x pre ih =>
    rw [List.cons_append, List.map_cons, List.nodup_cons] at hn
    have hne : (x.name == w.name) = false := by
      rw [beq_eq_false_iff_ne]
      intro heq
      exact hn.1 (heq ▸ by simp)
    have hrest : ContractEnv.offsetOf (Stream.layoutFrom s (offset + x.type.words s)
        (pre ++ w :: rest)) w.name = .ok o := by
      simpa only [List.cons_append, Stream.layoutFrom, ContractEnv.offsetOf, List.find?_cons, hne]
        using h
    rw [ih hn.2 hrest, Stream.wordsOf, Nat.add_assoc]

theorem copyIn_touches (u : ContractEnv) (offset len : Nat) {name : String} {v : Option VarId}
    (hv : name ≠ u.settings.inName ∨ v.isSome = true) :
    Touches u.settings.inName u.ownWord (Stmt.Writes u.settings.inName) offset len
      (u.copyIn offset len (.ident name v)) := by
  have hvalue : ∀ i : Nat,
      (Solidity.Expr.index (.ident name v) (.nat i)).words u.settings.inName = [] := by
    intro i
    cases v with
    | none => simp [Expr.words_index, Expr.isWordOf, hv.resolve_right (by simp)]
    | some v => simp [Expr.words_index, Expr.isWordOf]
  refine .of_range (fun i => ?_) fun i => ⟨_, rfl, hvalue i⟩
  rw [Solidity.wordsOf_assign, hvalue]
  simp [ContractEnv.ownWord, Expr.words_index, Expr.isWordOf]

/-- Inputs that are copied in their order are written as a whole. -/
theorem copies_touch {α : Type} {entries : List (α × Wire)} {copies : List (List Solidity.Stmt)}
    {copy : α × Wire → Except Error (List Solidity.Stmt)} {ws : List Wire} (pre rest : List Wire)
    (hws : ws = pre ++ entries.map Prod.snd ++ rest) (hn : (ws.map Wire.name).Nodup)
    (hcopy : ∀ e ∈ entries, ∀ ss, copy e = .ok ss → ∃ o,
      ContractEnv.offsetOf (Stream.layoutFrom s 0 ws) e.2.name = .ok o ∧
        Touches u.settings.inName u.ownWord (Stmt.Writes u.settings.inName) o (e.2.type.words s) ss)
    (h : List.Forall₂ (fun e ss => copy e = .ok ss) entries copies) :
    Touches u.settings.inName u.ownWord (Stmt.Writes u.settings.inName)
      (Stream.wordsOf s pre) (Stream.wordsOf s (entries.map Prod.snd)) copies.flatten := by
  induction h generalizing pre with
  | nil => exact .of_quiet (by simp)
  | @cons e ss entries copies he _ ih =>
    obtain ⟨o, ho, htouches⟩ := hcopy e List.mem_cons_self ss he
    have hws' : ws = pre ++ e.2 :: (entries.map Prod.snd ++ rest) := by simp [hws]
    have hstart : o = Stream.wordsOf s pre := by
      rw [hws'] at ho hn
      simpa using offsetOf_layoutFrom hn ho
    have htail := ih (pre ++ [e.2]) (by simp [hws]) fun e' he' =>
      hcopy e' (List.mem_cons_of_mem _ he')
    rw [hstart] at htouches
    rw [Stream.wordsOf_append] at htail
    exact htouches.append htail

/-- A wrapper writes the words of its own inputs before it calls the body, whose slices are behind its
own. -/
structure FillsInputs (u : ContractEnv) (f : FunctionId) (circuit : Circuit)
    (g : Solidity.Function) : Prop where
  body : ∃ before after, g.body = before ++ u.bodyStmt f (.call (u.wrappedName f)
      (u.bodyArgs f circuit.inSize circuit.outSize) none) :: after ∧
      TouchesOnce u.settings.inName u.ownWord (Stmt.Writes u.settings.inName) circuit.inSize before

/-- The names of the generated inputs are not confused: the keys of different owners have different
names, and no buffer is named like an input with a key or the variable that holds a key. -/
structure NamesApart (u : ContractEnv) : Prop where
  keys : ∀ l ∈ u.owners, ∀ l' ∈ u.owners, keyName u.program l = keyName u.program l' → l = l'
  inputs : ∀ (l : Label) (rest : String), keyName u.program l ≠ u.settings.inName ++ rest
  keyVar : ContractEnv.keyVar ≠ u.settings.inName

theorem WrapperWires.nodup_names {keys : List Label} {c : State}
    {r : List (VarId × Wire) × List (Label × Wire)} (h : WrapperWires u keys r c)
    (hn : NamesApart u) (hkeys : keys.Nodup) (howned : ∀ l ∈ keys, l ∈ u.owners) :
    (c.inputs.wires.map Wire.name).Nodup := by
  have hparams : Stream.Numbered ⟨u.settings.inName, .boundary, u.settings, r.1.map Prod.snd⟩ := by
    intro i x hx
    simp only [Stream.names, List.getElem?_map, Option.map_eq_some_iff] at hx
    obtain ⟨w, ⟨e, he, rfl⟩, rfl⟩ := hx
    exact h.params i e he
  have hslots : (r.2.map Prod.snd).map Wire.name = c.keys.map (keyName u.program) := by
    rw [h.slots]
    simp [Function.comp_def]
  have hall : ∀ l ∈ c.keys, l ∈ u.owners := fun l hl => (h.owned l hl).elim (howned l) id
  rw [h.inputs, List.map_append, hslots]
  refine List.nodup_append.2 ⟨hparams.nodup, ?_, ?_⟩
  · exact (h.nodup hkeys).map_on fun l hl l' hl' => hn.keys l (hall l hl) l' (hall l' hl')
  · rintro x hx y hy rfl
    obtain ⟨l, -, hl⟩ := List.mem_map.1 hy
    obtain ⟨i, hi⟩ := List.mem_iff_getElem?.1 hx
    obtain ⟨rest, hrest⟩ := hparams i x hi
    refine hn.inputs l (Nat.repr i ++ "_" ++ rest) ?_
    rw [hl, hrest]
    simp [String.append_assoc]

section Copies

variable {keys : List Label} {params : List (VarId × Wire)} {slots : List (Label × Wire)} {c : State}
  (hw : WrapperWires u keys (params, slots) c) (hnodup : (c.inputs.wires.map Wire.name).Nodup)

include hw hnodup

/-- The encrypted parameters are copied to the first words. -/
theorem copyParams_touch {copies} (h : params.mapM (u.copyParam c.inputs.layout) = .ok copies) :
    Touches u.settings.inName u.ownWord (Stmt.Writes u.settings.inName) 0
      (Stream.wordsOf u.settings (params.map Prod.snd)) copies.flatten := by
  refine copies_touch [] (slots.map Prod.snd) (by simp [hw.inputs]) hnodup ?_ (mapM_eq_ok_iff.1 h)
  intro e he ss hss
  obtain ⟨o, ho, hss⟩ := bind_eq_ok.1 hss
  cases hss
  rw [Stream.layout, hw.settings.2.1] at ho
  refine ⟨o, ho, ?_⟩
  rw [hw.ciphers e he]
  exact .quiet_cons (by simp) (copyIn_touches u o _ (.inr rfl))

/-- The keys are copied to the words behind the parameters. -/
theorem copyKeys_touch (hn : NamesApart u) {copies}
    (h : u.copyKeys c.inputs.layout slots = .ok copies) :
    Touches u.settings.inName u.ownWord (Stmt.Writes u.settings.inName)
      (Stream.wordsOf u.settings (params.map Prod.snd))
      (Stream.wordsOf u.settings (slots.map Prod.snd)) copies := by
  unfold ContractEnv.copyKeys at h
  split at h
  · rename_i hnone
    cases h
    rw [List.isEmpty_iff.1 hnone]
    exact .of_quiet (by simp)
  obtain ⟨copied, hcopied, h⟩ := bind_eq_ok.1 h
  cases h
  refine .quiet_cons (by simp) ?_
  refine copies_touch _ [] (by simp [hw.inputs]) hnodup ?_ (mapM_eq_ok_iff.1 hcopied)
  intro e he ss hss
  obtain ⟨owner, howner, hss⟩ := bind_eq_ok.1 hss
  obtain ⟨o, ho, hss⟩ := bind_eq_ok.1 hss
  cases hss
  rw [Stream.layout, hw.settings.2.1] at ho
  refine ⟨o, ho, ?_⟩
  have htype : e.2.type = .key := by
    rw [show slots = _ from hw.slots] at he
    obtain ⟨l, -, rfl⟩ := List.mem_map.1 he
    rfl
  have howner : owner.words u.settings.inName = [] := by
    unfold ContractEnv.ownerExpr at howner
    split at howner <;> cases howner <;> rfl
  rw [htype]
  exact .quiet_cons (by simp [howner, pki]) (copyIn_touches u o _ (.inl hn.keyVar))

end Copies

theorem wrapper_fills {l : Lowered} {sizes : Frames.Sizes} {r : Solidity.Function × Circuit}
    (h : u.wrapper l sizes = .ok r) (hp : Typing.Declares u.program)
    (hn : NamesApart u) (hkeys : ∀ body, u.bodyFrame l sizes = .ok body →
      body.keys.Nodup ∧ ∀ l ∈ body.keys, l ∈ u.owners) : FillsInputs u l.id r.2 r.1 := by
  obtain ⟨body, hbody, h⟩ := bind_eq_ok.1 h
  obtain ⟨⟨⟨params, keys⟩, c⟩, hc, h⟩ := bind_eq_ok.1 h
  obtain ⟨copiedParams, hparams, h⟩ := bind_eq_ok.1 h
  obtain ⟨copiedKeys, hcopied, h⟩ := bind_eq_ok.1 h
  cases h
  have hwires := wrapperCircuit_wires hp (f := l.id) hc
  have hnodup := hwires.nodup_names hn (hkeys body hbody).1 (hkeys body hbody).2
  have hwords := (copyParams_touch hwires hnodup hparams).append
    (by rw [Nat.zero_add]; exact copyKeys_touch hwires hnodup hn hcopied)
  have hsize : c.inputs.size = Stream.wordsOf u.settings (params.map Prod.snd) +
      Stream.wordsOf u.settings (keys.map Prod.snd) := by
    rw [Stream.size, hwires.settings.2.1, hwires.inputs, Stream.wordsOf_append]
  refine ⟨_, _, List.append_assoc _ _ _, ?_⟩
  show TouchesOnce _ _ _ c.inputs.size _
  rw [hsize, List.append_assoc _ copiedParams.flatten]
  refine Touches.once (.append_quiet (.quiet_append ?_ hwords) (wordsOf_returnDecls u _))
    (ownWord_injective u)
  simp

end Wrappers

/-! ## Contracts -/

/-- The buffers of a circuit hold what was issued for them, slot after slot. -/
structure TilesBuffers (circuit : Circuit) (c : State) : Prop where
  secrets : c.secrets.Tiles circuit.secrets circuit.secretSize
  inputs : c.inputs.Tiles circuit.inputs circuit.inSize
  outputs : c.outputs.Tiles circuit.outputs circuit.outSize

/-- An emitted function moves the words of the circuit that stands with it: a body with a circuit those
of its slices, and a wrapper those of its own inputs. -/
def Entry.Transfers (u : ContractEnv) (x : Entry) : Prop :=
  match x.origin with
  | .body f => (u.program.function f).facts.isVerified = true →
    ∃ l fs sizes l' circuit, lowerFunction u f = .ok l ∧ patchLowered u fs sizes l = .ok l' ∧
      x.circuit? = some circuit ∧ MovesSlices u l'.body circuit x.function
  | .wrapper f => ∃ circuit, x.circuit? = some circuit ∧ FillsInputs u f circuit x.function
  | .setup => True

/-- All words of the circuits of a contract are moved once. -/
structure MovesWords (u : ContractEnv) (k : Solidity.Contract) (circuits : List Circuit)
    (os : List Origin) (xs : List Entry) : Prop where
  origins : os = u.origins ∨ os = .setup :: u.origins
  entries : Entries (fun x => x.Owns u ∧ x.Transfers u) os k.functions circuits xs
  layouts : ∀ x ∈ xs, ∀ circuit ∈ x.circuit?, ∃ c, Builds u x.origin circuit c ∧
    TilesBuffers circuit c

section Contracts

variable {u : ContractEnv} {k : Solidity.Contract} {cs : List Circuit} {unit : SourceUnit}
  {l : Lowered} {out : Output}

theorem Builds.tilesBuffers (hp : Passes unit.check u.program) {o : Origin} {circuit : Circuit}
    {c : State} (h : Builds u o circuit c) : TilesBuffers circuit c := by
  cases h with
  | body h =>
    have hsupplies := lowerFunction_supplies hp h
    exact ⟨Stream.tiles_layout _ (hsupplies.secrets.fillsSlot rfl),
      Stream.tiles_layout _ (hsupplies.inputs.fillsSlot rfl),
      Stream.tiles_layout _ (hsupplies.outputs.fillsSlot rfl)⟩
  | wrapper h =>
    have hwires := wrapperCircuit_wires
      (Typing.declares_of_scoped (SourceUnit.check_checked hp).names) h
    refine ⟨Stream.tiles_layout _ hwires.secrets, Stream.tiles_layout _ fun w hw => ?_,
      Stream.tiles_layout _ fun w hw => ?_⟩
    · rw [hwires.inputs, hwires.slots] at hw
      rcases List.mem_append.1 hw with hw | hw
      · obtain ⟨e, he, rfl⟩ := List.mem_map.1 hw
        rw [hwires.ciphers e he]
        rfl
      · simp only [List.map_map, List.mem_map] at hw
        obtain ⟨l, -, rfl⟩ := hw
        rfl
    · rw [hwires.outputs] at hw
      cases hw

theorem Entry.Transfers.receiveVerifiers {x : Entry} (h : x.Transfers u) (vs : List String) :
    Entry.Transfers u { x with function := receiveVerifiers vs x.function } := by
  have hquiet : ∀ {buffer : String}, ∀ t ∈ (vs.map fun v => (v, Settings.instanceName v)).map
      (fun e => Solidity.Stmt.assign (.ident e.2) (.ident ("_" ++ e.2))), wordsOf buffer [t] = [] := by
    intro buffer t ht
    obtain ⟨e, -, rfl⟩ := List.mem_map.1 ht
    simp
  have hprefix : ∀ {buffer wordAt use count before},
      TouchesOnce buffer wordAt use count before →
      TouchesOnce buffer wordAt use count
        ((vs.map fun v => (v, Settings.instanceName v)).map
          (fun e => Solidity.Stmt.assign (.ident e.2) (.ident ("_" ++ e.2))) ++ before) := by
    intro buffer wordAt use count before hbefore
    refine ⟨.quiet_append hquiet hbefore.toTouches, ?_⟩
    rw [Solidity.wordsOf_append, Solidity.wordsOf_eq_nil hquiet]
    exact hbefore.nodup
  obtain ⟨origin, g, c⟩ := x
  cases origin with
  | body f =>
    intro hv
    obtain ⟨l, fs, sizes, l', circuit, hlow, hpatch, hc, before, after, hbody, hreads,
      hwrites⟩ := h hv
    refine ⟨l, fs, sizes, l', circuit, hlow, hpatch, hc, _, after, ?_, hprefix hreads, hwrites⟩
    show _ ++ g.body = _
    rw [show g.body = _ from hbody, List.append_assoc, List.append_assoc, List.append_assoc]
  | wrapper f =>
    obtain ⟨circuit, hc, before, after, hbody, hwrites⟩ := h
    refine ⟨circuit, hc, _, after, ?_, hprefix hwrites⟩
    show _ ++ g.body = _
    rw [show g.body = _ from hbody, List.append_assoc]
  | setup => trivial

variable (e : Emitted u k cs) (hp : Passes unit.check u.program)

include e hp

/-- The keys of a call tree belong to fixed owners. -/
theorem Emitted.keys_owned (hl : l ∈ e.patched)
    (hv : (u.program.function l.id).facts.isVerified = true) {below : Callees}
    (hbelow : Sorted.find? e.sizes l.id = some below) :
    below.keys.Nodup ∧ ∀ x ∈ below.keys, x ∈ u.owners := by
  obtain ⟨t, ht, hkeys⟩ := e.exists_tree hl hv hbelow
  have hown : ∀ {g own}, Sorted.find? (frames u e.bodies) g = some own →
      own.keys.Nodup ∧ ∀ x ∈ own.keys, x ∈ u.owners := by
    intro g own hg
    obtain ⟨m, hm, rfl⟩ := e.exists_of_frame hg
    have hsupplies := lowerFunction_supplies hp hm
    exact ⟨hsupplies.nodup List.nodup_nil, fun x hx => (hsupplies.keys x hx).resolve_left nofun⟩
  rw [hkeys]
  refine ⟨Frames.nodup_keys (hown ht.find?).1, fun x hx => ?_⟩
  obtain ⟨g, own, -, hg, hx⟩ := (Frames.mem_keys_iff ht).1 hx
  exact (hown hg).2 x hx

theorem Emitted.bodyFrame_owned (hl : l ∈ e.patched) {body : Callees}
    (h : u.bodyFrame l e.sizes = .ok body) : body.keys.Nodup ∧ ∀ x ∈ body.keys, x ∈ u.owners := by
  unfold ContractEnv.bodyFrame at h
  split at h
  · cases h
    exact ⟨List.nodup_nil, nofun⟩
  · rename_i hv
    have hv : (u.program.function l.id).facts.isVerified = true := by
      simpa [ContractEnv.function] using hv
    split at h
    · rename_i below hbelow
      cases h
      have howned := e.keys_owned hp hl hv hbelow
      exact howned
    · cases h

/-- The body of a function moves the slices of its circuit. -/
theorem Emitted.inner_transfers (hl : l ∈ e.patched) (h : inner u l e.sizes = .ok out) :
    ∃ g, out.functions = [g] ∧ Entry.Transfers u ⟨.body l.id, g, out.circuits.head?⟩ := by
  rcases inner_cases h with ⟨hv, rfl⟩ | ⟨-, below, -, rfl⟩
  · refine ⟨_, rfl, fun hv' => ?_⟩
    cases hv.symm.trans hv'
  · obtain ⟨l₀, -, hlow, hpatch⟩ := e.exists_body hl
    obtain ⟨body, rfl, -⟩ := patchLowered_eq hpatch
    have hsupplies := lowerFunction_supplies hp hlow
    exact ⟨_, rfl, fun _ => ⟨l₀, _, _, _, _, hlow, hpatch, rfl, internal_moves _ _ below
      (hsupplies.inputs.fillsSlot rfl) (hsupplies.outputs.fillsSlot rfl)⟩⟩

/-- An emitted contract moves all words of its circuits. -/
theorem Emitted.movesWords (hn : NamesApart u) : ∃ os xs, MovesWords u k cs os xs := by
  have hdeclares := Typing.declares_of_scoped (SourceUnit.check_checked hp).names
  obtain ⟨os, xs, hos, hxs⟩ := e.exists_entries (Q := Entry.Transfers u)
    (fun l hl r hr => ⟨r.2, rfl, wrapper_fills hr hdeclares hn fun body hbody =>
      e.bodyFrame_owned hp hl hbody⟩)
    (fun l hl out hout => e.inner_transfers hp hl hout) (fun _ h vs _ => h.receiveVerifiers vs)
    fun _ => trivial
  refine ⟨os, xs, hos, hxs, fun x hx circuit hcircuit => ?_⟩
  obtain ⟨c, hc⟩ := (hxs.all x hx).1.builds circuit hcircuit
  exact ⟨c, hc, hc.tilesBuffers hp⟩

end Contracts

/-! ## Names -/

theorem mem_fixedOwners {l : Label} (h : l ∈ fixedOwners p c) :
    l = .me ∨ ∃ v ∈ (p.contract c).stateVars, l = .var v := by
  rcases List.mem_cons.1 h with rfl | h
  · exact .inl rfl
  · obtain ⟨v, hv, rfl⟩ := List.mem_map.1 h
    exact .inr ⟨v, (List.mem_filter.1 hv).1, rfl⟩

/-- With default names, and no state variable that is named like the sender, the names of inputs are
not confused. -/
theorem namesApart_new (hin : s.inName = ({} : Settings).inName)
    (hnodup : ((p.contract c).stateVars.map p.varName).Nodup)
    (hme : ∀ v ∈ (p.contract c).stateVars, p.varName v ≠ "me") : NamesApart (.new p s c) where
  keys l hl l' hl' hname := by
    have hname : p.describeLabel l = p.describeLabel l' := (String.append_right_inj _).1 hname
    rcases mem_fixedOwners hl with rfl | ⟨v, hv, rfl⟩ <;>
      rcases mem_fixedOwners hl' with rfl | ⟨v', hv', rfl⟩
    · rfl
    · exact absurd hname.symm (hme v' hv')
    · exact absurd hname (hme v hv)
    · exact congrArg Label.var (List.inj_on_of_nodup_map hnodup hv hv' hname)
  inputs l rest hname := by
    have hlist := congrArg (fun x : String => x.toList.head?) hname
    simp only [keyName, ContractEnv.new, hin, String.toList_append] at hlist
    cases hlist
  keyVar := by
    show ContractEnv.keyVar ≠ s.inName
    rw [hin]
    decide

theorem namesApart_of_check {u : SourceUnit} (hp : Passes u.check p) (hc : c ∈ p.contractIds)
    (hs : s.names = ({} : Settings).names)
    (hme : ∀ c ∈ u.contracts, ∀ v ∈ c.stateVars, v.name ≠ "me") : NamesApart (.new p s c) := by
  have hmem : p.contract c ∈ p.contracts := by
    obtain ⟨i, hi, rfl⟩ := List.mem_map.1 hc
    rw [List.mem_range] at hi
    rw [Program.contract, List.getD_eq_getElem _ _ hi]
    exact List.getElem_mem hi
  obtain ⟨k, hk, hnames, hnodup⟩ := (SourceUnit.check_stateNames hp).exists_left hmem
  refine namesApart_new (List.cons.inj hs).1 (hnames ▸ hnodup) fun v hv => ?_
  have hv' : p.varName v ∈ k.stateVars.map Source.StateVar.name := by
    rw [← hnames]
    exact List.mem_map_of_mem hv
  obtain ⟨x, hx, hname⟩ := List.mem_map.1 hv'
  rw [← hname]
  exact hme k hk x hx

end Lowering

open Lowering in
/-- **Words are moved once.** With default names, and no state variable that is named like the
sender, the buffers of each circuit are filled slot by slot, and every emitted function moves each
word of the circuit that was made for it exactly once. -/
theorem SourceUnit.compile_movesWords {u : SourceUnit} {s : Settings} {out : Compilation}
    (h : Passes (u.compile s) out) (hs : s.names = ({} : Settings).names)
    (hme : ∀ c ∈ u.contracts, ∀ v ∈ c.stateVars, v.name ≠ "me") :
    ∃ p pieces, Passes u.check p ∧ out.contracts = pieces.map Prod.fst ∧
      out.circuits = pieces.flatMap Prod.snd ∧
      List.Forall₂ (fun c piece => ∃ os xs, MovesWords (.new p s c) piece.1 piece.2 os xs)
        p.contractIds pieces := by
  obtain ⟨p, pieces, hp, hcontracts, hcircuits, hpieces⟩ := compile_emitted h
  refine ⟨p, pieces, hp, hcontracts, hcircuits, hpieces.imp ?_⟩
  rintro c piece ⟨hc, ⟨e⟩⟩
  exact e.movesWords hp (namesApart_of_check hp hc hs hme)

open Lowering in
/-- The scheme has ciphertexts of three words, keys of one, and no randomness. -/
theorem SourceUnit.compile_movesWords_lottery : ∃ out,
    Passes (lottery.compile { backend := .ecdhChaskey }) out ∧
    (out.circuits.map fun c => (c.function, c.inSize, c.outSize, c.secretSize)) =
      [("constructor", 4, 0, 1), ("_zk__constructor", 0, 0, 0), ("set", 3, 1, 1), ("draw", 4, 0, 1),
        ("_zk__draw", 0, 0, 0)] ∧
    ∃ p pieces, Passes lottery.check p ∧ out.contracts = pieces.map Prod.fst ∧
      out.circuits = pieces.flatMap Prod.snd ∧
      List.Forall₂ (fun c piece => ∃ os xs,
        MovesWords (.new p { backend := .ecdhChaskey } c) piece.1 piece.2 os xs)
        p.contractIds pieces :=
  Passes.exists_of_test (by decide +kernel) fun _ hout _ => compile_movesWords hout rfl (by decide)

end Shroud
