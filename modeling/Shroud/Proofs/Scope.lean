import Mathlib.Data.List.Nodup
import Shroud.Proofs.Success
import Shroud.Proofs.Syntax
import Shroud.Scope

/-! # Scopes of resolved programs

A resolved statement mentions only the variables that are visible where it stands, and calls only
functions of its contract. Its declarations are numbered one after another, so every variable is
declared once, and none before the variables that are visible there. `Program.Scoped` collects what
name resolution guarantees about a function.
-/

namespace Shroud

/-! ## Declarable types -/

mutual

/-- The types that a program can write down: no constants and no tuples. -/
def DataType.IsDeclarable : DataType → Prop
  | .bool | .uint _ | .int _ | .address | .addressPayable => True
  | .mapping k _ v => k.IsDeclarable ∧ v.IsDeclarable
  | .array elem _ => elem.IsDeclarable
  | _ => False

def OwnedType.IsDeclarable : OwnedType → Prop
  | .mk t _ => t.IsDeclarable

end

/-! ## Written expressions -/

namespace Expr

/-- The node is one that a source can have, and nothing is known about it. -/
def IsWritten : Expr → Prop
  | builtin i _ _ isPrivate => i = i.plain ∧ isPrivate = false
  | reclassify i _ _ implicit => i = i.plain ∧ implicit = false
  | cast i t _ implicit => i = i.plain ∧ implicit = false ∧ t.IsDeclarable
  | e => e.info = e.info.plain

/-- An operator has as many operands as it takes. -/
def IsSaturated : Expr → Prop
  | builtin _ op args _ => args.length = op.arity
  | _ => True

/-- The expression is as it was written. An assignment combines its sides with any operator, so
only operands are known to be saturated. -/
def Written (e : Expr) : Prop := ∀ x ∈ e.subterms, x.IsWritten ∧ ∀ c ∈ x.children, c.IsSaturated

theorem written_iff {e : Expr} :
    e.Written ↔ e.IsWritten ∧ ∀ c ∈ e.children, c.IsSaturated ∧ c.Written := by
  rw [Written, forall_subterms_iff, and_assoc, ← forall₂_and]
  rfl

theorem Written.children {e : Expr} (h : e.Written) : ∀ c ∈ e.children, c.Written :=
  fun c hc => ((written_iff.1 h).2 c hc).2

/-- A written expression has nothing to take out. -/
theorem Written.plain_eq {e : Expr} (h : e.Written) : e.plain = e := by
  have hlist : ∀ es : List Expr, (∀ e ∈ es, e.Written → e.plain = e) → (∀ e ∈ es, e.Written) →
      plainList es = es := by
    intro es ih hes
    rw [plainList_eq_map]
    conv_rhs => rw [← List.map_id es]
    exact List.map_congr_left fun e he => ih e he (hes e he)
  induction e using Expr.induct with
  | bool i b | number i n | me i | ident i v =>
    rw [plain, ← show i = i.plain from (written_iff.1 h).1]
  | builtin i op args b ih =>
    obtain ⟨hi, rfl⟩ := (written_iff.1 h).1
    rw [plain, ← hi, hlist args ih h.children]
  | call i f args ih =>
    rw [plain, ← show i = i.plain from (written_iff.1 h).1, hlist args ih h.children]
  | tuple i es ih =>
    rw [plain, ← show i = i.plain from (written_iff.1 h).1, hlist es ih h.children]
  | index i base idx hb hx =>
    rw [plain, ← show i = i.plain from (written_iff.1 h).1,
      hb (h.children _ (.head _)), hx (h.children _ (.tail _ (.head _)))]
  | reclassify i e o b ih =>
    obtain ⟨hi, rfl⟩ := (written_iff.1 h).1
    rw [plain, if_neg Bool.false_ne_true, ← hi, ih (h.children _ (.head _))]
  | cast i t e b ih =>
    obtain ⟨hi, rfl, -⟩ := (written_iff.1 h).1
    rw [plain, if_neg Bool.false_ne_true, ← hi, ih (h.children _ (.head _))]

end Expr

/-- All expressions are as they were written. -/
def Stmt.Written (s : Stmt) : Prop := s.Alike (fun _ _ => True) (fun e _ => e.Written) s

/-! ## Applications -/

namespace Expr

/-- A called function with the number of its arguments. -/
def application? : Expr → Option (FunctionId × Nat)
  | .call _ f args => some (f, args.length)
  | _ => none

/-- All calls of an expression have `P` of the function and the number of arguments. -/
def Applies (P : FunctionId × Nat → Prop) (e : Expr) : Prop :=
  ∀ a ∈ e.subterms.filterMap application?, P a

variable {P : FunctionId × Nat → Prop} {e : Expr}

theorem applies_iff : e.Applies P ↔
    (∀ a ∈ e.application?, P a) ∧ ∀ c ∈ e.children, c.Applies P := by
  unfold Applies
  rw [subterms_eq, List.filterMap_cons, List.filterMap_flatMap]
  cases e.application? <;> simp <;> grind

theorem applies_of_children (h : e.application? = none) (hc : ∀ c ∈ e.children, c.Applies P) :
    e.Applies P := applies_iff.2 ⟨by simp [h], hc⟩

end Expr

/-- What a call of a function depends on, and what the function is called. -/
def Function.signature (f : Function) : FunctionKind × Nat × String × String :=
  (f.kind, f.params.length, f.name, f.uniqueName)

/-- The signature of the function with a number among those of a contract. -/
def Source.Contract.signature (c : Source.Contract) (f : Source.Function × Nat) :
    FunctionKind × Nat × String × String :=
  (f.1.kind, f.1.params.length, f.1.name,
    Scope.uniqueName (c.functions.map Source.Function.name) f.2 f.1.name)

/-! ## Scoped statements -/

namespace Expr

/-- The expression mentions only the given variables, and calls only the given functions. -/
def Within (vis : List VarId) (fs : List FunctionId) (e : Expr) : Prop :=
  (∀ v ∈ e.idents, v ∈ vis) ∧ ∀ f ∈ e.callees, f ∈ fs

variable {vis vis' : List VarId} {fs : List FunctionId} {e : Expr}

theorem within_iff : e.Within vis fs ↔
    (∀ v ∈ e.ident?, v ∈ vis) ∧ (∀ f ∈ e.callee?, f ∈ fs) ∧ ∀ c ∈ e.children, c.Within vis fs := by
  simp only [Within, idents_eq e, callees_eq e, List.mem_append, List.mem_flatMap,
    Option.mem_toList]
  constructor
  · rintro ⟨hv, hf⟩
    exact ⟨fun v h => hv v (.inl h), fun f h => hf f (.inl h), fun c hc =>
      ⟨fun v h => hv v (.inr ⟨c, hc, h⟩), fun f h => hf f (.inr ⟨c, hc, h⟩)⟩⟩
  · rintro ⟨hv, hf, hc⟩
    refine ⟨?_, ?_⟩
    · rintro v (h | ⟨c, hm, h⟩)
      · exact hv v h
      · exact (hc c hm).1 v h
    · rintro f (h | ⟨c, hm, h⟩)
      · exact hf f h
      · exact (hc c hm).2 f h

/-- An expression that is neither a variable nor a call is within what its parts are within. -/
theorem within_of_children (hi : e.ident? = none) (hc : e.callee? = none)
    (h : ∀ c ∈ e.children, c.Within vis fs) : e.Within vis fs :=
  within_iff.2 ⟨by simp [hi], by simp [hc], h⟩

theorem Within.mono (h : e.Within vis fs) (hv : vis ⊆ vis') : e.Within vis' fs :=
  ⟨fun v hm => hv (h.1 v hm), h.2⟩

@[simp] theorem within_plain : e.plain.Within vis fs ↔ e.Within vis fs := by
  simp [Within]

end Expr

namespace Stmt

variable {vis : List VarId} {s : Stmt} {n : Nat} {o : Option Stmt}

mutual

/-- The variables that are visible after the statement and were not before. -/
def opens : Stmt → List VarId
  | .cond _ _ yes no => opensOption no ++ yes.opens
  | .loop _ _ body | .doLoop _ body _ => body.opens
  | .decl _ v _ => [v]
  | _ => []

def opensOption : Option Stmt → List VarId
  | none => []
  | some s => s.opens

end

/-- The variables that are visible after statements and were not before. -/
def opensList : List Stmt → List VarId
  | [] => []
  | s :: ss => opensList ss ++ s.opens

def declaredOption (o : Option Stmt) : List VarId := o.toList.flatMap declared

mutual

/-- The statement mentions only what is visible and calls only the given functions, and what it
declares is numbered from `n` on in order of resolution. -/
def Scoped (fs : List FunctionId) : Stmt → List VarId → Nat → Prop
  | .block _ body, vis, n => ScopedList fs body vis n
  | .cond _ c yes no, vis, n =>
    c.Within vis fs ∧ yes.Scoped fs vis n ∧
      ScopedOption fs no (yes.opens ++ vis) (n + yes.declared.length)
  | .loop _ c body, vis, n => c.Within vis fs ∧ body.Scoped fs vis n
  | .doLoop _ body c, vis, n => body.Scoped fs vis n ∧ c.Within (body.opens ++ vis) fs
  | .forLoop _ init c update body, vis, n =>
    ScopedOption fs init vis n ∧ (∀ e ∈ c, e.Within (opensOption init ++ vis) fs) ∧
      ScopedOption fs update (opensOption init ++ vis) (n + (declaredOption init).length) ∧
      body.Scoped fs (opensOption update ++ (opensOption init ++ vis))
        (n + (declaredOption init).length + (declaredOption update).length)
  | .decl _ v init, vis, n => (∀ e ∈ init, e.Within vis fs) ∧ v.index = n
  | .assign _ lhs rhs, vis, _ => lhs.Within vis fs ∧ rhs.Within vis fs
  | .expr _ e, vis, _ | .require _ e, vis, _ => e.Within vis fs
  | .ret _ e, vis, _ => ∀ x ∈ e, Expr.Within vis fs x
  | .leave _, _, _ | .next _, _, _ => True

def ScopedList (fs : List FunctionId) : List Stmt → List VarId → Nat → Prop
  | [], _, _ => True
  | s :: ss, vis, n =>
    s.Scoped fs vis n ∧ ScopedList fs ss (s.opens ++ vis) (n + s.declared.length)

def ScopedOption (fs : List FunctionId) : Option Stmt → List VarId → Nat → Prop
  | none, _, _ => True
  | some s, vis, n => s.Scoped fs vis n

end

theorem append_subset_append {α : Type} {a b : List α} (l : List α) (h : a ⊆ b) :
    l ++ a ⊆ l ++ b :=
  List.append_subset_of_subset_of_subset (List.subset_append_left _ _)
    (List.Subset.trans h (List.subset_append_right _ _))

variable {fs : List FunctionId}

mutual

theorem Scoped.mono : ∀ {s : Stmt} {vis vis' : List VarId} {n : Nat}, s.Scoped fs vis n →
    vis ⊆ vis' → s.Scoped fs vis' n
  | .block _ _, _, _, _, h, hv => ScopedList.mono h hv
  | .cond _ _ _ _, _, _, _, ⟨hc, hy, hn⟩, hv =>
    ⟨hc.mono hv, hy.mono hv, hn.mono (append_subset_append _ hv)⟩
  | .loop _ _ _, _, _, _, ⟨hc, hb⟩, hv => ⟨hc.mono hv, hb.mono hv⟩
  | .doLoop _ _ _, _, _, _, ⟨hb, hc⟩, hv =>
    ⟨hb.mono hv, hc.mono (append_subset_append _ hv)⟩
  | .forLoop _ _ _ _ _, _, _, _, ⟨hi, hc, hu, hb⟩, hv =>
    have hv' := append_subset_append _ hv
    ⟨hi.mono hv, fun e he => (hc e he).mono hv', hu.mono hv',
      hb.mono (append_subset_append _ hv')⟩
  | .decl _ _ _, _, _, _, ⟨hi, hn⟩, hv => ⟨fun e he => (hi e he).mono hv, hn⟩
  | .assign _ _ _, _, _, _, ⟨hl, hr⟩, hv => ⟨hl.mono hv, hr.mono hv⟩
  | .expr _ _, _, _, _, h, hv | .require _ _, _, _, _, h, hv => Expr.Within.mono h hv
  | .ret _ _, _, _, _, h, hv => fun e he => (h e he).mono hv
  | .leave _, _, _, _, _, _ | .next _, _, _, _, _, _ => trivial

theorem ScopedList.mono : ∀ {ss : List Stmt} {vis vis' : List VarId} {n : Nat},
    ScopedList fs ss vis n → vis ⊆ vis' → ScopedList fs ss vis' n
  | [], _, _, _, _, _ => trivial
  | _ :: _, _, _, _, ⟨h, hs⟩, hv =>
    ⟨h.mono hv, hs.mono (append_subset_append _ hv)⟩

theorem ScopedOption.mono : ∀ {o : Option Stmt} {vis vis' : List VarId} {n : Nat},
    ScopedOption fs o vis n → vis ⊆ vis' → ScopedOption fs o vis' n
  | none, _, _, _, _, _ => trivial
  | some _, _, _, _, h, hv => Scoped.mono h hv

end

@[simp] theorem declared_block (i : Info) (body : List Stmt) :
    (block i body).declared = body.flatMap declared := declared_eq _

@[simp] theorem declared_cond (i : Info) (c : Expr) (yes : Stmt) (no : Option Stmt) :
    (cond i c yes no).declared = yes.declared ++ declaredOption no := declared_eq _

@[simp] theorem declared_loop (i : Info) (c : Expr) (body : Stmt) :
    (loop i c body).declared = body.declared := by
  simp [declared_eq (loop i c body), declared?, children]

@[simp] theorem declared_doLoop (i : Info) (c : Expr) (body : Stmt) :
    (doLoop i body c).declared = body.declared := by
  simp [declared_eq (doLoop i body c), declared?, children]

@[simp] theorem declared_forLoop (i : Info) (init : Option Stmt) (c : Option Expr)
    (update : Option Stmt) (body : Stmt) : (forLoop i init c update body).declared =
      declaredOption init ++ (body.declared ++ declaredOption update) := by
  simp [declared_eq (forLoop i init c update body), declared?, children, declaredOption]

@[simp] theorem declared_decl (i : Info) (v : VarId) (init : Option Expr) :
    (decl i v init).declared = [v] := rfl

@[simp] theorem declaredOption_none : declaredOption none = [] := rfl

@[simp] theorem declaredOption_some (s : Stmt) : declaredOption (some s) = s.declared := by
  simp [declaredOption]

mutual

/-- Declarations have the numbers from the start on, each once. -/
theorem Scoped.perm : ∀ {s : Stmt} {vis : List VarId} {n : Nat}, s.Scoped fs vis n →
    (s.declared.map VarId.index).Perm (List.range' n s.declared.length)
  | .block _ body, _, _, h => by simpa using ScopedList.perm h
  | .cond _ _ yes no, _, n, ⟨_, hy, hn⟩ => by
    rw [declared_cond, List.map_append, List.length_append, ← List.range'_append_1]
    exact hy.perm.append hn.perm
  | .loop _ _ body, _, _, ⟨_, hb⟩ | .doLoop _ body _, _, _, ⟨hb, _⟩ => by simpa using hb.perm
  | .forLoop _ init _ update body, _, n, ⟨hi, _, hu, hb⟩ => by
    -- the update is resolved before the body
    have hrest := List.perm_append_comm.trans (hu.perm.append hb.perm)
    rw [declared_forLoop, List.map_append, List.map_append, List.length_append, List.length_append,
      Nat.add_comm body.declared.length, ← List.range'_append_1, ← List.range'_append_1]
    exact hi.perm.append hrest
  | .decl _ w _, _, n, ⟨_, hn⟩ => by simp [hn]
  | .assign _ _ _, _, _, _ | .expr _ _, _, _, _ | .require _ _, _, _, _ | .ret _ _, _, _, _
  | .leave _, _, _, _ | .next _, _, _, _ => .nil

theorem ScopedList.perm : ∀ {ss : List Stmt} {vis : List VarId} {n : Nat},
    ScopedList fs ss vis n →
    ((ss.flatMap declared).map VarId.index).Perm (List.range' n (ss.flatMap declared).length)
  | [], _, _, _ => .nil
  | s :: ss, _, n, ⟨h, hs⟩ => by
    rw [List.flatMap_cons, List.map_append, List.length_append, ← List.range'_append_1]
    exact h.perm.append hs.perm

theorem ScopedOption.perm : ∀ {o : Option Stmt} {vis : List VarId} {n : Nat},
    ScopedOption fs o vis n →
    ((declaredOption o).map VarId.index).Perm (List.range' n (declaredOption o).length)
  | none, _, _, _ => .nil
  | some s, _, _, h => by simpa using Scoped.perm h

end

theorem Scoped.bounds (h : s.Scoped fs vis n) :
    ∀ v ∈ s.declared, n ≤ v.index ∧ v.index < n + s.declared.length :=
  fun _ hv => List.mem_range'_1.1 (h.perm.subset (List.mem_map_of_mem hv))

theorem Scoped.nodup (h : s.Scoped fs vis n) : s.declared.Nodup :=
  (h.perm.nodup_iff.2 List.nodup_range').of_map _

mutual

/-- What stays visible was declared. -/
theorem opens_subset : ∀ s : Stmt, s.opens ⊆ s.declared
  | .block _ _ => by simp [opens]
  | .cond _ _ yes no => by
    simp only [opens, declared_cond]
    exact List.append_subset_of_subset_of_subset
      (List.Subset.trans (opensOption_subset no) (List.subset_append_right _ _))
      (List.Subset.trans (opens_subset yes) (List.subset_append_left _ _))
  | .loop _ _ body | .doLoop _ body _ => by simpa [opens] using opens_subset body
  | .forLoop _ _ _ _ _ | .assign _ _ _ | .expr _ _ | .require _ _ | .ret _ _ | .leave _
  | .next _ | .decl _ v _ => by simp [opens]

theorem opensOption_subset : ∀ o : Option Stmt, opensOption o ⊆ declaredOption o
  | none => by simp [opensOption]
  | some s => by simpa [opensOption] using opens_subset s

end

/-- Everything visible was declared before the next declaration. -/
def Below (vis : List VarId) (n : Nat) : Prop := ∀ v ∈ vis, v.index < n

theorem Below.opens (h : Below vis n) (hs : s.Scoped fs vis n) :
    Below (s.opens ++ vis) (n + s.declared.length) := by
  intro v hv
  rcases List.mem_append.1 hv with hv | hv
  · exact (hs.bounds v (opens_subset s hv)).2
  · exact Nat.lt_add_right _ (h v hv)

theorem Below.opensOption (h : Below vis n) (hs : ScopedOption fs o vis n) :
    Below (opensOption o ++ vis) (n + (declaredOption o).length) := by
  cases o with
  | none => exact h
  | some s =>
    rw [declaredOption_some]
    exact h.opens hs

theorem ScopedList.mem : ∀ {ss : List Stmt} {vis : List VarId} {n : Nat},
    ScopedList fs ss vis n → ∀ s ∈ ss, ∃ vis' n', s.Scoped fs vis' n' ∧
      vis' ⊆ ss.flatMap declared ++ vis ∧ (Below vis n → Below vis' n')
  | s :: ss, vis, n, ⟨h, hs⟩, c, hc => by
    rw [List.flatMap_cons]
    rcases List.mem_cons.1 hc with rfl | hc
    · exact ⟨vis, n, h, List.subset_append_right _ _, id⟩
    · obtain ⟨vis', n', hc, hsub, hbelow⟩ := hs.mem c hc
      refine ⟨vis', n', hc, List.Subset.trans hsub ?_, fun hb => hbelow (hb.opens h)⟩
      intro v hv
      have := @opens_subset s v
      simp only [List.mem_append] at hv ⊢
      tauto

theorem opensOption_forLoop_subset (i : Info) (init : Option Stmt) (c : Option Expr)
    (update : Option Stmt) (body : Stmt) (vis : List VarId) :
    opensOption init ++ vis ⊆ (forLoop i init c update body).declared ++ vis := by
  intro v hv
  have := @opensOption_subset init v
  simp only [declared_forLoop, List.mem_append] at hv ⊢
  tauto

/-- What stands right in a scoped statement is within what was visible before or is declared in
it. -/
theorem Scoped.roots (h : s.Scoped fs vis n) :
    ∀ r ∈ s.roots, r.2.Within (s.declared ++ vis) fs := by
  have hright : vis ⊆ s.declared ++ vis := List.subset_append_right _ _
  cases s with
  | block i body => rintro _ ⟨⟩
  | cond i c yes no | loop i c body => simpa [Stmt.roots] using h.1.mono hright
  | doLoop i body c =>
    have hopen : body.opens ++ vis ⊆ (doLoop i body c).declared ++ vis := by
      intro v hv
      have := @opens_subset body v
      simp only [declared_doLoop, List.mem_append] at hv ⊢
      tauto
    simpa [Stmt.roots] using h.2.mono hopen
  | forLoop i init c update body =>
    intro r hr
    obtain ⟨e, he, rfl⟩ := List.mem_map.1 hr
    exact (h.2.1 e (Option.mem_toList.1 he)).mono
      (opensOption_forLoop_subset i init c update body vis)
  | decl i v init =>
    intro r hr
    obtain ⟨e, he, rfl⟩ := List.mem_map.1 hr
    exact (h.1 e (Option.mem_toList.1 he)).mono hright
  | assign i lhs rhs => simpa [Stmt.roots] using ⟨h.1.mono hright, h.2.mono hright⟩
  | expr i e | require i e => simpa [Stmt.roots] using Expr.Within.mono h hright
  | ret i e =>
    intro r hr
    obtain ⟨x, hx, rfl⟩ := List.mem_map.1 hr
    exact (h x (Option.mem_toList.1 hx)).mono hright
  | leave i | next i => rintro _ ⟨⟩

/-- The statements right inside a scoped statement are scoped. -/
theorem Scoped.children (h : s.Scoped fs vis n) :
    ∀ c ∈ s.children, ∃ vis' n', c.Scoped fs vis' n' ∧ vis' ⊆ s.declared ++ vis ∧
      (Below vis n → Below vis' n') := by
  have hright : vis ⊆ s.declared ++ vis := List.subset_append_right _ _
  cases s with
  | block i body =>
    rw [declared_block]
    exact ScopedList.mem h
  | cond i c yes no =>
    obtain ⟨-, hy, hn⟩ := h
    intro s hs
    rcases List.mem_cons.1 hs with rfl | hs
    · exact ⟨vis, n, hy, hright, id⟩
    · obtain rfl := Option.mem_toList.1 hs
      refine ⟨_, _, hn, ?_, fun hb => hb.opens hy⟩
      intro v hv
      have := @opens_subset yes v
      simp only [declared_cond, List.mem_append] at hv ⊢
      tauto
  | loop i c body =>
    intro s hs
    obtain rfl := List.mem_singleton.1 hs
    exact ⟨vis, n, h.2, hright, id⟩
  | doLoop i body c =>
    intro s hs
    obtain rfl := List.mem_singleton.1 hs
    exact ⟨vis, n, h.1, hright, id⟩
  | forLoop i init c update body =>
    obtain ⟨hi, -, hu, hb⟩ := h
    have hinit := opensOption_forLoop_subset i init c update body vis
    intro s hs
    simp only [Stmt.children, List.mem_append, List.mem_cons, Option.mem_toList] at hs
    rcases hs with rfl | rfl | rfl
    · exact ⟨_, _, hi, hright, id⟩
    · refine ⟨_, _, hb, ?_, fun hbelow => (hbelow.opensOption hi).opensOption hu⟩
      intro v hv
      have := @opensOption_subset update v
      have := @hinit v
      simp only [declared_forLoop, List.mem_append] at *
      tauto
    · exact ⟨_, _, hu, hinit, fun hbelow => hbelow.opensOption hi⟩
  | decl i v init | assign i lhs rhs | expr i e | require i e | ret i e | leave i | next i =>
    rintro _ ⟨⟩

/-- All parts of a scoped statement are scoped. -/
theorem Scoped.walk (h : s.Scoped fs vis n) :
    ∀ t ∈ s.walk, ∃ vis' n', t.Scoped fs vis' n' ∧ vis' ⊆ s.declared ++ vis ∧
      (Below vis n → Below vis' n') := by
  induction s using Stmt.induct_children generalizing vis n with
  | h s ih =>
    intro t ht
    rcases mem_walk_iff.1 ht with rfl | ⟨c, hc, ht⟩
    · exact ⟨vis, n, h, List.subset_append_right _ _, id⟩
    · obtain ⟨vis', n', hc', hsub, hbelow⟩ := h.children c hc
      obtain ⟨vis'', n'', ht', hsub', hbelow'⟩ := ih c hc hc' t ht
      refine ⟨vis'', n'', ht', List.Subset.trans hsub' ?_, hbelow' ∘ hbelow⟩
      refine List.append_subset_of_subset_of_subset ?_ hsub
      intro v hv
      rw [declared_eq, List.mem_append, List.mem_append]
      exact .inl (.inr (List.mem_flatMap.2 ⟨c, hc, hv⟩))

section Alike

variable {I : Info → Info → Prop} {R : Expr → Expr → Prop}

mutual

theorem Alike.opens_eq : ∀ {s s' : Stmt}, Alike I R s s' → s'.opens = s.opens
  | _, _, .cond _ _ hy hn => by rw [opens, opens, hy.opens_eq, hn.opens_eq]
  | _, _, .loop _ _ hb | _, _, .doLoop _ hb _ => by rw [opens, opens, hb.opens_eq]
  | _, _, .block _ _ | _, _, .forLoop _ _ _ _ _ | _, _, .decl _ _ | _, _, .assign _ _ _
  | _, _, .expr _ _ | _, _, .require _ _ | _, _, .ret _ _ | _, _, .leave _ | _, _, .next _ => rfl

theorem AlikeOption.opens_eq :
    ∀ {o o' : Option Stmt}, AlikeOption I R o o' → opensOption o' = opensOption o
  | _, _, .none => rfl
  | _, _, .some h => h.opens_eq

end

theorem AlikeOption.declared_eq {o' : Option Stmt} (h : AlikeOption I R o o') :
    declaredOption o' = declaredOption o := by
  cases h with
  | none => rfl
  | some h => simp [h.declared_eq]

mutual

/-- Statements with the same variables and calls in the same places are scoped alike. -/
theorem Alike.scoped (hR : ∀ e e' vis, R e e' → e.Within vis fs → e'.Within vis fs) :
    ∀ {s s' : Stmt} {vis : List VarId} {n : Nat}, Alike I R s s' → s.Scoped fs vis n →
      s'.Scoped fs vis n
  | _, _, _, _, .block _ hb, h => AlikeList.scoped hR hb h
  | _, _, _, _, .cond _ hc hy hn, ⟨h₁, h₂, h₃⟩ => by
    refine ⟨hR _ _ _ hc h₁, hy.scoped hR h₂, ?_⟩
    rw [hy.opens_eq, hy.declared_eq]
    exact hn.scoped hR h₃
  | _, _, _, _, .loop _ hc hb, ⟨h₁, h₂⟩ => ⟨hR _ _ _ hc h₁, hb.scoped hR h₂⟩
  | _, _, _, _, .doLoop _ hb hc, ⟨h₁, h₂⟩ => by
    refine ⟨hb.scoped hR h₁, ?_⟩
    rw [hb.opens_eq]
    exact hR _ _ _ hc h₂
  | _, _, _, _, .forLoop _ hi hc hu hb, ⟨h₁, h₂, h₃, h₄⟩ => by
    rw [Scoped, hi.opens_eq, hi.declared_eq, hu.opens_eq, hu.declared_eq]
    refine ⟨hi.scoped hR h₁, ?_, hu.scoped hR h₃, hb.scoped hR h₄⟩
    cases hc with
    | none => exact nofun
    | some hc =>
      rintro _ ⟨⟩
      exact hR _ _ _ hc (h₂ _ rfl)
  | _, _, _, _, .decl _ hi, ⟨h₁, h₂⟩ => by
    refine ⟨?_, h₂⟩
    cases hi with
    | none => exact nofun
    | some hi =>
      rintro _ ⟨⟩
      exact hR _ _ _ hi (h₁ _ rfl)
  | _, _, _, _, .assign _ hl hr, ⟨h₁, h₂⟩ => ⟨hR _ _ _ hl h₁, hR _ _ _ hr h₂⟩
  | _, _, _, _, .expr _ he, h | _, _, _, _, .require _ he, h => hR _ _ _ he h
  | _, _, _, _, .ret _ he, h => by
    cases he with
    | none => exact nofun
    | some he =>
      rintro _ ⟨⟩
      exact hR _ _ _ he (h _ rfl)
  | _, _, _, _, .leave _, _ | _, _, _, _, .next _, _ => trivial

theorem AlikeList.scoped (hR : ∀ e e' vis, R e e' → e.Within vis fs → e'.Within vis fs) :
    ∀ {ss ss' : List Stmt} {vis : List VarId} {n : Nat}, AlikeList I R ss ss' →
      ScopedList fs ss vis n → ScopedList fs ss' vis n
  | _, _, _, _, .nil, _ => trivial
  | _, _, _, _, .cons hs hss, ⟨h₁, h₂⟩ => by
    refine ⟨hs.scoped hR h₁, ?_⟩
    rw [hs.opens_eq, hs.declared_eq]
    exact hss.scoped hR h₂

theorem AlikeOption.scoped (hR : ∀ e e' vis, R e e' → e.Within vis fs → e'.Within vis fs) :
    ∀ {o o' : Option Stmt} {vis : List VarId} {n : Nat}, AlikeOption I R o o' →
      ScopedOption fs o vis n → ScopedOption fs o' vis n
  | _, _, _, _, .none, _ => trivial
  | _, _, _, _, .some hs, h => Alike.scoped hR hs h

end

end Alike

theorem declared_subset_of_mem_walk {t : Stmt} (h : t ∈ s.walk) : t.declared ⊆ s.declared := by
  refine forall_walk_of (P := (·.declared ⊆ s.declared)) (List.Subset.refl _) ?_ t h
  intro t ht c hc v hv
  refine ht ?_
  rw [declared_eq, List.mem_append]
  exact .inr (List.mem_flatMap.2 ⟨c, hc, hv⟩)

theorem nodup_declared_of_mem_walk {t : Stmt} (hs : s.declared.Nodup) (h : t ∈ s.walk) :
    t.declared.Nodup := by
  refine forall_walk_of (P := (·.declared.Nodup)) hs (fun hs c hc => ?_) t h
  rw [declared_eq] at hs
  exact (List.nodup_flatMap.1 (List.nodup_append'.1 hs).2.1).1 c hc

/-- Everything in a scoped statement mentions only what was visible before or is declared in it. -/
theorem Scoped.within (h : s.Scoped fs vis n) :
    ∀ t ∈ s.walk, ∀ r ∈ t.roots, r.2.Within (s.declared ++ vis) fs := by
  intro t ht r hr
  obtain ⟨vis', n', ht', hsub, -⟩ := h.walk t ht
  refine (ht'.roots r hr).mono (List.append_subset_of_subset_of_subset ?_ hsub)
  exact List.Subset.trans (declared_subset_of_mem_walk ht) (List.subset_append_left _ _)

end Stmt

/-! ## Scoped functions -/

namespace Variable

variable {vars more : List Variable} {names : List String} {vs : List VarId}

/-- The record of a variable says that it is of a kind. -/
def HasKind (vars : List Variable) (k : Kind) (v : VarId) : Prop :=
  ∃ x, vars[v.index]? = some x ∧ x.kind = k

/-- The variables that are recorded next are of the kind of their records. -/
theorem hasKind_append_right {k : Kind} {v : VarId} (hk : ∀ x ∈ more, x.kind = k)
    (hlo : vars.length ≤ v.index) (hhi : v.index < vars.length + more.length) :
    HasKind (vars ++ more) k v := by
  have hlt : v.index - vars.length < more.length := by omega
  refine ⟨more[v.index - vars.length], ?_, hk _ (List.getElem_mem hlt)⟩
  rw [List.getElem?_append_right hlo, List.getElem?_eq_getElem hlt]

theorem HasKind.append {k : Kind} {v : VarId} (h : HasKind vars k v) :
    HasKind (vars ++ more) k v := by
  obtain ⟨x, hx, hk⟩ := h
  refine ⟨x, ?_, hk⟩
  rw [List.getElem?_append_left (List.getElem?_eq_some_iff.1 hx).1, hx]

/-- The records of variables have these names, each once. -/
structure Named (vars : List Variable) (vs : List VarId) (names : List String) : Prop where
  eq : vs.map (fun v => vars[v.index]?.map Variable.name) = names.map some
  nodup : names.Nodup

theorem Named.append (h : Named vars vs names) : Named (vars ++ more) vs names := by
  refine ⟨(List.map_congr_left fun v hv => ?_).trans h.eq, h.nodup⟩
  have hmem : vars[v.index]?.map Variable.name ∈ names.map some := by
    rw [← h.eq]
    exact List.mem_map_of_mem hv
  obtain ⟨x, -, hx⟩ := List.mem_map.1 hmem
  obtain ⟨y, hy, -⟩ := Option.map_eq_some_iff.1 hx.symm
  rw [List.getElem?_append_left (List.getElem?_eq_some_iff.1 hy).1]

/-- Variables that follow others have the names of their records. -/
theorem named_of_recorded {new : List Variable} (h : (new.map Variable.name).Nodup) :
    Named (vars ++ new) ((List.range new.length).map fun i => ⟨vars.length + i⟩)
      (new.map Variable.name) := by
  refine ⟨List.ext_getElem? fun i => ?_, h⟩
  by_cases hi : i < new.length
  · simp [hi]
  · rw [List.getElem?_eq_none (by simpa using hi), List.getElem?_eq_none (by simpa using hi)]

theorem Named.varName {p : Program} (h : Named p.vars vs names) : vs.map p.varName = names := by
  have heq := h.eq
  rw [← List.forall₂_eq_eq_eq, List.forall₂_map_left_iff, List.forall₂_map_right_iff] at heq
  rw [← List.forall₂_eq_eq_eq, List.forall₂_map_left_iff]
  refine heq.imp fun v x hv => ?_
  obtain ⟨y, hy, hname⟩ := Option.map_eq_some_iff.1 hv
  rw [Program.varName, Program.var, List.getD_eq_getElem?_getD, hy]
  exact hname

end Variable

/-- What name resolution guarantees about a function, given the functions that it may call, the
state of its contract, the records of all variables, and the number of its first local. -/
structure Function.Scoped (f : Function) (fs : List FunctionId) (state : List VarId)
    (vars : List Variable) (n : Nat) : Prop where
  body : f.body.Scoped fs (f.params ++ state) n
  isBlock : ∃ i ss, f.body = .block i ss
  visible : ∀ v ∈ f.params ++ state, v.index < n
  bound : n + f.body.declared.length ≤ vars.length
  locals : ∀ v ∈ f.body.declared, Variable.HasKind vars .local_ v
  params : ∀ v ∈ f.params, Variable.HasKind vars .param v
  names : ∃ names, Variable.Named vars f.params names
  returns : ∀ t ∈ f.returns, t.IsDeclarable

theorem Function.Scoped.append {f : Function} {fs : List FunctionId} {state : List VarId}
    {vars more : List Variable} {n : Nat} (h : f.Scoped fs state vars n) :
    f.Scoped fs state (vars ++ more) n where
  body := h.body
  isBlock := h.isBlock
  visible := h.visible
  bound := by
    rw [List.length_append]
    exact Nat.le_trans h.bound (Nat.le_add_right _ _)
  locals v hv := (h.locals v hv).append
  params v hv := (h.params v hv).append
  names := h.names.imp fun _ => Variable.Named.append
  returns := h.returns

/-- The order in which the state is declared does not matter. -/
theorem Function.Scoped.congr {f : Function} {fs : List FunctionId} {state state' : List VarId}
    {vars : List Variable} {n : Nat} (h : f.Scoped fs state vars n)
    (hs : ∀ v, v ∈ state ↔ v ∈ state') : f.Scoped fs state' vars n where
  body := h.body.mono (Stmt.append_subset_append _ fun v hv => (hs v).1 hv)
  isBlock := h.isBlock
  visible v hv := h.visible v (by simpa [hs] using hv)
  bound := h.bound
  locals := h.locals
  params := h.params
  names := h.names
  returns := h.returns

/-- All expressions of all functions are as they were written. -/
def Program.Written (p : Program) : Prop := ∀ f ∈ p.functions, f.body.Written

/-- All initializers are as they were written. -/
def Program.InitWritten (p : Program) : Prop := ∀ x ∈ p.vars, ∀ e ∈ x.init, e.Written

/-- What name resolution guarantees about a program. -/
structure Program.Scoped (p : Program) : Prop where
  function : ∀ f, f.index < p.functions.length → ∃ fs n,
    (p.function f).Scoped fs (p.contract (p.function f).contract).stateVars p.vars n ∧
    ∀ g ∈ fs, g.index < p.functions.length ∧ (p.function g).isConstructor = false ∧
      (p.function g).contract = (p.function f).contract
  mem : ∀ f, f.index < p.functions.length →
    (p.function f).contract.index < p.contracts.length ∧
    f ∈ (p.contract (p.function f).contract).functions
  contract : ∀ c, ∀ f ∈ (p.contract c).functions,
    f.index < p.functions.length ∧ (p.function f).contract = c
  nodup : ∀ c, (p.contract c).functions.Nodup
  state : ∀ c, ∀ v ∈ (p.contract c).stateVars, Variable.HasKind p.vars .state v
  distinct : (p.contracts.flatMap Contract.stateVars).Nodup
  types : ∀ x ∈ p.vars, x.type.IsDeclarable

end Shroud
