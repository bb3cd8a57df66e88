import Shroud.Proofs.Semantics.Reach

/-! # What labels denote

A label stands for the sender or for the value of a variable. `Machine.Holds` says that labels of
one class denote equal values in a store. The operations of the alias analysis keep this, if the
store changes as they assume: a test unites labels that denote equal values, since the implicit
conversions before a comparison change neither numbers nor truth values.
-/

namespace Shroud

/-! ## Conversions that change no value -/

/-- A number that is small enough for one modulus is so for a larger one. -/
theorem bmod_bmod_of_le {m n : Nat} (k : Int) (hm : 0 < m) (h : m ≤ n) :
    (k.bmod m).bmod n = k.bmod m := by
  have hlow := @Int.le_bmod k m hm
  have hhigh := @Int.bmod_lt k m hm
  exact Int.bmod_eq_of_le (by omega) (by omega)

namespace DataType

variable {t u : DataType}

/-- What a number of one type can be converted to holds it as it is. -/
theorem wrap_wrap_of_convertsTo (hd : t.IsDeclarable) (h : t.convertsTo u = true) (k : Int) :
    u.wrap (t.wrap k) = t.wrap k := by
  cases t with
  | uint m =>
    have hpos : (0 : Int) < 2 ^ m := by positivity
    have hlow : 0 ≤ k % 2 ^ m := Int.emod_nonneg k hpos.ne'
    have hhigh : k % 2 ^ m < 2 ^ m := Int.emod_lt_of_pos k hpos
    cases u with
    | uint n =>
      have hmn : (2 : Int) ^ m ≤ 2 ^ n :=
        pow_le_pow_right₀ (by norm_num) (by simpa [convertsTo] using h)
      exact Int.emod_eq_of_lt hlow (lt_of_lt_of_le hhigh hmn)
    | int n =>
      obtain ⟨j, rfl⟩ := Nat.exists_eq_add_of_lt (show m < n by simpa [convertsTo] using h)
      have hmn : (2 : Int) ^ m ≤ 2 ^ (m + j) := pow_le_pow_right₀ (by norm_num) (by omega)
      have hcast : ((2 ^ (m + j + 1) : Nat) : Int) = 2 * 2 ^ (m + j) := by
        push_cast
        ring
      simp only [wrap]
      refine Int.bmod_eq_of_le ?_ ?_ <;> rw [hcast] <;> omega
    | _ => simp [convertsTo] at h
  | int m =>
    cases u with
    | int n =>
      exact bmod_bmod_of_le k (by positivity)
        (Nat.pow_le_pow_right (by norm_num) (by simpa [convertsTo] using h))
    | _ => simp [convertsTo] at h
  | address | addressPayable => cases u <;> simp_all [convertsTo, wrap]
  | bool => rw [← show bool = u by simpa [convertsTo] using h, wrap_wrap]
  | mapping k l v => rw [← show mapping k l v = u by simpa [convertsTo] using h, wrap_wrap]
  | array e n => rw [← show array e n = u by simpa [convertsTo] using h, wrap_wrap]
  | _ => cases hd

/-- A value that can stand where another type is expected is the same number or truth value
there. -/
theorem datum_convert (hd : t.IsDeclarable) (hp : t.isPrimitive = true) (hu : u.isPrimitive = true)
    (h : t.convertsTo u = true) {a : Value} (ha : t.convert a = a) :
    (u.convert a).datum = a.datum := by
  rw [convert_of_isPrimitive hp] at ha
  have hbool : u.isBool = t.isBool := by
    have hl := hd.isLiteral_eq
    cases t <;> cases u <;> simp_all [convertsTo, isBool, isLiteral]
  rw [convert_of_isPrimitive hu, ← ha]
  simp only [scalar, hbool]
  split
  · rfl
  · simp only [Value.datum, Literal.toInt, wrap_wrap_of_convertsTo hd h]

theorem truth_convert (h : t.isBool = true) (a : Value) :
    (t.convert a).datum.truth = a.datum.truth := by
  rw [convert_of_isPrimitive (by simp [isPrimitive, h]), scalar, if_pos h]
  rfl

theorem isBool_of_convertsTo (h : t.convertsTo u = true) (hu : u.isBool = true) :
    t.isBool = true := by
  cases t <;> cases u <;> simp_all [convertsTo, canRepresent, isBool]

end DataType

namespace Operator

variable {checked : Bool} {a b r : Value}

theorem apply_eq (h : Operator.eq.apply checked [a, b] = some r) :
    r = .bool (a.datum = b.datum) := by
  unfold apply at h
  split at h <;> exact (Option.some.inj h).symm

theorem apply_ne (h : Operator.ne.apply checked [a, b] = some r) :
    r = .bool (a.datum ≠ b.datum) := by
  unfold apply at h
  split at h <;> exact (Option.some.inj h).symm

theorem apply_not (h : Operator.not.apply checked [a] = some r) :
    ∃ b, a.datum = .bool b ∧ r = .bool !b := by
  simp only [apply, List.map_cons, List.map_nil] at h
  cases hd : a.datum with
  | bool b =>
    rw [hd] at h
    refine ⟨b, rfl, ?_⟩
    split at h <;> exact (Option.some.inj h).symm
  | number n =>
    rw [hd] at h
    split at h <;> cases h

end Operator

/-! ## Conditions with effects -/

/-- The expression calls nothing that changes a variable that is known to equal something. -/
def Expr.Leaves (p : Program) (M : FunctionId → List VarId) (e : Expr) (s : Alias.Classes) : Prop :=
  ∀ v y, s.Related (.var v) y → y ≠ .var v → (p.var v).type.type.isPrimitive = true → e.Quiet M v

section

variable {p : Program} {M : FunctionId → List VarId} {s : Alias.Classes} {e x : Expr}

theorem Expr.Leaves.child (h : e.Leaves p M s) (hx : x ∈ e.children) : x.Leaves p M s :=
  fun v y hvy hne hprim f hf => h v y hvy hne hprim f (mem_callees_of_mem_children hx hf)

namespace Alias

mutual

/-- What a condition says is still true once it has the given value: no function that is called in
it changes a variable of an equality that was tested before. -/
def isLasting (M : FunctionId → List VarId) (holds : Bool) : Expr → Bool
  | .builtin _ op args _ => isLastingOp M holds op args
  | _ => true

def isLastingOp (M : FunctionId → List VarId) (holds : Bool) (op : Operator) : List Expr → Bool
  | [a] => match op with
    | .paren => isLasting M holds a
    | .not => isLasting M (!holds) a
    | _ => true
  | [a, b] => match op, holds with
    | .and, true | .or, false => isLasting M holds a && isLasting M holds b &&
        b.callees.all fun f => (M f).all fun v => .var v ∉ learned holds a
    | _, _ => true
  | _ => true

end

mutual

theorem isLasting_of_quiet (holds : Bool) : ∀ {e : Expr}, (∀ f ∈ e.callees, M f = []) →
    isLasting M holds e = true
  | .builtin i op args b, h => by
    refine isLastingOp_of_quiet holds op fun e he f hf => h f ?_
    exact Expr.mem_callees_of_mem_children (e := .builtin i op args b) he hf
  | .bool _ _, _ | .number _ _, _ | .me _, _ | .ident _ _, _ | .call _ _ _, _ | .index _ _ _, _
  | .reclassify _ _ _ _, _ | .cast _ _ _ _, _ | .tuple _ _, _ => rfl

theorem isLastingOp_of_quiet (holds : Bool) (op : Operator) : ∀ {args : List Expr},
    (∀ e ∈ args, ∀ f ∈ e.callees, M f = []) → isLastingOp M holds op args = true
  | [], _ => rfl
  | [a], h => by
    unfold isLastingOp
    split
    · exact isLasting_of_quiet holds (h a (by simp))
    · exact isLasting_of_quiet (!holds) (h a (by simp))
    · rfl
  | [a, b], h => by
    have hb : ∀ holds, (b.callees.all fun f => (M f).all fun v => .var v ∉ learned holds a) = true :=
      fun _ => List.all_eq_true.2 fun f hf => by rw [h b (by simp) f hf]; rfl
    unfold isLastingOp
    split
    · rw [isLasting_of_quiet _ (h a (by simp)), isLasting_of_quiet _ (h b (by simp)), hb]
      rfl
    · rw [isLasting_of_quiet _ (h a (by simp)), isLasting_of_quiet _ (h b (by simp)), hb]
      rfl
    · rfl
  | _ :: _ :: _ :: _, _ => rfl

end

/-- An expression that leaves what is known alone leaves alone what a condition adds, if it does not
change what the condition is about. -/
theorem leaves_guard {holds : Bool} (h : e.Leaves p M s)
    (hx : ∀ v, .var v ∈ learned holds x → e.Quiet M v) : e.Leaves p M (guard holds x s) := by
  have hclosed : MergeClosed (fun l => ∀ v, l = .var v → e.Quiet M v) (e.Leaves p M) := by
    intro t l k hl hk _ _ ht v y hvy hne hprim
    have hunited : ∀ l, (∀ v, l = .var v → e.Quiet M v) → t.Related (.var v) l → e.Quiet M v := by
      intro l hl hvl
      by_cases heq : l = .var v
      · exact hl v heq
      · exact ht v l hvl heq hprim
    rcases hvy.of_merge with hvy | ⟨hvl, -⟩ | ⟨hvk, -⟩
    · exact ht v y hvy hne hprim
    · exact hunited l hl hvl
    · exact hunited k hk hvk
  exact hclosed.guard holds x (fun l hl v heq => hx v (heq ▸ hl)) h

end Alias

end

namespace Machine

section

variable {p : Program} (m : Machine p)

/-- The truth value or number that a label denotes: the sender, or the value of a variable that
holds a single value. -/
def denote (σ : Store p) : Label → Option Literal
  | .me => some m.me.datum
  | .all => none
  | .var v => if (p.var v).type.type.isPrimitive then (σ.get v).map Value.datum else none

/-- Labels of one class denote equal values. -/
def Holds (s : Alias.Classes) (σ : Store p) : Prop :=
  ∀ ⦃x y⦄, s.Related x y → ∀ k ∈ m.denote σ x, ∀ l ∈ m.denote σ y, k = l

variable {m} {s t : Alias.Classes} {σ τ : Store p}

theorem denote_var_congr {v : VarId} (h : τ.get v = σ.get v) :
    m.denote τ (.var v) = m.denote σ (.var v) := by
  rw [denote, denote, h]

theorem denote_set_of_ne {v : VarId} {a : Value} {x : Label} (hx : x ≠ .var v) :
    m.denote (σ.set v a) x = m.denote σ x := by
  cases x with
  | me | all => rfl
  | var w => exact denote_var_congr (σ.get_set_of_ne a fun heq => hx (heq ▸ rfl))

variable (h : m.Holds s σ)

include h

theorem Holds.mono (hst : ∀ x y, t.Related x y → s.Related x y) :
    m.Holds t σ := fun x y hxy => h (hst x y hxy)

theorem Holds.same (x y : Label) (hxy : s.same x y = true) :
    ∀ k ∈ m.denote σ x, ∀ l ∈ m.denote σ y, k = l := by
  rcases Partition.related_of_same hxy with rfl | hr
  · exact fun k hk l hl => Option.mem_unique hk hl
  · exact h hr

/-- What is known still holds if the variables that are known to equal something have kept their
values. -/
theorem Holds.congr (hget : ∀ v y, s.Related (.var v) y → y ≠ .var v →
    (p.var v).type.type.isPrimitive = true → τ.get v = σ.get v) : m.Holds s τ := by
  have hden : ∀ x y, s.Related x y → y ≠ x → m.denote τ x = m.denote σ x := by
    intro x y hxy hne
    cases x with
    | me | all => rfl
    | var v =>
      simp only [denote]
      split
      · rw [hget v y hxy hne ‹_›]
      · rfl
  intro x y hxy k hk l hl
  by_cases heq : y = x
  · subst heq
    exact Option.mem_unique hk hl
  · rw [hden x y hxy heq] at hk
    rw [hden y x hxy.symm (Ne.symm heq)] at hl
    exact h hxy k hk l hl

/-- What is known still holds if labels denote nothing new. -/
theorem Holds.of_denote (hden : ∀ x, ∀ k ∈ m.denote τ x, k ∈ m.denote σ x) : m.Holds s τ :=
  fun x y hxy k hk l hl => h hxy k (hden x k hk) l (hden y l hl)

/-- What is known still holds if some variables have no values any more. -/
theorem Holds.restore {vs : List VarId} (hvs : ∀ v ∈ vs, τ.get v = none) :
    m.Holds s (σ.restore τ vs) := by
  refine h.of_denote fun x k hk => ?_
  cases x with
  | me | all => exact hk
  | var v =>
    simp only [denote] at hk ⊢
    split at hk
    · by_cases hv : v ∈ vs
      · rw [Store.get_restore_of_mem hv, hvs v hv] at hk
        cases hk
      · rw [Store.get_restore_of_not_mem hv] at hk
        rwa [if_pos ‹_›]
    · cases hk

variable {M : FunctionId → List VarId}

/-- What is known still holds after an expression that leaves it alone. -/
theorem Holds.evaluated (hm : m.Framed M) {a : Value} (hr : Runs (m.eval e) σ a τ)
    (he : e.Leaves p M s) : m.Holds s τ :=
  h.congr fun v y hvy hne hprim => eval_frame hm hr (he v y hvy hne hprim)

/-- What a lasting condition says about labels holds once it has been evaluated to the value. -/
def Tells (m : Machine p) (M : FunctionId → List VarId) (e : Expr) : Prop :=
  ∀ ⦃σ a τ⦄, Runs (m.eval e) σ a τ → ∀ ⦃s⦄, m.Holds s σ → e.Leaves p M s →
    Alias.isLasting M a.datum.truth e.plain = true →
    m.Holds (Alias.guard a.datum.truth e.plain s) τ

/-! ## The operations of the analysis -/

/-- Labels that denote the same value can be united. -/
theorem Holds.merge {x y : Label} {k : Literal} (hx : m.denote σ x = some k)
    (hy : m.denote σ y = some k) : m.Holds (s.merge x y) σ := by
  intro z w hzw k' hk' l' hl'
  rcases hzw.of_merge with hzw | ⟨hzx, hyw⟩ | ⟨hzy, hxw⟩
  · exact h hzw k' hk' l' hl'
  · exact (h hzx k' hk' k hx).trans (h hyw k hy l' hl')
  · exact (h hzy k' hk' k hy).trans (h hxw k hx l' hl')

theorem Holds.insert (x : Label) : m.Holds (s.insert x) σ := by
  intro z w hzw k hk l hl
  rcases Partition.related_insert_iff.1 hzw with hzw | ⟨rfl, rfl⟩
  · exact h hzw k hk l hl
  · exact Option.mem_unique hk hl

section Changed

variable {v : VarId} (hother : ∀ x, x ≠ .var v → m.denote τ x = m.denote σ x)

include hother

theorem Holds.of_ne {x y : Label} (hxy : s.Related x y) (hx : x ≠ .var v) (hy : y ≠ .var v) :
    ∀ k ∈ m.denote τ x, ∀ l ∈ m.denote τ y, k = l := by
  rw [hother x hx, hother y hy]
  exact h hxy

/-- A variable that gets the value of a label moves to its class. -/
theorem Holds.moveTo (hs : s.Valid) {x : Label}
    (hv : ∀ k ∈ m.denote τ (.var v), m.denote σ x = some k) : m.Holds (s.moveTo (.var v) x) τ := by
  have hmoved : ∀ w, w = .var v ∨ s.Related x w → ∀ k ∈ m.denote τ (.var v),
      ∀ l ∈ m.denote τ w, k = l := by
    intro w hw k hk l hl
    by_cases heq : w = .var v
    · subst heq
      exact Option.mem_unique hk hl
    · rw [hother w heq] at hl
      exact h (hw.resolve_left heq) k (hv k hk) l hl
  intro z w hzw k hk l hl
  rcases (Partition.related_moveTo_iff hs).1 hzw with ⟨hzw, hz, hw⟩ | ⟨rfl, hw⟩ | ⟨rfl, hz⟩
  · exact h.of_ne hother hzw hz hw k hk l hl
  · exact hmoved w hw k hk l hl
  · exact (hmoved z hz l hl k hk).symm

theorem Holds.moveApart (hs : s.Valid) : m.Holds (s.moveApart (.var v)) τ := by
  intro z w hzw k hk l hl
  rcases (Partition.related_moveApart_iff hs).1 hzw with ⟨hzw, hz, hw⟩ | ⟨rfl, rfl⟩
  · exact h.of_ne hother hzw hz hw k hk l hl
  · exact Option.mem_unique hk hl

/-- A new variable is in no class yet. -/
theorem Holds.insert_new (hv : ¬ s.Related (.var v) (.var v)) : m.Holds (s.insert (.var v)) τ := by
  intro z w hzw k hk l hl
  rcases Partition.related_insert_iff.1 hzw with hzw | ⟨rfl, rfl⟩
  · refine h.of_ne hother hzw ?_ ?_ k hk l hl
    · rintro rfl
      exact hv hzw.left
    · rintro rfl
      exact hv hzw.symm.left
  · exact Option.mem_unique hk hl

end Changed

end

/-! ## Expressions that stand for labels -/

variable {env : Typing.Env} {m : Machine env.program} {σ τ : Store env.program} {a : Value}
  {s : Alias.Classes} {e : Expr} {isPrivate : Bool} {i : Expr.Info} {op : Operator}

open Typing

theorem settle_eq {o o' : Owner} {t : DataType} {b : Bool}
    (h : Expr.HasType (.reclassify i e o b) (.mk t o')) (a : Value) : i.settle a = t.convert a := by
  rw [Expr.Info.settle, show i.type? = _ from h]
  rfl

/-- An expression that stands for a label has the value that the label denotes. -/
theorem eval_label (hp : Declares env.program) (he : Typed env e)
    (hprim : e.type.type.isPrimitive = true) {l : Label} (hl : e.plain.label? = some l)
    (h : Runs (m.eval e) σ a τ) : τ = σ ∧ m.denote σ l = some a.datum ∧
      e.type.type.IsDeclarable ∧ e.type.type.convert a = a := by
  induction he generalizing a with
  | me ht =>
    obtain ⟨rfl, rfl⟩ := runs_me.1 h
    cases hl
    rw [ht.type_eq]
    exact ⟨rfl, rfl, trivial, DataType.scalar_datum_scalar _ _⟩
  | @ident i v ht =>
    obtain ⟨hv, rfl⟩ := runs_ident.1 h
    cases hl
    rw [ht.type_eq] at hprim ⊢
    refine ⟨rfl, ?_, OwnedType.isDeclarable_iff.1 (hp.vars v), τ.typed v a hv⟩
    rw [denote, if_pos hprim, hv]
    rfl
  | raise _ _ _ _ ht ih =>
    rw [ht.type_eq] at hprim ⊢
    obtain ⟨c, hc, rfl⟩ := runs_reclassify.1 h
    obtain ⟨rfl, hden, hde, hval⟩ := ih hprim hl hc
    rw [settle_eq ht, hval]
    exact ⟨rfl, hden, hde, hval⟩
  | @convert i e t _ hpe hd htp hc ht ih =>
    obtain ⟨c, hc', rfl⟩ := runs_cast.1 h
    obtain ⟨rfl, hden, hde, hval⟩ := ih hpe hl hc'
    rw [ht.type_eq]
    refine ⟨rfl, ?_, hd, DataType.convert_convert t c⟩
    rw [hden, DataType.datum_convert hde hpe htp hc hval]
  | _ => cases hl

/-- A variable that gets the value of an expression that stands for a label denotes the same as the
label. -/
theorem denote_set_label (hp : Declares env.program) (he : Typed env e) {v : VarId}
    (ht : e.type.type = (env.program.var v).type.type) {l : Label} (hl : e.plain.label? = some l)
    (h : Runs (m.eval e) σ a τ) : ∀ k ∈ m.denote (τ.set v a) (.var v), m.denote τ l = some k := by
  intro k hk
  simp only [denote] at hk
  split at hk
  · rename_i hprim
    obtain ⟨rfl, hden, -, hval⟩ := eval_label hp he (ht ▸ hprim) hl h
    rw [Store.get_set_self, ← ht, hval] at hk
    exact hden.trans hk
  · cases hk

variable {M : FunctionId → List VarId}

/-- Expressions with equal values unite the labels that they stand for, and such expressions have no
effects. -/
theorem equate_holds (hp : Declares env.program) {x y : Expr} (hx : Typed env x)
    (hy : Typed env y) (hpx : x.type.type.isPrimitive = true)
    (hpy : y.type.type.isPrimitive = true) {b : Value} {ρ : Store env.program}
    (hrx : Runs (m.eval x) σ a ρ) (hry : Runs (m.eval y) ρ b τ) (hab : a.datum = b.datum)
    (h : m.Holds s σ) (hleft : m.Holds s τ) : m.Holds (Alias.equate x.plain y.plain s) τ := by
  unfold Alias.equate
  split
  · rename_i k l hk hl
    split
    · obtain ⟨rfl, hkden, -⟩ := eval_label hp hx hpx hk hrx
      obtain ⟨rfl, hlden, -⟩ := eval_label hp hy hpy hl hry
      exact h.merge hkden (hab ▸ hlden)
    · exact hleft
  · exact hleft

/-- A lazy operator whose value needs both operands tells what both tell. -/
theorem tells_both {x y : Expr} {holds : Bool}
    (hop : op = .and ∧ holds = true ∨ op = .or ∧ holds = false) (hx : m.Tells M x)
    (hy : m.Tells M y) (h : Runs (m.eval (.builtin i op [x, y] isPrivate)) σ a τ)
    (ha : a.datum.truth = holds) (hs : m.Holds s σ)
    (hleaves : (Expr.builtin i op [x, y] isPrivate).Leaves env.program M s)
    (hlasts : Alias.isLastingOp M holds op [x.plain, y.plain] = true) :
    m.Holds (Alias.guard holds y.plain (Alias.guard holds x.plain s)) τ := by
  have hl : op.isLazy = true := by rcases hop with ⟨rfl, -⟩ | ⟨rfl, -⟩ <;> rfl
  obtain ⟨-, _, _, c, ρ, heq, hc, hlater⟩ := (runs_lazy hl).1 h
  cases heq
  obtain ⟨rfl, hrun⟩ : c = holds ∧ Runs (m.eval y) ρ a τ := by
    rcases hlater with ⟨e, he, hrun⟩ | ⟨hnone, rfl, -⟩
    · rcases hop with ⟨rfl, rfl⟩ | ⟨rfl, rfl⟩ <;> cases c <;> cases he <;> exact ⟨rfl, hrun⟩
    · rcases hop with ⟨rfl, rfl⟩ | ⟨rfl, rfl⟩ <;> cases c <;> cases ha <;> cases hnone
  obtain ⟨⟨hlx, hly⟩, hcalls⟩ : (Alias.isLasting M c x.plain = true ∧
      Alias.isLasting M c y.plain = true) ∧
      ∀ f ∈ y.callees, ∀ v ∈ M f, .var v ∉ Alias.learned c x.plain := by
    rcases hop with ⟨rfl, rfl⟩ | ⟨rfl, rfl⟩ <;>
      simpa [Alias.isLastingOp, Expr.callees_plain] using hlasts
  have hfirst : m.Holds (Alias.guard c x.plain s) ρ :=
    hx hc hs (hleaves.child (.head _)) hlx
  rw [← ha] at hfirst hly ⊢
  refine hy hrun hfirst (Alias.leaves_guard (hleaves.child (.tail _ (.head _))) ?_) hly
  intro v hv f hf hmem
  exact hcalls f hf v hmem (ha ▸ hv)

/-- Operators tell what their operands tell. -/
theorem builtin_tells (hp : Declares env.program) (hm : m.Framed M) {args : List Expr}
    (ha : ∀ e ∈ args, Typed env e ∧ suits op e.type.type = true)
    (hargs : ∀ e ∈ args, e.type.type.isBool = true → m.Tells M e) (hop : op ≠ .paren) :
    m.Tells M (.builtin i op args isPrivate) := by
  intro σ a τ h s hs hleaves hlasts
  have hleft : m.Holds s τ := hs.evaluated hm h hleaves
  show m.Holds (Alias.guardOp _ op (Expr.plainList args) s) τ
  rcases args with _ | ⟨x, _ | ⟨y, _ | ⟨z, args⟩⟩⟩
  · exact hleft
  · by_cases hnot : op = .not
    · subst hnot
      obtain ⟨-, as, has, happly⟩ := (runs_strict hop rfl).1 h
      obtain ⟨v, ρ, _, hv, hnil, rfl⟩ := runs_evalList_cons.1 has
      obtain ⟨rfl, rfl⟩ := runs_evalList_nil.1 hnil
      obtain ⟨b, hb, rfl⟩ := Operator.apply_not happly
      have hx := hargs x (by simp) (ha x (by simp)).2 hv hs (hleaves.child (.head _))
      rw [hb] at hx
      have hb' : (!(Value.bool !b).datum.truth) = b := Bool.not_not b
      have hlasts : Alias.isLasting M (!(Value.bool !b).datum.truth) x.plain = true := hlasts
      rw [hb'] at hlasts
      show m.Holds (Alias.guard (!(Value.bool !b).datum.truth) x.plain s) τ
      rw [hb']
      exact hx hlasts
    · cases op <;> first | exact hleft | exact absurd rfl hop | exact absurd rfl hnot
  · obtain ⟨htx, hsx⟩ := ha x (by simp)
    obtain ⟨hty, hsy⟩ := ha y (by simp)
    have hequal : op.isLazy = false → op.operand = .any →
        (∀ v w : Value, op.apply m.checked [v, w] = some a → v.datum = w.datum) →
        m.Holds (Alias.equate x.plain y.plain s) τ := by
      intro hl hany heq
      obtain ⟨-, as, has, happly⟩ := (runs_strict hop hl).1 h
      obtain ⟨v, ρ, _, hv, hrest, rfl⟩ := runs_evalList_cons.1 has
      obtain ⟨w, ρ', _, hw, hnil, rfl⟩ := runs_evalList_cons.1 hrest
      obtain ⟨rfl, rfl⟩ := runs_evalList_nil.1 hnil
      rw [suits, hany] at hsx hsy
      exact equate_holds hp htx hty hsx hsy hv hw (heq v w happly) hs hleft
    have hboth : ∀ holds, op = .and ∧ holds = true ∨ op = .or ∧ holds = false →
        a.datum.truth = holds → op.operand = .bool →
        m.Holds (Alias.guard holds y.plain (Alias.guard holds x.plain s)) τ := by
      intro holds hcase htruth hbool
      rw [suits, hbool] at hsx hsy
      exact tells_both hcase (hargs x (by simp) hsx) (hargs y (by simp) hsy) h htruth hs hleaves
        (htruth ▸ hlasts)
    cases op with
    | and =>
      cases htruth : a.datum.truth with
      | false => exact hleft
      | true => exact hboth true (.inl ⟨rfl, rfl⟩) htruth rfl
    | or =>
      cases htruth : a.datum.truth with
      | false => exact hboth false (.inr ⟨rfl, rfl⟩) htruth rfl
      | true => exact hleft
    | eq =>
      cases htruth : a.datum.truth with
      | false => exact hleft
      | true =>
        refine hequal rfl rfl fun v w happly => ?_
        obtain rfl := Operator.apply_eq happly
        exact of_decide_eq_true htruth
    | ne =>
      cases htruth : a.datum.truth with
      | false =>
        refine hequal rfl rfl fun v w happly => ?_
        obtain rfl := Operator.apply_ne happly
        exact not_not.1 (of_decide_eq_false htruth)
      | true => exact hleft
    | paren => exact absurd rfl hop
    | _ => exact hleft
  · exact hleft

/-- Conditions of truth values tell what they say. -/
theorem guard_tells (hp : Declares env.program) (hm : m.Framed M) (he : Typed env e)
    (hbool : e.type.type.isBool = true) : m.Tells M e := by
  induction he with
  | @raise i e o _ _ _ _ ht ih =>
    intro σ a τ h s hs hleaves hlasts
    rw [ht.type_eq] at hbool
    obtain ⟨c, hrun, rfl⟩ := runs_reclassify.1 h
    rw [settle_eq ht, DataType.truth_convert (t := e.type.type) hbool] at hlasts ⊢
    exact ih hbool hrun hs (hleaves.child (.head _)) hlasts
  | @convert i e t _ hpe hd htp hc ht ih =>
    intro σ a τ h s hs hleaves hlasts
    obtain ⟨c, hrun, rfl⟩ := runs_cast.1 h
    rw [ht.type_eq] at hbool
    rw [DataType.truth_convert (t := t) hbool] at hlasts ⊢
    exact ih (DataType.isBool_of_convertsTo hc hbool) hrun hs
      (hleaves.child (.head _)) hlasts
  | @paren i args ha ht ih =>
    intro σ a τ h s hs hleaves hlasts
    obtain ⟨x, rfl, hx⟩ := runs_paren.1 h
    rw [ht.type_eq] at hbool
    exact ih x (by simp) hbool hx hs (hleaves.child (.head _)) hlasts
  | fold ha hop _ hsuit _ _ _ ih
  | operate ha hop _ _ _ hsuit _ _ _ _ ih
  | compute ha hop _ _ _ _ hsuit _ _ _ _ _ _ _ ih =>
    exact builtin_tells hp hm (fun e he => ⟨ha e he, hsuit e he⟩) (fun e he hb => ih e he hb) hop
  | _ => exact fun σ a τ h s hs hleaves _ => hs.evaluated hm h hleaves

end Machine

end Shroud
