import Shroud.Proofs.Operator
import Shroud.Proofs.Semantics.Runs
import Shroud.Proofs.Typing.Private

/-! # What conversions keep

Which numbers an integer type holds, and which types a constant gets. A type converts to another one
only if the other one holds all its values, so the implicit casts of a checked program change no
value.
-/

namespace Shroud

namespace DataType

variable {n : Nat} {v : Int} {a b c t : DataType} {d : Literal}

/-- The numbers and truth values of a type. A constant is the only one of its type. -/
def Contains : DataType → Literal → Prop
  | uint n, .number v => 0 ≤ v ∧ v < 2 ^ n
  | int n, .number v => 0 < n ∧ -2 ^ (n - 1) ≤ v ∧ v < 2 ^ (n - 1)
  | address, .number v | addressPayable, .number v => 0 ≤ v ∧ v < 2 ^ 160
  | numberLit w, .number v => v = w
  | bool, .bool _ => True
  | boolLit c, .bool b => b = c
  | _, _ => False

theorem canRepresent_uint : (uint n).canRepresent v = true ↔ (uint n).Contains (.number v) := by
  cases v with
  | ofNat k =>
    simp only [canRepresent, Literal.fitsUnsigned, decide_eq_true_eq, Bits.length_le_iff, Contains]
    rw [Int.ofNat_eq_natCast, and_iff_right k.cast_nonneg]
    exact_mod_cast Iff.rfl
  | negSucc k => simp [canRepresent, Literal.fitsUnsigned, Contains]

theorem canRepresent_int : (int n).canRepresent v = true ↔ (int n).Contains (.number v) := by
  cases n with
  | zero => cases v <;> simp [canRepresent, Literal.fitsSigned, Contains]
  | succ n =>
    have hcast : ((2 ^ n : Nat) : Int) = 2 ^ n := Nat.cast_pow 2 n
    cases v <;> simp only [canRepresent, Literal.fitsSigned, decide_eq_true_eq, Nat.succ_le_succ_iff,
      Bits.length_le_iff, Contains, Nat.add_sub_cancel, Nat.zero_lt_succ, true_and,
      Int.ofNat_eq_natCast, Int.negSucc_eq] <;> omega

/-- The integer types hold what they contain. -/
theorem canRepresent_iff (hn : t.isNumeric = true) (hl : t.isLiteral = false) :
    t.canRepresent v = true ↔ t.Contains (.number v) := by
  cases t with
  | uint n => exact canRepresent_uint
  | int n => exact canRepresent_int
  | numberLit w => cases hl
  | _ => cases hn

theorem isNumeric_of_canRepresent (h : t.canRepresent v = true) :
    t.isNumeric = true ∧ t.isLiteral = false := by
  cases t <;> first | exact ⟨rfl, rfl⟩ | cases h

/-- The type of a constant is the narrowest one in whole bytes that holds it. -/
theorem toAbstract_numberLit (h : Literal.fitsWord v = true) :
    ∃ n, (numberLit v).toAbstract = (if v < 0 then int n else uint n) ∧ 8 ∣ n ∧ 8 ≤ n ∧ n ≤ 256 ∧
      (numberLit v).toAbstract.canRepresent v = true ∧
      ∀ m, 0 < m → 8 ∣ m → m < n → (if v < 0 then int m else uint m).canRepresent v = false := by
  have hbits : Literal.minBits v ≤ 256 := of_decide_eq_true h
  -- for positive widths, a type of the right sign holds the constant if it has its bits
  have hholds : ∀ m, 0 < m →
      ((if v < 0 then int m else uint m).canRepresent v = true ↔ Literal.minBits v ≤ m) := by
    intro m hm
    cases v with
    | ofNat k =>
      rw [if_neg (by simp)]
      simp only [canRepresent, Literal.fitsUnsigned, Literal.minBits, decide_eq_true_eq]
      omega
    | negSucc k =>
      rw [if_pos (Int.negSucc_lt_zero k)]
      simp only [canRepresent, Literal.fitsSigned, Literal.minBits, decide_eq_true_eq]
  have hpos : 0 < Literal.minBits v := by
    cases v <;> simp only [Literal.minBits] <;> omega
  have hwidth : Literal.width v = max ((Literal.minBits v + 7) / 8 * 8) 8 := by
    rw [Literal.width, Literal.wordBits, min_eq_left hbits]
  refine ⟨Literal.width v, rfl, by omega, by omega, by omega, (hholds _ (by omega)).2 (by omega),
    fun m hm hdvd hlt => ?_⟩
  rw [Bool.eq_false_iff, Ne, hholds m hm]
  omega

theorem two_pow_le {m n : Nat} (h : m ≤ n) : (2 : Int) ^ m ≤ 2 ^ n := pow_le_pow_right₀ (by norm_num) h

/-- A type converts to types that have all its values. -/
theorem Contains.of_convertsTo (h : a.convertsTo b = true) (hb : b.isLiteral = false)
    (hd : a.Contains d) : b.Contains d := by
  cases a with
  | numberLit w =>
    cases d with
    | bool _ => exact hd.elim
    | number v =>
      obtain rfl : v = w := hd
      have hrep : b.canRepresent v = true := by
        cases b <;> first | exact h | cases hb
      exact (canRepresent_iff (isNumeric_of_canRepresent hrep).1 hb).1 hrep
  | uint m =>
    cases d with
    | bool _ => exact hd.elim
    | number v =>
      cases b with
      | uint n =>
        have hle := two_pow_le (m := m) (n := n) (by simpa [convertsTo] using h)
        exact ⟨hd.1, hd.2.trans_le hle⟩
      | int n =>
        have hlt : m < n := by simpa [convertsTo] using h
        have hle := two_pow_le (m := m) (n := n - 1) (by omega)
        exact ⟨by omega, (neg_nonpos.2 (by positivity)).trans hd.1, hd.2.trans_le hle⟩
      | _ => simp [convertsTo] at h
  | int m =>
    cases d with
    | bool _ => exact hd.elim
    | number v =>
      cases b with
      | int n =>
        have hmn : m ≤ n := by simpa [convertsTo] using h
        have hle := two_pow_le (m := m - 1) (n := n - 1) (by omega)
        exact ⟨hd.1.trans_le hmn, (neg_le_neg hle).trans hd.2.1, hd.2.2.trans_le hle⟩
      | _ => simp [convertsTo] at h
  | boolLit c =>
    cases d with
    | number _ => exact hd.elim
    | bool x => cases b <;> trivial
  | addressPayable =>
    cases d with
    | bool _ => exact hd.elim
    | number v => cases b <;> first | exact hd | simp [convertsTo] at h
  | bool => exact (show bool = b by simpa [convertsTo] using h) ▸ hd
  | address => exact (show address = b by simpa [convertsTo] using h) ▸ hd
  | _ => cases d <;> exact hd.elim

/-- Conversions can be made in two steps. -/
theorem convertsTo_trans (hab : a.convertsTo b = true) (hbc : b.convertsTo c = true)
    (hb : b.isLiteral = false) : a.convertsTo c = true := by
  have hc : c.isLiteral = false := by
    by_contra hne
    rw [isLiteral_of_convertsTo hbc (by simpa using hne)] at hb
    cases hb
  cases a with
  | numberLit v =>
    have hrep : b.canRepresent v = true := by
      cases b <;> first | exact hab | cases hb
    have hn := (isNumeric_of_canRepresent hrep).1
    have hcn : c.isNumeric = true := by
      cases b with
      | uint n | int n => cases c <;> first | rfl | simp [convertsTo] at hbc
      | numberLit w => cases hb
      | _ => cases hn
    have hcrep := (canRepresent_iff hcn hc).2 (.of_convertsTo hbc hc ((canRepresent_iff hn hb).1 hrep))
    cases c <;> first | exact hcrep | cases hc
  | uint m =>
    cases b <;> simp [convertsTo] at hab <;> cases c <;> simp [convertsTo] at hbc ⊢ <;> omega
  | int m =>
    cases b <;> simp [convertsTo] at hab
    cases c <;> simp [convertsTo] at hbc ⊢
    omega
  | boolLit x =>
    cases b <;> simp [convertsTo, isLiteral] at hab hb
    cases c <;> simp [convertsTo] at hbc ⊢
  | addressPayable =>
    cases b <;> simp [convertsTo] at hab
    · cases c <;> simp [convertsTo] at hbc ⊢
    · exact hbc
  | _ =>
    obtain rfl : _ = b := by simpa [convertsTo] using hab
    exact hbc

/-- The numbers of a type do not wrap around. -/
theorem Contains.wrap_eq (h : t.Contains (.number v)) : t.wrap v = v := by
  cases t with
  | uint n => exact Int.emod_eq_of_lt h.1 h.2
  | int n =>
    obtain ⟨hn, hlow, hhigh⟩ := h
    obtain ⟨k, rfl⟩ : ∃ k, n = k + 1 := ⟨n - 1, by omega⟩
    have hcast : ((2 ^ (k + 1) : Nat) : Int) = 2 * 2 ^ k := by push_cast; ring
    rw [Nat.add_sub_cancel] at hlow hhigh
    exact Int.bmod_eq_of_le_mul_two (by omega) (by omega)
  | address | addressPayable => exact Int.emod_eq_of_lt h.1 h.2
  | _ => rfl

/-- Converting to a type changes none of its values. -/
theorem Contains.datum_scalar (h : t.Contains d) : (t.scalar d).datum = d := by
  cases d with
  | number v =>
    have hbool : t.isBool = false := by cases t <;> first | rfl | exact h.elim
    simp only [scalar, hbool, Value.datum, Literal.toInt, h.wrap_eq, Bool.false_eq_true, if_false]
  | bool b => cases t <;> first | rfl | exact h.elim

end DataType

/-- An implicit cast of a checked program goes to a type that the type of its operand converts to. -/
theorem Program.Checked.convertsTo {p : Program} (h : p.Checked) {i : Expr.Info} {t : DataType}
    {e : Expr} (he : .cast i t e true ∈ p.exprs) : e.type.type.convertsTo t = true ∧
      t.isPrimitive = true ∧ t.isLiteral = false := by
  obtain ⟨⟨env, htyped⟩, -⟩ := h.exists_typed he
  cases htyped with
  | convert _ _ hd ht hc _ => exact ⟨hc, ht, hd.isLiteral_eq⟩

/-- The target and the operand of an implicit cast. -/
def Expr.conversion? : Expr → Option (Expr.Info × DataType × Expr)
  | .cast i t e true => some (i, t, e)
  | _ => none

theorem Expr.eq_of_conversion? {x : Expr} {c : Expr.Info × DataType × Expr}
    (h : x.conversion? = some c) : x = .cast c.1 c.2.1 c.2.2 true := by
  unfold conversion? at h
  split at h <;> cases h
  rfl

namespace SourceUnit

open DataType

/-- **Implicit conversions keep values.** The integer types hold the numbers of their range, and a
machine word those of both; a constant gets the narrowest type in whole bytes that holds it; a type
converts to integer types that hold all its values, also in several steps; so an implicit cast of a
checked program gives the value that its operand has. -/
theorem implicit_casts_keep_values :
    (∀ v : Int, ∀ n, 0 < n → ((uint n).canRepresent v = true ↔ 0 ≤ v ∧ v < 2 ^ n) ∧
      ((int n).canRepresent v = true ↔ -2 ^ (n - 1) ≤ v ∧ v < 2 ^ (n - 1))) ∧
    (∀ v : Int, Literal.fitsWord v = true ↔ -2 ^ 255 ≤ v ∧ v < 2 ^ 256) ∧
    (∀ v : Int, Literal.fitsWord v = true → ∃ n,
      (numberLit v).toAbstract = (if v < 0 then int n else uint n) ∧ 8 ∣ n ∧ 8 ≤ n ∧ n ≤ 256 ∧
      (numberLit v).toAbstract.canRepresent v = true ∧
      ∀ m, 0 < m → 8 ∣ m → m < n → (if v < 0 then int m else uint m).canRepresent v = false) ∧
    (∀ a b : DataType, a.convertsTo b = true → b.isNumeric = true → b.isLiteral = false →
      ∀ v, a.Contains (.number v) → b.canRepresent v = true) ∧
    (∀ a b c : DataType, a.convertsTo b = true → b.convertsTo c = true → b.isLiteral = false →
      a.convertsTo c = true) ∧
    ∀ (u : SourceUnit) (q : Program), Passes u.check q → ∀ i t e, .cast i t e true ∈ q.exprs →
      e.type.type.convertsTo t = true ∧
      ∀ (m : Machine q) (σ τ : Store q) (b : Value), Runs (m.eval (.cast i t e true)) σ b τ →
        ∃ a, Runs (m.eval e) σ a τ ∧
          (e.type.type.Contains a.datum → t.Contains b.datum ∧ b.datum = a.datum) := by
  refine ⟨fun v n hn => ⟨canRepresent_uint, canRepresent_int.trans (and_iff_right hn)⟩,
    fun v => Literal.fitsWord_iff, fun v => toAbstract_numberLit,
    fun a b h hn hl v hv => (canRepresent_iff hn hl).2 (hv.of_convertsTo h hl),
    fun a b c => convertsTo_trans, fun u q hq i t e he => ?_⟩
  obtain ⟨hc, hp, hl⟩ := (check_checked hq).convertsTo he
  refine ⟨hc, fun m σ τ b hb => ?_⟩
  obtain ⟨a, ha, rfl⟩ := Machine.runs_cast.1 hb
  refine ⟨a, ha, fun hmem => ?_⟩
  have hkept := hmem.of_convertsTo hc hl
  have hdatum : (t.convert a).datum = a.datum := by
    rw [convert_of_isPrimitive hp, hkept.datum_scalar]
  exact ⟨hdatum ▸ hkept, hdatum⟩

/-- A revealed constant and a secret are added in 8 bits, and the sum is stored in 16. -/
def summed : SourceUnit := .single "Summed" [] [
  { name := "f"
    params := [{ name := "x", type := .mk (.uint 8) .me }]
    body := [.decl {} "z" (.mk (.uint 16) .me) false
      (some (.builtin {} .add [.reveal {} 1 .me, "x"]))] }]

/-- The sum is a value of its type, and the cast keeps it. -/
theorem implicit_casts_keep_values_summed : ∃ q i e, Passes summed.check q ∧
    .cast i (.uint 16) e true ∈ q.exprs ∧ e.type.type = .uint 8 ∧
    ∃ (m : Machine q) (σ τ : Store q) (a b : Value), Runs (m.eval e) σ a τ ∧
      Runs (m.eval (.cast i (.uint 16) e true)) σ b τ ∧ a.datum = .number 8 ∧
      (uint 8).Contains a.datum ∧ (uint 16).Contains b.datum ∧ b.datum = a.datum := by
  let m (q : Program) := q.machine 7 true 1 0
  let σ (q : Program) := (Store.zeros q).set ⟨0⟩ (.number (.uint 8) 7)
  have hrun : Passes.test summed.check (fun q => q.exprs.any fun x => x.conversion?.any fun c =>
      c.2.1 = .uint 16 ∧ c.2.2.type.type = .uint 8 ∧ (((m q).eval x).run (σ q)).isSome ∧
        (((m q).eval c.2.2).run (σ q)).map (·.1.datum) = some (.number 8)) = true := by
    decide +kernel
  obtain ⟨q, hq, htest⟩ := Passes.of_test hrun
  obtain ⟨x, hx, htest⟩ := List.any_eq_true.1 htest
  obtain ⟨⟨i, t, e⟩, hc, htest⟩ := (Option.any_eq_true _ _).1 htest
  obtain ⟨rfl, htype, hsome, hdatum⟩ := of_decide_eq_true htest
  obtain rfl := Expr.eq_of_conversion? hc
  obtain ⟨⟨b, τ⟩, hb⟩ := Option.isSome_iff_exists.1 hsome
  obtain ⟨-, -, -, -, -, hkeeps⟩ := implicit_casts_keep_values
  obtain ⟨a, ha, hkept⟩ := (hkeeps _ q hq i _ e hx).2 (m q) (σ q) τ b hb
  have hnumber : a.datum = .number 8 := by
    rw [ha] at hdatum
    exact Option.some.inj hdatum
  have hcontains : (uint 8).Contains a.datum := by
    rw [hnumber]
    exact ⟨by decide, by decide⟩
  exact ⟨q, i, e, hq, hx, htype, m q, σ q, τ, a, b, ha, hb, hnumber, hcontains,
    hkept (htype ▸ hcontains)⟩

end SourceUnit

end Shroud
