import Mathlib
import Shroud.Operator.Fold

/-! # Results of operators

The mathematical result of an operator: integers are unbounded, division truncates, shifts multiply
and divide by powers of two, and bitwise operators work on infinite two's complement. Folding gives
this result wherever there is one and it fits a machine word, and nothing else. The shortcuts that
folding takes for large exponents and shift amounts are right because its operands fit a machine
word.
-/

namespace Shroud

/-! ## Bits -/

namespace Bits

theorem length_le_iff {n k : Nat} : length n ≤ k ↔ n < 2 ^ k := by
  unfold length
  split_ifs with h
  · simp [h]
  · rw [Nat.succ_le_iff, Nat.log2_lt h]

theorem without_eq (m n : Nat) : without m n = Nat.ldiff m n := by
  refine Nat.eq_of_testBit_eq fun i => ?_
  rw [without, Nat.testBit_xor, Nat.testBit_and, Nat.testBit_ldiff]
  cases m.testBit i <;> cases n.testBit i <;> rfl

theorem and_eq_land (a b : Int) : Bits.and a b = Int.land a b := by
  cases a <;> cases b <;> simp [Bits.and, Int.land, without_eq]

theorem or_eq_lor (a b : Int) : Bits.or a b = Int.lor a b := by
  cases a <;> cases b <;> simp [Bits.or, Int.lor, without_eq]

theorem xor_eq_xor (a b : Int) : Bits.xor a b = Int.xor a b := by
  cases a <;> cases b <;> rfl

theorem complement_eq (a : Int) : complement a = -a - 1 := by
  cases a with
  | ofNat n | negSucc n =>
    rw [complement, Int.negSucc_eq, Int.ofNat_eq_natCast]
    omega

end Bits

namespace Literal

/-- The numbers that fit a machine word: those of its signed and of its unsigned integers. -/
theorem fitsWord_iff {v : Int} : fitsWord v = true ↔ -2 ^ 255 ≤ v ∧ v < 2 ^ 256 := by
  rw [fitsWord, decide_eq_true_iff]
  cases v with
  | ofNat n =>
    rw [minBits, max_le_iff, wordBits, Bits.length_le_iff, Int.ofNat_eq_natCast]
    omega
  | negSucc n =>
    rw [minBits, wordBits, Nat.succ_le_iff, Nat.lt_succ_iff, Bits.length_le_iff, Int.negSucc_eq]
    omega

/-- What has more digits than a machine word does not fit it. -/
theorem fitsWord_eq_false {v : Int} {k : Nat} (hk : ¬ k ≤ wordBits) (h : 2 ^ k ≤ v.natAbs) :
    fitsWord v = false := by
  by_contra hfits
  obtain ⟨hlow, hhigh⟩ := fitsWord_iff.1 (Bool.not_eq_false _ ▸ hfits)
  have hpow : 2 ^ 256 ≤ 2 ^ k := Nat.pow_le_pow_right (by norm_num) (Nat.le_of_not_le hk)
  omega

end Literal

namespace Operator

variable {a : Int} {op : Operator} {b : Int} {r : Literal} {args : List Literal}

/-- The mathematical result of an operator on literals of the kinds that it takes. -/
def result (op : Operator) (args : List Literal) : Option Literal :=
  match op, args with
  | paren, [a] => some a
  | ite, [.bool c, a, b] => some (if c then a else b)
  | not, [.bool a] => some (.bool !a)
  | and, [.bool a, .bool b] => some (.bool (a && b))
  | or, [.bool a, .bool b] => some (.bool (a || b))
  | eq, [a, b] => some (.bool (a = b))
  | ne, [a, b] => some (.bool (a ≠ b))
  | neg, [.number a] => some (.number (-a))
  | bitNot, [.number a] => some (.number (-a - 1))
  | add, [.number a, .number b] => some (.number (a + b))
  | sub, [.number a, .number b] => some (.number (a - b))
  | mul, [.number a, .number b] => some (.number (a * b))
  | div, [.number a, .number b] => if b = 0 then none else some (.number (a.tdiv b))
  | mod, [.number a, .number b] => if b = 0 then none else some (.number (a.tmod b))
  | pow, [.number a, .number b] => if b < 0 then none else some (.number (a ^ b.toNat))
  | lt, [.number a, .number b] => some (.bool (a < b))
  | gt, [.number a, .number b] => some (.bool (a > b))
  | le, [.number a, .number b] => some (.bool (a ≤ b))
  | ge, [.number a, .number b] => some (.bool (a ≥ b))
  | bitAnd, [.number a, .number b] => some (.number (Int.land a b))
  | bitOr, [.number a, .number b] => some (.number (Int.lor a b))
  | bitXor, [.number a, .number b] => some (.number (Int.xor a b))
  | shl, [.number a, .number b] => if b < 0 then none else some (.number (a * 2 ^ b.toNat))
  | shr, [.number a, .number b] => if b < 0 then none else some (.number (a / 2 ^ b.toNat))
  | _, _ => none

/-- For 0, 1 and -1 only zero and parity of an exponent matter. -/
theorem pow_parity (ha : a.natAbs ≤ 1) (n : Nat) :
    a ^ (if n = 0 then 0 else if n % 2 = 0 then 2 else 1) = a ^ n := by
  obtain rfl | rfl | rfl : a = 0 ∨ a = 1 ∨ a = -1 := by omega
  · split_ifs with hzero <;> simp [hzero]
  · simp
  · split_ifs with hzero heven
    · rw [hzero]
    · rw [Even.neg_one_pow ⟨1, rfl⟩, Even.neg_one_pow (Nat.even_iff.2 heven)]
    · rw [pow_one, Odd.neg_one_pow (Nat.odd_iff.2 (Nat.mod_two_ne_zero.1 heven))]

/-- The shortened exponent gives the same power. -/
theorem pow_exponent? {e : Nat} (h : exponent? a b = some e) : ¬ b < 0 ∧ a ^ e = a ^ b.toNat := by
  cases b with
  | negSucc n => cases h
  | ofNat n =>
    refine ⟨by simp, ?_⟩
    rw [exponent?] at h
    by_cases hsmall : a.natAbs ≤ 1
    · rw [if_pos hsmall] at h
      cases h
      exact pow_parity hsmall n
    · rw [if_neg hsmall] at h
      split_ifs at h
      cases h
      rfl

theorem shiftLeft_shift? {n : Nat} (h : shift? a b = some n) :
    ¬ b < 0 ∧ Bits.shiftLeft a n = a * 2 ^ b.toNat := by
  cases b with
  | negSucc m => cases h
  | ofNat m =>
    refine ⟨by simp, ?_⟩
    rw [shift?] at h
    rw [Bits.shiftLeft, Int.shiftLeft_eq]
    split_ifs at h with hzero hle
    · simp [hzero]
    · cases h
      rfl

/-- A word that is shifted down by more than its length leaves only its sign. -/
theorem shiftDown?_eq {n : Int} (ha : Literal.fitsWord a = true) (h : shiftDown? a b = some n) :
    ¬ b < 0 ∧ n = a / 2 ^ b.toNat := by
  cases b with
  | negSucc m => cases h
  | ofNat m =>
    refine ⟨by simp, ?_⟩
    obtain rfl : Bits.shiftRight a (min m (2 * Literal.wordBits)) = n := Option.some_inj.1 h
    obtain ⟨hlow, hhigh⟩ := Literal.fitsWord_iff.1 ha
    have hdiv (k : Nat) (hk : 256 ≤ k) : a / 2 ^ k = if a < 0 then -1 else 0 := by
      have hpow : (2 : Int) ^ 256 ≤ 2 ^ k := pow_le_pow_right₀ (by norm_num) hk
      split_ifs with hneg
      · exact Int.ediv_eq_neg_one_of_neg_of_le hneg (by omega)
      · exact Int.ediv_eq_zero_of_lt (by omega) (by omega)
    rw [Bits.shiftRight, Int.shiftRight_eq_div_pow, Literal.wordBits, Int.ofNat_eq_natCast,
      Int.toNat_natCast, Int.natCast_pow]
    rcases le_total m (2 * 256) with hm | hm
    · rw [min_eq_left hm]
      rfl
    · rw [min_eq_right hm, hdiv m (by omega)]
      exact hdiv _ (by omega)

theorem result_of_foldNumbers (ha : Literal.fitsWord a = true) (h : op.foldNumbers a b = some r) :
    op.result [.number a, .number b] = some r := by
  cases op with
  | pow =>
    obtain ⟨e, he, rfl⟩ := Option.map_eq_some_iff.1 h
    obtain ⟨hb, hpow⟩ := pow_exponent? he
    rw [result, if_neg hb, ← hpow]
    rfl
  | shl =>
    obtain ⟨n, hn, rfl⟩ := Option.map_eq_some_iff.1 h
    obtain ⟨hb, hshift⟩ := shiftLeft_shift? hn
    rw [result, if_neg hb, hshift]
  | shr =>
    obtain ⟨n, hn, rfl⟩ := Option.map_eq_some_iff.1 h
    obtain ⟨hb, rfl⟩ := shiftDown?_eq ha hn
    rw [result, if_neg hb]
  | bitAnd => rw [← h, result, foldNumbers, Bits.and_eq_land]
  | bitOr => rw [← h, result, foldNumbers, Bits.or_eq_lor]
  | bitXor => rw [← h, result, foldNumbers, Bits.xor_eq_xor]
  | _ => first | exact h | cases h

theorem result_of_foldExact (hargs : ∀ n, .number n ∈ args → Literal.fitsWord n = true)
    (h : op.foldExact args = some r) : op.result args = some r := by
  unfold foldExact at h
  split at h
  case h_3 =>
    rw [← h, result, Bits.complement_eq]
  case h_10 a b _ _ =>
    exact result_of_foldNumbers (hargs a (by simp)) h
  case h_11 => cases h
  all_goals exact h

/-- **Folding is exact**: where it gives a value, that is the mathematical result. -/
theorem result_of_fold (hargs : ∀ n, .number n ∈ args → Literal.fitsWord n = true)
    (h : op.fold args = some r) : op.result args = some r := by
  refine result_of_foldExact hargs ?_
  unfold fold at h
  split at h
  · rename_i hexact
    split_ifs at h
    rw [hexact, h]
  · exact h

/-! ## Where there is a value -/

/-- Exponents that are refused lead out of the machine word, or are negative. -/
theorem fitsWord_pow_of_exponent? (h : exponent? a b = none) :
    b < 0 ∨ Literal.fitsWord (a ^ b.toNat) = false := by
  cases b with
  | negSucc n => exact .inl (Int.negSucc_lt_zero n)
  | ofNat n =>
    rw [exponent?] at h
    split_ifs at h with hsmall hle
    refine .inr (Literal.fitsWord_eq_false hle ?_)
    rw [Int.natAbs_pow]
    exact Nat.pow_le_pow_left (Nat.lt_of_not_le hsmall) n

theorem fitsWord_shiftLeft_of_shift? (h : shift? a b = none) :
    b < 0 ∨ Literal.fitsWord (a * 2 ^ b.toNat) = false := by
  cases b with
  | negSucc n => exact .inl (Int.negSucc_lt_zero n)
  | ofNat n =>
    rw [shift?] at h
    split_ifs at h with hzero hle
    refine .inr (Literal.fitsWord_eq_false hle ?_)
    rw [Int.natAbs_mul, Int.natAbs_pow]
    exact Nat.le_mul_of_pos_left _ (Int.natAbs_pos.2 hzero)

/-- Where the result fits a machine word, the shortcuts find it. -/
theorem foldExact_of_result (hargs : ∀ n, .number n ∈ args → Literal.fitsWord n = true)
    (h : op.result args = some r) (hr : ∀ n, r = .number n → Literal.fitsWord n = true) :
    op.foldExact args = some r := by
  unfold result at h
  split at h
  case h_9 =>
    rw [← h, foldExact, Bits.complement_eq]
  case h_15 a b =>
    split_ifs at h with hb
    cases h
    cases he : exponent? a b with
    | none =>
      have hwide := (fitsWord_pow_of_exponent? he).resolve_left hb
      rw [hr _ rfl] at hwide
      cases hwide
    | some e =>
      change (exponent? a b).map _ = _
      rw [he, ← (pow_exponent? he).2]
      rfl
  case h_20 =>
    rw [← Bits.and_eq_land] at h
    exact h
  case h_21 =>
    rw [← Bits.or_eq_lor] at h
    exact h
  case h_22 =>
    rw [← Bits.xor_eq_xor] at h
    exact h
  case h_23 a b =>
    split_ifs at h with hb
    cases h
    cases hn : shift? a b with
    | none =>
      have hwide := (fitsWord_shiftLeft_of_shift? hn).resolve_left hb
      rw [hr _ rfl] at hwide
      cases hwide
    | some n =>
      change (shift? a b).map _ = _
      rw [hn, ← (shiftLeft_shift? hn).2]
      rfl
  case h_24 a b =>
    split_ifs at h with hb
    cases h
    obtain ⟨n, hn⟩ : ∃ n, shiftDown? a b = some n := by
      cases b with
      | negSucc m => exact (hb (Int.negSucc_lt_zero m)).elim
      | ofNat m => exact ⟨_, rfl⟩
    change (shiftDown? a b).map _ = _
    rw [hn, ← (shiftDown?_eq (hargs a (by simp)) hn).2]
    rfl
  case h_25 => cases h
  all_goals exact h

/-- The operands are of the number and the kinds that the operator takes. -/
def Takes (op : Operator) (args : List Literal) : Prop :=
  args.length = op.arity ∧
    (∀ a ∈ args, match op.operand with
      | .number => ∃ n, a = .number n
      | .bool => ∃ b, a = .bool b
      | .any => True) ∧
    (op = .ite → ∃ c, args.head? = some (.bool c))

/-- The operator has no result: it divides by zero, or raises to or shifts by a negative number. -/
def Undefined (op : Operator) (args : List Literal) : Prop :=
  match op, args with
  | div, [_, .number b] | mod, [_, .number b] => b = 0
  | pow, [_, .number b] | shl, [_, .number b] | shr, [_, .number b] => b < 0
  | _, _ => False

theorem result_eq_none_iff (h : op.Takes args) : op.result args = none ↔ op.Undefined args := by
  obtain ⟨hlen, hkinds, hite⟩ := h
  cases op <;> simp only [arity, List.length_eq_one_iff, List.length_eq_two, List.length_eq_three]
    at hlen
  case ite =>
    obtain ⟨c, a, b, rfl⟩ := hlen
    obtain ⟨c, hc⟩ := hite rfl
    cases hc
    simp [result, Undefined]
  case paren =>
    obtain ⟨a, rfl⟩ := hlen
    simp [result, Undefined]
  case neg | bitNot | not =>
    obtain ⟨a, rfl⟩ := hlen
    obtain ⟨a, rfl⟩ := hkinds a (by simp)
    simp [result, Undefined]
  case eq | ne =>
    obtain ⟨a, b, rfl⟩ := hlen
    simp [result, Undefined]
  all_goals
    obtain ⟨a, b, rfl⟩ := hlen
    obtain ⟨a, rfl⟩ := hkinds a (by simp)
    obtain ⟨b, rfl⟩ := hkinds b (by simp)
    simp [result, Undefined]

/-- **Folding is exact.** On operands of a machine word it gives the mathematical result if there is
one and it is of a machine word, whatever the size of exponents and shift amounts; and there is a
result but for division by zero and negative exponents and shift amounts. -/
theorem fold_exact (h : op.Takes args) (hargs : ∀ n, .number n ∈ args → -2 ^ 255 ≤ n ∧ n < 2 ^ 256) :
    (op.result args = none ↔ op.Undefined args) ∧
    ∀ r, op.fold args = some r ↔
      op.result args = some r ∧ ∀ n, r = .number n → -2 ^ 255 ≤ n ∧ n < 2 ^ 256 := by
  have hfits : ∀ n, .number n ∈ args → Literal.fitsWord n = true := fun n hn =>
    Literal.fitsWord_iff.2 (hargs n hn)
  refine ⟨result_eq_none_iff h, fun r => ⟨fun hr => ⟨result_of_fold hfits hr, ?_⟩, ?_⟩⟩
  · rintro n rfl
    unfold fold at hr
    split at hr
    · split_ifs at hr with hn
      cases hr
      exact Literal.fitsWord_iff.1 hn
    · rename_i hnot
      exact (hnot n hr).elim
  · rintro ⟨hr, hword⟩
    have hrfits : ∀ n, r = .number n → Literal.fitsWord n = true := fun n hn =>
      Literal.fitsWord_iff.2 (hword n hn)
    rw [fold, foldExact_of_result hfits hr hrfits]
    cases r with
    | number n => exact if_pos (hrfits n rfl)
    | bool b => rfl

/-- The least number of a machine word is a power, and an odd power of -1 is found without computing
it. -/
theorem fold_exact_pow : pow.fold [.number (-2), .number 255] = some (.number (-2 ^ 255)) ∧
    pow.fold [.number (-1), .number (2 ^ 256 - 1)] = some (.number (-1)) := by
  have htakes : ∀ a b, pow.Takes [.number a, .number b] := fun a b => ⟨rfl, by simp [operand,
    isArithmetic], nofun⟩
  refine ⟨((fold_exact (htakes _ _) (by simp)).2 _).2 ⟨?_, by simp⟩,
    ((fold_exact (htakes _ _) (by simp)).2 _).2 ⟨?_, by simp⟩⟩
  · simp [result]
  · have hodd : Odd (2 ^ 256 - 1 : Int).toNat := by decide +kernel
    simp only [result, hodd.neg_one_pow]
    norm_num

end Operator

end Shroud
