import Shroud.Lowering.Words
import Shroud.Proofs.Typing.Conversions

/-! # Words and values

What the expressions compute that move values to the words of circuit buffers and back: truncation
and sign extension by casts, with `Expr.eval` for the part of the target language that they use. A
value comes back from its word, and a word that encodes a value comes back from the value. Ciphertexts
and keys are copied word for word and not evaluated.
-/

namespace Shroud

namespace Solidity

/-- The number of a type that a cast makes of a number: unsigned types and addresses keep the low
bits, signed types read them as two's complement. -/
def DataType.wrap : DataType → Int → Int
  | uint n, k => k % 2 ^ n
  | int n, k => k.bmod (2 ^ n)
  | address, k | addressPayable, k => k % 2 ^ 160
  | _, k => k

/-- A cast works on numbers. -/
def DataType.cast (t : DataType) : Literal → Literal
  | .number k => .number (t.wrap k)
  | .bool b => .bool b

mutual

/-- The value of an expression, given those of the expressions that are neither constants nor casts
nor operators. -/
def Expr.eval (ρ : Expr → Option Literal) : Expr → Option Literal
  | .bool b => some (.bool b)
  | .number n => some (.number n)
  | .cast t e => (e.eval ρ).map t.cast
  | .op o args => (evalList ρ args).bind o.result
  | e => ρ e

def Expr.evalList (ρ : Expr → Option Literal) : List Expr → Option (List Literal)
  | [] => some []
  | e :: es => (e.eval ρ).bind fun d => (evalList ρ es).map (d :: ·)

end

end Solidity

namespace Lowering

open Solidity.Expr (eval evalList)

variable {ρ : Solidity.Expr → Option Literal} {t : DataType} {d : Literal} {e w : Solidity.Expr}
  {v : Int}

/-- The types whose values fit a word. -/
def FitsWord : DataType → Prop
  | .bool | .address | .addressPayable => True
  | .uint n | .int n => n ≤ 256
  | _ => False

/-- The word of a value depends on nothing but the value. -/
theorem eval_toWord_congr (h : e.eval ρ = w.eval ρ) :
    (toWord t e).eval ρ = (toWord t w).eval ρ := by
  unfold toWord
  split <;> (try split) <;> simp only [eval, evalList, h]

/-- The value of a word depends on nothing but the word. -/
theorem eval_fromWord_congr (h : e.eval ρ = w.eval ρ) :
    (fromWord t e).eval ρ = (fromWord t w).eval ρ := by
  unfold fromWord
  split <;> (try split) <;> simp only [eval, evalList, h]

/-- The numbers of unsigned types and addresses are words as they are. -/
theorem emod_word {n : Nat} (hn : n ≤ 256) (h : 0 ≤ v ∧ v < 2 ^ n) :
    v % 2 ^ n = v ∧ v % 2 ^ 256 = v ∧ v < 2 ^ 256 := by
  have hlt := h.2.trans_le (DataType.two_pow_le hn)
  exact ⟨Int.emod_eq_of_lt h.1 h.2, Int.emod_eq_of_lt h.1 hlt, hlt⟩

/-- A number of a signed type is extended to the widest one, and read from its word again. -/
theorem bmod_word {n : Nat} (hn : n ≤ 256) (h : (DataType.int n).Contains (.number v)) :
    v.bmod (2 ^ 256) = v ∧ (v % 2 ^ 256).bmod (2 ^ 256) = v ∧ v.bmod (2 ^ n) = v := by
  have hwide : (DataType.int 256).Contains (.number v) :=
    h.of_convertsTo (by simpa [DataType.convertsTo] using hn) rfl
  have hext : v.bmod (2 ^ 256) = v := hwide.wrap_eq
  refine ⟨hext, ?_, h.wrap_eq⟩
  exact (Int.emod_bmod v (2 ^ 256)).trans hext

theorem eval_cast {s : Solidity.DataType} {k l : Int} (h : e.eval ρ = some (.number k))
    (hl : s.wrap k = l) : (Solidity.Expr.cast s e).eval ρ = some (.number l) := by
  rw [eval, h, Option.map_some, Solidity.DataType.cast, hl]

/-- A value is encoded by a word, and the word gives it back. -/
theorem eval_fromWord_toWord (ht : FitsWord t) (hd : t.Contains d) (he : e.eval ρ = some d) :
    (∃ k, (toWord t e).eval ρ = some (.number k) ∧ 0 ≤ k ∧ k < 2 ^ 256) ∧
      (fromWord t (toWord t e)).eval ρ = some d := by
  cases d with
  | bool b =>
    cases t with
    | bool =>
      cases b <;> simp [toWord, fromWord, eval, evalList, he, Solidity.Expr.nat, Operator.result]
    | boolLit _ => exact ht.elim
    | _ => exact hd.elim
  | number v =>
    cases t with
    | uint n =>
      obtain ⟨hlow, hword, hlt⟩ := emod_word ht hd
      have hto : (toWord (.uint n) e).eval ρ = some (.number v) := by
        rw [toWord]
        split
        · exact he
        · exact eval_cast he hword
      refine ⟨⟨v, hto, hd.1, hlt⟩, ?_⟩
      rw [fromWord]
      split
      · exact hto
      · exact eval_cast hto hlow
    | int n =>
      obtain ⟨hext, hword, hlow⟩ := bmod_word ht hd
      have hto : (toWord (.int n) e).eval ρ = some (.number (v % 2 ^ 256)) := by
        rw [toWord]
        split
        · exact eval_cast he rfl
        · exact eval_cast (eval_cast he hext) rfl
      have hread := eval_cast (s := .int 256) hto hword
      refine ⟨⟨_, hto, Int.emod_nonneg v (by norm_num), Int.emod_lt_of_pos v (by norm_num)⟩, ?_⟩
      rw [fromWord]
      split
      · exact hread
      · exact eval_cast hread hlow
    | address | addressPayable =>
      obtain ⟨hlow, hword, hlt⟩ := emod_word (n := 160) (by norm_num) hd
      have hto := eval_cast (s := .uint 256) (eval_cast (s := .uint 160) he hlow) hword
      exact ⟨⟨v, hto, hd.1, hlt⟩, eval_cast (eval_cast (s := .uint 160) hto hlow) hlow⟩
    | bool => exact hd.elim
    | _ => exact ht.elim

/-- **Words and values round-trip.** Every value of a type is encoded by a word of 256 bits and is
read from it again, and every word that encodes a value is what the value read from it is encoded
by. -/
theorem words_roundTrip (ht : FitsWord t) (ρ : Solidity.Expr → Option Literal) :
    (∀ d (e : Solidity.Expr), t.Contains d → e.eval ρ = some d →
      (∃ k, (toWord t e).eval ρ = some (.number k) ∧ 0 ≤ k ∧ k < 2 ^ 256) ∧
        (fromWord t (toWord t e)).eval ρ = some d) ∧
    ∀ d (e w : Solidity.Expr), t.Contains d → e.eval ρ = some d → w.eval ρ = (toWord t e).eval ρ →
      (toWord t (fromWord t w)).eval ρ = w.eval ρ := by
  refine ⟨fun d e hd he => eval_fromWord_toWord ht hd he, fun d e w hd he hw => ?_⟩
  have hvalue : (fromWord t w).eval ρ = e.eval ρ := by
    rw [eval_fromWord_congr hw, (eval_fromWord_toWord ht hd he).2, he]
  rw [eval_toWord_congr hvalue, hw]

/-- The least number of eight bits becomes a word that ends in `0x80` after 31 bytes `0xff`, and
comes back. -/
theorem words_roundTrip_int8 :
    (toWord (.int 8) (.number (-128))).eval (fun _ => none) = some (.number (2 ^ 256 - 128)) ∧
    (fromWord (.int 8) (toWord (.int 8) (.number (-128)))).eval (fun _ => none) =
      some (.number (-128)) ∧
    (toWord (.int 8) (fromWord (.int 8) (.number (2 ^ 256 - 128)))).eval (fun _ => none) =
      some (.number (2 ^ 256 - 128)) := by
  have hword : (toWord (.int 8) (.number (-128))).eval (fun _ => none) =
      some (.number (2 ^ 256 - 128)) := by decide +kernel
  have hd : (DataType.int 8).Contains (.number (-128)) := by simp [DataType.Contains]
  have ht : FitsWord (.int 8) := by simp [FitsWord]
  obtain ⟨hvalues, hwords⟩ := words_roundTrip ht fun _ => none
  exact ⟨hword, (hvalues _ _ hd rfl).2, hwords _ _ (.number (2 ^ 256 - 128)) hd rfl hword.symm⟩

end Lowering

end Shroud
