import Mathlib.Data.BitVec

/-! Words that agree from some bit up. Every word between two bounds that agree there agrees with
them; so do all the words below `2 ^ k`, and all the words whose complement is below `2 ^ k`.
Within one sign the signed order of words is their unsigned order. -/

namespace ClickHouse.Lib.HighBits

lemma div_two_pow_eq_of_le_of_le {a v b n : ℕ} (hav : a ≤ v) (hvb : v ≤ b)
    (hab : a / 2 ^ n = b / 2 ^ n) : v / 2 ^ n = a / 2 ^ n :=
  le_antisymm (hab ▸ Nat.div_le_div_right hvb) (Nat.div_le_div_right hav)

lemma div_two_pow_eq_of_xor_lt {a b n : ℕ} (h : a ^^^ b < 2 ^ n) : a / 2 ^ n = b / 2 ^ n := by
  apply Nat.eq_of_testBit_eq
  intro i
  have hx : (a ^^^ b).testBit (i + n) = false :=
    Nat.testBit_lt_two_pow (lt_of_lt_of_le h (Nat.pow_le_pow_right (by omega) (Nat.le_add_left n i)))
  rw [Nat.testBit_xor] at hx
  rw [Nat.testBit_div_two_pow, Nat.testBit_div_two_pow]
  revert hx
  cases a.testBit (i + n) <;> cases b.testBit (i + n) <;> simp

variable {n : ℕ}

/-- `x` and `y` have the same bits from bit `k` up. -/
def AgreeFrom (k : ℕ) (x y : BitVec n) : Prop := ∀ i, k ≤ i → x.getLsbD i = y.getLsbD i

lemma AgreeFrom.mono {k k' : ℕ} {x y : BitVec n} (h : AgreeFrom k x y) (hk : k ≤ k') :
    AgreeFrom k' x y :=
  fun i hi => h i (le_trans hk hi)

lemma AgreeFrom.eq {x y : BitVec n} (h : AgreeFrom 0 x y) : x = y :=
  BitVec.eq_of_getLsbD_eq fun i _ => h i (Nat.zero_le i)

lemma getLsbD_of_toNat_lt {k i : ℕ} {x : BitVec n} (hx : x.toNat < 2 ^ k) (hi : k ≤ i) :
    x.getLsbD i = false :=
  Nat.testBit_lt_two_pow (lt_of_lt_of_le hx (Nat.pow_le_pow_right (by omega) hi))

lemma getLsbD_of_not_lt {k i : ℕ} {x : BitVec n} (hx : (~~~x).toNat < 2 ^ k) (hi : k ≤ i)
    (hin : i < n) : x.getLsbD i = true := by
  have h := getLsbD_of_toNat_lt hx hi
  rw [BitVec.getLsbD_not] at h
  simpa [hin] using h

lemma agreeFrom_of_toNat_lt {k : ℕ} {x y : BitVec n} (hx : x.toNat < 2 ^ k) (hy : y.toNat < 2 ^ k) :
    AgreeFrom k x y := by
  intro i hi
  rw [getLsbD_of_toNat_lt hx hi, getLsbD_of_toNat_lt hy hi]

lemma agreeFrom_of_not_lt {k : ℕ} {x y : BitVec n} (hx : (~~~x).toNat < 2 ^ k)
    (hy : (~~~y).toNat < 2 ^ k) : AgreeFrom k x y := by
  intro i hi
  by_cases hin : i < n
  · rw [getLsbD_of_not_lt hx hi hin, getLsbD_of_not_lt hy hi hin]
  · rw [BitVec.getLsbD_of_ge x i (by omega), BitVec.getLsbD_of_ge y i (by omega)]

/-- A word between two bounds whose difference lies below bit `k` keeps their bits from `k` up. -/
lemma agreeFrom_of_le_of_le {k : ℕ} {a x b : BitVec n} (hax : a.toNat ≤ x.toNat)
    (hxb : x.toNat ≤ b.toNat) (hab : (a ^^^ b).toNat < 2 ^ k) : AgreeFrom k x a := by
  rw [BitVec.toNat_xor] at hab
  have hdiv := div_two_pow_eq_of_le_of_le hax hxb (div_two_pow_eq_of_xor_lt hab)
  intro i hi
  have h := congrArg (fun m => m.testBit (i - k)) hdiv
  simp only [Nat.testBit_div_two_pow, Nat.sub_add_cancel hi] at h
  exact h

lemma toInt_eq_toNat_of_nonneg {x : BitVec n} (h : 0 ≤ x.toInt) : x.toInt = x.toNat := by
  have hmsb : x.msb = false := by simp [BitVec.msb_eq_toInt, h]
  rw [BitVec.toInt_eq_msb_cond, hmsb, if_neg (by simp)]

lemma toInt_eq_toNat_sub_of_neg {x : BitVec n} (h : x.toInt < 0) :
    x.toInt = x.toNat - ((2 ^ n : ℕ) : ℤ) := by
  have hmsb : x.msb = true := by simp [BitVec.msb_eq_toInt, h]
  rw [BitVec.toInt_eq_msb_cond, hmsb, if_pos rfl]

lemma toNat_not_of_neg {x : BitVec n} (h : x.toInt < 0) : ((~~~x).toNat : ℤ) = -x.toInt - 1 := by
  have hlt := x.isLt
  rw [BitVec.toNat_not, toInt_eq_toNat_sub_of_neg h]
  omega

/-- Two words of one sign compare the same way signed and unsigned. -/
lemma toNat_le_toNat_of_toInt_le {x y : BitVec n} (hsign : x.toInt < 0 ↔ y.toInt < 0)
    (h : x.toInt ≤ y.toInt) : x.toNat ≤ y.toNat := by
  by_cases hx : x.toInt < 0
  · have hy := hsign.mp hx
    rw [toInt_eq_toNat_sub_of_neg hx, toInt_eq_toNat_sub_of_neg hy] at h
    omega
  · have hy : ¬ y.toInt < 0 := fun hy => hx (hsign.mpr hy)
    rw [toInt_eq_toNat_of_nonneg (by omega), toInt_eq_toNat_of_nonneg (by omega)] at h
    omega

end ClickHouse.Lib.HighBits
