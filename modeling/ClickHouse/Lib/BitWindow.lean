import Mathlib.Data.BitVec
import Mathlib.Tactic.Lemma

/-! The window of meaningful bits of a machine word, from the leading and trailing zero counts
of core's `BitVec.clz` and `BitVec.ctz`: the word is below `2 ^ (n - clz)`, divisible by
`2 ^ ctz`, and shifting it down to a window it fits and back is exact. -/

namespace ClickHouse.Lib.BitWindow

lemma toNat_mod_two_pow_ctz {n : ℕ} (x : BitVec n) : x.toNat % 2 ^ x.ctz.toNat = 0 := by
  apply Nat.eq_of_testBit_eq
  intro i
  rw [Nat.testBit_mod_two_pow, Nat.zero_testBit]
  by_cases hi : i < x.ctz.toNat
  · have h := BitVec.getLsbD_false_of_lt_ctz hi
    rw [BitVec.getLsbD] at h
    rw [h, Bool.and_false]
  · simp [hi]

lemma two_pow_ctz_dvd {n : ℕ} (x : BitVec n) : 2 ^ x.ctz.toNat ∣ x.toNat :=
  Nat.dvd_of_mod_eq_zero (toNat_mod_two_pow_ctz x)

lemma toNat_clz_le {n : ℕ} (x : BitVec n) : x.clz.toNat ≤ n := by
  have h := BitVec.le_def.mp (BitVec.clz_le (x := x))
  simpa [Nat.mod_eq_of_lt (Nat.lt_two_pow_self (n := n))] using h

lemma clz_add_ctz_lt {n : ℕ} {x : BitVec n} (hx : x ≠ 0) : x.clz.toNat + x.ctz.toNat < n := by
  have hlo := BitVec.two_pow_ctz_le_toNat_of_ne_zero hx
  have hhi := BitVec.toNat_lt_two_pow_sub_clz (x := x)
  have hlt : x.ctz.toNat < n - x.clz.toNat :=
    (Nat.pow_lt_pow_iff_right (by omega)).mp (lt_of_le_of_lt hlo hhi)
  omega

/-- A nonzero word below `2 ^ k` has at least `n - k` leading zeros. -/
lemma sub_le_clz {n k : ℕ} {x : BitVec n} (hx : x ≠ 0) (hk : x.toNat < 2 ^ k) :
    n - k ≤ x.clz.toNat := by
  have hn : 0 < n := by
    rcases Nat.eq_zero_or_pos n with h | h
    · subst h
      exact absurd (BitVec.eq_nil x) hx
    · exact h
  have hlo := BitVec.two_pow_sub_clz_le_toNat_of_ne_zero hn hx
  have hlt : n - 1 - x.clz.toNat < k :=
    (Nat.pow_lt_pow_iff_right (by omega)).mp (lt_of_le_of_lt hlo hk)
  omega

lemma shiftRight_lt {x n L T : ℕ} (hx : x < 2 ^ (n - L)) (hLT : L + T ≤ n) :
    x >>> T < 2 ^ (n - L - T) := by
  rw [Nat.shiftRight_eq_div_pow, Nat.div_lt_iff_lt_mul (Nat.two_pow_pos T), ← pow_add,
    show n - L - T + T = n - L by omega]
  exact hx

lemma shiftRight_shiftLeft {x T : ℕ} (hT : 2 ^ T ∣ x) : (x >>> T) <<< T = x := by
  rw [Nat.shiftRight_eq_div_pow, Nat.shiftLeft_eq, Nat.div_mul_cancel hT]

/-- A word fits any window wider than its own: fewer leading and fewer trailing zeros. -/
lemma shiftRight_lt_of_le {n L T : ℕ} {x : BitVec n} (hL : L ≤ x.clz.toNat) (hLT : L + T ≤ n) :
    x.toNat >>> T < 2 ^ (n - L - T) := by
  apply shiftRight_lt _ hLT
  calc x.toNat < 2 ^ (n - x.clz.toNat) := BitVec.toNat_lt_two_pow_sub_clz
    _ ≤ 2 ^ (n - L) := Nat.pow_le_pow_right (by omega) (by omega)

lemma shiftRight_shiftLeft_of_le {n T : ℕ} {x : BitVec n} (hT : T ≤ x.ctz.toNat) :
    (x.toNat >>> T) <<< T = x.toNat :=
  shiftRight_shiftLeft (Nat.dvd_trans (Nat.pow_dvd_pow 2 hT) (two_pow_ctz_dvd x))

end ClickHouse.Lib.BitWindow
