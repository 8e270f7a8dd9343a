import Mathlib

/-! The last `w` digits of a number in base `b`, most significant first, with leading zeros: how a
fractional part is written in a field of fixed width. -/

namespace ClickHouse.Lib.FixedDigits

/-- The `w` lowest digits of `v` in base `b`, the most significant first. -/
def fixedDigits (b : ℕ) : ℕ → ℕ → List Char
  | 0, _ => []
  | w + 1, v => fixedDigits b w (v / b) ++ [Nat.digitChar (v % b)]

variable {b : ℕ}

@[simp]
lemma fixedDigits_zero (v : ℕ) : fixedDigits b 0 v = [] :=
  rfl

lemma fixedDigits_succ (w v : ℕ) : fixedDigits b (w + 1) v = fixedDigits b w (v / b) ++ [Nat.digitChar (v % b)] :=
  rfl

@[simp]
lemma length_fixedDigits (w v : ℕ) : (fixedDigits b w v).length = w := by
  induction w generalizing v with
  | zero => rfl
  | succ w ih => simp [fixedDigits_succ, ih]

lemma mod_pow_succ_div (b w v : ℕ) : v % b ^ (w + 1) / b = v / b % b ^ w := by
  rw [pow_succ', Nat.mod_mul_right_div_self]

lemma mod_pow_succ_mod (b w v : ℕ) : v % b ^ (w + 1) % b = v % b := by
  rw [pow_succ', Nat.mod_mul_right_mod]

lemma mod_pow_succ_eq (b w v : ℕ) : v % b ^ (w + 1) = v / b % b ^ w * b + v % b := by
  rw [← mod_pow_succ_div, ← mod_pow_succ_mod b w v, Nat.mul_comm, Nat.div_add_mod]

/-- Only the `w` lowest digits are written. -/
lemma fixedDigits_mod_pow (w v : ℕ) : fixedDigits b w (v % b ^ w) = fixedDigits b w v := by
  induction w generalizing v with
  | zero => rfl
  | succ w ih => rw [fixedDigits_succ, fixedDigits_succ, mod_pow_succ_div, ih, mod_pow_succ_mod]

lemma fixedDigits_zero_value (w : ℕ) : fixedDigits b w 0 = List.replicate w '0' := by
  induction w with
  | zero => rfl
  | succ w ih => rw [fixedDigits_succ, Nat.zero_div, ih, Nat.zero_mod, List.replicate_succ']; rfl

/-- Splitting off the `k` highest digits of a field of `w + k`. -/
lemma fixedDigits_add (w k v : ℕ) :
    fixedDigits b (w + k) v = fixedDigits b k (v / b ^ w) ++ fixedDigits b w v := by
  induction w generalizing v with
  | zero => simp
  | succ w ih =>
    rw [Nat.add_right_comm, fixedDigits_succ, ih, fixedDigits_succ, List.append_assoc, Nat.div_div_eq_div_mul,
      ← pow_succ']

/-- A value shifted up by `k` places is written with `k` zeros after its digits. -/
lemma fixedDigits_mul_pow (hb : 0 < b) (w k v : ℕ) :
    fixedDigits b (k + w) (v * b ^ k) = fixedDigits b w v ++ List.replicate k '0' := by
  rw [fixedDigits_add, Nat.mul_div_cancel _ (by positivity), ← fixedDigits_mod_pow k, Nat.mul_mod_left,
    fixedDigits_zero_value]

lemma fixedDigits_two (v : ℕ) : fixedDigits b 2 v = [Nat.digitChar (v / b % b), Nat.digitChar (v % b)] :=
  rfl

/-- The text of a number with more than `w` digits is the text of its head followed by its `w`
last digits. -/
lemma toDigits_eq_append_fixedDigits (hb : 1 < b) (w : ℕ) {n : ℕ} (h : b ^ w ≤ n) :
    Nat.toDigits b n = Nat.toDigits b (n / b ^ w) ++ fixedDigits b w n := by
  induction w generalizing n with
  | zero => simp
  | succ w ih =>
    have hbn : b ≤ n := le_trans (Nat.le_self_pow (Nat.succ_ne_zero w) b) h
    have hw : b ^ w ≤ n / b := (Nat.le_div_iff_mul_le (by omega)).mpr (by rw [← pow_succ]; exact h)
    rw [Nat.toDigits_of_base_le hb hbn, ih hw, fixedDigits_succ, List.append_assoc, Nat.div_div_eq_div_mul,
      ← pow_succ']

lemma digitChar_eq_zero_iff {d : ℕ} (hd : d < 10) : Nat.digitChar d = '0' ↔ d = 0 := by
  revert d
  decide

/-- The character the source computes as `'0' + d`. -/
lemma ofNat_zero_add_eq_digitChar {d : ℕ} (hd : d < 10) : Char.ofNat ('0'.toNat + d) = Nat.digitChar d := by
  revert d
  decide

/-- Dropping the trailing zeros of a decimal field leaves nothing exactly when the value is a
multiple of `10 ^ w`. -/
lemma rdropWhile_fixedDigits_eq_nil_iff (w v : ℕ) :
    (fixedDigits 10 w v).rdropWhile (· = '0') = [] ↔ v % 10 ^ w = 0 := by
  induction w generalizing v with
  | zero => simp [Nat.mod_one]
  | succ w ih =>
    rw [fixedDigits_succ, List.rdropWhile_concat]
    have hd : v % 10 < 10 := Nat.mod_lt v (by decide)
    have hsplit := mod_pow_succ_eq 10 w v
    split_ifs with hz
    · rw [ih, hsplit]
      have h0 : v % 10 = 0 := (digitChar_eq_zero_iff hd).mp (by simpa using hz)
      omega
    · have h0 : v % 10 ≠ 0 := fun h => hz (by simp [h])
      simp only [List.append_eq_nil_iff, List.cons_ne_nil, and_false, false_iff]
      omega

end ClickHouse.Lib.FixedDigits
