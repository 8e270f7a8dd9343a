import Mathlib

/-! Division by a constant through a fixed-point reciprocal. A value `f` with
`n * K ≤ f * P < n * K + K` is `n / P` in fixed point with `K` as one: its integer part
`f / K` is `n / P`, and its fraction keeps the same bounds for `n % P`, so multiplying the
fraction by a base `B` with `P = B * P'` brings up the next digit. The bounds follow from a
reciprocal `M ≈ K / P` that is rounded up, with or without a shift; a reciprocal rounded down
gives Barrett's quotient, at most one below the true one. -/

namespace ClickHouse.Lib.FixedPoint

section Scaled

variable {K P f r : ℕ}

/-- The integer part of a fixed-point value of `r / P` is `r / P`, and its fraction is a
fixed-point value of `(r % P) / P`. -/
lemma div_mod_of_scaled (hK : 0 < K) (hP : 0 < P) (hlo : r * K ≤ f * P) (hhi : f * P < r * K + K) :
    f / K = r / P ∧ r % P * K ≤ f % K * P ∧ f % K * P < r % P * K + K := by
  have hfK := Nat.mod_lt f hK
  have hrP := Nat.mod_lt r hP
  have hq : f / K = r / P := by
    apply le_antisymm
    · have h : f / K * (K * P) < (r / P + 1) * (K * P) :=
        calc f / K * (K * P) = K * (f / K) * P := by ring
          _ ≤ f * P := Nat.mul_le_mul_right P (Nat.mul_div_le f K)
          _ < r * K + K := hhi
          _ = (P * (r / P) + r % P + 1) * K := by rw [Nat.div_add_mod]; ring
          _ ≤ (P * (r / P) + P) * K := Nat.mul_le_mul_right K (by omega)
          _ = (r / P + 1) * (K * P) := by ring
      exact Nat.lt_succ_iff.mp (Nat.lt_of_mul_lt_mul_right h)
    · have h : r / P * (K * P) < (f / K + 1) * (K * P) :=
        calc r / P * (K * P) = P * (r / P) * K := by ring
          _ ≤ r * K := Nat.mul_le_mul_right K (Nat.mul_div_le r P)
          _ ≤ f * P := hlo
          _ = (K * (f / K) + f % K) * P := by rw [Nat.div_add_mod]
          _ < (K * (f / K) + K) * P := Nat.mul_lt_mul_of_pos_right (by omega) hP
          _ = (f / K + 1) * (K * P) := by ring
      exact Nat.lt_succ_iff.mp (Nat.lt_of_mul_lt_mul_right h)
  -- both sides share the integer part `r / P`, which cancels
  have hlo' : (P * (r / P) + r % P) * K ≤ (K * (r / P) + f % K) * P := by
    rw [Nat.div_add_mod, ← hq, Nat.div_add_mod]
    exact hlo
  have hhi' : (K * (r / P) + f % K) * P < (P * (r / P) + r % P) * K + K := by
    rw [Nat.div_add_mod, ← hq, Nat.div_add_mod]
    exact hhi
  refine ⟨hq, ?_, ?_⟩ <;> linarith

/-- One digit of base `B` out of the fraction: with `P = B * P'`, the integer part of the
fraction times `B` is the next digit of `r`, and what is left is a fixed-point value of the rest. -/
lemma digit_of_scaled (hK : 0 < K) {B P' : ℕ} (hP' : 0 < P') (hlo : r * K ≤ f % K * (B * P'))
    (hhi : f % K * (B * P') < r * K + K) :
    f % K * B / K = r / P' ∧ r % P' * K ≤ f % K * B % K * P' ∧ f % K * B % K * P' < r % P' * K + K := by
  apply div_mod_of_scaled hK hP'
  · rw [Nat.mul_assoc]
    exact hlo
  · rw [Nat.mul_assoc]
    exact hhi

end Scaled

section Reciprocal

variable {K P M n : ℕ}

/-- A reciprocal `M` of `P` rounded up, `M * P = K + e`, makes `M * n` a fixed-point value of
`n / P` while the error `e * n` stays below one. -/
lemma scaled_of_reciprocal (he : K ≤ M * P) (hn : (M * P - K) * n < K) :
    n * K ≤ M * n * P ∧ M * n * P < n * K + K := by
  obtain ⟨e, he⟩ := Nat.exists_eq_add_of_le he
  rw [he, Nat.add_sub_cancel_left] at hn
  have hprod : M * n * P = n * K + e * n := by
    rw [Nat.mul_right_comm, he]
    ring
  omega

variable {S : ℕ}

/-- The same with `M * n` shifted down by `S`, as when a product is taken to a narrower word:
the error must now also make up what the shift drops. -/
lemma scaled_of_shifted_reciprocal (hS : 0 < S) (hP : 0 < P) (he : K * S ≤ M * P)
    (hlo : P * S ≤ (M * P - K * S) * n) (hhi : (M * P - K * S) * n < K * S) :
    n * K ≤ M * n / S * P ∧ M * n / S * P < n * K + K := by
  obtain ⟨e, he⟩ := Nat.exists_eq_add_of_le he
  rw [he, Nat.add_sub_cancel_left] at hlo hhi
  -- `M * n = S * (M * n / S) + m` with `m < S`, and `M * n * P = n * K * S + e * n`
  have hsplit : (S * (M * n / S) + M * n % S) * P = n * (K * S) + e * n := by
    rw [Nat.div_add_mod, Nat.mul_right_comm, he]
    ring
  have hm : M * n % S * P < S * P := Nat.mul_lt_mul_of_pos_right (Nat.mod_lt _ hS) hP
  have hm0 : 0 ≤ M * n % S * P := Nat.zero_le _
  constructor
  · have h : n * K * S < M * n / S * P * S := by nlinarith
    exact (Nat.lt_of_mul_lt_mul_right h).le
  · have h : M * n / S * P * S < (n * K + K) * S := by nlinarith
    exact Nat.lt_of_mul_lt_mul_right h

/-- The shifted product rounded up by one: no lower condition, and a tighter upper one. -/
lemma scaled_of_shifted_reciprocal_succ (hS : 0 < S) (hP : 0 < P) (he : K * S ≤ M * P)
    (hhi : (M * P - K * S) * n + P * S < K * S) :
    n * K ≤ (M * n / S + 1) * P ∧ (M * n / S + 1) * P < n * K + K := by
  obtain ⟨e, he⟩ := Nat.exists_eq_add_of_le he
  rw [he, Nat.add_sub_cancel_left] at hhi
  have hsplit : (S * (M * n / S) + M * n % S) * P = n * (K * S) + e * n := by
    rw [Nat.div_add_mod, Nat.mul_right_comm, he]
    ring
  have hm : M * n % S * P < S * P := Nat.mul_lt_mul_of_pos_right (Nat.mod_lt _ hS) hP
  have hm0 : 0 ≤ M * n % S * P := Nat.zero_le _
  constructor
  · have h : n * K * S < (M * n / S + 1) * P * S := by nlinarith
    exact (Nat.lt_of_mul_lt_mul_right h).le
  · have h : (M * n / S + 1) * P * S < (n * K + K) * S := by nlinarith
    exact Nat.lt_of_mul_lt_mul_right h

end Reciprocal

/-- The high word of a product of two-word numbers, as a schoolbook multiplication takes it: the
product of the high words, and the carry out of the middle products and of the high half of the
product of the low words. -/
lemma mul_div_sq_of_words {W : ℕ} (hW : 0 < W) (a b c d : ℕ) :
    (a * W + b) * (c * W + d) / (W * W) = a * c + (a * d + b * c + b * d / W) / W := by
  have h1 := Nat.div_add_mod (b * d) W
  have h2 := Nat.div_add_mod (a * d + b * c + b * d / W) W
  have hr1 := Nat.mod_lt (b * d) hW
  have hr2 := Nat.mod_lt (a * d + b * c + b * d / W) hW
  -- the product is `(a * c + m / W) * W * W + W * (m % W) + (b * d) % W` for the middle sum `m`
  have hsplit : (a * W + b) * (c * W + d) =
      (a * c + (a * d + b * c + b * d / W) / W) * (W * W) + (W * ((a * d + b * c + b * d / W) % W) + b * d % W) := by
    nlinarith
  have hrest : W * ((a * d + b * c + b * d / W) % W) + b * d % W < W * W := by nlinarith
  rw [hsplit, Nat.add_comm, Nat.add_mul_div_right _ _ (Nat.mul_pos hW hW), Nat.div_eq_of_lt hrest, Nat.zero_add]

/-- Barrett's quotient `n * (K / D) / K`, with the reciprocal rounded down, is never above
`n / D` and, for `n ≤ K`, at most one below it: the remainder left is under `2 * D`. -/
lemma barrett_quotient_bounds {K D n : ℕ} (hK : 0 < K) (hD : 0 < D) (hn : n ≤ K) :
    n * (K / D) / K * D ≤ n ∧ n < n * (K / D) / K * D + 2 * D := by
  constructor
  · have h : n * (K / D) / K * D * K ≤ n * K :=
      calc n * (K / D) / K * D * K = n * (K / D) / K * K * D := by ring
        _ ≤ n * (K / D) * D := Nat.mul_le_mul_right D (Nat.div_mul_le_self _ K)
        _ = n * (K / D * D) := by ring
        _ ≤ n * K := Nat.mul_le_mul_left n (Nat.div_mul_le_self K D)
    exact Nat.le_of_mul_le_mul_right h hK
  · have h : n * K < (n * (K / D) / K * D + 2 * D) * K :=
      calc n * K ≤ n * (D * (K / D + 1)) := Nat.mul_le_mul_left n (Nat.lt_mul_div_succ K hD).le
        _ = n * (K / D) * D + n * D := by ring
        _ < K * (n * (K / D) / K + 1) * D + n * D :=
          Nat.add_lt_add_right (Nat.mul_lt_mul_of_pos_right (Nat.lt_mul_div_succ _ hK) hD) _
        _ ≤ K * (n * (K / D) / K + 1) * D + K * D := Nat.add_le_add_left (Nat.mul_le_mul_right D hn) _
        _ = (n * (K / D) / K * D + 2 * D) * K := by ring
    exact Nat.lt_of_mul_lt_mul_right h

/-- One correction step after a quotient at most one below: subtracting the divisor once more when
the remainder left allows it gives the quotient and the remainder. -/
lemma correct_once {D n q : ℕ} (hlo : q * D ≤ n) (hhi : n < q * D + 2 * D) :
    (if D ≤ n - q * D then (q + 1, n - q * D - D) else (q, n - q * D)) = (n / D, n % D) := by
  have hmod := Nat.div_add_mod n D
  split_ifs with h
  · have hq : n / D = q + 1 := Nat.div_eq_of_lt_le (by rw [Nat.succ_mul]; omega) (by rw [Nat.succ_mul, Nat.succ_mul]; omega)
    rw [hq, Nat.mul_succ, Nat.mul_comm] at hmod
    rw [hq]
    congr 1
    omega
  · have hq : n / D = q := Nat.div_eq_of_lt_le (by omega) (by rw [Nat.succ_mul]; omega)
    rw [hq, Nat.mul_comm] at hmod
    rw [hq]
    congr 1
    omega

end ClickHouse.Lib.FixedPoint
