import Mathlib

/-! Values of `n` bits laid one after another in a stream of bits, lowest bit first, and buffers
whose entries are dealt out to `it` interleaved chunks, entry `it * k + i` being entry `k` of
chunk `i`. -/

namespace ClickHouse.Lib.WordStream

section Masks

variable {w : ℕ}

/-- `(1 << n) - 1` holds the `n` low bits of the word. -/
lemma getLsbD_shiftLeft_sub_one (n i : ℕ) :
    ((1 : BitVec w) <<< n - 1).getLsbD i = (decide (i < n) && decide (i < w)) := by
  have h1 : (1 : BitVec w).toNat = 1 % 2 ^ w := by simp
  rw [← BitVec.testBit_toNat, BitVec.toNat_sub, BitVec.toNat_shiftLeft, h1]
  rcases Nat.eq_zero_or_pos w with rfl | hw
  · simp
  have hone : 1 % 2 ^ w = 1 := Nat.mod_eq_of_lt (Nat.one_lt_two_pow (by omega))
  rw [hone, Nat.one_shiftLeft]
  rcases Nat.lt_or_ge n w with hn | hn
  · -- the mask is `2 ^ n - 1`
    have hpow : 2 ^ n < 2 ^ w := Nat.pow_lt_pow_right (by decide) hn
    have hpos : 1 ≤ 2 ^ n := Nat.one_le_two_pow
    have hsum : 2 ^ w - 1 + 2 ^ n % 2 ^ w = 2 ^ n - 1 + 2 ^ w := by
      rw [Nat.mod_eq_of_lt hpow]
      omega
    rw [hsum, Nat.add_mod_right, Nat.mod_eq_of_lt (by omega), Nat.testBit_two_pow_sub_one]
    by_cases hi : i < n
    · simp [hi, lt_trans hi hn]
    · simp [hi]
  · -- the one is shifted out and the mask is all ones
    have hzero : 2 ^ n % 2 ^ w = 0 := Nat.mod_eq_zero_of_dvd (Nat.pow_dvd_pow 2 hn)
    have hlt : 2 ^ w - 1 < 2 ^ w := Nat.sub_lt (Nat.two_pow_pos w) Nat.one_pos
    rw [hzero, Nat.add_zero, Nat.mod_eq_of_lt hlt, Nat.testBit_two_pow_sub_one]
    by_cases hi : i < w
    · simp [hi, lt_of_lt_of_le hi hn]
    · simp [hi]

/-- A word below `2 ^ n` keeps its value under the mask of `n` bits. -/
lemma and_shiftLeft_sub_one_of_lt {x : BitVec w} {n : ℕ} (hx : x.toNat < 2 ^ n) : x &&& ((1 : BitVec w) <<< n - 1) = x := by
  apply BitVec.eq_of_getLsbD_eq
  intro i hi
  rw [BitVec.getLsbD_and, getLsbD_shiftLeft_sub_one]
  by_cases hin : i < n
  · simp [hin, hi]
  · have hhigh : x.getLsbD i = false := by
      rw [← BitVec.testBit_toNat]
      exact Nat.testBit_lt_two_pow (lt_of_lt_of_le hx (Nat.pow_le_pow_right (by decide) (by omega)))
    simp [hhigh]

lemma getLsbD_and_shiftLeft_sub_one_of_le (x : BitVec w) {n i : ℕ} (hi : n ≤ i) :
    (x &&& ((1 : BitVec w) <<< n - 1)).getLsbD i = false := by
  rw [BitVec.getLsbD_and, getLsbD_shiftLeft_sub_one]
  simp [show ¬ i < n by omega]

end Masks

section Stream

variable {m : ℕ}

/-- Bit `p` of the stream of the values `xs 0, xs 1, ...`, each taking `n` bits. -/
def streamBit (n : ℕ) (xs : ℕ → BitVec m) (p : ℕ) : Bool := (xs (p / n)).getLsbD (p % n)

lemma streamBit_mul_add (n : ℕ) (xs : ℕ → BitVec m) {k i : ℕ} (hi : i < n) :
    streamBit n xs (k * n + i) = (xs k).getLsbD i := by
  rw [streamBit, Nat.mul_comm, Nat.mul_add_div (by omega), Nat.div_eq_of_lt hi, Nat.add_zero,
    Nat.mul_add_mod, Nat.mod_eq_of_lt hi]

/-- Adding `b` bits to a position that stays inside its word of `w` bits. -/
lemma add_of_mod_add_lt {x b w : ℕ} (h : x % w + b < w) : (x + b) / w = x / w ∧ (x + b) % w = x % w + b := by
  have hw : 0 < w := by omega
  rw [Nat.add_div hw, Nat.div_eq_of_lt (by omega : b < w), Nat.mod_eq_of_lt (by omega : b < w), if_neg (by omega),
    Nat.add_mod, Nat.mod_eq_of_lt (by omega : b < w), Nat.mod_eq_of_lt h]
  exact ⟨rfl, rfl⟩

/-- Adding `b < w` bits to a position that runs into the next word. -/
lemma add_of_le_mod_add {x b w : ℕ} (hb : b < w) (h : w ≤ x % w + b) :
    (x + b) / w = x / w + 1 ∧ (x + b) % w = x % w + b - w := by
  have hw : 0 < w := by omega
  have hr : x % w < w := Nat.mod_lt x hw
  rw [Nat.add_div hw, Nat.div_eq_of_lt hb, Nat.mod_eq_of_lt hb, if_pos h, Nat.add_mod, Nat.mod_eq_of_lt hb,
    Nat.mod_eq_sub_mod h, Nat.mod_eq_of_lt (by omega)]
  exact ⟨rfl, rfl⟩

/-- Adding `b < w` bits to a position crosses at most one boundary of `w`, and it crosses one
exactly when the new position lies below `b` in its word. -/
lemma add_div_eq_ite {x b w : ℕ} (hb : b < w) :
    (x + b) / w = x / w + if (x + b) % w < b then 1 else 0 := by
  have hr : x % w < w := Nat.mod_lt x (by omega)
  by_cases hc : w ≤ x % w + b
  · obtain ⟨hdiv, hmod⟩ := add_of_le_mod_add hb hc
    rw [hdiv, hmod, if_pos (by omega)]
  · obtain ⟨hdiv, hmod⟩ := add_of_mod_add_lt (x := x) (by omega : x % w + b < w)
    rw [hdiv, hmod, if_neg (by omega), Nat.add_zero]

/-- The last of `w` values of `b` bits starts in word `b - 1`, at `w - b`. -/
lemma sub_one_mul_eq {b w : ℕ} (hb : 0 < b) (hbw : b ≤ w) : (w - 1) * b = w * (b - 1) + (w - b) := by
  have h₁ : (w - 1) * b = w * b - b := Nat.sub_one_mul w b
  have h₂ : w * (b - 1) = w * b - w := Nat.mul_sub_one w b
  have h₃ : w ≤ w * b := Nat.le_mul_of_pos_right w hb
  omega

lemma sub_one_mul_div {b w : ℕ} (hb : 0 < b) (hbw : b ≤ w) : (w - 1) * b / w = b - 1 := by
  rw [sub_one_mul_eq hb hbw, Nat.mul_add_div (by omega), Nat.div_eq_of_lt (by omega), Nat.add_zero]

lemma sub_one_mul_mod {b w : ℕ} (hb : 0 < b) (hbw : b ≤ w) : (w - 1) * b % w = w - b := by
  rw [sub_one_mul_eq hb hbw, Nat.mul_add_mod, Nat.mod_eq_of_lt (by omega)]

end Stream

section Chunks

variable {β : Type}

/-- The entries `it * k + i` with `i < it` are all different. -/
lemma mul_add_inj {it k k' i i' : ℕ} (hi : i < it) (hi' : i' < it) (h : it * k + i = it * k' + i') :
    k = k' ∧ i = i' := by
  have hmod : i = i' := by
    have := congrArg (· % it) h
    simpa [Nat.mul_add_mod, Nat.mod_eq_of_lt hi, Nat.mod_eq_of_lt hi'] using this
  subst hmod
  exact ⟨Nat.eq_of_mul_eq_mul_left (show 0 < it by omega) (by omega), rfl⟩

variable (it K : ℕ) (chunk : ℕ → (ℕ → β) → ℕ → β) (P : ℕ → ℕ → β → Prop)

/-- Running chunks one after another, where chunk `i` sets its entries `it * k + i` for `k < K`
and leaves every other entry: each chunk's entries keep what it set. The induction is on the
number of chunks run. -/
lemma foldl_range_chunks (hset : ∀ i < it, ∀ out, ∀ k < K, P i k (chunk i out (it * k + i)))
    (hframe : ∀ i < it, ∀ out p, (∀ k < K, p ≠ it * k + i) → chunk i out p = out p)
    (out : ℕ → β) (n : ℕ) (hn : n ≤ it) :
    (∀ i < n, ∀ k < K, P i k ((List.range n).foldl (fun out i => chunk i out) out (it * k + i))) ∧
      ∀ p, (∀ i < n, ∀ k < K, p ≠ it * k + i) → (List.range n).foldl (fun out i => chunk i out) out p = out p := by
  induction n with
  | zero => simp
  | succ n ih =>
    obtain ⟨ihset, ihframe⟩ := ih (by omega)
    rw [List.range_succ, List.foldl_append, List.foldl_cons, List.foldl_nil]
    -- chunk `n` leaves the entries of the earlier chunks
    have hother : ∀ i < n, ∀ k < K, ∀ out, chunk n out (it * k + i) = out (it * k + i) := by
      intro i hi k _ out
      apply hframe n (by omega)
      intro k' _ heq
      exact absurd (mul_add_inj (by omega) (by omega) heq).2 (by omega)
    refine ⟨?_, ?_⟩
    · intro i hi k hk
      rcases Nat.lt_succ_iff_lt_or_eq.mp hi with hlt | rfl
      · rw [hother i hlt k hk]
        exact ihset i hlt k hk
      · exact hset i (by omega) _ k hk
    · intro p hp
      rw [hframe n (by omega) _ p (fun k hk => hp n (by omega) k hk)]
      exact ihframe p (fun i hi k hk => hp i (by omega) k hk)

end Chunks

end ClickHouse.Lib.WordStream
