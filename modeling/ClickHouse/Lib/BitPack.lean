import Mathlib.Data.Nat.Bitwise
import Mathlib.Data.List.Range

/-! Words assembled bit by bit with `|||` and `<<<`, lists updated entry by entry, and lists cut
into chunks of a fixed size. -/

namespace ClickHouse.Lib.BitPack

/-- `acc |= g(i) << i` for `i` from `0` to `n - 1`, starting from zero. -/
def orShifted (n : ℕ) (g : ℕ → ℕ) : ℕ :=
  (List.range n).foldl (fun acc i => acc ||| g i <<< i) 0

lemma orShifted_succ (n : ℕ) (g : ℕ → ℕ) : orShifted (n + 1) g = orShifted n g ||| g n <<< n := by
  rw [orShifted, List.range_succ, List.foldl_append]
  rfl

lemma testBit_orShifted {n : ℕ} {g : ℕ → ℕ} (hg : ∀ i, g i < 2) (b : ℕ) :
    (orShifted n g).testBit b = (decide (b < n) && (g b).testBit 0) := by
  induction n with
  | zero =>
    unfold orShifted
    simp
  | succ n ih =>
    rw [orShifted_succ, Nat.testBit_or, ih, Nat.testBit_shiftLeft]
    rcases Nat.lt_trichotomy b n with hlt | rfl | hgt
    · simp [hlt, Nat.lt_succ_of_lt hlt, Nat.not_le.mpr hlt]
    · simp
    · have hz : (g n).testBit (b - n) = false := by
        apply Nat.testBit_lt_two_pow
        have := Nat.one_lt_two_pow (show b - n ≠ 0 by omega)
        have := hg n
        omega
      simp [hz, show ¬ b < n by omega, show ¬ b < n + 1 by omega]

lemma orShifted_lt {n : ℕ} {g : ℕ → ℕ} (hg : ∀ i, g i < 2) : orShifted n g < 2 ^ n := by
  apply Nat.lt_pow_two_of_testBit
  intro i hi
  rw [testBit_orShifted hg]
  simp [show ¬ i < n by omega]

lemma shiftRight_and_one_lt (x j : ℕ) : (x >>> j) &&& 1 < 2 := by
  have := Nat.and_le_right (n := x >>> j) (m := 1)
  omega

@[simp] lemma testBit_zero_shiftRight_and_one (x j : ℕ) : ((x >>> j) &&& 1).testBit 0 = x.testBit j := by
  rw [Nat.testBit_and, Nat.testBit_shiftRight, Nat.testBit_one_zero, Bool.and_true, Nat.add_zero]

lemma getD_map_range {α : Type} (n i : ℕ) (f : ℕ → α) (d : α) :
    ((List.range n).map f).getD i d = if i < n then f i else d := by
  split_ifs with hi
  · rw [List.getD_eq_getElem?_getD, List.getElem?_map, List.getElem?_range hi, Option.map_some,
      Option.getD_some]
  · exact List.getD_eq_default _ _ (by simp; omega)

/-- A fold that updates every entry of a list by its index is, entry by entry, a fold. -/
lemma getD_foldl_mapIdx {α : Type} (l : List α) (F : α → ℕ → ℕ → ℕ) (init : List ℕ) {j : ℕ}
    (hj : j < init.length) :
    (l.foldl (fun dst a => dst.mapIdx (F a)) init).getD j 0 =
      l.foldl (fun b a => F a j b) (init.getD j 0) := by
  induction l generalizing init with
  | nil => rfl
  | cons a l ih =>
    rw [List.foldl_cons, List.foldl_cons, ih _ (by rw [List.length_mapIdx]; exact hj),
      List.getD_eq_getElem?_getD, List.getElem?_mapIdx, List.getElem?_eq_getElem hj, Option.map_some,
      Option.getD_some, List.getD_eq_getElem?_getD, List.getElem?_eq_getElem hj, Option.getD_some]

lemma length_foldl_mapIdx {α : Type} (l : List α) (F : α → ℕ → ℕ → ℕ) (init : List ℕ) :
    (l.foldl (fun dst a => dst.mapIdx (F a)) init).length = init.length := by
  induction l generalizing init with
  | nil => rfl
  | cons a l ih => rw [List.foldl_cons, ih, List.length_mapIdx]

section Chunks

variable {α : Type}

lemma length_flatMap_range {n : ℕ} (f : ℕ → List α) (hf : ∀ i, (f i).length = n) (m : ℕ) :
    ((List.range m).flatMap f).length = n * m := by
  induction m with
  | zero => simp
  | succ m ih =>
    rw [List.range_succ, List.flatMap_append, List.flatMap_singleton, List.length_append, ih, hf,
      Nat.mul_succ]

/-- The `k`-th chunk of a concatenation of chunks of size `n`. -/
lemma take_drop_flatMap_range {n m k : ℕ} (f : ℕ → List α) (hf : ∀ i, (f i).length = n)
    (rest : List α) (hk : k < m) :
    (((List.range m).flatMap f ++ rest).drop (n * k)).take n = f k := by
  induction m generalizing rest with
  | zero => omega
  | succ m ih =>
    rw [List.range_succ, List.flatMap_append, List.flatMap_singleton, List.append_assoc]
    rcases Nat.lt_succ_iff.mp hk |>.lt_or_eq with hlt | rfl
    · exact ih (f m ++ rest) hlt
    · rw [List.drop_left' (length_flatMap_range f hf k), List.take_left' (hf k)]

end Chunks

end ClickHouse.Lib.BitPack
