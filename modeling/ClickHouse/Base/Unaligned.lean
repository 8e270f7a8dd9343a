import ClickHouse.Lib.Bytes
import Mathlib.Data.BitVec

/-! `base/unaligned.h`: loads and stores of `w`-byte unsigned integers, little-endian. A value of
`UInt8`, ..., `UInt64` (or the wide `UInt128`, `UInt256`) is a bit vector of width `8 * w`. -/

namespace ClickHouse.Base

open ClickHouse.Lib.Bytes

def unalignedLoadLittleEndian (w : ℕ) (bytes : List UInt8) : BitVec (8 * w) :=
  BitVec.ofNat (8 * w) (decodeLE (bytes.take w))

def unalignedStoreLittleEndian (w : ℕ) (x : BitVec (8 * w)) : List UInt8 := encodeLE w x.toNat

/-- The consecutive `w`-byte values of a byte string whose length is a multiple of `w`. -/
def loadWords (w : ℕ) (source : List UInt8) : List (BitVec (8 * w)) :=
  (splitWords w (source.length / w) source).map (unalignedLoadLittleEndian w)

def storeWords (w : ℕ) (xs : List (BitVec (8 * w))) : List UInt8 :=
  xs.flatMap (unalignedStoreLittleEndian w)

lemma two_pow_eq (w : ℕ) : 2 ^ (8 * w) = 256 ^ w := by
  rw [pow_mul]
  norm_num

@[simp] lemma length_unalignedStoreLittleEndian (w : ℕ) (x : BitVec (8 * w)) :
    (unalignedStoreLittleEndian w x).length = w := length_encodeLE w _

@[simp] lemma length_storeWords (w : ℕ) (xs : List (BitVec (8 * w))) :
    (storeWords w xs).length = w * xs.length := by
  induction xs with
  | nil => rfl
  | cons x xs ih =>
    unfold storeWords at ih ⊢
    simp only [List.flatMap_cons, List.length_append, length_unalignedStoreLittleEndian] at ih ⊢
    rw [ih, List.length_cons]
    ring

@[simp] lemma storeWords_nil (w : ℕ) : storeWords w [] = [] := rfl

@[simp] lemma storeWords_cons (w : ℕ) (x : BitVec (8 * w)) (xs : List (BitVec (8 * w))) :
    storeWords w (x :: xs) = unalignedStoreLittleEndian w x ++ storeWords w xs := rfl

@[simp] lemma storeWords_append (w : ℕ) (xs ys : List (BitVec (8 * w))) :
    storeWords w (xs ++ ys) = storeWords w xs ++ storeWords w ys := List.flatMap_append

lemma storeWords_take (w : ℕ) (xs : List (BitVec (8 * w))) (k : ℕ) :
    storeWords w (xs.take k) = (storeWords w xs).take (w * k) := by
  induction xs generalizing k with
  | nil => simp
  | cons x xs ih =>
    cases k with
    | zero => simp
    | succ k =>
      have hfirst : (unalignedStoreLittleEndian w x).length ≤ w * (k + 1) := by
        rw [length_unalignedStoreLittleEndian, Nat.mul_succ]
        exact Nat.le_add_left w (w * k)
      rw [List.take_succ_cons, storeWords_cons, storeWords_cons, ih, List.take_append,
        List.take_of_length_le hfirst, length_unalignedStoreLittleEndian, Nat.mul_succ, Nat.add_sub_cancel]

lemma load_store (w : ℕ) (x : BitVec (8 * w)) (rest : List UInt8) :
    unalignedLoadLittleEndian w (unalignedStoreLittleEndian w x ++ rest) = x := by
  have hlt : x.toNat < 256 ^ w := by rw [← two_pow_eq]; exact x.isLt
  unfold unalignedLoadLittleEndian unalignedStoreLittleEndian
  rw [List.take_left' (length_encodeLE w _), decodeLE_encodeLE, Nat.mod_eq_of_lt hlt]
  rw [BitVec.ofNat_toNat, BitVec.setWidth_eq]

@[simp] lemma load_store_self (w : ℕ) (x : BitVec (8 * w)) :
    unalignedLoadLittleEndian w (unalignedStoreLittleEndian w x) = x := by
  simpa using load_store w x []

lemma store_load (w : ℕ) (bytes : List UInt8) (h : bytes.length = w) :
    unalignedStoreLittleEndian w (unalignedLoadLittleEndian w bytes) = bytes := by
  have hlt : decodeLE bytes < 2 ^ (8 * w) := by rw [two_pow_eq, ← h]; exact decodeLE_lt bytes
  unfold unalignedStoreLittleEndian unalignedLoadLittleEndian
  rw [List.take_of_length_le h.le, BitVec.toNat_ofNat, Nat.mod_eq_of_lt hlt, ← h, encodeLE_decodeLE]

lemma loadWords_storeWords {w : ℕ} (hw : 0 < w) (xs : List (BitVec (8 * w))) :
    loadWords w (storeWords w xs) = xs := by
  have hcount : (storeWords w xs).length / w = xs.length := by
    rw [length_storeWords, Nat.mul_div_cancel_left _ hw]
  have hsplit : splitWords w xs.length (storeWords w xs) = xs.map (unalignedStoreLittleEndian w) := by
    have h := splitWords_flatten w (xs.map (unalignedStoreLittleEndian w)) (by simp) []
    rwa [List.length_map, List.append_nil, ← List.flatMap_def] at h
  unfold loadWords
  rw [hcount, hsplit, List.map_map]
  conv_rhs => rw [← List.map_id xs]
  apply List.map_congr_left
  intro x _
  exact load_store_self w x

lemma storeWords_loadWords {w : ℕ} (source : List UInt8) (h : source.length % w = 0) :
    storeWords w (loadWords w source) = source := by
  have hlen : source.length = source.length / w * w := by
    rw [Nat.div_mul_cancel (Nat.dvd_of_mod_eq_zero h)]
  unfold storeWords loadWords
  rw [List.flatMap_map]
  conv_rhs => rw [← flatten_splitWords w (source.length / w) source hlen]
  rw [List.flatten_eq_flatMap]
  apply List.flatMap_congr
  intro x hx
  exact store_load w x (length_of_mem_splitWords hlen.ge hx)

lemma length_loadWords (w : ℕ) (source : List UInt8) : (loadWords w source).length = source.length / w := by
  unfold loadWords
  simp

/-- A value loaded from bytes that hold, bit for bit, the low `n` bits of `v`. -/
lemma load_of_testBit {w n : ℕ} (v : BitVec (8 * w)) (B : ℕ → UInt8)
    (hB : ∀ k < w, ∀ j < 8, (B k).toNat.testBit j = (decide (8 * k + j < n) && v.toNat.testBit (8 * k + j))) :
    unalignedLoadLittleEndian w ((List.range w).map B) = BitVec.ofNat (8 * w) (v.toNat % 2 ^ n) := by
  have hbytes : (List.range w).map B = (List.range w).map fun k => (encodeLE w (v.toNat % 2 ^ n)).getD k 0 := by
    refine List.map_congr_left fun k hk => eq_of_testBit_toNat fun j hj => ?_
    have hkw : k < w := List.mem_range.mp hk
    rw [hB k hkw j hj, testBit_getD_encodeLE _ _ _ hj, Nat.testBit_mod_two_pow]
    simp [hkw]
  rw [hbytes, map_range_getD_encodeLE, ← encodeLE_mod, ← two_pow_eq]
  have hstore : encodeLE w (v.toNat % 2 ^ n % 2 ^ (8 * w)) =
      unalignedStoreLittleEndian w (BitVec.ofNat (8 * w) (v.toNat % 2 ^ n)) := by
    unfold unalignedStoreLittleEndian
    rw [BitVec.toNat_ofNat]
  rw [hstore, load_store_self]

end ClickHouse.Base
