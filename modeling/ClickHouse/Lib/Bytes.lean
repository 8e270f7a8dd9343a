import Mathlib.Tactic.Ring

/-! Little- and big-endian byte encodings of naturals and the split of a byte string into
words of a fixed width. -/

namespace ClickHouse.Lib.Bytes

def decodeLE : List UInt8 → ℕ
  | [] => 0
  | b :: bs => b.toNat + 256 * decodeLE bs

def encodeLE : ℕ → ℕ → List UInt8
  | 0, _ => []
  | w + 1, v => UInt8.ofNat v :: encodeLE w (v / 256)

def decodeBE (bs : List UInt8) : ℕ := decodeLE bs.reverse

def encodeBE (w v : ℕ) : List UInt8 := (encodeLE w v).reverse

lemma decodeBE_eq (bs : List UInt8) : decodeBE bs = decodeLE bs.reverse := rfl

lemma encodeBE_eq (w v : ℕ) : encodeBE w v = (encodeLE w v).reverse := rfl

@[simp] lemma decodeLE_nil : decodeLE [] = 0 := rfl

@[simp] lemma decodeLE_cons (b : UInt8) (bs : List UInt8) :
    decodeLE (b :: bs) = b.toNat + 256 * decodeLE bs := rfl

@[simp] lemma encodeLE_zero (v : ℕ) : encodeLE 0 v = [] := rfl

@[simp] lemma encodeLE_succ (w v : ℕ) :
    encodeLE (w + 1) v = UInt8.ofNat v :: encodeLE w (v / 256) := rfl

@[simp] lemma length_encodeLE (w v : ℕ) : (encodeLE w v).length = w := by
  induction w generalizing v with
  | zero => rfl
  | succ w ih => simp [ih]

@[simp] lemma length_encodeBE (w v : ℕ) : (encodeBE w v).length = w := by
  simp [encodeBE_eq]

lemma decodeLE_encodeLE (w v : ℕ) : decodeLE (encodeLE w v) = v % 256 ^ w := by
  induction w generalizing v with
  | zero => simp [Nat.mod_one]
  | succ w ih =>
    rw [encodeLE_succ, decodeLE_cons, ih, UInt8.toNat_ofNat']
    change v % 256 + 256 * (v / 256 % 256 ^ w) = _
    rw [pow_succ', Nat.mod_mul]

lemma decodeLE_take_encodeLE (w v : ℕ) (rest : List UInt8) (hv : v < 256 ^ w) :
    decodeLE ((encodeLE w v ++ rest).take w) = v := by
  rw [List.take_left' (length_encodeLE w v), decodeLE_encodeLE, Nat.mod_eq_of_lt hv]

lemma decodeLE_lt (bs : List UInt8) : decodeLE bs < 256 ^ bs.length := by
  induction bs with
  | nil => simp
  | cons b bs ih =>
    have hb : b.toNat < 256 := b.toNat_lt
    rw [decodeLE_cons, List.length_cons, pow_succ]
    omega

lemma encodeLE_decodeLE (bs : List UInt8) : encodeLE bs.length (decodeLE bs) = bs := by
  induction bs with
  | nil => rfl
  | cons b bs ih =>
    have hb : b.toNat < 256 := b.toNat_lt
    rw [List.length_cons, encodeLE_succ, decodeLE_cons]
    congr 1
    · apply UInt8.toNat_inj.mp
      rw [UInt8.toNat_ofNat']
      change (b.toNat + 256 * decodeLE bs) % 256 = b.toNat
      omega
    · rw [show (b.toNat + 256 * decodeLE bs) / 256 = decodeLE bs by omega, ih]

lemma encodeLE_mod (w v : ℕ) : encodeLE w (v % 256 ^ w) = encodeLE w v := by
  induction w generalizing v with
  | zero => rfl
  | succ w ih =>
    have hdiv : v % 256 ^ (w + 1) / 256 = v / 256 % 256 ^ w := by
      rw [pow_succ', Nat.mod_mul_right_div_self]
    have hmod : UInt8.ofNat (v % 256 ^ (w + 1)) = UInt8.ofNat v := by
      apply UInt8.toNat_inj.mp
      simp only [UInt8.toNat_ofNat']
      rw [pow_succ', Nat.mod_mul_right_mod]
    rw [encodeLE_succ, encodeLE_succ, hdiv, ih, hmod]

lemma decodeLE_append (a b : List UInt8) :
    decodeLE (a ++ b) = decodeLE a + 256 ^ a.length * decodeLE b := by
  induction a with
  | nil => simp
  | cons x a ih =>
    rw [List.cons_append, decodeLE_cons, decodeLE_cons, ih, List.length_cons, pow_succ]
    ring

lemma encodeLE_add (a b v : ℕ) : encodeLE (a + b) v = encodeLE a v ++ encodeLE b (v / 256 ^ a) := by
  induction a generalizing v with
  | zero => simp
  | succ a ih =>
    rw [Nat.add_right_comm, encodeLE_succ, encodeLE_succ, ih, Nat.div_div_eq_div_mul, pow_succ']
    rfl

lemma take_encodeLE {k w : ℕ} (hk : k ≤ w) (v : ℕ) : (encodeLE w v).take k = encodeLE k v := by
  obtain ⟨d, rfl⟩ := Nat.exists_eq_add_of_le hk
  rw [encodeLE_add, List.take_left' (length_encodeLE k v)]

lemma encodeLE_injective {w x y : ℕ} (hx : x < 256 ^ w) (hy : y < 256 ^ w)
    (h : encodeLE w x = encodeLE w y) : x = y := by
  have hd := congrArg decodeLE h
  rwa [decodeLE_encodeLE, decodeLE_encodeLE, Nat.mod_eq_of_lt hx, Nat.mod_eq_of_lt hy] at hd

lemma decodeBE_encodeBE (w v : ℕ) : decodeBE (encodeBE w v) = v % 256 ^ w := by
  simp [decodeBE_eq, encodeBE_eq, decodeLE_encodeLE]

lemma decodeBE_lt (bs : List UInt8) : decodeBE bs < 256 ^ bs.length := by
  simpa [decodeBE_eq] using decodeLE_lt bs.reverse

lemma encodeBE_decodeBE (bs : List UInt8) : encodeBE bs.length (decodeBE bs) = bs := by
  have h := encodeLE_decodeLE bs.reverse
  rw [List.length_reverse] at h
  rw [encodeBE_eq, decodeBE_eq, h, List.reverse_reverse]

lemma decodeLE_replicate_zero (n : ℕ) : decodeLE (List.replicate n 0) = 0 := by
  induction n with
  | zero => rfl
  | succ n ih => simp [List.replicate_succ, ih]

lemma decodeBE_replicate_zero (n : ℕ) : decodeBE (List.replicate n 0) = 0 := by
  rw [decodeBE_eq, List.reverse_replicate, decodeLE_replicate_zero]

lemma decodeBE_append (a b : List UInt8) :
    decodeBE (a ++ b) = decodeBE a * 256 ^ b.length + decodeBE b := by
  rw [decodeBE_eq, List.reverse_append, decodeLE_append, List.length_reverse, decodeBE_eq, decodeBE_eq]
  ring

lemma getD_encodeLE (w v k : ℕ) :
    (encodeLE w v).getD k 0 = if k < w then UInt8.ofNat (v / 256 ^ k) else 0 := by
  induction w generalizing v k with
  | zero => simp
  | succ w ih =>
    cases k with
    | zero => simp
    | succ k =>
      rw [encodeLE_succ, List.getD_cons_succ, ih, Nat.div_div_eq_div_mul, ← pow_succ']
      simp only [Nat.add_lt_add_iff_right]

/-- Bit `j` of byte `k` of the little-endian encoding is bit `8 * k + j` of the number. -/
lemma testBit_getD_encodeLE (w v k : ℕ) {j : ℕ} (hj : j < 8) :
    ((encodeLE w v).getD k 0).toNat.testBit j = (decide (k < w) && v.testBit (8 * k + j)) := by
  rw [getD_encodeLE]
  split_ifs with hk
  · rw [UInt8.toNat_ofNat', Nat.testBit_mod_two_pow, show (256 : ℕ) ^ k = 2 ^ (8 * k) by
      rw [pow_mul]; norm_num, Nat.testBit_div_two_pow, Nat.add_comm j]
    simp [hk, hj]
  · simp [hk]

lemma eq_of_testBit_toNat {a b : UInt8} (h : ∀ j < 8, a.toNat.testBit j = b.toNat.testBit j) :
    a = b := by
  apply UInt8.toNat_inj.mp
  apply Nat.eq_of_testBit_eq
  intro j
  by_cases hj : j < 8
  · exact h j hj
  · have hlt : ∀ x : UInt8, x.toNat < 2 ^ j := fun x =>
      lt_of_lt_of_le x.toNat_lt (Nat.pow_le_pow_right (by omega) (by omega))
    rw [Nat.testBit_lt_two_pow (hlt a), Nat.testBit_lt_two_pow (hlt b)]

lemma map_range_getD_encodeLE (w v : ℕ) :
    (List.range w).map (fun k => (encodeLE w v).getD k 0) = encodeLE w v := by
  apply List.ext_getElem (by simp)
  intro i h1 h2
  rw [List.getElem_map, List.getElem_range, List.getD_eq_getElem?_getD, List.getElem?_eq_getElem h2,
    Option.getD_some]

/-- The words of width `w` at the head of a byte string, `n` of them. -/
def splitWords (w : ℕ) : ℕ → List UInt8 → List (List UInt8)
  | 0, _ => []
  | n + 1, bs => bs.take w :: splitWords w n (bs.drop w)

@[simp] lemma splitWords_zero (w : ℕ) (bs : List UInt8) : splitWords w 0 bs = [] := rfl

@[simp] lemma splitWords_succ (w n : ℕ) (bs : List UInt8) :
    splitWords w (n + 1) bs = bs.take w :: splitWords w n (bs.drop w) := rfl

@[simp] lemma length_splitWords (w n : ℕ) (bs : List UInt8) : (splitWords w n bs).length = n := by
  induction n generalizing bs with
  | zero => rfl
  | succ n ih => simp [ih]

lemma splitWords_flatten (w : ℕ) (xs : List (List UInt8)) (hxs : ∀ x ∈ xs, x.length = w)
    (rest : List UInt8) : splitWords w xs.length (xs.flatten ++ rest) = xs := by
  induction xs with
  | nil => rfl
  | cons x xs ih =>
    have hx : x.length = w := hxs x (by simp)
    have htake : (x ++ (xs.flatten ++ rest)).take w = x := by
      rw [← hx, List.take_left]
    have hdrop : (x ++ (xs.flatten ++ rest)).drop w = xs.flatten ++ rest := by
      rw [← hx, List.drop_left]
    rw [List.length_cons, List.flatten_cons, List.append_assoc, splitWords_succ, htake, hdrop,
      ih (fun y hy => hxs y (by simp [hy]))]

lemma flatten_splitWords (w n : ℕ) (bs : List UInt8) (h : bs.length = n * w) :
    (splitWords w n bs).flatten = bs := by
  induction n generalizing bs with
  | zero => simp_all
  | succ n ih =>
    have hd : (bs.drop w).length = n * w := by simp [h, Nat.succ_mul]
    rw [splitWords_succ, List.flatten_cons, ih _ hd, List.take_append_drop]

lemma length_of_mem_splitWords {w n : ℕ} {bs x : List UInt8} (h : n * w ≤ bs.length)
    (hx : x ∈ splitWords w n bs) : x.length = w := by
  induction n generalizing bs with
  | zero => simp at hx
  | succ n ih =>
    rw [splitWords_succ, List.mem_cons] at hx
    rcases hx with rfl | hx
    · simp only [List.length_take]
      rw [Nat.succ_mul] at h
      omega
    · exact ih (by simp only [List.length_drop, Nat.succ_mul] at *; omega) hx

end ClickHouse.Lib.Bytes
