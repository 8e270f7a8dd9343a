import ClickHouse.Lib.Bytes

/-! Most-significant-bit-first bit strings: the `k` low bits of a natural, the natural a bit
string denotes, and the bits of a byte string. -/

namespace ClickHouse.Lib.Bits

open ClickHouse.Lib.Bytes

def bitsOf : ℕ → ℕ → List Bool
  | 0, _ => []
  | k + 1, v => v.testBit k :: bitsOf k v

def ofBits : List Bool → ℕ
  | [] => 0
  | b :: l => b.toNat * 2 ^ l.length + ofBits l

def byteBits (bs : List UInt8) : List Bool := bs.flatMap (fun b => bitsOf 8 b.toNat)

@[simp] lemma bitsOf_zero (v : ℕ) : bitsOf 0 v = [] := rfl

@[simp] lemma bitsOf_succ (k v : ℕ) : bitsOf (k + 1) v = v.testBit k :: bitsOf k v := rfl

@[simp] lemma ofBits_nil : ofBits [] = 0 := rfl

@[simp] lemma ofBits_cons (b : Bool) (l : List Bool) :
    ofBits (b :: l) = b.toNat * 2 ^ l.length + ofBits l := rfl

@[simp] lemma length_bitsOf (k v : ℕ) : (bitsOf k v).length = k := by
  induction k with
  | zero => rfl
  | succ k ih => simp [ih]

lemma ofBits_lt (l : List Bool) : ofBits l < 2 ^ l.length := by
  induction l with
  | nil => simp
  | cons b l ih =>
    have hb : b.toNat ≤ 1 := Bool.toNat_le b
    rw [ofBits_cons, List.length_cons, pow_succ]
    rcases Nat.le_one_iff_eq_zero_or_eq_one.mp hb with h | h <;> rw [h] <;> omega

lemma ofBits_append (a b : List Bool) : ofBits (a ++ b) = ofBits a * 2 ^ b.length + ofBits b := by
  induction a with
  | nil => simp
  | cons x a ih =>
    rw [List.cons_append, ofBits_cons, ofBits_cons, ih, List.length_append, pow_add]
    ring

lemma mul_two_pow_add_div (a b k : ℕ) (hb : b < 2 ^ k) : (a * 2 ^ k + b) / 2 ^ k = a := by
  rw [Nat.add_comm, Nat.add_mul_div_right _ _ (Nat.two_pow_pos k), Nat.div_eq_of_lt hb, Nat.zero_add]

/-- The value of a longer prefix, shifted right, is the value of a shorter one. -/
lemma ofBits_take_div (l : List Bool) {m n : ℕ} (hmn : m ≤ n) (hn : n ≤ l.length) :
    ofBits (l.take n) / 2 ^ (n - m) = ofBits (l.take m) := by
  have hsplit : l.take n = l.take m ++ (l.drop m).take (n - m) := by
    rw [← List.take_add, Nat.add_sub_cancel' hmn]
  have hlen : ((l.drop m).take (n - m)).length = n - m := by
    rw [List.length_take, List.length_drop]
    omega
  have hlt := ofBits_lt ((l.drop m).take (n - m))
  rw [hlen] at hlt
  rw [hsplit, ofBits_append, hlen, mul_two_pow_add_div _ _ _ hlt]

lemma toNat_testBit (v k : ℕ) : (v.testBit k).toNat = v / 2 ^ k % 2 := by
  rw [Nat.testBit_eq_decide_div_mod_eq]
  rcases Nat.mod_two_eq_zero_or_one (v / 2 ^ k) with h | h <;> simp [h]

lemma ofBits_bitsOf (k v : ℕ) : ofBits (bitsOf k v) = v % 2 ^ k := by
  induction k with
  | zero => simp [Nat.mod_one]
  | succ k ih =>
    rw [bitsOf_succ, ofBits_cons, ih, length_bitsOf, Nat.mod_pow_succ, toNat_testBit]
    ring

lemma bitsOf_mod (k m v : ℕ) (h : k ≤ m) : bitsOf k (v % 2 ^ m) = bitsOf k v := by
  induction k with
  | zero => rfl
  | succ k ih =>
    rw [bitsOf_succ, bitsOf_succ, ih (by omega), Nat.testBit_mod_two_pow]
    simp only [decide_eq_true (show k < m by omega), Bool.true_and]

lemma bitsOf_add (a b v : ℕ) : bitsOf (a + b) v = bitsOf a (v / 2 ^ b) ++ bitsOf b v := by
  induction a with
  | zero => simp
  | succ a ih =>
    rw [Nat.add_right_comm, bitsOf_succ, ih, bitsOf_succ, List.cons_append, Nat.testBit_div_two_pow,
      Nat.add_comm a b]

lemma bitsOf_mul_add (a b x y : ℕ) (hy : y < 2 ^ b) :
    bitsOf (a + b) (x * 2 ^ b + y) = bitsOf a x ++ bitsOf b y := by
  have hdiv : (x * 2 ^ b + y) / 2 ^ b = x := mul_two_pow_add_div x y b hy
  have hmod : (x * 2 ^ b + y) % 2 ^ b = y := by
    rw [Nat.add_comm, Nat.add_mul_mod_self_right, Nat.mod_eq_of_lt hy]
  rw [bitsOf_add, hdiv, ← bitsOf_mod b b _ le_rfl, hmod]

lemma bitsOf_ofBits (l : List Bool) : bitsOf l.length (ofBits l) = l := by
  induction l with
  | nil => rfl
  | cons b l ih =>
    have hlt := ofBits_lt l
    rw [List.length_cons, ofBits_cons, bitsOf_succ]
    congr 1
    · rw [Nat.testBit_eq_decide_div_mod_eq, Nat.add_comm,
        Nat.add_mul_div_right _ _ (Nat.two_pow_pos _), Nat.div_eq_of_lt hlt, Nat.zero_add]
      cases b <;> simp
    · rw [← bitsOf_mod l.length l.length (b.toNat * 2 ^ l.length + ofBits l) le_rfl, Nat.add_comm,
        Nat.add_mul_mod_self_right, Nat.mod_eq_of_lt hlt, ih]

@[simp] lemma byteBits_nil : byteBits [] = [] := rfl

@[simp] lemma byteBits_cons (b : UInt8) (bs : List UInt8) :
    byteBits (b :: bs) = bitsOf 8 b.toNat ++ byteBits bs := rfl

@[simp] lemma byteBits_append (a b : List UInt8) : byteBits (a ++ b) = byteBits a ++ byteBits b := by
  simp [byteBits]

@[simp] lemma length_byteBits (bs : List UInt8) : (byteBits bs).length = 8 * bs.length := by
  induction bs with
  | nil => rfl
  | cons b bs ih => simp [ih]; ring

lemma byteBits_encodeBE (k v : ℕ) : byteBits (encodeBE k v) = bitsOf (8 * k) v := by
  induction k generalizing v with
  | zero => rfl
  | succ k ih =>
    have h8 : bitsOf 8 (UInt8.ofNat v).toNat = bitsOf 8 v := by
      rw [UInt8.toNat_ofNat']
      exact bitsOf_mod 8 8 v le_rfl
    rw [encodeBE_eq, encodeLE_succ, List.reverse_cons, byteBits_append, ← encodeBE_eq, ih,
      byteBits_cons, byteBits_nil, List.append_nil, h8, Nat.mul_succ, bitsOf_add]
    rfl

lemma byteBits_eq_bitsOf (bs : List UInt8) : byteBits bs = bitsOf (8 * bs.length) (decodeBE bs) := by
  have h := byteBits_encodeBE bs.length (decodeBE bs)
  rwa [encodeBE_decodeBE] at h

lemma ofBits_byteBits (bs : List UInt8) : ofBits (byteBits bs) = decodeBE bs := by
  have h := byteBits_encodeBE bs.length (decodeBE bs)
  rw [encodeBE_decodeBE] at h
  rw [h, ofBits_bitsOf, Nat.mod_eq_of_lt]
  calc decodeBE bs < 256 ^ bs.length := decodeBE_lt bs
    _ = 2 ^ (8 * bs.length) := by rw [pow_mul]; norm_num

/-! ### Masks and shifts as arithmetic -/

lemma or_shiftLeft_of_lt {x k : ℕ} (hx : x < 2 ^ k) (m : ℕ) : x ||| m <<< k = m * 2 ^ k + x := by
  rw [Nat.or_comm, ← Nat.shiftLeft_add_eq_or_of_lt hx, Nat.shiftLeft_eq]

lemma shiftLeft_or_of_lt {x k : ℕ} (hx : x < 2 ^ k) (m : ℕ) : m <<< k ||| x = m * 2 ^ k + x := by
  rw [Nat.or_comm, or_shiftLeft_of_lt hx]

lemma shiftRight_and_two_pow_sub_one (x k j : ℕ) : x >>> k &&& (2 ^ j - 1) = x / 2 ^ k % 2 ^ j := by
  rw [Nat.and_two_pow_sub_one_eq_mod, Nat.shiftRight_eq_div_pow]

end ClickHouse.Lib.Bits
