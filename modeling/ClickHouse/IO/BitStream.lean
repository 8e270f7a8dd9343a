import ClickHouse.IO.BitHelpers

/-! What the bit streams of `IO/BitHelpers.h` denote. A writer denotes the bits of the bytes
it has written followed by the valid bits of its buffer; each `writeBits` appends the low bits
of its value and `flush` turns everything into bytes, padded with zero bits. A reader denotes
the valid bits of its buffer followed by the bits of the bytes it has not loaded yet. -/

namespace ClickHouse.IO.BitHelpers

open ClickHouse.Lib.Bytes ClickHouse.Lib.Bits ClickHouse.Common

lemma or_eq_add (a b n : ℕ) (hb : b < 2 ^ n) : a * 2 ^ n ||| b = a * 2 ^ n + b := by
  rw [Nat.mul_comm, Nat.two_pow_add_eq_or_of_lt hb]

/-- Bits `y` put right under the bits `t` of a buffer aligned to its top: the or is a sum. -/
lemma or_aligned (t y k s : ℕ) (hy : y < 2 ^ k) : t * 2 ^ (k + s) ||| y * 2 ^ s = (t * 2 ^ k + y) * 2 ^ s := by
  have hys : y * 2 ^ s < 2 ^ (k + s) := by
    rw [pow_add]
    exact Nat.mul_lt_mul_of_pos_right hy (Nat.two_pow_pos s)
  rw [or_eq_add _ _ _ hys, pow_add]
  ring

lemma append_lt {t y c k : ℕ} (ht : t < 2 ^ c) (hy : y < 2 ^ k) : t * 2 ^ k + y < 2 ^ (c + k) := by
  rw [pow_add]
  calc t * 2 ^ k + y < t * 2 ^ k + 2 ^ k := by omega
    _ = (t + 1) * 2 ^ k := by ring
    _ ≤ 2 ^ c * 2 ^ k := Nat.mul_le_mul_right _ ht

lemma mul_two_pow_div (v a b : ℕ) : v * 2 ^ a / 2 ^ (a + b) = v / 2 ^ b := by
  rw [pow_add, Nat.mul_comm (2 ^ a), Nat.mul_div_mul_right _ _ (Nat.two_pow_pos a)]

lemma mul_two_pow_mod (v a b : ℕ) : v * 2 ^ a % 2 ^ (b + a) = v % 2 ^ b * 2 ^ a := by
  rw [pow_add, Nat.mul_mod_mul_right]

lemma bitsOf_toNat_ofNat {k : ℕ} (hk : k ≤ 64) (v : ℕ) : bitsOf k (UInt64.ofNat v).toNat = bitsOf k v := by
  rw [UInt64.toNat_ofNat', bitsOf_mod k 64 v hk]

lemma bitsOf_zero_value (k : ℕ) : bitsOf k 0 = List.replicate k false := by
  induction k with
  | zero => rfl
  | succ k ih => simp [ih, List.replicate_succ]

lemma take_encodeBE (t u v : ℕ) : (encodeBE (t + u) v).take t = encodeBE t (v / 256 ^ u) := by
  have h : encodeBE (t + u) v = encodeBE t (v / 256 ^ u) ++ encodeBE u v := by
    rw [encodeBE_eq, Nat.add_comm, encodeLE_add, List.reverse_append, ← encodeBE_eq, ← encodeBE_eq]
  rw [h]
  exact List.take_left' (length_encodeBE _ _)

lemma maskLowBits_eq (k x : ℕ) (hk : k ≤ 64) : x &&& maskLowBits k = x % 2 ^ k := by
  unfold maskLowBits
  split_ifs with h0 h64
  · subst h0
    simp [Nat.mod_one]
  · exact Nat.and_two_pow_sub_one_eq_mod x k
  · have hk' : k = 64 := by omega
    subst hk'
    exact Nat.and_two_pow_sub_one_eq_mod x 64

namespace BitWriter

/-- The valid high bits of the buffer, as a natural. -/
def top (wr : BitWriter) : ℕ := wr.bitsBuffer / 2 ^ (128 - wr.bitsCount)

def bits (wr : BitWriter) : List Bool := byteBits wr.dest ++ bitsOf wr.bitsCount wr.top

lemma top_eq (wr : BitWriter) : wr.top = wr.bitsBuffer / 2 ^ (128 - wr.bitsCount) := rfl

lemma bits_eq (wr : BitWriter) : wr.bits = byteBits wr.dest ++ bitsOf wr.bitsCount wr.top := rfl

lemma count_eq (wr : BitWriter) : wr.count = wr.dest.length * 8 + wr.bitsCount := rfl

@[simp] lemma dest_init (size : ℕ) : (init size).dest = [] := rfl

@[simp] lemma bitsBuffer_init (size : ℕ) : (init size).bitsBuffer = 0 := rfl

@[simp] lemma bitsCount_init (size : ℕ) : (init size).bitsCount = 0 := rfl

structure Valid (wr : BitWriter) : Prop where
  count_le : wr.bitsCount ≤ 128
  top_lt : wr.top < 2 ^ wr.bitsCount
  buffer_eq : wr.bitsBuffer = wr.top * 2 ^ (128 - wr.bitsCount)

lemma length_bits (wr : BitWriter) : wr.bits.length = wr.count := by
  simp [bits_eq, count_eq]
  ring

lemma valid_init (size : ℕ) : (init size).Valid := ⟨by simp, by simp [top_eq], by simp [top_eq]⟩

@[simp] lemma bits_init (size : ℕ) : (init size).bits = [] := rfl

@[simp] lemma destSize_init (size : ℕ) : (init size).destSize = size := rfl

lemma top_of_buffer {wr : BitWriter} {v : ℕ} (h : wr.bitsBuffer = v * 2 ^ (128 - wr.bitsCount)) :
    wr.top = v := by
  rw [top_eq, h, Nat.mul_div_cancel _ (Nat.two_pow_pos _)]

lemma valid_of_buffer (wr : BitWriter) (v : ℕ) (hc : wr.bitsCount ≤ 128) (hv : v < 2 ^ wr.bitsCount)
    (h : wr.bitsBuffer = v * 2 ^ (128 - wr.bitsCount)) : wr.Valid ∧ wr.top = v := by
  have ht := top_of_buffer h
  exact ⟨⟨hc, ht ▸ hv, ht ▸ h⟩, ht⟩

lemma doFlush_spec {wr : BitWriter} (hw : wr.Valid)
    (hsize : wr.dest.length + min 8 (wr.bitsCount / 8) ≤ wr.destSize) :
    ∃ wr', wr.doFlush = .ok wr' ∧ wr'.Valid ∧ wr'.bits = wr.bits ∧ wr'.destSize = wr.destSize ∧
      wr'.bitsCount = wr.bitsCount - min 8 (wr.bitsCount / 8) * 8 := by
  set c := wr.bitsCount with hc
  set t := min 8 (c / 8) with ht
  set v := wr.top
  have hc128 := hw.count_le
  have htc : t * 8 ≤ c := by omega
  have hnot : ¬ wr.destSize - wr.dest.length < t := by omega
  have hflush : wr.doFlush = .ok { wr with
      dest := wr.dest ++ (encodeBE 8 (wr.bitsBuffer >>> 64)).take t
      bitsBuffer := (wr.bitsBuffer <<< (t * 8)) % 2 ^ 128
      bitsCount := c - t * 8 } := by
    simp only [doFlush, ← hc, ← ht, if_neg hnot]
  refine ⟨_, hflush, ?_⟩
  -- the written bytes are the top `t` bytes of the buffer
  have hbytes : byteBits ((encodeBE 8 (wr.bitsBuffer >>> 64)).take t) =
      bitsOf (8 * t) (v / 2 ^ (c - t * 8)) := by
    have hsplit := take_encodeBE t (8 - t) (wr.bitsBuffer >>> 64)
    rw [show t + (8 - t) = 8 by omega] at hsplit
    rw [hsplit, byteBits_encodeBE, Nat.shiftRight_eq_div_pow, Nat.div_div_eq_div_mul,
      show (256 : ℕ) ^ (8 - t) = 2 ^ (8 * (8 - t)) by rw [pow_mul]; norm_num, ← pow_add,
      hw.buffer_eq, show 64 + 8 * (8 - t) = (128 - c) + (c - t * 8) by omega, mul_two_pow_div]
  have hbuf : (wr.bitsBuffer <<< (t * 8)) % 2 ^ 128 =
      v % 2 ^ (c - t * 8) * 2 ^ (128 - (c - t * 8)) := by
    have hmod := mul_two_pow_mod v (128 - (c - t * 8)) (c - t * 8)
    rw [show c - t * 8 + (128 - (c - t * 8)) = 128 by omega] at hmod
    rw [Nat.shiftLeft_eq, hw.buffer_eq, Nat.mul_assoc, ← pow_add,
      show 128 - c + t * 8 = 128 - (c - t * 8) by omega, hmod]
  obtain ⟨hv, htop⟩ := valid_of_buffer { wr with
      dest := wr.dest ++ (encodeBE 8 (wr.bitsBuffer >>> 64)).take t
      bitsBuffer := (wr.bitsBuffer <<< (t * 8)) % 2 ^ 128
      bitsCount := c - t * 8 } _ (by simp; omega) (Nat.mod_lt _ (Nat.two_pow_pos _)) hbuf
  refine ⟨hv, ?_, rfl, rfl⟩
  rw [bits_eq, htop]
  dsimp only
  rw [byteBits_append, hbytes, List.append_assoc, bitsOf_mod (c - t * 8) (c - t * 8) v le_rfl,
    ← bitsOf_add, show 8 * t + (c - t * 8) = c by omega]
  rfl

lemma valid_append {wr : BitWriter} (hw : wr.Valid) {k : ℕ} (hk : k ≤ 64)
    (hcap : k ≤ 128 - wr.bitsCount) (x : UInt64) :
    ({ wr with
      bitsBuffer := wr.bitsBuffer |||
        ((x.toNat &&& maskLowBits k) <<< (128 - wr.bitsCount - k)) % 2 ^ 128
      bitsCount := wr.bitsCount + k } : BitWriter).Valid ∧
    ({ wr with
      bitsBuffer := wr.bitsBuffer |||
        ((x.toNat &&& maskLowBits k) <<< (128 - wr.bitsCount - k)) % 2 ^ 128
      bitsCount := wr.bitsCount + k } : BitWriter).bits = wr.bits ++ bitsOf k x.toNat := by
  set c := wr.bitsCount with hc
  set s := 128 - c - k with hs
  set y := x.toNat % 2 ^ k with hy
  have hc128 := hw.count_le
  have hylt : y < 2 ^ k := Nat.mod_lt _ (Nat.two_pow_pos k)
  have hys : y * 2 ^ s < 2 ^ (k + s) := by
    rw [pow_add]
    exact Nat.mul_lt_mul_of_pos_right hylt (Nat.two_pow_pos s)
  have hv : ((x.toNat &&& maskLowBits k) <<< s) % 2 ^ 128 = y * 2 ^ s := by
    rw [maskLowBits_eq k x.toNat hk, Nat.shiftLeft_eq, Nat.mod_eq_of_lt]
    calc y * 2 ^ s < 2 ^ (k + s) := hys
      _ ≤ 2 ^ 128 := Nat.pow_le_pow_right (by norm_num) (by omega)
  have hbuf : wr.bitsBuffer ||| y * 2 ^ s = (wr.top * 2 ^ k + y) * 2 ^ (128 - (c + k)) := by
    rw [hw.buffer_eq, ← hc, show 128 - c = k + s by omega, or_aligned _ _ _ _ hylt,
      show 128 - (c + k) = s by omega]
  have htop := append_lt hw.top_lt hylt
  obtain ⟨hval, hnew⟩ := valid_of_buffer { wr with
      bitsBuffer := wr.bitsBuffer ||| ((x.toNat &&& maskLowBits k) <<< s) % 2 ^ 128
      bitsCount := c + k } _ (by dsimp only; omega) htop (by dsimp only; rw [hv, hbuf])
  refine ⟨hval, ?_⟩
  rw [bits_eq, hnew]
  dsimp only
  rw [bitsOf_mul_add _ _ _ _ hylt, hy, bitsOf_mod k k _ le_rfl, bits_eq, List.append_assoc]

lemma writeBits_spec {wr : BitWriter} (hw : wr.Valid) {k : ℕ} (hk : k ≤ 64) (x : UInt64)
    (hsize : wr.count ≤ 8 * wr.destSize) :
    ∃ wr', wr.writeBits k x = .ok wr' ∧ wr'.Valid ∧ wr'.bits = wr.bits ++ bitsOf k x.toNat ∧
      wr'.destSize = wr.destSize := by
  have hc128 := hw.count_le
  by_cases hfull : 128 - wr.bitsCount < k
  · have hroom : wr.dest.length + min 8 (wr.bitsCount / 8) ≤ wr.destSize := by
      simp only [count_eq] at hsize
      omega
    obtain ⟨wr1, hflush, hw1, hbits1, hsize1, hcount1⟩ := doFlush_spec hw hroom
    obtain ⟨hval, hnew⟩ := valid_append hw1 hk (by omega) x
    refine ⟨_, ?_, hval, by rw [hnew, hbits1], hsize1⟩
    simp only [writeBits, if_pos hfull, hflush]
    rfl
  · obtain ⟨hval, hnew⟩ := valid_append hw hk (by omega) x
    refine ⟨_, ?_, hval, hnew, rfl⟩
    simp only [writeBits, if_neg hfull]
    rfl

lemma writeBits_ofNat_spec {wr : BitWriter} (hw : wr.Valid) {k : ℕ} (hk : k ≤ 64) (v : ℕ)
    (hsize : wr.count ≤ 8 * wr.destSize) :
    ∃ wr', wr.writeBits k (UInt64.ofNat v) = .ok wr' ∧ wr'.Valid ∧ wr'.bits = wr.bits ++ bitsOf k v ∧
      wr'.destSize = wr.destSize := by
  obtain ⟨wr', h, hv, hb, hd⟩ := writeBits_spec hw hk (UInt64.ofNat v) hsize
  exact ⟨wr', h, hv, by rw [hb, bitsOf_toNat_ofNat hk], hd⟩

lemma count_eq_of_bits {wr wr' : BitWriter} {l : List Bool} (h : wr'.bits = wr.bits ++ l) :
    wr'.count = wr.count + l.length := by
  rw [← length_bits, h, List.length_append, length_bits]

lemma flushLoop_succ (n : ℕ) (wr : BitWriter) :
    flushLoop (n + 1) wr = if wr.bitsCount = 0 then pure wr else wr.doFlush >>= flushLoop n := rfl

lemma flushLoop_spec (n : ℕ) {wr : BitWriter} (hw : wr.Valid) (h8 : wr.bitsCount % 8 = 0)
    (hn : wr.bitsCount ≤ 8 * n) (hsize : wr.count ≤ 8 * wr.destSize) :
    ∃ wr', flushLoop n wr = .ok wr' ∧ wr'.Valid ∧ wr'.bitsCount = 0 ∧ wr'.bits = wr.bits ∧
      wr'.destSize = wr.destSize := by
  induction n generalizing wr with
  | zero => exact ⟨wr, rfl, hw, by omega, rfl, rfl⟩
  | succ n ih =>
    by_cases h0 : wr.bitsCount = 0
    · exact ⟨wr, by rw [flushLoop_succ, if_pos h0]; rfl, hw, h0, rfl, rfl⟩
    · have hroom : wr.dest.length + min 8 (wr.bitsCount / 8) ≤ wr.destSize := by
        simp only [count_eq] at hsize
        omega
      obtain ⟨wr1, hflush, hw1, hbits1, hsize1, hcount1⟩ := doFlush_spec hw hroom
      have hlen : wr1.count = wr.count := by rw [← length_bits, ← length_bits, hbits1]
      obtain ⟨wr', hloop, hw', h0', hbits', hsize'⟩ :=
        ih hw1 (by omega) (by omega) (by rw [hlen, hsize1]; exact hsize)
      refine ⟨wr', ?_, hw', h0', hbits'.trans hbits1, hsize'.trans hsize1⟩
      simp only [flushLoop_succ, if_neg h0, hflush]
      exact hloop

@[simp] lemma flush_init (size : ℕ) : (init size).flush = .ok (init size) := by
  unfold flush
  simp only [bitsCount_init]
  rfl

lemma flush_spec {wr : BitWriter} (hw : wr.Valid) (hsize : (wr.count + 7) / 8 ≤ wr.destSize) :
    ∃ wr', wr.flush = .ok wr' ∧ wr'.bitsCount = 0 ∧ wr'.destSize = wr.destSize ∧
      byteBits wr'.dest =
        wr.bits ++ List.replicate ((wr.bitsCount + 8 - 1) / 8 * 8 - wr.bitsCount) false := by
  set c := wr.bitsCount with hc
  set p := (c + 8 - 1) / 8 * 8 - c with hp
  have hc128 := hw.count_le
  have hcp : (c + 8 - 1) / 8 * 8 = c + p := by omega
  obtain ⟨hw0, htop0⟩ := valid_of_buffer { wr with bitsCount := (c + 8 - 1) / 8 * 8 }
    (wr.top * 2 ^ p) (by dsimp only; omega)
    (by
      dsimp only
      rw [hcp, pow_add]
      exact Nat.mul_lt_mul_of_pos_right hw.top_lt (Nat.two_pow_pos p))
    (by
      dsimp only
      rw [hw.buffer_eq, ← hc, Nat.mul_assoc, ← pow_add]
      congr 2
      omega)
  have hbits0 : ({ wr with bitsCount := (c + 8 - 1) / 8 * 8 } : BitWriter).bits =
      wr.bits ++ List.replicate p false := by
    rw [bits_eq, htop0]
    dsimp only
    rw [hcp, ← Nat.add_zero (wr.top * 2 ^ p), bitsOf_mul_add _ _ _ _ (Nat.two_pow_pos p),
      bitsOf_zero_value, bits_eq, List.append_assoc]
  obtain ⟨wr', hloop, _, h0', hbits', hsize'⟩ := flushLoop_spec ((c + 8 - 1) / 8 * 8) hw0
    (by dsimp only; omega) (by dsimp only; omega)
    (by simp only [count_eq] at hsize ⊢; omega)
  refine ⟨wr', hloop, h0', hsize', ?_⟩
  rw [← hbits0, ← hbits', bits_eq, h0', bitsOf_zero, List.append_nil]

/-- A caller's calls `writeBits(k, v)` one after the other, up to the first exception. -/
def writeBitsList : List (ℕ × UInt64) → BitWriter → Except ErrorCode BitWriter
  | [], wr => pure wr
  | (k, v) :: kvs, wr => do writeBitsList kvs (← wr.writeBits k v)

/-- The run of `writeBits`: with room for every bit, the calls append the low bits of each value in
turn. The induction is on the calls, with the writer they start from generalized. -/
lemma writeBitsList_spec (kvs : List (ℕ × UInt64)) (hk : ∀ p ∈ kvs, p.1 ≤ 64) {wr : BitWriter} (hw : wr.Valid)
    (hsize : wr.count + (kvs.map Prod.fst).sum ≤ 8 * wr.destSize) :
    ∃ wr', wr.writeBitsList kvs = .ok wr' ∧ wr'.Valid ∧
      wr'.bits = wr.bits ++ kvs.flatMap (fun p => bitsOf p.1 p.2.toNat) ∧ wr'.destSize = wr.destSize := by
  induction kvs generalizing wr with
  | nil => exact ⟨wr, rfl, hw, by simp, rfl⟩
  | cons kv kvs ih =>
    obtain ⟨k, v⟩ := kv
    rw [List.map_cons, List.sum_cons] at hsize
    obtain ⟨wr1, h1, hw1, hb1, hd1⟩ := writeBits_spec hw (hk (k, v) List.mem_cons_self) v (by omega)
    have hcount : wr1.count = wr.count + k := by rw [count_eq_of_bits hb1, length_bitsOf]
    obtain ⟨wr', h', hw', hb', hd'⟩ := ih (fun p hp => hk p (List.mem_cons_of_mem _ hp)) hw1
      (by rw [hcount, hd1]; omega)
    refine ⟨wr', ?_, hw', by rw [hb', hb1, List.flatMap_cons, List.append_assoc], hd'.trans hd1⟩
    simp only [writeBitsList, h1]
    exact h'

end BitWriter

namespace BitReader

def top (rd : BitReader) : ℕ := rd.bitsBuffer / 2 ^ (128 - rd.bitsCount.toNat)

def bits (rd : BitReader) : List Bool := bitsOf rd.bitsCount.toNat rd.top ++ byteBits rd.source

lemma top_eq (rd : BitReader) : rd.top = rd.bitsBuffer / 2 ^ (128 - rd.bitsCount.toNat) := rfl

lemma bits_eq (rd : BitReader) : rd.bits = bitsOf rd.bitsCount.toNat rd.top ++ byteBits rd.source := rfl

@[simp] lemma source_init (source : List UInt8) : (init source).source = source := rfl

@[simp] lemma bitsBuffer_init (source : List UInt8) : (init source).bitsBuffer = 0 := rfl

@[simp] lemma bitsCount_init (source : List UInt8) : (init source).bitsCount = 0 := rfl

structure Valid (rd : BitReader) : Prop where
  count_le : rd.bitsCount.toNat ≤ 128
  top_lt : rd.top < 2 ^ rd.bitsCount.toNat
  buffer_eq : rd.bitsBuffer = rd.top * 2 ^ (128 - rd.bitsCount.toNat)

lemma valid_init (source : List UInt8) : (init source).Valid :=
  ⟨by simp, by simp [top_eq], by simp [top_eq]⟩

@[simp] lemma bits_init (source : List UInt8) : (init source).bits = byteBits source := by
  simp [bits_eq, top_eq]

lemma top_of_buffer {rd : BitReader} {v : ℕ}
    (h : rd.bitsBuffer = v * 2 ^ (128 - rd.bitsCount.toNat)) : rd.top = v := by
  rw [top_eq, h, Nat.mul_div_cancel _ (Nat.two_pow_pos _)]

lemma valid_of_buffer (rd : BitReader) (v : ℕ) (hc : rd.bitsCount.toNat ≤ 128)
    (hv : v < 2 ^ rd.bitsCount.toNat) (h : rd.bitsBuffer = v * 2 ^ (128 - rd.bitsCount.toNat)) :
    rd.Valid ∧ rd.top = v := by
  have ht := top_of_buffer h
  exact ⟨⟨hc, ht ▸ hv, ht ▸ h⟩, ht⟩

lemma eof_iff {rd : BitReader} : rd.eof = true ↔ rd.bits = [] := by
  simp only [eof, bits_eq, Bool.and_eq_true, decide_eq_true_eq, List.isEmpty_iff, List.append_eq_nil_iff]
  constructor
  · rintro ⟨hc, hs⟩
    simp [hc, hs]
  · rintro ⟨hc, hs⟩
    have hlen := congrArg List.length hc
    have hs' : rd.source = [] := by
      have := congrArg List.length hs
      simp only [length_byteBits, List.length_nil] at this
      exact List.eq_nil_of_length_eq_zero (by omega)
    simp only [length_bitsOf, List.length_nil] at hlen
    exact ⟨UInt8.toNat_inj.mp (by simpa using hlen), hs'⟩

/-- After a fill the buffer holds at least 64 valid bits, or the source is used up. -/
lemma fillBitBuffer_spec {rd : BitReader} (hr : rd.Valid) (hc : rd.bitsCount.toNat < 64) :
    rd.fillBitBuffer.Valid ∧ rd.fillBitBuffer.bits = rd.bits ∧
      (64 ≤ rd.fillBitBuffer.bitsCount.toNat ∨ rd.fillBitBuffer.source = []) := by
  by_cases h0 : rd.source.length = 0
  · have hs : rd.source = [] := List.eq_nil_of_length_eq_zero h0
    have hfill : rd.fillBitBuffer = rd := by simp [fillBitBuffer, h0]
    rw [hfill]
    exact ⟨hr, rfl, Or.inr hs⟩
  set c := rd.bitsCount.toNat with hcdef
  set n := min 8 rd.source.length with hn
  set d := decodeBE (rd.source.take n) with hd
  have hn8 : n ≤ 8 := by omega
  have hlen : (rd.source.take n).length = n := by simp [hn]
  have hdlt : d < 2 ^ (8 * n) := by
    have h := decodeBE_lt (rd.source.take n)
    rwa [hlen, show (256 : ℕ) = 2 ^ 8 by norm_num, ← pow_mul] at h
  have htmp : decodeBE (rd.source.take n ++ List.replicate (8 - n) 0) <<< (64 - c) =
      d * 2 ^ (128 - (c + 8 * n)) := by
    rw [decodeBE_append, decodeBE_replicate_zero, Nat.add_zero, List.length_replicate, ← hd, Nat.shiftLeft_eq, show (256 : ℕ) = 2 ^ 8 by norm_num, ← pow_mul,
      Nat.mul_assoc, ← pow_add]
    congr 2
    omega
  have hnew := append_lt hr.top_lt hdlt
  have hbuf : (rd.bitsBuffer ||| decodeBE (rd.source.take n ++ List.replicate (8 - n) 0) <<< (64 - c)) %
      2 ^ 128 = (rd.top * 2 ^ (8 * n) + d) * 2 ^ (128 - (c + 8 * n)) := by
    rw [htmp, hr.buffer_eq, ← hcdef, show 128 - c = 8 * n + (128 - (c + 8 * n)) by omega,
      or_aligned _ _ _ _ hdlt, Nat.mod_eq_of_lt]
    calc (rd.top * 2 ^ (8 * n) + d) * 2 ^ (128 - (c + 8 * n))
        < 2 ^ (c + 8 * n) * 2 ^ (128 - (c + 8 * n)) := Nat.mul_lt_mul_of_pos_right hnew (Nat.two_pow_pos _)
      _ = 2 ^ 128 := by rw [← pow_add]; congr 1; omega
  have hcount : (rd.bitsCount + UInt8.ofNat n * 8).toNat = c + 8 * n := by
    have h8 : (8 : UInt8).toNat = 8 := rfl
    simp only [UInt8.toNat_add, UInt8.toNat_mul, UInt8.toNat_ofNat', h8]
    omega
  have hfill : rd.fillBitBuffer = {
      source := rd.source.drop n
      bitsBuffer := (rd.bitsBuffer |||
        decodeBE (rd.source.take n ++ List.replicate (8 - n) 0) <<< (64 - c)) % 2 ^ 128
      bitsCount := rd.bitsCount + UInt8.ofNat n * 8 } := by
    simp only [fillBitBuffer, if_neg h0]
    rfl
  obtain ⟨hval, htop⟩ := valid_of_buffer rd.fillBitBuffer (rd.top * 2 ^ (8 * n) + d)
    (by rw [hfill, hcount]; omega) (by rw [hfill, hcount]; exact hnew)
    (by rw [hfill]; dsimp only; rw [hcount, hbuf])
  refine ⟨hval, ?_, ?_⟩
  · rw [bits_eq, htop, hfill]
    dsimp only
    have hbb : bitsOf (8 * n) d = byteBits (rd.source.take n) := by rw [byteBits_eq_bitsOf, hlen]
    rw [hcount, bitsOf_mul_add _ _ _ _ hdlt, List.append_assoc, hbb, ← byteBits_append,
      List.take_append_drop]
    rfl
  · by_cases h8 : 8 ≤ rd.source.length
    · left
      rw [hfill, hcount]
      omega
    · right
      rw [hfill]
      exact List.drop_eq_nil_of_le (by omega)

lemma ofBits_replicate_false (n : ℕ) : ofBits (List.replicate n false) = 0 := by
  induction n with
  | zero => rfl
  | succ n ih => simp [List.replicate_succ, ih]

/-- The buffer's high bits, padded with zero bits when fewer than `k` are valid. -/
lemma getBitsFromBitBuffer_spec {rd : BitReader} (hr : rd.Valid) {k : ℕ} (hk : k ≤ 64) :
    rd.getBitsFromBitBuffer k =
      ofBits ((bitsOf rd.bitsCount.toNat rd.top ++ List.replicate k false).take k) := by
  set c := rd.bitsCount.toNat with hc
  have hc128 := hr.count_le
  rw [getBitsFromBitBuffer, Nat.shiftRight_eq_div_pow, hr.buffer_eq, ← hc]
  by_cases hkc : k ≤ c
  · have hsplit : bitsOf c rd.top = bitsOf k (rd.top / 2 ^ (c - k)) ++ bitsOf (c - k) rd.top := by
      rw [← bitsOf_add, Nat.add_sub_cancel' hkc]
    have hlt : rd.top / 2 ^ (c - k) < 2 ^ k := by
      rw [Nat.div_lt_iff_lt_mul (Nat.two_pow_pos _), ← pow_add, Nat.add_sub_cancel' hkc]
      exact hr.top_lt
    rw [show 128 - k = (128 - c) + (c - k) by omega, mul_two_pow_div, hsplit, List.append_assoc,
      List.take_left' (length_bitsOf _ _), ofBits_bitsOf, Nat.mod_eq_of_lt hlt, Nat.mod_eq_of_lt]
    exact lt_of_lt_of_le hlt (Nat.pow_le_pow_right (by norm_num) hk)
  · have htake : (bitsOf c rd.top ++ List.replicate k false).take k =
        bitsOf c rd.top ++ List.replicate (k - c) false := by
      rw [List.take_append, length_bitsOf, List.take_of_length_le (by simp; omega),
        List.take_replicate, Nat.min_eq_left (by omega)]
    have hdiv : rd.top * 2 ^ (128 - c) / 2 ^ (128 - k) = rd.top * 2 ^ (k - c) := by
      rw [show 128 - c = (k - c) + (128 - k) by omega, pow_add, ← Nat.mul_assoc,
        Nat.mul_div_cancel _ (Nat.two_pow_pos _)]
    have hlt : rd.top * 2 ^ (k - c) < 2 ^ 64 := by
      calc rd.top * 2 ^ (k - c) < 2 ^ c * 2 ^ (k - c) :=
            Nat.mul_lt_mul_of_pos_right hr.top_lt (Nat.two_pow_pos _)
        _ = 2 ^ k := by rw [← pow_add]; congr 1; omega
        _ ≤ 2 ^ 64 := Nat.pow_le_pow_right (by norm_num) hk
    rw [hdiv, htake, ofBits_append, ofBits_replicate_false, List.length_replicate,
      ofBits_bitsOf, Nat.mod_eq_of_lt hr.top_lt, Nat.add_zero, Nat.mod_eq_of_lt hlt]

lemma skipBufferedBits_spec {rd : BitReader} (hr : rd.Valid) {k : ℕ} (hk : k ≤ rd.bitsCount.toNat) :
    (rd.skipBufferedBits k).Valid ∧ (rd.skipBufferedBits k).bits = rd.bits.drop k := by
  set c := rd.bitsCount.toNat with hc
  have hc128 := hr.count_le
  have hcount : (rd.bitsCount - UInt8.ofNat k).toNat = c - k := by
    rw [UInt8.toNat_sub_of_le, UInt8.toNat_ofNat', Nat.mod_eq_of_lt (by omega)]
    rw [UInt8.le_iff_toNat_le, UInt8.toNat_ofNat', Nat.mod_eq_of_lt (by omega)]
    exact hk
  have hbuf : (rd.bitsBuffer <<< k) % 2 ^ 128 = rd.top % 2 ^ (c - k) * 2 ^ (128 - (c - k)) := by
    have hmod := mul_two_pow_mod rd.top (128 - (c - k)) (c - k)
    rw [show c - k + (128 - (c - k)) = 128 by omega] at hmod
    rw [Nat.shiftLeft_eq, hr.buffer_eq, ← hc, Nat.mul_assoc, ← pow_add,
      show 128 - c + k = 128 - (c - k) by omega, hmod]
  obtain ⟨hval, htop⟩ := valid_of_buffer (rd.skipBufferedBits k) (rd.top % 2 ^ (c - k))
    (by simp only [skipBufferedBits]; omega)
    (by simp only [skipBufferedBits, hcount]; exact Nat.mod_lt _ (Nat.two_pow_pos _))
    (by simp only [skipBufferedBits, hcount]; exact hbuf)
  refine ⟨hval, ?_⟩
  have hsplit : bitsOf c rd.top = bitsOf k (rd.top / 2 ^ (c - k)) ++ bitsOf (c - k) rd.top := by
    rw [← bitsOf_add, Nat.add_sub_cancel' hk]
  rw [bits_eq, htop, bits_eq, ← hc, hsplit, List.append_assoc, List.drop_left' (length_bitsOf _ _)]
  simp only [skipBufferedBits, hcount]
  rw [bitsOf_mod _ _ _ le_rfl]

/-- The state both `readBits` and `peekByte` read from, after their conditional fill. -/
lemma prepared_spec {rd : BitReader} (hr : rd.Valid) (need : ℕ) (hneed : need ≤ 64) :
    (if rd.bitsCount.toNat < need then rd.fillBitBuffer else rd).Valid ∧
    (if rd.bitsCount.toNat < need then rd.fillBitBuffer else rd).bits = rd.bits ∧
    (need ≤ (if rd.bitsCount.toNat < need then rd.fillBitBuffer else rd).bitsCount.toNat ∨
      (if rd.bitsCount.toNat < need then rd.fillBitBuffer else rd).source = []) := by
  by_cases hlt : rd.bitsCount.toNat < need
  · rw [if_pos hlt]
    obtain ⟨hv, hb, hc⟩ := fillBitBuffer_spec hr (by omega)
    exact ⟨hv, hb, hc.imp (fun h => by omega) id⟩
  · rw [if_neg hlt]
    exact ⟨hr, rfl, Or.inl (by omega)⟩

lemma le_bitsCount {rd : BitReader} {need k : ℕ} (hk : k ≤ need) (hlen : k ≤ rd.bits.length)
    (hc : need ≤ rd.bitsCount.toNat ∨ rd.source = []) : k ≤ rd.bitsCount.toNat := by
  rcases hc with h | h
  · omega
  · rw [bits_eq, h] at hlen
    simpa using hlen

lemma readBits_spec {rd : BitReader} (hr : rd.Valid) {k : ℕ} (hk : k ≤ 64) (hlen : k ≤ rd.bits.length) :
    (rd.readBits k).1 = ofBits (rd.bits.take k) ∧ (rd.readBits k).2.Valid ∧
      (rd.readBits k).2.bits = rd.bits.drop k := by
  obtain ⟨hv1, hb1, hc1⟩ := prepared_spec hr k hk
  set rd1 := if rd.bitsCount.toNat < k then rd.fillBitBuffer else rd with hrd1
  have hk1 : k ≤ rd1.bitsCount.toNat := le_bitsCount le_rfl (hb1 ▸ hlen) hc1
  obtain ⟨hskip, hdrop⟩ := skipBufferedBits_spec hv1 hk1
  refine ⟨?_, hskip, by rw [← hb1, ← hdrop]; rfl⟩
  change rd1.getBitsFromBitBuffer k = _
  rw [getBitsFromBitBuffer_spec hv1 hk, ← hb1, bits_eq, List.take_append_of_le_length (by simpa using hk1),
    List.take_append_of_le_length (by simpa using hk1)]

lemma readBits_bitsOf_spec {rd : BitReader} (hr : rd.Valid) {k : ℕ} (hk : k ≤ 64) (v : ℕ)
    (rest : List Bool) (hbits : rd.bits = bitsOf k v ++ rest) :
    (rd.readBits k).1 = v % 2 ^ k ∧ (rd.readBits k).2.Valid ∧ (rd.readBits k).2.bits = rest := by
  obtain ⟨h1, h2, h3⟩ := readBits_spec hr hk (by rw [hbits, List.length_append, length_bitsOf]; omega)
  refine ⟨?_, h2, ?_⟩
  · rw [h1, hbits, List.take_left' (length_bitsOf k v), ofBits_bitsOf]
  · rw [h3, hbits, List.drop_left' (length_bitsOf k v)]

lemma readBit_spec {rd : BitReader} (hr : rd.Valid) (b : Bool) (rest : List Bool)
    (hbits : rd.bits = b :: rest) :
    rd.readBit.1 = b.toNat ∧ rd.readBit.2.Valid ∧ rd.readBit.2.bits = rest := by
  obtain ⟨h1, h2, h3⟩ := readBits_spec hr (show 1 ≤ 64 by omega) (by rw [hbits]; simp)
  refine ⟨?_, h2, ?_⟩
  · rw [readBit, h1, hbits]
    simp
  · rw [readBit, h3, hbits, List.drop_one, List.tail_cons]

lemma peekByte_spec {rd : BitReader} (hr : rd.Valid) :
    rd.peekByte.1 = ofBits ((rd.bits ++ List.replicate 8 false).take 8) ∧ rd.peekByte.2.Valid ∧
      rd.peekByte.2.bits = rd.bits := by
  obtain ⟨hv1, hb1, hc1⟩ := prepared_spec hr 8 (by omega)
  set rd1 := if rd.bitsCount.toNat < 8 then rd.fillBitBuffer else rd with hrd1
  refine ⟨?_, hv1, hb1⟩
  change rd1.getBitsFromBitBuffer 8 % 256 = _
  have htake : (rd.bits ++ List.replicate 8 false).take 8 =
      (bitsOf rd1.bitsCount.toNat rd1.top ++ List.replicate 8 false).take 8 := by
    rw [← hb1, bits_eq]
    rcases hc1 with h | h
    · rw [List.append_assoc, List.take_append_of_le_length (by simpa using h),
        List.take_append_of_le_length (by simpa using h)]
    · rw [h, byteBits_nil, List.append_nil]
  have hlt : ofBits ((rd.bits ++ List.replicate 8 false).take 8) < 256 := by
    have h := ofBits_lt ((rd.bits ++ List.replicate 8 false).take 8)
    have hl : ((rd.bits ++ List.replicate 8 false).take 8).length = 8 := by simp
    rw [hl] at h
    simpa using h
  rw [getBitsFromBitBuffer_spec hv1 (by omega), ← htake, Nat.mod_eq_of_lt hlt]

/-- After a peek at least eight bits are buffered, or all that remain: the decoders skip a
prefix without refilling. -/
lemma peekByte_skipBufferedBits_spec {rd : BitReader} (hr : rd.Valid) {k : ℕ} (hk : k ≤ 8)
    (hlen : k ≤ rd.bits.length) :
    (rd.peekByte.2.skipBufferedBits k).Valid ∧
      (rd.peekByte.2.skipBufferedBits k).bits = rd.bits.drop k := by
  obtain ⟨hv1, hb1, hc1⟩ := prepared_spec hr 8 (by omega)
  have hk1 := le_bitsCount hk (hb1 ▸ hlen) hc1
  obtain ⟨hskip, hdrop⟩ := skipBufferedBits_spec hv1 hk1
  exact ⟨hskip, hdrop.trans (by rw [hb1])⟩

/-- A caller's calls `readBits(k)` one after the other, with the values they return. -/
def readBitsList : List ℕ → BitReader → List ℕ × BitReader
  | [], rd => ([], rd)
  | k :: ks, rd =>
    let r := rd.readBits k
    let rest := readBitsList ks r.2
    (r.1 :: rest.1, rest.2)

lemma readBitsList_spec (kvs : List (ℕ × UInt64)) (hk : ∀ p ∈ kvs, p.1 ≤ 64) {rd : BitReader} (hr : rd.Valid)
    (rest : List Bool) (hbits : rd.bits = kvs.flatMap (fun p => bitsOf p.1 p.2.toNat) ++ rest) :
    (rd.readBitsList (kvs.map Prod.fst)).1 = kvs.map (fun p => p.2.toNat % 2 ^ p.1) ∧
      (rd.readBitsList (kvs.map Prod.fst)).2.bits = rest := by
  induction kvs generalizing rd with
  | nil => exact ⟨rfl, by simpa [readBitsList] using hbits⟩
  | cons kv kvs ih =>
    obtain ⟨k, v⟩ := kv
    rw [List.flatMap_cons, List.append_assoc] at hbits
    obtain ⟨h1, hr1, hb1⟩ := readBits_bitsOf_spec hr (hk (k, v) List.mem_cons_self) v.toNat _ hbits
    obtain ⟨h', hb'⟩ := ih (fun p hp => hk p (List.mem_cons_of_mem _ hp)) hr1 hb1
    exact ⟨by simp only [List.map_cons, readBitsList, h1, h'], hb'⟩

end BitReader

open BitWriter BitReader in
/-- Writing values of 1 to 64 bits into a buffer of enough bytes, flushing, and reading the bytes
back with the same widths gives each value reduced to its width; `count()` after `flush` is the
number of bits written rounded up to whole bytes. -/
theorem writeBits_flush_readBits (kvs : List (ℕ × UInt64)) (hk : ∀ p ∈ kvs, 1 ≤ p.1 ∧ p.1 ≤ 64) (size : ℕ)
    (hsize : ((kvs.map Prod.fst).sum + 7) / 8 ≤ size) :
    ∃ wr, ((BitWriter.init size).writeBitsList kvs >>= BitWriter.flush) = .ok wr ∧
      wr.count = 8 * (((kvs.map Prod.fst).sum + 7) / 8) ∧
      ((BitReader.init wr.dest).readBitsList (kvs.map Prod.fst)).1 = kvs.map (fun p => p.2.toNat % 2 ^ p.1) := by
  have hk64 : ∀ p ∈ kvs, p.1 ≤ 64 := fun p hp => (hk p hp).2
  obtain ⟨wr1, h1, hw1, hb1, hd1⟩ := writeBitsList_spec kvs hk64 (BitWriter.valid_init size)
    (by simp only [BitWriter.count_eq, BitWriter.dest_init, BitWriter.bitsCount_init, BitWriter.destSize_init,
      List.length_nil]; omega)
  rw [BitWriter.bits_init, List.nil_append] at hb1
  -- every bit written is in the writer: its count is the sum of the widths
  have hcount : wr1.count = (kvs.map Prod.fst).sum := by
    rw [← BitWriter.length_bits, hb1, List.length_flatMap]
    simp
  obtain ⟨wr2, h2, h0, _, hbytes⟩ := flush_spec hw1 (by rw [hcount, hd1]; exact hsize)
  refine ⟨wr2, by rw [h1]; exact h2, ?_, ?_⟩
  · have hlen := congrArg List.length hbytes
    rw [length_byteBits, List.length_append, BitWriter.length_bits, List.length_replicate] at hlen
    simp only [BitWriter.count_eq, h0] at hcount hlen ⊢
    omega
  · -- the reader sees the bits written, then the zero bits of the padding
    have hread : (BitReader.init wr2.dest).bits = kvs.flatMap (fun p => bitsOf p.1 p.2.toNat) ++
        List.replicate ((wr1.bitsCount + 8 - 1) / 8 * 8 - wr1.bitsCount) false := by
      rw [BitReader.bits_init, hbytes, hb1]
    exact (readBitsList_spec kvs hk64 (BitReader.valid_init wr2.dest) _ hread).1

/-- The third write finds 67 of the 128 bits of the buffer taken and flushes first. -/
theorem writeBits_flush_readBits_flushing :
    ∃ wr, ((BitWriter.init 18).writeBitsList [(3, 5), (64, 0xFFFFFFFFFFFFFFFF), (64, 1), (7, 300)] >>=
        BitWriter.flush) = .ok wr ∧
      wr.count = 8 * (((([(3, 5), (64, 0xFFFFFFFFFFFFFFFF), (64, 1), (7, 300)] : List (ℕ × UInt64)).map
        Prod.fst).sum + 7) / 8) ∧
      ((BitReader.init wr.dest).readBitsList
          (([(3, 5), (64, 0xFFFFFFFFFFFFFFFF), (64, 1), (7, 300)] : List (ℕ × UInt64)).map Prod.fst)).1 =
        ([(3, 5), (64, 0xFFFFFFFFFFFFFFFF), (64, 1), (7, 300)] : List (ℕ × UInt64)).map
          (fun p => p.2.toNat % 2 ^ p.1) :=
  writeBits_flush_readBits _ (by decide) 18 (by decide)

end ClickHouse.IO.BitHelpers
