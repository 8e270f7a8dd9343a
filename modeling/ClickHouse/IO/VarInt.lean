import Mathlib
import ClickHouse.Common.ErrorCodes
import ClickHouse.IO.ReadBuffer
import ClickHouse.Lib.Except

/-! `IO/VarInt.h`: unsigned integers of at most 64 bits written seven bits a byte from the lowest,
every byte but the last with its high bit set. The reader stops after ten bytes. Signed integers
are written as their ZigZag code. There are three readers: over a byte range (`readVarUInt` over a
list), and over a `ReadBuffer`, with or without a check for the end of the data before each byte;
all three are `readVarUIntWith` for their way of taking a byte. -/

namespace ClickHouse.IO

open ClickHouse.Common ClickHouse.Lib

def writeVarUInt (x : ℕ) : List UInt8 :=
  if x > 0x7F then UInt8.ofNat (0x80 ||| (x &&& 0x7F)) :: writeVarUInt (x >>> 7)
  else [UInt8.ofNat x]
termination_by x
decreasing_by
  rw [Nat.shiftRight_eq_div_pow]
  omega

/-- One byte of the writer; the proofs below unfold the recursion only through this lemma. -/
lemma writeVarUInt_eq (x : ℕ) :
    writeVarUInt x = if x > 0x7F then UInt8.ofNat (0x80 ||| (x &&& 0x7F)) :: writeVarUInt (x >>> 7)
      else [UInt8.ofNat x] := by
  rw [writeVarUInt]

/-- The loop of `readVarUInt(UInt64 &, const char *, size_t)` at byte `i`, with `x` the bits read so
far and `n` bytes left of the ten it reads at most; the list is the bytes up to the end of the range. -/
def readVarUIntLoop : ℕ → ℕ → ℕ → List UInt8 → Except ErrorCode (ℕ × List UInt8)
  | 0, _, x, bytes => .ok (x, bytes)
  | _ + 1, _, _, [] => .error .attemptToReadAfterEof
  | n + 1, i, x, byte :: bytes =>
    -- the shift is on a `UInt64`: bits shifted past the 64th are lost
    let x := x ||| ((byte.toNat &&& 0x7F) <<< (7 * i)) % 2 ^ 64
    if byte.toNat &&& 0x80 = 0 then .ok (x, bytes) else readVarUIntLoop n (i + 1) x bytes

lemma readVarUIntLoop_succ_cons (n i x : ℕ) (byte : UInt8) (bytes : List UInt8) :
    readVarUIntLoop (n + 1) i x (byte :: bytes) =
      if byte.toNat &&& 0x80 = 0 then .ok (x ||| ((byte.toNat &&& 0x7F) <<< (7 * i)) % 2 ^ 64, bytes)
      else readVarUIntLoop n (i + 1) (x ||| ((byte.toNat &&& 0x7F) <<< (7 * i)) % 2 ^ 64) bytes :=
  rfl

def readVarUInt (bytes : List UInt8) : Except ErrorCode (ℕ × List UInt8) :=
  readVarUIntLoop 10 0 0 bytes

/-- `readVarUInt` into a `UInt32`: the `UInt64` read, cast down. -/
def readVarUInt32 (bytes : List UInt8) : Except ErrorCode (ℕ × List UInt8) :=
  (readVarUInt bytes).map fun r => (r.1 % 2 ^ 32, r.2)

/-- `getLengthOfVarUInt`, with `1ULL << k` written `2 ^ k`. -/
def getLengthOfVarUInt (x : ℕ) : ℕ :=
  if x < 2 ^ 7 then 1
  else if x < 2 ^ 14 then 2
  else if x < 2 ^ 21 then 3
  else if x < 2 ^ 28 then 4
  else if x < 2 ^ 35 then 5
  else if x < 2 ^ 42 then 6
  else if x < 2 ^ 49 then 7
  else if x < 2 ^ 56 then 8
  else if x < 2 ^ 63 then 9
  else 10

/-- `encodeZigZag`: the shift of `value >> 63` is the arithmetic one of `Int64`. -/
def encodeZigZag (value : Int64) : UInt64 :=
  (value.toUInt64 <<< 1) ^^^ (value >>> 63).toUInt64

def decodeZigZag (n : UInt64) : Int64 :=
  ((n >>> 1) ^^^ -(n &&& 1)).toInt64

def writeVarInt (x : Int64) : List UInt8 := writeVarUInt (encodeZigZag x).toNat

def getLengthOfVarInt (x : Int64) : ℕ := getLengthOfVarUInt (encodeZigZag x).toNat

/-- `readVarInt(Int64 &, const char *, size_t)`. -/
def readVarInt (bytes : List UInt8) : Except ErrorCode (Int64 × List UInt8) :=
  (readVarUInt bytes).map fun r => (decodeZigZag (UInt64.ofNat r.1), r.2)

section Fetch

variable {σ : Type} (fetch : σ → Except ErrorCode (UInt8 × σ))

/-- The loop of `readVarUIntLoop` with the next byte taken by `fetch`, which may throw. -/
def readVarUIntWith : ℕ → ℕ → ℕ → σ → Except ErrorCode (ℕ × σ)
  | 0, _, x, s => .ok (x, s)
  | n + 1, i, x, s =>
    match fetch s with
    | .error e => .error e
    | .ok (byte, s) =>
      let x := x ||| ((byte.toNat &&& 0x7F) <<< (7 * i)) % 2 ^ 64
      if byte.toNat &&& 0x80 = 0 then .ok (x, s) else readVarUIntWith n (i + 1) x s

lemma readVarUIntWith_succ (n i x : ℕ) (s : σ) :
    readVarUIntWith fetch (n + 1) i x s =
      match fetch s with
      | .error e => .error e
      | .ok (byte, s) =>
        if byte.toNat &&& 0x80 = 0 then .ok (x ||| ((byte.toNat &&& 0x7F) <<< (7 * i)) % 2 ^ 64, s)
        else readVarUIntWith fetch n (i + 1) (x ||| ((byte.toNat &&& 0x7F) <<< (7 * i)) % 2 ^ 64) s :=
  rfl

end Fetch

namespace ReadBuffer

/-- One byte of `varint_impl::readVarUInt<check_eof>`: with `check_eof`, `eof()` first and
`throwReadAfterEOF` at the end; then `*istr.position()` and `++istr.position()`. -/
def readVarUIntByte (checkEof : Bool) (rb : ReadBuffer) : Except ErrorCode (UInt8 × ReadBuffer) :=
  let r := if checkEof then rb.eof else (false, rb)
  if r.1 then .error .attemptToReadAfterEof
  else
    match r.2.pending with
    | byte :: bytes => .ok (byte, { r.2 with pending := bytes })
    -- past the end of the working buffer: only the loop without checks gets here, and the
    -- dispatch runs it only with ten bytes in the buffer
    | [] => .error .attemptToReadAfterEof

def readVarUIntImpl (checkEof : Bool) (rb : ReadBuffer) : Except ErrorCode (ℕ × ReadBuffer) :=
  readVarUIntWith (readVarUIntByte checkEof) 10 0 0 rb

/-- `readVarUInt(UInt64 &, ReadBuffer &)`: the loop without checks when ten bytes are left in the
working buffer. -/
def readVarUInt (rb : ReadBuffer) : Except ErrorCode (ℕ × ReadBuffer) :=
  if 10 ≤ rb.pending.length then readVarUIntImpl false rb else readVarUIntImpl true rb

def readVarInt (rb : ReadBuffer) : Except ErrorCode (Int64 × ReadBuffer) :=
  rb.readVarUInt.map fun r => (decodeZigZag (UInt64.ofNat r.1), r.2)

end ReadBuffer

section Bytes

lemma and_0x7F (n : ℕ) : n &&& 0x7F = n % 128 :=
  Nat.and_two_pow_sub_one_eq_mod n 7

lemma and_0x80 (n : ℕ) : n &&& 0x80 = (n.testBit 7).toNat * 128 :=
  Nat.and_two_pow n 7

/-- A continuation byte: the seven low bits under the high bit. -/
lemma toNat_continuation (x : ℕ) : (UInt8.ofNat (0x80 ||| (x &&& 0x7F))).toNat = 128 + x % 128 := by
  have hlow : x % 128 < 2 ^ 7 := Nat.mod_lt x (by decide)
  have hor : 0x80 ||| (x &&& 0x7F) = 128 + x % 128 := by
    rw [and_0x7F]
    exact (Nat.shiftLeft_add_eq_or_of_lt hlow 1).symm
  rw [hor, UInt8.toNat_ofNat', Nat.mod_eq_of_lt (by omega)]

lemma and_0x80_of_lt {b : ℕ} (hb : b < 128) : b &&& 0x80 = 0 := by
  rw [and_0x80, Nat.testBit_lt_two_pow hb]
  rfl

lemma and_0x80_continuation {r : ℕ} (hr : r < 128) : (128 + r) &&& 0x80 ≠ 0 := by
  rw [and_0x80, show (128 : ℕ) = 2 ^ 7 by rfl, Nat.testBit_two_pow_add_eq, Nat.testBit_lt_two_pow hr]
  decide

/-- A value split at byte `i`: its low seven bits there, the rest from the next byte on. -/
lemma mul_eq_low_add_high (y i : ℕ) :
    y * 2 ^ (7 * i) = y % 128 * 2 ^ (7 * i) + y / 128 * 2 ^ (7 * (i + 1)) := by
  rw [show 7 * (i + 1) = 7 * i + 7 by ring, pow_add]
  nth_rewrite 1 [← Nat.mod_add_div y 128]
  ring

lemma add_low_lt {acc i : ℕ} (y : ℕ) (hacc : acc < 2 ^ (7 * i)) :
    acc + y % 128 * 2 ^ (7 * i) < 2 ^ (7 * (i + 1)) := by
  have hmod : y % 128 + 1 ≤ 128 := Nat.mod_lt y (by decide)
  calc acc + y % 128 * 2 ^ (7 * i) < (y % 128 + 1) * 2 ^ (7 * i) := by nlinarith
    _ ≤ 128 * 2 ^ (7 * i) := Nat.mul_le_mul_right _ hmod
    _ = 2 ^ (7 * (i + 1)) := by rw [show 7 * (i + 1) = 7 + 7 * i by ring, pow_add]; rfl

end Bytes

/-- Reading from byte `i` what `writeVarUInt y` wrote adds `y` shifted past the `7 * i` bits read
so far. The induction follows the recursion of `writeVarUInt`: a last byte ends the loop, a
continuation byte moves it one byte on. -/
lemma readVarUIntLoop_writeVarUInt (rest : List UInt8) (y : ℕ) :
    ∀ (n i acc : ℕ), 0 < n → y < 128 ^ n → acc < 2 ^ (7 * i) → acc + y * 2 ^ (7 * i) < 2 ^ 64 →
      readVarUIntLoop n i acc (writeVarUInt y ++ rest) = .ok (acc + y * 2 ^ (7 * i), rest) := by
  induction y using Nat.strongRecOn with
  | ind y ih =>
    intro n i acc hn hy hacc hfit
    obtain ⟨n, rfl⟩ : ∃ m, n = m + 1 := ⟨n - 1, by omega⟩
    have hshift : (y % 128) <<< (7 * i) = y % 128 * 2 ^ (7 * i) := Nat.shiftLeft_eq _ _
    have hlow : y % 128 * 2 ^ (7 * i) ≤ y * 2 ^ (7 * i) := Nat.mul_le_mul_right _ (Nat.mod_le y 128)
    -- the bits of this byte land above `acc`, so the or is a sum
    have hor : acc ||| y % 128 * 2 ^ (7 * i) % 2 ^ 64 = acc + y % 128 * 2 ^ (7 * i) := by
      rw [Nat.mod_eq_of_lt (by omega), Nat.add_comm, ← Nat.shiftLeft_eq,
        Nat.shiftLeft_add_eq_or_of_lt hacc, Nat.lor_comm]
    rw [writeVarUInt_eq]
    split_ifs with hbig
    · -- a continuation byte, then the rest of the number from the next byte
      have hcont := toNat_continuation y
      have hnext : y >>> 7 = y / 128 := Nat.shiftRight_eq_div_pow y 7
      have hy' : y / 128 < 128 ^ n := by
        rw [pow_succ] at hy
        exact Nat.div_lt_of_lt_mul (by linarith)
      have hn' : 0 < n := by
        rcases Nat.eq_zero_or_pos n with rfl | h
        · simp at hy; omega
        · exact h
      have hsplit := mul_eq_low_add_high y i
      have htest := and_0x80_continuation (Nat.mod_lt y (by decide : 0 < 128))
      rw [List.cons_append, readVarUIntLoop_succ_cons, hcont, if_neg htest, and_0x7F,
        Nat.add_mod_left, Nat.mod_mod_of_dvd _ (by decide), hshift, hor, hnext,
        ih (y / 128) (by omega) n (i + 1) _ hn' hy' (add_low_lt y hacc) (by omega), hsplit,
        Nat.add_assoc]
    · -- the last byte
      have hsmall : y < 128 := by omega
      have hbyte : (UInt8.ofNat y).toNat = y := by
        rw [UInt8.toNat_ofNat', Nat.mod_eq_of_lt (by omega)]
      rw [List.singleton_append, readVarUIntLoop_succ_cons, hbyte, if_pos (and_0x80_of_lt hsmall), and_0x7F, hshift, hor,
        Nat.mod_eq_of_lt hsmall]

/-- What `writeVarUInt` writes of a `UInt64`, `readVarUInt` reads back, leaving the bytes after it. -/
theorem readVarUInt_writeVarUInt (x : ℕ) (hx : x < 2 ^ 64) (rest : List UInt8) :
    readVarUInt (writeVarUInt x ++ rest) = .ok (x, rest) := by
  have h := readVarUIntLoop_writeVarUInt rest x 10 0 0 (by decide)
    (by calc x < 2 ^ 64 := hx
          _ ≤ 128 ^ 10 := by decide) (by decide) (by simpa using hx)
  simpa [readVarUInt] using h

lemma readVarUInt32_writeVarUInt (x : ℕ) (hx : x < 2 ^ 32) (rest : List UInt8) :
    readVarUInt32 (writeVarUInt x ++ rest) = .ok (x, rest) := by
  rw [readVarUInt32, readVarUInt_writeVarUInt x (by omega) rest]
  show Except.ok (x % 2 ^ 32, rest) = _
  rw [Nat.mod_eq_of_lt hx]

/-! ### The length of the code -/

/-- A value below `2 ^ (7 * (k + 1))` and, past one byte, at least `2 ^ (7 * k)` takes `k + 1`
bytes. The induction is on `k`, one byte of the writer a step. -/
lemma length_writeVarUInt_of_lt (k x : ℕ) (hlo : k = 0 ∨ 2 ^ (7 * k) ≤ x) (hhi : x < 2 ^ (7 * (k + 1))) :
    (writeVarUInt x).length = k + 1 := by
  induction k generalizing x with
  | zero =>
    rw [writeVarUInt_eq, if_neg (by omega)]
    rfl
  | succ k ih =>
    have h7 : 2 ^ 7 ≤ 2 ^ (7 * (k + 1)) := Nat.pow_le_pow_right (by norm_num) (by omega)
    have hbig : x > 0x7F := by omega
    -- what is left after the first byte is in the range one byte lower
    have hlo' : k = 0 ∨ 2 ^ (7 * k) ≤ x / 2 ^ 7 := by
      refine .inr ((Nat.le_div_iff_mul_le (by positivity)).mpr ?_)
      rw [← pow_add, show 7 * k + 7 = 7 * (k + 1) by ring]
      omega
    have hhi' : x / 2 ^ 7 < 2 ^ (7 * (k + 1)) := by
      refine (Nat.div_lt_iff_lt_mul (by positivity)).mpr ?_
      rwa [← pow_add]
    rw [writeVarUInt_eq, if_pos hbig, List.length_cons, Nat.shiftRight_eq_div_pow, ih _ hlo' hhi']

lemma length_writeVarUInt (x : ℕ) (hx : x < 2 ^ 64) : (writeVarUInt x).length = getLengthOfVarUInt x := by
  unfold getLengthOfVarUInt
  -- each comparison of the source bounds a range of `length_writeVarUInt_of_lt`
  split_ifs <;> apply length_writeVarUInt_of_lt <;> norm_num at * <;> omega

/-! ### Where the readers stop -/

lemma readVarUIntLoop_cases (n i x : ℕ) (bytes : List UInt8) :
    (∃ y k, k ≤ n ∧ readVarUIntLoop n i x bytes = .ok (y, bytes.drop k)) ∨
      (readVarUIntLoop n i x bytes = .error .attemptToReadAfterEof ∧ bytes.length < n) := by
  induction n generalizing i x bytes with
  | zero => exact .inl ⟨x, 0, le_rfl, rfl⟩
  | succ n ih =>
    cases bytes with
    | nil => exact .inr ⟨rfl, Nat.succ_pos n⟩
    | cons byte bytes =>
      rw [readVarUIntLoop_succ_cons]
      split_ifs
      · exact .inl ⟨_, 1, by omega, rfl⟩
      · rcases ih (i + 1) _ bytes with ⟨y, k, hk, h⟩ | ⟨h, hlen⟩
        · exact .inl ⟨y, k + 1, by omega, h⟩
        · exact .inr ⟨h, by rw [List.length_cons]; omega⟩

section Fetch

variable {σ : Type} {fetch : σ → Except ErrorCode (UInt8 × σ)}

/-- `fetch` takes the first byte of what is left, and throws only at the end, with the error of
`throwReadAfterEOF`. -/
structure FetchesFrom (fetch : σ → Except ErrorCode (UInt8 × σ)) (contents : σ → List UInt8) : Prop where
  ok : ∀ s byte s', fetch s = .ok (byte, s') → contents s = byte :: contents s'
  error : ∀ s e, fetch s = .error e → contents s = [] ∧ e = .attemptToReadAfterEof

/-- A reader that takes its bytes from what is left reads as the loop over those bytes. The
induction is on the bytes left of the ten. -/
lemma readVarUIntWith_eq {contents : σ → List UInt8} (hf : FetchesFrom fetch contents) (n i x : ℕ) (s : σ) :
    (readVarUIntWith fetch n i x s).map (fun r => (r.1, contents r.2)) = readVarUIntLoop n i x (contents s) := by
  induction n generalizing i x s with
  | zero => rfl
  | succ n ih =>
    rw [readVarUIntWith_succ]
    cases hfs : fetch s with
    | error e =>
      obtain ⟨hnil, rfl⟩ := hf.error s e hfs
      rw [hnil]
      rfl
    | ok r =>
      obtain ⟨byte, s'⟩ := r
      rw [hf.ok s byte s' hfs, readVarUIntLoop_succ_cons]
      dsimp only
      split_ifs
      · rfl
      · exact ih (i + 1) _ s'

end Fetch

/-! ### ZigZag -/

section ZigZag

open BitVec

/-- Every bit of the arithmetic shift by one less than the width is the sign bit: bit 0 is the top
bit, and the others are filled with it. -/
lemma getElem_sshiftRight_sign {w : ℕ} (v : BitVec w) (i : ℕ) (hi : i < w) :
    (v.sshiftRight (w - 1))[i] = v.msb := by
  rw [getElem_sshiftRight]
  split
  · obtain rfl : i = 0 := by omega
    rw [msb_eq_getLsbD_last, getLsbD_eq_getElem (by omega)]
    rfl
  · rfl

lemma sshiftRight_sign {w : ℕ} (v : BitVec w) : v.sshiftRight (w - 1) = if v.msb then allOnes w else 0#w := by
  by_cases hneg : v.msb
  · rw [if_pos hneg]
    ext i hi
    rw [getElem_sshiftRight_sign v i hi, hneg, getElem_allOnes]
  · rw [if_neg hneg]
    ext i hi
    rw [getElem_sshiftRight_sign v i hi]
    simpa using hneg

lemma shiftLeft_one_xor_and_one (v s : BitVec 64) : (v <<< 1 ^^^ s) &&& 1#64 = s &&& 1#64 := by
  ext i hi
  simp only [getElem_and, getElem_xor, getElem_shiftLeft, getElem_one]
  by_cases h0 : i = 0 <;> simp [h0]

/-- The low bit of the code is the sign, and its negation is the sign word again. -/
lemma neg_zigzag_low (v : BitVec 64) : -((v <<< 1 ^^^ v.sshiftRight 63) &&& 1#64) = v.sshiftRight 63 := by
  rw [shiftLeft_one_xor_and_one, show (63 : ℕ) = 64 - 1 from rfl, sshiftRight_sign]
  split <;> decide

/-- The decoding undoes the encoding on the words: each bit below the top is xor-ed with the sign
twice, and the top bit comes back from the sign word. -/
lemma decode_encode_bits (v : BitVec 64) :
    (v <<< 1 ^^^ v.sshiftRight 63) >>> 1 ^^^ -((v <<< 1 ^^^ v.sshiftRight 63) &&& 1#64) = v := by
  have hsign : ∀ j (hj : j < 64), (v.sshiftRight 63)[j] = v.msb := getElem_sshiftRight_sign v
  rw [neg_zigzag_low]
  ext i hi
  rw [getElem_xor, getElem_ushiftRight, getLsbD_xor, hsign i hi, getLsbD_shiftLeft]
  by_cases h63 : i = 63
  · subst h63
    simp [msb_eq_getLsbD_last]
  · rw [getLsbD_eq_getElem (show 1 + i < 64 by omega), hsign _ (by omega)]
    simp [show 1 + i < 64 by omega, getLsbD_eq_getElem hi]

lemma decodeZigZag_encodeZigZag (v : Int64) : decodeZigZag (encodeZigZag v) = v := by
  apply Int64.toBitVec_inj.mp
  simpa [decodeZigZag, encodeZigZag] using decode_encode_bits v.toBitVec

example : encodeZigZag (-1) = 1 ∧ encodeZigZag 1 = 2 ∧ encodeZigZag Int64.minValue = 0xFFFFFFFFFFFFFFFF := by
  decide

end ZigZag

lemma readVarInt_writeVarInt (v : Int64) (rest : List UInt8) : readVarInt (writeVarInt v ++ rest) = .ok (v, rest) := by
  rw [readVarInt, writeVarInt, readVarUInt_writeVarUInt _ (encodeZigZag v).toNat_lt rest]
  simp [Except.map, decodeZigZag_encodeZigZag]

namespace ReadBuffer

lemma fetchesFrom_checked : FetchesFrom (readVarUIntByte true) contents where
  ok rb byte rb' h := by
    rw [← contents_eof rb]
    unfold readVarUIntByte at h
    simp only [↓reduceIte] at h
    split_ifs at h
    split at h
    · next b bs hp =>
      cases h
      rw [contents, hp]
      rfl
    · cases h
  error rb e h := by
    obtain ⟨heof, hpending⟩ := eof_spec rb
    unfold readVarUIntByte at h
    simp only [↓reduceIte] at h
    split_ifs at h with hend
    · cases h
      exact ⟨heof.mp hend, rfl⟩
    · split at h
      · cases h
      · next hp => exact absurd hp (hpending (by simpa using hend))

/-- With `n` bytes in the working buffer, `n` bytes read without checks are those read with them:
`eof()` is false before each of them. -/
lemma readVarUIntWith_unchecked (n i x : ℕ) (rb : ReadBuffer) (hn : n ≤ rb.pending.length) :
    readVarUIntWith (readVarUIntByte false) n i x rb = readVarUIntWith (readVarUIntByte true) n i x rb := by
  induction n generalizing i x rb with
  | zero => rfl
  | succ n ih =>
    obtain ⟨byte, bytes, hp⟩ : ∃ byte bytes, rb.pending = byte :: bytes :=
      List.exists_cons_of_length_pos (by omega)
    have heof : rb.eof = (false, rb) := by
      unfold eof
      simp [hp]
    have hbyte : ∀ c, readVarUIntByte c rb = .ok (byte, { rb with pending := bytes }) := by
      intro c
      cases c <;> unfold readVarUIntByte <;> simp [heof, hp]
    rw [readVarUIntWith_succ, readVarUIntWith_succ, hbyte false, hbyte true]
    dsimp only
    split_ifs
    · rfl
    · exact ih _ _ _ (by rw [hp, List.length_cons] at hn; exact Nat.le_of_succ_le_succ hn)

lemma readVarUIntImpl_unchecked (rb : ReadBuffer) (h : 10 ≤ rb.pending.length) :
    rb.readVarUIntImpl false = rb.readVarUIntImpl true :=
  readVarUIntWith_unchecked 10 0 0 rb h

/-- Both paths of the dispatch read as the loop over what is left, however it is split into refills. -/
lemma readVarUInt_contents (rb : ReadBuffer) :
    rb.readVarUInt.map (fun r => (r.1, r.2.contents)) = ClickHouse.IO.readVarUInt rb.contents := by
  have hchecked := readVarUIntWith_eq fetchesFrom_checked 10 0 0 rb
  unfold readVarUInt
  split_ifs with h
  · rw [readVarUIntImpl_unchecked rb h]
    exact hchecked
  · exact hchecked

/-- What the loop reads off the contents, the buffer reads, and leaves what the loop leaves. -/
lemma readVarUInt_of_loop {rb : ReadBuffer} {y : ℕ} {rest : List UInt8}
    (h : ClickHouse.IO.readVarUInt rb.contents = .ok (y, rest)) :
    ∃ rb', rb.readVarUInt = .ok (y, rb') ∧ rb'.contents = rest := by
  have hmap := readVarUInt_contents rb
  rw [h, map_eq_ok] at hmap
  obtain ⟨⟨y', rb'⟩, hread, hyr⟩ := hmap
  simp only [Prod.mk.injEq] at hyr
  obtain ⟨rfl, hrest⟩ := hyr
  exact ⟨rb', hread, hrest⟩

lemma readVarUInt_of_contents {rb : ReadBuffer} {x : ℕ} {rest : List UInt8} (hx : x < 2 ^ 64)
    (h : rb.contents = writeVarUInt x ++ rest) : ∃ rb', rb.readVarUInt = .ok (x, rb') ∧ rb'.contents = rest := by
  apply readVarUInt_of_loop
  rw [h]
  exact readVarUInt_writeVarUInt x hx rest

lemma readVarUInt_cases (rb : ReadBuffer) :
    (∃ y rb' k, k ≤ 10 ∧ rb.readVarUInt = .ok (y, rb') ∧ rb'.contents = rb.contents.drop k) ∨
      (rb.readVarUInt = .error .attemptToReadAfterEof ∧ rb.contents.length < 10) := by
  rcases readVarUIntLoop_cases 10 0 0 rb.contents with ⟨y, k, hk, h⟩ | ⟨h, hlen⟩
  · obtain ⟨rb', hread, hrest⟩ := readVarUInt_of_loop h
    exact .inl ⟨y, rb', k, hk, hread, hrest⟩
  · have hmap : rb.readVarUInt.map (fun r => (r.1, r.2.contents)) = readVarUIntLoop 10 0 0 rb.contents :=
      readVarUInt_contents rb
    rw [h, map_eq_error] at hmap
    exact .inr ⟨hmap, hlen⟩

lemma readVarInt_of_contents {rb : ReadBuffer} {v : Int64} {rest : List UInt8}
    (h : rb.contents = writeVarInt v ++ rest) : ∃ rb', rb.readVarInt = .ok (v, rb') ∧ rb'.contents = rest := by
  obtain ⟨rb', hread, hrest⟩ := readVarUInt_of_contents (encodeZigZag v).toNat_lt h
  refine ⟨rb', ?_, hrest⟩
  rw [readVarInt, hread]
  simp [Except.map, decodeZigZag_encodeZigZag]

end ReadBuffer

/-- The codes of `IO/VarInt.h` round-trip. A `UInt64` takes `getLengthOfVarUInt` bytes, and each
reader returns it after exactly those bytes: over a byte range, and over a `ReadBuffer` however its
bytes are split into refills, where the loops with and without the end-of-data checks agree once
ten bytes are in the working buffer. ZigZag decoding undoes the encoding, so signed codes
round-trip too. On any bytes, every reader stops within ten bytes, or throws at the end of the
data. -/
theorem varint_round_trip :
    (∀ x : UInt64, (writeVarUInt x.toNat).length = getLengthOfVarUInt x.toNat) ∧
    (∀ (x : UInt64) (rest : List UInt8), readVarUInt (writeVarUInt x.toNat ++ rest) = .ok (x.toNat, rest)) ∧
    (∀ (x : UInt64) (rest : List UInt8) (rb : ReadBuffer), rb.contents = writeVarUInt x.toNat ++ rest →
      ∃ rb', rb.readVarUInt = .ok (x.toNat, rb') ∧ rb'.contents = rest) ∧
    (∀ rb : ReadBuffer, 10 ≤ rb.pending.length → rb.readVarUIntImpl false = rb.readVarUIntImpl true) ∧
    (∀ v : Int64, decodeZigZag (encodeZigZag v) = v) ∧
    (∀ (v : Int64) (rest : List UInt8), readVarInt (writeVarInt v ++ rest) = .ok (v, rest)) ∧
    (∀ (v : Int64) (rest : List UInt8) (rb : ReadBuffer), rb.contents = writeVarInt v ++ rest →
      ∃ rb', rb.readVarInt = .ok (v, rb') ∧ rb'.contents = rest) ∧
    (∀ bytes : List UInt8, (∃ y k, k ≤ 10 ∧ readVarUInt bytes = .ok (y, bytes.drop k)) ∨
      (readVarUInt bytes = .error .attemptToReadAfterEof ∧ bytes.length < 10)) ∧
    (∀ rb : ReadBuffer, (∃ y rb' k, k ≤ 10 ∧ rb.readVarUInt = .ok (y, rb') ∧ rb'.contents = rb.contents.drop k) ∨
      (rb.readVarUInt = .error .attemptToReadAfterEof ∧ rb.contents.length < 10)) :=
  ⟨fun x => length_writeVarUInt x.toNat x.toNat_lt,
    fun x rest => readVarUInt_writeVarUInt x.toNat x.toNat_lt rest,
    fun x _ _ h => ReadBuffer.readVarUInt_of_contents x.toNat_lt h,
    ReadBuffer.readVarUIntImpl_unchecked,
    decodeZigZag_encodeZigZag,
    readVarInt_writeVarInt,
    fun _ _ _ h => ReadBuffer.readVarInt_of_contents h,
    fun bytes => readVarUIntLoop_cases 10 0 0 bytes,
    ReadBuffer.readVarUInt_cases⟩

end ClickHouse.IO
