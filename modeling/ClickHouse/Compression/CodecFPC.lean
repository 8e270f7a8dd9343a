import ClickHouse.Lib.Lockstep
import ClickHouse.Lib.BitWindow
import ClickHouse.Base.Unaligned
import ClickHouse.Compression.ICompressionCodec

/-! `Compression/CompressionCodecFPC.cpp`: the values, 4-byte or 8-byte words read from the input
in chunks of 64 (the last chunk padded with zero bytes to an even number of values), are each
xored with the better of two predictions, FCM and DFCM, from hash-indexed tables of `2 ^ level`
entries. Each pair of values is written as a header byte (for each value the predictor and a
3-bit count of leading zero bytes) and the low bytes of the two xors. The decoder runs the same
predictors on the values it rebuilds. A table is a function of its index, zero where unwritten. -/

namespace ClickHouse.Compression.FPC

open ClickHouse.Lib ClickHouse.Lib.Bytes ClickHouse.Lib.Lockstep ClickHouse.Base ClickHouse.Common

/-- `MAX_COMPRESSION_LEVEL` -/
def maxCompressionLevel : ℕ := 28

/-- `CHUNK_SIZE`, in values -/
def chunkSize : ℕ := 64

/-- `MAX_ZERO_BYTE_COUNT` -/
def maxZeroByteCount : ℕ := 7

def fcmBit : UInt8 := 0

def dfcmBit : UInt8 := (1 : UInt8) <<< 3

/-- `((hash << shiftHash) ^ (value >> shiftValue)) & (table.size() - 1)`, in `size_t`. -/
def recalculateHash {n : ℕ} (shiftHash shiftValue tableSize hash : ℕ) (value : BitVec n) : ℕ :=
  ((hash <<< shiftHash) ^^^ (value.toNat >>> shiftValue)) &&& (tableSize - 1)

structure DfcmPredictor (n : ℕ) where
  table : ℕ → BitVec n
  prevValue : BitVec n
  hash : ℕ

def DfcmPredictor.init (n : ℕ) : DfcmPredictor n := ⟨fun _ => 0, 0, 0⟩

def DfcmPredictor.predict {n : ℕ} (p : DfcmPredictor n) : BitVec n := p.table p.hash + p.prevValue

def DfcmPredictor.add {n : ℕ} (tableSize : ℕ) (p : DfcmPredictor n) (value : BitVec n) : DfcmPredictor n :=
  let table := Function.update p.table p.hash (value - p.prevValue)
  { table
    prevValue := value
    hash := recalculateHash (if 64 ≤ n then 2 else 4) (if 64 ≤ n then 40 else 23) tableSize p.hash
      (table p.hash) }

structure FcmPredictor (n : ℕ) where
  table : ℕ → BitVec n
  hash : ℕ

def FcmPredictor.init (n : ℕ) : FcmPredictor n := ⟨fun _ => 0, 0⟩

def FcmPredictor.predict {n : ℕ} (p : FcmPredictor n) : BitVec n := p.table p.hash

def FcmPredictor.add {n : ℕ} (tableSize : ℕ) (p : FcmPredictor n) (value : BitVec n) : FcmPredictor n :=
  let table := Function.update p.table p.hash value
  { table
    hash := recalculateHash (if 64 ≤ n then 6 else 1) (if 64 ≤ n then 48 else 22) tableSize p.hash
      (table p.hash) }

/-- The two predictors of an `FPCOperation`. -/
structure Predictors (n : ℕ) where
  dfcm : DfcmPredictor n
  fcm : FcmPredictor n

def Predictors.init (n : ℕ) : Predictors n := ⟨DfcmPredictor.init n, FcmPredictor.init n⟩

def Predictors.add {n : ℕ} (tableSize : ℕ) (st : Predictors n) (value : BitVec n) : Predictors n :=
  ⟨st.dfcm.add tableSize value, st.fcm.add tableSize value⟩

structure CompressedValue (n : ℕ) where
  value : BitVec n
  compressedSize : ℕ
  predictor : UInt8

/-- For 8-byte values the counts 4 to 8 are written as 3 to 7. -/
def encodeCompressedZeroByteCount (valueSize compressed : ℕ) : ℕ :=
  let compressed := if valueSize = maxZeroByteCount + 1 ∧ 4 ≤ compressed then compressed - 1 else compressed
  min compressed maxZeroByteCount

def decodeCompressedZeroByteCount (valueSize encodedSize : ℕ) : ℕ :=
  if valueSize = maxZeroByteCount + 1 ∧ 3 < encodedSize then encodedSize + 1 else encodedSize

def compressValue (w tableSize : ℕ) (st : Predictors (8 * w)) (value : BitVec (8 * w)) :
    CompressedValue (8 * w) × Predictors (8 * w) :=
  let compressedDfcm := st.dfcm.predict ^^^ value
  let compressedFcm := st.fcm.predict ^^^ value
  let zeroesDfcm := compressedDfcm.clz.toNat
  let zeroesFcm := compressedFcm.clz.toNat
  if zeroesDfcm > zeroesFcm then
    (⟨compressedDfcm, encodeCompressedZeroByteCount w (zeroesDfcm / 8), dfcmBit⟩, st.add tableSize value)
  else (⟨compressedFcm, encodeCompressedZeroByteCount w (zeroesFcm / 8), fcmBit⟩, st.add tableSize value)

def encodePair (w tableSize : ℕ) (st : Predictors (8 * w)) (values : BitVec (8 * w) × BitVec (8 * w)) :
    List UInt8 × Predictors (8 * w) :=
  let r1 := compressValue w tableSize st values.1
  let r2 := compressValue w tableSize r1.2 values.2
  let header := (r1.1.predictor <<< 4 ||| r2.1.predictor) |||
    UInt8.ofNat (r1.1.compressedSize <<< 4 ||| r2.1.compressedSize)
  let tailSize1 := w - decodeCompressedZeroByteCount w r1.1.compressedSize
  let tailSize2 := w - decodeCompressedZeroByteCount w r2.1.compressedSize
  (header :: ((encodeLE w r1.1.value.toNat).take tailSize1 ++ (encodeLE w r2.1.value.toNat).take tailSize2),
    r2.2)

def encodeChunk (w tableSize : ℕ) (st : Predictors (8 * w)) (sequence : List (BitVec (8 * w))) :
    List UInt8 × Predictors (8 * w) :=
  emitAll (encodePair w tableSize) st (pairsOf sequence)

def ceilBytesToEvenValues (w bytesCount : ℕ) : ℕ :=
  let valuesCount := (bytesCount + w - 1) / w
  if valuesCount % 2 = 0 then valuesCount else valuesCount + 1

/-- The values of the chunk buffer `encodeChunk` is given: the whole chunk, or the rest of the input
padded with zero bytes and cut to an even number of values. -/
def importChunk (w : ℕ) (values : List UInt8) : List (BitVec (8 * w)) :=
  if chunkSize * w ≤ values.length then loadWords w (values.take (chunkSize * w))
  else (loadWords w (values ++ List.replicate (chunkSize * w - values.length) 0)).take
    (ceilBytesToEvenValues w values.length)

/-- The chunks of the encoder's loop, one for each of its `n` rounds. -/
def importChunks (w : ℕ) : ℕ → List UInt8 → List (List (BitVec (8 * w)))
  | 0, _ => []
  | n + 1, data => importChunk w data :: importChunks w n (data.drop (chunkSize * w))

/-- The number of rounds of a loop over `size` bytes by whole chunks. -/
def chunkCount (w size : ℕ) : ℕ := (size + chunkSize * w - 1) / (chunkSize * w)

def encode (w compressionLevel : ℕ) (data : List UInt8) : List UInt8 :=
  (emitAll (encodeChunk w (2 ^ compressionLevel)) (Predictors.init (8 * w))
    (importChunks w (chunkCount w data.length) data)).1

def decompressValue (w tableSize : ℕ) (st : Predictors (8 * w)) (value : BitVec (8 * w))
    (isDfcmPredictor : Bool) : BitVec (8 * w) × Predictors (8 * w) :=
  let decompressed := if isDfcmPredictor then st.dfcm.predict ^^^ value else st.fcm.predict ^^^ value
  (decompressed, st.add tableSize decompressed)

def decodePair (w tableSize : ℕ) (st : Predictors (8 * w)) (bytes : List UInt8) :
    Except ErrorCode ((BitVec (8 * w) × BitVec (8 * w)) × ℕ × Predictors (8 * w)) :=
  match bytes with
  | [] => .error .cannotDecompress
  | header :: _ =>
    let zeroByteCount1 := decodeCompressedZeroByteCount w ((header >>> 4).toNat &&& maxZeroByteCount)
    let zeroByteCount2 := decodeCompressedZeroByteCount w (header.toNat &&& maxZeroByteCount)
    if w < zeroByteCount1 ∨ w < zeroByteCount2 then .error .cannotDecompress
    else
      let tailSize1 := w - zeroByteCount1
      let tailSize2 := w - zeroByteCount2
      let expectedSize := tailSize1 + tailSize2 + 1
      if bytes.length < expectedSize then .error .cannotDecompress
      else
        let value1 : BitVec (8 * w) := BitVec.ofNat _ (decodeLE ((bytes.drop 1).take tailSize1))
        let value2 : BitVec (8 * w) := BitVec.ofNat _ (decodeLE ((bytes.drop (1 + tailSize1)).take tailSize2))
        let r1 := decompressValue w tableSize st value1 (header &&& dfcmBit <<< 4 ≠ 0)
        let r2 := decompressValue w tableSize r1.2 value2 (header &&& dfcmBit ≠ 0)
        .ok ((r1.1, r2.1), expectedSize, r2.2)

def decodeChunk (w tableSize : ℕ) (st : Predictors (8 * w)) (count : ℕ) (values : List UInt8) :
    Except ErrorCode (List (BitVec (8 * w) × BitVec (8 * w)) × ℕ × Predictors (8 * w)) :=
  parseN (decodePair w tableSize) (count / 2) st values

/-- The decoder's loop from byte `i` of the output; `resultSize` is what is left of the output
buffer, to which `exportChunk` cuts the last chunk. -/
def decodeLoop (w tableSize decodedSize : ℕ) :
    ℕ → Predictors (8 * w) → ℕ → ℕ → List UInt8 → Except ErrorCode (List UInt8)
  | 0, _, _, _, _ => .ok []
  | n + 1, st, i, resultSize, values => do
    let count := if decodedSize < i + chunkSize * w then ceilBytesToEvenValues w (decodedSize - i) else chunkSize
    let chunk ← decodeChunk w tableSize st count values
    let exported := (storeWords w (unpair chunk.1)).take (min resultSize (count * w))
    let rest ← decodeLoop w tableSize decodedSize n chunk.2.2 (i + chunkSize * w)
      (resultSize - exported.length) (values.drop chunk.2.1)
    pure (exported ++ rest)

def decode (w compressionLevel : ℕ) (values : List UInt8) (decodedSize : ℕ) : Except ErrorCode (List UInt8) :=
  decodeLoop w (2 ^ compressionLevel) decodedSize (chunkCount w decodedSize) (Predictors.init (8 * w)) 0
    decodedSize values

def doCompressData (floatWidth compressionLevel : UInt8) (source : List UInt8) : Except ErrorCode (List UInt8) :=
  if floatWidth.toNat = 8 ∨ floatWidth.toNat = 4 then
    .ok (floatWidth :: compressionLevel :: encode floatWidth.toNat compressionLevel.toNat source)
  else .error .cannotCompress

def doDecompressData (source : List UInt8) (uncompressedSize : ℕ) : Except ErrorCode (List UInt8) :=
  match source with
  | compressedFloatWidth :: compressedLevel :: src =>
    if compressedLevel.toNat = 0 ∨ maxCompressionLevel < compressedLevel.toNat then .error .cannotDecompress
    else if compressedFloatWidth.toNat = 8 then decode 8 compressedLevel.toNat src uncompressedSize
    else if compressedFloatWidth.toNat = 4 then decode 4 compressedLevel.toNat src uncompressedSize
    else .error .cannotDecompress
  | _ => .error .cannotDecompress

def compressionCodecFPC (floatWidth compressionLevel : UInt8) : ICompressionCodec where
  methodByte := CompressionMethodByte.fpc.toUInt8
  doCompressData := doCompressData floatWidth compressionLevel
  doDecompressData := doDecompressData

@[simp] lemma compressionCodecFPC_doCompressData (floatWidth compressionLevel : UInt8) :
    (compressionCodecFPC floatWidth compressionLevel).doCompressData = doCompressData floatWidth compressionLevel :=
  rfl

@[simp] lemma compressionCodecFPC_doDecompressData (floatWidth compressionLevel : UInt8) :
    (compressionCodecFPC floatWidth compressionLevel).doDecompressData = doDecompressData := rfl

/-! ### One value -/

section Value

variable {w : ℕ} (tableSize : ℕ) (st : Predictors (8 * w)) (value : BitVec (8 * w))

lemma compressValue_snd : (compressValue w tableSize st value).2 = st.add tableSize value := by
  unfold compressValue
  dsimp only
  split_ifs <;> rfl

lemma compressValue_predictor :
    (compressValue w tableSize st value).1.predictor = dfcmBit ∨
      (compressValue w tableSize st value).1.predictor = fcmBit := by
  unfold compressValue
  dsimp only
  split_ifs
  · exact Or.inl rfl
  · exact Or.inr rfl

/-- The decoder, given the xor and the predictor the encoder chose, rebuilds the value and so
advances its predictors as the encoder did. -/
lemma decompressValue_compressValue :
    decompressValue w tableSize st (compressValue w tableSize st value).1.value
        ((compressValue w tableSize st value).1.predictor = dfcmBit) =
      (value, (compressValue w tableSize st value).2) := by
  have hcancel : ∀ p : BitVec (8 * w), p ^^^ (p ^^^ value) = value := fun p => by
    rw [← BitVec.xor_assoc, BitVec.xor_self, BitVec.zero_xor]
  rw [compressValue_snd]
  unfold compressValue
  dsimp only
  split_ifs
  · simp only [decompressValue, decide_true, if_true, hcancel]
  · simp only [decompressValue, show fcmBit ≠ dfcmBit by decide, decide_false, Bool.false_eq_true, if_false,
      hcancel]

end Value

/-! ### The count of leading zero bytes -/

lemma compressedZeroByteCount_bounds {w z : ℕ} (hw : w = 4 ∨ w = 8) (hz : z ≤ w) :
    encodeCompressedZeroByteCount w z ≤ maxZeroByteCount ∧
      decodeCompressedZeroByteCount w (encodeCompressedZeroByteCount w z) ≤ z := by
  rcases hw with rfl | rfl
  · -- four-byte values: the count is written as it is
    unfold encodeCompressedZeroByteCount decodeCompressedZeroByteCount maxZeroByteCount
    simp only [show (4 : ℕ) ≠ 7 + 1 by decide, false_and, if_false]
    omega
  · -- eight-byte values: 4 to 8 are written one lower and 3 is read as 3
    unfold encodeCompressedZeroByteCount decodeCompressedZeroByteCount maxZeroByteCount
    simp only [true_and]
    by_cases h4 : 4 ≤ z
    · rw [if_pos h4]
      split_ifs <;> omega
    · rw [if_neg h4]
      split_ifs <;> omega

/-- The bytes the encoder keeps of an xor: its count is at most 7, the decoder's reading of it
at most the width, and the xor lies below the bytes kept. -/
lemma compressValue_fits {w : ℕ} (hw : w = 4 ∨ w = 8) (tableSize : ℕ) (st : Predictors (8 * w))
    (value : BitVec (8 * w)) :
    (compressValue w tableSize st value).1.compressedSize ≤ maxZeroByteCount ∧
      decodeCompressedZeroByteCount w (compressValue w tableSize st value).1.compressedSize ≤ w ∧
      (compressValue w tableSize st value).1.value.toNat <
        256 ^ (w - decodeCompressedZeroByteCount w (compressValue w tableSize st value).1.compressedSize) := by
  have hfit : ∀ x : BitVec (8 * w),
      encodeCompressedZeroByteCount w (x.clz.toNat / 8) ≤ maxZeroByteCount ∧
        decodeCompressedZeroByteCount w (encodeCompressedZeroByteCount w (x.clz.toNat / 8)) ≤ w ∧
        x.toNat < 256 ^ (w - decodeCompressedZeroByteCount w (encodeCompressedZeroByteCount w (x.clz.toNat / 8))) := by
    intro x
    have hclz := BitWindow.toNat_clz_le x
    obtain ⟨h7, hdec⟩ := compressedZeroByteCount_bounds hw (show x.clz.toNat / 8 ≤ w by omega)
    refine ⟨h7, by omega, ?_⟩
    calc x.toNat < 2 ^ (8 * w - x.clz.toNat) := BitVec.toNat_lt_two_pow_sub_clz
      _ ≤ 2 ^ (8 * (w - decodeCompressedZeroByteCount w (encodeCompressedZeroByteCount w (x.clz.toNat / 8)))) :=
        Nat.pow_le_pow_right (by omega) (by omega)
      _ = _ := by rw [pow_mul]; norm_num
  unfold compressValue
  dsimp only
  split_ifs
  · exact hfit _
  · exact hfit _

/-! ### One pair -/

/-- The header byte keeps both predictors and both counts apart. -/
lemma decode_header {p1 p2 : UInt8} (hp1 : p1 = dfcmBit ∨ p1 = fcmBit) (hp2 : p2 = dfcmBit ∨ p2 = fcmBit)
    {z1 z2 : ℕ} (hz1 : z1 ≤ maxZeroByteCount) (hz2 : z2 ≤ maxZeroByteCount) :
    ((p1 <<< 4 ||| p2 ||| UInt8.ofNat (z1 <<< 4 ||| z2)) >>> 4).toNat &&& maxZeroByteCount = z1 ∧
      (p1 <<< 4 ||| p2 ||| UInt8.ofNat (z1 <<< 4 ||| z2)).toNat &&& maxZeroByteCount = z2 ∧
      decide ((p1 <<< 4 ||| p2 ||| UInt8.ofNat (z1 <<< 4 ||| z2)) &&& dfcmBit <<< 4 ≠ 0) = decide (p1 = dfcmBit) ∧
      decide ((p1 <<< 4 ||| p2 ||| UInt8.ofNat (z1 <<< 4 ||| z2)) &&& dfcmBit ≠ 0) = decide (p2 = dfcmBit) := by
  -- a finite check over the four predictor choices and the 64 pairs of counts
  have key : ∀ q1 q2 : Bool, ∀ a b : Fin 8,
      let p1 : UInt8 := if q1 then dfcmBit else fcmBit
      let p2 : UInt8 := if q2 then dfcmBit else fcmBit
      ((p1 <<< 4 ||| p2 ||| UInt8.ofNat (a.val <<< 4 ||| b.val)) >>> 4).toNat &&& maxZeroByteCount = a.val ∧
        (p1 <<< 4 ||| p2 ||| UInt8.ofNat (a.val <<< 4 ||| b.val)).toNat &&& maxZeroByteCount = b.val ∧
        decide ((p1 <<< 4 ||| p2 ||| UInt8.ofNat (a.val <<< 4 ||| b.val)) &&& dfcmBit <<< 4 ≠ 0) =
          decide (p1 = dfcmBit) ∧
        decide ((p1 <<< 4 ||| p2 ||| UInt8.ofNat (a.val <<< 4 ||| b.val)) &&& dfcmBit ≠ 0) =
          decide (p2 = dfcmBit) := by
    decide
  have hq : ∀ p : UInt8, p = dfcmBit ∨ p = fcmBit → ∃ q : Bool, p = if q then dfcmBit else fcmBit := by
    rintro p (rfl | rfl)
    · exact ⟨true, rfl⟩
    · exact ⟨false, rfl⟩
  obtain ⟨q1, rfl⟩ := hq p1 hp1
  obtain ⟨q2, rfl⟩ := hq p2 hp2
  exact key q1 q2 ⟨z1, by unfold maxZeroByteCount at hz1; omega⟩ ⟨z2, by unfold maxZeroByteCount at hz2; omega⟩

lemma ofNat_decodeLE_encodeLE {w k : ℕ} {x : BitVec (8 * w)} (hx : x.toNat < 256 ^ k) :
    (BitVec.ofNat (8 * w) (decodeLE (encodeLE k x.toNat)) : BitVec (8 * w)) = x := by
  rw [decodeLE_encodeLE, Nat.mod_eq_of_lt hx, BitVec.ofNat_toNat, BitVec.setWidth_eq]

/-- A pair written from some predictors reads back, from the same predictors, as the pair, with
the predictors the encoder ends with. -/
lemma decodePair_encodePair {w : ℕ} (hw : w = 4 ∨ w = 8) (tableSize : ℕ) :
    ReadsBack (encodePair w tableSize) (decodePair w tableSize) := by
  intro st values rest
  obtain ⟨a, b⟩ := values
  obtain ⟨h71, hw1, hlt1⟩ := compressValue_fits hw tableSize st a
  obtain ⟨h72, hw2, hlt2⟩ := compressValue_fits hw tableSize (compressValue w tableSize st a).2 b
  obtain ⟨hz1, hz2, hd1, hd2⟩ := decode_header (compressValue_predictor tableSize st a)
    (compressValue_predictor tableSize (compressValue w tableSize st a).2 b) h71 h72
  have hv1 := decompressValue_compressValue tableSize st a
  have hv2 := decompressValue_compressValue tableSize (compressValue w tableSize st a).2 b
  rw [encodePair]
  dsimp only
  generalize compressValue w tableSize st a = r1 at *
  generalize compressValue w tableSize r1.2 b = r2 at *
  rw [take_encodeLE (by omega), take_encodeLE (by omega), List.cons_append, decodePair]
  dsimp only
  rw [hz1, hz2, if_neg (by omega), if_neg (by simp only [List.length_cons, List.length_append, length_encodeLE]; omega),
    List.drop_one, List.tail_cons, List.append_assoc, List.take_left' (length_encodeLE _ _), Nat.add_comm 1,
    List.drop_succ_cons, List.drop_left' (length_encodeLE _ _), List.take_left' (length_encodeLE _ _),
    ofNat_decodeLE_encodeLE hlt1, ofNat_decodeLE_encodeLE hlt2, hd1, hd2, hv1]
  dsimp only
  rw [hv2]
  simp only [List.length_cons, List.length_append, length_encodeLE]

/-! ### Chunks -/

lemma decodeChunk_encodeChunk {w : ℕ} (hw : w = 4 ∨ w = 8) (tableSize : ℕ) (st : Predictors (8 * w))
    (sequence : List (BitVec (8 * w))) (rest : List UInt8) :
    decodeChunk w tableSize st sequence.length ((encodeChunk w tableSize st sequence).1 ++ rest) =
      .ok (pairsOf sequence, (encodeChunk w tableSize st sequence).1.length,
        (encodeChunk w tableSize st sequence).2) := by
  rw [decodeChunk, encodeChunk, ← length_pairsOf]
  exact parseN_emitAll _ _ (decodePair_encodePair hw tableSize) st (pairsOf sequence) rest

section Import

variable {w : ℕ} (hw : w = 4 ∨ w = 8)
include hw

lemma ceilBytesToEvenValues_spec (bytesCount : ℕ) :
    ceilBytesToEvenValues w bytesCount % 2 = 0 ∧ bytesCount ≤ ceilBytesToEvenValues w bytesCount * w ∧
      (bytesCount < chunkSize * w → ceilBytesToEvenValues w bytesCount ≤ chunkSize) := by
  rcases hw with rfl | rfl <;> unfold ceilBytesToEvenValues chunkSize <;> dsimp only <;> split_ifs <;> omega

/-- The encoder reads a whole chunk, or what is left rounded up to an even number of values: the
count the decoder computes from the size left. -/
lemma length_importChunk (data : List UInt8) :
    (importChunk w data).length =
      if data.length < chunkSize * w then ceilBytesToEvenValues w data.length else chunkSize := by
  have hw0 : 0 < w := by omega
  obtain ⟨-, -, hle⟩ := ceilBytesToEvenValues_spec hw data.length
  unfold importChunk
  split_ifs with hfull hpart hpart
  · omega
  · rw [length_loadWords, List.length_take, Nat.min_eq_left hfull, Nat.mul_div_cancel _ hw0]
  · rw [List.length_take, length_loadWords, List.length_append, List.length_replicate,
      Nat.add_sub_cancel' (by omega), Nat.mul_div_cancel _ hw0, Nat.min_eq_left (hle hpart)]
  · omega

lemma even_length_importChunk (data : List UInt8) : (importChunk w data).length % 2 = 0 := by
  rw [length_importChunk hw]
  split_ifs
  · exact (ceilBytesToEvenValues_spec hw data.length).1
  · rfl

/-- What the decoder exports of a chunk is the input the encoder read into it. -/
lemma take_storeWords_importChunk (data : List UInt8) :
    (storeWords w (importChunk w data)).take (min data.length ((importChunk w data).length * w)) =
      data.take (chunkSize * w) := by
  have hw0 : 0 < w := by omega
  have hlen := length_importChunk hw data
  obtain ⟨-, hcover, hle⟩ := ceilBytesToEvenValues_spec hw data.length
  by_cases hfull : chunkSize * w ≤ data.length
  · rw [if_neg (by omega)] at hlen
    rw [hlen]
    unfold importChunk
    rw [if_pos hfull, storeWords_loadWords _ (by rw [List.length_take,
      Nat.min_eq_left hfull, Nat.mul_mod_left]), List.take_take, Nat.min_eq_left (by omega),
      Nat.min_eq_right hfull]
  · rw [if_pos (by omega)] at hlen
    rw [hlen]
    unfold importChunk
    rw [if_neg hfull, storeWords_take, storeWords_loadWords _ (by
      rw [List.length_append, List.length_replicate, Nat.add_sub_cancel' (by omega), Nat.mul_mod_left]),
      List.take_take, Nat.min_eq_left (by rw [Nat.mul_comm w]; omega), Nat.min_eq_left hcover,
      List.take_left' rfl, List.take_of_length_le (by omega)]

lemma chunkCount_spec (size : ℕ) :
    (chunkCount w size = 0 ↔ size = 0) ∧
      (chunkSize * w ≤ size → chunkCount w size = chunkCount w (size - chunkSize * w) + 1) ∧
      (0 < size → size < chunkSize * w → chunkCount w size = 1) := by
  rcases hw with rfl | rfl <;> unfold chunkCount chunkSize <;> omega

end Import

/-! ### The whole input -/

/-- Chunk by chunk, the decoder reads back what the encoder wrote from the rest of the input;
`i` bytes are already out and `data` is what is left. -/
lemma decodeLoop_encodeChunks {w : ℕ} (hw : w = 4 ∨ w = 8) (tableSize decodedSize n : ℕ) :
    ∀ (st : Predictors (8 * w)) (i : ℕ) (data rest : List UInt8), i + data.length = decodedSize →
      n = chunkCount w data.length →
      decodeLoop w tableSize decodedSize n st i data.length
        ((emitAll (encodeChunk w tableSize) st (importChunks w n data)).1 ++ rest) = .ok data := by
  induction n with
  | zero =>
    intro st i data rest _ hn
    rw [List.eq_nil_of_length_eq_zero ((chunkCount_spec hw data.length).1.mp hn.symm)]
    rfl
  | succ n ih =>
    intro st i data rest hsize hn
    obtain ⟨hzero, hnext, hlast⟩ := chunkCount_spec hw data.length
    have hcount : (if decodedSize < i + chunkSize * w then ceilBytesToEvenValues w (decodedSize - i)
        else chunkSize) = (importChunk w data).length := by
      rw [length_importChunk hw, show decodedSize - i = data.length by omega]
      split_ifs <;> first | rfl | omega
    rw [importChunks, emitAll_cons, List.append_assoc, decodeLoop]
    dsimp only
    rw [hcount, decodeChunk_encodeChunk hw, ok_bind]
    dsimp only
    rw [unpair_pairsOf (even_length_importChunk hw data), take_storeWords_importChunk hw, List.drop_left' rfl]
    by_cases hfull : chunkSize * w ≤ data.length
    · -- a whole chunk: the rest of the input is left to the remaining rounds
      have hleft : data.length - (data.take (chunkSize * w)).length = (data.drop (chunkSize * w)).length := by
        rw [List.length_take, List.length_drop]
        omega
      rw [hleft, ih _ _ _ _ (by rw [List.length_drop]; omega) (by rw [List.length_drop]; omega), ok_bind]
      exact congrArg Except.ok (List.take_append_drop _ data)
    · -- the last chunk: no round is left
      have hn0 : n = 0 := by
        have := hlast (by omega) (by omega)
        omega
      subst hn0
      rw [decodeLoop, ok_bind, List.append_nil, List.take_of_length_le (by omega)]
      rfl

theorem fpcOperation_decode_encode {w : ℕ} (hw : w = 4 ∨ w = 8) (compressionLevel : ℕ) (data : List UInt8) :
    decode w compressionLevel (encode w compressionLevel data) data.length = .ok data := by
  unfold decode encode
  rw [← List.append_nil (emitAll _ _ _).1]
  exact decodeLoop_encodeChunks hw _ _ _ _ 0 data [] (Nat.zero_add _) rfl

/-- Eight-byte values, with a last value of one byte padded by the encoder and cut by the decoder. -/
theorem fpcOperation_decode_encode_unaligned :
    (8 = 4 ∨ 8 = 8) ∧
      decode 8 12 (encode 8 12 [1, 0, 0, 0, 0, 0, 0, 64, 7]) [1, 0, 0, 0, 0, 0, 0, 64, 7].length =
        .ok [1, 0, 0, 0, 0, 0, 0, 64, 7] :=
  ⟨by decide, fpcOperation_decode_encode (by decide) 12 _⟩

/-! ### The codec -/

lemma payloadRoundTrips {floatWidth compressionLevel : UInt8} (hw : floatWidth.toNat = 4 ∨ floatWidth.toNat = 8)
    (hlevel : 1 ≤ compressionLevel.toNat ∧ compressionLevel.toNat ≤ maxCompressionLevel) (source : List UInt8) :
    (compressionCodecFPC floatWidth compressionLevel).PayloadRoundTrips source := by
  have hdecode : decode floatWidth.toNat compressionLevel.toNat
      (encode floatWidth.toNat compressionLevel.toNat source) source.length = .ok source := by
    unfold decode encode
    rw [← List.append_nil (emitAll _ _ _).1]
    exact decodeLoop_encodeChunks (by omega) _ _ _ _ 0 source [] (Nat.zero_add _) rfl
  refine ⟨_, by rw [compressionCodecFPC_doCompressData, doCompressData, if_pos (by omega)], ?_⟩
  rw [compressionCodecFPC_doDecompressData, doDecompressData, if_neg (by omega)]
  rcases hw with h4 | h8
  · rw [if_neg (by omega), if_pos h4, ← h4]
    exact hdecode
  · rw [if_pos h8, ← h8]
    exact hdecode

theorem compressionCodecFPC_roundTrips (floatWidth compressionLevel : UInt8)
    (hw : floatWidth.toNat = 4 ∨ floatWidth.toNat = 8)
    (hlevel : 1 ≤ compressionLevel.toNat ∧ compressionLevel.toNat ≤ maxCompressionLevel)
    (source : List UInt8) (hne : source ≠ []) (hlt : source.length < 2 ^ 32) :
    (compressionCodecFPC floatWidth compressionLevel).RoundTrips source :=
  ICompressionCodec.roundTrips_of_payload hne hlt (payloadRoundTrips hw hlevel source)

theorem compressionCodecFPC_roundTrips_float32 :
    ((4 : UInt8).toNat = 4 ∨ (4 : UInt8).toNat = 8) ∧
      (1 ≤ (12 : UInt8).toNat ∧ (12 : UInt8).toNat ≤ maxCompressionLevel) ∧
      [0, 0, 128, 63, 0, 0, 0, 64, 9] ≠ ([] : List UInt8) ∧ [0, 0, 128, 63, 0, 0, 0, 64, 9].length < 2 ^ 32 ∧
      (compressionCodecFPC 4 12).RoundTrips [0, 0, 128, 63, 0, 0, 0, 64, 9] :=
  ⟨by decide, by decide, by simp, by simp,
    compressionCodecFPC_roundTrips 4 12 (by decide) (by decide) _ (by simp) (by simp)⟩

end ClickHouse.Compression.FPC
