import ClickHouse.Lib.Differences
import ClickHouse.Base.Unaligned
import ClickHouse.IO.BitStream
import ClickHouse.Compression.ICompressionCodec
import ClickHouse.Compression.UnalignedBytes

/-! `Compression/CompressionCodecDoubleDelta.cpp`: the item count, the first value and the first
delta raw, then every later double delta bit-packed with a prefix code. A value is a bit vector
of width `8 * w`; the signed reading of a double delta is `BitVec.toInt`. -/

namespace ClickHouse.Compression.DoubleDelta

open ClickHouse.Lib ClickHouse.Lib.Bytes ClickHouse.Lib.Bits ClickHouse.Lib.Differences
  ClickHouse.Base ClickHouse.Common ClickHouse.IO.BitHelpers

def getMaxValueForByteSize : ℕ → Except ErrorCode ℤ
  | 1 => .ok (2 ^ 7 - 1)
  | 2 => .ok (2 ^ 15 - 1)
  | 4 => .ok (2 ^ 31 - 1)
  | 8 => .ok (2 ^ 63 - 1)
  | _ => .error .logicalError

structure WriteSpec where
  prefixBits : ℕ
  prefixValue : ℕ
  dataBits : ℕ
  deriving DecidableEq, Repr

def WriteSpec.size (spec : WriteSpec) : ℕ := spec.prefixBits + spec.dataBits

lemma WriteSpec.size_eq (spec : WriteSpec) : spec.size = spec.prefixBits + spec.dataBits := rfl

/-- `WRITE_SPEC_LUT`, indexed by the five high bits of the peeked byte. -/
def writeSpecLut : List WriteSpec :=
  List.replicate 16 ⟨1, 0b0, 0⟩ ++ List.replicate 8 ⟨2, 0b10, 7⟩ ++
    List.replicate 4 ⟨3, 0b110, 9⟩ ++ List.replicate 2 ⟨4, 0b1110, 12⟩ ++
    [⟨5, 0b11110, 32⟩, ⟨5, 0b11111, 64⟩]

def getDeltaWriteSpec (value : ℤ) : WriteSpec :=
  if -63 < value ∧ value < 64 then ⟨2, 0b10, 7⟩
  else if -255 < value ∧ value < 256 then ⟨3, 0b110, 9⟩
  else if -2047 < value ∧ value < 2048 then ⟨4, 0b1110, 12⟩
  else if -2 ^ 31 < value ∧ value < 2 ^ 31 - 1 then ⟨5, 0b11110, 32⟩
  else ⟨5, 0b11111, 64⟩

def getDeltaMaxWriteSpecByteSize (dataBytesSize : ℕ) : Except ErrorCode WriteSpec := do
  pure (getDeltaWriteSpec (← getMaxValueForByteSize dataBytesSize))

/-- The `UInt32` arithmetic of the source: the product and the rounding may wrap. -/
def getCompressedDataSize (dataBytesSize uncompressedSize : ℕ) : Except ErrorCode ℕ := do
  let itemsCount := uncompressedSize / dataBytesSize
  let doubleDeltaWriteSpec ← getDeltaMaxWriteSpecByteSize dataBytesSize
  let maxItemSizeBits := doubleDeltaWriteSpec.prefixBits + doubleDeltaWriteSpec.dataBits
  pure ((itemsCount * maxItemSizeBits % 2 ^ 32 + 7) % 2 ^ 32 / 8)

def writeDoubleDelta (w : ℕ) (doubleDelta : BitVec (8 * w)) (writer : BitWriter) :
    Except ErrorCode BitWriter :=
  if doubleDelta = 0 then writer.writeBits 1 0
  else do
    let signedDd := doubleDelta.toInt
    let sign := decide (signedDd < 0)
    let absValue : ℕ :=
      if signedDd = -2 ^ (8 * w - 1) then ((-1 : BitVec (8 * w)) >>> 1).toNat
      else signedDd.natAbs - 1
    let writeSpec := getDeltaWriteSpec signedDd
    let writer ← writer.writeBits writeSpec.prefixBits (UInt64.ofNat writeSpec.prefixValue)
    let writer ← writer.writeBits 1 (if sign then 1 else 0)
    writer.writeBits (writeSpec.dataBits - 1) (UInt64.ofNat absValue)

def compressLoop (w : ℕ) : BitVec (8 * w) → BitVec (8 * w) → List (BitVec (8 * w)) → BitWriter →
    Except ErrorCode BitWriter
  | _, _, [], writer => pure writer
  | prevValue, prevDelta, currValue :: rest, writer => do
    let delta := currValue - prevValue
    let doubleDelta := delta - prevDelta
    let writer ← writeDoubleDelta w doubleDelta writer
    compressLoop w currValue delta rest writer

/-- The raw first value and first delta, and the writer after the bit-packed rest. -/
def compressItems (w size : ℕ) : List (BitVec (8 * w)) → Except ErrorCode (List UInt8 × BitWriter)
  | [] => pure ([], BitWriter.init size)
  | [firstValue] => pure (unalignedStoreLittleEndian w firstValue, BitWriter.init size)
  | firstValue :: secondValue :: rest => do
    let writer ← compressLoop w secondValue (secondValue - firstValue) rest (BitWriter.init size)
    pure (unalignedStoreLittleEndian w firstValue ++
      unalignedStoreLittleEndian w (secondValue - firstValue), writer)

/-- The writer's capacity is computed from `source_size - 2 * w`, a `size_t` difference passed
as `UInt32`. -/
def compressDataForType (w : ℕ) (source : List UInt8) : Except ErrorCode (List UInt8) :=
  if source.length % w ≠ 0 then .error .cannotCompress
  else do
    let itemsCount := source.length / w
    let size ← getCompressedDataSize w ((source.length + 2 ^ 32 - 2 * w) % 2 ^ 32)
    let items ← compressItems w size (loadWords w source)
    let writer ← items.2.flush
    pure (encodeLE 4 itemsCount ++ items.1 ++ writer.dest)

def readDoubleDelta (w : ℕ) (reader : BitReader) : BitVec (8 * w) × BitReader :=
  let peeked := reader.peekByte
  let writeSpec := writeSpecLut.getD (peeked.1 >>> 3) ⟨1, 0b0, 0⟩
  let reader := peeked.2.skipBufferedBits writeSpec.prefixBits
  if writeSpec.dataBits ≠ 0 then
    let sign := reader.readBit
    let value := sign.2.readBits (writeSpec.dataBits - 1)
    let doubleDelta := BitVec.ofNat (8 * w) (value.1 + 1)
    (if sign.1 ≠ 0 then -doubleDelta else doubleDelta, value.2)
  else (0, reader)

/-- The loop over `items_read` from 2 to `items_count`, its remaining rounds as fuel; `room` is
`output_end - dest`. -/
def decompressLoop (w : ℕ) : ℕ → ℕ → BitVec (8 * w) → BitVec (8 * w) → BitReader →
    Except ErrorCode (List UInt8)
  | 0, _, _, _, _ => .ok []
  | rounds + 1, room, prevValue, prevDelta, reader =>
    if reader.eof then .ok []
    else
      let next := readDoubleDelta w reader
      let delta := next.1 + prevDelta
      let currValue := prevValue + delta
      if room < w then .error .cannotDecompress
      else do
        let tail ← decompressLoop w rounds (room - w) currValue (currValue - prevValue) next.2
        pure (unalignedStoreLittleEndian w currValue ++ tail)

def decompressDataForType (w : ℕ) (source : List UInt8) (outputSize : ℕ) :
    Except ErrorCode (List UInt8) :=
  if source.length < 4 then .ok []
  else
    let itemsCount := decodeLE (source.take 4)
    let source := source.drop 4
    if source.length < w ∨ itemsCount < 1 then .ok []
    else
      let prevValue := unalignedLoadLittleEndian w source
      if outputSize < w then .error .cannotDecompress
      else
        let source := source.drop w
        if source.length < w ∨ itemsCount < 2 then .ok (unalignedStoreLittleEndian w prevValue)
        else
          let prevDelta := unalignedLoadLittleEndian w source
          let secondValue := prevValue + prevDelta
          if outputSize - w < w then .error .cannotDecompress
          else do
            let rest ← decompressLoop w (itemsCount - 2) (outputSize - w - w) secondValue prevDelta
              (BitReader.init (source.drop w))
            pure (unalignedStoreLittleEndian w prevValue ++ unalignedStoreLittleEndian w secondValue ++
              rest)

def doCompressData (dataBytesSize : UInt8) (source : List UInt8) : Except ErrorCode (List UInt8) :=
  compressUnaligned dataBytesSize compressDataForType source

def doDecompressData (source : List UInt8) (uncompressedSize : ℕ) : Except ErrorCode (List UInt8) :=
  if source.length < 2 then .error .cannotDecompress
  else
    let bytesSize := (source.headD 0).toNat
    if ¬ IsDataBytesSize bytesSize then .error .cannotDecompress
    else
      let bytesToSkip := uncompressedSize % bytesSize
      let outputSize := uncompressedSize - bytesToSkip
      if source.length < 2 + bytesToSkip then .error .cannotDecompress
      else do
        let rest ← decompressDataForType bytesSize (source.drop (2 + bytesToSkip)) outputSize
        pure ((source.drop 2).take bytesToSkip ++ rest)

def compressionCodecDoubleDelta (dataBytesSize : UInt8) : ICompressionCodec where
  methodByte := CompressionMethodByte.doubleDelta.toUInt8
  doCompressData := doCompressData dataBytesSize
  doDecompressData := doDecompressData

@[simp] lemma compressionCodecDoubleDelta_doCompressData (dataBytesSize : UInt8) :
    (compressionCodecDoubleDelta dataBytesSize).doCompressData = doCompressData dataBytesSize := rfl

@[simp] lemma compressionCodecDoubleDelta_doDecompressData (dataBytesSize : UInt8) :
    (compressionCodecDoubleDelta dataBytesSize).doDecompressData = doDecompressData := rfl

/-! ### The prefix code -/

lemma getDeltaWriteSpec_bounds (v : ℤ) :
    (getDeltaWriteSpec v).prefixBits ≤ 5 ∧
      (getDeltaWriteSpec v).prefixValue < 2 ^ (getDeltaWriteSpec v).prefixBits ∧
      7 ≤ (getDeltaWriteSpec v).dataBits ∧ (getDeltaWriteSpec v).dataBits ≤ 64 := by
  unfold getDeltaWriteSpec
  split_ifs <;> decide

/-- The decoder's table maps every index that starts with a bucket's prefix to that bucket. -/
lemma writeSpecLut_getDeltaWriteSpec (v : ℤ) (i : ℕ) (hi : i < 32)
    (hp : i / 2 ^ (5 - (getDeltaWriteSpec v).prefixBits) = (getDeltaWriteSpec v).prefixValue) :
    writeSpecLut.getD i ⟨1, 0b0, 0⟩ = getDeltaWriteSpec v := by
  revert i
  unfold getDeltaWriteSpec
  split_ifs <;> decide

lemma writeSpecLut_zero (i : ℕ) (hi : i < 16) : writeSpecLut.getD i ⟨1, 0b0, 0⟩ = ⟨1, 0b0, 0⟩ := by
  revert i
  decide

lemma natAbs_sub_one_lt (v : ℤ) (hlo : -2 ^ 63 ≤ v) (hhi : v < 2 ^ 63) :
    v.natAbs - 1 < 2 ^ ((getDeltaWriteSpec v).dataBits - 1) := by
  unfold getDeltaWriteSpec
  split_ifs <;> simp only <;> omega

lemma toInt_bounds {w : ℕ} (hw8 : w ≤ 8) (x : BitVec (8 * w)) :
    -2 ^ 63 ≤ x.toInt ∧ x.toInt < 2 ^ 63 := by
  have hpow : (2 : ℤ) ^ (8 * w - 1) ≤ 2 ^ 63 := by
    exact_mod_cast Nat.pow_le_pow_right (by omega) (by omega : 8 * w - 1 ≤ 63)
  exact ⟨le_trans (neg_le_neg hpow) (BitVec.le_toInt x), lt_of_lt_of_le BitVec.toInt_lt hpow⟩

/-- The special case for the most negative value computes the same magnitude. -/
lemma absValue_eq {w : ℕ} (hw : 0 < w) (v : ℤ) :
    (if v = -2 ^ (8 * w - 1) then ((-1 : BitVec (8 * w)) >>> 1).toNat else v.natAbs - 1) =
      v.natAbs - 1 := by
  split_ifs with h
  · have hk : 8 * w = 8 * w - 1 + 1 := by omega
    have habs : v.natAbs = 2 ^ (8 * w - 1) := by
      rw [h, Int.natAbs_neg, Int.natAbs_pow]
      rfl
    have h1 : (1 : BitVec (8 * w)).toNat = 1 := BitVec.toNat_one (by omega)
    have hpos := Nat.one_le_two_pow (n := 8 * w - 1)
    rw [BitVec.toNat_ushiftRight, Nat.shiftRight_eq_div_pow, BitVec.toNat_neg, h1, habs, hk,
      pow_succ, Nat.add_sub_cancel, Nat.mod_eq_of_lt (by omega)]
    omega
  · rfl

def ddBits (w : ℕ) (doubleDelta : BitVec (8 * w)) : List Bool :=
  if doubleDelta = 0 then [false]
  else
    bitsOf (getDeltaWriteSpec doubleDelta.toInt).prefixBits
        (getDeltaWriteSpec doubleDelta.toInt).prefixValue ++
      decide (doubleDelta.toInt < 0) ::
        bitsOf ((getDeltaWriteSpec doubleDelta.toInt).dataBits - 1) (doubleDelta.toInt.natAbs - 1)

lemma ddBits_of_eq_zero {w : ℕ} {doubleDelta : BitVec (8 * w)} (h0 : doubleDelta = 0) :
    ddBits w doubleDelta = [false] := by
  unfold ddBits
  rw [if_pos h0]

lemma ddBits_of_ne_zero {w : ℕ} {doubleDelta : BitVec (8 * w)} (h0 : doubleDelta ≠ 0) :
    ddBits w doubleDelta =
      bitsOf (getDeltaWriteSpec doubleDelta.toInt).prefixBits (getDeltaWriteSpec doubleDelta.toInt).prefixValue ++
        decide (doubleDelta.toInt < 0) ::
          bitsOf ((getDeltaWriteSpec doubleDelta.toInt).dataBits - 1) (doubleDelta.toInt.natAbs - 1) := by
  unfold ddBits
  rw [if_neg h0]

lemma length_ddBits_of_ne {w : ℕ} {doubleDelta : BitVec (8 * w)} (h0 : doubleDelta ≠ 0) :
    (ddBits w doubleDelta).length = (getDeltaWriteSpec doubleDelta.toInt).size := by
  obtain ⟨-, -, hd, -⟩ := getDeltaWriteSpec_bounds doubleDelta.toInt
  rw [ddBits_of_ne_zero h0, List.length_append, List.length_cons, length_bitsOf, length_bitsOf,
    WriteSpec.size_eq]
  omega

lemma ddBits_ne_nil (w : ℕ) (doubleDelta : BitVec (8 * w)) : ddBits w doubleDelta ≠ [] := by
  unfold ddBits
  split_ifs <;> simp

lemma bitsOf_sign (b : Bool) : bitsOf 1 (if b then (1 : UInt64) else 0).toNat = [b] := by
  cases b <;> rfl

lemma writeDoubleDelta_spec {w : ℕ} (hw : 0 < w) {writer : BitWriter}
    (hv : writer.Valid) (doubleDelta : BitVec (8 * w))
    (hsize : writer.count + (ddBits w doubleDelta).length ≤ 8 * writer.destSize) :
    ∃ writer', writeDoubleDelta w doubleDelta writer = .ok writer' ∧ writer'.Valid ∧
      writer'.bits = writer.bits ++ ddBits w doubleDelta ∧ writer'.destSize = writer.destSize := by
  by_cases h0 : doubleDelta = 0
  · rw [ddBits_of_eq_zero h0] at hsize ⊢
    obtain ⟨wr1, h1, hv1, hb1, hd1⟩ := BitWriter.writeBits_spec hv (show 1 ≤ 64 by omega) 0
      (by rw [List.length_singleton] at hsize; omega)
    refine ⟨wr1, ?_, hv1, by rw [hb1]; rfl, hd1⟩
    rw [writeDoubleDelta, if_pos h0, h1]
  · have hlen := length_ddBits_of_ne h0
    obtain ⟨hp5, -, hd7, hd64⟩ := getDeltaWriteSpec_bounds doubleDelta.toInt
    rw [hlen, WriteSpec.size_eq] at hsize
    simp only [writeDoubleDelta, if_neg h0]
    rw [absValue_eq hw, ddBits_of_ne_zero h0]
    clear hlen
    generalize getDeltaWriteSpec doubleDelta.toInt = spec at *
    generalize doubleDelta.toInt = v at *
    -- the prefix, the sign and the magnitude, as three writes in a row
    obtain ⟨wr3, h3, hv3, hb3, hd3⟩ := BitWriter.writeBitsList_spec
      [(spec.prefixBits, UInt64.ofNat spec.prefixValue), (1, if decide (v < 0) then 1 else 0),
        (spec.dataBits - 1, UInt64.ofNat (v.natAbs - 1))] (by simp; omega) hv (by simp; omega)
    refine ⟨wr3, ?_, hv3, ?_, hd3⟩
    · rw [← h3]
      simp only [BitWriter.writeBitsList, bind_pure]
    · rw [hb3, List.flatMap_cons, List.flatMap_cons, List.flatMap_cons, List.flatMap_nil, List.append_nil,
        bitsOf_toNat_ofNat (by omega), bitsOf_toNat_ofNat (by omega), bitsOf_sign]
      rfl

lemma signMagnitude_eq {n : ℕ} {x : BitVec n} (h0 : x ≠ 0) :
    (if (decide (x.toInt < 0)).toNat ≠ 0 then -BitVec.ofNat n (x.toInt.natAbs - 1 + 1)
      else BitVec.ofNat n (x.toInt.natAbs - 1 + 1)) = x := by
  have hne : x.toInt ≠ 0 := by
    intro h
    apply h0
    rw [← BitVec.toInt_inj, h]
    exact BitVec.toInt_zero.symm
  rw [Nat.sub_add_cancel (Int.natAbs_pos.mpr hne)]
  by_cases hneg : x.toInt < 0
  · have hv : x.toInt = -(x.toInt.natAbs : ℤ) := by
      rw [Int.ofNat_natAbs_of_nonpos hneg.le, Int.neg_neg]
    rw [if_pos (by simp [hneg])]
    calc -BitVec.ofNat n x.toInt.natAbs = BitVec.ofInt n (-(x.toInt.natAbs : ℤ)) := by
          rw [BitVec.ofInt_neg, BitVec.ofInt_natCast]
      _ = BitVec.ofInt n x.toInt := by rw [← hv]
      _ = x := BitVec.ofInt_toInt
  · rw [if_neg (by simp [hneg])]
    calc BitVec.ofNat n x.toInt.natAbs = BitVec.ofInt n (x.toInt.natAbs : ℤ) :=
          (BitVec.ofInt_natCast n _).symm
      _ = BitVec.ofInt n x.toInt := by rw [Int.natAbs_of_nonneg (not_lt.mp hneg)]
      _ = x := BitVec.ofInt_toInt

lemma ofBits_take_lt (l : List Bool) (n : ℕ) (hn : n ≤ l.length) : ofBits (l.take n) < 2 ^ n := by
  have h := ofBits_lt (l.take n)
  rwa [List.length_take, Nat.min_eq_left hn] at h

lemma readDoubleDelta_spec {w : ℕ} (hw8 : w ≤ 8) {reader : BitReader} (hr : reader.Valid)
    (doubleDelta : BitVec (8 * w)) (rest : List Bool)
    (hbits : reader.bits = ddBits w doubleDelta ++ rest) :
    (readDoubleDelta w reader).1 = doubleDelta ∧ (readDoubleDelta w reader).2.Valid ∧
      (readDoubleDelta w reader).2.bits = rest := by
  set padded := reader.bits ++ List.replicate 8 false with hpadded
  have hlen8 : 8 ≤ padded.length := by simp [hpadded]
  obtain ⟨hpeek, -, -⟩ := BitReader.peekByte_spec hr
  have hindex : reader.peekByte.1 >>> 3 = ofBits (padded.take 5) := by
    rw [hpeek, Nat.shiftRight_eq_div_pow, ← hpadded]
    exact ofBits_take_div padded (show 5 ≤ 8 by omega) hlen8
  by_cases h0 : doubleDelta = 0
  · -- the single bit 0, which the table reads as the bucket without data bits
    rw [ddBits_of_eq_zero h0] at hbits
    have hfirst : padded.take 5 = false :: (rest ++ List.replicate 8 false).take 4 := by
      rw [hpadded, hbits, List.singleton_append, List.cons_append, List.take_succ_cons]
    have hspec : writeSpecLut.getD (reader.peekByte.1 >>> 3) ⟨1, 0b0, 0⟩ = ⟨1, 0b0, 0⟩ := by
      apply writeSpecLut_zero
      have hlt := ofBits_take_lt (rest ++ List.replicate 8 false) 4 (by simp)
      rw [hindex, hfirst, ofBits_cons]
      simpa using hlt
    obtain ⟨hv1, hb1⟩ := BitReader.peekByte_skipBufferedBits_spec hr (show 1 ≤ 8 by omega)
      (by rw [hbits]; simp)
    simp only [readDoubleDelta, hspec, ne_eq, not_true_eq_false, if_false]
    refine ⟨h0.symm, hv1, ?_⟩
    rw [hb1, hbits]
    rfl
  · obtain ⟨hp5, hplt, hd7, hd64⟩ := getDeltaWriteSpec_bounds doubleDelta.toInt
    obtain ⟨hlo, hhi⟩ := toInt_bounds hw8 doubleDelta
    have habs := natAbs_sub_one_lt doubleDelta.toInt hlo hhi
    rw [ddBits_of_ne_zero h0] at hbits
    have hsign := signMagnitude_eq h0
    have hlut := writeSpecLut_getDeltaWriteSpec doubleDelta.toInt
    generalize getDeltaWriteSpec doubleDelta.toInt = spec at *
    have hprefix : padded.take spec.prefixBits = bitsOf spec.prefixBits spec.prefixValue := by
      rw [hpadded, hbits, List.append_assoc, List.append_assoc,
        List.take_left' (length_bitsOf _ _)]
    have hspec : writeSpecLut.getD (reader.peekByte.1 >>> 3) ⟨1, 0b0, 0⟩ = spec := by
      apply hlut
      · rw [hindex]
        exact ofBits_take_lt padded 5 (by omega)
      · rw [hindex, ofBits_take_div padded hp5 (by omega), hprefix, ofBits_bitsOf,
          Nat.mod_eq_of_lt hplt]
    have hdrop : reader.bits.drop spec.prefixBits =
        decide (doubleDelta.toInt < 0) ::
          (bitsOf (spec.dataBits - 1) (doubleDelta.toInt.natAbs - 1) ++ rest) := by
      rw [hbits, List.append_assoc, List.drop_left' (length_bitsOf _ _), List.cons_append]
    obtain ⟨hv1, hb1⟩ := BitReader.peekByte_skipBufferedBits_spec hr
      (show spec.prefixBits ≤ 8 by omega) (by rw [hbits]; simp)
    set sk := reader.peekByte.2.skipBufferedBits spec.prefixBits with hsk
    rw [hdrop] at hb1
    -- the sign bit, then the magnitude less one
    obtain ⟨hs1, hs2, hs3⟩ := BitReader.readBit_spec hv1 _ _ hb1
    obtain ⟨hx1, hx2, hx3⟩ := BitReader.readBits_bitsOf_spec hs2 (show spec.dataBits - 1 ≤ 64 by omega) _ _ hs3
    rw [Nat.mod_eq_of_lt habs] at hx1
    simp only [readDoubleDelta, hspec, ← hsk, if_pos (show spec.dataBits ≠ 0 by omega)]
    rw [hs1, hx1]
    exact ⟨hsign, hx2, hx3⟩

/-! ### The loops -/

def encodedBits (w : ℕ) (prevValue prevDelta : BitVec (8 * w)) (values : List (BitVec (8 * w))) :
    List Bool :=
  (differences prevDelta (differences prevValue values)).flatMap (ddBits w)

lemma encodedBits_cons (w : ℕ) (prevValue prevDelta x : BitVec (8 * w)) (xs : List (BitVec (8 * w))) :
    encodedBits w prevValue prevDelta (x :: xs) =
      ddBits w (x - prevValue - prevDelta) ++ encodedBits w x (x - prevValue) xs := by
  unfold encodedBits
  simp

lemma compressLoop_spec {w : ℕ} (hw : 0 < w) (values : List (BitVec (8 * w))) :
    ∀ (prevValue prevDelta : BitVec (8 * w)) (writer : BitWriter), writer.Valid →
      writer.count + (encodedBits w prevValue prevDelta values).length ≤ 8 * writer.destSize →
      ∃ writer', compressLoop w prevValue prevDelta values writer = .ok writer' ∧ writer'.Valid ∧
        writer'.bits = writer.bits ++ encodedBits w prevValue prevDelta values ∧
        writer'.destSize = writer.destSize := by
  induction values with
  | nil =>
    intro prevValue prevDelta writer hv _
    exact ⟨writer, rfl, hv, (List.append_nil _).symm, rfl⟩
  | cons x xs ih =>
    intro prevValue prevDelta writer hv hsize
    rw [encodedBits_cons, List.length_append] at hsize
    obtain ⟨wr1, h1, hv1, hb1, hd1⟩ :=
      writeDoubleDelta_spec hw hv (x - prevValue - prevDelta) (by omega)
    have hc1 := BitWriter.count_eq_of_bits hb1
    obtain ⟨wr2, h2, hv2, hb2, hd2⟩ := ih x (x - prevValue) wr1 hv1 (by omega)
    refine ⟨wr2, ?_, hv2, by rw [hb2, hb1, encodedBits_cons, List.append_assoc], by rw [hd2, hd1]⟩
    rw [compressLoop, h1, ok_bind, h2]

lemma decompressLoop_spec {w : ℕ} (hw8 : w ≤ 8) (doubleDeltas : List (BitVec (8 * w))) :
    ∀ (room : ℕ) (prevValue prevDelta : BitVec (8 * w)) (reader : BitReader) (tail : List Bool),
      reader.Valid → reader.bits = doubleDeltas.flatMap (ddBits w) ++ tail →
      w * doubleDeltas.length ≤ room →
      decompressLoop w doubleDeltas.length room prevValue prevDelta reader =
        .ok (storeWords w (accumulate prevValue (accumulate prevDelta doubleDeltas))) := by
  induction doubleDeltas with
  | nil => intros; rfl
  | cons d ds ih =>
    intro room prevValue prevDelta reader tail hr hbits hroom
    rw [List.flatMap_cons, List.append_assoc] at hbits
    have hnonempty : reader.eof = false := by
      rw [Bool.eq_false_iff, ne_eq, BitReader.eof_iff, hbits]
      exact fun h => ddBits_ne_nil w d (List.append_eq_nil_iff.mp h).1
    obtain ⟨hd, hv1, hb1⟩ := readDoubleDelta_spec hw8 hr d _ hbits
    rw [List.length_cons, Nat.mul_succ] at hroom
    have hstate : prevValue + (d + prevDelta) - prevValue = prevDelta + d := by
      rw [add_sub_cancel_left, add_comm]
    rw [List.length_cons, decompressLoop, if_neg (by rw [hnonempty]; exact Bool.false_ne_true)]
    dsimp only
    rw [hd, if_neg (by omega), hstate, ih (room - w) _ _ _ tail hv1 hb1 (by omega), ok_bind,
      accumulate_cons, accumulate_cons, add_comm d prevDelta, storeWords_cons]
    rfl

/-! ### The payload of one width -/

lemma getCompressedDataSize_eq {w : ℕ} {spec : WriteSpec}
    (hspec : getDeltaMaxWriteSpecByteSize w = .ok spec) (u : ℕ) :
    getCompressedDataSize w u = .ok ((u / w * spec.size % 2 ^ 32 + 7) % 2 ^ 32 / 8) := by
  rw [getCompressedDataSize, hspec]
  rfl

lemma getDeltaMaxWriteSpecByteSize_spec {w : ℕ} (hw : IsDataBytesSize w) :
    ∃ spec, getDeltaMaxWriteSpecByteSize w = .ok spec ∧
      ∀ x : BitVec (8 * w), (ddBits w x).length ≤ spec.size := by
  refine ⟨getDeltaWriteSpec (2 ^ (8 * w - 1) - 1), ?_, fun x => ?_⟩
  · rcases hw with rfl | rfl | rfl | rfl <;> rfl
  · by_cases h0 : x = 0
    · rw [ddBits_of_eq_zero h0]
      unfold getDeltaWriteSpec
      split_ifs <;> decide
    · have hlo := BitVec.le_toInt x
      have hhi := BitVec.toInt_lt (x := x)
      rw [length_ddBits_of_ne h0]
      rcases hw with rfl | rfl | rfl | rfl <;> norm_num at hlo hhi ⊢ <;>
        unfold getDeltaWriteSpec <;> split_ifs <;> simp only [WriteSpec.size_eq] <;> omega

lemma length_encodedBits_le {w bound : ℕ} (hbound : ∀ x : BitVec (8 * w), (ddBits w x).length ≤ bound)
    (values : List (BitVec (8 * w))) :
    ∀ prevValue prevDelta : BitVec (8 * w),
      (encodedBits w prevValue prevDelta values).length ≤ bound * values.length := by
  induction values with
  | nil => intros; exact Nat.zero_le _
  | cons x xs ih =>
    intro prevValue prevDelta
    have hx := hbound (x - prevValue - prevDelta)
    have hxs := ih x (x - prevValue)
    rw [encodedBits_cons, List.length_append, List.length_cons, Nat.mul_succ]
    omega

lemma decompressDataForType_items {w : ℕ} (hw8 : w ≤ 8) (v0 v1 : BitVec (8 * w))
    (rest : List (BitVec (8 * w))) (dest : List UInt8) (pad : List Bool)
    (hbytes : byteBits dest = encodedBits w v1 (v1 - v0) rest ++ pad)
    (hlen : rest.length + 2 < 256 ^ 4) :
    decompressDataForType w (encodeLE 4 (rest.length + 2) ++
        (unalignedStoreLittleEndian w v0 ++ unalignedStoreLittleEndian w (v1 - v0)) ++ dest)
      (w * (rest.length + 2)) = .ok (storeWords w (v0 :: v1 :: rest)) := by
  have hcount : decodeLE ((encodeLE 4 (rest.length + 2) ++
      (unalignedStoreLittleEndian w v0 ++ unalignedStoreLittleEndian w (v1 - v0)) ++ dest).take 4) =
        rest.length + 2 := by
    rw [List.append_assoc, decodeLE_take_encodeLE _ _ _ hlen]
  have hdrop : (encodeLE 4 (rest.length + 2) ++
      (unalignedStoreLittleEndian w v0 ++ unalignedStoreLittleEndian w (v1 - v0)) ++ dest).drop 4 =
        unalignedStoreLittleEndian w v0 ++ (unalignedStoreLittleEndian w (v1 - v0) ++ dest) := by
    rw [List.append_assoc, List.drop_left' (length_encodeLE 4 _), List.append_assoc]
  have hrounds : rest.length + 2 - 2 = (differences (v1 - v0) (differences v1 rest)).length := by
    rw [length_differences, length_differences, Nat.add_sub_cancel]
  have hroom : w * (differences (v1 - v0) (differences v1 rest)).length ≤
      w * (rest.length + 2) - w - w := by
    rw [length_differences, length_differences, Nat.mul_add]
    omega
  have h2w : w + w ≤ w * (rest.length + 2) := by
    rw [Nat.mul_add]
    omega
  unfold decompressDataForType
  rw [if_neg (by simp)]
  dsimp only
  rw [hcount, hdrop, if_neg (by rw [List.length_append, length_unalignedStoreLittleEndian]; omega),
    load_store, if_neg (by omega), List.drop_left' (length_unalignedStoreLittleEndian w v0),
    if_neg (by rw [List.length_append, length_unalignedStoreLittleEndian]; omega), load_store,
    if_neg (by omega), List.drop_left' (length_unalignedStoreLittleEndian w _), add_sub_cancel,
    hrounds,
    decompressLoop_spec hw8 _ _ v1 (v1 - v0) (BitReader.init dest) pad (BitReader.valid_init dest)
      (by rw [BitReader.bits_init, hbytes]; rfl) hroom,
    accumulate_differences, accumulate_differences, ok_bind, storeWords_cons, storeWords_cons,
    List.append_assoc]
  rfl

lemma compressedDataSize_eq {w : ℕ} (hw : 0 < w) (k m : ℕ) (hk : w * k < 2 ^ 32)
    (hfit : k * m + 7 < 2 ^ 32) :
    ((w * (k + 2) + 2 ^ 32 - 2 * w) % 2 ^ 32 / w * m % 2 ^ 32 + 7) % 2 ^ 32 / 8 = (k * m + 7) / 8 := by
  have harg : w * (k + 2) + 2 ^ 32 - 2 * w = w * k + 2 ^ 32 := by
    rw [Nat.mul_add]
    omega
  rw [harg, Nat.add_mod_right, Nat.mod_eq_of_lt hk, Nat.mul_div_cancel_left _ hw,
    Nat.mod_eq_of_lt (show k * m < 2 ^ 32 by omega), Nat.mod_eq_of_lt hfit]

lemma roundTrip_storeWords {w : ℕ} (hw : IsDataBytesSize w) {spec : WriteSpec}
    (hspec : getDeltaMaxWriteSpecByteSize w = .ok spec)
    (hbound : ∀ x : BitVec (8 * w), (ddBits w x).length ≤ spec.size)
    (values : List (BitVec (8 * w))) (hlt : w * values.length < 2 ^ 32)
    (hfit : (values.length - 2) * spec.size + 7 < 2 ^ 32) :
    ∃ body, compressDataForType w (storeWords w values) = .ok body ∧
      decompressDataForType w body (w * values.length) = .ok (storeWords w values) := by
  have hpos := pos_of_isDataBytesSize hw
  have hw8 := le_eight_of_isDataBytesSize hw
  have hdvd : ¬ (storeWords w values).length % w ≠ 0 := by
    rw [length_storeWords, Nat.mul_mod_right]
    exact fun h => h rfl
  have hcount : (storeWords w values).length / w = values.length := by
    rw [length_storeWords, Nat.mul_div_cancel_left _ hpos]
  have hlen4 : values.length < 256 ^ 4 := by
    have h : values.length ≤ w * values.length := Nat.le_mul_of_pos_left _ hpos
    norm_num at hlt ⊢
    omega
  rw [compressDataForType, if_neg hdvd, getCompressedDataSize_eq hspec, ok_bind,
    loadWords_storeWords hpos, hcount, length_storeWords]
  rcases values with _ | ⟨v0, _ | ⟨v1, rest⟩⟩
  · refine ⟨encodeLE 4 0, by rw [compressItems, pure_bind, BitWriter.flush_init, ok_bind]; rfl, ?_⟩
    unfold decompressDataForType
    simp
  · refine ⟨encodeLE 4 1 ++ unalignedStoreLittleEndian w v0 ++ [],
      by rw [compressItems, pure_bind, BitWriter.flush_init, ok_bind]; rfl, ?_⟩
    unfold decompressDataForType
    simp
  · have hl : (v0 :: v1 :: rest).length = rest.length + 2 := rfl
    rw [hl] at hlt hfit hlen4 ⊢
    rw [Nat.add_sub_cancel] at hfit
    have hk : w * rest.length < 2 ^ 32 := by
      rw [Nat.mul_add] at hlt
      omega
    rw [compressedDataSize_eq hpos rest.length spec.size hk hfit]
    set size := (rest.length * spec.size + 7) / 8 with hsize
    have henc := length_encodedBits_le hbound rest v1 (v1 - v0)
    rw [Nat.mul_comm spec.size] at henc
    obtain ⟨wr1, h1, hv1, hb1, hd1⟩ := compressLoop_spec hpos rest v1 (v1 - v0)
      (BitWriter.init size) (BitWriter.valid_init size) (by
        rw [show (BitWriter.init size).count = 0 from rfl, Nat.zero_add, BitWriter.destSize_init]
        omega)
    rw [BitWriter.bits_init, List.nil_append] at hb1
    have hc1 : wr1.count = (encodedBits w v1 (v1 - v0) rest).length := by
      rw [← BitWriter.length_bits, hb1]
    obtain ⟨wr2, h2, -, -, hbytes⟩ := BitWriter.flush_spec hv1 (by
      rw [hc1, hd1, BitWriter.destSize_init, hsize]
      exact Nat.div_le_div_right (by omega))
    rw [hb1] at hbytes
    refine ⟨_, by rw [compressItems, h1, ok_bind, pure_bind, h2, ok_bind]; rfl, ?_⟩
    exact decompressDataForType_items hw8 v0 v1 rest wr2.dest _ hbytes hlen4

/-! ### The codec -/

lemma doDecompressData_cons {b : UInt8} {rest : List UInt8} {n : ℕ} (hw : IsDataBytesSize b.toNat)
    (hlen : 2 + n % b.toNat ≤ (b :: rest).length) :
    doDecompressData (b :: rest) n = (do
      let out ← decompressDataForType b.toNat ((b :: rest).drop (2 + n % b.toNat)) (n - n % b.toNat)
      pure (((b :: rest).drop 2).take (n % b.toNat) ++ out)) := by
  unfold doDecompressData
  rw [if_neg (by omega), List.headD_cons, if_neg (not_not.mpr hw),
    if_neg (by omega)]

lemma payloadRoundTrips {dataBytesSize : UInt8} (hw : IsDataBytesSize dataBytesSize.toNat)
    {spec : WriteSpec} (hspec : getDeltaMaxWriteSpecByteSize dataBytesSize.toNat = .ok spec)
    (source : List UInt8) (hlt : source.length < 2 ^ 32)
    (hfit : (source.length / dataBytesSize.toNat - 2) * spec.size + 7 < 2 ^ 32) :
    (compressionCodecDoubleDelta dataBytesSize).PayloadRoundTrips source := by
  set w := dataBytesSize.toNat with hwdef
  set words := loadWords w (source.drop (source.length % w)) with hwords
  obtain ⟨spec', hspec', hbound⟩ := getDeltaMaxWriteSpecByteSize_spec hw
  obtain rfl : spec' = spec := Except.ok.inj (hspec'.symm.trans hspec)
  have hrest : storeWords w words = source.drop (source.length % w) :=
    storeWords_loadWords _ (length_drop_mod source w)
  have houtput : source.length - source.length % w = w * words.length := by
    rw [← List.length_drop, ← hrest, length_storeWords]
  have hcount : words.length = source.length / w := by
    rw [hwords, length_loadWords, List.length_drop, ← Nat.div_eq_sub_mod_div]
  obtain ⟨body, hc, hd⟩ := roundTrip_storeWords hw hspec' hbound words
    (by rw [← houtput]; omega) (by rw [hcount]; exact hfit)
  rw [hrest] at hc hd
  refine ⟨_, compressUnaligned_eq hw hc, ?_⟩
  have hlen : 2 + source.length % w ≤ (dataBytesSize :: UInt8.ofNat (source.length % w) ::
      (source.take (source.length % w) ++ body)).length := by
    simp only [List.length_cons, List.length_append, length_take_mod]
    omega
  rw [compressionCodecDoubleDelta_doDecompressData, doDecompressData_cons hw hlen, drop_unaligned,
    take_unaligned, houtput, hd, ok_bind]
  exact congrArg Except.ok (List.take_append_drop _ source)

theorem compressionCodecDoubleDelta_rejects_empty :
    ¬ (compressionCodecDoubleDelta 1).RoundTrips [] := by
  obtain ⟨body, hbody, -⟩ := payloadRoundTrips (show IsDataBytesSize (1 : UInt8).toNat by decide)
    (show getDeltaMaxWriteSpecByteSize (1 : UInt8).toNat = .ok ⟨3, 0b110, 9⟩ by rfl) []
    (by simp) (by simp [WriteSpec.size_eq])
  intro h
  rw [ICompressionCodec.RoundTrips, ICompressionCodec.not_roundTrips_nil hbody] at h
  cases h

theorem compressionCodecDoubleDelta_roundTrips (dataBytesSize : UInt8)
    (hw : IsDataBytesSize dataBytesSize.toNat) (source : List UInt8) (hne : source ≠ [])
    (hlt : source.length < 2 ^ 32)
    (hfit : ∃ spec, getDeltaMaxWriteSpecByteSize dataBytesSize.toNat = .ok spec ∧
      (source.length / dataBytesSize.toNat - 2) * spec.size + 7 < 2 ^ 32) :
    (compressionCodecDoubleDelta dataBytesSize).RoundTrips source := by
  obtain ⟨spec, hspec, hsize⟩ := hfit
  exact ICompressionCodec.roundTrips_of_payload hne hlt (payloadRoundTrips hw hspec source hlt hsize)

theorem compressionCodecDoubleDelta_roundTrips_jumps :
    IsDataBytesSize (1 : UInt8).toNat ∧ [1, 2, 4, 8, 200, 3] ≠ ([] : List UInt8) ∧
      [1, 2, 4, 8, 200, 3].length < 2 ^ 32 ∧
      (∃ spec, getDeltaMaxWriteSpecByteSize (1 : UInt8).toNat = .ok spec ∧
        ([1, 2, 4, 8, 200, 3].length / (1 : UInt8).toNat - 2) * spec.size + 7 < 2 ^ 32) ∧
      (compressionCodecDoubleDelta 1).RoundTrips [1, 2, 4, 8, 200, 3] :=
  ⟨by decide, by simp, by simp, ⟨⟨3, 0b110, 9⟩, rfl, by decide⟩,
    compressionCodecDoubleDelta_roundTrips 1 (by decide) [1, 2, 4, 8, 200, 3] (by simp) (by simp)
      ⟨⟨3, 0b110, 9⟩, rfl, by decide⟩⟩

end ClickHouse.Compression.DoubleDelta
