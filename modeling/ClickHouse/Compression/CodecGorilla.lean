import ClickHouse.Lib.BitWindow
import ClickHouse.Base.Unaligned
import ClickHouse.IO.BitStream
import ClickHouse.Compression.ICompressionCodec
import ClickHouse.Compression.UnalignedBytes

/-! `Compression/CompressionCodecGorilla.cpp`: the item count and the first value raw, then the
xor of every value with the one before, bit-packed by the window of its meaningful bits.
The encoder measures the xor after integer promotion, 32 bits for the narrow widths. The
static bit lengths of `getCompressedDataSize` are process state: `none` before its first call,
then the bit length of that call's width. -/

namespace ClickHouse.Compression.Gorilla

open ClickHouse.Lib ClickHouse.Lib.Bytes ClickHouse.Lib.Bits ClickHouse.Lib.BitWindow
  ClickHouse.Base ClickHouse.Common ClickHouse.IO.BitHelpers

def getBitLengthOfLength (dataBytesSize : ℕ) : ℕ := [0, 4, 5, 0, 6, 0, 0, 0, 7].getD dataBytesSize 0

def getCompressedHeaderSize (dataBytesSize : ℕ) : ℕ := 4 + dataBytesSize

def getCompressedDataSize (dataBitLength : Option ℕ) (dataBytesSize uncompressedSize : ℕ) :
    ℕ × Option ℕ :=
  let itemsCount := uncompressedSize / dataBytesSize
  let dataBitLength := dataBitLength.getD (getBitLengthOfLength dataBytesSize)
  let leadingZeroesBitLength := dataBitLength - 1
  let maxItemSizeBits := 2 + leadingZeroesBitLength + dataBitLength + dataBytesSize * 8
  ((itemsCount * maxItemSizeBits % 2 ^ 32 + 8) % 2 ^ 32 / 8, some dataBitLength)

def getMaxCompressedDataSize (dataBitLength : Option ℕ) (dataBytesSize uncompressedSize : ℕ) :
    ℕ × Option ℕ :=
  let compressedDataSize := getCompressedDataSize dataBitLength dataBytesSize uncompressedSize
  ((2 + dataBytesSize + getCompressedHeaderSize dataBytesSize + compressedDataSize.1) % 2 ^ 32,
    compressedDataSize.2)

structure BinaryValueInfo where
  leadingZeroBits : ℕ
  dataBits : ℕ
  trailingZeroBits : ℕ
  deriving DecidableEq, Repr

def getBinaryValueInfo {m : ℕ} (value : BitVec m) : BinaryValueInfo :=
  let lz := value.clz.toNat
  let tz := value.ctz.toNat
  ⟨lz, if value = 0 then 0 else m - lz - tz, tz⟩

@[simp] lemma leadingZeroBits_getBinaryValueInfo {m : ℕ} (value : BitVec m) :
    (getBinaryValueInfo value).leadingZeroBits = value.clz.toNat := rfl

@[simp] lemma trailingZeroBits_getBinaryValueInfo {m : ℕ} (value : BitVec m) :
    (getBinaryValueInfo value).trailingZeroBits = value.ctz.toNat := rfl

lemma dataBits_getBinaryValueInfo {m : ℕ} {value : BitVec m} (h0 : value ≠ 0) :
    (getBinaryValueInfo value).dataBits = m - value.clz.toNat - value.ctz.toNat := if_neg h0

/-- The width of `curr_value ^ prev_value` after integer promotion. -/
def promotedBits (dataBytesSize : ℕ) : ℕ := 8 * max dataBytesSize 4

def compressItem (w : ℕ) (prevXoredInfo : BinaryValueInfo) (xoredData : BitVec (promotedBits w))
    (writer : BitWriter) : Except ErrorCode (BitWriter × BinaryValueInfo) :=
  let currXoredInfo := getBinaryValueInfo xoredData
  if xoredData = 0 then do
    let writer ← writer.writeBits 1 0
    pure (writer, prevXoredInfo)
  else if prevXoredInfo.dataBits ≠ 0 ∧
      prevXoredInfo.leadingZeroBits ≤ currXoredInfo.leadingZeroBits ∧
      prevXoredInfo.trailingZeroBits ≤ currXoredInfo.trailingZeroBits then do
    let writer ← writer.writeBits 2 0b10
    let writer ← writer.writeBits prevXoredInfo.dataBits
      (UInt64.ofNat (xoredData.toNat >>> prevXoredInfo.trailingZeroBits))
    pure (writer, prevXoredInfo)
  else do
    let writer ← writer.writeBits 2 0b11
    let writer ← writer.writeBits (getBitLengthOfLength w - 1)
      (UInt64.ofNat currXoredInfo.leadingZeroBits)
    let writer ← writer.writeBits (getBitLengthOfLength w) (UInt64.ofNat currXoredInfo.dataBits)
    let writer ← writer.writeBits currXoredInfo.dataBits
      (UInt64.ofNat (xoredData.toNat >>> currXoredInfo.trailingZeroBits))
    pure (writer, currXoredInfo)

def compressLoop (w : ℕ) : BitVec (8 * w) → BinaryValueInfo → List (BitVec (8 * w)) → BitWriter →
    Except ErrorCode BitWriter
  | _, _, [], writer => pure writer
  | prevValue, prevXoredInfo, currValue :: rest, writer => do
    let step ← compressItem w prevXoredInfo ((currValue ^^^ prevValue).setWidth (promotedBits w))
      writer
    compressLoop w currValue step.2 rest step.1

/-- `destSize` is the `dest_size` the caller passes: the writer gets what the header leaves. -/
def compressDataForType (w : ℕ) (source : List UInt8) (destSize : ℕ) :
    Except ErrorCode (List UInt8) :=
  if source.length % w ≠ 0 then .error .cannotCompress
  else
    let itemsCount := source.length / w
    match loadWords w source with
    | [] => do
      let writer ← (BitWriter.init (destSize - 4)).flush
      pure (encodeLE 4 itemsCount ++ writer.dest)
    | firstValue :: rest => do
      let writer ← compressLoop w firstValue ⟨0, 0, 0⟩ rest (BitWriter.init (destSize - 4 - w))
      let writer ← writer.flush
      pure (encodeLE 4 itemsCount ++ unalignedStoreLittleEndian w firstValue ++ writer.dest)

/-- The window header of a `0b11` item. The counts are `UInt8`; the trailing count is computed in
`size_t` and truncated. -/
def readWindow (w : ℕ) (reader : BitReader) : BinaryValueInfo × BitReader :=
  let lz := reader.readBits (getBitLengthOfLength w - 1)
  let db := lz.2.readBits (getBitLengthOfLength w)
  (⟨lz.1 % 256, db.1 % 256, (((8 * w : ℕ) : ℤ) - (lz.1 % 256 : ℕ) - (db.1 % 256 : ℕ)) % 256 |>.toNat⟩,
    db.2)

/-- One round of the decoder loop. A shift by the whole width or more is undefined in the source;
here it gives zero. -/
def decompressItem (w : ℕ) (prevValue : BitVec (8 * w)) (prevXoredInfo : BinaryValueInfo)
    (reader : BitReader) : Except ErrorCode (BitVec (8 * w) × BinaryValueInfo × BitReader) :=
  let first := reader.readBit
  if first.1 = 1 then
    let second := first.2.readBit
    let header := if second.1 = 1 then readWindow w second.2 else (prevXoredInfo, second.2)
    let currXoredInfo := header.1
    if currXoredInfo.leadingZeroBits = 0 ∧ currXoredInfo.dataBits = 0 ∧
        currXoredInfo.trailingZeroBits = 0 then .error .cannotDecompress
    else
      let xored := header.2.readBits currXoredInfo.dataBits
      let xoredData := BitVec.ofNat (8 * w) xored.1 <<< currXoredInfo.trailingZeroBits
      .ok (prevValue ^^^ xoredData, currXoredInfo, xored.2)
  else .ok (prevValue, prevXoredInfo, first.2)

def decompressLoop (w : ℕ) : ℕ → BitVec (8 * w) → BinaryValueInfo → BitReader →
    Except ErrorCode (List UInt8)
  | 0, _, _, _ => .ok []
  | rounds + 1, prevValue, prevXoredInfo, reader =>
    if reader.eof then .ok []
    else do
      let step ← decompressItem w prevValue prevXoredInfo reader
      let tail ← decompressLoop w rounds step.1 step.2.1 step.2.2
      pure (unalignedStoreLittleEndian w step.1 ++ tail)

def decompressDataForType (w : ℕ) (source : List UInt8) (destSize : ℕ) :
    Except ErrorCode (List UInt8) :=
  if source.length < 4 then .ok []
  else
    let itemsCount := decodeLE (source.take 4)
    let source := source.drop 4
    if source.length < w ∨ itemsCount < 1 then .ok []
    else if destSize < itemsCount * w then .error .cannotDecompress
    else do
      let prevValue := unalignedLoadLittleEndian w source
      let rest ← decompressLoop w (itemsCount - 1) prevValue ⟨0, 0, 0⟩
        (BitReader.init (source.drop w))
      pure (unalignedStoreLittleEndian w prevValue ++ rest)

/-- Returns the statics after the call with the result: they are set before the width is
checked. -/
def doCompressData (dataBitLength : Option ℕ) (dataBytesSize : UInt8) (source : List UInt8) :
    Except ErrorCode (List UInt8) × Option ℕ :=
  let compressedSize := getMaxCompressedDataSize dataBitLength dataBytesSize.toNat source.length
  (compressUnaligned dataBytesSize (fun w source => compressDataForType w source compressedSize.1)
    source, compressedSize.2)

def doDecompressData (source : List UInt8) (uncompressedSize : ℕ) : Except ErrorCode (List UInt8) :=
  if source.length < 2 then .error .cannotDecompress
  else
    let bytesSize := (source.headD 0).toNat
    if bytesSize = 0 then .error .cannotDecompress
    else
      let bytesToSkip := uncompressedSize % bytesSize
      if source.length < 2 + bytesToSkip then .error .cannotDecompress
      else if uncompressedSize < bytesToSkip then .error .cannotDecompress
      else
        let skipped := (source.drop 2).take bytesToSkip
        if bytesToSkip = uncompressedSize then .ok skipped
        else if IsDataBytesSize bytesSize then do
          let rest ← decompressDataForType bytesSize (source.drop (2 + bytesToSkip))
            (uncompressedSize - bytesToSkip)
          pure (skipped ++ rest)
        else .error .cannotDecompress

/-- The codec as seen by a call made while the statics hold `dataBitLength`. -/
def compressionCodecGorilla (dataBitLength : Option ℕ) (dataBytesSize : UInt8) : ICompressionCodec where
  methodByte := CompressionMethodByte.gorilla.toUInt8
  doCompressData := fun source => (doCompressData dataBitLength dataBytesSize source).1
  doDecompressData := doDecompressData

@[simp] lemma compressionCodecGorilla_doCompressData (dataBitLength : Option ℕ)
    (dataBytesSize : UInt8) :
    (compressionCodecGorilla dataBitLength dataBytesSize).doCompressData =
      fun source => (doCompressData dataBitLength dataBytesSize source).1 := rfl

@[simp] lemma compressionCodecGorilla_doDecompressData (dataBitLength : Option ℕ)
    (dataBytesSize : UInt8) :
    (compressionCodecGorilla dataBitLength dataBytesSize).doDecompressData = doDecompressData := rfl

/-! ### Widths -/

structure WidthFacts (w : ℕ) : Prop where
  pos : 0 < w
  le_promoted : 8 * w ≤ promotedBits w
  promoted_le : promotedBits w ≤ 64
  lead_pos : 1 ≤ getBitLengthOfLength w
  length_le : getBitLengthOfLength w ≤ 7
  dataBits_lt : 8 * w < 2 ^ getBitLengthOfLength w
  leading_le : 8 * w ≤ 2 ^ (getBitLengthOfLength w - 1)
  offset_dvd : (promotedBits w - 8 * w) % 2 ^ (getBitLengthOfLength w - 1) = 0

lemma widthFacts {w : ℕ} (hw : IsDataBytesSize w) : WidthFacts w := by
  rcases hw with rfl | rfl | rfl | rfl <;> exact ⟨by decide, by decide, by decide, by decide,
    by decide, by decide, by decide, by decide⟩

/-! ### What the encoder writes -/

/-- The windows the encoder keeps: none yet, or that of a nonzero xor of two values. -/
def EncoderWindow (w : ℕ) (info : BinaryValueInfo) : Prop :=
  info.dataBits = 0 ∨
    (info.leadingZeroBits + info.trailingZeroBits < promotedBits w ∧
      info.dataBits = promotedBits w - info.leadingZeroBits - info.trailingZeroBits ∧
      info.dataBits ≤ 8 * w)

/-- The bits `compressItem` appends for one xor, and the window it keeps. -/
def itemBits (w : ℕ) (prevXoredInfo : BinaryValueInfo) (xoredData : BitVec (promotedBits w)) :
    List Bool × BinaryValueInfo :=
  let currXoredInfo := getBinaryValueInfo xoredData
  if xoredData = 0 then ([false], prevXoredInfo)
  else if prevXoredInfo.dataBits ≠ 0 ∧
      prevXoredInfo.leadingZeroBits ≤ currXoredInfo.leadingZeroBits ∧
      prevXoredInfo.trailingZeroBits ≤ currXoredInfo.trailingZeroBits then
    (true :: false ::
      bitsOf prevXoredInfo.dataBits (xoredData.toNat >>> prevXoredInfo.trailingZeroBits),
      prevXoredInfo)
  else
    (true :: true :: (bitsOf (getBitLengthOfLength w - 1) currXoredInfo.leadingZeroBits ++
      bitsOf (getBitLengthOfLength w) currXoredInfo.dataBits ++
      bitsOf currXoredInfo.dataBits (xoredData.toNat >>> currXoredInfo.trailingZeroBits)),
      currXoredInfo)

lemma itemBits_cases (w : ℕ) (prevXoredInfo : BinaryValueInfo) (xoredData : BitVec (promotedBits w)) :
    (xoredData = 0 ∧ itemBits w prevXoredInfo xoredData = ([false], prevXoredInfo)) ∨
    (xoredData ≠ 0 ∧ prevXoredInfo.dataBits ≠ 0 ∧
      prevXoredInfo.leadingZeroBits ≤ xoredData.clz.toNat ∧
      prevXoredInfo.trailingZeroBits ≤ xoredData.ctz.toNat ∧
      itemBits w prevXoredInfo xoredData = (true :: false ::
        bitsOf prevXoredInfo.dataBits (xoredData.toNat >>> prevXoredInfo.trailingZeroBits),
        prevXoredInfo)) ∨
    (xoredData ≠ 0 ∧ itemBits w prevXoredInfo xoredData = (true :: true ::
      (bitsOf (getBitLengthOfLength w - 1) xoredData.clz.toNat ++
        bitsOf (getBitLengthOfLength w) (getBinaryValueInfo xoredData).dataBits ++
        bitsOf (getBinaryValueInfo xoredData).dataBits (xoredData.toNat >>> xoredData.ctz.toNat)),
      getBinaryValueInfo xoredData)) := by
  dsimp only [itemBits]
  split_ifs with h0 hreuse
  · exact Or.inl ⟨h0, rfl⟩
  · exact Or.inr (Or.inl ⟨h0, hreuse.1, hreuse.2.1, hreuse.2.2, rfl⟩)
  · exact Or.inr (Or.inr ⟨h0, rfl⟩)

lemma itemBits_ne_nil (w : ℕ) (prevXoredInfo : BinaryValueInfo) (xoredData : BitVec (promotedBits w)) :
    (itemBits w prevXoredInfo xoredData).1 ≠ [] := by
  rcases itemBits_cases w prevXoredInfo xoredData with ⟨-, h⟩ | ⟨-, -, -, -, h⟩ | ⟨-, h⟩ <;>
    simp [h]

def promotedXor (w : ℕ) (currValue prevValue : BitVec (8 * w)) : BitVec (promotedBits w) :=
  (currValue ^^^ prevValue).setWidth (promotedBits w)

lemma toNat_promotedXor {w : ℕ} (hw : WidthFacts w) (currValue prevValue : BitVec (8 * w)) :
    (promotedXor w currValue prevValue).toNat = (currValue ^^^ prevValue).toNat := by
  rw [promotedXor, BitVec.toNat_setWidth, Nat.mod_eq_of_lt]
  exact lt_of_lt_of_le (currValue ^^^ prevValue).isLt (Nat.pow_le_pow_right (by omega) hw.le_promoted)

lemma promotedXor_lt {w : ℕ} (hw : WidthFacts w) (currValue prevValue : BitVec (8 * w)) :
    (promotedXor w currValue prevValue).toNat < 2 ^ (8 * w) := by
  rw [toNat_promotedXor hw]
  exact (currValue ^^^ prevValue).isLt

lemma clz_bounds {w : ℕ} {xoredData : BitVec (promotedBits w)} (hx : xoredData.toNat < 2 ^ (8 * w))
    (h0 : xoredData ≠ 0) :
    promotedBits w - 8 * w ≤ xoredData.clz.toNat ∧
      xoredData.clz.toNat + xoredData.ctz.toNat < promotedBits w :=
  ⟨sub_le_clz h0 hx, clz_add_ctz_lt h0⟩

section Window

variable {w : ℕ} (hw : WidthFacts w) {xoredData : BitVec (promotedBits w)}
  (hx : xoredData.toNat < 2 ^ (8 * w))
include hw hx

lemma getBinaryValueInfo_window (h0 : xoredData ≠ 0) :
    EncoderWindow w (getBinaryValueInfo xoredData) := by
  have hm := hw.le_promoted
  obtain ⟨hlz, hsum⟩ := clz_bounds hx h0
  right
  rw [dataBits_getBinaryValueInfo h0, leadingZeroBits_getBinaryValueInfo,
    trailingZeroBits_getBinaryValueInfo]
  exact ⟨hsum, rfl, by omega⟩

lemma length_itemBits_le {prevXoredInfo : BinaryValueInfo} (hprev : EncoderWindow w prevXoredInfo) :
    (itemBits w prevXoredInfo xoredData).1.length ≤
      2 + (getBitLengthOfLength w - 1) + getBitLengthOfLength w + 8 * w := by
  dsimp only [itemBits]
  split_ifs with h0 hreuse
  · simp only [List.length_singleton]
    omega
  · rcases hprev with hz | ⟨-, -, hle⟩
    · exact absurd hz hreuse.1
    · simp only [List.length_cons, length_bitsOf]
      omega
  · rcases getBinaryValueInfo_window hw hx h0 with hz | ⟨-, -, hle⟩
    · simp only [List.length_cons, List.length_append, length_bitsOf]
      omega
    · simp only [List.length_cons, List.length_append, length_bitsOf]
      omega

lemma itemBits_window {prevXoredInfo : BinaryValueInfo} (hprev : EncoderWindow w prevXoredInfo) :
    EncoderWindow w (itemBits w prevXoredInfo xoredData).2 := by
  dsimp only [itemBits]
  split_ifs with h0 hreuse
  · exact hprev
  · exact hprev
  · exact getBinaryValueInfo_window hw hx h0

lemma compressItem_spec {prevXoredInfo : BinaryValueInfo} (hprev : EncoderWindow w prevXoredInfo)
    {writer : BitWriter} (hwr : writer.Valid)
    (hsize : writer.count + (itemBits w prevXoredInfo xoredData).1.length ≤ 8 * writer.destSize) :
    ∃ writer', compressItem w prevXoredInfo xoredData writer =
        .ok (writer', (itemBits w prevXoredInfo xoredData).2) ∧ writer'.Valid ∧
      writer'.bits = writer.bits ++ (itemBits w prevXoredInfo xoredData).1 ∧
      writer'.destSize = writer.destSize := by
  have hL := hw.length_le
  have hm := hw.le_promoted
  have hm64 := hw.promoted_le
  dsimp only [compressItem, itemBits] at hsize ⊢
  split_ifs at hsize ⊢ with h0 hreuse
  · -- an unchanged value: a single zero bit
    rw [List.length_singleton] at hsize
    obtain ⟨wr1, h1, hv1, hb1, hd1⟩ := BitWriter.writeBits_spec hwr (show 1 ≤ 64 by omega) 0
      (by omega)
    exact ⟨wr1, by rw [h1]; rfl, hv1, by rw [hb1]; rfl, hd1⟩
  · -- the meaningful bits fit the previous window
    have hdb : prevXoredInfo.dataBits ≤ 64 := by
      rcases hprev with hz | ⟨-, -, hle⟩
      · exact absurd hz hreuse.1
      · omega
    simp only [List.length_cons, length_bitsOf] at hsize
    obtain ⟨wr2, h2, hv2, hb2, hd2⟩ := BitWriter.writeBitsList_spec
      [(2, 0b10), (prevXoredInfo.dataBits, UInt64.ofNat (xoredData.toNat >>> prevXoredInfo.trailingZeroBits))]
      (by simp; omega) hwr (by simp; omega)
    refine ⟨wr2, ?_, hv2, ?_, hd2⟩
    · simp only [BitWriter.writeBitsList, bind_pure] at h2
      simp only [← bind_assoc, h2]
      rfl
    · rw [hb2, List.flatMap_cons, List.flatMap_cons, List.flatMap_nil, List.append_nil,
        bitsOf_toNat_ofNat hdb]
      rfl
  · -- a new window: its leading-zero count and width, then the meaningful bits
    have hdb : (getBinaryValueInfo xoredData).dataBits ≤ 64 := by
      rcases getBinaryValueInfo_window hw hx h0 with hz | ⟨-, -, hle⟩
      · omega
      · omega
    simp only [List.length_cons, List.length_append, length_bitsOf] at hsize
    obtain ⟨wr4, h4, hv4, hb4, hd4⟩ := BitWriter.writeBitsList_spec
      [(2, 0b11), (getBitLengthOfLength w - 1, UInt64.ofNat (getBinaryValueInfo xoredData).leadingZeroBits),
        (getBitLengthOfLength w, UInt64.ofNat (getBinaryValueInfo xoredData).dataBits),
        ((getBinaryValueInfo xoredData).dataBits,
          UInt64.ofNat (xoredData.toNat >>> (getBinaryValueInfo xoredData).trailingZeroBits))]
      (by simp; omega) hwr (by simp; omega)
    refine ⟨wr4, ?_, hv4, ?_, hd4⟩
    · simp only [BitWriter.writeBitsList, bind_pure, ← bind_assoc] at h4
      simp only [← bind_assoc, h4]
      rfl
    · rw [hb4, List.flatMap_cons, List.flatMap_cons, List.flatMap_cons, List.flatMap_cons, List.flatMap_nil,
        List.append_nil, bitsOf_toNat_ofNat (by omega), bitsOf_toNat_ofNat (by omega), bitsOf_toNat_ofNat hdb]
      simp only [List.append_assoc]
      rfl

end Window

def encodedBits (w : ℕ) : BitVec (8 * w) → BinaryValueInfo → List (BitVec (8 * w)) → List Bool
  | _, _, [] => []
  | prevValue, prevXoredInfo, currValue :: rest =>
    let item := itemBits w prevXoredInfo (promotedXor w currValue prevValue)
    item.1 ++ encodedBits w currValue item.2 rest

@[simp] lemma encodedBits_nil (w : ℕ) (prevValue : BitVec (8 * w)) (prevXoredInfo : BinaryValueInfo) :
    encodedBits w prevValue prevXoredInfo [] = [] := rfl

lemma encodedBits_cons (w : ℕ) (prevValue currValue : BitVec (8 * w)) (prevXoredInfo : BinaryValueInfo)
    (rest : List (BitVec (8 * w))) :
    encodedBits w prevValue prevXoredInfo (currValue :: rest) =
      (itemBits w prevXoredInfo (promotedXor w currValue prevValue)).1 ++
        encodedBits w currValue (itemBits w prevXoredInfo (promotedXor w currValue prevValue)).2 rest :=
  rfl

lemma compressLoop_cons (w : ℕ) (prevValue currValue : BitVec (8 * w))
    (prevXoredInfo : BinaryValueInfo) (rest : List (BitVec (8 * w))) (writer : BitWriter) :
    compressLoop w prevValue prevXoredInfo (currValue :: rest) writer = (do
      let step ← compressItem w prevXoredInfo (promotedXor w currValue prevValue) writer
      compressLoop w currValue step.2 rest step.1) := rfl

lemma length_encodedBits_le {w : ℕ} (hw : WidthFacts w) (values : List (BitVec (8 * w))) :
    ∀ (prevValue : BitVec (8 * w)) (prevXoredInfo : BinaryValueInfo),
      EncoderWindow w prevXoredInfo →
      (encodedBits w prevValue prevXoredInfo values).length ≤
        values.length * (2 + (getBitLengthOfLength w - 1) + getBitLengthOfLength w + 8 * w) := by
  induction values with
  | nil => intros; simp
  | cons x xs ih =>
    intro prevValue prevXoredInfo hprev
    have hx := promotedXor_lt hw x prevValue
    have hitem := length_itemBits_le hw hx hprev
    have hrest := ih x _ (itemBits_window hw hx hprev)
    rw [encodedBits_cons, List.length_append, List.length_cons, Nat.succ_mul]
    omega

lemma compressLoop_spec {w : ℕ} (hw : WidthFacts w) (values : List (BitVec (8 * w))) :
    ∀ (prevValue : BitVec (8 * w)) (prevXoredInfo : BinaryValueInfo) (writer : BitWriter),
      writer.Valid → EncoderWindow w prevXoredInfo →
      writer.count + (encodedBits w prevValue prevXoredInfo values).length ≤ 8 * writer.destSize →
      ∃ writer', compressLoop w prevValue prevXoredInfo values writer = .ok writer' ∧
        writer'.Valid ∧ writer'.bits = writer.bits ++ encodedBits w prevValue prevXoredInfo values ∧
        writer'.destSize = writer.destSize := by
  induction values with
  | nil =>
    intro prevValue prevXoredInfo writer hv _ _
    exact ⟨writer, rfl, hv, (List.append_nil _).symm, rfl⟩
  | cons x xs ih =>
    intro prevValue prevXoredInfo writer hv hprev hsize
    have hx := promotedXor_lt hw x prevValue
    rw [encodedBits_cons, List.length_append] at hsize
    obtain ⟨wr1, h1, hv1, hb1, hd1⟩ := compressItem_spec hw hx hprev hv (by omega)
    have hc1 := BitWriter.count_eq_of_bits hb1
    obtain ⟨wr2, h2, hv2, hb2, hd2⟩ :=
      ih x _ wr1 hv1 (itemBits_window hw hx hprev) (by rw [hc1, hd1]; omega)
    refine ⟨wr2, by rw [compressLoop_cons, h1, ok_bind, h2], hv2, ?_, by rw [hd2, hd1]⟩
    rw [hb2, hb1, encodedBits_cons, List.append_assoc]

/-! ### What the decoder reads -/

/-- The decoder's window agrees with the encoder's where it is used: the width of the
meaningful bits and where they sit. -/
def Agree (e d : BinaryValueInfo) : Prop :=
  d.dataBits = e.dataBits ∧ d.trailingZeroBits = e.trailingZeroBits

/-- The leading-zero count is written in `LEADING_ZEROES_BIT_LENGTH` bits: what survives is the
count within the value's own width, the promotion being a multiple of the field. -/
lemma leading_mod_eq {w : ℕ} (hw : WidthFacts w) {lz : ℕ} (hlo : promotedBits w - 8 * w ≤ lz)
    (hhi : lz < promotedBits w) :
    lz % 2 ^ (getBitLengthOfLength w - 1) = lz - (promotedBits w - 8 * w) := by
  obtain ⟨q, hq⟩ := Nat.dvd_of_mod_eq_zero hw.offset_dvd
  have hm := hw.le_promoted
  have hr : lz - (promotedBits w - 8 * w) < 2 ^ (getBitLengthOfLength w - 1) := by
    have := hw.leading_le
    omega
  calc lz % 2 ^ (getBitLengthOfLength w - 1)
      = (2 ^ (getBitLengthOfLength w - 1) * q + (lz - (promotedBits w - 8 * w))) %
          2 ^ (getBitLengthOfLength w - 1) := by rw [← hq]; congr 1; omega
    _ = lz - (promotedBits w - 8 * w) := by rw [Nat.mul_add_mod, Nat.mod_eq_of_lt hr]

lemma readWindow_spec {w : ℕ} (hw : WidthFacts w) {xoredData : BitVec (promotedBits w)}
    (hx : xoredData.toNat < 2 ^ (8 * w)) (h0 : xoredData ≠ 0) {reader : BitReader}
    (hr : reader.Valid) (tail : List Bool)
    (hbits : reader.bits = bitsOf (getBitLengthOfLength w - 1) xoredData.clz.toNat ++
      (bitsOf (getBitLengthOfLength w) (getBinaryValueInfo xoredData).dataBits ++ tail)) :
    Agree (getBinaryValueInfo xoredData) (readWindow w reader).1 ∧ (readWindow w reader).2.Valid ∧
      (readWindow w reader).2.bits = tail := by
  have hL := hw.length_le
  have hm := hw.le_promoted
  have hm64 := hw.promoted_le
  obtain ⟨hlo, hsum⟩ := clz_bounds hx h0
  have hdb := dataBits_getBinaryValueInfo h0
  obtain ⟨h1, hv1, hb1⟩ := BitReader.readBits_bitsOf_spec hr (show getBitLengthOfLength w - 1 ≤ 64 by omega)
    _ _ hbits
  obtain ⟨h2, hv2, hb2⟩ := BitReader.readBits_bitsOf_spec hv1 (show getBitLengthOfLength w ≤ 64 by omega)
    _ _ hb1
  refine ⟨⟨?_, ?_⟩, hv2, hb2⟩
  · -- the width field holds the width exactly
    have hlt := hw.dataBits_lt
    dsimp only [readWindow]
    rw [h2, Nat.mod_eq_of_lt (show (getBinaryValueInfo xoredData).dataBits < _ by omega)]
    omega
  · -- the trailing count the decoder computes is the encoder's
    have hlead := leading_mod_eq hw hlo (by omega)
    have hlt := hw.dataBits_lt
    dsimp only [readWindow]
    rw [h1, h2, hlead, Nat.mod_eq_of_lt (show (getBinaryValueInfo xoredData).dataBits < _ by omega),
      trailingZeroBits_getBinaryValueInfo]
    omega

lemma decodeXor_eq {w : ℕ} (hw : WidthFacts w) {currValue prevValue : BitVec (8 * w)} {lz tz : ℕ}
    (hlz : lz ≤ (promotedXor w currValue prevValue).clz.toNat)
    (htz : tz ≤ (promotedXor w currValue prevValue).ctz.toNat) (hsum : lz + tz ≤ promotedBits w) :
    prevValue ^^^ BitVec.ofNat (8 * w)
      ((promotedXor w currValue prevValue).toNat >>> tz % 2 ^ (promotedBits w - lz - tz)) <<< tz =
      currValue := by
  have hxlt := promotedXor_lt hw currValue prevValue
  have hv : (promotedXor w currValue prevValue).toNat >>> tz % 2 ^ (promotedBits w - lz - tz) =
      (promotedXor w currValue prevValue).toNat >>> tz :=
    Nat.mod_eq_of_lt (shiftRight_lt_of_le hlz hsum)
  have hshift : BitVec.ofNat (8 * w) ((promotedXor w currValue prevValue).toNat >>> tz) <<< tz =
      currValue ^^^ prevValue := by
    apply BitVec.eq_of_toNat_eq
    rw [BitVec.toNat_shiftLeft, BitVec.toNat_ofNat,
      Nat.mod_eq_of_lt (lt_of_le_of_lt (Nat.shiftRight_le _ _) hxlt), shiftRight_shiftLeft_of_le htz,
      Nat.mod_eq_of_lt hxlt, toNat_promotedXor hw]
  rw [hv, hshift, BitVec.xor_comm currValue, ← BitVec.xor_assoc, BitVec.xor_self, BitVec.zero_xor]

lemma eq_of_promotedXor_eq_zero {w : ℕ} (hw : WidthFacts w) {currValue prevValue : BitVec (8 * w)}
    (h0 : promotedXor w currValue prevValue = 0) : currValue = prevValue := by
  have hxor : currValue ^^^ prevValue = 0 := by
    apply BitVec.eq_of_toNat_eq
    rw [← toNat_promotedXor hw, h0]
    rfl
  calc currValue = (currValue ^^^ prevValue) ^^^ prevValue := by
        rw [BitVec.xor_assoc, BitVec.xor_self, BitVec.xor_zero]
    _ = prevValue := by
        rw [hxor]
        exact BitVec.zero_xor

lemma decompressItem_spec {w : ℕ} (hw : WidthFacts w) {e d : BinaryValueInfo}
    (he : EncoderWindow w e) (hag : Agree e d) (currValue prevValue : BitVec (8 * w))
    {reader : BitReader} (hr : reader.Valid) (tail : List Bool)
    (hbits : reader.bits = (itemBits w e (promotedXor w currValue prevValue)).1 ++ tail) :
    ∃ d' reader', decompressItem w prevValue d reader = .ok (currValue, d', reader') ∧
      reader'.Valid ∧ reader'.bits = tail ∧
      Agree (itemBits w e (promotedXor w currValue prevValue)).2 d' := by
  have hx := promotedXor_lt hw currValue prevValue
  have hm64 := hw.promoted_le
  rcases itemBits_cases w e (promotedXor w currValue prevValue) with
    ⟨h0, hitem⟩ | ⟨h0, hdb0, hlz, htz, hitem⟩ | ⟨h0, hitem⟩ <;> rw [hitem] at hbits ⊢
  · -- a zero bit: the value repeats
    obtain ⟨h1, hv1, hb1⟩ := BitReader.readBit_spec hr false tail hbits
    refine ⟨d, _, ?_, hv1, hb1, hag⟩
    rw [eq_of_promotedXor_eq_zero hw h0]
    simp [decompressItem, h1]
  · -- prefix 0b10: the decoder reads in its own copy of the window
    obtain ⟨hsum, hdb⟩ : e.leadingZeroBits + e.trailingZeroBits < promotedBits w ∧
        e.dataBits = promotedBits w - e.leadingZeroBits - e.trailingZeroBits := by
      rcases he with hz | ⟨hsum, hdb, -⟩
      · exact absurd hz hdb0
      · exact ⟨hsum, hdb⟩
    rw [List.cons_append, List.cons_append] at hbits
    obtain ⟨h1, hv1, hb1⟩ := BitReader.readBit_spec hr true _ hbits
    obtain ⟨h2, hv2, hb2⟩ := BitReader.readBit_spec hv1 false _ hb1
    obtain ⟨h3, hv3, hb3⟩ := BitReader.readBits_bitsOf_spec hv2
      (show d.dataBits ≤ 64 by rw [hag.1]; omega) _ tail (by rw [hb2, hag.1])
    refine ⟨d, _, ?_, hv3, hb3, hag⟩
    have hne : ¬ (d.leadingZeroBits = 0 ∧ d.dataBits = 0 ∧ d.trailingZeroBits = 0) :=
      fun h => hdb0 (hag.1 ▸ h.2.1)
    simp only [decompressItem, h1, h2, Bool.toNat_true, Bool.toNat_false, if_true, zero_ne_one,
      if_false, if_neg hne, h3]
    rw [hag.1, hag.2, hdb, decodeXor_eq hw hlz htz (by omega)]
  · -- prefix 0b11: a new window, read from the stream
    obtain ⟨hlo, hsum⟩ := clz_bounds hx h0
    have hdb := dataBits_getBinaryValueInfo h0
    rw [List.cons_append, List.cons_append, List.append_assoc, List.append_assoc] at hbits
    obtain ⟨h1, hv1, hb1⟩ := BitReader.readBit_spec hr true _ hbits
    obtain ⟨h2, hv2, hb2⟩ := BitReader.readBit_spec hv1 true _ hb1
    obtain ⟨⟨hwdb, hwtz⟩, hv3, hb3⟩ := readWindow_spec hw hx h0 hv2 _ hb2
    obtain ⟨h4, hv4, hb4⟩ := BitReader.readBits_bitsOf_spec hv3
      (show (readWindow w reader.readBit.2.readBit.2).1.dataBits ≤ 64 by omega) _ tail
      (by rw [hb3, hwdb])
    refine ⟨_, _, ?_, hv4, hb4, hwdb, hwtz⟩
    have hne : ¬ ((readWindow w reader.readBit.2.readBit.2).1.leadingZeroBits = 0 ∧
        (readWindow w reader.readBit.2.readBit.2).1.dataBits = 0 ∧
        (readWindow w reader.readBit.2.readBit.2).1.trailingZeroBits = 0) := by
      rintro ⟨-, hz, -⟩
      omega
    simp only [decompressItem, h1, h2, Bool.toNat_true, if_true, if_neg hne, h4]
    rw [hwdb, hwtz, hdb, trailingZeroBits_getBinaryValueInfo,
      decodeXor_eq hw le_rfl le_rfl (by omega)]

lemma decompressLoop_spec {w : ℕ} (hw : WidthFacts w) (values : List (BitVec (8 * w))) :
    ∀ (prevValue : BitVec (8 * w)) (e d : BinaryValueInfo) (reader : BitReader) (tail : List Bool),
      reader.Valid → reader.bits = encodedBits w prevValue e values ++ tail →
      EncoderWindow w e → Agree e d →
      decompressLoop w values.length prevValue d reader = .ok (storeWords w values) := by
  induction values with
  | nil => intros; rfl
  | cons x xs ih =>
    intro prevValue e d reader tail hr hbits he hag
    have hx := promotedXor_lt hw x prevValue
    rw [encodedBits_cons, List.append_assoc] at hbits
    have heof : reader.eof ≠ true := by
      rw [ne_eq, BitReader.eof_iff, hbits]
      simp [itemBits_ne_nil]
    obtain ⟨d', reader', h1, hv1, hb1, hag1⟩ := decompressItem_spec hw he hag x prevValue hr _ hbits
    rw [List.length_cons, decompressLoop, if_neg heof, h1, ok_bind,
      ih x _ d' reader' tail hv1 hb1 (itemBits_window hw hx he) hag1, ok_bind, storeWords_cons]
    rfl

/-! ### Blocks -/

lemma decompressDataForType_words {w : ℕ} (hw : WidthFacts w) (firstValue : BitVec (8 * w))
    (rest : List (BitVec (8 * w))) (dest : List UInt8) (pad : List Bool)
    (hbytes : byteBits dest = encodedBits w firstValue ⟨0, 0, 0⟩ rest ++ pad)
    (hlen : rest.length + 1 < 256 ^ 4) :
    decompressDataForType w (encodeLE 4 (rest.length + 1) ++ unalignedStoreLittleEndian w firstValue ++
      dest) (w * (rest.length + 1)) = .ok (storeWords w (firstValue :: rest)) := by
  have hcount : decodeLE ((encodeLE 4 (rest.length + 1) ++ unalignedStoreLittleEndian w firstValue ++
      dest).take 4) = rest.length + 1 := by
    rw [List.append_assoc, decodeLE_take_encodeLE _ _ _ hlen]
  have hdrop : (encodeLE 4 (rest.length + 1) ++ unalignedStoreLittleEndian w firstValue ++ dest).drop 4 =
      unalignedStoreLittleEndian w firstValue ++ dest := by
    rw [List.append_assoc, List.drop_left' (length_encodeLE 4 _)]
  have hfirst : ¬ ((unalignedStoreLittleEndian w firstValue ++ dest).length < w ∨
      rest.length + 1 < 1) := by
    rw [List.length_append, length_unalignedStoreLittleEndian]
    omega
  unfold decompressDataForType
  rw [if_neg (by simp)]
  dsimp only
  rw [hcount, hdrop, if_neg hfirst, if_neg (by rw [Nat.mul_comm]; exact Nat.lt_irrefl _), load_store,
    List.drop_left' (length_unalignedStoreLittleEndian w firstValue), Nat.add_sub_cancel,
    decompressLoop_spec hw rest firstValue ⟨0, 0, 0⟩ ⟨0, 0, 0⟩ (BitReader.init dest) pad
      (BitReader.valid_init dest) (by rw [BitReader.bits_init, hbytes]) (Or.inl rfl) ⟨rfl, rfl⟩,
    ok_bind, storeWords_cons]
  rfl

lemma roundTrip_storeWords {w : ℕ} (hw : IsDataBytesSize w) (values : List (BitVec (8 * w)))
    (destSize : ℕ) (hlt : w * values.length < 2 ^ 32)
    (hdest : 4 + w + (values.length * (2 + (getBitLengthOfLength w - 1) + getBitLengthOfLength w +
      8 * w) + 7) / 8 ≤ destSize) :
    ∃ body, compressDataForType w (storeWords w values) destSize = .ok body ∧
      decompressDataForType w body (w * values.length) = .ok (storeWords w values) := by
  have hW := widthFacts hw
  have hpos := hW.pos
  have hdvd : ¬ (storeWords w values).length % w ≠ 0 := by
    rw [length_storeWords, Nat.mul_mod_right]
    exact fun h => h rfl
  have hcount : (storeWords w values).length / w = values.length := by
    rw [length_storeWords, Nat.mul_div_cancel_left _ hpos]
  have hlen4 : values.length < 256 ^ 4 := by
    have h : values.length ≤ w * values.length := Nat.le_mul_of_pos_left _ hpos
    norm_num at hlt ⊢
    omega
  rw [compressDataForType, if_neg hdvd]
  dsimp only
  rw [loadWords_storeWords hpos, hcount]
  rcases values with _ | ⟨firstValue, rest⟩
  · refine ⟨encodeLE 4 0 ++ [], by rw [BitWriter.flush_init, ok_bind]; rfl, ?_⟩
    unfold decompressDataForType
    simp
  · -- the writer gets what the header and the first value leave
    set capacity := destSize - 4 - w with hcapacity
    have henc := length_encodedBits_le hW rest firstValue ⟨0, 0, 0⟩ (Or.inl rfl)
    rw [List.length_cons, Nat.succ_mul] at hdest
    obtain ⟨wr1, h1, hv1, hb1, hd1⟩ := compressLoop_spec hW rest firstValue ⟨0, 0, 0⟩
      (BitWriter.init capacity) (BitWriter.valid_init capacity) (Or.inl rfl) (by
        rw [show (BitWriter.init capacity).count = 0 from rfl, Nat.zero_add, BitWriter.destSize_init]
        omega)
    rw [BitWriter.bits_init, List.nil_append] at hb1
    have hc1 : wr1.count = (encodedBits w firstValue ⟨0, 0, 0⟩ rest).length := by
      rw [← BitWriter.length_bits, hb1]
    obtain ⟨wr2, h2, -, -, hbytes⟩ := BitWriter.flush_spec hv1 (by
      rw [hc1, hd1, BitWriter.destSize_init]
      omega)
    rw [hb1] at hbytes
    refine ⟨_, by dsimp only; rw [h1, ok_bind, h2, ok_bind]; rfl, ?_⟩
    exact decompressDataForType_words hW firstValue rest wr2.dest _ hbytes hlen4

/-! ### The codec -/

lemma getMaxCompressedDataSize_eq (dataBitLength : Option ℕ) {w : ℕ} (hw : w ≤ 8) (n : ℕ)
    (hfit : n / w * (2 + (dataBitLength.getD (getBitLengthOfLength w) - 1) +
      dataBitLength.getD (getBitLengthOfLength w) + w * 8) + 8 < 2 ^ 32) :
    (getMaxCompressedDataSize dataBitLength w n).1 = 2 + w + (4 + w) +
      (n / w * (2 + (dataBitLength.getD (getBitLengthOfLength w) - 1) +
        dataBitLength.getD (getBitLengthOfLength w) + w * 8) + 8) / 8 := by
  simp only [getMaxCompressedDataSize, getCompressedDataSize, getCompressedHeaderSize]
  rw [Nat.mod_eq_of_lt (show n / w * (2 + (dataBitLength.getD (getBitLengthOfLength w) - 1) +
      dataBitLength.getD (getBitLengthOfLength w) + w * 8) < 2 ^ 32 by omega),
    Nat.mod_eq_of_lt hfit, Nat.mod_eq_of_lt (by omega)]

lemma doDecompressData_skipped {b : UInt8} {rest : List UInt8} {n : ℕ} (hb : b.toNat ≠ 0)
    (hlen : 2 + n % b.toNat ≤ (b :: rest).length) (hn : n % b.toNat = n) :
    doDecompressData (b :: rest) n = .ok (((b :: rest).drop 2).take (n % b.toNat)) := by
  unfold doDecompressData
  rw [if_neg (by omega), List.headD_cons, if_neg hb, if_neg (by omega),
    if_neg (by omega), if_pos hn]

lemma doDecompressData_cons {b : UInt8} {rest : List UInt8} {n : ℕ} (hw : IsDataBytesSize b.toNat)
    (hlen : 2 + n % b.toNat ≤ (b :: rest).length) (hn : n % b.toNat ≠ n) :
    doDecompressData (b :: rest) n = (do
      let out ← decompressDataForType b.toNat ((b :: rest).drop (2 + n % b.toNat)) (n - n % b.toNat)
      pure (((b :: rest).drop 2).take (n % b.toNat) ++ out)) := by
  have hpos := pos_of_isDataBytesSize hw
  have hmod := Nat.mod_le n b.toNat
  unfold doDecompressData
  rw [if_neg (by omega), List.headD_cons, if_neg (by omega), if_neg (by omega),
    if_neg (by omega), if_neg hn, if_pos hw]

lemma maxItemSizeBits_le {dataBitLength : Option ℕ} {w : ℕ}
    (hcache : ∀ d ∈ dataBitLength, getBitLengthOfLength w ≤ d) :
    2 + (getBitLengthOfLength w - 1) + getBitLengthOfLength w + 8 * w ≤
      2 + (dataBitLength.getD (getBitLengthOfLength w) - 1) +
        dataBitLength.getD (getBitLengthOfLength w) + w * 8 := by
  have hle : getBitLengthOfLength w ≤ dataBitLength.getD (getBitLengthOfLength w) := by
    cases dataBitLength with
    | none => exact le_rfl
    | some d => exact hcache d rfl
  omega

lemma payloadRoundTrips (dataBitLength : Option ℕ) {dataBytesSize : UInt8}
    (hw : IsDataBytesSize dataBytesSize.toNat)
    (hcache : ∀ d ∈ dataBitLength, getBitLengthOfLength dataBytesSize.toNat ≤ d)
    (source : List UInt8) (hlt : source.length < 2 ^ 32)
    (hfit : source.length / dataBytesSize.toNat *
      (2 + (dataBitLength.getD (getBitLengthOfLength dataBytesSize.toNat) - 1) +
        dataBitLength.getD (getBitLengthOfLength dataBytesSize.toNat) + dataBytesSize.toNat * 8) + 8 <
          2 ^ 32) :
    (compressionCodecGorilla dataBitLength dataBytesSize).PayloadRoundTrips source := by
  have hM := maxItemSizeBits_le hcache
  set w := dataBytesSize.toNat with hwdef
  set words := loadWords w (source.drop (source.length % w)) with hwords
  have hpos := pos_of_isDataBytesSize hw
  have hrest : storeWords w words = source.drop (source.length % w) :=
    storeWords_loadWords _ (length_drop_mod source w)
  have houtput : source.length - source.length % w = w * words.length := by
    rw [← List.length_drop, ← hrest, length_storeWords]
  have hcount : words.length = source.length / w := by
    rw [hwords, length_loadWords, List.length_drop, ← Nat.div_eq_sub_mod_div]
  have hsize := getMaxCompressedDataSize_eq dataBitLength (le_eight_of_isDataBytesSize hw)
    source.length hfit
  -- the writer's share of the bound covers the worst case of every item
  have hdest : 4 + w + (words.length * (2 + (getBitLengthOfLength w - 1) + getBitLengthOfLength w +
      8 * w) + 7) / 8 ≤ (getMaxCompressedDataSize dataBitLength w source.length).1 := by
    have hmul := Nat.mul_le_mul_left words.length hM
    have hdiv : (words.length * (2 + (getBitLengthOfLength w - 1) + getBitLengthOfLength w +
        8 * w) + 7) / 8 ≤ (source.length / w * (2 + (dataBitLength.getD (getBitLengthOfLength w) - 1) +
          dataBitLength.getD (getBitLengthOfLength w) + w * 8) + 8) / 8 :=
      Nat.div_le_div_right (by rw [← hcount]; omega)
    rw [hsize]
    omega
  obtain ⟨body, hc, hd⟩ := roundTrip_storeWords hw words _ (by rw [← houtput]; omega) hdest
  rw [hrest] at hc hd
  refine ⟨_, compressUnaligned_eq (f := fun v source' =>
    compressDataForType v source' (getMaxCompressedDataSize dataBitLength w source.length).1) hw hc, ?_⟩
  have hlen : 2 + source.length % w ≤ (dataBytesSize :: UInt8.ofNat (source.length % w) ::
      (source.take (source.length % w) ++ body)).length := by
    simp only [List.length_cons, List.length_append, length_take_mod]
    omega
  rw [compressionCodecGorilla_doDecompressData]
  by_cases hskip : source.length % w = source.length
  · -- shorter than one word: all of it is in the verbatim prefix
    rw [doDecompressData_skipped (by omega) hlen hskip, take_unaligned, hskip, List.take_length]
  · rw [doDecompressData_cons hw hlen hskip, drop_unaligned, take_unaligned, houtput, hd, ok_bind]
    exact congrArg Except.ok (List.take_append_drop _ source)

theorem compressionCodecGorilla_rejects_empty :
    ¬ (compressionCodecGorilla none 1).RoundTrips [] := by
  obtain ⟨body, hbody, -⟩ := payloadRoundTrips none (show IsDataBytesSize (1 : UInt8).toNat by decide)
    (by simp) [] (by simp) (by simp)
  intro h
  rw [ICompressionCodec.RoundTrips, ICompressionCodec.not_roundTrips_nil hbody] at h
  cases h

theorem compressionCodecGorilla_roundTrips (dataBitLength : Option ℕ) (dataBytesSize : UInt8)
    (hw : IsDataBytesSize dataBytesSize.toNat)
    (hcache : ∀ d ∈ dataBitLength, getBitLengthOfLength dataBytesSize.toNat ≤ d)
    (source : List UInt8) (hne : source ≠ []) (hlt : source.length < 2 ^ 32)
    (hfit : source.length / dataBytesSize.toNat *
      (2 + (dataBitLength.getD (getBitLengthOfLength dataBytesSize.toNat) - 1) +
        dataBitLength.getD (getBitLengthOfLength dataBytesSize.toNat) + dataBytesSize.toNat * 8) + 8 <
          2 ^ 32) :
    (compressionCodecGorilla dataBitLength dataBytesSize).RoundTrips source :=
  ICompressionCodec.roundTrips_of_payload hne hlt
    (payloadRoundTrips dataBitLength hw hcache source hlt hfit)

/-- Width 2 after the statics were set by a width-8 call, on values whose xors take all three
encodings, with one byte left out of the words. -/
theorem compressionCodecGorilla_roundTrips_afterWider :
    IsDataBytesSize (2 : UInt8).toNat ∧
      (∀ d ∈ some 7, getBitLengthOfLength (2 : UInt8).toNat ≤ d) ∧
      [9, 1, 0, 1, 0, 7, 0, 5, 0, 5, 128] ≠ ([] : List UInt8) ∧
      [9, 1, 0, 1, 0, 7, 0, 5, 0, 5, 128].length < 2 ^ 32 ∧
      [9, 1, 0, 1, 0, 7, 0, 5, 0, 5, 128].length / (2 : UInt8).toNat *
        (2 + ((some 7).getD (getBitLengthOfLength (2 : UInt8).toNat) - 1) +
          (some 7).getD (getBitLengthOfLength (2 : UInt8).toNat) + (2 : UInt8).toNat * 8) + 8 < 2 ^ 32 ∧
      (compressionCodecGorilla (some 7) 2).RoundTrips [9, 1, 0, 1, 0, 7, 0, 5, 0, 5, 128] :=
  ⟨by decide, by decide, by simp, by simp, by decide,
    compressionCodecGorilla_roundTrips (some 7) 2 (by decide) (by decide) _ (by simp) (by simp)
      (by decide)⟩

/-- Values whose xors alternate between two windows of 63 meaningful bits, so that every item
after the first takes the `0b11` encoding, at 78 bits for width 8. -/
def alternatingWindowValues (n : ℕ) : List (BitVec 64) :=
  (List.range n).scanl (fun v k => v ^^^ if k % 2 = 0 then BitVec.ofNat 64 0x8000000000000002
    else BitVec.ofNat 64 0x4000000000000001) 0

set_option maxRecDepth 2048 in
/-- A width-1 call first fixes the statics at 4 bits; a width-8 call then budgets 73 bits an item
where 78 are needed, and its writer runs out of room. The same call in a fresh process
compresses and decodes back. -/
theorem compressionCodecGorilla_overflows_after_narrower :
    (doCompressData none 1 [0]).2 = some 4 ∧
      (doCompressData (some 4) 8 (storeWords 8 (alternatingWindowValues 33))).1 =
        .error .cannotWriteAfterEndOfBuffer ∧
      (compressionCodecGorilla none 8).PayloadRoundTrips (storeWords 8 (alternatingWindowValues 33)) :=
  ⟨by decide, by decide,
    payloadRoundTrips none (show IsDataBytesSize (8 : UInt8).toNat by decide) (by simp) _
      (by decide) (by decide)⟩

set_option maxRecDepth 2048 in
/-- Two `0b11` headers for width 1 that no encoder writes: 7 leading zeros and 15 data bits, whose
trailing count `8 - 7 - 15` wraps to 242; and one leading zero with no data bits, which passes the
header check and reads zero bits. Both blocks decode without an exception. -/
theorem gorillaDecoder_accepts_malformed_windows :
    (readWindow 1 (BitReader.init [0xFF, 0xFF, 0xFF]).readBit.2.readBit.2).1 = ⟨7, 15, 242⟩ ∧
      doDecompressData [1, 0, 2, 0, 0, 0, 0, 0xFF, 0xFF, 0xFF] 2 = .ok [0, 0] ∧
      (readWindow 1 (BitReader.init [0xC8, 0x00]).readBit.2.readBit.2).1 = ⟨1, 0, 7⟩ ∧
      doDecompressData [1, 0, 2, 0, 0, 0, 0, 0xC8, 0x00] 2 = .ok [0, 0] := by
  refine ⟨?_, ?_, ?_, ?_⟩ <;> decide

end ClickHouse.Compression.Gorilla
