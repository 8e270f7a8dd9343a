import ClickHouse.Lib.Differences
import ClickHouse.Base.Unaligned
import ClickHouse.Compression.ICompressionCodec
import ClickHouse.Compression.UnalignedBytes

/-! `Compression/CompressionCodecDelta.cpp`: the payload is the width byte, the number of bytes
left out of the words, those bytes verbatim, then the wrapping differences of the words. -/

namespace ClickHouse.Compression.Delta

open ClickHouse.Lib ClickHouse.Lib.Bytes ClickHouse.Lib.Differences ClickHouse.Base
  ClickHouse.Common

def compressLoop (w : ℕ) : BitVec (8 * w) → List (BitVec (8 * w)) → List UInt8
  | _, [] => []
  | prevSrc, currSrc :: rest =>
    unalignedStoreLittleEndian w (currSrc - prevSrc) ++ compressLoop w currSrc rest

def compressDataForType (w : ℕ) (source : List UInt8) : Except ErrorCode (List UInt8) :=
  if source.length % w ≠ 0 then .error .cannotCompress
  else .ok (compressLoop w 0 (loadWords w source))

/-- `room` is `output_end - dest`. -/
def decompressLoop (w : ℕ) : ℕ → BitVec (8 * w) → List (BitVec (8 * w)) →
    Except ErrorCode (List UInt8)
  | _, _, [] => .ok []
  | room, accumulator, d :: rest =>
    if room < w then .error .cannotDecompress
    else do
      let tail ← decompressLoop w (room - w) (accumulator + d) rest
      pure (unalignedStoreLittleEndian w (accumulator + d) ++ tail)

def decompressDataForType (w : ℕ) (source : List UInt8) (outputSize : ℕ) :
    Except ErrorCode (List UInt8) :=
  if source.length % w ≠ 0 then .error .cannotDecompress
  else decompressLoop w outputSize 0 (loadWords w source)

def doCompressData (deltaBytesSize : UInt8) (source : List UInt8) : Except ErrorCode (List UInt8) :=
  compressUnaligned deltaBytesSize compressDataForType source

def doDecompressData (source : List UInt8) (uncompressedSize : ℕ) : Except ErrorCode (List UInt8) :=
  if source.length < 2 then .error .cannotDecompress
  else if uncompressedSize = 0 then .ok []
  else
    let bytesSize := (source.headD 0).toNat
    if ¬ IsDataBytesSize bytesSize then .error .cannotDecompress
    else
      let bytesToSkip := uncompressedSize % bytesSize
      let outputSize := uncompressedSize - bytesToSkip
      if source.length < 2 + bytesToSkip then .error .cannotDecompress
      else do
        let rest ← decompressDataForType bytesSize (source.drop (2 + bytesToSkip)) outputSize
        pure ((source.drop 2).take bytesToSkip ++ rest)

def compressionCodecDelta (deltaBytesSize : UInt8) : ICompressionCodec where
  methodByte := CompressionMethodByte.delta.toUInt8
  doCompressData := doCompressData deltaBytesSize
  doDecompressData := doDecompressData

@[simp] lemma compressionCodecDelta_doCompressData (deltaBytesSize : UInt8) :
    (compressionCodecDelta deltaBytesSize).doCompressData = doCompressData deltaBytesSize := rfl

@[simp] lemma compressionCodecDelta_doDecompressData (deltaBytesSize : UInt8) :
    (compressionCodecDelta deltaBytesSize).doDecompressData = doDecompressData := rfl

lemma compressLoop_eq (w : ℕ) (prev : BitVec (8 * w)) (xs : List (BitVec (8 * w))) :
    compressLoop w prev xs = storeWords w (differences prev xs) := by
  induction xs generalizing prev with
  | nil => rfl
  | cons x xs ih => rw [compressLoop, ih, differences_cons, storeWords_cons]

lemma decompressLoop_eq (w : ℕ) (room : ℕ) (acc : BitVec (8 * w)) (ds : List (BitVec (8 * w)))
    (hroom : w * ds.length ≤ room) :
    decompressLoop w room acc ds = .ok (storeWords w (accumulate acc ds)) := by
  induction ds generalizing room acc with
  | nil => rfl
  | cons d ds ih =>
    have hw : ¬ room < w := by
      rw [List.length_cons, Nat.mul_succ] at hroom
      omega
    have hrest : w * ds.length ≤ room - w := by
      rw [List.length_cons, Nat.mul_succ] at hroom
      omega
    rw [decompressLoop, if_neg hw, ih (room - w) (acc + d) hrest, ok_bind, accumulate_cons,
      storeWords_cons]
    rfl

lemma decompressDataForType_compressLoop {w : ℕ} (hw : 0 < w) (xs : List (BitVec (8 * w))) :
    decompressDataForType w (compressLoop w 0 xs) (w * xs.length) = .ok (storeWords w xs) := by
  have hlen : (compressLoop w 0 xs).length % w = 0 := by
    rw [compressLoop_eq, length_storeWords, Nat.mul_mod_right]
  rw [decompressDataForType, if_neg (by rw [hlen]; exact fun h => h rfl), compressLoop_eq,
    loadWords_storeWords hw, decompressLoop_eq w _ 0 _ (by rw [length_differences]),
    accumulate_differences]

lemma doCompressData_eq {deltaBytesSize : UInt8} (hw : IsDataBytesSize deltaBytesSize.toNat)
    (source : List UInt8) :
    doCompressData deltaBytesSize source =
      .ok (deltaBytesSize :: UInt8.ofNat (source.length % deltaBytesSize.toNat) ::
        (source.take (source.length % deltaBytesSize.toNat) ++
          compressLoop deltaBytesSize.toNat 0
            (loadWords deltaBytesSize.toNat (source.drop (source.length % deltaBytesSize.toNat))))) := by
  have hdvd := length_drop_mod source deltaBytesSize.toNat
  exact compressUnaligned_eq hw (by rw [compressDataForType, if_neg (by rw [hdvd]; exact fun h => h rfl)])

lemma doDecompressData_cons {b : UInt8} {rest : List UInt8} {n : ℕ} (hw : IsDataBytesSize b.toNat)
    (hn : n ≠ 0) (hlen : 2 + n % b.toNat ≤ (b :: rest).length) :
    doDecompressData (b :: rest) n = (do
      let out ← decompressDataForType b.toNat ((b :: rest).drop (2 + n % b.toNat)) (n - n % b.toNat)
      pure (((b :: rest).drop 2).take (n % b.toNat) ++ out)) := by
  unfold doDecompressData
  rw [if_neg (by omega), if_neg hn, List.headD_cons, if_neg (not_not.mpr hw),
    if_neg (by omega)]

lemma payloadRoundTrips {deltaBytesSize : UInt8} (hw : IsDataBytesSize deltaBytesSize.toNat)
    (source : List UInt8) : (compressionCodecDelta deltaBytesSize).PayloadRoundTrips source := by
  refine ⟨_, doCompressData_eq hw source, ?_⟩
  rw [compressionCodecDelta_doDecompressData]
  by_cases hzero : source.length = 0
  · unfold doDecompressData
    rw [if_neg (by simp), if_pos hzero, List.eq_nil_of_length_eq_zero hzero]
  · set w := deltaBytesSize.toNat with hwdef
    set words := loadWords w (source.drop (source.length % w)) with hwords
    have hrest : storeWords w words = source.drop (source.length % w) :=
      storeWords_loadWords _ (length_drop_mod source w)
    have houtput : source.length - source.length % w = w * words.length := by
      rw [← List.length_drop, ← hrest, length_storeWords]
    have hlen : 2 + source.length % w ≤ (deltaBytesSize :: UInt8.ofNat (source.length % w) ::
        (source.take (source.length % w) ++ compressLoop w 0 words)).length := by
      simp only [List.length_cons, List.length_append, length_take_mod]
      omega
    rw [doDecompressData_cons hw hzero hlen, drop_unaligned, take_unaligned, houtput,
      decompressDataForType_compressLoop (pos_of_isDataBytesSize hw), hrest, ok_bind]
    exact congrArg Except.ok (List.take_append_drop _ source)

theorem compressionCodecDelta_rejects_empty :
    ¬ (compressionCodecDelta 1).RoundTrips [] := by
  intro h
  rw [ICompressionCodec.RoundTrips,
    ICompressionCodec.not_roundTrips_nil (doCompressData_eq (show IsDataBytesSize (1 : UInt8).toNat by decide) [])] at h
  cases h

theorem compressionCodecDelta_roundTrips (deltaBytesSize : UInt8)
    (hw : IsDataBytesSize deltaBytesSize.toNat) (source : List UInt8) (hne : source ≠ [])
    (hlt : source.length < 2 ^ 32) : (compressionCodecDelta deltaBytesSize).RoundTrips source :=
  ICompressionCodec.roundTrips_of_payload hne hlt (payloadRoundTrips hw source)

theorem compressionCodecDelta_roundTrips_unaligned :
    IsDataBytesSize (8 : UInt8).toNat ∧ [1, 2, 3] ≠ ([] : List UInt8) ∧
      [1, 2, 3].length < 2 ^ 32 ∧ (compressionCodecDelta 8).RoundTrips [1, 2, 3] :=
  ⟨by decide, by simp, by simp,
    compressionCodecDelta_roundTrips 8 (by decide) [1, 2, 3] (by simp) (by simp)⟩

end ClickHouse.Compression.Delta
