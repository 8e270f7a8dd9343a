import ClickHouse.Lib.Bytes
import ClickHouse.Lib.Except
import ClickHouse.Common.ErrorCodes

/-! `Compression/ICompressionCodec.cpp`: every codec frames its payload with a 9-byte header
(method byte, compressed size with header, decompressed size, sizes little-endian). A codec is
the record of the virtual functions the framing calls; `doDecompressData` returns the bytes it
wrote, and its `UInt32` result is their number. -/

namespace ClickHouse.Compression

open ClickHouse.Lib ClickHouse.Lib.Bytes ClickHouse.Common

/-- `CompressionMethodByte` of `CompressionInfo.h`. -/
inductive CompressionMethodByte
  | none | lz4 | zstd | multiple | delta | t64 | doubleDelta | gorilla
  | aes128GcmSiv | aes256GcmSiv | fpc | gcd | alp
  deriving DecidableEq, Repr

def CompressionMethodByte.toUInt8 : CompressionMethodByte → UInt8
  | .none => 0x02
  | .lz4 => 0x82
  | .zstd => 0x90
  | .multiple => 0x91
  | .delta => 0x92
  | .t64 => 0x93
  | .doubleDelta => 0x94
  | .gorilla => 0x95
  | .aes128GcmSiv => 0x96
  | .aes256GcmSiv => 0x97
  | .fpc => 0x98
  | .gcd => 0x9a
  | .alp => 0x9c

def compressedBlockHeaderSize : ℕ := 9

structure ICompressionCodec where
  methodByte : UInt8
  doCompressData : List UInt8 → Except ErrorCode (List UInt8)
  doDecompressData : List UInt8 → ℕ → Except ErrorCode (List UInt8)
  additionalSizeAtTheEndOfBuffer : ℕ := 0
  decompressionErrorCode : ErrorCode := .corruptedData

namespace ICompressionCodec

/-- The block header written by `compress`: method byte, then the two sizes as `UInt32`. -/
def header (methodByte : UInt8) (compressedSize decompressedSize : ℕ) : List UInt8 :=
  methodByte :: (encodeLE 4 compressedSize ++ encodeLE 4 decompressedSize)

def compress (c : ICompressionCodec) (source : List UInt8) : Except ErrorCode (List UInt8) := do
  let body ← c.doCompressData source
  pure (header c.methodByte (body.length + compressedBlockHeaderSize) source.length ++ body)

def readCompressedBlockSize (c : ICompressionCodec) (source : List UInt8) : Except ErrorCode ℕ :=
  let size := decodeLE ((source.drop 1).take 4)
  if size = 0 then .error c.decompressionErrorCode else .ok size

def readDecompressedBlockSize (c : ICompressionCodec) (source : List UInt8) : Except ErrorCode ℕ :=
  let size := decodeLE ((source.drop 5).take 4)
  if size = 0 then .error c.decompressionErrorCode else .ok size

def decompress (c : ICompressionCodec) (source : List UInt8) : Except ErrorCode (List UInt8) := do
  if source.length < compressedBlockHeaderSize then throw c.decompressionErrorCode
  if source.head? ≠ some c.methodByte then throw c.decompressionErrorCode
  let decompressedSize ← c.readDecompressedBlockSize source
  let dest ← c.doDecompressData (source.drop compressedBlockHeaderSize) decompressedSize
  if decompressedSize ≠ dest.length then throw c.decompressionErrorCode
  pure dest

/-- What a codec is for: decompressing what it compressed gives the input back. -/
def RoundTrips (c : ICompressionCodec) (source : List UInt8) : Prop :=
  (c.compress source >>= c.decompress) = .ok source

/-- The payload a codec writes for `source` decodes back to `source` under its declared size. -/
def PayloadRoundTrips (c : ICompressionCodec) (source : List UInt8) : Prop :=
  ∃ body, c.doCompressData source = .ok body ∧ c.doDecompressData body source.length = .ok source

@[simp] lemma length_header (m : UInt8) (a b : ℕ) : (header m a b).length = compressedBlockHeaderSize := rfl

lemma drop_header_append (m : UInt8) (a b : ℕ) (body : List UInt8) :
    (header m a b ++ body).drop compressedBlockHeaderSize = body :=
  List.drop_left' (length_header m a b)

lemma decodeLE_decompressedSize_header (m : UInt8) (a b : ℕ) (body : List UInt8) :
    decodeLE (((header m a b ++ body).drop 5).take 4) = b % 2 ^ 32 := by
  have hdrop : (header m a b ++ body).drop 5 = encodeLE 4 b ++ body := by
    unfold header
    rw [List.cons_append, show 5 = 4 + 1 from rfl, List.drop_succ_cons, List.append_assoc,
      List.drop_left' (length_encodeLE 4 a)]
  rw [hdrop, List.take_left' (length_encodeLE 4 _), decodeLE_encodeLE]
  rfl

lemma readDecompressedBlockSize_header (c : ICompressionCodec) (m : UInt8) (a b : ℕ)
    (body : List UInt8) :
    c.readDecompressedBlockSize (header m a b ++ body) =
      if b % 2 ^ 32 = 0 then .error c.decompressionErrorCode else .ok (b % 2 ^ 32) := by
  unfold readDecompressedBlockSize
  rw [decodeLE_decompressedSize_header]

/-- A compressed block is a header announcing the input's size, followed by the payload. -/
lemma exists_header_of_compress {c : ICompressionCodec} {source block : List UInt8}
    (h : c.compress source = .ok block) :
    ∃ body, block = header c.methodByte (body.length + compressedBlockHeaderSize) source.length ++ body := by
  obtain ⟨body, -, hblock⟩ := bind_eq_ok.mp h
  exact ⟨body, (Except.ok.inj hblock).symm⟩

lemma compress_of_doCompressData {c : ICompressionCodec} {source body : List UInt8}
    (h : c.doCompressData source = .ok body) :
    c.compress source =
      .ok (header c.methodByte (body.length + compressedBlockHeaderSize) source.length ++ body) := by
  rw [compress, h]
  rfl

lemma decompress_header (c : ICompressionCodec) (a size : ℕ) (body : List UInt8)
    (hsize : c.readDecompressedBlockSize (header c.methodByte a size ++ body) = .ok size) :
    c.decompress (header c.methodByte a size ++ body) = (do
      let dest ← c.doDecompressData body size
      if size ≠ dest.length then throw c.decompressionErrorCode
      pure dest) := by
  have hlen : ¬ (header c.methodByte a size ++ body).length < compressedBlockHeaderSize := by
    simp
  have hhead : ¬ (header c.methodByte a size ++ body).head? ≠ some c.methodByte := not_not.mpr rfl
  unfold decompress
  simp only [if_neg hlen, if_neg hhead, hsize, drop_header_append]
  rfl

/-- What a successful `decompress` returns: the payload's decompression under the size the header
announces, of exactly that size. -/
lemma decompress_eq_ok {c : ICompressionCodec} {source dest : List UInt8}
    (h : c.decompress source = .ok dest) :
    c.doDecompressData (source.drop compressedBlockHeaderSize) (decodeLE ((source.drop 5).take 4)) =
      .ok dest ∧ dest.length = decodeLE ((source.drop 5).take 4) := by
  unfold decompress readDecompressedBlockSize at h
  simp only at h
  split at h
  · cases h
  split at h
  · cases h
  split at h
  · cases h
  rw [ok_bind] at h
  obtain ⟨out, hout, h⟩ := bind_eq_ok.mp h
  split at h
  · cases h
  cases h
  exact ⟨hout, by omega⟩

/-- The framing adds nothing to a codec's own round trip on a non-empty input below `2 ^ 32`. -/
lemma roundTrips_of_payload {c : ICompressionCodec} {source : List UInt8} (hne : source ≠ [])
    (hlt : source.length < 2 ^ 32) (h : c.PayloadRoundTrips source) : c.RoundTrips source := by
  obtain ⟨body, hcomp, hdecomp⟩ := h
  have hpos : source.length % 2 ^ 32 ≠ 0 := by
    rw [Nat.mod_eq_of_lt hlt]
    exact fun h0 => hne (List.eq_nil_of_length_eq_zero h0)
  have hsize := readDecompressedBlockSize_header c c.methodByte
    (body.length + compressedBlockHeaderSize) source.length body
  rw [if_neg hpos, Nat.mod_eq_of_lt hlt] at hsize
  rw [RoundTrips, compress_of_doCompressData hcomp, ok_bind, decompress_header c _ _ body hsize, hdecomp,
    ok_bind, if_neg (by simp)]
  rfl

/-- A zero declared size is refused as a corrupt header, so the empty input never comes back. -/
lemma not_roundTrips_nil {c : ICompressionCodec} {body : List UInt8}
    (h : c.doCompressData [] = .ok body) :
    c.compress [] >>= c.decompress = .error c.decompressionErrorCode := by
  have hsize := readDecompressedBlockSize_header c c.methodByte
    (body.length + compressedBlockHeaderSize) 0 body
  rw [Nat.zero_mod, if_pos rfl] at hsize
  have hlen : ¬ (header c.methodByte (body.length + compressedBlockHeaderSize) 0 ++ body).length <
      compressedBlockHeaderSize := by
    simp
  have hhead : ¬ (header c.methodByte (body.length + compressedBlockHeaderSize) 0 ++ body).head? ≠
      some c.methodByte := not_not.mpr rfl
  rw [compress_of_doCompressData h, ok_bind, List.length_nil]
  unfold decompress
  simp only [if_neg hlen, if_neg hhead]
  rw [hsize]
  rfl

end ICompressionCodec

end ClickHouse.Compression
