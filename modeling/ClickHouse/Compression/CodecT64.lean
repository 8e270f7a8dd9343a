import ClickHouse.Lib.BitPack
import ClickHouse.Lib.HighBits
import ClickHouse.Lib.Folds
import ClickHouse.Base.Unaligned
import ClickHouse.Compression.ICompressionCodec

/-! `Compression/CompressionCodecT64.cpp`: the values are cut into blocks of 64; the header keeps
the minimum and the maximum (as `Int64` or `UInt64`), and of each value only the `num_bits` low
bits that vary are written, as the first rows of the 64-column byte matrix of the block (the
`Bit` variant transposes each row into bit planes). The decoder takes the upper bits from the
minimum, or, for a signed block crossing zero, from the minimum or the maximum by the sign bit.
The unaligned bytes come first, verbatim. The `memcpy` of little-endian words is modelled by
their byte encodings. -/

namespace ClickHouse.Compression.T64

open ClickHouse.Lib ClickHouse.Lib.Bytes ClickHouse.Lib.BitPack ClickHouse.Lib.HighBits ClickHouse.Base
  ClickHouse.Common

inductive Variant
  | byte
  | bit
  deriving DecidableEq, Repr

def Variant.toUInt8 : Variant → UInt8
  | .byte => 0
  | .bit => 1

/-- The type indexes the codec handles; `other` stands for every other one. -/
inductive TypeIndex
  | nothing | uInt8 | uInt16 | uInt32 | uInt64 | int8 | int16 | int32 | int64 | date | date32
  | dateTime | dateTime64 | time | time64 | enum8 | enum16 | decimal32 | decimal64 | iPv4 | other
  deriving DecidableEq, Repr

/-- The `MagicNumber` of a type index. -/
def serializeTypeId : Option TypeIndex → Except ErrorCode UInt8
  | none => .error .cannotCompress
  | some .uInt8 => .ok 1
  | some .uInt16 => .ok 2
  | some .uInt32 => .ok 3
  | some .uInt64 => .ok 4
  | some .int8 => .ok 6
  | some .int16 => .ok 7
  | some .int32 => .ok 8
  | some .int64 => .ok 9
  | some .date => .ok 13
  | some .dateTime => .ok 14
  | some .dateTime64 => .ok 15
  | some .enum8 => .ok 17
  | some .enum16 => .ok 18
  | some .decimal32 => .ok 19
  | some .decimal64 => .ok 20
  | some .iPv4 => .ok 21
  | some .date32 => .ok 22
  | some .time => .ok 23
  | some .time64 => .ok 24
  | some _ => .error .logicalError

def deserializeTypeId (serializedTypeId : UInt8) : Except ErrorCode TypeIndex :=
  match serializedTypeId.toNat with
  | 1 => .ok .uInt8
  | 2 => .ok .uInt16
  | 3 => .ok .uInt32
  | 4 => .ok .uInt64
  | 6 => .ok .int8
  | 7 => .ok .int16
  | 8 => .ok .int32
  | 9 => .ok .int64
  | 13 => .ok .date
  | 22 => .ok .date32
  | 14 => .ok .dateTime
  | 15 => .ok .dateTime64
  | 23 => .ok .time
  | 24 => .ok .time64
  | 17 => .ok .enum8
  | 18 => .ok .enum16
  | 19 => .ok .decimal32
  | 20 => .ok .decimal64
  | 21 => .ok .iPv4
  | _ => .error .incorrectData

def baseType : TypeIndex → TypeIndex
  | .int8 => .int8
  | .int16 => .int16
  | .int32 | .time | .decimal32 | .date32 => .int32
  | .int64 | .decimal64 | .time64 | .dateTime64 => .int64
  | .uInt8 | .enum8 => .uInt8
  | .uInt16 | .enum16 | .date => .uInt16
  | .uInt32 | .dateTime | .iPv4 => .uInt32
  | .uInt64 => .uInt64
  | _ => .nothing

/-- The `T` the switches over `baseType` instantiate: its size and whether it is signed. -/
def baseTypeLayout : TypeIndex → Option (ℕ × Bool)
  | .int8 => some (1, true)
  | .int16 => some (2, true)
  | .int32 => some (4, true)
  | .int64 => some (8, true)
  | .uInt8 => some (1, false)
  | .uInt16 => some (2, false)
  | .uInt32 => some (4, false)
  | .uInt64 => some (8, false)
  | _ => none

/-! ### The bit matrix -/

/-- Word `j` of the result holds bit `j` of byte `i` of the row at bit `i`. -/
def transpose64x8 (src8 : List UInt8) : List ℕ :=
  (List.range 64).foldl (fun dst i =>
    dst.mapIdx fun j d => d ||| (((src8.getD i 0).toNat >>> j) &&& 1) <<< i) (List.replicate 8 0)

def reverseTranspose64x8 (srcDst : List ℕ) : List UInt8 :=
  (List.range 64).map fun i => UInt8.ofNat (orShifted 8 fun j => (srcDst.getD j 0 >>> i) &&& 1)

/-- Row `k` of the byte matrix after `transposeBytes` of every value: `matrix8[64 * k + col]` is
byte `k` of value `col`, zero past the values and past the size of `T`. -/
def matrixRow (w : ℕ) (values : List (BitVec (8 * w))) (k : ℕ) : List UInt8 :=
  (List.range 64).map fun col => (unalignedStoreLittleEndian w (values.getD col 0)).getD k 0

/-- The first `n` of the words, as `memcpy` writes them. -/
def storeWords64 (words : List ℕ) (n : ℕ) : List UInt8 :=
  (List.range n).flatMap fun j => encodeLE 8 (words.getD j 0)

/-- The eight words of a 64-byte row. -/
def loadWords64 (row : List UInt8) : List ℕ :=
  (List.range 8).map fun j => decodeLE ((row.drop (8 * j)).take 8)

/-- `transposeImpl`: the first `num_bits / 8` rows, bit-transposed in the `Bit` variant, then the
low `num_bits % 8` bit planes of the next row. -/
def transpose (w : ℕ) (full : Bool) (values : List (BitVec (8 * w))) (numBits : ℕ) : List UInt8 :=
  let fullBytes := numBits / 8
  let partBits := numBits % 8
  (List.range fullBytes).flatMap (fun byte =>
      if full then storeWords64 (transpose64x8 (matrixRow w values byte)) 8
      else matrixRow w values byte) ++
    if partBits ≠ 0 then storeWords64 (transpose64x8 (matrixRow w values fullBytes)) partBits
    else []

lemma transpose_eq (w : ℕ) (full : Bool) (values : List (BitVec (8 * w))) (numBits : ℕ) :
    transpose w full values numBits =
      (List.range (numBits / 8)).flatMap (fun byte =>
          if full then storeWords64 (transpose64x8 (matrixRow w values byte)) 8
          else matrixRow w values byte) ++
        if numBits % 8 ≠ 0 then storeWords64 (transpose64x8 (matrixRow w values (numBits / 8))) (numBits % 8)
        else [] := rfl

/-- `memcpy(matrix, src, num_bits * sizeof(UInt64))` into the zeroed 512-byte matrix. -/
def copiedMatrix (src : List UInt8) (numBits : ℕ) : List UInt8 :=
  src.take (8 * numBits) ++ List.replicate (512 - 8 * numBits) 0

/-- The 64 bytes of `matrix_line` `k`. -/
def matrixLine (matrix : List UInt8) (k : ℕ) : List UInt8 := (matrix.drop (64 * k)).take 64

lemma matrixLine_eq (matrix : List UInt8) (k : ℕ) : matrixLine matrix k = (matrix.drop (64 * k)).take 64 := rfl

/-- Row `k` after `reverseTransposeImpl` has transposed back the rows the encoder transposed. -/
def reverseRow (full : Bool) (matrix : List UInt8) (numBits k : ℕ) : List UInt8 :=
  if (full = true ∧ k < numBits / 8) ∨ (numBits % 8 ≠ 0 ∧ k = numBits / 8) then
    reverseTranspose64x8 (loadWords64 (matrixLine matrix k))
  else matrixLine matrix k

/-- `reverseTransposeImpl`: the first `tail` values read from their columns by
`reverseTransposeBytes`. -/
def reverseTranspose (w : ℕ) (full : Bool) (src : List UInt8) (numBits tail : ℕ) :
    List (BitVec (8 * w)) :=
  let matrix := copiedMatrix src numBits
  (List.range tail).map fun col =>
    unalignedLoadLittleEndian w ((List.range w).map fun k => (reverseRow full matrix numBits k).getD col 0)

def restoreUpperBits (w : ℕ) (signed : Bool) (upperMin upperMax signBit : BitVec (8 * w))
    (value : BitVec (8 * w)) : BitVec (8 * w) :=
  if signed = true ∧ signBit ≠ 0 then
    if value &&& signBit ≠ 0 then value ||| upperMin else value ||| upperMax
  else value ||| upperMin

/-! ### Minimum, maximum and the bits that vary -/

def getValuableBitsNumber (min max : BitVec 64) : ℕ :=
  let diffBits := min ^^^ max
  if diffBits ≠ 0 then 64 - diffBits.clz.toNat else 0

/-- The `Int64` overload. -/
def getValuableBitsNumberInt64 (min max : BitVec 64) : ℕ :=
  if min.toInt < 0 ∧ 0 ≤ max.toInt then
    if 0 ≤ min.toInt + max.toInt then getValuableBitsNumber 0 max + 1
    else getValuableBitsNumber 0 (~~~min) + 1
  else getValuableBitsNumber min max

/-- The comparison of `T`. -/
def lessThan {n : ℕ} (signed : Bool) (a b : BitVec n) : Bool := if signed then a.slt b else a.ult b

lemma lessThan_false {n : ℕ} (a b : BitVec n) : lessThan false a b = a.ult b := rfl

lemma lessThan_true {n : ℕ} (a b : BitVec n) : lessThan true a b = a.slt b := rfl

def findMinMax (w : ℕ) (signed : Bool) (values : List (BitVec (8 * w))) :
    BitVec (8 * w) × BitVec (8 * w) :=
  values.foldl (fun minMax current =>
      (if lessThan signed current minMax.1 then current else minMax.1,
        if lessThan signed minMax.2 current then current else minMax.2))
    (values.headD 0, values.headD 0)

/-- `MinMaxType`: `Int64` for a signed `T`, `UInt64` otherwise. -/
def toMinMax {w : ℕ} (signed : Bool) (x : BitVec (8 * w)) : BitVec 64 :=
  if signed then x.signExtend 64 else x.setWidth 64

lemma toMinMax_false {w : ℕ} (x : BitVec (8 * w)) : toMinMax false x = x.setWidth 64 := rfl

lemma toMinMax_true {w : ℕ} (x : BitVec (8 * w)) : toMinMax true x = x.signExtend 64 := rfl

def valuableBits (signed : Bool) (min max : BitVec 64) : ℕ :=
  if signed then getValuableBitsNumberInt64 min max else getValuableBitsNumber min max

lemma valuableBits_true (min max : BitVec 64) : valuableBits true min max = getValuableBitsNumberInt64 min max :=
  rfl

/-! ### Blocks -/

/-- The `num_full` blocks of 64 values, then the tail block if there is one. -/
def compressBlocks (w : ℕ) (full : Bool) (numBits : ℕ) :
    ℕ → List (BitVec (8 * w)) → List UInt8
  | 0, tail => if tail.length ≠ 0 then transpose w full tail numBits else []
  | numFull + 1, values =>
    transpose w full (values.take 64) numBits ++ compressBlocks w full numBits numFull (values.drop 64)

lemma compressBlocks_zero (w : ℕ) (full : Bool) (numBits : ℕ) (tail : List (BitVec (8 * w))) :
    compressBlocks w full numBits 0 tail = if tail.length ≠ 0 then transpose w full tail numBits else [] := rfl

lemma compressBlocks_succ (w : ℕ) (full : Bool) (numBits numFull : ℕ) (values : List (BitVec (8 * w))) :
    compressBlocks w full numBits (numFull + 1) values =
      transpose w full (values.take 64) numBits ++ compressBlocks w full numBits numFull (values.drop 64) := rfl

def compressData (w : ℕ) (signed full : Bool) (src : List UInt8) : List UInt8 :=
  let bytesToSkip := src.length % w
  let skipped := src.take bytesToSkip
  let src := src.drop bytesToSkip
  if src.length = 0 then skipped
  else
    let values := loadWords w src
    let minMax := findMinMax w signed values
    let min64 := toMinMax signed minMax.1
    let max64 := toMinMax signed minMax.2
    let header := encodeLE 8 min64.toNat ++ encodeLE 8 max64.toNat
    let numBits := valuableBits signed min64 max64
    if numBits = 0 then skipped ++ header
    else skipped ++ header ++ compressBlocks w full numBits (values.length / 64) values

def decompressBlocks (w : ℕ) (signed full : Bool) (numBits : ℕ)
    (upperMin upperMax signBit : BitVec (8 * w)) : ℕ → List UInt8 → ℕ → List UInt8
  | 0, src, tail =>
    if tail ≠ 0 then
      storeWords w ((reverseTranspose w full src numBits tail).map
        (restoreUpperBits w signed upperMin upperMax signBit))
    else []
  | numFull + 1, src, tail =>
    storeWords w ((reverseTranspose w full src numBits 64).map
        (restoreUpperBits w signed upperMin upperMax signBit)) ++
      decompressBlocks w signed full numBits upperMin upperMax signBit numFull
        (src.drop (8 * numBits)) tail

def decompressData (w : ℕ) (signed full : Bool) (src : List UInt8) (uncompressedSize : ℕ) :
    Except ErrorCode (List UInt8) :=
  let bytesToSkip := uncompressedSize % w
  if src.length < bytesToSkip then .error .cannotDecompress
  else
    let skipped := src.take bytesToSkip
    let uncompressedSize := uncompressedSize - bytesToSkip
    let src := src.drop bytesToSkip
    if uncompressedSize % w ≠ 0 then .error .cannotDecompress
    else if uncompressedSize = 0 then .ok skipped
    else
      let numElements := uncompressedSize / w
      if src.length < 16 then .error .cannotDecompress
      else
        let min : BitVec 64 := BitVec.ofNat 64 (decodeLE (src.take 8))
        let max : BitVec 64 := BitVec.ofNat 64 (decodeLE ((src.drop 8).take 8))
        let src := src.drop 16
        let numBits := valuableBits signed min max
        if numBits = 0 then
          .ok (skipped ++ storeWords w (List.replicate numElements (min.setWidth (8 * w))))
        else
          let srcShift := 8 * numBits
          if src.length = 0 ∨ src.length % srcShift ≠ 0 then .error .cannotDecompress
          else
            let tail := numElements % 64
            let numFull := if tail ≠ 0 then src.length / srcShift - 1 else src.length / srcShift
            if numFull * 64 + tail ≠ numElements then .error .cannotDecompress
            else
              let upperMin := if numBits < 64 then (min >>> numBits <<< numBits).setWidth (8 * w) else 0
              let crossing := signed = true ∧ min.toInt < 0 ∧ 0 ≤ max.toInt ∧ numBits < 64
              let signBit := if crossing then ((1 : BitVec 64) <<< (numBits - 1)).setWidth (8 * w) else 0
              let upperMax :=
                if crossing then (max >>> numBits <<< numBits).setWidth (8 * w) else 0
              .ok (skipped ++
                decompressBlocks w signed full numBits upperMin upperMax signBit numFull src tail)

/-! ### The codec -/

def doCompressData (typeIdx : Option TypeIndex) (variant : Variant) (src : List UInt8) :
    Except ErrorCode (List UInt8) := do
  let typeId ← serializeTypeId typeIdx
  let cookie := typeId ||| variant.toUInt8 <<< 7
  match (typeIdx.map baseType).bind baseTypeLayout with
  | some (w, signed) => .ok (cookie :: compressData w signed (variant = .bit) src)
  | none => .error .cannotCompress

def doDecompressData (src : List UInt8) (uncompressedSize : ℕ) : Except ErrorCode (List UInt8) :=
  match src with
  | [] => .error .cannotDecompress
  | cookie :: src => do
    let savedVariant := cookie >>> 7
    let savedTypeId ← deserializeTypeId (cookie &&& 0x7F)
    match baseTypeLayout (baseType savedTypeId) with
    | some (w, signed) => decompressData w signed (savedVariant = Variant.bit.toUInt8) src uncompressedSize
    | none => .error .cannotDecompress

def compressionCodecT64 (typeIdx : Option TypeIndex) (variant : Variant) : ICompressionCodec where
  methodByte := CompressionMethodByte.t64.toUInt8
  doCompressData := doCompressData typeIdx variant
  doDecompressData := doDecompressData

/-! ### One block through the matrix -/

lemma length_transpose64x8 (src8 : List UInt8) : (transpose64x8 src8).length = 8 := by
  unfold transpose64x8
  rw [length_foldl_mapIdx, List.length_replicate]

lemma getD_transpose64x8 (src8 : List UInt8) {j : ℕ} (hj : j < 8) :
    (transpose64x8 src8).getD j 0 = orShifted 64 fun i => ((src8.getD i 0).toNat >>> j) &&& 1 := by
  unfold transpose64x8
  rw [getD_foldl_mapIdx _ _ _ (by simpa using hj), List.getD_replicate _ hj]
  rfl

lemma testBit_transpose64x8 (src8 : List UInt8) {j : ℕ} (hj : j < 8) (i : ℕ) :
    ((transpose64x8 src8).getD j 0).testBit i =
      (decide (i < 64) && (src8.getD i 0).toNat.testBit j) := by
  rw [getD_transpose64x8 src8 hj, testBit_orShifted (fun i => shiftRight_and_one_lt _ _),
    testBit_zero_shiftRight_and_one]

lemma transpose64x8_lt (src8 : List UInt8) (j : ℕ) : (transpose64x8 src8).getD j 0 < 2 ^ 64 := by
  by_cases hj : j < 8
  · rw [getD_transpose64x8 src8 hj]
    exact orShifted_lt fun i => shiftRight_and_one_lt _ _
  · rw [List.getD_eq_default _ _ (by rw [length_transpose64x8]; omega)]
    norm_num

lemma testBit_reverseTranspose64x8 (srcDst : List ℕ) {i j : ℕ} (hi : i < 64) (hj : j < 8) :
    ((reverseTranspose64x8 srcDst).getD i 0).toNat.testBit j = (srcDst.getD j 0).testBit i := by
  have hlt := orShifted_lt (n := 8) fun j => shiftRight_and_one_lt (srcDst.getD j 0) i
  rw [reverseTranspose64x8, getD_map_range, if_pos hi, UInt8.toNat_ofNat', Nat.mod_eq_of_lt hlt,
    testBit_orShifted (fun j => shiftRight_and_one_lt _ _), testBit_zero_shiftRight_and_one]
  simp [hj]

@[simp] lemma length_matrixRow (w : ℕ) (values : List (BitVec (8 * w))) (k : ℕ) :
    (matrixRow w values k).length = 64 := by
  unfold matrixRow
  simp

lemma testBit_matrixRow (w : ℕ) (values : List (BitVec (8 * w))) (k : ℕ) {col j : ℕ} (hj : j < 8) :
    ((matrixRow w values k).getD col 0).toNat.testBit j =
      (decide (col < 64) && decide (k < w) && (values.getD col 0).toNat.testBit (8 * k + j)) := by
  unfold matrixRow
  rw [getD_map_range]
  split_ifs with hcol
  · rw [unalignedStoreLittleEndian, testBit_getD_encodeLE _ _ _ hj]
    simp [hcol]
  · simp [hcol]

@[simp] lemma length_storeWords64 (words : List ℕ) (n : ℕ) : (storeWords64 words n).length = 8 * n :=
  length_flatMap_range _ (fun _ => length_encodeLE 8 _) n

/-- The words read back from a row holding the first `n` words written and zeros after them. -/
lemma getD_loadWords64 {words : List ℕ} (hwords : ∀ j, words.getD j 0 < 2 ^ 64) {n m : ℕ}
    {j : ℕ} (hj : j < 8) :
    (loadWords64 ((storeWords64 words n ++ List.replicate m 0).take 64)).getD j 0 =
      if j < n then words.getD j 0 else 0 := by
  rw [loadWords64, getD_map_range, if_pos hj, List.drop_take, List.take_take,
    show min 8 (64 - 8 * j) = 8 by omega]
  split_ifs with hjn
  · rw [storeWords64, take_drop_flatMap_range _ (fun j => length_encodeLE 8 _) _ hjn,
      decodeLE_encodeLE, Nat.mod_eq_of_lt (by simpa using hwords j)]
  · rw [List.drop_append, List.drop_of_length_le (by rw [length_storeWords64]; omega), List.nil_append,
      List.drop_replicate, List.take_replicate, decodeLE_replicate_zero]

/-- Each row the encoder writes whole is 64 bytes. -/
lemma length_transposeRow (w : ℕ) (full : Bool) (values : List (BitVec (8 * w))) (byte : ℕ) :
    (if full then storeWords64 (transpose64x8 (matrixRow w values byte)) 8
      else matrixRow w values byte).length = 64 := by
  split_ifs <;> simp

lemma length_transpose (w : ℕ) (full : Bool) (values : List (BitVec (8 * w))) (numBits : ℕ) :
    (transpose w full values numBits).length = 8 * numBits := by
  rw [transpose_eq, List.length_append, length_flatMap_range _ (length_transposeRow w full values)]
  split_ifs <;> simp <;> omega

section Block

variable (w : ℕ) (full : Bool) (values : List (BitVec (8 * w))) (numBits : ℕ) (rest : List UInt8)

lemma copiedMatrix_transpose :
    copiedMatrix (transpose w full values numBits ++ rest) numBits =
      transpose w full values numBits ++ List.replicate (512 - 8 * numBits) 0 := by
  rw [copiedMatrix, List.take_left' (length_transpose w full values numBits)]

/-- The rows the encoder wrote whole. -/
lemma matrixLine_transpose_of_lt {k : ℕ} (hk : k < numBits / 8) :
    matrixLine (copiedMatrix (transpose w full values numBits ++ rest) numBits) k =
      if full then storeWords64 (transpose64x8 (matrixRow w values k)) 8 else matrixRow w values k := by
  rw [copiedMatrix_transpose, transpose_eq, List.append_assoc, matrixLine_eq,
    take_drop_flatMap_range _ (length_transposeRow w full values) _ hk]

/-- The row whose low bit planes the encoder wrote. -/
lemma matrixLine_transpose_self :
    matrixLine (copiedMatrix (transpose w full values numBits ++ rest) numBits) (numBits / 8) =
      ((if numBits % 8 ≠ 0 then
          storeWords64 (transpose64x8 (matrixRow w values (numBits / 8))) (numBits % 8) else []) ++
        List.replicate (512 - 8 * numBits) 0).take 64 := by
  rw [copiedMatrix_transpose, transpose_eq, List.append_assoc, matrixLine_eq,
    List.drop_left' (length_flatMap_range _ (length_transposeRow w full values) _)]

/-- The rows past the planes the encoder wrote are zero. -/
lemma getD_matrixLine_transpose_of_le {k : ℕ} (hk : numBits ≤ 8 * k) (col : ℕ) :
    (matrixLine (copiedMatrix (transpose w full values numBits ++ rest) numBits) k).getD col 0 = 0 := by
  rw [copiedMatrix_transpose, matrixLine_eq, List.drop_append,
    List.drop_of_length_le (by rw [length_transpose]; omega), List.nil_append, List.drop_replicate,
    List.take_replicate]
  by_cases hcol : col < min 64 (512 - 8 * numBits - (64 * k - (transpose w full values numBits).length))
  · exact List.getD_replicate _ hcol
  · exact List.getD_eq_default _ _ (by simp only [List.length_replicate]; omega)

lemma testBit_reverseRow {col k j : ℕ} (hcol : col < 64) (hk : k < w) (hj : j < 8) :
    ((reverseRow full (copiedMatrix (transpose w full values numBits ++ rest) numBits) numBits k).getD
        col 0).toNat.testBit j =
      (decide (8 * k + j < numBits) && (values.getD col 0).toNat.testBit (8 * k + j)) := by
  rcases Nat.lt_trichotomy k (numBits / 8) with hlt | rfl | hgt
  · -- a row the encoder wrote whole, as bit planes or as bytes
    have hin : 8 * k + j < numBits := by omega
    cases full
    · rw [reverseRow, if_neg (by simp [hlt.ne]), matrixLine_transpose_of_lt _ _ _ _ _ hlt, if_neg (by simp),
        testBit_matrixRow _ _ _ hj]
      simp [hcol, hk, hin]
    · have hpad : storeWords64 (transpose64x8 (matrixRow w values k)) 8 =
          (storeWords64 (transpose64x8 (matrixRow w values k)) 8 ++ List.replicate 0 0).take 64 := by
        rw [List.replicate_zero, List.append_nil, List.take_of_length_le (by simp)]
      rw [reverseRow, if_pos (Or.inl ⟨rfl, hlt⟩), matrixLine_transpose_of_lt _ _ _ _ _ hlt, if_pos rfl, hpad,
        testBit_reverseTranspose64x8 _ hcol hj, getD_loadWords64 (transpose64x8_lt _) hj, if_pos hj,
        testBit_transpose64x8 _ hj, testBit_matrixRow _ _ _ hj]
      simp [hcol, hk, hin]
  · -- the row of the last, partial byte of planes
    by_cases hpb : numBits % 8 = 0
    · rw [reverseRow, if_neg (by omega), getD_matrixLine_transpose_of_le _ _ _ _ _ (by omega)]
      simp [show ¬ 8 * (numBits / 8) + j < numBits by omega]
    · rw [reverseRow, if_pos (Or.inr ⟨hpb, rfl⟩), matrixLine_transpose_self, if_pos hpb,
        testBit_reverseTranspose64x8 _ hcol hj, getD_loadWords64 (transpose64x8_lt _) hj]
      split_ifs with hjb
      · rw [testBit_transpose64x8 _ hj, testBit_matrixRow _ _ _ hj]
        simp [hcol, hk, show 8 * (numBits / 8) + j < numBits by omega]
      · simp [show ¬ 8 * (numBits / 8) + j < numBits by omega]
  · rw [reverseRow, if_neg (by omega), getD_matrixLine_transpose_of_le _ _ _ _ _ (by omega)]
    simp [show ¬ 8 * k + j < numBits by omega]

/-- One block through the encoder's matrix and back keeps the low `numBits` bits of every value. -/
lemma reverseTranspose_transpose (hlen : values.length ≤ 64) :
    reverseTranspose w full (transpose w full values numBits ++ rest) numBits values.length =
      values.map fun v => BitVec.ofNat (8 * w) (v.toNat % 2 ^ numBits) := by
  apply List.ext_getElem (by simp [reverseTranspose])
  intro col h1 h2
  have hcol : col < values.length := by simpa using h2
  simp only [reverseTranspose, List.getElem_map, List.getElem_range]
  rw [load_of_testBit values[col]]
  intro k hk j hj
  rw [testBit_reverseRow _ _ _ _ _ (by omega) hk hj, List.getD_eq_getElem _ _ hcol]

end Block

/-! ### The upper bits -/

lemma lessThan_trans {n : ℕ} {signed : Bool} {a b c : BitVec n} (hab : lessThan signed a b = true)
    (hbc : lessThan signed b c = true) : lessThan signed a c = true := by
  cases signed
  · simp only [lessThan_false, BitVec.ult_iff_toNat_lt] at hab hbc ⊢
    omega
  · simp only [lessThan_true, BitVec.slt_iff_toInt_lt] at hab hbc ⊢
    omega

lemma lessThan_irrefl {n : ℕ} (signed : Bool) (a : BitVec n) : lessThan signed a a = false := by
  cases signed <;> simp [lessThan_false, lessThan_true, BitVec.ult, BitVec.slt]

/-- Every value lies between the minimum and the maximum `findMinMax` returns. -/
lemma findMinMax_bounds (w : ℕ) (signed : Bool) (values : List (BitVec (8 * w))) :
    ∀ v ∈ values, lessThan signed v (findMinMax w signed values).1 = false ∧
      lessThan signed (findMinMax w signed values).2 v = false :=
  Folds.foldl_minMax_bounds (lessThan signed) (fun _ _ _ => lessThan_trans) (lessThan_irrefl signed)
    values _ [] (by simp)

lemma getLsbD_toMinMax {w : ℕ} (hw : w ≤ 8) (signed : Bool) (x : BitVec (8 * w)) {i : ℕ}
    (hi : i < 8 * w) : (toMinMax signed x).getLsbD i = x.getLsbD i := by
  cases signed
  · rw [toMinMax_false, BitVec.getLsbD_setWidth]
    simp [show i < 64 by omega]
  · rw [toMinMax_true, BitVec.getLsbD_signExtend]
    simp [hi, show i < 64 by omega]

/-- Widening to `MinMaxType` keeps the order of `T`. -/
lemma lessThan_toMinMax {w : ℕ} (hw : w ≤ 8) (signed : Bool) (x y : BitVec (8 * w)) :
    lessThan signed (toMinMax signed x) (toMinMax signed y) = lessThan signed x y := by
  cases signed
  · have hlt : ∀ z : BitVec (8 * w), z.toNat % 2 ^ 64 = z.toNat := fun z =>
      Nat.mod_eq_of_lt (lt_of_lt_of_le z.isLt (Nat.pow_le_pow_right (by omega) (by omega)))
    simp only [lessThan_false, toMinMax_false, BitVec.ult, BitVec.toNat_setWidth,
      hlt]
  · simp only [lessThan_true, toMinMax_true, BitVec.slt, BitVec.toInt_signExtend_of_le (show 8 * w ≤ 64 by omega)]

lemma toNat_xor_lt_getValuableBitsNumber (min max : BitVec 64) :
    (min ^^^ max).toNat < 2 ^ getValuableBitsNumber min max := by
  rw [getValuableBitsNumber]
  split_ifs with h
  · exact BitVec.toNat_lt_two_pow_sub_clz
  · simp only [ne_eq, Decidable.not_not] at h
    simp [h]

lemma toNat_lt_getValuableBitsNumber_zero (x : BitVec 64) : x.toNat < 2 ^ getValuableBitsNumber 0 x := by
  simpa using toNat_xor_lt_getValuableBitsNumber 0 x

/-- Outside a signed range crossing zero, every value between the bounds has the minimum's bits
from `num_bits` up. -/
lemma agreeFrom_valuableBits {signed : Bool} {min max v : BitVec 64} (hmin : lessThan signed v min = false)
    (hmax : lessThan signed max v = false) (hcross : ¬ (signed = true ∧ min.toInt < 0 ∧ 0 ≤ max.toInt)) :
    AgreeFrom (valuableBits signed min max) v min := by
  cases signed
  · simp only [lessThan_false, BitVec.ult, decide_eq_false_iff_not, not_lt] at hmin hmax
    exact agreeFrom_of_le_of_le hmin hmax (toNat_xor_lt_getValuableBitsNumber min max)
  · simp only [lessThan_true, BitVec.slt, decide_eq_false_iff_not, not_lt] at hmin hmax
    simp only [true_and] at hcross
    rw [valuableBits_true]
    unfold getValuableBitsNumberInt64
    rw [if_neg hcross]
    -- outside a crossing range the three words have one sign
    have hsign : ∀ a b : BitVec 64, min.toInt ≤ a.toInt → b.toInt ≤ max.toInt → a.toInt ≤ b.toInt →
        a.toNat ≤ b.toNat := fun a b ha hb hab =>
      toNat_le_toNat_of_toInt_le (by omega) hab
    exact agreeFrom_of_le_of_le (hsign min v le_rfl hmax hmin) (hsign v max hmin le_rfl hmax)
      (toNat_xor_lt_getValuableBitsNumber min max)

/-- In a signed range crossing zero, `num_bits` is one sign bit over the bits of the maximum
and of the complement of the minimum. -/
lemma crossing_valuableBits {min max : BitVec 64} (hmin : min.toInt < 0) (hmax : 0 ≤ max.toInt) :
    ∃ k, valuableBits true min max = k + 1 ∧ max.toNat < 2 ^ k ∧ (~~~min).toNat < 2 ^ k := by
  have hnot := toNat_not_of_neg hmin
  have hmaxNat := toInt_eq_toNat_of_nonneg hmax
  rw [valuableBits_true]
  unfold getValuableBitsNumberInt64
  rw [if_pos ⟨hmin, hmax⟩]
  split_ifs with hsum
  · refine ⟨_, rfl, toNat_lt_getValuableBitsNumber_zero max, ?_⟩
    have := toNat_lt_getValuableBitsNumber_zero max
    have hle : (~~~min).toNat < max.toNat := by omega
    omega
  · refine ⟨_, rfl, ?_, toNat_lt_getValuableBitsNumber_zero (~~~min)⟩
    have := toNat_lt_getValuableBitsNumber_zero (~~~min)
    have hle : max.toNat ≤ (~~~min).toNat := by omega
    omega

lemma setWidth_shiftLeft_eq_zero {m nb : ℕ} (hm : m ≤ nb) (u : BitVec 64) :
    (u >>> nb <<< nb).setWidth m = 0 := by
  apply BitVec.eq_of_getLsbD_eq
  intro i hi
  rw [BitVec.getLsbD_setWidth, BitVec.getLsbD_shiftLeft]
  simp [show i < nb by omega]

lemma ofNat_toNat_mod_of_le {w nb : ℕ} (h : 8 * w ≤ nb) (v : BitVec (8 * w)) :
    BitVec.ofNat (8 * w) (v.toNat % 2 ^ nb) = v := by
  rw [Nat.mod_eq_of_lt (lt_of_lt_of_le v.isLt (Nat.pow_le_pow_right (by omega) h)), BitVec.ofNat_toNat,
    BitVec.setWidth_eq]

lemma getLsbD_ofNat_toNat_mod {w nb i : ℕ} (v : BitVec (8 * w)) :
    (BitVec.ofNat (8 * w) (v.toNat % 2 ^ nb)).getLsbD i = (decide (i < nb) && v.getLsbD i) := by
  rw [BitVec.getLsbD_ofNat, Nat.testBit_mod_two_pow]
  by_cases hi : i < 8 * w
  · simp [hi, BitVec.getLsbD]
  · simp [hi, BitVec.getLsbD_of_ge v i (by omega)]

/-- The low `num_bits` bits of a value and the upper bits of a word that agrees with it
there make the value. -/
lemma ofNat_or_upper {w nb : ℕ} (hw : w ≤ 8) {signed : Bool} {v : BitVec (8 * w)} {u : BitVec 64}
    (hagree : AgreeFrom nb (toMinMax signed v) u) :
    BitVec.ofNat (8 * w) (v.toNat % 2 ^ nb) ||| (u >>> nb <<< nb).setWidth (8 * w) = v := by
  apply BitVec.eq_of_getLsbD_eq
  intro i hi
  rw [BitVec.getLsbD_or, getLsbD_ofNat_toNat_mod, BitVec.getLsbD_setWidth, BitVec.getLsbD_shiftLeft,
    BitVec.getLsbD_ushiftRight]
  by_cases hnb : i < nb
  · simp [hnb]
  · rw [Nat.add_sub_cancel' (by omega), ← hagree i (by omega), getLsbD_toMinMax hw signed v hi]
    simp [hnb, hi, show i < 64 by omega]

lemma getLsbD_signBit {m k : ℕ} (hm : m ≤ 64) (i : ℕ) :
    (((1 : BitVec 64) <<< k).setWidth m).getLsbD i = (decide (i < m) && decide (i = k)) := by
  rw [BitVec.getLsbD_setWidth, BitVec.getLsbD_shiftLeft]
  by_cases hi : i < m
  · by_cases hik : i = k
    · simp [hik, show k < 64 by omega]
    · by_cases hk : i < k
      · simp [hi, hik, hk]
      · simp [hi, hik, hk, show i - k ≠ 0 by omega]
  · simp [hi]

lemma and_signBit_eq_zero_iff {m k : ℕ} (hm : m ≤ 64) (hk : k < m) (x : BitVec m) :
    x &&& ((1 : BitVec 64) <<< k).setWidth m = 0 ↔ x.getLsbD k = false := by
  constructor
  · intro h
    have h1 := congrArg (fun y => y.getLsbD k) h
    simpa [BitVec.getLsbD_and, getLsbD_signBit hm, hk, show k < 64 by omega] using h1
  · intro h
    apply BitVec.eq_of_getLsbD_eq
    intro i hi
    rw [BitVec.getLsbD_and, getLsbD_signBit hm]
    by_cases hik : i = k
    · simp [hik, h]
    · simp [hik]

/-- The upper bits `decompressData` restores from the header's minimum and maximum are those
of every value between them. -/
lemma restoreUpperBits_ofNat_mod {w : ℕ} (hw : w ≤ 8) {signed : Bool} {min max : BitVec 64}
    {v : BitVec (8 * w)} (hmin : lessThan signed (toMinMax signed v) min = false)
    (hmax : lessThan signed max (toMinMax signed v) = false) {nb : ℕ} (hnb : valuableBits signed min max = nb) :
    restoreUpperBits w signed (if nb < 64 then (min >>> nb <<< nb).setWidth (8 * w) else 0)
        (if signed = true ∧ min.toInt < 0 ∧ 0 ≤ max.toInt ∧ nb < 64 then
          (max >>> nb <<< nb).setWidth (8 * w) else 0)
        (if signed = true ∧ min.toInt < 0 ∧ 0 ≤ max.toInt ∧ nb < 64 then
          ((1 : BitVec 64) <<< (nb - 1)).setWidth (8 * w) else 0)
        (BitVec.ofNat (8 * w) (v.toNat % 2 ^ nb)) = v := by
  by_cases hbig : 8 * w ≤ nb
  · -- every bit of the value was written: the upper masks are empty
    have hupper : ∀ u : BitVec 64, ∀ c : Prop, [Decidable c] →
        (if c then (u >>> nb <<< nb).setWidth (8 * w) else 0) = 0 := by
      intro u c _
      split_ifs <;> simp [setWidth_shiftLeft_eq_zero hbig]
    rw [hupper min, hupper max, ofNat_toNat_mod_of_le hbig, restoreUpperBits]
    split_ifs <;> simp
  have h64 : nb < 64 := by omega
  by_cases hcross : signed = true ∧ min.toInt < 0 ∧ 0 ≤ max.toInt
  · obtain ⟨rfl, hmin0, hmax0⟩ := hcross
    obtain ⟨k, hk, hmaxk, hmink⟩ := crossing_valuableBits hmin0 hmax0
    have hkw : k < 8 * w := by omega
    have hsign : ((1 : BitVec 64) <<< (nb - 1)).setWidth (8 * w) ≠ 0 := by
      intro h
      have h1 : (((1 : BitVec 64) <<< (nb - 1)).setWidth (8 * w)).getLsbD k = true := by
        rw [getLsbD_signBit (by omega), show nb - 1 = k by omega]
        simp [hkw]
      rw [h] at h1
      simp at h1
    have hbit : (BitVec.ofNat (8 * w) (v.toNat % 2 ^ nb)).getLsbD k = (toMinMax true v).getLsbD k := by
      rw [getLsbD_ofNat_toNat_mod, getLsbD_toMinMax hw true v hkw]
      simp [show k < nb by omega]
    have hc : true = true ∧ min.toInt < 0 ∧ 0 ≤ max.toInt ∧ nb < 64 := ⟨rfl, hmin0, hmax0, h64⟩
    rw [if_pos h64, if_pos hc, if_pos hc, restoreUpperBits,
      if_pos ⟨rfl, hsign⟩, show nb - 1 = k by omega]
    simp only [lessThan_true, BitVec.slt, decide_eq_false_iff_not, not_lt] at hmin hmax
    by_cases hv : 0 ≤ (toMinMax true v).toInt
    · -- a value of the sign of the maximum: its sign bit is clear
      have hvk : (toMinMax true v).toNat < 2 ^ k := by
        have := toNat_le_toNat_of_toInt_le (by omega) hmax
        omega
      rw [if_neg (by rw [not_not, and_signBit_eq_zero_iff (by omega) hkw, hbit,
        getLsbD_of_toNat_lt hvk le_rfl])]
      exact ofNat_or_upper hw ((agreeFrom_of_toNat_lt hvk hmaxk).mono (by omega))
    · -- a value of the sign of the minimum: its sign bit is set
      have hvk : (~~~(toMinMax true v)).toNat < 2 ^ k := by
        have h1 := toNat_not_of_neg (show (toMinMax true v).toInt < 0 by omega)
        have h2 := toNat_not_of_neg hmin0
        omega
      rw [if_pos (by rw [ne_eq, and_signBit_eq_zero_iff (by omega) hkw, hbit,
        getLsbD_of_not_lt hvk le_rfl (by omega)]; simp)]
      exact ofNat_or_upper hw ((agreeFrom_of_not_lt hvk hmink).mono (by omega))
  · have hcross' : ¬ (signed = true ∧ min.toInt < 0 ∧ 0 ≤ max.toInt ∧ nb < 64) :=
      fun h => hcross ⟨h.1, h.2.1, h.2.2.1⟩
    rw [if_pos h64, if_neg hcross', if_neg hcross', restoreUpperBits, if_neg (by simp)]
    exact ofNat_or_upper hw (hnb ▸ agreeFrom_valuableBits hmin hmax hcross)

/-! ### The blocks -/

lemma length_compressBlocks (w : ℕ) (full : Bool) (numBits numFull : ℕ) (values : List (BitVec (8 * w)))
    (hlo : 64 * numFull ≤ values.length) :
    (compressBlocks w full numBits numFull values).length =
      8 * numBits * numFull + if values.length ≠ 64 * numFull then 8 * numBits else 0 := by
  induction numFull generalizing values with
  | zero =>
    rw [compressBlocks_zero]
    split_ifs <;> simp_all [length_transpose]
  | succ numFull ih =>
    rw [compressBlocks_succ, List.length_append, length_transpose, ih _ (by simp; omega), List.length_drop]
    have hne : (values.length - 64 ≠ 64 * numFull) = (values.length ≠ 64 * (numFull + 1)) := by
      apply propext
      omega
    simp only [hne]
    split_ifs <;> ring

section Blocks

variable (w : ℕ) (signed full : Bool) (numBits : ℕ) (upperMin upperMax signBit : BitVec (8 * w))

lemma map_restoreUpperBits (values : List (BitVec (8 * w)))
    (hrestore : ∀ v ∈ values, restoreUpperBits w signed upperMin upperMax signBit
      (BitVec.ofNat (8 * w) (v.toNat % 2 ^ numBits)) = v) :
    (values.map fun v => BitVec.ofNat (8 * w) (v.toNat % 2 ^ numBits)).map
      (restoreUpperBits w signed upperMin upperMax signBit) = values := by
  rw [List.map_map]
  conv_rhs => rw [← List.map_id values]
  exact List.map_congr_left hrestore

/-- The decoder's loop over the blocks undoes the encoder's, given that restoring the upper bits
of the low bits of each value gives the value. -/
lemma decompressBlocks_compressBlocks (numFull : ℕ) (values : List (BitVec (8 * w)))
    (hrestore : ∀ v ∈ values, restoreUpperBits w signed upperMin upperMax signBit
      (BitVec.ofNat (8 * w) (v.toNat % 2 ^ numBits)) = v)
    (hlo : 64 * numFull ≤ values.length) (hhi : values.length < 64 * numFull + 64) :
    decompressBlocks w signed full numBits upperMin upperMax signBit numFull
        (compressBlocks w full numBits numFull values) (values.length - 64 * numFull) =
      storeWords w values := by
  induction numFull generalizing values with
  | zero =>
    -- the tail block, if there is one
    rw [compressBlocks_zero, decompressBlocks, Nat.mul_zero, Nat.sub_zero]
    by_cases hnil : values.length = 0
    · rw [if_neg (by omega), List.eq_nil_of_length_eq_zero hnil, storeWords_nil]
    · rw [if_pos hnil, if_pos hnil, ← List.append_nil (transpose w full values numBits),
        reverseTranspose_transpose _ _ _ _ _ (by omega), map_restoreUpperBits _ _ _ _ _ _ _ hrestore]
  | succ numFull ih =>
    -- a full block of 64 values, then the rest
    have h64 : (values.take 64).length = 64 := by simp; omega
    have hblock := reverseTranspose_transpose w full (values.take 64) numBits
      (compressBlocks w full numBits numFull (values.drop 64)) (by omega)
    rw [h64] at hblock
    have hrest : (values.drop 64).length - 64 * numFull = values.length - 64 * (numFull + 1) := by
      simp only [List.length_drop]
      omega
    rw [compressBlocks_succ, decompressBlocks, hblock, List.drop_left' (length_transpose _ _ _ _),
      map_restoreUpperBits _ _ _ _ _ _ _ fun v hv => hrestore v (List.mem_of_mem_take hv), ← hrest,
      ih _ (fun v hv => hrestore v (List.mem_of_mem_drop hv)) (by simp; omega) (by simp; omega),
      ← storeWords_append, List.take_append_drop]

end Blocks

/-! ### The codec -/

lemma setWidth_toMinMax {w : ℕ} (hw : w ≤ 8) (signed : Bool) (x : BitVec (8 * w)) :
    (toMinMax signed x).setWidth (8 * w) = x := by
  apply BitVec.eq_of_getLsbD_eq
  intro i hi
  rw [BitVec.getLsbD_setWidth, getLsbD_toMinMax hw signed x hi]
  simp [hi]

lemma toMinMax_findMinMax_bounds {w : ℕ} (hw : w ≤ 8) (signed : Bool) (values : List (BitVec (8 * w))) :
    ∀ v ∈ values,
      lessThan signed (toMinMax signed v) (toMinMax signed (findMinMax w signed values).1) = false ∧
        lessThan signed (toMinMax signed (findMinMax w signed values).2) (toMinMax signed v) = false := by
  intro v hv
  rw [lessThan_toMinMax hw, lessThan_toMinMax hw]
  exact findMinMax_bounds w signed values v hv

/-- A block with no valuable bits is the minimum, repeated. -/
lemma eq_replicate_of_valuableBits_eq_zero {w : ℕ} (hw : w ≤ 8) {signed : Bool} {min max : BitVec 64}
    {values : List (BitVec (8 * w))}
    (hbounds : ∀ v ∈ values, lessThan signed (toMinMax signed v) min = false ∧
      lessThan signed max (toMinMax signed v) = false)
    (hzero : valuableBits signed min max = 0) :
    values = List.replicate values.length (min.setWidth (8 * w)) := by
  have hcross : ¬ (signed = true ∧ min.toInt < 0 ∧ 0 ≤ max.toInt) := by
    rintro ⟨rfl, hmin, hmax⟩
    obtain ⟨k, hk, -⟩ := crossing_valuableBits hmin hmax
    omega
  refine List.eq_replicate_iff.mpr ⟨rfl, fun v hv => ?_⟩
  obtain ⟨hlo, hhi⟩ := hbounds v hv
  have hagree := agreeFrom_valuableBits hlo hhi hcross
  rw [hzero] at hagree
  rw [← hagree.eq, setWidth_toMinMax hw]

lemma decode_header (min max : BitVec 64) (rest : List UInt8) :
    BitVec.ofNat 64 (decodeLE ((encodeLE 8 min.toNat ++ encodeLE 8 max.toNat ++ rest).take 8)) = min ∧
      BitVec.ofNat 64 (decodeLE (((encodeLE 8 min.toNat ++ encodeLE 8 max.toNat ++ rest).drop 8).take 8)) =
        max ∧
      (encodeLE 8 min.toNat ++ encodeLE 8 max.toNat ++ rest).drop 16 = rest := by
  have hlt : ∀ x : BitVec 64, x.toNat < 256 ^ 8 := fun x => by simpa using x.isLt
  rw [List.append_assoc, List.drop_left' (length_encodeLE 8 _), decodeLE_take_encodeLE _ _ _ (hlt min),
    decodeLE_take_encodeLE _ _ _ (hlt max), show 16 = 8 + 8 from rfl, ← List.drop_drop,
    List.drop_left' (length_encodeLE 8 _), List.drop_left' (length_encodeLE 8 _)]
  simp

/-- The blocks take a positive multiple of a block's size, and the count of full blocks the
decoder infers from their size is the encoder's. -/
lemma numFull_compressBlocks (w : ℕ) (full : Bool) {nb : ℕ} (hnb : nb ≠ 0) (values : List (BitVec (8 * w)))
    (hpos : values.length ≠ 0) :
    ¬ ((compressBlocks w full nb (values.length / 64) values).length = 0 ∨
        (compressBlocks w full nb (values.length / 64) values).length % (8 * nb) ≠ 0) ∧
      (if values.length % 64 ≠ 0 then
          (compressBlocks w full nb (values.length / 64) values).length / (8 * nb) - 1
        else (compressBlocks w full nb (values.length / 64) values).length / (8 * nb)) =
        values.length / 64 := by
  have hB : (compressBlocks w full nb (values.length / 64) values).length =
      8 * nb * (values.length / 64 + if values.length % 64 ≠ 0 then 1 else 0) := by
    rw [length_compressBlocks _ _ _ _ _ (by omega)]
    split_ifs <;> first | omega | ring
  constructor
  · have hk : values.length / 64 + (if values.length % 64 ≠ 0 then 1 else 0) ≠ 0 := by
      split_ifs <;> omega
    rw [hB, Nat.mul_mod_right]
    exact not_or.mpr ⟨Nat.mul_ne_zero (by omega) hk, fun h => h rfl⟩
  · rw [hB, Nat.mul_div_cancel_left _ (by omega)]
    split_ifs <;> omega

theorem decompressData_compressData {w : ℕ} (hw0 : 0 < w) (hw8 : w ≤ 8) (signed full : Bool)
    (src : List UInt8) :
    decompressData w signed full (compressData w signed full src) src.length = .ok src := by
  have hskip : (src.take (src.length % w)).length = src.length % w := by
    rw [List.length_take]
    exact Nat.min_eq_left (Nat.mod_le _ _)
  have hdvd : (src.length - src.length % w) % w = 0 := Nat.sub_mod_eq_zero_of_mod_eq (Nat.mod_mod _ _).symm
  rw [compressData]
  dsimp only
  have hfit : ¬ (src.take (src.length % w)).length < src.length % w := by omega
  have hrem : ¬ (src.length - src.length % w) % w ≠ 0 := not_not.mpr hdvd
  by_cases hz : (src.drop (src.length % w)).length = 0
  · -- nothing but the unaligned bytes
    rw [List.length_drop] at hz
    rw [if_pos (by rw [List.length_drop]; exact hz), decompressData]
    dsimp only
    rw [if_neg hfit, if_neg hrem, if_pos hz, List.take_take, min_self,
      List.take_of_length_le (by omega)]
  · rw [if_neg hz]
    generalize hvalues : loadWords w (src.drop (src.length % w)) = values
    have hbounds := toMinMax_findMinMax_bounds hw8 signed values
    generalize toMinMax signed (findMinMax w signed values).1 = min at hbounds ⊢
    generalize toMinMax signed (findMinMax w signed values).2 = max at hbounds ⊢
    generalize hnb : valuableBits signed min max = nb
    have hlen : values.length = (src.length - src.length % w) / w := by
      rw [← hvalues, length_loadWords, List.length_drop]
    have hstore : storeWords w values = src.drop (src.length % w) := by
      rw [← hvalues, storeWords_loadWords]
      rw [List.length_drop]
      exact hdvd
    have hz' : ¬ src.length - src.length % w = 0 := by rwa [List.length_drop] at hz
    have hfit' : ∀ rest : List UInt8, ¬ (src.take (src.length % w) ++ rest).length < src.length % w :=
      fun rest => by rw [List.length_append]; omega
    have h16 : ∀ rest : List UInt8, ¬ (encodeLE 8 min.toNat ++ encodeLE 8 max.toNat ++ rest).length < 16 :=
      fun rest => by simp
    by_cases hnb0 : nb = 0
    · -- every value is the minimum
      rw [if_pos hnb0, ← List.append_nil (encodeLE 8 min.toNat ++ encodeLE 8 max.toNat)]
      obtain ⟨hmin, hmax, -⟩ := decode_header min max []
      rw [decompressData]
      dsimp only
      rw [if_neg (hfit' _), List.take_left' hskip, List.drop_left' hskip, if_neg hrem, if_neg hz', if_neg (h16 _),
        hmin, hmax, hnb, if_pos hnb0, ← hlen, ← eq_replicate_of_valuableBits_eq_zero hw8 hbounds (hnb.trans hnb0),
        hstore, List.take_append_drop]
    · rw [if_neg hnb0, List.append_assoc]
      obtain ⟨hmin, hmax, hrest⟩ := decode_header min max (compressBlocks w full nb (values.length / 64) values)
      rw [decompressData]
      dsimp only
      rw [if_neg (hfit' _), List.take_left' hskip, List.drop_left' hskip, if_neg hrem, if_neg hz', if_neg (h16 _),
        hmin, hmax, hrest, hnb, if_neg hnb0, ← hlen]
      -- the block count the decoder infers from the size is the encoder's
      have hpos : values.length ≠ 0 := by
        have hle : w ≤ src.length - src.length % w := Nat.le_of_dvd (by omega) (Nat.dvd_of_mod_eq_zero hdvd)
        have := Nat.div_pos hle hw0
        omega
      obtain ⟨hsize, hnumFull⟩ := numFull_compressBlocks w full hnb0 values hpos
      rw [if_neg hsize, hnumFull, if_neg (by omega),
        show values.length % 64 = values.length - 64 * (values.length / 64) by omega,
        decompressBlocks_compressBlocks _ _ _ _ _ _ _ _ _
          (fun v hv => restoreUpperBits_ofNat_mod hw8 (hbounds v hv).1 (hbounds v hv).2 hnb) (by omega)
          (by omega),
        hstore, List.take_append_drop]

lemma serializeTypeId_of_baseTypeLayout {t : TypeIndex} (h : baseTypeLayout (baseType t) ≠ none) :
    ∃ typeId, serializeTypeId (some t) = .ok typeId := by
  cases t <;> delta baseType baseTypeLayout serializeTypeId at h ⊢ <;> simp_all

lemma width_of_baseTypeLayout {t : TypeIndex} {w : ℕ} {signed : Bool}
    (h : baseTypeLayout t = some (w, signed)) : 0 < w ∧ w ≤ 8 := by
  cases t <;> delta baseTypeLayout at h <;> simp at h <;> omega

/-- The cookie keeps the type id in its low seven bits and the variant in the high one. -/
lemma decode_cookie {t : TypeIndex} {typeId : UInt8} (h : serializeTypeId (some t) = .ok typeId)
    (variant : Variant) :
    decide ((typeId ||| variant.toUInt8 <<< 7) >>> 7 = Variant.bit.toUInt8) = decide (variant = .bit) ∧
      deserializeTypeId ((typeId ||| variant.toUInt8 <<< 7) &&& 0x7F) = .ok t := by
  cases t <;> delta serializeTypeId at h <;> simp only [Except.ok.injEq, reduceCtorEq] at h <;> subst h <;>
    cases variant <;> decide

lemma payloadRoundTrips {t : TypeIndex} (hlayout : baseTypeLayout (baseType t) ≠ none) (variant : Variant)
    (source : List UInt8) : (compressionCodecT64 (some t) variant).PayloadRoundTrips source := by
  obtain ⟨typeId, hser⟩ := serializeTypeId_of_baseTypeLayout hlayout
  obtain ⟨⟨w, signed⟩, hl⟩ := Option.ne_none_iff_exists'.mp hlayout
  obtain ⟨hw0, hw8⟩ := width_of_baseTypeLayout hl
  obtain ⟨hvariant, htype⟩ := decode_cookie hser variant
  refine ⟨(typeId ||| variant.toUInt8 <<< 7) :: compressData w signed (variant = .bit) source, ?_, ?_⟩
  · simp only [compressionCodecT64, doCompressData, hser, Option.map_some, Option.bind_some, hl]
    rfl
  · simp only [compressionCodecT64, doDecompressData, htype, hvariant, ok_bind, hl]
    exact decompressData_compressData hw0 hw8 signed _ source

theorem compressionCodecT64_rejects_empty : ¬ (compressionCodecT64 (some .int8) .byte).RoundTrips [] := by
  obtain ⟨body, hbody, -⟩ := payloadRoundTrips (t := .int8) (by decide) .byte []
  intro h
  rw [ICompressionCodec.RoundTrips, ICompressionCodec.not_roundTrips_nil hbody] at h
  cases h

theorem compressionCodecT64_roundTrips (t : TypeIndex) (hlayout : baseTypeLayout (baseType t) ≠ none)
    (variant : Variant) (source : List UInt8) (hne : source ≠ []) (hlt : source.length < 2 ^ 32) :
    (compressionCodecT64 (some t) variant).RoundTrips source :=
  ICompressionCodec.roundTrips_of_payload hne hlt (payloadRoundTrips hlayout variant source)

/-- A signed block crossing zero, after one unaligned byte, through the bit-transposing variant. -/
theorem compressionCodecT64_roundTrips_crossing :
    baseTypeLayout (baseType .decimal32) ≠ none ∧ [7, 0xFE, 0xFF, 0xFF, 0xFF, 3, 0, 0, 0] ≠ ([] : List UInt8) ∧
      [7, 0xFE, 0xFF, 0xFF, 0xFF, 3, 0, 0, 0].length < 2 ^ 32 ∧
      (compressionCodecT64 (some .decimal32) .bit).RoundTrips [7, 0xFE, 0xFF, 0xFF, 0xFF, 3, 0, 0, 0] :=
  ⟨by decide, by simp, by simp,
    compressionCodecT64_roundTrips .decimal32 (by decide) .bit _ (by simp) (by simp)⟩

end ClickHouse.Compression.T64
