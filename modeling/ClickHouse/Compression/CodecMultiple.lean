import ClickHouse.Compression.CodecDelta
import ClickHouse.Compression.CodecT64

/-! `Compression/CompressionCodecMultiple.cpp`: a chain of codecs applied one after another. The
payload is the number of codecs, their method bytes and the outermost block. Decompression asks
`CompressionCodecFactory::get(uint8_t)`, here the parameter `get`, for a codec by each method byte
and undoes the chain from the last codec back, guarding every buffer by `1_GiB`. -/

namespace ClickHouse.Compression.Multiple

open ClickHouse.Lib ClickHouse.Lib.Bytes ClickHouse.Common

def oneGiB : ℕ := 2 ^ 30

def doCompressData (codecs : List ICompressionCodec) (source : List UInt8) :
    Except ErrorCode (List UInt8) := do
  let uncompressedBuf ← codecs.foldlM (fun buf codec => codec.compress buf) source
  pure (UInt8.ofNat codecs.length :: (codecs.map (fun codec => codec.methodByte) ++ uncompressedBuf))

/-- The loop of `doDecompressData`, from `idx` down to `0`. `compressedBuf` holds the
`source_size` bytes in use; `compressedBufSize` is `compressed_buf.size()`, which counts the tail
room reserved by the codec of the previous round. -/
def decompressLoop (get : UInt8 → Except ErrorCode ICompressionCodec) (source : List UInt8)
    (decompressedSize : ℕ) : ℕ → List UInt8 → ℕ → Except ErrorCode (List UInt8)
  | 0, compressedBuf, _ => .ok compressedBuf
  | idx + 1, compressedBuf, compressedBufSize => do
    let codec ← get (source.getD (idx + 1) 0)
    let additionalSize := codec.additionalSizeAtTheEndOfBuffer
    if oneGiB ≤ compressedBufSize then .error .corruptedData
    else if compressedBuf.length < compressedBlockHeaderSize then .error .corruptedData
    else if 2 ^ 32 ≤ compressedBufSize + additionalSize then .error .corruptedData
    else
      -- `readDecompressedBlockSize` of the block, with this codec's error code
      let uncompressedSize := decodeLE ((compressedBuf.drop 5).take 4)
      if uncompressedSize = 0 then .error .corruptedData
      else if oneGiB ≤ uncompressedSize then .error .corruptedData
      else if idx = 0 ∧ uncompressedSize ≠ decompressedSize then .error .corruptedData
      else if 2 ^ 32 ≤ uncompressedSize + additionalSize then .error .corruptedData
      else do
        let uncompressedBuf ← codec.decompress compressedBuf
        decompressLoop get source decompressedSize idx uncompressedBuf
          (uncompressedSize + additionalSize)

/-- One round of the loop; the lemmas below unfold the loop only through this one. -/
lemma decompressLoop_add_one (get : UInt8 → Except ErrorCode ICompressionCodec) (source : List UInt8)
    (decompressedSize idx : ℕ) (compressedBuf : List UInt8) (compressedBufSize : ℕ) :
    decompressLoop get source decompressedSize (idx + 1) compressedBuf compressedBufSize =
      get (source.getD (idx + 1) 0) >>= fun codec =>
        if oneGiB ≤ compressedBufSize then .error .corruptedData
        else if compressedBuf.length < compressedBlockHeaderSize then .error .corruptedData
        else if 2 ^ 32 ≤ compressedBufSize + codec.additionalSizeAtTheEndOfBuffer then .error .corruptedData
        else if decodeLE ((compressedBuf.drop 5).take 4) = 0 then .error .corruptedData
        else if oneGiB ≤ decodeLE ((compressedBuf.drop 5).take 4) then .error .corruptedData
        else if idx = 0 ∧ decodeLE ((compressedBuf.drop 5).take 4) ≠ decompressedSize then .error .corruptedData
        else if 2 ^ 32 ≤ decodeLE ((compressedBuf.drop 5).take 4) + codec.additionalSizeAtTheEndOfBuffer then
          .error .corruptedData
        else codec.decompress compressedBuf >>= fun uncompressedBuf =>
          decompressLoop get source decompressedSize idx uncompressedBuf
            (decodeLE ((compressedBuf.drop 5).take 4) + codec.additionalSizeAtTheEndOfBuffer) :=
  rfl

def doDecompressData (get : UInt8 → Except ErrorCode ICompressionCodec) (source : List UInt8)
    (decompressedSize : ℕ) : Except ErrorCode (List UInt8) :=
  if source.length < 1 ∨ source.headD 0 = 0 then .error .corruptedData
  else
    let compressionMethodsSize := (source.headD 0).toNat
    if source.length < compressionMethodsSize + 1 then .error .corruptedData
    else do
      let compressedBuf := source.drop (compressionMethodsSize + 1)
      let compressedBuf ← decompressLoop get source decompressedSize compressionMethodsSize
        compressedBuf compressedBuf.length
      pure (compressedBuf.take decompressedSize)

def compressionCodecMultiple (get : UInt8 → Except ErrorCode ICompressionCodec)
    (codecs : List ICompressionCodec) : ICompressionCodec where
  methodByte := CompressionMethodByte.multiple.toUInt8
  doCompressData := doCompressData codecs
  doDecompressData := doDecompressData get

@[simp] lemma compressionCodecMultiple_doCompressData (get : UInt8 → Except ErrorCode ICompressionCodec)
    (codecs : List ICompressionCodec) :
    (compressionCodecMultiple get codecs).doCompressData = doCompressData codecs := rfl

@[simp] lemma compressionCodecMultiple_doDecompressData (get : UInt8 → Except ErrorCode ICompressionCodec)
    (codecs : List ICompressionCodec) :
    (compressionCodecMultiple get codecs).doDecompressData = doDecompressData get := rfl

/-- One round of the loop whose guards all pass hands the block to the codec's `decompress`. -/
lemma decompressLoop_succ {get : UInt8 → Except ErrorCode ICompressionCodec} {source : List UInt8}
    {decompressedSize idx : ℕ} {compressedBuf : List UInt8} {compressedBufSize : ℕ}
    {codec : ICompressionCodec} (hget : get (source.getD (idx + 1) 0) = .ok codec)
    (hsize : compressedBufSize < oneGiB) (hheader : compressedBlockHeaderSize ≤ compressedBuf.length)
    (hroom : compressedBufSize + codec.additionalSizeAtTheEndOfBuffer < 2 ^ 32)
    (hpos : decodeLE ((compressedBuf.drop 5).take 4) ≠ 0)
    (hlt : decodeLE ((compressedBuf.drop 5).take 4) < oneGiB)
    (hlast : idx = 0 → decodeLE ((compressedBuf.drop 5).take 4) = decompressedSize)
    (hroom' : decodeLE ((compressedBuf.drop 5).take 4) + codec.additionalSizeAtTheEndOfBuffer < 2 ^ 32) :
    decompressLoop get source decompressedSize (idx + 1) compressedBuf compressedBufSize =
      (codec.decompress compressedBuf >>= fun uncompressedBuf =>
        decompressLoop get source decompressedSize idx uncompressedBuf
          (decodeLE ((compressedBuf.drop 5).take 4) + codec.additionalSizeAtTheEndOfBuffer)) := by
  rw [decompressLoop_add_one, hget, ok_bind]
  rw [if_neg (by omega), if_neg (by omega), if_neg (by omega), if_neg hpos, if_neg (by omega),
    if_neg (fun h => h.2 (hlast h.1)), if_neg (by omega)]

/-- A round that does not fail passed the guards and decompressed its block. -/
lemma decompressLoop_add_one_eq_ok {get : UInt8 → Except ErrorCode ICompressionCodec}
    {source : List UInt8} {decompressedSize idx : ℕ} {compressedBuf : List UInt8}
    {compressedBufSize : ℕ} {out : List UInt8}
    (h : decompressLoop get source decompressedSize (idx + 1) compressedBuf compressedBufSize = .ok out) :
    ∃ (codec : ICompressionCodec) (uncompressedBuf : List UInt8),
      codec.decompress compressedBuf = .ok uncompressedBuf ∧
      decodeLE ((compressedBuf.drop 5).take 4) < oneGiB ∧
      decompressLoop get source decompressedSize idx uncompressedBuf
        (decodeLE ((compressedBuf.drop 5).take 4) + codec.additionalSizeAtTheEndOfBuffer) = .ok out := by
  rw [decompressLoop_add_one] at h
  obtain ⟨codec, -, h⟩ := bind_eq_ok.mp h
  split_ifs at h with h1 h2 h3 h4 h5
  obtain ⟨uncompressedBuf, hdecompress, hloop⟩ := bind_eq_ok.mp h
  exact ⟨codec, uncompressedBuf, hdecompress, by omega, hloop⟩

/-- The last round hands back a block of the size its header announces, which the guard keeps
below `1_GiB`. -/
lemma length_lt_of_decompressLoop {get : UInt8 → Except ErrorCode ICompressionCodec}
    {source : List UInt8} {decompressedSize : ℕ} (idx : ℕ) :
    ∀ compressedBuf compressedBufSize out,
      decompressLoop get source decompressedSize (idx + 1) compressedBuf compressedBufSize = .ok out →
      out.length < oneGiB := by
  induction idx with
  | zero =>
    intro compressedBuf compressedBufSize out h
    obtain ⟨codec, uncompressedBuf, hdecompress, hlt, hloop⟩ := decompressLoop_add_one_eq_ok h
    cases hloop
    rw [(ICompressionCodec.decompress_eq_ok hdecompress).2]
    exact hlt
  | succ idx ih =>
    intro compressedBuf compressedBufSize out h
    obtain ⟨codec, uncompressedBuf, -, -, hloop⟩ := decompressLoop_add_one_eq_ok h
    exact ih _ _ _ hloop

lemma length_lt_of_doDecompressData {get : UInt8 → Except ErrorCode ICompressionCodec}
    {source : List UInt8} {decompressedSize : ℕ} {out : List UInt8}
    (h : doDecompressData get source decompressedSize = .ok out) : out.length < oneGiB := by
  rw [doDecompressData] at h
  dsimp only at h
  split_ifs at h with hhead
  obtain ⟨loopOut, hloop, h⟩ := bind_eq_ok.mp h
  cases h
  obtain ⟨idx, hidx⟩ : ∃ idx, (source.headD 0).toNat = idx + 1 :=
    Nat.exists_eq_add_one.mpr (Nat.pos_of_ne_zero (fun h0 => hhead (.inr (UInt8.toNat_inj.mp h0))))
  rw [hidx] at hloop
  calc (loopOut.take decompressedSize).length ≤ loopOut.length := List.length_take_le' _ _
    _ < oneGiB := length_lt_of_decompressLoop idx _ _ _ hloop

/-! ### The chain of blocks -/

/-- The block `doCompressData` holds after the first `n` codecs. -/
def stage (codecs : List ICompressionCodec) (source : List UInt8) (n : ℕ) :
    Except ErrorCode (List UInt8) :=
  (codecs.take n).foldlM (fun buf codec => codec.compress buf) source

/-- The tail room `doDecompressData` reserves after the block of stage `n`: that of the codec the
factory returns for codec `n`, which writes that block; none after the outermost block. -/
def tailRoom (get : UInt8 → Except ErrorCode ICompressionCodec) (codecs : List ICompressionCodec)
    (n : ℕ) : ℕ :=
  match codecs[n]? with
  | some codec =>
    match get codec.methodByte with
    | .ok decoder => decoder.additionalSizeAtTheEndOfBuffer
    | .error _ => 0
  | none => 0

/-- The guards of `doDecompressData` on the compressed side: every block of the chain, with its
tail room, is below `1_GiB`. -/
def BuffersFit (get : UInt8 → Except ErrorCode ICompressionCodec) (codecs : List ICompressionCodec)
    (source : List UInt8) : Prop :=
  ∀ n < codecs.length, ∀ block ∈ (stage codecs source (n + 1)).toOption,
    block.length + tailRoom get codecs (n + 1) < oneGiB

/-- `decoder` undoes every block `codec` makes of a non-empty input below `1_GiB`, and its tail
room keeps a buffer below `1_GiB` from overflowing `UInt32`. -/
structure Undoes (codec decoder : ICompressionCodec) : Prop where
  decompress_compress : ∀ source : List UInt8, source ≠ [] → source.length < oneGiB →
    (codec.compress source >>= decoder.decompress) = .ok source
  room : decoder.additionalSizeAtTheEndOfBuffer + oneGiB ≤ 2 ^ 32

section Chain

variable {get : UInt8 → Except ErrorCode ICompressionCodec} {codecs : List ICompressionCodec}
  {source : List UInt8}

lemma stage_zero : stage codecs source 0 = .ok source := rfl

lemma stage_add_one {n : ℕ} (hn : n < codecs.length) :
    stage codecs source (n + 1) = (stage codecs source n >>= codecs[n].compress) :=
  foldlM_take_add_one _ source hn

lemma stage_length :
    stage codecs source codecs.length = codecs.foldlM (fun buf codec => codec.compress buf) source := by
  rw [stage, List.take_length]

lemma tailRoom_of_get {n : ℕ} (hn : n < codecs.length) {decoder : ICompressionCodec}
    (hget : get codecs[n].methodByte = .ok decoder) :
    tailRoom get codecs n = decoder.additionalSizeAtTheEndOfBuffer := by
  unfold tailRoom
  rw [List.getElem?_eq_getElem hn]
  dsimp only
  rw [hget]

lemma tailRoom_length : tailRoom get codecs codecs.length = 0 := by
  unfold tailRoom
  rw [List.getElem?_eq_none (le_refl _)]

/-- A compressed block announces its input's size and is at least a header long. -/
lemma decodeLE_of_compress {codec : ICompressionCodec} {x block : List UInt8}
    (h : codec.compress x = .ok block) (hx : x.length < 2 ^ 32) :
    decodeLE ((block.drop 5).take 4) = x.length ∧ compressedBlockHeaderSize ≤ block.length := by
  obtain ⟨body, rfl⟩ := ICompressionCodec.exists_header_of_compress h
  refine ⟨?_, by simp⟩
  rw [ICompressionCodec.decodeLE_decompressedSize_header, Nat.mod_eq_of_lt hx]

variable (hcodecs : ∀ codec ∈ codecs, ∃ decoder, get codec.methodByte = .ok decoder ∧ Undoes codec decoder)
  (hne : source ≠ []) (hlt : source.length < oneGiB) (hfit : BuffersFit get codecs source)
include hcodecs hne hlt hfit

/-- Every stage of the chain exists and is a non-empty block below `1_GiB`. -/
lemma exists_stage {n : ℕ} (hn : n ≤ codecs.length) :
    ∃ block, stage codecs source n = .ok block ∧ block ≠ [] ∧ block.length < oneGiB := by
  induction n with
  | zero => exact ⟨source, stage_zero, hne, hlt⟩
  | succ n ih =>
    obtain ⟨x, hx, hxne, hxlt⟩ := ih (by omega)
    obtain ⟨decoder, -, hundo⟩ := hcodecs codecs[n] (List.getElem_mem (by omega))
    obtain ⟨block, hblock, -⟩ := bind_eq_ok.mp (hundo.decompress_compress x hxne hxlt)
    have hstage : stage codecs source (n + 1) = .ok block := by
      rw [stage_add_one (by omega), hx, ok_bind, hblock]
    have hheader := (decodeLE_of_compress hblock (by unfold oneGiB at hxlt; omega)).2
    have hfits := hfit n (by omega) block (by rw [hstage]; rfl)
    refine ⟨block, hstage, ?_, by omega⟩
    rintro rfl
    exact absurd hheader (by decide)

/-- Undoing the last `n` codecs of the chain: the loop started on the block of stage `n`, with the
buffer size the previous round leaves, returns the source. The induction is on `n`; each round
reads back the size the header of its block announces and hands the block to the factory's
codec. -/
lemma decompressLoop_stage (src : List UInt8)
    (hsrc : ∀ i (hi : i < codecs.length), src.getD (i + 1) 0 = codecs[i].methodByte) :
    ∀ n ≤ codecs.length, ∀ block, stage codecs source n = .ok block →
      decompressLoop get src source.length n block (block.length + tailRoom get codecs n) =
        .ok source := by
  intro n
  induction n with
  | zero =>
    intro _ block hblock
    rw [stage_zero] at hblock
    cases hblock
    rfl
  | succ n ih =>
    intro hn block hblock
    obtain ⟨x, hx, hxne, hxlt⟩ := exists_stage hcodecs hne hlt hfit (n := n) (by omega)
    have hcompress : codecs[n].compress x = .ok block := by
      rwa [stage_add_one (by omega), hx, ok_bind] at hblock
    obtain ⟨decoder, hget, hundo⟩ := hcodecs codecs[n] (List.getElem_mem (by omega))
    have hdecompress : decoder.decompress block = .ok x := by
      have h := hundo.decompress_compress x hxne hxlt
      rwa [hcompress, ok_bind] at h
    have hroom := hundo.room
    obtain ⟨hsize, hheader⟩ := decodeLE_of_compress hcompress (by unfold oneGiB at hxlt; omega)
    have hfits := hfit n (by omega) block (by rw [hblock]; rfl)
    rw [decompressLoop_succ (by rw [hsrc n (by omega), hget]) (by omega) hheader
        (by unfold oneGiB at hfits hroom; omega) (by rw [hsize]; exact (List.length_pos_iff.mpr hxne).ne')
        (by rwa [hsize]) ?last (by unfold oneGiB at hroom hxlt; omega),
      hdecompress, ok_bind, hsize, ← tailRoom_of_get (by omega) hget]
    · exact ih (by omega) x hx
    case last =>
      rintro rfl
      rw [stage_zero] at hx
      cases hx
      exact hsize

/-- The payload of the chain reads back to the source. -/
lemma payloadRoundTrips (hk : 0 < codecs.length) (hk' : codecs.length < 256) :
    (compressionCodecMultiple get codecs).PayloadRoundTrips source := by
  obtain ⟨final, hfinal, -, -⟩ := exists_stage hcodecs hne hlt hfit (le_refl codecs.length)
  refine ⟨UInt8.ofNat codecs.length :: (codecs.map (fun codec => codec.methodByte) ++ final), ?_, ?_⟩
  · rw [compressionCodecMultiple_doCompressData, doCompressData, ← stage_length, hfinal, ok_bind]
    rfl
  · have hcount : (UInt8.ofNat codecs.length).toNat = codecs.length := by
      rw [UInt8.toNat_ofNat', Nat.mod_eq_of_lt hk']
    have hhead : UInt8.ofNat codecs.length ≠ 0 := by
      intro h
      have h' := congrArg UInt8.toNat h
      rw [hcount] at h'
      exact hk.ne' h'
    have hsrc : ∀ i (hi : i < codecs.length),
        (UInt8.ofNat codecs.length :: (codecs.map (fun codec => codec.methodByte) ++ final)).getD
          (i + 1) 0 = codecs[i].methodByte := by
      intro i hi
      simp [List.getD_eq_getElem?_getD, List.getElem?_append_left, hi]
    have hloop := decompressLoop_stage hcodecs hne hlt hfit _ hsrc codecs.length (le_refl _) final hfinal
    rw [tailRoom_length, Nat.add_zero] at hloop
    rw [compressionCodecMultiple_doDecompressData, doDecompressData, if_neg (by simp [hhead])]
    dsimp only
    rw [List.headD_cons, hcount, if_neg (by simp), List.drop_succ_cons,
      List.drop_left' (List.length_map _), hloop, ok_bind, List.take_length]
    rfl

end Chain

theorem compressionCodecMultiple_rejects_empty (get : UInt8 → Except ErrorCode ICompressionCodec) :
    ¬ (compressionCodecMultiple get [Delta.compressionCodecDelta 1]).RoundTrips [] := by
  intro h
  rw [ICompressionCodec.RoundTrips, ICompressionCodec.not_roundTrips_nil rfl] at h
  cases h

theorem compressionCodecMultiple_roundTrips (get : UInt8 → Except ErrorCode ICompressionCodec)
    (codecs : List ICompressionCodec) (hk : 0 < codecs.length) (hk' : codecs.length < 256)
    (hcodecs : ∀ codec ∈ codecs, ∃ decoder, get codec.methodByte = .ok decoder ∧ Undoes codec decoder)
    (source : List UInt8) (hne : source ≠ []) (hlt : source.length < oneGiB)
    (hfit : BuffersFit get codecs source) :
    (compressionCodecMultiple get codecs).RoundTrips source :=
  ICompressionCodec.roundTrips_of_payload hne (by unfold oneGiB at hlt; omega)
    (payloadRoundTrips hcodecs hne hlt hfit hk hk')

instance (get : UInt8 → Except ErrorCode ICompressionCodec) (codecs : List ICompressionCodec)
    (source : List UInt8) : Decidable (BuffersFit get codecs source) :=
  inferInstanceAs (Decidable (∀ n < codecs.length, ∀ block ∈ (stage codecs source (n + 1)).toOption,
    block.length + tailRoom get codecs (n + 1) < oneGiB))

theorem compressionCodecMultiple_rejects_large (get : UInt8 → Except ErrorCode ICompressionCodec)
    (codecs : List ICompressionCodec) (source : List UInt8) (hlarge : oneGiB ≤ source.length) :
    ¬ (compressionCodecMultiple get codecs).RoundTrips source := by
  intro h
  obtain ⟨block, -, hdecompress⟩ := bind_eq_ok.mp h
  have hlt := length_lt_of_doDecompressData (ICompressionCodec.decompress_eq_ok hdecompress).1
  omega

/-! ### Codecs the factory recovers

The factory creates a codec without arguments, so it is not the codec that compressed; a Delta or
T64 block carries its width and type itself, and any codec of the family undoes it. -/

lemma undoes_compressionCodecDelta {deltaBytesSize : UInt8} (hw : IsDataBytesSize deltaBytesSize.toNat)
    (deltaBytesSize' : UInt8) :
    Undoes (Delta.compressionCodecDelta deltaBytesSize) (Delta.compressionCodecDelta deltaBytesSize') where
  decompress_compress source hne hlt :=
    ICompressionCodec.roundTrips_of_payload hne (by unfold oneGiB at hlt; omega)
      (Delta.payloadRoundTrips hw source)
  room := by simp [Delta.compressionCodecDelta, oneGiB]

lemma undoes_compressionCodecT64 {t : T64.TypeIndex} (hlayout : T64.baseTypeLayout (T64.baseType t) ≠ none)
    (variant : T64.Variant) (typeIdx : Option T64.TypeIndex) (variant' : T64.Variant) :
    Undoes (T64.compressionCodecT64 (some t) variant) (T64.compressionCodecT64 typeIdx variant') where
  decompress_compress source hne hlt :=
    ICompressionCodec.roundTrips_of_payload hne (by unfold oneGiB at hlt; omega)
      (T64.payloadRoundTrips hlayout variant source)
  room := by simp [T64.compressionCodecT64, oneGiB]

/-- `CompressionCodecFactory::get(uint8_t)` over the codecs of `registerCodecDelta` and
`registerCodecT64`, each created without arguments. -/
def deltaT64Factory (b : UInt8) : Except ErrorCode ICompressionCodec :=
  if b = CompressionMethodByte.delta.toUInt8 then .ok (Delta.compressionCodecDelta 1)
  else if b = CompressionMethodByte.t64.toUInt8 then .ok (T64.compressionCodecT64 none .byte)
  else .error .unknownCodec

theorem compressionCodecMultiple_deltaT64_rejects_empty :
    ¬ (compressionCodecMultiple deltaT64Factory [Delta.compressionCodecDelta 1]).RoundTrips [] :=
  compressionCodecMultiple_rejects_empty _

set_option maxRecDepth 2048 in
theorem compressionCodecMultiple_roundTrips_deltaT64 :
    (0 < [Delta.compressionCodecDelta 4, T64.compressionCodecT64 (some .int32) .bit].length ∧
      [Delta.compressionCodecDelta 4, T64.compressionCodecT64 (some .int32) .bit].length < 256 ∧
      (∀ codec ∈ [Delta.compressionCodecDelta 4, T64.compressionCodecT64 (some .int32) .bit],
        ∃ decoder, deltaT64Factory codec.methodByte = .ok decoder ∧ Undoes codec decoder) ∧
      [1, 0, 0, 0, 2, 0, 0, 0, 4, 0, 0, 0, 7] ≠ ([] : List UInt8) ∧
      [1, 0, 0, 0, 2, 0, 0, 0, 4, 0, 0, 0, 7].length < oneGiB ∧
      BuffersFit deltaT64Factory [Delta.compressionCodecDelta 4, T64.compressionCodecT64 (some .int32) .bit]
        [1, 0, 0, 0, 2, 0, 0, 0, 4, 0, 0, 0, 7]) ∧
    (compressionCodecMultiple deltaT64Factory
      [Delta.compressionCodecDelta 4, T64.compressionCodecT64 (some .int32) .bit]).RoundTrips
        [1, 0, 0, 0, 2, 0, 0, 0, 4, 0, 0, 0, 7] := by
  have hcodecs : ∀ codec ∈ [Delta.compressionCodecDelta 4, T64.compressionCodecT64 (some .int32) .bit],
      ∃ decoder, deltaT64Factory codec.methodByte = .ok decoder ∧ Undoes codec decoder := by
    simp only [List.mem_cons, List.not_mem_nil, or_false]
    rintro codec (rfl | rfl)
    · exact ⟨_, rfl, undoes_compressionCodecDelta (by decide) 1⟩
    · exact ⟨_, rfl, undoes_compressionCodecT64 (by decide) .bit none .byte⟩
  have hfit : BuffersFit deltaT64Factory
      [Delta.compressionCodecDelta 4, T64.compressionCodecT64 (some .int32) .bit]
      [1, 0, 0, 0, 2, 0, 0, 0, 4, 0, 0, 0, 7] := by
    decide
  exact ⟨⟨by decide, by decide, hcodecs, by simp, by decide, hfit⟩,
    compressionCodecMultiple_roundTrips deltaT64Factory _ (by decide) (by decide) hcodecs _ (by simp)
      (by decide) hfit⟩

theorem compressionCodecMultiple_rejects_large_replicate :
    oneGiB ≤ (List.replicate oneGiB (0 : UInt8)).length ∧
      ¬ (compressionCodecMultiple deltaT64Factory [Delta.compressionCodecDelta 4]).RoundTrips
        (List.replicate oneGiB 0) :=
  ⟨by simp, compressionCodecMultiple_rejects_large deltaT64Factory _ _ (by simp)⟩

end ClickHouse.Compression.Multiple
