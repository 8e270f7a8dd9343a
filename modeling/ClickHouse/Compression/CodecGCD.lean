import ClickHouse.Lib.Folds
import ClickHouse.Base.Unaligned
import ClickHouse.Compression.ICompressionCodec
import ClickHouse.Compression.UnalignedBytes

/-! `Compression/CompressionCodecGCD.cpp`: the payload is the width byte, the number of bytes left
out of the words, those bytes verbatim, the greatest common divisor of the words, then either the
words verbatim (divisor `0` or `1`) or their quotients by the divisor. Up to 8 bytes the quotients
are taken by libdivide, which is not part of the source: it is a parameter here, and its
specification is `Libdivide.Exact`. -/

namespace ClickHouse.Compression.GCD

open ClickHouse.Lib ClickHouse.Lib.Folds ClickHouse.Base ClickHouse.Common

/-- The widths the codec's `switch` accepts. -/
def IsGcdBytesSize (n : ℕ) : Prop := n = 1 ∨ n = 2 ∨ n = 4 ∨ n = 8 ∨ n = 16 ∨ n = 32

instance (n : ℕ) : Decidable (IsGcdBytesSize n) := inferInstanceAs (Decidable (_ ∨ _))

/-- `x / libdivide::divider<UInt32>(d)` and its `UInt64` counterpart, as functions of
the dividend and the divisor. -/
structure Libdivide where
  divide32 : BitVec 32 → BitVec 32 → BitVec 32
  divide64 : BitVec 64 → BitVec 64 → BitVec 64

/-- What libdivide computes for a nonzero divisor: the quotient. -/
def Libdivide.Exact (lib : Libdivide) : Prop :=
  (∀ x d : BitVec 32, d ≠ 0 → lib.divide32 x d = x / d) ∧ (∀ x d : BitVec 64, d ≠ 0 → lib.divide64 x d = x / d)

/-- The specification of libdivide as an instance: the quotient itself. -/
def Libdivide.quotient : Libdivide := ⟨fun x d => x / d, fun x d => x / d⟩

lemma Libdivide.quotient_exact : Libdivide.quotient.Exact := ⟨fun _ _ _ => rfl, fun _ _ _ => rfl⟩

/-- The loop of `compressDataForType` after the first word, which stops once the divisor is `1`. -/
def gcdLoop {n : ℕ} : BitVec n → List (BitVec n) → BitVec n
  | gcd, [] => gcd
  | gcd, v :: vs => if gcd = 1 then gcd else gcdLoop (BitVec.ofNat n (Nat.gcd gcd.toNat v.toNat)) vs

/-- The divisor the encoder writes: `0` with no words, else the loop from the first word. -/
def findGcd {n : ℕ} : List (BitVec n) → BitVec n
  | [] => 0
  | v :: vs => gcdLoop v vs

/-- The quotient of one word: through libdivide at `UInt32` or `UInt64` up to 8 bytes, by
wide-integer division above. -/
def divideValue (lib : Libdivide) (w : ℕ) (gcd v : BitVec (8 * w)) : BitVec (8 * w) :=
  if w ≤ 4 then (lib.divide32 (v.setWidth 32) (gcd.setWidth 32)).setWidth (8 * w)
  else if w ≤ 8 then (lib.divide64 (v.setWidth 64) (gcd.setWidth 64)).setWidth (8 * w)
  else v / gcd

def compressDataForType (lib : Libdivide) (w : ℕ) (source : List UInt8) : Except ErrorCode (List UInt8) :=
  if source.length % w ≠ 0 then .error .cannotCompress
  else
    let values := loadWords w source
    let gcd := findGcd values
    if gcd = 0 ∨ gcd = 1 then .ok (unalignedStoreLittleEndian w gcd ++ source)
    else .ok (unalignedStoreLittleEndian w gcd ++ storeWords w (values.map (divideValue lib w gcd)))

/-- The multiplication loop of `decompressDataForType`; `room` is `dest_end - dest`. -/
def multiplyLoop (w : ℕ) (gcdMultiplier : BitVec (8 * w)) : ℕ → List (BitVec (8 * w)) →
    Except ErrorCode (List UInt8)
  | _, [] => .ok []
  | room, q :: qs =>
    if room < w then .error .cannotDecompress
    else do
      let rest ← multiplyLoop w gcdMultiplier (room - w) qs
      pure (unalignedStoreLittleEndian w (q * gcdMultiplier) ++ rest)

def decompressDataForType (w : ℕ) (source : List UInt8) (outputSize : ℕ) :
    Except ErrorCode (List UInt8) :=
  if source.length % w ≠ 0 then .error .cannotDecompress
  else if source.length < w then .error .cannotDecompress
  else
    let gcdMultiplier := unalignedLoadLittleEndian w source
    if gcdMultiplier = 0 ∨ gcdMultiplier = 1 then
      if source.length - w ≠ outputSize then .error .cannotDecompress
      else .ok (source.drop w)
    else multiplyLoop w gcdMultiplier outputSize (loadWords w (source.drop w))

def doCompressData (lib : Libdivide) (gcdBytesSize : UInt8) (source : List UInt8) :
    Except ErrorCode (List UInt8) :=
  let w := gcdBytesSize.toNat
  let bytesToSkip := source.length % w
  if IsGcdBytesSize w then do
    let body ← compressDataForType lib w (source.drop bytesToSkip)
    pure (gcdBytesSize :: UInt8.ofNat bytesToSkip :: (source.take bytesToSkip ++ body))
  else .error .logicalError

def doDecompressData (source : List UInt8) (uncompressedSize : ℕ) : Except ErrorCode (List UInt8) :=
  if source.length < 2 then .error .cannotDecompress
  else if uncompressedSize = 0 then .ok []
  else
    let bytesSize := (source.headD 0).toNat
    if ¬ IsGcdBytesSize bytesSize then .error .cannotDecompress
    else
      let bytesToSkip := uncompressedSize % bytesSize
      if bytesToSkip ≠ (source.getD 1 0).toNat then .error .cannotDecompress
      else
        let outputSize := uncompressedSize - bytesToSkip
        if source.length < 2 + bytesToSkip then .error .cannotDecompress
        else do
          let rest ← decompressDataForType bytesSize (source.drop (2 + bytesToSkip)) outputSize
          pure ((source.drop 2).take bytesToSkip ++ rest)

def compressionCodecGCD (lib : Libdivide) (gcdBytesSize : UInt8) : ICompressionCodec where
  methodByte := CompressionMethodByte.gcd.toUInt8
  doCompressData := doCompressData lib gcdBytesSize
  doDecompressData := doDecompressData

@[simp] lemma compressionCodecGCD_doCompressData (lib : Libdivide) (gcdBytesSize : UInt8) :
    (compressionCodecGCD lib gcdBytesSize).doCompressData = doCompressData lib gcdBytesSize := rfl

@[simp] lemma compressionCodecGCD_doDecompressData (lib : Libdivide) (gcdBytesSize : UInt8) :
    (compressionCodecGCD lib gcdBytesSize).doDecompressData = doDecompressData := rfl

lemma pos_of_isGcdBytesSize {n : ℕ} (h : IsGcdBytesSize n) : 0 < n := by
  rcases h with h | h | h | h | h | h <;> omega

/-! ### The divisor -/

lemma gcd_lt_two_pow {n a b : ℕ} (ha : a < 2 ^ n) (hb : b < 2 ^ n) : Nat.gcd a b < 2 ^ n := by
  rcases Nat.eq_zero_or_pos b with rfl | hpos
  · rwa [Nat.gcd_zero_right]
  · exact lt_of_le_of_lt (Nat.gcd_le_right a hpos) hb

/-- The encoder's loop on words computes the library's `gcdUntilOne` on their values. -/
lemma toNat_gcdLoop {n : ℕ} (hn : 0 < n) (gcd : BitVec n) (vs : List (BitVec n)) :
    (gcdLoop gcd vs).toNat = gcdUntilOne gcd.toNat (vs.map BitVec.toNat) := by
  induction vs generalizing gcd with
  | nil => rfl
  | cons v vs ih =>
    have hone : gcd = 1 ↔ gcd.toNat = 1 := by
      rw [BitVec.toNat_eq]
      simp [Nat.mod_eq_of_lt (Nat.one_lt_two_pow hn.ne')]
    rw [gcdLoop, List.map_cons, gcdUntilOne]
    by_cases h : gcd = 1
    · rw [if_pos h, if_pos (hone.mp h)]
    · rw [if_neg h, if_neg (fun h' => h (hone.mpr h')), ih, BitVec.toNat_ofNat,
        Nat.mod_eq_of_lt (gcd_lt_two_pow gcd.isLt v.isLt)]

/-- The divisor the encoder writes divides every word. -/
lemma findGcd_dvd {n : ℕ} (hn : 0 < n) (values : List (BitVec n)) :
    ∀ v ∈ values, (findGcd values).toNat ∣ v.toNat := by
  cases values with
  | nil => simp
  | cons v vs =>
    obtain ⟨hv, hvs⟩ := gcdUntilOne_dvd v.toNat (vs.map BitVec.toNat)
    intro u hu
    rw [findGcd, toNat_gcdLoop hn]
    rcases List.mem_cons.mp hu with rfl | hu
    · exact hv
    · exact hvs u.toNat (List.mem_map_of_mem hu)

/-! ### Quotients and products -/

lemma setWidth_udiv_setWidth {n m : ℕ} (hm : n ≤ m) (v gcd : BitVec n) :
    ((v.setWidth m) / (gcd.setWidth m)).setWidth n = v / gcd := by
  have hfit : ∀ x : BitVec n, x.toNat % 2 ^ m = x.toNat := fun x =>
    Nat.mod_eq_of_lt (lt_of_lt_of_le x.isLt (Nat.pow_le_pow_right (by omega) hm))
  apply BitVec.eq_of_toNat_eq
  rw [BitVec.toNat_setWidth, BitVec.toNat_udiv, BitVec.toNat_setWidth, BitVec.toNat_setWidth, hfit, hfit,
    BitVec.toNat_udiv]
  exact Nat.mod_eq_of_lt (lt_of_le_of_lt (Nat.div_le_self _ _) v.isLt)

/-- With an exact libdivide, every width divides as the wide integers do. -/
lemma divideValue_eq {lib : Libdivide} (hlib : lib.Exact) {w : ℕ} {gcd : BitVec (8 * w)} (hgcd : gcd ≠ 0)
    (v : BitVec (8 * w)) : divideValue lib w gcd v = v / gcd := by
  have hne : ∀ m, 8 * w ≤ m → gcd.setWidth m ≠ 0 := by
    intro m hm h
    apply hgcd
    apply BitVec.eq_of_toNat_eq
    have h0 := congrArg BitVec.toNat h
    rwa [BitVec.toNat_setWidth, Nat.mod_eq_of_lt (lt_of_lt_of_le gcd.isLt (Nat.pow_le_pow_right (by omega) hm))]
      at h0
  rw [divideValue]
  split_ifs with h4 h8
  · rw [hlib.1 _ _ (hne 32 (by omega)), setWidth_udiv_setWidth (by omega)]
  · rw [hlib.2 _ _ (hne 64 (by omega)), setWidth_udiv_setWidth (by omega)]
  · rfl

lemma udiv_mul_of_dvd {n : ℕ} {v gcd : BitVec n} (h : gcd.toNat ∣ v.toNat) : v / gcd * gcd = v := by
  apply BitVec.eq_of_toNat_eq
  rw [BitVec.toNat_mul, BitVec.toNat_udiv, Nat.div_mul_cancel h, Nat.mod_eq_of_lt v.isLt]

lemma multiplyLoop_eq (w : ℕ) (gcdMultiplier : BitVec (8 * w)) (room : ℕ) (qs : List (BitVec (8 * w)))
    (hroom : w * qs.length ≤ room) :
    multiplyLoop w gcdMultiplier room qs = .ok (storeWords w (qs.map (· * gcdMultiplier))) := by
  induction qs generalizing room with
  | nil => rfl
  | cons q qs ih =>
    rw [List.length_cons, Nat.mul_succ] at hroom
    rw [multiplyLoop, if_neg (by omega), ih (room - w) (by omega), ok_bind, List.map_cons, storeWords_cons]
    rfl

/-! ### The codec -/

lemma decompressDataForType_compressDataForType {lib : Libdivide} (hlib : lib.Exact) {w : ℕ}
    (hw : IsGcdBytesSize w) (source : List UInt8) (hsource : source.length % w = 0) :
    ∃ body, compressDataForType lib w source = .ok body ∧
      decompressDataForType w body source.length = .ok source := by
  have hw0 := pos_of_isGcdBytesSize hw
  rw [compressDataForType, if_neg (by rw [hsource]; exact fun h => h rfl)]
  dsimp only
  have hstore : storeWords w (loadWords w source) = source := storeWords_loadWords source hsource
  have hlen := length_storeWords w (loadWords w source)
  rw [hstore] at hlen
  have hdvd := findGcd_dvd (by omega) (loadWords w source)
  generalize loadWords w source = values at hstore hlen hdvd ⊢
  generalize findGcd values = gcd at hdvd ⊢
  -- the payload is the divisor, then the words or their quotients
  have hlength : ∀ rest : List UInt8, (unalignedStoreLittleEndian w gcd ++ rest).length % w = rest.length % w ∧
      ¬ (unalignedStoreLittleEndian w gcd ++ rest).length < w ∧
      (unalignedStoreLittleEndian w gcd ++ rest).length - w = rest.length := by
    intro rest
    rw [List.length_append, length_unalignedStoreLittleEndian, Nat.add_mod_left]
    exact ⟨rfl, by omega, by omega⟩
  by_cases hg : gcd = 0 ∨ gcd = 1
  · -- the words verbatim
    refine ⟨_, by rw [if_pos hg], ?_⟩
    obtain ⟨hmod, hlt, hsub⟩ := hlength source
    rw [decompressDataForType, hmod, if_neg (by rw [hsource]; exact fun h => h rfl), if_neg hlt, load_store,
      if_pos hg, hsub, if_neg (fun h => h rfl), List.drop_left' (length_unalignedStoreLittleEndian w gcd)]
  · -- the quotients, multiplied back
    have hgcd : gcd ≠ 0 := fun h => hg (Or.inl h)
    have hdiv : divideValue lib w gcd = fun v => v / gcd := funext (divideValue_eq hlib hgcd)
    refine ⟨_, by rw [if_neg hg], ?_⟩
    obtain ⟨hmod, hlt, -⟩ := hlength (storeWords w (values.map (divideValue lib w gcd)))
    rw [decompressDataForType, hmod, length_storeWords, Nat.mul_mod_right, if_neg (fun h => h rfl), if_neg hlt,
      load_store, if_neg hg, List.drop_left' (length_unalignedStoreLittleEndian w gcd), loadWords_storeWords hw0,
      multiplyLoop_eq _ _ _ _ (by rw [List.length_map, hlen]), List.map_map, hdiv]
    conv_rhs => rw [← hstore]
    congr 2
    conv_rhs => rw [← List.map_id values]
    exact List.map_congr_left fun v hv => udiv_mul_of_dvd (hdvd v hv)

lemma doCompressData_eq {lib : Libdivide} {gcdBytesSize : UInt8} (hw : IsGcdBytesSize gcdBytesSize.toNat)
    {source body : List UInt8}
    (h : compressDataForType lib gcdBytesSize.toNat (source.drop (source.length % gcdBytesSize.toNat)) = .ok body) :
    doCompressData lib gcdBytesSize source =
      .ok (gcdBytesSize :: UInt8.ofNat (source.length % gcdBytesSize.toNat) ::
        (source.take (source.length % gcdBytesSize.toNat) ++ body)) := by
  rw [doCompressData, if_pos hw, h]
  rfl

lemma doDecompressData_cons {b c : UInt8} {rest : List UInt8} {n : ℕ} (hw : IsGcdBytesSize b.toNat)
    (hn : n ≠ 0) (hskip : n % b.toNat = c.toNat) (hlen : 2 + n % b.toNat ≤ (b :: c :: rest).length) :
    doDecompressData (b :: c :: rest) n = (do
      let out ← decompressDataForType b.toNat ((b :: c :: rest).drop (2 + n % b.toNat)) (n - n % b.toNat)
      pure (((b :: c :: rest).drop 2).take (n % b.toNat) ++ out)) := by
  unfold doDecompressData
  rw [if_neg (by simp), if_neg hn]
  dsimp only
  rw [List.headD_cons, if_neg (not_not.mpr hw), List.getD_cons_succ, List.getD_cons_zero,
    if_neg (not_not.mpr hskip), if_neg (by omega)]

lemma payloadRoundTrips {lib : Libdivide} (hlib : lib.Exact) {gcdBytesSize : UInt8}
    (hw : IsGcdBytesSize gcdBytesSize.toNat) (source : List UInt8) :
    (compressionCodecGCD lib gcdBytesSize).PayloadRoundTrips source := by
  set w := gcdBytesSize.toNat with hwdef
  obtain ⟨body, hcomp, hdecomp⟩ := decompressDataForType_compressDataForType hlib hw
    (source.drop (source.length % w)) (length_drop_mod source w)
  refine ⟨_, doCompressData_eq hw hcomp, ?_⟩
  rw [compressionCodecGCD_doDecompressData]
  by_cases hzero : source.length = 0
  · unfold doDecompressData
    rw [if_neg (by simp), if_pos hzero, List.eq_nil_of_length_eq_zero hzero]
  · have hskip : source.length % w = (UInt8.ofNat (source.length % w)).toNat := by
      have : source.length % w < 256 := by
        have := Nat.mod_lt source.length (pos_of_isGcdBytesSize hw)
        rcases hw with h | h | h | h | h | h <;> omega
      rw [UInt8.toNat_ofNat', Nat.mod_eq_of_lt this]
    have hlen : 2 + source.length % w ≤ (gcdBytesSize :: UInt8.ofNat (source.length % w) ::
        (source.take (source.length % w) ++ body)).length := by
      simp only [List.length_cons, List.length_append, length_take_mod]
      omega
    rw [doDecompressData_cons hw hzero hskip hlen, drop_unaligned, take_unaligned, ← List.length_drop,
      hdecomp, ok_bind]
    exact congrArg Except.ok (List.take_append_drop _ source)

theorem compressionCodecGCD_rejects_empty (lib : Libdivide) : ¬ (compressionCodecGCD lib 1).RoundTrips [] := by
  obtain ⟨body, hbody⟩ : ∃ body, (compressionCodecGCD lib 1).doCompressData [] = .ok body := ⟨_, rfl⟩
  intro h
  rw [ICompressionCodec.RoundTrips, ICompressionCodec.not_roundTrips_nil hbody] at h
  cases h

theorem compressionCodecGCD_quotient_rejects_empty : ¬ (compressionCodecGCD Libdivide.quotient 1).RoundTrips [] :=
  compressionCodecGCD_rejects_empty _

theorem compressionCodecGCD_roundTrips (lib : Libdivide) (hlib : lib.Exact) (gcdBytesSize : UInt8)
    (hw : IsGcdBytesSize gcdBytesSize.toNat) (source : List UInt8) (hne : source ≠ [])
    (hlt : source.length < 2 ^ 32) : (compressionCodecGCD lib gcdBytesSize).RoundTrips source :=
  ICompressionCodec.roundTrips_of_payload hne hlt (payloadRoundTrips hlib hw source)

/-- Words 6, 9 and 3 after one unaligned byte: the divisor is 3 and the quotients are written. -/
theorem compressionCodecGCD_roundTrips_multiples :
    Libdivide.quotient.Exact ∧ IsGcdBytesSize (2 : UInt8).toNat ∧ [5, 6, 0, 9, 0, 3, 0] ≠ ([] : List UInt8) ∧
      [5, 6, 0, 9, 0, 3, 0].length < 2 ^ 32 ∧
      (compressionCodecGCD Libdivide.quotient 2).RoundTrips [5, 6, 0, 9, 0, 3, 0] :=
  ⟨Libdivide.quotient_exact, by decide, by simp, by simp,
    compressionCodecGCD_roundTrips _ Libdivide.quotient_exact 2 (by decide) _ (by simp) (by simp)⟩

end ClickHouse.Compression.GCD
