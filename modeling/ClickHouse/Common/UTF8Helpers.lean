import ClickHouse.Lib.Bits
import Mathlib

/-! `Common/UTF8Helpers.h` and the UTF-8 codec of Poco (`Poco::UTF8Encoding`) that it calls: the
length of a sequence judged by its first octet, the skip over continuation octets, and the
conversions between a code point and its octets. Octets are numbers below 256. -/

namespace ClickHouse.Common.UTF8

/-- `seqLength`: one for an ASCII octet, a continuation octet and the octets `F8` to `FF`;
otherwise the number of leading ones, found as `8 - 1 - bitScanReverse(~octet)`. -/
def seqLength (firstOctet : ℕ) : ℕ :=
  if firstOctet < 0x80 ∨ 0xF8 ≤ firstOctet then 1 else 8 - 1 - Nat.log2 (255 - firstOctet)

def isContinuationOctet (octet : ℕ) : Bool := octet &&& 0xC0 = 0x80

/-- `syncForward`: how many continuation octets stand at the head. -/
def syncForward (s : List ℕ) : ℕ := (s.takeWhile isContinuationOctet).length

/-- `syncBackward` from position `pos` of `s`: back over continuation octets, but not before the
start. -/
def syncBackward (s : List ℕ) : ℕ → ℕ
  | 0 => 0
  | pos + 1 => if isContinuationOctet (s.getD (pos + 1) 0) then syncBackward s pos else pos + 1

lemma syncForward_le (s : List ℕ) : syncForward s ≤ s.length :=
  (List.takeWhile_prefix _).length_le

/-- `UTF8Encoding::_charMap`: an ASCII octet is its own code point; a lead octet gives minus the
length of its sequence; a continuation octet and `F8` to `FF` give `-1`. -/
def charMap (b : ℕ) : ℤ :=
  if b < 0x80 then b
  else if b < 0xC0 then -1
  else if b < 0xE0 then -2
  else if b < 0xF0 then -3
  else if b < 0xF8 then -4
  else -1

/-- `UTF8Encoding::isLegal` on the first `length` octets: continuation octets after the second,
a second octet in the range its lead octet allows, no overlong lead `C0`, `C1`, and no lead past
`F4`. -/
def isLegal (bytes : List ℕ) (length : ℕ) : Bool :=
  match bytes with
  | [] => false
  | b0 :: rest =>
    let second := rest.headD 0
    let secondOk :=
      if b0 = 0xE0 then 0xA0 ≤ second ∧ second ≤ 0xBF
      else if b0 = 0xED then 0x80 ≤ second ∧ second ≤ 0x9F
      else if b0 = 0xF0 then 0x90 ≤ second ∧ second ≤ 0xBF
      else if b0 = 0xF4 then 0x80 ≤ second ∧ second ≤ 0x8F
      else 0x80 ≤ second ∧ second ≤ 0xBF
    1 ≤ length ∧ length ≤ 4 ∧ ((rest.take (length - 1)).drop 1).all (fun a => 0x80 ≤ a ∧ a ≤ 0xBF) ∧
      (2 ≤ length → secondOk) ∧ ¬(0x80 ≤ b0 ∧ b0 < 0xC2) ∧ b0 ≤ 0xF4

/-- `UTF8Encoding::queryConvert` on the octets to the end: the code point, or a negative number
for an illegal or truncated sequence. -/
def queryConvert (bytes : List ℕ) : ℤ :=
  match bytes with
  | [] => -1
  | b0 :: rest =>
    let n := charMap b0
    if (bytes.length : ℤ) < -n then n
    else if n = -1 then -1
    else if n < 0 then
      if isLegal bytes (-n).toNat then
        let uc := b0 &&& ((0x07 <<< (n + 4).toNat) ||| 0x03)
        ((rest.take ((-n).toNat - 1)).foldl (fun uc b => (uc <<< 6) ||| (b &&& 0x3F)) uc : ℕ)
      else -1
    else n

/-- `convertUTF8ToCodePoint`. -/
def convertUTF8ToCodePoint (bytes : List ℕ) : Option ℕ :=
  let res := queryConvert bytes
  if 0 ≤ res then some res.toNat else none

/-- `UTF8Encoding::convert` of a code point into a buffer of six octets, as `convertCodePointToUTF8`
calls it: the octets written, none past `10FFFF`. -/
def convertCodePointToUTF8 (ch : ℕ) : List ℕ :=
  if ch ≤ 0x7F then [ch]
  else if ch ≤ 0x7FF then [((ch >>> 6) &&& 0x1F) ||| 0xC0, (ch &&& 0x3F) ||| 0x80]
  else if ch ≤ 0xFFFF then [((ch >>> 12) &&& 0x0F) ||| 0xE0, ((ch >>> 6) &&& 0x3F) ||| 0x80, (ch &&& 0x3F) ||| 0x80]
  else if ch ≤ 0x10FFFF then
    [((ch >>> 18) &&& 0x07) ||| 0xF0, ((ch >>> 12) &&& 0x3F) ||| 0x80, ((ch >>> 6) &&& 0x3F) ||| 0x80,
      (ch &&& 0x3F) ||| 0x80]
  else []

lemma seqLength_pos (b : ℕ) : 0 < seqLength b := by
  unfold seqLength
  split_ifs with h
  · exact Nat.one_pos
  · -- below `F8` the complement is at least 8, so its highest bit is at most 6
    have hlog : Nat.log2 (255 - b) < 7 := by
      rw [Nat.log2_lt (by omega)]
      omega
    omega

lemma seqLength_le_four (b : ℕ) : seqLength b ≤ 4 := by
  unfold seqLength
  split_ifs with h
  · omega
  · have hlog : 3 ≤ Nat.log2 (255 - b) := by
      rw [Nat.le_log2 (by omega)]
      omega
    omega

lemma seqLength_of_lt {b : ℕ} (h : b < 0x80) : seqLength b = 1 := by
  unfold seqLength
  simp only [h, true_or, if_true]

/-- A lead octet `C0` to `DF` starts a sequence of two octets. -/
lemma seqLength_of_two {b : ℕ} (h1 : 0xC0 ≤ b) (h2 : b < 0xE0) : seqLength b = 2 := by
  have hlog : Nat.log2 (255 - b) = 5 :=
    le_antisymm (Nat.lt_succ_iff.mp ((Nat.log2_lt (by omega)).mpr (by omega))) ((Nat.le_log2 (by omega)).mpr (by omega))
  unfold seqLength
  rw [if_neg (by omega), hlog]

/-- A lead octet `E0` to `EF` starts a sequence of three octets. -/
lemma seqLength_of_three {b : ℕ} (h1 : 0xE0 ≤ b) (h2 : b < 0xF0) : seqLength b = 3 := by
  have hlog : Nat.log2 (255 - b) = 4 :=
    le_antisymm (Nat.lt_succ_iff.mp ((Nat.log2_lt (by omega)).mpr (by omega))) ((Nat.le_log2 (by omega)).mpr (by omega))
  unfold seqLength
  rw [if_neg (by omega), hlog]

lemma charMap_of_lt {b : ℕ} (h : b < 0x80) : charMap b = b := by
  simp only [charMap, h, if_true]

/-- An ASCII octet is its own code point, whatever follows it. -/
lemma convertUTF8ToCodePoint_ascii {b : ℕ} (h : b < 0x80) (l : List ℕ) :
    convertUTF8ToCodePoint (b :: l) = some b := by
  have hq : queryConvert (b :: l) = b := by
    unfold queryConvert
    simp only [charMap_of_lt h]
    split_ifs <;> omega
  unfold convertUTF8ToCodePoint
  simp only [hq, Int.natCast_nonneg, if_true, Int.toNat_natCast]

lemma isLegal_append {b : ℕ} {l : List ℕ} (r : List ℕ) {len : ℕ} (hlen : len ≤ l.length + 1) :
    isLegal (b :: l ++ r) len = isLegal (b :: l) len := by
  cases l with
  | nil =>
    -- one octet: no second octet is looked at
    have h1 : len - 1 = 0 := by simp only [List.length_nil] at hlen; omega
    have h2 : ¬2 ≤ len := by simp only [List.length_nil] at hlen; omega
    unfold isLegal
    simp only [List.cons_append, List.nil_append, h1, List.take_zero, h2, false_implies]
  | cons c l =>
    have htake : (c :: (l ++ r)).take (len - 1) = (c :: l).take (len - 1) := by
      rw [← List.cons_append]
      exact List.take_append_of_le_length (by simp only [List.length_cons] at hlen ⊢; omega)
    unfold isLegal
    simp only [List.cons_append, htake, List.headD_cons]
    rfl

/-- `queryConvert` reads only the octets of the sequence that the first octet announces. -/
lemma queryConvert_append {b : ℕ} {l : List ℕ} (r : List ℕ) (h : -charMap b ≤ ((b :: l).length : ℤ)) :
    queryConvert (b :: l ++ r) = queryConvert (b :: l) := by
  have hlen : (-charMap b).toNat ≤ l.length + 1 := by
    simp only [List.length_cons, Nat.cast_add, Nat.cast_one] at h
    omega
  have htake : (l ++ r).take ((-charMap b).toNat - 1) = l.take ((-charMap b).toNat - 1) :=
    List.take_append_of_le_length (by omega)
  have hshort : ¬((b :: (l ++ r)).length : ℤ) < -charMap b := by
    simp only [List.length_cons, List.length_append, Nat.cast_add, Nat.cast_one] at h ⊢
    omega
  rw [List.cons_append]
  unfold queryConvert
  dsimp only
  rw [if_neg hshort, if_neg (not_lt.mpr h), ← List.cons_append, isLegal_append r hlen, htake]

/-- A decoded sequence decodes the same with any octets after it. -/
lemma convertUTF8ToCodePoint_append {l : List ℕ} {c : ℕ} (r : List ℕ) (h : convertUTF8ToCodePoint l = some c) :
    convertUTF8ToCodePoint (l ++ r) = some c := by
  cases l with
  | nil =>
    unfold convertUTF8ToCodePoint queryConvert at h
    simp at h
  | cons b l =>
    -- a truncated sequence gives `charMap b < 0`, which does not decode
    have hlen : -charMap b ≤ ((b :: l).length : ℤ) := by
      by_contra hlt
      unfold convertUTF8ToCodePoint queryConvert at h
      simp only [if_pos (not_le.mp hlt)] at h
      split_ifs at h
      omega
    unfold convertUTF8ToCodePoint
    rw [queryConvert_append r hlen]
    exact h

lemma convertCodePointToUTF8_of_le {ch : ℕ} (h : ch ≤ 0x7F) : convertCodePointToUTF8 ch = [ch] := by
  unfold convertCodePointToUTF8
  simp only [h, if_true]

/-- The lead octet of a two-octet sequence is `110` followed by the five high bits of the code
point, so it lies in `C0` to `DF`. -/
lemma convertCodePointToUTF8_of_two {ch : ℕ} (h1 : 0x7F < ch) (h2 : ch ≤ 0x7FF) :
    convertCodePointToUTF8 ch = [0xC0 + ch / 64, (ch &&& 0x3F) ||| 0x80] := by
  have hhigh : ch >>> 6 &&& 0x1F = ch / 64 := by
    rw [show (0x1F : ℕ) = 2 ^ 5 - 1 by rfl, Nat.and_two_pow_sub_one_eq_mod, Nat.shiftRight_eq_div_pow]
    exact Nat.mod_eq_of_lt (by omega)
  have hlead : ch >>> 6 &&& 0x1F ||| 0xC0 = 0xC0 + ch / 64 := by
    rw [hhigh, Nat.lor_comm, show (0xC0 : ℕ) = 6 <<< 5 by rfl,
      ← Nat.shiftLeft_add_eq_or_of_lt (by omega)]
  unfold convertCodePointToUTF8
  simp only [if_neg (not_le.mpr h1), h2, if_true, hlead]

/-! ### The codec round trip

`queryConvert` takes exactly the shortest sequences of the code points that are not surrogates, and
`convert` writes them: what decodes is such a code point, and the bytes begin with its sequence. -/

section RoundTrip

open ClickHouse.Lib.Bits

/-- A Unicode scalar value: a code point, not a surrogate. -/
def IsScalarValue (ch : ℕ) : Prop := ch ≤ 0x10FFFF ∧ ¬(0xD800 ≤ ch ∧ ch ≤ 0xDFFF)

instance : DecidablePred IsScalarValue := fun _ => inferInstanceAs (Decidable (_ ∧ _))

lemma and_low_or_high (y j c : ℕ) (hc : 2 ^ j ∣ c) : y &&& (2 ^ j - 1) ||| c = c + y % 2 ^ j := by
  obtain ⟨m, rfl⟩ := hc
  rw [Nat.and_two_pow_sub_one_eq_mod, mul_comm, ← Nat.shiftLeft_eq,
    or_shiftLeft_of_lt (Nat.mod_lt _ (Nat.two_pow_pos j)), Nat.shiftLeft_eq]

lemma continuation_octet (y : ℕ) : y &&& 0x3F ||| 0x80 = 0x80 + y % 64 := and_low_or_high y 6 0x80 ⟨2, rfl⟩

lemma lead_octet_three (y : ℕ) : y &&& 0x0F ||| 0xE0 = 0xE0 + y % 16 := and_low_or_high y 4 0xE0 ⟨14, rfl⟩

lemma lead_octet_four (y : ℕ) : y &&& 0x07 ||| 0xF0 = 0xF0 + y % 8 := and_low_or_high y 3 0xF0 ⟨30, rfl⟩

lemma convertCodePointToUTF8_eq_two {ch : ℕ} (h1 : 0x7F < ch) (h2 : ch ≤ 0x7FF) :
    convertCodePointToUTF8 ch = [0xC0 + ch / 64, 0x80 + ch % 64] := by
  rw [convertCodePointToUTF8_of_two h1 h2, continuation_octet]

lemma convertCodePointToUTF8_eq_three {ch : ℕ} (h1 : 0x7FF < ch) (h2 : ch ≤ 0xFFFF) :
    convertCodePointToUTF8 ch = [0xE0 + ch / 4096, 0x80 + ch / 64 % 64, 0x80 + ch % 64] := by
  have hlead : ch / 4096 % 16 = ch / 4096 := Nat.mod_eq_of_lt (by omega)
  unfold convertCodePointToUTF8
  simp only [if_neg (show ¬ch ≤ 0x7F by omega), if_neg (not_le.mpr h1), h2, if_true,
    lead_octet_three, continuation_octet, Nat.shiftRight_eq_div_pow]
  norm_num [hlead]

lemma convertCodePointToUTF8_eq_four {ch : ℕ} (h1 : 0xFFFF < ch) (h2 : ch ≤ 0x10FFFF) :
    convertCodePointToUTF8 ch =
      [0xF0 + ch / 262144, 0x80 + ch / 4096 % 64, 0x80 + ch / 64 % 64, 0x80 + ch % 64] := by
  have hlead : ch / 262144 % 8 = ch / 262144 := Nat.mod_eq_of_lt (by omega)
  unfold convertCodePointToUTF8
  simp only [if_neg (show ¬ch ≤ 0x7F by omega), if_neg (show ¬ch ≤ 0x7FF by omega),
    if_neg (not_le.mpr h1), h2, if_true, lead_octet_four, continuation_octet, Nat.shiftRight_eq_div_pow]
  norm_num [hlead]

lemma charMap_of_two {b : ℕ} (h1 : 0xC0 ≤ b) (h2 : b < 0xE0) : charMap b = -(((1 : ℕ) : ℤ) + 1) := by
  unfold charMap
  split_ifs <;> omega

lemma charMap_of_three {b : ℕ} (h1 : 0xE0 ≤ b) (h2 : b < 0xF0) : charMap b = -(((2 : ℕ) : ℤ) + 1) := by
  unfold charMap
  split_ifs <;> omega

lemma charMap_of_four {b : ℕ} (h1 : 0xF0 ≤ b) (h2 : b < 0xF8) : charMap b = -(((3 : ℕ) : ℤ) + 1) := by
  unfold charMap
  split_ifs <;> omega

lemma charMap_of_invalid {b : ℕ} (h : 0x80 ≤ b ∧ b < 0xC0 ∨ 0xF8 ≤ b) : charMap b = -1 := by
  unfold charMap
  split_ifs <;> omega

lemma convertUTF8ToCodePoint_nil : convertUTF8ToCodePoint [] = none := rfl

lemma convertUTF8ToCodePoint_of_invalid {b : ℕ} (h : 0x80 ≤ b ∧ b < 0xC0 ∨ 0xF8 ≤ b) (rest : List ℕ) :
    convertUTF8ToCodePoint (b :: rest) = none := by
  have hq : queryConvert (b :: rest) = -1 := by
    unfold queryConvert
    simp only [charMap_of_invalid h]
    split_ifs <;> rfl
  unfold convertUTF8ToCodePoint
  simp only [hq]
  rfl

lemma queryConvert_of_lead {b : ℕ} {k : ℕ} (hk : charMap b = -((k : ℤ) + 1)) (hk1 : 1 ≤ k) (hk3 : k ≤ 3)
    (rest : List ℕ) :
    queryConvert (b :: rest) =
      if k ≤ rest.length ∧ isLegal (b :: rest) (k + 1) = true then
        (((rest.take k).foldl (fun uc c => uc * 64 + c % 64) (b % 2 ^ (6 - k)) : ℕ) : ℤ)
      else if k ≤ rest.length then -1 else -((k : ℤ) + 1) := by
  have hmask : b &&& (0x07 <<< (charMap b + 4).toNat ||| 0x03) = b % 2 ^ (6 - k) := by
    have h : 0x07 <<< (charMap b + 4).toNat ||| 0x03 = 2 ^ (6 - k) - 1 := by
      rw [hk]
      interval_cases k <;> rfl
    rw [h, Nat.and_two_pow_sub_one_eq_mod]
  have hstep : (fun uc c => uc <<< 6 ||| c &&& 0x3F) = fun uc c => uc * 64 + c % 64 := by
    funext uc c
    rw [show c &&& 0x3F = c % 2 ^ 6 from Nat.and_two_pow_sub_one_eq_mod c 6,
      shiftLeft_or_of_lt (Nat.mod_lt _ (Nat.two_pow_pos 6))]
    rfl
  have hn : (-charMap b).toNat = k + 1 := by omega
  unfold queryConvert
  dsimp only
  by_cases hlen : k ≤ rest.length
  · rw [if_neg (by simp only [List.length_cons]; omega), if_neg (by omega), if_pos (by omega), hn, hmask, hstep,
      Nat.add_sub_cancel]
    by_cases hl : isLegal (b :: rest) (k + 1) = true
    · rw [if_pos hl, if_pos ⟨hlen, hl⟩]
    · rw [if_neg hl, if_neg (fun h => hl h.2), if_pos hlen]
  · rw [if_pos (by simp only [List.length_cons]; omega), if_neg (fun h => hlen h.1), if_neg hlen, hk]

/-- A lead octet of a sequence of `k + 1` octets: too few octets, or illegal ones, do not decode;
otherwise the low bits of the lead and six bits of each octet after it make the code point. -/
lemma convertUTF8ToCodePoint_of_lead {b : ℕ} {k : ℕ} (hk : charMap b = -((k : ℤ) + 1)) (hk1 : 1 ≤ k)
    (hk3 : k ≤ 3) (rest : List ℕ) :
    convertUTF8ToCodePoint (b :: rest) =
      if k ≤ rest.length ∧ isLegal (b :: rest) (k + 1) = true then
        some ((rest.take k).foldl (fun uc c => uc * 64 + c % 64) (b % 2 ^ (6 - k)))
      else none := by
  unfold convertUTF8ToCodePoint
  rw [queryConvert_of_lead hk hk1 hk3]
  split_ifs <;> rfl

/-! The checks of `isLegal` for each length: the octets after the lead are continuation octets, and
the second is narrowed after the leads `E0`, `ED`, `F0` and `F4`. -/

lemma isLegal_two {b0 : ℕ} (h1 : 0xC0 ≤ b0) (h2 : b0 < 0xE0) (b1 : ℕ) (rest : List ℕ) :
    isLegal (b0 :: b1 :: rest) 2 = true ↔ 0xC2 ≤ b0 ∧ 0x80 ≤ b1 ∧ b1 ≤ 0xBF := by
  unfold isLegal
  simp
  split_ifs <;> omega

lemma isLegal_three {b0 : ℕ} (h1 : 0xE0 ≤ b0) (h2 : b0 < 0xF0) (b1 b2 : ℕ) (rest : List ℕ) :
    isLegal (b0 :: b1 :: b2 :: rest) 3 = true ↔ 0x80 ≤ b1 ∧ b1 ≤ 0xBF ∧ 0x80 ≤ b2 ∧ b2 ≤ 0xBF ∧
      (b0 = 0xE0 → 0xA0 ≤ b1) ∧ (b0 = 0xED → b1 ≤ 0x9F) := by
  unfold isLegal
  simp
  split_ifs <;> omega

lemma isLegal_four {b0 : ℕ} (h1 : 0xF0 ≤ b0) (h2 : b0 < 0xF8) (b1 b2 b3 : ℕ) (rest : List ℕ) :
    isLegal (b0 :: b1 :: b2 :: b3 :: rest) 4 = true ↔ b0 ≤ 0xF4 ∧ 0x80 ≤ b1 ∧ b1 ≤ 0xBF ∧ 0x80 ≤ b2 ∧
      b2 ≤ 0xBF ∧ 0x80 ≤ b3 ∧ b3 ≤ 0xBF ∧ (b0 = 0xF0 → 0x90 ≤ b1) ∧ (b0 = 0xF4 → b1 ≤ 0x8F) := by
  unfold isLegal
  simp
  split_ifs <;> omega

lemma convertUTF8ToCodePoint_convertCodePointToUTF8 {ch : ℕ} (hs : IsScalarValue ch) :
    convertUTF8ToCodePoint (convertCodePointToUTF8 ch) = some ch := by
  obtain ⟨hmax, hsur⟩ := hs
  rcases Nat.lt_or_ge 0x7F ch with h1 | h1
  swap
  · rw [convertCodePointToUTF8_of_le h1, convertUTF8ToCodePoint_ascii (by omega)]
  rcases Nat.lt_or_ge 0x7FF ch with h2 | h2
  swap
  · rw [convertCodePointToUTF8_eq_two h1 h2,
      convertUTF8ToCodePoint_of_lead (charMap_of_two (by omega) (by omega)) le_rfl (by norm_num),
      if_pos ⟨by simp, (isLegal_two (by omega) (by omega) _ _).mpr (by omega)⟩]
    simp only [List.take, List.foldl]
    congr 1
    omega
  rcases Nat.lt_or_ge 0xFFFF ch with h3 | h3
  swap
  · -- the lead `E0` comes only with the code points from `800`, the lead `ED` only below the surrogates
    rw [convertCodePointToUTF8_eq_three h2 h3,
      convertUTF8ToCodePoint_of_lead (charMap_of_three (by omega) (by omega)) (by norm_num) (by norm_num),
      if_pos ⟨by simp, (isLegal_three (by omega) (by omega) _ _ _).mpr (by omega)⟩]
    simp only [List.take, List.foldl]
    congr 1
    omega
  · rw [convertCodePointToUTF8_eq_four h3 hmax,
      convertUTF8ToCodePoint_of_lead (charMap_of_four (by omega) (by omega)) (by norm_num) le_rfl,
      if_pos ⟨by simp, (isLegal_four (by omega) (by omega) _ _ _ _).mpr (by omega)⟩]
    simp only [List.take, List.foldl]
    congr 1
    omega

lemma exists_cons_of_le_length {rest : List ℕ} {k : ℕ} (h : k + 1 ≤ rest.length) :
    ∃ b rest', rest = b :: rest' ∧ k ≤ rest'.length := by
  cases rest with
  | nil => simp at h
  | cons b rest' => exact ⟨b, rest', rfl, by simpa using h⟩

/-- What decodes is a scalar value, and the bytes begin with the sequence `convert` writes for it. -/
lemma convertCodePointToUTF8_of_convertUTF8ToCodePoint {bytes : List ℕ} {ch : ℕ}
    (h : convertUTF8ToCodePoint bytes = some ch) :
    IsScalarValue ch ∧ ∃ rest, bytes = convertCodePointToUTF8 ch ++ rest := by
  rcases bytes with _ | ⟨b0, rest⟩
  · cases h
  rcases Nat.lt_or_ge b0 0x80 with h0 | h0
  · rw [convertUTF8ToCodePoint_ascii h0] at h
    cases h
    exact ⟨⟨by omega, by omega⟩, rest, by rw [convertCodePointToUTF8_of_le (by omega)]; rfl⟩
  by_cases hinv : b0 < 0xC0 ∨ 0xF8 ≤ b0
  · rw [convertUTF8ToCodePoint_of_invalid (by omega)] at h
    cases h
  rcases Nat.lt_or_ge b0 0xE0 with h2 | h2
  · rw [convertUTF8ToCodePoint_of_lead (charMap_of_two (by omega) h2) le_rfl (by norm_num)] at h
    split_ifs at h with hl
    obtain ⟨b1, rest, rfl, -⟩ := exists_cons_of_le_length hl.1
    have hb := (isLegal_two (by omega) h2 b1 rest).mp hl.2
    simp only [List.take, List.foldl, Option.some.injEq] at h
    subst h
    refine ⟨⟨by omega, by omega⟩, rest, ?_⟩
    rw [convertCodePointToUTF8_eq_two (by omega) (by omega)]
    simp only [List.cons_append, List.nil_append, List.cons.injEq, and_true]
    omega
  rcases Nat.lt_or_ge b0 0xF0 with h3 | h3
  · -- the checks on the second octet rule out the overlong sequences and the surrogates
    rw [convertUTF8ToCodePoint_of_lead (charMap_of_three h2 h3) (by norm_num) (by norm_num)] at h
    split_ifs at h with hl
    obtain ⟨b1, rest, rfl, hlen⟩ := exists_cons_of_le_length hl.1
    obtain ⟨b2, rest, rfl, -⟩ := exists_cons_of_le_length hlen
    have hb := (isLegal_three h2 h3 b1 b2 rest).mp hl.2
    simp only [List.take, List.foldl, Option.some.injEq] at h
    subst h
    refine ⟨⟨by omega, by omega⟩, rest, ?_⟩
    rw [convertCodePointToUTF8_eq_three (by omega) (by omega)]
    simp only [List.cons_append, List.nil_append, List.cons.injEq, and_true]
    omega
  · -- and here the sequences past `10FFFF`
    rw [convertUTF8ToCodePoint_of_lead (charMap_of_four h3 (by omega)) (by norm_num) le_rfl] at h
    split_ifs at h with hl
    obtain ⟨b1, rest, rfl, hlen₁⟩ := exists_cons_of_le_length hl.1
    obtain ⟨b2, rest, rfl, hlen₂⟩ := exists_cons_of_le_length hlen₁
    obtain ⟨b3, rest, rfl, -⟩ := exists_cons_of_le_length hlen₂
    have hb := (isLegal_four h3 (by omega) b1 b2 b3 rest).mp hl.2
    simp only [List.take, List.foldl, Option.some.injEq] at h
    subst h
    refine ⟨⟨by omega, by omega⟩, rest, ?_⟩
    rw [convertCodePointToUTF8_eq_four (by omega) (by omega)]
    simp only [List.cons_append, List.nil_append, List.cons.injEq, and_true]
    omega

theorem convertUTF8ToCodePoint_eq_some_iff (bytes : List ℕ) (ch : ℕ) :
    convertUTF8ToCodePoint bytes = some ch ↔ IsScalarValue ch ∧ ∃ rest, bytes = convertCodePointToUTF8 ch ++ rest := by
  constructor
  · exact convertCodePointToUTF8_of_convertUTF8ToCodePoint
  · rintro ⟨hs, rest, rfl⟩
    exact convertUTF8ToCodePoint_append rest (convertUTF8ToCodePoint_convertCodePointToUTF8 hs)

end RoundTrip

end ClickHouse.Common.UTF8
