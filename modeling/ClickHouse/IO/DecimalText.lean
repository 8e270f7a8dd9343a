import ClickHouse.IO.IntText
import ClickHouse.Lib.FixedDigits
import ClickHouse.Common.ErrorCodes
import Mathlib

/-! `IO/WriteHelpers.h`: the text of a decimal, the value `x / 10 ^ scale` of its integer `x`, as
`writeText(Decimal)` and `writeDecimalFractional` write it, and `toDecimalString`, which asks for a
fixed number of fractional digits. The integer is read as an `ℤ`: the functions divide it and take
remainders, and nothing they compute leaves the range of its type. For `Int128` and `Int256`,
`writeDecimalFractional` moves a small fractional part to a narrower unsigned type first; that keeps
its value. -/

namespace ClickHouse.IO.DecimalText

open ClickHouse.Lib.FixedDigits ClickHouse.Common ClickHouse.IO

/-- `DecimalUtils::max_precision<Decimal256>`, the largest scale of a decimal type. -/
def maxDecimalPrecision : ℕ := 76

/-- `std::numeric_limits<UInt256>::digits10`, the most fractional digits `toDecimalString` writes. -/
def maxFractionalDigits : ℕ := 77

/-- `DecimalUtils::getWholePart`: the quotient by `10 ^ scale`, rounded towards zero. -/
def getWholePart (x : ℤ) (scale : ℕ) : ℤ :=
  if scale = 0 then x else x.tdiv (10 ^ scale)

/-- `DecimalUtils::getFractionalPart`: the remainder by `10 ^ scale`, made positive unless the whole
part is zero. -/
def getFractionalPart (x : ℤ) (scale : ℕ) : ℤ :=
  if scale = 0 then 0
  else
    let result := x.tmod (10 ^ scale)
    if x.tdiv (10 ^ scale) ≠ 0 ∧ result < 0 then -result else result

/-- The rounds of the digit loop of `writeDecimalFractional`: its start position
`std::min(scale - 1, fractional_length - 1)` is computed in `UInt32` and read as an `Int32`, and the
loop runs from it down to 0. -/
def startCount (fixedFractionalLength : Bool) (scale fractionalLength : ℕ) : ℕ :=
  let pred := fun n : ℕ => (n + (2 ^ 32 - 1)) % 2 ^ 32
  let pos := if fixedFractionalLength then min (pred scale) (pred fractionalLength) else pred scale
  if pos < 2 ^ 31 then pos + 1 else 0

/-- The digit loop of `writeDecimalFractional`, given the rounds left: the position `pos` takes the
last digit of `value`, and the first nonzero digit sets `last_nonzero_pos`, which starts at 0. -/
def writeFractionalDigits : ℕ → ℕ → ℕ → List Char → ℕ × List Char
  | 0, _, lastNonzeroPos, buf => (lastNonzeroPos, buf)
  | pos + 1, value, lastNonzeroPos, buf =>
    let remainder := value % 10
    writeFractionalDigits pos (value / 10)
      (if remainder ≠ 0 ∧ lastNonzeroPos = 0 then pos else lastNonzeroPos)
      (buf.modify pos fun c => Char.ofNat (c.toNat + remainder))

lemma writeFractionalDigits_succ (pos value lastNonzeroPos : ℕ) (buf : List Char) :
    writeFractionalDigits (pos + 1) value lastNonzeroPos buf =
      writeFractionalDigits pos (value / 10)
        (if value % 10 ≠ 0 ∧ lastNonzeroPos = 0 then pos else lastNonzeroPos)
        (buf.modify pos fun c => Char.ofNat (c.toNat + value % 10)) :=
  rfl

/-- The rounding of `writeDecimalFractional` to `fractionalLength` of the `scale` digits of `x`: the
digit after them decides, and 5 or more rounds up. -/
def roundFractional (x scale fractionalLength : ℕ) : ℕ :=
  let newValue := x / 10 ^ (scale - fractionalLength - 1)
  let roundCarry := newValue % 10
  newValue / 10 + if 5 ≤ roundCarry then 1 else 0

/-- `writeDecimalFractional` of a fractional part `x < 10 ^ scale`: a point and its digits. -/
def writeDecimalFractional (x scale : ℕ) (trailingZeros fixedFractionalLength : Bool) (fractionalLength : ℕ) :
    List Char :=
  let value :=
    if fixedFractionalLength ∧ fractionalLength < scale then roundFractional x scale fractionalLength else x
  let (lastNonzeroPos, buf) := writeFractionalDigits (startCount fixedFractionalLength scale fractionalLength) value 0
    (List.replicate (max scale fractionalLength) '0')
  '.' :: buf.take (if fixedFractionalLength then fractionalLength else if trailingZeros then scale else lastNonzeroPos + 1)

/-- `writeText(Decimal<T> x, scale, ...)`. -/
def writeText (x : ℤ) (scale : ℕ) (trailingZeros fixedFractionalLength : Bool) (fractionalLength : ℕ)
    (forceDecimalPoint : Bool) : List Char :=
  let part := getWholePart x scale
  -- the minus sign that the whole part cannot carry when it is zero
  let sign := if x < 0 ∧ part = 0 then ['-'] else []
  let fractional :=
    if scale ≠ 0 ∨ (fixedFractionalLength ∧ 0 < fractionalLength) then
      let part := getFractionalPart x scale
      if part ≠ 0 ∨ trailingZeros then
        writeDecimalFractional part.natAbs scale trailingZeros fixedFractionalLength fractionalLength
      else []
    else []
  sign ++ writeIntText part ++ if forceDecimalPoint ∧ fractional = [] then ['.'] else fractional

/-- `toDecimalString` of a decimal with `precision` fractional digits. -/
def toDecimalString (x : ℤ) (scale precision : ℕ) : Except ErrorCode (List Char) :=
  if maxFractionalDigits < precision then .error .cannotPrintFloatOrDoubleNumber
  else .ok (writeText x scale true true precision false)

/-! ### The texts the output is compared with -/

/-- The exact decimal expansion of `x / 10 ^ scale`: a minus for a negative `x`, the whole part, and
the `scale` fractional digits after a point, without their trailing zeros unless `trailingZeros`
says to keep them, and with no point when nothing is left after it. -/
def decimalExpansion (x : ℤ) (scale : ℕ) (trailingZeros : Bool) : List Char :=
  let fractional := fixedDigits 10 scale (x.natAbs % 10 ^ scale)
  let kept := if trailingZeros then fractional else fractional.rdropWhile (· = '0')
  (if x < 0 then ['-'] else []) ++ Nat.toDigits 10 (x.natAbs / 10 ^ scale) ++ if kept = [] then [] else '.' :: kept

/-- `|x| / 10 ^ scale` rounded half up to `precision` fractional digits, in units of
`10 ^ -precision`. -/
def roundedUnits (x : ℤ) (scale precision : ℕ) : ℕ :=
  (2 * x.natAbs * 10 ^ precision + 10 ^ scale) / (2 * 10 ^ scale)

/-- `x / 10 ^ scale` rounded half away from zero to exactly `precision` fractional digits, with no
point when `precision` is 0. -/
def roundedExpansion (x : ℤ) (scale precision : ℕ) : List Char :=
  let units := roundedUnits x scale precision
  (if x < 0 then ['-'] else []) ++ Nat.toDigits 10 (units / 10 ^ precision) ++
    if precision = 0 then [] else '.' :: fixedDigits 10 precision (units % 10 ^ precision)

/-! ### The digit loop -/

lemma modify_replicate_append {α : Type} (a : α) (f : α → α) (k : ℕ) (rest : List α) :
    (List.replicate (k + 1) a ++ rest).modify k f = List.replicate k a ++ f a :: rest := by
  induction k with
  | zero => rfl
  | succ k ih =>
    rw [List.replicate_succ, List.cons_append, List.modify_succ_cons, ih, List.replicate_succ, List.cons_append]

/-- The loop fills a field of zeros with the last digits of the value. -/
lemma writeFractionalDigits_snd (count value last : ℕ) (rest : List Char) :
    (writeFractionalDigits count value last (List.replicate count '0' ++ rest)).2 = fixedDigits 10 count value ++ rest := by
  induction count generalizing value last rest with
  | zero => rfl
  | succ k ih =>
    rw [writeFractionalDigits_succ]
    rw [modify_replicate_append, ih, fixedDigits_succ, List.append_assoc,
      ofNat_zero_add_eq_digitChar (Nat.mod_lt value (by decide))]
    rfl

lemma writeFractionalDigits_fst_of_ne_zero {last : ℕ} (h : last ≠ 0) (count value : ℕ) (buf : List Char) :
    (writeFractionalDigits count value last buf).1 = last := by
  induction count generalizing value buf with
  | zero => rfl
  | succ k ih =>
    rw [writeFractionalDigits_succ]
    rw [if_neg (fun hc => h hc.2), ih]

/-- The first nonzero digit from the right ends the digits kept without their trailing zeros. -/
lemma writeFractionalDigits_fst (count value : ℕ) (buf : List Char) (h : value % 10 ^ count ≠ 0) :
    (writeFractionalDigits count value 0 buf).1 + 1 = ((fixedDigits 10 count value).rdropWhile (· = '0')).length := by
  induction count generalizing value buf with
  | zero => simp [Nat.mod_one] at h
  | succ k ih =>
    have hd : value % 10 < 10 := Nat.mod_lt value (by decide)
    have hsplit := mod_pow_succ_eq 10 k value
    rw [writeFractionalDigits_succ]
    rw [fixedDigits_succ, List.rdropWhile_concat]
    by_cases hr : value % 10 = 0
    · have hk : value / 10 % 10 ^ k ≠ 0 := by
        intro hk
        apply h
        rw [hsplit, hk, hr]
      rw [if_neg (fun hc => hc.1 hr), ih _ _ hk, if_pos (by simp [hr])]
    · rw [if_pos (by simp [hr]), if_neg (by simpa [digitChar_eq_zero_iff hd] using hr)]
      rcases k with _ | k
      · rfl
      · rw [writeFractionalDigits_fst_of_ne_zero (Nat.succ_ne_zero k)]
        simp

lemma pred_wrap {n : ℕ} (h0 : 0 < n) (h : n ≤ 2 ^ 31) : (n + (2 ^ 32 - 1)) % 2 ^ 32 = n - 1 := by
  rw [show n + (2 ^ 32 - 1) = (n - 1) + 2 ^ 32 by omega, Nat.add_mod_right, Nat.mod_eq_of_lt (by omega)]

lemma startCount_not_fixed {scale : ℕ} (h0 : 0 < scale) (h : scale ≤ 2 ^ 31) (fractionalLength : ℕ) :
    startCount false scale fractionalLength = scale := by
  unfold startCount
  dsimp only
  rw [if_neg Bool.false_ne_true, pred_wrap h0 h, if_pos (by omega)]
  omega

lemma startCount_fixed {scale p : ℕ} (hp : 0 < p) (hp' : p ≤ 2 ^ 31) (h : scale ≤ 2 ^ 31) :
    startCount true scale p = if scale = 0 then p else min scale p := by
  unfold startCount
  dsimp only
  rw [if_pos rfl, pred_wrap hp hp']
  by_cases h0 : scale = 0
  · subst h0
    have hmax : (0 + (2 ^ 32 - 1)) % 2 ^ 32 = 2 ^ 32 - 1 := by norm_num
    rw [if_pos rfl, hmax, min_eq_right (by omega), if_pos (by omega)]
    omega
  · rw [if_neg h0, pred_wrap (Nat.pos_of_ne_zero h0) h, if_pos (by omega)]
    omega

/-- Without a fixed length, the point and the digits of the part, with or without trailing zeros. -/
lemma writeDecimalFractional_not_fixed {x scale : ℕ} (h0 : 0 < scale) (h : scale ≤ 2 ^ 31) {trailingZeros : Bool}
    (hx : trailingZeros = false → x % 10 ^ scale ≠ 0) :
    writeDecimalFractional x scale trailingZeros false 0 =
      '.' :: if trailingZeros then fixedDigits 10 scale x else (fixedDigits 10 scale x).rdropWhile (· = '0') := by
  have hbuf := writeFractionalDigits_snd scale x 0 []
  rw [List.append_nil, List.append_nil] at hbuf
  rw [writeDecimalFractional]
  rw [if_neg (by simp), startCount_not_fixed h0 h, Nat.max_zero]
  dsimp only
  rw [hbuf]
  cases trailingZeros with
  | true => simp
  | false =>
    simp only [Bool.false_eq_true, if_false]
    rw [writeFractionalDigits_fst scale x _ (hx rfl)]
    exact congrArg (List.cons '.') ((List.prefix_iff_eq_take).mp (List.rdropWhile_prefix _ _)).symm

/-- With a fixed length below the scale, the point and the digits of the rounded part. -/
lemma writeDecimalFractional_fixed_of_lt {x scale p : ℕ} (hp : 0 < p) (hpS : p < scale) (h : scale ≤ 2 ^ 31)
    (trailingZeros : Bool) :
    writeDecimalFractional x scale trailingZeros true p = '.' :: fixedDigits 10 p (roundFractional x scale p) := by
  have hbuf := writeFractionalDigits_snd p (roundFractional x scale p) 0 (List.replicate (scale - p) '0')
  have hfield : List.replicate scale '0' = List.replicate p '0' ++ List.replicate (scale - p) '0' := by
    rw [← List.replicate_add, Nat.add_sub_cancel' hpS.le]
  rw [writeDecimalFractional]
  rw [if_pos ⟨rfl, hpS⟩, startCount_fixed hp (by omega) h, if_neg (by omega), min_eq_right hpS.le,
    max_eq_left hpS.le, hfield]
  dsimp only
  rw [hbuf, if_pos rfl, List.take_append_of_le_length (by simp), List.take_of_length_le (by simp)]

/-- With a fixed length at least the scale, the point, the digits of the part and zeros. -/
lemma writeDecimalFractional_fixed_of_le {x scale p : ℕ} (hp : 0 < p) (hSp : scale ≤ p) (h : p ≤ 2 ^ 31)
    (hx : scale = 0 → x = 0) (trailingZeros : Bool) :
    writeDecimalFractional x scale trailingZeros true p =
      '.' :: (fixedDigits 10 scale x ++ List.replicate (p - scale) '0') := by
  rw [writeDecimalFractional]
  rw [if_neg (by omega), startCount_fixed hp h (by omega), max_eq_right hSp]
  dsimp only
  by_cases h0 : scale = 0
  · subst h0
    have hbuf := writeFractionalDigits_snd p 0 0 []
    rw [List.append_nil, List.append_nil, fixedDigits_zero_value] at hbuf
    rw [if_pos rfl, if_pos rfl, hx rfl, hbuf, List.take_of_length_le (by simp), fixedDigits_zero, List.nil_append,
      Nat.sub_zero]
  · have hbuf := writeFractionalDigits_snd scale x 0 (List.replicate (p - scale) '0')
    have hfield : List.replicate p '0' = List.replicate scale '0' ++ List.replicate (p - scale) '0' := by
      rw [← List.replicate_add, Nat.add_sub_cancel' hSp]
    rw [if_neg h0, min_eq_left hSp, hfield, hbuf, if_pos rfl, List.take_of_length_le (by simp; omega)]

lemma writeDecimalFractional_fixed_zero (x scale : ℕ) (trailingZeros : Bool) :
    writeDecimalFractional x scale trailingZeros true 0 = ['.'] := by
  rw [writeDecimalFractional]
  split
  rw [if_pos rfl, List.take_zero]

/-! ### The whole part -/

lemma natAbs_getWholePart (x : ℤ) (scale : ℕ) : (getWholePart x scale).natAbs = x.natAbs / 10 ^ scale := by
  unfold getWholePart
  split_ifs with h0
  · rw [h0, pow_zero, Nat.div_one]
  · rw [Int.natAbs_tdiv, Int.natAbs_pow]
    rfl

/-- The whole part is rounded towards zero: it has the sign of `x`, or is zero. -/
lemma getWholePart_nonneg {x : ℤ} (hx : 0 ≤ x) (scale : ℕ) : 0 ≤ getWholePart x scale := by
  unfold getWholePart
  split_ifs
  · exact hx
  · exact Int.tdiv_nonneg hx (by positivity)

lemma getWholePart_nonpos {x : ℤ} (hx : x < 0) (scale : ℕ) : getWholePart x scale ≤ 0 := by
  have h := getWholePart_nonneg (neg_nonneg.mpr hx.le) scale
  unfold getWholePart at h ⊢
  split_ifs at h ⊢
  · omega
  · rw [Int.neg_tdiv] at h
    omega

/-- The sign `writeText` adds and the text of the whole part: a minus for every negative `x`. -/
lemma sign_append_writeIntText_getWholePart (x : ℤ) (scale : ℕ) :
    (if x < 0 ∧ getWholePart x scale = 0 then ['-'] else []) ++ writeIntText (getWholePart x scale) =
      (if x < 0 then ['-'] else []) ++ Nat.toDigits 10 (x.natAbs / 10 ^ scale) := by
  rw [← natAbs_getWholePart]
  unfold writeIntText
  by_cases hx : x < 0
  · by_cases hw : getWholePart x scale = 0
    · simp [hx, hw]
    · have hneg : getWholePart x scale < 0 := lt_of_le_of_ne (getWholePart_nonpos hx scale) hw
      simp [hx, hw, hneg]
  · have hnn := getWholePart_nonneg (not_lt.mp hx) scale
    have htoNat : (getWholePart x scale).toNat = (getWholePart x scale).natAbs := by omega
    rw [if_neg (fun h => hx h.1), if_neg hx, if_neg (not_lt.mpr hnn), htoNat]

lemma natAbs_getFractionalPart (x : ℤ) {scale : ℕ} (h0 : scale ≠ 0) :
    (getFractionalPart x scale).natAbs = x.natAbs % 10 ^ scale := by
  unfold getFractionalPart
  rw [if_neg h0]
  dsimp only
  split_ifs
  · rw [Int.natAbs_neg, Int.natAbs_tmod, Int.natAbs_pow]
    rfl
  · rw [Int.natAbs_tmod, Int.natAbs_pow]
    rfl

/-! ### Rounding -/

/-- Half up to a unit of `P`: the digit after the units decides. -/
lemma round_half_up_div (f P : ℕ) (hP : 0 < P) :
    (2 * f + 10 * P) / (20 * P) = f / P / 10 + if 5 ≤ f / P % 10 then 1 else 0 := by
  have hf := Nat.div_add_mod f P
  have hn := Nat.div_add_mod (f / P) 10
  have hr := Nat.mod_lt f hP
  have hd := Nat.mod_lt (f / P) (show 0 < 10 by decide)
  generalize f / P % 10 = d at hn hd ⊢
  generalize f / P / 10 = q at hn hd ⊢
  generalize f / P = n at hf hn
  generalize f % P = r at hf hr
  subst hf hn
  apply Nat.div_eq_of_lt_le
  · split_ifs with h5 <;> nlinarith
  · split_ifs with h5 <;> nlinarith

lemma roundedUnits_eq_of_lt (x : ℤ) {scale p : ℕ} (h : p < scale) :
    roundedUnits x scale p = x.natAbs / 10 ^ scale * 10 ^ p + roundFractional (x.natAbs % 10 ^ scale) scale p := by
  obtain ⟨k, rfl⟩ : ∃ k, scale = p + k + 1 := ⟨scale - p - 1, by omega⟩
  have hP : 0 < 10 ^ k := by positivity
  have hsplit := Nat.div_add_mod x.natAbs (10 ^ (p + k + 1))
  have hpow : 10 ^ (p + k + 1) = 10 ^ p * (10 * 10 ^ k) := by ring
  unfold roundedUnits roundFractional
  rw [show p + k + 1 - p - 1 = k by omega, ← round_half_up_div _ _ hP]
  generalize x.natAbs / 10 ^ (p + k + 1) = w at hsplit ⊢
  generalize x.natAbs % 10 ^ (p + k + 1) = f at hsplit ⊢
  rw [← hsplit, hpow,
    show 2 * (10 ^ p * (10 * 10 ^ k) * w + f) * 10 ^ p + 10 ^ p * (10 * 10 ^ k) =
      10 ^ p * (20 * 10 ^ k * (w * 10 ^ p) + (2 * f + 10 * 10 ^ k)) by ring,
    show 2 * (10 ^ p * (10 * 10 ^ k)) = 10 ^ p * (20 * 10 ^ k) by ring,
    Nat.mul_div_mul_left _ _ (by positivity), Nat.add_comm, Nat.add_mul_div_left _ _ (by positivity), Nat.add_comm]

lemma roundedUnits_eq_of_le (x : ℤ) {scale p : ℕ} (h : scale ≤ p) :
    roundedUnits x scale p = x.natAbs * 10 ^ (p - scale) := by
  unfold roundedUnits
  rw [show 2 * x.natAbs * 10 ^ p + 10 ^ scale = 10 ^ scale * (2 * (x.natAbs * 10 ^ (p - scale)) + 1) by
      rw [show p = scale + (p - scale) by omega, pow_add]; rw [Nat.add_sub_cancel_left]; ring,
    show 2 * 10 ^ scale = 10 ^ scale * 2 by ring, Nat.mul_div_mul_left _ _ (by positivity)]
  omega

/-- The part rounded to `p` of its `scale` digits is at most one unit of `10 ^ p`. -/
lemma roundFractional_le {f scale p : ℕ} (hf : f < 10 ^ scale) (h : p < scale) :
    roundFractional f scale p ≤ 10 ^ p := by
  obtain ⟨k, rfl⟩ : ∃ k, scale = p + k + 1 := ⟨scale - p - 1, by omega⟩
  have hlt : f / 10 ^ k < 10 ^ p * 10 := by
    rw [Nat.div_lt_iff_lt_mul (by positivity)]
    calc f < 10 ^ (p + k + 1) := hf
      _ = 10 ^ p * 10 * 10 ^ k := by ring
  unfold roundFractional
  rw [show p + k + 1 - p - 1 = k by omega]
  dsimp only
  split_ifs <;> omega

/-! ### The texts written -/

lemma scale_le_of_le_maxDecimalPrecision {scale : ℕ} (h : scale ≤ maxDecimalPrecision) : scale ≤ 2 ^ 31 :=
  h.trans (by decide)

/-- Without a fixed length, the text is the exact decimal expansion: the sign, the whole part, and
the fractional digits, with or without their trailing zeros. -/
theorem writeText_eq_decimalExpansion (x : ℤ) (scale : ℕ) (trailingZeros : Bool) (hS : scale ≤ maxDecimalPrecision) :
    writeText x scale trailingZeros false 0 false = decimalExpansion x scale trailingZeros := by
  rw [writeText, decimalExpansion]
  dsimp only
  rw [sign_append_writeIntText_getWholePart]
  congr 1
  by_cases h0 : scale = 0
  · subst h0
    simp
  · have hf := natAbs_getFractionalPart x h0
    have hwrite := @writeDecimalFractional_not_fixed (x.natAbs % 10 ^ scale) scale (Nat.pos_of_ne_zero h0)
      (scale_le_of_le_maxDecimalPrecision hS) trailingZeros
    have hnil : (fixedDigits 10 scale (x.natAbs % 10 ^ scale)).rdropWhile (· = '0') = [] ↔
        x.natAbs % 10 ^ scale = 0 := by
      rw [rdropWhile_fixedDigits_eq_nil_iff, Nat.mod_mod]
    have hne : fixedDigits 10 scale (x.natAbs % 10 ^ scale) ≠ [] := by
      rw [← List.length_pos_iff, length_fixedDigits]
      omega
    rw [if_pos (Or.inl h0)]
    by_cases hz : x.natAbs % 10 ^ scale = 0
    · have hpart : getFractionalPart x scale = 0 := by rw [← Int.natAbs_eq_zero, hf, hz]
      cases trailingZeros with
      | false => simp [hpart, hnil.mpr hz]
      | true =>
        rw [if_pos (Or.inr rfl), hf, hwrite (fun h => by cases h)]
        simp [hne]
    · have hpart : getFractionalPart x scale ≠ 0 := by rw [← Int.natAbs_ne_zero, hf]; exact hz
      rw [if_pos (Or.inl hpart), hf, hwrite (fun _ => by rwa [Nat.mod_mod])]
      cases trailingZeros with
      | false => simp [hnil.not.mpr hz]
      | true => simp [hne]

theorem writeText_eq_decimalExpansion_negative :
    (3 : ℕ) ≤ maxDecimalPrecision ∧ writeText (-12340) 3 false false 0 false = decimalExpansion (-12340) 3 false :=
  ⟨by decide, writeText_eq_decimalExpansion (-12340) 3 false (by decide)⟩

/-- `toDecimalString` with a precision its check accepts writes `writeText` with trailing zeros and
that fixed length. -/
lemma toDecimalString_eq_ok {x : ℤ} {scale precision : ℕ} (hp : precision ≤ maxFractionalDigits) :
    toDecimalString x scale precision = .ok (writeText x scale true true precision false) := by
  rw [toDecimalString, if_neg (not_lt.mpr hp)]

/-- The text of a fixed positive length, from the fractional digits it writes. -/
lemma writeText_fixed {x : ℤ} {scale p : ℕ} (hp : 0 < p) (fractional : List Char)
    (hfrac : writeDecimalFractional (getFractionalPart x scale).natAbs scale true true p = fractional)
    (hne : fractional ≠ []) :
    writeText x scale true true p false =
      (if x < 0 then ['-'] else []) ++ Nat.toDigits 10 (x.natAbs / 10 ^ scale) ++ fractional := by
  rw [writeText]
  dsimp only
  rw [sign_append_writeIntText_getWholePart, if_pos (Or.inr ⟨rfl, hp⟩), if_pos (Or.inr rfl), hfrac]
  simp [hne]

lemma natAbs_getFractionalPart_of_scale_eq_zero {x : ℤ} {scale : ℕ} (h0 : scale = 0) :
    (getFractionalPart x scale).natAbs = 0 := by
  rw [getFractionalPart, if_pos h0]
  rfl

/-- `toDecimalString` rounds half away from zero to the digits asked for, whenever the rounding
does not carry into the whole part, and pads with zeros past the scale. -/
theorem toDecimalString_eq_roundedExpansion (x : ℤ) (scale precision : ℕ) (hp : 0 < precision)
    (hp' : precision ≤ maxFractionalDigits) (hS : scale ≤ maxDecimalPrecision)
    (hcarry : roundedUnits x scale precision / 10 ^ precision = x.natAbs / 10 ^ scale) :
    toDecimalString x scale precision = .ok (roundedExpansion x scale precision) := by
  rw [toDecimalString_eq_ok hp']
  unfold roundedExpansion
  dsimp only
  rw [if_neg (show precision ≠ 0 by omega), hcarry]
  congr 1
  by_cases hpS : precision < scale
  · have hf := natAbs_getFractionalPart x (show scale ≠ 0 by omega)
    have hunits := roundedUnits_eq_of_lt x hpS
    have hle := roundFractional_le (Nat.mod_lt x.natAbs (show 0 < 10 ^ scale by positivity)) hpS
    -- no carry: the rounded part stays below a unit of the whole part
    have hlt : roundFractional (x.natAbs % 10 ^ scale) scale precision < 10 ^ precision := by
      rw [hunits, Nat.add_comm, Nat.add_mul_div_right _ _ (by positivity)] at hcarry
      by_contra hge
      have hone : roundFractional (x.natAbs % 10 ^ scale) scale precision / 10 ^ precision = 1 := by
        rw [show roundFractional (x.natAbs % 10 ^ scale) scale precision = 10 ^ precision by omega,
          Nat.div_self (by positivity)]
      omega
    apply writeText_fixed hp _ _ (List.cons_ne_nil _ _)
    rw [hf, writeDecimalFractional_fixed_of_lt hp hpS (scale_le_of_le_maxDecimalPrecision hS), hunits,
      Nat.add_comm, Nat.add_mul_mod_self_right, Nat.mod_eq_of_lt hlt]
  · obtain ⟨k, rfl⟩ : ∃ k, precision = scale + k := ⟨precision - scale, by omega⟩
    have hfrac : fixedDigits 10 scale (getFractionalPart x scale).natAbs = fixedDigits 10 scale x.natAbs := by
      by_cases h0 : scale = 0
      · subst h0
        rfl
      · rw [natAbs_getFractionalPart x h0, fixedDigits_mod_pow]
    apply writeText_fixed hp _ _ (List.cons_ne_nil _ _)
    rw [writeDecimalFractional_fixed_of_le hp (by omega) (hp'.trans (by decide)) natAbs_getFractionalPart_of_scale_eq_zero,
      roundedUnits_eq_of_le x (by omega), Nat.add_sub_cancel_left, hfrac, fixedDigits_mod_pow, Nat.add_comm scale k,
      fixedDigits_mul_pow (by decide)]


theorem toDecimalString_eq_roundedExpansion_twelve :
    0 < 2 ∧ 2 ≤ maxFractionalDigits ∧ 3 ≤ maxDecimalPrecision ∧
      roundedUnits 12345 3 2 / 10 ^ 2 = (12345 : ℤ).natAbs / 10 ^ 3 ∧
      toDecimalString 12345 3 2 = .ok (roundedExpansion 12345 3 2) :=
  ⟨by decide, by decide, by decide, by decide,
    toDecimalString_eq_roundedExpansion 12345 3 2 (by decide) (by decide) (by decide) (by decide)⟩

/-- When the rounding carries into the whole part, `toDecimalString` drops the carry: it writes the
whole part unchanged and zeros after the point, where the rounded value has the next whole part. -/
theorem toDecimalString_drops_rounding_carry (x : ℤ) (scale precision : ℕ) (hp : 0 < precision)
    (hpS : precision < scale) (hS : scale ≤ maxDecimalPrecision)
    (hcarry : x.natAbs / 10 ^ scale < roundedUnits x scale precision / 10 ^ precision) :
    toDecimalString x scale precision =
        .ok ((if x < 0 then ['-'] else []) ++ Nat.toDigits 10 (x.natAbs / 10 ^ scale) ++
          '.' :: List.replicate precision '0') ∧
      roundedExpansion x scale precision =
        (if x < 0 then ['-'] else []) ++ Nat.toDigits 10 (x.natAbs / 10 ^ scale + 1) ++
          '.' :: List.replicate precision '0' := by
  have hunits := roundedUnits_eq_of_lt x hpS
  have hle := roundFractional_le (Nat.mod_lt x.natAbs (show 0 < 10 ^ scale by positivity)) hpS
  -- the carry makes the rounded part exactly one unit of the whole part
  have hunit : roundFractional (x.natAbs % 10 ^ scale) scale precision = 10 ^ precision := by
    rw [hunits, Nat.add_comm, Nat.add_mul_div_right _ _ (by positivity)] at hcarry
    by_contra hne
    have hzero : roundFractional (x.natAbs % 10 ^ scale) scale precision / 10 ^ precision = 0 :=
      Nat.div_eq_of_lt (by omega)
    omega
  constructor
  · rw [toDecimalString_eq_ok (by unfold maxDecimalPrecision at hS; unfold maxFractionalDigits; omega)]
    congr 1
    apply writeText_fixed hp _ _ (List.cons_ne_nil _ _)
    rw [natAbs_getFractionalPart x (by omega), writeDecimalFractional_fixed_of_lt hp hpS
      (scale_le_of_le_maxDecimalPrecision hS), hunit, ← fixedDigits_mod_pow, Nat.mod_self, fixedDigits_zero_value]
  · unfold roundedExpansion
    dsimp only
    rw [if_neg (show precision ≠ 0 by omega), hunits, hunit, ← Nat.succ_mul,
      Nat.mul_div_cancel _ (by positivity), Nat.mul_mod_left, fixedDigits_zero_value]

theorem toDecimalString_drops_rounding_carry_one_point_999 :
    0 < 2 ∧ 2 < 3 ∧ 3 ≤ maxDecimalPrecision ∧ (1999 : ℤ).natAbs / 10 ^ 3 < roundedUnits 1999 3 2 / 10 ^ 2 ∧
      toDecimalString 1999 3 2 = .ok ((if (1999 : ℤ) < 0 then ['-'] else []) ++
        Nat.toDigits 10 ((1999 : ℤ).natAbs / 10 ^ 3) ++ '.' :: List.replicate 2 '0') ∧
      roundedExpansion 1999 3 2 = (if (1999 : ℤ) < 0 then ['-'] else []) ++
        Nat.toDigits 10 ((1999 : ℤ).natAbs / 10 ^ 3 + 1) ++ '.' :: List.replicate 2 '0' :=
  ⟨by decide, by decide, by decide, by decide,
    toDecimalString_drops_rounding_carry 1999 3 2 (by decide) (by decide) (by decide) (by decide)⟩

example : writeText 1999 3 true true 2 false = "1.00".toList := by decide

example : writeText 15 1 true true 0 false = "1.".toList := by decide

end ClickHouse.IO.DecimalText
