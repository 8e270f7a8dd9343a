import ClickHouse.Base.DecomposedFloat

/-! `Core/AccurateComparison.h`: comparison of numbers of two numeric types by their values, and the
conversion of a number to another numeric type. Integers of at most 32 bits meet a float as
`double`s, where both convert exactly; wider integers go through `DecomposedFloat::compare`. -/

namespace ClickHouse.Core.Accurate

open ClickHouse.Lib ClickHouse.Base

/-- The numeric types: the integers, `BFloat16`, `Float32` and `Float64`. -/
inductive NumberType
  | int (t : IntType)
  | float (t : FloatType)
  deriving DecidableEq, Repr

namespace NumberType

/-- A value of the type: an integer in its range, or a float's bits. -/
def Value : NumberType → Type
  | int t => t.Value
  | float t => DecomposedFloat t

/-- The mathematical value. -/
def value : (A : NumberType) → A.Value → ExtValue
  | int _, a => .finite a.1
  | float _, a => a.value

/-- `isNaN`: false on integers. -/
def isNaN : (A : NumberType) → A.Value → Bool
  | int _, _ => false
  | float _, a => a.isNaN

end NumberType

/-- `accurate::lessOp`. -/
def lessOp : (A B : NumberType) → A.Value → B.Value → Bool
  | .int s, .int t, a, b =>
    -- `is_same_v` and the same signedness compare the integers; otherwise the signed one is cast
    if s = t ∨ s.signed = t.signed then decide (a.1 < b.1)
    else if s.signed then decide (a.1 < 0) || decide (a.1 % 2 ^ (8 * s.bytes) < b.1)
    else decide (0 ≤ b.1) && decide (a.1 < b.1 % 2 ^ (8 * t.bytes))
  | .float _, .float _, a, b => a.value.lt b.value
  | .int s, .float _, a, b =>
    if b.isNaN then false
    else if s.bytes ≤ 4 then (ExtValue.finite a.1).lt b.value
    else b.greater s a.1
  | .float _, .int t, a, b =>
    if a.isNaN then false
    else if t.bytes ≤ 4 then a.value.lt (.finite b.1)
    else a.less t b.1

/-- `accurate::equalsOp`. -/
def equalsOp : (A B : NumberType) → A.Value → B.Value → Bool
  | .int s, .int t, a, b =>
    if s = t ∨ s.signed = t.signed then decide (a.1 = b.1)
    else if s.signed then decide (0 ≤ a.1) && decide (a.1 % 2 ^ (8 * s.bytes) = b.1)
    else decide (0 ≤ b.1) && decide (a.1 = b.1 % 2 ^ (8 * t.bytes))
  | .float _, .float _, a, b => a.value.eq b.value
  | .int s, .float _, a, b =>
    if b.isNaN then false
    else if s.bytes ≤ 4 then (ExtValue.finite a.1).eq b.value
    else b.equals s a.1
  | .float _, .int t, a, b =>
    if a.isNaN then false
    else if t.bytes ≤ 4 then a.value.eq (.finite b.1)
    else a.equals t b.1

def greaterOp (A B : NumberType) (a : A.Value) (b : B.Value) : Bool := lessOp B A b a

/-- The largest finite float: the exponent field one below all ones over an all-ones mantissa. -/
def DecomposedFloat.maxFinite (t : FloatType) : DecomposedFloat t :=
  ⟨(2 ^ t.exponentBits - 1) * 2 ^ t.mantissaBits - 1, by cases t <;> decide⟩

/-- The most negative finite float: the largest finite one with the sign bit set. -/
def DecomposedFloat.lowestFinite (t : FloatType) : DecomposedFloat t :=
  ⟨2 ^ (t.bits - 1) + (2 ^ t.exponentBits - 1) * 2 ^ t.mantissaBits - 1, by cases t <;> decide⟩

/-- `std::numeric_limits<To>::max()`. -/
def NumberType.maxValue : (A : NumberType) → A.Value
  | .int t => ⟨t.max, by
      have := t.lowest_nonpos
      have : (0 : ℤ) < 2 ^ t.valueBits := pow_pos two_pos _
      exact ⟨by unfold IntType.max; omega, le_refl _⟩⟩
  | .float t => DecomposedFloat.maxFinite t

/-- `std::numeric_limits<To>::lowest()`. -/
def NumberType.lowestValue : (A : NumberType) → A.Value
  | .int t => ⟨t.lowest, by
      have := t.lowest_nonpos
      have : (0 : ℤ) < 2 ^ t.valueBits := pow_pos two_pos _
      exact ⟨le_refl _, by unfold IntType.max; omega⟩⟩
  | .float t => DecomposedFloat.lowestFinite t

/-- The early returns of `convertNumeric` between two float types: NaN and the infinities. -/
def convertsAtOnce : (From To : NumberType) → From.Value → Bool
  | .float _, .float _, v => v.isNaN || !v.isFinite
  | _, _, _ => false

/-- `accurate::convertNumeric<From, To, false>`, as the conversion of a number to an `Enum` calls it:
whether the value passes the checks, after which it is `static_cast` to `To`. Between two float
types NaN and the infinities pass at once. -/
def convertNumericNonStrict (From To : NumberType) (value : From.Value) : Bool :=
  if From = To then true
  else convertsAtOnce From To value || !(greaterOp From To value To.maxValue || lessOp From To value To.lowestValue)

/-- Float32 and BFloat16 keep `+∞` in the exponent field `FF`, which reads as the normalized
exponent `128`; an Int256 or UInt256 has magnitudes of 255 or 256 bits, so `compare` never reaches
its branch for the infinities and takes `+∞` for `2 ^ 128`. The ordered comparisons then put `+∞`
below every wider integer and equal to `2 ^ 128`, where its value is above all of them. -/
theorem infinity_compares_as_two_pow_128 (f : FloatType) (hf : f.exponentBits = 8) (i : IntType)
    (hi : i.bytes = 32) (b : i.Value) (hb : 2 ^ 128 ≤ b.1) :
    (DecomposedFloat.posInf f).compare i b.1 = (if b.1 = 2 ^ 128 then 0 else -1) ∧
      lessOp (.float f) (.int i) (DecomposedFloat.posInf f) b = decide (2 ^ 128 < b.1) ∧
      equalsOp (.float f) (.int i) (DecomposedFloat.posInf f) b = decide (b.1 = 2 ^ 128) ∧
      (NumberType.value (.float f) (DecomposedFloat.posInf f)).lt (NumberType.value (.int i) b) = false ∧
      (NumberType.value (.float f) (DecomposedFloat.posInf f)).eq (NumberType.value (.int i) b) = false := by
  -- the fields of `+∞` in both formats with an eight-bit exponent
  have hfields : (DecomposedFloat.posInf f).isNegative = false ∧ (DecomposedFloat.posInf f).mantissa = 0 ∧
      (DecomposedFloat.posInf f).normalizedExponent = (128 : ℕ) ∧ f.mantissaBits ≤ 128 ∧
      (DecomposedFloat.posInf f).isNaN = false := by
    cases f with
    | float64 => exact absurd hf (by decide)
    | bfloat16 | float32 => decide
  obtain ⟨hneg, hm, he, hmb, hnan⟩ := hfields
  have hvb : 128 < i.valueBits := by
    unfold IntType.valueBits
    split_ifs <;> omega
  have hcmp := (DecomposedFloat.posInf f).compare_of_mantissa_zero hneg hm he hmb hvb hb
  have hwide : ¬i.bytes ≤ 4 := by omega
  refine ⟨hcmp, ?_, ?_, ?_, ?_⟩
  · unfold lessOp
    simp only [hnan, hwide, Bool.false_eq_true, ↓reduceIte, DecomposedFloat.less, hcmp]
    by_cases heq : b.1 = 2 ^ 128
    · rw [if_pos heq, decide_eq_false (lt_irrefl 0), decide_eq_false (by rw [heq]; exact lt_irrefl _)]
    · have hgt : 2 ^ 128 < b.1 := lt_of_le_of_ne hb (Ne.symm heq)
      rw [if_neg heq, decide_eq_true (by norm_num), decide_eq_true hgt]
  · unfold equalsOp
    simp only [hnan, hwide, Bool.false_eq_true, ↓reduceIte, DecomposedFloat.equals, hcmp]
    by_cases heq : b.1 = 2 ^ 128
    · rw [if_pos heq, decide_eq_true rfl, decide_eq_true heq]
    · rw [if_neg heq, decide_eq_false (by norm_num), decide_eq_false heq]
  · simp only [NumberType.value, DecomposedFloat.value_posInf, ExtValue.posInf_lt]
  · simp only [NumberType.value, DecomposedFloat.value_posInf, ExtValue.posInf_eq_finite]

theorem infinity_compares_as_two_pow_128_uint256 :
    equalsOp (.float .float32) (.int .uint256) (DecomposedFloat.posInf .float32) ⟨2 ^ 128, by decide⟩ = true ∧
      lessOp (.float .float32) (.int .uint256) (DecomposedFloat.posInf .float32) ⟨2 ^ 200, by decide⟩ = true := by
  obtain ⟨-, -, heq, -, -⟩ :=
    infinity_compares_as_two_pow_128 .float32 rfl .uint256 rfl ⟨2 ^ 128, by decide⟩ le_rfl
  obtain ⟨-, hlt, -, -, -⟩ :=
    infinity_compares_as_two_pow_128 .float32 rfl .uint256 rfl ⟨2 ^ 200, by decide⟩ (by norm_num)
  exact ⟨heq.trans (by decide), hlt.trans (by decide)⟩

/-- Both range checks of `convertNumeric` are ordered comparisons, false on NaN, so the non-strict
conversion to an integer type accepts every NaN, and the `static_cast` that follows is undefined. -/
lemma convertNumericNonStrict_nan (f : FloatType) (t : IntType) (x : DecomposedFloat f) (hx : x.isNaN = true) :
    convertNumericNonStrict (.float f) (.int t) x = true := by
  have hne : NumberType.float f ≠ NumberType.int t := NumberType.noConfusion
  unfold convertNumericNonStrict convertsAtOnce greaterOp lessOp
  simp only [hne, if_false, hx, if_true, Bool.or_self, Bool.not_false, Bool.or_true]

end ClickHouse.Core.Accurate
