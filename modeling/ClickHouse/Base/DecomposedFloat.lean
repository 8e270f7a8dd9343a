import ClickHouse.Lib.BinaryFloat

/-! `base/DecomposedFloat.h`: the sign, exponent and mantissa of a floating-point number read from
its bits, and the comparison of a float with an integer of any width that `accurate::lessOp` and
`accurate::equalsOp` use for the integers wider than 32 bits. -/

namespace ClickHouse.Base

open ClickHouse.Lib

/-- The integer types of `base/types.h` and `base/extended_types.h`. -/
inductive IntType
  | uint8 | uint16 | uint32 | uint64 | uint128 | uint256
  | int8 | int16 | int32 | int64 | int128 | int256
  deriving DecidableEq, Repr

namespace IntType

/-- `sizeof`. -/
def bytes : IntType → ℕ
  | uint8 | int8 => 1
  | uint16 | int16 => 2
  | uint32 | int32 => 4
  | uint64 | int64 => 8
  | uint128 | int128 => 16
  | uint256 | int256 => 32

def signed : IntType → Bool
  | int8 | int16 | int32 | int64 | int128 | int256 => true
  | _ => false

/-- `8 * sizeof(Int) - is_signed_v<Int>`: the bits of the magnitudes below the type's bound. -/
def valueBits (t : IntType) : ℕ := 8 * t.bytes - if t.signed then 1 else 0

/-- `std::numeric_limits<Int>::lowest()`. -/
def lowest (t : IntType) : ℤ := if t.signed then -2 ^ t.valueBits else 0

/-- `std::numeric_limits<Int>::max()`. -/
def max (t : IntType) : ℤ := 2 ^ t.valueBits - 1

/-- A value of the type. -/
def Value (t : IntType) : Type := {v : ℤ // t.lowest ≤ v ∧ v ≤ t.max}

lemma lowest_nonpos (t : IntType) : t.lowest ≤ 0 := by
  unfold lowest
  split_ifs
  · have := pow_pos (two_pos : (0 : ℤ) < 2) t.valueBits
    omega
  · exact le_refl 0

end IntType

/-- The floating-point types with `FloatTraits`: `BFloat16`, `float` and `double`. -/
inductive FloatType
  | bfloat16 | float32 | float64
  deriving DecidableEq, Repr

namespace FloatType

/-- `FloatTraits<T>::bits`. -/
def bits : FloatType → ℕ
  | bfloat16 => 16
  | float32 => 32
  | float64 => 64

/-- `FloatTraits<T>::exponent_bits`. -/
def exponentBits : FloatType → ℕ
  | bfloat16 => 8
  | float32 => 8
  | float64 => 11

def mantissaBits (t : FloatType) : ℕ := t.bits - t.exponentBits - 1

def format (t : FloatType) : BinaryFormat := ⟨t.exponentBits, t.mantissaBits⟩

/-- `sizeof(T)`. -/
def bytes (t : FloatType) : ℕ := t.bits / 8

end FloatType

/-- `DecomposedFloat<T>`: the bits `x_uint` of a `T`. -/
structure DecomposedFloat (t : FloatType) where
  xUint : ℕ
  xUint_lt : xUint < 2 ^ t.bits

namespace DecomposedFloat

variable {t : FloatType} (x : DecomposedFloat t)

def isNegative : Bool := x.xUint >>> (t.bits - 1) ≠ 0

def exponent : ℕ := x.xUint >>> t.mantissaBits &&& ((1 <<< t.exponentBits) - 1)

def normalizedExponent : ℤ := (x.exponent : ℤ) - ((1 <<< (t.exponentBits - 1)) - 1 : ℕ)

def mantissa : ℕ := x.xUint &&& ((1 <<< t.mantissaBits) - 1)

/-- `0` for both `+0.` and `-0.`. -/
def sign : ℤ := if x.exponent = 0 ∧ x.mantissa = 0 then 0 else if x.isNegative then -1 else 1

def isFinite : Bool := x.exponent ≠ (1 <<< t.exponentBits) - 1

def isNaN : Bool := !x.isFinite && x.mantissa ≠ 0

/-- `compare(rhs)` for an integer `rhs` of type `i`: `-1`, `0` or `1`. -/
def compare (i : IntType) (rhs : ℤ) : ℤ :=
  let negative := x.isNegative
  let e := x.normalizedExponent
  if rhs = 0 then x.sign
  -- different signs
  else if negative = true ∧ 0 < rhs then -1
  else if negative = false ∧ rhs < 0 then 1
  -- a fraction of magnitude below one
  else if e < 0 then
    if negative = false then (if 0 < rhs then -1 else 1) else (if 0 ≤ rhs then -1 else 1)
  -- the most negative integer
  else if i.signed = true ∧ rhs = i.lowest then
    if e < i.valueBits then 1
    else if (i.valueBits : ℤ) < e then -1
    else if x.mantissa = 0 then 0 else -1
  -- a magnitude too large for the type; also the infinities and NaN
  else if (i.valueBits : ℤ) ≤ e then (if negative then -1 else 1)
  else
    -- `UInt` is the wider of the two unsigned types, so none of the shifts below wraps
    let uintRhs := rhs.natAbs
    let n := e.toNat
    -- a smaller binade
    if uintRhs < 1 <<< n then (if negative then -1 else 1)
    -- a larger binade
    else if n + 1 < i.valueBits ∧ 1 <<< (n + 1) ≤ uintRhs then (if negative then 1 else -1)
    else
      -- the same binade
      let largeAndAlwaysInteger := t.mantissaBits ≤ n
      let a := if largeAndAlwaysInteger then x.mantissa <<< (n - t.mantissaBits)
        else x.mantissa >>> (t.mantissaBits - n)
      let b := uintRhs - 1 <<< n
      if a < b then (if negative then 1 else -1)
      else if b < a then (if negative then -1 else 1)
      else if largeAndAlwaysInteger then 0
      else if x.mantissa &&& ((1 <<< (t.mantissaBits - n)) - 1) = 0 then 0
      else if negative then -1 else 1

def equals (i : IntType) (rhs : ℤ) : Bool := x.compare i rhs = 0

def less (i : IntType) (rhs : ℤ) : Bool := x.compare i rhs < 0

def greater (i : IntType) (rhs : ℤ) : Bool := x.compare i rhs > 0

/-- What the bits denote. -/
def value : ExtValue := t.format.decode x.xUint

/-- `std::numeric_limits<T>::infinity()`. -/
def posInf (t : FloatType) : DecomposedFloat t := ⟨t.format.posInfBits, by cases t <;> decide⟩

lemma value_posInf : (posInf t).value = .inf false := t.format.decode_posInfBits

/-- With a zero mantissa the fields read as the power of two `2 ^ n`, and against an integer of that
binade or the next one `compare` answers as for `2 ^ n`. -/
lemma compare_of_mantissa_zero {i : IntType} {rhs : ℤ} {n : ℕ} (hneg : x.isNegative = false)
    (hm : x.mantissa = 0) (he : x.normalizedExponent = n) (hmb : t.mantissaBits ≤ n)
    (hvb : n < i.valueBits) (hlow : 2 ^ n ≤ rhs) :
    x.compare i rhs = if rhs = 2 ^ n then 0 else -1 := by
  have hpos : (0 : ℤ) < 2 ^ n := pow_pos two_pos n
  have hlowest := i.lowest_nonpos
  have habs : (rhs.natAbs : ℤ) = rhs := Int.natAbs_of_nonneg (by omega)
  have hpow : ((2 ^ n : ℕ) : ℤ) = 2 ^ n := by push_cast; rfl
  have hpow1 : ((2 ^ (n + 1) : ℕ) : ℤ) = 2 * 2 ^ n := by push_cast; ring
  simp only [compare, he, hneg, hm, Int.toNat_natCast, Nat.one_shiftLeft, hmb, if_true, Nat.zero_shiftLeft]
  -- the branches before the binades do not apply to a positive `2 ^ n ≤ rhs`
  rw [if_neg (by omega), if_neg (by simp), if_neg (by omega), if_neg (by omega), if_neg (by omega),
    if_neg (by omega), if_neg (by omega)]
  by_cases hnext : n + 1 < i.valueBits ∧ 2 ^ (n + 1) ≤ rhs.natAbs
  · -- the next binade
    have htwice : 2 * 2 ^ n ≤ rhs := by
      rw [← hpow1, ← habs]
      exact_mod_cast hnext.2
    have hne : rhs ≠ 2 ^ n := fun h => by
      rw [h] at htwice
      omega
    rw [if_pos hnext, if_neg hne, if_neg Bool.false_ne_true]
  · rw [if_neg hnext]
    by_cases heq : rhs = 2 ^ n
    · have hzero : rhs.natAbs - 2 ^ n = 0 := by omega
      simp only [hzero, lt_self_iff_false, if_false, if_pos heq]
    · have hgt : 0 < rhs.natAbs - 2 ^ n := by omega
      simp only [hgt, if_true, if_neg heq, Bool.false_eq_true, if_false]

end DecomposedFloat

end ClickHouse.Base
