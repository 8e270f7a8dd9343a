import Mathlib

/-! The binary interchange formats of IEEE 754 read from their bit patterns: a sign bit, a biased
exponent field and a trailing mantissa field. A pattern denotes NaN, an infinity or a rational
number; the order on these values is the one the comparison instructions use, under which NaN is
unordered. -/

namespace ClickHouse.Lib

/-- The value of a floating-point pattern. -/
inductive ExtValue
  | nan
  | inf (negative : Bool)
  | finite (q : ℚ)
  deriving DecidableEq, Repr

namespace ExtValue

/-- The ordered comparison `<`: false whenever NaN takes part. -/
def lt : ExtValue → ExtValue → Bool
  | .finite q, .finite r => decide (q < r)
  | .inf true, .finite _ => true
  | .inf true, .inf false => true
  | .finite _, .inf false => true
  | _, _ => false

/-- The comparison `==`: false whenever NaN takes part, and `+0` equals `-0`. -/
def eq : ExtValue → ExtValue → Bool
  | .finite q, .finite r => decide (q = r)
  | .inf s, .inf t => s == t
  | _, _ => false

@[simp] lemma posInf_lt (v : ExtValue) : (inf false).lt v = false := by
  cases v <;> rfl

@[simp] lemma posInf_eq_finite (q : ℚ) : (inf false).eq (finite q) = false := rfl

end ExtValue

/-- A binary format: the widths of the exponent and trailing mantissa fields after the sign. -/
structure BinaryFormat where
  exponentBits : ℕ
  mantissaBits : ℕ

namespace BinaryFormat

variable (f : BinaryFormat)

def bits : ℕ := 1 + f.exponentBits + f.mantissaBits

def bias : ℤ := 2 ^ (f.exponentBits - 1) - 1

def signField (x : ℕ) : Bool := x / 2 ^ (f.exponentBits + f.mantissaBits) % 2 = 1

def exponentField (x : ℕ) : ℕ := x / 2 ^ f.mantissaBits % 2 ^ f.exponentBits

def mantissaField (x : ℕ) : ℕ := x % 2 ^ f.mantissaBits

/-- What a pattern denotes: the all-ones exponent gives the infinities and NaN, the zero exponent
the subnormal numbers, and any other the normal numbers with the hidden leading one. -/
def decode (x : ℕ) : ExtValue :=
  let e := f.exponentField x
  let m := f.mantissaField x
  if e = 2 ^ f.exponentBits - 1 then
    if m = 0 then .inf (f.signField x) else .nan
  else
    let magnitude : ℚ :=
      if e = 0 then m * 2 ^ (1 - f.bias - f.mantissaBits)
      else (2 ^ f.mantissaBits + m) * 2 ^ ((e : ℤ) - f.bias - f.mantissaBits)
    .finite (if f.signField x then -magnitude else magnitude)

/-- The pattern of `+∞`: the all-ones exponent over a zero mantissa. -/
def posInfBits : ℕ := (2 ^ f.exponentBits - 1) * 2 ^ f.mantissaBits

lemma decode_posInfBits : f.decode f.posInfBits = .inf false := by
  have hfield : f.exponentField f.posInfBits = 2 ^ f.exponentBits - 1 := by
    have hlt : 2 ^ f.exponentBits - 1 < 2 ^ f.exponentBits := Nat.sub_lt (Nat.two_pow_pos _) Nat.one_pos
    rw [exponentField, posInfBits, Nat.mul_div_cancel _ (Nat.two_pow_pos _), Nat.mod_eq_of_lt hlt]
  have hmant : f.mantissaField f.posInfBits = 0 := by
    rw [mantissaField, posInfBits, Nat.mul_mod_left]
  have hsign : f.signField f.posInfBits = false := by
    have hlt : f.posInfBits < 2 ^ (f.exponentBits + f.mantissaBits) := by
      rw [posInfBits, pow_add]
      exact Nat.mul_lt_mul_of_pos_right (Nat.sub_lt (Nat.two_pow_pos _) Nat.one_pos) (Nat.two_pow_pos _)
    simp only [signField, Nat.div_eq_of_lt hlt, Nat.zero_mod, zero_ne_one, decide_false]
  simp only [decode, hfield, hmant, hsign, if_true]

end BinaryFormat

end ClickHouse.Lib
