import ClickHouse.IO.IntText

/-! `IO/WriteIntText.h`: `writeIntText` writes the text `itoa` writes, in place when the buffer has
`max_int_width<T>` characters left and through a buffer of that size otherwise, so that width must
bound the text of every value of the type. -/

namespace ClickHouse.IO

open ClickHouse.Base

/-- `max_int_width<T>`. -/
def maxIntWidth : IntKind → ℕ
  | .uint8 => 3
  | .int8 => 4
  | .uint16 => 5
  | .int16 => 6
  | .uint32 => 10
  | .int32 => 11
  | .uint64 => 20
  | .int64 => 20
  | .uint128 => 39
  | .int128 => 40
  | .uint256 => 78
  | .int256 => 78

lemma length_writeIntText_le_of {x : ℤ} {w : ℕ} (hneg : x < 0 → 1 < w ∧ x.natAbs < 10 ^ (w - 1))
    (hpos : 0 ≤ x → 0 < w ∧ x.toNat < 10 ^ w) : (writeIntText x).length ≤ w := by
  rw [writeIntText]
  split_ifs with h
  · obtain ⟨hw, hx⟩ := hneg h
    have hlen := Nat.toDigits_length 10 x.natAbs (w - 1) (by omega) hx
    rw [List.length_cons]
    omega
  · obtain ⟨hw, hx⟩ := hpos (by omega)
    exact Nat.toDigits_length 10 x.toNat w hw hx

/-- `max_int_width<T>` holds the text of every value of the type, its sign included. -/
theorem length_writeIntText_le {K : IntKind} {x : ℤ} (h1 : K.minValue ≤ x) (h2 : x ≤ K.maxValue) :
    (writeIntText x).length ≤ maxIntWidth K := by
  apply length_writeIntText_le_of <;> intro hx <;>
    cases K <;> delta IntKind.minValue IntKind.maxValue IntKind.isSigned IntKind.bits maxIntWidth at h1 h2 ⊢ <;>
    simp at h1 h2 ⊢ <;> omega

lemma minValue_le_zero (K : IntKind) : K.minValue ≤ 0 := by
  cases K <;> delta IntKind.minValue IntKind.isSigned <;> simp

lemma zero_le_maxValue (K : IntKind) : 0 ≤ K.maxValue := by
  cases K <;> delta IntKind.maxValue IntKind.isSigned IntKind.bits <;> simp

/-- Every value of every integer type is written in its canonical decimal text, within
`max_int_width<T>`, and read back whole; up to 64 bits, the checked reader accepts a sign and digits
only with their value, and only when it fits the type. -/
theorem itoa_round_trip :
    (∀ (K : IntKind) (x : ℤ), K.minValue ≤ x → x ≤ K.maxValue →
      itoa K x = writeIntText x ∧ IsCanonicalText x (itoa K x) ∧ (itoa K x).length ≤ maxIntWidth K ∧
        tryReadIntTextOf K (itoa K x) = some (x, [])) ∧
    (∀ K : IntKind, K.bits ≤ 64 → ∀ sign digits : List Char, (sign = [] ∨ sign = ['+'] ∨ sign = ['-']) →
      digits ≠ [] → (∀ c ∈ digits, c.isDigit) → ∀ (x : ℤ) (rest : List Char),
        tryReadIntTextOf K (sign ++ digits) = some (x, rest) →
          rest = [] ∧ x = (if sign = ['-'] then -(Nat.ofDigitChars 10 digits 0 : ℤ) else Nat.ofDigitChars 10 digits 0) ∧
            K.minValue ≤ x ∧ x ≤ K.maxValue) := by
  constructor
  · intro K x h1 h2
    have heq : itoa K x = writeIntText x := itoa_eq K h1 h2
    refine ⟨heq, heq ▸ writeIntText_canonical x, heq ▸ length_writeIntText_le h1 h2, ?_⟩
    rw [heq]
    by_cases hK : 64 < K.bits
    · simpa using tryReadIntTextOf_big hK h1 h2 [] (by simp)
    · have hmax := zero_le_maxValue K
      have hmin := minValue_le_zero K
      unfold tryReadIntTextOf
      rw [if_neg hK, ← List.append_nil (writeIntText x)]
      exact tryReadIntText_writeIntText (t := intTypeOf K) (by dsimp only [intTypeOf]; omega) (by dsimp only [intTypeOf]; omega)
        (fun hneg => isSigned_of_neg h1 hneg) [] (by simp)
  · intro K hK sign digits hsign hne hds x rest h
    unfold tryReadIntTextOf at h
    rw [if_neg (by omega)] at h
    obtain ⟨hrest, hx⟩ := tryReadIntText_sign_digits hsign hne hds h
    obtain ⟨hmax, hmin, _⟩ := tryReadIntText_bounds h
    have hmax' := zero_le_maxValue K
    have hmin' := minValue_le_zero K
    dsimp only [intTypeOf] at hmax hmin
    exact ⟨hrest, hx, by omega, by omega⟩

end ClickHouse.IO
