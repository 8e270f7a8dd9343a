import ClickHouse.Lib.FixedDigits
import ClickHouse.Lib.FixedPoint

/-! `base/base/itoa.cpp`: the decimal text of the integer types. Up to 64 bits it is jeaiii's
`to_text_from_integer`: the leading digits of a number come from its product with a fixed-point
reciprocal of a power of ten, and each next pair of digits from the fraction left, multiplied by
`100`. `UInt128` splits off blocks of 18 digits by a Barrett division by `10^18`, and `UInt256`
by plain division until what is left fits 128 bits. The text is the list of characters written;
unsigned words are naturals, with their wrap-around written where the type allows one. The
reciprocals are computed in `double` and truncated; the floor of the same quotient in `ℕ` is the
same number. -/

namespace ClickHouse.Base

open ClickHouse.Lib.FixedDigits ClickHouse.Lib.FixedPoint

/-- The integer types `itoa` is overloaded for. -/
inductive IntKind
  | uint8 | uint16 | uint32 | uint64 | uint128 | uint256
  | int8 | int16 | int32 | int64 | int128 | int256
  deriving DecidableEq, Repr

namespace IntKind

def bits : IntKind → ℕ
  | uint8 | int8 => 8
  | uint16 | int16 => 16
  | uint32 | int32 => 32
  | uint64 | int64 => 64
  | uint128 | int128 => 128
  | uint256 | int256 => 256

def isSigned : IntKind → Bool
  | int8 | int16 | int32 | int64 | int128 | int256 => true
  | _ => false

def minValue (K : IntKind) : ℤ :=
  if K.isSigned then -2 ^ (K.bits - 1) else 0

def maxValue (K : IntKind) : ℤ :=
  if K.isSigned then 2 ^ (K.bits - 1) - 1 else 2 ^ K.bits - 1

end IntKind

/-- The unsigned word `U` of `to_text_from_integer`, by the size of its argument: `char8_t`,
`UInt16`, `UInt32` or `UInt64`. -/
inductive Word
  | w8 | w16 | w32 | w64
  deriving DecidableEq, Repr

def Word.bits : Word → ℕ
  | w8 => 8
  | w16 => 16
  | w32 => 32
  | w64 => 64

/-! ### The digit tables -/

/-- `outOneDigit`: the character `'0' + value`. -/
def outOneDigit (value : ℕ) : List Char :=
  [Char.ofNat ('0'.toNat + value)]

/-- A row of the pair tables: `digits[value * 2]` of the two-character table, and `pair(int n)`
of jeaiii's tables, `"0123456789"[n / 10]` then `"0123456789"[n % 10]`. -/
def outTwoDigits (value : ℕ) : List Char :=
  [Nat.digitChar (value / 10), Nat.digitChar (value % 10)]

/-- Row `value` of jeaiii's `fd`: below ten `pair(char)`, the digit and a `'\0'`. -/
def fdPair (value : ℕ) : List Char :=
  if value < 10 then [Nat.digitChar value, Char.ofNat 0] else outTwoDigits value

/-! ### `to_text_from_integer` -/

/-- The pairs after the leading ones: the fraction in the low `k` bits is multiplied by `100`,
`(f & mask) * 100` in a `UInt64`, and its integer part `>> k` is the row of `dd` written. -/
def pairsAfter (k : ℕ) : ℕ → ℕ → List Char
  | 0, _ => []
  | j + 1, f =>
    let f' := f % 2 ^ k * 100 % 2 ^ 64
    outTwoDigits (f' / 2 ^ k) ++ pairsAfter k j f'

lemma pairsAfter_succ (k j f : ℕ) :
    pairsAfter k (j + 1) f =
      outTwoDigits (f % 2 ^ k * 100 % 2 ^ 64 / 2 ^ k) ++ pairsAfter k j (f % 2 ^ k * 100 % 2 ^ 64) :=
  rfl

/-- A block that starts with row `f0 >> k` of `fd`, then `j` pairs. The pair after the first is
written at `b + 2` after `b -= short`, over the `'\0'` of a single leading digit. -/
def leadingPairs (k j f0 : ℕ) (short : Bool) : List Char :=
  (fdPair (f0 / 2 ^ k)).take (if short then 1 else 2) ++ pairsAfter k j f0

/-- Up to four digits: `UInt32(10 * (1 << 24) / 1e3 + 1) * n`, a product in a word of `width`
bits. -/
def fourDigits (width n : ℕ) (short : Bool) : List Char :=
  leadingPairs 24 1 ((10 * 2 ^ 24 / 10 ^ 3 + 1) * n % 2 ^ width) short

def sixDigits (n : ℕ) (short : Bool) : List Char :=
  leadingPairs 32 2 ((10 * 2 ^ 32 / 10 ^ 5 + 1) * n % 2 ^ 64) short

def eightDigits (n : ℕ) (short : Bool) : List Char :=
  leadingPairs 32 3 ((10 * 2 ^ 48 / 10 ^ 7 + 1) * n % 2 ^ 64 / 2 ^ 16) short

def tenDigits (n : ℕ) (short : Bool) : List Char :=
  leadingPairs 57 4 ((10 * 2 ^ 57 / 10 ^ 9 + 1) * n % 2 ^ 64) short

/-- "do 8 digits": exactly eight digits, leading zeros included, every pair from `dd`. -/
def eightDigitsPadded (y : ℕ) : List Char :=
  let f0 := (2 ^ 48 / 10 ^ 6 + 1) * y % 2 ^ 64 / 2 ^ 16 + 1
  outTwoDigits (f0 / 2 ^ 32) ++ pairsAfter 32 3 f0

/-- The digits of `u = n / 1e8` in the path of a `UInt64` of `2^32` or more, before the last
eight. -/
def upperDigits (u : ℕ) : List Char :=
  if u < 10 ^ 2 then outTwoDigits u
  else if u < 10 ^ 6 then
    if u < 10 ^ 4 then fourDigits 64 u (decide (u < 10 ^ 3)) else sixDigits u (decide (u < 10 ^ 5))
  else if u < 10 ^ 8 then eightDigits u (decide (u < 10 ^ 7))
  else if u < 2 ^ 32 then tenDigits u (decide (u < 10 ^ 9))
  else
    let y := u % 10 ^ 8
    let u := u / 10 ^ 8
    (if u < 10 ^ 2 then outTwoDigits u else fourDigits 64 u (decide (u < 10 ^ 3))) ++ eightDigitsPadded y

/-- `to_text_from_integer` after the sign: the text of the magnitude `n` in the word `w`. -/
def toTextMagnitude (w : Word) (n : ℕ) : List Char :=
  if n < 10 ^ 2 then
    if n < 10 then outOneDigit n else outTwoDigits n
  else if n < 10 ^ 6 then
    if w = .w8 ∨ n < 10 ^ 4 then
      fourDigits (if w = .w64 then 64 else 32) n (if w = .w8 then true else decide (n < 10 ^ 3))
    else sixDigits n (if w = .w16 then true else decide (n < 10 ^ 5))
  else if w = .w32 ∨ n < 2 ^ 32 then
    if n < 10 ^ 8 then eightDigits n (decide (n < 10 ^ 7)) else tenDigits n (decide (n < 10 ^ 9))
  else upperDigits (n / 10 ^ 8) ++ eightDigitsPadded (n % 10 ^ 8)

/-- `to_text_from_integer`: a `-` for a negative argument, whose magnitude is `U(0) - U(i)`. -/
def toTextFromInteger (w : Word) (i : ℤ) : List Char :=
  if i < 0 then '-' :: toTextMagnitude w ((0 - i) % 2 ^ w.bits).toNat
  else toTextMagnitude w (i % 2 ^ w.bits).toNat

/-! ### 128 and 256 bits -/

/-- The quotient approximation of `divmod_1e18`: the high half of `n * M` for
`M = floor(2^128 / 10^18) = M_hi * 2^64 + M_lo`, by schoolbook multiplication of 64-bit halves. -/
def barrettQuotient (n : ℕ) : ℕ :=
  let mLo := 0x725DD1D243ABA0E7
  let mHi := 0x12
  let nLo := n % 2 ^ 64
  let nHi := n / 2 ^ 64 % 2 ^ 64
  let cHi := nLo * mLo / 2 ^ 64 % 2 ^ 64
  let mid := (nHi * mLo + nLo * mHi + cHi) % 2 ^ 128
  (nHi * mHi + mid / 2 ^ 64 % 2 ^ 64) % 2 ^ 128

/-- The words of the quotient approximation as exact naturals: the product `c` of the low
halves, the middle sum `mid` with its carry, and the estimate `q`, each of them an
`unsigned __int128` in the source. -/
structure BarrettTerms where
  c : ℕ
  mid : ℕ
  q : ℕ

def barrettTerms (n : ℕ) : BarrettTerms :=
  let c := n % 2 ^ 64 * 0x725DD1D243ABA0E7
  let mid := n / 2 ^ 64 * 0x725DD1D243ABA0E7 + n % 2 ^ 64 * 0x12 + c / 2 ^ 64
  ⟨c, mid, n / 2 ^ 64 * 0x12 + mid / 2 ^ 64⟩

/-- `divmod_1e18`: the quotient and the remainder of a `UInt128` by `10^18`, the quotient
approximation corrected once. -/
def divmod1e18 (n : ℕ) : ℕ × ℕ :=
  let q := barrettQuotient n
  let r := (((n : ℤ) - q * 10 ^ 18) % 2 ^ 128).toNat
  if 10 ^ 18 ≤ r then ((q + 1) % 2 ^ 128, (r - 10 ^ 18) % 2 ^ 64) else (q, r % 2 ^ 64)

/-- `extractDigitPairs`: the `count` lowest pairs of digits of `remainder`, the lowest first. -/
def extractDigitPairs : ℕ → ℕ → List ℕ
  | 0, _ => []
  | count + 1, remainder => remainder % 100 :: extractDigitPairs count (remainder / 100)

lemma extractDigitPairs_succ (count r : ℕ) :
    extractDigitPairs (count + 1) r = r % 100 :: extractDigitPairs count (r / 100) :=
  rfl

/-- `writeDigitPairs`: the first `count` pairs, from the last to the first. -/
def writeDigitPairs (twoValues : List ℕ) (count : ℕ) : List Char :=
  (twoValues.take count).reverse.flatMap outTwoDigits

@[simp] lemma writeDigitPairs_zero (twoValues : List ℕ) : writeDigitPairs twoValues 0 = [] := rfl

/-- `writeUIntText(UInt128)`: a value with an empty high item as a `UInt64`; otherwise one or two
blocks of 18 digits are split off first. -/
def writeUIntText128 (x : ℕ) : List Char :=
  if x / 2 ^ 64 % 2 ^ 64 = 0 then toTextMagnitude .w64 (x % 2 ^ 64)
  else
    let d1 := divmod1e18 x
    let twoValues := extractDigitPairs 9 d1.2
    if 2 ^ 64 - 1 < d1.1 then
      let d2 := divmod1e18 d1.1
      toTextMagnitude .w64 (d2.1 % 2 ^ 64) ++ writeDigitPairs (twoValues ++ extractDigitPairs 9 d2.2) 18
    else toTextMagnitude .w64 (d1.1 % 2 ^ 64) ++ writeDigitPairs twoValues 9

/-- The loop of `writeUIntText(UInt256)`: while the value does not fit 128 bits, a block of 18
digits is split off and its pairs are stored from `current_pos`. -/
def splitBlocksAbove128 (x : ℕ) (twoValues : List ℕ) (currentPos : ℕ) : ℕ × List ℕ × ℕ :=
  if h : 2 ^ 128 - 1 < x then
    splitBlocksAbove128 (x / 10 ^ 18) (twoValues ++ extractDigitPairs 9 (x % 10 ^ 18 % 2 ^ 64)) (currentPos + 9)
  else (x, twoValues, currentPos)
termination_by x
decreasing_by exact Nat.div_lt_self (by omega) (by norm_num)

/-- `writeUIntText(UInt256)`: a value with empty high items as a `UInt128`; otherwise the
blocks above 128 bits are split off first. -/
def writeUIntText256 (x : ℕ) : List Char :=
  if x / 2 ^ 192 % 2 ^ 64 = 0 ∧ x / 2 ^ 128 % 2 ^ 64 = 0 then writeUIntText128 (x % 2 ^ 128)
  else
    let s := splitBlocksAbove128 x [] 0
    writeUIntText128 (s.1 % 2 ^ 128) ++ writeDigitPairs s.2.1 s.2.2

/-- `writeSIntText`, for the signed type of `bits` bits with the unsigned writer `writeUIntText`:
the smallest value is written from a fixed text, and any other negative value as a `-` and the
text of its negation. -/
def writeSIntText (bits : ℕ) (minText : List Char) (writeUIntText : ℕ → List Char) (x : ℤ) : List Char :=
  if x = -2 ^ (bits - 1) then minText
  else if x < 0 then '-' :: writeUIntText (-x).toNat
  else writeUIntText x.toNat

def minInt128Text : List Char :=
  "-170141183460469231731687303715884105728".toList

def minInt256Text : List Char :=
  "-57896044618658097711785492504343953926634992332820282019728792003956564819968".toList

/-- `itoa`, overloaded by the integer type. -/
def itoa : IntKind → ℤ → List Char
  | .uint8, i | .int8, i => toTextFromInteger .w8 i
  | .uint16, i | .int16, i => toTextFromInteger .w16 i
  | .uint32, i | .int32, i => toTextFromInteger .w32 i
  | .uint64, i | .int64, i => toTextFromInteger .w64 i
  | .uint128, i => writeUIntText128 i.toNat
  | .int128, i => writeSIntText 128 minInt128Text writeUIntText128 i
  | .uint256, i => writeUIntText256 i.toNat
  | .int256, i => writeSIntText 256 minInt256Text writeUIntText256 i

/-! ### The pairs of digits -/

lemma outTwoDigits_eq {value : ℕ} (h : value < 100) : outTwoDigits value = fixedDigits 10 2 value := by
  rw [fixedDigits_two, Nat.mod_eq_of_lt (by omega : value / 10 < 10)]
  rfl

lemma outTwoDigits_eq_toDigits {value : ℕ} (h1 : 10 ≤ value) (h2 : value < 100) :
    outTwoDigits value = Nat.toDigits 10 value := by
  rw [Nat.toDigits_of_base_le (by decide) h1, Nat.toDigits_of_lt_base (by omega)]
  rfl

lemma outOneDigit_eq {value : ℕ} (h : value < 10) : outOneDigit value = Nat.toDigits 10 value := by
  rw [outOneDigit, ofNat_zero_add_eq_digitChar h, Nat.toDigits_of_lt_base h]

/-- One or two leading digits: the row of `fd` cut where `b -= short` puts the next pair. -/
lemma take_fdPair {value : ℕ} (h1 : 1 ≤ value) (h2 : value < 100) :
    (fdPair value).take (if value < 10 then 1 else 2) = Nat.toDigits 10 value := by
  unfold fdPair
  by_cases h : value < 10
  · rw [if_pos h, if_pos h, Nat.toDigits_of_lt_base h]
    rfl
  · rw [if_neg h, if_neg h, outTwoDigits_eq_toDigits (by omega) h2]
    exact List.take_of_length_le (Nat.toDigits_length 10 value 2 (by decide) (by omega))

lemma pow_hundred (j : ℕ) : (100 : ℕ) ^ j = 10 ^ (2 * j) := by
  rw [pow_mul]
  norm_num

/-- The loop of pairs writes the `2 * j` digits of `r` when the fraction in `f` is a fixed-point
value of `r / 100 ^ j`. The induction is on the pairs; each step is `digit_of_scaled`. -/
lemma pairsAfter_eq {k : ℕ} (hk : 100 * 2 ^ k ≤ 2 ^ 64) (j : ℕ) {f r : ℕ}
    (hlo : r * 2 ^ k ≤ f % 2 ^ k * 100 ^ j) (hhi : f % 2 ^ k * 100 ^ j < r * 2 ^ k + 2 ^ k) :
    pairsAfter k j f = fixedDigits 10 (2 * j) r := by
  induction j generalizing f r with
  | zero => rfl
  | succ j ih =>
    have hK : 0 < 2 ^ k := by positivity
    have hfrac : f % 2 ^ k * 100 < 2 ^ 64 :=
      lt_of_lt_of_le (Nat.mul_lt_mul_of_pos_right (Nat.mod_lt f hK) (by norm_num)) (by rw [Nat.mul_comm]; exact hk)
    rw [pow_succ'] at hlo hhi
    obtain ⟨hq, hlo', hhi'⟩ := digit_of_scaled hK (by positivity) hlo hhi
    have hr : r < 100 * 100 ^ j := by
      have h : r * 2 ^ k < 100 * 100 ^ j * 2 ^ k := by
        calc r * 2 ^ k ≤ f % 2 ^ k * (100 * 100 ^ j) := hlo
          _ < 2 ^ k * (100 * 100 ^ j) := Nat.mul_lt_mul_of_pos_right (Nat.mod_lt f hK) (by positivity)
          _ = 100 * 100 ^ j * 2 ^ k := Nat.mul_comm _ _
      exact Nat.lt_of_mul_lt_mul_right h
    have hd : r / 100 ^ j < 100 := Nat.div_lt_of_lt_mul (by rwa [Nat.mul_comm] at hr)
    rw [pairsAfter_succ, Nat.mod_eq_of_lt hfrac, hq, ih hlo' hhi', outTwoDigits_eq hd, pow_hundred,
      fixedDigits_mod_pow, ← fixedDigits_add, Nat.mul_succ]

/-- A block with its leading row of `fd` writes the number whose fixed-point value of
`n / 100 ^ j` it starts from, when `n` has `2 * j + 1` or `2 * j + 2` digits. -/
lemma leadingPairs_eq {k j f0 n : ℕ} (hk : 100 * 2 ^ k ≤ 2 ^ 64) (h1 : 100 ^ j ≤ n) (h2 : n < 100 ^ (j + 1))
    (hlo : n * 2 ^ k ≤ f0 * 100 ^ j) (hhi : f0 * 100 ^ j < n * 2 ^ k + 2 ^ k) {short : Bool}
    (hshort : short = decide (n < 10 * 100 ^ j)) :
    leadingPairs k j f0 short = Nat.toDigits 10 n := by
  have hP : 0 < 100 ^ j := by positivity
  obtain ⟨hq, hlo', hhi'⟩ := div_mod_of_scaled (by positivity) hP hlo hhi
  have hlead1 : 1 ≤ n / 100 ^ j := (Nat.one_le_div_iff hP).mpr h1
  have hlead2 : n / 100 ^ j < 100 := Nat.div_lt_of_lt_mul (by rwa [pow_succ] at h2)
  have hcut : short = decide (n / 100 ^ j < 10) := by
    rw [hshort]
    exact decide_eq_decide.mpr (Nat.div_lt_iff_lt_mul hP).symm
  rw [leadingPairs, hq, hcut]
  simp only [decide_eq_true_eq]
  rw [take_fdPair hlead1 hlead2, pairsAfter_eq hk j hlo' hhi',
    pow_hundred, fixedDigits_mod_pow, ← toDigits_eq_append_fixedDigits (by decide) _ (by rwa [pow_hundred] at h1)]

/-! ### The branches of `to_text_from_integer`

Each branch meets the conditions of `leadingPairs_eq` on its range: its reciprocal makes the
product a fixed-point value of the leading pair, and no product leaves its word. -/

lemma fourDigits_eq {width : ℕ} (hw : 32 ≤ width) {n : ℕ} (h1 : 10 ^ 2 ≤ n) (h2 : n < 10 ^ 4) {short : Bool}
    (hshort : short = decide (n < 10 ^ 3)) : fourDigits width n short = Nat.toDigits 10 n := by
  have hM : (10 * 2 ^ 24 / 10 ^ 3 + 1 : ℕ) = 167773 := by norm_num
  have hwrap : 167773 * n % 2 ^ width = 167773 * n :=
    Nat.mod_eq_of_lt (lt_of_lt_of_le (by norm_num at h2 ⊢; omega) (Nat.pow_le_pow_right (by norm_num) hw))
  obtain ⟨hlo, hhi⟩ := scaled_of_reciprocal (K := 2 ^ 24) (P := 100 ^ 1) (M := 167773) (n := n) (by norm_num)
    (by norm_num at h2 ⊢; omega)
  rw [fourDigits, hM, hwrap]
  exact leadingPairs_eq (by norm_num) (by norm_num at h1 ⊢; omega) (by norm_num at h2 ⊢; omega) hlo hhi
    (by rw [hshort]; norm_num)

lemma sixDigits_eq {n : ℕ} (h1 : 10 ^ 4 ≤ n) (h2 : n < 10 ^ 6) {short : Bool}
    (hshort : short = decide (n < 10 ^ 5)) : sixDigits n short = Nat.toDigits 10 n := by
  have hM : (10 * 2 ^ 32 / 10 ^ 5 + 1 : ℕ) = 429497 := by norm_num
  have hwrap : 429497 * n % 2 ^ 64 = 429497 * n := Nat.mod_eq_of_lt (by norm_num at h2 ⊢; omega)
  obtain ⟨hlo, hhi⟩ := scaled_of_reciprocal (K := 2 ^ 32) (P := 100 ^ 2) (M := 429497) (n := n) (by norm_num)
    (by norm_num at h2 ⊢; omega)
  rw [sixDigits, hM, hwrap]
  exact leadingPairs_eq (by norm_num) (by norm_num at h1 ⊢; omega) (by norm_num at h2 ⊢; omega) hlo hhi
    (by rw [hshort]; norm_num)

lemma eightDigits_eq {n : ℕ} (h1 : 10 ^ 6 ≤ n) (h2 : n < 10 ^ 8) {short : Bool}
    (hshort : short = decide (n < 10 ^ 7)) : eightDigits n short = Nat.toDigits 10 n := by
  have hM : (10 * 2 ^ 48 / 10 ^ 7 + 1 : ℕ) = 281474977 := by norm_num
  have hwrap : 281474977 * n % 2 ^ 64 = 281474977 * n := Nat.mod_eq_of_lt (by norm_num at h2 ⊢; omega)
  -- the shift by 16 drops up to one unit of `2^16`, which the error makes up from `n ≥ 10^6` on
  obtain ⟨hlo, hhi⟩ := scaled_of_shifted_reciprocal (K := 2 ^ 32) (S := 2 ^ 16) (P := 100 ^ 3) (M := 281474977)
    (n := n) (by norm_num) (by norm_num) (by norm_num) (by norm_num at h1 ⊢; omega) (by norm_num at h2 ⊢; omega)
  rw [eightDigits, hM, hwrap]
  exact leadingPairs_eq (by norm_num) (by norm_num at h1 ⊢; omega) (by norm_num at h2 ⊢; omega) hlo hhi
    (by rw [hshort]; norm_num)

lemma tenDigits_eq {n : ℕ} (h1 : 10 ^ 8 ≤ n) (h2 : n < 2 ^ 32) {short : Bool}
    (hshort : short = decide (n < 10 ^ 9)) : tenDigits n short = Nat.toDigits 10 n := by
  have hM : (10 * 2 ^ 57 / 10 ^ 9 + 1 : ℕ) = 1441151881 := by norm_num
  have hwrap : 1441151881 * n % 2 ^ 64 = 1441151881 * n := Nat.mod_eq_of_lt (by norm_num at h2 ⊢; omega)
  obtain ⟨hlo, hhi⟩ := scaled_of_reciprocal (K := 2 ^ 57) (P := 100 ^ 4) (M := 1441151881) (n := n) (by norm_num)
    (by norm_num at h2 ⊢; omega)
  rw [tenDigits, hM, hwrap]
  exact leadingPairs_eq (by norm_num) (by norm_num at h1 ⊢; omega) (by norm_num at h2 ⊢; omega) hlo hhi
    (by rw [hshort]; norm_num)

/-- The padded block writes the eight last digits, from a product rounded up by one. -/
lemma eightDigitsPadded_eq {y : ℕ} (hy : y < 10 ^ 8) : eightDigitsPadded y = fixedDigits 10 8 y := by
  have hM : (2 ^ 48 / 10 ^ 6 + 1 : ℕ) = 281474977 := by norm_num
  have hwrap : 281474977 * y % 2 ^ 64 = 281474977 * y := Nat.mod_eq_of_lt (by norm_num at hy ⊢; omega)
  obtain ⟨hlo, hhi⟩ := scaled_of_shifted_reciprocal_succ (K := 2 ^ 32) (S := 2 ^ 16) (P := 100 ^ 3)
    (M := 281474977) (n := y) (by norm_num) (by norm_num) (by norm_num) (by norm_num at hy ⊢; omega)
  obtain ⟨hq, hlo', hhi'⟩ := div_mod_of_scaled (by norm_num) (by norm_num) hlo hhi
  have hlead : y / 100 ^ 3 < 100 := Nat.div_lt_of_lt_mul (by norm_num at hy ⊢; omega)
  rw [eightDigitsPadded, hM, hwrap, hq, outTwoDigits_eq hlead, pairsAfter_eq (by norm_num) 3 hlo' hhi', pow_hundred, fixedDigits_mod_pow,
    ← fixedDigits_add]

lemma upperDigits_eq {u : ℕ} (h1 : 10 ≤ u) (h2 : u < 10 ^ 12) : upperDigits u = Nat.toDigits 10 u := by
  unfold upperDigits
  by_cases hu2 : u < 10 ^ 2
  · rw [if_pos hu2, outTwoDigits_eq_toDigits h1 (by simpa using hu2)]
  rw [if_neg hu2]
  by_cases hu6 : u < 10 ^ 6
  · rw [if_pos hu6]
    by_cases hu4 : u < 10 ^ 4
    · rw [if_pos hu4, fourDigits_eq (by norm_num) (by omega) hu4 rfl]
    · rw [if_neg hu4, sixDigits_eq (by omega) hu6 rfl]
  rw [if_neg hu6]
  by_cases hu8 : u < 10 ^ 8
  · rw [if_pos hu8, eightDigits_eq (by omega) hu8 rfl]
  rw [if_neg hu8]
  by_cases hu32 : u < 2 ^ 32
  · rw [if_pos hu32, tenDigits_eq (by omega) hu32 rfl]
  rw [if_neg hu32]
  dsimp only
  -- above `2^32` the head `u / 10^8` has two to four digits
  have hhead : Nat.toDigits 10 (u / 10 ^ 8) = (if u / 10 ^ 8 < 10 ^ 2 then outTwoDigits (u / 10 ^ 8)
      else fourDigits 64 (u / 10 ^ 8) (decide (u / 10 ^ 8 < 10 ^ 3))) := by
    split_ifs with hsmall
    · rw [outTwoDigits_eq_toDigits (by norm_num at hu32 ⊢; omega) (by simpa using hsmall)]
    · rw [fourDigits_eq (by norm_num) (by omega) (by norm_num at h2 ⊢; omega) rfl]
  rw [← hhead, eightDigitsPadded_eq (Nat.mod_lt u (by norm_num)), fixedDigits_mod_pow,
    ← toDigits_eq_append_fixedDigits (by decide) 8 (by omega)]

/-- `to_text_from_integer` writes the decimal text of every magnitude its word holds. -/
theorem toTextMagnitude_eq (w : Word) {n : ℕ} (hn : n < 2 ^ w.bits) : toTextMagnitude w n = Nat.toDigits 10 n := by
  unfold toTextMagnitude
  by_cases h2 : n < 10 ^ 2
  · rw [if_pos h2]
    split_ifs with h1
    · exact outOneDigit_eq h1
    · exact outTwoDigits_eq_toDigits (by omega) (by simpa using h2)
  rw [if_neg h2]
  by_cases h6 : n < 10 ^ 6
  · rw [if_pos h6]
    by_cases h4 : w = .w8 ∨ n < 10 ^ 4
    · -- a `char8_t` has three digits at most, so `b -= 1` cuts the `'\0'` of a single leading one
      rw [if_pos h4]
      have hn4 : n < 10 ^ 4 := h4.elim (fun hw => by subst hw; simp [Word.bits] at hn; omega) id
      apply fourDigits_eq (by split_ifs <;> norm_num) (by omega) hn4
      split_ifs with hw
      · subst hw
        simp [Word.bits] at hn
        exact (decide_eq_true (by omega)).symm
      · rfl
    · rw [if_neg h4]
      apply sixDigits_eq (by omega) h6
      split_ifs with hw
      · subst hw
        simp [Word.bits] at hn
        exact (decide_eq_true (by omega)).symm
      · rfl
  rw [if_neg h6]
  by_cases h32 : w = .w32 ∨ n < 2 ^ 32
  · rw [if_pos h32]
    have hn32 : n < 2 ^ 32 := h32.elim (fun hw => by subst hw; simpa [Word.bits] using hn) id
    split_ifs with h8
    · exact eightDigits_eq (by omega) h8 rfl
    · exact tenDigits_eq (by omega) hn32 rfl
  · rw [if_neg h32]
    -- only a `UInt64` reaches here
    have hw : w = .w64 := by
      rcases w with _ | _ | _ | _
      · simp [Word.bits] at hn; omega
      · simp [Word.bits] at hn; omega
      · simp at h32
      · rfl
    subst hw
    simp only [Word.bits] at hn
    rw [upperDigits_eq (by norm_num at h32 ⊢; omega) (by norm_num at hn ⊢; omega),
      eightDigitsPadded_eq (Nat.mod_lt n (by norm_num)), fixedDigits_mod_pow,
      ← toDigits_eq_append_fixedDigits (by decide) 8 (by omega)]

theorem toTextFromInteger_eq (w : Word) {i : ℤ} (hi : i.natAbs < 2 ^ w.bits) :
    toTextFromInteger w i = if i < 0 then '-' :: Nat.toDigits 10 i.natAbs else Nat.toDigits 10 i.toNat := by
  have hi' : (i.natAbs : ℤ) < 2 ^ w.bits := by exact_mod_cast hi
  unfold toTextFromInteger
  split_ifs with hneg
  · have hmag : ((0 - i) % 2 ^ w.bits).toNat = i.natAbs := by
      rw [Int.emod_eq_of_lt (by omega) (by omega)]
      omega
    rw [hmag, toTextMagnitude_eq w hi]
  · have hmag : (i % 2 ^ w.bits).toNat = i.toNat := by
      rw [Int.emod_eq_of_lt (by omega) (by omega)]
    rw [hmag, toTextMagnitude_eq w (by omega)]

/-! ### `divmod_1e18` and the blocks of 18 digits -/

/-- The words of the estimate hold their exact values: `c`, `mid` and `q` fit 128 bits. -/
lemma barrettTerms_lt {n : ℕ} (hn : n < 2 ^ 128) :
    (barrettTerms n).c < 2 ^ 128 ∧ (barrettTerms n).mid < 2 ^ 128 ∧ (barrettTerms n).q < 2 ^ 128 := by
  have hhi : n / 2 ^ 64 < 2 ^ 64 := Nat.div_lt_of_lt_mul (by rwa [← pow_add])
  have hlo : n % 2 ^ 64 < 2 ^ 64 := Nat.mod_lt n (by positivity)
  -- `M_lo < 2^63` and `M_hi < 2^5`: every product of a half of `n` with a half of `M` leaves room
  have hmid : n / 2 ^ 64 * 0x725DD1D243ABA0E7 + n % 2 ^ 64 * 0x12 + n % 2 ^ 64 * 0x725DD1D243ABA0E7 / 2 ^ 64 <
      2 ^ 128 := by norm_num at hhi hlo ⊢; omega
  have hcarry : (n / 2 ^ 64 * 0x725DD1D243ABA0E7 + n % 2 ^ 64 * 0x12 +
      n % 2 ^ 64 * 0x725DD1D243ABA0E7 / 2 ^ 64) / 2 ^ 64 < 2 ^ 64 := Nat.div_lt_of_lt_mul (by rwa [← pow_add])
  have hq : n / 2 ^ 64 * 0x12 + (n / 2 ^ 64 * 0x725DD1D243ABA0E7 + n % 2 ^ 64 * 0x12 +
      n % 2 ^ 64 * 0x725DD1D243ABA0E7 / 2 ^ 64) / 2 ^ 64 < 2 ^ 128 := by norm_num at hhi hcarry ⊢; omega
  have hc : n % 2 ^ 64 * 0x725DD1D243ABA0E7 < 2 ^ 64 * 2 ^ 64 := Nat.mul_lt_mul'' hlo (by norm_num)
  exact ⟨hc.trans_eq (by norm_num), hmid, hq⟩

lemma barrettTerms_q (n : ℕ) : (barrettTerms n).q = n * (2 ^ 128 / 10 ^ 18) / 2 ^ 128 := by
  have hM : (2 ^ 128 / 10 ^ 18 : ℕ) = 0x12 * 2 ^ 64 + 0x725DD1D243ABA0E7 := by norm_num
  have hn : n = n / 2 ^ 64 * 2 ^ 64 + n % 2 ^ 64 := (Nat.div_add_mod' n _).symm
  rw [hM, show (2 : ℕ) ^ 128 = 2 ^ 64 * 2 ^ 64 by norm_num]
  conv_rhs => rw [hn]
  rw [mul_div_sq_of_words (by positivity)]
  rfl

/-- The words of the source take their exact values: no half, carry or sum wraps. -/
lemma barrettQuotient_eq_terms {n : ℕ} (hn : n < 2 ^ 128) : barrettQuotient n = (barrettTerms n).q := by
  obtain ⟨hc, hmid, hq⟩ := barrettTerms_lt hn
  have hW : (2 : ℕ) ^ 128 = 2 ^ 64 * 2 ^ 64 := by norm_num
  have hhi : n / 2 ^ 64 < 2 ^ 64 := Nat.div_lt_of_lt_mul (hW ▸ hn)
  have hchi : (barrettTerms n).c / 2 ^ 64 < 2 ^ 64 := Nat.div_lt_of_lt_mul (hW ▸ hc)
  have hcarry : (barrettTerms n).mid / 2 ^ 64 < 2 ^ 64 := Nat.div_lt_of_lt_mul (hW ▸ hmid)
  simp only [barrettTerms] at hchi hmid hcarry hq
  rw [barrettQuotient, Nat.mod_eq_of_lt hhi, Nat.mod_eq_of_lt hchi, Nat.mod_eq_of_lt hmid, Nat.mod_eq_of_lt hcarry,
    Nat.mod_eq_of_lt hq]
  rfl

/-- The schoolbook multiplication computes the high half of `n * M` exactly. -/
lemma barrettQuotient_eq {n : ℕ} (hn : n < 2 ^ 128) : barrettQuotient n = n * (2 ^ 128 / 10 ^ 18) / 2 ^ 128 := by
  rw [barrettQuotient_eq_terms hn, barrettTerms_q]

lemma barrettQuotient_le_div {n : ℕ} (hn : n < 2 ^ 128) :
    barrettQuotient n ≤ n / 10 ^ 18 ∧ n / 10 ^ 18 ≤ barrettQuotient n + 1 := by
  obtain ⟨hqlo, hqhi⟩ := barrett_quotient_bounds (K := 2 ^ 128) (D := 10 ^ 18) (n := n) (by positivity)
    (by positivity) hn.le
  rw [barrettQuotient_eq hn]
  constructor
  · exact (Nat.le_div_iff_mul_le (by positivity)).mpr hqlo
  · have h : n / 10 ^ 18 < n * (2 ^ 128 / 10 ^ 18) / 2 ^ 128 + 2 :=
      (Nat.div_lt_iff_lt_mul (by positivity)).mpr (by rw [Nat.add_mul]; exact hqhi)
    omega

/-- `divmod_1e18` is the division by `10^18`: the Barrett quotient is at most one below, and the
correction step makes up the difference. -/
theorem divmod1e18_eq {n : ℕ} (hn : n < 2 ^ 128) : divmod1e18 n = (n / 10 ^ 18, n % 10 ^ 18) := by
  obtain ⟨hqlo, hqhi⟩ := barrett_quotient_bounds (K := 2 ^ 128) (D := 10 ^ 18) (n := n) (by positivity)
    (by positivity) hn.le
  rw [divmod1e18, barrettQuotient_eq hn]
  generalize n * (2 ^ 128 / 10 ^ 18) / 2 ^ 128 = q at hqlo hqhi ⊢
  -- the remainder is below `2 * 10^18`: the subtraction does not wrap, nor does any word it reaches
  have hr : (((n : ℤ) - q * 10 ^ 18) % 2 ^ 128).toNat = n - q * 10 ^ 18 := by
    norm_num at hn hqlo hqhi ⊢
    rw [Int.emod_eq_of_lt (by omega) (by omega)]
    omega
  have hq1 : q + 1 < 2 ^ 128 := by norm_num at hn hqlo ⊢; omega
  have hr1 : n - q * 10 ^ 18 - 10 ^ 18 < 2 ^ 64 := by norm_num at hqhi ⊢; omega
  have hr2 : n - q * 10 ^ 18 < 2 ^ 64 := by norm_num at hqhi ⊢; omega
  rw [hr, Nat.mod_eq_of_lt hq1, Nat.mod_eq_of_lt hr1, Nat.mod_eq_of_lt hr2]
  exact correct_once hqlo hqhi

/-- `divmod_1e18` on every `UInt128`: the words of the estimate hold their exact values, the
estimate is the high half of `n * M`, never above the quotient and at most one below it, and after
the correction the result is the quotient and the remainder. -/
theorem divmod1e18_barrett {n : ℕ} (hn : n < 2 ^ 128) :
    ((barrettTerms n).c < 2 ^ 128 ∧ (barrettTerms n).mid < 2 ^ 128 ∧ (barrettTerms n).q < 2 ^ 128) ∧
      barrettQuotient n = (barrettTerms n).q ∧ barrettQuotient n = n * (2 ^ 128 / 10 ^ 18) / 2 ^ 128 ∧
      (barrettQuotient n ≤ n / 10 ^ 18 ∧ n / 10 ^ 18 ≤ barrettQuotient n + 1) ∧
      divmod1e18 n = (n / 10 ^ 18, n % 10 ^ 18) :=
  ⟨barrettTerms_lt hn, barrettQuotient_eq_terms hn, barrettQuotient_eq hn, barrettQuotient_le_div hn,
    divmod1e18_eq hn⟩

theorem divmod1e18_barrett_max :
    ((barrettTerms (2 ^ 128 - 1)).c < 2 ^ 128 ∧ (barrettTerms (2 ^ 128 - 1)).mid < 2 ^ 128 ∧
        (barrettTerms (2 ^ 128 - 1)).q < 2 ^ 128) ∧
      barrettQuotient (2 ^ 128 - 1) = (barrettTerms (2 ^ 128 - 1)).q ∧
      barrettQuotient (2 ^ 128 - 1) = (2 ^ 128 - 1) * (2 ^ 128 / 10 ^ 18) / 2 ^ 128 ∧
      (barrettQuotient (2 ^ 128 - 1) ≤ (2 ^ 128 - 1) / 10 ^ 18 ∧
        (2 ^ 128 - 1) / 10 ^ 18 ≤ barrettQuotient (2 ^ 128 - 1) + 1) ∧
      divmod1e18 (2 ^ 128 - 1) = ((2 ^ 128 - 1) / 10 ^ 18, (2 ^ 128 - 1) % 10 ^ 18) :=
  divmod1e18_barrett (by norm_num)

@[simp]
lemma length_extractDigitPairs (count r : ℕ) : (extractDigitPairs count r).length = count := by
  induction count generalizing r with
  | zero => rfl
  | succ count ih => rw [extractDigitPairs_succ, List.length_cons, ih]

/-- Written from the last, the pairs split off a remainder are its `2 * count` last digits. -/
lemma flatMap_reverse_extractDigitPairs (count r : ℕ) :
    (extractDigitPairs count r).reverse.flatMap outTwoDigits = fixedDigits 10 (2 * count) r := by
  induction count generalizing r with
  | zero => rfl
  | succ count ih =>
    rw [extractDigitPairs_succ, List.reverse_cons, List.flatMap_append, ih, List.flatMap_cons, List.flatMap_nil,
      List.append_nil, outTwoDigits_eq (Nat.mod_lt r (by norm_num)), Nat.mul_succ, Nat.add_comm, fixedDigits_add,
      show (100 : ℕ) = 10 ^ 2 by norm_num, fixedDigits_mod_pow]

lemma writeDigitPairs_extractDigitPairs (r : ℕ) : writeDigitPairs (extractDigitPairs 9 r) 9 = fixedDigits 10 18 r := by
  unfold writeDigitPairs
  rw [List.take_of_length_le (by simp), flatMap_reverse_extractDigitPairs]

/-- Pairs stored after others are written before them. -/
lemma writeDigitPairs_append (l l' : List ℕ) :
    writeDigitPairs (l ++ l') (l.length + l'.length) = writeDigitPairs l' l'.length ++ writeDigitPairs l l.length := by
  unfold writeDigitPairs
  simp only [List.take_length, ← List.length_append, List.reverse_append, List.flatMap_append]

lemma writeDigitPairs_two_blocks (a b : ℕ) :
    writeDigitPairs (extractDigitPairs 9 a ++ extractDigitPairs 9 b) 18 = fixedDigits 10 18 b ++ fixedDigits 10 18 a := by
  have h := writeDigitPairs_append (extractDigitPairs 9 a) (extractDigitPairs 9 b)
  rw [length_extractDigitPairs, length_extractDigitPairs] at h
  rw [show (18 : ℕ) = 9 + 9 from rfl, h, writeDigitPairs_extractDigitPairs, writeDigitPairs_extractDigitPairs]

/-- `writeUIntText(UInt128)` writes the decimal text of every value. -/
theorem writeUIntText128_eq {x : ℕ} (hx : x < 2 ^ 128) : writeUIntText128 x = Nat.toDigits 10 x := by
  have hD : (10 : ℕ) ^ 18 ≤ 2 ^ 64 := by norm_num
  unfold writeUIntText128
  by_cases hhigh : x / 2 ^ 64 % 2 ^ 64 = 0
  · have hlow : x < 2 ^ 64 := by norm_num at hx hhigh ⊢; omega
    rw [if_pos hhigh, Nat.mod_eq_of_lt hlow, toTextMagnitude_eq .w64 hlow]
  rw [if_neg hhigh]
  have hbig : 2 ^ 64 ≤ x := by norm_num at hhigh ⊢; omega
  have hq : x / 10 ^ 18 < 2 ^ 128 := lt_of_le_of_lt (Nat.div_le_self x _) hx
  dsimp only
  rw [divmod1e18_eq hx]
  dsimp only
  split_ifs with htwo
  · -- a second block: what is left is below `2^128 / 10^36`
    have hleft : x / 10 ^ 18 / 10 ^ 18 < 2 ^ 64 := by norm_num at hx ⊢; omega
    rw [divmod1e18_eq hq]
    dsimp only
    rw [Nat.mod_eq_of_lt hleft, toTextMagnitude_eq .w64 hleft, writeDigitPairs_two_blocks, fixedDigits_mod_pow,
      fixedDigits_mod_pow, ← List.append_assoc,
      ← toDigits_eq_append_fixedDigits (by decide) 18 (by omega),
      ← toDigits_eq_append_fixedDigits (by decide) 18 (by omega)]
  · have hleft : x / 10 ^ 18 < 2 ^ 64 := by omega
    rw [Nat.mod_eq_of_lt hleft, toTextMagnitude_eq .w64 hleft, writeDigitPairs_extractDigitPairs, fixedDigits_mod_pow,
      ← toDigits_eq_append_fixedDigits (by decide) 18 (by omega)]

/-- The loop of `writeUIntText(UInt256)` stops below `2^128`, with `current_pos` the number of
pairs stored, and what is left written before the pairs is the text it started from. The
induction follows the loop: each round moves one block of 18 digits into the pairs. -/
lemma splitBlocksAbove128_spec (x : ℕ) (twoValues : List ℕ) {y : ℕ} {twoValues' : List ℕ} {currentPos : ℕ}
    (h : splitBlocksAbove128 x twoValues twoValues.length = (y, twoValues', currentPos)) :
    currentPos = twoValues'.length ∧ y < 2 ^ 128 ∧
      Nat.toDigits 10 y ++ writeDigitPairs twoValues' currentPos =
        Nat.toDigits 10 x ++ writeDigitPairs twoValues twoValues.length := by
  induction x using Nat.strong_induction_on generalizing twoValues with
  | _ x ih =>
    rw [splitBlocksAbove128] at h
    split_ifs at h with hx
    · have hpos : twoValues.length + 9 = (twoValues ++ extractDigitPairs 9 (x % 10 ^ 18 % 2 ^ 64)).length := by simp
      rw [hpos] at h
      obtain ⟨hcur, hy, htext⟩ := ih (x / 10 ^ 18) (Nat.div_lt_self (by omega) (by norm_num)) _ h
      refine ⟨hcur, hy, ?_⟩
      rw [htext, List.length_append, writeDigitPairs_append, length_extractDigitPairs,
        Nat.mod_eq_of_lt (lt_of_lt_of_le (Nat.mod_lt x (by norm_num)) (by norm_num)),
        writeDigitPairs_extractDigitPairs, fixedDigits_mod_pow, ← List.append_assoc,
        ← toDigits_eq_append_fixedDigits (by decide) 18 (by norm_num at hx ⊢; omega)]
    · cases h
      exact ⟨rfl, by omega, rfl⟩

/-- `writeUIntText(UInt256)` writes the decimal text of every value. -/
theorem writeUIntText256_eq {x : ℕ} (hx : x < 2 ^ 256) : writeUIntText256 x = Nat.toDigits 10 x := by
  unfold writeUIntText256
  split_ifs with hsmall
  · have hlow : x < 2 ^ 128 := by norm_num at hx hsmall ⊢; omega
    rw [Nat.mod_eq_of_lt hlow, writeUIntText128_eq hlow]
  · rcases hs : splitBlocksAbove128 x [] 0 with ⟨y, twoValues', currentPos⟩
    obtain ⟨_, hy, htext⟩ := splitBlocksAbove128_spec x [] hs
    dsimp only
    rw [Nat.mod_eq_of_lt hy, writeUIntText128_eq hy, htext, List.length_nil, writeDigitPairs_zero, List.append_nil]

/-- `writeSIntText` writes the decimal text of every value of the signed type, the smallest
included when its fixed text is that one. -/
lemma writeSIntText_eq {bits : ℕ} {minText : List Char} {writeUIntText : ℕ → List Char}
    (hmin : minText = '-' :: Nat.toDigits 10 (2 ^ (bits - 1)))
    (hwrite : ∀ n, n < 2 ^ bits → writeUIntText n = Nat.toDigits 10 n) (hbits : 0 < bits) {x : ℤ}
    (h1 : -2 ^ (bits - 1) ≤ x) (h2 : x < 2 ^ (bits - 1)) :
    writeSIntText bits minText writeUIntText x =
      if x < 0 then '-' :: Nat.toDigits 10 x.natAbs else Nat.toDigits 10 x.toNat := by
  have hpow : ((2 ^ (bits - 1) : ℕ) : ℤ) = (2 : ℤ) ^ (bits - 1) := by norm_num
  have hhalf : 2 ^ (bits - 1) < 2 ^ bits := Nat.pow_lt_pow_right (by norm_num) (by omega)
  unfold writeSIntText
  rw [← hpow] at h1 h2 ⊢
  generalize 2 ^ (bits - 1) = half at h1 h2 hhalf hmin ⊢
  by_cases hneg : x < 0
  · rw [if_pos hneg]
    by_cases hmin' : x = -(half : ℤ)
    · rw [if_pos hmin', hmin, if_pos hneg, show x.natAbs = half by omega]
    · rw [if_neg hmin', if_pos hneg, hwrite _ (by omega)]
      congr 2
      omega
  · rw [if_neg hneg, if_neg (by omega), hwrite _ (by omega), if_neg hneg]

lemma minInt128Text_eq : minInt128Text = '-' :: Nat.toDigits 10 (2 ^ (128 - 1)) := by
  decide

lemma minInt256Text_eq : minInt256Text = '-' :: Nat.toDigits 10 (2 ^ (256 - 1)) := by
  decide

/-! ### `itoa` -/

lemma natAbs_lt_of_mem {K : IntKind} {x : ℤ} (h1 : K.minValue ≤ x) (h2 : x ≤ K.maxValue) :
    x.natAbs < 2 ^ K.bits := by
  cases K <;> delta IntKind.minValue IntKind.maxValue IntKind.isSigned IntKind.bits at h1 h2 ⊢ <;>
    simp at h1 h2 ⊢ <;> omega

lemma isSigned_of_neg {K : IntKind} {x : ℤ} (h1 : K.minValue ≤ x) (hneg : x < 0) : K.isSigned = true := by
  cases K <;> delta IntKind.minValue IntKind.isSigned at h1 ⊢ <;> simp at h1 ⊢ <;> omega

/-- A value of a signed type is at least `-2 ^ (bits - 1)` and below `2 ^ (bits - 1)`. -/
lemma natAbs_le_half {K : IntKind} {x : ℤ} (h1 : K.minValue ≤ x) (h2 : x ≤ K.maxValue) (hs : K.isSigned = true) :
    x.natAbs ≤ 2 ^ (K.bits - 1) ∧ (0 ≤ x → x.toNat < 2 ^ (K.bits - 1)) := by
  cases K <;> delta IntKind.minValue IntKind.maxValue IntKind.isSigned IntKind.bits at h1 h2 hs ⊢ <;>
    simp at h1 h2 hs ⊢ <;> omega

/-- `itoa` writes the decimal text of every value of every integer type: a `-` for a negative
value, then the digits of its magnitude. -/
theorem itoa_eq (K : IntKind) {x : ℤ} (h1 : K.minValue ≤ x) (h2 : x ≤ K.maxValue) :
    itoa K x = if x < 0 then '-' :: Nat.toDigits 10 x.natAbs else Nat.toDigits 10 x.toNat := by
  have hx := natAbs_lt_of_mem h1 h2
  cases K with
  | uint8 | int8 => exact toTextFromInteger_eq .w8 hx
  | uint16 | int16 => exact toTextFromInteger_eq .w16 hx
  | uint32 | int32 => exact toTextFromInteger_eq .w32 hx
  | uint64 | int64 => exact toTextFromInteger_eq .w64 hx
  | uint128 =>
    have hnn : 0 ≤ x := h1
    rw [itoa, writeUIntText128_eq (by change x.natAbs < 2 ^ 128 at hx; omega), if_neg (by omega)]
  | uint256 =>
    have hnn : 0 ≤ x := h1
    rw [itoa, writeUIntText256_eq (by change x.natAbs < 2 ^ 256 at hx; omega), if_neg (by omega)]
  | int128 =>
    exact writeSIntText_eq minInt128Text_eq (fun _ hn => writeUIntText128_eq hn) (by norm_num)
      h1 (by change x ≤ 2 ^ 127 - 1 at h2; omega)
  | int256 =>
    exact writeSIntText_eq minInt256Text_eq (fun _ hn => writeUIntText256_eq hn) (by norm_num)
      h1 (by change x ≤ 2 ^ 255 - 1 at h2; omega)

example : itoa .int32 (-2147483648) = "-2147483648".toList := by decide
example : itoa .uint64 18446744073709551615 = "18446744073709551615".toList := by decide
example : itoa .uint128 (2 ^ 128 - 1) = "340282366920938463463374607431768211455".toList := by decide

end ClickHouse.Base
