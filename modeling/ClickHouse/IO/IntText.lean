import ClickHouse.Base.Itoa

/-! `IO/readIntText.h` and `IO/WriteIntText.h`: decimal text of integers. The reader is
`readIntTextInBaseImpl` for base 10 with `CHECK_OVERFLOW`, as `tryReadIntText` instantiates it;
the writer is the decimal text `itoa` produces. A buffer is the list of characters not yet read. -/

namespace ClickHouse.IO

/-- The integer type `T` a reader parses into: whether it is signed, its largest value and the
magnitude of its smallest. -/
structure IntType where
  isSigned : Bool
  maxValue : ℕ
  minMagnitude : ℕ

def int64 : IntType := ⟨true, 2 ^ 63 - 1, 2 ^ 63⟩

def uint32 : IntType := ⟨false, 2 ^ 32 - 1, 0⟩

/-- The bound the checked multiply-add of a digit keeps the magnitude under. -/
def IntType.bound (t : IntType) (negative : Bool) : ℕ :=
  if negative then t.minMagnitude else t.maxValue

/-- The code at label `end:`: a sign without digits fails, otherwise the value is returned and the
buffer stays where the loop stopped. -/
def readIntEnd (negative hasSign hasNumber : Bool) (res : ℕ) (rest : List Char) :
    Option (ℤ × List Char) :=
  if hasSign ∧ ¬ hasNumber then none
  else some (if negative then -(res : ℤ) else res, rest)

/-- The loop of `readIntTextInBaseImpl` over the buffer; `res` is the magnitude read so far. For
an integer type `max_digits10` is `0`, so every digit goes through the checked branch, whose
`mulOverflow` and `add/subOverflow` fail exactly when the new magnitude passes the bound. -/
def readIntLoop (t : IntType) (negative hasSign hasNumber : Bool) (res : ℕ) :
    List Char → Option (ℤ × List Char)
  | [] => readIntEnd negative hasSign hasNumber res []
  | c :: cs =>
    if c = '+' then
      if hasNumber then readIntEnd negative hasSign hasNumber res (c :: cs)
      else if hasSign then none
      else readIntLoop t negative true hasNumber res cs
    else if c = '-' then
      if hasNumber then readIntEnd negative hasSign hasNumber res (c :: cs)
      else if hasSign then none
      else if t.isSigned then readIntLoop t true true hasNumber res cs
      else none
    else if c.isDigit then
      if t.bound negative < res * 10 + (c.toNat - '0'.toNat) then none
      else readIntLoop t negative hasSign true (res * 10 + (c.toNat - '0'.toNat)) cs
    else readIntEnd negative hasSign hasNumber res (c :: cs)

@[simp] lemma readIntLoop_nil (t : IntType) (negative hasSign hasNumber : Bool) (res : ℕ) :
    readIntLoop t negative hasSign hasNumber res [] = readIntEnd negative hasSign hasNumber res [] := rfl

/-- One character of the loop; the proofs read the loop through this lemma, not its equations. -/
lemma readIntLoop_cons (t : IntType) (negative hasSign hasNumber : Bool) (res : ℕ) (c : Char) (cs : List Char) :
    readIntLoop t negative hasSign hasNumber res (c :: cs) =
      if c = '+' then
        if hasNumber then readIntEnd negative hasSign hasNumber res (c :: cs)
        else if hasSign then none
        else readIntLoop t negative true hasNumber res cs
      else if c = '-' then
        if hasNumber then readIntEnd negative hasSign hasNumber res (c :: cs)
        else if hasSign then none
        else if t.isSigned then readIntLoop t true true hasNumber res cs
        else none
      else if c.isDigit then
        if t.bound negative < res * 10 + (c.toNat - '0'.toNat) then none
        else readIntLoop t negative hasSign true (res * 10 + (c.toNat - '0'.toNat)) cs
      else readIntEnd negative hasSign hasNumber res (c :: cs) := rfl

def tryReadIntText (t : IntType) : List Char → Option (ℤ × List Char)
  | [] => none
  | c :: cs => readIntLoop t false false false 0 (c :: cs)

lemma tryReadIntText_cons (t : IntType) (c : Char) (cs : List Char) :
    tryReadIntText t (c :: cs) = readIntLoop t false false false 0 (c :: cs) := rfl

def writeIntText (x : ℤ) : List Char :=
  if x < 0 then '-' :: Nat.toDigits 10 x.natAbs else Nat.toDigits 10 x.toNat

/-! ### Reading back what was written -/

section Loop

variable {t : IntType} {negative hasSign hasNumber : Bool} {res : ℕ}

lemma toNat_digitChar_sub_zero {n : ℕ} (hn : n < 10) : n.digitChar.toNat - '0'.toNat = n :=
  Nat.toNat_digitChar_sub_48_of_lt_ten hn

lemma isDigit_digitChar_of_lt {n : ℕ} (hn : n < 10) : n.digitChar.isDigit := by
  simp [Nat.isDigit_digitChar, hn]

lemma readIntLoop_digit {c : Char} (hc : c.isDigit) (cs : List Char)
    (hbound : res * 10 + (c.toNat - '0'.toNat) ≤ t.bound negative) :
    readIntLoop t negative hasSign hasNumber res (c :: cs) =
      readIntLoop t negative hasSign true (res * 10 + (c.toNat - '0'.toNat)) cs := by
  have hplus : c ≠ '+' := by
    rintro rfl
    cases hc
  have hminus : c ≠ '-' := by
    rintro rfl
    cases hc
  rw [readIntLoop_cons, if_neg hplus, if_neg hminus, if_pos hc, if_neg (by omega)]

/-- The digits of `n` move a loop that has read nothing into the state that has read `n`. The
induction is on `n`, following `Nat.toDigits_of_base_le`: the digits of `n / 10`, then the last. -/
lemma readIntLoop_toDigits (n : ℕ) (hn : n ≤ t.bound negative) (rest : List Char) :
    readIntLoop t negative hasSign hasNumber 0 (Nat.toDigits 10 n ++ rest) =
      readIntLoop t negative hasSign true n rest := by
  induction n using Nat.strong_induction_on generalizing hasNumber rest with
  | _ n ih =>
    by_cases hlt : n < 10
    · rw [Nat.toDigits_of_lt_base hlt, List.singleton_append,
        readIntLoop_digit (isDigit_digitChar_of_lt hlt) _
          (by rw [toNat_digitChar_sub_zero hlt]; omega),
        toNat_digitChar_sub_zero hlt, Nat.zero_mul, Nat.zero_add]
    · have hmod : n % 10 < 10 := Nat.mod_lt n (by decide)
      rw [Nat.toDigits_of_base_le (by decide) (by omega), List.append_assoc, List.singleton_append,
        ih (n / 10) (by omega) (by omega),
        readIntLoop_digit (isDigit_digitChar_of_lt hmod) _
          (by rw [toNat_digitChar_sub_zero hmod]; omega),
        toNat_digitChar_sub_zero hmod, Nat.div_add_mod']

/-- The loop stops at a character that cannot continue a number it has read. -/
lemma readIntLoop_stop (rest : List Char) (hrest : ∀ c ∈ rest.head?, ¬ c.isDigit) :
    readIntLoop t negative hasSign true res rest =
      some (if negative then -(res : ℤ) else res, rest) := by
  have hend : readIntEnd negative hasSign true res rest =
      some (if negative then -(res : ℤ) else res, rest) := by
    unfold readIntEnd
    rw [if_neg (by simp)]
  cases rest with
  | nil => exact hend
  | cons c cs =>
    have hc : ¬ c.isDigit := hrest c rfl
    rw [readIntLoop_cons]
    by_cases hplus : c = '+'
    · rw [if_pos hplus, if_pos rfl, hend]
    · by_cases hminus : c = '-'
      · rw [if_neg hplus, if_pos hminus, if_pos rfl, hend]
      · rw [if_neg hplus, if_neg hminus, if_neg hc, hend]

end Loop

/-- A value of the type, written and followed by anything that does not start with a digit, is
read back. -/
theorem tryReadIntText_writeIntText {t : IntType} {x : ℤ} (hmax : x ≤ t.maxValue)
    (hmin : -(t.minMagnitude : ℤ) ≤ x) (hsigned : x < 0 → t.isSigned) (rest : List Char)
    (hrest : ∀ c ∈ rest.head?, ¬ c.isDigit) :
    tryReadIntText t (writeIntText x ++ rest) = some (x, rest) := by
  by_cases hneg : x < 0
  · have hbound : x.natAbs ≤ t.bound true := by
      unfold IntType.bound
      rw [if_pos rfl]
      omega
    unfold writeIntText
    rw [if_pos hneg, List.cons_append, tryReadIntText_cons, readIntLoop_cons, if_neg (by decide),
      if_pos rfl, if_neg (by decide), if_neg (by decide), if_pos (hsigned hneg),
      readIntLoop_toDigits _ hbound, readIntLoop_stop _ hrest, if_pos rfl]
    congr
    omega
  · have hbound : x.toNat ≤ t.bound false := by
      unfold IntType.bound
      rw [if_neg (by decide)]
      omega
    obtain ⟨c, cs, hdigits⟩ := List.exists_cons_of_ne_nil (@Nat.toDigits_ne_nil x.toNat 10)
    have hread := @readIntLoop_toDigits t false false false _ hbound rest
    rw [readIntLoop_stop _ hrest, if_neg (by decide)] at hread
    unfold writeIntText
    rw [if_neg hneg, hdigits, List.cons_append, tryReadIntText_cons, ← List.cons_append,
      ← hdigits, hread]
    congr
    omega

/-! ### What a successful read returns -/

lemma readIntEnd_bounds {t : IntType} {negative hasSign hasNumber : Bool} {res : ℕ}
    {rest : List Char} {x : ℤ} {rest' : List Char} (hres : res ≤ t.bound negative)
    (hsigned : negative → t.isSigned) (h : readIntEnd negative hasSign hasNumber res rest = some (x, rest')) :
    x ≤ t.maxValue ∧ -(t.minMagnitude : ℤ) ≤ x ∧ (x < 0 → t.isSigned) := by
  unfold readIntEnd at h
  split_ifs at h with hsign hneg
  · cases h
    unfold IntType.bound at hres
    rw [if_pos hneg] at hres
    exact ⟨by omega, by omega, fun _ => hsigned hneg⟩
  · cases h
    unfold IntType.bound at hres
    rw [if_neg hneg] at hres
    exact ⟨by omega, by omega, fun h => absurd h (by omega)⟩

/-- The magnitude stays under the bound of the sign read so far, is zero until a digit is read,
and only a signed type reads a minus; so the value returned is one of the type. The induction
follows the loop. -/
lemma readIntLoop_bounds {t : IntType} (buf : List Char) :
    ∀ {negative hasSign hasNumber : Bool} {res : ℕ} {x : ℤ} {rest : List Char},
      res ≤ t.bound negative → (negative → t.isSigned) → (hasNumber = false → res = 0) →
      readIntLoop t negative hasSign hasNumber res buf = some (x, rest) →
      x ≤ t.maxValue ∧ -(t.minMagnitude : ℤ) ≤ x ∧ (x < 0 → t.isSigned) := by
  induction buf with
  | nil =>
    intro negative hasSign hasNumber res x rest hres hsigned _ h
    exact readIntEnd_bounds hres hsigned h
  | cons c cs ih =>
    intro negative hasSign hasNumber res x rest hres hsigned hzero h
    rw [readIntLoop_cons] at h
    split_ifs at h with hplus hnum hsign hminus hnum' hsign' hsig hdigit hover
    · exact readIntEnd_bounds hres hsigned h
    · exact ih hres hsigned hzero h
    · exact readIntEnd_bounds hres hsigned h
    · rw [hzero (by simpa using hnum')] at h
      exact ih (Nat.zero_le _) (fun _ => hsig) (fun _ => rfl) h
    · exact ih (by omega) hsigned (fun h => by cases h) h
    · exact readIntEnd_bounds hres hsigned h

lemma tryReadIntText_bounds {t : IntType} {buf : List Char} {x : ℤ} {rest : List Char}
    (h : tryReadIntText t buf = some (x, rest)) :
    x ≤ t.maxValue ∧ -(t.minMagnitude : ℤ) ≤ x ∧ (x < 0 → t.isSigned) := by
  cases buf with
  | nil => cases h
  | cons c cs => exact readIntLoop_bounds _ (Nat.zero_le _) (fun h => absurd h (by decide)) (fun _ => rfl) h

/-! ### Canonical text and the value of digits -/

/-- The canonical decimal text of `x`: a `-` exactly when `x` is negative, then digits without a
leading zero, but for `0` itself, whose value is `|x|`. -/
def IsCanonicalText (x : ℤ) (s : List Char) : Prop :=
  ∃ ds, s = (if x < 0 then ['-'] else []) ++ ds ∧ ds ≠ [] ∧ (∀ c ∈ ds, c.isDigit) ∧
    (ds.head? = some '0' → ds = ['0']) ∧ Nat.ofDigitChars 10 ds 0 = x.natAbs

lemma head_toDigits_ne_zero {n : ℕ} (hn : n ≠ 0) : (Nat.toDigits 10 n).head? ≠ some '0' := by
  induction n using Nat.strong_induction_on with
  | _ n ih =>
    by_cases hlt : n < 10
    · rw [Nat.toDigits_of_lt_base hlt, List.head?_cons, Ne, Option.some_inj,
        ClickHouse.Lib.FixedDigits.digitChar_eq_zero_iff hlt]
      exact hn
    · rw [Nat.toDigits_of_base_le (by decide) (by omega), List.head?_append_of_ne_nil _ Nat.toDigits_ne_nil]
      exact ih (n / 10) (by omega) (by omega)

theorem writeIntText_canonical (x : ℤ) : IsCanonicalText x (writeIntText x) := by
  refine ⟨Nat.toDigits 10 x.natAbs, ?_, Nat.toDigits_ne_nil,
    fun c hc => Nat.isDigit_of_mem_toDigits (by decide) (by decide) hc, fun h => ?_, Nat.ofDigitChars_ten_toDigits⟩
  · by_cases hneg : x < 0
    · unfold writeIntText
      rw [if_pos hneg, if_pos hneg]
      rfl
    · unfold writeIntText
      rw [if_neg hneg, if_neg hneg, List.nil_append]
      congr 1
      omega
  · by_cases h0 : x.natAbs = 0
    · rw [h0, Nat.toDigits_zero]
    · exact absurd h (head_toDigits_ne_zero h0)

/-! ### A sign and digits, read with the overflow check -/

section Value

variable {t : IntType}

lemma isDigit_ne_sign {c : Char} (hc : c.isDigit) : c ≠ '+' ∧ c ≠ '-' := by
  constructor <;> rintro rfl <;> cases hc

/-- Over digits only, the checked loop succeeds only with the value of all of them: what it
returns is the magnitude read so far, extended by each digit, with the sign read before. -/
lemma readIntLoop_digits (ds : List Char) (hds : ∀ c ∈ ds, c.isDigit) :
    ∀ {negative hasSign hasNumber : Bool} {res : ℕ} {x : ℤ} {rest : List Char},
      readIntLoop t negative hasSign hasNumber res ds = some (x, rest) →
        rest = [] ∧ x = if negative then -(Nat.ofDigitChars 10 ds res : ℤ) else Nat.ofDigitChars 10 ds res := by
  induction ds with
  | nil =>
    intro negative hasSign hasNumber res x rest h
    rw [readIntLoop_nil] at h
    unfold readIntEnd at h
    by_cases hsign : hasSign = true ∧ ¬hasNumber = true
    · rw [if_pos hsign] at h
      cases h
    · rw [if_neg hsign] at h
      cases h
      exact ⟨rfl, by rw [Nat.ofDigitChars_nil]⟩
  | cons c cs ih =>
    intro negative hasSign hasNumber res x rest h
    have hc := hds c List.mem_cons_self
    obtain ⟨hplus, hminus⟩ := isDigit_ne_sign hc
    rw [readIntLoop_cons, if_neg hplus, if_neg hminus, if_pos hc] at h
    split_ifs at h
    rw [Nat.ofDigitChars_cons, Nat.mul_comm]
    exact ih (fun c' hc' => hds c' (List.mem_cons_of_mem c hc')) h

/-- `tryReadIntText` on a sign and digits returns, when it succeeds, their value, having read them
all. -/
theorem tryReadIntText_sign_digits {sign ds : List Char} (hsign : sign = [] ∨ sign = ['+'] ∨ sign = ['-'])
    (hne : ds ≠ []) (hds : ∀ c ∈ ds, c.isDigit) {x : ℤ} {rest : List Char}
    (h : tryReadIntText t (sign ++ ds) = some (x, rest)) :
    rest = [] ∧ x = if sign = ['-'] then -(Nat.ofDigitChars 10 ds 0 : ℤ) else Nat.ofDigitChars 10 ds 0 := by
  obtain ⟨c, cs, rfl⟩ := List.exists_cons_of_ne_nil hne
  rcases hsign with rfl | rfl | rfl
  · exact readIntLoop_digits _ hds h
  · rw [List.singleton_append, tryReadIntText_cons, readIntLoop_cons, if_pos rfl, if_neg (by decide), if_neg (by decide)] at h
    exact readIntLoop_digits _ hds h
  · rw [List.singleton_append, tryReadIntText_cons, readIntLoop_cons, if_neg (by decide), if_pos rfl, if_neg (by decide),
      if_neg (by decide)] at h
    split_ifs at h
    exact readIntLoop_digits _ hds h

end Value

/-! ### Big integers

For `Int128`, `UInt128`, `Int256` and `UInt256` (`is_big_int_v`) the loop has no overflow check:
the magnitude is kept in the unsigned type and wraps, `x = res` reads it in the type, and a
negative value is `mulIgnoreOverflow<T>(res, -1)`. -/

/-- An unsigned value of `bits` bits read as the signed type of as many bits. -/
def toSigned (bits u : ℕ) : ℤ :=
  if u < 2 ^ (bits - 1) then u else (u : ℤ) - 2 ^ bits

lemma toSigned_of_lt {bits u : ℕ} (h : u < 2 ^ (bits - 1)) : toSigned bits u = u := by
  unfold toSigned
  rw [if_pos h]

/-- The signed reading of `-m` as an unsigned word is `-m`, down to the smallest value. -/
lemma toSigned_neg {bits m : ℕ} (hbits : 0 < bits) (hm0 : 0 < m) (hm : m ≤ 2 ^ (bits - 1)) :
    toSigned bits ((2 ^ bits - m) % 2 ^ bits) = -m := by
  have hpow : 2 ^ bits = 2 * 2 ^ (bits - 1) := by
    rw [← pow_succ']
    congr 1
    omega
  unfold toSigned
  rw [Nat.mod_eq_of_lt (by omega), if_neg (by omega), Nat.cast_sub (by omega)]
  push_cast
  ring

def readBigIntEnd (bits : ℕ) (isSigned negative hasSign hasNumber : Bool) (res : ℕ) (rest : List Char) :
    Option (ℤ × List Char) :=
  if hasSign ∧ ¬ hasNumber then none
  else if isSigned then
    some (if negative then toSigned bits ((2 ^ bits - res) % 2 ^ bits) else toSigned bits res, rest)
  else some (res, rest)

def readBigIntLoop (bits : ℕ) (isSigned negative hasSign hasNumber : Bool) (res : ℕ) :
    List Char → Option (ℤ × List Char)
  | [] => readBigIntEnd bits isSigned negative hasSign hasNumber res []
  | c :: cs =>
    if c = '+' then
      if hasNumber then readBigIntEnd bits isSigned negative hasSign hasNumber res (c :: cs)
      else if hasSign then none
      else readBigIntLoop bits isSigned negative true hasNumber res cs
    else if c = '-' then
      if hasNumber then readBigIntEnd bits isSigned negative hasSign hasNumber res (c :: cs)
      else if hasSign then none
      else if isSigned then readBigIntLoop bits isSigned true true hasNumber res cs
      else none
    else if c.isDigit then
      readBigIntLoop bits isSigned negative hasSign true ((res * 10 + (c.toNat - '0'.toNat)) % 2 ^ bits) cs
    else readBigIntEnd bits isSigned negative hasSign hasNumber res (c :: cs)

/-- One character of the loop; the proofs read the loop through this lemma, not its equations. -/
lemma readBigIntLoop_cons (bits : ℕ) (isSigned negative hasSign hasNumber : Bool) (res : ℕ) (c : Char)
    (cs : List Char) :
    readBigIntLoop bits isSigned negative hasSign hasNumber res (c :: cs) =
      if c = '+' then
        if hasNumber then readBigIntEnd bits isSigned negative hasSign hasNumber res (c :: cs)
        else if hasSign then none
        else readBigIntLoop bits isSigned negative true hasNumber res cs
      else if c = '-' then
        if hasNumber then readBigIntEnd bits isSigned negative hasSign hasNumber res (c :: cs)
        else if hasSign then none
        else if isSigned then readBigIntLoop bits isSigned true true hasNumber res cs
        else none
      else if c.isDigit then
        readBigIntLoop bits isSigned negative hasSign true ((res * 10 + (c.toNat - '0'.toNat)) % 2 ^ bits) cs
      else readBigIntEnd bits isSigned negative hasSign hasNumber res (c :: cs) := rfl

open ClickHouse.Base

/-- The reader's view of an integer type up to 64 bits. -/
def intTypeOf (K : IntKind) : IntType :=
  ⟨K.isSigned, K.maxValue.toNat, K.minValue.natAbs⟩

/-- `tryReadIntText<T>` with its default `CHECK_OVERFLOW`, for each integer type. -/
def tryReadIntTextOf (K : IntKind) (buf : List Char) : Option (ℤ × List Char) :=
  if 64 < K.bits then
    match buf with
    | [] => none
    | c :: cs => readBigIntLoop K.bits K.isSigned false false false 0 (c :: cs)
  else tryReadIntText (intTypeOf K) buf

section BigLoop

variable {bits : ℕ} {isSigned negative hasSign hasNumber : Bool}

lemma readBigIntLoop_digit {c : Char} (hc : c.isDigit) (cs : List Char) (res : ℕ) :
    readBigIntLoop bits isSigned negative hasSign hasNumber res (c :: cs) =
      readBigIntLoop bits isSigned negative hasSign true ((res * 10 + (c.toNat - '0'.toNat)) % 2 ^ bits) cs := by
  obtain ⟨hplus, hminus⟩ := isDigit_ne_sign hc
  rw [readBigIntLoop_cons, if_neg hplus, if_neg hminus, if_pos hc]

/-- The digits of a magnitude of the type read without a wrap. The induction is the one of
`readIntLoop_toDigits`. -/
lemma readBigIntLoop_toDigits {n : ℕ} (hn : n < 2 ^ bits) (rest : List Char) :
    readBigIntLoop bits isSigned negative hasSign hasNumber 0 (Nat.toDigits 10 n ++ rest) =
      readBigIntLoop bits isSigned negative hasSign true n rest := by
  induction n using Nat.strong_induction_on generalizing hasNumber rest with
  | _ n ih =>
    by_cases hlt : n < 10
    · rw [Nat.toDigits_of_lt_base hlt, List.singleton_append, readBigIntLoop_digit (isDigit_digitChar_of_lt hlt),
        toNat_digitChar_sub_zero hlt, Nat.zero_mul, Nat.zero_add, Nat.mod_eq_of_lt hn]
    · have hmod : n % 10 < 10 := Nat.mod_lt n (by decide)
      rw [Nat.toDigits_of_base_le (by decide) (by omega), List.append_assoc, List.singleton_append,
        ih (n / 10) (by omega) (by omega), readBigIntLoop_digit (isDigit_digitChar_of_lt hmod),
        toNat_digitChar_sub_zero hmod, Nat.div_add_mod', Nat.mod_eq_of_lt hn]

lemma readBigIntLoop_stop (res : ℕ) (rest : List Char) (hrest : ∀ c ∈ rest.head?, ¬ c.isDigit) :
    readBigIntLoop bits isSigned negative hasSign true res rest = readBigIntEnd bits isSigned negative hasSign true res rest := by
  cases rest with
  | nil => rfl
  | cons c cs =>
    have hc : ¬ c.isDigit := hrest c rfl
    rw [readBigIntLoop_cons]
    by_cases hplus : c = '+'
    · rw [if_pos hplus, if_pos rfl]
    · by_cases hminus : c = '-'
      · rw [if_neg hplus, if_pos hminus, if_pos rfl]
      · rw [if_neg hplus, if_neg hminus, if_neg hc]

end BigLoop

/-- A value of a type above 64 bits, written and followed by anything that does not start with a
digit, is read back: the magnitude never wraps, and the signed reading of `2 ^ bits - |x|` is `x`. -/
theorem tryReadIntTextOf_big {K : IntKind} (hK : 64 < K.bits) {x : ℤ} (h1 : K.minValue ≤ x) (h2 : x ≤ K.maxValue)
    (rest : List Char) (hrest : ∀ c ∈ rest.head?, ¬ c.isDigit) :
    tryReadIntTextOf K (writeIntText x ++ rest) = some (x, rest) := by
  have hx := natAbs_lt_of_mem h1 h2
  unfold tryReadIntTextOf
  rw [if_pos hK]
  by_cases hneg : x < 0
  · have hsigned := isSigned_of_neg h1 hneg
    have hhalf := (natAbs_le_half h1 h2 hsigned).1
    unfold writeIntText
    rw [if_pos hneg, List.cons_append]
    dsimp only
    rw [readBigIntLoop_cons, if_neg (by decide), if_pos rfl, if_neg (by decide), if_neg (by decide), if_pos hsigned,
      readBigIntLoop_toDigits hx, readBigIntLoop_stop _ _ hrest, readBigIntEnd, if_neg (by simp), if_pos hsigned,
      if_pos rfl, toSigned_neg (by omega) (by omega) hhalf]
    congr
    omega
  · obtain ⟨c, cs, hdigits⟩ := List.exists_cons_of_ne_nil (@Nat.toDigits_ne_nil x.natAbs 10)
    unfold writeIntText
    rw [if_neg hneg, show x.toNat = x.natAbs by omega, hdigits, List.cons_append]
    dsimp only
    rw [← List.cons_append, ← hdigits, readBigIntLoop_toDigits hx, readBigIntLoop_stop _ _ hrest, readBigIntEnd,
      if_neg (by simp)]
    by_cases hsigned : K.isSigned = true
    · have hpos := (natAbs_le_half h1 h2 hsigned).2 (by omega)
      rw [if_pos hsigned, if_neg (by decide), toSigned_of_lt (by omega)]
      congr
      omega
    · rw [if_neg hsigned]
      congr
      omega

example : tryReadIntTextOf .int128 (itoa .int128 (-2 ^ 127)) = some (-2 ^ 127, []) := by decide

end ClickHouse.IO
