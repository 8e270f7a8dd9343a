import Mathlib

/-! `Common/StringUtils.h`: the ASCII classes of a byte, the names that may stand without quotes, and
the skip over the spaces of Unicode in UTF-8. A byte is a `Char` below 256. -/

namespace ClickHouse.Common

/-- The backquote, which delimits identifiers. -/
def backQuoteChar : Char := Char.ofNat 96

def isLowerAlphaASCII (c : Char) : Bool := 'a' ≤ c && c ≤ 'z'

def isUpperAlphaASCII (c : Char) : Bool := 'A' ≤ c && c ≤ 'Z'

def isAlphaASCII (c : Char) : Bool := isLowerAlphaASCII c || isUpperAlphaASCII c

def isNumericASCII (c : Char) : Bool := '0' ≤ c && c ≤ '9'

def isHexDigit (c : Char) : Bool := isNumericASCII c || ('a' ≤ c && c ≤ 'f') || ('A' ≤ c && c ≤ 'F')

def isAlphaNumericASCII (c : Char) : Bool := isAlphaASCII c || isNumericASCII c

def isWordCharASCII (c : Char) : Bool := isAlphaNumericASCII c || c = '_'

def isValidIdentifierBegin (c : Char) : Bool := isAlphaASCII c || c = '_'

def isWhitespaceASCII (c : Char) : Bool :=
  c = ' ' || c = '\t' || c = '\n' || c = '\r' || c = '\x0c' || c = '\x0b'

def isControlASCII (c : Char) : Bool := c.toNat ≤ 31

/-- `isNumberSeparator` at the head of the bytes from `pos` to the end: a `_` between two digits
of the block. -/
def isNumberSeparator (isStartOfBlock isHex : Bool) : List Char → Bool
  | c :: d :: _ => c = '_' && !isStartOfBlock && (if isHex then isHexDigit d else isNumericASCII d)
  | _ => false

/-- Works assuming `isAlphaASCII`. -/
def toLowerIfAlphaASCII (c : Char) : Char := Char.ofNat (c.toNat ||| 0x20)

def alternateCaseIfAlphaASCII (c : Char) : Char := Char.ofNat (c.toNat ^^^ 0x20)

/-- A name that may be written without quotes: a word that does not start with a digit and is not
`NULL` in any case. -/
def isValidIdentifier : List Char → Bool
  | [] => false
  | c :: cs =>
    isValidIdentifierBegin c && cs.all isWordCharASCII &&
      !((c :: cs).length = 4 && toLowerIfAlphaASCII c = 'n' && toLowerIfAlphaASCII ((c :: cs).getD 1 ' ') = 'u' &&
        toLowerIfAlphaASCII ((c :: cs).getD 2 ' ') = 'l' && toLowerIfAlphaASCII ((c :: cs).getD 3 ' ') = 'l')

lemma isValidIdentifier_cons (c : Char) (cs : List Char) :
    isValidIdentifier (c :: cs) =
      (isValidIdentifierBegin c && cs.all isWordCharASCII &&
        !((c :: cs).length = 4 && toLowerIfAlphaASCII c = 'n' && toLowerIfAlphaASCII ((c :: cs).getD 1 ' ') = 'u' &&
          toLowerIfAlphaASCII ((c :: cs).getD 2 ' ') = 'l' && toLowerIfAlphaASCII ((c :: cs).getD 3 ' ') = 'l')) :=
  rfl

/-- `UTF8::isContinuationOctet`: a byte `10xxxxxx`. -/
def isContinuationOctet (c : Char) : Bool := c.toNat &&& 0xC0 = 0x80

/-- The spaces of Unicode in three bytes that `skipWhitespacesUTF8` skips. -/
def isThreeByteWhitespace (b0 b1 b2 : Char) : Bool :=
  (b0.toNat = 0xE1 && b1.toNat = 0xA0 && b2.toNat = 0x8E) ||
  (b0.toNat = 0xE2 &&
    ((b1.toNat = 0x80 && ((0x80 ≤ b2.toNat && b2.toNat ≤ 0x8A) || (0xA8 ≤ b2.toNat && b2.toNat ≤ 0xA9) ||
        (0x8B ≤ b2.toNat && b2.toNat ≤ 0x8D) || b2.toNat = 0xAF)) ||
      (b1.toNat = 0x81 && (b2.toNat = 0x9F || b2.toNat = 0xA0)))) ||
  (b0.toNat = 0xE3 && b1.toNat = 0x80 && b2.toNat = 0x80) ||
  (b0.toNat = 0xEF && b1.toNat = 0xBB && b2.toNat = 0xBF)

/-- `skipWhitespacesUTF8`: how many bytes of spaces, of ASCII or of Unicode, stand at the head. -/
def skipWhitespacesUTF8 : List Char → ℕ
  | [] => 0
  | c :: rest =>
    if isWhitespaceASCII c then skipWhitespacesUTF8 rest + 1
    else
      match rest with
      | [] => 0
      | b1 :: rest1 =>
        if c.toNat = 0xC2 ∧ (b1.toNat = 0x85 ∨ b1.toNat = 0xA0) then skipWhitespacesUTF8 rest1 + 2
        else
          match rest1 with
          | [] => 0
          | b2 :: rest2 => if isThreeByteWhitespace c b1 b2 then skipWhitespacesUTF8 rest2 + 3 else 0

lemma isWordCharASCII_of_isValidIdentifierBegin {c : Char} (h : isValidIdentifierBegin c = true) :
    isWordCharASCII c = true := by
  unfold isValidIdentifierBegin at h
  unfold isWordCharASCII isAlphaNumericASCII
  simp only [Bool.or_eq_true] at h ⊢
  tauto

lemma skipWhitespacesUTF8_le_length (l : List Char) : skipWhitespacesUTF8 l ≤ l.length := by
  fun_induction skipWhitespacesUTF8 l <;> simp only [List.length_cons, List.length_nil] <;> omega

section Case

variable {c : Char}

lemma le_iff_toNat_le {a b : Char} : a ≤ b ↔ a.toNat ≤ b.toNat := by
  rw [Char.le_def, UInt32.le_iff_toNat_le]
  rfl

lemma toNat_lt_of_isAlphaNumericASCII {c : Char} (h : isAlphaNumericASCII c = true) : c.toNat < 0x80 := by
  unfold isAlphaNumericASCII isAlphaASCII isLowerAlphaASCII isUpperAlphaASCII isNumericASCII at h
  simp only [Bool.or_eq_true, Bool.and_eq_true, decide_eq_true_eq, le_iff_toNat_le] at h
  rcases h with (⟨-, h⟩ | ⟨-, h⟩) | ⟨-, h⟩ <;> simp at h <;> omega

lemma isAlphaASCII_iff : isAlphaASCII c = true ↔ (97 ≤ c.toNat ∧ c.toNat ≤ 122) ∨ (65 ≤ c.toNat ∧ c.toNat ≤ 90) := by
  unfold isAlphaASCII isLowerAlphaASCII isUpperAlphaASCII
  simp only [Bool.or_eq_true, Bool.and_eq_true, decide_eq_true_eq, le_iff_toNat_le]
  rfl

/-- `Char.toLower` is C's `tolower` in the C locale: it moves only `A` to `Z`. -/
lemma toNat_toLower (c : Char) : c.toLower.toNat = if 65 ≤ c.toNat ∧ c.toNat ≤ 90 then c.toNat + 32 else c.toNat := by
  have hA : ('A' : Char).val.toNat = 65 := rfl
  have hZ : ('Z' : Char).val.toNat = 90 := rfl
  have ha : ('a' : Char).val - ('A' : Char).val = 32 := rfl
  unfold Char.toLower
  simp only [ge_iff_le, UInt32.le_iff_toNat_le, hA, hZ, Char.toNat_val, ha]
  split_ifs with h1
  · have h32 : (32 : UInt32).toNat = 32 := rfl
    rw [Char.toNat_mk, UInt32.toNat_add, h32, Char.toNat_val]
    omega
  all_goals omega

lemma isAlphaASCII_of_toLower (h : isAlphaASCII c.toLower = true) : isAlphaASCII c = true := by
  rw [isAlphaASCII_iff, toNat_toLower] at h
  rw [isAlphaASCII_iff]
  split_ifs at h <;> omega

/-- On a letter, setting the bit `0x20` is `tolower`. -/
lemma toLowerIfAlphaASCII_eq_toLower (h : isAlphaASCII c = true) : toLowerIfAlphaASCII c = c.toLower := by
  have key : ∀ n < 123, isAlphaASCII (Char.ofNat n) = true →
      toLowerIfAlphaASCII (Char.ofNat n) = (Char.ofNat n).toLower := by decide
  have hlt : c.toNat < 123 := by
    rw [isAlphaASCII_iff] at h
    omega
  rw [← Char.ofNat_toNat c] at h ⊢
  exact key _ hlt h

lemma isWordCharASCII_of_isAlphaASCII (h : isAlphaASCII c = true) : isWordCharASCII c = true := by
  unfold isWordCharASCII isAlphaNumericASCII
  simp [h]

/-- A word of letters stands without quotes unless it is `null` in some case. -/
lemma isValidIdentifier_of_forall_isAlphaASCII {s : List Char} (hne : s ≠ []) (h : ∀ c ∈ s, isAlphaASCII c = true)
    (hnull : s.map Char.toLower ≠ ['n', 'u', 'l', 'l']) : isValidIdentifier s = true := by
  obtain ⟨c, cs, rfl⟩ := List.exists_cons_of_ne_nil hne
  have hc : isAlphaASCII c = true := h c List.mem_cons_self
  have hcs : ∀ d ∈ cs, isAlphaASCII d = true := fun d hd => h d (List.mem_cons_of_mem c hd)
  have hword : cs.all isWordCharASCII = true :=
    List.all_eq_true.mpr fun d hd => isWordCharASCII_of_isAlphaASCII (hcs d hd)
  have hbegin : isValidIdentifierBegin c = true := by
    unfold isValidIdentifierBegin
    simp [hc]
  -- the check for `null` looks at four letters, each lowered as `tolower` does
  have hcheck : ((c :: cs).length = 4 && toLowerIfAlphaASCII c = 'n' &&
      toLowerIfAlphaASCII ((c :: cs).getD 1 ' ') = 'u' && toLowerIfAlphaASCII ((c :: cs).getD 2 ' ') = 'l' &&
      toLowerIfAlphaASCII ((c :: cs).getD 3 ' ') = 'l') = false := by
    rw [Bool.eq_false_iff]
    intro hn
    simp only [Bool.and_eq_true, decide_eq_true_eq] at hn
    obtain ⟨⟨⟨⟨hlen, h0⟩, h1⟩, h2⟩, h3⟩ := hn
    match cs, hcs, hlen with
    | [c1, c2, c3], hcs, _ =>
      simp only [List.getD_cons_succ, List.getD_cons_zero] at h1 h2 h3
      rw [toLowerIfAlphaASCII_eq_toLower hc] at h0
      rw [toLowerIfAlphaASCII_eq_toLower (hcs c1 (by simp))] at h1
      rw [toLowerIfAlphaASCII_eq_toLower (hcs c2 (by simp))] at h2
      rw [toLowerIfAlphaASCII_eq_toLower (hcs c3 (by simp))] at h3
      exact hnull (by simp [h0, h1, h2, h3])
  rw [isValidIdentifier_cons, hbegin, hword, hcheck]
  rfl

end Case


/-! ### Prefixes of patterns (`StringUtils.cpp`) -/

/-- `isAllASCII`. -/
def isAllASCII (s : List Char) : Bool := s.all fun c => c.toNat < 0x80

/-- The loop of `extractFixedPrefixFromLikePattern` with `fixedPrefix` collected so far: the prefix,
whether it is perfect (the first wildcard is a run of `%` to the end) and whether the pattern has no
wildcard at all. -/
def extractFixedPrefixFromLikePatternLoop (requiresPerfectPrefix : Bool) :
    List Char → List Char → List Char × Bool × Bool
  | [], fixedPrefix => (fixedPrefix, false, true)
  | c :: rest, fixedPrefix =>
    if c = '%' ∨ c = '_' then
      let isPerfectPrefix := (c :: rest).all (· = '%')
      if requiresPerfectPrefix then
        if isPerfectPrefix then (fixedPrefix, true, false) else ([], false, false)
      else (fixedPrefix, isPerfectPrefix, false)
    else if c = '\\' then
      match rest with
      -- a trailing escape is never exact
      | [] => if requiresPerfectPrefix then ([], false, false) else (fixedPrefix, false, false)
      -- an unknown escape keeps its backslash
      | d :: rest =>
        extractFixedPrefixFromLikePatternLoop requiresPerfectPrefix rest
          (fixedPrefix ++ (if d ≠ '%' ∧ d ≠ '_' ∧ d ≠ '\\' then ['\\'] else []) ++ [d])
    else extractFixedPrefixFromLikePatternLoop requiresPerfectPrefix rest (fixedPrefix ++ [c])

def extractFixedPrefixFromLikePattern (likePattern : List Char) (requiresPerfectPrefix : Bool) :
    List Char × Bool × Bool :=
  extractFixedPrefixFromLikePatternLoop requiresPerfectPrefix likePattern []

/-- `firstStringThatIsGreaterThanAllStringsWithPrefix`: the bytes `FF` at the end dropped and the
last byte left raised by one; empty when no byte is left. -/
def firstStringThatIsGreaterThanAllStringsWithPrefix (pref : List Char) : List Char :=
  match pref.reverse.dropWhile (fun c => c.toNat = 255) with
  | [] => []
  | c :: rest => rest.reverse ++ [Char.ofNat (1 + c.toNat)]

end ClickHouse.Common
