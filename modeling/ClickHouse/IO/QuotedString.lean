import ClickHouse.Common.ErrorCodes
import ClickHouse.Common.StringUtils

/-! `IO/WriteHelpers.h` and `IO/ReadHelpers.cpp`: a string written between quotes with its special
bytes escaped by a backslash, and the reader of such a string, which decodes escape sequences
(`\x` with two hexadecimal digits, `\N`, and a backslash before one byte) and, in SQL style, a
doubled quote. Strings are lists of bytes; the reader returns the string and the bytes after the
closing quote. -/

namespace ClickHouse.IO

open ClickHouse.Common

/-- What `writeAnyEscapedString` writes for one byte: the cases of its switch. -/
def escapeByte (quoteCharacter : Char) (escapeQuoteWithQuote escapeBackslashWithBackslash : Bool) (c : Char) :
    List Char :=
  if c = quoteCharacter then [if escapeQuoteWithQuote then quoteCharacter else '\\', quoteCharacter]
  else if c = '\x08' then ['\\', 'b']
  else if c = '\x0c' then ['\\', 'f']
  else if c = '\n' then ['\\', 'n']
  else if c = '\r' then ['\\', 'r']
  else if c = '\t' then ['\\', 't']
  else if c = '\x00' then ['\\', '0']
  else if c = '\\' then (if escapeBackslashWithBackslash then ['\\', '\\'] else ['\\'])
  else [c]

/-- `writeAnyEscapedString`: the bytes between two special ones are copied, each special one is
escaped. -/
def writeAnyEscapedString (quoteCharacter : Char) (escapeQuoteWithQuote escapeBackslashWithBackslash : Bool)
    (s : List Char) : List Char :=
  s.flatMap (escapeByte quoteCharacter escapeQuoteWithQuote escapeBackslashWithBackslash)

def writeAnyQuotedString (quoteCharacter : Char) (s : List Char) : List Char :=
  quoteCharacter :: writeAnyEscapedString quoteCharacter false true s ++ [quoteCharacter]

def writeQuotedString (s : List Char) : List Char := writeAnyQuotedString '\'' s

def writeDoubleQuotedString (s : List Char) : List Char := writeAnyQuotedString '"' s

def writeBackQuotedString (s : List Char) : List Char := writeAnyQuotedString backQuoteChar s

/-- `quoteString` of `Common/quoteString.cpp`. -/
def quoteString (x : List Char) : List Char := writeQuotedString x

/-- `backQuote` of `Common/quoteString.cpp`. -/
def backQuote (x : List Char) : List Char := writeBackQuotedString x

/-- `strncasecmp` over the whole of two strings of one length, in the C locale. -/
def isCaseInsensitiveEqual (a b : List Char) : Bool := a.length = b.length && a.map Char.toLower = b.map Char.toLower

/-- `writeProbablyQuotedStringImpl`: a valid identifier is written as it is, unless it is one of
the keywords that the parser would take for a clause. -/
def writeProbablyQuotedStringImpl (writeQuotedString : List Char → List Char) (s : List Char) : List Char :=
  if isValidIdentifier s && !isCaseInsensitiveEqual s "distinct".toList && !isCaseInsensitiveEqual s "all".toList &&
      !isCaseInsensitiveEqual s "table".toList && !isCaseInsensitiveEqual s "select".toList &&
      !isCaseInsensitiveEqual s "from".toList && !isCaseInsensitiveEqual s "values".toList then
    s
  else writeQuotedString s

def writeProbablyBackQuotedString (s : List Char) : List Char := writeProbablyQuotedStringImpl writeBackQuotedString s

def writeProbablyDoubleQuotedString (s : List Char) : List Char :=
  writeProbablyQuotedStringImpl writeDoubleQuotedString s

/-- `parseEscapeSequence`: the byte that a backslash and `c` stand for. -/
def parseEscapeSequence (c : Char) : Char :=
  match c with
  | 'a' => '\x07'
  | 'b' => '\x08'
  | 'e' => '\x1b'
  | 'f' => '\x0c'
  | 'n' => '\n'
  | 'r' => '\r'
  | 't' => '\t'
  | 'v' => '\x0b'
  | '0' => '\x00'
  | _ => c

/-- What `parseComplexEscapeSequence` appends for a backslash and a byte `c` other than `x` and `N`:
the decoded byte, after a backslash that is kept so that `LIKE` patterns and regular expressions
read as written, unless the byte is a backslash, a quote, `/`, `=` or a control byte. -/
def decodeEscapeSequence (c : Char) : List Char :=
  let decoded := parseEscapeSequence c
  if decoded ≠ '\\' ∧ decoded ≠ '\'' ∧ decoded ≠ '"' ∧ decoded ≠ backQuoteChar ∧ decoded ≠ '/' ∧ decoded ≠ '=' ∧
      isControlASCII decoded = false then
    ['\\', decoded]
  else [decoded]

/-- `unhexDigit`, the table `hex_char_to_digit_table`: 255 off the hexadecimal digits. -/
def unhexDigit (c : Char) : ℕ :=
  if '0' ≤ c ∧ c ≤ '9' then c.toNat - '0'.toNat
  else if 'A' ≤ c ∧ c ≤ 'F' then c.toNat - 'A'.toNat + 10
  else if 'a' ≤ c ∧ c ≤ 'f' then c.toNat - 'a'.toNat + 10
  else 255

/-- `unhex2`: two digits to a byte, wrapping in `UInt8`. -/
def unhex2 (h1 h2 : Char) : Char := Char.ofNat ((unhexDigit h1 * 0x10 + unhexDigit h2) % 256)

/-- The loop of `readAnyQuotedStringInto` after the opening quote, with the bytes `s` read so far:
the string read and the bytes left after the closing quote, or the exception it throws. -/
def readQuotedLoop (quote : Char) (enableSqlStyleQuoting : Bool) (s : List Char) :
    List Char → Except ErrorCode (List Char × List Char)
  | [] => .error .cannotParseQuotedString
  | c :: rest =>
    if c = quote then
      match rest with
      | [] => .ok (s, [])
      | d :: rest' =>
        -- a doubled quote stands for one quote in SQL style
        if enableSqlStyleQuoting = true ∧ d = quote then readQuotedLoop quote enableSqlStyleQuoting (s ++ [quote]) rest'
        else .ok (s, d :: rest')
    else if c = '\\' then
      match rest with
      | [] => .error .cannotParseEscapeSequence
      | e :: rest' =>
        if e = 'x' then
          match rest' with
          | h1 :: h2 :: rest'' => readQuotedLoop quote enableSqlStyleQuoting (s ++ [unhex2 h1 h2]) rest''
          | _ => .error .cannotParseEscapeSequence
        else if e = 'N' then readQuotedLoop quote enableSqlStyleQuoting s rest'
        else readQuotedLoop quote enableSqlStyleQuoting (s ++ decodeEscapeSequence e) rest'
    else readQuotedLoop quote enableSqlStyleQuoting (s ++ [c]) rest

/-- `readAnyQuotedStringInto`: the string after `s`, and the bytes left in the buffer. -/
def readAnyQuotedStringInto (quote : Char) (enableSqlStyleQuoting : Bool) (s : List Char) :
    List Char → Except ErrorCode (List Char × List Char)
  | c :: rest => if c = quote then readQuotedLoop quote enableSqlStyleQuoting s rest else .error .cannotParseQuotedString
  | [] => .error .cannotParseQuotedString

def readQuotedStringWithSQLStyle (buf : List Char) : Except ErrorCode (List Char × List Char) :=
  readAnyQuotedStringInto '\'' true [] buf

def readDoubleQuotedStringWithSQLStyle (buf : List Char) : Except ErrorCode (List Char × List Char) :=
  readAnyQuotedStringInto '"' true [] buf

def readBackQuotedStringWithSQLStyle (buf : List Char) : Except ErrorCode (List Char × List Char) :=
  readAnyQuotedStringInto backQuoteChar true [] buf

/-- The three quotes of SQL text. -/
def IsQuote (q : Char) : Prop := q = '\'' ∨ q = '"' ∨ q = backQuoteChar

section Reader

variable {quote : Char} {sql : Bool} {s rest : List Char}

/-- One character of the loop; the lemmas below read its branches and never unfold the loop. -/
lemma readQuotedLoop_cons (c : Char) :
    readQuotedLoop quote sql s (c :: rest) =
      if c = quote then
        match rest with
        | [] => .ok (s, [])
        | d :: rest' => if sql = true ∧ d = quote then readQuotedLoop quote sql (s ++ [quote]) rest' else .ok (s, d :: rest')
      else if c = '\\' then
        match rest with
        | [] => .error .cannotParseEscapeSequence
        | e :: rest' =>
          if e = 'x' then
            match rest' with
            | h1 :: h2 :: rest'' => readQuotedLoop quote sql (s ++ [unhex2 h1 h2]) rest''
            | _ => .error .cannotParseEscapeSequence
          else if e = 'N' then readQuotedLoop quote sql s rest'
          else readQuotedLoop quote sql (s ++ decodeEscapeSequence e) rest'
      else readQuotedLoop quote sql (s ++ [c]) rest := by
  rw [readQuotedLoop.eq_def]

lemma readQuotedLoop_plain {c : Char} (hq : c ≠ quote) (hb : c ≠ '\\') :
    readQuotedLoop quote sql s (c :: rest) = readQuotedLoop quote sql (s ++ [c]) rest := by
  rw [readQuotedLoop_cons, if_neg hq, if_neg hb]

lemma readQuotedLoop_backslash (hq : quote ≠ '\\') {e : Char} (hx : e ≠ 'x') (hN : e ≠ 'N') :
    readQuotedLoop quote sql s ('\\' :: e :: rest) = readQuotedLoop quote sql (s ++ decodeEscapeSequence e) rest := by
  rw [readQuotedLoop_cons, if_neg hq.symm, if_pos rfl]
  exact (if_neg hx).trans (if_neg hN)

/-- The closing quote ends the string, unless SQL style reads a quote after it as a doubled one. -/
lemma readQuotedLoop_quote (h : sql = true → rest.head? ≠ some quote) :
    readQuotedLoop quote sql s (quote :: rest) = .ok (s, rest) := by
  rw [readQuotedLoop_cons, if_pos rfl]
  cases rest with
  | nil => rfl
  | cons d rest' =>
    have hd : ¬(sql = true ∧ d = quote) := fun ⟨hs, hd⟩ => h hs (by rw [hd]; rfl)
    exact if_neg hd

end Reader

section Escapes

variable {q : Char}

lemma IsQuote.ne_backslash (hq : IsQuote q) : q ≠ '\\' := by
  rcases hq with rfl | rfl | rfl <;> decide

/-- A quote after a backslash is neither of the long escapes and decodes to itself. -/
lemma IsQuote.escape_decodes (hq : IsQuote q) : q ≠ 'x' ∧ q ≠ 'N' ∧ decodeEscapeSequence q = [q] := by
  rcases hq with rfl | rfl | rfl <;> decide

/-- Each byte is written either as itself, when it is neither the quote nor a backslash, or as a
backslash and a byte other than `x` and `N` that decodes back to it. -/
lemma escapeByte_cases (hq : IsQuote q) (c : Char) :
    (escapeByte q false true c = [c] ∧ c ≠ q ∧ c ≠ '\\') ∨
      ∃ e, escapeByte q false true c = ['\\', e] ∧ e ≠ 'x' ∧ e ≠ 'N' ∧ decodeEscapeSequence e = [c] := by
  simp only [escapeByte, Bool.false_eq_true, if_false, if_true]
  split_ifs with h1 h2 h3 h4 h5 h6 h7 h8
  · subst h1
    exact .inr ⟨c, rfl, hq.escape_decodes⟩
  -- the six control bytes and the backslash, each a closed case
  all_goals first
    | subst c; refine .inr ⟨_, rfl, ?_⟩; decide
    | exact .inl ⟨rfl, h1, h8⟩

variable (sql : Bool)

lemma readQuotedLoop_escapeByte (hq : IsQuote q) (s : List Char) (c : Char) (rest : List Char) :
    readQuotedLoop q sql s (escapeByte q false true c ++ rest) = readQuotedLoop q sql (s ++ [c]) rest := by
  rcases escapeByte_cases hq c with ⟨he, hcq, hcb⟩ | ⟨e, he, hx, hN, hd⟩
  · rw [he, List.singleton_append, readQuotedLoop_plain hcq hcb]
  · rw [he, List.cons_append, List.cons_append, List.nil_append, readQuotedLoop_backslash hq.ne_backslash hx hN, hd]

lemma readQuotedLoop_writeAnyEscapedString (hq : IsQuote q) (s acc : List Char) (rest : List Char) :
    readQuotedLoop q sql acc (writeAnyEscapedString q false true s ++ rest) = readQuotedLoop q sql (acc ++ s) rest := by
  induction s generalizing acc with
  | nil => rw [List.append_nil]; rfl
  | cons c s ih =>
    rw [writeAnyEscapedString, List.flatMap_cons, List.append_assoc, readQuotedLoop_escapeByte sql hq,
      ← writeAnyEscapedString, ih, List.append_assoc, List.singleton_append]

/-- A quoted string is read back whole, and the reader stops right after its closing quote. -/
theorem readAnyQuotedStringInto_writeAnyQuotedString (hq : IsQuote q) (s t : List Char)
    (ht : sql = true → t.head? ≠ some q) :
    readAnyQuotedStringInto q sql [] (writeAnyQuotedString q s ++ t) = .ok (s, t) := by
  simp only [writeAnyQuotedString, List.cons_append, readAnyQuotedStringInto, ↓reduceIte]
  rw [List.append_assoc,
    readQuotedLoop_writeAnyEscapedString sql hq, List.nil_append, List.singleton_append, readQuotedLoop_quote ht]

end Escapes

end ClickHouse.IO
