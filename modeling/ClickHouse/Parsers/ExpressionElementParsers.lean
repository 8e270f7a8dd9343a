import ClickHouse.IO.QuotedString
import ClickHouse.Parsers.Lexer

/-! `Parsers/ExpressionElementParsers.cpp`: the parsers of string literals and of identifiers, on
the tokens of the lexer, each given with its bytes. A string literal in quotes is read back by the
quoted string reader, which must take the whole token; `x'..'` and `b'..'` are decoded from
hexadecimal or binary digits, into a buffer whose bytes are not all written when a binary literal
starts with a byte of zeros. Then a string written between quotes is read by the lexer as one token,
and by these parsers as the string it was. -/

namespace ClickHouse.Parsers

open ClickHouse.Common ClickHouse.IO

/-- Pairs of hexadecimal digits to bytes. -/
def hexPairs : List Char → List Char
  | h1 :: h2 :: rest => unhex2 h1 h2 :: hexPairs rest
  | _ => []

/-- `hexStringDecode`: of an odd number of digits the first is a byte alone. -/
def hexStringDecode : List Char → List Char
  | [] => []
  | c :: rest =>
    if (c :: rest).length % 2 = 1 then Char.ofNat (unhexDigit c) :: hexPairs rest else hexPairs (c :: rest)

/-- The byte of at most eight binary digits, where any byte other than `0` is a one. -/
def binByte (bits : List Char) : ℕ := bits.foldl (fun acc d => (acc * 2 + if d = '0' then 0 else 1) % 256) 0

/-- `binStringDecode`: the digits left over from whole bytes make a first byte, written only when it
is not zero or nothing follows; then each eight digits make a byte. -/
def binStringDecode (s : List Char) : List Char :=
  if s = [] then []
  else
    let leftCount := s.length % 8
    let left := binByte (s.take leftCount)
    let rest := s.drop leftCount
    (if left ≠ 0 ∨ rest = [] then [Char.ofNat left] else []) ++ (rest.toChunks 8).map fun w => Char.ofNat (binByte w)

/-- `makeHexOrBinStringLiteral` on the bytes `x'..'` or `b'..'` of a token: a buffer of one byte for
each word of digits, of which the decoder writes the first bytes; the others keep what
`freshBuffer` held, as `PODArray::resize` leaves them. -/
def makeHexOrBinStringLiteral (freshBuffer : List Char) (hex : Bool) (wordSize : ℕ) (text : List Char) : List Char :=
  let str := (text.drop 2).dropLast
  if str = [] then []
  else
    let size := (str.length + wordSize - 1) / wordSize
    let written := if hex then hexStringDecode str else binStringDecode str
    written ++ (freshBuffer.drop written.length).take (size - written.length)

/-- `ParserStringLiteral` on a token of type `type` with bytes `text`: the value of the literal, or
`none` where it returns false (the exception of the reader is caught there). -/
def parserStringLiteral (freshBuffer : List Char) (type : TokenType) (text : List Char) : Option (List Char) :=
  if type = .stringLiteral then
    match text with
    | [] => none
    | c :: _ =>
      if c = 'x' ∨ c = 'X' then some (makeHexOrBinStringLiteral freshBuffer true 2 text)
      else if c = 'b' ∨ c = 'B' then some (makeHexOrBinStringLiteral freshBuffer false 8 text)
      -- quotes of Unicode, with no escapes
      else if c = '\xE2' ∧ 6 ≤ text.length then some ((text.drop 3).take (text.length - 6))
      else
        match readQuotedStringWithSQLStyle text with
        -- the reader must take the whole token
        | .ok (s, rest) => if rest = [] then some s else none
        | .error _ => none
  else if type = .hereDoc then
    let heredocSize := ((text.drop 1).takeWhile (· ≠ '$')).length + 2
    some ((text.drop heredocSize).take (text.length - 2 * heredocSize))
  else none

/-- What `ParserIdentifier` makes: an identifier, or a query parameter `{name:Identifier}`. -/
inductive IdentifierNode
  | identifier (name : List Char)
  | queryParameter (name type : List Char)
  deriving DecidableEq, Repr

/-- `ParserIdentifier` on tokens given with their bytes: the node and how many tokens it takes,
`none` where it returns false, or the exception of the quoted string reader, which it does not
catch. -/
def parserIdentifier (allowQueryParameter : Bool) :
    List (TokenType × List Char) → Except ErrorCode (Option (IdentifierNode × ℕ))
  | (.quotedIdentifier, text) :: _ =>
    match text with
    | [] => .ok none
    | c :: _ =>
      if c = '\xE2' ∧ 6 ≤ text.length then
        -- an empty identifier in quotes of Unicode is not allowed
        if text.length = 6 then .ok none else .ok (some (.identifier ((text.drop 3).take (text.length - 6)), 1))
      else
        match (if c = backQuoteChar then readBackQuotedStringWithSQLStyle text else readDoubleQuotedStringWithSQLStyle text) with
        | .ok (s, _) => if s = [] then .ok none else .ok (some (.identifier s, 1))
        | .error e => .error e
  | (.bareWord, text) :: _ => .ok (some (.identifier text, 1))
  | (.openingCurlyBrace, _) :: rest =>
    if allowQueryParameter then
      match rest with
      | (.bareWord, name) :: (.colon, _) :: (.bareWord, type) :: (.closingCurlyBrace, _) :: _ =>
        if type = "Identifier".toList then .ok (some (.queryParameter name type, 5)) else .ok none
      | _ => .ok none
    else .ok none
  | _ => .ok none


/-- The values of `Float64` that a bare word can hold. -/
inductive Float64Word
  | infinity (negative : Bool)
  | nan
  deriving DecidableEq, Repr

/-- The literals these parsers make (`Field`): a number token is converted by `strtoull` or
`strtod`, which is not modelled, so its value is kept as the conversion gives it. -/
inductive Literal
  | null
  | bool (b : Bool)
  | string (s : List Char)
  | float64Word (x : Float64Word)
  | number (negative : Bool) (text : List Char)
  deriving DecidableEq, Repr

/-- `ParserKeyword`: each word of the keyword, in any case, is one bare word. -/
def parserKeywordWords : List (List Char) → List (TokenType × List Char) → Option ℕ
  | [], _ => some 0
  | w :: ws, (.bareWord, text) :: rest =>
    if isCaseInsensitiveEqual text w then (parserKeywordWords ws rest).map (· + 1) else none
  | _ :: _, _ => none

def parserKeyword (keyword : List Char) (tokens : List (TokenType × List Char)) : Option ℕ :=
  parserKeywordWords (keyword.splitOn ' ') tokens

def parserNull (tokens : List (TokenType × List Char)) : Option (Literal × ℕ) :=
  (parserKeyword "NULL".toList tokens).map fun n => (.null, n)

def parserBool (tokens : List (TokenType × List Char)) : Option (Literal × ℕ) :=
  match parserKeyword "TRUE".toList tokens with
  | some n => some (.bool true, n)
  | none => (parserKeyword "FALSE".toList tokens).map fun n => (.bool false, n)

/-- C's `strtod` on a token of word bytes, where it takes the whole token (C11 7.22.1.3): only
`INF`, `INFINITY` and `NAN` in any case, since a word holds no sign, and a word that starts with
a digit holds more than the number the lexer read in it. -/
def strtodWord (w : List Char) : Option Float64Word :=
  if w.map Char.toLower = "inf".toList ∨ w.map Char.toLower = "infinity".toList then some (.infinity false)
  else if w.map Char.toLower = "nan".toList then some .nan
  else none

def Float64Word.neg : Float64Word → Float64Word
  | .infinity negative => .infinity !negative
  -- a negative NaN is made the one quiet NaN again
  | .nan => .nan

/-- `ParserNumber`: a sign, then a bare word read by `strtod` (`inf` and `nan`) or a number
token, whose conversion `numberTokenLiteral` stands for. -/
def parserNumber (numberTokenLiteral : Bool → List Char → Option Literal) (tokens : List (TokenType × List Char)) :
    Option (Literal × ℕ) :=
  let sign : Bool × ℕ :=
    match tokens with
    | (.minus, _) :: _ => (true, 1)
    | (.plus, _) :: _ => (false, 1)
    | _ => (false, 0)
  match tokens.drop sign.2 with
  | (.bareWord, text) :: _ =>
    (strtodWord text).map fun x => (.float64Word (if sign.1 then x.neg else x), sign.2 + 1)
  | (.number, text) :: _ => (numberTokenLiteral sign.1 text).map fun l => (l, sign.2 + 1)
  | _ => none

/-- `ParserLiteral`: `NULL`, a number, a boolean or a string, the first that parses. -/
def parserLiteral (numberTokenLiteral : Bool → List Char → Option Literal) (freshBuffer : List Char)
    (tokens : List (TokenType × List Char)) : Option (Literal × ℕ) :=
  parserNull tokens <|> parserNumber numberTokenLiteral tokens <|> parserBool tokens <|>
    match tokens with
    | (type, text) :: _ => (parserStringLiteral freshBuffer type text).map fun s => (.string s, 1)
    | [] => none

lemma exists_eq_cons_of_head? {text : List Char} {c : Char} (h : text.head? = some c) : ∃ cs, text = c :: cs := by
  cases text with
  | nil => cases h
  | cons d cs => exact ⟨cs, by rw [Option.some.inj h]⟩

/-- A string literal in single quotes goes to the quoted string reader, which must take it whole. -/
lemma parserStringLiteral_of_head_quote (freshBuffer : List Char) {text : List Char} (h : text.head? = some '\'') :
    parserStringLiteral freshBuffer .stringLiteral text =
      match readQuotedStringWithSQLStyle text with
      | .ok (s, rest) => if rest = [] then some s else none
      | .error _ => none := by
  obtain ⟨cs, rfl⟩ := exists_eq_cons_of_head? h
  rfl

/-- An identifier in double quotes or backquotes goes to the quoted string reader in SQL style. -/
lemma parserIdentifier_of_head_quote (allowQueryParameter : Bool) {q : Char} (hq : q = '"' ∨ q = backQuoteChar)
    {text : List Char} (h : text.head? = some q) (rest : List (TokenType × List Char)) :
    parserIdentifier allowQueryParameter ((.quotedIdentifier, text) :: rest) =
      match readAnyQuotedStringInto q true [] text with
      | .ok (s, _) => if s = [] then .ok none else .ok (some (.identifier s, 1))
      | .error e => .error e := by
  obtain ⟨cs, rfl⟩ := exists_eq_cons_of_head? h
  rcases hq with rfl | rfl <;> rfl

section QuotedTokens

variable {q : Char}

/-- The lexer skips an escaped byte as the reader decodes it: one byte, or a backslash and the one
after it. -/
lemma quotedStringLoop_escapeByte (hq : IsQuote q) (c : Char) (rest : List Char) :
    quotedStringLoop q (escapeByte q false true c ++ rest) =
      (quotedStringLoop q rest).map (· + (escapeByte q false true c).length) := by
  rcases escapeByte_cases hq c with ⟨he, hcq, hcb⟩ | ⟨e, he, -⟩
  · rw [he, List.singleton_append, quotedStringLoop_plain hcq hcb, List.length_singleton]
  · rw [he, List.cons_append, List.cons_append, List.nil_append, quotedStringLoop_backslash hq.ne_backslash]
    rfl

lemma quotedStringLoop_writeAnyEscapedString (hq : IsQuote q) (s rest : List Char) :
    quotedStringLoop q (writeAnyEscapedString q false true s ++ rest) =
      (quotedStringLoop q rest).map (· + (writeAnyEscapedString q false true s).length) := by
  induction s with
  | nil => simp [writeAnyEscapedString]
  | cons c s ih =>
    rw [writeAnyEscapedString, List.flatMap_cons, List.append_assoc, quotedStringLoop_escapeByte hq,
      ← writeAnyEscapedString, ih, Option.map_map, List.length_append]
    congr 1
    funext n
    simp only [Function.comp_apply]
    omega

/-- The lexer's case for each of the three quotes. -/
lemma nextTokenImpl_isQuote (hq : IsQuote q) (p : TokenType) (b : Bool) (cs : List Char) :
    ∃ errorToken, nextTokenImpl p b (q :: cs) =
      quotedString q (if q = '\'' then .stringLiteral else .quotedIdentifier) errorToken cs := by
  rcases hq with rfl | rfl | rfl
  · exact ⟨_, nextTokenImpl_quote p b cs⟩
  · exact ⟨_, nextTokenImpl_doubleQuote p b cs⟩
  · exact ⟨_, nextTokenImpl_backQuote p b cs⟩

/-- A string written between quotes is one token, up to its closing quote. -/
lemma nextTokenImpl_writeAnyQuotedString (hq : IsQuote q) (p : TokenType) (b : Bool) (s t : List Char)
    (ht : t.head? ≠ some q) :
    nextTokenImpl p b (writeAnyQuotedString q s ++ t) =
      .token (if q = '\'' then .stringLiteral else .quotedIdentifier) (writeAnyQuotedString q s).length := by
  obtain ⟨errorToken, he⟩ := nextTokenImpl_isQuote hq p b (writeAnyEscapedString q false true s ++ [q] ++ t)
  have hw : writeAnyQuotedString q s ++ t = q :: (writeAnyEscapedString q false true s ++ [q] ++ t) := rfl
  rw [hw, he, quotedString, List.append_assoc,
    quotedStringLoop_writeAnyEscapedString hq, List.singleton_append, quotedStringLoop_quote ht]
  simp only [writeAnyQuotedString, Option.map_some, List.length_cons, List.length_append, List.length_nil]
  congr 1
  omega

end QuotedTokens

/-- A string written between any of the three quotes is read by the lexer as one token that ends
at its closing quote, a string literal for single quotes and an identifier in quotes otherwise;
the quoted string reader reads it back in either style and stops there; and the parser of string
literals, or for a string that is not empty the parser of identifiers, makes of that token the
string that was written. -/
theorem quoted_string_round_trip (q : Char) (hq : IsQuote q) (s t : List Char) (ht : t.head? ≠ some q) :
    (Lexer.init (writeAnyQuotedString q s ++ t) 0).nextToken.1 =
        ⟨if q = '\'' then .stringLiteral else .quotedIdentifier, 0, (writeAnyQuotedString q s).length⟩ ∧
      (Lexer.init (writeAnyQuotedString q s ++ t) 0).nextToken.2.rest = t ∧
      (∀ sql : Bool, readAnyQuotedStringInto q sql [] (writeAnyQuotedString q s ++ t) = .ok (s, t)) ∧
      (q = '\'' → ∀ freshBuffer : List Char,
        parserStringLiteral freshBuffer .stringLiteral (writeAnyQuotedString q s) = some s) ∧
      (q ≠ '\'' → s ≠ [] → ∀ (allowQueryParameter : Bool) (rest : List (TokenType × List Char)),
        parserIdentifier allowQueryParameter ((.quotedIdentifier, writeAnyQuotedString q s) :: rest) =
          .ok (some (.identifier s, 1))) := by
  have hlex := nextTokenImpl_writeAnyQuotedString hq .whitespace false s t ht
  have hread : ∀ sql : Bool, readAnyQuotedStringInto q sql [] (writeAnyQuotedString q s ++ t) = .ok (s, t) :=
    fun sql => readAnyQuotedStringInto_writeAnyQuotedString sql hq s t (fun _ => ht)
  -- inside its token the string is read with nothing after it
  have hwhole : readAnyQuotedStringInto q true [] (writeAnyQuotedString q s) = .ok (s, []) := by
    simpa using readAnyQuotedStringInto_writeAnyQuotedString true hq s [] (by simp)
  have hhead : (writeAnyQuotedString q s).head? = some q := rfl
  refine ⟨?_, ?_, hread, ?_, ?_⟩
  · simp [Lexer.init, Lexer.nextToken, hlex, Scan.token]
  · simp [Lexer.init, Lexer.nextToken, hlex, Scan.token]
  · rintro rfl freshBuffer
    rw [parserStringLiteral_of_head_quote freshBuffer hhead, readQuotedStringWithSQLStyle, hwhole]
    rfl
  · intro hq1 hs allowQueryParameter rest
    have hq' : q = '"' ∨ q = backQuoteChar := hq.resolve_left hq1
    rw [parserIdentifier_of_head_quote allowQueryParameter hq' hhead rest, hwhole]
    simp [hs]

theorem quoted_string_round_trip_escaped_quote :
    IsQuote '\'' ∧ ([' '] : List Char).head? ≠ some '\'' ∧
      ((Lexer.init (writeAnyQuotedString '\'' ['a', '\''] ++ [' ']) 0).nextToken.1 =
          ⟨if '\'' = '\'' then .stringLiteral else .quotedIdentifier, 0, (writeAnyQuotedString '\'' ['a', '\'']).length⟩ ∧
        (Lexer.init (writeAnyQuotedString '\'' ['a', '\''] ++ [' ']) 0).nextToken.2.rest = [' '] ∧
        (∀ sql : Bool, readAnyQuotedStringInto '\'' sql [] (writeAnyQuotedString '\'' ['a', '\''] ++ [' ']) =
          .ok (['a', '\''], [' '])) ∧
        ('\'' = '\'' → ∀ freshBuffer : List Char,
          parserStringLiteral freshBuffer .stringLiteral (writeAnyQuotedString '\'' ['a', '\'']) = some ['a', '\'']) ∧
        ('\'' ≠ '\'' → ['a', '\''] ≠ [] → ∀ (allowQueryParameter : Bool) (rest : List (TokenType × List Char)),
          parserIdentifier allowQueryParameter ((.quotedIdentifier, writeAnyQuotedString '\'' ['a', '\'']) :: rest) =
            .ok (some (.identifier ['a', '\''], 1)))) :=
  ⟨.inl rfl, by decide, quoted_string_round_trip '\'' (.inl rfl) ['a', '\''] [' '] (by decide)⟩

section BareWords

variable (numberTokenLiteral : Bool → List Char → Option Literal) (text : List Char)
  (rest : List (TokenType × List Char))

lemma parserKeyword_bareWord {keyword : List Char} (hk : keyword.splitOn ' ' = [keyword]) :
    parserKeyword keyword ((.bareWord, text) :: rest) = if isCaseInsensitiveEqual text keyword then some 1 else none := by
  simp only [parserKeyword, hk, parserKeywordWords]
  split_ifs <;> rfl

lemma parserNull_bareWord :
    parserNull ((.bareWord, text) :: rest) = if isCaseInsensitiveEqual text "NULL".toList then some (.null, 1) else none := by
  rw [parserNull, parserKeyword_bareWord text rest (by decide)]
  split_ifs <;> rfl

lemma parserBool_bareWord :
    parserBool ((.bareWord, text) :: rest) =
      if isCaseInsensitiveEqual text "TRUE".toList then some (.bool true, 1)
      else if isCaseInsensitiveEqual text "FALSE".toList then some (.bool false, 1) else none := by
  rw [parserBool, parserKeyword_bareWord text rest (by decide), parserKeyword_bareWord text rest (by decide)]
  split_ifs <;> rfl

/-- A bare word with no sign before it is a number only as `strtod` reads it. -/
lemma parserNumber_bareWord :
    parserNumber numberTokenLiteral ((.bareWord, text) :: rest) = (strtodWord text).map fun x => (.float64Word x, 1) := by
  simp only [parserNumber, List.drop_zero, Bool.false_eq_true, ↓reduceIte]

lemma parserLiteral_bareWord (freshBuffer : List Char) :
    parserLiteral numberTokenLiteral freshBuffer ((.bareWord, text) :: rest) =
      (parserNull ((.bareWord, text) :: rest) <|> parserNumber numberTokenLiteral ((.bareWord, text) :: rest) <|>
        parserBool ((.bareWord, text) :: rest)) := by
  have hstring : parserStringLiteral freshBuffer .bareWord text = none := rfl
  simp only [parserLiteral, hstring, Option.map_none]
  cases parserNull ((.bareWord, text) :: rest) <;> cases parserNumber numberTokenLiteral ((.bareWord, text) :: rest) <;>
    cases parserBool ((.bareWord, text) :: rest) <;> rfl

end BareWords

section LowerCase

variable {s w : List Char}

lemma length_eq_of_map_toLower (h : s.map Char.toLower = w) : s.length = w.length := by
  rw [← h, List.length_map]

/-- How a word compares without regard to case depends only on its lower case. -/
lemma isCaseInsensitiveEqual_of_map_toLower (h : s.map Char.toLower = w) (hw : w.map Char.toLower = w) (v : List Char) :
    isCaseInsensitiveEqual s v = isCaseInsensitiveEqual w v := by
  simp only [isCaseInsensitiveEqual, h, hw, length_eq_of_map_toLower h]

lemma strtodWord_of_map_toLower (h : s.map Char.toLower = w) (hw : w.map Char.toLower = w) :
    strtodWord s = strtodWord w := by
  simp only [strtodWord, h, hw]

lemma forall_isAlphaASCII_of_map_toLower (h : s.map Char.toLower = w) (hw : ∀ d ∈ w, isAlphaASCII d = true) :
    ∀ c ∈ s, isAlphaASCII c = true := fun _ hc =>
  isAlphaASCII_of_toLower (hw _ (h ▸ List.mem_map_of_mem hc))

end LowerCase

/-- A word of letters is read by the lexer as one bare word. -/
lemma nextToken_init_alpha {s : List Char} (hne : s ≠ []) (h : ∀ c ∈ s, isAlphaASCII c = true) :
    (Lexer.init s 0).nextToken.1 = ⟨.bareWord, 0, s.length⟩ ∧ (Lexer.init s 0).nextToken.2.rest = [] := by
  obtain ⟨c, cs, rfl⟩ := List.exists_cons_of_ne_nil hne
  have hc : isAlphaASCII c = true := h c List.mem_cons_self
  have hword : cs.all isWordCharASCII = true :=
    List.all_eq_true.mpr fun d hd => isWordCharASCII_of_isAlphaASCII (h d (List.mem_cons_of_mem c hd))
  have hd : c ≠ '$' := by
    rintro rfl
    revert hc
    decide
  have hscan : nextTokenImpl .whitespace false (c :: cs) = .token .bareWord (cs.length + 1) := by
    rw [nextTokenImpl_of_isValidIdentifierBegin _ _ _ (by simp [isValidIdentifierBegin, hc]),
      defaultToken_word (isWordCharASCII_of_isAlphaASCII hc) hd hword]
  simp [Lexer.init, Lexer.nextToken, hscan, Scan.token]

/-- A name that is `inf`, `infinity`, `nan`, `true` or `false` in any case is a valid identifier
and no keyword that `writeProbablyQuotedStringImpl` quotes, so it is written without quotes; the lexer
reads it as one bare word; and `tryParseOperand`, which tries the number parser and then the
literal parser before the identifier parser, gets a literal from one of them. -/
theorem literal_name_written_bare (s : List Char)
    (hs : s.map Char.toLower ∈ ["inf".toList, "infinity".toList, "nan".toList, "true".toList, "false".toList]) :
    writeProbablyBackQuotedString s = s ∧
      (Lexer.init s 0).nextToken.1 = ⟨.bareWord, 0, s.length⟩ ∧ (Lexer.init s 0).nextToken.2.rest = [] ∧
      ∀ (numberTokenLiteral : Bool → List Char → Option Literal) (freshBuffer : List Char)
        (rest : List (TokenType × List Char)), ∃ lit : Literal,
        (parserNumber numberTokenLiteral ((.bareWord, s) :: rest) <|>
          parserLiteral numberTokenLiteral freshBuffer ((.bareWord, s) :: rest)) = some (lit, 1) := by
  obtain ⟨w, hw, hsw⟩ : ∃ w ∈ ["inf".toList, "infinity".toList, "nan".toList, "true".toList, "false".toList],
      s.map Char.toLower = w := ⟨_, hs, rfl⟩
  simp only [List.mem_cons, List.mem_nil_iff, or_false] at hw
  -- what the five words share, read off each
  have hwl : w.map Char.toLower = w := by rcases hw with rfl | rfl | rfl | rfl | rfl <;> decide
  have hwa : ∀ d ∈ w, isAlphaASCII d = true :=
    List.all_eq_true.mp (by rcases hw with rfl | rfl | rfl | rfl | rfl <;> decide)
  have hwne : w ≠ [] := by rcases hw with rfl | rfl | rfl | rfl | rfl <;> decide
  have hne : s ≠ [] := fun h => hwne (by rw [← hsw, h, List.map_nil])
  have halpha := forall_isAlphaASCII_of_map_toLower hsw hwa
  have hvalid : isValidIdentifier s = true :=
    isValidIdentifier_of_forall_isAlphaASCII hne halpha (by rw [hsw]; rcases hw with rfl | rfl | rfl | rfl | rfl <;> decide)
  obtain ⟨hlex, hrest⟩ := nextToken_init_alpha hne halpha
  refine ⟨?_, hlex, hrest, ?_⟩
  · unfold writeProbablyBackQuotedString writeProbablyQuotedStringImpl
    simp only [hvalid, isCaseInsensitiveEqual_of_map_toLower hsw hwl]
    rw [if_pos]
    rcases hw with rfl | rfl | rfl | rfl | rfl <;> decide
  · intro numberTokenLiteral freshBuffer rest
    simp only [parserLiteral_bareWord, parserNumber_bareWord, parserNull_bareWord, parserBool_bareWord,
      isCaseInsensitiveEqual_of_map_toLower hsw hwl, strtodWord_of_map_toLower hsw hwl]
    rcases hw with rfl | rfl | rfl | rfl | rfl
    all_goals exact ⟨_, rfl⟩

theorem literal_name_written_bare_inf :
    ("inf".toList.map Char.toLower ∈ ["inf".toList, "infinity".toList, "nan".toList, "true".toList, "false".toList]) ∧
      (writeProbablyBackQuotedString "inf".toList = "inf".toList ∧
        (Lexer.init "inf".toList 0).nextToken.1 = ⟨.bareWord, 0, "inf".toList.length⟩ ∧
        (Lexer.init "inf".toList 0).nextToken.2.rest = [] ∧
        ∀ (numberTokenLiteral : Bool → List Char → Option Literal) (freshBuffer : List Char)
          (rest : List (TokenType × List Char)), ∃ lit : Literal,
          (parserNumber numberTokenLiteral ((.bareWord, "inf".toList) :: rest) <|>
            parserLiteral numberTokenLiteral freshBuffer ((.bareWord, "inf".toList) :: rest)) = some (lit, 1)) :=
  ⟨by decide, literal_name_written_bare "inf".toList (by decide)⟩

end ClickHouse.Parsers
