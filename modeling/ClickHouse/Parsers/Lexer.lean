import ClickHouse.Common.StringUtils

/-! `Parsers/Lexer.cpp`: the lexer of SQL text. `nextTokenImpl` reads one token from the bytes at
`pos`; it does not check what it skips, only finds where the token ends. A token is given by its
type and its length, with how far `pos` moves, which differs from the length only after a quote of
Unicode that is not closed. `Lexer.nextToken` keeps the state between calls: how many bytes lie
before `pos`, the limit on the size of the query, and the type of the last significant token, which
decides whether a dot is an operator or starts a number. -/

namespace ClickHouse.Parsers

open ClickHouse.Common

inductive TokenType
  | whitespace
  | comment
  | bareWord
  | number
  | stringLiteral
  | quotedIdentifier
  | openingRoundBracket
  | closingRoundBracket
  | openingSquareBracket
  | closingSquareBracket
  | openingCurlyBrace
  | closingCurlyBrace
  | comma
  | semicolon
  | verticalDelimiter
  | dot
  | asterisk
  | hereDoc
  | dollarSign
  | plus
  | minus
  | slash
  | percent
  | arrow
  | questionMark
  | colon
  | caret
  | doubleColon
  | equals
  | notEquals
  | less
  | greater
  | lessOrEquals
  | greaterOrEquals
  | spaceship
  | pipeMark
  | concatenation
  | at
  | doubleAt
  | endOfStream
  | error
  | errorMultilineCommentIsNotClosed
  | errorSingleQuoteIsNotClosed
  | errorDoubleQuoteIsNotClosed
  | errorBackQuoteIsNotClosed
  | errorSingleExclamationMark
  | errorSinglePipeMark
  | errorWrongNumber
  | errorMaxQuerySizeExceeded
  deriving DecidableEq, Repr

/-- `Token::isSignificant`. -/
def TokenType.isSignificant (t : TokenType) : Bool := t ≠ .whitespace && t ≠ .comment

/-- A token read by `nextTokenImpl`: its type, its length, and how far `pos` moves. -/
structure Scan where
  type : TokenType
  size : ℕ
  advance : ℕ
  deriving DecidableEq, Repr

/-- A token after which `pos` stands at its end. -/
def Scan.token (type : TokenType) (size : ℕ) : Scan := ⟨type, size, size⟩

/-- The loop of `quotedString` after the opening quote: how many bytes up to the closing quote, that
one included, or `none` when the end comes first. A doubled quote and a byte after a backslash are
skipped. -/
def quotedStringLoop (quote : Char) : List Char → Option ℕ
  | [] => none
  | c :: rest =>
    if c = quote then
      match rest with
      | [] => some 1
      | d :: rest' => if d = quote then (quotedStringLoop quote rest').map (· + 2) else some 1
    else if c = '\\' then
      match rest with
      | [] => none
      | _ :: rest' => (quotedStringLoop quote rest').map (· + 2)
    else (quotedStringLoop quote rest).map (· + 1)

/-- `quotedString`, given the bytes after the opening quote; an unclosed one is an error token up
to the end. -/
def quotedString (quote : Char) (successToken errorToken : TokenType) (cs : List Char) : Scan :=
  match quotedStringLoop quote cs with
  | some n => .token successToken (n + 1)
  | none => .token errorToken (cs.length + 1)

/-- The loop of `quotedStringWithUnicodeQuotes` after the opening quote: `inr n` when its closing
quote `E2 80 expectedEndByte` ends `n` bytes in, `inl k` when `pos` stops `k` bytes in, at a byte
`E2` too close to the end or at the end. -/
def unicodeQuotedLoop (expectedEndByte : Char) : List Char → ℕ ⊕ ℕ
  | [] => .inl 0
  | c :: rest =>
    if c = '\xE2' then
      match rest with
      | b1 :: b2 :: _ =>
        if b1 = '\x80' ∧ b2 = expectedEndByte then .inr 3
        else (unicodeQuotedLoop expectedEndByte rest).map (· + 1) (· + 1)
      | _ => .inl 0
    else (unicodeQuotedLoop expectedEndByte rest).map (· + 1) (· + 1)

/-- `quotedStringWithUnicodeQuotes`, given the bytes after the three of the opening quote. -/
def quotedStringWithUnicodeQuotes (expectedEndByte : Char) (successToken errorToken : TokenType)
    (cs : List Char) : Scan :=
  match unicodeQuotedLoop expectedEndByte cs with
  | .inr n => .token successToken (n + 3)
  | .inl k => ⟨errorToken, cs.length + 3, k + 3⟩

/-- `quotedHexOrBinString` at `x'` or `b'`, given the bytes after the quote. -/
def quotedHexOrBinString (c : Char) (cs : List Char) : Scan :=
  let hex := c = 'x' || c = 'X'
  let n := if hex then (cs.takeWhile isHexDigit).length else (cs.takeWhile fun d => d = '0' || d = '1').length
  if (cs.drop n).head? = some '\'' then .token .stringLiteral (n + 3)
  else .token .errorSingleQuoteIsNotClosed (cs.length + 2)

/-- `comment_until_end_of_line`, after `skipped` bytes of the token. -/
def commentUntilEndOfLine (skipped : ℕ) (rest : List Char) : Scan :=
  .token .comment (skipped + (rest.takeWhile (· ≠ '\n')).length)

/-- The loop over a multiline comment at a nesting level: how many bytes up to the `*/` that closes
the outermost, or `none` when the end comes first. -/
def multilineCommentLoop (nestingLevel : ℕ) : List Char → Option ℕ
  | a :: b :: rest =>
    if a = '/' ∧ b = '*' then (multilineCommentLoop (nestingLevel + 1) rest).map (· + 2)
    else if a = '*' ∧ b = '/' then
      if nestingLevel - 1 = 0 then some 2 else (multilineCommentLoop (nestingLevel - 1) rest).map (· + 2)
    else (multilineCommentLoop nestingLevel (b :: rest)).map (· + 1)
  | _ => none
termination_by l => l.length

/-- The loop over the digits of one block of a number and the separators `_` between them. -/
def skipDigitsLoop (hex : Bool) : Bool → List Char → ℕ
  | _, [] => 0
  | startOfBlock, c :: cs =>
    if (if hex then isHexDigit c else isNumericASCII c) || isNumberSeparator startOfBlock hex (c :: cs) then
      skipDigitsLoop hex false cs + 1
    else 0

/-- The exponent of a number, `e` (or `p` in hexadecimal) with a sign and decimal digits, taken
only when a byte follows the letter. -/
def skipExponent (hex : Bool) : List Char → ℕ
  | c :: d :: rest =>
    if (if hex then c = 'p' || c = 'P' else c = 'e' || c = 'E') then
      -- the sign too is taken only when a byte follows it
      let sign := if (d = '-' || d = '+') && !rest.isEmpty then 1 else 0
      1 + sign + skipDigitsLoop false true ((d :: rest).drop sign)
    else 0
  | _ => 0

/-- The prefix `0x` or `0b` of a number, taken when a digit of its base follows: how many bytes it
takes, whether the number is hexadecimal, and whether a block starts after it. -/
def numberPrefix : List Char → ℕ × Bool × Bool
  | c :: x :: d :: _ =>
    if c = '0' ∧ (x = 'x' ∨ x = 'X') ∧ isHexDigit d then (2, true, true)
    else if c = '0' ∧ (x = 'b' ∨ x = 'B') ∧ (d = '0' ∨ d = '1') then (2, false, true)
    else (1, false, false)
  | _ => (1, false, false)

/-- The bytes of a number from its first digit; after a dot only an integer, so that `x.1.1` is two
accesses to tuple elements. -/
def numberLength (prevSignificantTokenType : TokenType) (l : List Char) : ℕ :=
  if prevSignificantTokenType = .dot then 1 + skipDigitsLoop false false (l.drop 1)
  else
    let pre := numberPrefix l
    let n2 := pre.1 + skipDigitsLoop pre.2.1 pre.2.2 (l.drop pre.1)
    let n3 := if (l.drop n2).head? = some '.' then n2 + 1 + skipDigitsLoop pre.2.1 true (l.drop (n2 + 1)) else n2
    n3 + skipExponent pre.2.1 (l.drop n3)

/-- A number, or a word when bytes of a word follow it (`1identifier_name`), or an error when the
word takes in bytes other than those of a word and `$`. -/
def numberToken (prevSignificantTokenType : TokenType) (l : List Char) : Scan :=
  let n := numberLength prevSignificantTokenType l
  match l.drop n with
  | c :: rest =>
    if isWordCharASCII c then
      let m := n + 1 + (rest.takeWhile isWordCharASCII).length
      if (l.take m).all fun d => isWordCharASCII d || d = '$' then .token .bareWord m else .token .errorWrongNumber m
    else .token .number n
  | [] => .token .number n

/-- A dot: an operator right after a name, a bracket or a number, or when no digit follows;
otherwise the start of a number such as `.5e3`. -/
def dotToken (prevSignificantTokenType : TokenType) (pastBegin : Bool) (cs : List Char) : Scan :=
  let digitNext := match cs with
    | d :: _ => isNumericASCII d
    | [] => false
  if pastBegin = true ∧ (digitNext = false ∨ prevSignificantTokenType = .closingRoundBracket ∨
      prevSignificantTokenType = .closingSquareBracket ∨ prevSignificantTokenType = .bareWord ∨
      prevSignificantTokenType = .quotedIdentifier ∨ prevSignificantTokenType = .number) then
    .token .dot 1
  else
    let n := skipDigitsLoop false true cs
    .token .number (1 + n + skipExponent false (cs.drop n))

/-- `std::string_view::find`: where `pattern` first occurs in `text`. -/
def findSubstring (pattern : List Char) : List Char → Option ℕ
  | [] => if pattern = [] then some 0 else none
  | c :: cs => if pattern.isPrefixOf (c :: cs) then some 0 else (findSubstring pattern cs).map (· + 1)

/-- The cases of `$`: a heredoc `$tag$ ... $tag$` with a tag of word bytes, or a `$` alone when no
byte of a word follows; otherwise `$` starts a word. -/
def dollarToken (cs : List Char) : Option Scan :=
  let tag := cs.takeWhile (· ≠ '$')
  let heredoc : Option Scan :=
    if tag.length < cs.length ∧ tag.all isWordCharASCII = true then
      (findSubstring ('$' :: tag ++ ['$']) (cs.drop (tag.length + 1))).map fun i =>
        .token .hereDoc (2 * (tag.length + 2) + i)
    else none
  match heredoc with
  | some t => some t
  | none =>
    match cs with
    | [] => some (.token .dollarSign 1)
    | d :: _ => if isWordCharASCII d then none else some (.token .dollarSign 1)

/-- A word of word bytes and `$`; otherwise spaces of Unicode, or an error over one character of
UTF-8. -/
def wordOrWhitespaceToken (c : Char) (cs : List Char) : Scan :=
  if isWordCharASCII c || c = '$' then .token .bareWord (1 + (cs.takeWhile fun d => isWordCharASCII d || d = '$').length)
  else
    let n := skipWhitespacesUTF8 (c :: cs)
    if 0 < n then .token .whitespace n else .token .error (1 + (cs.takeWhile isContinuationOctet).length)

/-- The `default` branch of `nextTokenImpl`. -/
def defaultToken (c : Char) (cs : List Char) : Scan :=
  match (if c = '$' then dollarToken cs else none) with
  | some t => t
  | none =>
    match cs with
    | q :: d :: rest =>
      if q = '\'' ∧ (c = 'x' ∨ c = 'b' ∨ c = 'X' ∨ c = 'B') then quotedHexOrBinString c (d :: rest)
      else wordOrWhitespaceToken c cs
    | _ => wordOrWhitespaceToken c cs

/-- `nextTokenImpl` on the bytes from `pos`, with the type of the last significant token and whether
`pos` is past the beginning. -/
def nextTokenImpl (prevSignificantTokenType : TokenType) (pastBegin : Bool) : List Char → Scan
  | [] => .token .endOfStream 0
  | c :: cs =>
    match c with
    | ' ' | '\t' | '\n' | '\r' | '\x0c' | '\x0b' => .token .whitespace (1 + (cs.takeWhile isWhitespaceASCII).length)
    | '0' | '1' | '2' | '3' | '4' | '5' | '6' | '7' | '8' | '9' => numberToken prevSignificantTokenType (c :: cs)
    | '\'' => quotedString '\'' .stringLiteral .errorSingleQuoteIsNotClosed cs
    | '"' => quotedString '"' .quotedIdentifier .errorDoubleQuoteIsNotClosed cs
    | '(' => .token .openingRoundBracket 1
    | ')' => .token .closingRoundBracket 1
    | '[' => .token .openingSquareBracket 1
    | ']' => .token .closingSquareBracket 1
    | '{' => .token .openingCurlyBrace 1
    | '}' => .token .closingCurlyBrace 1
    | ',' => .token .comma 1
    | ';' => .token .semicolon 1
    | '.' => dotToken prevSignificantTokenType pastBegin cs
    | '+' => .token .plus 1
    | '-' =>
      match cs with
      | '>' :: _ => .token .arrow 2
      | '-' :: rest => commentUntilEndOfLine 2 rest
      | _ => .token .minus 1
    | '*' => .token .asterisk 1
    | '/' =>
      match cs with
      | '/' :: rest => commentUntilEndOfLine 2 rest
      | '*' :: rest =>
        match multilineCommentLoop 1 rest with
        | some n => .token .comment (n + 2)
        | none => .token .errorMultilineCommentIsNotClosed (rest.length + 2)
      | _ => .token .slash 1
    | '#' =>
      match cs with
      | d :: _ => if d = ' ' ∨ d = '!' then commentUntilEndOfLine 1 cs else .token .error 1
      | [] => .token .error 1
    | '%' => .token .percent 1
    | '=' =>
      match cs with
      | '=' :: _ => .token .equals 2
      | _ => .token .equals 1
    | '!' =>
      match cs with
      | '=' :: _ => .token .notEquals 2
      | _ => .token .errorSingleExclamationMark 1
    | '<' =>
      match cs with
      | '=' :: '>' :: _ => .token .spaceship 3
      | '=' :: _ => .token .lessOrEquals 2
      | '>' :: _ => .token .notEquals 2
      | _ => .token .less 1
    | '>' =>
      match cs with
      | '=' :: _ => .token .greaterOrEquals 2
      | _ => .token .greater 1
    | '?' => .token .questionMark 1
    | '^' => .token .caret 1
    | ':' =>
      match cs with
      | ':' :: _ => .token .doubleColon 2
      | _ => .token .colon 1
    | '|' =>
      match cs with
      | '|' :: _ => .token .concatenation 2
      | _ => .token .pipeMark 1
    | '@' =>
      match cs with
      | '@' :: _ => .token .doubleAt 2
      | _ => .token .at 1
    | '\\' =>
      match cs with
      | 'G' :: _ => .token .verticalDelimiter 2
      | _ => .token .error 1
    | '\xE2' =>
      match cs with
      | b1 :: b2 :: rest =>
        -- the minus sign of mathematics, then a quote of Unicode with at least three bytes after it
        if b1 = '\x88' ∧ b2 = '\x92' then .token .minus 3
        else if b1 = '\x80' ∧ (b2 = '\x98' ∨ b2 = '\x9c') ∧ 3 ≤ rest.length then
          if b2 = '\x98' then
            quotedStringWithUnicodeQuotes '\x99' .stringLiteral .errorSingleQuoteIsNotClosed rest
          else quotedStringWithUnicodeQuotes '\x9d' .quotedIdentifier .errorDoubleQuoteIsNotClosed rest
        else defaultToken c cs
      | _ => defaultToken c cs
    | _ =>
      -- the backquote has a case of its own in the source's switch
      if c = backQuoteChar then quotedString backQuoteChar .quotedIdentifier .errorBackQuoteIsNotClosed cs
      else defaultToken c cs

/-- `Lexer`: the bytes from `pos` to the end, how many lie before `pos`, the limit on the size of
the query (0 for none), and the type of the last significant token. -/
structure Lexer where
  rest : List Char
  consumed : ℕ
  maxQuerySize : ℕ
  prevSignificantTokenType : TokenType

/-- `max_query_size_limit`. -/
def maxQuerySizeLimit : ℕ := 1000000000

/-- The constructor: the limit is clamped, and no token came before. -/
def Lexer.init (input : List Char) (maxQuerySize : ℕ) : Lexer :=
  ⟨input, 0, if maxQuerySize ≤ maxQuerySizeLimit then maxQuerySize else maxQuerySizeLimit, .whitespace⟩

/-- A token: its type, the number of bytes before it and its length. -/
structure Token where
  type : TokenType
  offset : ℕ
  size : ℕ
  deriving DecidableEq, Repr

/-- `Lexer::nextToken`: a token that ends past the limit on the size of the query is an error. -/
def Lexer.nextToken (lexer : Lexer) : Token × Lexer :=
  let scan := nextTokenImpl lexer.prevSignificantTokenType (0 < lexer.consumed) lexer.rest
  let type :=
    if 0 < lexer.maxQuerySize ∧ lexer.maxQuerySize < lexer.consumed + scan.size then TokenType.errorMaxQuerySizeExceeded
    else scan.type
  (⟨type, lexer.consumed, scan.size⟩,
    { lexer with
      rest := lexer.rest.drop scan.advance
      consumed := lexer.consumed + scan.advance
      prevSignificantTokenType := if type.isSignificant then type else lexer.prevSignificantTokenType })

/-- The bytes of a token in the text it was read from. -/
def Token.text (input : List Char) (t : Token) : List Char := (input.drop t.offset).take t.size

section QuotedString

variable {quote : Char} {rest : List Char}

/-- One byte of the loop; the lemmas below read the loop through this one, not its equations. -/
lemma quotedStringLoop_cons (c : Char) (rest : List Char) :
    quotedStringLoop quote (c :: rest) =
      if c = quote then
        match rest with
        | [] => some 1
        | d :: rest' => if d = quote then (quotedStringLoop quote rest').map (· + 2) else some 1
      else if c = '\\' then
        match rest with
        | [] => none
        | _ :: rest' => (quotedStringLoop quote rest').map (· + 2)
      else (quotedStringLoop quote rest).map (· + 1) := by
  rw [quotedStringLoop.eq_def]

lemma quotedStringLoop_plain {c : Char} (hq : c ≠ quote) (hb : c ≠ '\\') :
    quotedStringLoop quote (c :: rest) = (quotedStringLoop quote rest).map (· + 1) := by
  rw [quotedStringLoop_cons, if_neg hq, if_neg hb]

lemma quotedStringLoop_backslash (hq : quote ≠ '\\') (e : Char) :
    quotedStringLoop quote ('\\' :: e :: rest) = (quotedStringLoop quote rest).map (· + 2) := by
  rw [quotedStringLoop_cons, if_neg hq.symm, if_pos rfl]

/-- A quote not followed by another closes the string. -/
lemma quotedStringLoop_quote (h : rest.head? ≠ some quote) : quotedStringLoop quote (quote :: rest) = some 1 := by
  rw [quotedStringLoop_cons, if_pos rfl]
  cases rest with
  | nil => rfl
  | cons d rest' =>
    have hd : d ≠ quote := fun hd => h (by rw [hd]; rfl)
    simp only [if_neg hd]

end QuotedString

lemma nextTokenImpl_quote (p : TokenType) (b : Bool) (cs : List Char) :
    nextTokenImpl p b ('\'' :: cs) = quotedString '\'' .stringLiteral .errorSingleQuoteIsNotClosed cs :=
  rfl

lemma nextTokenImpl_doubleQuote (p : TokenType) (b : Bool) (cs : List Char) :
    nextTokenImpl p b ('"' :: cs) = quotedString '"' .quotedIdentifier .errorDoubleQuoteIsNotClosed cs :=
  rfl

lemma nextTokenImpl_backQuote (p : TokenType) (b : Bool) (cs : List Char) :
    nextTokenImpl p b (backQuoteChar :: cs) = quotedString backQuoteChar .quotedIdentifier .errorBackQuoteIsNotClosed cs :=
  rfl

section Words

variable {c : Char} {cs : List Char}

/-- A byte that may start an identifier goes to the `default` branch. -/
lemma nextTokenImpl_of_isValidIdentifierBegin (p : TokenType) (b : Bool) (cs : List Char)
    (h : isValidIdentifierBegin c = true) : nextTokenImpl p b (c :: cs) = defaultToken c cs := by
  have hb : c ≠ backQuoteChar := by
    rintro rfl
    revert h
    decide
  unfold nextTokenImpl
  dsimp only
  -- every byte with a case of its own is a digit or a sign, which cannot start an identifier
  split
  all_goals first | exact absurd h (by decide) | rw [if_neg hb]

lemma wordOrWhitespaceToken_word (hc : isWordCharASCII c = true) (hcs : cs.all isWordCharASCII = true) :
    wordOrWhitespaceToken c cs = .token .bareWord (cs.length + 1) := by
  have htake : cs.takeWhile (fun d => isWordCharASCII d || d = '$') = cs := by
    rw [List.takeWhile_eq_self_iff]
    intro d hd
    simp [List.all_eq_true.mp hcs d hd]
  simp only [wordOrWhitespaceToken, hc, Bool.true_or, ↓reduceIte, htake, Nat.add_comm]

/-- A word of word bytes that does not start with `$` is one bare word. -/
lemma defaultToken_word (hc : isWordCharASCII c = true) (hd : c ≠ '$') (hcs : cs.all isWordCharASCII = true) :
    defaultToken c cs = .token .bareWord (cs.length + 1) := by
  unfold defaultToken
  simp only [if_neg hd]
  split
  · rename_i q d rest
    have hq : q ≠ '\'' := by
      intro hq
      have hw := List.all_eq_true.mp hcs q List.mem_cons_self
      rw [hq] at hw
      revert hw
      decide
    rw [if_neg (fun h => hq h.1), wordOrWhitespaceToken_word hc hcs]
  · exact wordOrWhitespaceToken_word hc hcs

end Words

section Bounds

lemma le_of_map_add {o : Option ℕ} {k L n : ℕ} {P : ℕ → Prop}
    (hb : ∀ {m}, o = some m → P m ∧ m ≤ L) (h : o.map (· + k) = some n) : ∃ m, P m ∧ n = m + k ∧ m ≤ L := by
  obtain ⟨m, hm, rfl⟩ := Option.map_eq_some_iff.mp h
  exact ⟨m, (hb hm).1, rfl, (hb hm).2⟩

lemma eq_inr_of_map_succ {s : ℕ ⊕ ℕ} {n : ℕ} (h : s.map (· + 1) (· + 1) = .inr n) : ∃ m, s = .inr m ∧ n = m + 1 := by
  cases s <;> simp_all

lemma eq_inl_of_map_succ {s : ℕ ⊕ ℕ} {k : ℕ} (h : s.map (· + 1) (· + 1) = .inl k) : ∃ m, s = .inl m ∧ k = m + 1 := by
  cases s <;> simp_all

variable {cs : List Char}

lemma quotedStringLoop_le {quote : Char} {n : ℕ} (h : quotedStringLoop quote cs = some n) :
    1 ≤ n ∧ n ≤ cs.length := by
  fun_induction quotedStringLoop quote cs generalizing n
  all_goals first
    | (rename_i ih
       obtain ⟨m, hm, rfl, hle⟩ := le_of_map_add ih h
       simp only [List.length_cons] at hle ⊢
       omega)
    | simp_all

lemma multilineCommentLoop_le {l n : ℕ} (h : multilineCommentLoop l cs = some n) : 2 ≤ n ∧ n ≤ cs.length := by
  fun_induction multilineCommentLoop l cs generalizing n
  all_goals first
    | (rename_i ih
       obtain ⟨m, hm, rfl, hle⟩ := le_of_map_add ih h
       simp only [List.length_cons] at hle ⊢
       omega)
    | (simp_all; done)
    | (simp_all; omega)

lemma unicodeQuotedLoop_inr_le {e : Char} {n : ℕ} (h : unicodeQuotedLoop e cs = .inr n) : 3 ≤ n ∧ n ≤ cs.length := by
  fun_induction unicodeQuotedLoop e cs generalizing n
  all_goals first
    | (rename_i ih
       obtain ⟨m, hm, rfl⟩ := eq_inr_of_map_succ h
       have := ih hm
       simp only [List.length_cons] at this ⊢
       omega)
    | (simp_all; done)
    | (simp_all; omega)

lemma unicodeQuotedLoop_inl_le {e : Char} {k : ℕ} (h : unicodeQuotedLoop e cs = .inl k) : k ≤ cs.length := by
  fun_induction unicodeQuotedLoop e cs generalizing k
  all_goals first
    | (rename_i ih
       obtain ⟨m, hm, rfl⟩ := eq_inl_of_map_succ h
       have := ih hm
       simp only [List.length_cons] at this ⊢
       omega)
    | (simp_all; done)
    | (simp_all; omega)

lemma skipDigitsLoop_le (hex s : Bool) (cs : List Char) : skipDigitsLoop hex s cs ≤ cs.length := by
  fun_induction skipDigitsLoop hex s cs <;> simp_all

lemma skipExponent_le (hex : Bool) (cs : List Char) : skipExponent hex cs ≤ cs.length := by
  fun_cases skipExponent hex cs
  · rename_i d rest _ sign
    have hsign : sign ≤ 1 := by grind
    have := skipDigitsLoop_le false true ((d :: rest).drop sign)
    simp only [List.length_drop, List.length_cons] at this ⊢
    omega
  all_goals simp

lemma findSubstring_le {p : List Char} {i : ℕ} (h : findSubstring p cs = some i) : i + p.length ≤ cs.length := by
  fun_induction findSubstring p cs generalizing i
  case case1 => simp_all
  case case2 => simp at h
  case case3 hpre =>
    obtain rfl : i = 0 := by simpa using h.symm
    simpa using (List.isPrefixOf_iff_prefix.mp hpre).length_le
  case case4 ih =>
    obtain ⟨m, hm, rfl⟩ := Option.map_eq_some_iff.mp h
    have := ih hm
    simp only [List.length_cons]
    omega

end Bounds

/-- A token read from `n` bytes: it takes at least one byte and at most `n`, it is not the end of the
stream, and `pos` moves to its end unless it is a quote of Unicode left unclosed. -/
structure Scan.Fits (n : ℕ) (s : Scan) : Prop where
  one_le : 1 ≤ s.advance
  advance_le : s.advance ≤ s.size
  size_le : s.size ≤ n
  ne_end : s.type ≠ .endOfStream
  whole : s.advance = s.size ∨ s.type = .errorSingleQuoteIsNotClosed ∨ s.type = .errorDoubleQuoteIsNotClosed

section Fits

variable {n : ℕ} {cs : List Char}

lemma Scan.fits_token {type : TokenType} {size : ℕ} (h1 : 1 ≤ size) (h2 : size ≤ n) (ht : type ≠ .endOfStream) :
    (Scan.token type size).Fits n :=
  ⟨h1, le_rfl, h2, ht, .inl rfl⟩

lemma Scan.Fits.mono {s : Scan} {m : ℕ} (h : s.Fits n) (hnm : n ≤ m) : s.Fits m :=
  ⟨h.one_le, h.advance_le, h.size_le.trans hnm, h.ne_end, h.whole⟩

lemma quotedString_fits (quote : Char) {s e : TokenType} (hs : s ≠ .endOfStream) (he : e ≠ .endOfStream) (cs : List Char) :
    (quotedString quote s e cs).Fits (cs.length + 1) := by
  unfold quotedString
  split
  · rename_i k hk
    have := quotedStringLoop_le hk
    exact Scan.fits_token (by omega) (by omega) hs
  · exact Scan.fits_token (by omega) le_rfl he

lemma quotedStringWithUnicodeQuotes_fits (e : Char) {s err : TokenType} (hs : s ≠ .endOfStream)
    (herr : err = .errorSingleQuoteIsNotClosed ∨ err = .errorDoubleQuoteIsNotClosed) (cs : List Char) :
    (quotedStringWithUnicodeQuotes e s err cs).Fits (cs.length + 3) := by
  unfold quotedStringWithUnicodeQuotes
  split
  · rename_i k hk
    have := unicodeQuotedLoop_inr_le hk
    exact Scan.fits_token (by omega) (by omega) hs
  · rename_i k hk
    have := unicodeQuotedLoop_inl_le hk
    refine ⟨by simp, by simp; omega, le_rfl, ?_, .inr herr⟩
    rcases herr with rfl | rfl <;> simp

lemma lt_length_of_head?_drop {l : List Char} {k : ℕ} {a : Char} (h : (l.drop k).head? = some a) : k < l.length := by
  rw [List.head?_drop] at h
  exact (List.getElem?_eq_some_iff.mp h).1

lemma quotedHexOrBinString_fits (c : Char) (cs : List Char) : (quotedHexOrBinString c cs).Fits (cs.length + 2) := by
  unfold quotedHexOrBinString
  extract_lets hex k
  split
  · rename_i h
    have := lt_length_of_head?_drop h
    exact Scan.fits_token (by omega) (by omega) (by decide)
  · exact Scan.fits_token (by omega) le_rfl (by decide)

lemma commentUntilEndOfLine_fits {skipped : ℕ} (h : 1 ≤ skipped) (rest : List Char) :
    (commentUntilEndOfLine skipped rest).Fits (skipped + rest.length) :=
  Scan.fits_token (by omega) (by have := (List.takeWhile_prefix (· ≠ '\n') (l := rest)).length_le; omega) (by decide)

lemma takeWhile_length_le (p : Char → Bool) (l : List Char) : (l.takeWhile p).length ≤ l.length :=
  (List.takeWhile_prefix p).length_le

lemma numberPrefix_le (l : List Char) : 1 ≤ (numberPrefix l).1 ∧ ((numberPrefix l).1 ≤ 1 ∨ (numberPrefix l).1 < l.length) := by
  fun_cases numberPrefix l <;> simp_all

lemma add_skipDigitsLoop_le (hex s : Bool) {l : List Char} {k : ℕ} (hk : k ≤ l.length) :
    k + skipDigitsLoop hex s (l.drop k) ≤ l.length := by
  have := skipDigitsLoop_le hex s (l.drop k)
  rw [List.length_drop] at this
  omega

lemma add_skipExponent_le (hex : Bool) {l : List Char} {k : ℕ} (hk : k ≤ l.length) :
    k + skipExponent hex (l.drop k) ≤ l.length := by
  have := skipExponent_le hex (l.drop k)
  rw [List.length_drop] at this
  omega

lemma numberLength_le (p : TokenType) {l : List Char} (hl : l ≠ []) :
    1 ≤ numberLength p l ∧ numberLength p l ≤ l.length := by
  have hl1 : 1 ≤ l.length := List.length_pos_iff.mpr hl
  unfold numberLength
  split
  · have := add_skipDigitsLoop_le false false hl1
    omega
  · extract_lets pre n2 n3
    obtain ⟨hpre1, hpre2⟩ : 1 ≤ pre.1 ∧ (pre.1 ≤ 1 ∨ pre.1 < l.length) := numberPrefix_le l
    have h2 : n2 ≤ l.length := add_skipDigitsLoop_le _ _ (by omega)
    -- the fraction is read only when a dot follows the integer part
    have h3 : pre.1 ≤ n3 ∧ n3 ≤ l.length := by
      change pre.1 ≤ (if (l.drop n2).head? = some '.' then n2 + 1 + skipDigitsLoop pre.2.1 true (l.drop (n2 + 1))
        else n2) ∧ (if (l.drop n2).head? = some '.' then n2 + 1 + skipDigitsLoop pre.2.1 true (l.drop (n2 + 1))
        else n2) ≤ l.length
      have hn2 : pre.1 ≤ n2 := Nat.le_add_right _ _
      split
      · rename_i h
        exact ⟨by omega, add_skipDigitsLoop_le _ _ (lt_length_of_head?_drop h)⟩
      · exact ⟨hn2, h2⟩
    have := add_skipExponent_le pre.2.1 h3.2
    omega

lemma numberToken_fits (p : TokenType) {l : List Char} (hl : l ≠ []) : (numberToken p l).Fits l.length := by
  obtain ⟨h1, hn⟩ := numberLength_le p hl
  unfold numberToken
  extract_lets k
  split
  · rename_i c rest hdrop
    have hrest : rest.length + k + 1 = l.length := by
      have := congrArg List.length hdrop
      simp only [List.length_drop, List.length_cons] at this
      omega
    have := takeWhile_length_le isWordCharASCII rest
    split
    · extract_lets m
      split
      · exact Scan.fits_token (by omega) (by omega) (by decide)
      · exact Scan.fits_token (by omega) (by omega) (by decide)
    · exact Scan.fits_token h1 hn (by decide)
  · exact Scan.fits_token h1 hn (by decide)

lemma dotToken_fits (p : TokenType) (pastBegin : Bool) (cs : List Char) :
    (dotToken p pastBegin cs).Fits (cs.length + 1) := by
  unfold dotToken
  extract_lets digitNext k
  split
  · exact Scan.fits_token le_rfl (by omega) (by decide)
  · have hk : k ≤ cs.length := skipDigitsLoop_le false true cs
    have := add_skipExponent_le false hk
    exact Scan.fits_token (by omega) (by omega) (by decide)

lemma dollarToken_fits {cs : List Char} {t : Scan} (h : dollarToken cs = some t) : t.Fits (cs.length + 1) := by
  unfold dollarToken at h
  extract_lets tag heredoc at h
  cases hH : heredoc with
  | some t' =>
    simp only [hH, Option.some.injEq] at h
    subst h
    simp only [heredoc] at hH
    split_ifs at hH with htag
    obtain ⟨i, hi, rfl⟩ := Option.map_eq_some_iff.mp hH
    have := findSubstring_le hi
    simp only [List.length_cons, List.length_append, List.length_drop] at this
    exact Scan.fits_token (by omega) (by omega) (by decide)
  | none =>
    simp only [hH] at h
    split at h
    · obtain rfl := Option.some.inj h
      exact Scan.fits_token le_rfl (by omega) (by decide)
    · split at h
      · cases h
      · obtain rfl := Option.some.inj h
        exact Scan.fits_token le_rfl (by omega) (by decide)

lemma wordOrWhitespaceToken_fits (c : Char) (cs : List Char) : (wordOrWhitespaceToken c cs).Fits (cs.length + 1) := by
  unfold wordOrWhitespaceToken
  split
  · have := takeWhile_length_le (fun d => isWordCharASCII d || d = '$') cs
    exact Scan.fits_token (by omega) (by omega) (by decide)
  · extract_lets k
    have hk : k ≤ cs.length + 1 := skipWhitespacesUTF8_le_length (c :: cs)
    split
    · exact Scan.fits_token (by omega) hk (by decide)
    · have := takeWhile_length_le isContinuationOctet cs
      exact Scan.fits_token (by omega) (by omega) (by decide)

lemma defaultToken_fits (c : Char) (cs : List Char) : (defaultToken c cs).Fits (cs.length + 1) := by
  unfold defaultToken
  split
  · rename_i t h
    split_ifs at h
    exact dollarToken_fits h
  · split
    · split
      · exact (quotedHexOrBinString_fits c _).mono (by simp)
      · exact wordOrWhitespaceToken_fits c _
    · exact wordOrWhitespaceToken_fits c cs

lemma nextTokenImpl_fits (p : TokenType) (pastBegin : Bool) (c : Char) (cs : List Char) :
    (nextTokenImpl p pastBegin (c :: cs)).Fits (cs.length + 1) := by
  have hws := takeWhile_length_le isWhitespaceASCII cs
  unfold nextTokenImpl
  dsimp only
  split
  all_goals first
    | (refine Scan.fits_token ?_ ?_ ?_ <;> first | omega | decide)
    | exact numberToken_fits p (List.cons_ne_nil _ _)
    | exact quotedString_fits _ (by decide) (by decide) cs
    | exact dotToken_fits p pastBegin cs
    | (split_ifs
       · exact quotedString_fits _ (by decide) (by decide) cs
       · exact defaultToken_fits c cs)
    | skip
  -- the bytes with a case of their own that look at the bytes after them
  all_goals split
  all_goals first
    | (refine Scan.fits_token ?_ ?_ ?_ <;> first | omega | (simp only [List.length_cons]; omega) | decide)
    | (refine (commentUntilEndOfLine_fits ?_ _).mono ?_ <;> first | omega | (simp only [List.length_cons]; omega))
    | exact defaultToken_fits _ _
    | skip
  -- a multiline comment, a comment after `#`, and the bytes of Unicode after `E2`
  all_goals first
    | (split
       · rename_i k hk
         have := multilineCommentLoop_le hk
         refine Scan.fits_token ?_ ?_ ?_ <;> first | omega | (simp only [List.length_cons]; omega) | decide
       · refine Scan.fits_token ?_ ?_ ?_ <;> first | omega | (simp only [List.length_cons]; omega) | decide)
    | (split_ifs <;> first
        | (refine Scan.fits_token ?_ ?_ ?_ <;> first | omega | (simp only [List.length_cons]; omega) | decide)
        | (refine (commentUntilEndOfLine_fits le_rfl _).mono ?_; simp only [List.length_cons]; omega)
        | (refine (quotedStringWithUnicodeQuotes_fits _ (by decide) (by simp) _).mono ?_
           simp only [List.length_cons]; omega)
        | exact defaultToken_fits _ _)

end Fits

section NextToken

variable {l : Lexer}

lemma Lexer.nextToken_offset : l.nextToken.1.offset = l.consumed := rfl

lemma Lexer.nextToken_size : l.nextToken.1.size = (nextTokenImpl l.prevSignificantTokenType (0 < l.consumed) l.rest).size := rfl

lemma Lexer.nextToken_rest :
    l.nextToken.2.rest = l.rest.drop (nextTokenImpl l.prevSignificantTokenType (0 < l.consumed) l.rest).advance := rfl

lemma Lexer.nextToken_consumed :
    l.nextToken.2.consumed = l.consumed + (nextTokenImpl l.prevSignificantTokenType (0 < l.consumed) l.rest).advance := rfl

lemma Lexer.nextToken_maxQuerySize : l.nextToken.2.maxQuerySize = l.maxQuerySize := rfl

lemma Lexer.nextToken_type_ne_endOfStream {c : Char} {cs : List Char} (h : l.rest = c :: cs) :
    l.nextToken.1.type ≠ .endOfStream := by
  have hfit := nextTokenImpl_fits l.prevSignificantTokenType (0 < l.consumed) c cs
  rw [← h] at hfit
  unfold Lexer.nextToken
  dsimp only
  split
  · decide
  · exact hfit.ne_end

lemma nextTokenImpl_nil (p : TokenType) (pastBegin : Bool) : nextTokenImpl p pastBegin [] = .token .endOfStream 0 :=
  rfl

/-- At the end of the bytes the lexer stays where it is and gives the end of the stream, or the error
of a query past its limit. -/
lemma Lexer.nextToken_of_rest_nil (h : l.rest = []) :
    l.nextToken.1 = ⟨if 0 < l.maxQuerySize ∧ l.maxQuerySize < l.consumed then .errorMaxQuerySizeExceeded
      else .endOfStream, l.consumed, 0⟩ ∧
    l.nextToken.2.rest = [] ∧ l.nextToken.2.consumed = l.consumed ∧ l.nextToken.2.maxQuerySize = l.maxQuerySize := by
  unfold Lexer.nextToken
  simp only [h, nextTokenImpl_nil, Scan.token, Nat.add_zero, List.drop_nil, and_self]

lemma Lexer.nextToken_advance {c : Char} {cs : List Char} (h : l.rest = c :: cs) :
    l.nextToken.2.rest.length < l.rest.length := by
  have hfit := nextTokenImpl_fits l.prevSignificantTokenType (0 < l.consumed) c cs
  rw [← h] at hfit
  rw [Lexer.nextToken_rest, List.length_drop]
  have := hfit.one_le
  have : l.rest.length ≠ 0 := by simp [h]
  omega

end NextToken

end ClickHouse.Parsers
