import ClickHouse.Core.PlainRanges
import ClickHouse.Common.StringUtils
import ClickHouse.Common.OptimizedRegularExpression

/-! `Storages/MergeTree/KeyCondition.cpp`: the atoms of the string functions, each turning its
constant into a range of the key that every matching row must lie in (`FUNCTION_IN_RANGE`) or
that only matching rows lie in (`FUNCTION_NOT_IN_RANGE`), and the prefixes of regular expressions
they rest on. A string is its bytes, as `Char`s below 256, ordered as bytes; an atom is given its
constant when it is a string, and `none` stands for an atom that is not built. -/

namespace ClickHouse.Storages.MergeTree.KeyCondition

open ClickHouse.Core ClickHouse.Common

/-- `\c` matches the character `c` itself. -/
def isLiteralEscape (c : Char) : Bool :=
  c = '|' || c = '(' || c = ')' || c = '^' || c = '$' || c = '.' || c = '[' || c = ']' || c = '?' ||
    c = '*' || c = '+' || c = '\\' || c = '{' || c = '}' || c = '-'

/-- The loop of `extractFixedPrefixFromRegularExpression` over the pattern from `pos`, with
`fixedPrefix` the characters collected so far. -/
def extractFixedPrefixLoop : List Char → List Char → List Char
  | [], fixedPrefix => fixedPrefix
  | c :: rest, fixedPrefix =>
    if c = '\x00' then fixedPrefix
    else if c = '\\' then
      match rest with
      | [] => fixedPrefix
      | d :: rest => if isLiteralEscape d then extractFixedPrefixLoop rest (fixedPrefix ++ [d]) else fixedPrefix
    -- an alternation: no prefix
    else if c = '|' then []
    else if c = '(' ∨ c = '[' ∨ c = '^' ∨ c = '$' ∨ c = '.' ∨ c = '+' then fixedPrefix
    -- quantifiers that allow zero occurrences take back the last character
    else if c = '{' ∨ c = '?' ∨ c = '*' then fixedPrefix.dropLast
    else extractFixedPrefixLoop rest (fixedPrefix ++ [c])

def extractFixedPrefixFromRegularExpression (regexp : List Char) : List Char :=
  if regexp.length ≤ 1 ∨ regexp.head? ≠ some '^' then [] else extractFixedPrefixLoop regexp.tail []

def expressionHasUnescapedAlternation : List Char → Bool
  | [] => false
  | c :: rest =>
    if c = '\\' then
      match rest with
      | [] => false
      | _ :: rest => expressionHasUnescapedAlternation rest
    else c = '|' || expressionHasUnescapedAlternation rest

/-- The loop of `extractCommonPrefixFromAlternationBranches` over `^(b₁|b₂|...)` after `^(`, with the
branch read so far and the branches before it; `none` where the source gives up. -/
def splitBranches : List Char → List Char → List (List Char) → Option (List (List Char))
  | [], _, branches => some branches
  | c :: rest, currentBranch, branches =>
    if c = '\\' then
      match rest with
      | next :: rest => if isLiteralEscape next then splitBranches rest (currentBranch ++ [next]) branches else none
      -- a trailing backslash is a plain character
      | [] => splitBranches [] (currentBranch ++ [c]) branches
    else if c = '|' then splitBranches rest [] (branches ++ [currentBranch])
    else if c = ')' then
      -- only `$` or the end may follow the group
      let rest := match rest with
        | '$' :: rest => rest
        | rest => rest
      if rest = [] then some (branches ++ [currentBranch]) else none
    else if c = '(' ∨ c = '[' ∨ c = '.' ∨ c = '*' ∨ c = '+' ∨ c = '?' ∨ c = '{' ∨ c = '^' ∨ c = '$' then none
    else splitBranches rest (currentBranch ++ [c]) branches

/-- The length of the longest common prefix. -/
def commonLength : List Char → List Char → ℕ
  | a :: as, b :: bs => if a = b then commonLength as bs + 1 else 0
  | _, _ => 0

/-- The source returns as soon as the common prefix is empty, which the fold then keeps empty. -/
def extractCommonPrefixFromAlternationBranches (expression : List Char) : List Char :=
  if expression.length < 4 ∨ expression.head? ≠ some '^' ∨ expression.tail.head? ≠ some '(' then []
  else
    match splitBranches (expression.drop 2) [] [] with
    | some (first :: second :: others) =>
      (second :: others).foldl (fun commonPrefix branch => commonPrefix.take (commonLength commonPrefix branch)) first
    | _ => []

inductive RPNFunction
  | inRange
  | notInRange
  deriving DecidableEq, Repr

/-- The fields of `RPNElement` the string atoms set. -/
structure RPNElement where
  function : RPNFunction
  range : Range (List Char)
  relaxed : Bool
  deriving DecidableEq

/-- The range of the strings with a prefix, which every atom below builds the same way: up to the
least string above them all, or unbounded when there is none. -/
def prefixRange (pref : List Char) : Range (List Char) :=
  let rightBound := firstStringThatIsGreaterThanAllStringsWithPrefix pref
  if rightBound ≠ [] then ⟨(pref : WithTop (List Char)), (rightBound : WithTop (List Char)), true, false⟩
  else Range.createLeftBounded (pref : WithTop (List Char)) true

def atomLike (value : List Char) : Option RPNElement :=
  let (pref, isPerfect, isExact) := extractFixedPrefixFromLikePattern value false
  if isExact then some ⟨.inRange, Range.point (pref : WithTop (List Char)), false⟩
  else if pref = [] then none
  else some ⟨.inRange, prefixRange pref, !isPerfect⟩

def atomNotLike (value : List Char) : Option RPNElement :=
  let (pref, _, isExact) := extractFixedPrefixFromLikePattern value true
  if isExact then some ⟨.notInRange, Range.point (pref : WithTop (List Char)), false⟩
  else if pref = [] then none
  else some ⟨.notInRange, prefixRange pref, false⟩

def atomStartsWith (value : List Char) : Option RPNElement :=
  if value = [] then none else some ⟨.inRange, prefixRange value, false⟩

def atomStartsWithUTF8 (value : List Char) : Option RPNElement :=
  if value = [] then none
  else if isAllASCII value = false then none
  else some ⟨.inRange, prefixRange value, false⟩

def atomMatch (expression : List Char) : Option RPNElement :=
  if '\x00' ∈ expression then none
  else
    let pref :=
      if !expressionHasUnescapedAlternation expression then extractFixedPrefixFromRegularExpression expression
      else extractCommonPrefixFromAlternationBranches expression
    if pref = [] then none else some ⟨.inRange, prefixRange pref, true⟩

/-! ### A `?` after a character of several bytes -/

section OptionalCharacter

open ClickHouse.Lib

/-- An ASCII letter or digit, or a byte of a character of several bytes: no reader of a pattern
gives it a meaning of its own. -/
def Plain (c : Char) : Prop := isAlphaNumericASCII c = true ∨ 0x80 ≤ c.toNat

instance : DecidablePred Plain := fun _ => inferInstanceAs (Decidable (_ ∨ _))

lemma not_mem_of_plain {c : Char} (hc : Plain c) :
    c ∉ ['\x00', '\\', '|', '(', ')', '[', ']', '^', '$', '.', '+', '*', '?', '{', '}'] := by
  have hstop := List.all_eq_true.mp
    (by decide : (['\x00', '\\', '|', '(', ')', '[', ']', '^', '$', '.', '+', '*', '?', '{', '}'] : List Char).all
      (fun s => !decide (Plain s)) = true)
  exact fun hmem => by simpa [hc] using hstop c hmem

lemma plain_of_isContinuationOctet {d : Char} (hd : UTF8.isContinuationOctet d.toNat = true) : Plain d := by
  right
  have hand : d.toNat &&& 0xC0 = 0x80 := by simpa [UTF8.isContinuationOctet] using hd
  have hle : d.toNat &&& 0xC0 ≤ d.toNat := Nat.and_le_left
  omega

lemma extractFixedPrefixLoop_plain {c : Char} (hc : Plain c) (rest fixedPrefix : List Char) :
    extractFixedPrefixLoop (c :: rest) fixedPrefix = extractFixedPrefixLoop rest (fixedPrefix ++ [c]) := by
  have h := not_mem_of_plain hc
  simp only [List.mem_cons, List.not_mem_nil, or_false, not_or] at h
  obtain ⟨h0, h1, h2, h3, -, h5, -, h7, h8, h9, h10, h11, h12, h13, -⟩ := h
  conv_lhs => unfold extractFixedPrefixLoop
  simp [h0, h1, h2, h3, h5, h7, h8, h9, h10, h11, h12, h13]

/-- The loop takes a run of plain characters into the prefix. -/
lemma extractFixedPrefixLoop_append {l : List Char} (hl : ∀ c ∈ l, Plain c) (rest fixedPrefix : List Char) :
    extractFixedPrefixLoop (l ++ rest) fixedPrefix = extractFixedPrefixLoop rest (fixedPrefix ++ l) := by
  induction l generalizing fixedPrefix with
  | nil => rw [List.nil_append, List.append_nil]
  | cons c l ih =>
    rw [List.cons_append, extractFixedPrefixLoop_plain (hl c List.mem_cons_self),
      ih (fun d hd => hl d (List.mem_cons_of_mem c hd)), List.append_assoc, List.singleton_append]

lemma expressionHasUnescapedAlternation_eq_false {l : List Char} (hl : ∀ c ∈ l, c ≠ '\\' ∧ c ≠ '|') :
    expressionHasUnescapedAlternation l = false := by
  induction l with
  | nil => rfl
  | cons c l ih =>
    obtain ⟨hb, hbar⟩ := hl c List.mem_cons_self
    unfold expressionHasUnescapedAlternation
    rw [if_neg hb, ih (fun d hd => hl d (List.mem_cons_of_mem c hd))]
    simp [hbar]

lemma isMetaCharacter_eq_false {c : Char} (hc : Plain c) : RE2.isMetaCharacter c = false := by
  have h := not_mem_of_plain hc
  simp only [List.mem_cons, List.not_mem_nil, or_false, not_or] at h
  simp [RE2.isMetaCharacter, h]

lemma parseLiterals_nil : RE2.parseLiterals [] = some .empty := by
  unfold RE2.parseLiterals
  rfl

/-- An ASCII letter or digit not followed by `?` is a literal of its own. -/
lemma parseLiterals_cons_ascii {c : Char} (hc : isAlphaNumericASCII c = true) {rest : List Char}
    (hnext : rest.head? ≠ some '?') :
    RE2.parseLiterals (c :: rest) = (RE2.parseLiterals rest).map (.seq (Regex.word [c])) := by
  have hascii := toNat_lt_of_isAlphaNumericASCII hc
  conv_lhs => unfold RE2.parseLiterals
  rw [if_neg (by rw [isMetaCharacter_eq_false (.inl hc)]; decide)]
  simp only [UTF8.seqLength_of_lt hascii, Nat.sub_self, List.take_zero, List.drop_zero, Nat.zero_le,
    List.all_nil, and_self, if_true, if_neg hnext]

/-- A character of several bytes followed by `?` is one optional literal. -/
lemma parseLiterals_optional {lead : Char} {cont : List Char} (hlead : Plain lead)
    (hcont : ∀ d ∈ cont, UTF8.isContinuationOctet d.toNat = true) (hlen : cont.length + 1 = UTF8.seqLength lead.toNat) :
    RE2.parseLiterals (lead :: (cont ++ ['?'])) = some (.seq (.opt (Regex.word (lead :: cont))) .empty) := by
  have hn : UTF8.seqLength lead.toNat - 1 = cont.length := by omega
  have htake : (cont ++ ['?']).take cont.length = cont := List.take_left' rfl
  have hdrop : (cont ++ ['?']).drop cont.length = ['?'] := List.drop_left' rfl
  have hall : (cont.all fun d => UTF8.isContinuationOctet d.toNat) = true := List.all_eq_true.mpr hcont
  conv_lhs => unfold RE2.parseLiterals
  rw [if_neg (by rw [isMetaCharacter_eq_false hlead]; decide)]
  simp only [hn, htake, hdrop, hall, List.length_append, List.length_singleton, Nat.le_add_right, and_self,
    if_true, List.head?_cons, List.tail_cons, parseLiterals_nil, Option.map_some]

/-- RE2 reads a run of ASCII letters and digits as literals, one after another. -/
lemma parseLiterals_append_ascii {lit : List Char} (hlit : ∀ c ∈ lit, isAlphaNumericASCII c = true)
    {rest : List Char} (hrest : rest.head? ≠ some '?') :
    RE2.parseLiterals (lit ++ rest) =
      (RE2.parseLiterals rest).map (fun r => lit.foldr (fun c r => .seq (Regex.word [c]) r) r) := by
  induction lit with
  | nil => simp
  | cons c lit ih =>
    have hlit' : ∀ d ∈ lit, isAlphaNumericASCII d = true := fun d hd => hlit d (List.mem_cons_of_mem c hd)
    -- the next character is a letter or digit of the run, or the first of the rest
    have hnext : (lit ++ rest).head? ≠ some '?' := by
      cases lit with
      | nil => simpa using hrest
      | cons d _ =>
        have hd : Plain d := .inl (hlit' d List.mem_cons_self)
        have := not_mem_of_plain hd
        simp only [List.mem_cons, not_or] at this
        simp [this.2.2.2.2.2.2.2.2.2.2.2.2.1]
    rw [List.cons_append, parseLiterals_cons_ascii (hlit c List.mem_cons_self) hnext, ih hlit', Option.map_map]
    rfl

lemma matches_foldr_word (lit : List Char) {r : Regex Char} (hr : Regex.Matches r []) :
    Regex.Matches (lit.foldr (fun c r => .seq (Regex.word [c]) r) r) lit := by
  induction lit with
  | nil => exact hr
  | cons c lit ih => exact Regex.Matches.seq (u := [c]) (Regex.matches_word [c]) ih

lemma lt_append_cons (l : List Char) (a : Char) (t : List Char) : l < l ++ a :: t := by
  have h := List.Lex.append_left (· < ·) (List.Lex.nil (a := a) (l := t)) l
  simpa using h

@[simp] lemma prefixRange_left (p : List Char) :
    (prefixRange p).left = ((p : WithTop (List Char)) : WithBot (WithTop (List Char))) := by
  unfold prefixRange
  dsimp only
  split_ifs <;> rfl

@[simp] lemma prefixRange_leftIncluded (p : List Char) : (prefixRange p).leftIncluded = true := by
  unfold prefixRange
  dsimp only
  split_ifs <;> rfl

/-- A string below a prefix that extends it is outside the range of the strings with that prefix. -/
lemma not_mem_prefixRange_append (l : List Char) (a : Char) (t : List Char) :
    ¬ (prefixRange (l ++ a :: t)).mem ((l : WithTop (List Char)) : WithBot (WithTop (List Char))) := by
  rintro ⟨hleft | ⟨-, heq⟩, -⟩
  · rw [prefixRange_left, WithBot.coe_lt_coe, WithTop.coe_lt_coe] at hleft
    exact lt_asymm hleft (lt_append_cons l a t)
  · rw [prefixRange_left, WithBot.coe_inj, WithTop.coe_inj] at heq
    have := congrArg List.length heq
    simp at this

lemma two_le_seqLength {b : ℕ} (hb : 0xC0 ≤ b ∧ b < 0xF8) : 2 ≤ UTF8.seqLength b := by
  have hlog : Nat.log2 (255 - b) < 6 := (Nat.log2_lt (by omega)).mpr (by omega)
  unfold UTF8.seqLength
  rw [if_neg (by omega)]
  omega

end OptionalCharacter

end ClickHouse.Storages.MergeTree.KeyCondition
