import ClickHouse.Lib.Regex
import ClickHouse.Common.UTF8Helpers

/-! `Common/OptimizedRegularExpression.cpp` compiles a pattern with RE2 in its default UTF-8 mode and
falls back to Latin-1 only for a pattern that is not UTF-8. RE2 is not part of the sources: its
documented meaning is given here for the patterns made of `^` and literal characters, each perhaps
followed by `?`. In UTF-8 mode a literal character is a whole code point, the octets its lead octet
counts, and `?` makes the whole of it optional. -/

namespace ClickHouse.Common.RE2

open ClickHouse.Lib

/-- The characters RE2 does not read as literals. -/
def isMetaCharacter (c : Char) : Bool :=
  c = '\\' || c = '.' || c = '+' || c = '*' || c = '?' || c = '(' || c = ')' || c = '|' || c = '[' ||
    c = ']' || c = '{' || c = '}' || c = '^' || c = '$'

/-- Literal characters, each perhaps followed by `?`; `none` outside the fragment. -/
def parseLiterals (pattern : List Char) : Option (Regex Char) :=
  match pattern with
  | [] => some .empty
  | c :: rest =>
    if isMetaCharacter c then none
    else
      let n := UTF8.seqLength c.toNat - 1
      if n ≤ rest.length ∧ (rest.take n).all (fun d => UTF8.isContinuationOctet d.toNat) then
        let atom := Regex.word (c :: rest.take n)
        if (rest.drop n).head? = some '?' then (parseLiterals (rest.drop n).tail).map (.seq (.opt atom))
        else (parseLiterals (rest.drop n)).map (.seq atom)
      else none
termination_by pattern.length
decreasing_by
  all_goals simp only [List.length_tail, List.length_drop, List.length_cons]; omega

/-- A pattern of the fragment, anchored at the start. -/
def parse : List Char → Option (Regex Char)
  | '^' :: rest => parseLiterals rest
  | _ => none

/-- `RE2::PartialMatch` of an anchored pattern: a match starts the subject. -/
def PartialMatch (subject pattern : List Char) : Prop :=
  ∃ r, parse pattern = some r ∧ ∃ u v, subject = u ++ v ∧ Regex.Matches r u

end ClickHouse.Common.RE2
