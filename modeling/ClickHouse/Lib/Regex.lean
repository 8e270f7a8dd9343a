import Mathlib

/-! Regular expressions over an alphabet, built from the empty word, letters, concatenation and the
optional `r?`, and the words they match. -/

namespace ClickHouse.Lib

inductive Regex (α : Type)
  | empty
  | char (a : α)
  | seq (r s : Regex α)
  | opt (r : Regex α)
  deriving DecidableEq, Repr

namespace Regex

variable {α : Type}

/-- The letters of a word one after another. -/
def word : List α → Regex α
  | [] => .empty
  | a :: w => .seq (.char a) (word w)

inductive Matches : Regex α → List α → Prop
  | empty : Matches .empty []
  | char (a : α) : Matches (.char a) [a]
  | seq {r s : Regex α} {u v : List α} : Matches r u → Matches s v → Matches (.seq r s) (u ++ v)
  | optNone (r : Regex α) : Matches (.opt r) []
  | optSome {r : Regex α} {u : List α} : Matches r u → Matches (.opt r) u

lemma matches_word (w : List α) : Matches (word w) w := by
  induction w with
  | nil => exact .empty
  | cons a w ih => exact .seq (u := [a]) (.char a) ih

end Regex

end ClickHouse.Lib
