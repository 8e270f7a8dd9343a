import Mathlib.Algebra.Group.Basic
import Mathlib.Tactic.Lemma

/-! Successive differences of a sequence in a commutative group and their running sums, which
undo them. Over `BitVec n` the group operations wrap modulo `2 ^ n`. -/

namespace ClickHouse.Lib.Differences

variable {G : Type} [AddCommGroup G]

def differences : G → List G → List G
  | _, [] => []
  | prev, x :: xs => (x - prev) :: differences x xs

def accumulate : G → List G → List G
  | _, [] => []
  | acc, d :: ds => (acc + d) :: accumulate (acc + d) ds

@[simp] lemma differences_nil (prev : G) : differences prev [] = [] := rfl

@[simp] lemma differences_cons (prev x : G) (xs : List G) :
    differences prev (x :: xs) = (x - prev) :: differences x xs := rfl

@[simp] lemma accumulate_nil (acc : G) : accumulate acc [] = [] := rfl

@[simp] lemma accumulate_cons (acc d : G) (ds : List G) :
    accumulate acc (d :: ds) = (acc + d) :: accumulate (acc + d) ds := rfl

@[simp] lemma length_differences (prev : G) (xs : List G) : (differences prev xs).length = xs.length := by
  induction xs generalizing prev with
  | nil => rfl
  | cons x xs ih => simp [ih]

@[simp] lemma length_accumulate (acc : G) (ds : List G) : (accumulate acc ds).length = ds.length := by
  induction ds generalizing acc with
  | nil => rfl
  | cons d ds ih => simp [ih]

lemma accumulate_differences (prev : G) (xs : List G) :
    accumulate prev (differences prev xs) = xs := by
  induction xs generalizing prev with
  | nil => rfl
  | cons x xs ih => simp [ih]

lemma differences_accumulate (acc : G) (ds : List G) :
    differences acc (accumulate acc ds) = ds := by
  induction ds generalizing acc with
  | nil => rfl
  | cons d ds ih => simp [ih]

end ClickHouse.Lib.Differences
