import Mathlib

/-! The first position of a list where a test of the list from there on holds, or the length of
the list when there is none: what a substring search returns, as an offset. -/

namespace ClickHouse.Lib

variable {α : Type} (p : List α → Bool)

def firstMatch : List α → ℕ
  | [] => 0
  | a :: as => if p (a :: as) then 0 else firstMatch as + 1

variable {p}

@[simp] lemma firstMatch_nil : firstMatch p ([] : List α) = 0 := rfl

/-- The step of the search; proofs go through this lemma and not the equations of `firstMatch`. -/
lemma firstMatch_cons (a : α) (as : List α) :
    firstMatch p (a :: as) = if p (a :: as) then 0 else firstMatch p as + 1 := rfl

lemma firstMatch_le_length (l : List α) : firstMatch p l ≤ l.length := by
  induction l with
  | nil => exact Nat.le_refl 0
  | cons a as ih =>
    rw [firstMatch_cons]
    split_ifs
    · exact Nat.zero_le _
    · rw [List.length_cons]
      omega

/-- Before the first match the test fails. -/
lemma not_of_lt_firstMatch {l : List α} {k : ℕ} (hk : k < firstMatch p l) : p (l.drop k) = false := by
  induction l generalizing k with
  | nil => exact absurd hk (Nat.not_lt_zero k)
  | cons a as ih =>
    rw [firstMatch_cons] at hk
    split_ifs at hk with hp
    · exact absurd hk (Nat.not_lt_zero k)
    · cases k with
      | zero => simpa using hp
      | succ k => exact ih (by omega)

lemma firstMatch_spec {l : List α} (h : firstMatch p l < l.length) : p (l.drop (firstMatch p l)) = true := by
  induction l with
  | nil => exact absurd h (Nat.lt_irrefl 0)
  | cons a as ih =>
    rw [firstMatch_cons] at h ⊢
    split_ifs at h ⊢ with hp
    · exact hp
    · rw [List.length_cons] at h
      exact ih (by omega)

lemma firstMatch_le_of {l : List α} {k : ℕ} (hp : p (l.drop k) = true) : firstMatch p l ≤ k := by
  by_contra hlt
  rw [not_of_lt_firstMatch (Nat.lt_of_not_le hlt)] at hp
  exact Bool.false_ne_true hp

/-- Where the test fails at each of the first `k` positions, the search goes on from position `k`. -/
lemma firstMatch_drop {l : List α} {k : ℕ} (hk : k ≤ l.length) (hbefore : ∀ j < k, p (l.drop j) = false) :
    firstMatch p l = k + firstMatch p (l.drop k) := by
  induction l generalizing k with
  | nil =>
    rw [List.length_nil, Nat.le_zero] at hk
    subst hk
    rfl
  | cons a as ih =>
    cases k with
    | zero => rw [Nat.zero_add, List.drop_zero]
    | succ k =>
      have hhead : p (a :: as) = false := hbefore 0 (Nat.succ_pos k)
      rw [firstMatch_cons, if_neg (by rw [hhead]; exact Bool.false_ne_true), List.drop_succ_cons,
        @ih k (by rw [List.length_cons] at hk; omega) (fun j hj => hbefore (j + 1) (by omega))]
      omega

end ClickHouse.Lib
