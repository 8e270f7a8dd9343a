import Mathlib.Data.List.Basic

/-! Folds that keep a summary of the elements seen so far: a running minimum and maximum, and a
running greatest common divisor that stops at `1`. -/

namespace ClickHouse.Lib.Folds

section MinMax

variable {α : Type} (lt : α → α → Bool)

/-- A running minimum and maximum under a strict order bounds, from below and from above, every
element seen, including those seen before the fold started. -/
lemma foldl_minMax_bounds (htrans : ∀ a b c, lt a b = true → lt b c = true → lt a c = true)
    (hirr : ∀ a, lt a a = false) (l : List α) (init : α × α) (seen : List α)
    (hinit : ∀ v ∈ seen, lt v init.1 = false ∧ lt init.2 v = false) :
    ∀ v ∈ seen ++ l,
      lt v (l.foldl (fun m x => (if lt x m.1 then x else m.1, if lt m.2 x then x else m.2)) init).1 =
          false ∧
        lt (l.foldl (fun m x => (if lt x m.1 then x else m.1, if lt m.2 x then x else m.2)) init).2 v =
          false := by
  induction l generalizing init seen with
  | nil => simpa using hinit
  | cons x l ih =>
    rw [List.foldl_cons, ← List.singleton_append, ← List.append_assoc]
    apply ih
    intro v hv
    rcases List.mem_append.mp hv with hseen | hx
    · -- an element seen before stays bounded: the new bound is at least as tight
      obtain ⟨hlo, hhi⟩ := hinit v hseen
      dsimp only
      constructor
      · split_ifs with h
        · cases hvx : lt v x
          · rfl
          · rw [htrans v x init.1 hvx h] at hlo
            cases hlo
        · exact hlo
      · split_ifs with h
        · cases hxv : lt x v
          · rfl
          · rw [htrans init.2 x v h hxv] at hhi
            cases hhi
        · exact hhi
    · rw [List.mem_singleton.mp hx]
      dsimp only
      constructor
      · split_ifs with h
        · exact hirr x
        · exact Bool.eq_false_iff.mpr h
      · split_ifs with h
        · exact hirr x
        · exact Bool.eq_false_iff.mpr h

end MinMax

section Gcd

/-- `gcd` folded from the left, stopping once it reaches `1`. -/
def gcdUntilOne : ℕ → List ℕ → ℕ
  | g, [] => g
  | g, v :: vs => if g = 1 then g else gcdUntilOne (Nat.gcd g v) vs

/-- Stopping early loses nothing: the result still divides the start and every element. -/
lemma gcdUntilOne_dvd (g : ℕ) (l : List ℕ) :
    gcdUntilOne g l ∣ g ∧ ∀ v ∈ l, gcdUntilOne g l ∣ v := by
  induction l generalizing g with
  | nil => simp [gcdUntilOne]
  | cons v vs ih =>
    rw [gcdUntilOne]
    split_ifs with h
    · rw [h]
      exact ⟨Nat.dvd_refl 1, fun u _ => Nat.one_dvd u⟩
    · obtain ⟨hg, hvs⟩ := ih (Nat.gcd g v)
      refine ⟨Nat.dvd_trans hg (Nat.gcd_dvd_left g v), fun u hu => ?_⟩
      rcases List.mem_cons.mp hu with rfl | hu
      · exact Nat.dvd_trans hg (Nat.gcd_dvd_right g u)
      · exact hvs u hu

end Gcd

end ClickHouse.Lib.Folds
