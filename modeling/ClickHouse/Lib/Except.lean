import Mathlib.Tactic.Lemma
/-! Evaluation and inversion of `Except` binds, for programs written in `do` notation. -/

namespace ClickHouse.Lib

variable {ε α β : Type}

@[simp] lemma ok_bind (a : α) (f : α → Except ε β) : (Except.ok a >>= f) = f a := rfl

@[simp] lemma error_bind (e : ε) (f : α → Except ε β) : (Except.error e >>= f) = .error e := rfl

lemma bind_eq_ok {x : Except ε α} {f : α → Except ε β} {b : β} :
    (x >>= f) = .ok b ↔ ∃ a, x = .ok a ∧ f a = .ok b := by
  cases x with
  | error e => simp
  | ok a => simp

lemma bind_eq_error {x : Except ε α} {f : α → Except ε β} {e : ε} :
    (x >>= f) = .error e ↔ x = .error e ∨ ∃ a, x = .ok a ∧ f a = .error e := by
  cases x with
  | error e' => simp
  | ok a => simp

lemma map_eq_ok {x : Except ε α} {f : α → β} {b : β} : x.map f = .ok b ↔ ∃ a, x = .ok a ∧ f a = b := by
  cases x with
  | error e => simp [Except.map]
  | ok a => simp [Except.map]

lemma map_eq_error {x : Except ε α} {f : α → β} {e : ε} : x.map f = .error e ↔ x = .error e := by
  cases x with
  | error e' => simp [Except.map]
  | ok a => simp [Except.map]

/-- A monadic fold over the first `n + 1` items is one more step after the fold over the first `n`. -/
lemma foldlM_take_add_one (f : β → α → Except ε β) (b : β) {l : List α} {n : Nat} (hn : n < l.length) :
    (l.take (n + 1)).foldlM f b = (l.take n).foldlM f b >>= fun x => f x l[n] := by
  rw [List.take_add_one, List.getElem?_eq_getElem hn, Option.toList_some, List.foldlM_append]
  simp

end ClickHouse.Lib
