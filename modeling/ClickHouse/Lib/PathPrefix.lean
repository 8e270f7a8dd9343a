import Mathlib.Data.List.Basic

/-! Hierarchical names: a name lies below another when it is that name, or that name followed by a
separator and more. Two names that lie below a common one are ancestors of each other, one way or
the other; this is what makes a tree of names a tree. -/

namespace ClickHouse.Lib.PathPrefix

variable {α : Type} (sep : α)

/-- `q` is `p`, or `p` followed by `sep` starts `q`. -/
def Below (q p : List α) : Prop :=
  q = p ∨ ∃ r, q = p ++ sep :: r

variable {sep}

lemma below_refl (p : List α) : Below sep p p :=
  .inl rfl

lemma below_append_sep (p r : List α) : Below sep (p ++ sep :: r) p :=
  .inr ⟨r, rfl⟩

lemma Below.trans {q p k : List α} (hqp : Below sep q p) (hpk : Below sep p k) : Below sep q k := by
  rcases hqp with rfl | ⟨r, rfl⟩
  · exact hpk
  · rcases hpk with rfl | ⟨r', rfl⟩
    · exact below_append_sep _ r
    · exact .inr ⟨r' ++ sep :: r, by simp⟩

/-- `k` is `p` followed by a start of a list that is empty or starts with the separator. -/
private lemma below_of_append_eq {p k s s' t : List α} (hs : s = [] ∨ ∃ r, s = sep :: r)
    (h : k = p ++ t) (hts : s = t ++ s') : Below sep k p := by
  cases t with
  | nil => exact .inl (by simpa using h)
  | cons c t =>
    rcases hs with rfl | ⟨r, rfl⟩
    · cases hts
    · obtain ⟨rfl, -⟩ := List.cons.inj hts
      exact .inr ⟨t, h⟩

/-- Two names that a common name lies below are comparable. -/
lemma Below.total {q p k : List α} (hp : Below sep q p) (hk : Below sep q k) :
    Below sep p k ∨ Below sep k p := by
  obtain ⟨s, hq, hs⟩ : ∃ s, q = p ++ s ∧ (s = [] ∨ ∃ r, s = sep :: r) := by
    rcases hp with rfl | ⟨r, rfl⟩
    · exact ⟨[], by simp, .inl rfl⟩
    · exact ⟨sep :: r, rfl, .inr ⟨r, rfl⟩⟩
  obtain ⟨s', hq', hs'⟩ : ∃ s', q = k ++ s' ∧ (s' = [] ∨ ∃ r, s' = sep :: r) := by
    rcases hk with rfl | ⟨r, rfl⟩
    · exact ⟨[], by simp, .inl rfl⟩
    · exact ⟨sep :: r, rfl, .inr ⟨r, rfl⟩⟩
  rcases List.append_eq_append_iff.mp (hq.symm.trans hq') with ⟨t, hk', hst⟩ | ⟨t, hp', hst⟩
  · exact .inr (below_of_append_eq hs hk' hst)
  · exact .inl (below_of_append_eq hs' hp' hst)

/-- The only names strictly above `sep :: k` are the empty one, when `k` has no separator. -/
lemma eq_nil_of_below {k p : List α} (hsep : sep ∉ k) (h : Below sep (sep :: k) p) :
    p = [] ∨ p = sep :: k := by
  rcases h with h | ⟨r, h⟩
  · exact .inr h.symm
  · cases p with
    | nil => exact .inl rfl
    | cons c p =>
      have hk : k = p ++ sep :: r := (List.cons.inj h).2
      exact absurd (hk ▸ List.mem_append_right p List.mem_cons_self) hsep

end ClickHouse.Lib.PathPrefix
