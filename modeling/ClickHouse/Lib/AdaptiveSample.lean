import Mathlib

/-! Adaptive sampling of a finite set of naturals. The sample at degree `d` keeps the elements that
`2 ^ d` divides, and the level of a set is the least degree whose sample has at most `cap`
elements. A sampler takes elements in one at a time and raises its degree while its sample is too
large; `Tracks` is what it knows of the elements to come, and whatever the order in which it takes
them in, it ends at the level of their set with the sample there. -/

namespace ClickHouse.Lib.AdaptiveSample

/-- The elements of `H` that `2 ^ d` divides. -/
def sample (H : Finset ℕ) (d : ℕ) : Finset ℕ := H.filter (2 ^ d ∣ ·)

section Sample

variable {H H' : Finset ℕ} {d d' x : ℕ}

@[simp] lemma mem_sample : x ∈ sample H d ↔ x ∈ H ∧ 2 ^ d ∣ x := Finset.mem_filter

lemma sample_subset : sample H d ⊆ H := Finset.filter_subset _ _

lemma sample_mono (h : H ⊆ H') : sample H d ⊆ sample H' d := Finset.filter_subset_filter _ h

lemma sample_anti (h : d ≤ d') : sample H d' ⊆ sample H d := by
  intro x hx
  rw [mem_sample] at hx ⊢
  exact ⟨hx.1, (pow_dvd_pow 2 h).trans hx.2⟩

lemma sample_sample (h : d ≤ d') : sample (sample H d) d' = sample H d' := by
  ext x
  simp only [mem_sample, and_assoc]
  exact ⟨fun hx => ⟨hx.1, hx.2.2⟩, fun hx => ⟨hx.1, (pow_dvd_pow 2 h).trans hx.2, hx.2⟩⟩

lemma sample_union : sample (H ∪ H') d = sample H d ∪ sample H' d := Finset.filter_union _ _ _

lemma sample_insert_of_dvd (hx : 2 ^ d ∣ x) : sample (insert x H) d = insert x (sample H d) := by
  rw [sample, Finset.filter_insert, if_pos hx]
  rfl

lemma sample_insert_of_not_dvd (hx : ¬ 2 ^ d ∣ x) : sample (insert x H) d = sample H d := by
  rw [sample, Finset.filter_insert, if_neg hx]
  rfl

lemma sample_subset_zero (hH : ∀ x ∈ H, x < 2 ^ d) : sample H d ⊆ {0} := by
  intro x hx
  rw [mem_sample] at hx
  exact Finset.mem_singleton.mpr (Nat.eq_zero_of_dvd_of_lt hx.2 (hH x hx.1))

end Sample

section Level

variable (cap : ℕ) [NeZero cap]

-- Past every element, the sample is at most `{0}`, which any cap holds.
lemma card_sample_le_of_lt_pow {H : Finset ℕ} {b : ℕ} (hH : ∀ x ∈ H, x < 2 ^ b) :
    (sample H b).card ≤ cap :=
  calc (sample H b).card ≤ ({0} : Finset ℕ).card := Finset.card_le_card (sample_subset_zero hH)
    _ ≤ cap := by rw [Finset.card_singleton]; exact Nat.one_le_iff_ne_zero.mpr (NeZero.ne cap)

lemma exists_card_sample_le (H : Finset ℕ) : ∃ d, (sample H d).card ≤ cap := by
  refine ⟨H.sup id + 1, card_sample_le_of_lt_pow cap fun x hx => ?_⟩
  calc x ≤ H.sup id := Finset.le_sup (f := id) hx
    _ < H.sup id + 1 := Nat.lt_succ_self _
    _ < 2 ^ (H.sup id + 1) := Nat.lt_two_pow_self

/-- The least degree whose sample of `H` has at most `cap` elements. -/
def level (H : Finset ℕ) : ℕ := Nat.find (exists_card_sample_le cap H)

variable {cap} {H H' : Finset ℕ} {d b : ℕ}

lemma card_sample_level : (sample H (level cap H)).card ≤ cap := Nat.find_spec (exists_card_sample_le cap H)

lemma level_le (h : (sample H d).card ≤ cap) : level cap H ≤ d := Nat.find_min' _ h

lemma card_sample_le (h : level cap H ≤ d) : (sample H d).card ≤ cap :=
  (Finset.card_le_card (sample_anti h)).trans card_sample_level

lemma lt_level_of_card (h : cap < (sample H d).card) : d < level cap H := by
  by_contra hle
  exact absurd (card_sample_le (not_lt.mp hle)) (not_le.mpr h)

lemma level_mono (h : H ⊆ H') : level cap H ≤ level cap H' :=
  level_le ((Finset.card_le_card (sample_mono h)).trans card_sample_level)

lemma level_le_of_lt_pow (hH : ∀ x ∈ H, x < 2 ^ b) : level cap H ≤ b :=
  level_le (card_sample_le_of_lt_pow cap hH)

end Level

section Tracks

variable (cap : ℕ) [NeZero cap]

/-- A sampler at degree `d` with the sample `S` of the elements `A` it has taken in, out of the
elements `H` it is to take in: its degree has not passed the level of `H`. -/
structure Tracks (H A : Finset ℕ) (d : ℕ) (S : Finset ℕ) : Prop where
  subset : A ⊆ H
  le_level : d ≤ level cap H
  sample_eq : S = sample A d

variable {cap} {H A B : Finset ℕ} {d e : ℕ} {S : Finset ℕ}

lemma tracks_empty (H : Finset ℕ) : Tracks cap H ∅ 0 ∅ :=
  ⟨Finset.empty_subset _, Nat.zero_le _, rfl⟩

lemma Tracks.enlarge {H' : Finset ℕ} (h : Tracks cap H A d S) (hH : H ⊆ H') : Tracks cap H' A d S :=
  ⟨h.subset.trans hH, h.le_level.trans (level_mono hH), h.sample_eq⟩

lemma Tracks.insert (h : Tracks cap H A d S) {x : ℕ} (hx : x ∈ H) :
    Tracks cap H (insert x A) d (if 2 ^ d ∣ x then insert x S else S) := by
  refine ⟨Finset.insert_subset hx h.subset, h.le_level, ?_⟩
  split_ifs with hdvd
  · rw [sample_insert_of_dvd hdvd, h.sample_eq]
  · rw [sample_insert_of_not_dvd hdvd, h.sample_eq]

lemma Tracks.raise (h : Tracks cap H A d S) (hde : d ≤ e) (he : e ≤ level cap H) :
    Tracks cap H A e (sample S e) :=
  ⟨h.subset, he, by rw [h.sample_eq, sample_sample hde]⟩

lemma Tracks.lt_level (h : Tracks cap H A d S) (hS : cap < S.card) : d < level cap H := by
  rw [h.sample_eq] at hS
  exact lt_level_of_card (hS.trans_le (Finset.card_le_card (sample_mono h.subset)))

/-- Elements taken in as another sampler's sample at a degree `e` up to `d` count as that sampler's
elements: the degree `d` drops the same ones. -/
lemma Tracks.of_sample (h : Tracks cap H (A ∪ sample B e) d S) (hB : B ⊆ H) (hed : e ≤ d) :
    Tracks cap H (A ∪ B) d S := by
  refine ⟨Finset.union_subset (Finset.union_subset_left h.subset) hB, h.le_level, ?_⟩
  rw [h.sample_eq, sample_union, sample_union, sample_sample hed]

lemma Tracks.eq_level (h : Tracks cap H H d S) (hS : S.card ≤ cap) : d = level cap H ∧ S = sample H (level cap H) := by
  have hd : d = level cap H := le_antisymm h.le_level (level_le (h.sample_eq ▸ hS))
  exact ⟨hd, hd ▸ h.sample_eq⟩

end Tracks

end ClickHouse.Lib.AdaptiveSample
