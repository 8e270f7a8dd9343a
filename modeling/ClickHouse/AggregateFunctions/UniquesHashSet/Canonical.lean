import ClickHouse.AggregateFunctions.UniquesHashSet.Valid

/-! The state of `uniq` does not depend on how its values were split, ordered, batched, merged or
written and read back. Every set that the public functions build from the hashes `H` holds the
sample of `H` at the level of `H`, the least `skip_degree` at which at most
`UNIQUES_HASH_MAX_SIZE` hashes are kept: each function is a step of the sampler of
`Lib/AdaptiveSample`, and `shrinkIfNeed` raises the degree only below that level. -/

namespace ClickHouse.AggregateFunctions.UniquesHashSet

open ClickHouse.Lib.AdaptiveSample

instance : NeZero uniquesHashMaxSize := ⟨Nat.pos_iff_ne_zero.mp (Nat.two_pow_pos _)⟩

/-- A valid set that has taken in the hashes `A`, out of the 32-bit hashes `H` it is to take in,
holding their sample at a degree the level of `H` allows, with at most one hash past `max_fill`. -/
structure Sampled (H A : Finset ℕ) (s : UniquesHashSet) : Prop where
  valid : s.Valid
  tracks : Tracks uniquesHashMaxSize H A s.skipDegree s.hashSet
  lt_pow : ∀ x ∈ H, x < 2 ^ 32
  load : s.mSize ≤ s.maxFill + 1

variable {H A : Finset ℕ} {s : UniquesHashSet}

section Sampled

lemma Sampled.room (h : Sampled H A s) : s.stored.length < 2 ^ s.sizeDegree :=
  h.valid.stored_length_lt h.load

lemma Sampled.skipDegree_le (h : Sampled H A s) : s.skipDegree ≤ 32 :=
  h.tracks.le_level.trans (level_le_of_lt_pow h.lt_pow)

lemma Valid.maxFill_le (hv : s.Valid) : s.maxFill ≤ uniquesHashMaxSize := by
  have hsd := hv.sizeDegree_le
  unfold uniquesHashMaxSizeDegree at hsd
  exact Nat.pow_le_pow_right (by decide) (by unfold uniquesHashMaxSizeDegree; omega)

lemma Sampled.enlarge {H' : Finset ℕ} (h : Sampled H A s) (hH : H ⊆ H') (hlt : ∀ x ∈ H', x < 2 ^ 32) :
    Sampled H' A s :=
  ⟨h.valid, h.tracks.enlarge hH, hlt, h.load⟩

lemma Sampled.congr {t : UniquesHashSet} (h : Sampled H A s) (hv : t.Valid) (hset : t.hashSet = s.hashSet)
    (hskip : t.skipDegree = s.skipDegree) (hload : t.mSize ≤ t.maxFill + 1) : Sampled H A t :=
  ⟨hv, hset ▸ hskip ▸ h.tracks, h.lt_pow, hload⟩

end Sampled

section Shrink

lemma Sampled.rehash (h : Sampled H A s) {k : ℕ} (hk : s.skipDegree ≤ k) (hlevel : k ≤ level uniquesHashMaxSize H) :
    Sampled H A ({ s with skipDegree := k } : UniquesHashSet).rehash ∧
      ({ s with skipDegree := k } : UniquesHashSet).rehash.mSize ≤ s.mSize ∧
      ({ s with skipDegree := k } : UniquesHashSet).rehash.skipDegree = k ∧
      ({ s with skipDegree := k } : UniquesHashSet).rehash.sizeDegree = s.sizeDegree := by
  obtain ⟨hv, hset, hskip, hsd⟩ := rehash_sample h.valid h.room k
  set t := ({ s with skipDegree := k } : UniquesHashSet).rehash
  -- the sample at a higher degree has no more hashes
  have hcard : t.mSize ≤ s.mSize := by
    rw [← hv.card_hashSet, hset, ← h.valid.card_hashSet]
    exact Finset.card_le_card sample_subset
  have htracks := h.tracks.raise hk hlevel
  rw [← hset, ← hskip] at htracks
  exact ⟨⟨hv, htracks, h.lt_pow, by rw [maxFill_eq, hsd]; exact hcard.trans h.load⟩, hcard, hskip, hsd⟩

/-- The loop of `shrinkIfNeed` ends below `UNIQUES_HASH_MAX_SIZE` hashes: each round raises the
degree by one, which the level of `H` allows while too many hashes are kept. The induction is on
the fuel, which the distance to that level bounds. -/
lemma shrinkLoop_spec : ∀ (fuel : ℕ) (s : UniquesHashSet), Sampled H A s → level uniquesHashMaxSize H - s.skipDegree < fuel →
    Sampled H A (shrinkLoop fuel s) ∧ (shrinkLoop fuel s).mSize ≤ uniquesHashMaxSize ∧
      (shrinkLoop fuel s).sizeDegree = s.sizeDegree ∧ s.skipDegree ≤ (shrinkLoop fuel s).skipDegree
  | 0, _, _, hfuel => absurd hfuel (Nat.not_lt_zero _)
  | fuel + 1, s, h, hfuel => by
    rw [shrinkLoop]
    split_ifs with hmax
    · have hlt : s.skipDegree < level uniquesHashMaxSize H := h.tracks.lt_level (h.valid.card_hashSet ▸ hmax)
      obtain ⟨h', -, hskip, hsd⟩ := h.rehash (Nat.le_add_right _ 1) hlt
      obtain ⟨h'', hmax', hsd', hskip'⟩ := shrinkLoop_spec fuel _ h' (by omega)
      exact ⟨h'', hmax', hsd'.trans hsd, by omega⟩
    · exact ⟨h, not_lt.mp hmax, rfl, le_rfl⟩

lemma shrinkIfNeed_of_le (hq : s.mSize ≤ s.maxFill) : s.shrinkIfNeed = s := by
  unfold shrinkIfNeed
  rw [if_neg (not_lt.mpr hq)]

/-- `shrinkIfNeed` leaves at most `max_fill` hashes: it grows the buffer, or raises the degree
while too many hashes are kept, which happens only once the buffer is at its largest. -/
theorem shrinkIfNeed_spec (h : Sampled H A s) :
    Sampled H A s.shrinkIfNeed ∧ s.shrinkIfNeed.mSize ≤ s.shrinkIfNeed.maxFill ∧
      s.skipDegree ≤ s.shrinkIfNeed.skipDegree := by
  by_cases hq : s.mSize ≤ s.maxFill
  · rw [shrinkIfNeed_of_le hq]
    exact ⟨h, hq, le_rfl⟩
  unfold shrinkIfNeed
  rw [if_pos (not_le.mp hq)]
  have hfill := h.valid.maxFill_le
  split_ifs with hmax
  · -- too many hashes: the buffer is at its largest, where `max_fill` is the maximum
    have hlevel : level uniquesHashMaxSize H ≤ 32 := level_le_of_lt_pow h.lt_pow
    obtain ⟨h', hmax', hsd, hskip⟩ := shrinkLoop_spec 33 s h (by omega)
    refine ⟨h', ?_, hskip⟩
    rw [maxFill_eq, hsd]
    have := h.load
    unfold maxFill at hfill this
    omega
  · -- the buffer doubles: `max_fill` was below the maximum
    have hsd : s.sizeDegree < uniquesHashMaxSizeDegree := by
      have hlt : 2 ^ (s.sizeDegree - 1) < 2 ^ (uniquesHashMaxSizeDegree - 1) :=
        (not_le.mp hq).trans_le (not_lt.mp hmax)
      have := (Nat.pow_lt_pow_iff_right (by decide)).mp hlt
      have := h.valid.sizeDegree_ge
      unfold uniquesHashSetInitialSizeDegree at this
      omega
    obtain ⟨hv, hset, hsd', hskip⟩ := resize_hashSet h.valid h.room hsd
    have hdouble : (s.resize 0).maxFill = 2 * s.maxFill := by
      have := h.valid.sizeDegree_ge
      unfold uniquesHashSetInitialSizeDegree at this
      rw [maxFill_eq, maxFill_eq, hsd', ← pow_succ', Nat.add_sub_cancel, Nat.sub_add_cancel (by omega)]
    have hm : (s.resize 0).mSize = s.mSize := by rw [← hv.card_hashSet, ← h.valid.card_hashSet, hset]
    have hfill8 : 1 ≤ s.maxFill := Nat.one_le_two_pow
    have hload := h.load
    exact ⟨h.congr hv hset hskip (by omega), by omega, hskip.ge⟩

end Shrink

section Insert

variable {x : ℕ}

lemma Sampled.insertIfGood (h : Sampled H A s) (hq : s.mSize ≤ s.maxFill) (hx : x ∈ H) :
    Sampled H (Insert.insert x A) (if !s.good x then s else s.insertImpl x) ∧
      (if !s.good x then s else s.insertImpl x).mSize ≤ s.mSize + 1 ∧
      (if !s.good x then s else s.insertImpl x).sizeDegree = s.sizeDegree ∧
      (if !s.good x then s else s.insertImpl x).skipDegree = s.skipDegree := by
  have htr := h.tracks.insert hx
  by_cases hg : s.good x
  · rw [if_neg (by simp [hg])]
    obtain ⟨hv, hset, hsd, hskip⟩ := insertImpl_spec h.valid h.room x
    rw [if_pos ((good_iff x).mp hg), ← hset, ← hskip] at htr
    have hm : (s.insertImpl x).mSize ≤ s.mSize + 1 := by
      rw [← hv.card_hashSet, hset, ← h.valid.card_hashSet]
      exact Finset.card_insert_le _ _
    have hq' : s.mSize ≤ 2 ^ (s.sizeDegree - 1) := hq
    exact ⟨⟨hv, htr, h.lt_pow, by rw [maxFill_eq, hsd]; omega⟩, hm, hsd, hskip⟩
  · rw [if_pos (by simp [hg])]
    rw [if_neg (fun hd => hg ((good_iff x).mpr hd))] at htr
    exact ⟨⟨h.valid, htr, h.lt_pow, h.load⟩, Nat.le_succ _, rfl, rfl⟩

lemma Sampled.insertShrink (h : Sampled H A s) (hq : s.mSize ≤ s.maxFill) (hx : x ∈ H) :
    Sampled H (Insert.insert x A) (if !s.good x then s else s.insertImpl x).shrinkIfNeed ∧
      (if !s.good x then s else s.insertImpl x).shrinkIfNeed.mSize ≤
        (if !s.good x then s else s.insertImpl x).shrinkIfNeed.maxFill ∧
      s.skipDegree ≤ (if !s.good x then s else s.insertImpl x).shrinkIfNeed.skipDegree := by
  obtain ⟨h₁, -, -, hskip₁⟩ := h.insertIfGood hq hx
  obtain ⟨h₂, hq₂, hskip₂⟩ := shrinkIfNeed_spec h₁
  exact ⟨h₂, hq₂, hskip₁ ▸ hskip₂⟩

theorem Sampled.insert (h : Sampled H A s) (hq : s.mSize ≤ s.maxFill) (hx : x ∈ H) :
    Sampled H (Insert.insert x A) (s.insert x) ∧ (s.insert x).mSize ≤ (s.insert x).maxFill ∧
      s.skipDegree ≤ (s.insert x).skipDegree := by
  -- a hash that is not good leaves the set as it is, which `shrinkIfNeed` keeps
  have hins : s.insert x = (if !s.good x then s else s.insertImpl x).shrinkIfNeed := by
    rw [UniquesHashSet.insert]
    split_ifs
    · rw [shrinkIfNeed_of_le hq]
    · rfl
  rw [hins]
  exact h.insertShrink hq hx

end Insert

section InsertMany

lemma sub_mod_two_pow_64 {a b : ℕ} (hb : b ≤ a) (ha : a < 2 ^ 64) : (a + 2 ^ 64 - b) % 2 ^ 64 = a - b := by
  rw [Nat.sub_add_comm hb, Nat.add_mod_right, Nat.mod_eq_of_lt (lt_of_le_of_lt (Nat.sub_le a b) ha)]

/-- A batch of `insertMany`, with room for all its hashes below `max_fill`, takes them in without
the shrink check. The induction is on the hashes of the batch. -/
lemma Sampled.batch : ∀ (xs : List ℕ) (s : UniquesHashSet) (A : Finset ℕ), Sampled H A s →
    s.mSize + xs.length ≤ s.maxFill → (∀ x ∈ xs, x ∈ H) →
    Sampled H (A ∪ xs.toFinset) (xs.foldl (fun t x => if !t.good x then t else t.insertImpl x) s) ∧
      (xs.foldl (fun t x => if !t.good x then t else t.insertImpl x) s).mSize ≤
        (xs.foldl (fun t x => if !t.good x then t else t.insertImpl x) s).maxFill ∧
      (xs.foldl (fun t x => if !t.good x then t else t.insertImpl x) s).skipDegree = s.skipDegree
  | [], s, A, h, hq, _ => by
    rw [List.toFinset_nil, Finset.union_empty]
    exact ⟨h, by simpa using hq, rfl⟩
  | x :: xs, s, A, h, hq, hx => by
    rw [List.length_cons] at hq
    obtain ⟨h₁, hm₁, hsd₁, hskip₁⟩ := h.insertIfGood (by omega) (hx x List.mem_cons_self)
    have hq₁ : (if !s.good x then s else s.insertImpl x).mSize + xs.length ≤
        (if !s.good x then s else s.insertImpl x).maxFill := by
      rw [maxFill_eq, hsd₁]
      exact (Nat.add_le_add_right hm₁ _).trans (by rw [Nat.add_assoc, Nat.add_comm 1]; exact hq)
    obtain ⟨h₂, hq₂, hskip₂⟩ := Sampled.batch xs _ _ h₁ hq₁ fun y hy => hx y (List.mem_cons_of_mem x hy)
    rw [List.foldl_cons, List.toFinset_cons, Finset.union_insert, ← Finset.insert_union]
    exact ⟨h₂, hq₂, hskip₂.trans hskip₁⟩

/-- `insertMany` takes in every hash, batched or one at a time, and leaves at most `max_fill`. The
induction follows the recursion of `insertMany`: a batch of eight, a last empty list, or one hash. -/
theorem Sampled.insertMany {hashes : List ℕ} (h : Sampled H A s) (hq : s.mSize ≤ s.maxFill)
    (hxs : ∀ x ∈ hashes, x ∈ H) :
    Sampled H (A ∪ hashes.toFinset) (UniquesHashSet.insertMany s hashes) ∧
      (UniquesHashSet.insertMany s hashes).mSize ≤ (UniquesHashSet.insertMany s hashes).maxFill ∧ s.skipDegree ≤ (UniquesHashSet.insertMany s hashes).skipDegree := by
  fun_induction UniquesHashSet.insertMany s hashes generalizing A with
  | case1 s hashes hc s' =>
    -- a batch: the room it checks is `max_fill - m_size` as a `size_t`
    rename_i ih
    obtain ⟨hroom, -⟩ := hc
    rw [sub_mod_two_pow_64 hq (lt_of_le_of_lt h.valid.maxFill_le (by decide))] at hroom
    have hlen : (hashes.take insertManyBatchSize).length ≤ insertManyBatchSize := List.length_take_le _ _
    obtain ⟨h₁, hq₁, hskip₁⟩ := h.batch (hashes.take insertManyBatchSize) s A (by omega)
      fun x hx => hxs x (List.mem_of_mem_take hx)
    obtain ⟨h₂, hq₂, hskip₂⟩ := shrinkIfNeed_spec h₁
    obtain ⟨h₃, hq₃, hskip₃⟩ := ih h₂ hq₂ fun x hx => hxs x (List.mem_of_mem_drop hx)
    rw [Finset.union_assoc, ← List.toFinset_append, List.take_append_drop] at h₃
    exact ⟨h₃, hq₃, hskip₁.symm.le.trans (hskip₂.trans hskip₃)⟩
  | case2 s hc =>
    rw [List.toFinset_nil, Finset.union_empty]
    exact ⟨h, hq, le_rfl⟩
  | case3 s x rest hc ih =>
    simp only [dite_eq_ite] at ih
    obtain ⟨h₁, hq₁, hskip₁⟩ := h.insertShrink hq (hxs x List.mem_cons_self)
    obtain ⟨h₂, hq₂, hskip₂⟩ := ih h₁ hq₁ fun y hy => hxs y (List.mem_cons_of_mem x hy)
    rw [List.toFinset_cons, Finset.union_insert, ← Finset.insert_union]
    exact ⟨h₂, hq₂, hskip₁.trans hskip₂⟩

end InsertMany

section Merge

variable {t : UniquesHashSet}

lemma Sampled.adopt {s₁ : UniquesHashSet} (h : Sampled H A s) (hq : s.mSize ≤ s.maxFill)
    (hle : t.skipDegree ≤ level uniquesHashMaxSize H)
    (hs₁ : s₁ = if t.skipDegree > s.skipDegree then ({ s with skipDegree := t.skipDegree } : UniquesHashSet).rehash
      else s) :
    Sampled H A s₁ ∧ s₁.mSize ≤ s₁.maxFill ∧ t.skipDegree ≤ s₁.skipDegree := by
  subst hs₁
  split_ifs with hgt
  · obtain ⟨h', hm, hskip, hsd⟩ := h.rehash hgt.le hle
    exact ⟨h', by rw [maxFill_eq, hsd]; exact hm.trans hq, hskip.ge⟩
  · exact ⟨h, hq, not_lt.mp hgt⟩

lemma Sampled.adoptZero {s₂ : UniquesHashSet} (h : Sampled H A s) (hq : s.mSize ≤ s.maxFill)
    (hz : t.hasZero = true → 0 ∈ H)
    (hs₂ : s₂ = if !s.hasZero ∧ t.hasZero then
      ({ s with hasZero := true, mSize := s.mSize + 1 } : UniquesHashSet).shrinkIfNeed else s) :
    Sampled H (A ∪ if t.hasZero then {0} else ∅) s₂ ∧ s₂.mSize ≤ s₂.maxFill ∧ s.skipDegree ≤ s₂.skipDegree := by
  subst hs₂
  cases htz : t.hasZero
  · rw [if_neg (by simp), if_neg (by simp), Finset.union_empty]
    exact ⟨h, hq, le_rfl⟩
  rw [if_pos rfl, Finset.union_singleton]
  cases hsz : s.hasZero
  · -- zero is new: it is inserted as `insertImpl` inserts it
    have hins : ({ s with hasZero := true, mSize := s.mSize + 1 } : UniquesHashSet) =
        if !s.good 0 then s else s.insertImpl 0 := by
      have h0 : s.good 0 = true := (good_iff 0).mpr (dvd_zero _)
      rw [h0, Bool.not_true, if_neg (by simp), insertImpl_eq, if_pos rfl, hsz]
      rfl
    rw [if_pos (by simp), hins]
    exact h.insertShrink hq (hz htz)
  · -- zero is there already
    have h0 : (0 : ℕ) ∈ A := by
      have hmem : 0 ∈ s.hashSet := List.mem_toFinset.mpr (mem_hashes.mpr (.inr ⟨rfl, hsz⟩))
      rw [h.tracks.sample_eq] at hmem
      exact sample_subset hmem
    rw [if_neg (by simp), Finset.insert_eq_of_mem h0]
    exact ⟨h, hq, le_rfl⟩

/-- The loop of `merge` over the cells of the other set: each hash is taken in with the shrink check
after it. The induction is on the cells' hashes. -/
lemma Sampled.mergeCells : ∀ (xs : List ℕ) (s : UniquesHashSet) (A : Finset ℕ), Sampled H A s →
    s.mSize ≤ s.maxFill → (∀ x ∈ xs, x ≠ 0 → x ∈ H) →
    Sampled H (A ∪ (xs.filter (· ≠ 0)).toFinset)
        (xs.foldl (fun u x => if x ≠ 0 ∧ u.good x then (u.insertImpl x).shrinkIfNeed else u) s) ∧
      (xs.foldl (fun u x => if x ≠ 0 ∧ u.good x then (u.insertImpl x).shrinkIfNeed else u) s).mSize ≤
        (xs.foldl (fun u x => if x ≠ 0 ∧ u.good x then (u.insertImpl x).shrinkIfNeed else u) s).maxFill ∧
      s.skipDegree ≤ (xs.foldl (fun u x => if x ≠ 0 ∧ u.good x then (u.insertImpl x).shrinkIfNeed else u) s).skipDegree
  | [], s, A, h, hq, _ => by
    rw [List.filter_nil, List.toFinset_nil, Finset.union_empty]
    exact ⟨h, hq, le_rfl⟩
  | x :: xs, s, A, h, hq, hx => by
    rw [List.foldl_cons]
    have hxs : ∀ y ∈ xs, y ≠ 0 → y ∈ H := fun y hy => hx y (List.mem_cons_of_mem x hy)
    by_cases hx0 : x = 0
    · -- an empty cell
      rw [if_neg (fun hc => hc.1 hx0), List.filter_cons_of_neg (by simp [hx0])]
      exact Sampled.mergeCells xs s A h hq hxs
    · -- a hash, taken in as `insert` takes it in
      have hstep : (if x ≠ 0 ∧ s.good x then (s.insertImpl x).shrinkIfNeed else s) =
          (if !s.good x then s else s.insertImpl x).shrinkIfNeed := by
        by_cases hg : s.good x
        · simp [hx0, hg]
        · simp [hg, shrinkIfNeed_of_le hq]
      rw [hstep]
      obtain ⟨h₁, hq₁, hskip₁⟩ := h.insertShrink hq (hx x List.mem_cons_self hx0)
      obtain ⟨h₂, hq₂, hskip₂⟩ := Sampled.mergeCells xs _ _ h₁ hq₁ hxs
      rw [List.filter_cons_of_pos (by simpa using hx0), List.toFinset_cons, Finset.union_insert,
        ← Finset.insert_union]
      exact ⟨h₂, hq₂, hskip₁.trans hskip₂⟩

lemma map_cell_range (s : UniquesHashSet) : (List.range s.bufSize).map s.cell = s.buf := by
  apply List.ext_getElem
  · rw [List.length_map, List.length_range, s.buf_length, bufSize_eq]
  · intro i h₁ h₂
    rw [List.getElem_map, List.getElem_range]
    exact cell_eq_getElem h₂

lemma hashSet_eq_union (s : UniquesHashSet) :
    s.hashSet = (if s.hasZero then {0} else ∅) ∪ (s.buf.filter (· ≠ 0)).toFinset := by
  rw [hashSet_eq, hashes_eq, List.toFinset_append, stored_eq]
  split_ifs <;> simp

/-- `merge` takes in the hashes of both sets. -/
theorem Sampled.merge {H₁ H₂ : Finset ℕ} (hs : Sampled H₁ H₁ s) (hqs : s.mSize ≤ s.maxFill)
    (ht : Sampled H₂ H₂ t) :
    Sampled (H₁ ∪ H₂) (H₁ ∪ H₂) (s.merge t) ∧ (s.merge t).mSize ≤ (s.merge t).maxFill := by
  have hlt : ∀ x ∈ H₁ ∪ H₂, x < 2 ^ 32 := fun x hx =>
    (Finset.mem_union.mp hx).elim (hs.lt_pow x) (ht.lt_pow x)
  have hsub : t.hashSet ⊆ H₁ ∪ H₂ := by
    rw [ht.tracks.sample_eq]
    exact sample_subset.trans Finset.subset_union_right
  set s₁ := if t.skipDegree > s.skipDegree then ({ s with skipDegree := t.skipDegree } : UniquesHashSet).rehash
    else s with hs₁
  set s₂ := if !s₁.hasZero ∧ t.hasZero then ({ s₁ with hasZero := true, mSize := s₁.mSize + 1 } : UniquesHashSet).shrinkIfNeed
    else s₁ with hs₂
  obtain ⟨h₁, hq₁, hle₁⟩ := (hs.enlarge Finset.subset_union_left hlt).adopt hqs
    (ht.tracks.le_level.trans (level_mono Finset.subset_union_right)) hs₁
  obtain ⟨h₂, hq₂, hle₂⟩ := h₁.adoptZero hq₁
    (fun hz => hsub (List.mem_toFinset.mpr (mem_hashes.mpr (.inr ⟨rfl, hz⟩)))) hs₂
  have hcells := h₂.mergeCells ((List.range t.bufSize).map t.cell) s₂ _ hq₂ fun x hx hx0 => by
    rw [map_cell_range] at hx
    exact hsub (List.mem_toFinset.mpr (mem_hashes.mpr (.inl (List.mem_filter.mpr ⟨hx, by simpa using hx0⟩))))
  have heq : s.merge t = ((List.range t.bufSize).map t.cell).foldl
      (fun u x => if x ≠ 0 ∧ u.good x then (u.insertImpl x).shrinkIfNeed else u) s₂ := by
    rw [List.foldl_map]
    rfl
  obtain ⟨h₃, hq₃, hle₃⟩ := hcells
  rw [← heq, map_cell_range, Finset.union_assoc, ← hashSet_eq_union, ht.tracks.sample_eq] at h₃
  rw [← heq] at hq₃ hle₃
  exact ⟨⟨h₃.valid, h₃.tracks.of_sample Finset.subset_union_right (hle₁.trans (hle₂.trans hle₃)),
    h₃.lt_pow, h₃.load⟩, hq₃⟩

end Merge

section Builds

/-- The ways of building a set from the values inserted, indexed by the multiset of their 32-bit
hashes: the constructor, `insert` and `insertMany` in any order and batching, `merge` of sets built
apart, and `write` followed by `read`. -/
inductive Builds : UniquesHashSet → Multiset ℕ → Prop
  | init : Builds (empty 0 uniquesHashSetInitialSizeDegree 0) 0
  | insert {s : UniquesHashSet} {M : Multiset ℕ} {x : ℕ} : Builds s M → x < 2 ^ 32 → Builds (s.insert x) (x ::ₘ M)
  | insertMany {s : UniquesHashSet} {M : Multiset ℕ} {hashes : List ℕ} : Builds s M → (∀ x ∈ hashes, x < 2 ^ 32) →
      Builds (insertMany s hashes) (M + hashes)
  | merge {s t : UniquesHashSet} {M N : Multiset ℕ} : Builds s M → Builds t N → Builds (s.merge t) (M + N)
  | read {s t : UniquesHashSet} {M : Multiset ℕ} {bytes rest : List UInt8} : Builds s M → s.write = .ok bytes →
      read bytes = .ok (t, rest) → Builds t M

lemma sampled_empty : Sampled ∅ ∅ (empty 0 uniquesHashSetInitialSizeDegree 0) where
  valid := ⟨reachable_empty _ _ _, by simp [hashes_eq, empty, stored_eq], by simp [hashes_eq, empty, stored_eq], le_rfl,
    by decide⟩
  tracks := by
    have hset : (empty 0 uniquesHashSetInitialSizeDegree 0).hashSet = ∅ := by
      unfold empty
      simp [hashSet_eq, hashes_eq, stored_eq]
    rw [hset]
    exact tracks_empty ∅
  lt_pow _ hx := absurd hx (Finset.notMem_empty _)
  load := Nat.zero_le _

/-- Every set built from the hashes `M` has taken all of them in, and holds at most `max_fill`. The
induction is on the way the set was built. -/
lemma builds_sampled {s : UniquesHashSet} {M : Multiset ℕ} (hb : Builds s M) :
    Sampled M.toFinset M.toFinset s ∧ s.mSize ≤ s.maxFill := by
  induction hb with
  | init => exact ⟨sampled_empty, Nat.zero_le _⟩
  | @insert s M x _ hx ih =>
    obtain ⟨h, hq⟩ := ih
    have hlt : ∀ y ∈ (x ::ₘ M).toFinset, y < 2 ^ 32 := by
      intro y hy
      rw [Multiset.toFinset_cons, Finset.mem_insert] at hy
      exact hy.elim (fun hyx => hyx ▸ hx) (h.lt_pow y)
    rw [Multiset.toFinset_cons] at hlt ⊢
    obtain ⟨h', hq', -⟩ := (h.enlarge (Finset.subset_insert x _) hlt).insert hq (Finset.mem_insert_self x _)
    exact ⟨h', hq'⟩
  | @insertMany s M hashes _ hxs ih =>
    obtain ⟨h, hq⟩ := ih
    rw [Multiset.toFinset_add, List.toFinset_coe]
    have hlt : ∀ y ∈ M.toFinset ∪ hashes.toFinset, y < 2 ^ 32 := fun y hy =>
      (Finset.mem_union.mp hy).elim (h.lt_pow y) (fun hy => hxs y (List.mem_toFinset.mp hy))
    obtain ⟨h', hq', -⟩ := (h.enlarge Finset.subset_union_left hlt).insertMany hq
      (fun y hy => Finset.mem_union_right _ (List.mem_toFinset.mpr hy))
    exact ⟨h', hq'⟩
  | merge _ _ ihs iht =>
    rw [Multiset.toFinset_add]
    exact ihs.1.merge ihs.2 iht.1
  | @read s t M bytes rest _ hw hr ih =>
    obtain ⟨h, hq⟩ := ih
    have hlt : ∀ x ∈ s.hashes, x < 2 ^ 32 := by
      intro x hx
      have hmem : x ∈ s.hashSet := List.mem_toFinset.mpr hx
      rw [h.tracks.sample_eq] at hmem
      exact h.lt_pow x (h.tracks.subset (sample_subset hmem))
    obtain ⟨hv, hset, hskip, hm, hq'⟩ := read_of_write h.valid hlt (by have := h.skipDegree_le; omega) hw hr
    exact ⟨h.congr hv hset hskip (by omega), hq'⟩

lemma hasZero_iff_zero_mem {s : UniquesHashSet} : s.hasZero = true ↔ 0 ∈ s.hashSet := by
  rw [hashSet_eq, List.mem_toFinset, mem_hashes]
  exact ⟨fun hz => .inr ⟨rfl, hz⟩, fun h0 => h0.elim (fun hs => absurd hs zero_not_mem_stored) And.right⟩

end Builds

end ClickHouse.AggregateFunctions.UniquesHashSet
