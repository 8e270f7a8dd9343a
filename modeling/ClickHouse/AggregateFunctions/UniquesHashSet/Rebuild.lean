import ClickHouse.AggregateFunctions.UniquesHashSet.Cells

/-! `rehash` and `resize` rebuild the buffer in place. Both keep it well formed: every stored hash
is found by a probe from its place through taken cells. `rehash` keeps the good hashes and counts
the others out of `m_size`; `resize` keeps every hash. -/

namespace ClickHouse.AggregateFunctions.UniquesHashSet

open ClickHouse.Lib.ProbeRebuild Function

variable (s : UniquesHashSet)

/-- Every stored hash is found by the probe of `insertImpl` from its place. -/
def Reachable : Prop := WellFormed s.bufSize s.place s.cell

variable {s}

lemma Reachable.of_sameHeader {t : UniquesHashSet} (h : SameHeader s t)
    (hwf : WellFormed s.bufSize s.place t.cell) : t.Reachable := by
  rw [Reachable, h.bufSize, h.place]
  exact hwf

section Rehash

variable {z : ℕ}

/-- What the first pass of `rehash` has done before cell `k`, cut at the free cell `z` of `s`: the
dropped hashes `D` are counted out of `m_size`, and every hash left below `k` is good. -/
structure RehashFirst (s : UniquesHashSet) (z k : ℕ) (u : UniquesHashSet) : Prop where
  pass : FirstPass s.bufSize s.place s.cell z k u.cell
  sizeDegree : u.sizeDegree = s.sizeDegree
  skipDegree : u.skipDegree = s.skipDegree
  hasZero : u.hasZero = s.hasZero
  dropped : ∃ D : List ℕ, List.Perm s.stored (D ++ u.stored) ∧ (∀ x ∈ D, s.good x = false) ∧
    u.mSize = s.mSize - D.length
  good : ∀ q < k, u.cell q ≠ 0 → s.good (u.cell q)

lemma rehashFirst_start (hz0 : s.cell z = 0) : RehashFirst s z 0 s where
  pass := firstPass_start hz0
  sizeDegree := rfl
  skipDegree := rfl
  hasZero := rfl
  dropped := ⟨[], List.Perm.refl _, fun _ h => absurd h List.not_mem_nil, rfl⟩
  good _ hq := absurd hq (Nat.not_lt_zero _)

variable (hwf : s.Reachable) (hzn : z < s.bufSize) (hz0 : s.cell z = 0)
include hwf hzn hz0

lemma RehashFirst.step {k : ℕ} {u : UniquesHashSet} (h : RehashFirst s z k u) (hk : k < s.bufSize) :
    RehashFirst s z (k + 1) (u.rehashStep k) := by
  have hku : k < 2 ^ u.sizeDegree := by rw [h.sizeDegree]; exact hk
  have hv := visit_rehashStep hku
  rw [bufSize_eq_of_sizeDegree h.sizeDegree, place_eq_of_sizeDegree h.sizeDegree,
    good_eq_of_skipDegree h.skipDegree] at hv
  obtain ⟨D, hperm, hbad, hm⟩ := h.dropped
  have hgood : ∀ q < k + 1, (u.rehashStep k).cell q ≠ 0 → s.good ((u.rehashStep k).cell q) := by
    intro q hq hq0
    rcases hv.kept hq0 with hkeep | ⟨hqk, hcell⟩
    · exact hkeep
    · rw [hcell]
      exact h.good q (by omega) (hcell ▸ hq0)
  rcases rehashStep_header hku with ⟨-, hsame, hperm'⟩ | ⟨⟨-, hdrop⟩, hm', hsd, hskip, hz, hperm'⟩
  · -- the hash stays or moves: the stored hashes are the same
    exact ⟨h.pass.visit hwf hzn hz0 hk hv, hsame.sizeDegree.trans h.sizeDegree,
      hsame.skipDegree.trans h.skipDegree, hsame.hasZero.trans h.hasZero,
      ⟨D, hperm.trans (hperm'.symm.append_left D), hbad, hsame.mSize.trans hm⟩, hgood⟩
  · -- a hash that is not good any more is dropped and counted out
    refine ⟨h.pass.visit hwf hzn hz0 hk hv, hsd.trans h.sizeDegree, hskip.trans h.skipDegree,
      hz.trans h.hasZero, ⟨D ++ [u.cell k], ?_, ?_, ?_⟩, hgood⟩
    · rw [List.append_assoc, List.singleton_append]
      exact hperm.trans (hperm'.append_left D)
    · intro x hx
      rcases List.mem_append.mp hx with hx | hx
      · exact hbad x hx
      · rw [List.mem_singleton.mp hx, ← good_eq_of_skipDegree h.skipDegree]
        exact hdrop
    · rw [hm', hm, List.length_append, List.length_singleton, Nat.sub_sub]

lemma rehashFirst_foldl : ∀ k ≤ s.bufSize, RehashFirst s z k ((List.range k).foldl rehashStep s)
  | 0, _ => rehashFirst_start hz0
  | k + 1, hk => by
    rw [List.range_succ, List.foldl_append, List.foldl_cons, List.foldl_nil]
    exact (rehashFirst_foldl k (by omega)).step hwf hzn hz0 (by omega)

omit hwf hz0 in
/-- What the second pass of `rehash` has done before cell `i`, from the table `s₂` the first pass
left, over the run of taken cells from cell zero. -/
structure RehashSecond (s₂ : UniquesHashSet) (z i : ℕ) (u : UniquesHashSet) : Prop where
  pass : SecondPass s₂.bufSize s₂.place s₂.cell z i u.cell
  header : SameHeader s₂ u
  stored : List.Perm u.stored s₂.stored
  run : ∀ q < i, s₂.cell q ≠ 0

end Rehash

section Chain

variable {s₂ : UniquesHashSet} {z : ℕ}

/-- The second pass repairs the table by the first free cell, which it reaches with the fuel of a
buffer size. The induction is on the fuel, with the cell and the set generalised. -/
lemma rehashChain_spec (hdone : FirstPassDone s₂.bufSize s₂.place s₂.cell z) (hzn : z < s₂.bufSize) :
    ∀ fuel i u, RehashSecond s₂ z i u → z < i + fuel →
      (rehashChain fuel i u).Reachable ∧ SameHeader s₂ (rehashChain fuel i u) ∧
        List.Perm (rehashChain fuel i u).stored s₂.stored
  | 0, _, _, h, hz => absurd hdone.free (h.run z (by omega))
  | fuel + 1, i, u, h, hz => by
    have hiz : i ≤ z := by
      by_contra hzi
      exact h.run z (by omega) hdone.free
    have hcell : u.cell i = s₂.cell i := h.pass.ahead i le_rfl hiz
    have hi : i < 2 ^ u.sizeDegree := by
      rw [← bufSize_eq, h.header.bufSize]
      omega
    rw [rehashChain_succ]
    by_cases h0 : s₂.cell i = 0
    · -- the run ends at its first free cell
      rw [if_neg (fun hc => hc.2 (hcell.trans h0))]
      exact ⟨Reachable.of_sameHeader h.header (h.pass.wellFormed hdone h0 hzn), h.header, h.stored⟩
    · have hu0 : u.cell i ≠ 0 := hcell ▸ h0
      rw [if_pos ⟨(show i < u.bufSize from hi), hu0⟩]
      have hv := (visit_reinsert (fun _ => True) hi hu0 trivial).congr h.header.bufSize h.header.place
      obtain ⟨hsame, hperm⟩ := header_reinsert hi hu0
      have hrun : ∀ q ≤ i, s₂.cell q ≠ 0 := fun q hq =>
        (Nat.lt_or_eq_of_le hq).elim (h.run q) (fun hqi => hqi ▸ h0)
      exact rehashChain_spec hdone hzn fuel (i + 1) _
        ⟨h.pass.visit hdone hrun (by omega) hv, h.header.trans hsame, hperm.trans h.stored,
          fun q hq => hrun q (by omega)⟩ (by omega)

end Chain

/-- `rehash` keeps the buffer well formed and keeps exactly the good hashes, counting the others
out of `m_size`, while the buffer has a free cell. -/
theorem rehash_spec (hwf : s.Reachable) (hroom : s.stored.length < s.bufSize) :
    s.rehash.Reachable ∧ s.rehash.sizeDegree = s.sizeDegree ∧ s.rehash.skipDegree = s.skipDegree ∧
      s.rehash.hasZero = s.hasZero ∧ List.Perm s.rehash.stored (s.stored.filter s.good) ∧
      s.rehash.mSize = s.mSize - (s.stored.filter (fun x => !s.good x)).length := by
  obtain ⟨z, hzn, hz0⟩ := exists_empty_cell hroom
  have h₁ := rehashFirst_foldl hwf hzn hz0 s.bufSize le_rfl
  rw [rehash]
  set s₂ := (List.range s.bufSize).foldl rehashStep s
  have hb : s₂.bufSize = s.bufSize := bufSize_eq_of_sizeDegree h₁.sizeDegree
  have hdone : FirstPassDone s₂.bufSize s₂.place s₂.cell z := by
    rw [hb, place_eq_of_sizeDegree h₁.sizeDegree]
    exact h₁.pass.done hzn
  have hstart : RehashSecond s₂ z 0 s₂ :=
    ⟨secondPass_start hdone, SameHeader.refl _, List.Perm.refl _, fun _ hq => absurd hq (Nat.not_lt_zero _)⟩
  obtain ⟨hreach, hsame, hperm⟩ := rehashChain_spec hdone (hb ▸ hzn) s.bufSize 0 s₂ hstart
    (by rw [Nat.zero_add]; exact hzn)
  obtain ⟨D, hpermD, hbad, hm⟩ := h₁.dropped
  -- the first pass leaves only good hashes, and the dropped ones are exactly the others
  have hall : ∀ x ∈ s₂.stored, s.good x := by
    intro x hx
    obtain ⟨q, hq, hqx, hx0⟩ := exists_cell_of_mem_stored hx
    rw [← hqx]
    exact h₁.good q (by rw [h₁.sizeDegree] at hq; exact hq) (hqx ▸ hx0)
  have hkept : (D ++ s₂.stored).filter s.good = s₂.stored := by
    rw [List.filter_append, List.filter_eq_nil_iff.mpr (fun x hx => by simp [hbad x hx]),
      List.filter_eq_self.mpr hall, List.nil_append]
  have hgone : (D ++ s₂.stored).filter (fun x => !s.good x) = D := by
    rw [List.filter_append, List.filter_eq_self.mpr (fun x hx => by simp [hbad x hx]),
      List.filter_eq_nil_iff.mpr (fun x hx => by simp [hall x hx]), List.append_nil]
  refine ⟨hreach, hsame.sizeDegree.trans h₁.sizeDegree, hsame.skipDegree.trans h₁.skipDegree,
    hsame.hasZero.trans h₁.hasZero, ?_, ?_⟩
  · rw [← hkept] at hperm
    exact hperm.trans (hpermD.filter s.good).symm
  · rw [hsame.mSize, hm, ← hgone, (hpermD.filter _).length_eq]


/-- The buffer that `Allocator::realloc` returns to `resize`: the old cells, then new empty ones. -/
def realloc (s : UniquesHashSet) (newSizeDegree : ℕ) : UniquesHashSet :=
  { s with
    buf := (s.buf ++ List.replicate (2 ^ newSizeDegree) 0).take (2 ^ newSizeDegree)
    sizeDegree := newSizeDegree
    buf_length := by simp }

section Realloc

@[simp] lemma realloc_sizeDegree (d : ℕ) : (s.realloc d).sizeDegree = d := rfl

lemma resize_zero : s.resize 0 = resizeLoop s.bufSize (2 ^ (s.sizeDegree + 1)) 0 (s.realloc (s.sizeDegree + 1)) := rfl

lemma cell_realloc {d : ℕ} (hd : s.sizeDegree ≤ d) : (s.realloc d).cell = s.cell := by
  funext q
  have hlen : s.buf.length ≤ 2 ^ d := by rw [s.buf_length]; exact Nat.pow_le_pow_right (by decide) hd
  unfold realloc
  simp only [cell, List.getD_eq_getElem?_getD, List.getElem?_take]
  split_ifs with hq
  · rw [List.getElem?_append]
    split_ifs with hb
    · rfl
    · rw [List.getElem?_replicate, if_pos (by omega), List.getElem?_eq_none (by omega)]
      rfl
  · rw [List.getElem?_eq_none (by omega)]

lemma stored_realloc {d : ℕ} (hd : s.sizeDegree ≤ d) : (s.realloc d).stored = s.stored := by
  have hlen : s.buf.length ≤ 2 ^ d := by rw [s.buf_length]; exact Nat.pow_le_pow_right (by decide) hd
  unfold realloc
  simp only [stored_eq]
  rw [List.take_append, List.take_of_length_le hlen, List.take_replicate, List.filter_append, List.filter_replicate]
  simp

lemma place_realloc (x : ℕ) : (s.realloc (s.sizeDegree + 1)).place x = s.place x ∨
    (s.realloc (s.sizeDegree + 1)).place x = s.place x + s.bufSize := by
  unfold realloc
  simp only [UniquesHashSet.place, mask_eq, Nat.and_two_pow_sub_one_eq_mod, bufSize_eq]
  rw [Nat.mod_pow_succ]
  have hbit := Nat.mod_lt (x >>> uniquesHashBitsForSkip / 2 ^ s.sizeDegree) (two_pos)
  interval_cases h : x >>> uniquesHashBitsForSkip / 2 ^ s.sizeDegree % 2 <;> simp

lemma cell_eq_zero_of_le {q : ℕ} (hq : 2 ^ s.sizeDegree ≤ q) : s.cell q = 0 :=
  List.getD_eq_default _ _ (by rw [s.buf_length]; exact hq)

lemma exists_free_from {a : ℕ} (hlen : s.stored.length < 2 ^ s.sizeDegree - a) :
    ∃ q, a ≤ q ∧ q < 2 ^ s.sizeDegree ∧ s.cell q = 0 := by
  by_contra hall
  push Not at hall
  have htaken : (s.buf.drop a).filter (· ≠ 0) = s.buf.drop a := by
    refine List.filter_eq_self.mpr fun x hx => ?_
    obtain ⟨j, hj, rfl⟩ := List.mem_iff_getElem.mp hx
    rw [List.length_drop, s.buf_length] at hj
    rw [List.getElem_drop, ← cell_eq_getElem]
    exact decide_eq_true (hall (a + j) (by omega) (by omega))
  have hle := ((List.drop_sublist a s.buf).filter (· ≠ 0)).length_le
  rw [htaken, List.length_drop, s.buf_length] at hle
  exact absurd hle (by rw [stored_eq] at hlen; omega)

end Realloc

section Resize

/-- The set the loop of `resize` works on: the reallocated buffer, its hashes moved about. -/
structure Resizing (s u : UniquesHashSet) : Prop where
  header : SameHeader (s.realloc (s.sizeDegree + 1)) u
  stored : List.Perm u.stored s.stored

variable {u : UniquesHashSet}

lemma Resizing.bufSize (hu : Resizing s u) : u.bufSize = 2 * s.bufSize := by
  rw [hu.header.bufSize, bufSize_eq, bufSize_eq, realloc_sizeDegree, pow_succ, mul_comm]

lemma Resizing.exists_free (hu : Resizing s u) (hroom : s.stored.length < s.bufSize) :
    ∃ q, s.bufSize ≤ q ∧ q < 2 * s.bufSize ∧ u.cell q = 0 := by
  have hfree := exists_free_from (s := u) (a := s.bufSize)
    (by rw [hu.stored.length_eq, ← bufSize_eq, hu.bufSize]; omega)
  rwa [← bufSize_eq, hu.bufSize] at hfree

-- One round of the loop of `resize` on a cell it goes on from: a visit of that cell.
lemma Resizing.loop_succ (hu : Resizing s u) (hnd : s.stored.Nodup) {i : ℕ} (fuel : ℕ)
    (hi : i < 2 * s.bufSize) (hgo : i < s.bufSize ∨ u.cell i ≠ 0) :
    ∃ u', resizeLoop s.bufSize (fuel + 1) i u = resizeLoop s.bufSize fuel (i + 1) u' ∧ Resizing s u' ∧
      Visit (2 * s.bufSize) (s.realloc (s.sizeDegree + 1)).place (fun _ => True) i u.cell u'.cell := by
  have hi' : i < 2 ^ u.sizeDegree := by
    rw [← bufSize_eq, hu.bufSize]
    exact hi
  obtain ⟨hv, hsame, hperm⟩ := resizeStep_spec (hu.stored.nodup_iff.mpr hnd) hi'
  rw [resizeLoop_succ, if_pos hgo]
  exact ⟨_, rfl, ⟨hu.header.trans hsame, hperm.trans hu.stored⟩, hv.congr hu.bufSize hu.header.place⟩

lemma resizeLoop_old (hwf : s.Reachable) (hnd : s.stored.Nodup) (hroom : s.stored.length < s.bufSize) :
    ∀ k i (u : UniquesHashSet) fuel, i + k = s.bufSize → Resizing s u →
      ResizePass s.bufSize (s.realloc (s.sizeDegree + 1)).place s.cell i u.cell →
      ∃ u', resizeLoop s.bufSize (fuel + k) i u = resizeLoop s.bufSize fuel s.bufSize u' ∧ Resizing s u' ∧
        ResizePass s.bufSize (s.realloc (s.sizeDegree + 1)).place s.cell s.bufSize u'.cell
  | 0, i, u, fuel, hik, hu, hp => by
    rw [Nat.add_zero] at hik
    subst hik
    exact ⟨u, rfl, hu, hp⟩
  | k + 1, i, u, fuel, hik, hu, hp => by
    obtain ⟨u', hstep, hu', hv⟩ := hu.loop_succ hnd (i := i) (fuel + k) (by omega) (.inl (by omega))
    rw [show fuel + (k + 1) = fuel + k + 1 by omega, hstep]
    exact resizeLoop_old hwf hnd hroom k (i + 1) u' fuel (by omega) hu'
      (hp.visit hwf place_realloc (by omega) (hu.exists_free hroom) hv)

lemma resizeLoop_tail {tM : ℕ → ℕ} {r : ℕ} (hnd : s.stored.Nodup)
    (hM : ResizePass s.bufSize (s.realloc (s.sizeDegree + 1)).place s.cell s.bufSize tM) (hr : r < 2 * s.bufSize)
    (hrun : ∀ q, s.bufSize ≤ q → q < r → tM q ≠ 0) :
    ∀ k i (u : UniquesHashSet) fuel, i + k = r → s.bufSize ≤ i → Resizing s u →
      ResizeTail s.bufSize (s.realloc (s.sizeDegree + 1)).place tM r i u.cell →
      ∃ u', resizeLoop s.bufSize (fuel + k) i u = resizeLoop s.bufSize fuel r u' ∧ Resizing s u' ∧
        ResizeTail s.bufSize (s.realloc (s.sizeDegree + 1)).place tM r r u'.cell
  | 0, i, u, fuel, hik, _, hu, ht => by
    rw [Nat.add_zero] at hik
    subst hik
    exact ⟨u, rfl, hu, ht⟩
  | k + 1, i, u, fuel, hik, hni, hu, ht => by
    have hi0 : tM i ≠ 0 := hrun i hni (by omega)
    have hcell : u.cell i = tM i := ht.ahead i le_rfl (by omega)
    obtain ⟨u', hstep, hu', hv⟩ := hu.loop_succ hnd (fuel + k) (by omega) (.inr (hcell ▸ hi0))
    rw [show fuel + (k + 1) = fuel + k + 1 by omega, hstep]
    exact resizeLoop_tail hnd hM hr hrun k (i + 1) u' fuel (by omega) (by omega) hu'
      (ht.visit hM hni (by omega) hr hi0 hv)

/-- `resize` doubles the buffer and keeps it well formed with the same hashes, while the hashes fill
less than the old buffer. -/
theorem resize_spec (hwf : s.Reachable) (hnd : s.stored.Nodup) (hroom : s.stored.length < s.bufSize) :
    (s.resize 0).Reachable ∧ (s.resize 0).sizeDegree = s.sizeDegree + 1 ∧ (s.resize 0).mSize = s.mSize ∧
      (s.resize 0).skipDegree = s.skipDegree ∧ (s.resize 0).hasZero = s.hasZero ∧
      List.Perm (s.resize 0).stored s.stored := by
  have hsd : s.sizeDegree ≤ s.sizeDegree + 1 := Nat.le_succ _
  have hg : Resizing s (s.realloc (s.sizeDegree + 1)) := ⟨SameHeader.refl _, by rw [stored_realloc hsd]⟩
  have hstart : ResizePass s.bufSize (s.realloc (s.sizeDegree + 1)).place s.cell 0
      (s.realloc (s.sizeDegree + 1)).cell := by
    rw [cell_realloc hsd]
    exact resizePass_start fun q hq => cell_eq_zero_of_le hq
  obtain ⟨uM, hloop, huM, hM⟩ := resizeLoop_old hwf hnd hroom s.bufSize 0 _ (2 * s.bufSize - s.bufSize)
    (Nat.zero_add _) hg hstart
  -- the run after the old cells ends at the first free cell from the old size on
  have hex := huM.exists_free hroom
  obtain ⟨hnr, hr, hr0⟩ := Nat.find_spec hex
  have hrun : ∀ q, s.bufSize ≤ q → q < Nat.find hex → uM.cell q ≠ 0 :=
    fun q hq hqr h0 => Nat.find_min hex hqr ⟨hq, by omega, h0⟩
  obtain ⟨uT, htail, huT, hT⟩ := resizeLoop_tail hnd hM hr hrun (Nat.find hex - s.bufSize) s.bufSize uM
    (2 * s.bufSize - Nat.find hex) (by omega) le_rfl huM (resizeTail_start hM hnr hr hr0)
  have hend : resizeLoop s.bufSize (2 * s.bufSize - Nat.find hex) (Nat.find hex) uT = uT := by
    obtain ⟨f, hf⟩ : ∃ f, 2 * s.bufSize - Nat.find hex = f + 1 := ⟨2 * s.bufSize - Nat.find hex - 1, by omega⟩
    rw [hf, resizeLoop_succ, if_neg]
    rw [hT.ahead _ le_rfl le_rfl]
    push Not
    exact ⟨hnr, hr0⟩
  have hres : s.resize 0 = uT := by
    have hfuel : 2 ^ (s.sizeDegree + 1) = 2 * s.bufSize - s.bufSize + s.bufSize := by
      rw [bufSize_eq, pow_succ]
      omega
    rw [resize_zero, hfuel, hloop, show 2 * s.bufSize - s.bufSize =
      2 * s.bufSize - Nat.find hex + (Nat.find hex - s.bufSize) by omega, htail, hend]
  rw [hres]
  refine ⟨?_, huT.header.sizeDegree, huT.header.mSize, huT.header.skipDegree, huT.header.hasZero, huT.stored⟩
  rw [Reachable, huT.bufSize, huT.header.place]
  exact hT.wellFormed hr0

end Resize

end ClickHouse.AggregateFunctions.UniquesHashSet
