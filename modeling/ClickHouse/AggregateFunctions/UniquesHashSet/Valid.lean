import ClickHouse.AggregateFunctions.UniquesHashSet.Rebuild
import ClickHouse.Lib.AdaptiveSample

/-! The hashes a `UniquesHashSet` holds, and what every set the functions leave keeps: the buffer is
well formed, the hashes are distinct and `m_size` counts them. The functions that change the
hashes are stated on them as a set: `insertImpl` adds one, `rehash` at a new `skip_degree` keeps
those that `2 ^ skip_degree` divides, `resize` and `read` of what `write` wrote keep them all. -/

namespace ClickHouse.AggregateFunctions.UniquesHashSet

open ClickHouse.Lib ClickHouse.IO ClickHouse.Lib.ProbeRebuild ClickHouse.Lib.AdaptiveSample Function

variable (s : UniquesHashSet)

/-- The hashes in the order `write` writes them: zero first when `has_zero` is set. -/
def hashes : List ℕ := (if s.hasZero then [0] else []) ++ s.stored

def hashSet : Finset ℕ := s.hashes.toFinset

lemma hashes_eq : s.hashes = (if s.hasZero then [0] else []) ++ s.stored := rfl

lemma hashSet_eq : s.hashSet = s.hashes.toFinset := rfl

structure Valid : Prop where
  reachable : s.Reachable
  nodup : s.hashes.Nodup
  mSize_eq : s.mSize = s.hashes.length
  sizeDegree_ge : uniquesHashSetInitialSizeDegree ≤ s.sizeDegree
  sizeDegree_le : s.sizeDegree ≤ uniquesHashMaxSizeDegree

variable {s}

section Hashes

variable {t : UniquesHashSet} {x : ℕ}

lemma zero_not_mem_stored : 0 ∉ s.stored := fun h => by
  simpa using (List.mem_filter.mp h).2

lemma filter_stored : s.stored.filter (· ≠ 0) = s.stored := by
  simp only [stored_eq, List.filter_filter, Bool.and_self]

lemma mem_stored_of_cell {p : ℕ} (hp : p < 2 ^ s.sizeDegree) (hpx : s.cell p = x) (hx : x ≠ 0) : x ∈ s.stored := by
  rw [← hpx, cell_eq_getElem (lt_length hp)]
  exact List.mem_filter.mpr ⟨List.getElem_mem _, by simpa [← cell_eq_getElem (lt_length hp), hpx] using hx⟩

lemma Valid.stored_nodup (hv : s.Valid) : s.stored.Nodup := hv.nodup.sublist (List.sublist_append_right _ _)

lemma Valid.card_hashSet (hv : s.Valid) : s.hashSet.card = s.mSize := by
  rw [hashSet_eq, List.toFinset_card_of_nodup hv.nodup, hv.mSize_eq]

lemma mem_hashes : x ∈ s.hashes ↔ x ∈ s.stored ∨ (x = 0 ∧ s.hasZero = true) := by
  unfold hashes
  split_ifs with hz <;> simp [hz, or_comm]

lemma hashes_perm_of_stored (hst : List.Perm t.stored (x :: s.stored)) (hz : t.hasZero = s.hasZero) :
    List.Perm t.hashes (x :: s.hashes) := by
  unfold hashes
  rw [hz]
  exact (hst.append_left _).trans List.perm_middle

lemma hashes_perm (hst : List.Perm t.stored s.stored) (hz : t.hasZero = s.hasZero) :
    List.Perm t.hashes s.hashes := by
  unfold hashes
  rw [hz]
  exact hst.append_left _

lemma Valid.stored_length_lt (hv : s.Valid) (hload : s.mSize ≤ s.maxFill + 1) : s.stored.length < 2 ^ s.sizeDegree := by
  have hlen : s.stored.length ≤ s.mSize := by
    rw [hv.mSize_eq, hashes_eq, List.length_append]
    omega
  have hsd := hv.sizeDegree_ge
  unfold uniquesHashSetInitialSizeDegree at hsd
  have hdouble : 2 ^ s.sizeDegree = 2 * s.maxFill := by
    rw [maxFill_eq, ← pow_succ', Nat.sub_add_cancel (by omega)]
  have hfill : 2 ^ 3 ≤ s.maxFill := Nat.pow_le_pow_right (by decide) (by omega)
  omega

end Hashes

lemma good_iff (h : ℕ) : s.good h = true ↔ 2 ^ s.skipDegree ∣ h := by
  rw [good, decide_eq_true_iff, Nat.shiftLeft_eq_mul_pow, Nat.shiftRight_eq_div_pow,
    Nat.dvd_iff_div_mul_eq, eq_comm]

section Insert

variable {x : ℕ}

lemma insertImpl_eq (x : ℕ) : s.insertImpl x =
    if x = 0 then { s with mSize := s.mSize + (if s.hasZero then 0 else 1), hasZero := true }
    else if s.cell (findCell s.buf s.mask x s.bufSize (s.place x)) = x then s
    else { s.setCell (findCell s.buf s.mask x s.bufSize (s.place x)) x with mSize := s.mSize + 1 } := rfl

lemma insertImpl_zero (hv : s.Valid) :
    (s.insertImpl 0).Valid ∧ (s.insertImpl 0).hashSet = Insert.insert 0 s.hashSet ∧
      (s.insertImpl 0).sizeDegree = s.sizeDegree ∧ (s.insertImpl 0).skipDegree = s.skipDegree := by
  have hm : (s.insertImpl 0).mSize = s.mSize + (if s.hasZero then 0 else 1) := rfl
  have hhashes : (s.insertImpl 0).hashes = 0 :: s.stored := rfl
  refine ⟨⟨hv.reachable, ?_, ?_, hv.sizeDegree_ge, hv.sizeDegree_le⟩, ?_, rfl, rfl⟩
  · rw [hhashes]
    exact List.nodup_cons.mpr ⟨zero_not_mem_stored, hv.stored_nodup⟩
  · rw [hm, hhashes, hv.mSize_eq, hashes_eq]
    split_ifs <;> simp
  · rw [hashSet_eq, hashSet_eq, hhashes, hashes_eq]
    split_ifs <;> simp

lemma insertImpl_of_ne (hv : s.Valid) (hroom : s.stored.length < 2 ^ s.sizeDegree) (hx : x ≠ 0) :
    (s.insertImpl x).Valid ∧ (s.insertImpl x).hashSet = Insert.insert x s.hashSet ∧
      (s.insertImpl x).sizeDegree = s.sizeDegree ∧ (s.insertImpl x).skipDegree = s.skipDegree := by
  obtain ⟨hc, hstop, hpath⟩ := probe_insert hroom x
  rw [insertImpl_eq, if_neg hx]
  by_cases hcx : s.cell (findCell s.buf s.mask x s.bufSize (s.place x)) = x
  · rw [if_pos hcx]
    have hmem : x ∈ s.hashSet := List.mem_toFinset.mpr (mem_hashes.mpr (.inl (mem_stored_of_cell hc hcx hx)))
    exact ⟨hv, (Finset.insert_eq_of_mem hmem).symm, rfl, rfl⟩
  rw [if_neg hcx]
  have hff : FirstFree s.bufSize s.cell (s.place x) (findCell s.buf s.mask x s.bufSize (s.place x)) :=
    ⟨hc, hstop.resolve_right hcx, fun q hq hon => (hpath q hq hon).1⟩
  -- the probe passed no cell with the hash, so the hash is new
  have hnew : x ∉ s.hashes := by
    rw [mem_hashes]
    rintro (hxs | ⟨rfl, -⟩)
    · obtain ⟨p, hp, hpx, -⟩ := exists_cell_of_mem_stored hxs
      exact hv.reachable.ne_of_firstFree hx hff (fun q hq hon => (hpath q hq hon).2) p hp hpx
    · exact hx rfl
  have hperm := hashes_perm_of_stored (t := { s.setCell _ x with mSize := s.mSize + 1 })
    (stored_setCell_of_zero hc hff.2.1 hx) rfl
  refine ⟨⟨?_, hperm.nodup_iff.mpr (List.nodup_cons.mpr ⟨hnew, hv.nodup⟩), ?_, hv.sizeDegree_ge,
    hv.sizeDegree_le⟩, ?_, rfl, rfl⟩
  · change WellFormed s.bufSize s.place (s.setCell _ x).cell
    rw [cell_setCell hc]
    exact hv.reachable.update_of_firstFree hff
  · rw [hperm.length_eq, List.length_cons, ← hv.mSize_eq]
  · rw [hashSet_eq, List.toFinset_eq_of_perm _ _ hperm, List.toFinset_cons]
    rfl

theorem insertImpl_spec (hv : s.Valid) (hroom : s.stored.length < 2 ^ s.sizeDegree) (x : ℕ) :
    (s.insertImpl x).Valid ∧ (s.insertImpl x).hashSet = Insert.insert x s.hashSet ∧
      (s.insertImpl x).sizeDegree = s.sizeDegree ∧ (s.insertImpl x).skipDegree = s.skipDegree := by
  rcases eq_or_ne x 0 with rfl | hx
  · exact insertImpl_zero hv
  · exact insertImpl_of_ne hv hroom hx

end Insert

section Rebuild

lemma hashes_filter_good (t : UniquesHashSet) (hz : t.hasZero = s.hasZero) :
    (if t.hasZero then [0] else []) ++ s.stored.filter s.good = s.hashes.filter s.good := by
  have h0 : s.good 0 = true := (good_iff 0).mpr (dvd_zero _)
  rw [hashes_eq, List.filter_append, hz]
  split_ifs <;> simp [h0]

/-- `rehash` once `skip_degree` is set to `k`: the hashes that `2 ^ k` divides stay. -/
theorem rehash_sample (hv : s.Valid) (hroom : s.stored.length < 2 ^ s.sizeDegree) (k : ℕ) :
    ({ s with skipDegree := k } : UniquesHashSet).rehash.Valid ∧
      ({ s with skipDegree := k } : UniquesHashSet).rehash.hashSet = sample s.hashSet k ∧
      ({ s with skipDegree := k } : UniquesHashSet).rehash.skipDegree = k ∧
      ({ s with skipDegree := k } : UniquesHashSet).rehash.sizeDegree = s.sizeDegree := by
  set s' : UniquesHashSet := { s with skipDegree := k }
  obtain ⟨hreach, hsd, hskip, hz, hperm, hm⟩ := rehash_spec (s := s') hv.reachable hroom
  have hhashes : List.Perm s'.rehash.hashes (s'.hashes.filter s'.good) := by
    rw [← hashes_filter_good s'.rehash hz]
    exact hperm.append_left _
  refine ⟨⟨hreach, hhashes.nodup_iff.mpr (hv.nodup.filter _), ?_, hsd ▸ hv.sizeDegree_ge,
    hsd ▸ hv.sizeDegree_le⟩, ?_, hskip, hsd⟩
  · -- the hashes counted out are the ones that are not good
    have hl : s'.rehash.hashes.length =
        (if s.hasZero then [0] else []).length + (s.stored.filter s'.good).length := by
      rw [hhashes.length_eq, ← hashes_filter_good (s := s') s' rfl, List.length_append]
      rfl
    have hs : s.mSize = (if s.hasZero then [0] else []).length + s.stored.length := by
      rw [hv.mSize_eq, hashes_eq, List.length_append]
    have hlen := List.length_eq_length_filter_add (l := s.stored) s'.good
    rw [hm, hl]
    change s.mSize - (s.stored.filter (fun x => !s'.good x)).length = _
    omega
  · rw [hashSet_eq, List.toFinset_eq_of_perm _ _ hhashes, List.toFinset_filter, sample]
    exact Finset.filter_congr fun x _ => good_iff x

/-- `resize` doubles the buffer and keeps the hashes. -/
theorem resize_hashSet (hv : s.Valid) (hroom : s.stored.length < 2 ^ s.sizeDegree)
    (hsd : s.sizeDegree < uniquesHashMaxSizeDegree) :
    (s.resize 0).Valid ∧ (s.resize 0).hashSet = s.hashSet ∧ (s.resize 0).sizeDegree = s.sizeDegree + 1 ∧
      (s.resize 0).skipDegree = s.skipDegree := by
  obtain ⟨hreach, hsd', hm, hskip, hz, hperm⟩ := resize_spec hv.reachable hv.stored_nodup hroom
  have hhashes := hashes_perm hperm hz
  refine ⟨⟨hreach, hhashes.nodup_iff.mpr hv.nodup, by rw [hm, hhashes.length_eq, hv.mSize_eq], ?_, ?_⟩,
    by rw [hashSet_eq, hashSet_eq, List.toFinset_eq_of_perm _ _ hhashes], hsd', hskip⟩
  · rw [hsd']
    exact hv.sizeDegree_ge.trans (Nat.le_succ _)
  · rw [hsd']
    exact hsd

end Rebuild

section Read

lemma newSizeDegree_ge (m : ℕ) : uniquesHashSetInitialSizeDegree ≤ newSizeDegree m := by
  unfold newSizeDegree
  split_ifs
  · exact le_rfl
  · exact le_max_left _ _

lemma newSizeDegree_le {m : ℕ} (hm : m ≤ uniquesHashMaxSize) : newSizeDegree m ≤ uniquesHashMaxSizeDegree := by
  unfold newSizeDegree uniquesHashSetInitialSizeDegree uniquesHashMaxSizeDegree
  unfold uniquesHashMaxSize uniquesHashMaxSizeDegree at hm
  split_ifs with h1
  · omega
  · have hlog : Nat.log2 (m - 1) < 16 := (Nat.log2_lt (by omega)).mpr (by norm_num at hm ⊢; omega)
    omega

lemma le_maxFill_newSizeDegree (m : ℕ) : m ≤ 2 ^ (newSizeDegree m - 1) := by
  unfold newSizeDegree uniquesHashSetInitialSizeDegree
  split_ifs with hm
  · calc m ≤ 1 := hm
      _ ≤ 2 ^ (4 - 1) := by decide
  · have hlt : m - 1 < 2 ^ (Nat.log2 (m - 1) + 1) := Nat.lt_log2_self
    have hmax : 2 ^ (Nat.log2 (m - 1) + 1) ≤ 2 ^ (max 4 (Nat.log2 (m - 1) + 2) - 1) :=
      Nat.pow_le_pow_right (by decide) (by omega)
    omega

lemma reachable_empty (m d k : ℕ) : (empty m d k).Reachable := by
  intro p _ hp0
  exact absurd (by simp [cell, empty]) hp0

lemma reachable_readHash (hwf : s.Reachable) (hroom : s.stored.length < 2 ^ s.sizeDegree) (x : ℕ) :
    (readHash s x).Reachable := by
  unfold readHash
  split_ifs with hx
  · exact hwf
  · obtain ⟨j, hj, hj0⟩ := exists_empty_cell hroom
    have hff := s.firstFree_reinsert hj hj0 x
    change WellFormed s.bufSize s.place (s.setCell _ x).cell
    rw [cell_setCell hff.1]
    exact hwf.update_of_firstFree hff

lemma reachable_foldl_readHash : ∀ (hs : List ℕ) (s : UniquesHashSet), s.Reachable →
    s.stored.length + hs.length ≤ 2 ^ s.sizeDegree → (hs.foldl readHash s).Reachable
  | [], _, hwf, _ => hwf
  | x :: hs, s, hwf, hroom => by
    rw [List.length_cons] at hroom
    have hlen := (stored_readHash (s := s) (x := x) (by omega)).length_eq
    have hone : ([x].filter (· ≠ 0)).length ≤ 1 := (List.length_filter_le _ _).trans (by simp)
    rw [List.foldl_cons]
    refine reachable_foldl_readHash hs _ (reachable_readHash hwf (by omega) x) ?_
    rw [hlen, readHash_sizeDegree, List.length_append]
    omega

lemma write_eq (hmax : s.mSize ≤ uniquesHashMaxSize) :
    s.write = .ok (UInt8.ofNat s.skipDegree :: writeVarUInt s.mSize ++ s.hashes.flatMap (Bytes.encodeLE 4)) := by
  unfold write
  rw [if_neg (not_lt.mpr hmax), hashes_eq, List.flatMap_append, List.append_assoc]
  split_ifs <;> simp [stored_eq]

/-- What `read` makes of what `write` wrote: the same hashes, `skip_degree` and `m_size`, in a buffer
that `m_size` fills at most half. -/
theorem read_of_write (hv : s.Valid) (hlt : ∀ x ∈ s.hashes, x < 2 ^ 32) (hskip : s.skipDegree < 256)
    {bytes : List UInt8} {t : UniquesHashSet} {rest : List UInt8} (hw : s.write = .ok bytes)
    (hr : read bytes = .ok (t, rest)) :
    t.Valid ∧ t.hashSet = s.hashSet ∧ t.skipDegree = s.skipDegree ∧ t.mSize = s.mSize ∧ t.mSize ≤ t.maxFill := by
  have hmax : s.mSize ≤ uniquesHashMaxSize := by
    by_contra hgt
    unfold write at hw
    rw [if_pos (not_le.mp hgt)] at hw
    cases hw
  rw [write_eq hmax, hv.mSize_eq] at hw
  cases hw
  have hread := read_encoded (UInt8.ofNat s.skipDegree) s.hashes (hv.mSize_eq ▸ hmax) hlt []
  rw [List.append_nil] at hread
  rw [hread] at hr
  cases hr
  -- `read` fills an empty set of `newSizeDegree` cells
  set e := empty s.hashes.length (newSizeDegree s.hashes.length) (UInt8.ofNat s.skipDegree).toNat
  have hempty : e.stored = [] := by
    simp [e, empty, stored_eq]
  have hroom : e.stored.length + s.hashes.length ≤ 2 ^ e.sizeDegree := by
    rw [hempty, List.length_nil, Nat.zero_add]
    exact le_two_pow_newSizeDegree _
  obtain ⟨hperm, hzero, hm, hsd, hsk⟩ := foldl_readHash s.hashes e hroom
  have hstored : s.hashes.filter (· ≠ 0) = s.stored := by
    rw [hashes_eq, List.filter_append, filter_stored]
    split_ifs <;> simp
  have hz : (s.hashes.foldl readHash e).hasZero = s.hasZero := by
    rw [hzero]
    simp only [e, empty, Bool.false_or, mem_hashes]
    cases s.hasZero <;> simp [zero_not_mem_stored]
  rw [hempty, List.nil_append, hstored] at hperm
  have hhashes := hashes_perm hperm hz
  have htm : (s.hashes.foldl readHash e).mSize = s.hashes.length := hm
  refine ⟨⟨reachable_foldl_readHash _ e (reachable_empty _ _ _) hroom, hhashes.nodup_iff.mpr hv.nodup,
    by rw [htm, hhashes.length_eq], ?_, ?_⟩,
    by rw [hashSet_eq, hashSet_eq, List.toFinset_eq_of_perm _ _ hhashes], ?_, by rw [htm, hv.mSize_eq], ?_⟩
  · rw [hsd]
    exact newSizeDegree_ge _
  · rw [hsd]
    exact newSizeDegree_le (hv.mSize_eq ▸ hmax)
  · rw [hsk]
    exact Nat.mod_eq_of_lt hskip
  · rw [htm, maxFill_eq, hsd]
    exact le_maxFill_newSizeDegree _

end Read

end ClickHouse.AggregateFunctions.UniquesHashSet
