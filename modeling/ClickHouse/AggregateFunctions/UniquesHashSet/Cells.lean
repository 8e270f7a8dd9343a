import ClickHouse.AggregateFunctions.UniquesHashSet
import ClickHouse.Lib.ProbeRebuild

/-! The buffer of a `UniquesHashSet` as a table of cells for `Lib/ProbeRebuild`: the probe of
`findCell` stops at the first cell of the ring that is free or holds the hash, and each step of the
loops of `rehash` and `resize` is a visit of its cell. -/

namespace ClickHouse.AggregateFunctions.UniquesHashSet

open ClickHouse.Lib.ProbeRebuild Function

variable (s : UniquesHashSet)

/-- `buf[i]`, and zero past the end of the buffer. -/
def cell (i : ℕ) : ℕ := s.buf.getD i 0

variable {s}

lemma getD_eq_cell (i : ℕ) : s.buf.getD i 0 = s.cell i := rfl

section Cells

variable {i x : ℕ}

lemma cell_setCell (hi : i < 2 ^ s.sizeDegree) : (s.setCell i x).cell = update s.cell i x := by
  funext q
  unfold cell
  rw [setCell_buf, update_apply]
  split_ifs with hq
  · subst hq
    simp [List.getD_eq_getElem?_getD, s.buf_length, hi]
  · simp [List.getD_eq_getElem?_getD, Ne.symm hq]

@[simp] lemma place_setCell : (s.setCell i x).place = s.place := rfl

@[simp] lemma bufSize_setCell : (s.setCell i x).bufSize = s.bufSize := rfl

lemma cell_eq_getElem (hi : i < s.buf.length) : s.cell i = s.buf[i] :=
  List.getD_eq_getElem _ _ _

lemma lt_length (hi : i < 2 ^ s.sizeDegree) : i < s.buf.length := by
  rw [s.buf_length]
  exact hi

lemma stored_setCell_zero (hi : i < 2 ^ s.sizeDegree) (hx : s.cell i ≠ 0) :
    List.Perm s.stored (s.cell i :: (s.setCell i 0).stored) := by
  have hback : ((s.setCell i 0).setCell i (s.cell i)).buf = s.buf := by
    rw [setCell_buf, setCell_buf, List.set_set, cell_eq_getElem (lt_length hi), List.set_getElem_self]
  have hperm := filter_set_perm (l := (s.setCell i 0).buf) (i := i) (x := s.cell i) (by simp [s.buf_length, hi])
    (by rw [setCell_buf, List.getD_eq_getElem?_getD, List.getElem?_set_self (by rw [s.buf_length]; exact hi)]; rfl) hx
  rw [← setCell_buf, hback] at hperm
  exact hperm

lemma exists_cell_of_mem_stored {x : ℕ} (hx : x ∈ s.stored) : ∃ q < 2 ^ s.sizeDegree, s.cell q = x ∧ x ≠ 0 := by
  obtain ⟨hbuf, hx0⟩ := List.mem_filter.mp hx
  obtain ⟨q, hq, rfl⟩ := List.mem_iff_getElem.mp hbuf
  exact ⟨q, s.buf_length ▸ hq, cell_eq_getElem hq, by simpa using hx0⟩

lemma stored_setCell_of_zero (hi : i < 2 ^ s.sizeDegree) (hz : s.cell i = 0) (hx : x ≠ 0) :
    List.Perm (s.setCell i x).stored (x :: s.stored) :=
  filter_set_perm (s.buf_length ▸ hi) hz hx

lemma eq_of_cell_eq (hnd : s.stored.Nodup) {p q : ℕ} (hp : p < 2 ^ s.sizeDegree) (hq : q < 2 ^ s.sizeDegree)
    (h0 : s.cell p ≠ 0) (h : s.cell p = s.cell q) : p = q := by
  -- the hash sits in the part of the buffer before the later cell and at the head of the rest
  have key : ∀ a b, a < b → b < 2 ^ s.sizeDegree → s.cell a ≠ 0 → s.cell a = s.cell b → False := by
    intro a b hab hb ha0 hab'
    have hsplit : s.stored = (s.buf.take b).filter (· ≠ 0) ++ (s.buf.drop b).filter (· ≠ 0) := by
      rw [stored_eq, ← List.filter_append, List.take_append_drop]
    have hlen : b < s.buf.length := s.buf_length ▸ hb
    have h1 : s.cell a ∈ (s.buf.take b).filter (· ≠ 0) := by
      refine List.mem_filter.mpr ⟨?_, by simpa using ha0⟩
      rw [cell_eq_getElem (by omega), ← List.getElem_take (j := b) (h := by simp; omega)]
      exact List.getElem_mem _
    have h2 : s.cell a ∈ (s.buf.drop b).filter (· ≠ 0) := by
      refine List.mem_filter.mpr ⟨?_, by simpa using ha0⟩
      rw [hab', cell_eq_getElem hlen, List.drop_eq_getElem_cons hlen]
      exact List.mem_cons_self
    rw [hsplit, List.nodup_append] at hnd
    exact hnd.2.2 _ h1 _ h2 rfl
  rcases lt_trichotomy p q with hpq | rfl | hqp
  · exact (key p q hpq hq h0 h).elim
  · rfl
  · exact (key q p hqp hp (h ▸ h0) h.symm).elim

end Cells

section Probe

lemma findCell_first (buf : List ℕ) {k : ℕ} (x : ℕ) : ∀ (n i : ℕ), i < 2 ^ k →
    (∃ d < n, buf.getD ((i + d) % 2 ^ k) 0 = 0 ∨ buf.getD ((i + d) % 2 ^ k) 0 = x) →
    findCell buf (2 ^ k - 1) x n i < 2 ^ k ∧
      (buf.getD (findCell buf (2 ^ k - 1) x n i) 0 = 0 ∨ buf.getD (findCell buf (2 ^ k - 1) x n i) 0 = x) ∧
      ∀ q < 2 ^ k, OnPath (2 ^ k) i (findCell buf (2 ^ k - 1) x n i) q → buf.getD q 0 ≠ 0 ∧ buf.getD q 0 ≠ x
  | 0, _, _, ⟨_, hd, _⟩ => absurd hd (Nat.not_lt_zero _)
  | n + 1, i, hi, ⟨d, hd, hstop⟩ => by
    rw [findCell]
    split_ifs with hgo
    · -- cell `i` is passed, and the stop lies further on, one step nearer from the next cell
      obtain ⟨d, rfl⟩ : ∃ e, d = e + 1 := by
        rcases d with _ | e
        · rw [Nat.add_zero, Nat.mod_eq_of_lt hi] at hstop
          exact absurd hstop (by tauto)
        · exact ⟨e, rfl⟩
      rw [Nat.and_two_pow_sub_one_eq_mod]
      obtain ⟨hlt, hc, hpath⟩ := findCell_first buf x n _ (Nat.mod_lt _ (Nat.two_pow_pos k))
        ⟨d, by omega, by rwa [Nat.mod_add_mod, Nat.add_assoc, Nat.add_comm 1 d]⟩
      refine ⟨hlt, hc, fun q hq hon => ?_⟩
      rcases onPath_next hi hon with rfl | hon'
      · exact hgo
      · exact hpath q hq hon'
    · refine ⟨hi, by tauto, fun q _ hon => ?_⟩
      rw [onPath_of_le le_rfl] at hon
      omega

-- A probe from the place of `y` for `x` through the whole buffer stops at a cell that is free or
-- holds `x` as soon as the buffer has one.
lemma probe_of_stop {y j : ℕ} (x : ℕ) (hj : j < 2 ^ s.sizeDegree) (hstop : s.cell j = 0 ∨ s.cell j = x) :
    findCell s.buf s.mask x s.bufSize (s.place y) < s.bufSize ∧
      (s.cell (findCell s.buf s.mask x s.bufSize (s.place y)) = 0 ∨
        s.cell (findCell s.buf s.mask x s.bufSize (s.place y)) = x) ∧
      ∀ q < s.bufSize, OnPath s.bufSize (s.place y) (findCell s.buf s.mask x s.bufSize (s.place y)) q →
        s.cell q ≠ 0 ∧ s.cell q ≠ x := by
  obtain ⟨d, hd, hdj⟩ := exists_step_to (s.place_lt y) hj
  exact findCell_first s.buf x _ _ (s.place_lt y) ⟨d, hd, hdj ▸ hstop⟩

lemma firstFree_reinsert {j : ℕ} (hj : j < 2 ^ s.sizeDegree) (hfree : s.cell j = 0) (x : ℕ) :
    FirstFree s.bufSize s.cell (s.place x) (findCell s.buf s.mask 0 s.bufSize (s.place x)) := by
  obtain ⟨hlt, hc, hpath⟩ := s.probe_of_stop (y := x) 0 hj (.inl hfree)
  exact ⟨hlt, hc.elim id id, fun q hq hon => (hpath q hq hon).1⟩

lemma probe_insert (hroom : s.stored.length < 2 ^ s.sizeDegree) (x : ℕ) :
    findCell s.buf s.mask x s.bufSize (s.place x) < s.bufSize ∧
      (s.cell (findCell s.buf s.mask x s.bufSize (s.place x)) = 0 ∨
        s.cell (findCell s.buf s.mask x s.bufSize (s.place x)) = x) ∧
      ∀ q < s.bufSize, OnPath s.bufSize (s.place x) (findCell s.buf s.mask x s.bufSize (s.place x)) q →
        s.cell q ≠ 0 ∧ s.cell q ≠ x := by
  obtain ⟨j, hj, hj0⟩ := exists_empty_cell hroom
  exact s.probe_of_stop x hj (.inl hj0)

lemma firstFree_find {i : ℕ} (hnd : s.stored.Nodup) (hi : i < 2 ^ s.sizeDegree) (hx : s.cell i ≠ 0) :
    FirstFree s.bufSize (update s.cell i 0) (s.place (s.cell i))
      (findCell s.buf s.mask (s.cell i) s.bufSize (s.place (s.cell i))) := by
  obtain ⟨hlt, hc, hpath⟩ := s.probe_of_stop (y := s.cell i) (s.cell i) hi (.inr rfl)
  -- a cell that holds the hash of cell `i` is cell `i`
  have hstop : ∀ q < 2 ^ s.sizeDegree, (s.cell q = 0 ∨ s.cell q = s.cell i) ↔ update s.cell i 0 q = 0 := by
    intro q hq
    rw [update_apply]
    split_ifs with hqi
    · simp [hqi]
    · refine ⟨fun h => h.resolve_right fun hqx => hqi (eq_of_cell_eq hnd hq hi (hqx ▸ hx) hqx), ?_⟩
      exact fun h => .inl h
  refine ⟨hlt, (hstop _ hlt).mp hc, fun q hq hon h0 => ?_⟩
  rcases (hstop q hq).mpr h0 with h | h
  · exact (hpath q hq hon).1 h
  · exact (hpath q hq hon).2 h

end Probe

/-- `t` differs from `s` at most in its buffer. -/
structure SameHeader (s t : UniquesHashSet) : Prop where
  mSize : t.mSize = s.mSize
  sizeDegree : t.sizeDegree = s.sizeDegree
  skipDegree : t.skipDegree = s.skipDegree
  hasZero : t.hasZero = s.hasZero

section Header

variable {t u : UniquesHashSet}

@[refl] lemma SameHeader.refl (s : UniquesHashSet) : SameHeader s s := ⟨rfl, rfl, rfl, rfl⟩

lemma SameHeader.trans (h : SameHeader s t) (h' : SameHeader t u) : SameHeader s u :=
  ⟨h'.mSize.trans h.mSize, h'.sizeDegree.trans h.sizeDegree, h'.skipDegree.trans h.skipDegree,
    h'.hasZero.trans h.hasZero⟩

lemma sameHeader_setCell (i x : ℕ) : SameHeader s (s.setCell i x) := ⟨rfl, rfl, rfl, rfl⟩

lemma place_eq_of_sizeDegree (h : t.sizeDegree = s.sizeDegree) : t.place = s.place := by
  funext x
  rw [UniquesHashSet.place, UniquesHashSet.place, mask_eq, mask_eq, h]

lemma bufSize_eq_of_sizeDegree (h : t.sizeDegree = s.sizeDegree) : t.bufSize = s.bufSize := by
  rw [bufSize_eq, bufSize_eq, h]

lemma good_eq_of_skipDegree (h : t.skipDegree = s.skipDegree) : t.good = s.good := by
  funext x
  rw [UniquesHashSet.good, UniquesHashSet.good, h]

lemma SameHeader.place (h : SameHeader s t) : t.place = s.place := place_eq_of_sizeDegree h.sizeDegree

lemma SameHeader.bufSize (h : SameHeader s t) : t.bufSize = s.bufSize := bufSize_eq_of_sizeDegree h.sizeDegree

lemma SameHeader.good (h : SameHeader s t) : t.good = s.good := good_eq_of_skipDegree h.skipDegree

end Header

section Steps

variable {i : ℕ}

lemma stored_move {c : ℕ} (hi : i < 2 ^ s.sizeDegree) (hc : c < 2 ^ s.sizeDegree) (hx : s.cell i ≠ 0)
    (hfree : update s.cell i 0 c = 0) : List.Perm ((s.setCell i 0).setCell c (s.cell i)).stored s.stored := by
  have h1 := stored_setCell_of_zero (s := s.setCell i 0) hc (by rw [cell_setCell hi]; exact hfree) hx
  exact h1.trans (stored_setCell_zero hi hx).symm

lemma firstFree_reinsert_clear (hi : i < 2 ^ s.sizeDegree) (x : ℕ) :
    FirstFree s.bufSize (update s.cell i 0) (s.place x)
      (findCell (s.setCell i 0).buf (s.setCell i 0).mask 0 (s.setCell i 0).bufSize ((s.setCell i 0).place x)) := by
  have hff := (s.setCell i 0).firstFree_reinsert hi (by rw [cell_setCell hi, update_self]) x
  rwa [cell_setCell hi] at hff

lemma visit_stay (keep : ℕ → Prop) (h0 : s.cell i ≠ 0) (hk : keep (s.cell i))
    (hff : FirstFree s.bufSize (update s.cell i 0) (s.place (s.cell i)) i) :
    Visit s.bufSize s.place keep i s.cell s.cell := by
  have hv : Visit s.bufSize s.place keep i s.cell (update (update s.cell i 0) i (s.cell i)) :=
    Visit.move i h0 hk hff
  rwa [update_idem, update_eq_self] at hv

lemma firstFree_place (hi : i < 2 ^ s.sizeDegree) (hplace : s.place (s.cell i) = i) :
    FirstFree s.bufSize (update s.cell i 0) (s.place (s.cell i)) i := by
  rw [hplace]
  exact firstFree_self hi (update_self _ _ _)

lemma visit_reinsert (keep : ℕ → Prop) (hi : i < 2 ^ s.sizeDegree) (h0 : s.cell i ≠ 0) (hk : keep (s.cell i)) :
    Visit s.bufSize s.place keep i s.cell
      (if i ≠ s.place (s.cell i) then (s.setCell i 0).reinsertImpl (s.cell i) else s).cell := by
  split_ifs with hhome
  · have hff := s.firstFree_reinsert_clear hi (s.cell i)
    rw [reinsertImpl, cell_setCell (s := s.setCell i 0) hff.1, cell_setCell hi]
    exact Visit.move _ h0 hk hff
  · exact visit_stay keep h0 hk (firstFree_place hi (not_not.mp hhome).symm)

lemma header_reinsert (hi : i < 2 ^ s.sizeDegree) (h0 : s.cell i ≠ 0) :
    SameHeader s (if i ≠ s.place (s.cell i) then (s.setCell i 0).reinsertImpl (s.cell i) else s) ∧
      List.Perm (if i ≠ s.place (s.cell i) then (s.setCell i 0).reinsertImpl (s.cell i) else s).stored s.stored := by
  split_ifs
  · have hff := s.firstFree_reinsert_clear hi (s.cell i)
    exact ⟨(sameHeader_setCell i 0).trans (sameHeader_setCell _ _), stored_move hi hff.1 h0 hff.2.1⟩
  · exact ⟨SameHeader.refl s, List.Perm.refl _⟩

lemma rehashStep_eq (i : ℕ) : s.rehashStep i =
    if s.cell i = 0 then s
    else if !s.good (s.cell i) then { s.setCell i 0 with mSize := s.mSize - 1 }
    else if i ≠ s.place (s.cell i) then (s.setCell i 0).reinsertImpl (s.cell i) else s := rfl

lemma visit_rehashStep (hi : i < 2 ^ s.sizeDegree) :
    Visit s.bufSize s.place (fun x => s.good x = true) i s.cell (s.rehashStep i).cell := by
  rw [rehashStep_eq]
  by_cases h0 : s.cell i = 0
  · rw [if_pos h0]
    exact Visit.empty h0
  rw [if_neg h0]
  by_cases hgood : s.good (s.cell i)
  · rw [if_neg (by simpa using hgood)]
    exact visit_reinsert _ hi h0 hgood
  · -- a hash that is no longer good is removed
    rw [if_pos (by simpa using hgood)]
    change Visit s.bufSize s.place (fun x => s.good x = true) i s.cell (s.setCell i 0).cell
    rw [cell_setCell hi]
    exact Visit.drop h0 hgood

lemma rehashStep_header (hi : i < 2 ^ s.sizeDegree) :
    (s.cell i = 0 ∨ s.good (s.cell i)) ∧ SameHeader s (s.rehashStep i) ∧ List.Perm (s.rehashStep i).stored s.stored ∨
      (s.cell i ≠ 0 ∧ s.good (s.cell i) = false) ∧ (s.rehashStep i).mSize = s.mSize - 1 ∧
        (s.rehashStep i).sizeDegree = s.sizeDegree ∧ (s.rehashStep i).skipDegree = s.skipDegree ∧
        (s.rehashStep i).hasZero = s.hasZero ∧ List.Perm s.stored (s.cell i :: (s.rehashStep i).stored) := by
  rw [rehashStep_eq]
  by_cases h0 : s.cell i = 0
  · rw [if_pos h0]
    exact .inl ⟨.inl h0, SameHeader.refl s, List.Perm.refl _⟩
  rw [if_neg h0]
  by_cases hgood : s.good (s.cell i)
  · rw [if_neg (by simpa using hgood)]
    exact .inl ⟨.inr hgood, header_reinsert hi h0⟩
  · rw [if_pos (by simpa using hgood)]
    exact .inr ⟨⟨h0, by simpa using hgood⟩, rfl, rfl, rfl, rfl, stored_setCell_zero hi h0⟩

lemma rehashChain_succ (fuel i : ℕ) : rehashChain (fuel + 1) i s =
    if i < s.bufSize ∧ s.cell i ≠ 0 then
      rehashChain fuel (i + 1) (if i ≠ s.place (s.cell i) then (s.setCell i 0).reinsertImpl (s.cell i) else s)
    else s := rfl

lemma setCell_comm {j x y : ℕ} (hij : i ≠ j) : (s.setCell j x).setCell i y = (s.setCell i y).setCell j x := by
  obtain ⟨m, sd, skip, z, buf, hbuf⟩ := s
  simp only [setCell, UniquesHashSet.mk.injEq, true_and]
  exact List.set_comm _ _ hij.symm

lemma resizeLoop_succ (oldSize fuel i : ℕ) : resizeLoop oldSize (fuel + 1) i s =
    if i < oldSize ∨ s.cell i ≠ 0 then
      resizeLoop oldSize fuel (i + 1)
        (if s.cell i = 0 ∨ s.place (s.cell i) = i then s
        else if s.cell (findCell s.buf s.mask (s.cell i) s.bufSize (s.place (s.cell i))) = s.cell i then s
        else (s.setCell (findCell s.buf s.mask (s.cell i) s.bufSize (s.place (s.cell i))) (s.cell i)).setCell i 0)
    else s := rfl

/-- What the loop of `resize` does at cell `i`: the probe for the hash of cell `i` stops at the
first free cell once cell `i` is cleared, or at cell `i` itself. -/
lemma resizeStep_spec (hnd : s.stored.Nodup) (hi : i < 2 ^ s.sizeDegree) :
    let t := if s.cell i = 0 ∨ s.place (s.cell i) = i then s
      else if s.cell (findCell s.buf s.mask (s.cell i) s.bufSize (s.place (s.cell i))) = s.cell i then s
      else (s.setCell (findCell s.buf s.mask (s.cell i) s.bufSize (s.place (s.cell i))) (s.cell i)).setCell i 0
    Visit s.bufSize s.place (fun _ => True) i s.cell t.cell ∧ SameHeader s t ∧ List.Perm t.stored s.stored := by
  intro t
  by_cases h0 : s.cell i = 0
  · rw [show t = s from if_pos (.inl h0)]
    exact ⟨Visit.empty h0, SameHeader.refl s, List.Perm.refl _⟩
  by_cases hplace : s.place (s.cell i) = i
  · rw [show t = s from if_pos (.inr hplace)]
    exact ⟨visit_stay _ h0 trivial (firstFree_place hi hplace), SameHeader.refl s, List.Perm.refl _⟩
  have hff := firstFree_find hnd hi h0
  set j := findCell s.buf s.mask (s.cell i) s.bufSize (s.place (s.cell i))
  by_cases hj : s.cell j = s.cell i
  · -- the probe met the hash itself: cell `i` is the first free cell once cleared
    have hji : j = i := eq_of_cell_eq hnd hff.1 hi (hj ▸ h0) hj
    rw [show t = s from (if_neg (not_or.mpr ⟨h0, hplace⟩)).trans (if_pos hj)]
    rw [hji] at hff
    exact ⟨visit_stay _ h0 trivial hff, SameHeader.refl s, List.Perm.refl _⟩
  · have hij : i ≠ j := fun h => hj (h ▸ rfl)
    have ht : t = (s.setCell i 0).setCell j (s.cell i) :=
      ((if_neg (not_or.mpr ⟨h0, hplace⟩)).trans (if_neg hj)).trans (setCell_comm hij)
    rw [ht, cell_setCell (s := s.setCell i 0) hff.1, cell_setCell hi]
    exact ⟨Visit.move j h0 trivial hff, (sameHeader_setCell i 0).trans (sameHeader_setCell _ _),
      stored_move hi hff.1 h0 hff.2.1⟩

end Steps

end ClickHouse.AggregateFunctions.UniquesHashSet
