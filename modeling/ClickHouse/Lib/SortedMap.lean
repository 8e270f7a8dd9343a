import Mathlib

/-! An ordered map as it iterates: its entries in strictly increasing key order. The key of an
entry is a function of its first component into a linear order, so that two values with the same
key are the same map key. `lowerBound` splits the entries at the first key not below a given one;
`emplace` inserts there unless that key is present; `erase` removes a key. -/

namespace ClickHouse.Lib.SortedMap

variable {α β κ : Type} [LinearOrder κ] (key : α → κ)

def Sorted (entries : List (α × β)) : Prop :=
  entries.Pairwise (fun a b => key a.1 < key b.1)

/-- The entries before `lower_bound(k)` and those from it on. -/
def lowerBound (k : κ) (entries : List (α × β)) : List (α × β) × List (α × β) :=
  (entries.takeWhile (fun e => decide (key e.1 < k)), entries.dropWhile (fun e => decide (key e.1 < k)))

def emplace (a : α) (b : β) (entries : List (α × β)) : List (α × β) :=
  match (lowerBound key (key a) entries).2 with
  | e :: rest =>
    if key e.1 = key a then entries else (lowerBound key (key a) entries).1 ++ (a, b) :: e :: rest
  | [] => entries ++ [(a, b)]

def erase (k : κ) (entries : List (α × β)) : List (α × β) :=
  entries.filter (fun e => decide (key e.1 ≠ k))

/-- `emplace` before an entry at or above the new key: the entries stay when the keys are equal. -/
lemma emplace_of_snd_eq_cons {a : α} {b : β} {entries : List (α × β)} {e : α × β} {rest : List (α × β)}
    (h : (lowerBound key (key a) entries).2 = e :: rest) :
    emplace key a b entries =
      if key e.1 = key a then entries else (lowerBound key (key a) entries).1 ++ (a, b) :: e :: rest := by
  unfold emplace
  rw [h]

/-- `emplace` past every entry appends the new one. -/
lemma emplace_of_snd_eq_nil {a : α} {b : β} {entries : List (α × β)} (h : (lowerBound key (key a) entries).2 = []) :
    emplace key a b entries = entries ++ [(a, b)] := by
  unfold emplace
  rw [h]

lemma lowerBound_append (k : κ) (entries : List (α × β)) :
    (lowerBound key k entries).1 ++ (lowerBound key k entries).2 = entries :=
  List.takeWhile_append_dropWhile

/-- `emplace` leaves the entries as they are, or adds the new entry somewhere among them. -/
lemma emplace_eq_or_perm (a : α) (b : β) (entries : List (α × β)) :
    emplace key a b entries = entries ∨ List.Perm (emplace key a b entries) ((a, b) :: entries) := by
  cases hsnd : (lowerBound key (key a) entries).2 with
  | cons e rest =>
    rw [emplace_of_snd_eq_cons key hsnd]
    split_ifs
    · exact .inl rfl
    · have hsplit := lowerBound_append key (key a) entries
      rw [hsnd] at hsplit
      have hperm : List.Perm ((lowerBound key (key a) entries).1 ++ (a, b) :: e :: rest)
          ((a, b) :: ((lowerBound key (key a) entries).1 ++ e :: rest)) := List.perm_middle
      rw [hsplit] at hperm
      exact .inr hperm
  | nil =>
    rw [emplace_of_snd_eq_nil key hsnd]
    exact .inr (List.perm_append_singleton _ _)

/-- `emplace` adds its entry unless one with the same key is there. -/
lemma mem_emplace_self (a : α) (b : β) (entries : List (α × β)) :
    (a, b) ∈ emplace key a b entries ∨ ∃ e ∈ entries, key e.1 = key a := by
  cases hsnd : (lowerBound key (key a) entries).2 with
  | cons e rest =>
    rw [emplace_of_snd_eq_cons key hsnd]
    split_ifs with hkey
    · refine .inr ⟨e, ?_, hkey⟩
      rw [← lowerBound_append key (key a) entries, hsnd]
      exact List.mem_append_right _ List.mem_cons_self
    · exact .inl (List.mem_append_right _ List.mem_cons_self)
  | nil =>
    rw [emplace_of_snd_eq_nil key hsnd]
    exact .inl (List.mem_append_right _ (List.mem_singleton_self _))

variable {key}

lemma lt_of_mem_lowerBound_fst {k : κ} {entries : List (α × β)} {e : α × β}
    (he : e ∈ (lowerBound key k entries).1) : key e.1 < k := by
  simpa using List.mem_takeWhile_imp he

/-- Every entry from `lower_bound(k)` on has a key at least `k`. The induction is on the entries:
the first one kept fails the test, and the later ones are larger. -/
lemma le_of_mem_lowerBound_snd {k : κ} {entries : List (α × β)} (hs : Sorted key entries)
    {e : α × β} (he : e ∈ (lowerBound key k entries).2) : k ≤ key e.1 := by
  induction entries with
  | nil => cases he
  | cons a rest ih =>
    rw [lowerBound, List.dropWhile_cons] at he
    have hs' := List.pairwise_cons.mp hs
    split at he
    · exact ih hs'.2 he
    · rename_i hlt
      have hka : k ≤ key a.1 := le_of_not_gt (by simpa using hlt)
      rcases List.mem_cons.mp he with rfl | hrest
      · exact hka
      · exact le_trans hka (le_of_lt (hs'.1 e hrest))

lemma sublist_lowerBound_fst (k : κ) (entries : List (α × β)) :
    List.Sublist (lowerBound key k entries).1 entries :=
  List.takeWhile_sublist _

lemma sublist_lowerBound_snd (k : κ) (entries : List (α × β)) :
    List.Sublist (lowerBound key k entries).2 entries :=
  List.dropWhile_sublist _

lemma mem_of_mem_lowerBound_fst {k : κ} {entries : List (α × β)} {e : α × β}
    (he : e ∈ (lowerBound key k entries).1) : e ∈ entries :=
  (sublist_lowerBound_fst k entries).subset he

lemma mem_of_mem_lowerBound_snd {k : κ} {entries : List (α × β)} {e : α × β}
    (he : e ∈ (lowerBound key k entries).2) : e ∈ entries :=
  (sublist_lowerBound_snd k entries).subset he

lemma Sorted.sublist {l l' : List (α × β)} (hs : Sorted key l) (h : List.Sublist l' l) :
    Sorted key l' :=
  List.Pairwise.sublist h hs

lemma Sorted.lt_of_append {l₁ l₂ : List (α × β)} (hs : Sorted key (l₁ ++ l₂)) {a b : α × β}
    (ha : a ∈ l₁) (hb : b ∈ l₂) : key a.1 < key b.1 :=
  (List.pairwise_append.mp hs).2.2 a ha b hb

lemma sorted_emplace {entries : List (α × β)} (hs : Sorted key entries) (a : α) (b : β) :
    Sorted key (emplace key a b entries) := by
  have hsplit := lowerBound_append key (key a) entries
  have hleft : ∀ e ∈ (lowerBound key (key a) entries).1, key e.1 < key a :=
    fun e he => lt_of_mem_lowerBound_fst he
  have hright : ∀ e ∈ (lowerBound key (key a) entries).2, key a ≤ key e.1 :=
    fun e he => le_of_mem_lowerBound_snd hs he
  have hs' : Sorted key ((lowerBound key (key a) entries).1 ++ (lowerBound key (key a) entries).2) := by
    rwa [hsplit]
  cases hsnd : (lowerBound key (key a) entries).2 with
  | cons e rest =>
    rw [emplace_of_snd_eq_cons key hsnd]
    split_ifs with hkey
    · exact hs
    · rw [hsnd] at hs' hright
      have heq : key a < key e.1 :=
        lt_of_le_of_ne (hright e List.mem_cons_self) (Ne.symm hkey)
      refine List.pairwise_append.mpr ⟨(List.pairwise_append.mp hs').1, ?_, ?_⟩
      · refine List.pairwise_cons.mpr ⟨fun x hx => ?_, (List.pairwise_append.mp hs').2.1⟩
        rcases List.mem_cons.mp hx with rfl | hx
        · exact heq
        · exact lt_of_lt_of_le heq (le_of_lt ((List.pairwise_cons.mp
            (List.pairwise_append.mp hs').2.1).1 x hx))
      · intro x hx y hy
        rcases List.mem_cons.mp hy with rfl | hy
        · exact hleft x hx
        · exact hs'.lt_of_append hx hy
  | nil =>
    rw [emplace_of_snd_eq_nil key hsnd]
    refine List.pairwise_append.mpr ⟨hs, List.pairwise_singleton _ _, ?_⟩
    intro x hx y hy
    rcases List.mem_singleton.mp hy with rfl
    rw [← hsplit, hsnd, List.append_nil] at hx
    exact hleft x hx

lemma mem_emplace {entries : List (α × β)} {a : α} {b : β} {e : α × β}
    (he : e ∈ emplace key a b entries) : e ∈ entries ∨ e = (a, b) := by
  cases hsnd : (lowerBound key (key a) entries).2 with
  | cons x rest =>
    rw [emplace_of_snd_eq_cons key hsnd] at he
    split_ifs at he
    · exact .inl he
    · rw [← lowerBound_append key (key a) entries, hsnd]
      rcases List.mem_append.mp he with h | h
      · exact .inl (List.mem_append_left _ h)
      · rcases List.mem_cons.mp h with h | h
        · exact .inr h
        · exact .inl (List.mem_append_right _ h)
  | nil =>
    rw [emplace_of_snd_eq_nil key hsnd] at he
    rcases List.mem_append.mp he with h | h
    · exact .inl h
    · exact .inr (List.mem_singleton.mp h)

/-- A relation that holds between every two entries, and between the new entry and every old
one, holds between every two entries after `emplace`. -/
lemma mem_emplace_of_mem {entries : List (α × β)} {a : α} {b : β} {e : α × β} (he : e ∈ entries) :
    e ∈ emplace key a b entries := by
  rcases emplace_eq_or_perm key a b entries with h | h
  · rwa [h]
  · exact h.symm.subset (List.mem_cons_of_mem _ he)

lemma pairwise_emplace {R : α × β → α × β → Prop} (hR : ∀ {x y}, R x y → R y x)
    {entries : List (α × β)} (hp : entries.Pairwise R) {a : α} {b : β}
    (ha : ∀ e ∈ entries, R (a, b) e) : (emplace key a b entries).Pairwise R := by
  rcases emplace_eq_or_perm key a b entries with h | h
  · rwa [h]
  · exact (h.pairwise_iff hR).mpr (List.pairwise_cons.mpr ⟨ha, hp⟩)

lemma erase_sublist (k : κ) (entries : List (α × β)) : List.Sublist (erase key k entries) entries :=
  List.filter_sublist

section Runs

/-! Runs of a list: when a test holds on an interval of the list, the run from the front or from the
back where it holds is everything it selects. -/

variable {γ : Type} (c : γ → Bool)

/-- Once the test fails it fails for the rest: the run from the front is the whole filter. -/
lemma takeWhile_eq_filter {l : List γ} (h : l.Pairwise (fun x y => c y = true → c x = true)) :
    l.takeWhile c = l.filter c := by
  induction l with
  | nil => rfl
  | cons a t ih =>
    obtain ⟨ha, ht⟩ := List.pairwise_cons.mp h
    by_cases hca : c a = true
    · rw [List.takeWhile_cons_of_pos hca, List.filter_cons_of_pos hca, ih ht]
    · have hnone : t.filter c = [] := List.filter_eq_nil_iff.mpr fun y hy hcy => hca (ha y hy hcy)
      rw [List.takeWhile_cons_of_neg hca, List.filter_cons_of_neg hca, hnone]

/-- Once the test holds it holds for the rest: the run from the back is the whole filter. -/
lemma rtakeWhile_eq_filter {l : List γ} (h : l.Pairwise (fun x y => c x = true → c y = true)) :
    l.rtakeWhile c = l.filter c := by
  have hrev : l.reverse.Pairwise (fun x y => c y = true → c x = true) := List.pairwise_reverse.mpr h
  rw [List.rtakeWhile, takeWhile_eq_filter c hrev, List.filter_reverse, List.reverse_reverse]

end Runs

end ClickHouse.Lib.SortedMap
