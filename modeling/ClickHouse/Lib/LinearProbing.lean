import Mathlib

/-! Open addressing with linear probing over the cells `0 .. size - 1`, where `0` marks an empty
cell and the keys are not stored: a value goes to the first empty cell from its home cell on, and a
lookup walks the occupied cells from a home cell and tries each value it meets. Built from entries
`(home, value)` one after another, each entry can be reached from its home through occupied cells
that hold only entries put before it, so that a lookup meets the entries of one home in the order
they were put. -/

namespace ClickHouse.Lib.LinearProbing

variable {β γ : Type} [Zero β] [DecidableEq β] (size : ℕ)

/-- The first empty cell from `cell` on, among `fuel` cells. -/
def findFree (t : ℕ → β) : ℕ → ℕ → Option ℕ
  | 0, _ => none
  | fuel + 1, cell => if t cell = 0 then some cell else findFree t fuel ((cell + 1) % size)

def insert (t : ℕ → β) (home : ℕ) (v : β) : ℕ → β :=
  match findFree size t size home with
  | some cell => Function.update t cell v
  | none => t

def insertAll (t : ℕ → β) (entries : List (ℕ × β)) : ℕ → β :=
  entries.foldl (fun t e => insert size t e.1 e.2) t

/-- The first result of `f` on the values met from `cell` on, up to an empty cell. -/
def probe (t : ℕ → β) (f : β → Option γ) : ℕ → ℕ → Option γ
  | 0, _ => none
  | fuel + 1, cell =>
    if t cell = 0 then none
    else
      match f (t cell) with
      | some r => some r
      | none => probe t f fuel ((cell + 1) % size)

@[simp] lemma findFree_zero (t : ℕ → β) (cell : ℕ) : findFree size t 0 cell = none := rfl

lemma findFree_succ (t : ℕ → β) (fuel cell : ℕ) :
    findFree size t (fuel + 1) cell = if t cell = 0 then some cell else findFree size t fuel ((cell + 1) % size) :=
  rfl

@[simp] lemma probe_zero (t : ℕ → β) (f : β → Option γ) (cell : ℕ) : probe size t f 0 cell = none := rfl

lemma probe_succ (t : ℕ → β) (f : β → Option γ) (fuel cell : ℕ) :
    probe size t f (fuel + 1) cell =
      if t cell = 0 then none
      else
        match f (t cell) with
        | some r => some r
        | none => probe size t f fuel ((cell + 1) % size) := rfl

@[simp] lemma insertAll_nil (t : ℕ → β) : insertAll size t [] = t := rfl

lemma insertAll_append_singleton (t : ℕ → β) (es : List (ℕ × β)) (x : ℕ × β) :
    insertAll size t (es ++ [x]) = insert size (insertAll size t es) x.1 x.2 := by
  rw [insertAll, List.foldl_append, List.foldl_cons, List.foldl_nil]
  rfl

lemma insert_of_findFree {t : ℕ → β} {home c : ℕ} {v : β} (h : findFree size t size home = some c) :
    insert size t home v = Function.update t c v := by
  rw [insert, h]

variable {size}

/-- The cell `d` steps after `cell`, where the walk turns back to `0` after the last cell. -/
lemma next_add_mod {cell : ℕ} (d : ℕ) : ((cell + 1) % size + d) % size = (cell + (d + 1)) % size := by
  rw [Nat.mod_add_mod, Nat.add_assoc, Nat.add_comm 1 d]

section Walk

variable {t : ℕ → β}

lemma findFree_spec {fuel cell c : ℕ} (hcell : cell < size) (h : findFree size t fuel cell = some c) :
    ∃ d < fuel, c = (cell + d) % size ∧ t c = 0 ∧ ∀ d' < d, t ((cell + d') % size) ≠ 0 := by
  induction fuel generalizing cell with
  | zero => simp at h
  | succ fuel ih =>
    rw [findFree_succ] at h
    by_cases hfree : t cell = 0
    · rw [if_pos hfree, Option.some.injEq] at h
      subst h
      exact ⟨0, by omega, by rw [Nat.add_zero, Nat.mod_eq_of_lt hcell], hfree, fun d' hd' => absurd hd' (by omega)⟩
    · rw [if_neg hfree] at h
      obtain ⟨d, hd, hc, hzero, hbefore⟩ := ih (Nat.mod_lt _ (by omega)) h
      refine ⟨d + 1, by omega, by rw [hc, next_add_mod], hzero, fun d' hd' => ?_⟩
      cases d' with
      | zero => rwa [Nat.add_zero, Nat.mod_eq_of_lt hcell]
      | succ d' => simpa only [next_add_mod] using hbefore d' (by omega)

lemma findFree_isSome {fuel cell d : ℕ} (hcell : cell < size) (hd : d < fuel) (hfree : t ((cell + d) % size) = 0) :
    ∃ c, findFree size t fuel cell = some c := by
  induction fuel generalizing cell d with
  | zero => omega
  | succ fuel ih =>
    rw [findFree_succ]
    by_cases hcur : t cell = 0
    · exact ⟨cell, if_pos hcur⟩
    · rw [if_neg hcur]
      cases d with
      | zero => rw [Nat.add_zero, Nat.mod_eq_of_lt hcell] at hfree; exact absurd hfree hcur
      | succ d => exact @ih ((cell + 1) % size) d (Nat.mod_lt _ (by omega)) (by omega) (by rwa [next_add_mod])

lemma probe_of_empty {f : β → Option γ} {fuel cell : ℕ} (hfuel : 0 < fuel) (h : t cell = 0) :
    probe size t f fuel cell = none := by
  obtain ⟨fuel, rfl⟩ := Nat.exists_eq_add_one_of_ne_zero (Nat.pos_iff_ne_zero.mp hfuel)
  rw [probe_succ, if_pos h]

lemma probe_of_hit {f : β → Option γ} {fuel cell : ℕ} {r : γ} (hfuel : 0 < fuel) (h : t cell ≠ 0)
    (hr : f (t cell) = some r) : probe size t f fuel cell = some r := by
  obtain ⟨fuel, rfl⟩ := Nat.exists_eq_add_one_of_ne_zero (Nat.pos_iff_ne_zero.mp hfuel)
  rw [probe_succ, if_neg h, hr]

/-- What `probe` returns is `f` of an occupied cell. -/
lemma probe_sound_cell {f : β → Option γ} {fuel cell : ℕ} {r : γ} (h : probe size t f fuel cell = some r) :
    ∃ c, t c ≠ 0 ∧ f (t c) = some r := by
  induction fuel generalizing cell with
  | zero => simp at h
  | succ fuel ih =>
    rw [probe_succ] at h
    by_cases hcur : t cell = 0
    · rw [if_pos hcur] at h
      cases h
    · rw [if_neg hcur] at h
      cases hf : f (t cell) with
      | some r' =>
        rw [hf] at h
        exact ⟨cell, hcur, hf.trans h⟩
      | none =>
        rw [hf] at h
        exact ih h

/-- Along a walk of occupied cells from `cell`, `probe` stops at the first cell where `f` has a
result, at the latest at the end of the walk. -/
lemma probe_of_path {f : β → Option γ} {fuel cell d : ℕ} {r : γ} (hcell : cell < size) (hd : d < fuel)
    (hpath : ∀ d' ≤ d, t ((cell + d') % size) ≠ 0) (hr : f (t ((cell + d) % size)) = some r) :
    ∃ d' ≤ d, ∃ r', f (t ((cell + d') % size)) = some r' ∧ probe size t f fuel cell = some r' := by
  induction fuel generalizing cell d with
  | zero => omega
  | succ fuel ih =>
    have hself : (cell + 0) % size = cell := by rw [Nat.add_zero, Nat.mod_eq_of_lt hcell]
    have hcur : t cell ≠ 0 := hself ▸ hpath 0 (Nat.zero_le d)
    rw [probe_succ, if_neg hcur]
    cases hf : f (t cell) with
    | some r' => exact ⟨0, Nat.zero_le d, r', by rw [hself, hf], rfl⟩
    | none =>
      cases d with
      | zero => rw [hself, hf] at hr; cases hr
      | succ d =>
        obtain ⟨d', hd', r', hr', hprobe⟩ := @ih ((cell + 1) % size) d (Nat.mod_lt _ (by omega))
          (by omega) (fun d' hd' => by simpa only [next_add_mod] using hpath (d' + 1) (by omega))
          (by rwa [next_add_mod])
        exact ⟨d' + 1, by omega, r', by rwa [next_add_mod] at hr', hprobe⟩

/-- `probe` keeps its result in a table that agrees on the occupied cells. -/
lemma probe_of_agree {t' : ℕ → β} (hagree : ∀ c, t c ≠ 0 → t' c = t c) {f : β → Option γ} {fuel cell : ℕ} {r : γ}
    (h : probe size t f fuel cell = some r) : probe size t' f fuel cell = some r := by
  induction fuel generalizing cell with
  | zero => simp at h
  | succ fuel ih =>
    rw [probe_succ] at h ⊢
    by_cases hcur : t cell = 0
    · rw [if_pos hcur] at h
      cases h
    · rw [if_neg hcur] at h
      rw [hagree cell hcur, if_neg hcur]
      cases hf : f (t cell) with
      | some r' => rw [hf] at h; exact h
      | none => rw [hf] at h; exact ih h

end Walk

section Counting

variable {t : ℕ → β}

/-- Every cell is some number of steps after `cell`. -/
lemma exists_steps {cell c : ℕ} (hcell : cell < size) (hc : c < size) : ∃ d < size, (cell + d) % size = c := by
  by_cases hle : cell ≤ c
  · exact ⟨c - cell, by omega, by rw [Nat.add_sub_cancel' hle, Nat.mod_eq_of_lt hc]⟩
  · refine ⟨c + size - cell, by omega, ?_⟩
    rw [show cell + (c + size - cell) = c + size by omega, Nat.add_mod_right, Nat.mod_eq_of_lt hc]

/-- With fewer occupied cells than cells, a walk from any cell meets an empty one. -/
lemma exists_free (hcount : ((Finset.range size).filter fun c => t c ≠ 0).card < size) {cell : ℕ} (hcell : cell < size) :
    ∃ d < size, t ((cell + d) % size) = 0 := by
  by_contra hall
  push Not at hall
  have hfull : (Finset.range size).filter (fun c => t c ≠ 0) = Finset.range size := by
    apply Finset.filter_true_of_mem
    intro c hc
    obtain ⟨d, hd, rfl⟩ := exists_steps hcell (Finset.mem_range.mp hc)
    exact hall d hd
  rw [hfull, Finset.card_range] at hcount
  exact absurd hcount (Nat.lt_irrefl size)

variable (size) in
lemma card_update_le (c : ℕ) (v : β) :
    ((Finset.range size).filter fun c' => Function.update t c v c' ≠ 0).card ≤
      ((Finset.range size).filter fun c' => t c' ≠ 0).card + 1 := by
  calc ((Finset.range size).filter fun c' => Function.update t c v c' ≠ 0).card
      ≤ (Insert.insert c ((Finset.range size).filter fun c' => t c' ≠ 0)).card := by
        apply Finset.card_le_card
        intro c' hc'
        rw [Finset.mem_filter] at hc'
        rw [Finset.mem_insert, Finset.mem_filter]
        by_cases hcc : c' = c
        · exact Or.inl hcc
        · rw [Function.update_of_ne hcc] at hc'
          exact Or.inr hc'
    _ ≤ _ := Finset.card_insert_le _ _

end Counting

section Layout

variable (size) in
/-- The table that the entries `es` built: every occupied cell holds the value of an entry; there
are no more occupied cells than entries; and each entry sits `d` steps after its home, past cells
that hold entries put before it. -/
structure Layout (es : List (ℕ × β)) (t : ℕ → β) : Prop where
  nonzero : ∀ e ∈ es, e.2 ≠ 0
  occupied : ∀ c, t c ≠ 0 → ∃ e ∈ es, t c = e.2
  count : ((Finset.range size).filter fun c => t c ≠ 0).card ≤ es.length
  placed : ∀ pre e post, es = pre ++ e :: post → ∃ d < size, t ((e.1 + d) % size) = e.2 ∧
    ∀ d' < d, t ((e.1 + d') % size) ≠ 0 ∧ ∃ e' ∈ pre, t ((e.1 + d') % size) = e'.2

variable (size) in
lemma layout_nil : Layout size ([] : List (ℕ × β)) (fun _ => 0) where
  nonzero e he := absurd he List.not_mem_nil
  occupied c hc := absurd rfl hc
  count := by simp
  placed pre e post h := absurd h.symm (by simp)

variable {es : List (ℕ × β)} {t : ℕ → β}

/-- Putting one more entry keeps the layout, when its home is a cell, its value is not `0` and an
empty cell is left. -/
lemma Layout.insert (hl : Layout size es t) {x : ℕ × β} (hhome : x.1 < size) (hval : x.2 ≠ 0)
    (hlen : es.length < size) : Layout size (es ++ [x]) (insert size t x.1 x.2) := by
  obtain ⟨d₀, hd₀, hfree₀⟩ := exists_free (lt_of_le_of_lt hl.count hlen) hhome
  obtain ⟨c, hc⟩ : ∃ c, findFree size t size x.1 = some c := findFree_isSome hhome hd₀ hfree₀
  obtain ⟨d, hd, rfl, hzero, hbefore⟩ := findFree_spec hhome hc
  rw [insert_of_findFree size hc]
  -- the new value lands on an empty cell, so every occupied cell keeps its value
  have hkeep : ∀ c', t c' ≠ 0 → Function.update t ((x.1 + d) % size) x.2 c' = t c' := by
    intro c' hc'
    apply Function.update_of_ne
    rintro rfl
    exact hc' hzero
  refine ⟨?_, ?_, ?_, ?_⟩
  · intro e he
    rcases List.mem_append.mp he with he | he
    · exact hl.nonzero e he
    · rw [List.mem_singleton.mp he]
      exact hval
  · intro c' hc'
    by_cases hnew : c' = (x.1 + d) % size
    · subst hnew
      exact ⟨x, by simp, by rw [Function.update_self]⟩
    · rw [Function.update_of_ne hnew] at hc' ⊢
      obtain ⟨e, he, hv⟩ := hl.occupied c' hc'
      exact ⟨e, List.mem_append_left _ he, hv⟩
  · have hgrow := card_update_le (t := t) size ((x.1 + d) % size) x.2
    have hcount := hl.count
    rw [List.length_append, List.length_singleton]
    omega
  · intro pre e post hsplit
    rcases List.eq_nil_or_concat post with rfl | ⟨post', y, rfl⟩
    · -- the entry is the new one, behind the cells `findFree` passed
      obtain ⟨rfl, hx⟩ := List.append_inj' hsplit rfl
      obtain rfl := List.singleton_inj.mp hx
      refine ⟨d, hd, Function.update_self .., fun d' hd' => ?_⟩
      have hocc := hbefore d' hd'
      rw [hkeep _ hocc]
      obtain ⟨e', he', hv⟩ := hl.occupied _ hocc
      exact ⟨hocc, e', he', hv⟩
    · -- an older entry keeps its cell and the cells before it
      have hsplit' : es = pre ++ e :: post' := by
        have := hsplit
        rw [List.concat_eq_append, ← List.cons_append, ← List.append_assoc] at this
        exact (List.append_inj' this rfl).1
      obtain ⟨d', hd', hat, hpath⟩ := hl.placed pre e post' hsplit'
      have hocc : t ((e.1 + d') % size) ≠ 0 := by
        rw [hat]
        exact hl.nonzero e (by rw [hsplit']; simp)
      refine ⟨d', hd', by rw [hkeep _ hocc, hat], fun d'' hd'' => ?_⟩
      obtain ⟨hocc', e', he', hv⟩ := hpath d'' hd''
      exact ⟨by rwa [hkeep _ hocc'], e', he', by rw [hkeep _ hocc', hv]⟩


variable (size) in
/-- The table the constructor of an open-addressing table builds from the empty one. -/
theorem layout_insertAll {es : List (ℕ × β)} (hhome : ∀ e ∈ es, e.1 < size) (hval : ∀ e ∈ es, e.2 ≠ 0)
    (hlen : es.length < size) : Layout size es (insertAll size (fun _ => 0) es) := by
  induction es using List.reverseRecOn with
  | nil => exact layout_nil size
  | append_singleton es x ih =>
    rw [insertAll_append_singleton]
    have hlen' : es.length < size := by
      rw [List.length_append, List.length_singleton] at hlen
      omega
    apply Layout.insert _ (hhome x (by simp)) (hval x (by simp)) hlen'
    exact ih (fun e he => hhome e (List.mem_append_left _ he)) (fun e he => hval e (List.mem_append_left _ he)) hlen'

/-- A lookup from the home of an entry that `f` accepts returns `f` of that entry or of an entry
put before it. -/
theorem Layout.probe_finds (hl : Layout size es t) {pre post : List (ℕ × β)} {e : ℕ × β}
    (hsplit : es = pre ++ e :: post) (hhome : e.1 < size) {f : β → Option γ} {r : γ} (hr : f e.2 = some r) :
    ∃ e' ∈ pre ++ [e], ∃ r', f e'.2 = some r' ∧ probe size t f size e.1 = some r' := by
  obtain ⟨d, hd, hat, hpath⟩ := hl.placed pre e post hsplit
  have hocc : ∀ d' ≤ d, t ((e.1 + d') % size) ≠ 0 := by
    intro d' hd'
    rcases Nat.lt_or_eq_of_le hd' with hlt | rfl
    · exact (hpath d' hlt).1
    · rw [hat]
      exact hl.nonzero e (by simp [hsplit])
  obtain ⟨d', hd', r', hr', hprobe⟩ := probe_of_path (f := f) hhome hd hocc (by rw [hat]; exact hr)
  rcases Nat.lt_or_eq_of_le hd' with hlt | rfl
  · obtain ⟨-, e', he', hv⟩ := hpath d' hlt
    exact ⟨e', List.mem_append_left _ he', r', by rwa [← hv], hprobe⟩
  · exact ⟨e, by simp, r', by rwa [← hat], hprobe⟩

/-- What a lookup returns is `f` of an entry. -/
theorem Layout.probe_sound (hl : Layout size es t) {f : β → Option γ} {fuel cell : ℕ} {r : γ}
    (h : probe size t f fuel cell = some r) : ∃ e ∈ es, f e.2 = some r := by
  obtain ⟨c, hc, hr⟩ := probe_sound_cell h
  obtain ⟨e, he, hv⟩ := hl.occupied c hc
  exact ⟨e, he, by rwa [← hv]⟩

end Layout

end ClickHouse.Lib.LinearProbing
