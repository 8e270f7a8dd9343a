import Mathlib.Data.List.Nodup

/-! Association lists: a map, or a container whose elements are reached through stable handles,
as the list of its entries. `lookup` finds the entry of a key, `modify` changes its value in place
and `erase` removes it. With distinct keys an entry is found exactly when it is a member. -/

namespace ClickHouse.Lib.AssocList

variable {α β : Type} [DecidableEq α]

def lookup (a : α) : List (α × β) → Option β
  | [] => none
  | e :: l => if e.1 = a then some e.2 else lookup a l

@[simp] lemma lookup_nil (a : α) : lookup a ([] : List (α × β)) = none := rfl

/-- The step of `lookup`; proofs go through this lemma and not the equations of `lookup`. -/
lemma lookup_cons (a : α) (e : α × β) (l : List (α × β)) :
    lookup a (e :: l) = if e.1 = a then some e.2 else lookup a l := rfl

def modify (a : α) (f : β → β) (l : List (α × β)) : List (α × β) :=
  l.map (fun e => if e.1 = a then (e.1, f e.2) else e)

def erase (a : α) (l : List (α × β)) : List (α × β) :=
  l.filter (fun e => decide (e.1 ≠ a))

lemma modify_append (a : α) (f : β → β) (l l' : List (α × β)) :
    modify a f (l ++ l') = modify a f l ++ modify a f l' := by
  unfold modify
  exact List.map_append

lemma erase_cons (a : α) (e : α × β) (l : List (α × β)) :
    erase a (e :: l) = if e.1 = a then erase a l else e :: erase a l := by
  unfold erase
  by_cases h : e.1 = a
  · rw [List.filter_cons_of_neg (by simpa using h), if_pos h]
  · rw [List.filter_cons_of_pos (by simpa using h), if_neg h]

variable {a : α} {b : β} {l : List (α × β)}

lemma mem_of_lookup_eq_some (h : lookup a l = some b) : (a, b) ∈ l := by
  induction l with
  | nil => cases h
  | cons e l ih =>
    rw [lookup_cons] at h
    split_ifs at h with he
    · cases h
      rw [← he]
      exact List.mem_cons_self
    · exact List.mem_cons_of_mem _ (ih h)

lemma lookup_eq_none_iff : lookup a l = none ↔ a ∉ l.map Prod.fst := by
  induction l with
  | nil => simp
  | cons e l ih =>
    rw [lookup_cons, List.map_cons, List.mem_cons]
    split_ifs with he
    · simp [he]
    · rw [ih]
      exact ⟨fun h h' => h'.elim (fun h'' => he h''.symm) h, fun h h' => h (.inr h')⟩

/-- With distinct keys, `lookup` finds exactly the members. -/
lemma lookup_eq_some_iff (hl : (l.map Prod.fst).Nodup) : lookup a l = some b ↔ (a, b) ∈ l := by
  refine ⟨mem_of_lookup_eq_some, fun hmem => ?_⟩
  induction l with
  | nil => cases hmem
  | cons e l ih =>
    rw [List.map_cons, List.nodup_cons] at hl
    rw [lookup_cons]
    rcases List.mem_cons.mp hmem with rfl | hmem
    · rw [if_pos rfl]
    · have hne : e.1 ≠ a := fun he => hl.1 (he ▸ List.mem_map_of_mem hmem)
      rw [if_neg hne]
      exact ih hl.2 hmem

lemma eq_of_mem_of_mem (hl : (l.map Prod.fst).Nodup) {b' : β} (h : (a, b) ∈ l) (h' : (a, b') ∈ l) :
    b = b' :=
  Option.some_inj.mp (((lookup_eq_some_iff hl).mpr h).symm.trans ((lookup_eq_some_iff hl).mpr h'))

lemma map_fst_modify (f : β → β) (l : List (α × β)) : (modify a f l).map Prod.fst = l.map Prod.fst := by
  unfold modify
  rw [List.map_map]
  congr 1
  funext e
  simp only [Function.comp]
  split_ifs <;> rfl

lemma modify_take (f : β → β) (l : List (α × β)) (n : ℕ) : (modify a f l).take n = modify a f (l.take n) := by
  unfold modify
  rw [List.map_take]

lemma length_modify (f : β → β) (l : List (α × β)) : (modify a f l).length = l.length :=
  List.length_map _

lemma mem_modify {f : β → β} {e : α × β} :
    e ∈ modify a f l ↔ (e ∈ l ∧ e.1 ≠ a) ∨ ∃ b, (a, b) ∈ l ∧ e = (a, f b) := by
  unfold modify
  rw [List.mem_map]
  constructor
  · rintro ⟨e', he', rfl⟩
    split_ifs with ha
    · exact .inr ⟨e'.2, ha ▸ he', by rw [ha]⟩
    · exact .inl ⟨he', ha⟩
  · rintro (⟨he, ha⟩ | ⟨b, hb, rfl⟩)
    · exact ⟨e, he, if_neg ha⟩
    · exact ⟨(a, b), hb, if_pos rfl⟩

/-- With distinct keys, `modify` changes the one entry of its key. -/
lemma mem_modify_of_mem (hl : (l.map Prod.fst).Nodup) (hab : (a, b) ∈ l) {f : β → β} {e : α × β} :
    e ∈ modify a f l ↔ (e ∈ l ∧ e.1 ≠ a) ∨ e = (a, f b) := by
  rw [mem_modify]
  constructor
  · rintro (he | ⟨b', hb', rfl⟩)
    · exact .inl he
    · rw [eq_of_mem_of_mem hl hb' hab]
      exact .inr rfl
  · rintro (he | rfl)
    · exact .inl he
    · exact .inr ⟨b, hab, rfl⟩

lemma mem_erase {e : α × β} : e ∈ erase a l ↔ e ∈ l ∧ e.1 ≠ a := by
  unfold erase
  simp

lemma erase_sublist (a : α) (l : List (α × β)) : List.Sublist (erase a l) l :=
  List.filter_sublist

omit [DecidableEq α] in
lemma nodup_map_fst_append_singleton (hl : (l.map Prod.fst).Nodup) (ha : a ∉ l.map Prod.fst) :
    ((l ++ [(a, b)]).map Prod.fst).Nodup := by
  rw [List.map_append, List.map_singleton, List.nodup_append]
  exact ⟨hl, List.nodup_singleton a, fun x hx y hy => by
    rw [List.mem_singleton.mp hy]
    rintro rfl
    exact ha hx⟩

/-! ### Lookups after a change -/

lemma lookup_modify_self (f : β → β) (l : List (α × β)) : lookup a (modify a f l) = (lookup a l).map f := by
  induction l with
  | nil => rfl
  | cons e l ih =>
    unfold modify at ih ⊢
    rw [List.map_cons]
    by_cases he : e.1 = a
    · rw [if_pos he, lookup_cons, if_pos he, lookup_cons, if_pos he]
      rfl
    · rw [if_neg he, lookup_cons, if_neg he, lookup_cons, if_neg he, ih]

lemma lookup_modify_of_ne {a' : α} (h : a' ≠ a) (f : β → β) (l : List (α × β)) :
    lookup a' (modify a f l) = lookup a' l := by
  induction l with
  | nil => rfl
  | cons e l ih =>
    unfold modify at ih ⊢
    rw [List.map_cons]
    by_cases he : e.1 = a
    · rw [if_pos he, lookup_cons, if_neg (fun h' => h (h'.symm.trans he)), lookup_cons,
        if_neg (fun h' => h (h'.symm.trans he)), ih]
    · rw [if_neg he, lookup_cons, lookup_cons, ih]

lemma lookup_modify (a' : α) (f : β → β) (l : List (α × β)) :
    lookup a' (modify a f l) = if a' = a then (lookup a l).map f else lookup a' l := by
  split_ifs with h
  · rw [h, lookup_modify_self]
  · exact lookup_modify_of_ne h f l

lemma lookup_erase_self (a : α) (l : List (α × β)) : lookup a (erase a l) = none := by
  rw [lookup_eq_none_iff]
  intro h
  obtain ⟨e, he, rfl⟩ := List.mem_map.mp h
  exact (mem_erase.mp he).2 rfl

lemma lookup_erase_of_ne {a' : α} (h : a' ≠ a) (l : List (α × β)) : lookup a' (erase a l) = lookup a' l := by
  induction l with
  | nil => rfl
  | cons e l ih =>
    by_cases he : e.1 = a
    · have he' : e.1 ≠ a' := fun h' => h (h'.symm.trans he)
      rw [erase_cons, if_pos he, ih, lookup_cons, if_neg he']
    · rw [erase_cons, if_neg he, lookup_cons, lookup_cons, ih]

lemma lookup_filter {p : α × β → Bool} (hp : ∀ b, (a, b) ∈ l → p (a, b) = true) :
    lookup a (l.filter p) = lookup a l := by
  induction l with
  | nil => rfl
  | cons e l ih =>
    have ih' := ih fun b hb => hp b (List.mem_cons_of_mem _ hb)
    by_cases he : e.1 = a
    · have hpe : p e = true := by
        have := hp e.2 (by rw [← he]; exact List.mem_cons_self)
        rwa [← he] at this
      rw [List.filter_cons_of_pos hpe, lookup_cons, if_pos he, lookup_cons, if_pos he]
    · rw [lookup_cons, if_neg he, ← ih']
      by_cases hpe : p e = true
      · rw [List.filter_cons_of_pos hpe, lookup_cons, if_neg he]
      · rw [List.filter_cons_of_neg hpe]

lemma lookup_append_singleton_of_ne {a' : α} (h : a' ≠ a) (l : List (α × β)) :
    lookup a' (l ++ [(a, b)]) = lookup a' l := by
  induction l with
  | nil => simp [lookup_cons, Ne.symm h]
  | cons e l ih =>
    rw [List.cons_append, lookup_cons, lookup_cons, ih]

lemma lookup_append_singleton_self (ha : a ∉ l.map Prod.fst) : lookup a (l ++ [(a, b)]) = some b := by
  induction l with
  | nil => simp [lookup_cons]
  | cons e l ih =>
    rw [List.map_cons, List.mem_cons, not_or] at ha
    rw [List.cons_append, lookup_cons, if_neg (Ne.symm ha.1), ih ha.2]

lemma lookup_append_singleton (ha : a ∉ l.map Prod.fst) (a' : α) :
    lookup a' (l ++ [(a, b)]) = if a' = a then some b else lookup a' l := by
  split_ifs with h
  · rw [h, lookup_append_singleton_self ha]
  · exact lookup_append_singleton_of_ne h l

lemma modify_append_singleton_of_ne {a' : α} (h : a' ≠ a) (f : β → β) (l : List (α × β)) :
    modify a f (l ++ [(a', b)]) = modify a f l ++ [(a', b)] := by
  rw [modify_append]
  unfold modify
  simp [h]

lemma modify_of_not_mem (ha : a ∉ l.map Prod.fst) (f : β → β) : modify a f l = l := by
  induction l with
  | nil => rfl
  | cons e l ih =>
    rw [List.map_cons, List.mem_cons, not_or] at ha
    unfold modify at ih ⊢
    rw [List.map_cons, if_neg (Ne.symm ha.1), ih ha.2]

lemma modify_append_singleton_self (ha : a ∉ l.map Prod.fst) (f : β → β) :
    modify a f (l ++ [(a, b)]) = l ++ [(a, f b)] := by
  rw [modify_append, modify_of_not_mem ha]
  unfold modify
  simp

end ClickHouse.Lib.AssocList
