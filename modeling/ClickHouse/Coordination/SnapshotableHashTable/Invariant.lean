import ClickHouse.Coordination.SnapshotableHashTable

/-! The table's invariant. Every call changes the list and the map in one of four ways: a new node
appended and mapped, a node replaced by a new one while it waits in `snapshot_invalid_iters`, a node
unmapped and left waiting, or a node erased; or it changes a node in place. The invariant is proved
for each of these once, and each call is rewritten into one of them. -/

namespace ClickHouse.Coordination.SnapshotableHashTable

open ClickHouse.Lib

variable {V : Type}

section Transitions

variable (t : SnapshotableHashTable V)

@[simps]
def appendNode (key : String) (node : ListNode V) : SnapshotableHashTable V :=
  { t with
    list := t.list ++ [(t.allocated, node)]
    map := t.map ++ [(key, t.allocated)]
    allocated := t.allocated + 1 }

@[simps]
def replaceNode (key : String) (itr : ℕ) (g : ListNode V → ListNode V) (node : ListNode V) :
    SnapshotableHashTable V :=
  { t with
    list := AssocList.modify itr g t.list ++ [(t.allocated, node)]
    map := AssocList.modify key (fun _ => t.allocated) t.map
    snapshotInvalidIters := t.snapshotInvalidIters ++ [itr]
    allocated := t.allocated + 1 }

@[simps]
def retireNode (key : String) (itr : ℕ) (g : ListNode V → ListNode V) : SnapshotableHashTable V :=
  { t with
    list := AssocList.modify itr g t.list
    map := AssocList.erase key t.map
    snapshotInvalidIters := t.snapshotInvalidIters ++ [itr] }

@[simps]
def removeNode (key : String) (itr : ℕ) : SnapshotableHashTable V :=
  { t with list := AssocList.erase itr t.list, map := AssocList.erase key t.map }

/-- What `clearOutdatedNodes` leaves: the nodes not waiting in `snapshot_invalid_iters`. -/
@[simps]
def dropOutdated : SnapshotableHashTable V :=
  { t with
    list := t.list.filter (fun e => e.1 ∉ t.snapshotInvalidIters)
    snapshotInvalidIters := [] }

end Transitions

section Fields

variable (t : SnapshotableHashTable V) (itr : ℕ) (f : ListNode V → ListNode V)

@[simp] lemma modifyNode_list : (t.modifyNode itr f).list = AssocList.modify itr f t.list := rfl
@[simp] lemma modifyNode_map : (t.modifyNode itr f).map = t.map := rfl
@[simp] lemma modifyNode_snapshotInvalidIters : (t.modifyNode itr f).snapshotInvalidIters = t.snapshotInvalidIters := rfl
@[simp] lemma modifyNode_allocated : (t.modifyNode itr f).allocated = t.allocated := rfl
@[simp] lemma modifyNode_currentVersion : (t.modifyNode itr f).currentVersion = t.currentVersion := rfl

end Fields

lemma findNode_eq (t : SnapshotableHashTable V) (key : String) : t.findNode key =
    (AssocList.lookup key t.map).bind (fun itr => (AssocList.lookup itr t.list).bind fun node => some (itr, node)) := by
  simp [findNode]

structure Inv (t : SnapshotableHashTable V) : Prop where
  addresses_nodup : (t.list.map Prod.fst).Nodup
  addresses_lt : ∀ e ∈ t.list, e.1 < t.allocated
  keys_nodup : (t.map.map Prod.fst).Nodup
  mapped : ∀ e ∈ t.map, ∃ node, (e.2, node) ∈ t.list ∧ node.key = e.1
  accounted : ∀ e ∈ t.list, (e.2.key, e.1) ∈ t.map ∨ e.1 ∈ t.snapshotInvalidIters
  invalid : ∀ itr ∈ t.snapshotInvalidIters,
    ∃ node, (itr, node) ∈ t.list ∧ node.activeInMap = false ∧ (node.key, itr) ∉ t.map
  invalid_nodup : t.snapshotInvalidIters.Nodup
  active : ∀ e ∈ t.list, e.2.activeInMap = true → (e.2.key, e.1) ∈ t.map

namespace Inv

variable {t : SnapshotableHashTable V} (h : Inv t)
include h

lemma node_eq {itr : ℕ} {n n' : ListNode V} (hn : (itr, n) ∈ t.list) (hn' : (itr, n') ∈ t.list) : n = n' :=
  AssocList.eq_of_mem_of_mem h.addresses_nodup hn hn'

lemma itr_eq {key : String} {itr itr' : ℕ} (hi : (key, itr) ∈ t.map) (hi' : (key, itr') ∈ t.map) :
    itr = itr' :=
  AssocList.eq_of_mem_of_mem h.keys_nodup hi hi'

lemma key_eq {key : String} {itr : ℕ} {node : ListNode V} (hm : (key, itr) ∈ t.map) (hl : (itr, node) ∈ t.list) :
    node.key = key := by
  obtain ⟨node', hl', hkey⟩ := h.mapped _ hm
  rw [h.node_eq hl hl']
  exact hkey

lemma key_eq_of_itr_eq {key key' : String} {itr : ℕ} (hm : (key, itr) ∈ t.map) (hm' : (key', itr) ∈ t.map) :
    key = key' := by
  obtain ⟨node, hl, rfl⟩ := h.mapped _ hm
  exact h.key_eq hm' hl

lemma lt_allocated_of_mem_map {key : String} {itr : ℕ} (hm : (key, itr) ∈ t.map) : itr < t.allocated := by
  obtain ⟨node, hl, -⟩ := h.mapped _ hm
  exact h.addresses_lt _ hl

lemma allocated_not_mem : t.allocated ∉ t.list.map Prod.fst := by
  intro hmem
  obtain ⟨e, he, heq⟩ := List.mem_map.mp hmem
  exact absurd (h.addresses_lt e he) (by omega)

lemma not_mem_invalid {key : String} {itr : ℕ} (hm : (key, itr) ∈ t.map) : itr ∉ t.snapshotInvalidIters := by
  intro hi
  obtain ⟨node, hl, -, hnot⟩ := h.invalid itr hi
  exact hnot (h.key_eq hm hl ▸ hm)

lemma findNode_eq_some_iff {key : String} {itr : ℕ} {node : ListNode V} :
    t.findNode key = some (itr, node) ↔ (key, itr) ∈ t.map ∧ (itr, node) ∈ t.list := by
  rw [findNode_eq, Option.bind_eq_some_iff]
  constructor
  · rintro ⟨itr', hitr, hnode⟩
    obtain ⟨node', hnode', heq⟩ := Option.bind_eq_some_iff.mp hnode
    cases heq
    exact ⟨AssocList.mem_of_lookup_eq_some hitr, AssocList.mem_of_lookup_eq_some hnode'⟩
  · rintro ⟨hm, hl⟩
    refine ⟨itr, (AssocList.lookup_eq_some_iff h.keys_nodup).mpr hm, ?_⟩
    rw [(AssocList.lookup_eq_some_iff h.addresses_nodup).mpr hl]
    rfl

lemma findNode_eq_none_iff {key : String} : t.findNode key = none ↔ key ∉ t.map.map Prod.fst := by
  rw [← AssocList.lookup_eq_none_iff, findNode_eq, Option.bind_eq_none_iff]
  constructor
  · intro hnone
    cases hitr : AssocList.lookup key t.map with
    | none => rfl
    | some itr =>
      obtain ⟨node, hl, -⟩ := h.mapped _ (AssocList.mem_of_lookup_eq_some hitr)
      have hnode := hnone itr hitr
      rw [(AssocList.lookup_eq_some_iff h.addresses_nodup).mpr hl] at hnode
      cases hnode
  · intro hnone itr hitr
    simp [hnone] at hitr

/-- A node for a key the map does not hold, appended and mapped. -/
lemma appendNode {key : String} (hkey : key ∉ t.map.map Prod.fst) {node : ListNode V} (hnode : node.key = key) :
    Inv (t.appendNode key node) where
  addresses_nodup := AssocList.nodup_map_fst_append_singleton h.addresses_nodup h.allocated_not_mem
  addresses_lt := by
    simp only [appendNode_list, appendNode_allocated]
    intro e he
    rcases List.mem_append.mp he with he | he
    · exact Nat.lt_succ_of_lt (h.addresses_lt e he)
    · rw [List.mem_singleton.mp he]
      exact Nat.lt_succ_self _
  keys_nodup := AssocList.nodup_map_fst_append_singleton h.keys_nodup hkey
  mapped := by
    intro e he
    rcases List.mem_append.mp he with he | he
    · obtain ⟨n, hn, hk⟩ := h.mapped e he
      exact ⟨n, List.mem_append_left _ hn, hk⟩
    · rw [List.mem_singleton.mp he]
      exact ⟨node, List.mem_append_right _ (List.mem_singleton_self _), hnode⟩
  accounted := by
    intro e he
    rcases List.mem_append.mp he with he | he
    · exact (h.accounted e he).imp_left (List.mem_append_left _)
    · rw [List.mem_singleton.mp he, hnode]
      exact .inl (List.mem_append_right _ (List.mem_singleton_self _))
  invalid := by
    intro itr hi
    obtain ⟨n, hn, hact, hnot⟩ := h.invalid itr hi
    refine ⟨n, List.mem_append_left _ hn, hact, fun hm => ?_⟩
    rcases List.mem_append.mp hm with hm | hm
    · exact hnot hm
    · exact Nat.ne_of_lt (h.addresses_lt _ hn) (Prod.mk.inj (List.mem_singleton.mp hm)).2
  invalid_nodup := h.invalid_nodup
  active := by
    intro e he hact
    rcases List.mem_append.mp he with he | he
    · exact List.mem_append_left _ (h.active e he hact)
    · rw [List.mem_singleton.mp he, hnode]
      exact List.mem_append_right _ (List.mem_singleton_self _)

lemma ne_key_of_ne_itr {key k : String} {itr i : ℕ} (hm : (key, itr) ∈ t.map) (hm' : (k, i) ∈ t.map)
    (hi : i ≠ itr) : k ≠ key := by
  rintro rfl
  exact hi (h.itr_eq hm' hm)

lemma ne_itr_of_ne_key {key : String} {itr : ℕ} (hm : (key, itr) ∈ t.map) {e : String × ℕ} (he : e ∈ t.map)
    (hkey : e.1 ≠ key) : e.2 ≠ itr :=
  fun hi => hkey (h.key_eq_of_itr_eq (hi ▸ he) hm)

lemma ne_itr_of_mem_invalid {key : String} {itr i : ℕ} (hm : (key, itr) ∈ t.map) (hi : i ∈ t.snapshotInvalidIters) :
    i ≠ itr :=
  fun heq => h.not_mem_invalid hm (heq ▸ hi)

lemma mem_modify_map {key : String} {itr i : ℕ} (hm : (key, itr) ∈ t.map) {e : String × ℕ} :
    e ∈ AssocList.modify key (fun _ => i) t.map ↔ (e ∈ t.map ∧ e.1 ≠ key) ∨ e = (key, i) :=
  AssocList.mem_modify_of_mem h.keys_nodup hm

lemma mem_modify_list {itr : ℕ} {node : ListNode V} (hl : (itr, node) ∈ t.list) {g : ListNode V → ListNode V}
    {e : ℕ × ListNode V} : e ∈ AssocList.modify itr g t.list ↔ (e ∈ t.list ∧ e.1 ≠ itr) ∨ e = (itr, g node) :=
  AssocList.mem_modify_of_mem h.addresses_nodup hl

lemma nodup_invalid_append {key : String} {itr : ℕ} (hm : (key, itr) ∈ t.map) :
    (t.snapshotInvalidIters ++ [itr]).Nodup :=
  List.nodup_append.mpr ⟨h.invalid_nodup, List.nodup_singleton itr, fun i hi j hj => by
    rw [List.mem_singleton.mp hj]
    rintro rfl
    exact h.not_mem_invalid hm hi⟩

section Replace

variable {key : String} {itr : ℕ} {node : ListNode V} (hm : (key, itr) ∈ t.map) (hl : (itr, node) ∈ t.list)
  {g : ListNode V → ListNode V} (hgkey : (g node).key = node.key)
include hm hl hgkey

/-- The node at `itr` changed in place, with its key kept. -/
lemma modifyNode : Inv (t.modifyNode itr g) where
  addresses_nodup := by
    rw [modifyNode_list, AssocList.map_fst_modify]
    exact h.addresses_nodup
  addresses_lt := by
    intro e he
    rcases (h.mem_modify_list hl).mp he with ⟨he, -⟩ | rfl
    · exact h.addresses_lt e he
    · exact h.addresses_lt (itr, node) hl
  keys_nodup := h.keys_nodup
  mapped := by
    intro e he
    obtain ⟨n, hn, hk⟩ := h.mapped e he
    by_cases hi : e.2 = itr
    · refine ⟨g node, (h.mem_modify_list hl).mpr (.inr (by rw [hi])), ?_⟩
      rw [hgkey, h.node_eq hl (hi ▸ hn), hk]
    · exact ⟨n, (h.mem_modify_list hl).mpr (.inl ⟨hn, hi⟩), hk⟩
  accounted := by
    intro e he
    rcases (h.mem_modify_list hl).mp he with ⟨he, -⟩ | rfl
    · exact h.accounted e he
    · exact .inl (by rw [hgkey, h.key_eq hm hl]; exact hm)
  invalid := by
    intro i hi
    obtain ⟨n, hn, hact, hnot⟩ := h.invalid i hi
    have hne := h.ne_itr_of_mem_invalid hm hi
    exact ⟨n, (h.mem_modify_list hl).mpr (.inl ⟨hn, hne⟩), hact, hnot⟩
  invalid_nodup := h.invalid_nodup
  active := by
    intro e he hact
    rcases (h.mem_modify_list hl).mp he with ⟨he, -⟩ | rfl
    · exact h.active e he hact
    · rw [hgkey, h.key_eq hm hl]
      exact hm

variable (hgact : (g node).activeInMap = false)
include hgact

/-- The node at `itr` left waiting and `key` mapped to a new node. -/
lemma replaceNode {n : ListNode V} (hnkey : n.key = key) : Inv (t.replaceNode key itr g n) where
  addresses_nodup := by
    rw [replaceNode_list]
    refine AssocList.nodup_map_fst_append_singleton ?_ ?_
    · rw [AssocList.map_fst_modify]
      exact h.addresses_nodup
    · rw [AssocList.map_fst_modify]
      exact h.allocated_not_mem
  addresses_lt := by
    simp only [replaceNode_list, replaceNode_allocated]
    intro e he
    rcases List.mem_append.mp he with he | he
    · rcases (h.mem_modify_list hl).mp he with ⟨he, -⟩ | rfl
      · exact Nat.lt_succ_of_lt (h.addresses_lt e he)
      · exact Nat.lt_succ_of_lt (h.addresses_lt (itr, node) hl)
    · rw [List.mem_singleton.mp he]
      exact Nat.lt_succ_self _
  keys_nodup := by
    rw [replaceNode_map, AssocList.map_fst_modify]
    exact h.keys_nodup
  mapped := by
    simp only [replaceNode_map, replaceNode_list]
    intro e he
    rcases (h.mem_modify_map hm).mp he with ⟨he, hkey⟩ | rfl
    · obtain ⟨n', hn', hk⟩ := h.mapped e he
      have hi := h.ne_itr_of_ne_key hm he hkey
      exact ⟨n', List.mem_append_left _ ((h.mem_modify_list hl).mpr (.inl ⟨hn', hi⟩)), hk⟩
    · exact ⟨n, List.mem_append_right _ (List.mem_singleton_self _), hnkey⟩
  accounted := by
    simp only [replaceNode_map, replaceNode_list, replaceNode_snapshotInvalidIters]
    intro e he
    rcases List.mem_append.mp he with he | he
    · rcases (h.mem_modify_list hl).mp he with ⟨he, hi⟩ | rfl
      · rcases h.accounted e he with hme | hinv
        · exact .inl ((h.mem_modify_map hm).mpr (.inl ⟨hme, h.ne_key_of_ne_itr hm hme hi⟩))
        · exact .inr (List.mem_append_left _ hinv)
      · exact .inr (List.mem_append_right _ (List.mem_singleton_self _))
    · rw [List.mem_singleton.mp he, hnkey]
      exact .inl ((h.mem_modify_map hm).mpr (.inr rfl))
  invalid := by
    simp only [replaceNode_map, replaceNode_list, replaceNode_snapshotInvalidIters]
    intro i hi
    rcases List.mem_append.mp hi with hi | hi
    · obtain ⟨n', hn', hact, hnot⟩ := h.invalid i hi
      have hne := h.ne_itr_of_mem_invalid hm hi
      refine ⟨n', List.mem_append_left _ ((h.mem_modify_list hl).mpr (.inl ⟨hn', hne⟩)), hact, ?_⟩
      rw [h.mem_modify_map hm]
      rintro (⟨hme, -⟩ | heq)
      · exact hnot hme
      · exact Nat.ne_of_lt (h.addresses_lt _ hn') (Prod.mk.inj heq).2
    · rw [List.mem_singleton.mp hi]
      refine ⟨g node, List.mem_append_left _ ((h.mem_modify_list hl).mpr (.inr rfl)), hgact, ?_⟩
      rw [h.mem_modify_map hm, hgkey, h.key_eq hm hl]
      rintro (⟨-, hne⟩ | heq)
      · exact hne rfl
      · exact Nat.ne_of_lt (h.addresses_lt _ hl) (Prod.mk.inj heq).2
  invalid_nodup := h.nodup_invalid_append hm
  active := by
    simp only [replaceNode_map, replaceNode_list]
    intro e he hact
    rcases List.mem_append.mp he with he | he
    · rcases (h.mem_modify_list hl).mp he with ⟨he, hi⟩ | rfl
      · have hme := h.active e he hact
        exact (h.mem_modify_map hm).mpr (.inl ⟨hme, h.ne_key_of_ne_itr hm hme hi⟩)
      · rw [hgact] at hact
        cases hact
    · rw [List.mem_singleton.mp he, hnkey]
      exact (h.mem_modify_map hm).mpr (.inr rfl)

/-- `key` unmapped and its node at `itr` left waiting. -/
lemma retireNode : Inv (t.retireNode key itr g) where
  addresses_nodup := by
    rw [retireNode_list, AssocList.map_fst_modify]
    exact h.addresses_nodup
  addresses_lt := by
    intro e he
    rcases (h.mem_modify_list hl).mp he with ⟨he, -⟩ | rfl
    · exact h.addresses_lt e he
    · exact h.addresses_lt (itr, node) hl
  keys_nodup := ((AssocList.erase_sublist key t.map).map Prod.fst).nodup h.keys_nodup
  mapped := by
    simp only [retireNode_map, retireNode_list]
    intro e he
    obtain ⟨he, hkey⟩ := AssocList.mem_erase.mp he
    obtain ⟨n', hn', hk⟩ := h.mapped e he
    have hi := h.ne_itr_of_ne_key hm he hkey
    exact ⟨n', (h.mem_modify_list hl).mpr (.inl ⟨hn', hi⟩), hk⟩
  accounted := by
    simp only [retireNode_map, retireNode_list, retireNode_snapshotInvalidIters]
    intro e he
    rcases (h.mem_modify_list hl).mp he with ⟨he, hi⟩ | rfl
    · rcases h.accounted e he with hme | hinv
      · exact .inl (AssocList.mem_erase.mpr ⟨hme, h.ne_key_of_ne_itr hm hme hi⟩)
      · exact .inr (List.mem_append_left _ hinv)
    · exact .inr (List.mem_append_right _ (List.mem_singleton_self _))
  invalid := by
    simp only [retireNode_map, retireNode_list, retireNode_snapshotInvalidIters]
    intro i hi
    rcases List.mem_append.mp hi with hi | hi
    · obtain ⟨n', hn', hact, hnot⟩ := h.invalid i hi
      have hne := h.ne_itr_of_mem_invalid hm hi
      exact ⟨n', (h.mem_modify_list hl).mpr (.inl ⟨hn', hne⟩), hact,
        fun hme => hnot (AssocList.mem_erase.mp hme).1⟩
    · rw [List.mem_singleton.mp hi]
      refine ⟨g node, (h.mem_modify_list hl).mpr (.inr rfl), hgact, fun hme => ?_⟩
      rw [hgkey, h.key_eq hm hl] at hme
      exact (AssocList.mem_erase.mp hme).2 rfl
  invalid_nodup := h.nodup_invalid_append hm
  active := by
    simp only [retireNode_map, retireNode_list]
    intro e he hact
    rcases (h.mem_modify_list hl).mp he with ⟨he, hi⟩ | rfl
    · have hme := h.active e he hact
      exact AssocList.mem_erase.mpr ⟨hme, h.ne_key_of_ne_itr hm hme hi⟩
    · rw [hgact] at hact
      cases hact

end Replace

/-- `key` unmapped and its node erased from the list. -/
lemma removeNode {key : String} {itr : ℕ} (hm : (key, itr) ∈ t.map) : Inv (t.removeNode key itr) where
  addresses_nodup := ((AssocList.erase_sublist itr t.list).map Prod.fst).nodup h.addresses_nodup
  addresses_lt := fun e he => h.addresses_lt e (AssocList.mem_erase.mp he).1
  keys_nodup := ((AssocList.erase_sublist key t.map).map Prod.fst).nodup h.keys_nodup
  mapped := by
    simp only [removeNode_map, removeNode_list]
    intro e he
    obtain ⟨he, hkey⟩ := AssocList.mem_erase.mp he
    obtain ⟨n', hn', hk⟩ := h.mapped e he
    have hi := h.ne_itr_of_ne_key hm he hkey
    exact ⟨n', AssocList.mem_erase.mpr ⟨hn', hi⟩, hk⟩
  accounted := by
    simp only [removeNode_map, removeNode_list, removeNode_snapshotInvalidIters]
    intro e he
    obtain ⟨he, hi⟩ := AssocList.mem_erase.mp he
    exact (h.accounted e he).imp_left fun hme => AssocList.mem_erase.mpr ⟨hme, h.ne_key_of_ne_itr hm hme hi⟩
  invalid := by
    simp only [removeNode_map, removeNode_list, removeNode_snapshotInvalidIters]
    intro i hi
    obtain ⟨n', hn', hact, hnot⟩ := h.invalid i hi
    have hne := h.ne_itr_of_mem_invalid hm hi
    exact ⟨n', AssocList.mem_erase.mpr ⟨hn', hne⟩, hact, fun hme => hnot (AssocList.mem_erase.mp hme).1⟩
  invalid_nodup := h.invalid_nodup
  active := by
    simp only [removeNode_map, removeNode_list]
    intro e he hact
    obtain ⟨he, hi⟩ := AssocList.mem_erase.mp he
    have hme := h.active e he hact
    exact AssocList.mem_erase.mpr ⟨hme, h.ne_key_of_ne_itr hm hme hi⟩

/-- Once no node waits, the list and the map are the same set of nodes: each list node is the one its key
maps to. -/
lemma perm_of_invalid_nil (hnil : t.snapshotInvalidIters = []) :
    List.Perm (t.list.map fun e => (e.2.key, e.1)) t.map := by
  have hnodup : ((t.list.map fun e => (e.2.key, e.1)).map Prod.snd).Nodup := by
    rw [List.map_map]
    exact h.addresses_nodup
  refine (List.perm_ext_iff_of_nodup (hnodup.of_map _) (h.keys_nodup.of_map _)).mpr fun e => ?_
  constructor
  · intro he
    obtain ⟨e', he', rfl⟩ := List.mem_map.mp he
    rcases h.accounted e' he' with hm | hi
    · exact hm
    · rw [hnil] at hi
      cases hi
  · intro he
    obtain ⟨node, hl, hk⟩ := h.mapped e he
    exact List.mem_map.mpr ⟨(e.2, node), hl, by rw [hk]⟩

/-- The data size is not part of the invariant. -/
lemma setDataSize (s : UInt64) : Inv { t with approximateDataSize := s } :=
  ⟨h.addresses_nodup, h.addresses_lt, h.keys_nodup, h.mapped, h.accounted, h.invalid, h.invalid_nodup, h.active⟩

lemma addDataSize {opType : OperationType} {keySize valueSize oldValueSize : ℕ} {removeOld : Bool} :
    Inv (t.addDataSize opType keySize valueSize oldValueSize removeOld) :=
  h.setDataSize _

/-- The nodes waiting in `snapshot_invalid_iters` erased. -/
lemma dropOutdated : Inv t.dropOutdated where
  addresses_nodup := ((List.filter_sublist).map Prod.fst).nodup h.addresses_nodup
  addresses_lt := fun e he => h.addresses_lt e (List.mem_filter.mp he).1
  keys_nodup := h.keys_nodup
  mapped := by
    intro e he
    obtain ⟨n, hn, hk⟩ := h.mapped e he
    refine ⟨n, List.mem_filter.mpr ⟨hn, ?_⟩, hk⟩
    simpa using h.not_mem_invalid he
  accounted := by
    intro e he
    obtain ⟨he, hi⟩ := List.mem_filter.mp he
    refine .inl ((h.accounted e he).resolve_right ?_)
    simpa using hi
  invalid := by
    intro i hi
    cases hi
  invalid_nodup := List.nodup_nil
  active := fun e he => h.active e (List.mem_filter.mp he).1

end Inv

/-! ### Each call as a transition -/

section Calls

variable [SnapshotValue V] (t : SnapshotableHashTable V) {key : String} {itr : ℕ} {node : ListNode V}

omit [SnapshotValue V] in
lemma insertNew_eq (key : String) (value : V) (ha : t.allocated ∉ t.list.map Prod.fst) :
    t.insertNew key value =
      (t.allocated, t.appendNode key ((ListNode.ofKeyValue key value).setVersion t.currentVersion).setActiveInMap) := by
  unfold insertNew pushBack modifyNode appendNode
  dsimp only
  rw [AssocList.modify_append_singleton_self ha]

lemma insert_of_findNode_none (hf : t.findNode key = none) (ha : t.allocated ∉ t.list.map Prod.fst) (value : V) :
    t.insert key value = ((t.allocated, true),
      (t.appendNode key ((ListNode.ofKeyValue key value).setVersion t.currentVersion).setActiveInMap).addDataSize
        .insertOrReplace key.utf8ByteSize (SnapshotValue.sizeInBytes value) 0 true) := by
  unfold insert
  simp only [hf, insertNew_eq t key value ha]

lemma insert_of_findNode_some (hf : t.findNode key = some (itr, node)) (value : V) :
    t.insert key value = ((itr, false), t) := by
  unfold insert
  simp only [hf]

lemma insertOrReplace_of_findNode_none (hf : t.findNode key = none) (ha : t.allocated ∉ t.list.map Prod.fst)
    (value : V) : t.insertOrReplace key value =
      (t.appendNode key ((ListNode.ofKeyValue key value).setVersion t.currentVersion).setActiveInMap).addDataSize
        .insertOrReplace key.utf8ByteSize (SnapshotValue.sizeInBytes value) 0 true := by
  unfold insertOrReplace
  simp only [hf, insertNew_eq t key value ha]

lemma insertOrReplace_of_snapshot (hf : t.findNode key = some (itr, node))
    (hs : t.snapshotMode ∧ node.version ≤ t.snapshotUpToVersion) (ha : itr ≠ t.allocated) (value : V) :
    t.insertOrReplace key value =
      (t.replaceNode key itr ListNode.setInactiveInMap
        ((ListNode.ofKeyValue node.key value).setVersion t.currentVersion)).addDataSize .insertOrReplace
        key.utf8ByteSize (SnapshotValue.sizeInBytes value) (SnapshotValue.sizeInBytes node.value) false := by
  unfold insertOrReplace pushBack modifyNode setMapped pushInvalid replaceNode
  simp only [hf, if_pos hs]
  rw [AssocList.modify_append_singleton_of_ne (Ne.symm ha)]

lemma insertOrReplace_of_not_snapshot (hf : t.findNode key = some (itr, node))
    (hs : ¬ (t.snapshotMode ∧ node.version ≤ t.snapshotUpToVersion)) (value : V) :
    t.insertOrReplace key value =
      (t.modifyNode itr (fun n => { n with value := value })).addDataSize .insertOrReplace
        key.utf8ByteSize (SnapshotValue.sizeInBytes value) (SnapshotValue.sizeInBytes node.value) true := by
  unfold insertOrReplace
  simp only [hf, if_neg hs]

lemma erase_of_findNode_none (hf : t.findNode key = none) : t.erase key = (false, t) := by
  unfold erase
  simp only [hf]

lemma erase_of_snapshot (hf : t.findNode key = some (itr, node)) (hs : t.snapshotMode = true) :
    t.erase key = (true, (t.retireNode key itr (fun n => n.setInactiveInMap.setFreeKey)).addDataSize .erase
      key.utf8ByteSize 0 (SnapshotValue.sizeInBytes node.value) false) := by
  unfold erase
  simp only [hf]
  rw [if_pos hs]
  rfl

lemma erase_of_not_snapshot (hf : t.findNode key = some (itr, node)) (hs : t.snapshotMode = false) :
    t.erase key = (true, (t.removeNode key itr).addDataSize .erase
      key.utf8ByteSize 0 (SnapshotValue.sizeInBytes node.value) true) := by
  unfold erase
  simp only [hf]
  rw [if_neg (by rw [hs]; decide)]
  rfl

lemma updateValue_of_findNode_none (hf : t.findNode key = none) (updater : V → V) :
    t.updateValue key updater = (.error .logicalError, t) := by
  unfold updateValue
  simp only [hf]

lemma updateValue_of_snapshot (hf : t.findNode key = some (itr, node))
    (hs : t.snapshotMode ∧ node.version ≤ t.snapshotUpToVersion) (updater : V → V) :
    t.updateValue key updater = (.ok t.allocated,
      ((t.replaceNode key itr (fun _ => node.copyFromSnapshotNode.2.setInactiveInMap)
        (({ node.copyFromSnapshotNode.1 with value := updater node.copyFromSnapshotNode.1.value }).setVersion
          t.currentVersion)).addDataSize .update key.utf8ByteSize
        (SnapshotValue.sizeInBytes node.copyFromSnapshotNode.2.value) (SnapshotValue.sizeInBytes node.value) true).addDataSize
        .update key.utf8ByteSize (SnapshotValue.sizeInBytes (updater node.copyFromSnapshotNode.1.value))
        (SnapshotValue.sizeInBytes node.value) false) := by
  unfold updateValue
  simp only [hf, if_pos hs]
  rfl

lemma updateValue_of_not_snapshot (hf : t.findNode key = some (itr, node))
    (hs : ¬ (t.snapshotMode ∧ node.version ≤ t.snapshotUpToVersion)) (updater : V → V) :
    t.updateValue key updater = (.ok itr, (t.modifyNode itr (fun n => { n with value := updater n.value })).addDataSize
      .update key.utf8ByteSize (SnapshotValue.sizeInBytes (updater node.value)) (SnapshotValue.sizeInBytes node.value)
      true) := by
  unfold updateValue
  simp only [hf, if_neg hs]

omit [SnapshotValue V] in
lemma filter_not_mem_cons_of_lookup_eq_none (hl : AssocList.lookup itr t.list = none) (iters : List ℕ) :
    t.list.filter (fun e => e.1 ∉ itr :: iters) = t.list.filter (fun e => e.1 ∉ iters) := by
  refine List.filter_congr fun e he => ?_
  have hne : e.1 ≠ itr := fun heq => AssocList.lookup_eq_none_iff.mp hl (heq ▸ List.mem_map_of_mem he)
  simp [hne]

omit [SnapshotValue V] in
lemma filter_not_mem_erase (iters : List ℕ) :
    (AssocList.erase itr t.list).filter (fun e => e.1 ∉ iters) = t.list.filter (fun e => e.1 ∉ itr :: iters) := by
  rw [AssocList.erase, List.filter_filter]
  refine List.filter_congr fun e _ => ?_
  by_cases hi : e.1 = itr <;> simp [hi]

/-- The loop of `clearOutdatedNodes` erases every node it is given, provided none is active. The induction
is on the addresses, with the table generalised: each step erases one node and counts its size. -/
lemma clearOutdatedNodesLoop_eq (iters : List ℕ) (t : SnapshotableHashTable V)
    (hact : ∀ e ∈ t.list, e.1 ∈ iters → e.2.activeInMap = false) :
    ∃ s, clearOutdatedNodesLoop iters t = (.ok (),
      { t with list := t.list.filter (fun e => e.1 ∉ iters), snapshotInvalidIters := [], approximateDataSize := s }) := by
  induction iters generalizing t with
  | nil => exact ⟨t.approximateDataSize, by simp [clearOutdatedNodesLoop]⟩
  | cons itr iters ih =>
    rw [clearOutdatedNodesLoop]
    cases hl : AssocList.lookup itr t.list with
    | none =>
      obtain ⟨s, hs⟩ := ih t fun e he hi => hact e he (List.mem_cons_of_mem _ hi)
      refine ⟨s, ?_⟩
      rw [hs, filter_not_mem_cons_of_lookup_eq_none t hl]
    | some node =>
      have hnode : node.activeInMap = false :=
        hact (itr, node) (AssocList.mem_of_lookup_eq_some hl) List.mem_cons_self
      obtain ⟨s, hs⟩ := ih (({ t with list := AssocList.erase itr t.list } : SnapshotableHashTable V).addDataSize
        .erase node.key.utf8ByteSize 0 (SnapshotValue.sizeInBytes node.value) true)
        fun e he hi => hact e (AssocList.mem_erase.mp he).1 (List.mem_cons_of_mem _ hi)
      refine ⟨s, ?_⟩
      simp only [hnode, Bool.false_eq_true, if_false]
      rw [hs]
      simp only [addDataSize]
      rw [filter_not_mem_erase t]

/-- Under the invariant no waiting node is active, so `clearOutdatedNodes` succeeds and erases them all. -/
lemma clearOutdatedNodes_eq (h : Inv t) :
    ∃ s, t.clearOutdatedNodes = (.ok (), { t.dropOutdated with approximateDataSize := s }) := by
  refine clearOutdatedNodesLoop_eq t.snapshotInvalidIters t fun e he hi => ?_
  obtain ⟨n, hn, hact, -⟩ := h.invalid e.1 hi
  rw [h.node_eq he hn]
  exact hact

lemma clear_eq (h : Inv t) :
    t.clear = (.ok (), { t.dropOutdated with map := [], list := [], approximateDataSize := 0 }) := by
  obtain ⟨s, hs⟩ := clearOutdatedNodes_eq t h
  rw [clear, hs]

end Calls

/-! ### Runs -/

/-- The calls that change the keys or values. -/
inductive Update (V : Type)
  | insert (key : String) (value : V)
  | insertOrReplace (key : String) (value : V)
  | erase (key : String)
  | updateValue (key : String) (updater : V → V)

/-- Every call of the table; snapshot mode is enabled at the current version, as every caller does. -/
inductive Call (V : Type)
  | update (u : Update V)
  | enableSnapshotMode
  | disableSnapshotMode
  | clearOutdatedNodes
  | clear

section Run

variable [SnapshotValue V] (t : SnapshotableHashTable V)

def update : Update V → SnapshotableHashTable V
  | .insert key value => (t.insert key value).2
  | .insertOrReplace key value => t.insertOrReplace key value
  | .erase key => (t.erase key).2
  | .updateValue key updater => (t.updateValue key updater).2

def call : Call V → SnapshotableHashTable V
  | .update u => t.update u
  | .enableSnapshotMode => t.enableSnapshotMode t.currentVersion
  | .disableSnapshotMode => t.disableSnapshotMode
  | .clearOutdatedNodes => t.clearOutdatedNodes.2
  | .clear => t.clear.2

@[simp] lemma call_clearOutdatedNodes : t.call .clearOutdatedNodes = t.clearOutdatedNodes.2 := rfl

@[simp] lemma call_clear : t.call .clear = t.clear.2 := rfl

def run (calls : List (Call V)) : SnapshotableHashTable V :=
  calls.foldl call t

lemma clearOutdatedNodesLoop_currentVersion (iters : List ℕ) (t : SnapshotableHashTable V) :
    (clearOutdatedNodesLoop iters t).2.currentVersion = t.currentVersion := by
  fun_induction clearOutdatedNodesLoop iters t with
  | case1 => rfl
  | case2 itr iters t hl ih => exact ih
  | case3 itr iters t node hl hact => rfl
  | case4 itr iters t node hl hact ih => exact ih

/-- No update touches the version counter, in any branch. -/
lemma update_currentVersion (u : Update V) : (t.update u).currentVersion = t.currentVersion := by
  cases u with
  | insert key value =>
    unfold update insert
    dsimp only
    split <;> rfl
  | insertOrReplace key value =>
    unfold update insertOrReplace
    dsimp only
    split
    · rfl
    · split <;> rfl
  | erase key =>
    unfold update erase
    dsimp only
    split
    · rfl
    · split <;> rfl
  | updateValue key updater =>
    unfold update updateValue
    dsimp only
    split
    · rfl
    · split <;> rfl

lemma call_currentVersion_le (c : Call V) : (t.call c).currentVersion ≤ t.currentVersion + 1 := by
  cases c with
  | update u => exact Nat.le_succ_of_le (Nat.le_of_eq (update_currentVersion t u))
  | enableSnapshotMode => exact Nat.mod_le _ _
  | disableSnapshotMode => exact Nat.le_succ _
  | clearOutdatedNodes => exact Nat.le_succ_of_le (Nat.le_of_eq (clearOutdatedNodesLoop_currentVersion _ t))
  | clear =>
    have hv := clearOutdatedNodesLoop_currentVersion t.snapshotInvalidIters t
    rw [call_clear]
    unfold clear clearOutdatedNodes
    split <;> rename_i heq <;> rw [heq] at hv <;> exact Nat.le_succ_of_le (Nat.le_of_eq hv)

end Run


/-! ### What an update can do -/

/-- A property of tables that each way an update changes a table keeps, from a table with the
invariant, under the conditions on which the update takes that way. -/
structure UpdateClosed [SnapshotValue V] (P : SnapshotableHashTable V → Prop) : Prop where
  setDataSize : ∀ {t : SnapshotableHashTable V} (s : UInt64), P t → P { t with approximateDataSize := s }
  appendNode : ∀ {t : SnapshotableHashTable V} {key : String} (node : ListNode V), Inv t → P t →
    key ∉ t.map.map Prod.fst → node.key = key → node.version ≤ t.currentVersion → P (t.appendNode key node)
  replaceNode : ∀ {t : SnapshotableHashTable V} {key : String} {itr : ℕ} {node : ListNode V}
    (g : ListNode V → ListNode V) (n : ListNode V), Inv t → P t → (key, itr) ∈ t.map → (itr, node) ∈ t.list →
    t.snapshotMode = true → node.version ≤ t.snapshotUpToVersion →
    (g node).key = node.key → (g node).version = node.version → (g node).activeInMap = false →
    ((g node).value = node.value ∨ (g node).value = (SnapshotValue.copyFromSnapshotNode node.value).2) →
    n.key = key → n.version ≤ t.currentVersion → P (t.replaceNode key itr g n)
  retireNode : ∀ {t : SnapshotableHashTable V} {key : String} {itr : ℕ} {node : ListNode V}
    (g : ListNode V → ListNode V), Inv t → P t → (key, itr) ∈ t.map → (itr, node) ∈ t.list →
    t.snapshotMode = true → (g node).key = node.key → (g node).version = node.version →
    (g node).activeInMap = false → (g node).value = node.value → P (t.retireNode key itr g)
  removeNode : ∀ {t : SnapshotableHashTable V} {key : String} {itr : ℕ}, Inv t → P t → (key, itr) ∈ t.map →
    t.snapshotMode = false → P (t.removeNode key itr)
  modifyNode : ∀ {t : SnapshotableHashTable V} {key : String} {itr : ℕ} {node : ListNode V}
    (g : ListNode V → ListNode V), Inv t → P t → (key, itr) ∈ t.map → (itr, node) ∈ t.list →
    ¬ (t.snapshotMode ∧ node.version ≤ t.snapshotUpToVersion) → (g node).key = node.key →
    (g node).version = node.version → P (t.modifyNode itr g)

namespace UpdateClosed

variable [SnapshotValue V] {P : SnapshotableHashTable V → Prop} (hP : UpdateClosed P)
  {t : SnapshotableHashTable V} (h : Inv t) (ht : P t)
include hP h ht

lemma insert (key : String) (value : V) : P (t.insert key value).2 := by
  rcases hf : t.findNode key with _ | ⟨itr, node⟩
  · rw [insert_of_findNode_none t hf h.allocated_not_mem]
    exact hP.setDataSize _ (hP.appendNode _ h ht (h.findNode_eq_none_iff.mp hf) rfl (Nat.mod_le _ _))
  · rw [insert_of_findNode_some t hf]
    exact ht

lemma insertOrReplace (key : String) (value : V) : P (t.insertOrReplace key value) := by
  rcases hf : t.findNode key with _ | ⟨itr, node⟩
  · rw [insertOrReplace_of_findNode_none t hf h.allocated_not_mem]
    exact hP.setDataSize _ (hP.appendNode _ h ht (h.findNode_eq_none_iff.mp hf) rfl (Nat.mod_le _ _))
  · obtain ⟨hm, hl⟩ := h.findNode_eq_some_iff.mp hf
    by_cases hs : t.snapshotMode ∧ node.version ≤ t.snapshotUpToVersion
    · rw [insertOrReplace_of_snapshot t hf hs (Nat.ne_of_lt (h.lt_allocated_of_mem_map hm))]
      exact hP.setDataSize _ (hP.replaceNode ListNode.setInactiveInMap _ h ht hm hl hs.1 hs.2 rfl rfl rfl (.inl rfl) (by exact (h.key_eq hm hl : node.key = key)) (Nat.mod_le _ _))
    · rw [insertOrReplace_of_not_snapshot t hf hs]
      exact hP.setDataSize _ (hP.modifyNode (fun n => { n with value := value }) h ht hm hl hs rfl rfl)

lemma erase (key : String) : P (t.erase key).2 := by
  rcases hf : t.findNode key with _ | ⟨itr, node⟩
  · rw [erase_of_findNode_none t hf]
    exact ht
  · obtain ⟨hm, hl⟩ := h.findNode_eq_some_iff.mp hf
    cases hs : t.snapshotMode
    · rw [erase_of_not_snapshot t hf hs]
      exact hP.setDataSize _ (hP.removeNode h ht hm hs)
    · rw [erase_of_snapshot t hf hs]
      exact hP.setDataSize _ (hP.retireNode (fun n => n.setInactiveInMap.setFreeKey) h ht hm hl hs rfl rfl rfl rfl)

lemma updateValue (key : String) (updater : V → V) : P (t.updateValue key updater).2 := by
  rcases hf : t.findNode key with _ | ⟨itr, node⟩
  · rw [updateValue_of_findNode_none t hf]
    exact ht
  · obtain ⟨hm, hl⟩ := h.findNode_eq_some_iff.mp hf
    by_cases hs : t.snapshotMode ∧ node.version ≤ t.snapshotUpToVersion
    · rw [updateValue_of_snapshot t hf hs]
      exact hP.setDataSize _ (hP.setDataSize _ (hP.replaceNode (fun _ => node.copyFromSnapshotNode.2.setInactiveInMap)
        _ h ht hm hl hs.1 hs.2 rfl rfl rfl (.inr rfl) (by exact (h.key_eq hm hl : node.key = key))
        (Nat.mod_le _ _)))
    · rw [updateValue_of_not_snapshot t hf hs]
      exact hP.setDataSize _ (hP.modifyNode (fun n => { n with value := updater n.value }) h ht hm hl hs rfl rfl)

/-- Every update keeps a property that each of its ways keeps. -/
lemma update (u : Update V) : P (t.update u) := by
  cases u with
  | insert key value => exact hP.insert h ht key value
  | insertOrReplace key value => exact hP.insertOrReplace h ht key value
  | erase key => exact hP.erase h ht key
  | updateValue key updater => exact hP.updateValue h ht key updater

end UpdateClosed

namespace Inv

variable [SnapshotValue V]

lemma updateClosed : UpdateClosed (Inv : SnapshotableHashTable V → Prop) where
  setDataSize s h := h.setDataSize s
  appendNode _ h _ hkey hnode _ := h.appendNode hkey hnode
  replaceNode _ _ h _ hm hl _ _ hgkey _ hgact _ hnkey _ := h.replaceNode hm hl hgkey hgact hnkey
  retireNode _ h _ hm hl _ hgkey _ hgact _ := h.retireNode hm hl hgkey hgact
  removeNode h _ hm _ := h.removeNode hm
  modifyNode _ h _ hm hl _ hgkey _ := h.modifyNode hm hl hgkey

variable {t : SnapshotableHashTable V} (h : Inv t)
include h

lemma update (u : Update V) : Inv (t.update u) :=
  updateClosed.update h h u

lemma call (c : Call V) : Inv (t.call c) := by
  cases c with
  | update u => exact h.update u
  | enableSnapshotMode =>
    exact ⟨h.addresses_nodup, h.addresses_lt, h.keys_nodup, h.mapped, h.accounted, h.invalid, h.invalid_nodup,
      h.active⟩
  | disableSnapshotMode =>
    exact ⟨h.addresses_nodup, h.addresses_lt, h.keys_nodup, h.mapped, h.accounted, h.invalid, h.invalid_nodup,
      h.active⟩
  | clearOutdatedNodes =>
    obtain ⟨s, hs⟩ := clearOutdatedNodes_eq t h
    rw [SnapshotableHashTable.call_clearOutdatedNodes, hs]
    exact h.dropOutdated.setDataSize s
  | clear =>
    rw [SnapshotableHashTable.call_clear, clear_eq t h]
    exact ⟨List.nodup_nil, nofun, List.nodup_nil, nofun, nofun, nofun, List.nodup_nil, nofun⟩

/-- Every run keeps the invariant. The induction is on the calls, from any table that satisfies it. -/
lemma run (calls : List (Call V)) : Inv (t.run calls) := by
  induction calls generalizing t with
  | nil => exact h
  | cons c calls ih => exact ih (h.call c)

end Inv

lemma Inv.empty : Inv (empty : SnapshotableHashTable V) :=
  ⟨List.nodup_nil, nofun, List.nodup_nil, nofun, nofun, nofun, List.nodup_nil, nofun⟩

/-! ### Versions -/

/-- No node is newer than the current version: the nodes of a snapshot are those up to its version. -/
def VersionsLe (t : SnapshotableHashTable V) : Prop :=
  ∀ e ∈ t.list, e.2.version ≤ t.currentVersion

namespace VersionsLe

variable [SnapshotValue V]

lemma updateClosed : UpdateClosed (VersionsLe : SnapshotableHashTable V → Prop) where
  setDataSize _ hv := hv
  appendNode _ _ hv _ _ hn := by
    intro e he
    rcases List.mem_append.mp he with he | he
    · exact hv e he
    · rw [List.mem_singleton.mp he]
      exact hn
  replaceNode _ _ h hv _ hl _ _ _ hgver _ _ _ hn := by
    intro e he
    rcases List.mem_append.mp he with he | he
    · rcases (h.mem_modify_list hl).mp he with ⟨he, -⟩ | rfl
      · exact hv e he
      · exact hgver ▸ hv _ hl
    · rw [List.mem_singleton.mp he]
      exact hn
  retireNode _ h hv _ hl _ _ hgver _ _ := by
    intro e he
    rcases (h.mem_modify_list hl).mp he with ⟨he, -⟩ | rfl
    · exact hv e he
    · exact hgver ▸ hv _ hl
  removeNode _ hv _ _ := fun e he => hv e (AssocList.mem_erase.mp he).1
  modifyNode _ h hv _ hl _ _ hgver := by
    intro e he
    rcases (h.mem_modify_list hl).mp he with ⟨he, -⟩ | rfl
    · exact hv e he
    · exact hgver ▸ hv _ hl

variable {t : SnapshotableHashTable V} (hv : VersionsLe t) (h : Inv t)
include hv h

/-- `enableSnapshotMode` steps the `size_t` version counter: the versions stay bounded while it does not
wrap. -/
lemma call (c : Call V) (hcv : t.currentVersion + 1 < 2 ^ 64) : VersionsLe (t.call c) := by
  cases c with
  | update u => exact updateClosed.update h hv u
  | enableSnapshotMode =>
    have hle : t.currentVersion ≤ (t.currentVersion + 1) % 2 ^ 64 := by
      rw [Nat.mod_eq_of_lt hcv]
      exact Nat.le_succ _
    exact fun e he => Nat.le_trans (hv e he) hle
  | disableSnapshotMode => exact hv
  | clearOutdatedNodes =>
    obtain ⟨s, hs⟩ := clearOutdatedNodes_eq t h
    rw [SnapshotableHashTable.call_clearOutdatedNodes, hs]
    exact fun e he => hv e (List.mem_filter.mp he).1
  | clear =>
    rw [SnapshotableHashTable.call_clear, clear_eq t h]
    exact nofun

/-- Along a run of fewer than `2 ^ 64` calls less the current version, no node is newer than the
current version. -/
lemma run (calls : List (Call V)) (hcv : t.currentVersion + calls.length < 2 ^ 64) :
    VersionsLe (t.run calls) := by
  induction calls generalizing t with
  | nil => exact hv
  | cons c calls ih =>
    rw [List.length_cons] at hcv
    have hc := call_currentVersion_le t c
    exact ih (hv.call h c (by omega)) (h.call c) (by omega)

end VersionsLe

end ClickHouse.Coordination.SnapshotableHashTable
