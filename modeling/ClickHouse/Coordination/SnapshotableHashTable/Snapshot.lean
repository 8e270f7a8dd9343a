import ClickHouse.Coordination.SnapshotableHashTable.Refinement

/-! Snapshot isolation. Snapshot mode begins with the whole list as the snapshot; from then on no node of
it is changed in place, so whatever the updates, the first nodes of the list keep their keys and values
(the value less what `copyFromSnapshotNode` moved to a copy). Once snapshot mode ends,
`clearOutdatedNodes` erases the nodes the map no longer holds. -/

namespace ClickHouse.Coordination.SnapshotableHashTable

open ClickHouse.Lib

variable {V : Type} [SnapshotValue V]

/-- A node `e0` of the list when snapshot mode began, and the node `e` at its place now: the same
address, key and version, and the same value, or, once it waits in `invalid`, what
`copyFromSnapshotNode` left in it. -/
def Kept (invalid : List ℕ) (e0 e : ℕ × ListNode V) : Prop :=
  e.1 = e0.1 ∧ e.2.key = e0.2.key ∧ e.2.version = e0.2.version ∧
    (e.2.value = e0.2.value ∨ e.2.value = (SnapshotValue.copyFromSnapshotNode e0.2.value).2 ∧ e.1 ∈ invalid)

lemma Kept.mono {invalid invalid' : List ℕ} {e0 e : ℕ × ListNode V} (hk : Kept invalid e0 e)
    (hsub : invalid ⊆ invalid') : Kept invalid' e0 e :=
  ⟨hk.1, hk.2.1, hk.2.2.1, hk.2.2.2.imp_right fun hv => ⟨hv.1, hsub hv.2⟩⟩

/-- The table in snapshot mode, with `L0` the list when it began: the first nodes of the list are still
those of `L0`, and each of them is at most the snapshot's version. -/
structure Snapshot (L0 : List (ℕ × ListNode V)) (t : SnapshotableHashTable V) : Prop where
  mode : t.snapshotMode = true
  length_le : L0.length ≤ t.list.length
  kept : List.Forall₂ (Kept t.snapshotInvalidIters) L0 (t.list.take L0.length)
  version_le : ∀ e ∈ L0, e.2.version ≤ t.snapshotUpToVersion

lemma forall₂_imp_of_mem {α β : Type} {R S : α → β → Prop} {l₁ : List α} {l₂ : List β}
    (h : List.Forall₂ R l₁ l₂) (hs : ∀ a ∈ l₁, ∀ b ∈ l₂, R a b → S a b) : List.Forall₂ S l₁ l₂ :=
  List.forall₂_iff_zip.mpr ⟨h.length_eq, fun hab =>
    hs _ (List.of_mem_zip hab).1 _ (List.of_mem_zip hab).2 (List.forall₂_zip h hab)⟩

namespace Snapshot

section Modify

variable {L0 : List (ℕ × ListNode V)} {t : SnapshotableHashTable V} (hs : Snapshot L0 t)
include hs

/-- Changing one node in place keeps the prefix, given what becomes of that node if it is one of the
prefix. -/
lemma kept_modify {invalid : List ℕ} (hsub : t.snapshotInvalidIters ⊆ invalid) {itr : ℕ}
    {g : ListNode V → ListNode V}
    (hitr : ∀ e0 ∈ L0, ∀ n, (itr, n) ∈ t.list → Kept t.snapshotInvalidIters e0 (itr, n) → Kept invalid e0 (itr, g n)) :
    List.Forall₂ (Kept invalid) L0 ((AssocList.modify itr g t.list).take L0.length) := by
  rw [AssocList.modify_take, AssocList.modify, List.forall₂_map_right_iff]
  refine forall₂_imp_of_mem hs.kept fun e0 he0 e he hk => ?_
  have he' := List.mem_of_mem_take he
  split_ifs with hitr'
  · obtain ⟨i, n⟩ := e
    cases hitr'
    exact hitr e0 he0 n he' hk
  · exact hk.mono hsub

end Modify

/-- A node of the snapshot that an update replaces or unmaps is mapped, so it still holds its value at
that point; what it holds afterwards is its value or what the copy left. -/
lemma kept_retired {t : SnapshotableHashTable V} (h : Inv t) {key : String} {itr : ℕ} {node : ListNode V}
    (hm : (key, itr) ∈ t.map) {g : ListNode V → ListNode V} (hgkey : (g node).key = node.key)
    (hgver : (g node).version = node.version)
    (hgval : (g node).value = node.value ∨ (g node).value = (SnapshotValue.copyFromSnapshotNode node.value).2)
    {e0 : ℕ × ListNode V} (hk : Kept t.snapshotInvalidIters e0 (itr, node)) :
    Kept (t.snapshotInvalidIters ++ [itr]) e0 (itr, g node) := by
  have hval : node.value = e0.2.value := hk.2.2.2.resolve_right fun hv => h.not_mem_invalid hm hv.2
  refine ⟨hk.1, hgkey.trans hk.2.1, hgver.trans hk.2.2.1, ?_⟩
  rcases hgval with hgval | hgval
  · exact .inl (hgval.trans hval)
  · exact .inr ⟨by rw [hgval, hval], List.mem_append_right _ (List.mem_singleton_self _)⟩

lemma updateClosed (L0 : List (ℕ × ListNode V)) : UpdateClosed (Snapshot L0 : SnapshotableHashTable V → Prop) where
  setDataSize _ hs := ⟨hs.mode, hs.length_le, hs.kept, hs.version_le⟩
  appendNode _ _ hs _ _ _ := by
    refine ⟨hs.mode, ?_, ?_, hs.version_le⟩
    · rw [appendNode_list, List.length_append]
      exact Nat.le_add_right_of_le hs.length_le
    · rw [appendNode_list, List.take_append_of_le_length hs.length_le]
      exact hs.kept
  replaceNode := by
    intro t key itr node g n h hs hm hl _ _ hgkey hgver _ hgval _ _
    have hlen : L0.length ≤ (AssocList.modify itr g t.list).length := by
      rw [AssocList.length_modify]
      exact hs.length_le
    refine ⟨hs.mode, ?_, ?_, hs.version_le⟩
    · rw [replaceNode_list, List.length_append]
      exact Nat.le_add_right_of_le hlen
    · rw [replaceNode_list, List.take_append_of_le_length hlen]
      refine hs.kept_modify (List.subset_append_left _ _) fun e0 _ n' hn hk => ?_
      rw [h.node_eq hn hl] at hk ⊢
      exact kept_retired h hm hgkey hgver hgval hk
  retireNode g h hs hm hl _ hgkey hgver _ hgval := by
    refine ⟨hs.mode, ?_, ?_, hs.version_le⟩
    · rw [retireNode_list, AssocList.length_modify]
      exact hs.length_le
    · refine hs.kept_modify (List.subset_append_left _ _) fun e0 _ n hn hk => ?_
      rw [h.node_eq hn hl] at hk ⊢
      exact kept_retired h hm hgkey hgver (.inl hgval) hk
  removeNode _ hs _ hmode := absurd (hmode.symm.trans hs.mode) Bool.false_ne_true
  modifyNode := by
    intro t key itr node g h hs _ hl hnot _ _
    -- the node changed in place is newer than the snapshot, so it is none of the snapshot's nodes
    have hnew : ¬ node.version ≤ t.snapshotUpToVersion := fun hle => hnot ⟨hs.mode, hle⟩
    refine ⟨hs.mode, ?_, ?_, hs.version_le⟩
    · rw [modifyNode_list, AssocList.length_modify]
      exact hs.length_le
    · refine hs.kept_modify (List.Subset.refl _) fun e0 he0 n hn hk => ?_
      rw [h.node_eq hn hl] at hk
      exact absurd (hk.2.2.1 ▸ hs.version_le e0 he0) hnew

/-- Snapshot mode begins with the whole list as the snapshot. -/
lemma enable {t : SnapshotableHashTable V} (hv : VersionsLe t) : Snapshot t.list (t.call .enableSnapshotMode) where
  mode := rfl
  length_le := Nat.le_refl _
  kept := by
    simp only [call, enableSnapshotMode, List.take_length]
    exact List.forall₂_same.mpr fun e _ => ⟨rfl, rfl, rfl, .inl rfl⟩
  version_le := hv

/-- The updates made in snapshot mode keep the snapshot. The induction is on the updates, with the
invariant carried along. -/
lemma run_updates {L0 : List (ℕ × ListNode V)} {t : SnapshotableHashTable V} (h : Inv t) (hs : Snapshot L0 t)
    (us : List (Update V)) : Snapshot L0 (t.run (us.map Call.update)) := by
  induction us generalizing t with
  | nil => exact hs
  | cons u us ih => exact ih (h.update u) ((updateClosed L0).update h hs u)

end Snapshot

omit [SnapshotValue V] in
/-- When every node is active, the list is exactly the map's nodes. -/
lemma Inv.findNode_eq_some_iff_of_active {t : SnapshotableHashTable V} (h : Inv t)
    (hactive : ∀ e ∈ t.list, e.2.activeInMap = true) (key : String) (e : ℕ × ListNode V) :
    t.findNode key = some e ↔ e ∈ t.list ∧ e.2.key = key := by
  constructor
  · intro hf
    obtain ⟨hm, hl⟩ := h.findNode_eq_some_iff.mp hf
    exact ⟨hl, h.key_eq hm hl⟩
  · rintro ⟨hl, rfl⟩
    exact h.findNode_eq_some_iff.mpr ⟨h.active e hl (hactive e hl), hl⟩

theorem run_enableSnapshotMode_kept (t : SnapshotableHashTable V) (h : Inv t) (hv : VersionsLe t)
    (hactive : ∀ e ∈ t.list, e.2.activeInMap = true) (us : List (Update V)) :
    (∀ key e, t.findNode key = some e ↔ e ∈ t.list ∧ e.2.key = key) ∧
    List.Forall₂ (fun e0 e => e.2.key = e0.2.key ∧
        (e.2.value = e0.2.value ∨ e.2.value = (SnapshotValue.copyFromSnapshotNode e0.2.value).2))
      t.list ((t.run (.enableSnapshotMode :: us.map .update)).list.take t.list.length) := by
  refine ⟨h.findNode_eq_some_iff_of_active hactive, ?_⟩
  have hs := Snapshot.run_updates (h.call .enableSnapshotMode) (Snapshot.enable hv) us
  exact hs.kept.imp fun e0 e hk => ⟨hk.2.1, hk.2.2.2.imp_right And.left⟩

theorem run_enableSnapshotMode_kept_hello :
    let t := (empty : SnapshotableHashTable IntNode).run [.update (.insert "/hello" ⟨7⟩)]
    let us : List (Update IntNode) := [.insert "/hello" ⟨145⟩, .updateValue "/hello" fun _ => ⟨554⟩]
    Inv t ∧ VersionsLe t ∧ (∀ e ∈ t.list, e.2.activeInMap = true) ∧
    (∀ key e, t.findNode key = some e ↔ e ∈ t.list ∧ e.2.key = key) ∧
    List.Forall₂ (fun e0 e => e.2.key = e0.2.key ∧
        (e.2.value = e0.2.value ∨ e.2.value = (SnapshotValue.copyFromSnapshotNode e0.2.value).2))
      t.list ((t.run (.enableSnapshotMode :: us.map .update)).list.take t.list.length) := by
  intro t us
  have h : Inv t := Inv.empty.run _
  have hv : VersionsLe t := by
    unfold VersionsLe
    decide
  have hactive : ∀ e ∈ t.list, e.2.activeInMap = true := by decide
  exact ⟨h, hv, hactive, run_enableSnapshotMode_kept t h hv hactive us⟩

theorem run_clearOutdatedNodes_perm (calls : List (Call V)) :
    let t := ((empty : SnapshotableHashTable V).run calls).disableSnapshotMode
    t.clearOutdatedNodes.1 = .ok () ∧
      List.Perm (t.clearOutdatedNodes.2.list.map fun e => (e.2.key, e.1)) t.clearOutdatedNodes.2.map := by
  intro t
  have h : Inv t := (Inv.empty.run calls).call .disableSnapshotMode
  obtain ⟨s, hs⟩ := clearOutdatedNodes_eq t h
  rw [hs]
  exact ⟨rfl, (h.dropOutdated.setDataSize s).perm_of_invalid_nil rfl⟩

/-- Replacing a key's node in snapshot mode maps the key to a new node that is not active in the map. -/
lemma Inv.findNode_insertOrReplace_of_snapshot {t : SnapshotableHashTable V} (h : Inv t) {key : String} {itr : ℕ}
    {node : ListNode V} (hf : t.findNode key = some (itr, node))
    (hs : t.snapshotMode ∧ node.version ≤ t.snapshotUpToVersion) (value : V) :
    (t.insertOrReplace key value).findNode key =
      some (t.allocated, (ListNode.ofKeyValue node.key value).setVersion t.currentVersion) := by
  obtain ⟨hm, -⟩ := h.findNode_eq_some_iff.mp hf
  rw [insertOrReplace_of_snapshot t hf hs (Nat.ne_of_lt (h.lt_allocated_of_mem_map hm))]
  exact (h.findNode_replaceNode hm _ _ key).trans (if_pos rfl)

/-! ### Active nodes -/

/-- Every node the map holds is active. -/
def MappedActive (t : SnapshotableHashTable V) : Prop :=
  ∀ key e, t.findNode key = some e → e.2.activeInMap = true

namespace MappedActive

variable {t : SnapshotableHashTable V} (ha : MappedActive t)
include ha

omit [SnapshotValue V] in
/-- A change at one key keeps every node of the map active if the key's new node is. -/
lemma update_at {t' : SnapshotableHashTable V} {key : String} {r : Option (ℕ × ListNode V)}
    (ht' : ∀ k, t'.findNode k = if k = key then r else t.findNode k) (hr : ∀ e ∈ r, e.2.activeInMap = true) :
    MappedActive t' := by
  intro k e hf
  rw [ht'] at hf
  split_ifs at hf
  · exact hr e hf
  · exact ha k e hf

variable (h : Inv t)
include h

lemma insert (key : String) (value : V) : MappedActive (t.insert key value).2 := by
  rcases hf : t.findNode key with _ | ⟨itr, node⟩
  · rw [insert_of_findNode_none t hf h.allocated_not_mem]
    refine ha.update_at (h.findNode_appendNode (h.findNode_eq_none_iff.mp hf) _) ?_
    rintro e ⟨⟩
    rfl
  · rw [insert_of_findNode_some t hf]
    exact ha

lemma erase (key : String) : MappedActive (t.erase key).2 := by
  rcases hf : t.findNode key with _ | ⟨itr, node⟩
  · rw [erase_of_findNode_none t hf]
    exact ha
  · obtain ⟨hm, -⟩ := h.findNode_eq_some_iff.mp hf
    cases hs : t.snapshotMode
    · rw [erase_of_not_snapshot t hf hs]
      exact ha.update_at (h.findNode_removeNode hm) fun _ he => by cases he
    · rw [erase_of_snapshot t hf hs]
      exact ha.update_at (h.findNode_retireNode hm fun n => n.setInactiveInMap.setFreeKey) fun _ he => by cases he

/-- The copy `updateValue` maps keeps the metadata of the node it copies, which is active. -/
lemma updateValue (key : String) (updater : V → V) : MappedActive (t.updateValue key updater).2 := by
  rcases hf : t.findNode key with _ | ⟨itr, node⟩
  · rw [updateValue_of_findNode_none t hf]
    exact ha
  · obtain ⟨hm, hl⟩ := h.findNode_eq_some_iff.mp hf
    have hact : node.activeInMap = true := ha key _ hf
    by_cases hs : t.snapshotMode ∧ node.version ≤ t.snapshotUpToVersion
    · rw [updateValue_of_snapshot t hf hs]
      refine ha.update_at (h.findNode_replaceNode hm _ _) ?_
      rintro e ⟨⟩
      exact hact
    · rw [updateValue_of_not_snapshot t hf hs]
      refine ha.update_at (h.findNode_modifyNode hm (fun n => { n with value := updater n.value }) hl) ?_
      rintro e ⟨⟩
      exact hact

/-- `insertOrReplace` keeps every node of the map active, except when it replaces a node of the
snapshot. -/
lemma insertOrReplace (key : String) (value : V)
    (hs : ∀ itr node, t.findNode key = some (itr, node) → ¬ (t.snapshotMode ∧ node.version ≤ t.snapshotUpToVersion)) :
    MappedActive (t.insertOrReplace key value) := by
  rcases hf : t.findNode key with _ | ⟨itr, node⟩
  · rw [insertOrReplace_of_findNode_none t hf h.allocated_not_mem]
    refine ha.update_at (h.findNode_appendNode (h.findNode_eq_none_iff.mp hf) _) ?_
    rintro e ⟨⟩
    rfl
  · obtain ⟨hm, hl⟩ := h.findNode_eq_some_iff.mp hf
    have hact : node.activeInMap = true := ha key _ hf
    rw [insertOrReplace_of_not_snapshot t hf (hs itr node hf)]
    refine ha.update_at (h.findNode_modifyNode hm (fun n => { n with value := value }) hl) ?_
    rintro e ⟨⟩
    exact hact

lemma call (c : Call V) (hc : ∀ key value, c ≠ .update (.insertOrReplace key value)) : MappedActive (t.call c) := by
  cases c with
  | update u =>
    cases u with
    | insert key value => exact ha.insert h key value
    | insertOrReplace key value => exact absurd rfl (hc key value)
    | erase key => exact ha.erase h key
    | updateValue key updater => exact ha.updateValue h key updater
  | enableSnapshotMode => exact ha
  | disableSnapshotMode => exact ha
  | clearOutdatedNodes =>
    obtain ⟨s, hs⟩ := clearOutdatedNodes_eq t h
    rw [SnapshotableHashTable.call, hs]
    intro k e hf
    exact ha k e ((h.findNode_dropOutdated k).symm.trans hf)
  | clear =>
    rw [SnapshotableHashTable.call, clear_eq t h]
    intro k e hf
    cases hf

lemma run (calls : List (Call V)) (hcalls : ∀ c ∈ calls, ∀ key value, c ≠ .update (.insertOrReplace key value)) :
    MappedActive (t.run calls) := by
  induction calls generalizing t with
  | nil => exact ha
  | cons c calls ih =>
    exact ih (ha.call h c (hcalls c List.mem_cons_self)) (h.call c)
      fun c' hc' => hcalls c' (List.mem_cons_of_mem _ hc')

end MappedActive

omit [SnapshotValue V] in
lemma MappedActive.empty : MappedActive (empty : SnapshotableHashTable V) := by
  intro k e hf
  cases hf

theorem run_clearOutdatedNodes_active (calls : List (Call V))
    (hcalls : ∀ c ∈ calls, ∀ key value, c ≠ .update (.insertOrReplace key value)) :
    let t := ((empty : SnapshotableHashTable V).run calls).disableSnapshotMode
    ∀ e ∈ t.clearOutdatedNodes.2.list, e.2.activeInMap = true := by
  intro t e he
  have h : Inv t := (Inv.empty.run calls).call .disableSnapshotMode
  have ha : MappedActive t := MappedActive.empty.run Inv.empty calls hcalls
  obtain ⟨s, hs⟩ := clearOutdatedNodes_eq t h
  rw [hs] at he
  have h' := h.dropOutdated.setDataSize s
  have hm : (e.2.key, e.1) ∈ t.dropOutdated.map :=
    (h'.accounted e he).resolve_right nofun
  exact ha e.2.key e ((h.findNode_dropOutdated _).symm.trans (h'.findNode_eq_some_iff.mpr ⟨hm, he⟩))

theorem run_clearOutdatedNodes_active_trySnapshot :
    (∀ c ∈ trySnapshotCalls, ∀ key value, c ≠ .update (.insertOrReplace key value)) ∧
    let t := ((empty : SnapshotableHashTable IntNode).run trySnapshotCalls).disableSnapshotMode
    ∀ e ∈ t.clearOutdatedNodes.2.list, e.2.activeInMap = true := by
  have hcalls : ∀ c ∈ trySnapshotCalls, ∀ key value, c ≠ .update (.insertOrReplace key value) := by
    simp [trySnapshotCalls]
  exact ⟨hcalls, run_clearOutdatedNodes_active trySnapshotCalls hcalls⟩

/-- The test's expectations: the four nodes of the map, in list order, each active. -/
example : (((empty : SnapshotableHashTable IntNode).run trySnapshotCalls).disableSnapshotMode.clearOutdatedNodes.2.list.map
    fun e => (e.2.key, e.2.value, e.2.activeInMap)) =
      [("/hello", ⟨554⟩, true), ("/hello0", ⟨0⟩, true), ("/hello1", ⟨1⟩, true), ("/hello4", ⟨4⟩, true)] := by
  decide

/-- A snapshot that begins with one key, which `insertOrReplace` then replaces. -/
def replaceInSnapshotCalls : List (Call IntNode) :=
  [.update (.insert "a" ⟨1⟩), .enableSnapshotMode, .update (.insertOrReplace "a" ⟨2⟩), .disableSnapshotMode,
    .clearOutdatedNodes]

theorem run_insertOrReplace_inactive :
    ((empty : SnapshotableHashTable IntNode).run replaceInSnapshotCalls).map = [("a", 1)] ∧
    ((empty : SnapshotableHashTable IntNode).run replaceInSnapshotCalls).list.map
      (fun e => (e.1, e.2.key, e.2.value, e.2.activeInMap)) = [(1, "a", ⟨2⟩, false)] := by
  decide

end ClickHouse.Coordination.SnapshotableHashTable
