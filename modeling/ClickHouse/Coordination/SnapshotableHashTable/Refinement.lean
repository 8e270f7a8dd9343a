import ClickHouse.Coordination.SnapshotableHashTable.Invariant

/-! What the table is for: it stores a finite map from keys to values. Each call changes the map as
`Update.apply` says, and `find`, `getValue`, `contains` and `size` read it, in snapshot mode or not. -/

namespace ClickHouse.Coordination.SnapshotableHashTable

open ClickHouse.Lib

variable {V : Type}

/-- What the table is for: a finite map from keys to values. -/
abbrev KeyMap (V : Type) := AList (fun _ : String => V)

/-- What each update does to the map. -/
def Update.apply : Update V → KeyMap V → KeyMap V
  | .insert key value, m => if key ∈ m then m else m.insert key value
  | .insertOrReplace key value, m => m.insert key value
  | .erase key, m => m.erase key
  | .updateValue key updater, m =>
    match m.lookup key with
    | none => m
    | some value => m.insert key (updater value)

lemma Update.apply_insert (key : String) (value : V) (m : KeyMap V) :
    (Update.insert key value).apply m = if key ∈ m then m else m.insert key value := rfl

lemma Update.apply_insertOrReplace (key : String) (value : V) (m : KeyMap V) :
    (Update.insertOrReplace key value).apply m = m.insert key value := rfl

lemma Update.apply_erase (key : String) (m : KeyMap V) : (Update.erase key).apply m = m.erase key := rfl

lemma Update.apply_updateValue (key : String) (updater : V → V) (m : KeyMap V) :
    (Update.updateValue key updater).apply m =
      match m.lookup key with
      | none => m
      | some value => m.insert key (updater value) := rfl

/-- What each call does to the map. -/
def Call.apply : Call V → KeyMap V → KeyMap V
  | .update u, m => u.apply m
  | .clear, _ => ∅
  | _, m => m

/-- The map after a run of calls. -/
def Call.applyAll (calls : List (Call V)) (m : KeyMap V) : KeyMap V :=
  calls.foldl (fun m c => c.apply m) m

/-- The table stores the map: the node found for a key holds the map's value. -/
def Refines (t : SnapshotableHashTable V) (m : KeyMap V) : Prop :=
  ∀ key, (t.findNode key).map (fun e => e.2.value) = m.lookup key

lemma findNode_congr {t t' : SnapshotableHashTable V} {key : String}
    (hmap : AssocList.lookup key t'.map = AssocList.lookup key t.map)
    (hlist : ∀ itr, AssocList.lookup key t.map = some itr →
      AssocList.lookup itr t'.list = AssocList.lookup itr t.list) :
    t'.findNode key = t.findNode key := by
  rw [findNode_eq, findNode_eq, hmap]
  cases hk : AssocList.lookup key t.map with
  | none => rfl
  | some itr =>
    simp only [Option.bind_some]
    rw [hlist itr hk]

namespace Inv

variable {t : SnapshotableHashTable V} (h : Inv t)
include h

lemma lookup_map_ne {key k : String} {itr i : ℕ} (hm : (key, itr) ∈ t.map) (hk : k ≠ key)
    (hi : AssocList.lookup k t.map = some i) : i ≠ itr :=
  fun heq => hk (h.key_eq_of_itr_eq (heq ▸ AssocList.mem_of_lookup_eq_some hi) hm)

lemma lookup_map_lt {k : String} {i : ℕ} (hi : AssocList.lookup k t.map = some i) : i < t.allocated :=
  h.lt_allocated_of_mem_map (AssocList.mem_of_lookup_eq_some hi)

lemma findNode_appendNode {key : String} (hkey : key ∉ t.map.map Prod.fst) (node : ListNode V) (k : String) :
    (t.appendNode key node).findNode k = if k = key then some (t.allocated, node) else t.findNode k := by
  split_ifs with hk
  · rw [hk, findNode_eq, appendNode_map, appendNode_list, AssocList.lookup_append_singleton_self hkey,
      Option.bind_some, AssocList.lookup_append_singleton_self h.allocated_not_mem]
    rfl
  · refine findNode_congr (AssocList.lookup_append_singleton_of_ne hk _) fun i hi => ?_
    exact AssocList.lookup_append_singleton_of_ne (Nat.ne_of_lt (h.lookup_map_lt hi)) _

section Replace

variable {key : String} {itr : ℕ} (hm : (key, itr) ∈ t.map) (g : ListNode V → ListNode V)
include hm

lemma findNode_replaceNode (node : ListNode V) (k : String) :
    (t.replaceNode key itr g node).findNode k = if k = key then some (t.allocated, node) else t.findNode k := by
  split_ifs with hk
  · have ha : t.allocated ∉ (AssocList.modify itr g t.list).map Prod.fst := by
      rw [AssocList.map_fst_modify]
      exact h.allocated_not_mem
    rw [hk, findNode_eq, replaceNode_map, replaceNode_list, AssocList.lookup_modify_self,
      (AssocList.lookup_eq_some_iff h.keys_nodup).mpr hm, Option.map_some, Option.bind_some,
      AssocList.lookup_append_singleton_self ha]
    rfl
  · refine findNode_congr (by rw [replaceNode_map, AssocList.lookup_modify_of_ne hk]) fun i hi => ?_
    rw [replaceNode_list, AssocList.lookup_append_singleton_of_ne (Nat.ne_of_lt (h.lookup_map_lt hi)),
      AssocList.lookup_modify_of_ne (h.lookup_map_ne hm hk hi)]

lemma findNode_retireNode (k : String) :
    (t.retireNode key itr g).findNode k = if k = key then none else t.findNode k := by
  split_ifs with hk
  · rw [hk, findNode_eq, retireNode_map, AssocList.lookup_erase_self]
    rfl
  · refine findNode_congr (by rw [retireNode_map, AssocList.lookup_erase_of_ne hk]) fun i hi => ?_
    exact AssocList.lookup_modify_of_ne (h.lookup_map_ne hm hk hi) _ _

lemma findNode_removeNode (k : String) :
    (t.removeNode key itr).findNode k = if k = key then none else t.findNode k := by
  split_ifs with hk
  · rw [hk, findNode_eq, removeNode_map, AssocList.lookup_erase_self]
    rfl
  · refine findNode_congr (by rw [removeNode_map, AssocList.lookup_erase_of_ne hk]) fun i hi => ?_
    exact AssocList.lookup_erase_of_ne (h.lookup_map_ne hm hk hi) _

lemma findNode_modifyNode {node : ListNode V} (hl : (itr, node) ∈ t.list) (k : String) :
    (t.modifyNode itr g).findNode k = if k = key then some (itr, g node) else t.findNode k := by
  split_ifs with hk
  · rw [hk, findNode_eq, modifyNode_map, modifyNode_list, (AssocList.lookup_eq_some_iff h.keys_nodup).mpr hm,
      Option.bind_some, AssocList.lookup_modify_self, (AssocList.lookup_eq_some_iff h.addresses_nodup).mpr hl]
    rfl
  · refine findNode_congr rfl fun i hi => ?_
    exact AssocList.lookup_modify_of_ne (h.lookup_map_ne hm hk hi) _ _

end Replace

lemma findNode_dropOutdated (k : String) : t.dropOutdated.findNode k = t.findNode k := by
  refine findNode_congr rfl fun i hi => AssocList.lookup_filter fun node _ => ?_
  simpa using h.not_mem_invalid (AssocList.mem_of_lookup_eq_some hi)

end Inv

lemma lookup_insert_ite (m : KeyMap V) (key : String) (value : V) (k : String) :
    (m.insert key value).lookup k = if k = key then some value else m.lookup k := by
  split_ifs with hk
  · rw [hk, AList.lookup_insert]
  · exact AList.lookup_insert_ne hk

lemma lookup_erase_ite (m : KeyMap V) (key k : String) :
    (m.erase key).lookup k = if k = key then none else m.lookup k := by
  split_ifs with hk
  · rw [hk, AList.lookup_erase]
  · exact AList.lookup_erase_ne hk

namespace Refines

variable {t : SnapshotableHashTable V} {m : KeyMap V} (hr : Refines t m)
include hr

lemma lookup_eq_none {key : String} (hf : t.findNode key = none) : m.lookup key = none := by
  rw [← hr key, hf]
  rfl

lemma lookup_eq_some {key : String} {itr : ℕ} {node : ListNode V} (hf : t.findNode key = some (itr, node)) :
    m.lookup key = some node.value := by
  rw [← hr key, hf]
  rfl

/-- A table changed at one key refines the map changed the same way at that key. -/
lemma update_at {t' : SnapshotableHashTable V} {m' : KeyMap V} {key : String} {r : Option (ℕ × ListNode V)}
    (ht' : ∀ k, t'.findNode k = if k = key then r else t.findNode k)
    (hm' : ∀ k, m'.lookup k = if k = key then r.map (fun e => e.2.value) else m.lookup k) : Refines t' m' := by
  intro k
  rw [ht', hm']
  split_ifs
  · rfl
  · exact hr k

/-- `size` counts the keys of the map. -/
lemma size_eq (h : Inv t) : t.size = m.entries.length := by
  have hperm : List.Perm (t.map.map Prod.fst) m.keys := by
    refine (List.perm_ext_iff_of_nodup h.keys_nodup m.keys_nodup).mpr fun k => ?_
    rw [← AList.mem_keys, ← AList.lookup_isSome, ← hr k, Option.isSome_map, Option.isSome_iff_ne_none, ne_eq,
      h.findNode_eq_none_iff, not_not]
  have hlen := hperm.length_eq
  rw [List.length_map, AList.keys, List.keys, List.length_map] at hlen
  exact hlen

lemma getValue_eq (key : String) :
    t.getValue key = match m.lookup key with
      | some value => .ok value
      | none => .error .logicalError := by
  rcases hf : t.findNode key with _ | ⟨itr, node⟩
  · rw [getValue, hf, hr.lookup_eq_none hf]
  · rw [getValue, hf, hr.lookup_eq_some hf]

lemma contains_eq (h : Inv t) (key : String) : t.contains key = decide (key ∈ m) := by
  rw [contains, Bool.eq_iff_iff, decide_eq_true_iff, ← AList.lookup_isSome, ← hr key, Option.isSome_map,
    Option.isSome_iff_ne_none, Option.isSome_iff_ne_none, ne_eq, ne_eq, AssocList.lookup_eq_none_iff,
    h.findNode_eq_none_iff]

variable [SnapshotValue V] (h : Inv t)
include h

lemma insert (key : String) (value : V) :
    Refines (t.insert key value).2 ((Update.insert key value).apply m) := by
  rcases hf : t.findNode key with _ | ⟨itr, node⟩
  · have hkey : key ∉ m := AList.lookup_eq_none.mp (hr.lookup_eq_none hf)
    rw [insert_of_findNode_none t hf h.allocated_not_mem, Update.apply_insert, if_neg hkey]
    exact hr.update_at (h.findNode_appendNode (h.findNode_eq_none_iff.mp hf) _) (lookup_insert_ite m key value)
  · have hkey : key ∈ m := AList.lookup_isSome.mp (by rw [hr.lookup_eq_some hf]; rfl)
    rw [insert_of_findNode_some t hf, Update.apply_insert, if_pos hkey]
    exact hr

lemma insertOrReplace (key : String) (value : V) :
    Refines (t.insertOrReplace key value) ((Update.insertOrReplace key value).apply m) := by
  rw [Update.apply_insertOrReplace]
  rcases hf : t.findNode key with _ | ⟨itr, node⟩
  · rw [insertOrReplace_of_findNode_none t hf h.allocated_not_mem]
    exact hr.update_at (h.findNode_appendNode (h.findNode_eq_none_iff.mp hf) _) (lookup_insert_ite m key value)
  · obtain ⟨hm, hl⟩ := h.findNode_eq_some_iff.mp hf
    by_cases hs : t.snapshotMode ∧ node.version ≤ t.snapshotUpToVersion
    · rw [insertOrReplace_of_snapshot t hf hs (Nat.ne_of_lt (h.lt_allocated_of_mem_map hm))]
      exact hr.update_at (h.findNode_replaceNode hm _ _) (lookup_insert_ite m key value)
    · rw [insertOrReplace_of_not_snapshot t hf hs]
      exact hr.update_at (h.findNode_modifyNode hm (fun n => { n with value := value }) hl)
        (lookup_insert_ite m key value)

lemma erase (key : String) : Refines (t.erase key).2 ((Update.erase key).apply m) := by
  rw [Update.apply_erase]
  rcases hf : t.findNode key with _ | ⟨itr, node⟩
  · rw [erase_of_findNode_none t hf]
    refine hr.update_at (r := none) (fun k => ?_) (lookup_erase_ite m key)
    split_ifs with hk
    · rw [hk, hf]
    · rfl
  · obtain ⟨hm, hl⟩ := h.findNode_eq_some_iff.mp hf
    cases hs : t.snapshotMode
    · rw [erase_of_not_snapshot t hf hs]
      exact hr.update_at (h.findNode_removeNode hm) (lookup_erase_ite m key)
    · rw [erase_of_snapshot t hf hs]
      exact hr.update_at (h.findNode_retireNode hm fun n => n.setInactiveInMap.setFreeKey) (lookup_erase_ite m key)

/-- `updateValue` gives the updater the value itself, also when it works on a copy: the copy holds
the whole value. -/
lemma updateValue (hcopy : ∀ v : V, (SnapshotValue.copyFromSnapshotNode v).1 = v) (key : String)
    (updater : V → V) : Refines (t.updateValue key updater).2 ((Update.updateValue key updater).apply m) := by
  rw [Update.apply_updateValue]
  rcases hf : t.findNode key with _ | ⟨itr, node⟩
  · rw [updateValue_of_findNode_none t hf, hr.lookup_eq_none hf]
    exact hr
  · obtain ⟨hm, hl⟩ := h.findNode_eq_some_iff.mp hf
    rw [hr.lookup_eq_some hf]
    by_cases hs : t.snapshotMode ∧ node.version ≤ t.snapshotUpToVersion
    · rw [updateValue_of_snapshot t hf hs]
      refine hr.update_at (h.findNode_replaceNode hm _ _) fun k => ?_
      rw [lookup_insert_ite]
      simp [ListNode.copyFromSnapshotNode, ListNode.setVersion, hcopy]
    · rw [updateValue_of_not_snapshot t hf hs]
      exact hr.update_at (h.findNode_modifyNode hm (fun n => { n with value := updater n.value }) hl)
        (lookup_insert_ite m key _)

lemma update (hcopy : ∀ v : V, (SnapshotValue.copyFromSnapshotNode v).1 = v) (u : Update V) :
    Refines (t.update u) (u.apply m) := by
  cases u with
  | insert key value => exact hr.insert h key value
  | insertOrReplace key value => exact hr.insertOrReplace h key value
  | erase key => exact hr.erase h key
  | updateValue key updater => exact hr.updateValue h hcopy key updater

/-- Snapshot mode and `clearOutdatedNodes` change no key's node; `clear` empties the map. -/
lemma call (hcopy : ∀ v : V, (SnapshotValue.copyFromSnapshotNode v).1 = v) (c : Call V) :
    Refines (t.call c) (c.apply m) := by
  cases c with
  | update u => exact hr.update h hcopy u
  | enableSnapshotMode => exact hr
  | disableSnapshotMode => exact hr
  | clearOutdatedNodes =>
    obtain ⟨s, hs⟩ := clearOutdatedNodes_eq t h
    rw [SnapshotableHashTable.call, hs]
    intro k
    exact (congrArg (Option.map _) (h.findNode_dropOutdated k)).trans (hr k)
  | clear =>
    rw [SnapshotableHashTable.call, clear_eq t h]
    intro k
    rfl

/-- The table refines the map along every run from a refining table. The induction is on the calls,
with the invariant carried along. -/
lemma run (hcopy : ∀ v : V, (SnapshotValue.copyFromSnapshotNode v).1 = v) (calls : List (Call V)) :
    Refines (t.run calls) (Call.applyAll calls m) := by
  induction calls generalizing t m with
  | nil => exact hr
  | cons c calls ih => exact ih (hr.call h hcopy c) (h.call c)

end Refines

lemma Refines.empty : Refines (empty : SnapshotableHashTable V) ∅ :=
  fun _ => rfl

/-! ### From the empty table -/

section Runs

variable [SnapshotValue V]

theorem run_refines (hcopy : ∀ v : V, (SnapshotValue.copyFromSnapshotNode v).1 = v) (calls : List (Call V))
    (key : String) :
    ((empty.run calls).find key).map ListNode.value = (Call.applyAll calls ∅).lookup key ∧
    (empty.run calls).getValue key = (match (Call.applyAll calls ∅).lookup key with
      | some value => .ok value
      | none => .error .logicalError) ∧
    (empty.run calls).size = (Call.applyAll calls ∅).entries.length := by
  have h := Inv.empty.run calls
  have hr := Refines.empty.run Inv.empty hcopy calls
  refine ⟨?_, hr.getValue_eq key, hr.size_eq h⟩
  rw [← hr key, find_eq, Option.map_map]
  rfl

end Runs

/-! ### The map a table stores -/

section Stored

def storeEntry (t : SnapshotableHashTable V) (e : String × ℕ) (m : KeyMap V) : KeyMap V :=
  match AssocList.lookup e.2 t.list with
  | some node => m.insert e.1 node.value
  | none => m.erase e.1

/-- The map a table stores. -/
def toKeyMap (t : SnapshotableHashTable V) : KeyMap V :=
  t.map.foldr (storeEntry t) ∅

lemma lookup_foldr_storeEntry (t : SnapshotableHashTable V) (key : String) : ∀ l : List (String × ℕ),
    (l.foldr (storeEntry t) ∅).lookup key =
      ((AssocList.lookup key l).bind fun itr => AssocList.lookup itr t.list).map ListNode.value
  | [] => rfl
  | e :: l => by
    rw [List.foldr_cons, storeEntry, AssocList.lookup_cons]
    by_cases hk : e.1 = key
    · cases hl : AssocList.lookup e.2 t.list <;> simp [hk, hl]
    · have ih := lookup_foldr_storeEntry t key l
      cases hl : AssocList.lookup e.2 t.list with
      | none => simp [hk, Ne.symm hk, ih]
      | some node => simp [hk, Ne.symm hk, ih]

lemma refines_toKeyMap (t : SnapshotableHashTable V) : Refines t t.toKeyMap := by
  intro key
  rw [toKeyMap, lookup_foldr_storeEntry, findNode_eq]
  cases AssocList.lookup key t.map with
  | none => rfl
  | some itr =>
    simp only [Option.bind_some]
    cases AssocList.lookup itr t.list <;> rfl

lemma Refines.find_map {t : SnapshotableHashTable V} {m : KeyMap V} (hr : Refines t m) (key : String) :
    (t.find key).map ListNode.value = m.lookup key := by
  rw [← hr key, find_eq, Option.map_map]
  rfl

variable [SnapshotValue V] {t : SnapshotableHashTable V} {key : String}

lemma updateValue_ok (hf : (t.find key).isSome) (updater : V → V) :
    ∃ itr, (t.updateValue key updater).1 = .ok itr := by
  rcases hn : t.findNode key with _ | ⟨itr, node⟩
  · simp [find_eq, hn] at hf
  · unfold SnapshotableHashTable.updateValue
    simp only [hn]
    split_ifs <;> exact ⟨_, rfl⟩

namespace Inv

variable (h : Inv t)
include h

lemma find_updateValue (hcopy : ∀ v : V, (SnapshotValue.copyFromSnapshotNode v).1 = v) (key : String)
    (updater : V → V) (k : String) : ((t.updateValue key updater).2.find k).map ListNode.value =
      if k = key then ((t.find key).map ListNode.value).map updater else (t.find k).map ListNode.value := by
  have hr := (refines_toKeyMap t).updateValue h hcopy key updater
  rw [hr.find_map, (refines_toKeyMap t).find_map, (refines_toKeyMap t).find_map, Update.apply_updateValue]
  cases hv : t.toKeyMap.lookup key with
  | none =>
    split_ifs with hk
    · rw [hk, hv]
      rfl
    · rfl
  | some v =>
    rw [lookup_insert_ite]
    rfl

lemma find_insert (hf : t.find key = none) (value : V) (k : String) :
    ((t.insert key value).2.find k).map ListNode.value =
      if k = key then some value else (t.find k).map ListNode.value := by
  have hr := (refines_toKeyMap t).insert h key value
  have hkey : key ∉ t.toKeyMap := by
    rw [← AList.lookup_eq_none, ← (refines_toKeyMap t).find_map, hf]
    rfl
  rw [hr.find_map, Update.apply_insert, if_neg hkey, lookup_insert_ite, (refines_toKeyMap t).find_map]

lemma find_erase (erased k : String) :
    ((t.erase erased).2.find k).map ListNode.value = if k = erased then none else (t.find k).map ListNode.value := by
  have hr := (refines_toKeyMap t).erase h erased
  rw [hr.find_map, Update.apply_erase, lookup_erase_ite, (refines_toKeyMap t).find_map]

end Inv

end Stored

/-- The value type of the table's tests: an `int`, copied whole. -/
structure IntNode where
  value : Int
  deriving DecidableEq

instance : SnapshotValue IntNode := ⟨fun _ => 4, fun node => (node, node)⟩

/-- The calls of the table's test `SnapshotableHashMapTrySnapshot`, before snapshot mode is disabled. -/
def trySnapshotCalls : List (Call IntNode) :=
  [.update (.insert "/hello" ⟨7⟩), .update (.insert "/hello" ⟨145⟩), .enableSnapshotMode,
    .update (.insert "/hello" ⟨145⟩), .update (.updateValue "/hello" fun _ => ⟨554⟩),
    .update (.insert "/hello0" ⟨0⟩), .update (.insert "/hello1" ⟨1⟩), .update (.insert "/hello2" ⟨2⟩),
    .update (.insert "/hello3" ⟨3⟩), .update (.insert "/hello4" ⟨4⟩), .update (.erase "/hello3"),
    .update (.erase "/hello2")]

theorem run_refines_trySnapshot :
    (∀ v : IntNode, (SnapshotValue.copyFromSnapshotNode v).1 = v) ∧
    ((empty.run trySnapshotCalls).find "/hello").map ListNode.value =
      (Call.applyAll trySnapshotCalls ∅).lookup "/hello" ∧
    (empty.run trySnapshotCalls).getValue "/hello" = (match (Call.applyAll trySnapshotCalls ∅).lookup "/hello" with
      | some value => .ok value
      | none => .error .logicalError) ∧
    (empty.run trySnapshotCalls).size = (Call.applyAll trySnapshotCalls ∅).entries.length :=
  ⟨fun _ => rfl, run_refines (fun _ => rfl) trySnapshotCalls "/hello"⟩

end ClickHouse.Coordination.SnapshotableHashTable
