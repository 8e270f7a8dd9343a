import ClickHouse.Coordination.KeeperStorage.PendingChanges
import ClickHouse.Coordination.SnapshotableHashTable.Refinement

/-! What `commit` does with the deltas of `Create`, `Remove` and `SetACL`. It reads only the
committed part of the storage, and each delta changes the container at its node and at the node's
parent. Removing an ephemeral node takes it out of its session's list of ephemeral nodes, which
must hold it: `Registered` says that it does, for every ephemeral node of the container, and every
commit of these deltas keeps it. -/

namespace ClickHouse.Coordination

open ClickHouse.Common ClickHouse.Common.ZooKeeper ClickHouse.Lib SnapshotableHashTable

namespace KeeperStorage

/-- `s` with what preprocessing changes of `t` and commit does not read: the view, the ACL map and
the deltas staged. -/
def withUncommitted (s t : KeeperStorage) : KeeperStorage :=
  { s with
    uncommittedState := t.uncommittedState
    aclMap := t.aclMap
    maxAclId := t.maxAclId
    stagingDeltas := t.stagingDeltas
    initialized := t.initialized }

def createdNode (stat : Stat) (aclId : ℕ) (ttl : Option ℤ) : KeeperMemNode :=
  let node := { KeeperMemNode.empty with aclId := aclId }.copyStats stat
  match ttl with
  | some ttl => { node with stats := node.stats.setTTL ttl }
  | none => node

/-! ### Commit reads the committed part only -/

section Committed

variable (s t : KeeperStorage)

@[simp] lemma withUncommitted_container : (s.withUncommitted t).container = s.container := rfl

@[simp] lemma withUncommitted_stagingDeltas : (s.withUncommitted t).stagingDeltas = t.stagingDeltas := rfl

@[simp] lemma withUncommitted_nodes :
    (s.withUncommitted t).uncommittedState.nodes = t.uncommittedState.nodes := rfl

lemma updateContainerValue_withUncommitted (path : String) (updater : KeeperMemNode → KeeperMemNode) :
    (s.withUncommitted t).updateContainerValue path updater =
      (s.updateContainerValue path updater).map (·.withUncommitted t) := by
  rcases hu : s.container.updateValue path updater with ⟨_ | _, container⟩ <;>
    simp [updateContainerValue, hu, Except.map]
  rfl

lemma createNode_withUncommitted (path : String) (stat : Stat) (aclId : ℕ) (ttl : Option ℤ) :
    (s.withUncommitted t).createNode path stat aclId ttl =
      (s.createNode path stat aclId ttl).map fun r => (r.1, r.2.withUncommitted t) := by
  have hw : ∀ container, (s.withUncommitted t).withContainer container = (s.withContainer container).withUncommitted t :=
    fun _ => rfl
  unfold createNode
  simp only [withUncommitted_container, hw, updateContainerValue_withUncommitted]
  rcases s.container.find (parentNodePath path) with _ | parent
  · rfl
  · dsimp only
    split_ifs
    · rfl
    all_goals rcases (s.withContainer _).updateContainerValue _ _ with _ | s' <;> rfl

lemma removeNode_withUncommitted (path : String) :
    (s.withUncommitted t).removeNode path = (s.removeNode path).map fun r => (r.1, r.2.withUncommitted t) := by
  unfold removeNode
  simp only [withUncommitted_container, updateContainerValue_withUncommitted]
  rcases s.container.find path with _ | node
  · rfl
  · rcases s.updateContainerValue (parentNodePath path) _ with _ | s'
    · rfl
    · dsimp only [Except.map, bind, Except.bind]
      split_ifs
      · dsimp only [withUncommitted, withContainer]
        rcases unregisterEphemeralPath s'.committedEphemerals _ path true with _ | ephemerals <;> rfl
      · rfl

lemma commitDelta_withUncommitted (delta : Delta) :
    (s.withUncommitted t).commitDelta delta = (s.commitDelta delta).map fun r => (r.1, r.2.withUncommitted t) := by
  obtain ⟨path, operation⟩ := delta
  cases operation with
  | createNode stat aclId ttl =>
    dsimp only [commitDelta]
    rw [createNode_withUncommitted]
    rcases s.createNode path stat aclId ttl with _ | ⟨_ | _, s'⟩ <;> rfl
  | removeNode =>
    dsimp only [commitDelta]
    rw [removeNode_withUncommitted]
    rcases s.removeNode path with _ | ⟨_ | _, s'⟩ <;> rfl
  | updateNodeStat =>
    dsimp only [commitDelta]
    rw [updateContainerValue_withUncommitted]
    rcases s.updateContainerValue path _ with _ | s' <;> rfl
  | setACL =>
    dsimp only [commitDelta]
    rw [updateContainerValue_withUncommitted]
    rcases s.updateContainerValue path _ with _ | s' <;> rfl
  | addAuth => rfl
  | error => rfl
  | subDeltaEnd => rfl
  | failedMulti => rfl
  | closeSession => rfl

lemma commit_withUncommitted : ∀ (s : KeeperStorage) (deltas : List Delta),
    (s.withUncommitted t).commit deltas = (s.commit deltas).map fun r => (r.1, r.2.withUncommitted t)
  | s, [] => rfl
  | s, delta :: deltas => by
    rw [commit, commit, commitDelta_withUncommitted]
    rcases s.commitDelta delta with _ | ⟨error, s'⟩
    · rfl
    · cases error
      · exact commit_withUncommitted s' deltas
      all_goals rfl

end Committed

lemma commit_append {s c : KeeperStorage} {deltas : List Delta} (h : s.commit deltas = .ok (.zok, c))
    (deltas' : List Delta) : s.commit (deltas ++ deltas') = c.commit deltas' := by
  induction deltas generalizing s with
  | nil => cases h; rfl
  | cons delta deltas ih =>
    rw [List.cons_append, commit]
    rw [commit] at h
    rcases hd : s.commitDelta delta with _ | ⟨_ | _, s'⟩ <;> rw [hd] at h <;> first | cases h | exact ih h

/-! ### The container under the deltas of `Create` and `SetACL` -/

section Container

variable {s : KeeperStorage} {path : String}

lemma tryGetNodeFromStorage_eq (s : KeeperStorage) (path : String) :
    s.tryGetNodeFromStorage path = ((s.container.find path).map ListNode.value).map KeeperMemNode.shallowCopy := by
  rw [tryGetNodeFromStorage, Option.map_map]
  rfl

lemma copyFromSnapshotNode_fst (node : KeeperMemNode) : (SnapshotValue.copyFromSnapshotNode node).1 = node := rfl

@[simp] lemma shallowCopy_addChild (node : KeeperMemNode) (childPath : String) :
    (node.addChild childPath).shallowCopy = node.shallowCopy := by
  unfold KeeperMemNode.addChild
  split_ifs <;> rfl

lemma addChild_stats (node : KeeperMemNode) (childPath : String) : (node.addChild childPath).stats = node.stats := by
  unfold KeeperMemNode.addChild
  split_ifs <;> rfl

@[simp] lemma shallowCopy_removeChild (node : KeeperMemNode) (childPath : String) :
    (node.removeChild childPath).shallowCopy = node.shallowCopy := rfl

@[simp] lemma shallowCopy_createdNode (stat : Stat) (aclId : ℕ) (ttl : Option ℤ) :
    (createdNode stat aclId ttl).shallowCopy = createdNode stat aclId ttl := by
  cases ttl <;> rfl

lemma updateContainerValue_of_isSome (hf : (s.container.find path).isSome) (updater : KeeperMemNode → KeeperMemNode) :
    s.updateContainerValue path updater = .ok (s.withContainer (s.container.updateValue path updater).2) := by
  obtain ⟨itr, hok⟩ := updateValue_ok hf updater
  rcases hu : s.container.updateValue path updater with ⟨_ | _, container⟩ <;> rw [hu] at hok <;> cases hok
  rw [updateContainerValue, hu]

lemma commitDelta_updateNodeStat (hf : (s.container.find path).isSome) (oldStats newStats : NodeStats)
    (oldNumChildren newNumChildren : ℤ) :
    s.commitDelta ⟨path, .updateNodeStat oldStats newStats oldNumChildren newNumChildren⟩ =
      .ok (.zok, s.withContainer (s.container.updateValue path
        (fun node => { node with stats := newStats, numChildren := newNumChildren })).2) := by
  dsimp only [commitDelta]
  rw [updateContainerValue_of_isSome hf]

lemma commitDelta_setACL (hf : (s.container.find path).isSome) (oldAclId newAclId : ℕ) :
    s.commitDelta ⟨path, .setACL oldAclId newAclId⟩ =
      .ok (.zok, s.withContainer (s.container.updateValue path (fun node => { node with aclId := newAclId })).2) := by
  dsimp only [commitDelta]
  rw [updateContainerValue_of_isSome hf]

/-- What the commit of a `Create` makes of the container: the node, and its name among its parent's
children. -/
def createdContainer (t : SnapshotableHashTable KeeperMemNode) (path : String) (node : KeeperMemNode) :
    SnapshotableHashTable KeeperMemNode :=
  ((t.insert path node).2.updateValue (parentNodePath path) (fun parent => parent.addChild (getBaseNodeName path))).2

/-- What the commit of a `Remove` makes of the container: the node goes, and its name leaves its
parent's children. -/
def removedContainer (t : SnapshotableHashTable KeeperMemNode) (path : String) : SnapshotableHashTable KeeperMemNode :=
  ((t.updateValue (parentNodePath path) (fun parent => parent.removeChild (getBaseNodeName path))).2.erase path).2

variable (hinv : Inv s.container)
include hinv

lemma find_createdContainer (hn : s.container.find path = none) (hne : path ≠ parentNodePath path)
    (node : KeeperMemNode) (k : String) :
    ((createdContainer s.container path node).find k).map ListNode.value =
      if k = path then some node
      else if k = parentNodePath path then
        ((s.container.find k).map ListNode.value).map fun parent => parent.addChild (getBaseNodeName path)
      else (s.container.find k).map ListNode.value := by
  have hins := Inv.updateClosed.insert hinv hinv path node
  rw [createdContainer, hins.find_updateValue copyFromSnapshotNode_fst, hinv.find_insert hn,
    hinv.find_insert hn, if_neg hne.symm]
  by_cases hk : k = path
  · subst hk
    rw [if_neg hne, if_pos rfl, if_pos rfl]
  · rw [if_neg hk, if_neg hk]
    by_cases hp : k = parentNodePath path
    · rw [if_pos hp, if_pos hp, hp]
    · rw [if_neg hp, if_neg hp]

lemma createNode_of_absent {parent : KeeperMemNode}
    (hp : (s.container.find (parentNodePath path)).map ListNode.value = some parent)
    (he : parent.stats.isEphemeral = false) (hn : s.container.find path = none) (stat : Stat) (aclId : ℕ)
    (ttl : Option ℤ) : ∃ s', s.createNode path stat aclId ttl = .ok (true, s') ∧
      s'.container = createdContainer s.container path (createdNode stat aclId ttl) ∧
      s'.committedEphemerals = if stat.ephemeralOwner ≠ 0 then
        emplaceEphemeralPath s.committedEphemerals stat.ephemeralOwner path else s.committedEphemerals := by
  obtain ⟨pn, hpn, rfl⟩ := Option.map_eq_some_iff.mp hp
  have hne : path ≠ parentNodePath path := fun h => by rw [← h, hn] at hpn; cases hpn
  have hf : ((s.container.insert path (createdNode stat aclId ttl)).2.find (parentNodePath path)).isSome := by
    have hfind := hinv.find_insert hn (createdNode stat aclId ttl) (parentNodePath path)
    rw [if_neg hne.symm, hpn] at hfind
    rw [← Option.isSome_map (f := ListNode.value), hfind]
    rfl
  unfold createNode
  dsimp only
  rw [hpn]
  cases ttl <;> dsimp only [createdNode] at hf ⊢ <;>
    rw [if_neg (by simp [he, hn]), updateContainerValue_of_isSome hf] <;> dsimp only <;>
    split_ifs <;> exact ⟨_, rfl, rfl, rfl⟩

lemma commitDelta_createNode {parent : KeeperMemNode}
    (hp : (s.container.find (parentNodePath path)).map ListNode.value = some parent)
    (he : parent.stats.isEphemeral = false) (hn : s.container.find path = none) (stat : Stat) (aclId : ℕ)
    (ttl : Option ℤ) : ∃ s', s.commitDelta ⟨path, .createNode stat aclId ttl⟩ = .ok (.zok, s') ∧
      s'.container = createdContainer s.container path (createdNode stat aclId ttl) ∧
      s'.committedEphemerals = if stat.ephemeralOwner ≠ 0 then
        emplaceEphemeralPath s.committedEphemerals stat.ephemeralOwner path else s.committedEphemerals := by
  obtain ⟨s', hc, hcont⟩ := createNode_of_absent hinv hp he hn stat aclId ttl
  refine ⟨s', ?_, hcont⟩
  dsimp only [commitDelta]
  rw [hc]

lemma find_removedContainer (path k : String) :
    ((removedContainer s.container path).find k).map ListNode.value =
      if k = path then none
      else if k = parentNodePath path then
        ((s.container.find k).map ListNode.value).map fun parent => parent.removeChild (getBaseNodeName path)
      else (s.container.find k).map ListNode.value := by
  have hupd := Inv.updateClosed.updateValue hinv hinv (parentNodePath path)
    (fun parent => parent.removeChild (getBaseNodeName path))
  rw [removedContainer, hupd.find_erase, hinv.find_updateValue copyFromSnapshotNode_fst]
  split_ifs with hk hp
  · rfl
  · rw [hp]
  · rfl

lemma inv_removedContainer : Inv (removedContainer s.container path) :=
  have hupd := Inv.updateClosed.updateValue hinv hinv (parentNodePath path)
    (fun parent => parent.removeChild (getBaseNodeName path))
  Inv.updateClosed.erase hupd hupd path

end Container


/-! ### The index of ephemeral nodes -/

section Index

def Listed (ephemerals : List (ℤ × List String)) (owner : ℤ) (path : String) : Prop :=
  ∃ paths, AssocList.lookup owner ephemerals = some paths ∧ path ∈ paths

/-- Every ephemeral node of the container is listed under the session that owns it. -/
def Registered (container : SnapshotableHashTable KeeperMemNode) (ephemerals : List (ℤ × List String)) : Prop :=
  ∀ path node, (container.find path).map ListNode.value = some node → node.stats.ephemeralOwner ≠ 0 →
    Listed ephemerals node.stats.ephemeralOwner path

variable {ephemerals ephemerals' : List (ℤ × List String)} {owner sessionId : ℤ} {path q : String}

lemma listed_emplaceEphemeralPath (h : Listed ephemerals owner q ∨ owner = sessionId ∧ q = path) :
    Listed (emplaceEphemeralPath ephemerals sessionId path) owner q := by
  unfold emplaceEphemeralPath
  rcases hl : AssocList.lookup sessionId ephemerals with _ | paths
  · -- the session's first ephemeral node
    dsimp only
    rcases h with ⟨ps, hps, hq⟩ | ⟨rfl, rfl⟩
    · have hne : owner ≠ sessionId := by
        rintro rfl
        rw [hl] at hps
        cases hps
      exact ⟨ps, (AssocList.lookup_append_singleton_of_ne hne _).trans hps, hq⟩
    · exact ⟨[q], AssocList.lookup_append_singleton_self (AssocList.lookup_eq_none_iff.mp hl),
        List.mem_singleton_self q⟩
  · dsimp only
    by_cases ho : owner = sessionId
    · subst ho
      refine ⟨_, by rw [AssocList.lookup_modify_self, hl]; rfl, ?_⟩
      dsimp only
      rcases h with ⟨ps, hps, hq⟩ | ⟨-, rfl⟩
      · rw [hl] at hps
        cases hps
        split_ifs <;> simp [hq]
      · split_ifs with hm
        · exact hm
        · simp
    · rcases h with ⟨ps, hps, hq⟩ | ⟨ho', -⟩
      · exact ⟨ps, (AssocList.lookup_modify_of_ne ho _ _).trans hps, hq⟩
      · exact absurd ho' ho

lemma listed_unregisterEphemeralPath {throwIfMissing : Bool}
    (h : unregisterEphemeralPath ephemerals sessionId path throwIfMissing = .ok ephemerals')
    (hl : Listed ephemerals owner q) (hq : q ≠ path) : Listed ephemerals' owner q := by
  obtain ⟨ps, hps, hqps⟩ := hl
  have hq' : q ∈ ps.erase path := (List.mem_erase_of_ne hq).mpr hqps
  unfold unregisterEphemeralPath at h
  rcases hs : AssocList.lookup sessionId ephemerals with _ | paths <;> rw [hs] at h <;> dsimp only at h
  · split_ifs at h
    cases h
    exact ⟨ps, hps, hqps⟩
  · by_cases ho : owner = sessionId
    · -- the session's list loses the path and keeps the others
      subst ho
      rw [hps] at hs
      cases hs
      split_ifs at h with hmiss hempty
      · rw [hempty] at hq'
        cases hq'
      · cases h
        exact ⟨_, by rw [AssocList.lookup_modify_self, hps]; rfl, hq'⟩
    · split_ifs at h
      · cases h
        exact ⟨ps, (AssocList.lookup_erase_of_ne ho _).trans hps, hqps⟩
      · cases h
        exact ⟨ps, (AssocList.lookup_modify_of_ne ho _ _).trans hps, hqps⟩

lemma unregisterEphemeralPath_ok (h : Listed ephemerals owner path) (throwIfMissing : Bool) :
    ∃ ephemerals', unregisterEphemeralPath ephemerals owner path throwIfMissing = .ok ephemerals' := by
  obtain ⟨ps, hps, hp⟩ := h
  unfold unregisterEphemeralPath
  rw [hps]
  dsimp only
  rw [if_neg fun hmiss => hmiss.2 hp]
  split_ifs <;> exact ⟨_, rfl⟩

lemma createdNode_ephemeralOwner {stat : Stat} {ttl : Option ℤ} (httl : ttl = none ∨ stat.ephemeralOwner = 0)
    (aclId : ℕ) : (createdNode stat aclId ttl).stats.ephemeralOwner = stat.ephemeralOwner := by
  rcases httl with rfl | h0
  · by_cases h0 : stat.ephemeralOwner = 0 <;>
      simp [createdNode, KeeperMemNode.copyStats, NodeStats.copyStats, NodeStats.ephemeralOwner, KeeperMemNode.empty,
        NodeStats.empty, h0]
  · cases ttl <;>
      simp [createdNode, KeeperMemNode.copyStats, NodeStats.copyStats, NodeStats.ephemeralOwner, NodeStats.setTTL,
        KeeperMemNode.empty, NodeStats.empty, h0]

variable {t : SnapshotableHashTable KeeperMemNode}

lemma Registered.updateValue (hreg : Registered t ephemerals) (hinv : Inv t) (key : String)
    (updater : KeeperMemNode → KeeperMemNode)
    (hown : ∀ node, (t.find key).map ListNode.value = some node →
      (updater node).stats.ephemeralOwner = node.stats.ephemeralOwner) :
    Registered (t.updateValue key updater).2 ephemerals := by
  intro k node hk howner
  rw [hinv.find_updateValue copyFromSnapshotNode_fst] at hk
  split_ifs at hk with hkp
  · subst hkp
    obtain ⟨v, hv, rfl⟩ := Option.map_eq_some_iff.mp hk
    rw [hown v hv] at howner ⊢
    exact hreg k v hv howner
  · exact hreg k node hk howner

lemma Registered.erase (hreg : Registered t ephemerals) (hinv : Inv t) (key : String)
    (hlisted : ∀ owner q, q ≠ key → Listed ephemerals owner q → Listed ephemerals' owner q) :
    Registered (t.erase key).2 ephemerals' := by
  intro k node hk howner
  rw [hinv.find_erase] at hk
  -- the erased key has no node left
  split_ifs at hk with hkp
  exact hlisted _ _ hkp (hreg k node hk howner)

variable {s : KeeperStorage}

lemma Registered.createdContainer (hreg : Registered s.container s.committedEphemerals) (hinv : Inv s.container)
    (hn : s.container.find path = none) (hne : path ≠ parentNodePath path) {stat : Stat} {ttl : Option ℤ}
    (httl : ttl = none ∨ stat.ephemeralOwner = 0) (aclId : ℕ) :
    Registered (createdContainer s.container path (createdNode stat aclId ttl))
      (if stat.ephemeralOwner ≠ 0 then emplaceEphemeralPath s.committedEphemerals stat.ephemeralOwner path
        else s.committedEphemerals) := by
  have hkeep : ∀ {owner q}, Listed s.committedEphemerals owner q → Listed (if stat.ephemeralOwner ≠ 0 then
      emplaceEphemeralPath s.committedEphemerals stat.ephemeralOwner path else s.committedEphemerals) owner q := by
    intro owner q hl
    split_ifs
    · exact listed_emplaceEphemeralPath (.inl hl)
    · exact hl
  intro k node hk howner
  rw [find_createdContainer hinv hn hne] at hk
  split_ifs at hk with hkp hkq
  · -- the new node is listed under its owner
    cases hk
    subst hkp
    rw [createdNode_ephemeralOwner httl] at howner ⊢
    rw [if_pos howner]
    exact listed_emplaceEphemeralPath (.inr ⟨rfl, rfl⟩)
  · obtain ⟨v, hv, rfl⟩ := Option.map_eq_some_iff.mp hk
    rw [addChild_stats] at howner ⊢
    exact hkeep (hreg k v hv howner)
  · exact hkeep (hreg k node hk howner)

lemma removeNode_of_present (hinv : Inv s.container) (hreg : Registered s.container s.committedEphemerals)
    {node : KeeperMemNode} (hnode : (s.container.find path).map ListNode.value = some node)
    (hparent : (s.container.find (parentNodePath path)).isSome) :
    ∃ s', s.removeNode path = .ok (true, s') ∧ s'.container = removedContainer s.container path ∧
      Registered s'.container s'.committedEphemerals := by
  obtain ⟨n, hfn, rfl⟩ := Option.map_eq_some_iff.mp hnode
  have hinv₁ := Inv.updateClosed.updateValue hinv hinv (parentNodePath path)
    (fun parent => parent.removeChild (getBaseNodeName path))
  have hreg₁ := hreg.updateValue hinv (parentNodePath path) (fun parent => parent.removeChild (getBaseNodeName path))
    fun _ _ => rfl
  unfold removeNode
  rw [hfn]
  dsimp only
  rw [updateContainerValue_of_isSome hparent]
  dsimp only [bind, Except.bind, withContainer]
  split_ifs with howner
  · -- an ephemeral node leaves its session's list, which holds it
    obtain ⟨ephemerals, he⟩ := unregisterEphemeralPath_ok (hreg path n.value hnode howner) true
    rw [he]
    exact ⟨_, rfl, rfl, hreg₁.erase hinv₁ path fun _ _ hq hl => listed_unregisterEphemeralPath he hl hq⟩
  · exact ⟨_, rfl, rfl, hreg₁.erase hinv₁ path fun _ _ _ hl => hl⟩

lemma commitDelta_removeNode (hinv : Inv s.container) (hreg : Registered s.container s.committedEphemerals)
    {node : KeeperMemNode} (hnode : (s.container.find path).map ListNode.value = some node)
    (hparent : (s.container.find (parentNodePath path)).isSome) (stats : NodeStats) (numChildren : ℤ) (aclId : ℕ) :
    ∃ s', s.commitDelta ⟨path, .removeNode stats numChildren aclId⟩ = .ok (.zok, s') ∧
      s'.container = removedContainer s.container path ∧ Registered s'.container s'.committedEphemerals := by
  obtain ⟨s', hr, hcont, hreg'⟩ := removeNode_of_present hinv hreg hnode hparent
  refine ⟨s', ?_, hcont, hreg'⟩
  dsimp only [commitDelta]
  rw [hr]

end Index

end KeeperStorage

end ClickHouse.Coordination
