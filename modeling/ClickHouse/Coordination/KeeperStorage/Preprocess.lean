import ClickHouse.Coordination.KeeperStorage.Commit

/-! Preprocessing against the uncommitted view. A request is preprocessed against the view, which
stages its deltas; `commit` applies them to the container later, in order. For `Create`, `Remove`
and `SetACL` the view is what the commit makes of the container: from a storage with nothing
pending whose ephemeral nodes are all registered, after any run of these requests, committing the
deltas staged never finds the storage inconsistent and leaves every node the view holds as the view
holds it, its children apart, every node the view has removed gone, and every other node as it was.
A rejected request stages nothing here; its `ErrorDelta` commits to its error and changes nothing. -/

namespace ClickHouse.Coordination

open ClickHouse.Common ClickHouse.Common.ZooKeeper ClickHouse.Lib SnapshotableHashTable

inductive Request
  | create (request : CreateRequest) (sessionId : ℤ)
  | remove (request : RemoveRequest) (sessionId time : ℤ)
  | setACL (path : String) (acls : List ACL) (version sessionId : ℤ)

namespace KeeperStorage

/-- The `preprocess` of a request, chosen by its type as `callOnConcreteRequestType` does; the
setting `check_node_acl_on_remove` and the nodes' `mtime` are as in `preprocessRemove`. -/
def preprocessRequest (ctx : KeeperContext) (checkNodeAclOnRemove : Bool) (mtime : String → ℤ) (checkAcl : Bool) :
    Request → KeeperStorage → Except ErrorCode (Error × KeeperStorage)
  | .create request sessionId, s => preprocessCreate ctx request sessionId checkAcl s
  | .remove request sessionId time, s => preprocessRemove ctx checkNodeAclOnRemove mtime request sessionId checkAcl time s
  | .setACL path acls version sessionId, s => preprocessSetACL ctx path acls version sessionId checkAcl s

def preprocessAll (ctx : KeeperContext) (checkNodeAclOnRemove : Bool) (mtime : String → ℤ) (checkAcl : Bool) :
    List Request → KeeperStorage → Except ErrorCode KeeperStorage
  | [], s => .ok s
  | r :: rs, s =>
    match preprocessRequest ctx checkNodeAclOnRemove mtime checkAcl r s with
    | .error e => .error e
    | .ok (_, s) => preprocessAll ctx checkNodeAclOnRemove mtime checkAcl rs s

/-! ### The view predicts the commit -/

def Absolute (t : SnapshotableHashTable KeeperMemNode) : Prop :=
  ∀ path, (t.find path).isSome → '/' ∈ path.toList

/-- The deltas staged commit without an inconsistency to `c`, whose container holds every node of
the view as the view holds it, children apart, and every other node as the committed container
does; each node of `c` has an absolute path, and each ephemeral one is registered. -/
structure Predicts (s c : KeeperStorage) : Prop where
  commit : s.commit s.stagingDeltas = .ok (.zok, c)
  inv : Inv c.container
  absolute : Absolute c.container
  registered : Registered c.container c.committedEphemerals
  view : ∀ path entry, AssocList.lookup path s.uncommittedState.nodes = some entry →
    c.tryGetNodeFromStorage path = entry.node
  frame : ∀ path, AssocList.lookup path s.uncommittedState.nodes = none →
    c.tryGetNodeFromStorage path = s.tryGetNodeFromStorage path

section Predicts

variable {s c s' : KeeperStorage} {path : String}

lemma predicts_of_rest (hinv : Inv s.container) (habs : Absolute s.container)
    (hreg : Registered s.container s.committedEphemerals) (hview : s.uncommittedState.nodes = [])
    (hdeltas : s.stagingDeltas = []) : Predicts s s where
  commit := by rw [hdeltas]; rfl
  inv := hinv
  absolute := habs
  registered := hreg
  view path entry h := by rw [hview] at h; cases h
  frame _ _ := rfl

lemma Predicts.step (hp : Predicts s c) {c' : KeeperStorage} (deltas : List Delta)
    (hs' : s' = s.withUncommitted s') (hds : s'.stagingDeltas = s.stagingDeltas ++ deltas)
    (hc' : (c.withUncommitted s').commit deltas = .ok (.zok, c')) (hinv : Inv c'.container)
    (habs : Absolute c'.container) (hreg : Registered c'.container c'.committedEphemerals)
    (hview : ∀ path entry, AssocList.lookup path s'.uncommittedState.nodes = some entry →
      c'.tryGetNodeFromStorage path = entry.node)
    (hframe : ∀ path, AssocList.lookup path s'.uncommittedState.nodes = none →
      AssocList.lookup path s.uncommittedState.nodes = none ∧
        c'.tryGetNodeFromStorage path = c.tryGetNodeFromStorage path) :
    Predicts s' c' where
  commit := by
    have h : s'.commit s.stagingDeltas = .ok (.zok, c.withUncommitted s') := by
      rw [hs', commit_withUncommitted, hp.commit]
      rfl
    rw [hds, commit_append h, hc']
  inv := hinv
  absolute := habs
  registered := hreg
  view := hview
  frame path h := by
    obtain ⟨h0, hc⟩ := hframe path h
    have hcont : s'.container = s.container := by rw [hs']; rfl
    rw [hc, hp.frame path h0, tryGetNodeFromStorage_eq, tryGetNodeFromStorage_eq, hcont]

/-- One delta staged at `path`, with the view changed at `path` only: the prediction moves to what the
delta commits to, once that holds the view's new entry at `path` and the old prediction elsewhere. -/
lemma Predicts.stepAt (hp : Predicts s c) {c' : KeeperStorage} (operation : Operation)
    (nodes : List (String × UncommittedNode)) {entry : UncommittedNode}
    (hnodes : ∀ k, AssocList.lookup k nodes =
      if k = path then some entry else AssocList.lookup k s.uncommittedState.nodes)
    (hc' : (c.withUncommitted ((s.addStagingDelta path operation).withNodes nodes)).commitDelta ⟨path, operation⟩ =
      .ok (.zok, c'))
    (hinv : Inv c'.container) (habs : Absolute c'.container) (hreg : Registered c'.container c'.committedEphemerals)
    (hget : ∀ k, c'.tryGetNodeFromStorage k = if k = path then entry.node else c.tryGetNodeFromStorage k) :
    Predicts ((s.addStagingDelta path operation).withNodes nodes) c' := by
  refine hp.step [⟨path, operation⟩] rfl rfl ?_ hinv habs hreg (fun k e h => ?_) fun k h => ?_
  · rw [KeeperStorage.commit, hc']
    rfl
  · change AssocList.lookup k nodes = some e at h
    rw [hnodes] at h
    rw [hget]
    split_ifs at h ⊢ with hk
    · cases h
      rfl
    · exact hp.view k e h
  · change AssocList.lookup k nodes = none at h
    rw [hnodes] at h
    split_ifs at h with hk
    exact ⟨h, by rw [hget, if_neg hk]⟩

lemma Predicts.keep (hp : Predicts s c) (hs' : s' = s.withUncommitted s')
    (hds : s'.stagingDeltas = s.stagingDeltas)
    (hview : ∀ path entry, AssocList.lookup path s'.uncommittedState.nodes = some entry →
      c.tryGetNodeFromStorage path = entry.node)
    (hframe : ∀ path, AssocList.lookup path s'.uncommittedState.nodes = none →
      AssocList.lookup path s.uncommittedState.nodes = none) :
    Predicts s' (c.withUncommitted s') :=
  hp.step [] hs' (by rw [hds, List.append_nil]) rfl hp.inv hp.absolute hp.registered hview
    fun path h => ⟨hframe path h, rfl⟩

lemma Predicts.same_view (hp : Predicts s c) (hs' : s' = s.withUncommitted s')
    (hnodes : s'.uncommittedState.nodes = s.uncommittedState.nodes) (hds : s'.stagingDeltas = s.stagingDeltas) :
    Predicts s' (c.withUncommitted s') :=
  hp.keep hs' hds (fun path entry h => hp.view path entry (hnodes ▸ h)) fun _ h => hnodes ▸ h

lemma Predicts.getNode_fst (hp : Predicts s c) (path : String) :
    (s.getNode path).1 = c.tryGetNodeFromStorage path := by
  unfold getNode
  rcases hl : AssocList.lookup path s.uncommittedState.nodes with _ | entry
  · rw [hp.frame path hl]
    cases s.tryGetNodeFromStorage path <;> rfl
  · exact (hp.view path entry hl).symm

lemma Predicts.getNode (hp : Predicts s c) (path : String) :
    Predicts (s.getNode path).2 (c.withUncommitted (s.getNode path).2) := by
  unfold KeeperStorage.getNode
  rcases hl : AssocList.lookup path s.uncommittedState.nodes with _ | entry
  · rcases ht : s.tryGetNodeFromStorage path with _ | node
    · exact hp.keep rfl rfl hp.view fun _ h => h
    · -- the view caches the committed node, which the prediction holds as well
      have hlook := AssocList.lookup_append_singleton (AssocList.lookup_eq_none_iff.mp hl) (b := ⟨some node⟩)
      refine hp.keep rfl rfl (fun k entry h => ?_) fun k h => ?_
      · dsimp only [withNodes] at h
        rw [hlook] at h
        split_ifs at h with hk
        · cases h
          rw [hk, hp.frame path hl, ht]
        · exact hp.view k entry h
      · dsimp only [withNodes] at h
        rw [hlook] at h
        split_ifs at h
        exact h
  · exact hp.keep rfl rfl hp.view fun _ h => h

lemma getNode_lookup {node : KeeperMemNode} (h : (s.getNode path).1 = some node) :
    AssocList.lookup path (s.getNode path).2.uncommittedState.nodes = some ⟨some node⟩ := by
  unfold getNode at h ⊢
  rcases hl : AssocList.lookup path s.uncommittedState.nodes with _ | entry
  · rw [hl] at h
    rcases ht : s.tryGetNodeFromStorage path with _ | node'
    · rw [ht] at h
      cases h
    · rw [ht] at h
      cases h
      exact AssocList.lookup_append_singleton_self (AssocList.lookup_eq_none_iff.mp hl)
  · rw [hl] at h
    obtain ⟨node'⟩ := entry
    change node' = some node at h
    subst h
    exact hl

lemma tryGetNodeFromStorage_updateValue (hinv : Inv c.container) {d : KeeperStorage}
    {updater : KeeperMemNode → KeeperMemNode} (hd : d.container = (c.container.updateValue path updater).2) (k : String) :
    d.tryGetNodeFromStorage k =
      if k = path then (((c.container.find path).map ListNode.value).map updater).map KeeperMemNode.shallowCopy
      else c.tryGetNodeFromStorage k := by
  rw [tryGetNodeFromStorage_eq, tryGetNodeFromStorage_eq, hd, hinv.find_updateValue copyFromSnapshotNode_fst]
  split_ifs <;> rfl

lemma Absolute.updateValue (habs : Absolute c.container) (hinv : Inv c.container) (updater : KeeperMemNode → KeeperMemNode) :
    Absolute (c.container.updateValue path updater).2 := by
  intro k hk
  have h := congrArg Option.isSome (hinv.find_updateValue copyFromSnapshotNode_fst path updater k)
  simp only [Option.isSome_map] at h
  rw [h] at hk
  split_ifs at hk with hkp
  · subst hkp
    exact habs k (by simpa using hk)
  · exact habs k (by simpa using hk)

lemma Predicts.updateOne (hp : Predicts s c) {node : KeeperMemNode}
    (hv : AssocList.lookup path s.uncommittedState.nodes = some ⟨some node⟩) (update viewUpdate : KeeperMemNode → KeeperMemNode)
    (hupdate : ∀ v, (update v).shallowCopy = viewUpdate v.shallowCopy)
    (hown : ∀ v : KeeperMemNode, v.stats = node.stats → (update v).stats.ephemeralOwner = node.stats.ephemeralOwner)
    (operation : Operation)
    (hcommit : ∀ d : KeeperStorage, (d.container.find path).isSome →
      d.commitDelta ⟨path, operation⟩ = .ok (.zok, d.withContainer (d.container.updateValue path update).2))
    (nodes : List (String × UncommittedNode))
    (hnodes : ∀ k, AssocList.lookup k nodes =
      if k = path then some ⟨some (viewUpdate node)⟩ else AssocList.lookup k s.uncommittedState.nodes) :
    Predicts ((s.addStagingDelta path operation).withNodes nodes)
      ((c.withUncommitted ((s.addStagingDelta path operation).withNodes nodes)).withContainer
        (c.container.updateValue path update).2) := by
  have hc := hp.view path _ hv
  rw [tryGetNodeFromStorage_eq] at hc
  obtain ⟨v, hfv, hvn⟩ := Option.map_eq_some_iff.mp hc
  have hf : (c.container.find path).isSome := by
    rw [← Option.isSome_map (f := ListNode.value), hfv]
    rfl
  -- the committed node has the view's stats, so the update keeps its owner
  have hown' : ∀ n, (c.container.find path).map ListNode.value = some n →
      (update n).stats.ephemeralOwner = n.stats.ephemeralOwner := by
    intro n hn
    rw [hfv] at hn
    cases hn
    have hstats : v.stats = node.stats := by
      rw [← hvn]
      rfl
    rw [hown v hstats, hstats]
  refine hp.stepAt operation nodes hnodes (hcommit _ hf) (Inv.updateClosed.updateValue hp.inv hp.inv path _)
    (hp.absolute.updateValue hp.inv _) (hp.registered.updateValue hp.inv path update hown') fun k => ?_
  rw [tryGetNodeFromStorage_updateValue hp.inv rfl]
  split_ifs
  · rw [hfv, ← hvn]
    exact congrArg some (hupdate v)
  · rfl

lemma prepareUpdateNodeStat_of_lookup {node : KeeperMemNode}
    (hv : AssocList.lookup path s.uncommittedState.nodes = some ⟨some node⟩) (newStats : NodeStats) (newNumChildren : ℤ) :
    s.prepareUpdateNodeStat path newStats newNumChildren =
      (s.addStagingDelta path (.updateNodeStat node.stats newStats node.numChildren newNumChildren)).withNodes
        (AssocList.modify path (fun _ => ⟨some { node with stats := newStats, numChildren := newNumChildren }⟩)
          s.uncommittedState.nodes) := by
  rw [KeeperStorage.prepareUpdateNodeStat, hv]

lemma lookup_prepareUpdateNodeStat {node : KeeperMemNode}
    (hv : AssocList.lookup path s.uncommittedState.nodes = some ⟨some node⟩) (newStats : NodeStats)
    (newNumChildren : ℤ) (k : String) :
    AssocList.lookup k (s.prepareUpdateNodeStat path newStats newNumChildren).uncommittedState.nodes =
      if k = path then some ⟨some { node with stats := newStats, numChildren := newNumChildren }⟩
      else AssocList.lookup k s.uncommittedState.nodes := by
  rw [prepareUpdateNodeStat_of_lookup hv]
  dsimp only [withNodes, addStagingDelta]
  rw [AssocList.lookup_modify, hv]
  rfl

lemma Predicts.prepareUpdateNodeStat (hp : Predicts s c) {node : KeeperMemNode}
    (hv : AssocList.lookup path s.uncommittedState.nodes = some ⟨some node⟩) (newStats : NodeStats)
    (newNumChildren : ℤ) (hown : newStats.ephemeralOwner = node.stats.ephemeralOwner) :
    Predicts (s.prepareUpdateNodeStat path newStats newNumChildren)
      ((c.withUncommitted (s.prepareUpdateNodeStat path newStats newNumChildren)).withContainer
        (c.container.updateValue path (fun node => { node with stats := newStats, numChildren := newNumChildren })).2) := by
  have hnodes := lookup_prepareUpdateNodeStat hv newStats newNumChildren
  rw [prepareUpdateNodeStat_of_lookup hv] at hnodes ⊢
  exact hp.updateOne hv (fun node => { node with stats := newStats, numChildren := newNumChildren })
    (fun node => { node with stats := newStats, numChildren := newNumChildren }) (fun _ => rfl) (fun _ _ => hown) _
    (fun d hf => commitDelta_updateNodeStat hf _ _ _ _) _ hnodes

lemma Predicts.prepareUpdateNodeACL (hp : Predicts s c) {node : KeeperMemNode}
    (hv : AssocList.lookup path s.uncommittedState.nodes = some ⟨some node⟩) (newStats : NodeStats)
    (hown : newStats.ephemeralOwner = node.stats.ephemeralOwner) (newAclId : ℕ) :
    ∃ c', Predicts (s.prepareUpdateNodeACL path newStats newAclId) c' := by
  have hp₁ := hp.prepareUpdateNodeStat hv newStats node.numChildren hown
  -- the stats change first, and the entry the view then holds takes the new ACL
  have hv₁ := lookup_prepareUpdateNodeStat hv newStats node.numChildren path
  rw [if_pos rfl] at hv₁
  set s₁ := s.prepareUpdateNodeStat path newStats node.numChildren
  have hs : s.prepareUpdateNodeACL path newStats newAclId =
      (s₁.addStagingDelta path (.setACL node.aclId newAclId)).withNodes
        (AssocList.modify path (fun entry => ⟨entry.node.map fun node => { node with aclId := newAclId }⟩)
          s₁.uncommittedState.nodes) := by
    rw [KeeperStorage.prepareUpdateNodeACL, hv]
    rfl
  rw [hs]
  refine ⟨_, hp₁.updateOne hv₁ (fun node => { node with aclId := newAclId })
    (fun node => { node with aclId := newAclId }) (fun _ => rfl) (fun _ hstats => congrArg NodeStats.ephemeralOwner hstats) _
    (fun d hf => commitDelta_setACL hf _ _) _ fun k => by rw [AssocList.lookup_modify, hv₁]; rfl⟩

lemma prepareCreateNode_eq (s : KeeperStorage) (parentPath : String) (newParentStats : NodeStats)
    (newParentNumChildren : ℤ) (path : String) (stat : Stat) (aclId : ℕ) (ttl : Option ℤ) :
    ∃ nodes, s.prepareCreateNode parentPath newParentStats newParentNumChildren path stat aclId ttl =
      ((s.prepareUpdateNodeStat parentPath newParentStats newParentNumChildren).addStagingDelta path
        (.createNode stat aclId ttl)).withNodes nodes ∧
      ∀ k, AssocList.lookup k nodes = if k = path then some ⟨some (createdNode stat aclId ttl)⟩
        else AssocList.lookup k (s.prepareUpdateNodeStat parentPath newParentStats newParentNumChildren).uncommittedState.nodes := by
  unfold KeeperStorage.prepareCreateNode
  dsimp only
  split
  · next hl =>
    refine ⟨_, rfl, fun k => ?_⟩
    rw [AssocList.lookup_modify, hl]
    cases ttl <;> rfl
  · next hl =>
    refine ⟨_, rfl, fun k => ?_⟩
    rw [AssocList.lookup_append_singleton (AssocList.lookup_eq_none_iff.mp hl)]
    cases ttl <;> rfl

lemma tryGetNodeFromStorage_createdContainer (hinv : Inv c.container) (hn : c.container.find path = none)
    (hne : path ≠ parentNodePath path) {node : KeeperMemNode} {d : KeeperStorage}
    (hd : d.container = createdContainer c.container path node) (k : String) :
    d.tryGetNodeFromStorage k = if k = path then some node.shallowCopy else c.tryGetNodeFromStorage k := by
  rw [tryGetNodeFromStorage_eq, tryGetNodeFromStorage_eq, hd, find_createdContainer hinv hn hne]
  split_ifs
  · rfl
  · simp only [Option.map_map, Function.comp_def, shallowCopy_addChild]
  · rfl

lemma Absolute.createdContainer (habs : Absolute c.container) (hinv : Inv c.container)
    (hn : c.container.find path = none) (hne : path ≠ parentNodePath path) (hpath : '/' ∈ path.toList)
    (node : KeeperMemNode) : Absolute (createdContainer c.container path node) := by
  intro k hk
  have h := congrArg Option.isSome (find_createdContainer hinv hn hne node k)
  simp only [Option.isSome_map] at h
  rw [h] at hk
  split_ifs at hk with hkp
  · exact hkp ▸ hpath
  all_goals exact habs k (by simpa using hk)

lemma Absolute.removedContainer (habs : Absolute c.container) (hinv : Inv c.container) :
    Absolute (removedContainer c.container path) := by
  intro k hk
  have h := congrArg Option.isSome (find_removedContainer hinv path k)
  simp only [Option.isSome_map] at h
  rw [h] at hk
  split_ifs at hk
  · cases hk
  all_goals
    simp only [Option.isSome_map] at hk
    exact habs k hk

lemma inv_createdContainer (hinv : Inv c.container) (node : KeeperMemNode) :
    Inv (createdContainer c.container path node) :=
  have hins := Inv.updateClosed.insert hinv hinv path node
  Inv.updateClosed.updateValue hins hins _ _

lemma Predicts.prepareCreateNode (hp : Predicts s c) {parentPath : String} {parentNode : KeeperMemNode}
    (hv : AssocList.lookup parentPath s.uncommittedState.nodes = some ⟨some parentNode⟩)
    {newParentStats : NodeStats} (he : newParentStats.isEphemeral = false)
    (hown : newParentStats.ephemeralOwner = parentNode.stats.ephemeralOwner) (newParentNumChildren : ℤ)
    (hparent : parentNodePath path = parentPath) (hpath : '/' ∈ path.toList)
    (hnone : c.tryGetNodeFromStorage path = none) (stat : Stat) (aclId : ℕ) (ttl : Option ℤ)
    (httl : ttl = none ∨ stat.ephemeralOwner = 0) :
    ∃ c', Predicts (s.prepareCreateNode parentPath newParentStats newParentNumChildren path stat aclId ttl) c' := by
  have hp₁ := hp.prepareUpdateNodeStat hv newParentStats newParentNumChildren hown
  set s₁ := s.prepareUpdateNodeStat parentPath newParentStats newParentNumChildren
  set c₁ := (c.withUncommitted s₁).withContainer (c.container.updateValue parentPath
    (fun node => { node with stats := newParentStats, numChildren := newParentNumChildren })).2
  -- the parent is in the prediction, the node is not
  have hpar := hp.view parentPath _ hv
  rw [tryGetNodeFromStorage_eq] at hpar hnone
  obtain ⟨v, hfv, -⟩ := Option.map_eq_some_iff.mp hpar
  have hn : c.container.find path = none := by simpa using hnone
  have hne : path ≠ parentNodePath path := by
    intro h
    rw [hparent] at h
    rw [h] at hn
    rw [hn] at hfv
    cases hfv
  have hfind₁ := fun k => hp.inv.find_updateValue copyFromSnapshotNode_fst parentPath
    (fun node => { node with stats := newParentStats, numChildren := newParentNumChildren }) k
  have hn₁ : c₁.container.find path = none := by
    have h := hfind₁ path
    rw [if_neg (hparent ▸ hne), hn] at h
    exact Option.map_eq_none_iff.mp h
  have hp₁' : (c₁.container.find (parentNodePath path)).map ListNode.value =
      some { v with stats := newParentStats, numChildren := newParentNumChildren } := by
    rw [hparent]
    exact (hfind₁ parentPath).trans (by rw [if_pos rfl, hfv]; rfl)
  obtain ⟨nodes, hs', hlook⟩ := prepareCreateNode_eq s parentPath newParentStats newParentNumChildren path stat aclId ttl
  rw [hs']
  set s' := (s₁.addStagingDelta path (.createNode stat aclId ttl)).withNodes nodes
  obtain ⟨c₂, hc₂, hcont, heph⟩ :=
    commitDelta_createNode (s := c₁.withUncommitted s') hp₁.inv hp₁' he hn₁ stat aclId ttl
  refine ⟨c₂, hp₁.stepAt _ nodes hlook hc₂ ?_ ?_ ?_ fun k => ?_⟩
  · rw [hcont]
    exact inv_createdContainer hp₁.inv _
  · rw [hcont]
    exact hp₁.absolute.createdContainer hp₁.inv hn₁ hne hpath _
  · rw [hcont, heph]
    exact hp₁.registered.createdContainer hp₁.inv hn₁ hne httl aclId
  · rw [tryGetNodeFromStorage_createdContainer hp₁.inv hn₁ hne hcont, shallowCopy_createdNode]

lemma tryGetNodeFromStorage_removedContainer (hinv : Inv c.container) {d : KeeperStorage}
    (hd : d.container = removedContainer c.container path) (k : String) :
    d.tryGetNodeFromStorage k = if k = path then none else c.tryGetNodeFromStorage k := by
  rw [tryGetNodeFromStorage_eq, tryGetNodeFromStorage_eq, hd, find_removedContainer hinv path]
  split_ifs
  · rfl
  · simp only [Option.map_map, Function.comp_def, shallowCopy_removeChild]
  · rfl

lemma Predicts.prepareRemoveNode (hp : Predicts s c) {parentPath : String} {parentNode node : KeeperMemNode}
    (hv : AssocList.lookup parentPath s.uncommittedState.nodes = some ⟨some parentNode⟩)
    (hvn : AssocList.lookup path s.uncommittedState.nodes = some ⟨some node⟩) {newParentStats : NodeStats}
    (hown : newParentStats.ephemeralOwner = parentNode.stats.ephemeralOwner) (newParentNumChildren : ℤ)
    (hparent : parentNodePath path = parentPath) :
    ∃ c', Predicts (s.prepareRemoveNode parentPath newParentStats newParentNumChildren path) c' := by
  have hp₁ := hp.prepareUpdateNodeStat hv newParentStats newParentNumChildren hown
  have hlook₁ := lookup_prepareUpdateNodeStat hv newParentStats newParentNumChildren
  set s₁ := s.prepareUpdateNodeStat parentPath newParentStats newParentNumChildren
  set c₁ := (c.withUncommitted s₁).withContainer (c.container.updateValue parentPath
    (fun node => { node with stats := newParentStats, numChildren := newParentNumChildren })).2
  -- after the parent's update the view still holds the node and its parent, so the prediction does
  obtain ⟨node₁, hvn₁⟩ : ∃ node₁, AssocList.lookup path s₁.uncommittedState.nodes = some ⟨some node₁⟩ := by
    rw [hlook₁]
    split_ifs
    · exact ⟨_, rfl⟩
    · exact ⟨node, hvn⟩
  have hnode := hp₁.view path _ hvn₁
  have hpar := hp₁.view parentPath _ (by rw [hlook₁, if_pos rfl])
  rw [tryGetNodeFromStorage_eq] at hnode hpar
  obtain ⟨v, hfv, -⟩ := Option.map_eq_some_iff.mp hnode
  have hfp : (c₁.container.find (parentNodePath path)).isSome := by
    obtain ⟨w, hfw, -⟩ := Option.map_eq_some_iff.mp hpar
    rw [hparent, ← Option.isSome_map (f := ListNode.value), hfw]
    rfl
  have hs' : s₁.prepareRemoveNodeWithoutUpdatingParent path =
      (s₁.addStagingDelta path (.removeNode node₁.stats node₁.numChildren node₁.aclId)).withNodes
        (AssocList.modify path (fun _ => ⟨none⟩) s₁.uncommittedState.nodes) := by
    rw [KeeperStorage.prepareRemoveNodeWithoutUpdatingParent, hvn₁]
  have hlook : ∀ k, AssocList.lookup k (AssocList.modify path (fun _ => ⟨none⟩) s₁.uncommittedState.nodes) =
      if k = path then some ⟨none⟩ else AssocList.lookup k s₁.uncommittedState.nodes := by
    intro k
    rw [AssocList.lookup_modify, hvn₁]
    rfl
  unfold KeeperStorage.prepareRemoveNode
  rw [hs']
  set s' := (s₁.addStagingDelta path (.removeNode node₁.stats node₁.numChildren node₁.aclId)).withNodes
    (AssocList.modify path (fun _ => ⟨none⟩) s₁.uncommittedState.nodes)
  obtain ⟨c₂, hc₂, hcont, hreg₂⟩ :=
    commitDelta_removeNode (s := c₁.withUncommitted s') hp₁.inv hp₁.registered hfv hfp node₁.stats node₁.numChildren
      node₁.aclId
  refine ⟨c₂, hp₁.stepAt _ _ hlook hc₂ ?_ ?_ hreg₂ (tryGetNodeFromStorage_removedContainer hp₁.inv hcont)⟩
  · rw [hcont]
    exact inv_removedContainer hp₁.inv
  · rw [hcont]
    exact hp₁.absolute.removedContainer hp₁.inv

lemma lookup_getNode_of_lookup {k : String} {entry : UncommittedNode}
    (h : AssocList.lookup k s.uncommittedState.nodes = some entry) (path : String) :
    AssocList.lookup k (s.getNode path).2.uncommittedState.nodes = some entry := by
  unfold KeeperStorage.getNode
  rcases hl : AssocList.lookup path s.uncommittedState.nodes with _ | e
  · rcases s.tryGetNodeFromStorage path with _ | node
    · exact h
    · have hk : k ≠ path := by
        rintro rfl
        rw [hl] at h
        cases h
      exact (AssocList.lookup_append_singleton_of_ne hk _).trans h
  · exact h

lemma convertACLs_snd (acls : List ACL) :
    (s.convertACLs acls).2 = s.withUncommitted (s.convertACLs acls).2 ∧
      (s.convertACLs acls).2.uncommittedState.nodes = s.uncommittedState.nodes ∧
      (s.convertACLs acls).2.stagingDeltas = s.stagingDeltas := by
  unfold KeeperStorage.convertACLs
  split_ifs
  · exact ⟨rfl, rfl, rfl⟩
  · split <;> exact ⟨rfl, rfl, rfl⟩

lemma slash_not_mem_formatSeqNum (seqNum : ℤ) : '/' ∉ (formatSeqNum seqNum).toList := by
  have hdigits : ∀ n : ℕ, '/' ∉ (toString n).toList := fun n h => by
    have := Nat.isDigit_of_mem_toDigits (b := 10) (by decide) (by decide)
      (by simpa [Nat.toString_eq_ofList_toDigits] using h)
    exact absurd this (by decide)
  rw [formatSeqNum, String.toList_append, String.toList_ofList, List.mem_append, not_or]
  refine ⟨fun h => absurd (List.eq_of_mem_replicate h) (by decide), ?_⟩
  rcases seqNum with n | n
  · exact hdigits n
  · change '/' ∉ ("-" ++ toString (n + 1)).toList
    rw [String.toList_append, List.mem_append, not_or]
    exact ⟨by decide, hdigits (n + 1)⟩

variable {ctx : KeeperContext} {checkNodeAclOnRemove : Bool} {mtime : String → ℤ} {sessionId : ℤ} {checkAcl : Bool}
  {e : Error}

lemma Predicts.preprocessCreate (hp : Predicts s c) {request : CreateRequest}
    (h : preprocessCreate ctx request sessionId checkAcl s = .ok (e, s')) : ∃ c', Predicts s' c' := by
  unfold KeeperStorage.preprocessCreate at h
  dsimp only at h
  have hp₁ := hp.getNode (parentNodePath request.path)
  have hfst₁ := hp.getNode_fst (parentNodePath request.path)
  have hlk₁ := fun {node : KeeperMemNode} (hn : (s.getNode (parentNodePath request.path)).1 = some node) =>
    getNode_lookup hn
  rcases hg : s.getNode (parentNodePath request.path) with ⟨_ | parentNode, s₁⟩ <;>
    rw [hg] at h hp₁ hfst₁ hlk₁
  · cases h
    exact ⟨_, hp₁⟩
  have hv₁ := hlk₁ rfl
  dsimp only at h hv₁
  -- the parent is in the prediction, so its path and the request's are absolute
  have habs : '/' ∈ request.path.toList := by
    refine mem_of_mem_parentNodePath (hp.absolute _ ?_)
    have h' := hfst₁
    rw [tryGetNodeFromStorage_eq] at h'
    cases hf : c.container.find (parentNodePath request.path) with
    | none =>
      rw [hf] at h'
      cases h'
    | some _ => rfl
  split at h
  · cases h
  · cases h
    exact ⟨_, hp₁⟩
  set pathCreated :=
    if request.isSequential = true then request.path ++ formatSeqNum parentNode.stats.seqNum else request.path
    with hpathCreated
  by_cases heph : parentNode.stats.isEphemeral = true
  · rw [if_pos heph] at h
    cases h
    exact ⟨_, hp₁⟩
  rw [if_neg heph] at h
  by_cases httl : parentNode.stats.isTTL = true
  · rw [if_pos httl] at h
    cases h
    exact ⟨_, hp₁⟩
  rw [if_neg httl] at h
  by_cases hseq : request.isSequential = true ∧ request.notExists = true
  · rw [if_pos hseq] at h
    cases h
    exact ⟨_, hp₁⟩
  rw [if_neg hseq] at h
  by_cases hsys : matchPath pathCreated keeperSystemPath ≠ .notMatch
  · rw [if_pos hsys] at h
    cases hctx : handleSystemNodeModification ctx <;> rw [hctx] at h <;> cases h
    exact ⟨_, hp₁⟩
  rw [if_neg hsys] at h
  have hp₂ := hp₁.getNode pathCreated
  have hfst₂ := hp₁.getNode_fst pathCreated
  have hv₂ := lookup_getNode_of_lookup hv₁ pathCreated
  rcases hg₂ : s₁.getNode pathCreated with ⟨_ | _, s₂⟩ <;> rw [hg₂] at h hp₂ hfst₂ hv₂
  · dsimp only at h hv₂
    by_cases hbase : getBaseNodeName pathCreated = ""
    · rw [if_pos hbase] at h
      cases h
      exact ⟨_, hp₂⟩
    rw [if_neg hbase] at h
    split at h
    · cases h
      exact ⟨_, hp₂⟩
    rename_i nodeAcls _
    by_cases httl' : request.includeTtl = true ∧
        (request.isEphemeral = true ∨ request.ttl ≤ 0 ∨ maxKeeperTtlMs < request.ttl)
    · rw [if_pos httl'] at h
      cases h
      exact ⟨_, hp₂⟩
    rw [if_neg httl'] at h
    -- accepted: the ephemeral registration and the ACL map do not touch the view
    set s₃ := if request.isEphemeral = true then { s₂ with uncommittedState :=
      { s₂.uncommittedState with ephemerals := emplaceEphemeralPath s₂.uncommittedState.ephemerals sessionId pathCreated } }
      else s₂ with hs₃
    have hs₃' : s₃ = s₂.withUncommitted s₃ ∧ s₃.uncommittedState.nodes = s₂.uncommittedState.nodes ∧
        s₃.stagingDeltas = s₂.stagingDeltas := by
      rw [hs₃]
      split <;> exact ⟨rfl, rfl, rfl⟩
    have hp₃ := hp₂.same_view hs₃'.1 hs₃'.2.1 hs₃'.2.2
    obtain ⟨hs₄, hnodes₄, hds₄⟩ := convertACLs_snd (s := s₃) nodeAcls
    have hp₄ := hp₃.same_view hs₄ hnodes₄ hds₄
    have hv₄ : AssocList.lookup (parentNodePath request.path) (s₃.convertACLs nodeAcls).2.uncommittedState.nodes =
        some ⟨some parentNode⟩ := by
      rw [hnodes₄, hs₃'.2.1]
      exact hv₂
    have he : ∀ newStats : NodeStats, newStats.isEphemeral = parentNode.stats.isEphemeral →
        newStats.isEphemeral = false := fun _ hs => by simpa [hs] using heph
    have hown : ∀ newStats : NodeStats, newStats.isEphemeral = parentNode.stats.isEphemeral →
        newStats.ephemeralOwner = parentNode.stats.ephemeralOwner := fun _ hs => by
      simp [NodeStats.ephemeralOwner, hs, heph]
    have hparent : parentNodePath pathCreated = parentNodePath request.path := by
      rw [hpathCreated]
      split_ifs
      · exact parentNodePath_append (slash_not_mem_formatSeqNum _) habs
      · rfl
    have hpath : '/' ∈ pathCreated.toList := by
      rw [hpathCreated]
      split_ifs
      · rw [String.toList_append]
        exact List.mem_append_left _ habs
      · exact habs
    cases h
    refine hp₄.prepareCreateNode hv₄ (he _ (by split_ifs <;> rfl)) (hown _ (by split_ifs <;> rfl)) _ hparent hpath
      hfst₂.symm _ _ _ ?_
    -- a TTL is given only to a node that is not ephemeral
    cases hi : request.includeTtl
    · exact .inl rfl
    · have hne : request.isEphemeral ≠ true := fun h => httl' ⟨hi, .inl h⟩
      exact .inr (by simp [hne])
  · cases h
    exact ⟨_, hp₂⟩

lemma Predicts.preprocessSetACL (hp : Predicts s c) {path : String} {acls : List ACL} {version : ℤ}
    (h : preprocessSetACL ctx path acls version sessionId checkAcl s = .ok (e, s')) : ∃ c', Predicts s' c' := by
  unfold KeeperStorage.preprocessSetACL at h
  by_cases hsys : matchPath path keeperSystemPath ≠ .notMatch
  · rw [if_pos hsys] at h
    cases hctx : handleSystemNodeModification ctx <;> rw [hctx] at h <;> cases h
    exact ⟨_, hp⟩
  rw [if_neg hsys] at h
  have hp₁ := hp.getNode path
  have hlk₁ := fun {node : KeeperMemNode} (hn : (s.getNode path).1 = some node) => getNode_lookup hn
  rcases hg : s.getNode path with ⟨_ | node, s₁⟩ <;> rw [hg] at h hp₁ hlk₁
  · cases h
    exact ⟨_, hp₁⟩
  have hv₁ := hlk₁ rfl
  dsimp only at h hv₁
  split at h
  · cases h
  · cases h
    exact ⟨_, hp₁⟩
  by_cases hversion : version ≠ -1 ∧ version ≠ node.stats.aversion
  · rw [if_pos hversion] at h
    cases h
    exact ⟨_, hp₁⟩
  rw [if_neg hversion] at h
  split at h
  · cases h
    exact ⟨_, hp₁⟩
  rename_i nodeAcls _
  obtain ⟨hs₂, hnodes₂, hds₂⟩ := convertACLs_snd (s := s₁) nodeAcls
  have hp₂ := hp₁.same_view hs₂ hnodes₂ hds₂
  cases h
  exact hp₂.prepareUpdateNodeACL (by rw [hnodes₂]; exact hv₁) _ (by rfl) _

lemma Predicts.preprocessRemove (hp : Predicts s c) {request : RemoveRequest} {time : ℤ}
    (h : preprocessRemove ctx checkNodeAclOnRemove mtime request sessionId checkAcl time s = .ok (e, s')) :
    ∃ c', Predicts s' c' := by
  unfold KeeperStorage.preprocessRemove at h
  by_cases hsys : matchPath request.path keeperSystemPath ≠ .notMatch
  · rw [if_pos hsys] at h
    cases hctx : handleSystemNodeModification ctx <;> rw [hctx] at h <;> cases h
    exact ⟨_, hp⟩
  rw [if_neg hsys] at h
  dsimp only at h
  have hp₁ := hp.getNode (parentNodePath request.path)
  have hlk₁ := fun {node : KeeperMemNode} (hn : (s.getNode (parentNodePath request.path)).1 = some node) =>
    getNode_lookup hn
  rcases hg : s.getNode (parentNodePath request.path) with ⟨_ | parentNode, s₁⟩ <;> rw [hg] at h hp₁ hlk₁
  · cases h
    exact ⟨_, hp₁⟩
  have hv₁ := hlk₁ rfl
  dsimp only at h hv₁
  split at h
  · cases h
  · cases h
    exact ⟨_, hp₁⟩
  have hp₂ := hp₁.getNode request.path
  have hlk₂ := fun {node : KeeperMemNode} (hn : (s₁.getNode request.path).1 = some node) => getNode_lookup hn
  have hv₂ := lookup_getNode_of_lookup hv₁ request.path
  rcases hg₂ : s₁.getNode request.path with ⟨_ | node, s₂⟩ <;> rw [hg₂] at h hp₂ hlk₂ hv₂
  · -- no node: only a request replayed from a ZooKeeper log stages the parent's stats
    dsimp only at h hv₂
    split at h
    · cases h
      exact ⟨_, hp₂⟩
    split at h
    · cases h
      exact ⟨_, hp₂.prepareUpdateNodeStat hv₂ _ _ rfl⟩
    · cases h
      exact ⟨_, hp₂⟩
  have hvn₂ := hlk₂ rfl
  dsimp only at h hv₂ hvn₂
  split at h
  · cases h
  · cases h
    exact ⟨_, hp₂⟩
  split at h
  · cases h
    exact ⟨_, hp₂⟩
  split at h
  · cases h
    exact ⟨_, hp₂⟩
  split at h
  · cases h
    exact ⟨_, hp₂⟩
  cases h
  have hremove : ∀ (newParentStats : NodeStats), newParentStats.ephemeralOwner = parentNode.stats.ephemeralOwner →
      ∀ (newParentNumChildren : ℤ) (s₃ : KeeperStorage), s₃ = s₂.withUncommitted s₃ →
        s₃.uncommittedState.nodes = s₂.uncommittedState.nodes → s₃.stagingDeltas = s₂.stagingDeltas →
        ∃ c', Predicts (s₃.prepareRemoveNode (parentNodePath request.path) newParentStats newParentNumChildren
          request.path) c' := by
    intro newParentStats hown newParentNumChildren s₃ hs₃ hnodes hds
    exact (hp₂.same_view hs₃ hnodes hds).prepareRemoveNode (by rw [hnodes]; exact hv₂) (by rw [hnodes]; exact hvn₂)
      hown newParentNumChildren rfl
  -- an ephemeral node also leaves its session's entry in the view's index, which holds no nodes
  split
  · split <;> exact hremove _ (by rfl) _ _ (by rfl) (by rfl) (by rfl)
  · exact hremove _ (by rfl) _ _ (by rfl) (by rfl) (by rfl)

lemma Predicts.preprocessRequest (hp : Predicts s c) {request : Request}
    (h : preprocessRequest ctx checkNodeAclOnRemove mtime checkAcl request s = .ok (e, s')) : ∃ c', Predicts s' c' := by
  cases request with
  | create request sessionId => exact hp.preprocessCreate h
  | remove request sessionId time => exact hp.preprocessRemove h
  | setACL path acls version sessionId => exact hp.preprocessSetACL h

lemma Predicts.preprocessAll (hp : Predicts s c) :
    ∀ (requests : List Request) {s' : KeeperStorage},
      preprocessAll ctx checkNodeAclOnRemove mtime checkAcl requests s = .ok s' → ∃ c', Predicts s' c' := by
  intro requests
  induction requests generalizing s c with
  | nil =>
    intro s' h
    cases h
    exact ⟨c, hp⟩
  | cons request requests ih =>
    intro s' h
    rw [KeeperStorage.preprocessAll] at h
    rcases hr : KeeperStorage.preprocessRequest ctx checkNodeAclOnRemove mtime checkAcl request s with _ | ⟨e, s₁⟩ <;>
      rw [hr] at h
    · cases h
    · obtain ⟨c₁, hp₁⟩ := hp.preprocessRequest hr
      exact ih hp₁ h

end Predicts

/-- From a storage with nothing pending whose ephemeral nodes are registered, after any run of
`Create`, `Remove` and `SetACL` requests, committing the deltas the accepted ones staged never finds
the storage inconsistent and answers `ZOK`; the container it leaves holds every node the uncommitted
view holds as the view holds it, its children apart, none of the nodes the view has removed, and
every other node as before. -/
theorem preprocessAll_commit_predicted (ctx : KeeperContext) (checkNodeAclOnRemove : Bool) (mtime : String → ℤ)
    (checkAcl : Bool) (requests : List Request) {s s' : KeeperStorage} (hinv : Inv s.container)
    (habs : Absolute s.container) (hreg : Registered s.container s.committedEphemerals)
    (hview : s.uncommittedState.nodes = []) (hdeltas : s.stagingDeltas = [])
    (h : preprocessAll ctx checkNodeAclOnRemove mtime checkAcl requests s = .ok s') :
    ∃ c, s'.commit s'.stagingDeltas = .ok (.zok, c) ∧
      (∀ path entry, AssocList.lookup path s'.uncommittedState.nodes = some entry →
        c.tryGetNodeFromStorage path = entry.node) ∧
      (∀ path, AssocList.lookup path s'.uncommittedState.nodes = none →
        c.tryGetNodeFromStorage path = s'.tryGetNodeFromStorage path) := by
  obtain ⟨c, hp⟩ := (predicts_of_rest hinv habs hreg hview hdeltas).preprocessAll requests h
  exact ⟨c, hp.commit, hp.view, hp.frame⟩

lemma inv_root : Inv root.container :=
  Inv.updateClosed.insert Inv.empty Inv.empty "/" KeeperMemNode.empty

lemma find_root (path : String) : (root.container.find path).map ListNode.value =
    if path = "/" then some KeeperMemNode.empty else none :=
  @Inv.find_insert KeeperMemNode _ SnapshotableHashTable.empty "/" Inv.empty rfl KeeperMemNode.empty path

lemma absolute_root : Absolute root.container := by
  intro path hpath
  have hs := congrArg Option.isSome (find_root path)
  rw [Option.isSome_map] at hs
  rw [hs] at hpath
  split_ifs at hpath with hp
  · rw [hp]
    decide
  · cases hpath

lemma registered_root : Registered root.container root.committedEphemerals := by
  intro path node hnode howner
  rw [find_root] at hnode
  split_ifs at hnode
  cases hnode
  exact absurd rfl howner

/-- Two nodes made and removed again, one of them ephemeral, and an ACL set in between. -/
def requestsFromRoot : List Request :=
  [.create (.persistent "/a") 1, .create { CreateRequest.persistent "/a/b" with isSequential := true } 1,
    .setACL "/a" [] (-1) 1, .create { CreateRequest.persistent "/e" with isEphemeral := true } 1,
    .remove ⟨"/a/b0000000000", -1, false, false⟩ 1 0, .remove ⟨"/e", -1, false, false⟩ 1 0]

theorem preprocessAll_commit_predicted_root :
    ∃ s', preprocessAll runningContext true (fun _ => 0) true requestsFromRoot root = .ok s' ∧
      ∃ c, s'.commit s'.stagingDeltas = .ok (.zok, c) ∧
        (∀ path entry, AssocList.lookup path s'.uncommittedState.nodes = some entry →
          c.tryGetNodeFromStorage path = entry.node) ∧
        (∀ path, AssocList.lookup path s'.uncommittedState.nodes = none →
          c.tryGetNodeFromStorage path = s'.tryGetNodeFromStorage path) := by
  obtain ⟨s', hs'⟩ : ∃ s', preprocessAll runningContext true (fun _ => 0) true requestsFromRoot root = .ok s' :=
    ⟨_, rfl⟩
  exact ⟨s', hs', preprocessAll_commit_predicted runningContext true (fun _ => 0) true requestsFromRoot inv_root
    absolute_root registered_root rfl rfl hs'⟩

end KeeperStorage

end ClickHouse.Coordination
