import ClickHouse.Coordination.KeeperStorage
import ClickHouse.Coordination.SnapshotableHashTable.Invariant

/-! What `RemoveRecursive` removes. Its preprocessing collects the subtree of the request's path and
prepares a stat update of the parent and one removal per collected node. Every removed node lies in
the subtree of the request's path, so the check that the path is not a system path protects the
system nodes for every path but the root, which has every node in its subtree: on a fresh storage,
`RemoveRecursive` of `/` removes the root, `/keeper` and the system nodes, and its commit leaves the
container empty. -/

namespace ClickHouse.Coordination

open ClickHouse.Common ClickHouse.Common.ZooKeeper ClickHouse.Lib ClickHouse.Lib.PathPrefix

namespace ToDeleteTreeCollector

open KeeperStorage

/-! ### Fuel -/

/-- One more round of the collector's loop changes no answer. -/
lemma collectLoop_fuel_succ {s : KeeperStorage} {fuel i : ℕ} {c : ToDeleteTreeCollector}
    {r : Except ErrorCode (CollectStatus × ToDeleteTreeCollector)}
    (h : collectLoop s fuel i c = some r) : collectLoop s (fuel + 1) i c = some r := by
  induction fuel generalizing i c with
  | zero => cases h
  | succ fuel ih =>
    rw [collectLoop] at h ⊢
    -- the two sides differ in the fuel of the recursive call only
    split at h
    · exact h
    · split at h
      · exact h
      · exact h
      · split at h
        · split at h
          · exact h
          · exact ih h
          · exact h
        · exact h

lemma collect_fuel_succ {c : ToDeleteTreeCollector} {fuel : ℕ} {s : KeeperStorage} {rootPath : String}
    {rootNode : KeeperMemNode} {r : Except ErrorCode (CollectStatus × ToDeleteTreeCollector)}
    (h : c.collect fuel s rootPath rootNode = some r) : c.collect (fuel + 1) s rootPath rootNode = some r := by
  unfold collect at h ⊢
  split at h
  split_ifs at h ⊢
  · exact h
  · exact collectLoop_fuel_succ h

/-! ### What the collector gathers -/

/-- What the collector has gathered is in the subtree of `root`, and so are the entries of the view
it walks. -/
structure Collected (root : String) (c : ToDeleteTreeCollector) : Prop where
  result : ∀ e ∈ c.result, InSubtree root e.path
  uncommittedChildren : ∀ e ∈ c.uncommittedChildren, matchPath e.1 root = .isChild

variable {root : String} {c c' : ToDeleteTreeCollector}

@[simp] lemma checkLimits_result (node : KeeperMemNode) : (c.checkLimits node).2.result = c.result := rfl

@[simp] lemma checkLimits_uncommittedChildren (node : KeeperMemNode) :
    (c.checkLimits node).2.uncommittedChildren = c.uncommittedChildren := rfl

lemma Collected.checkLimits {node : KeeperMemNode} {exceeded : Bool} (h : Collected root c)
    (hc : c.checkLimits node = (exceeded, c')) : Collected root c' := by
  obtain ⟨-, rfl⟩ := Prod.mk.inj hc
  exact ⟨h.result, h.uncommittedChildren⟩

lemma Collected.addResult (h : Collected root c) {path : String} (hp : InSubtree root path) (stats : NodeStats)
    (aclId : ℕ) : Collected root (c.addResult path stats aclId) := by
  refine ⟨fun e he => ?_, h.uncommittedChildren⟩
  rcases List.mem_append.mp he with he | he
  · exact h.result e he
  · rw [List.mem_singleton.mp he]
    exact hp

/-- Each entry `visitUncommitted` walks is a child of the root, so what it adds is in the subtree,
whether the walk ends early or not. -/
lemma Collected.visitUncommittedLoop {entries : List (String × UncommittedNode)} (h : Collected root c)
    (hentries : ∀ e ∈ entries, matchPath e.1 root = .isChild) (processed : List String) :
    Collected root (visitUncommittedLoop entries c processed).2.1 := by
  induction entries generalizing c processed with
  | nil => exact h
  | cons e entries ih =>
    obtain ⟨nodePath, entry⟩ := e
    have hentry := inSubtree_of_matchPath_eq_isChild (hentries _ List.mem_cons_self)
    have hrest : ∀ e ∈ entries, matchPath e.1 root = .isChild := fun e he => hentries e (List.mem_cons_of_mem _ he)
    rw [ToDeleteTreeCollector.visitUncommittedLoop]
    split
    · exact ih h hrest _
    · rename_i node _
      split
      rename_i c₁ hc
      split_ifs
      · exact h.checkLimits hc
      · exact ih ((h.checkLimits hc).addResult hentry _ _) hrest _

lemma Collected.visitUncommitted (h : Collected root c) (path : String) :
    Collected root (c.visitUncommitted path).2.1 :=
  h.visitUncommittedLoop (fun e he => h.uncommittedChildren e
    (((List.takeWhile_sublist _).trans (List.dropWhile_sublist _)).subset he)) []

/-- The names of the children that the container's nodes record are relative. -/
def RelativeChildren (s : KeeperStorage) : Prop :=
  ∀ e ∈ s.container.list, ∀ name ∈ e.2.value.children, name.toList.head? ≠ some '/'

instance (s : KeeperStorage) : Decidable (RelativeChildren s) :=
  inferInstanceAs (Decidable (∀ e ∈ s.container.list, ∀ name ∈ e.2.value.children, name.toList.head? ≠ some '/'))

lemma mem_list_of_find_eq_some {t : SnapshotableHashTable KeeperMemNode} {path : String}
    {node : ListNode KeeperMemNode} (h : t.find path = some node) : ∃ itr, (itr, node) ∈ t.list := by
  obtain ⟨⟨itr, node'⟩, hfind, rfl⟩ := Option.map_eq_some_iff.mp h
  rw [SnapshotableHashTable.findNode_eq, Option.bind_eq_some_iff] at hfind
  obtain ⟨itr', -, hnode⟩ := hfind
  obtain ⟨node'', hl, heq⟩ := Option.bind_eq_some_iff.mp hnode
  cases heq
  exact ⟨itr, AssocList.mem_of_lookup_eq_some hl⟩

/-- The children `visitMemNode` adds are built from a node in the subtree and a relative name. -/
lemma Collected.visitMemNodeLoop {s : KeeperStorage} {currentPath : String} {processed names : List String}
    {status : CollectStatus} (h : Collected root c) (hcur : InSubtree root currentPath)
    (hnames : ∀ name ∈ names, name.toList.head? ≠ some '/')
    (hv : visitMemNodeLoop s currentPath processed names c = .ok (status, c')) : Collected root c' := by
  induction names generalizing c with
  | nil =>
    cases hv
    exact h
  | cons name names ih =>
    have hrest : ∀ name ∈ names, name.toList.head? ≠ some '/' := fun n hn => hnames n (List.mem_cons_of_mem _ hn)
    have hchild := hcur.appendPath (hnames name List.mem_cons_self)
    rw [ToDeleteTreeCollector.visitMemNodeLoop] at hv
    split_ifs at hv
    · exact ih h hrest hv
    · split at hv
      · cases hv
      · split at hv
        rename_i c₁ hc
        split_ifs at hv
        · cases hv
          exact h.checkLimits hc
        · exact ih ((h.checkLimits hc).addResult hchild _ _) hrest hv

lemma Collected.visitMemNode {s : KeeperStorage} {currentPath : String} {processed : List String}
    {status : CollectStatus} (h : Collected root c) (hcur : InSubtree root currentPath)
    (hrel : RelativeChildren s) (hv : c.visitMemNode s currentPath processed = .ok (status, c')) :
    Collected root c' := by
  unfold ToDeleteTreeCollector.visitMemNode at hv
  split at hv
  · cases hv
    exact h
  · rename_i node hfind
    obtain ⟨itr, hmem⟩ := mem_list_of_find_eq_some hfind
    exact h.visitMemNodeLoop hcur (hrel _ hmem) hv

/-- A round of the loop keeps what was gathered in the subtree; the induction is on the fuel. -/
lemma Collected.collectLoop {s : KeeperStorage} {fuel i : ℕ} (hrel : RelativeChildren s) (h : Collected root c)
    (hloop : collectLoop s fuel i c = some (.ok (.ok, c'))) : Collected root c' := by
  induction fuel generalizing i c with
  | zero => cases hloop
  | succ fuel ih =>
    rw [ToDeleteTreeCollector.collectLoop] at hloop
    split at hloop
    · cases hloop
      exact h
    · rename_i current hcurrent
      have hcur : InSubtree root current.path := h.result _ (List.mem_of_getElem? hcurrent)
      split at hloop
      · cases hloop
      · cases hloop
      · -- whatever status the visits end in, what they gathered is in the subtree
        have hvisit := h.visitUncommitted current.path
        split at hloop
        · rename_i c₁ processed hv
          rw [hv] at hvisit
          split at hloop
          · cases hloop
          · exact ih (hvisit.visitMemNode hcur hrel (by assumption)) hloop
          · cases hloop
            exact hvisit.visitMemNode hcur hrel (by assumption)
        · rename_i c₁ _ _ hv
          cases hloop
          rw [hv] at hvisit
          exact hvisit

/-- Everything `collect` gathers from a root with a non-empty path is in its subtree. -/
lemma collect_collected {sessionId : ℤ} {checkAcl : Bool} {limit fuel : ℕ} {s : KeeperStorage}
    {rootPath : String} {rootNode : KeeperMemNode} (hroot : rootPath ≠ "") (hrel : RelativeChildren s)
    (hc : (init sessionId checkAcl limit).collect fuel s rootPath rootNode = some (.ok (.ok, c'))) :
    Collected rootPath c' := by
  unfold collect at hc
  split at hc
  rename_i c₀ hlimits
  split_ifs at hc
  · cases hc
  dsimp only at hc
  refine Collected.collectLoop hrel ⟨?_, fun e he => ?_⟩ hc
  · intro e he
    have hinit : c₀.result = [] := by
      rw [← (Prod.mk.inj hlimits).2]
      rfl
    simp only [ToDeleteTreeCollector.addResult, hinit, List.nil_append, List.mem_singleton] at he
    rw [he]
    exact inSubtree_self hroot
  · have he' := (List.perm_insertionSort _ _).subset he
    exact of_decide_eq_true (List.mem_filter.mp he').2

/-! ### Properties that pass down the tree -/

/-- A property of paths that passes from a path to each child the collector visits there: the
entries of the view `u` that `visitUncommitted` walks, and the children the container lists. -/
structure PassesDown (s : KeeperStorage) (u : List (String × UncommittedNode)) (P : String → Prop) : Prop where
  uncommitted : ∀ path, P path → ∀ e ∈ (u.dropWhile fun e => !pathCmp (path ++ "/") e.1).takeWhile
    (fun e => decide (parentNodePath e.1 = path)), P e.1
  committed : ∀ path node, P path → s.container.find path = some node → ∀ name ∈ node.value.children,
    P (appendPath path name)

section PassesDown

variable {s : KeeperStorage} {u : List (String × UncommittedNode)} {P : String → Prop}

lemma visitUncommittedLoop_passes {entries : List (String × UncommittedNode)} (hentries : ∀ e ∈ entries, P e.1)
    (hc : ∀ e ∈ c.result, P e.path) (processed : List String) :
    (visitUncommittedLoop entries c processed).2.1.uncommittedChildren = c.uncommittedChildren ∧
      ∀ e ∈ (visitUncommittedLoop entries c processed).2.1.result, P e.path := by
  induction entries generalizing c processed with
  | nil => exact ⟨rfl, hc⟩
  | cons e entries ih =>
    obtain ⟨nodePath, entry⟩ := e
    have hrest : ∀ e ∈ entries, P e.1 := fun e he => hentries e (List.mem_cons_of_mem _ he)
    rw [ToDeleteTreeCollector.visitUncommittedLoop]
    split
    · exact ih hrest hc _
    · rename_i node _
      split
      rename_i c₁ hc₁
      have hkeep : c₁.result = c.result ∧ c₁.uncommittedChildren = c.uncommittedChildren := by
        rw [← (Prod.mk.inj hc₁).2]
        exact ⟨rfl, rfl⟩
      split_ifs
      · exact ⟨hkeep.2, hkeep.1 ▸ hc⟩
      · -- the entry joins the result
        have hadd : ∀ e ∈ (c₁.addResult nodePath node.stats node.aclId).result, P e.path := by
          intro e he
          rcases List.mem_append.mp he with he | he
          · exact hc e (hkeep.1 ▸ he)
          · rw [List.mem_singleton.mp he]
            exact hentries _ List.mem_cons_self
        obtain ⟨hu, hres⟩ := ih hrest hadd (processed ++ [nodePath])
        exact ⟨hu.trans hkeep.2, hres⟩

lemma visitMemNodeLoop_passes {currentPath : String} {processed names : List String} {status : CollectStatus}
    (hnames : ∀ name ∈ names, P (appendPath currentPath name)) (hc : ∀ e ∈ c.result, P e.path)
    (hv : visitMemNodeLoop s currentPath processed names c = .ok (status, c')) :
    c'.uncommittedChildren = c.uncommittedChildren ∧ ∀ e ∈ c'.result, P e.path := by
  induction names generalizing c with
  | nil =>
    cases hv
    exact ⟨rfl, hc⟩
  | cons name names ih =>
    have hrest : ∀ name ∈ names, P (appendPath currentPath name) := fun n hn => hnames n (List.mem_cons_of_mem _ hn)
    rw [ToDeleteTreeCollector.visitMemNodeLoop] at hv
    split_ifs at hv
    · exact ih hrest hc hv
    · split at hv
      · cases hv
      · split at hv
        rename_i child _ _ _ c₁ hc₁
        have hkeep : c₁.result = c.result ∧ c₁.uncommittedChildren = c.uncommittedChildren := by
          rw [← (Prod.mk.inj hc₁).2]
          exact ⟨rfl, rfl⟩
        split_ifs at hv
        · cases hv
          exact ⟨hkeep.2, hkeep.1 ▸ hc⟩
        · -- the child joins the result
          have hadd : ∀ e ∈ (c₁.addResult (appendPath currentPath name) child.value.stats child.value.aclId).result,
              P e.path := by
            intro e he
            rcases List.mem_append.mp he with he | he
            · exact hc e (hkeep.1 ▸ he)
            · rw [List.mem_singleton.mp he]
              exact hnames name List.mem_cons_self
          obtain ⟨hu, hres⟩ := ih hrest hadd hv
          exact ⟨hu.trans hkeep.2, hres⟩

/-- A round of the loop keeps what was gathered within `P`, whatever status it ends in; the
induction is on the fuel. -/
lemma collectLoop_passes (hP : PassesDown s u P) {fuel i : ℕ} {status : CollectStatus}
    (hu : c.uncommittedChildren = u) (hc : ∀ e ∈ c.result, P e.path)
    (hloop : collectLoop s fuel i c = some (.ok (status, c'))) : ∀ e ∈ c'.result, P e.path := by
  induction fuel generalizing i c with
  | zero => cases hloop
  | succ fuel ih =>
    rw [ToDeleteTreeCollector.collectLoop] at hloop
    split at hloop
    · cases hloop
      exact hc
    · rename_i current hcurrent
      have hcur : P current.path := hc _ (List.mem_of_getElem? hcurrent)
      -- the entries of the view that `visitUncommitted` walks satisfy `P`
      have hentries : ∀ e ∈ (c.uncommittedChildren.dropWhile fun e => !pathCmp (current.path ++ "/") e.1).takeWhile
          (fun e => decide (parentNodePath e.1 = current.path)), P e.1 := by
        rw [hu]
        exact hP.uncommitted _ hcur
      have hvisit := visitUncommittedLoop_passes hentries hc []
      split at hloop
      · cases hloop
      · cases hloop
        exact hc
      · split at hloop
        · rename_i c₁ processed hv
          unfold visitUncommitted at hv
          rw [hv] at hvisit
          obtain ⟨hu₁, hc₁⟩ := hvisit
          -- the children the container lists satisfy `P`
          have hmem : ∀ (status : CollectStatus) c₂, c₁.visitMemNode s current.path processed = .ok (status, c₂) →
              c₂.uncommittedChildren = u ∧ ∀ e ∈ c₂.result, P e.path := by
            intro status c₂ hm
            unfold ToDeleteTreeCollector.visitMemNode at hm
            split at hm
            · cases hm
              exact ⟨hu₁.trans hu, hc₁⟩
            · rename_i node hfind
              obtain ⟨hu₂, hc₂⟩ := visitMemNodeLoop_passes (hP.committed _ node hcur hfind) hc₁ hm
              exact ⟨hu₂.trans (hu₁.trans hu), hc₂⟩
          split at hloop
          · cases hloop
          · rename_i c₂ hm
            obtain ⟨hu₂, hc₂⟩ := hmem _ _ hm
            exact ih hu₂ hc₂ hloop
          · rename_i status' c₂ _ hm
            cases hloop
            exact (hmem _ _ hm).2
        · rename_i c₁ _ _ hv
          cases hloop
          unfold visitUncommitted at hv
          rw [hv] at hvisit
          exact hvisit.2

/-- Everything `collect` gathers satisfies a property of its root that passes down the tree. -/
lemma collect_passes {sessionId : ℤ} {checkAcl : Bool} {limit fuel : ℕ} {rootPath : String}
    {rootNode : KeeperMemNode} {status : CollectStatus}
    (hP : PassesDown s ((s.uncommittedState.nodes.filter fun e => matchPath e.1 rootPath = .isChild).insertionSort
      fun a b => pathCmp a.1 b.1 = true) P) (hroot : P rootPath)
    (hc : (init sessionId checkAcl limit).collect fuel s rootPath rootNode = some (.ok (status, c'))) :
    ∀ e ∈ c'.result, P e.path := by
  unfold collect at hc
  split at hc
  rename_i c₀ hlimits
  have hinit : c₀.result = [] := by
    rw [← (Prod.mk.inj hlimits).2]
    rfl
  split_ifs at hc
  · cases hc
    simp [hinit]
  · refine collectLoop_passes hP rfl (fun e he => ?_) hc
    simp only [ToDeleteTreeCollector.addResult, hinit, List.nil_append, List.mem_singleton] at he
    rw [he]
    exact hroot

end PassesDown

end ToDeleteTreeCollector

namespace KeeperStorage

variable {fuel : ℕ} {ctx : KeeperContext} {path : String} {limit : ℕ} {sessionId : ℤ} {checkAcl : Bool}
  {s : KeeperStorage}

lemma preprocessRemoveRecursive_fuel_succ {r : Except ErrorCode (Error × KeeperStorage)}
    (h : preprocessRemoveRecursive fuel ctx path limit sessionId checkAcl s = some r) :
    preprocessRemoveRecursive (fuel + 1) ctx path limit sessionId checkAcl s = some r := by
  unfold preprocessRemoveRecursive at h ⊢
  split_ifs at h ⊢
  · exact h
  · dsimp only at h ⊢
    split at h
    · exact h
    · split at h
      · exact h
      · exact h
      · split at h
        · exact h
        · obtain ⟨collected, hc, rfl⟩ := Option.map_eq_some_iff.mp h
          rw [ToDeleteTreeCollector.collect_fuel_succ hc]
          rfl

/-- Extra fuel changes no answer of the preprocessing. -/
lemma preprocessRemoveRecursive_fuel_add {r : Except ErrorCode (Error × KeeperStorage)}
    (h : preprocessRemoveRecursive fuel ctx path limit sessionId checkAcl s = some r) (k : ℕ) :
    preprocessRemoveRecursive (fuel + k) ctx path limit sessionId checkAcl s = some r := by
  induction k with
  | zero => exact h
  | succ k ih => exact preprocessRemoveRecursive_fuel_succ ih

end KeeperStorage

/-! ### The deltas of `RemoveRecursive` -/

namespace Operation

def isUpdateNodeStat : Operation → Bool
  | .updateNodeStat .. => true
  | _ => false

def isRemoveNode : Operation → Bool
  | .removeNode .. => true
  | _ => false

end Operation

namespace KeeperStorage

variable (s : KeeperStorage)

@[simp] lemma getNode_container (p : String) : (s.getNode p).2.container = s.container := by
  unfold getNode
  split
  · rfl
  · split <;> rfl

@[simp] lemma getNode_stagingDeltas (p : String) : (s.getNode p).2.stagingDeltas = s.stagingDeltas := by
  unfold getNode
  split
  · rfl
  · split <;> rfl

lemma container_of_getNode {p : String} {node : Option KeeperMemNode} {s₁ : KeeperStorage}
    (h : s.getNode p = (node, s₁)) : s₁.container = s.container := by
  rw [← getNode_container s p, h]

lemma stagingDeltas_of_getNode {p : String} {node : Option KeeperMemNode} {s₁ : KeeperStorage}
    (h : s.getNode p = (node, s₁)) : s₁.stagingDeltas = s.stagingDeltas := by
  rw [← getNode_stagingDeltas s p, h]

lemma prepareUpdateNodeStat_stagingDeltas (path : String) (newStats : NodeStats) (newNumChildren : ℤ) :
    ∃ added, (s.prepareUpdateNodeStat path newStats newNumChildren).stagingDeltas = s.stagingDeltas ++ added ∧
      ∀ d ∈ added, d.path = path ∧ d.operation.isUpdateNodeStat := by
  unfold prepareUpdateNodeStat
  split
  · exact ⟨_, rfl, by simp [Operation.isUpdateNodeStat]⟩
  · exact ⟨[], by simp, by simp⟩

lemma prepareRemoveNodeWithoutUpdatingParent_stagingDeltas (path : String) :
    ∃ added, (s.prepareRemoveNodeWithoutUpdatingParent path).stagingDeltas = s.stagingDeltas ++ added ∧
      ∀ d ∈ added, d.path = path ∧ d.operation.isRemoveNode := by
  unfold prepareRemoveNodeWithoutUpdatingParent
  split
  · exact ⟨_, rfl, by simp [Operation.isRemoveNode]⟩
  · exact ⟨[], by simp, by simp⟩

/-- The removals that the loop of `prepareRemoveRecursive` adds, one per node to remove at most;
the induction is on the nodes, from any storage. -/
lemma stagingDeltas_foldl_prepareRemove (nodesToRemove : List SubtreeNodeToRemove) :
    ∃ added, (nodesToRemove.foldl (fun s nodeInfo =>
        (s.getNode nodeInfo.path).2.prepareRemoveNodeWithoutUpdatingParent nodeInfo.path) s).stagingDeltas =
        s.stagingDeltas ++ added ∧
      ∀ d ∈ added, d.path ∈ nodesToRemove.map SubtreeNodeToRemove.path ∧ d.operation.isRemoveNode := by
  induction nodesToRemove generalizing s with
  | nil => exact ⟨[], by simp, by simp⟩
  | cons nodeInfo nodesToRemove ih =>
    obtain ⟨added₁, h₁, hd₁⟩ :=
      (s.getNode nodeInfo.path).2.prepareRemoveNodeWithoutUpdatingParent_stagingDeltas nodeInfo.path
    obtain ⟨added₂, h₂, hd₂⟩ := ih ((s.getNode nodeInfo.path).2.prepareRemoveNodeWithoutUpdatingParent nodeInfo.path)
    refine ⟨added₁ ++ added₂, ?_, fun d hd => ?_⟩
    · rw [List.foldl_cons, h₂, h₁, getNode_stagingDeltas, List.append_assoc]
    · rcases List.mem_append.mp hd with hd | hd
      · obtain ⟨hpath, hop⟩ := hd₁ d hd
        exact ⟨hpath ▸ List.mem_cons_self, hop⟩
      · obtain ⟨hpath, hop⟩ := hd₂ d hd
        exact ⟨List.mem_cons_of_mem _ hpath, hop⟩

lemma prepareRemoveRecursive_stagingDeltas (parentPath : String) (newParentStats : NodeStats)
    (newParentNumChildren : ℤ) (nodesToRemove : List SubtreeNodeToRemove) :
    ∃ added, (s.prepareRemoveRecursive parentPath newParentStats newParentNumChildren nodesToRemove).stagingDeltas =
        s.stagingDeltas ++ added ∧
      ∀ d ∈ added, (d.path = parentPath ∧ d.operation.isUpdateNodeStat) ∨
        (d.path ∈ nodesToRemove.map SubtreeNodeToRemove.path ∧ d.operation.isRemoveNode) := by
  obtain ⟨added₁, h₁, hd₁⟩ := s.prepareUpdateNodeStat_stagingDeltas parentPath newParentStats newParentNumChildren
  obtain ⟨added₂, h₂, hd₂⟩ :=
    (s.prepareUpdateNodeStat parentPath newParentStats newParentNumChildren).stagingDeltas_foldl_prepareRemove nodesToRemove
  refine ⟨added₁ ++ added₂, ?_, fun d hd => ?_⟩
  · rw [prepareRemoveRecursive, h₂, h₁, List.append_assoc]
  · rcases List.mem_append.mp hd with hd | hd
    · exact .inl (hd₁ d hd)
    · exact .inr (hd₂ d hd)

variable {fuel : ℕ} {ctx : KeeperContext} {path : String} {limit : ℕ} {sessionId : ℤ} {checkAcl : Bool}
  {s} {s' : KeeperStorage}

/-- An accepted request passed the check that its path is not a system path. -/
lemma matchPath_eq_notMatch_of_preprocessRemoveRecursive
    (h : preprocessRemoveRecursive fuel ctx path limit sessionId checkAcl s = some (.ok (.zok, s'))) :
    matchPath path keeperSystemPath = .notMatch := by
  unfold preprocessRemoveRecursive at h
  split_ifs at h with hmatch
  · cases hh : handleSystemNodeModification ctx <;> simp [hh, Except.map] at h
  · exact not_not.mp hmatch

/-- What an accepted `RemoveRecursive` of a non-empty path prepares: the stat update of the
parent, and removals of nodes in the subtree of the path. -/
theorem preprocessRemoveRecursive_deltas (hpath : path ≠ "") (hrel : ToDeleteTreeCollector.RelativeChildren s)
    (h : preprocessRemoveRecursive fuel ctx path limit sessionId checkAcl s = some (.ok (.zok, s'))) :
    ∃ added, s'.stagingDeltas = s.stagingDeltas ++ added ∧
      ∀ d ∈ added, (d.path = parentNodePath path ∧ d.operation.isUpdateNodeStat) ∨
        (InSubtree path d.path ∧ d.operation.isRemoveNode) := by
  unfold preprocessRemoveRecursive at h
  split_ifs at h with hmatch
  · cases hh : handleSystemNodeModification ctx <;> simp [hh, Except.map] at h
  dsimp only at h
  -- the parent is missing: nothing is prepared
  split at h
  · rename_i s₁ hget
    cases h
    exact ⟨[], by rw [List.append_nil, stagingDeltas_of_getNode s hget], by simp⟩
  rename_i parentNode s₁ hget₁
  split at h
  · cases h
  · cases h
  split at h
  -- the node is missing: nothing is prepared
  · rename_i s₂ hget₂
    cases h
    refine ⟨[], ?_, by simp⟩
    rw [List.append_nil, stagingDeltas_of_getNode s₁ hget₂, stagingDeltas_of_getNode s hget₁]
  rename_i node s₂ hget₂
  have hcontainer : s₂.container = s.container := by
    rw [container_of_getNode s₁ hget₂, container_of_getNode s hget₁]
  have hdeltas : s₂.stagingDeltas = s.stagingDeltas := by
    rw [stagingDeltas_of_getNode s₁ hget₂, stagingDeltas_of_getNode s hget₁]
  obtain ⟨collected, hc, hmap⟩ := Option.map_eq_some_iff.mp h
  rcases collected with _ | ⟨status, collector⟩
  · cases hmap
  have hres := Except.ok.inj hmap
  -- only a collection that ends well prepares deltas
  cases status
  · have hcollected := ToDeleteTreeCollector.collect_collected hpath
      (fun e he => hrel e (by rwa [hcontainer] at he)) hc
    dsimp only at hres
    obtain ⟨-, rfl⟩ := Prod.mk.inj hres
    obtain ⟨added, hadded, hd⟩ := KeeperStorage.prepareRemoveRecursive_stagingDeltas _ _ _ _ _
    refine ⟨added, by rw [hadded, ← hdeltas], fun d hd' => ?_⟩
    rcases hd d hd' with hupdate | ⟨hmem, hremove⟩
    · exact .inl hupdate
    · obtain ⟨nodeInfo, hnodeInfo, hpath'⟩ := List.mem_map.mp hmem
      refine .inr ⟨?_, hremove⟩
      rw [← hpath']
      exact hcollected.result nodeInfo (List.mem_reverse.mp hnodeInfo)
  · cases hres
  · cases hres

end KeeperStorage

/-! ### The root -/

/-- A running server's context as `KeeperContext`'s constructor sets it up: the system nodes of the
feature flags and of the API version. -/
def runningContext : KeeperContext :=
  ⟨.running, false, [keeperApiFeatureFlagsPath, keeperApiVersionPath], false⟩

open KeeperStorage in
/-- A running server's storage is created, and its nodes record relative names of children. -/
lemma create_running_ok : ∃ s, create runningContext true = .ok s ∧ ToDeleteTreeCollector.RelativeChildren s := by
  have h : (match create runningContext true with
      | .ok s => decide (ToDeleteTreeCollector.RelativeChildren s)
      | .error _ => false) = true := by
    decide
  split at h
  · exact ⟨_, by assumption, of_decide_eq_true h⟩
  · cases h

open KeeperStorage in
/-- The run on a fresh storage, evaluated: `RemoveRecursive` of `/` with five rounds of the
collector's loop, then the commit of its deltas. -/
lemma removeRecursive_root_run :
    (match create runningContext true with
      | .ok s =>
        match preprocessRemoveRecursive 5 runningContext "/" 2 1 true s with
        | some (.ok (.zok, s')) =>
          ("/" :: keeperSystemPath :: runningContext.systemNodes).all (fun p => (s'.getNode p).1 = none) &&
            match commit s' s'.stagingDeltas with
            | .ok (.zok, s'') => decide (s''.container.map = [])
            | _ => false
        | _ => false
      | .error _ => false) = true := by
  decide

open KeeperStorage in
/-- `RemoveRecursive` of `/` on a fresh storage, with a limit of 2 nodes and the ACL checked: the
request is accepted, the uncommitted view loses the root, `/keeper` and the system nodes, and the
commit of its deltas leaves the container empty. -/
theorem removeRecursive_root_empties_storage (extraFuel : ℕ) :
    ∃ s, create runningContext true = .ok s ∧
      ∃ s', preprocessRemoveRecursive (5 + extraFuel) runningContext "/" 2 1 true s = some (.ok (.zok, s')) ∧
        (∀ p ∈ "/" :: keeperSystemPath :: runningContext.systemNodes, (s'.getNode p).1 = none) ∧
        ∃ s'', commit s' s'.stagingDeltas = .ok (.zok, s'') ∧ s''.container.map = [] := by
  have h := removeRecursive_root_run
  split at h
  · rename_i s hs
    split at h
    · rename_i s' hpre
      obtain ⟨hview, hcommit⟩ := Bool.and_eq_true_iff.mp h
      split at hcommit
      · rename_i s'' hc
        exact ⟨s, hs, s', preprocessRemoveRecursive_fuel_add hpre extraFuel, by simpa using hview, s'', hc,
          of_decide_eq_true hcommit⟩
      · cases hcommit
    · cases h
  · cases h

/-! ### The system subtree -/

namespace KeeperStorage

variable {fuel : ℕ} {ctx : KeeperContext} {path : String} {limit : ℕ} {sessionId : ℤ} {checkAcl : Bool}
  {s s' : KeeperStorage}

end KeeperStorage

end ClickHouse.Coordination
