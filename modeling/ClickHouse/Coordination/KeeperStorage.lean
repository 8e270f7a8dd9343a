import ClickHouse.Common.ZooKeeper.ZooKeeperCommon
import ClickHouse.Coordination.SnapshotableHashTable
import Mathlib

/-! `Coordination/KeeperStorage.cpp`, the part that builds the tree and removes subtrees: the
committed container of nodes, the uncommitted view that preprocessing reads and changes, the
preprocessing of `RemoveRecursive` with its tree collector, and `commit`, which applies a request's
deltas to the container.

A node keeps the stats these functions read, its ACL id, the count of children it records and the
set of its children's names. Its data, digest, zxids and times are not modelled, nor are the ACL
usage counts, the TTL index, the watches and the zxid bookkeeping of the uncommitted view. -/

namespace ClickHouse.Coordination

open ClickHouse.Common ClickHouse.Common.ZooKeeper ClickHouse.Lib

/-- `Coordination::Error`, the codes the modelled requests answer with. -/
inductive Error
  | zok
  | zbadArguments
  | znoNode
  | znoAuth
  | znodeExists
  | znotEmpty
  | znoChildrenForEphemerals
  | zinvalidACL
  | zbadVersion
  deriving DecidableEq, Repr

structure ACL where
  permissions : ℕ
  scheme : String
  id : String
  deriving DecidableEq, Repr

/-! The permission bits of `Coordination::ACL` that the modelled requests check. -/

def ACL.create : ℕ := 4

def ACL.delete : ℕ := 8

def ACL.admin : ℕ := 16

def ACL.all : ℕ := 31

structure AuthID where
  scheme : String
  id : String
  deriving DecidableEq, Repr

/-- The fields of `Coordination::Stat` that `copyStats` keeps. -/
structure Stat where
  version : ℤ
  cversion : ℤ
  aversion : ℤ
  ephemeralOwner : ℤ
  numChildren : ℤ
  deriving DecidableEq, Repr

/-- The fields of `NodeStats` that the modelled functions read. `ephemeralOrSeqNumOrTtl` is the
union that `isEphemeral` and `isTTL` select among. -/
structure NodeStats where
  version : ℤ
  cversion : ℤ
  aversion : ℤ
  dataSize : ℕ
  isEphemeral : Bool
  isTTL : Bool
  ephemeralOrSeqNumOrTtl : ℤ
  deriving DecidableEq, Repr

namespace NodeStats

def empty : NodeStats :=
  ⟨0, 0, 0, 0, false, false, 0⟩

def ephemeralOwner (stats : NodeStats) : ℤ :=
  if stats.isEphemeral then stats.ephemeralOrSeqNumOrTtl else 0

def seqNum (stats : NodeStats) : ℤ :=
  if stats.isEphemeral ∨ stats.isTTL then 0 else stats.ephemeralOrSeqNumOrTtl

def increaseSeqNum (stats : NodeStats) : NodeStats :=
  { stats with ephemeralOrSeqNumOrTtl := stats.ephemeralOrSeqNumOrTtl + 1 }

def setTTL (stats : NodeStats) (ttl : ℤ) : NodeStats :=
  { stats with isTTL := true, ephemeralOrSeqNumOrTtl := ttl }

def copyStats (stats : NodeStats) (stat : Stat) : NodeStats :=
  let stats := { stats with version := stat.version, cversion := stat.cversion, aversion := stat.aversion }
  if stat.ephemeralOwner ≠ 0 then { stats with isEphemeral := true, ephemeralOrSeqNumOrTtl := stat.ephemeralOwner }
  else stats

end NodeStats

structure KeeperMemNode where
  stats : NodeStats
  aclId : ℕ
  numChildren : ℤ
  children : List String
  deriving DecidableEq, Repr

namespace KeeperMemNode

def empty : KeeperMemNode :=
  ⟨NodeStats.empty, 0, 0, []⟩

/-- `numChildren()`: an ephemeral node has none. -/
def getNumChildren (node : KeeperMemNode) : ℤ :=
  if node.stats.isEphemeral then 0 else node.numChildren

def addChild (node : KeeperMemNode) (childPath : String) : KeeperMemNode :=
  if childPath ∈ node.children then node else { node with children := node.children ++ [childPath] }

def removeChild (node : KeeperMemNode) (childPath : String) : KeeperMemNode :=
  { node with children := node.children.erase childPath }

def increaseNumChildren (node : KeeperMemNode) : KeeperMemNode :=
  { node with numChildren := node.numChildren + 1 }

/-- The copy the uncommitted view takes: everything but the children. -/
def shallowCopy (node : KeeperMemNode) : KeeperMemNode :=
  { node with children := [] }

def copyStats (node : KeeperMemNode) (stat : Stat) : KeeperMemNode :=
  { node with stats := node.stats.copyStats stat, numChildren := stat.numChildren }

end KeeperMemNode

/-- The container's value type. `sizeInBytes` counts the data only; the size of the node itself and
of its children set are not modelled. The copy for a snapshot takes the children with it. -/
instance : SnapshotValue KeeperMemNode where
  sizeInBytes node := node.stats.dataSize
  copyFromSnapshotNode node := (node, { node with children := [] })

/-- An entry of the uncommitted view; `none` is a node removed by a pending request. -/
structure UncommittedNode where
  node : Option KeeperMemNode
  deriving DecidableEq, Repr

/-- `UncommittedState`: the cached and changed nodes, the ephemerals by session, the auths added by
pending requests, and the sessions a pending request closes. -/
structure UncommittedState where
  nodes : List (String × UncommittedNode)
  ephemerals : List (ℤ × List String)
  sessionAndAuth : List (ℤ × List AuthID)
  closedSessions : List ℤ
  deriving DecidableEq, Repr

inductive Operation
  | createNode (stat : Stat) (aclId : ℕ) (ttl : Option ℤ)
  | removeNode (stat : NodeStats) (numChildren : ℤ) (aclId : ℕ)
  | updateNodeStat (oldStats newStats : NodeStats) (oldNumChildren newNumChildren : ℤ)
  | setACL (oldAclId newAclId : ℕ)
  | addAuth (sessionId : ℤ) (authId : AuthID)
  | error (error : Error)
  | subDeltaEnd
  | failedMulti
  | closeSession (sessionId : ℤ)
  deriving DecidableEq, Repr

structure Delta where
  path : String
  operation : Operation
  deriving DecidableEq, Repr

/-- `ZooKeeperCreateRequest`, without its data. `parentCversion` is -1 but for requests replayed from
a ZooKeeper log. -/
structure CreateRequest where
  path : String
  isEphemeral : Bool
  isSequential : Bool
  acls : List ACL
  includeStats : Bool
  includeTtl : Bool
  ttl : ℤ
  notExists : Bool
  parentCversion : ℤ
  deriving DecidableEq, Repr

/-- `ZooKeeperRemoveRequest`: `try_remove` answers `ZOK` where `Remove` would fail; a request
replayed from a ZooKeeper log is `restored_from_zookeeper_log`. -/
structure RemoveRequest where
  path : String
  version : ℤ
  tryRemove : Bool
  restoredFromZookeeperLog : Bool
  deriving DecidableEq, Repr

/-- `getOpNum() == OpNum::CreateIfNotExists`. -/
def CreateRequest.isCreateIfNotExists (request : CreateRequest) : Bool :=
  !request.includeTtl && !request.includeStats && request.notExists

/-- `MAX_KEEPER_TTL_MS`. -/
def maxKeeperTtlMs : ℤ := 0x00FFFFFFFFFFFFFF

/-- `std::setw(10) << std::setfill('0') << seq_num`: zeros on the left up to ten characters. -/
def formatSeqNum (seqNum : ℤ) : String :=
  let digits := toString seqNum
  String.ofList (List.replicate (10 - digits.length) '0') ++ digits

inductive Phase
  | init
  | running
  | shutdown
  deriving DecidableEq, Repr

/-- What the modelled functions read of `KeeperContext`: the server's phase, its setting to ignore
changes of system paths on startup, the paths of `getSystemNodesWithData` (their data is not
modelled), and `shouldBlockACL`. -/
structure KeeperContext where
  serverState : Phase
  ignoreSystemPathOnStartup : Bool
  systemNodes : List String
  blockACL : Bool

def keeperSystemPath : String := "/keeper"

def keeperApiVersionPath : String := keeperSystemPath ++ "/api_version"

def keeperApiFeatureFlagsPath : String := keeperSystemPath ++ "/feature_flags"

def keeperInternalTtlGarbageCollectorSessionId : ℤ := -2

/-- `handleSystemNodeModification`: a change of a system path is a logical error while the log is
replayed on startup, unless the setting says to ignore it; otherwise it is logged. -/
def handleSystemNodeModification (ctx : KeeperContext) : Except ErrorCode Unit :=
  if ctx.serverState = .init ∧ ctx.ignoreSystemPathOnStartup = false then .error .logicalError else .ok ()

/-- `unregisterEphemeralPath` on a map from sessions to their ephemeral paths. -/
def unregisterEphemeralPath (ephemerals : List (ℤ × List String)) (sessionId : ℤ) (path : String)
    (throwIfMissing : Bool) : Except ErrorCode (List (ℤ × List String)) :=
  match AssocList.lookup sessionId ephemerals with
  | none => if throwIfMissing then .error .logicalError else .ok ephemerals
  | some paths =>
    if throwIfMissing ∧ path ∉ paths then .error .logicalError
    else if paths.erase path = [] then .ok (AssocList.erase sessionId ephemerals)
    else .ok (AssocList.modify sessionId (fun paths => paths.erase path) ephemerals)

/-- `ephemerals[session_id].emplace(path)`. -/
def emplaceEphemeralPath (ephemerals : List (ℤ × List String)) (sessionId : ℤ) (path : String) :
    List (ℤ × List String) :=
  match AssocList.lookup sessionId ephemerals with
  | none => ephemerals ++ [(sessionId, [path])]
  | some _ => AssocList.modify sessionId (fun paths => if path ∈ paths then paths else paths ++ [path]) ephemerals

/-- What `commit` can end in besides an answer: an exception, or `onStorageInconsistency`, which
terminates Keeper. -/
inductive CommitFailure
  | exception (code : ErrorCode)
  | inconsistency (message : String)
  deriving DecidableEq, Repr

structure KeeperStorage where
  container : SnapshotableHashTable KeeperMemNode
  uncommittedState : UncommittedState
  committedEphemerals : List (ℤ × List String)
  committedEphemeralNodes : ℕ
  committedSessionAndAuth : List (ℤ × List AuthID)
  aclMap : List (ℕ × List ACL)
  maxAclId : ℕ
  stagingDeltas : List Delta
  initialized : Bool

namespace KeeperStorage

variable (s : KeeperStorage)

/-! ### The committed container -/

/-- The storage with the root node alone. -/
def root : KeeperStorage :=
  ⟨(SnapshotableHashTable.empty.insert "/" KeeperMemNode.empty).2, ⟨[], [], [], []⟩, [], 0, [], [], 1, [], false⟩

def withContainer (container : SnapshotableHashTable KeeperMemNode) : KeeperStorage :=
  { s with container := container }

/-- `container.updateValue`, which throws for a missing key. -/
def updateContainerValue (path : String) (updater : KeeperMemNode → KeeperMemNode) :
    Except ErrorCode KeeperStorage :=
  match s.container.updateValue path updater with
  | (.error e, _) => .error e
  | (.ok _, container) => .ok (s.withContainer container)

/-- The system nodes go in under `/keeper`; the root counts `/keeper` as a child, `/keeper` does
not count its own. -/
def initializeSystemNodes (ctx : KeeperContext) : Except ErrorCode KeeperStorage := do
  if s.initialized then throw .logicalError
  let s ← match s.container.find keeperSystemPath with
    | some _ => pure s
    | none =>
      (s.withContainer (s.container.insert keeperSystemPath KeeperMemNode.empty).2).updateContainerValue "/"
        (fun node => node.increaseNumChildren.addChild (getBaseNodeName keeperSystemPath))
  let s ← ctx.systemNodes.foldlM (fun s path =>
      (s.withContainer (s.container.insert path KeeperMemNode.empty).2).updateContainerValue
        (parentNodePath path) (fun parent => parent.addChild (getBaseNodeName path))) s
  pure { s with initialized := true }

/-- The constructor `KeeperStorage(tick_time_ms, superdigest, keeper_context, initialize_system_nodes)`. -/
def create (ctx : KeeperContext) (withSystemNodes : Bool) : Except ErrorCode KeeperStorage :=
  if withSystemNodes then root.initializeSystemNodes ctx else .ok root

/-- `KeeperStorage::createNode`: `false` when the parent is missing or ephemeral, or the node is
there already. -/
def createNode (path : String) (stat : Stat) (aclId : ℕ) (ttl : Option ℤ) :
    Except ErrorCode (Bool × KeeperStorage) :=
  let parentPath := parentNodePath path
  match s.container.find parentPath with
  | none => .ok (false, s)
  | some parent =>
    if parent.value.stats.isEphemeral ∨ (s.container.find path).isSome then .ok (false, s)
    else
      let createdNode := { KeeperMemNode.empty with aclId := aclId }.copyStats stat
      let createdNode := match ttl with
        | some ttl => { createdNode with stats := createdNode.stats.setTTL ttl }
        | none => createdNode
      match (s.withContainer (s.container.insert path createdNode).2).updateContainerValue parentPath
          (fun parent => parent.addChild (getBaseNodeName path)) with
      | .error e => .error e
      | .ok s =>
        if stat.ephemeralOwner ≠ 0 then
          .ok (true, { s with
            committedEphemeralNodes := s.committedEphemeralNodes + 1
            committedEphemerals := emplaceEphemeralPath s.committedEphemerals stat.ephemeralOwner path })
        else .ok (true, s)

/-- `KeeperStorage::removeNode`: `false` when the node is missing; the parent forgets the child, and
an ephemeral node leaves its session's list, which must hold it. -/
def removeNode (path : String) : Except ErrorCode (Bool × KeeperStorage) :=
  match s.container.find path with
  | none => .ok (false, s)
  | some node => do
    let s ← s.updateContainerValue (parentNodePath path) (fun parent => parent.removeChild (getBaseNodeName path))
    let s := s.withContainer (s.container.erase path).2
    if node.value.stats.ephemeralOwner ≠ 0 then
      let ephemerals ← unregisterEphemeralPath s.committedEphemerals node.value.stats.ephemeralOwner path true
      pure (true, { s with
        committedEphemeralNodes := s.committedEphemeralNodes - 1
        committedEphemerals := ephemerals })
    else pure (true, s)

/-- One delta of `commit`. -/
def commitDelta (delta : Delta) : Except CommitFailure (Error × KeeperStorage) :=
  match delta.operation with
  | .createNode stat aclId ttl =>
    match s.createNode delta.path stat aclId ttl with
    | .error e => .error (.exception e)
    | .ok (true, s) => .ok (.zok, s)
    | .ok (false, _) => .error (.inconsistency "Failed to create a node")
  | .updateNodeStat _ newStats _ newNumChildren =>
    match s.updateContainerValue delta.path (fun node => { node with stats := newStats, numChildren := newNumChildren }) with
    | .error _ => .error (.inconsistency "Node to be updated is missing")
    | .ok s => .ok (.zok, s)
  | .removeNode _ _ _ =>
    match s.removeNode delta.path with
    | .error e => .error (.exception e)
    | .ok (true, s) => .ok (.zok, s)
    | .ok (false, _) => .error (.inconsistency "Failed to remove node")
  | .setACL _ newAclId =>
    match s.updateContainerValue delta.path (fun node => { node with aclId := newAclId }) with
    | .error _ => .error (.inconsistency "Failed to set ACL because node is missing")
    | .ok s => .ok (.zok, s)
  | .addAuth sessionId authId =>
    let committed := match AssocList.lookup sessionId s.committedSessionAndAuth with
      | some _ => AssocList.modify sessionId (fun auths => auths ++ [authId]) s.committedSessionAndAuth
      | none => s.committedSessionAndAuth ++ [(sessionId, [authId])]
    .ok (.zok, { s with committedSessionAndAuth := committed })
  | .error error => .ok (error, s)
  | .subDeltaEnd => .ok (.zok, s)
  | .closeSession _ => .ok (.zok, s)
  | .failedMulti => .error (.inconsistency "Invalid delta operation")

/-- `KeeperStorage::commit`: the deltas in order, up to the first that answers with an error. -/
def commit : KeeperStorage → List Delta → Except CommitFailure (Error × KeeperStorage)
  | s, [] => .ok (.zok, s)
  | s, delta :: deltas =>
    match s.commitDelta delta with
    | .error failure => .error failure
    | .ok (.zok, s) => commit s deltas
    | .ok (error, s) => .ok (error, s)

/-! ### Access control -/

/-- `UncommittedState::hasACL`: an auth of the session satisfies the predicate; against the
uncommitted view, a session that a pending request closes has none. -/
def hasACL (sessionId : ℤ) (committed : Bool) (predicate : AuthID → Bool) : Bool :=
  let checkSession := fun (sessionAndAuth : List (ℤ × List AuthID)) =>
    ((AssocList.lookup sessionId sessionAndAuth).getD []).any predicate
  if !committed then
    if sessionId ∈ s.uncommittedState.closedSessions then false
    else checkSession s.uncommittedState.sessionAndAuth || checkSession s.committedSessionAndAuth
  else checkSession s.committedSessionAndAuth

/-- `ACLMap::convertNumber`, which throws for an unknown id. -/
def convertNumber (aclId : ℕ) : Except ErrorCode (List ACL) :=
  if aclId = 0 then .ok []
  else match AssocList.lookup aclId s.aclMap with
    | some acls => .ok acls
    | none => .error .logicalError

def checkACL (aclId permission : ℕ) (sessionId : ℤ) (committed : Bool) : Except ErrorCode Bool :=
  if aclId = 0 then .ok true
  else match s.convertNumber aclId with
    | .error e => .error e
    | .ok nodeAcls =>
      .ok (s.hasACL sessionId committed (fun auth => auth.scheme = "super") ||
        nodeAcls.any fun nodeAcl => nodeAcl.permissions &&& permission ≠ 0 &&
          ((nodeAcl.scheme = "world" && nodeAcl.id = "anyone") ||
            s.hasACL sessionId committed (fun auth => auth.scheme = nodeAcl.scheme && auth.id = nodeAcl.id)))

/-- `!check_acl || checkACL(acl_id, Delete, session_id, false)`: the ACL is looked at only when
the request asks for the check. -/
def deleteAllowed (checkAcl : Bool) (aclId : ℕ) (sessionId : ℤ) : Except ErrorCode Bool :=
  if checkAcl then s.checkACL aclId ACL.delete sessionId false else .ok true

/-- The auths `forEachAuthInSession` calls its function on: the session's uncommitted auths, then
its committed ones, each once, and none with an empty scheme. -/
def forEachAuthInSession (sessionId : ℤ) : List AuthID :=
  let auths := (AssocList.lookup sessionId s.uncommittedState.sessionAndAuth).getD [] ++
    (AssocList.lookup sessionId s.committedSessionAndAuth).getD []
  (auths.foldl (fun (processed, called) auth =>
    if auth ∈ processed then (processed, called)
    else (processed ++ [auth], if auth.scheme = "" then called else called ++ [auth])) ([], [])).2

/-- One round of `fixupACL`'s loop: whether a valid ACL was found, and the ACLs so far; `none` is
the early `return false` on a malformed digest. -/
def fixupACLStep (auths : List AuthID) : Bool × List ACL → ACL → Option (Bool × List ACL)
  | (validFound, resultAcls), requestAcl =>
    if requestAcl.scheme = "auth" then
      some (validFound || !auths.isEmpty,
        resultAcls ++ auths.map fun auth => { requestAcl with scheme := auth.scheme, id := auth.id })
    else if requestAcl.scheme = "world" ∧ requestAcl.id = "anyone" then
      some (true, if requestAcl.permissions ≠ ACL.all then resultAcls ++ [requestAcl] else resultAcls)
    else if requestAcl.scheme = "digest" then
      if requestAcl.id.toList.count ':' ≠ 1 then none else some (true, resultAcls ++ [requestAcl])
    else some (validFound, resultAcls)

/-- `fixupACL`: the ACLs a node gets from a request's, or `none` when the request's are invalid. -/
def fixupACL (requestAcls : List ACL) (sessionId : ℤ) (blockAcl : Bool) : Option (List ACL) :=
  if blockAcl ∨ requestAcls = [] then some []
  else
    match requestAcls.foldlM (fixupACLStep (s.forEachAuthInSession sessionId)) (false, []) with
    | some (true, resultAcls) => some resultAcls
    | _ => none

/-- The loop of `ACLMap::convertACLs` that takes ids from `index` on until one is neither 0 nor in
use, given `fuel` tries. With more tries than ids in use, the id it ends on is free. -/
def freeAclId (used : List ℕ) : ℕ → ℕ → ℕ
  | 0, index => index
  | fuel + 1, index => if index = 0 ∨ index ∈ used then freeAclId used fuel (index + 1) else index

/-- `ACLMap::convertACLs`: 0 for no ACLs, the id of an equal list already mapped, or else a new
id from `max_acl_id` on. The usage counts are not modelled. -/
def convertACLs (acls : List ACL) : ℕ × KeeperStorage :=
  if acls = [] then (0, s)
  else match s.aclMap.find? (fun entry => entry.2 = acls) with
    | some (aclId, _) => (aclId, s)
    | none =>
      let index := freeAclId (s.aclMap.map Prod.fst) (s.aclMap.length + 1) s.maxAclId
      (index, { s with aclMap := s.aclMap ++ [(index, acls)], maxAclId := index + 1 })

/-! ### The uncommitted view -/

def tryGetNodeFromStorage (path : String) : Option KeeperMemNode :=
  (s.container.find path).map fun node => node.value.shallowCopy

def withNodes (nodes : List (String × UncommittedNode)) : KeeperStorage :=
  { s with uncommittedState := { s.uncommittedState with nodes := nodes } }

/-- `UncommittedState::getNode`: the view's entry, or a copy of the container's node, cached. -/
def getNode (path : String) : Option KeeperMemNode × KeeperStorage :=
  match AssocList.lookup path s.uncommittedState.nodes with
  | some entry => (entry.node, s)
  | none =>
    match s.tryGetNodeFromStorage path with
    | some node => (some node, s.withNodes (s.uncommittedState.nodes ++ [(path, ⟨some node⟩)]))
    | none => (none, s)

def addStagingDelta (path : String) (operation : Operation) : KeeperStorage :=
  { s with stagingDeltas := s.stagingDeltas ++ [⟨path, operation⟩] }

/-- `prepareUpdateNodeStat` on the entry of a node the view holds. -/
def prepareUpdateNodeStat (path : String) (newStats : NodeStats) (newNumChildren : ℤ) : KeeperStorage :=
  match AssocList.lookup path s.uncommittedState.nodes with
  | some ⟨some node⟩ =>
    (s.addStagingDelta path (.updateNodeStat node.stats newStats node.numChildren newNumChildren)).withNodes
      (AssocList.modify path (fun _ => ⟨some { node with stats := newStats, numChildren := newNumChildren }⟩)
        s.uncommittedState.nodes)
  | _ => s

/-- `prepareRemoveNodeWithoutUpdatingParent` on the entry of a node the view holds. -/
def prepareRemoveNodeWithoutUpdatingParent (path : String) : KeeperStorage :=
  match AssocList.lookup path s.uncommittedState.nodes with
  | some ⟨some node⟩ =>
    (s.addStagingDelta path (.removeNode node.stats node.numChildren node.aclId)).withNodes
      (AssocList.modify path (fun _ => ⟨none⟩) s.uncommittedState.nodes)
  | _ => s

def prepareRemoveNode (parentPath : String) (newParentStats : NodeStats) (newParentNumChildren : ℤ)
    (path : String) : KeeperStorage :=
  (s.prepareUpdateNodeStat parentPath newParentStats newParentNumChildren).prepareRemoveNodeWithoutUpdatingParent path

/-- An element of `RemoveRecursive`'s list of nodes to remove. -/
structure SubtreeNodeToRemove where
  path : String
  aclId : ℕ
  ephemeralOwner : Option ℤ
  deriving DecidableEq, Repr

def prepareRemoveRecursive (parentPath : String) (newParentStats : NodeStats) (newParentNumChildren : ℤ)
    (nodesToRemove : List SubtreeNodeToRemove) : KeeperStorage :=
  nodesToRemove.foldl (fun s nodeInfo => (s.getNode nodeInfo.path).2.prepareRemoveNodeWithoutUpdatingParent nodeInfo.path)
    (s.prepareUpdateNodeStat parentPath newParentStats newParentNumChildren)

/-- `prepareCreateNode`: the parent's new stats, then the new node in the view, in the entry the
view has for its path or in a new one. -/
def prepareCreateNode (parentPath : String) (newParentStats : NodeStats) (newParentNumChildren : ℤ)
    (path : String) (stat : Stat) (aclId : ℕ) (ttl : Option ℤ) : KeeperStorage :=
  let s := (s.prepareUpdateNodeStat parentPath newParentStats newParentNumChildren).addStagingDelta path
    (.createNode stat aclId ttl)
  let node := { KeeperMemNode.empty with aclId := aclId }.copyStats stat
  let node := match ttl with
    | some ttl => { node with stats := node.stats.setTTL ttl }
    | none => node
  match AssocList.lookup path s.uncommittedState.nodes with
  | some _ => s.withNodes (AssocList.modify path (fun _ => ⟨some node⟩) s.uncommittedState.nodes)
  | none => s.withNodes (s.uncommittedState.nodes ++ [(path, ⟨some node⟩)])

/-- `prepareUpdateNodeACL` on the entry of a node the view holds: its new stats, then its new ACL. -/
def prepareUpdateNodeACL (path : String) (newStats : NodeStats) (newAclId : ℕ) : KeeperStorage :=
  match AssocList.lookup path s.uncommittedState.nodes with
  | some ⟨some node⟩ =>
    let s := (s.prepareUpdateNodeStat path newStats node.numChildren).addStagingDelta path (.setACL node.aclId newAclId)
    s.withNodes (AssocList.modify path (fun entry => ⟨entry.node.map fun node => { node with aclId := newAclId }⟩)
      s.uncommittedState.nodes)
  | _ => s

end KeeperStorage

/-! ### `ToDeleteTreeCollector` -/

inductive CollectStatus
  | ok
  | noAuth
  | limitExceeded
  deriving DecidableEq, Repr

/-- `PathCmp`: by the number of separators, then as strings. -/
def pathCmp (a b : String) : Bool :=
  a.toList.count '/' < b.toList.count '/' || (a.toList.count '/' = b.toList.count '/' && decide (a < b))

/-- The collector's state. `uncommittedChildren` is the `std::map` of the view's entries below the
root, in `PathCmp` order; `nodesObserved` is a 32-bit counter. -/
structure ToDeleteTreeCollector where
  sessionId : ℤ
  checkAcl : Bool
  limit : ℕ
  nodesObserved : ℕ
  result : List KeeperStorage.SubtreeNodeToRemove
  uncommittedChildren : List (String × UncommittedNode)

namespace ToDeleteTreeCollector

open KeeperStorage

def init (sessionId : ℤ) (checkAcl : Bool) (limit : ℕ) : ToDeleteTreeCollector :=
  ⟨sessionId, checkAcl, limit, 1, [], []⟩

variable (c : ToDeleteTreeCollector)

/-- `checkLimits`: the node's children count as observed; `true` when there are too many. -/
def checkLimits (node : KeeperMemNode) : Bool × ToDeleteTreeCollector :=
  let observed := ((c.nodesObserved + node.getNumChildren) % 2 ^ 32).toNat
  (decide (c.limit < observed), { c with nodesObserved := observed })

def addResult (path : String) (stats : NodeStats) (aclId : ℕ) : ToDeleteTreeCollector :=
  { c with result := c.result ++ [⟨path, aclId, if stats.isEphemeral then some stats.ephemeralOwner else none⟩] }

/-- The loop of `visitUncommitted` over the entries from `upper_bound(path + "/")` whose parent is
`path`. Each is marked processed; a removed one adds nothing. -/
def visitUncommittedLoop : List (String × UncommittedNode) → ToDeleteTreeCollector → List String →
    CollectStatus × ToDeleteTreeCollector × List String
  | [], c, processed => (.ok, c, processed)
  | (nodePath, entry) :: entries, c, processed =>
    match entry.node with
    | none => visitUncommittedLoop entries c (processed ++ [nodePath])
    | some node =>
      let (exceeded, c) := c.checkLimits node
      if exceeded then (.limitExceeded, c, processed ++ [nodePath])
      else visitUncommittedLoop entries (c.addResult nodePath node.stats node.aclId) (processed ++ [nodePath])

def visitUncommitted (path : String) : CollectStatus × ToDeleteTreeCollector × List String :=
  visitUncommittedLoop (((c.uncommittedChildren.dropWhile fun e => !pathCmp (path ++ "/") e.1).takeWhile
    fun e => decide (parentNodePath e.1 = path))) c []

/-- The loop of `visitMemNode` over the children's names of a committed node. A child that the
container lacks fails the debug check of the source. -/
def visitMemNodeLoop (s : KeeperStorage) (currentPath : String) (processed : List String) :
    List String → ToDeleteTreeCollector → Except ErrorCode (CollectStatus × ToDeleteTreeCollector)
  | [], c => .ok (.ok, c)
  | childName :: childNames, c =>
    let childPath := appendPath currentPath childName
    if childPath ∈ processed then visitMemNodeLoop s currentPath processed childNames c
    else match s.container.find childPath with
      | none => .error .logicalError
      | some child =>
        let (exceeded, c) := c.checkLimits child.value
        if exceeded then .ok (.limitExceeded, c)
        else visitMemNodeLoop s currentPath processed childNames (c.addResult childPath child.value.stats child.value.aclId)

def visitMemNode (s : KeeperStorage) (currentPath : String) (processed : List String) :
    Except ErrorCode (CollectStatus × ToDeleteTreeCollector) :=
  match s.container.find currentPath with
  | none => .ok (.ok, c)
  | some node => visitMemNodeLoop s currentPath processed node.value.children c

/-- The loop of `collect` over `result`, which grows as it goes, from position `i`; it is given
`fuel` rounds, and `none` is a loop that has not ended in them. -/
def collectLoop (s : KeeperStorage) : ℕ → ℕ → ToDeleteTreeCollector →
    Option (Except ErrorCode (CollectStatus × ToDeleteTreeCollector))
  | 0, _, _ => none
  | fuel + 1, i, c =>
    match c.result[i]? with
    | none => some (.ok (.ok, c))
    | some current =>
      match s.deleteAllowed c.checkAcl current.aclId c.sessionId with
      | .error e => some (.error e)
      | .ok false => some (.ok (.noAuth, c))
      | .ok true =>
        match c.visitUncommitted current.path with
        | (.ok, c, processed) =>
          match c.visitMemNode s current.path processed with
          | .error e => some (.error e)
          | .ok (.ok, c) => collectLoop s fuel (i + 1) c
          | .ok (status, c) => some (.ok (status, c))
        | (status, c, _) => some (.ok (status, c))

def collect (fuel : ℕ) (s : KeeperStorage) (rootPath : String) (rootNode : KeeperMemNode) :
    Option (Except ErrorCode (CollectStatus × ToDeleteTreeCollector)) :=
  let (exceeded, c) := c.checkLimits rootNode
  if exceeded then some (.ok (.limitExceeded, c))
  else
    let uncommittedChildren := (s.uncommittedState.nodes.filter fun e => matchPath e.1 rootPath = .isChild).insertionSort
      fun a b => pathCmp a.1 b.1 = true
    collectLoop s fuel 0 ({ c with uncommittedChildren := uncommittedChildren }.addResult rootPath rootNode.stats rootNode.aclId)

/-- `extractResult`: children before their parents. -/
def extractResult : List SubtreeNodeToRemove :=
  c.result.reverse

end ToDeleteTreeCollector

namespace KeeperStorage

/-- `preprocess` of a `RemoveRecursive` request for `path`, with the collector's loop given `fuel`
rounds. Besides its answer, the request leaves its deltas in `stagingDeltas` and its changes in
the uncommitted view. -/
def preprocessRemoveRecursive (fuel : ℕ) (ctx : KeeperContext) (path : String) (removeNodesLimit : ℕ)
    (sessionId : ℤ) (checkAcl : Bool) (s : KeeperStorage) : Option (Except ErrorCode (Error × KeeperStorage)) :=
  if matchPath path keeperSystemPath ≠ .notMatch then
    some ((handleSystemNodeModification ctx).map fun _ => (.zbadArguments, s))
  else
    let parentPath := parentNodePath path
    match s.getNode parentPath with
    | (none, s) => some (.ok (.zok, s))
    | (some parentNode, s) =>
      match s.deleteAllowed checkAcl parentNode.aclId sessionId with
      | .error e => some (.error e)
      | .ok false => some (.ok (.znoAuth, s))
      | .ok true =>
        let newParentStats := { parentNode.stats with cversion := parentNode.stats.cversion + 1 }
        let newParentNumChildren := parentNode.numChildren - 1
        match s.getNode path with
        | (none, s) => some (.ok (.zok, s))
        | (some node, s) =>
          (((ToDeleteTreeCollector.init sessionId checkAcl removeNodesLimit).collect fuel s path node).map
            fun collected => collected.map fun (status, collector) =>
              match status with
              | .noAuth => (.znoAuth, s)
              | .limitExceeded => (.znotEmpty, s)
              | .ok =>
                -- the ephemerals leave the view's index before the deltas are prepared
                let ephemerals := collector.extractResult.foldl (fun ephemerals nodeInfo =>
                  match nodeInfo.ephemeralOwner with
                  | some owner => (unregisterEphemeralPath ephemerals owner nodeInfo.path false).toOption.getD ephemerals
                  | none => ephemerals) s.uncommittedState.ephemerals
                let s := { s with uncommittedState := { s.uncommittedState with ephemerals := ephemerals } }
                (.zok, s.prepareRemoveRecursive parentPath newParentStats newParentNumChildren collector.extractResult))

/-- `preprocess` of a `Create` request. -/
def preprocessCreate (ctx : KeeperContext) (request : CreateRequest) (sessionId : ℤ) (checkAcl : Bool)
    (s : KeeperStorage) : Except ErrorCode (Error × KeeperStorage) :=
  let parentPath := parentNodePath request.path
  match s.getNode parentPath with
  | (none, s) => .ok (.znoNode, s)
  | (some parentNode, s) =>
    match (if checkAcl then s.checkACL parentNode.aclId ACL.create sessionId false else .ok true) with
    | .error e => .error e
    | .ok false => .ok (.znoAuth, s)
    | .ok true =>
      if parentNode.stats.isEphemeral then .ok (.znoChildrenForEphemerals, s)
      else if parentNode.stats.isTTL then .ok (.zbadArguments, s)
      else if request.isSequential ∧ request.notExists then .ok (.zbadArguments, s)
      else
        let pathCreated :=
          if request.isSequential then request.path ++ formatSeqNum parentNode.stats.seqNum else request.path
        if matchPath pathCreated keeperSystemPath ≠ .notMatch then
          (handleSystemNodeModification ctx).map fun _ => (.zbadArguments, s)
        else match s.getNode pathCreated with
        | (some _, s) => .ok (if request.isCreateIfNotExists then .zok else .znodeExists, s)
        | (none, s) =>
          if getBaseNodeName pathCreated = "" then .ok (.zbadArguments, s)
          else match s.fixupACL request.acls sessionId ctx.blockACL with
          | none => .ok (.zinvalidACL, s)
          | some nodeAcls =>
            -- the TTL is validated before the view changes
            if request.includeTtl ∧ (request.isEphemeral ∨ request.ttl ≤ 0 ∨ maxKeeperTtlMs < request.ttl) then
              .ok (.zbadArguments, s)
            else
              let s := if request.isEphemeral then
                { s with uncommittedState := { s.uncommittedState with
                    ephemerals := emplaceEphemeralPath s.uncommittedState.ephemerals sessionId pathCreated } }
                else s
              let newParentStats := parentNode.stats.increaseSeqNum
              let newParentStats :=
                if request.parentCversion = -1 then { newParentStats with cversion := newParentStats.cversion + 1 }
                else if newParentStats.cversion < request.parentCversion then
                  { newParentStats with cversion := request.parentCversion }
                else newParentStats
              let stat : Stat := ⟨0, 0, 0, if request.isEphemeral then sessionId else 0, 0⟩
              match s.convertACLs nodeAcls with
              | (aclId, s) =>
                .ok (.zok, s.prepareCreateNode parentPath newParentStats (parentNode.numChildren + 1) pathCreated stat
                  aclId (if request.includeTtl then some request.ttl else none))

/-- `preprocess` of a `SetACL` request for `path` with the expected ACL version `version`. -/
def preprocessSetACL (ctx : KeeperContext) (path : String) (acls : List ACL) (version : ℤ) (sessionId : ℤ)
    (checkAcl : Bool) (s : KeeperStorage) : Except ErrorCode (Error × KeeperStorage) :=
  if matchPath path keeperSystemPath ≠ .notMatch then
    (handleSystemNodeModification ctx).map fun _ => (.zbadArguments, s)
  else match s.getNode path with
  | (none, s) => .ok (.znoNode, s)
  | (some node, s) =>
    match (if checkAcl then s.checkACL node.aclId ACL.admin sessionId false else .ok true) with
    | .error e => .error e
    | .ok false => .ok (.znoAuth, s)
    | .ok true =>
      if version ≠ -1 ∧ version ≠ node.stats.aversion then .ok (.zbadVersion, s)
      else match s.fixupACL acls sessionId ctx.blockACL with
      | none => .ok (.zinvalidACL, s)
      | some nodeAcls =>
        match s.convertACLs nodeAcls with
        | (aclId, s) => .ok (.zok, s.prepareUpdateNodeACL path { node.stats with aversion := node.stats.aversion + 1 } aclId)

/-- `preprocess` of a `Remove` request at `time`. The setting `check_node_acl_on_remove` is
`checkNodeAclOnRemove`; the node's `mtime`, which the TTL collector's check adds to its TTL, is not
among the modelled stats and is given by `mtime`. The parent's `pzxid` that a replayed request
raises is not modelled either. -/
def preprocessRemove (ctx : KeeperContext) (checkNodeAclOnRemove : Bool) (mtime : String → ℤ)
    (request : RemoveRequest) (sessionId : ℤ) (checkAcl : Bool) (time : ℤ) (s : KeeperStorage) :
    Except ErrorCode (Error × KeeperStorage) :=
  if matchPath request.path keeperSystemPath ≠ .notMatch then
    (handleSystemNodeModification ctx).map fun _ => (.zbadArguments, s)
  else
    -- the TTL collector may expire a node whatever its ACLs
    let isTtlGcRemove := request.tryRemove ∧ sessionId = keeperInternalTtlGarbageCollectorSessionId
    let parentPath := parentNodePath request.path
    match s.getNode parentPath with
    | (none, s) => .ok (if request.tryRemove then .zok else .znoNode, s)
    | (some parentNode, s) =>
      match (if checkAcl ∧ ¬isTtlGcRemove then s.checkACL parentNode.aclId ACL.delete sessionId false else .ok true) with
      | .error e => .error e
      | .ok false => .ok (.znoAuth, s)
      | .ok true =>
        match s.getNode request.path with
        | (none, s) =>
          if request.tryRemove then .ok (.zok, s)
          else if request.restoredFromZookeeperLog then
            .ok (.zok, s.prepareUpdateNodeStat parentPath parentNode.stats parentNode.numChildren)
          else .ok (.znoNode, s)
        | (some node, s) =>
          match (if checkAcl ∧ ¬isTtlGcRemove ∧ checkNodeAclOnRemove then
              s.checkACL node.aclId ACL.delete sessionId false else .ok true) with
          | .error e => .error e
          | .ok false => .ok (.znoAuth, s)
          | .ok true =>
            if request.version ≠ -1 ∧ request.version ≠ node.stats.version then
              .ok (if request.tryRemove then .zok else .zbadVersion, s)
            else if isTtlGcRemove ∧
                (node.stats.isTTL = false ∨ time < mtime request.path + node.stats.ephemeralOrSeqNumOrTtl) then
              .ok (.zok, s)
            else if node.getNumChildren ≠ 0 then .ok (if request.tryRemove then .zok else .znotEmpty, s)
            else
              let s := if node.stats.isEphemeral then
                match unregisterEphemeralPath s.uncommittedState.ephemerals node.stats.ephemeralOwner request.path false with
                | .ok ephemerals => { s with uncommittedState := { s.uncommittedState with ephemerals := ephemerals } }
                | .error _ => s
                else s
              .ok (.zok, s.prepareRemoveNode parentPath { parentNode.stats with cversion := parentNode.stats.cversion + 1 }
                (parentNode.numChildren - 1) request.path)

end KeeperStorage

end ClickHouse.Coordination
