import ClickHouse.Common.ErrorCodes
import ClickHouse.Lib.AssocList
import Mathlib

/-! `Coordination/SnapshotableHashTable.h`: Keeper's node container, a hash map from keys to the
nodes of a list. In snapshot mode a node older than the snapshot is never changed in place: a new
node replaces it at the end of the list, so that the first nodes of the list stay what they were
when the snapshot began.

The `std::list` is the list of its nodes, each with the address it was allocated at; the hash map
is the list of its entries from a key to a node's address. Keys are owned strings; the arena that
holds them only decides when memory is freed, and is not modelled. -/

namespace ClickHouse.Coordination

open ClickHouse.Common ClickHouse.Lib

/-- What the table uses of its value type: the size it counts, and `copyFromSnapshotNode`, which
returns a copy and may move parts of the value out of the original; the second component is what
the original keeps. -/
class SnapshotValue (V : Type) where
  sizeInBytes : V → ℕ
  copyFromSnapshotNode : V → V × V

structure ListNode (V : Type) where
  key : String
  value : V
  activeInMap : Bool
  freeKey : Bool
  version : ℕ

namespace ListNode

variable {V : Type}

/-- A node as `ListElem elem{key, value}` builds it. -/
def ofKeyValue (key : String) (value : V) : ListNode V :=
  ⟨key, value, false, false, 0⟩

/-- `version` is a 62-bit field. -/
def setVersion (node : ListNode V) (version : ℕ) : ListNode V :=
  { node with version := version % 2 ^ 62 }

def setActiveInMap (node : ListNode V) : ListNode V :=
  { node with activeInMap := true }

def setInactiveInMap (node : ListNode V) : ListNode V :=
  { node with activeInMap := false }

def setFreeKey (node : ListNode V) : ListNode V :=
  { node with freeKey := true }

/-- The copy, with the node's key and metadata, and the node after the copy. -/
def copyFromSnapshotNode [SnapshotValue V] (node : ListNode V) : ListNode V × ListNode V :=
  ({ node with value := (SnapshotValue.copyFromSnapshotNode node.value).1 },
    { node with value := (SnapshotValue.copyFromSnapshotNode node.value).2 })

end ListNode

inductive OperationType
  | insertOrReplace
  | erase
  | update
  | clear
  deriving DecidableEq, Repr

/-- `updateDataSize` on the 64-bit counter. -/
def updateDataSize (approximateDataSize : UInt64) (opType : OperationType) (keySize valueSize oldValueSize : ℕ)
    (removeOld : Bool) : UInt64 :=
  match opType with
  | .insertOrReplace =>
    let size := approximateDataSize + UInt64.ofNat keySize + UInt64.ofNat valueSize
    if removeOld && oldValueSize != 0 then size - UInt64.ofNat keySize - UInt64.ofNat oldValueSize else size
  | .update =>
    let size := approximateDataSize + UInt64.ofNat keySize + UInt64.ofNat valueSize
    if removeOld then size - UInt64.ofNat keySize - UInt64.ofNat oldValueSize else size
  | .erase =>
    if removeOld then approximateDataSize - UInt64.ofNat keySize - UInt64.ofNat oldValueSize
    else approximateDataSize
  | .clear => 0

/-- The table. `allocated` counts the list nodes allocated so far, so that a new node gets an
address no other node has had; `currentVersion` and `snapshotUpToVersion` are `size_t`. -/
structure SnapshotableHashTable (V : Type) where
  list : List (ℕ × ListNode V)
  map : List (String × ℕ)
  snapshotMode : Bool
  currentVersion : ℕ
  snapshotUpToVersion : ℕ
  snapshotInvalidIters : List ℕ
  approximateDataSize : UInt64
  allocated : ℕ

namespace SnapshotableHashTable

variable {V : Type} [SnapshotValue V]

def empty : SnapshotableHashTable V :=
  ⟨[], [], false, 0, 0, [], 0, 0⟩

/-! ### The list and the map -/

section Containers

variable (t : SnapshotableHashTable V)

/-- The node the map holds for `key`, with its address. -/
def findNode (key : String) : Option (ℕ × ListNode V) := do
  let itr ← AssocList.lookup key t.map
  let node ← AssocList.lookup itr t.list
  pure (itr, node)

/-- `list.insert(list.end(), node)`. -/
def pushBack (node : ListNode V) : ℕ × SnapshotableHashTable V :=
  (t.allocated, { t with list := t.list ++ [(t.allocated, node)], allocated := t.allocated + 1 })

def modifyNode (itr : ℕ) (f : ListNode V → ListNode V) : SnapshotableHashTable V :=
  { t with list := AssocList.modify itr f t.list }

/-- `it->getMapped() = itr`. -/
def setMapped (key : String) (itr : ℕ) : SnapshotableHashTable V :=
  { t with map := AssocList.modify key (fun _ => itr) t.map }

/-- A node that leaves the map in snapshot mode waits in `snapshot_invalid_iters`. -/
def pushInvalid (itr : ℕ) : SnapshotableHashTable V :=
  { t with snapshotInvalidIters := t.snapshotInvalidIters ++ [itr] }

def addDataSize (opType : OperationType) (keySize valueSize oldValueSize : ℕ) (removeOld : Bool) :
    SnapshotableHashTable V :=
  { t with approximateDataSize := updateDataSize t.approximateDataSize opType keySize valueSize oldValueSize removeOld }

/-- A node for a key the map does not hold: appended, entered in the map and set active. -/
def insertNew (key : String) (value : V) : ℕ × SnapshotableHashTable V :=
  let (itr, t) := t.pushBack ((ListNode.ofKeyValue key value).setVersion t.currentVersion)
  (itr, ({ t with map := t.map ++ [(key, itr)] }).modifyNode itr ListNode.setActiveInMap)

end Containers

/-! ### The operations -/

variable (t : SnapshotableHashTable V)

def insert (key : String) (value : V) : (ℕ × Bool) × SnapshotableHashTable V :=
  match t.findNode key with
  | some (itr, _) => ((itr, false), t)
  | none =>
    let (itr, t') := t.insertNew key value
    ((itr, true), t'.addDataSize .insertOrReplace key.utf8ByteSize (SnapshotValue.sizeInBytes value) 0 true)

def insertOrReplace (key : String) (value : V) : SnapshotableHashTable V :=
  match t.findNode key with
  | none =>
    (t.insertNew key value).2.addDataSize .insertOrReplace key.utf8ByteSize (SnapshotValue.sizeInBytes value) 0 true
  | some (listItr, node) =>
    if t.snapshotMode ∧ node.version ≤ t.snapshotUpToVersion then
      -- the replacing node is not set active in the map
      let (newListItr, t') := t.pushBack ((ListNode.ofKeyValue node.key value).setVersion t.currentVersion)
      (((t'.modifyNode listItr ListNode.setInactiveInMap).setMapped key newListItr).pushInvalid listItr).addDataSize
        .insertOrReplace key.utf8ByteSize (SnapshotValue.sizeInBytes value)
        (SnapshotValue.sizeInBytes node.value) false
    else
      (t.modifyNode listItr (fun n => { n with value := value })).addDataSize .insertOrReplace
        key.utf8ByteSize (SnapshotValue.sizeInBytes value) (SnapshotValue.sizeInBytes node.value) true

def erase (key : String) : Bool × SnapshotableHashTable V :=
  match t.findNode key with
  | none => (false, t)
  | some (listItr, node) =>
    if t.snapshotMode then
      (true, ({ (t.modifyNode listItr (fun n => n.setInactiveInMap.setFreeKey)).pushInvalid listItr with
        map := AssocList.erase key t.map }).addDataSize .erase key.utf8ByteSize 0
          (SnapshotValue.sizeInBytes node.value) false)
    else
      (true, ({ t with map := AssocList.erase key t.map, list := AssocList.erase listItr t.list }).addDataSize
        .erase key.utf8ByteSize 0 (SnapshotValue.sizeInBytes node.value) true)

def updateValue (key : String) (updater : V → V) : Except ErrorCode ℕ × SnapshotableHashTable V :=
  match t.findNode key with
  | none => (.error .logicalError, t)
  | some (listItr, node) =>
    if t.snapshotMode ∧ node.version ≤ t.snapshotUpToVersion then
      -- the copy takes the node's value; the node keeps what the copy left and leaves the map
      let (elemCopy, nodeLeft) := node.copyFromSnapshotNode
      let t' := (t.modifyNode listItr (fun _ => nodeLeft.setInactiveInMap)).addDataSize .update
        key.utf8ByteSize (SnapshotValue.sizeInBytes nodeLeft.value) (SnapshotValue.sizeInBytes node.value) true
      let newNode := ({ elemCopy with value := updater elemCopy.value }).setVersion t.currentVersion
      let (itr, t') := (t'.pushInvalid listItr).pushBack newNode
      (.ok itr, (t'.setMapped key itr).addDataSize .update key.utf8ByteSize
        (SnapshotValue.sizeInBytes newNode.value) (SnapshotValue.sizeInBytes node.value) false)
    else
      (.ok listItr, (t.modifyNode listItr (fun n => { n with value := updater n.value })).addDataSize .update
        key.utf8ByteSize (SnapshotValue.sizeInBytes (updater node.value)) (SnapshotValue.sizeInBytes node.value) true)

def contains (key : String) : Bool :=
  (AssocList.lookup key t.map).isSome

def find (key : String) : Option (ListNode V) :=
  (t.findNode key).map Prod.snd

omit [SnapshotValue V] in
lemma find_eq (key : String) : t.find key = (t.findNode key).map Prod.snd := rfl

def getValue (key : String) : Except ErrorCode V :=
  match t.findNode key with
  | some (_, node) => .ok node.value
  | none => .error .logicalError

def size : ℕ :=
  t.map.length

/-- The loop of `clearOutdatedNodes` over the waiting nodes: a node still active in the map is a
logical error, thrown with the nodes before it already erased. -/
def clearOutdatedNodesLoop : List ℕ → SnapshotableHashTable V → Except ErrorCode Unit × SnapshotableHashTable V
  | [], t => (.ok (), { t with snapshotInvalidIters := [] })
  | itr :: iters, t =>
    match AssocList.lookup itr t.list with
    | none => clearOutdatedNodesLoop iters t
    | some node =>
      if node.activeInMap then (.error .logicalError, t)
      else clearOutdatedNodesLoop iters
        (({ t with list := AssocList.erase itr t.list } : SnapshotableHashTable V).addDataSize .erase
          node.key.utf8ByteSize 0
          (SnapshotValue.sizeInBytes node.value) true)

def clearOutdatedNodes : Except ErrorCode Unit × SnapshotableHashTable V :=
  clearOutdatedNodesLoop t.snapshotInvalidIters t

def clear : Except ErrorCode Unit × SnapshotableHashTable V :=
  match t.clearOutdatedNodes with
  | (.error e, t') => (.error e, t')
  | (.ok (), t') => (.ok (), { t' with map := [], list := [], approximateDataSize := 0 })

def enableSnapshotMode (version : ℕ) : SnapshotableHashTable V :=
  { t with snapshotMode := true, snapshotUpToVersion := version, currentVersion := (t.currentVersion + 1) % 2 ^ 64 }

def disableSnapshotMode : SnapshotableHashTable V :=
  { t with snapshotMode := false }

def snapshotSizeWithVersion : ℕ × ℕ :=
  (t.list.length, t.currentVersion)

def recalculateDataSize : SnapshotableHashTable V :=
  { t with approximateDataSize := (t.list.foldl
      (fun size e => size + UInt64.ofNat e.2.key.utf8ByteSize + UInt64.ofNat (SnapshotValue.sizeInBytes e.2.value)) 0) }

end SnapshotableHashTable

end ClickHouse.Coordination
