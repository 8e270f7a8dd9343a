import ClickHouse.Lib.Bytes
import ClickHouse.Lib.Except
import ClickHouse.IO.VarInt

/-! `AggregateFunctions/UniquesHashSet.h`: the state of `uniq`, an open-addressing set of 32-bit
hashes with linear probing that keeps only the hashes divisible by `2 ^ skip_degree` and raises
`skip_degree` whenever more than `UNIQUES_HASH_MAX_SIZE` are kept. A zero cell is empty; the hash
zero is kept in `has_zero`. The functions take the hashes: the hash function of the values and the
estimate `size()`, computed in `double`, are not modelled. -/

namespace ClickHouse.AggregateFunctions

open ClickHouse.Lib ClickHouse.IO ClickHouse.Common

def uniquesHashMaxSizeDegree : ℕ := 17

def uniquesHashMaxSize : ℕ := 2 ^ (uniquesHashMaxSizeDegree - 1)

def uniquesHashBitsForSkip : ℕ := 32 - uniquesHashMaxSizeDegree

def uniquesHashSetInitialSizeDegree : ℕ := 4

/-- The fields of the set; the buffer is its `2 ^ size_degree` cells. -/
structure UniquesHashSet where
  mSize : ℕ
  sizeDegree : ℕ
  skipDegree : ℕ
  hasZero : Bool
  buf : List ℕ
  buf_length : buf.length = 2 ^ sizeDegree
  deriving DecidableEq

/-- What `write` and `read` throw: an exception of the buffers, by its code, or the
`Poco::Exception` "too large size_degree" of the size checks. -/
inductive ReadWriteError
  | code (c : ErrorCode)
  | tooLargeSizeDegree
  deriving DecidableEq, Repr

/-- The probe loop of `insertImpl`: from cell `i`, the first cell that is empty or holds `x`. The
source loops until it meets one; the model looks `fuel` cells far. `reinsertImpl` probes the same
way for `x = 0`, an empty cell. -/
def findCell (buf : List ℕ) (mask x : ℕ) : ℕ → ℕ → ℕ
  | 0, i => i
  | fuel + 1, i =>
    if buf.getD i 0 ≠ 0 ∧ buf.getD i 0 ≠ x then findCell buf mask x fuel ((i + 1) &&& mask) else i

namespace UniquesHashSet

variable (s : UniquesHashSet)

def bufSize : ℕ := 2 ^ s.sizeDegree

def maxFill : ℕ := 2 ^ (s.sizeDegree - 1)

def mask : ℕ := s.bufSize - 1

def place (x : ℕ) : ℕ := (x >>> uniquesHashBitsForSkip) &&& s.mask

/-- The shifts are on a `UInt32`: the source leaves them undefined from a `skip_degree` of 32 on. -/
def good (hash : ℕ) : Bool := hash = (hash >>> s.skipDegree) <<< s.skipDegree

/-- `buf[i] = x`. -/
def setCell (i x : ℕ) : UniquesHashSet :=
  { s with buf := s.buf.set i x, buf_length := by rw [List.length_set, s.buf_length] }

def insertImpl (x : ℕ) : UniquesHashSet :=
  if x = 0 then { s with mSize := s.mSize + (if s.hasZero then 0 else 1), hasZero := true }
  else
    let i := findCell s.buf s.mask x s.bufSize (s.place x)
    if s.buf.getD i 0 = x then s else { s.setCell i x with mSize := s.mSize + 1 }

def reinsertImpl (x : ℕ) : UniquesHashSet :=
  s.setCell (findCell s.buf s.mask 0 s.bufSize (s.place x)) x

/-- The first pass of `rehash` at cell `i`: a hash that is no longer good is removed, and a good
one out of its place is reinserted. -/
def rehashStep (i : ℕ) : UniquesHashSet :=
  let x := s.buf.getD i 0
  if x = 0 then s
  else if !s.good x then { s.setCell i 0 with mSize := s.mSize - 1 }
  else if i ≠ s.place x then (s.setCell i 0).reinsertImpl x
  else s

/-- The second pass of `rehash`: the chain of occupied cells from cell `i` on. -/
def rehashChain : ℕ → ℕ → UniquesHashSet → UniquesHashSet
  | 0, _, s => s
  | fuel + 1, i, s =>
    let x := s.buf.getD i 0
    if i < s.bufSize ∧ x ≠ 0 then
      rehashChain fuel (i + 1) (if i ≠ s.place x then (s.setCell i 0).reinsertImpl x else s)
    else s

def rehash : UniquesHashSet :=
  rehashChain s.bufSize 0 ((List.range s.bufSize).foldl rehashStep s)

/-- The loop of `resize` at cell `i`, over the old cells and the occupied cells after them. -/
def resizeLoop (oldSize : ℕ) : ℕ → ℕ → UniquesHashSet → UniquesHashSet
  | 0, _, s => s
  | fuel + 1, i, s =>
    let x := s.buf.getD i 0
    if i < oldSize ∨ x ≠ 0 then
      let s' :=
        if x = 0 ∨ s.place x = i then s
        else
          let j := findCell s.buf s.mask x s.bufSize (s.place x)
          if s.buf.getD j 0 = x then s else (s.setCell j x).setCell i 0
      resizeLoop oldSize fuel (i + 1) s'
    else s

/-- `resize`: `realloc` keeps the old cells and clears the new ones. -/
def resize (newSizeDegree : ℕ) : UniquesHashSet :=
  let oldSize := s.bufSize
  let newSizeDegree := if newSizeDegree = 0 then s.sizeDegree + 1 else newSizeDegree
  let s' : UniquesHashSet :=
    { s with
      buf := (s.buf ++ List.replicate (2 ^ newSizeDegree) 0).take (2 ^ newSizeDegree)
      sizeDegree := newSizeDegree
      buf_length := by simp }
  resizeLoop oldSize s'.bufSize 0 s'

/-- The loop of `shrinkIfNeed` that raises `skip_degree` while too many hashes are kept. A
`skip_degree` of 32 leaves no hash but zero, so 33 rounds are enough from any state. -/
def shrinkLoop : ℕ → UniquesHashSet → UniquesHashSet
  | 0, s => s
  | fuel + 1, s =>
    if s.mSize > uniquesHashMaxSize then shrinkLoop fuel { s with skipDegree := s.skipDegree + 1 }.rehash
    else s

def shrinkIfNeed : UniquesHashSet :=
  if s.mSize > s.maxFill then
    if s.mSize > uniquesHashMaxSize then shrinkLoop 33 s else s.resize 0
  else s

/-- `insert` of a value with hash `hash`. -/
def insert (hash : ℕ) : UniquesHashSet :=
  if !s.good hash then s else (s.insertImpl hash).shrinkIfNeed

def insertManyBatchSize : ℕ := 8

/-- `insertMany` of values with the hashes `hashes`: eight at a time without the shrink check while
the room and the values last, one at a time otherwise. `max_fill() - m_size` is a `size_t`. -/
def insertMany (s : UniquesHashSet) (hashes : List ℕ) : UniquesHashSet :=
  if (s.maxFill + 2 ^ 64 - s.mSize) % 2 ^ 64 ≥ insertManyBatchSize ∧ hashes.length ≥ insertManyBatchSize then
    let s' := (hashes.take insertManyBatchSize).foldl (fun t x => if !t.good x then t else t.insertImpl x) s
    insertMany s'.shrinkIfNeed (hashes.drop insertManyBatchSize)
  else
    match hashes with
    | [] => s
    | x :: rest => insertMany (if !s.good x then s else s.insertImpl x).shrinkIfNeed rest
termination_by hashes.length
decreasing_by
  all_goals simp_wf
  · simp only [insertManyBatchSize] at *
    omega

def merge (rhs : UniquesHashSet) : UniquesHashSet :=
  let s₁ := if rhs.skipDegree > s.skipDegree then { s with skipDegree := rhs.skipDegree }.rehash else s
  let s₂ := if !s₁.hasZero ∧ rhs.hasZero then { s₁ with hasZero := true, mSize := s₁.mSize + 1 }.shrinkIfNeed
    else s₁
  (List.range rhs.bufSize).foldl
    (fun t i => let x := rhs.buf.getD i 0; if x ≠ 0 ∧ t.good x then (t.insertImpl x).shrinkIfNeed else t) s₂

def write : Except ReadWriteError (List UInt8) :=
  if s.mSize > uniquesHashMaxSize then .error .tooLargeSizeDegree
  else .ok (UInt8.ofNat s.skipDegree :: writeVarUInt s.mSize ++
    (if s.hasZero then Bytes.encodeLE 4 0 else []) ++ (s.buf.filter (· ≠ 0)).flatMap (Bytes.encodeLE 4))

/-- The hashes in the buffer, in the order of the cells. -/
def stored : List ℕ := s.buf.filter (· ≠ 0)

@[simp] lemma bufSize_eq : s.bufSize = 2 ^ s.sizeDegree := rfl

@[simp] lemma mask_eq : s.mask = 2 ^ s.sizeDegree - 1 := rfl

lemma maxFill_eq : s.maxFill = 2 ^ (s.sizeDegree - 1) := rfl

lemma stored_eq : s.stored = s.buf.filter (· ≠ 0) := rfl

section Cells

variable {s} {i x : ℕ}

@[simp] lemma setCell_buf : (s.setCell i x).buf = s.buf.set i x := rfl

@[simp] lemma setCell_mSize : (s.setCell i x).mSize = s.mSize := rfl

@[simp] lemma setCell_sizeDegree : (s.setCell i x).sizeDegree = s.sizeDegree := rfl

@[simp] lemma setCell_skipDegree : (s.setCell i x).skipDegree = s.skipDegree := rfl

@[simp] lemma setCell_hasZero : (s.setCell i x).hasZero = s.hasZero := rfl

lemma place_lt (x : ℕ) : s.place x < 2 ^ s.sizeDegree := by
  rw [place, mask_eq, Nat.and_two_pow_sub_one_eq_mod]
  exact Nat.mod_lt _ (Nat.two_pow_pos _)

/-- Writing a hash into an empty cell adds it to the stored hashes. -/
lemma filter_set_perm {l : List ℕ} (hi : i < l.length) (hz : l.getD i 0 = 0) (hx : x ≠ 0) :
    List.Perm ((l.set i x).filter (· ≠ 0)) (x :: l.filter (· ≠ 0)) := by
  have hsplit : l = l.take i ++ 0 :: l.drop (i + 1) := by
    rw [List.getD_eq_getElem _ _ hi] at hz
    rw [← hz, List.getElem_cons_drop, List.take_append_drop]
  rw [List.set_eq_take_append_cons_drop, if_pos hi]
  conv_rhs => rw [hsplit]
  simp only [List.filter_append, List.filter_cons, ne_eq, hx, not_false_eq_true, decide_true,
    if_true, not_true_eq_false, decide_false, Bool.false_eq_true, if_false]
  exact List.perm_middle

/-- A buffer with fewer hashes than cells has an empty cell. -/
lemma exists_empty_cell (hroom : s.stored.length < 2 ^ s.sizeDegree) :
    ∃ j < 2 ^ s.sizeDegree, s.buf.getD j 0 = 0 := by
  rw [← s.buf_length, stored_eq] at hroom
  obtain ⟨y, hy, hzero⟩ := List.length_filter_lt_length_iff_exists.mp hroom
  obtain ⟨j, hj, rfl⟩ := List.mem_iff_getElem.mp hy
  refine ⟨j, s.buf_length ▸ hj, ?_⟩
  rw [List.getD_eq_getElem _ _ hj]
  simpa using hzero

end Cells

section Probe

variable {buf : List ℕ} {i j k : ℕ}

/-- Some step of a probe of `n` cells from `i` reaches cell `j`, once `n` is the buffer size. -/
lemma exists_step_to (hi : i < 2 ^ k) (hj : j < 2 ^ k) : ∃ d < 2 ^ k, (i + d) % 2 ^ k = j := by
  refine ⟨(j + 2 ^ k - i) % 2 ^ k, Nat.mod_lt _ (Nat.two_pow_pos k), ?_⟩
  rw [Nat.add_mod_mod, show i + (j + 2 ^ k - i) = j + 2 ^ k by omega, Nat.add_mod_right,
    Nat.mod_eq_of_lt hj]

/-- A probe that meets, within its `n` cells, a cell that is empty or holds `x`, stops at such a
cell inside the buffer. The induction is on the cells left to probe. -/
lemma findCell_stops (x : ℕ) : ∀ (n i : ℕ), i < 2 ^ k →
    (∃ d < n, buf.getD ((i + d) % 2 ^ k) 0 = 0 ∨ buf.getD ((i + d) % 2 ^ k) 0 = x) →
    findCell buf (2 ^ k - 1) x n i < 2 ^ k ∧
      (buf.getD (findCell buf (2 ^ k - 1) x n i) 0 = 0 ∨ buf.getD (findCell buf (2 ^ k - 1) x n i) 0 = x)
  | 0, _, _, ⟨_, hd, _⟩ => absurd hd (Nat.not_lt_zero _)
  | n + 1, i, hi, ⟨d, hd, hstop⟩ => by
    rw [findCell]
    split_ifs with hgo
    · -- cell `i` is not a stop, so the stop lies further on, one step nearer from `i + 1`
      obtain ⟨d, rfl⟩ : ∃ e, d = e + 1 := by
        rcases d with _ | e
        · rw [Nat.add_zero, Nat.mod_eq_of_lt hi] at hstop
          exact absurd hstop (by tauto)
        · exact ⟨e, rfl⟩
      rw [Nat.and_two_pow_sub_one_eq_mod]
      refine findCell_stops x n _ (Nat.mod_lt _ (Nat.two_pow_pos k)) ⟨d, by omega, ?_⟩
      rwa [Nat.mod_add_mod, Nat.add_assoc, Nat.add_comm 1 d]
    · exact ⟨hi, by tauto⟩

end Probe

section Read

variable {s} {x : ℕ}

@[simp] lemma reinsertImpl_mSize : (s.reinsertImpl x).mSize = s.mSize := rfl

@[simp] lemma reinsertImpl_sizeDegree : (s.reinsertImpl x).sizeDegree = s.sizeDegree := rfl

@[simp] lemma reinsertImpl_skipDegree : (s.reinsertImpl x).skipDegree = s.skipDegree := rfl

@[simp] lemma reinsertImpl_hasZero : (s.reinsertImpl x).hasZero = s.hasZero := rfl

/-- `reinsertImpl` of a nonzero hash into a buffer with an empty cell stores it once more. -/
lemma stored_reinsertImpl (hroom : s.stored.length < 2 ^ s.sizeDegree) (hx : x ≠ 0) :
    List.Perm (s.reinsertImpl x).stored (x :: s.stored) := by
  obtain ⟨j, hj, hzero⟩ := exists_empty_cell hroom
  obtain ⟨d, hd, hdj⟩ := exists_step_to (s.place_lt x) hj
  have hstop := @findCell_stops s.buf _ 0 _ _ (s.place_lt x) ⟨d, hd, .inl (hdj ▸ hzero)⟩
  have hempty : s.buf.getD (findCell s.buf s.mask 0 s.bufSize (s.place x)) 0 = 0 := by
    rcases hstop.2 with h | h <;> exact h
  exact filter_set_perm (s.buf_length ▸ hstop.1) hempty hx

end Read

end UniquesHashSet

namespace UniquesHashSet

/-- `readBinaryLittleEndian` of an integer of `w` bytes. -/
def readBinaryLittleEndian (w : ℕ) (bytes : List UInt8) : Except ReadWriteError (ℕ × List UInt8) :=
  if bytes.length < w then .error (.code .cannotReadAllData)
  else .ok (Bytes.decodeLE (bytes.take w), bytes.drop w)

/-- A hash read by `read`: zero sets `has_zero`, any other is reinserted. -/
def readHash (s : UniquesHashSet) (x : ℕ) : UniquesHashSet :=
  if x = 0 then { s with hasZero := true } else s.reinsertImpl x

/-- The loop of `read` for a set of at most one hash, which reads each hash on its own. -/
def readEach : ℕ → UniquesHashSet → List UInt8 → Except ReadWriteError (UniquesHashSet × List UInt8)
  | 0, s, bytes => .ok (s, bytes)
  | n + 1, s, bytes => do
    let (x, bytes) ← readBinaryLittleEndian 4 bytes
    readEach n (readHash s x) bytes

/-- The `size_degree` that `read` allocates for `m_size` hashes; `log2` of the `double` is exact on
these integers. -/
def newSizeDegree (mSize : ℕ) : ℕ :=
  if mSize ≤ 1 then uniquesHashSetInitialSizeDegree
  else max uniquesHashSetInitialSizeDegree (Nat.log2 (mSize - 1) + 2)

/-- An empty set of `2 ^ sizeDegree` cells. -/
def empty (mSize sizeDegree skipDegree : ℕ) : UniquesHashSet :=
  ⟨mSize, sizeDegree, skipDegree, false, List.replicate (2 ^ sizeDegree) 0, List.length_replicate⟩

def read (bytes : List UInt8) : Except ReadWriteError (UniquesHashSet × List UInt8) := do
  let (skipDegree, bytes) ← readBinaryLittleEndian 1 bytes
  let (mSize, bytes) ← (readVarUInt32 bytes).mapError .code
  if mSize > uniquesHashMaxSize then throw .tooLargeSizeDegree
  let s := empty mSize (newSizeDegree mSize) skipDegree
  if mSize ≤ 1 then readEach mSize s bytes
  else
    if bytes.length < mSize * 4 then throw (.code .cannotReadAllData)
    let hs := (Bytes.splitWords 4 mSize bytes).map Bytes.decodeLE
    pure (hs.foldl readHash s, bytes.drop (mSize * 4))

section ReadBytes

variable {s : UniquesHashSet} {x : ℕ}

@[simp] lemma readHash_mSize : (readHash s x).mSize = s.mSize := by
  unfold readHash; split <;> rfl

@[simp] lemma readHash_sizeDegree : (readHash s x).sizeDegree = s.sizeDegree := by
  unfold readHash; split <;> rfl

@[simp] lemma readHash_skipDegree : (readHash s x).skipDegree = s.skipDegree := by
  unfold readHash; split <;> rfl

lemma readHash_hasZero : (readHash s x).hasZero = (s.hasZero || decide (x = 0)) := by
  unfold readHash
  split_ifs with hx <;> simp [hx]

lemma stored_readHash (hroom : s.stored.length < 2 ^ s.sizeDegree) :
    List.Perm (readHash s x).stored (s.stored ++ [x].filter (· ≠ 0)) := by
  unfold readHash
  split_ifs with hx
  · simp [hx, stored_eq]
  · rw [List.filter_singleton, decide_eq_true hx, cond_true]
    exact (stored_reinsertImpl hroom hx).trans (List.perm_append_singleton _ _).symm

/-- The hashes that `read` takes in are all stored, repetitions included, while the buffer has
room for them. The induction is on the hashes, with the set generalised. -/
lemma foldl_readHash : ∀ (hs : List ℕ) (s : UniquesHashSet), s.stored.length + hs.length ≤ 2 ^ s.sizeDegree →
    List.Perm (hs.foldl readHash s).stored (s.stored ++ hs.filter (· ≠ 0)) ∧
      (hs.foldl readHash s).hasZero = (s.hasZero || decide (0 ∈ hs)) ∧
      (hs.foldl readHash s).mSize = s.mSize ∧ (hs.foldl readHash s).sizeDegree = s.sizeDegree ∧
      (hs.foldl readHash s).skipDegree = s.skipDegree
  | [], s, _ => by simp
  | x :: hs, s, hroom => by
    rw [List.length_cons] at hroom
    have hstep := stored_readHash (s := s) (x := x) (by omega)
    have hone : ([x].filter (· ≠ 0)).length ≤ 1 := (List.length_filter_le _ _).trans (by simp)
    have hlen : (readHash s x).stored.length + hs.length ≤ 2 ^ (readHash s x).sizeDegree := by
      rw [hstep.length_eq, readHash_sizeDegree, List.length_append]
      omega
    obtain ⟨hperm, hzero, hm, hsd, hskip⟩ := foldl_readHash hs (readHash s x) hlen
    rw [List.foldl_cons]
    refine ⟨?_, ?_, by rw [hm, readHash_mSize], by rw [hsd, readHash_sizeDegree],
      by rw [hskip, readHash_skipDegree]⟩
    · rw [show x :: hs = [x] ++ hs from rfl, List.filter_append, ← List.append_assoc]
      exact hperm.trans (hstep.append_right _)
    · simp only [hzero, readHash_hasZero, List.mem_cons, Bool.decide_or, Bool.or_assoc, eq_comm]

lemma readBinaryLittleEndian_encodeLE (w v : ℕ) (hv : v < 256 ^ w) (rest : List UInt8) :
    readBinaryLittleEndian w (Bytes.encodeLE w v ++ rest) = .ok (v, rest) := by
  have hlen : w ≤ (Bytes.encodeLE w v ++ rest).length := by simp
  rw [readBinaryLittleEndian, if_neg (not_lt.mpr hlen), Bytes.decodeLE_take_encodeLE w v rest hv,
    List.drop_left' (Bytes.length_encodeLE w v)]

/-- Read one by one, the hashes go through `readHash` in order. -/
lemma readEach_flatMap (rest : List UInt8) : ∀ (hs : List ℕ) (s : UniquesHashSet), (∀ h ∈ hs, h < 2 ^ 32) →
    readEach hs.length s (hs.flatMap (Bytes.encodeLE 4) ++ rest) = .ok (hs.foldl readHash s, rest)
  | [], _, _ => rfl
  | x :: hs, s, hh => by
    have hx : x < 256 ^ 4 := by simpa using hh x List.mem_cons_self
    rw [List.length_cons, readEach, List.flatMap_cons, List.append_assoc,
      readBinaryLittleEndian_encodeLE 4 x hx, ok_bind]
    exact readEach_flatMap rest hs (readHash s x) (fun h hm => hh h (List.mem_cons_of_mem x hm))

end ReadBytes

lemma length_flatMap_encodeLE (hs : List ℕ) : (hs.flatMap (Bytes.encodeLE 4)).length = hs.length * 4 := by
  simp

/-- The words that `read` cuts from the bytes after the size are the hashes written there. -/
lemma splitWords_flatMap (hs : List ℕ) (hh : ∀ h ∈ hs, h < 2 ^ 32) (rest : List UInt8) :
    (Bytes.splitWords 4 hs.length (hs.flatMap (Bytes.encodeLE 4) ++ rest)).map Bytes.decodeLE = hs := by
  have hwords := Bytes.splitWords_flatten 4 (hs.map (Bytes.encodeLE 4)) (by simp) rest
  rw [List.length_map, ← List.flatMap_def] at hwords
  rw [hwords, List.map_map]
  calc List.map (Bytes.decodeLE ∘ Bytes.encodeLE 4) hs = List.map id hs :=
        List.map_congr_left fun h hmem => by
          rw [Function.comp_apply, Bytes.decodeLE_encodeLE, Nat.mod_eq_of_lt (by simpa using hh h hmem), id]
    _ = hs := List.map_id hs

/-- `read` allocates a cell for each hash it was told of. -/
lemma le_two_pow_newSizeDegree (m : ℕ) : m ≤ 2 ^ newSizeDegree m := by
  unfold newSizeDegree uniquesHashSetInitialSizeDegree
  split_ifs with hm
  · calc m ≤ 1 := hm
      _ ≤ 2 ^ 4 := by decide
  · have hlt : m - 1 < 2 ^ (Nat.log2 (m - 1) + 1) := Nat.lt_log2_self
    have hdouble : 2 ^ (Nat.log2 (m - 1) + 2) = 2 * 2 ^ (Nat.log2 (m - 1) + 1) := by ring
    have hmax : 2 ^ (Nat.log2 (m - 1) + 2) ≤ 2 ^ max 4 (Nat.log2 (m - 1) + 2) :=
      Nat.pow_le_pow_right (by decide) (le_max_right _ _)
    omega


/-- `read` of a first byte, the VarUInt of a count and that many hashes: the hashes go through
`readHash` in order, into an empty set of `newSizeDegree` of the count. -/
lemma read_encoded (skip : UInt8) (hs : List ℕ) (hlen : hs.length ≤ uniquesHashMaxSize)
    (hh : ∀ h ∈ hs, h < 2 ^ 32) (rest : List UInt8) :
    read (skip :: writeVarUInt hs.length ++ hs.flatMap (Bytes.encodeLE 4) ++ rest) =
      .ok (hs.foldl readHash (empty hs.length (newSizeDegree hs.length) skip.toNat), rest) := by
  have hm32 : hs.length < 2 ^ 32 := lt_of_le_of_lt hlen (by decide)
  have hmax : ¬ hs.length > uniquesHashMaxSize := not_lt.mpr hlen
  have hskip : readBinaryLittleEndian 1 (skip :: (writeVarUInt hs.length ++ (hs.flatMap (Bytes.encodeLE 4) ++ rest))) =
      .ok (skip.toNat, writeVarUInt hs.length ++ (hs.flatMap (Bytes.encodeLE 4) ++ rest)) := by
    unfold readBinaryLittleEndian
    simp
  simp only [read, List.cons_append, List.append_assoc, hskip, ok_bind]
  simp only [readVarUInt32_writeVarUInt hs.length hm32, Except.mapError, ok_bind, hmax, if_false]
  split_ifs with hone hshort
  · -- at most one hash: read one at a time
    exact readEach_flatMap rest hs _ hh
  · rw [List.length_append, length_flatMap_encodeLE] at hshort
    omega
  · -- several hashes: read together, then cut into words
    rw [splitWords_flatMap hs hh, List.drop_left' (length_flatMap_encodeLE hs)]
    rfl

/-- `read` takes `skip_degree` from the first byte as it is and reinserts every hash it reads,
repetitions included, counting them all in `m_size`: of the checks on the state only the one on
`m_size` is made. -/
theorem read_keeps_header_and_hashes (skip : UInt8) (hs : List ℕ) (hlen : hs.length ≤ uniquesHashMaxSize)
    (hh : ∀ h ∈ hs, h < 2 ^ 32) (rest : List UInt8) :
    ∃ t, read (skip :: writeVarUInt hs.length ++ hs.flatMap (Bytes.encodeLE 4) ++ rest) = .ok (t, rest) ∧
      t.skipDegree = skip.toNat ∧ t.mSize = hs.length ∧ t.hasZero = decide (0 ∈ hs) ∧
      List.Perm t.stored (hs.filter (· ≠ 0)) := by
  -- the set `read` fills: empty, with room for every hash
  let s := empty hs.length (newSizeDegree hs.length) skip.toNat
  have hempty : s.stored = [] := by
    simp [s, empty, stored_eq]
  have hroom : s.stored.length + hs.length ≤ 2 ^ s.sizeDegree := by
    rw [hempty, List.length_nil, Nat.zero_add]
    exact le_two_pow_newSizeDegree hs.length
  obtain ⟨hperm, hzero, hmsize, -, hskipd⟩ := foldl_readHash hs s hroom
  exact ⟨hs.foldl readHash s, read_encoded skip hs hlen hh rest, hskipd, hmsize,
    by simpa [s, empty] using hzero, by simpa [hempty] using hperm⟩

theorem read_keeps_header_and_hashes_skip32 :
    ∃ t, read (32 :: writeVarUInt 2 ++ [1, 1].flatMap (Bytes.encodeLE 4) ++ []) = .ok (t, []) ∧
      t.skipDegree = 32 ∧ t.mSize = 2 ∧ t.hasZero = false ∧ List.Perm t.stored [1, 1] :=
  read_keeps_header_and_hashes 32 [1, 1] (by decide) (by decide) []

end UniquesHashSet

end ClickHouse.AggregateFunctions
