import ClickHouse.Common.ErrorCodes
import ClickHouse.IO.IntText
import Mathlib.Data.Char
import Mathlib.Data.Int.Order.Basic
import Mathlib.Data.List.Lex
import Mathlib.Data.Prod.Lex

/-! `Storages/MergeTree/MergeTreePartInfo.{h,cpp}`: the partition and block range of a data part,
the relations between parts, and part names. A name is the list of its characters. -/

namespace ClickHouse.Storages.MergeTree

open ClickHouse.Common ClickHouse.IO

inductive Kind
  | regular
  | patch
  deriving DecidableEq, Repr

def Kind.toNat : Kind → ℕ
  | .regular => 0
  | .patch => 1

def patchPartPrefix : List Char := ['p', 'a', 't', 'c', 'h', '-']

def getKind (partitionId : List Char) : Kind :=
  if patchPartPrefix.isPrefixOf partitionId then .patch else .regular

/-- The private `kind` is only ever set together with `partition_id`, from it. -/
structure MergeTreePartInfo where
  kind : Kind
  partitionId : List Char
  minBlock : Int64
  maxBlock : Int64
  level : UInt32
  mutation : Int64
  useLegacyMaxLevel : Bool
  kind_eq : kind = getKind partitionId
  deriving DecidableEq

namespace MergeTreePartInfo

def maxLevel : UInt32 := 999999999

def legacyMaxLevel : UInt32 := 4294967295

/-- The key of `operator<=>`: kind, partition, block range, level, mutation; not
`use_legacy_max_level`. -/
def toTuple (p : MergeTreePartInfo) : Lex (ℕ × Lex (List Char × Lex (ℤ × Lex (ℤ × Lex (ℕ × ℤ))))) :=
  toLex (p.kind.toNat, toLex (p.partitionId,
    toLex (p.minBlock.toInt, toLex (p.maxBlock.toInt, toLex (p.level.toNat, p.mutation.toInt)))))

def contains (p rhs : MergeTreePartInfo) : Prop :=
  let strictlyContainsBlockRange := (p.minBlock = rhs.minBlock ∧ p.maxBlock = rhs.maxBlock) ∨
    rhs.level < p.level ∨ p.level = maxLevel ∨ p.level = legacyMaxLevel
  p.partitionId = rhs.partitionId ∧ p.minBlock ≤ rhs.minBlock ∧ rhs.maxBlock ≤ p.maxBlock ∧
    rhs.level ≤ p.level ∧ rhs.mutation ≤ p.mutation ∧ strictlyContainsBlockRange

instance (p rhs : MergeTreePartInfo) : Decidable (p.contains rhs) :=
  inferInstanceAs (Decidable (_ ∧ _))

def isDisjoint (p rhs : MergeTreePartInfo) : Prop :=
  p.partitionId ≠ rhs.partitionId ∨ rhs.maxBlock < p.minBlock ∨ p.maxBlock < rhs.minBlock

instance (p rhs : MergeTreePartInfo) : Decidable (p.isDisjoint rhs) :=
  inferInstanceAs (Decidable (_ ∨ _))

/-! ### Order, containment and disjointness -/

lemma toNat_maxLevel : maxLevel.toNat = 999999999 := rfl

lemma toNat_legacyMaxLevel : legacyMaxLevel.toNat = 2 ^ 32 - 1 := rfl

lemma Kind.toNat_injective {a b : Kind} (h : a.toNat = b.toNat) : a = b := by
  cases a <;> cases b <;> first | rfl | cases h

lemma kind_eq_of_partitionId_eq {p q : MergeTreePartInfo} (h : p.partitionId = q.partitionId) :
    p.kind = q.kind := by
  rw [p.kind_eq, q.kind_eq, h]

lemma contains_refl (p : MergeTreePartInfo) : p.contains p :=
  ⟨rfl, Int64.le_refl _, Int64.le_refl _, UInt32.le_refl _, Int64.le_refl _, .inl ⟨rfl, rfl⟩⟩

/-- Containment is transitive. Only the case of a middle part at a maximal level needs care: a
containing part at least that high is either above `MAX_LEVEL` or is the legacy maximum itself. -/
lemma contains_trans {p q r : MergeTreePartInfo} (hpq : p.contains q) (hqr : q.contains r) :
    p.contains r := by
  obtain ⟨hpid, hmin, hmax, hlevel, hmut, hstrict⟩ := hpq
  obtain ⟨hpid', hmin', hmax', hlevel', hmut', hstrict'⟩ := hqr
  refine ⟨hpid.trans hpid', Int64.le_trans hmin hmin', Int64.le_trans hmax' hmax,
    UInt32.le_trans hlevel' hlevel, Int64.le_trans hmut' hmut, ?_⟩
  rcases hstrict with ⟨hmin_eq, hmax_eq⟩ | hlt | hp | hp
  · rcases hstrict' with ⟨hmin_eq', hmax_eq'⟩ | hlt' | hq | hq
    · exact .inl ⟨hmin_eq.trans hmin_eq', hmax_eq.trans hmax_eq'⟩
    · exact .inr (.inl (UInt32.lt_of_lt_of_le hlt' hlevel))
    · rcases UInt32.lt_or_eq_of_le (hq ▸ hlevel) with hlt | heq
      · exact .inr (.inl (UInt32.lt_of_le_of_lt (hq ▸ hlevel') hlt))
      · exact .inr (.inr (.inl heq.symm))
    · have hle := UInt32.le_iff_toNat_le.mp (hq ▸ hlevel)
      have hlt := UInt32.toNat_lt p.level
      rw [toNat_legacyMaxLevel] at hle
      refine .inr (.inr (.inr (UInt32.toNat_inj.mp ?_)))
      rw [toNat_legacyMaxLevel]
      omega
  · exact .inr (.inl (UInt32.lt_of_le_of_lt hlevel' hlt))
  · exact .inr (.inr (.inl hp))
  · exact .inr (.inr (.inr hp))

lemma isDisjoint.symm {p q : MergeTreePartInfo} (h : p.isDisjoint q) : q.isDisjoint p := by
  rcases h with hne | hlt | hlt
  · exact .inl (Ne.symm hne)
  · exact .inr (.inr hlt)
  · exact .inr (.inl hlt)

lemma isDisjoint_iff_of_partitionId_eq {p q : MergeTreePartInfo} (h : p.partitionId = q.partitionId) :
    p.isDisjoint q ↔ q.maxBlock.toInt < p.minBlock.toInt ∨ p.maxBlock.toInt < q.minBlock.toInt := by
  simp only [isDisjoint, h, ne_eq, not_true_eq_false, false_or, Int64.lt_iff_toInt_lt]

lemma partitionId_le_of_toTuple_le {p q : MergeTreePartInfo} (h : p.toTuple ≤ q.toTuple) :
    p.kind.toNat ≤ q.kind.toNat ∧ (p.kind = q.kind → p.partitionId ≤ q.partitionId) := by
  rw [toTuple, toTuple, Prod.Lex.toLex_le_toLex'] at h
  refine ⟨h.1, fun hkind => ?_⟩
  have h' := h.2 (congrArg Kind.toNat hkind)
  rw [Prod.Lex.toLex_le_toLex'] at h'
  exact h'.1

/-- The key order sorts by kind and partition first: a part between two parts of one partition
is in that partition. -/
lemma partitionId_eq_of_toTuple_le_of_le {p q r : MergeTreePartInfo} (hpq : p.toTuple ≤ q.toTuple)
    (hqr : q.toTuple ≤ r.toTuple) (hpr : p.partitionId = r.partitionId) :
    q.partitionId = p.partitionId := by
  obtain ⟨hk₁, hpid₁⟩ := partitionId_le_of_toTuple_le hpq
  obtain ⟨hk₂, hpid₂⟩ := partitionId_le_of_toTuple_le hqr
  have hkind : p.kind = r.kind := kind_eq_of_partitionId_eq hpr
  have hkq : p.kind = q.kind := Kind.toNat_injective (by rw [hkind] at hk₁ ⊢; omega)
  exact le_antisymm (hpr ▸ hpid₂ (hkq ▸ hkind)) (hpid₁ hkq)

lemma minBlock_le_of_toTuple_le {p q : MergeTreePartInfo} (h : p.toTuple ≤ q.toTuple)
    (hpid : p.partitionId = q.partitionId) : p.minBlock.toInt ≤ q.minBlock.toInt := by
  rw [toTuple, toTuple, Prod.Lex.toLex_le_toLex'] at h
  have h₁ := h.2 (congrArg Kind.toNat (kind_eq_of_partitionId_eq hpid))
  rw [Prod.Lex.toLex_le_toLex'] at h₁
  have h₂ := h₁.2 hpid
  rw [Prod.Lex.toLex_le_toLex'] at h₂
  exact h₂.1

lemma contains_of_toTuple_eq {p q : MergeTreePartInfo} (h : p.toTuple = q.toTuple) : p.contains q := by
  simp only [toTuple, toLex_inj, Prod.mk.injEq] at h
  obtain ⟨-, hpid, hmin, hmax, hlevel, hmut⟩ := h
  exact ⟨hpid, Int64.le_iff_toInt_le.mpr hmin.le, Int64.le_iff_toInt_le.mpr hmax.ge,
    UInt32.le_iff_toNat_le.mpr hlevel.ge, Int64.le_iff_toInt_le.mpr hmut.ge,
    .inl ⟨Int64.toInt_inj.mp hmin, Int64.toInt_inj.mp hmax⟩⟩

section Ordered

variable {p q r : MergeTreePartInfo}

/-- Disjointness passes along the key order through a part with ordered blocks: a part of the
partition between two others starts between their starts, so it cannot meet both. -/
lemma isDisjoint_of_toTuple_le_of_le (hq : q.minBlock ≤ q.maxBlock) (hr : r.minBlock ≤ r.maxBlock)
    (hpq : p.toTuple ≤ q.toTuple) (hqr : q.toTuple ≤ r.toTuple) (hdpq : p.isDisjoint q)
    (hdqr : q.isDisjoint r) : p.isDisjoint r := by
  by_cases hpr : p.partitionId = r.partitionId
  · have hpid := partitionId_eq_of_toTuple_le_of_le hpq hqr hpr
    have h₁ := minBlock_le_of_toTuple_le hpq hpid.symm
    have h₂ := minBlock_le_of_toTuple_le hqr (hpid.trans hpr)
    rw [isDisjoint_iff_of_partitionId_eq hpid.symm] at hdpq
    rw [isDisjoint_iff_of_partitionId_eq (hpid.trans hpr)] at hdqr
    rw [isDisjoint_iff_of_partitionId_eq hpr]
    rw [Int64.le_iff_toInt_le] at hq hr
    omega
  · exact .inl hpr

/-- A part `r` containing `p` meets every part with ordered blocks that comes after `p` and up to
`r` in key order. -/
lemma not_isDisjoint_of_le_of_contains (hq : q.minBlock ≤ q.maxBlock) (hr : r.minBlock ≤ r.maxBlock)
    (hpq : p.toTuple ≤ q.toTuple) (hqr : q.toTuple ≤ r.toTuple) (hrp : r.contains p) :
    ¬ q.isDisjoint r := by
  obtain ⟨hpid, hmin, -, -, -, -⟩ := hrp
  have hqpid := partitionId_eq_of_toTuple_le_of_le hpq hqr hpid.symm
  have h₁ := minBlock_le_of_toTuple_le hpq hqpid.symm
  have h₂ := minBlock_le_of_toTuple_le hqr (hqpid.trans hpid.symm)
  rw [isDisjoint_iff_of_partitionId_eq (hqpid.trans hpid.symm)]
  rw [Int64.le_iff_toInt_le] at hq hr hmin
  omega

/-- A part `r` containing `p` meets every part with ordered blocks that comes after `r` and up to
`p` in key order, when `p` has ordered blocks. -/
lemma not_isDisjoint_of_contains_of_le (hp : p.minBlock ≤ p.maxBlock) (hq : q.minBlock ≤ q.maxBlock)
    (hrq : r.toTuple ≤ q.toTuple) (hqp : q.toTuple ≤ p.toTuple) (hrp : r.contains p) :
    ¬ r.isDisjoint q := by
  obtain ⟨hpid, hmin, hmax, -, -, -⟩ := hrp
  have hqpid := partitionId_eq_of_toTuple_le_of_le hrq hqp hpid
  have h₁ := minBlock_le_of_toTuple_le hrq hqpid.symm
  have h₂ := minBlock_le_of_toTuple_le hqp (hqpid.trans hpid)
  rw [isDisjoint_iff_of_partitionId_eq hqpid.symm]
  rw [Int64.le_iff_toInt_le] at hp hq hmin hmax
  omega

end Ordered

/-! ### Part names -/

def minFormatVersionWithCustomPartitioning : ℕ := 1

/-- `checkChar`: consume `c` if it is next. -/
def checkChar (c : Char) : List Char → Option (List Char)
  | [] => none
  | d :: buf => if d = c then some buf else none

/-- The custom-partitioning loop: characters up to the first `_`, which is consumed. -/
def readUntilUnderscore : List Char → List Char × List Char
  | [] => ([], [])
  | c :: buf => if c = '_' then ([], buf) else (c :: (readUntilUnderscore buf).1, (readUntilUnderscore buf).2)

/-- The partition id of `tryParsePartName` and the buffer after it, by format version. -/
def readPartitionId (formatVersion : ℕ) (buf : List Char) : Option (List Char × List Char) :=
  if formatVersion < minFormatVersionWithCustomPartitioning then do
    let (minYyyymmdd, buf) ← tryReadIntText uint32 buf
    let buf ← checkChar '_' buf
    let (_, buf) ← tryReadIntText uint32 buf
    let buf ← checkChar '_' buf
    pure (Nat.toDigits 10 (minYyyymmdd.toNat / 100), buf)
  else some (readUntilUnderscore buf)

/-- The optional `_mutation` suffix, which must end the name. -/
def readMutation : List Char → Option ℤ
  | [] => some 0
  | c :: buf => do
    let buf ← checkChar '_' (c :: buf)
    let (mutation, buf) ← tryReadIntText uint32 buf
    if buf = [] then some mutation else none

def tryParsePartName (partName : List Char) (formatVersion : ℕ) : Option MergeTreePartInfo := do
  let (partitionId, buf) ← readPartitionId formatVersion partName
  if partitionId = [] then none
  else do
    let (minBlockNum, buf) ← tryReadIntText int64 buf
    let buf ← checkChar '_' buf
    let (maxBlockNum, buf) ← tryReadIntText int64 buf
    let buf ← checkChar '_' buf
    let (level, buf) ← tryReadIntText uint32 buf
    if maxBlockNum < minBlockNum then none
    else do
      let mutation ← readMutation buf
      -- a legacy maximal level is read as `MAX_LEVEL` and remembered for printing
      let useLegacyMaxLevel := UInt32.ofNat level.toNat = legacyMaxLevel
      some {
        kind := getKind partitionId
        partitionId := partitionId
        minBlock := Int64.ofInt minBlockNum
        maxBlock := Int64.ofInt maxBlockNum
        level := if useLegacyMaxLevel then maxLevel else UInt32.ofNat level.toNat
        mutation := Int64.ofInt mutation
        useLegacyMaxLevel := useLegacyMaxLevel
        kind_eq := rfl }

def getPartNameV1 (p : MergeTreePartInfo) : List Char :=
  p.partitionId ++ '_' :: (writeIntText p.minBlock.toInt ++ '_' :: (writeIntText p.maxBlock.toInt ++
    '_' :: (writeIntText (if p.useLegacyMaxLevel then legacyMaxLevel else p.level).toNat ++
      if p.mutation ≠ 0 then '_' :: writeIntText p.mutation.toInt else [])))

/-- `fromPartName`: the parse, or `BAD_DATA_PART_NAME`. -/
def fromPartName (partName : List Char) (formatVersion : ℕ) : Except ErrorCode MergeTreePartInfo :=
  match tryParsePartName partName formatVersion with
  | some p => .ok p
  | none => .error .badDataPartName

/-- Only the custom-partitioning format has names that the part info alone determines. -/
def getPartNameAndCheckFormat (p : MergeTreePartInfo) (formatVersion : ℕ) : Except ErrorCode (List Char) :=
  if formatVersion = minFormatVersionWithCustomPartitioning then .ok p.getPartNameV1
  else .error .badDataPartName

lemma getPartNameV1_ne_nil (p : MergeTreePartInfo) : p.getPartNameV1 ≠ [] := by
  simp [getPartNameV1]

/-! ### Printing and parsing back -/

/-- The part infos `tryParsePartName` returns in the custom-partitioning format. -/
structure Parsable (p : MergeTreePartInfo) : Prop where
  partitionId_ne_nil : p.partitionId ≠ []
  underscore_not_mem : '_' ∉ p.partitionId
  minBlock_le : p.minBlock ≤ p.maxBlock
  level_legacy : (p.useLegacyMaxLevel = false ∧ p.level ≠ legacyMaxLevel) ∨
    (p.useLegacyMaxLevel = true ∧ p.level = maxLevel)
  mutation_nonneg : 0 ≤ p.mutation.toInt
  mutation_lt : p.mutation.toInt < 2 ^ 32

lemma readUntilUnderscore_append {partitionId : List Char} (h : '_' ∉ partitionId) (rest : List Char) :
    readUntilUnderscore (partitionId ++ '_' :: rest) = (partitionId, rest) := by
  induction partitionId with
  | nil => simp [readUntilUnderscore]
  | cons c cs ih =>
    have hc : c ≠ '_' := fun hc => h (hc ▸ List.mem_cons_self)
    rw [List.cons_append, readUntilUnderscore, if_neg hc, ih (fun h' => h (List.mem_cons_of_mem c h'))]

lemma underscore_not_mem_readUntilUnderscore (buf : List Char) :
    '_' ∉ (readUntilUnderscore buf).1 := by
  induction buf with
  | nil => simp [readUntilUnderscore]
  | cons c cs ih =>
    rw [readUntilUnderscore]
    split_ifs with hc
    · simp
    · intro h
      rcases List.mem_cons.mp h with h | h
      · exact hc h.symm
      · exact ih h

lemma not_isDigit_underscore : ¬ ('_' : Char).isDigit := by decide

lemma tryReadIntText_int64 (v : Int64) (rest : List Char) (hrest : ∀ c ∈ rest.head?, ¬ c.isDigit) :
    tryReadIntText int64 (writeIntText v.toInt ++ rest) = some (v.toInt, rest) := by
  apply tryReadIntText_writeIntText _ _ (fun _ => rfl) rest hrest
  · have := Int64.toInt_lt v
    simp only [int64]
    omega
  · have := Int64.le_toInt v
    simp only [int64]
    omega

lemma tryReadIntText_uint32 {m : ℤ} (hm : 0 ≤ m) (hlt : m < 2 ^ 32) (rest : List Char)
    (hrest : ∀ c ∈ rest.head?, ¬ c.isDigit) :
    tryReadIntText uint32 (writeIntText m ++ rest) = some (m, rest) := by
  apply tryReadIntText_writeIntText _ _ (fun h => absurd h (by omega)) rest hrest
  · simp only [uint32]
    omega
  · simp only [uint32]
    omega

lemma readMutation_write {v : Int64} (hm : 0 ≤ v.toInt) (hlt : v.toInt < 2 ^ 32) :
    readMutation (if v ≠ 0 then '_' :: writeIntText v.toInt else []) = some v.toInt := by
  by_cases hzero : v = 0
  · rw [if_neg (not_not.mpr hzero), hzero]
    rfl
  · have hread := tryReadIntText_uint32 hm hlt [] (by simp)
    rw [List.append_nil] at hread
    rw [if_pos hzero, readMutation, checkChar, if_pos rfl]
    simp [hread]

/-- A part info is determined by its fields other than `kind`. -/
lemma eq_of_fields (p : MergeTreePartInfo) {level : UInt32} {useLegacyMaxLevel : Bool}
    (hlevel : level = p.level) (hlegacy : useLegacyMaxLevel = p.useLegacyMaxLevel) :
    ({ kind := getKind p.partitionId
       partitionId := p.partitionId
       minBlock := p.minBlock
       maxBlock := p.maxBlock
       level := level
       mutation := p.mutation
       useLegacyMaxLevel := useLegacyMaxLevel
       kind_eq := rfl } : MergeTreePartInfo) = p := by
  subst hlevel hlegacy
  cases p with
  | mk kind partitionId minBlock maxBlock level mutation useLegacyMaxLevel kind_eq =>
    subst kind_eq
    rfl

lemma tryParsePartName_getPartNameV1_of_parsable {p : MergeTreePartInfo} (hp : p.Parsable) :
    tryParsePartName p.getPartNameV1 minFormatVersionWithCustomPartitioning = some p := by
  have hlevel : ((if p.useLegacyMaxLevel then legacyMaxLevel else p.level).toNat : ℤ) < 2 ^ 32 := by
    have := UInt32.toNat_lt (if p.useLegacyMaxLevel then legacyMaxLevel else p.level)
    omega
  have hmin := tryReadIntText_int64 p.minBlock ('_' :: (writeIntText p.maxBlock.toInt ++
    '_' :: (writeIntText (if p.useLegacyMaxLevel then legacyMaxLevel else p.level).toNat ++
      if p.mutation ≠ 0 then '_' :: writeIntText p.mutation.toInt else []))) (by simp [not_isDigit_underscore])
  have hmax := tryReadIntText_int64 p.maxBlock
    ('_' :: (writeIntText (if p.useLegacyMaxLevel then legacyMaxLevel else p.level).toNat ++
      if p.mutation ≠ 0 then '_' :: writeIntText p.mutation.toInt else [])) (by simp [not_isDigit_underscore])
  have hlevelRead := tryReadIntText_uint32 (Int.natCast_nonneg _) hlevel
    (if p.mutation ≠ 0 then '_' :: writeIntText p.mutation.toInt else [])
    (by split_ifs <;> simp [not_isDigit_underscore])
  have hmutation := readMutation_write hp.mutation_nonneg hp.mutation_lt
  have hblocks : ¬ p.maxBlock.toInt < p.minBlock.toInt := by
    have := Int64.le_iff_toInt_le.mp hp.minBlock_le
    omega
  rw [tryParsePartName, readPartitionId, if_neg (by decide), getPartNameV1,
    readUntilUnderscore_append hp.underscore_not_mem]
  simp only [Option.bind_eq_bind, Option.bind_some, if_neg hp.partitionId_ne_nil, hmin, checkChar,
    if_true, hmax, hlevelRead, if_neg hblocks, hmutation, Int64.ofInt_toInt, Int.toNat_natCast,
    UInt32.ofNat_toNat]
  rcases hp.level_legacy with ⟨hlegacy, hlevel⟩ | ⟨hlegacy, hlevel⟩
  · simp only [hlegacy, Bool.false_eq_true, if_false, if_neg hlevel]
    exact congrArg some (eq_of_fields p rfl (by rw [hlegacy, decide_eq_false hlevel]))
  · simp only [hlegacy, if_true]
    exact congrArg some (eq_of_fields p hlevel.symm (by rw [hlegacy, decide_true]))

/-! ### What is accepted is well formed -/

lemma readMutation_bounds {buf : List Char} {mutation : ℤ} (h : readMutation buf = some mutation) :
    0 ≤ mutation ∧ mutation < 2 ^ 32 := by
  cases buf with
  | nil =>
    cases h
    exact ⟨le_rfl, by omega⟩
  | cons c cs =>
    rw [readMutation] at h
    obtain ⟨buf, -, h⟩ := Option.bind_eq_some_iff.mp h
    obtain ⟨⟨value, rest⟩, hvalue, h⟩ := Option.bind_eq_some_iff.mp h
    dsimp only at h
    split_ifs at h
    cases h
    obtain ⟨hmax, hmin, -⟩ := tryReadIntText_bounds hvalue
    simp only [uint32] at hmax hmin
    omega

lemma toInt_ofInt_of_tryReadIntText {buf rest : List Char} {x : ℤ}
    (h : tryReadIntText int64 buf = some (x, rest)) : (Int64.ofInt x).toInt = x := by
  obtain ⟨hmax, hmin, -⟩ := tryReadIntText_bounds h
  simp only [int64] at hmax hmin
  exact Int64.toInt_ofInt_of_le (by omega) (by omega)

/-- What a successful parse returns, at any format version: a non-empty partition id read from
the front of the name, ordered blocks, a level that is `MAX_LEVEL` exactly when it was read as the
legacy maximum, and a 32-bit mutation. -/
lemma tryParsePartName_eq_some {partName : List Char} {formatVersion : ℕ} {p : MergeTreePartInfo}
    (h : tryParsePartName partName formatVersion = some p) :
    (∃ buf, readPartitionId formatVersion partName = some (p.partitionId, buf)) ∧
      p.partitionId ≠ [] ∧ p.minBlock ≤ p.maxBlock ∧
      ((p.useLegacyMaxLevel = false ∧ p.level ≠ legacyMaxLevel) ∨
        (p.useLegacyMaxLevel = true ∧ p.level = maxLevel)) ∧
      0 ≤ p.mutation.toInt ∧ p.mutation.toInt < 2 ^ 32 := by
  rw [tryParsePartName] at h
  obtain ⟨⟨partitionId, buf₀⟩, hpartition, h⟩ := Option.bind_eq_some_iff.mp h
  dsimp only at h
  split_ifs at h with hpartitionId
  obtain ⟨⟨minBlockNum, buf₁⟩, hmin, h⟩ := Option.bind_eq_some_iff.mp h
  obtain ⟨buf₂, -, h⟩ := Option.bind_eq_some_iff.mp h
  obtain ⟨⟨maxBlockNum, buf₃⟩, hmax, h⟩ := Option.bind_eq_some_iff.mp h
  obtain ⟨buf₄, -, h⟩ := Option.bind_eq_some_iff.mp h
  obtain ⟨⟨level, buf₅⟩, -, h⟩ := Option.bind_eq_some_iff.mp h
  by_cases hblocks : maxBlockNum < minBlockNum
  · rw [if_pos hblocks] at h
    cases h
  rw [if_neg hblocks] at h
  obtain ⟨mutation, hmutation, h⟩ := Option.bind_eq_some_iff.mp h
  cases h
  obtain ⟨hmut0, hmut⟩ := readMutation_bounds hmutation
  have hmutation' : (Int64.ofInt mutation).toInt = mutation :=
    Int64.toInt_ofInt_of_le (by omega) (by omega)
  refine ⟨⟨buf₀, hpartition⟩, hpartitionId, ?_, ?_, ?_, ?_⟩
  · rw [Int64.le_iff_toInt_le, toInt_ofInt_of_tryReadIntText hmin, toInt_ofInt_of_tryReadIntText hmax]
    exact le_of_not_gt hblocks
  · by_cases hlegacy : UInt32.ofNat level.toNat = legacyMaxLevel
    · exact .inr ⟨decide_eq_true hlegacy, if_pos hlegacy⟩
    · refine .inl ⟨decide_eq_false hlegacy, ?_⟩
      dsimp only
      rw [if_neg hlegacy]
      exact hlegacy
  · dsimp only
    rw [hmutation']
    exact hmut0
  · dsimp only
    rw [hmutation']
    exact hmut

lemma parsable_of_tryParsePartName {partName : List Char} {p : MergeTreePartInfo}
    (h : tryParsePartName partName minFormatVersionWithCustomPartitioning = some p) : p.Parsable := by
  obtain ⟨⟨buf, hpartition⟩, hpartitionId, hblocks, hlevel, hmut0, hmut⟩ := tryParsePartName_eq_some h
  rw [readPartitionId, if_neg (by decide), Option.some_inj] at hpartition
  have hunderscore := underscore_not_mem_readUntilUnderscore partName
  rw [hpartition] at hunderscore
  exact ⟨hpartitionId, hunderscore, hblocks, hlevel, hmut0, hmut⟩

lemma minBlock_le_of_fromPartName {partName : List Char} {formatVersion : ℕ} {p : MergeTreePartInfo}
    (h : fromPartName partName formatVersion = .ok p) : p.minBlock ≤ p.maxBlock := by
  unfold fromPartName at h
  split at h
  · rename_i hparse
    cases h
    exact (tryParsePartName_eq_some hparse).2.2.1
  · cases h

/-- Custom-partitioning part names round-trip: a part info with a valid partition id, ordered
blocks, a level below `MAX_LEVEL` (or the legacy maximum) and a 32-bit mutation is parsed back
from its name, and every accepted name reprints to a name that parses to the same part info. -/
theorem tryParsePartName_getPartNameV1 :
    (∀ p : MergeTreePartInfo, p.partitionId ≠ [] →
      (∀ c ∈ p.partitionId, c = '-' ∨ c.isAlphanum) → p.minBlock ≤ p.maxBlock →
      (p.useLegacyMaxLevel = false ∧ p.level ≤ maxLevel ∨ p.useLegacyMaxLevel = true ∧ p.level = maxLevel) →
      0 ≤ p.mutation.toInt → p.mutation.toInt < 2 ^ 32 →
      tryParsePartName p.getPartNameV1 minFormatVersionWithCustomPartitioning = some p) ∧
    (∀ (partName : List Char) (p : MergeTreePartInfo),
      tryParsePartName partName minFormatVersionWithCustomPartitioning = some p →
      tryParsePartName p.getPartNameV1 minFormatVersionWithCustomPartitioning = some p) := by
  refine ⟨fun p hpartitionId hchars hblocks hlevel hmut0 hmut => ?_, fun _ p h => ?_⟩
  · apply tryParsePartName_getPartNameV1_of_parsable
    refine ⟨hpartitionId, fun hmem => ?_, hblocks, ?_, hmut0, hmut⟩
    · rcases hchars '_' hmem with h | h <;> revert h <;> decide
    · rcases hlevel with ⟨hlegacy, hle⟩ | hmax
      · refine .inl ⟨hlegacy, fun heq => ?_⟩
        rw [heq] at hle
        exact absurd hle (by decide)
      · exact .inr hmax
  · exact tryParsePartName_getPartNameV1_of_parsable (parsable_of_tryParsePartName h)

theorem tryParsePartName_getPartNameV1_mutated :
    (⟨.regular, ['a', 'l', 'l'], 1, 5, 2, 7, false, rfl⟩ : MergeTreePartInfo).partitionId ≠ [] ∧
    (∀ c ∈ (⟨.regular, ['a', 'l', 'l'], 1, 5, 2, 7, false, rfl⟩ : MergeTreePartInfo).partitionId,
      c = '-' ∨ c.isAlphanum) ∧
    (⟨.regular, ['a', 'l', 'l'], 1, 5, 2, 7, false, rfl⟩ : MergeTreePartInfo).getPartNameV1 =
      ['a', 'l', 'l', '_', '1', '_', '5', '_', '2', '_', '7'] ∧
    tryParsePartName (⟨.regular, ['a', 'l', 'l'], 1, 5, 2, 7, false, rfl⟩ : MergeTreePartInfo).getPartNameV1
      minFormatVersionWithCustomPartitioning = some ⟨.regular, ['a', 'l', 'l'], 1, 5, 2, 7, false, rfl⟩ := by
  -- by cases on the characters: a decision procedure over a list of characters is deep
  have hall : ∀ c ∈ (⟨.regular, ['a', 'l', 'l'], 1, 5, 2, 7, false, rfl⟩ : MergeTreePartInfo).partitionId,
      c = '-' ∨ c.isAlphanum := by
    intro c hc
    simp only [List.mem_cons, List.not_mem_nil, or_false] at hc
    rcases hc with rfl | rfl | rfl <;> exact .inr rfl
  exact ⟨by decide, hall, by decide,
    tryParsePartName_getPartNameV1.1 _ (by decide) hall (by decide) (.inl ⟨rfl, by decide⟩) (by decide) (by decide)⟩

end MergeTreePartInfo

end ClickHouse.Storages.MergeTree
