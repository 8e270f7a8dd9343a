import ClickHouse.Lib.PathPrefix
import Mathlib

/-! `Common/ZooKeeper/ZooKeeperCommon.cpp`: the path helpers Keeper uses to place a node in its
tree. A path is read as its list of characters; a `std::string_view` position is a list index, and
`std::string::npos` is `none`. `appendPath` is `std::filesystem::path::operator/` on POSIX paths,
as Keeper's tree collector builds a child's path from its parent's. -/

namespace ClickHouse.Common.ZooKeeper

open ClickHouse.Lib.PathPrefix

inductive PathMatchResult
  | notMatch
  | exact
  | isChild
  deriving DecidableEq, Repr

/-- `std::mismatch` over two ranges: what is left of each after their longest common prefix. -/
def mismatch : List Char → List Char → List Char × List Char
  | a :: as, b :: bs => if a = b then mismatch as bs else (a :: as, b :: bs)
  | as, bs => (as, bs)

lemma mismatch_cons_cons (a b : Char) (as bs : List Char) :
    mismatch (a :: as) (b :: bs) = if a = b then mismatch as bs else (a :: as, b :: bs) := rfl

@[simp] lemma mismatch_nil_left (bs : List Char) : mismatch [] bs = ([], bs) := by
  cases bs <;> rfl

@[simp] lemma mismatch_nil_right (as : List Char) : mismatch as [] = (as, []) := by
  cases as <;> rfl

/-- `if (path.ends_with('/')) path.remove_suffix(1)`. -/
def removeTrailingSlash (path : List Char) : List Char :=
  if path.getLast? = some '/' then path.dropLast else path

def matchPath (path matchTo : String) : PathMatchResult :=
  match mismatch (removeTrailingSlash path.toList) (removeTrailingSlash matchTo.toList) with
  | (_, _ :: _) => .notMatch
  | ([], []) => .exact
  | (c :: _, []) => if c = '/' then .isChild else .notMatch

/-- The loop of `findLastSlash`, from position `i` down to position 0. -/
def findLastSlashFrom (path : List Char) : ℕ → Option ℕ
  | 0 => if path[0]? = some '/' then some 0 else none
  | i + 1 => if path[i + 1]? = some '/' then some (i + 1) else findLastSlashFrom path i

lemma findLastSlashFrom_zero (path : List Char) :
    findLastSlashFrom path 0 = if path[0]? = some '/' then some 0 else none := rfl

lemma findLastSlashFrom_succ (path : List Char) (i : ℕ) :
    findLastSlashFrom path (i + 1) = if path[i + 1]? = some '/' then some (i + 1) else findLastSlashFrom path i :=
  rfl

def findLastSlash (path : List Char) : Option ℕ :=
  if path = [] then none else findLastSlashFrom path (path.length - 1)

def parentNodePath (path : String) : String :=
  match findLastSlash path.toList with
  -- `npos` is above 0, and `substr(0, npos)` is the whole path
  | none => path
  | some 0 => "/"
  | some i => String.ofList (path.toList.take i)

def getBaseNodeName (path : String) : String :=
  match findLastSlash path.toList with
  -- `npos + 1` wraps to 0
  | none => path
  | some i => String.ofList (path.toList.drop (i + 1))

/-- `(std::filesystem::path(parent) / name).generic_string()`: an absolute `name` replaces the
path; otherwise a separator goes between them when `parent` has a file name, that is, when it is
not empty and does not end with a separator. -/
def appendPath (parent name : String) : String :=
  if name.toList.head? = some '/' then name
  else if parent.toList ≠ [] ∧ parent.toList.getLast? ≠ some '/' then parent ++ "/" ++ name
  else parent ++ name

/-! ### `matchPath` is the order of the tree -/

lemma mismatch_append_left (p x : List Char) : mismatch (p ++ x) p = (x, []) := by
  induction p with
  | nil => cases x <;> rfl
  | cons c p ih => rw [List.cons_append, mismatch_cons_cons, if_pos rfl, ih]

/-- What `mismatch` leaves of both lists follows a common prefix. -/
lemma mismatch_eq {a b x y : List Char} (h : mismatch a b = (x, y)) : ∃ c, a = c ++ x ∧ b = c ++ y := by
  induction a generalizing b with
  | nil => exact ⟨[], by simp_all⟩
  | cons d a ih =>
    cases b with
    | nil => exact ⟨[], by simp_all⟩
    | cons e b =>
      rw [mismatch_cons_cons] at h
      split_ifs at h with hde
      · obtain ⟨c, rfl, rfl⟩ := ih h
        exact ⟨d :: c, rfl, by rw [hde]; rfl⟩
      · obtain ⟨rfl, rfl⟩ := Prod.mk.inj h
        exact ⟨[], rfl, rfl⟩

/-- A path matches another, exactly or as a child, when it lies below it once the trailing
separators are removed. -/
theorem matchPath_ne_notMatch_iff {path matchTo : String} :
    matchPath path matchTo ≠ .notMatch ↔
      Below '/' (removeTrailingSlash path.toList) (removeTrailingSlash matchTo.toList) := by
  unfold matchPath
  generalize removeTrailingSlash path.toList = a
  generalize removeTrailingSlash matchTo.toList = b
  constructor
  · intro hm
    rcases hmis : mismatch a b with ⟨x, y⟩
    obtain ⟨c, rfl, rfl⟩ := mismatch_eq hmis
    rw [hmis] at hm
    rcases x with _ | ⟨d, x⟩ <;> rcases y with _ | ⟨e, y⟩
    · exact .inl (by simp)
    · exact absurd rfl hm
    · dsimp only at hm
      split_ifs at hm with hd
      · subst hd
        exact .inr ⟨x, by simp⟩
      · exact absurd rfl hm
    · exact absurd rfl hm
  · rintro (rfl | ⟨r, rfl⟩)
    · have h := mismatch_append_left a []
      rw [List.append_nil] at h
      simp [h]
    · simp [mismatch_append_left]

lemma below_of_matchPath_eq_isChild {path matchTo : String} (h : matchPath path matchTo = .isChild) :
    Below '/' (removeTrailingSlash path.toList) (removeTrailingSlash matchTo.toList) :=
  matchPath_ne_notMatch_iff.mp (by rw [h]; decide)

lemma removeTrailingSlash_of_getLast_ne {p : List Char} (h : p.getLast? ≠ some '/') :
    removeTrailingSlash p = p := by
  unfold removeTrailingSlash
  rw [if_neg h]

lemma removeTrailingSlash_append_slash (p : List Char) : removeTrailingSlash (p ++ ['/']) = p := by
  unfold removeTrailingSlash
  rw [if_pos (by simp), List.dropLast_concat]

/-- Only the empty path and `/` become empty. -/
lemma removeTrailingSlash_eq_nil_iff {p : List Char} : removeTrailingSlash p = [] ↔ p = [] ∨ p = ['/'] := by
  unfold removeTrailingSlash
  rcases p with _ | ⟨a, _ | ⟨b, p⟩⟩
  · simp
  · simp
  · split_ifs <;> simp

/-- Removing a trailing separator from `p/n` leaves a path below `p`. -/
lemma below_removeTrailingSlash_append (p n : List Char) :
    Below '/' (removeTrailingSlash (p ++ '/' :: n)) p := by
  unfold removeTrailingSlash
  split_ifs with h
  · rcases List.eq_nil_or_concat n with rfl | ⟨n', c, rfl⟩
    · rw [List.dropLast_concat]
      exact below_refl p
    · rw [List.concat_eq_append, ← List.cons_append, ← List.append_assoc, List.dropLast_concat]
      exact below_append_sep p n'
  · exact below_append_sep p n

/-- A child path that the collector builds from a non-empty parent and a relative name lies
below the parent. -/
theorem below_appendPath {parent name : String} (hp : parent ≠ "") (hn : name.toList.head? ≠ some '/') :
    Below '/' (removeTrailingSlash (appendPath parent name).toList) (removeTrailingSlash parent.toList) := by
  have hp' : parent.toList ≠ [] := by rwa [ne_eq, String.toList_eq_nil_iff]
  unfold appendPath
  rw [if_neg hn]
  split_ifs with hf
  · have hsep : ("/" : String).toList = ['/'] := by decide
    rw [String.toList_append, String.toList_append, hsep, removeTrailingSlash_of_getLast_ne hf.2,
      List.append_assoc, List.singleton_append]
    exact below_removeTrailingSlash_append _ _
  · -- the parent ends with a separator: `parent ++ name` is the parent without it, `/`, `name`
    obtain ⟨p, c, hpc⟩ := (List.eq_nil_or_concat parent.toList).resolve_left hp'
    have hc : c = '/' := by
      by_contra hc
      exact hf ⟨hp', by simp [hpc, hc]⟩
    rw [String.toList_append, hpc, hc, List.concat_eq_append, removeTrailingSlash_append_slash,
      List.append_assoc, List.singleton_append]
    exact below_removeTrailingSlash_append _ _

/-- `p` is in the subtree of `root`: a non-empty path below it once trailing separators are
removed. -/
def InSubtree (root p : String) : Prop :=
  p ≠ "" ∧ Below '/' (removeTrailingSlash p.toList) (removeTrailingSlash root.toList)

lemma inSubtree_self {root : String} (h : root ≠ "") : InSubtree root root :=
  ⟨h, below_refl _⟩

lemma inSubtree_of_matchPath_eq_isChild {root p : String} (h : matchPath p root = .isChild) :
    InSubtree root p := by
  refine ⟨?_, below_of_matchPath_eq_isChild h⟩
  -- the empty path matches the root exactly or not at all
  rintro rfl
  have h0 : removeTrailingSlash ("" : String).toList = [] := by decide
  rw [matchPath, h0] at h
  rcases hb : removeTrailingSlash root.toList with _ | ⟨c, b⟩ <;> simp [hb] at h

lemma appendPath_ne_empty {parent name : String} (hp : parent ≠ "") (hn : name.toList.head? ≠ some '/') :
    appendPath parent name ≠ "" := by
  unfold appendPath
  rw [if_neg hn]
  split_ifs <;> simp [hp]

/-- The collector's child path of a node in the subtree is in the subtree. -/
lemma InSubtree.appendPath {root p name : String} (h : InSubtree root p) (hn : name.toList.head? ≠ some '/') :
    InSubtree root (appendPath p name) :=
  ⟨appendPath_ne_empty h.1 hn, (below_appendPath h.1 hn).trans h.2⟩

/-! ### Depth -/

/-- The separators of a path count its levels. -/
def depth (p : String) : ℕ := p.toList.count '/'

lemma findLastSlashFrom_eq_some {p : List Char} : ∀ {n i : ℕ}, findLastSlashFrom p n = some i → p[i]? = some '/'
  | 0, i, h => by
    rw [findLastSlashFrom_zero] at h
    split_ifs at h with h0
    cases h
    exact h0
  | n + 1, i, h => by
    rw [findLastSlashFrom_succ] at h
    split_ifs at h with h0
    · cases h
      exact h0
    · exact findLastSlashFrom_eq_some h

lemma findLastSlashFrom_eq_none {p : List Char} : ∀ {n : ℕ}, findLastSlashFrom p n = none →
    ∀ j ≤ n, p[j]? ≠ some '/'
  | 0, h, j, hj => by
    rw [findLastSlashFrom_zero] at h
    split_ifs at h with h0
    rw [Nat.le_zero.mp hj]
    exact h0
  | n + 1, h, j, hj => by
    rw [findLastSlashFrom_succ] at h
    split_ifs at h with h0
    rcases Nat.lt_or_eq_of_le hj with hlt | rfl
    · exact findLastSlashFrom_eq_none h j (by omega)
    · exact h0

lemma not_mem_of_findLastSlash_eq_none {p : List Char} (h : findLastSlash p = none) : '/' ∉ p := by
  unfold findLastSlash at h
  split_ifs at h with hnil
  · rw [hnil]
    exact List.not_mem_nil
  · intro hmem
    obtain ⟨j, hj, hget⟩ := List.mem_iff_getElem.mp hmem
    exact findLastSlashFrom_eq_none h j (by omega) (List.getElem?_eq_some_iff.mpr ⟨hj, hget⟩)

/-- The part before a separator has at least one separator fewer. -/
lemma count_take_lt {p : List Char} {i : ℕ} (h : p[i]? = some '/') : (p.take i).count '/' + 1 ≤ p.count '/' := by
  obtain ⟨hi, hget⟩ := List.getElem?_eq_some_iff.mp h
  have hsplit : p = p.take i ++ '/' :: p.drop (i + 1) := by
    rw [← hget, ← List.drop_eq_getElem_cons hi, List.take_append_drop]
  conv_rhs => rw [hsplit]
  rw [List.count_append, List.count_cons_self]
  omega

/-- A path whose parent is neither `/` nor without separators lies one level below its parent or
further. -/
lemma depth_parentNodePath {e : String} (hroot : parentNodePath e ≠ "/") (hpos : 1 ≤ depth (parentNodePath e)) :
    depth (parentNodePath e) + 1 ≤ depth e := by
  rcases hf : findLastSlash e.toList with _ | _ | i
  · -- no separator: the parent is the path itself, of depth zero
    have hparent : parentNodePath e = e := by
      unfold parentNodePath
      rw [hf]
    have hzero : depth e = 0 := List.count_eq_zero.mpr (not_mem_of_findLastSlash_eq_none hf)
    rw [hparent, hzero] at hpos
    omega
  · exact absurd (by unfold parentNodePath; simp [hf]) hroot
  · have hparent : parentNodePath e = String.ofList (e.toList.take (i + 1)) := by
      unfold parentNodePath
      simp [hf]
    have hsome : findLastSlashFrom e.toList (e.toList.length - 1) = some (i + 1) := by
      unfold findLastSlash at hf
      split_ifs at hf
      exact hf
    unfold depth
    rw [hparent, String.toList_ofList]
    exact count_take_lt (findLastSlashFrom_eq_some hsome)

lemma appendPath_root {name : String} (hn : name.toList.head? ≠ some '/') : appendPath "/" name = "/" ++ name := by
  unfold appendPath
  rw [if_neg hn, if_neg (by decide)]

/-- Below a path of some depth, the collector's child path is at least two levels deep unless the
path is `/` itself. -/
lemma two_le_depth_appendPath {parent name : String} (hn : name.toList.head? ≠ some '/')
    (hpos : 1 ≤ depth parent) (hslash : parent.toList.getLast? = some '/' → 2 ≤ depth parent) :
    2 ≤ depth (appendPath parent name) := by
  unfold appendPath
  rw [if_neg hn]
  split_ifs with hsep
  · unfold depth at hpos ⊢
    simp only [String.toList_append, List.count_append] at hpos ⊢
    have hone : ("/" : String).toList.count '/' = 1 := by decide
    omega
  · -- an empty parent has no separator, so the parent ends in one
    have hnil : parent.toList ≠ [] := fun h => by
      unfold depth at hpos
      simp [h] at hpos
    have hlast : parent.toList.getLast? = some '/' := by
      by_contra hne
      exact hsep ⟨hnil, hne⟩
    have h2 := hslash hlast
    unfold depth at h2 ⊢
    simp only [String.toList_append, List.count_append] at h2 ⊢
    omega

lemma depth_root_append {name : String} (hslash : '/' ∉ name.toList) : depth ("/" ++ name) = 1 := by
  unfold depth
  rw [String.toList_append, List.count_append, List.count_eq_zero.mpr hslash]
  rfl

/-! ### The parent of a path with a name appended -/

lemma findLastSlashFrom_append_of_lt {p d : List Char} : ∀ {n : ℕ}, n < p.length →
    findLastSlashFrom (p ++ d) n = findLastSlashFrom p n
  | 0, h => by rw [findLastSlashFrom_zero, findLastSlashFrom_zero, List.getElem?_append_left h]
  | n + 1, h => by
    rw [findLastSlashFrom_succ, findLastSlashFrom_succ, List.getElem?_append_left h, findLastSlashFrom_append_of_lt (by omega)]

lemma findLastSlashFrom_append_skip {p d : List Char} (hd : '/' ∉ d) (hp : p ≠ []) : ∀ k ≤ d.length,
    findLastSlashFrom (p ++ d) (p.length - 1 + k) = findLastSlashFrom p (p.length - 1)
  | 0, _ => findLastSlashFrom_append_of_lt (by have := List.length_pos_iff.mpr hp; omega)
  | k + 1, hk => by
    have hlen := List.length_pos_iff.mpr hp
    -- the characters past `p` are not separators
    have hget : (p ++ d)[p.length - 1 + k + 1]? ≠ some '/' := by
      rw [List.getElem?_append_right (by omega), show p.length - 1 + k + 1 - p.length = k by omega]
      exact fun h => hd (List.mem_of_getElem? h)
    rw [← Nat.add_assoc, findLastSlashFrom_succ, if_neg hget, findLastSlashFrom_append_skip hd hp k (by omega)]

lemma findLastSlash_append {p d : List Char} (hd : '/' ∉ d) (hp : p ≠ []) :
    findLastSlash (p ++ d) = findLastSlash p := by
  have hlen := List.length_pos_iff.mpr hp
  unfold findLastSlash
  rw [if_neg (by simp [hp]), if_neg hp, List.length_append,
    show p.length + d.length - 1 = p.length - 1 + d.length by omega, findLastSlashFrom_append_skip hd hp _ le_rfl]

lemma mem_of_mem_parentNodePath {p : String} (h : '/' ∈ (parentNodePath p).toList) : '/' ∈ p.toList := by
  rcases hf : findLastSlash p.toList with _ | i
  · unfold parentNodePath at h
    rwa [hf] at h
  · unfold findLastSlash at hf
    split_ifs at hf
    exact List.mem_of_getElem? (findLastSlashFrom_eq_some hf)

lemma parentNodePath_append {p d : String} (hd : '/' ∉ d.toList) (hp : '/' ∈ p.toList) :
    parentNodePath (p ++ d) = parentNodePath p := by
  have hne : p.toList ≠ [] := List.ne_nil_of_mem hp
  unfold parentNodePath
  rw [String.toList_append, findLastSlash_append hd hne]
  rcases hf : findLastSlash p.toList with _ | _ | i
  · exact absurd hp (not_mem_of_findLastSlash_eq_none hf)
  · rfl
  · -- the last separator lies within `p`
    have hlt : i + 1 < p.toList.length := by
      unfold findLastSlash at hf
      split_ifs at hf
      exact (List.getElem?_eq_some_iff.mp (findLastSlashFrom_eq_some hf)).1
    show String.ofList ((p.toList ++ d.toList).take (i + 1)) = String.ofList (p.toList.take (i + 1))
    rw [List.take_append_of_le_length hlt.le]

end ClickHouse.Common.ZooKeeper
