import ClickHouse.Lib.SortedMap
import ClickHouse.Storages.MergeTree.MergeTreePartInfo
import Mathlib.Data.List.DropRight
import Mathlib.Data.List.Pairwise

/-! `Storages/MergeTree/ActiveDataPartSet.{h,cpp}`: the active parts of a table, kept in the
`std::map` from part info to part name ordered by `MergeTreePartInfo::operator<=>`. The map is the
list of its entries in key order. A method that throws leaves the map as it was when it threw, so
every method returns its result and the set after it. -/

namespace ClickHouse.Storages.MergeTree

open ClickHouse.Common ClickHouse.Lib.SortedMap MergeTreePartInfo

inductive AddPartOutcome
  | added
  | hasCovering
  | hasIntersectingPart
  deriving DecidableEq, Repr

structure ActiveDataPartSet where
  formatVersion : ℕ
  partInfoToName : List (MergeTreePartInfo × List Char)

namespace ActiveDataPartSet

/-! ### The map operations -/

def getContainingPartImpl (p : MergeTreePartInfo) (entries : List (MergeTreePartInfo × List Char)) :
    Option (MergeTreePartInfo × List Char) :=
  -- the entry at `lower_bound(p)`, then the one before it
  ((lowerBound toTuple p.toTuple entries).2.head?.filter (fun e => decide (e.1.contains p))).or
    ((lowerBound toTuple p.toTuple entries).1.getLast?.filter (fun e => decide (e.1.contains p)))

/-- The entries before `lower_bound(p)` that the left loop of `addImpl` keeps: it erases the run of
parts `p` contains just before `lower_bound(p)`. -/
def keptLeft (p : MergeTreePartInfo) (entries : List (MergeTreePartInfo × List Char)) :
    List (MergeTreePartInfo × List Char) :=
  (lowerBound toTuple p.toTuple entries).1.rdropWhile (fun e => decide (p.contains e.1))

/-- The entries from `lower_bound(p)` on that the right loop of `addImpl` keeps. -/
def keptRight (p : MergeTreePartInfo) (entries : List (MergeTreePartInfo × List Char)) :
    List (MergeTreePartInfo × List Char) :=
  (lowerBound toTuple p.toTuple entries).2.dropWhile (fun e => decide (p.contains e.1))

def addImpl (p : MergeTreePartInfo) (name : List Char) (entries : List (MergeTreePartInfo × List Char)) :
    AddPartOutcome × List (MergeTreePartInfo × List Char) :=
  if (getContainingPartImpl p entries).isSome then (.hasCovering, entries)
  -- the first part the left loop does not erase must be disjoint from `p`; the erasures stay
  else if ∃ e ∈ (keptLeft p entries).getLast?, ¬ p.isDisjoint e.1 then
    (.hasIntersectingPart, keptLeft p entries ++ (lowerBound toTuple p.toTuple entries).2)
  else if ∃ e ∈ (keptRight p entries).head?, ¬ p.isDisjoint e.1 then
    (.hasIntersectingPart, keptLeft p entries ++ keptRight p entries)
  else (.added, emplace toTuple p name (keptLeft p entries ++ keptRight p entries))

/-- `getPartsCoveredByImpl`: the run of entries `p` contains around `lower_bound(p)`, or none when
the entry next to that run contains `p`. -/
def getPartsCoveredByImpl (p : MergeTreePartInfo) (entries : List (MergeTreePartInfo × List Char)) :
    List (MergeTreePartInfo × List Char) :=
  if ∃ e ∈ (keptLeft p entries).getLast?, e.1.contains p then []
  else if ∃ e ∈ (keptRight p entries).head?, e.1.contains p then []
  else (lowerBound toTuple p.toTuple entries).1.rtakeWhile (fun e => decide (p.contains e.1)) ++
    (lowerBound toTuple p.toTuple entries).2.takeWhile (fun e => decide (p.contains e.1))

/-! ### The methods -/

variable (s : ActiveDataPartSet)

def getContainingPart (p : MergeTreePartInfo) : List Char :=
  match getContainingPartImpl p s.partInfoToName with
  | some e => e.2
  | none => []

def getPartsCoveredBy (p : MergeTreePartInfo) : List (List Char) :=
  (getPartsCoveredByImpl p s.partInfoToName).map Prod.snd

/-- `add(part_info, name)`: an intersecting part is a logical error, thrown after the left loop of
`addImpl` has erased what it erased. -/
def add (p : MergeTreePartInfo) (name : List Char) : Except ErrorCode Bool × ActiveDataPartSet :=
  let (outcome, entries) := addImpl p name s.partInfoToName
  if outcome = .hasIntersectingPart then (.error .logicalError, { s with partInfoToName := entries })
  else (.ok (decide (outcome = .added)), { s with partInfoToName := entries })

/-- `add(name)`. -/
def addByName (name : List Char) : Except ErrorCode Bool × ActiveDataPartSet :=
  match fromPartName name s.formatVersion with
  | .error e => (.error e, s)
  | .ok p => s.add p name

/-- `add(part_info)`. -/
def addInfo (p : MergeTreePartInfo) : Except ErrorCode Bool × ActiveDataPartSet :=
  match p.getPartNameAndCheckFormat s.formatVersion with
  | .error e => (.error e, s)
  | .ok name => s.add p name

def tryAddPart (p : MergeTreePartInfo) : Except ErrorCode AddPartOutcome × ActiveDataPartSet :=
  match p.getPartNameAndCheckFormat s.formatVersion with
  | .error e => (.error e, s)
  | .ok name =>
    let (outcome, entries) := addImpl p name s.partInfoToName
    (.ok outcome, { s with partInfoToName := entries })

def tryAdd (name : List Char) : Except ErrorCode AddPartOutcome × ActiveDataPartSet :=
  match fromPartName name s.formatVersion with
  | .error e => (.error e, s)
  | .ok p =>
    let (outcome, entries) := addImpl p name s.partInfoToName
    (.ok outcome, { s with partInfoToName := entries })

def remove (p : MergeTreePartInfo) : Bool × ActiveDataPartSet :=
  (s.partInfoToName.any (fun e => decide (e.1.toTuple = p.toTuple)),
    { s with partInfoToName := erase toTuple p.toTuple s.partInfoToName })

/-- `remove(part_name)`. -/
def removeByName (name : List Char) : Except ErrorCode Bool × ActiveDataPartSet :=
  match fromPartName name s.formatVersion with
  | .error e => (.error e, s)
  | .ok p => (.ok (s.remove p).1, (s.remove p).2)

/-- The loop `result &= remove(part)` of `removePartAndCoveredParts`; every name is removed, and
the first that does not parse throws. -/
def removeAllByName : ActiveDataPartSet → List (List Char) → Bool → Except ErrorCode Bool × ActiveDataPartSet
  | s, [], result => (.ok result, s)
  | s, name :: names, result =>
    match s.removeByName name with
    | (.error e, s') => (.error e, s')
    | (.ok removed, s') => s'.removeAllByName names (result && removed)

def removePartAndCoveredParts (p : MergeTreePartInfo) : Except ErrorCode Bool × ActiveDataPartSet :=
  (s.remove p).2.removeAllByName (s.getPartsCoveredBy p) (s.remove p).1

/-- `removePartAndCoveredParts(part_name)`. -/
def removePartAndCoveredPartsByName (name : List Char) : Except ErrorCode Bool × ActiveDataPartSet :=
  match fromPartName name s.formatVersion with
  | .error e => (.error e, s)
  | .ok p => s.removePartAndCoveredParts p

/-- The calls that change the set. -/
inductive Call
  | add (p : MergeTreePartInfo) (name : List Char)
  | addByName (name : List Char)
  | addInfo (p : MergeTreePartInfo)
  | tryAddPart (p : MergeTreePartInfo)
  | tryAdd (name : List Char)
  | remove (p : MergeTreePartInfo)
  | removeByName (name : List Char)
  | removePartAndCoveredParts (p : MergeTreePartInfo)
  | removePartAndCoveredPartsByName (name : List Char)

/-- The part info a call passes to `addImpl` as the caller gave it, not parsed from a name. -/
def Call.givenInfo : Call → Option MergeTreePartInfo
  | .add p _ | .addInfo p | .tryAddPart p => some p
  | _ => none

/-- The set after a call, whether the call returned or threw. -/
def call : Call → ActiveDataPartSet
  | .add p name => (s.add p name).2
  | .addByName name => (s.addByName name).2
  | .addInfo p => (s.addInfo p).2
  | .tryAddPart p => (s.tryAddPart p).2
  | .tryAdd name => (s.tryAdd name).2
  | .remove p => (s.remove p).2
  | .removeByName name => (s.removeByName name).2
  | .removePartAndCoveredParts p => (s.removePartAndCoveredParts p).2
  | .removePartAndCoveredPartsByName name => (s.removePartAndCoveredPartsByName name).2

def run (calls : List Call) : ActiveDataPartSet :=
  calls.foldl call s

/-! ### The invariant of the map -/

/-- What the map keeps between calls when every part added has ordered blocks: keys in increasing
order, ordered blocks, and every two parts disjoint. -/
structure Invariant (entries : List (MergeTreePartInfo × List Char)) : Prop where
  sorted : Sorted toTuple entries
  ordered : ∀ e ∈ entries, e.1.minBlock ≤ e.1.maxBlock
  disjoint : entries.Pairwise (fun a b => a.1.isDisjoint b.1)

section Invariant

variable {p : MergeTreePartInfo} {entries : List (MergeTreePartInfo × List Char)}

lemma Invariant.nil : Invariant [] :=
  ⟨List.Pairwise.nil, fun _ he => absurd he List.not_mem_nil, List.Pairwise.nil⟩

lemma Invariant.sublist {entries' : List (MergeTreePartInfo × List Char)} (h : Invariant entries)
    (hsub : List.Sublist entries' entries) : Invariant entries' :=
  ⟨h.sorted.sublist hsub, fun e he => h.ordered e (hsub.subset he), h.disjoint.sublist hsub⟩

lemma Invariant.isDisjoint_of_ne (h : Invariant entries) {a b : MergeTreePartInfo × List Char}
    (ha : a ∈ entries) (hb : b ∈ entries) (hne : a ≠ b) : a.1.isDisjoint b.1 := by
  have : Std.Symm (fun a b : MergeTreePartInfo × List Char => a.1.isDisjoint b.1) :=
    ⟨fun _ _ h => h.symm⟩
  exact h.disjoint.forall ha hb hne

/-! ### Looking up the part that contains a part -/

lemma getContainingPartImpl_sound {e : MergeTreePartInfo × List Char}
    (h : getContainingPartImpl p entries = some e) : e ∈ entries ∧ e.1.contains p := by
  rw [getContainingPartImpl, Option.or_eq_some_iff] at h
  rcases h with h | ⟨-, h⟩
  · obtain ⟨hhead, hcontains⟩ := Option.filter_eq_some_iff.mp h
    exact ⟨mem_of_mem_lowerBound_snd (List.mem_of_mem_head? hhead), of_decide_eq_true hcontains⟩
  · obtain ⟨hlast, hcontains⟩ := Option.filter_eq_some_iff.mp h
    exact ⟨mem_of_mem_lowerBound_fst (List.mem_of_getLast? hlast), of_decide_eq_true hcontains⟩

/-- An entry from `lower_bound(p)` on that contains `p` is the one at `lower_bound(p)`: a later one
would start where that one starts and so meet it. -/
lemma head?_lowerBound_of_contains (h : Invariant entries) {e : MergeTreePartInfo × List Char}
    (he : e ∈ (lowerBound toTuple p.toTuple entries).2) (hcontains : e.1.contains p) :
    (lowerBound toTuple p.toTuple entries).2.head? = some e := by
  have hsub : List.Sublist (lowerBound toTuple p.toTuple entries).2 entries :=
    sublist_lowerBound_snd p.toTuple entries
  cases hright : (lowerBound toTuple p.toTuple entries).2 with
  | nil =>
    rw [hright] at he
    cases he
  | cons b rest =>
    rw [hright] at he hsub
    rcases List.mem_cons.mp he with rfl | hrest
    · rfl
    · have hinv := h.sublist hsub
      have hb : b ∈ (lowerBound toTuple p.toTuple entries).2 := by
        rw [hright]
        exact List.mem_cons_self
      exact absurd ((List.pairwise_cons.mp hinv.disjoint).1 e hrest)
        (not_isDisjoint_of_le_of_contains (hinv.ordered b List.mem_cons_self)
          (hinv.ordered e (List.mem_cons_of_mem _ hrest)) (le_of_mem_lowerBound_snd h.sorted hb)
          ((List.pairwise_cons.mp hinv.sorted).1 e hrest).le hcontains)

/-- An entry before `lower_bound(p)` that contains `p`, for `p` with ordered blocks, is the last one
before it: an earlier one would meet that one. -/
lemma getLast?_lowerBound_of_contains (h : Invariant entries) (hp : p.minBlock ≤ p.maxBlock)
    {e : MergeTreePartInfo × List Char} (he : e ∈ (lowerBound toTuple p.toTuple entries).1)
    (hcontains : e.1.contains p) : (lowerBound toTuple p.toTuple entries).1.getLast? = some e := by
  obtain ⟨init, a, hleft⟩ := (List.eq_nil_or_concat' _).resolve_left (List.ne_nil_of_mem he)
  have hsub : List.Sublist (lowerBound toTuple p.toTuple entries).1 entries :=
    sublist_lowerBound_fst p.toTuple entries
  have ha : a ∈ (lowerBound toTuple p.toTuple entries).1 := by
    rw [hleft]
    exact List.mem_concat_self
  rw [hleft] at he hsub ⊢
  rw [List.getLast?_concat]
  rcases List.mem_append.mp he with hinit | hlast
  · have hinv := h.sublist hsub
    have hmem : a ∈ [a] := List.mem_singleton_self a
    exact absurd ((List.pairwise_append.mp hinv.disjoint).2.2 e hinit a hmem)
      (not_isDisjoint_of_contains_of_le hp (hinv.ordered a (List.mem_append_right _ hmem))
        (hinv.sorted.lt_of_append hinit hmem).le (lt_of_mem_lowerBound_fst ha).le hcontains)
  · rw [List.mem_singleton.mp hlast]

/-- Under the invariant the two-neighbour lookup is complete for parts with ordered blocks. -/
lemma getContainingPartImpl_isSome (h : Invariant entries) (hp : p.minBlock ≤ p.maxBlock)
    {e : MergeTreePartInfo × List Char} (he : e ∈ entries) (hcontains : e.1.contains p) :
    (getContainingPartImpl p entries).isSome := by
  rw [← lowerBound_append toTuple p.toTuple entries] at he
  rcases List.mem_append.mp he with hleft | hright
  · rw [getContainingPartImpl, getLast?_lowerBound_of_contains h hp hleft hcontains]
    cases (lowerBound toTuple p.toTuple entries).2.head?.filter (fun e => decide (e.1.contains p)) <;>
      simp [hcontains]
  · rw [getContainingPartImpl, head?_lowerBound_of_contains h hright hcontains]
    simp [hcontains]

lemma getContainingPartImpl_eq_some_iff (h : Invariant entries) (hp : p.minBlock ≤ p.maxBlock) :
    (∃ e, getContainingPartImpl p entries = some e ∧ e ∈ entries ∧ e.1.contains p) ↔
      ∃ e ∈ entries, e.1.contains p := by
  constructor
  · rintro ⟨e, -, he, hcontains⟩
    exact ⟨e, he, hcontains⟩
  · rintro ⟨e, he, hcontains⟩
    obtain ⟨e', he'⟩ := Option.isSome_iff_exists.mp (getContainingPartImpl_isSome h hp he hcontains)
    exact ⟨e', he', getContainingPartImpl_sound he'⟩

/-! ### Adding a part -/

lemma sublist_keptLeft (p : MergeTreePartInfo) (entries : List (MergeTreePartInfo × List Char)) :
    List.Sublist (keptLeft p entries) entries :=
  (List.rdropWhile_prefix _ _).sublist.trans (sublist_lowerBound_fst p.toTuple entries)

lemma sublist_keptLeft_append (p : MergeTreePartInfo) (entries : List (MergeTreePartInfo × List Char)) :
    List.Sublist (keptLeft p entries ++ (lowerBound toTuple p.toTuple entries).2) entries := by
  have h := ((List.rdropWhile_prefix (fun e => decide (p.contains e.1))
    (lowerBound toTuple p.toTuple entries).1).sublist.append
      (List.Sublist.refl (lowerBound toTuple p.toTuple entries).2))
  rwa [lowerBound_append] at h

lemma sublist_kept (p : MergeTreePartInfo) (entries : List (MergeTreePartInfo × List Char)) :
    List.Sublist (keptLeft p entries ++ keptRight p entries) entries :=
  (List.Sublist.refl _).append (List.dropWhile_sublist _) |>.trans (sublist_keptLeft_append p entries)

/-- The left loop erases only parts `p` contains. -/
lemma mem_keptLeft_or_contains {e : MergeTreePartInfo × List Char}
    (he : e ∈ (lowerBound toTuple p.toTuple entries).1) : e ∈ keptLeft p entries ∨ p.contains e.1 := by
  have hsplit : keptLeft p entries ++ (lowerBound toTuple p.toTuple entries).1.rtakeWhile
      (fun e => decide (p.contains e.1)) = (lowerBound toTuple p.toTuple entries).1 :=
    List.rdropWhile_append_rtakeWhile
  rw [← hsplit] at he
  rcases List.mem_append.mp he with he | he
  · exact .inl he
  · have hcontains := List.mem_rtakeWhile_imp he
    exact .inr (of_decide_eq_true hcontains)

/-- The right loop erases only parts `p` contains. -/
lemma mem_keptRight_or_contains {e : MergeTreePartInfo × List Char}
    (he : e ∈ (lowerBound toTuple p.toTuple entries).2) : e ∈ keptRight p entries ∨ p.contains e.1 := by
  have hsplit : (lowerBound toTuple p.toTuple entries).2.takeWhile (fun e => decide (p.contains e.1)) ++
      keptRight p entries = (lowerBound toTuple p.toTuple entries).2 :=
    List.takeWhile_append_dropWhile
  rw [← hsplit] at he
  rcases List.mem_append.mp he with he | he
  · have hcontains := List.mem_takeWhile_imp he
    exact .inr (of_decide_eq_true hcontains)
  · exact .inl he

/-- The entries the left loop keeps are disjoint from `p` once the last of them is: the earlier
ones end before that one starts. -/
lemma isDisjoint_of_mem_keptLeft (h : Invariant entries) (hp : p.minBlock ≤ p.maxBlock)
    (hlast : ∀ e ∈ (keptLeft p entries).getLast?, p.isDisjoint e.1) {e : MergeTreePartInfo × List Char}
    (he : e ∈ keptLeft p entries) : p.isDisjoint e.1 := by
  obtain ⟨init, a, hleft⟩ := (List.eq_nil_or_concat' _).resolve_left (List.ne_nil_of_mem he)
  have hpa : p.isDisjoint a.1 := hlast a (by rw [hleft, List.getLast?_concat]; rfl)
  have hsub := sublist_keptLeft p entries
  have ha : a ∈ (lowerBound toTuple p.toTuple entries).1 :=
    (List.rdropWhile_prefix _ _).subset (hleft ▸ List.mem_concat_self)
  rw [hleft] at he hsub
  rcases List.mem_append.mp he with hinit | hlast'
  · have hinv := h.sublist hsub
    have hmem : a ∈ [a] := List.mem_singleton_self a
    exact (isDisjoint_of_toTuple_le_of_le (hinv.ordered a (List.mem_append_right _ hmem)) hp
      (hinv.sorted.lt_of_append hinit hmem).le (lt_of_mem_lowerBound_fst ha).le
      ((List.pairwise_append.mp hinv.disjoint).2.2 e hinit a hmem) hpa.symm).symm
  · rw [List.mem_singleton.mp hlast']
    exact hpa

/-- The entries the right loop keeps are disjoint from `p` once the first of them is: the later
ones start after that one ends. -/
lemma isDisjoint_of_mem_keptRight (h : Invariant entries)
    (hhead : ∀ e ∈ (keptRight p entries).head?, p.isDisjoint e.1) {e : MergeTreePartInfo × List Char}
    (he : e ∈ keptRight p entries) : p.isDisjoint e.1 := by
  have hsub : List.Sublist (keptRight p entries) entries :=
    (List.dropWhile_sublist _).trans (sublist_lowerBound_snd p.toTuple entries)
  have hsuffix : List.Sublist (keptRight p entries) (lowerBound toTuple p.toTuple entries).2 :=
    List.dropWhile_sublist _
  cases hright : keptRight p entries with
  | nil =>
    rw [hright] at he
    cases he
  | cons b rest =>
    have hpb : p.isDisjoint b.1 := hhead b (by rw [hright]; rfl)
    rw [hright] at he hsub hsuffix
    rcases List.mem_cons.mp he with rfl | hrest
    · exact hpb
    · have hinv := h.sublist hsub
      exact isDisjoint_of_toTuple_le_of_le (hinv.ordered b List.mem_cons_self)
        (hinv.ordered e (List.mem_cons_of_mem _ hrest))
        (le_of_mem_lowerBound_snd h.sorted (hsuffix.subset List.mem_cons_self))
        ((List.pairwise_cons.mp hinv.sorted).1 e hrest).le hpb
        ((List.pairwise_cons.mp hinv.disjoint).1 e hrest)

/-- What `addImpl` does, by outcome: nothing when a part contains `p`; the left loop's erasures,
and the right loop's too if it ran, when a part meets `p`; otherwise both erasures and `p` added,
the kept neighbours on both sides being disjoint from it. -/
lemma addImpl_cases (p : MergeTreePartInfo) (name : List Char)
    (entries : List (MergeTreePartInfo × List Char)) :
    ((getContainingPartImpl p entries).isSome ∧ addImpl p name entries = (.hasCovering, entries)) ∨
    ((addImpl p name entries).1 = .hasIntersectingPart ∧
      ((addImpl p name entries).2 = keptLeft p entries ++ (lowerBound toTuple p.toTuple entries).2 ∨
        (addImpl p name entries).2 = keptLeft p entries ++ keptRight p entries)) ∨
    (getContainingPartImpl p entries = none ∧ (∀ e ∈ (keptLeft p entries).getLast?, p.isDisjoint e.1) ∧
      (∀ e ∈ (keptRight p entries).head?, p.isDisjoint e.1) ∧
      addImpl p name entries = (.added, emplace toTuple p name (keptLeft p entries ++ keptRight p entries))) := by
  unfold addImpl
  split_ifs with hcovering hleft hright
  · exact .inl ⟨hcovering, rfl⟩
  · exact .inr (.inl ⟨rfl, .inl rfl⟩)
  · exact .inr (.inl ⟨rfl, .inr rfl⟩)
  · refine .inr (.inr ⟨Option.not_isSome_iff_eq_none.mp hcovering, ?_, ?_, rfl⟩)
    · exact fun e he => not_not.mp fun hne => hleft ⟨e, he, hne⟩
    · exact fun e he => not_not.mp fun hne => hright ⟨e, he, hne⟩

lemma invariant_addImpl (h : Invariant entries) (hp : p.minBlock ≤ p.maxBlock) (name : List Char) :
    Invariant (addImpl p name entries).2 := by
  rcases addImpl_cases p name entries with ⟨-, heq⟩ | ⟨-, heq | heq⟩ | ⟨-, hleft, hright, heq⟩
  · rw [heq]
    exact h
  · rw [heq]
    exact h.sublist (sublist_keptLeft_append p entries)
  · rw [heq]
    exact h.sublist (sublist_kept p entries)
  · rw [heq]
    have hkept := h.sublist (sublist_kept p entries)
    have hdisjoint : ∀ e ∈ keptLeft p entries ++ keptRight p entries, p.isDisjoint e.1 := by
      intro e he
      rcases List.mem_append.mp he with he | he
      · exact isDisjoint_of_mem_keptLeft h hp hleft he
      · exact isDisjoint_of_mem_keptRight h hright he
    refine ⟨sorted_emplace hkept.sorted p name, fun e he => ?_,
      pairwise_emplace (fun hxy => isDisjoint.symm hxy) hkept.disjoint hdisjoint⟩
    rcases mem_emplace he with he | rfl
    · exact hkept.ordered e he
    · exact hp

/-! ### What adding keeps and drops -/

/-- Both loops of `addImpl` erase only parts `p` contains. -/
lemma mem_kept_or_contains {e : MergeTreePartInfo × List Char} (he : e ∈ entries) :
    e ∈ keptLeft p entries ++ keptRight p entries ∨ p.contains e.1 := by
  rw [← lowerBound_append toTuple p.toTuple entries] at he
  rcases List.mem_append.mp he with hleft | hright
  · rcases mem_keptLeft_or_contains hleft with h | h
    · exact .inl (List.mem_append_left _ h)
    · exact .inr h
  · rcases mem_keptRight_or_contains hright with h | h
    · exact .inl (List.mem_append_right _ h)
    · exact .inr h

lemma mem_addImpl_or_contains (name : List Char) {e : MergeTreePartInfo × List Char} (he : e ∈ entries) :
    e ∈ (addImpl p name entries).2 ∨ p.contains e.1 := by
  rcases mem_kept_or_contains he with hkept | hcontains
  · rcases addImpl_cases p name entries with ⟨-, heq⟩ | ⟨-, heq | heq⟩ | ⟨-, -, -, heq⟩
    · rw [heq]
      exact .inl he
    · rw [heq]
      exact .inl (((List.Sublist.refl _).append (List.dropWhile_sublist _)).subset hkept)
    · rw [heq]
      exact .inl hkept
    · rw [heq]
      exact .inl (mem_emplace_of_mem hkept)
  · exact .inr hcontains

lemma mem_of_mem_addImpl {name : List Char} {e : MergeTreePartInfo × List Char}
    (he : e ∈ (addImpl p name entries).2) : e ∈ entries ∨ e = (p, name) := by
  rcases addImpl_cases p name entries with ⟨-, heq⟩ | ⟨-, heq | heq⟩ | ⟨-, -, -, heq⟩
  · rw [heq] at he
    exact .inl he
  · rw [heq] at he
    exact .inl ((sublist_keptLeft_append p entries).subset he)
  · rw [heq] at he
    exact .inl ((sublist_kept p entries).subset he)
  · rw [heq] at he
    rcases mem_emplace he with he | he
    · exact .inl ((sublist_kept p entries).subset he)
    · exact .inr he

/-- Unless `p` meets a part, afterwards some part contains it: the covering one, `p` itself, or an
entry with its key. -/
lemma exists_contains_addImpl {name : List Char} (h : (addImpl p name entries).1 ≠ .hasIntersectingPart) :
    ∃ e ∈ (addImpl p name entries).2, e.1.contains p := by
  rcases addImpl_cases p name entries with ⟨hcovering, heq⟩ | ⟨hout, -⟩ | ⟨-, -, -, heq⟩
  · obtain ⟨e, he⟩ := Option.isSome_iff_exists.mp hcovering
    rw [heq]
    exact ⟨e, getContainingPartImpl_sound he⟩
  · exact absurd hout h
  · rw [heq]
    rcases mem_emplace_self toTuple p name (keptLeft p entries ++ keptRight p entries) with hmem | ⟨e, he, hkey⟩
    · exact ⟨(p, name), hmem, contains_refl p⟩
    · exact ⟨e, mem_emplace_of_mem he, contains_of_toTuple_eq hkey⟩

end Invariant

/-! ### Calls -/

section Calls

variable (s : ActiveDataPartSet)

lemma partInfoToName_add (p : MergeTreePartInfo) (name : List Char) :
    (s.add p name).2.partInfoToName = (addImpl p name s.partInfoToName).2 := by
  cases h : addImpl p name s.partInfoToName with
  | mk outcome entries =>
    simp only [add, h]
    split_ifs <;> rfl

/-- In the custom-partitioning format `tryAddPart` runs `addImpl` under the part's printed name. -/
lemma tryAddPart_of_formatVersion (h : s.formatVersion = minFormatVersionWithCustomPartitioning)
    (p : MergeTreePartInfo) :
    s.tryAddPart p = (.ok (addImpl p p.getPartNameV1 s.partInfoToName).1,
      { s with partInfoToName := (addImpl p p.getPartNameV1 s.partInfoToName).2 }) := by
  simp only [tryAddPart, getPartNameAndCheckFormat, h, if_true]

lemma partInfoToName_tryAddPart_of_ok {p : MergeTreePartInfo} {name : List Char}
    (h : p.getPartNameAndCheckFormat s.formatVersion = .ok name) :
    (s.tryAddPart p).2.partInfoToName = (addImpl p name s.partInfoToName).2 := by
  simp only [tryAddPart, h]

lemma sublist_remove (p : MergeTreePartInfo) :
    List.Sublist (s.remove p).2.partInfoToName s.partInfoToName :=
  erase_sublist _ _

lemma sublist_removeByName (name : List Char) :
    List.Sublist (s.removeByName name).2.partInfoToName s.partInfoToName := by
  unfold removeByName
  split
  · exact List.Sublist.refl _
  · exact sublist_remove s _

/-- The removal loop only erases, also when a name in it throws. -/
lemma sublist_removeAllByName (names : List (List Char)) (result : Bool) :
    List.Sublist (s.removeAllByName names result).2.partInfoToName s.partInfoToName := by
  induction names generalizing s result with
  | nil => exact List.Sublist.refl _
  | cons name names ih =>
    have hremove := sublist_removeByName s name
    unfold removeAllByName
    split
    · rename_i e s' heq
      rw [heq] at hremove
      exact hremove
    · rename_i removed s' heq
      rw [heq] at hremove
      exact (ih s' _).trans hremove

lemma sublist_removePartAndCoveredParts (p : MergeTreePartInfo) :
    List.Sublist (s.removePartAndCoveredParts p).2.partInfoToName s.partInfoToName :=
  (sublist_removeAllByName _ _ _).trans (sublist_remove s p)

/-- What a call does to the map: it only erases, or it runs `addImpl` once, on a part info with
ordered blocks when the caller gave one or when it was parsed from a name. -/
lemma call_cases (c : Call) (hc : ∀ p ∈ c.givenInfo, p.minBlock ≤ p.maxBlock) :
    List.Sublist (s.call c).partInfoToName s.partInfoToName ∨
      ∃ p name, p.minBlock ≤ p.maxBlock ∧ (s.call c).partInfoToName = (addImpl p name s.partInfoToName).2 := by
  cases c with
  | add p name => exact .inr ⟨p, name, hc p rfl, partInfoToName_add s p name⟩
  | addByName name =>
    simp only [call, addByName]
    split
    · exact .inl (List.Sublist.refl _)
    · rename_i p hparse
      exact .inr ⟨p, name, minBlock_le_of_fromPartName hparse, partInfoToName_add s p name⟩
  | addInfo p =>
    simp only [call, addInfo]
    split
    · exact .inl (List.Sublist.refl _)
    · rename_i name _
      exact .inr ⟨p, name, hc p rfl, partInfoToName_add s p name⟩
  | tryAddPart p =>
    simp only [call]
    cases hname : p.getPartNameAndCheckFormat s.formatVersion with
    | error e =>
      simp only [tryAddPart, hname]
      exact .inl (List.Sublist.refl _)
    | ok name => exact .inr ⟨p, name, hc p rfl, partInfoToName_tryAddPart_of_ok s hname⟩
  | tryAdd name =>
    simp only [call, tryAdd]
    split
    · exact .inl (List.Sublist.refl _)
    · rename_i p hparse
      exact .inr ⟨p, name, minBlock_le_of_fromPartName hparse, rfl⟩
  | remove p => exact .inl (sublist_remove s p)
  | removeByName name => exact .inl (sublist_removeByName s name)
  | removePartAndCoveredParts p => exact .inl (sublist_removePartAndCoveredParts s p)
  | removePartAndCoveredPartsByName name =>
    simp only [call, removePartAndCoveredPartsByName]
    split
    · exact .inl (List.Sublist.refl _)
    · exact .inl (sublist_removePartAndCoveredParts s _)

lemma invariant_call (h : Invariant s.partInfoToName) (c : Call)
    (hc : ∀ p ∈ c.givenInfo, p.minBlock ≤ p.maxBlock) : Invariant (s.call c).partInfoToName := by
  rcases call_cases s c hc with hsub | ⟨p, name, hp, heq⟩
  · exact h.sublist hsub
  · rw [heq]
    exact invariant_addImpl h hp name

/-- The invariant holds after every run whose calls give only part infos with ordered blocks; the
induction is on the calls, one `invariant_call` per step. -/
lemma invariant_run (calls : List Call) (h : Invariant s.partInfoToName)
    (hcalls : ∀ c ∈ calls, ∀ p ∈ c.givenInfo, p.minBlock ≤ p.maxBlock) :
    Invariant (s.run calls).partInfoToName := by
  induction calls generalizing s with
  | nil => exact h
  | cons c calls ih =>
    exact ih (s.call c) (invariant_call s h c (hcalls c List.mem_cons_self))
      (fun c' hc' => hcalls c' (List.mem_cons_of_mem _ hc'))

end Calls

/-- Started empty, and with ordered blocks in every part info given to it directly (parsed names
always have them), the set holds pairwise disjoint parts after any calls, whatever they return or
throw, and its two-neighbour lookup returns a stored part containing a part with ordered blocks
exactly when one is stored. -/
theorem run_isDisjoint_getContainingPartImpl (formatVersion : ℕ) (calls : List Call)
    (hcalls : ∀ c ∈ calls, ∀ p ∈ c.givenInfo, p.minBlock ≤ p.maxBlock) :
    let entries := ((⟨formatVersion, []⟩ : ActiveDataPartSet).run calls).partInfoToName
    (∀ a ∈ entries, ∀ b ∈ entries, a ≠ b → a.1.isDisjoint b.1) ∧
      ∀ p : MergeTreePartInfo, p.minBlock ≤ p.maxBlock →
        ((∃ e, getContainingPartImpl p entries = some e ∧ e ∈ entries ∧ e.1.contains p) ↔
          ∃ e ∈ entries, e.1.contains p) := by
  intro entries
  have h : Invariant entries := invariant_run ⟨formatVersion, []⟩ calls Invariant.nil hcalls
  exact ⟨fun a ha b hb hne => h.isDisjoint_of_ne ha hb hne,
    fun p hp => getContainingPartImpl_eq_some_iff h hp⟩

theorem run_isDisjoint_getContainingPartImpl_merged :
    (∀ c ∈ [Call.addByName "all_1_1_0".toList, .addByName "all_2_2_0".toList,
        .tryAddPart ⟨.regular, ['a', 'l', 'l'], 1, 2, 1, 0, false, rfl⟩],
      ∀ p ∈ c.givenInfo, p.minBlock ≤ p.maxBlock) ∧
    let entries := ((⟨1, []⟩ : ActiveDataPartSet).run [.addByName "all_1_1_0".toList,
      .addByName "all_2_2_0".toList, .tryAddPart ⟨.regular, ['a', 'l', 'l'], 1, 2, 1, 0, false, rfl⟩]).partInfoToName
    (∀ a ∈ entries, ∀ b ∈ entries, a ≠ b → a.1.isDisjoint b.1) ∧
      ∀ p : MergeTreePartInfo, p.minBlock ≤ p.maxBlock →
        ((∃ e, getContainingPartImpl p entries = some e ∧ e ∈ entries ∧ e.1.contains p) ↔
          ∃ e ∈ entries, e.1.contains p) :=
  ⟨by decide, run_isDisjoint_getContainingPartImpl 1 _ (by decide)⟩

/-- Parts with unordered blocks break both halves: `all_5_1_0` is disjoint from `all_2_10_0` and
lets `all_6_8_0` in beside it although `all_2_10_0` meets it; and next to `all_0_10_1`, which
contains `all_13_5_0`, the lookup of `all_13_5_0` looks at `all_12_15_0` only. -/
theorem run_tryAddPart_unordered :
    ((⟨1, []⟩ : ActiveDataPartSet).run [.tryAddPart ⟨.regular, ['a', 'l', 'l'], 2, 10, 0, 0, false, rfl⟩,
        .tryAddPart ⟨.regular, ['a', 'l', 'l'], 5, 1, 0, 0, false, rfl⟩,
        .tryAddPart ⟨.regular, ['a', 'l', 'l'], 6, 8, 0, 0, false, rfl⟩]).partInfoToName.map Prod.fst =
      [⟨.regular, ['a', 'l', 'l'], 2, 10, 0, 0, false, rfl⟩, ⟨.regular, ['a', 'l', 'l'], 5, 1, 0, 0, false, rfl⟩,
        ⟨.regular, ['a', 'l', 'l'], 6, 8, 0, 0, false, rfl⟩] ∧
    ¬ (⟨.regular, ['a', 'l', 'l'], 2, 10, 0, 0, false, rfl⟩ : MergeTreePartInfo).isDisjoint
      ⟨.regular, ['a', 'l', 'l'], 6, 8, 0, 0, false, rfl⟩ ∧
    getContainingPartImpl ⟨.regular, ['a', 'l', 'l'], 13, 5, 0, 0, false, rfl⟩
      ((⟨1, []⟩ : ActiveDataPartSet).run [.tryAddPart ⟨.regular, ['a', 'l', 'l'], 0, 10, 1, 0, false, rfl⟩,
        .tryAddPart ⟨.regular, ['a', 'l', 'l'], 12, 15, 0, 0, false, rfl⟩]).partInfoToName = none ∧
    (⟨.regular, ['a', 'l', 'l'], 0, 10, 1, 0, false, rfl⟩ : MergeTreePartInfo).contains
      ⟨.regular, ['a', 'l', 'l'], 13, 5, 0, 0, false, rfl⟩ := by
  decide

/-! ### The parts a part covers -/

section Covered

variable {p : MergeTreePartInfo} {entries : List (MergeTreePartInfo × List Char)}

/-- A stored part between a part `p` contains and `p` itself meets `p`; when no stored part meets
`p` without containment either way, and none strictly contains it, `p` contains that part too. So
the parts before `lower_bound(p)` that `p` contains are the last ones before it. -/
lemma rtakeWhile_lowerBound_eq_filter (h : Invariant entries) (hp : p.minBlock ≤ p.maxBlock)
    (hmeet : ∀ q ∈ entries, p.isDisjoint q.1 ∨ p.contains q.1 ∨ q.1.contains p)
    (hcover : ∀ q ∈ entries, q.1.contains p → p.contains q.1) :
    (lowerBound toTuple p.toTuple entries).1.rtakeWhile (fun e => decide (p.contains e.1)) =
      (lowerBound toTuple p.toTuple entries).1.filter (fun e => decide (p.contains e.1)) := by
  apply rtakeWhile_eq_filter
  refine (h.sorted.sublist (sublist_lowerBound_fst p.toTuple entries)).imp_of_mem ?_
  intro x y _ hy hxy hcx
  have hy' := mem_of_mem_lowerBound_fst hy
  have hnd : ¬ y.1.isDisjoint p := not_isDisjoint_of_le_of_contains (h.ordered y hy') hp hxy.le
    (lt_of_mem_lowerBound_fst hy).le (of_decide_eq_true hcx)
  rcases hmeet y hy' with hd | hc | hc
  · exact absurd hd.symm hnd
  · exact decide_eq_true hc
  · exact decide_eq_true (hcover y hy' hc)

/-- Likewise the parts from `lower_bound(p)` on that `p` contains are the first ones there. -/
lemma takeWhile_lowerBound_eq_filter (h : Invariant entries)
    (hmeet : ∀ q ∈ entries, p.isDisjoint q.1 ∨ p.contains q.1 ∨ q.1.contains p)
    (hcover : ∀ q ∈ entries, q.1.contains p → p.contains q.1) :
    (lowerBound toTuple p.toTuple entries).2.takeWhile (fun e => decide (p.contains e.1)) =
      (lowerBound toTuple p.toTuple entries).2.filter (fun e => decide (p.contains e.1)) := by
  apply takeWhile_eq_filter
  refine (h.sorted.sublist (sublist_lowerBound_snd p.toTuple entries)).imp_of_mem ?_
  intro x y hx hy hxy hcy
  have hx' := mem_of_mem_lowerBound_snd hx
  have hnd : ¬ p.isDisjoint x.1 := not_isDisjoint_of_contains_of_le (h.ordered y (mem_of_mem_lowerBound_snd hy))
    (h.ordered x hx') (le_of_mem_lowerBound_snd h.sorted hx) hxy.le (of_decide_eq_true hcy)
  rcases hmeet x hx' with hd | hc | hc
  · exact absurd hd hnd
  · exact decide_eq_true hc
  · exact decide_eq_true (hcover x hx' hc)

/-- When no stored part strictly contains `p`, both loops stop at a part that does not contain
`p`, and the result is every stored part `p` contains. -/
lemma getPartsCoveredByImpl_of_not_covered (h : Invariant entries) (hp : p.minBlock ≤ p.maxBlock)
    (hmeet : ∀ q ∈ entries, p.isDisjoint q.1 ∨ p.contains q.1 ∨ q.1.contains p)
    (hcover : ∀ q ∈ entries, q.1.contains p → p.contains q.1) :
    getPartsCoveredByImpl p entries = entries.filter (fun e => decide (p.contains e.1)) := by
  have hleft : ¬ ∃ e ∈ (keptLeft p entries).getLast?, e.1.contains p := by
    rintro ⟨e, he, hce⟩
    have hne : keptLeft p entries ≠ [] := fun hnil => by simp [hnil] at he
    have hlast : e = (keptLeft p entries).getLast hne :=
      Option.some.inj (he.symm.trans (List.getLast?_eq_some_getLast hne))
    have hnc : ¬ decide (p.contains ((keptLeft p entries).getLast hne).1) = true :=
      List.rdropWhile_last_not (fun e : MergeTreePartInfo × List Char => decide (p.contains e.1))
        (lowerBound toTuple p.toTuple entries).1 hne
    rw [← hlast] at hnc
    exact hnc (decide_eq_true (hcover e ((sublist_keptLeft p entries).subset (List.mem_of_getLast? he)) hce))
  have hright : ¬ ∃ e ∈ (keptRight p entries).head?, e.1.contains p := by
    rintro ⟨e, he, hce⟩
    have hne : keptRight p entries ≠ [] := fun hnil => by simp [hnil] at he
    have hhead : e = (keptRight p entries).head hne :=
      Option.some.inj (he.symm.trans (List.head?_eq_some_head hne))
    have hnc : decide (p.contains ((keptRight p entries).head hne).1) = false :=
      List.head_dropWhile_not (fun e : MergeTreePartInfo × List Char => decide (p.contains e.1))
        (l := (lowerBound toTuple p.toTuple entries).2) hne
    rw [← hhead] at hnc
    have hmem : e ∈ entries :=
      ((List.dropWhile_sublist _).trans (sublist_lowerBound_snd p.toTuple entries)).subset (List.mem_of_mem_head? he)
    simp [hcover e hmem hce] at hnc
  rw [getPartsCoveredByImpl, if_neg hleft, if_neg hright, rtakeWhile_lowerBound_eq_filter h hp hmeet hcover,
    takeWhile_lowerBound_eq_filter h hmeet hcover, ← List.filter_append, lowerBound_append]

/-- A stored part that strictly contains `p` is next to `lower_bound(p)`, where a loop meets it. -/
lemma getPartsCoveredByImpl_of_covered (h : Invariant entries) (hp : p.minBlock ≤ p.maxBlock)
    {q : MergeTreePartInfo × List Char} (hq : q ∈ entries) (hqp : q.1.contains p) (hpq : ¬ p.contains q.1) :
    getPartsCoveredByImpl p entries = [] := by
  rw [← lowerBound_append toTuple p.toTuple entries] at hq
  rcases List.mem_append.mp hq with hq | hq
  · -- the last part before `lower_bound(p)`, where the left loop stops
    have hlast := getLast?_lowerBound_of_contains h hp hq hqp
    have hkept : (keptLeft p entries).getLast? = some q := by
      have hself : keptLeft p entries = (lowerBound toTuple p.toTuple entries).1 := by
        rw [keptLeft, List.rdropWhile_eq_self_iff]
        intro hne
        rw [← Option.some.inj (hlast.symm.trans (List.getLast?_eq_some_getLast hne))]
        simpa using hpq
      rw [hself, hlast]
    rw [getPartsCoveredByImpl, if_pos ⟨q, hkept, hqp⟩]
  · -- the part at `lower_bound(p)`, where the right loop stops
    have hhead := head?_lowerBound_of_contains h hq hqp
    obtain ⟨t, ht⟩ : ∃ t, (lowerBound toTuple p.toTuple entries).2 = q :: t := by
      cases hsnd : (lowerBound toTuple p.toTuple entries).2 with
      | nil => simp [hsnd] at hhead
      | cons a t =>
        rw [hsnd, List.head?_cons, Option.some.injEq] at hhead
        exact ⟨t, hhead ▸ rfl⟩
    have hkept : (keptRight p entries).head? = some q := by
      rw [keptRight, ht, List.dropWhile_cons_of_neg (by simpa using hpq), List.head?_cons]
    rw [getPartsCoveredByImpl]
    split_ifs
    · rfl
    · rfl
    · exact absurd ⟨q, hkept, hqp⟩ ‹¬ ∃ e ∈ (keptRight p entries).head?, e.1.contains p›

end Covered

/-- Started empty, and with ordered blocks in every part info given to it directly, the set answers
`getPartsCoveredBy(p)`, for a part `p` with ordered blocks that no stored part meets without
containment, with nothing when a stored part strictly contains `p`, and otherwise with every stored
part `p` contains, in key order. -/
theorem run_getPartsCoveredByImpl (formatVersion : ℕ) (calls : List Call)
    (hcalls : ∀ c ∈ calls, ∀ p ∈ c.givenInfo, p.minBlock ≤ p.maxBlock)
    (p : MergeTreePartInfo) (hp : p.minBlock ≤ p.maxBlock) :
    let entries := ((⟨formatVersion, []⟩ : ActiveDataPartSet).run calls).partInfoToName
    (∀ q ∈ entries, p.isDisjoint q.1 ∨ p.contains q.1 ∨ q.1.contains p) →
      getPartsCoveredByImpl p entries =
        if ∃ q ∈ entries, q.1.contains p ∧ ¬ p.contains q.1 then []
        else entries.filter (fun q => decide (p.contains q.1)) := by
  intro entries hmeet
  have h : Invariant entries := invariant_run ⟨formatVersion, []⟩ calls Invariant.nil hcalls
  split_ifs with hcovered
  · obtain ⟨q, hq, hqp, hpq⟩ := hcovered
    exact getPartsCoveredByImpl_of_covered h hp hq hqp hpq
  · push Not at hcovered
    exact getPartsCoveredByImpl_of_not_covered h hp hmeet hcovered

theorem run_getPartsCoveredByImpl_merged :
    let entries := ((⟨1, []⟩ : ActiveDataPartSet).run
      [.addByName "all_1_1_0".toList, .addByName "all_2_2_0".toList]).partInfoToName
    getPartsCoveredByImpl ⟨.regular, ['a', 'l', 'l'], 1, 2, 1, 0, false, rfl⟩ entries =
      if ∃ q ∈ entries, q.1.contains ⟨.regular, ['a', 'l', 'l'], 1, 2, 1, 0, false, rfl⟩ ∧
          ¬ (⟨.regular, ['a', 'l', 'l'], 1, 2, 1, 0, false, rfl⟩ : MergeTreePartInfo).contains q.1 then []
      else entries.filter (fun q => decide ((⟨.regular, ['a', 'l', 'l'], 1, 2, 1, 0, false, rfl⟩ :
        MergeTreePartInfo).contains q.1)) :=
  run_getPartsCoveredByImpl 1 _ (by decide) _ (by decide) (by decide)

/-- A stored part with unordered blocks falls outside the run the loops collect: `all_0_5_1`
contains `all_1_1_0` and `all_8_4_0` and is disjoint from `all_6_7_0` between them, yet only
`all_1_1_0` is returned. -/
theorem getPartsCoveredBy_unordered :
    let s := (⟨1, []⟩ : ActiveDataPartSet).run [.tryAddPart ⟨.regular, ['a', 'l', 'l'], 1, 1, 0, 0, false, rfl⟩,
      .tryAddPart ⟨.regular, ['a', 'l', 'l'], 6, 7, 0, 0, false, rfl⟩,
      .tryAddPart ⟨.regular, ['a', 'l', 'l'], 8, 4, 0, 0, false, rfl⟩]
    let p : MergeTreePartInfo := ⟨.regular, ['a', 'l', 'l'], 0, 5, 1, 0, false, rfl⟩
    (∀ q ∈ s.partInfoToName, p.isDisjoint q.1 ∨ p.contains q.1 ∨ q.1.contains p) ∧
      (∃ q ∈ s.partInfoToName, q.1 = ⟨.regular, ['a', 'l', 'l'], 8, 4, 0, 0, false, rfl⟩ ∧ p.contains q.1) ∧
      s.getPartsCoveredBy p = ["all_1_1_0".toList] := by
  decide

/-! ### A failed addition -/

section Failed

variable {p : MergeTreePartInfo} {entries left rest : List (MergeTreePartInfo × List Char)}
  {e r : MergeTreePartInfo × List Char}

/-- When the part at `lower_bound(p)` is one `p` contains and the one after it meets `p`, the right
loop of `addImpl` erases the first before it finds the second. -/
lemma addImpl_erases_before_intersecting (name : List Char)
    (hlb : lowerBound toTuple p.toTuple entries = (left, e :: r :: rest))
    (hleft : ∀ x ∈ left.getLast?, ¬ x.1.contains p ∧ ¬ p.contains x.1 ∧ p.isDisjoint x.1)
    (he : p.contains e.1) (he' : ¬ e.1.contains p) (hr : ¬ p.contains r.1) (hr' : ¬ p.isDisjoint r.1) :
    addImpl p name entries = (.hasIntersectingPart, left ++ r :: rest) := by
  have hnone : getContainingPartImpl p entries = none := by
    rw [getContainingPartImpl, hlb]
    cases hlast : left.getLast? with
    | none => simp [he']
    | some x =>
      have hx := (hleft x hlast).1
      simp [he', hx]
  have hkeptLeft : keptLeft p entries = left := by
    rw [keptLeft, hlb, List.rdropWhile_eq_self_iff]
    intro hne
    have hx := (hleft (left.getLast hne) (List.getLast?_eq_some_getLast hne)).2.1
    simpa using hx
  have hkeptRight : keptRight p entries = r :: rest := by
    rw [keptRight, hlb, List.dropWhile_cons_of_pos (by simpa using he),
      List.dropWhile_cons_of_neg (by simpa using hr)]
  have hdisjoint : ¬ ∃ x ∈ (keptLeft p entries).getLast?, ¬ p.isDisjoint x.1 := by
    rw [hkeptLeft]
    rintro ⟨x, hx, hmeet⟩
    exact hmeet (hleft x hx).2.2
  have hmeet : ∃ x ∈ (keptRight p entries).head?, ¬ p.isDisjoint x.1 := by
    rw [hkeptRight]
    exact ⟨r, rfl, hr'⟩
  rw [addImpl, hnone, Option.isSome_none, if_neg Bool.false_ne_true, if_neg hdisjoint, if_pos hmeet,
    hkeptLeft, hkeptRight]

end Failed

/-- `tryAdd` is not atomic on failure: when `p` contains the part at `lower_bound(p)` and meets the
part after it, the call reports the intersection with the contained part already erased. -/
theorem tryAdd_intersecting_erases (s : ActiveDataPartSet) (name : List Char) (p : MergeTreePartInfo)
    (hp : fromPartName name s.formatVersion = .ok p) (left : List (MergeTreePartInfo × List Char))
    (e r : MergeTreePartInfo × List Char) (rest : List (MergeTreePartInfo × List Char))
    (hlb : lowerBound toTuple p.toTuple s.partInfoToName = (left, e :: r :: rest))
    (hleft : ∀ x ∈ left.getLast?, ¬ x.1.contains p ∧ ¬ p.contains x.1 ∧ p.isDisjoint x.1)
    (he : p.contains e.1) (he' : ¬ e.1.contains p) (hr : ¬ p.contains r.1) (hr' : ¬ p.isDisjoint r.1) :
    s.partInfoToName = left ++ e :: r :: rest ∧
      s.tryAdd name = (.ok .hasIntersectingPart, { s with partInfoToName := left ++ r :: rest }) := by
  refine ⟨?_, ?_⟩
  · have happend := lowerBound_append toTuple p.toTuple s.partInfoToName
    rw [hlb] at happend
    exact happend.symm
  · simp only [tryAdd, hp, addImpl_erases_before_intersecting name hlb hleft he he' hr hr']

/-- The set `{all_1_1_0, all_2_5_1}` loses `all_1_1_0` when `tryAdd(all_0_3_1)` fails. -/
theorem tryAdd_intersecting_erases_all_0_3_1 :
    let s : ActiveDataPartSet :=
      ⟨1, [(⟨.regular, ['a', 'l', 'l'], 1, 1, 0, 0, false, rfl⟩, "all_1_1_0".toList),
        (⟨.regular, ['a', 'l', 'l'], 2, 5, 1, 0, false, rfl⟩, "all_2_5_1".toList)]⟩
    s.tryAdd "all_0_3_1".toList = (.ok .hasIntersectingPart,
      { s with partInfoToName := [(⟨.regular, ['a', 'l', 'l'], 2, 5, 1, 0, false, rfl⟩, "all_2_5_1".toList)] }) :=
  (tryAdd_intersecting_erases _ "all_0_3_1".toList ⟨.regular, ['a', 'l', 'l'], 0, 3, 1, 0, false, rfl⟩
    (by decide) [] (⟨.regular, ['a', 'l', 'l'], 1, 1, 0, 0, false, rfl⟩, "all_1_1_0".toList)
    (⟨.regular, ['a', 'l', 'l'], 2, 5, 1, 0, false, rfl⟩, "all_2_5_1".toList) [] (by decide)
    (by simp) (by decide) (by decide) (by decide) (by decide)).2

end ActiveDataPartSet

end ClickHouse.Storages.MergeTree
