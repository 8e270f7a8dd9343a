import ClickHouse.Core.Range

/-! `Core/PlainRanges.{h,cpp}`: sorted lists of pairwise disjoint ranges, merged like sorted lists
for their union and intersection. The points of such a list are the points of its ranges. The
unordered constructor, which sorts with `std::sort`, is not part of this model. -/

namespace ClickHouse.Core

namespace Range

variable {α : Type} [LinearOrder α]

/-- `x` lies to the right of `a`. -/
def leftThan (a x : Range α) : Bool :=
  decide (a.right < x.left) || (!(x.leftIncluded && a.rightIncluded) && decide (a.right = x.left))

/-- `x` lies to the left of `a`. -/
def rightThan (a x : Range α) : Bool :=
  decide (x.right < a.left) || (!(a.leftIncluded && x.rightIncluded) && decide (a.left = x.right))

def createWholeUniverseWithoutNull : Range α := ⟨⊥, ⊤, false, false⟩

/-- Without `NULL`; the narrowing of integer bounds does not apply to the keys modelled. -/
def createLeftBounded (leftPoint : WithBot (WithTop α)) (leftIncluded : Bool) : Range α :=
  { createWholeUniverseWithoutNull with
    left := leftPoint
    leftIncluded := leftIncluded
    -- the range `[+inf, +inf]`
    rightIncluded := decide (leftPoint = ⊤) && leftIncluded }

end Range

structure PlainRanges (α : Type) where
  ranges : List (Range α)

namespace PlainRanges

variable {α : Type} [LinearOrder α]

/-- The points of the ranges. -/
def mem (p : PlainRanges α) (x : WithBot (WithTop α)) : Prop := ∃ r ∈ p.ranges, r.mem x

def compareByLeftBound (lhs rhs : Range α) : Bool :=
  if lhs.left = ⊥ ∧ rhs.left = ⊥ then false
  else decide (lhs.left < rhs.left) || ((!lhs.leftIncluded && rhs.leftIncluded) && decide (lhs.left = rhs.left))

def compareByRightBound (lhs rhs : Range α) : Bool :=
  if lhs.right = ⊤ ∧ rhs.right = ⊤ then false
  else decide (lhs.right < rhs.right) || ((!lhs.rightIncluded && rhs.rightIncluded) && decide (lhs.right = rhs.right))

/-- The loop of `makePlainFromOrdered` with `back` the last range kept. `none` stands for the
dereference of an empty `unionWith`, which the source leaves undefined. -/
def makePlainFromOrderedLoop : Range α → List (Range α) → Option (List (Range α))
  | back, [] => some [back]
  | back, cur :: rest =>
    if back.intersectsRange cur then (back.unionWith cur).bind fun u => makePlainFromOrderedLoop u rest
    else (makePlainFromOrderedLoop cur rest).map (back :: ·)

def makePlainFromOrdered : List (Range α) → Option (List (Range α))
  | [] => some []
  | r :: rs => makePlainFromOrderedLoop r rs

/-- The merge of `unionWith`; `none` as in `makePlainFromOrderedLoop`. -/
def unionWithLoop : List (Range α) → List (Range α) → Option (List (Range α))
  | [], rs => some rs
  | l :: ls, [] => some (l :: ls)
  | l :: ls, r :: rs =>
    if l.leftThan r then (unionWithLoop ls (r :: rs)).map (l :: ·)
    else if l.rightThan r then (unionWithLoop (l :: ls) rs).map (r :: ·)
    else
      (l.unionWith r).bind fun u =>
        (if compareByRightBound l r then unionWithLoop ls (r :: rs) else unionWithLoop (l :: ls) rs).map (u :: ·)
termination_by ls rs => ls.length + rs.length

def unionWith (a b : PlainRanges α) : Option (PlainRanges α) :=
  (unionWithLoop a.ranges b.ranges).bind fun merged => (makePlainFromOrdered merged).map PlainRanges.mk

/-- The merge of `intersectWith`: the ranges that meet are intersected, and the one ending first is
passed. -/
def intersectWithLoop : List (Range α) → List (Range α) → List (Range α)
  | [], _ => []
  | _ :: _, [] => []
  | l :: ls, r :: rs =>
    if l.leftThan r then intersectWithLoop ls (r :: rs)
    else if l.rightThan r then intersectWithLoop (l :: ls) rs
    else
      let rest := if compareByRightBound l r then intersectWithLoop ls (r :: rs) else intersectWithLoop (l :: ls) rs
      match l.intersectWith r with
      | some c => c :: rest
      | none => rest
termination_by ls rs => ls.length + rs.length

def intersectWith (a b : PlainRanges α) : PlainRanges α :=
  ⟨intersectWithLoop a.ranges b.ranges⟩

def makeUniverse : PlainRanges α := ⟨[Range.createWholeUniverseWithoutNull]⟩

/-- `invert`: the complement of each range, to be intersected by the caller; nothing for a range
that is the whole line. -/
def invert (toInvertRanges : List (Range α)) : List (List (Range α)) :=
  if toInvertRanges = [] then [makeUniverse.ranges]
  else if toInvertRanges.any Range.isInfinite then [[]]
  else toInvertRanges.map Range.invertRange

section LeftTie

variable {a b : Range α}

lemma leftThan_eq_false (hleft : a.left = b.left) (ha : a.left < a.right) : a.leftThan b = false := by
  have hlt : ¬ a.right < b.left := not_lt.mpr (hleft ▸ ha.le)
  have hne : a.right ≠ b.left := fun h => (hleft ▸ ha).ne' h
  simp [Range.leftThan, hlt, hne]

lemma rightThan_eq_false (hb : a.left < b.right) : a.rightThan b = false := by
  have hlt : ¬ b.right < a.left := not_lt.mpr hb.le
  have hne : a.left ≠ b.right := hb.ne
  simp [Range.rightThan, hlt, hne]

/-- Two one-range lists that start at the same bound, open in one and closed in the other: their
`intersectWith` holds that bound, which is not in both lists. -/
theorem intersectWith_single_keeps_left (hleft : a.left = b.left) (hincl : a.leftIncluded ≠ b.leftIncluded)
    (ha : a.left < a.right) (hb : a.left < b.right) :
    (intersectWith ⟨[a]⟩ ⟨[b]⟩).mem a.left ∧ ¬ ((⟨[a]⟩ : PlainRanges α).mem a.left ∧ (⟨[b]⟩ : PlainRanges α).mem a.left) := by
  obtain ⟨c, hc, hmem⟩ := Range.intersectWith_mem_left hleft hincl ha hb
  -- neither range lies past the other, so the merge intersects them
  have hmerge : ∃ rest, intersectWithLoop [a] [b] = c :: rest := by
    rw [intersectWithLoop, leftThan_eq_false hleft ha, rightThan_eq_false hb]
    simp only [Bool.false_eq_true, if_false, hc]
    exact ⟨_, rfl⟩
  obtain ⟨rest, hrest⟩ := hmerge
  refine ⟨⟨c, by simp [intersectWith, hrest], hmem⟩, ?_⟩
  rintro ⟨⟨a', ha', hma⟩, ⟨b', hb', hmb⟩⟩
  rw [List.mem_singleton.mp ha'] at hma
  rw [List.mem_singleton.mp hb'] at hmb
  exact Range.not_mem_left_of_tie hleft hincl ⟨hma, hmb⟩

theorem intersectWith_single_keeps_left_a :
    (intersectWith ⟨[⟨((("a" : String) : WithTop String) : WithBot (WithTop String)),
        ((("z" : String) : WithTop String) : WithBot (WithTop String)), false, true⟩]⟩
      ⟨[⟨((("a" : String) : WithTop String) : WithBot (WithTop String)),
        ((("m" : String) : WithTop String) : WithBot (WithTop String)), true, true⟩]⟩).mem
        ((("a" : String) : WithTop String) : WithBot (WithTop String)) ∧
      ¬ ((⟨[⟨((("a" : String) : WithTop String) : WithBot (WithTop String)),
          ((("z" : String) : WithTop String) : WithBot (WithTop String)), false, true⟩]⟩ : PlainRanges String).mem
          ((("a" : String) : WithTop String) : WithBot (WithTop String)) ∧
        (⟨[⟨((("a" : String) : WithTop String) : WithBot (WithTop String)),
          ((("m" : String) : WithTop String) : WithBot (WithTop String)), true, true⟩]⟩ : PlainRanges String).mem
          ((("a" : String) : WithTop String) : WithBot (WithTop String))) :=
  intersectWith_single_keeps_left rfl (by decide) (by decide) (by decide)

end LeftTie

end PlainRanges

end ClickHouse.Core
