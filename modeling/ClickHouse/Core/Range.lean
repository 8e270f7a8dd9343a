import Mathlib

/-! `Core/Range.{h,cpp}`: ranges of key values with open or closed ends, used by the index analysis.
A bound is a value or one of the infinities; `accurateLess` and `accurateEquals` order them as
`WithBot (WithTop α)` does. The narrowing of open integer bounds by `shrinkToIncludedIfPossible`
applies only to `UInt64` and `Int64` fields and is not part of this model. -/

namespace ClickHouse.Core

structure Range (α : Type) where
  left : WithBot (WithTop α)
  right : WithBot (WithTop α)
  leftIncluded : Bool
  rightIncluded : Bool
  deriving DecidableEq

namespace Range

variable {α : Type} [LinearOrder α]

/-- The range of one point. -/
def point (x : WithBot (WithTop α)) : Range α := ⟨x, x, true, true⟩

/-- The points of a range. -/
def mem (a : Range α) (x : WithBot (WithTop α)) : Prop :=
  (a.left < x ∨ (a.leftIncluded = true ∧ x = a.left)) ∧ (x < a.right ∨ (a.rightIncluded = true ∧ x = a.right))

instance (a : Range α) (x : WithBot (WithTop α)) : Decidable (a.mem x) :=
  inferInstanceAs (Decidable (_ ∧ _))

def intersectsRange (a r : Range α) : Bool :=
  -- `r` to the left of `a`
  if r.right < a.left ∨ ((a.leftIncluded = false ∨ r.rightIncluded = false) ∧ r.right = a.left) then false
  -- `r` to the right of `a`
  else if a.right < r.left ∨ ((a.rightIncluded = false ∨ r.leftIncluded = false) ∧ r.left = a.right) then false
  else true

def containsRange (a r : Range α) : Bool :=
  if r.left < a.left ∨ (r.leftIncluded = true ∧ a.leftIncluded = false ∧ r.left = a.left) then false
  else if a.right < r.right ∨ (r.rightIncluded = true ∧ a.rightIncluded = false ∧ r.right = a.right) then false
  else true

def nearByWith (a r : Range α) : Bool :=
  -- `a` on the left
  if ((a.rightIncluded && !r.leftIncluded) || (!a.rightIncluded && r.leftIncluded)) = true ∧ a.right = r.left then
    true
  -- `r` on the left; the source tests the same pair of flags twice
  else if ((r.rightIncluded && !a.leftIncluded) || (r.rightIncluded && !a.leftIncluded)) = true ∧
      r.right = a.left then true
  else false

def intersectWith (a r : Range α) : Option (Range α) :=
  if a.intersectsRange r = false then none
  else
    let leftBoundUseMine := !decide (a.left < r.left ∨
      ((a.leftIncluded = false ∧ r.leftIncluded = true) ∧ a.left = r.left))
    let rightBoundUseMine := !decide (r.right < a.right ∨
      ((r.rightIncluded = false ∧ a.rightIncluded = true) ∧ r.right = a.right))
    some ⟨if leftBoundUseMine then a.left else r.left, if rightBoundUseMine then a.right else r.right,
      if leftBoundUseMine then a.leftIncluded else r.leftIncluded,
      if rightBoundUseMine then a.rightIncluded else r.rightIncluded⟩

def unionWith (a r : Range α) : Option (Range α) :=
  if a.intersectsRange r = false ∧ a.nearByWith r = false then none
  else
    let leftBoundUseMine := decide (a.left < r.left ∨
      ((a.leftIncluded = false ∧ r.leftIncluded = true) ∧ a.left = r.left))
    let rightBoundUseMine := decide (r.right < a.right ∨
      ((r.rightIncluded = false ∧ a.rightIncluded = true) ∧ r.right = a.right))
    some ⟨if leftBoundUseMine then a.left else r.left, if rightBoundUseMine then a.right else r.right,
      if leftBoundUseMine then a.leftIncluded else r.leftIncluded,
      if rightBoundUseMine then a.rightIncluded else r.rightIncluded⟩

/-- A bound that is a value, not an infinity. -/
def isExplicitValue : WithBot (WithTop α) → Bool
  | some (some _) => true
  | _ => false

/-- Both bounds are values. -/
def fullBounded (a : Range α) : Bool := isExplicitValue a.left && isExplicitValue a.right

/-- `(-inf, +inf)`. -/
def isInfinite (a : Range α) : Bool := decide (a.left = ⊥) && decide (a.right = ⊤)

def invertRange (a : Range α) : List (Range α) :=
  if a.fullBounded then [⟨⊥, a.left, false, !a.leftIncluded⟩, ⟨a.right, ⊤, !a.rightIncluded, false⟩]
  else if a.isInfinite then []
  else
    -- the bounds swapped, then the infinite one turned over
    if a.right = ⊤ then [⟨⊥, a.left, false, !a.leftIncluded⟩]
    else if a.left = ⊥ then [⟨a.right, ⊤, !a.rightIncluded, false⟩]
    else [⟨a.right, a.left, a.leftIncluded, a.rightIncluded⟩]

section LeftTie

variable {a b : Range α}

lemma intersectsRange_of_lt (hleft : a.left = b.left) (ha : a.left < a.right) (hb : a.left < b.right) :
    a.intersectsRange b = true := by
  have h₁ : ¬(b.right < a.left ∨ ((a.leftIncluded = false ∨ b.rightIncluded = false) ∧ b.right = a.left)) := by
    rintro (hlt | ⟨-, heq⟩)
    · exact absurd hlt (not_lt.mpr hb.le)
    · exact absurd heq hb.ne'
  have h₂ : ¬(a.right < b.left ∨ ((a.rightIncluded = false ∨ b.leftIncluded = false) ∧ b.left = a.right)) := by
    rw [← hleft]
    rintro (hlt | ⟨-, heq⟩)
    · exact absurd hlt (not_lt.mpr ha.le)
    · exact absurd heq ha.ne
  rw [intersectsRange, if_neg h₁, if_neg h₂]

/-- On equal left bounds with different inclusion `intersectWith` takes the closed one: the open
range's bound when it is the second range's, and its own when that one is closed. -/
lemma intersectWith_of_left_tie (hleft : a.left = b.left) (hincl : a.leftIncluded ≠ b.leftIncluded)
    (hint : a.intersectsRange b = true) :
    ∃ c, a.intersectWith b = some c ∧ c.left = a.left ∧ c.leftIncluded = true ∧
      (c.right = a.right ∨ c.right = b.right) := by
  rw [intersectWith, if_neg (by rw [hint]; decide)]
  dsimp only
  refine ⟨_, rfl, ?_, ?_, ?_⟩
  · -- the left bound is one of the two, which are equal
    split_ifs <;> simp only [hleft]
  · cases hai : a.leftIncluded <;> cases hbi : b.leftIncluded
    · exact absurd (hai.trans hbi.symm) hincl
    · -- `a` open, `b` closed: the tie test picks `b`'s closed bound
      simp [hleft]
    · -- `a` closed, `b` open: the tie test keeps `a`'s closed bound
      simp [hleft]
    · exact absurd (hai.trans hbi.symm) hincl
  · split_ifs <;> simp

/-- Of two ranges with the same left bound, open in one and closed in the other, the open one does
not hold that bound. -/
lemma not_mem_left_of_tie (hleft : a.left = b.left) (hincl : a.leftIncluded ≠ b.leftIncluded) :
    ¬ (a.mem a.left ∧ b.mem a.left) := by
  rintro ⟨⟨ha' | ⟨hai, -⟩, -⟩, ⟨hb' | ⟨hbi, -⟩, -⟩⟩
  · exact lt_irrefl _ ha'
  · exact lt_irrefl _ ha'
  · exact lt_irrefl _ (hleft ▸ hb')
  · exact hincl (hai.trans hbi.symm)

/-- On equal left bounds with different inclusion, `intersectWith` returns a range holding the left
bound. -/
lemma intersectWith_mem_left (hleft : a.left = b.left) (hincl : a.leftIncluded ≠ b.leftIncluded)
    (ha : a.left < a.right) (hb : a.left < b.right) : ∃ c, a.intersectWith b = some c ∧ c.mem a.left := by
  obtain ⟨c, hc, hcleft, hcincl, hcright⟩ := intersectWith_of_left_tie hleft hincl (intersectsRange_of_lt hleft ha hb)
  have hright : a.left < c.right := by
    rcases hcright with h | h
    · exact h ▸ ha
    · exact h ▸ hb
  exact ⟨c, hc, ⟨.inr ⟨hcincl, hcleft.symm⟩, .inl hright⟩⟩

/-- On equal left bounds with different inclusion, `intersectWith` returns a range holding the left
bound, which the range open there excludes. -/
theorem intersectWith_keeps_closed_left (hleft : a.left = b.left) (hincl : a.leftIncluded ≠ b.leftIncluded)
    (ha : a.left < a.right) (hb : a.left < b.right) :
    ∃ c, a.intersectWith b = some c ∧ c.mem a.left ∧ ¬ (a.mem a.left ∧ b.mem a.left) := by
  obtain ⟨c, hc, hmem⟩ := intersectWith_mem_left hleft hincl ha hb
  exact ⟨c, hc, hmem, not_mem_left_of_tie hleft hincl⟩

theorem intersectWith_keeps_closed_left_a :
    ∃ c, (⟨((("a" : String) : WithTop String) : WithBot (WithTop String)), ((("z" : String) : WithTop String) :
        WithBot (WithTop String)), false, true⟩ : Range String).intersectWith
        ⟨((("a" : String) : WithTop String) : WithBot (WithTop String)),
          ((("m" : String) : WithTop String) : WithBot (WithTop String)), true, true⟩ = some c ∧
      c.mem ((("a" : String) : WithTop String) : WithBot (WithTop String)) ∧
      ¬ ((⟨((("a" : String) : WithTop String) : WithBot (WithTop String)),
          ((("z" : String) : WithTop String) : WithBot (WithTop String)), false, true⟩ : Range String).mem
          ((("a" : String) : WithTop String) : WithBot (WithTop String)) ∧
        (⟨((("a" : String) : WithTop String) : WithBot (WithTop String)),
          ((("m" : String) : WithTop String) : WithBot (WithTop String)), true, true⟩ : Range String).mem
          ((("a" : String) : WithTop String) : WithBot (WithTop String))) :=
  intersectWith_keeps_closed_left rfl (by decide) (by decide) (by decide)

/-- `nearByWith` tests its second clause with the flags of the first clause repeated, so a range
`r` ending open just where `a` starts closed is near `a` but `a` is not near `r`, and `a.unionWith r`
gives nothing for two ranges that touch. -/
lemma unionWith_of_touching_left (ha : a.left < a.right) (hb : b.left < b.right) (htouch : b.right = a.left)
    (hopen : b.rightIncluded = false) (hclosed : a.leftIncluded = true) :
    a.nearByWith b = false ∧ b.nearByWith a = true ∧ a.unionWith b = none := by
  have hfar : a.right ≠ b.left := (lt_trans hb (htouch ▸ ha)).ne'
  have hdisjoint : a.intersectsRange b = false := by
    rw [intersectsRange, if_pos (.inr ⟨.inr hopen, htouch⟩)]
  have hnear : a.nearByWith b = false := by
    rw [nearByWith, if_neg (fun h => hfar h.2), if_neg (by simp [hopen])]
  refine ⟨hnear, ?_, ?_⟩
  · rw [nearByWith, if_pos ⟨by simp [hopen, hclosed], htouch⟩]
  · rw [unionWith, if_pos ⟨hdisjoint, hnear⟩]

end LeftTie

end Range

end ClickHouse.Core
