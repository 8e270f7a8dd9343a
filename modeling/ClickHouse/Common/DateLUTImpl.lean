import Mathlib

/-! `Common/DateLUTImpl.{h,cpp}`: the table of the days of a time zone from 1900 on, each with the
instant its local day starts and the offset change during it, and the time-of-day functions that
read it. The table is built from the zone's transitions by cctz, which is not modelled: a table is
given by its days, and the constructor's part that is modelled is the one that sets the flags
`offset_is_whole_number_of_hours_during_epoch` and `..._minutes_during_epoch`, from the days that
start after 1970. `Time` is an `Int64`; C++ division and remainder truncate towards zero. -/

namespace ClickHouse.Common

def dateLutSize : ℕ := 0x23AB1

def daynumOffsetEpoch : ℕ := 25567

def offsetChangeFactor : ℕ := 900

/-- A day of the table: the instant its local day starts, and the offset change during it in units
of `OffsetChangeFactor` seconds. -/
structure DateLUTValues where
  date : ℤ
  amountOfOffsetChangeValue : ℤ
  timeAtOffsetChangeValue : ℕ
  deriving DecidableEq, Repr

instance : Inhabited DateLUTValues := ⟨⟨0, 0, 0⟩⟩

namespace DateLUTValues

def amountOfOffsetChange (v : DateLUTValues) : ℤ := v.amountOfOffsetChangeValue * offsetChangeFactor

def timeAtOffsetChange (v : DateLUTValues) : ℤ := v.timeAtOffsetChangeValue * offsetChangeFactor

end DateLUTValues

structure DateLUTImpl where
  lut : List DateLUTValues
  lut_length : lut.length = dateLutSize + 1
  offsetIsWholeNumberOfHoursDuringEpoch : Bool
  offsetIsWholeNumberOfMinutesDuringEpoch : Bool

namespace DateLUTImpl

/-- The flags as the constructor sets them: false once a day starting after 1970 starts off the
whole hour, or off the whole minute. -/
def ofValues (lut : List DateLUTValues) (h : lut.length = dateLutSize + 1) : DateLUTImpl :=
  ⟨lut, h, lut.all fun v => !(0 < v.date ∧ v.date % 3600 ≠ 0), lut.all fun v => !(0 < v.date ∧ v.date % 60 ≠ 0)⟩

variable (l : DateLUTImpl)

def day (i : ℕ) : DateLUTValues := l.lut.getD i default

def findIndex (t : ℤ) : ℕ :=
  -- the first guess; for negative `t` the division was rounded up
  let guess := t.tdiv 86400 + daynumOffsetEpoch - if t < 0 then 1 else 0
  if guess < 0 then 0
  else if dateLutSize ≤ guess then dateLutSize - 1
  else
    let g := guess.toNat
    if (l.day g).date ≤ t then
      if dateLutSize ≤ g + 1 ∨ t < (l.day (g + 1)).date then g else g + 1
    else if g ≠ 0 then g - 1 else 0

/-- `roundDownToMultiple`: towards negative infinity. The saturation near the minimum of `Int64`
is left out. -/
def roundDownToMultiple (value divisor : ℤ) : ℤ :=
  if 0 ≤ value then value.tdiv divisor * divisor
  else
    let remainder := value.tmod divisor
    if remainder = 0 then value else value - remainder - divisor

def roundDown (x divisor : ℤ) : ℤ :=
  if l.offsetIsWholeNumberOfHoursDuringEpoch then roundDownToMultiple x divisor
  else
    let date := (l.day (l.findIndex x)).date
    date + (x - date).tdiv divisor * divisor

def toSecond (t : ℤ) : ℤ :=
  if l.offsetIsWholeNumberOfMinutesDuringEpoch then
    let res := t.tmod 60
    if 0 ≤ res then res else res + 60
  else
    let v := l.day (l.findIndex t)
    let time := t - v.date
    let time := if v.timeAtOffsetChange ≤ time then time + v.amountOfOffsetChange else time
    -- returned as an `unsigned`
    time.tmod 60 % 2 ^ 32

def toMinute (t : ℤ) : ℤ :=
  if 0 ≤ t ∧ l.offsetIsWholeNumberOfHoursDuringEpoch then (t.tdiv 60).tmod 60
  else
    let v := l.day (l.findIndex t)
    -- a `UInt32` of the seconds since the day's start
    let time := (t - v.date) % 2 ^ 32
    let time := if v.timeAtOffsetChange ≤ time then (time + v.amountOfOffsetChange) % 2 ^ 32 else time
    time / 60 % 60

def toStartOfMinuteInterval (t : ℤ) (minutes : ℕ) : ℤ :=
  let divisor : ℤ := 60 * minutes
  if l.offsetIsWholeNumberOfMinutesDuringEpoch then roundDownToMultiple t divisor
  else
    let date := (l.day (l.findIndex t)).date
    date + (t - date).tdiv divisor * divisor

def toStartOfMinute (t : ℤ) : ℤ := l.toStartOfMinuteInterval t 1

def toStartOfHour (t : ℤ) : ℤ := l.roundDown t 3600

/-! ### The fast paths before 1970 -/

lemma tmod_sixty_fix (t : ℤ) : (if 0 ≤ t.tmod 60 then t.tmod 60 else t.tmod 60 + 60) = t % 60 := by
  have hnn : 0 ≤ t % 60 := Int.emod_nonneg t (by norm_num)
  rw [Int.tmod_eq_emod]
  by_cases h : 0 ≤ t ∨ (60 : ℤ) ∣ t
  · rw [if_pos h, Nat.cast_zero, sub_zero, if_pos hnn]
  · -- a negative `t` off the minute: the truncated remainder is the floored one less 60
    have hpos : 0 < t % 60 := by
      rcases (Int.emod_nonneg t (by norm_num : (60 : ℤ) ≠ 0)).lt_or_eq with hlt | heq
      · exact hlt
      · exact absurd (.inr (Int.dvd_of_emod_eq_zero heq.symm)) h
    have hlt : t % 60 < 60 := Int.emod_lt_of_pos t (by norm_num)
    rw [if_neg h, if_neg (by norm_num; omega)]
    norm_num

/-- `roundDownToMultiple` rounds towards negative infinity. -/
lemma roundDownToMultiple_eq (v d : ℤ) (hd : 0 < d) : roundDownToMultiple v d = v - v % d := by
  unfold roundDownToMultiple
  dsimp only
  split_ifs with hv hr
  · rw [Int.tdiv_eq_ediv, if_pos (.inl hv), add_zero, Int.emod_def]
    ring
  · have hdvd : d ∣ v := Int.dvd_of_tmod_eq_zero hr
    rw [Int.emod_eq_zero_of_dvd hdvd, sub_zero]
  · have hndvd : ¬ d ∣ v := fun hdvd => hr (Int.tmod_eq_zero_of_dvd hdvd)
    rw [Int.tmod_eq_emod, if_neg (by push Not; exact ⟨lt_of_not_ge hv, hndvd⟩), Int.natCast_natAbs,
      abs_of_pos hd]
    ring

lemma toSecond_of_minutes (h : l.offsetIsWholeNumberOfMinutesDuringEpoch = true) (t : ℤ) :
    l.toSecond t = t % 60 := by
  simp only [toSecond, h, if_true]
  exact tmod_sixty_fix t

lemma toStartOfMinute_of_minutes (h : l.offsetIsWholeNumberOfMinutesDuringEpoch = true) (t : ℤ) :
    l.toStartOfMinute t = t - t % 60 := by
  simp only [toStartOfMinute, toStartOfMinuteInterval, h, if_true]
  exact roundDownToMultiple_eq t _ (by norm_num)

lemma ofValues_minutes {lut : List DateLUTValues} (h : lut.length = dateLutSize + 1)
    (hmin : ∀ v ∈ lut, 0 < v.date → v.date % 60 = 0) :
    (ofValues lut h).offsetIsWholeNumberOfMinutesDuringEpoch = true := by
  simp only [ofValues, List.all_eq_true, Bool.not_eq_true', decide_eq_false_iff_not, not_and, not_not]
  exact hmin

/-- The table `l` of a zone with UTC offset `offset` starts day `i` at its local midnight. -/
def StartsDay (offset : ℤ → ℤ) (i : ℕ) : Prop :=
  (l.day i).date + offset (l.day i).date = ((i : ℤ) - daynumOffsetEpoch) * 86400

/-- The flags look only at the days that start after 1970. When those start on whole minutes,
`toSecond` and `toStartOfMinute` take their fast paths at every instant, and at the start of an
earlier day whose offset is not a whole number of minutes, the local second is 0 while `toSecond`
gives the instant modulo 60. -/
theorem toSecond_ignores_offset_before_epoch (lut : List DateLUTValues) (h : lut.length = dateLutSize + 1)
    (hmin : ∀ v ∈ lut, 0 < v.date → v.date % 60 = 0) (offset : ℤ → ℤ) (i : ℕ)
    (hday : (ofValues lut h).StartsDay offset i) (hfrac : ((ofValues lut h).day i).date % 60 ≠ 0) :
    let t := ((ofValues lut h).day i).date
    (t + offset t) % 60 = 0 ∧ (ofValues lut h).toSecond t = t % 60 ∧ (ofValues lut h).toSecond t ≠ (t + offset t) % 60 ∧
      (ofValues lut h).toStartOfMinute t ≠ t - (t + offset t) % 60 := by
  intro t
  have hflag := ofValues_minutes h hmin
  -- the local time of the day's start is a whole number of days
  have hlocal : (t + offset t) % 60 = 0 := by
    rw [show t + offset t = ((i : ℤ) - daynumOffsetEpoch) * 86400 from hday]
    exact Int.emod_eq_zero_of_dvd (dvd_mul_of_dvd_right (by norm_num) _)
  refine ⟨hlocal, toSecond_of_minutes _ hflag t, ?_, ?_⟩
  · rw [toSecond_of_minutes _ hflag t, hlocal]
    exact hfrac
  · rw [toStartOfMinute_of_minutes _ hflag t, hlocal, sub_zero]
    intro heq
    exact hfrac (by omega)

/-- The table of a zone on Amsterdam's mean time, 1172 seconds ahead of UTC, before 1970 and on
whole hours after, each day starting at the local midnight. -/
def amsterdamLut : List DateLUTValues :=
  (List.range (dateLutSize + 1)).map fun (i : ℕ) =>
    ⟨((i : ℤ) - daynumOffsetEpoch) * 86400 - if i < daynumOffsetEpoch then 1172 else 3600, 0, 0⟩

/-- Day 0 of that table, 1900-01-01, starts at -2208989972, at second 28 of a UTC minute. -/
theorem toSecond_ignores_offset_before_epoch_amsterdam :
    ((ofValues amsterdamLut (by simp [amsterdamLut])).day 0).date = -2208989972 ∧
      ((-2208989972 : ℤ) + 1172) % 60 = 0 ∧
      (ofValues amsterdamLut (by simp [amsterdamLut])).toSecond (-2208989972) = -2208989972 % 60 ∧
      (ofValues amsterdamLut (by simp [amsterdamLut])).toSecond (-2208989972) ≠ (-2208989972 + 1172) % 60 ∧
      (ofValues amsterdamLut (by simp [amsterdamLut])).toStartOfMinute (-2208989972) ≠
        -2208989972 - (-2208989972 + 1172) % 60 := by
  have hday0 : ((ofValues amsterdamLut (by simp [amsterdamLut])).day 0).date = -2208989972 := by
    simp only [day, ofValues, amsterdamLut, List.getD_eq_getElem?_getD, List.getElem?_map,
      List.getElem?_range (Nat.succ_pos dateLutSize), Option.map_some, Option.getD_some]
    decide
  -- the days after 1970 start on whole hours
  have hmin : ∀ v ∈ amsterdamLut, 0 < v.date → v.date % 60 = 0 := by
    intro v hv hpos
    obtain ⟨i, -, rfl⟩ := List.mem_map.mp hv
    dsimp only at hpos ⊢
    split_ifs at hpos ⊢ with hi
    · simp only [daynumOffsetEpoch] at hi hpos
      omega
    · omega
  have h := toSecond_ignores_offset_before_epoch _ (by simp [amsterdamLut]) hmin (fun t => if t < 0 then 1172 else 3600) 0
    (by rw [StartsDay, hday0]; decide) (by rw [hday0]; decide)
  rw [hday0] at h
  exact ⟨hday0, h⟩

end DateLUTImpl

end ClickHouse.Common
