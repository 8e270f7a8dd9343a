import Mathlib

/-! Open addressing with linear probing over the cells `0, …, n - 1` taken as a ring, and the
rebuilding of such a table in place: the cells are visited in increasing order, a value that is not
kept is removed, and a kept value is taken out and put back at the first free cell from its home. A
table is well formed when every value is found by a probe from its home, each cell on the way
being taken.

One round over all cells does not rebuild a table: a value whose probe went around the end waits on
cells that are freed after it was visited. Cut at a free cell `z` of the table the round starts
from, the round leaves every value below `z` found or gone around the end with every cell below it
taken, and every value above `z` found from a home above `z`; a second round over the first run of
taken cells then repairs the table. A table doubled in size is rebuilt by a round over the old
cells and one over the first run of taken cells after them. -/

namespace ClickHouse.Lib.ProbeRebuild

open Function

variable {β : Type} [Zero β]

section Path

variable (n : ℕ)

/-- Cell `q` lies on the way from cell `h` up to cell `p`, around the end when `p < h`. -/
def OnPath (h p q : ℕ) : Prop := if h ≤ p then h ≤ q ∧ q < p else (h ≤ q ∧ q < n) ∨ q < p

instance (h p q : ℕ) : Decidable (OnPath n h p q) := inferInstanceAs (Decidable (ite _ _ _))

variable {n}

lemma onPath_of_le {h p q : ℕ} (hp : h ≤ p) : OnPath n h p q ↔ h ≤ q ∧ q < p := by
  unfold OnPath
  rw [if_pos hp]

lemma onPath_of_lt {h p q : ℕ} (hp : p < h) : OnPath n h p q ↔ (h ≤ q ∧ q < n) ∨ q < p := by
  unfold OnPath
  rw [if_neg (Nat.not_le.mpr hp)]

lemma not_onPath_end (h p : ℕ) : ¬ OnPath n h p p := by
  unfold OnPath
  split_ifs <;> omega

lemma not_onPath_of_lt {h p i : ℕ} (hpi : p < i) (hh : h ≤ p ∨ i < h) : ¬ OnPath n h p i := by
  unfold OnPath
  split_ifs <;> omega

lemma onPath_next {i c q : ℕ} (hi : i < n) (hq : OnPath n i c q) :
    q = i ∨ OnPath n ((i + 1) % n) c q := by
  rcases Nat.lt_or_ge (i + 1) n with hlt | hge
  · rw [Nat.mod_eq_of_lt hlt]
    unfold OnPath at hq ⊢
    split_ifs at hq ⊢ <;> omega
  · rw [show i + 1 = n by omega, Nat.mod_self]
    unfold OnPath at hq ⊢
    split_ifs at hq ⊢ <;> omega

lemma not_onPath_of_lt_home {h p i : ℕ} (hhp : h ≤ p) (hih : i < h) : ¬ OnPath n h p i := by
  rw [onPath_of_le hhp]
  omega

lemma onPath_or {h p q : ℕ} (hp : p < n) (hq : q < n) (hpq : p ≠ q) : OnPath n h q p ∨ OnPath n h p q := by
  unfold OnPath
  split_ifs <;> omega

end Path

variable (n : ℕ) (home : β → ℕ)

/-- The value in cell `p` is found by a probe from its home: every cell on the way is taken. -/
def Placed (t : ℕ → β) (p : ℕ) : Prop := ∀ q < n, OnPath n (home (t p)) p q → t q ≠ 0

def WellFormed (t : ℕ → β) : Prop := ∀ p < n, t p ≠ 0 → Placed n home t p

/-- `c` is the cell where a probe from `h` for a free cell stops. -/
def FirstFree (t : ℕ → β) (h c : ℕ) : Prop := c < n ∧ t c = 0 ∧ ∀ q < n, OnPath n h c q → t q ≠ 0

variable (keep : β → Prop)

/-- One visit of cell `i`: an empty cell is passed over, a value that is not kept is removed, and
a kept value is taken out and put back at the first free cell from its home, which is cell `i`
again when the value is at home. -/
inductive Visit (i : ℕ) (t : ℕ → β) : (ℕ → β) → Prop
  | empty : t i = 0 → Visit i t t
  | drop : t i ≠ 0 → ¬ keep (t i) → Visit i t (update t i 0)
  | move (c : ℕ) : t i ≠ 0 → keep (t i) → FirstFree n (update t i 0) (home (t i)) c →
      Visit i t (update (update t i 0) c (t i))

variable {n home keep}

section Frame

variable {t : ℕ → β}

lemma Placed.taken_of_le {p : ℕ} (h : Placed n home t p) (hle : home (t p) ≤ p) (hp : p < n) {q : ℕ}
    (hq : home (t p) ≤ q) (hqp : q < p) : t q ≠ 0 :=
  h q (by omega) ((onPath_of_le hle).mpr ⟨hq, hqp⟩)

lemma Placed.taken_of_lt {p : ℕ} (h : Placed n home t p) (hlt : p < home (t p)) (hp : p < n) :
    (∀ q, home (t p) ≤ q → q < n → t q ≠ 0) ∧ ∀ q < p, t q ≠ 0 :=
  ⟨fun q hq hqn => h q hqn ((onPath_of_lt hlt).mpr (.inl ⟨hq, hqn⟩)),
    fun q hq => h q (by omega) ((onPath_of_lt hlt).mpr (.inr hq))⟩

lemma Placed.home_between {p z : ℕ} (h : Placed n home t p) (hp : p < n) (hz : t z = 0) (hzp : z < p) :
    z < home (t p) ∧ home (t p) ≤ p := by
  by_cases hle : home (t p) ≤ p
  · refine ⟨?_, hle⟩
    by_contra hzh
    exact h.taken_of_le hle hp (by omega) hzp hz
  · exact absurd hz ((h.taken_of_lt (by omega) hp).2 z hzp)

lemma Placed.lt_home_of_lt {p z : ℕ} (h : Placed n home t p) (hp : p < n) (hz : t z = 0) (hzn : z < n)
    (hlt : p < home (t p)) : z < home (t p) := by
  by_contra hzh
  exact (h.taken_of_lt hlt hp).1 z (by omega) hzn hz

lemma placed_self {p : ℕ} (hp : home (t p) = p) : Placed n home t p := by
  intro q _ hq
  rw [hp, onPath_of_le le_rfl] at hq
  omega

lemma Placed.update_zero {p i : ℕ} (h : Placed n home t p) (hpi : p ≠ i) (hoff : ¬ OnPath n (home (t p)) p i) :
    Placed n home (update t i 0) p := by
  intro q hq hon
  rw [update_of_ne hpi] at hon
  have hqi : q ≠ i := by
    rintro rfl
    exact hoff hon
  rw [update_of_ne hqi]
  exact h q hq hon

lemma Placed.update_of_free {p c : ℕ} (h : Placed n home t p) (hpc : p ≠ c) (hc : t c = 0) (v : β) :
    Placed n home (update t c v) p := by
  intro q hq hon
  rw [update_of_ne hpc] at hon
  have hqc : q ≠ c := by
    rintro rfl
    exact h q hq hon hc
  rw [update_of_ne hqc]
  exact h q hq hon

lemma placed_firstFree {c : ℕ} {v : β} (h : FirstFree n t (home v) c) : Placed n home (update t c v) c := by
  intro q hq hon
  rw [update_self] at hon
  have hqc : q ≠ c := by
    rintro rfl
    exact not_onPath_end _ _ hon
  rw [update_of_ne hqc]
  exact h.2.2 q hq hon

lemma firstFree_self {i : ℕ} (hi : i < n) (hfree : t i = 0) : FirstFree n t i i :=
  ⟨hi, hfree, fun _ _ hon => absurd hon (by rw [onPath_of_le le_rfl]; omega)⟩

lemma FirstFree.between {h c i : ℕ} (hc : FirstFree n t h c) (hhi : h ≤ i) (hi : i < n) (hfree : t i = 0) :
    h ≤ c ∧ c ≤ i := by
  obtain ⟨hcn, -, hpath⟩ := hc
  by_contra hout
  refine hpath i hi ?_ hfree
  by_cases hle : h ≤ c
  · rw [onPath_of_le hle]
    omega
  · rw [onPath_of_lt (by omega)]
    omega

lemma FirstFree.around {h c i : ℕ} (hc : FirstFree n t h c)
    (htaken : ∀ q, h ≤ q → q < n → t q ≠ 0) (hfree : t i = 0) : c < h ∧ c ≤ i := by
  obtain ⟨hcn, hcfree, hpath⟩ := hc
  have hch : c < h := by
    by_contra hle
    exact htaken c (by omega) hcn hcfree
  refine ⟨hch, ?_⟩
  by_contra hlt
  by_cases hih : h ≤ i
  · exact htaken i hih (by omega) hfree
  · exact hpath i (by omega) ((onPath_of_lt hch).mpr (.inr (by omega))) hfree

lemma visit_cases {i : ℕ} {t t' : ℕ → β} (hv : Visit n home keep i t t') :
    (t' = update t i 0 ∧ (t i ≠ 0 → ¬ keep (t i))) ∨
      (t i ≠ 0 ∧ keep (t i) ∧ ∃ c, FirstFree n (update t i 0) (home (t i)) c ∧
        t' = update (update t i 0) c (t i)) := by
  cases hv with
  | empty h0 => exact .inl ⟨(update_eq_self_iff.mpr h0.symm).symm, fun h => absurd h0 h⟩
  | drop h0 hk => exact .inl ⟨rfl, fun _ => hk⟩
  | move c h0 hk hc => exact .inr ⟨h0, hk, c, hc, rfl⟩

lemma Visit.congr {n' : ℕ} {home' : β → ℕ} {i : ℕ} {t t' : ℕ → β} (hn : n = n') (hhome : home = home')
    (hv : Visit n home keep i t t') : Visit n' home' keep i t t' := by
  subst hn hhome
  exact hv

lemma Visit.kept {i q : ℕ} {t t' : ℕ → β} (hv : Visit n home keep i t t') (hq : t' q ≠ 0) :
    keep (t' q) ∨ (q ≠ i ∧ t' q = t q) := by
  cases hv with
  | empty h0 => exact .inr ⟨fun hqi => hq (hqi ▸ h0), rfl⟩
  | drop h0 hk =>
    have hqi : q ≠ i := fun hqi => hq (hqi ▸ update_self _ _ _)
    exact .inr ⟨hqi, update_of_ne hqi _ _⟩
  | move c h0 hk hc =>
    by_cases hqc : q = c
    · subst hqc
      rw [update_self]
      exact .inl hk
    · rw [update_of_ne hqc] at hq ⊢
      have hqi : q ≠ i := fun hqi => hq (hqi ▸ update_self _ _ _)
      exact .inr ⟨hqi, update_of_ne hqi _ _⟩

lemma WellFormed.update_of_firstFree {c : ℕ} {v : β} (hwf : WellFormed n home t) (hc : FirstFree n t (home v) c) :
    WellFormed n home (update t c v) := by
  intro p hp hp0
  by_cases hpc : p = c
  · subst hpc
    exact placed_firstFree hc
  · rw [update_of_ne hpc] at hp0
    exact (hwf p hp hp0).update_of_free hpc hc.2.1 v

lemma WellFormed.ne_of_firstFree {c : ℕ} {v : β} (hwf : WellFormed n home t) (hv : v ≠ 0)
    (hc : FirstFree n t (home v) c) (hpath : ∀ q < n, OnPath n (home v) c q → t q ≠ v) :
    ∀ p < n, t p ≠ v := by
  intro p hp hpv
  have hplaced : ∀ q < n, OnPath n (home v) p q → t q ≠ 0 := by
    rw [← hpv]
    exact hwf p hp (hpv ▸ hv)
  have hpc : p ≠ c := fun hpc => hv (hpv ▸ hpc ▸ hc.2.1)
  rcases onPath_or hp hc.1 hpc with hon | hon
  · exact hpath p hp hon hpv
  · exact hplaced c hc.1 hon hc.2.1

end Frame

section FirstPass

variable (n home)

/-- Below the free cell `z`: a value found from a home at or below it, or one whose probe went
around the end from above `z`, with every cell below it taken. -/
def LowPlaced (t : ℕ → β) (z p : ℕ) : Prop :=
  (home (t p) ≤ p ∧ Placed n home t p) ∨ (z < home (t p) ∧ ∀ q < p, t q ≠ 0)

/-- Above the free cell `z`: a value found from a home above `z`, without going around the end. -/
def HighPlaced (t : ℕ → β) (z p : ℕ) : Prop := z < home (t p) ∧ home (t p) ≤ p ∧ Placed n home t p

/-- What the first round, started from `t₀` and cut at its free cell `z`, has done before cell
`i`: the cells from `i` on are untouched, and the values below are placed as the round leaves them. -/
structure FirstPass (t₀ : ℕ → β) (z i : ℕ) (t : ℕ → β) : Prop where
  ahead : ∀ q, i ≤ q → q < n → t q = t₀ q
  free : t z = 0
  low : ∀ p < min i z, t p ≠ 0 → LowPlaced n home t z p
  high : ∀ p, z < p → p < i → t p ≠ 0 → HighPlaced n home t z p

/-- What the first round leaves, cut at the free cell `z`. -/
structure FirstPassDone (t : ℕ → β) (z : ℕ) : Prop where
  free : t z = 0
  low : ∀ p < z, t p ≠ 0 → LowPlaced n home t z p
  high : ∀ p, z < p → p < n → t p ≠ 0 → HighPlaced n home t z p

variable {n home}

section Update

variable {t : ℕ → β} {z p : ℕ}

lemma lowPlaced_of_placed (h : Placed n home t p) (hp : p < n) (hh : home (t p) ≤ p ∨ z < home (t p)) :
    LowPlaced n home t z p := by
  by_cases hle : home (t p) ≤ p
  · exact .inl ⟨hle, h⟩
  · exact .inr ⟨hh.resolve_left hle, (h.taken_of_lt (by omega) hp).2⟩

lemma LowPlaced.update_zero {i : ℕ} (h : LowPlaced n home t z p) (hpi : p < i) :
    LowPlaced n home (update t i 0) z p := by
  unfold LowPlaced
  rw [update_of_ne (Nat.ne_of_lt hpi)]
  rcases h with ⟨hle, hplaced⟩ | ⟨hz, hrun⟩
  · exact .inl ⟨hle, hplaced.update_zero (Nat.ne_of_lt hpi) (not_onPath_of_lt hpi (.inl hle))⟩
  · refine .inr ⟨hz, fun q hq => ?_⟩
    rw [update_of_ne (by omega)]
    exact hrun q hq

lemma LowPlaced.update_of_free {c : ℕ} (h : LowPlaced n home t z p) (hpc : p ≠ c) (hc : t c = 0) (v : β) :
    LowPlaced n home (update t c v) z p := by
  unfold LowPlaced
  rw [update_of_ne hpc]
  rcases h with ⟨hle, hplaced⟩ | ⟨hz, hrun⟩
  · exact .inl ⟨hle, hplaced.update_of_free hpc hc v⟩
  · refine .inr ⟨hz, fun q hq => ?_⟩
    have hqc : q ≠ c := by
      rintro rfl
      exact hrun q hq hc
    rw [update_of_ne hqc]
    exact hrun q hq

lemma HighPlaced.update_zero {i : ℕ} (h : HighPlaced n home t z p) (hpi : p ≠ i) (hih : i < home (t p)) :
    HighPlaced n home (update t i 0) z p := by
  obtain ⟨hz, hle, hplaced⟩ := h
  unfold HighPlaced
  rw [update_of_ne hpi]
  exact ⟨hz, hle, hplaced.update_zero hpi (not_onPath_of_lt_home hle hih)⟩

lemma HighPlaced.update_zero_of_lt {i : ℕ} (h : HighPlaced n home t z p) (hpi : p < i) :
    HighPlaced n home (update t i 0) z p := by
  obtain ⟨hz, hle, hplaced⟩ := h
  unfold HighPlaced
  rw [update_of_ne (Nat.ne_of_lt hpi)]
  exact ⟨hz, hle, hplaced.update_zero (Nat.ne_of_lt hpi) (not_onPath_of_lt hpi (.inl hle))⟩

lemma HighPlaced.update_of_free {c : ℕ} (h : HighPlaced n home t z p) (hpc : p ≠ c) (hc : t c = 0) (v : β) :
    HighPlaced n home (update t c v) z p := by
  obtain ⟨hz, hle, hplaced⟩ := h
  unfold HighPlaced
  rw [update_of_ne hpc]
  exact ⟨hz, hle, hplaced.update_of_free hpc hc v⟩

end Update

variable {t₀ t : ℕ → β} {z i : ℕ}

lemma firstPass_start (hz : t₀ z = 0) : FirstPass n home t₀ z 0 t₀ :=
  ⟨fun _ _ _ => rfl, hz, fun p hp => absurd hp (by omega), fun p _ hp => absurd hp (by omega)⟩

lemma FirstPass.clear (h : FirstPass n home t₀ z i t) : FirstPass n home t₀ z (i + 1) (update t i 0) where
  ahead q hq hqn := by
    rw [update_of_ne (by omega)]
    exact h.ahead q (by omega) hqn
  free := by
    by_cases hzi : z = i
    · rw [hzi, update_self]
    · rw [update_of_ne hzi, h.free]
  low p hp hp0 := by
    have hpi : p ≠ i := by
      rintro rfl
      exact hp0 (update_self _ _ _)
    rw [update_of_ne hpi] at hp0
    exact (h.low p (by omega) hp0).update_zero (by omega)
  high p hzp hp hp0 := by
    have hpi : p ≠ i := by
      rintro rfl
      exact hp0 (update_self _ _ _)
    rw [update_of_ne hpi] at hp0
    exact (h.high p hzp (by omega) hp0).update_zero_of_lt (by omega)

lemma FirstPass.fill {c : ℕ} {v : β} (h : FirstPass n home t₀ z (i + 1) t) (hc : t c = 0) (hci : c ≤ i)
    (hcz : c ≠ z) (hlow : c < z → LowPlaced n home (update t c v) z c)
    (hhigh : z < c → HighPlaced n home (update t c v) z c) :
    FirstPass n home t₀ z (i + 1) (update t c v) where
  ahead q hq hqn := by
    rw [update_of_ne (by omega)]
    exact h.ahead q hq hqn
  free := by rw [update_of_ne (Ne.symm hcz), h.free]
  low p hp hp0 := by
    by_cases hpc : p = c
    · subst hpc
      exact hlow (by omega)
    · rw [update_of_ne hpc] at hp0
      exact (h.low p hp hp0).update_of_free hpc hc v
  high p hzp hp hp0 := by
    by_cases hpc : p = c
    · subst hpc
      exact hhigh hzp
    · rw [update_of_ne hpc] at hp0
      exact (h.high p hzp hp hp0).update_of_free hpc hc v

lemma FirstPass.done (h : FirstPass n home t₀ z n t) (hzn : z < n) : FirstPassDone n home t z :=
  ⟨h.free, fun p hp => h.low p (by omega), h.high⟩

variable (hwf : WellFormed n home t₀) (hzn : z < n) (hz0 : t₀ z = 0)
include hwf hzn hz0

/-- Where the value of cell `i` is put back, and how it is placed there. Below `z` its probe
stops by cell `i`, going around the end when its home is above `i`: the cells from that home to
the end are still untouched. Above `z` its home lies between `z` and `i`. -/
lemma FirstPass.landing (h : FirstPass n home t₀ z i t) (hi : i < n) (hi0 : t i ≠ 0) {c : ℕ}
    (hc : FirstFree n (update t i 0) (home (t i)) c) :
    c ≤ i ∧ c ≠ z ∧ (c < z → LowPlaced n home (update (update t i 0) c (t i)) z c) ∧
      (z < c → HighPlaced n home (update (update t i 0) c (t i)) z c) := by
  have hx : t i = t₀ i := h.ahead i le_rfl hi
  have hplaced : Placed n home t₀ i := hwf i hi (hx ▸ hi0)
  have hfree_i : update t i 0 i = 0 := update_self _ _ _
  have hnew : Placed n home (update (update t i 0) c (t i)) c := placed_firstFree hc
  have hcn : c < n := hc.1
  rcases lt_trichotomy i z with hiz | rfl | hzi
  · by_cases hle : home (t i) ≤ i
    · -- a home at or below `i`: the probe stops between the home and `i`
      obtain ⟨hhc, hci⟩ := hc.between hle hi hfree_i
      refine ⟨hci, by omega, fun _ => lowPlaced_of_placed hnew hcn ?_, fun hzc => absurd hzc (by omega)⟩
      rw [update_self]
      exact .inl hhc
    · -- a home above `i`: the cells from it to the end are untouched, so the probe goes around
      have hlt : i < home (t i) := by omega
      rw [hx] at hlt
      obtain ⟨htaken, -⟩ := hplaced.taken_of_lt hlt hi
      have hzh : z < home (t₀ i) := hplaced.lt_home_of_lt hi hz0 hzn hlt
      rw [← hx] at htaken hzh hlt
      have htaken' : ∀ q, home (t i) ≤ q → q < n → update t i 0 q ≠ 0 := by
        intro q hq hqn
        rw [update_of_ne (by omega), h.ahead q (by omega) hqn]
        exact htaken q hq hqn
      obtain ⟨-, hci⟩ := hc.around htaken' hfree_i
      refine ⟨hci, by omega, fun _ => lowPlaced_of_placed hnew hcn ?_, fun hzc => absurd hzc (by omega)⟩
      rw [update_self]
      exact .inr hzh
  · exact absurd h.free hi0
  · obtain ⟨hzh, hhi⟩ := hplaced.home_between hi hz0 hzi
    rw [← hx] at hzh hhi
    obtain ⟨hhc, hci⟩ := hc.between hhi hi hfree_i
    refine ⟨hci, by omega, fun hcz => absurd hcz (by omega), fun _ => ⟨?_, ?_, hnew⟩⟩
    · rw [update_self]
      omega
    · rw [update_self]
      exact hhc

lemma FirstPass.visit (h : FirstPass n home t₀ z i t) (hi : i < n) {t' : ℕ → β}
    (hv : Visit n home keep i t t') : FirstPass n home t₀ z (i + 1) t' := by
  rcases visit_cases hv with ⟨rfl, -⟩ | ⟨hi0, -, c, hc, rfl⟩
  · exact h.clear
  · obtain ⟨hci, hcz, hlow, hhigh⟩ := h.landing hwf hzn hz0 hi hi0 hc
    exact h.clear.fill hc.2.1 hci hcz hlow hhigh

end FirstPass

section SecondPass

variable (n home)

/-- What the second round, over the first run of taken cells of the table `t₂` that the first
round left, has done before cell `i`. -/
structure SecondPass (t₂ : ℕ → β) (z i : ℕ) (t : ℕ → β) : Prop where
  ahead : ∀ q, i ≤ q → q ≤ z → t q = t₂ q
  low : ∀ p < i, t p ≠ 0 → Placed n home t p ∧ (home (t p) ≤ p ∨ z < home (t p))
  high : ∀ p, z < p → p < n → t p ≠ 0 → HighPlaced n home t z p

variable {n home} {t₂ t : ℕ → β} {z i : ℕ}

lemma secondPass_start (h : FirstPassDone n home t₂ z) : SecondPass n home t₂ z 0 t₂ :=
  ⟨fun _ _ _ => rfl, fun p hp => absurd hp (by omega), h.high⟩

lemma SecondPass.clear (h : SecondPass n home t₂ z i t) (hiz : i ≤ z) :
    SecondPass n home t₂ z (i + 1) (update t i 0) where
  ahead q hq hqz := by
    rw [update_of_ne (by omega)]
    exact h.ahead q (by omega) hqz
  low p hp hp0 := by
    have hpi : p ≠ i := by
      rintro rfl
      exact hp0 (update_self _ _ _)
    rw [update_of_ne hpi] at hp0 ⊢
    obtain ⟨hplaced, hh⟩ := h.low p (by omega) hp0
    exact ⟨hplaced.update_zero hpi (not_onPath_of_lt (by omega) (hh.imp_right fun _ => by omega)), hh⟩
  high p hzp hp hp0 := by
    have hpi : p ≠ i := by omega
    rw [update_of_ne hpi] at hp0
    have hhigh := h.high p hzp hp hp0
    exact hhigh.update_zero hpi (by have := hhigh.1; omega)

lemma SecondPass.fill {c : ℕ} {v : β} (h : SecondPass n home t₂ z i t) (hc : t c = 0) (hci : c < i ∨ z < c)
    (hlow : c < i → Placed n home (update t c v) c ∧
      (home (update t c v c) ≤ c ∨ z < home (update t c v c)))
    (hhigh : z < c → HighPlaced n home (update t c v) z c) : SecondPass n home t₂ z i (update t c v) where
  ahead q hq hqz := by
    rw [update_of_ne (by omega)]
    exact h.ahead q hq hqz
  low p hp hp0 := by
    by_cases hpc : p = c
    · subst hpc
      exact hlow hp
    · rw [update_of_ne hpc] at hp0 ⊢
      obtain ⟨hplaced, hh⟩ := h.low p hp hp0
      exact ⟨hplaced.update_of_free hpc hc v, hh⟩
  high p hzp hp hp0 := by
    by_cases hpc : p = c
    · subst hpc
      exact hhigh hzp
    · rw [update_of_ne hpc] at hp0
      exact (h.high p hzp hp hp0).update_of_free hpc hc v

/-- The second round stops at the first free cell `e`: the table is then well formed. The cells from
`e` to `z` are untouched, and a value among them is found from a home above `e`. -/
lemma SecondPass.wellFormed (h : SecondPass n home t₂ z i t) (hdone : FirstPassDone n home t₂ z)
    (he : t₂ i = 0) (hzn : z < n) : WellFormed n home t := by
  intro p hp hp0
  rcases Nat.lt_or_ge p i with hpi | hpi
  · exact (h.low p hpi hp0).1
  rcases Nat.lt_or_ge z p with hzp | hpz
  · exact (h.high p hzp hp hp0).2.2
  have hp' : t p = t₂ p := h.ahead p hpi hpz
  rw [hp'] at hp0
  have hip : i < p := by
    rcases Nat.eq_or_lt_of_le hpi with rfl | hlt
    · exact absurd he hp0
    · exact hlt
  have hpz' : p < z := by
    rcases Nat.eq_or_lt_of_le hpz with rfl | hlt
    · exact absurd hdone.free hp0
    · exact hlt
  rcases hdone.low p hpz' hp0 with ⟨hle, hplaced⟩ | ⟨-, hrun⟩
  · obtain ⟨hih, -⟩ := hplaced.home_between hp he hip
    intro q hq hon
    rw [hp', onPath_of_le hle] at hon
    rw [h.ahead q (by omega) (by omega)]
    exact hplaced.taken_of_le hle hp hon.1 hon.2
  · exact absurd he (hrun i hip)

variable (hdone : FirstPassDone n home t₂ z) (hrun : ∀ q ≤ i, t₂ q ≠ 0)
include hdone hrun

lemma SecondPass.lt_free : i < z := by
  by_contra hzi
  exact hrun z (by omega) hdone.free

/-- Where the second round puts the value of cell `i` back. A value found from a home at or below
`i` stops by cell `i`; one whose probe went around the end stops at a cell freed above `z`
since, or goes around the end again and stops by cell `i`. -/
lemma SecondPass.landing (h : SecondPass n home t₂ z i t) (hi : i < n) {c : ℕ}
    (hc : FirstFree n (update t i 0) (home (t i)) c) :
    (c ≤ i ∨ z < c) ∧
      (c ≤ i → Placed n home (update (update t i 0) c (t i)) c ∧
        (home (update (update t i 0) c (t i) c) ≤ c ∨ z < home (update (update t i 0) c (t i) c))) ∧
      (z < c → HighPlaced n home (update (update t i 0) c (t i)) z c) := by
  have hiz := SecondPass.lt_free hdone hrun
  have hx : t i = t₂ i := h.ahead i le_rfl (by omega)
  have hfree_i : update t i 0 i = 0 := update_self _ _ _
  have hnew : Placed n home (update (update t i 0) c (t i)) c := placed_firstFree hc
  rw [update_self]
  rcases hdone.low i hiz (hrun i le_rfl) with ⟨hle, -⟩ | ⟨hzh, -⟩
  · rw [← hx] at hle
    obtain ⟨-, hci⟩ := hc.between hle hi hfree_i
    exact ⟨.inl hci, fun _ => ⟨hnew, .inl (by have := (hc.between hle hi hfree_i).1; omega)⟩,
      fun hzc => absurd hzc (by omega)⟩
  · rw [← hx] at hzh
    by_cases hgap : ∃ q, home (t i) ≤ q ∧ q < n ∧ update t i 0 q = 0
    · -- a cell freed on the way to the end: the probe stops above `z`
      obtain ⟨q, hq, hqn, hq0⟩ := hgap
      obtain ⟨hhc, -⟩ := hc.between hq hqn hq0
      refine ⟨.inr (by omega), fun hci => absurd hci (by omega), fun _ => ?_⟩
      unfold HighPlaced
      rw [update_self]
      exact ⟨hzh, hhc, hnew⟩
    · -- no cell freed on the way: the probe goes around the end again
      push Not at hgap
      obtain ⟨hch, hci⟩ := hc.around hgap hfree_i
      exact ⟨.inl hci, fun _ => ⟨hnew, .inr hzh⟩, fun hzc => absurd hzc (by omega)⟩

lemma SecondPass.visit (h : SecondPass n home t₂ z i t) (hi : i < n) {t' : ℕ → β}
    (hv : Visit n home (fun _ => True) i t t') : SecondPass n home t₂ z (i + 1) t' := by
  have hiz := SecondPass.lt_free hdone hrun
  rcases visit_cases hv with ⟨-, hkeep⟩ | ⟨-, -, c, hc, rfl⟩
  · exact absurd trivial (hkeep (h.ahead i le_rfl (by omega) ▸ hrun i le_rfl))
  · obtain ⟨hci, hlow, hhigh⟩ := h.landing hdone hrun hi hc
    exact (h.clear (by omega)).fill hc.2.1 (hci.imp_left (by omega)) (fun hc' => hlow (by omega)) hhigh

end SecondPass

section Resize

variable (n : ℕ) (homeNew : β → ℕ)

/-- What the round of a table grown from `n` to `2 * n` cells over its old cells has done before
cell `i`: the old cells from `i` on are untouched; a value below `i` is found, from a home at or
below it or from a new cell; a value in the new cells is found from a home among them, or came from
an old home and has every new cell below it taken. -/
structure ResizePass (t₀ : ℕ → β) (i : ℕ) (t : ℕ → β) : Prop where
  ahead : ∀ q, i ≤ q → q < n → t q = t₀ q
  low : ∀ p < i, t p ≠ 0 → Placed (2 * n) homeNew t p ∧ (homeNew (t p) ≤ p ∨ n ≤ homeNew (t p))
  high : ∀ p, n ≤ p → p < 2 * n → t p ≠ 0 →
    (n ≤ homeNew (t p) ∧ homeNew (t p) ≤ p ∧ Placed (2 * n) homeNew t p) ∨
      (homeNew (t p) < n ∧ ∀ q, n ≤ q → q < p → t q ≠ 0)

/-- What the round over the first run of taken cells from `n` on, which ends at the free cell `r`,
has done before cell `i`. -/
structure ResizeTail (tM : ℕ → β) (r i : ℕ) (t : ℕ → β) : Prop where
  ahead : ∀ q, i ≤ q → q ≤ r → t q = tM q
  low : ∀ p < n, t p ≠ 0 → Placed (2 * n) homeNew t p ∧ (homeNew (t p) ≤ p ∨ r < homeNew (t p))
  mid : ∀ p, n ≤ p → p < i → t p ≠ 0 → Placed (2 * n) homeNew t p ∧ homeNew (t p) ≤ p
  high : ∀ p, r < p → p < 2 * n → t p ≠ 0 → HighPlaced (2 * n) homeNew t r p

variable {n homeNew} {t₀ tM t : ℕ → β} {i r : ℕ}

lemma resizePass_start (hnew : ∀ q, n ≤ q → t₀ q = 0) : ResizePass n homeNew t₀ 0 t₀ :=
  ⟨fun _ _ _ => rfl, fun p hp => absurd hp (by omega), fun p hp _ hp0 => absurd (hnew p hp) hp0⟩

lemma ResizePass.clear (h : ResizePass n homeNew t₀ i t) (hi : i < n) :
    ResizePass n homeNew t₀ (i + 1) (update t i 0) where
  ahead q hq hqn := by
    rw [update_of_ne (by omega)]
    exact h.ahead q (by omega) hqn
  low p hp hp0 := by
    have hpi : p ≠ i := by
      rintro rfl
      exact hp0 (update_self _ _ _)
    rw [update_of_ne hpi] at hp0 ⊢
    obtain ⟨hplaced, hh⟩ := h.low p (by omega) hp0
    exact ⟨hplaced.update_zero hpi (not_onPath_of_lt (by omega) (hh.imp_right fun _ => by omega)), hh⟩
  high p hnp hp hp0 := by
    have hpi : p ≠ i := by omega
    rw [update_of_ne hpi] at hp0 ⊢
    rcases h.high p hnp hp hp0 with ⟨hn, hle, hplaced⟩ | ⟨hlt, hrun⟩
    · exact .inl ⟨hn, hle, hplaced.update_zero hpi (not_onPath_of_lt_home hle (by omega))⟩
    · refine .inr ⟨hlt, fun q hq hqp => ?_⟩
      rw [update_of_ne (by omega)]
      exact hrun q hq hqp

lemma ResizePass.fill {c : ℕ} {v : β} (h : ResizePass n homeNew t₀ i t) (hc : t c = 0) (hci : c < i ∨ n ≤ c)
    (hlow : c < i → Placed (2 * n) homeNew (update t c v) c ∧
      (homeNew (update t c v c) ≤ c ∨ n ≤ homeNew (update t c v c)))
    (hhigh : n ≤ c →
      (n ≤ homeNew (update t c v c) ∧ homeNew (update t c v c) ≤ c ∧ Placed (2 * n) homeNew (update t c v) c) ∨
        (homeNew (update t c v c) < n ∧ ∀ q, n ≤ q → q < c → update t c v q ≠ 0)) :
    ResizePass n homeNew t₀ i (update t c v) where
  ahead q hq hqn := by
    rw [update_of_ne (by omega)]
    exact h.ahead q hq hqn
  low p hp hp0 := by
    by_cases hpc : p = c
    · subst hpc
      exact hlow hp
    · rw [update_of_ne hpc] at hp0 ⊢
      obtain ⟨hplaced, hh⟩ := h.low p hp hp0
      exact ⟨hplaced.update_of_free hpc hc v, hh⟩
  high p hnp hp hp0 := by
    by_cases hpc : p = c
    · subst hpc
      exact hhigh hnp
    · rw [update_of_ne hpc] at hp0 ⊢
      rcases h.high p hnp hp hp0 with ⟨hn, hle, hplaced⟩ | ⟨hlt, hrun⟩
      · exact .inl ⟨hn, hle, hplaced.update_of_free hpc hc v⟩
      · refine .inr ⟨hlt, fun q hq hqp => ?_⟩
        have hqc : q ≠ c := by
          rintro rfl
          exact hrun q hq hqp hc
        rw [update_of_ne hqc]
        exact hrun q hq hqp

section Landing

variable {homeOld : β → ℕ} (hwf : WellFormed n homeOld t₀)
  (hrel : ∀ v, homeNew v = homeOld v ∨ homeNew v = homeOld v + n)
include hwf hrel

/-- Where the round over the old cells puts the value of cell `i`. A home at or below `i` keeps it
by cell `i`; a home among the new cells sends it there, or around the end by cell `i`; an old home
above `i` has every old cell from it to the end taken, so the probe goes on into the new cells,
which have a free cell. -/
lemma ResizePass.landing (h : ResizePass n homeNew t₀ i t) (hi : i < n) (hi0 : t i ≠ 0)
    (hfree : ∃ q, n ≤ q ∧ q < 2 * n ∧ t q = 0) {c : ℕ}
    (hc : FirstFree (2 * n) (update t i 0) (homeNew (t i)) c) :
    (c ≤ i ∨ n ≤ c) ∧
      (c ≤ i → Placed (2 * n) homeNew (update (update t i 0) c (t i)) c ∧
        (homeNew (update (update t i 0) c (t i) c) ≤ c ∨ n ≤ homeNew (update (update t i 0) c (t i) c))) ∧
      (n ≤ c →
        (n ≤ homeNew (update (update t i 0) c (t i) c) ∧ homeNew (update (update t i 0) c (t i) c) ≤ c ∧
          Placed (2 * n) homeNew (update (update t i 0) c (t i)) c) ∨
        (homeNew (update (update t i 0) c (t i) c) < n ∧
          ∀ q, n ≤ q → q < c → update (update t i 0) c (t i) q ≠ 0)) := by
  have hx : t i = t₀ i := h.ahead i le_rfl hi
  have hfree_i : update t i 0 i = 0 := update_self _ _ _
  have hnew : Placed (2 * n) homeNew (update (update t i 0) c (t i)) c := placed_firstFree hc
  rw [update_self]
  by_cases hle : homeNew (t i) ≤ i
  · -- a home at or below `i`
    obtain ⟨hhc, hci⟩ := hc.between hle (by omega) hfree_i
    exact ⟨.inl hci, fun _ => ⟨hnew, .inl hhc⟩, fun hnc => absurd hnc (by omega)⟩
  by_cases hn : n ≤ homeNew (t i)
  · -- a home among the new cells
    by_cases hgap : ∃ q, homeNew (t i) ≤ q ∧ q < 2 * n ∧ update t i 0 q = 0
    · obtain ⟨q, hq, hqn, hq0⟩ := hgap
      obtain ⟨hhc, -⟩ := hc.between hq hqn hq0
      exact ⟨.inr (by omega), fun hci => absurd hci (by omega), fun _ => .inl ⟨hn, hhc, hnew⟩⟩
    · push Not at hgap
      obtain ⟨-, hci⟩ := hc.around hgap hfree_i
      exact ⟨.inl hci, fun _ => ⟨hnew, .inr hn⟩, fun hnc => absurd hnc (by omega)⟩
  · -- an old home above `i`: the probe passes the old cells from it and stops in the new cells
    have hold : homeNew (t i) = homeOld (t i) := (hrel (t i)).resolve_right (by omega)
    have hlt : i < homeOld (t₀ i) := by rw [← hx, ← hold]; omega
    obtain ⟨htaken, -⟩ := (hwf i hi (hx ▸ hi0)).taken_of_lt hlt hi
    rw [← hx, ← hold] at htaken
    obtain ⟨q, hnq, hq2, hq0⟩ := hfree
    have hq0' : update t i 0 q = 0 := by rw [update_of_ne (by omega), hq0]
    obtain ⟨hhc, hcq⟩ := hc.between (by omega) hq2 hq0'
    have hnc : n ≤ c := by
      by_contra hcn
      have hc0 := hc.2.1
      rw [update_of_ne (by omega), h.ahead c (by omega) (by omega)] at hc0
      exact htaken c hhc (by omega) hc0
    refine ⟨.inr hnc, fun hci => absurd hci (by omega), fun _ => .inr ⟨by omega, fun q' hq' hq'c => ?_⟩⟩
    rw [update_of_ne (by omega)]
    exact hc.2.2 q' (by omega) ((onPath_of_le hhc).mpr ⟨by omega, hq'c⟩)

lemma ResizePass.visit (h : ResizePass n homeNew t₀ i t) (hi : i < n)
    (hfree : ∃ q, n ≤ q ∧ q < 2 * n ∧ t q = 0) {t' : ℕ → β}
    (hv : Visit (2 * n) homeNew (fun _ => True) i t t') : ResizePass n homeNew t₀ (i + 1) t' := by
  rcases visit_cases hv with ⟨rfl, -⟩ | ⟨hi0, -, c, hc, rfl⟩
  · exact h.clear hi
  · obtain ⟨hci, hlow, hhigh⟩ := h.landing hwf hrel hi hi0 hfree hc
    exact (h.clear hi).fill hc.2.1 (hci.imp_left (by omega)) (fun _ => hlow (by omega)) hhigh

end Landing

lemma resizeTail_start (hM : ResizePass n homeNew t₀ n tM) (hnr : n ≤ r) (hr : r < 2 * n) (hr0 : tM r = 0) :
    ResizeTail n homeNew tM r n tM where
  ahead _ _ _ := rfl
  low p hp hp0 := by
    obtain ⟨hplaced, hh⟩ := hM.low p hp hp0
    refine ⟨hplaced, hh.imp_right fun hn => ?_⟩
    exact hplaced.lt_home_of_lt (by omega) hr0 hr (by omega)
  mid p hnp hp := absurd hp (by omega)
  high p hrp hp hp0 := by
    rcases hM.high p (by omega) hp hp0 with ⟨-, hle, hplaced⟩ | ⟨-, hrun'⟩
    · exact ⟨(hplaced.home_between hp hr0 hrp).1, hle, hplaced⟩
    · exact absurd hr0 (hrun' r hnr hrp)

lemma ResizeTail.clear (h : ResizeTail n homeNew tM r i t) (hni : n ≤ i) (hir : i < r) :
    ResizeTail n homeNew tM r (i + 1) (update t i 0) where
  ahead q hq hqr := by
    rw [update_of_ne (by omega)]
    exact h.ahead q (by omega) hqr
  low p hp hp0 := by
    have hpi : p ≠ i := by omega
    rw [update_of_ne hpi] at hp0 ⊢
    obtain ⟨hplaced, hh⟩ := h.low p hp hp0
    exact ⟨hplaced.update_zero hpi (not_onPath_of_lt (by omega) (hh.imp_right fun _ => by omega)), hh⟩
  mid p hnp hp hp0 := by
    have hpi : p ≠ i := by
      rintro rfl
      exact hp0 (update_self _ _ _)
    rw [update_of_ne hpi] at hp0 ⊢
    obtain ⟨hplaced, hle⟩ := h.mid p hnp (by omega) hp0
    exact ⟨hplaced.update_zero hpi (not_onPath_of_lt (by omega) (.inl hle)), hle⟩
  high p hrp hp hp0 := by
    have hpi : p ≠ i := by omega
    rw [update_of_ne hpi] at hp0
    have hhigh := h.high p hrp hp hp0
    exact hhigh.update_zero hpi (by have := hhigh.1; omega)

lemma ResizeTail.fill {c : ℕ} {v : β} (h : ResizeTail n homeNew tM r i t) (hc : t c = 0) (hci : c < i)
    (hir : i ≤ r)
    (hlow : c < n → Placed (2 * n) homeNew (update t c v) c ∧
      (homeNew (update t c v c) ≤ c ∨ r < homeNew (update t c v c)))
    (hmid : n ≤ c → Placed (2 * n) homeNew (update t c v) c ∧ homeNew (update t c v c) ≤ c) :
    ResizeTail n homeNew tM r i (update t c v) where
  ahead q hq hqr := by
    rw [update_of_ne (by omega)]
    exact h.ahead q hq hqr
  low p hp hp0 := by
    by_cases hpc : p = c
    · subst hpc
      exact hlow hp
    · rw [update_of_ne hpc] at hp0 ⊢
      obtain ⟨hplaced, hh⟩ := h.low p hp hp0
      exact ⟨hplaced.update_of_free hpc hc v, hh⟩
  mid p hnp hp hp0 := by
    by_cases hpc : p = c
    · subst hpc
      exact hmid hnp
    · rw [update_of_ne hpc] at hp0 ⊢
      obtain ⟨hplaced, hle⟩ := h.mid p hnp hp hp0
      exact ⟨hplaced.update_of_free hpc hc v, hle⟩
  high p hrp hp hp0 := by
    have hpc : p ≠ c := by omega
    rw [update_of_ne hpc] at hp0
    exact (h.high p hrp hp hp0).update_of_free hpc hc v

lemma ResizeTail.visit (h : ResizeTail n homeNew tM r i t) (hM : ResizePass n homeNew t₀ n tM)
    (hni : n ≤ i) (hir : i < r) (hr : r < 2 * n) (hi0 : tM i ≠ 0) {t' : ℕ → β}
    (hv : Visit (2 * n) homeNew (fun _ => True) i t t') : ResizeTail n homeNew tM r (i + 1) t' := by
  have hx : t i = tM i := h.ahead i le_rfl (by omega)
  rcases visit_cases hv with ⟨-, hkeep⟩ | ⟨-, -, c, hc, rfl⟩
  · exact absurd trivial (hkeep (hx ▸ hi0))
  · have hle : homeNew (t i) ≤ i := by
      rw [hx]
      rcases hM.high i hni (by omega) hi0 with ⟨-, hle, -⟩ | ⟨hlt, -⟩
      · exact hle
      · omega
    obtain ⟨hhc, hci⟩ := hc.between hle (by omega) (update_self _ _ _)
    have hnew : Placed (2 * n) homeNew (update (update t i 0) c (t i)) c := placed_firstFree hc
    refine (h.clear hni hir).fill hc.2.1 (by omega) (by omega) (fun _ => ⟨hnew, ?_⟩) (fun _ => ⟨hnew, ?_⟩)
    · rw [update_self]
      exact .inl hhc
    · rw [update_self]
      exact hhc

lemma ResizeTail.wellFormed (h : ResizeTail n homeNew tM r r t) (hr0 : tM r = 0) :
    WellFormed (2 * n) homeNew t := by
  intro p hp hp0
  rcases Nat.lt_or_ge p n with hpn | hnp
  · exact (h.low p hpn hp0).1
  rcases Nat.lt_or_ge p r with hpr | hrp
  · exact (h.mid p hnp hpr hp0).1
  by_cases hpr : p = r
  · have hp0' : t p = 0 := by rw [h.ahead p (by omega) (by omega), hpr, hr0]
    exact absurd hp0' hp0
  · exact (h.high p (by omega) hp hp0).2.2

end Resize

end ClickHouse.Lib.ProbeRebuild
