import ClickHouse.Common.ErrorCodes
import ClickHouse.Lib.WordStream

/-! `Compression/FFOR.h`: frame-of-reference bit packing after FastLanes. Of `values` integers of
a type `T` of `w` bits, the base is subtracted and `bits` low bits of each are kept. The values
are dealt out to `values / w` interleaved chunks, value `iterations * s + i` being value `s` of
chunk `i`, and the `w` values of a chunk are packed into `bits` words, word `k` of chunk `i` at
`iterations * k + i`. The templates are unrolled over `step` at compile time; here `step` is an
argument and the unrolled sequence a fold over `List.range`. An array is a function from its
indices, so that the words past the packed ones stand for whatever the buffer holds. -/

namespace ClickHouse.Compression.FFOR

open ClickHouse.Common ClickHouse.Lib.WordStream

variable {w : ℕ}

def getIterations (w values : ℕ) : ℕ := values / w

namespace Details

/-- One step of chunk `index` of `bitPack`: the value at `step` joins the accumulator `agg`,
which is flushed first when the previous value filled its word. Step `w` only flushes. -/
def bitPackStep (bits step values : ℕ) (input : ℕ → BitVec w) (base : BitVec w) (index : ℕ)
    (out : ℕ → BitVec w) (agg : BitVec w) : (ℕ → BitVec w) × BitVec w :=
  let iterations := getIterations w values
  if 0 < bits ∧ bits < w then
    let shift := step * bits % w
    let mask : BitVec w := ((1 : BitVec w) <<< bits) - 1
    -- the part of the step that takes the current value, for `step < width`
    let take (agg : BitVec w) : BitVec w :=
      if step < w then agg ||| ((input (iterations * step + index) - base) &&& mask) <<< shift else agg
    if 0 < step ∧ shift < bits then
      let out := Function.update out (iterations * ((step - 1) * bits / w) + index) agg
      if w ≤ step then (out, agg)
      else if 0 < shift then
        -- the high bits of the previous value spill into the new word
        (out, take (((input (iterations * (step - 1) + index) - base) &&& mask) >>> (bits - shift)))
      else (out, take 0)
    else if step = 0 then (out, take 0)
    else (out, take agg)
  else if bits = w ∧ step < w then
    (Function.update out (iterations * step + index) (input (iterations * step + index) - base), agg)
  else (out, agg)

/-- Chunk `index` of `bitPack`: steps `0` to `w`, from an accumulator of zero. -/
def bitPackChunk (bits values : ℕ) (input : ℕ → BitVec w) (base : BitVec w) (index : ℕ)
    (out : ℕ → BitVec w) : ℕ → BitVec w :=
  ((List.range (w + 1)).foldl (fun st step => bitPackStep bits step values input base index st.1 st.2)
    (out, 0)).1

def bitPack (bits values : ℕ) (input out : ℕ → BitVec w) (base : BitVec w) : ℕ → BitVec w :=
  if bits = 0 then out
  else (List.range (getIterations w values)).foldl (fun out i => bitPackChunk bits values input base i out) out

/-- The value at `step` of chunk `index` of `bitUnpack`, and the input word held after it: the bits
of a value that spans two words are read from the word held and the next one. -/
def bitUnpackValue (bits step values : ℕ) (input : ℕ → BitVec w) (index : ℕ) (pack : BitVec w) :
    BitVec w × BitVec w :=
  let iterations := getIterations w values
  let shift := step * bits % w
  let bitsToFullWidth := w - shift
  let inOffset := iterations * ((step + 1) * bits / w)
  if bitsToFullWidth < bits then
    let mask1 : BitVec w := ((1 : BitVec w) <<< bitsToFullWidth) - 1
    let mask2 : BitVec w := ((1 : BitVec w) <<< (bits - bitsToFullWidth)) - 1
    let v := (pack >>> shift) &&& mask1
    if step < w - 1 then
      let pack := input (index + inOffset)
      (v ||| (pack &&& mask2) <<< bitsToFullWidth, pack)
    else (v, pack)
  else
    let pack := if shift = 0 then (if step < w - 1 then input (index + inOffset) else 0) else pack
    ((pack >>> shift) &&& (((1 : BitVec w) <<< bits) - 1), pack)

def bitUnpackStep (bits step values : ℕ) (input : ℕ → BitVec w) (base : BitVec w) (index : ℕ)
    (out : ℕ → BitVec w) (pack : BitVec w) : (ℕ → BitVec w) × BitVec w :=
  let outOffset := getIterations w values * step
  if bits = 0 then (Function.update out (index + outOffset) base, pack)
  else if bits = w then (Function.update out (index + outOffset) (input (index + outOffset) + base), pack)
  else
    let r := bitUnpackValue bits step values input index pack
    (Function.update out (index + outOffset) (r.1 + base), r.2)

/-- Chunk `index` of `bitUnpack`: steps `0` to `w - 1`, from a held word of zero. -/
def bitUnpackChunk (bits values : ℕ) (input : ℕ → BitVec w) (base : BitVec w) (index : ℕ)
    (out : ℕ → BitVec w) : ℕ → BitVec w :=
  ((List.range w).foldl (fun st step => bitUnpackStep bits step values input base index st.1 st.2)
    (out, 0)).1

def bitUnpack (bits values : ℕ) (input out : ℕ → BitVec w) (base : BitVec w) : ℕ → BitVec w :=
  (List.range (getIterations w values)).foldl (fun out i => bitUnpackChunk bits values input base i out) out

end Details

/-! ### The layout `bitPack` writes -/

namespace Details

section Pack

variable (bits values : ℕ) (input : ℕ → BitVec w) (base : BitVec w) (index : ℕ)

/-- The value at step `s` of chunk `index`, as `bitPack` masks it. -/
def packedValue (s : ℕ) : BitVec w := (input (getIterations w values * s + index) - base) &&& (((1 : BitVec w) <<< bits) - 1)

/-- The bits of chunk `index` as `bitPack` lays them out: its values one after another. -/
def packedStream (p : ℕ) : Bool := streamBit bits (packedValue bits values input base index) p

lemma packedValue_def (s : ℕ) :
    packedValue bits values input base index s =
      (input (getIterations w values * s + index) - base) &&& (((1 : BitVec w) <<< bits) - 1) := rfl

lemma getLsbD_packedValue_of_le {s j : ℕ} (h : bits ≤ j) :
    (packedValue bits values input base index s).getLsbD j = false := by
  rw [packedValue_def]
  exact getLsbD_and_shiftLeft_sub_one_of_le _ h

/-- Bit `r` of value `s`, read in the stream inside the window of the value. -/
lemma packedStream_window (s r : ℕ) :
    (decide (s * bits + r < (s + 1) * bits) && packedStream bits values input base index (s * bits + r)) =
      (packedValue bits values input base index s).getLsbD r := by
  rw [Nat.add_one_mul]
  by_cases hr : r < bits
  · rw [packedStream, streamBit_mul_add _ _ hr, decide_eq_true (by omega), Bool.true_and]
  · rw [decide_eq_false (by omega), Bool.false_and, getLsbD_packedValue_of_le _ _ _ _ _ (by omega)]

/-- What chunk `index` has done after step `t < w`: with `t * bits / w` the word its accumulator
fills, the words before it are written, the accumulator holds the stream from the start of its
word to the end of value `t`, and nothing else is written. -/
structure PackInv (t : ℕ) (out₀ out : ℕ → BitVec w) (agg : BitVec w) : Prop where
  words : ∀ k < t * bits / w, ∀ i < w,
    (out (getIterations w values * k + index)).getLsbD i = packedStream bits values input base index (k * w + i)
  agg : ∀ i < w, agg.getLsbD i = (decide (t * bits / w * w + i < (t + 1) * bits) &&
    packedStream bits values input base index (t * bits / w * w + i))
  frame : ∀ j, (∀ k < t * bits / w, j ≠ getIterations w values * k + index) → out j = out₀ j

/-- The words of chunk `index` once it is packed, and nothing else written. -/
structure PackedChunk (out₀ out : ℕ → BitVec w) : Prop where
  words : ∀ k < bits, ∀ i < w,
    (out (getIterations w values * k + index)).getLsbD i = packedStream bits values input base index (k * w + i)
  frame : ∀ j, (∀ k < bits, j ≠ getIterations w values * k + index) → out j = out₀ j

variable {bits values input base index}

lemma packInv_zero (hb : 0 < bits) (hbw : bits < w) (out₀ : ℕ → BitVec w) :
    PackInv bits values input base index 0 out₀ (bitPackStep bits 0 values input base index out₀ 0).1
      (bitPackStep bits 0 values input base index out₀ 0).2 := by
  have hstep : bitPackStep bits 0 values input base index out₀ 0 =
      (out₀, 0 ||| packedValue bits values input base index 0 <<< (0 * bits % w)) := by
    unfold bitPackStep
    dsimp only
    rw [if_pos ⟨hb, hbw⟩, if_neg (by omega), if_pos rfl, if_pos (by omega), packedValue_def]
  rw [hstep]
  refine ⟨fun k hk => by simp at hk, fun i hi => ?_, fun j _ => rfl⟩
  have hwin := packedStream_window bits values input base index 0 i
  simp only [Nat.zero_mul, Nat.zero_div, Nat.zero_mod, Nat.zero_add, BitVec.shiftLeft_zero] at hwin ⊢
  rw [BitVec.getLsbD_or, hwin]
  simp

/-- A step that does not reach the end of the accumulator's word adds its value to it. -/
lemma packInv_succ_of_le (hb : 0 < bits) (hbw : bits < w) {t : ℕ} (ht : t + 1 < w)
    (hkeep : bits ≤ (t + 1) * bits % w) {out₀ out : ℕ → BitVec w} {agg : BitVec w}
    (hinv : PackInv bits values input base index t out₀ out agg) :
    PackInv bits values input base index (t + 1) out₀ (bitPackStep bits (t + 1) values input base index out agg).1
      (bitPackStep bits (t + 1) values input base index out agg).2 := by
  have hcur : (t + 1) * bits / w = t * bits / w := by
    rw [Nat.add_one_mul, add_div_eq_ite hbw, ← Nat.add_one_mul, if_neg (by omega), Nat.add_zero]
  have hdm := Nat.div_add_mod' ((t + 1) * bits) w
  have hsucc := Nat.add_one_mul (t + 1) bits
  have hstep : bitPackStep bits (t + 1) values input base index out agg =
      (out, agg ||| packedValue bits values input base index (t + 1) <<< ((t + 1) * bits % w)) := by
    unfold bitPackStep
    dsimp only
    rw [if_pos ⟨hb, hbw⟩, if_neg (by omega), if_neg (by omega), if_pos ht, packedValue_def]
  rw [hstep]
  refine ⟨fun k hk i hi => hinv.words k (hcur ▸ hk) i hi, fun i hi => ?_, fun j hj => hinv.frame j (hcur ▸ hj)⟩
  rw [hcur] at hdm ⊢
  rw [BitVec.getLsbD_or, hinv.agg i hi, BitVec.getLsbD_shiftLeft]
  by_cases hi' : i < (t + 1) * bits % w
  · -- a bit the accumulator already held
    simp [hi, hi', show t * bits / w * w + i < (t + 1) * bits by omega, show t * bits / w * w + i < (t + 1 + 1) * bits by omega]
  · -- a bit of value `t + 1`
    have hpos : t * bits / w * w + i = (t + 1) * bits + (i - (t + 1) * bits % w) := by omega
    rw [← packedStream_window, hpos]
    simp [hi, hi', show ¬ (t + 1) * bits + (i - (t + 1) * bits % w) < (t + 1) * bits by omega]

/-- A step that fills the accumulator's word writes it out and starts the next word with what
spills over of value `t`, then value `t + 1`. -/
lemma packInv_succ_of_lt (hb : 0 < bits) (hbw : bits < w) (hindex : index < getIterations w values) {t : ℕ}
    (ht : t + 1 < w) (hcross : (t + 1) * bits % w < bits) {out₀ out : ℕ → BitVec w} {agg : BitVec w}
    (hinv : PackInv bits values input base index t out₀ out agg) :
    PackInv bits values input base index (t + 1) out₀ (bitPackStep bits (t + 1) values input base index out agg).1
      (bitPackStep bits (t + 1) values input base index out agg).2 := by
  have hcur : (t + 1) * bits / w = t * bits / w + 1 := by
    rw [Nat.add_one_mul, add_div_eq_ite hbw, ← Nat.add_one_mul, if_pos hcross]
  have hdm := Nat.div_add_mod' ((t + 1) * bits) w
  rw [hcur, Nat.add_one_mul (t * bits / w)] at hdm
  have hsucc := Nat.add_one_mul t bits
  have hsucc' := Nat.add_one_mul (t + 1) bits
  have hne : ∀ k, k ≠ t * bits / w →
      getIterations w values * k + index ≠ getIterations w values * (t * bits / w) + index :=
    fun k hk h => hk (mul_add_inj hindex hindex h).1
  -- the word `t * bits / w` is written out whole
  have hflush : ∀ i < w, agg.getLsbD i = packedStream bits values input base index (t * bits / w * w + i) := by
    intro i hi
    rw [hinv.agg i hi, decide_eq_true (by omega), Bool.true_and]
  -- what the step leaves in the accumulator, by whether value `t` spills into the new word
  have hagg : (bitPackStep bits (t + 1) values input base index out agg).2 =
      (if 0 < (t + 1) * bits % w then packedValue bits values input base index t >>> (bits - (t + 1) * bits % w)
        else 0) ||| packedValue bits values input base index (t + 1) <<< ((t + 1) * bits % w) := by
    unfold bitPackStep
    dsimp only
    rw [if_pos ⟨hb, hbw⟩, if_pos ⟨Nat.succ_pos t, hcross⟩, if_neg (by omega)]
    split_ifs <;> simp only [Nat.add_sub_cancel, packedValue_def]
  have hout : (bitPackStep bits (t + 1) values input base index out agg).1 =
      Function.update out (getIterations w values * (t * bits / w) + index) agg := by
    unfold bitPackStep
    dsimp only
    rw [if_pos ⟨hb, hbw⟩, if_pos ⟨Nat.succ_pos t, hcross⟩, Nat.add_sub_cancel]
    split_ifs <;> rfl
  rw [hout, hagg]
  refine ⟨fun k hk i hi => ?_, fun i hi => ?_, fun j hj => ?_⟩
  · rw [hcur] at hk
    rcases Nat.lt_succ_iff_lt_or_eq.mp hk with hlt | rfl
    · rw [Function.update_of_ne (hne k (by omega))]
      exact hinv.words k hlt i hi
    · rw [Function.update_self]
      exact hflush i hi
  · rw [hcur, Nat.add_one_mul (t * bits / w), BitVec.getLsbD_or, BitVec.getLsbD_shiftLeft]
    by_cases hi' : i < (t + 1) * bits % w
    · -- a bit of value `t`, spilt over
      have hpos : t * bits / w * w + w + i = t * bits + (bits - (t + 1) * bits % w + i) := by omega
      rw [if_pos (by omega), BitVec.getLsbD_ushiftRight, ← packedStream_window, hpos]
      simp [hi', show t * bits + (bits - (t + 1) * bits % w + i) < (t + 1) * bits by omega,
        show t * bits + (bits - (t + 1) * bits % w + i) < (t + 1 + 1) * bits by omega]
    · -- a bit of value `t + 1`
      have hpos : t * bits / w * w + w + i = (t + 1) * bits + (i - (t + 1) * bits % w) := by omega
      have hspill : (if 0 < (t + 1) * bits % w then
          packedValue bits values input base index t >>> (bits - (t + 1) * bits % w) else 0).getLsbD i = false := by
        split_ifs
        · rw [BitVec.getLsbD_ushiftRight, getLsbD_packedValue_of_le _ _ _ _ _ (by omega)]
        · simp
      rw [hspill, ← packedStream_window, hpos]
      simp [hi, hi']
  · have hj' : j ≠ getIterations w values * (t * bits / w) + index := fun h => hj _ (by omega) h
    rw [Function.update_of_ne hj']
    exact hinv.frame j (fun k hk => hj k (by omega))

/-- Step `w` writes out the last word, which value `w - 1` ends. -/
lemma packedChunk_of_packInv (hb : 0 < bits) (hbw : bits < w) (hindex : index < getIterations w values)
    {out₀ out : ℕ → BitVec w} {agg : BitVec w} (hinv : PackInv bits values input base index (w - 1) out₀ out agg) :
    PackedChunk bits values input base index out₀ (bitPackStep bits w values input base index out agg).1 := by
  have hlast : (w - 1) * bits / w = bits - 1 := sub_one_mul_div hb hbw.le
  have hw1 : w - 1 + 1 = w := by omega
  have hout : (bitPackStep bits w values input base index out agg).1 =
      Function.update out (getIterations w values * (bits - 1) + index) agg := by
    unfold bitPackStep
    dsimp only
    rw [if_pos ⟨hb, hbw⟩, if_pos ⟨by omega, by rw [Nat.mul_mod_right]; exact hb⟩, if_pos le_rfl, hlast]
  have hne : ∀ k, k ≠ bits - 1 →
      getIterations w values * k + index ≠ getIterations w values * (bits - 1) + index :=
    fun k hk h => hk (mul_add_inj hindex hindex h).1
  rw [hout]
  refine ⟨fun k hk i hi => ?_, fun j hj => ?_⟩
  · rcases Nat.lt_or_ge k (bits - 1) with hlt | hge
    · rw [Function.update_of_ne (hne k (by omega))]
      exact hinv.words k (hlast ▸ hlt) i hi
    · obtain rfl : k = bits - 1 := by omega
      -- the last word ends where value `w - 1` does
      have hend : (bits - 1) * w + i < w * bits := by
        have := Nat.sub_one_mul bits w
        have := Nat.mul_comm bits w
        have := Nat.le_mul_of_pos_left w hb
        omega
      rw [Function.update_self, hinv.agg i hi, hlast, hw1, decide_eq_true hend, Bool.true_and]
  · rw [Function.update_of_ne (fun h => hj _ (by omega) h)]
    exact hinv.frame j (fun k hk => hj k (by omega))

lemma packInv_foldl (hb : 0 < bits) (hbw : bits < w) (hindex : index < getIterations w values)
    (out₀ : ℕ → BitVec w) {t : ℕ} (ht : t < w) :
    PackInv bits values input base index t out₀
      ((List.range (t + 1)).foldl (fun st step => bitPackStep bits step values input base index st.1 st.2) (out₀, 0)).1
      ((List.range (t + 1)).foldl (fun st step => bitPackStep bits step values input base index st.1 st.2) (out₀, 0)).2 := by
  induction t with
  | zero => exact packInv_zero hb hbw out₀
  | succ t ih =>
    rw [List.range_succ, List.foldl_append, List.foldl_cons, List.foldl_nil]
    by_cases hcross : (t + 1) * bits % w < bits
    · exact packInv_succ_of_lt hb hbw hindex ht hcross (ih (by omega))
    · exact packInv_succ_of_le hb hbw ht (by omega) (ih (by omega))

section Full

lemma bitPackStep_full_of_lt {s : ℕ} (hs : s < w) (out : ℕ → BitVec w) (agg : BitVec w) :
    bitPackStep w s values input base index out agg =
      (Function.update out (getIterations w values * s + index) (input (getIterations w values * s + index) - base), agg) := by
  unfold bitPackStep
  dsimp only
  rw [if_neg (by omega), if_pos ⟨rfl, hs⟩]

lemma bitPackStep_full_end (out : ℕ → BitVec w) (agg : BitVec w) :
    bitPackStep w w values input base index out agg = (out, agg) := by
  unfold bitPackStep
  dsimp only
  rw [if_neg (by omega), if_neg (by omega)]

/-- With `bits = w` the steps copy the values less the base, one word each. -/
lemma full_foldl (hindex : index < getIterations w values) (out₀ : ℕ → BitVec w) {t : ℕ} (ht : t ≤ w) :
    (∀ k < t, ((List.range t).foldl (fun st step => bitPackStep w step values input base index st.1 st.2) (out₀, 0)).1
        (getIterations w values * k + index) = input (getIterations w values * k + index) - base) ∧
      ∀ j, (∀ k < t, j ≠ getIterations w values * k + index) →
        ((List.range t).foldl (fun st step => bitPackStep w step values input base index st.1 st.2) (out₀, 0)).1 j = out₀ j := by
  induction t with
  | zero => simp
  | succ t ih =>
    obtain ⟨ihwords, ihframe⟩ := ih (by omega)
    rw [List.range_succ, List.foldl_append, List.foldl_cons, List.foldl_nil, bitPackStep_full_of_lt (by omega)]
    dsimp only
    refine ⟨fun k hk => ?_, fun j hj => ?_⟩
    · rcases Nat.lt_succ_iff_lt_or_eq.mp hk with hlt | rfl
      · rw [Function.update_of_ne (fun h => absurd (mul_add_inj hindex hindex h).1 (by omega))]
        exact ihwords k hlt
      · rw [Function.update_self]
    · rw [Function.update_of_ne (hj t (by omega))]
      exact ihframe j (fun k hk => hj k (by omega))

lemma packedChunk_full (hindex : index < getIterations w values) (out₀ : ℕ → BitVec w) :
    PackedChunk w values input base index out₀ (bitPackChunk w values input base index out₀) := by
  obtain ⟨hwords, hframe⟩ := @full_foldl w values input base index hindex out₀ w (le_refl w)
  unfold bitPackChunk
  rw [List.range_succ, List.foldl_append, List.foldl_cons, List.foldl_nil, bitPackStep_full_end]
  refine ⟨fun k hk i hi => ?_, hframe⟩
  rw [hwords k hk, packedStream, streamBit_mul_add _ _ hi, packedValue_def, BitVec.getLsbD_and,
    getLsbD_shiftLeft_sub_one]
  simp [hi]

end Full

/-- Each chunk of `bitPack` packs its values into its words. -/
lemma packedChunk_bitPackChunk (hb : 0 < bits) (hbw : bits ≤ w) (hindex : index < getIterations w values)
    (out₀ : ℕ → BitVec w) : PackedChunk bits values input base index out₀ (bitPackChunk bits values input base index out₀) := by
  rcases hbw.lt_or_eq with hlt | rfl
  · have hrange : List.range w = List.range (w - 1 + 1) := by rw [Nat.sub_add_cancel (by omega)]
    unfold bitPackChunk
    rw [List.range_succ, List.foldl_append, List.foldl_cons, List.foldl_nil, hrange]
    exact packedChunk_of_packInv hb hlt hindex (packInv_foldl hb hlt hindex out₀ (by omega))
  · exact packedChunk_full hindex out₀

/-- `bitPack` with `0 < bits` puts the words of every chunk in place and leaves the rest of `out`. -/
lemma bitPack_words (hb : 0 < bits) (hbw : bits ≤ w) (out : ℕ → BitVec w) :
    (∀ i < getIterations w values, ∀ k < bits, ∀ j < w,
      (bitPack bits values input out base (getIterations w values * k + i)).getLsbD j =
        packedStream bits values input base i (k * w + j)) ∧
      ∀ p, (∀ i < getIterations w values, ∀ k < bits, p ≠ getIterations w values * k + i) →
        bitPack bits values input out base p = out p := by
  rw [bitPack, if_neg (by omega)]
  exact foldl_range_chunks (getIterations w values) bits (fun i out => bitPackChunk bits values input base i out)
    (fun i k word => ∀ j < w, word.getLsbD j = packedStream bits values input base i (k * w + j))
    (fun i hi out k hk => (packedChunk_bitPackChunk hb hbw hi out).words k hk)
    (fun i hi out p hp => (packedChunk_bitPackChunk hb hbw hi out).frame p hp) out _ le_rfl

end Pack

section Unpack

variable (bits values : ℕ) (input : ℕ → BitVec w) (base : BitVec w) (index : ℕ)

/-- The words of chunk `index` of a packed buffer, read as one stream of bits. -/
def chunkStream (p : ℕ) : Bool := streamBit w (fun k => input (index + getIterations w values * k)) p

lemma chunkStream_mul_add {k i : ℕ} (hi : i < w) :
    chunkStream values input index (k * w + i) = (input (index + getIterations w values * k)).getLsbD i :=
  streamBit_mul_add _ _ hi

/-- What chunk `index` of `bitUnpack` has done before step `t`: the values before it are read off
the stream, the word where value `t` starts is held unless value `t` starts it, and nothing else is
written. -/
structure UnpackInv (t : ℕ) (out₀ out : ℕ → BitVec w) (pack : BitVec w) : Prop where
  decoded : ∀ s < t, ∀ j < w, (out (index + getIterations w values * s) - base).getLsbD j =
    (decide (j < bits) && chunkStream values input index (s * bits + j))
  held : t * bits % w ≠ 0 → pack = input (index + getIterations w values * (t * bits / w))
  frame : ∀ p, (∀ s < t, p ≠ index + getIterations w values * s) → out p = out₀ p

variable {bits values input base index}

lemma unpackInv_zero (out₀ : ℕ → BitVec w) : UnpackInv bits values input base index 0 out₀ out₀ 0 :=
  ⟨fun s hs => absurd hs (Nat.not_lt_zero s), fun h => absurd (by simp) h, fun _ _ => rfl⟩

/-- A bit of value `t` that lies in the word where the value starts. -/
lemma chunkStream_of_held {t j : ℕ} (hj : t * bits % w + j < w) :
    chunkStream values input index (t * bits + j) =
      (input (index + getIterations w values * (t * bits / w))).getLsbD (t * bits % w + j) := by
  have hpos : t * bits + j = t * bits / w * w + (t * bits % w + j) := by
    have hdm := Nat.div_add_mod' (t * bits) w
    omega
  rw [hpos, chunkStream_mul_add _ _ _ hj]

/-- Writing value `t` read off the stream, and holding the word where value `t + 1` starts. -/
lemma UnpackInv.update (hindex : index < getIterations w values) {t : ℕ} {out₀ out : ℕ → BitVec w}
    {pack pack' x : BitVec w} (hinv : UnpackInv bits values input base index t out₀ out pack)
    (hx : ∀ j < w, (x - base).getLsbD j = (decide (j < bits) && chunkStream values input index (t * bits + j)))
    (hpack : (t + 1) * bits % w ≠ 0 → pack' = input (index + getIterations w values * ((t + 1) * bits / w))) :
    UnpackInv bits values input base index (t + 1) out₀ (Function.update out (index + getIterations w values * t) x)
      pack' := by
  have hne : ∀ s, s ≠ t → index + getIterations w values * s ≠ index + getIterations w values * t := by
    intro s hs h
    rw [Nat.add_comm index, Nat.add_comm index] at h
    exact hs (mul_add_inj hindex hindex h).1
  refine ⟨fun s hs j hj => ?_, hpack, fun p hp => ?_⟩
  · rcases Nat.lt_succ_iff_lt_or_eq.mp hs with hlt | rfl
    · rw [Function.update_of_ne (hne s (by omega))]
      exact hinv.decoded s hlt j hj
    · rw [Function.update_self]
      exact hx j hj
  · rw [Function.update_of_ne (hp t (by omega))]
    exact hinv.frame p (fun s hs => hp s (by omega))

/-- The value at step `t` with `0 < bits < w` is read off the stream, from the word held and, when
it spans two words, the next one, which is then held. -/
lemma bitUnpackValue_spec (hb : 0 < bits) (hbw : bits < w) {t : ℕ} (ht : t < w) {pack : BitVec w}
    (hpack : t * bits % w ≠ 0 → pack = input (index + getIterations w values * (t * bits / w))) :
    (∀ j < w, (bitUnpackValue bits t values input index pack).1.getLsbD j =
      (decide (j < bits) && chunkStream values input index (t * bits + j))) ∧
    ((t + 1) * bits % w ≠ 0 → (bitUnpackValue bits t values input index pack).2 =
      input (index + getIterations w values * ((t + 1) * bits / w))) := by
  have hdm := Nat.div_add_mod' (t * bits) w
  have hsh : t * bits % w < w := Nat.mod_lt _ (by omega)
  have hsucc := Nat.add_one_mul t bits
  -- the last value ends its word, so only a value before it can span two words
  have hlast : t = w - 1 → t * bits % w = w - bits := fun h => h ▸ sub_one_mul_mod hb hbw.le
  by_cases hspan : w - t * bits % w < bits
  · have ht' : t < w - 1 := by
      rcases Nat.lt_or_ge t (w - 1) with h | h
      · exact h
      · rw [hlast (by omega)] at hspan
        omega
    obtain ⟨hdiv, hmod⟩ := add_of_le_mod_add (x := t * bits) hbw (by omega)
    rw [← hsucc] at hdiv hmod
    rw [hpack (by omega)]
    unfold bitUnpackValue
    dsimp only
    rw [if_pos hspan, if_pos ht']
    refine ⟨fun j hj => ?_, fun _ => rfl⟩
    rw [BitVec.getLsbD_or, BitVec.getLsbD_and, BitVec.getLsbD_ushiftRight, getLsbD_shiftLeft_sub_one,
      BitVec.getLsbD_shiftLeft, BitVec.getLsbD_and, getLsbD_shiftLeft_sub_one, hdiv]
    by_cases hj' : j < w - t * bits % w
    · -- a bit from the word held
      rw [chunkStream_of_held (by omega)]
      simp [hj, hj', show j < bits by omega]
    · -- a bit from the next word
      have hpos : t * bits + j = (t * bits / w + 1) * w + (j - (w - t * bits % w)) := by
        rw [Nat.add_one_mul]
        omega
      rw [hpos, chunkStream_mul_add _ _ _ (by omega)]
      by_cases hjb : j < bits
      · simp [hj, hj', hjb, show j - (w - t * bits % w) < bits - (w - t * bits % w) by omega,
          show j - (w - t * bits % w) < w by omega]
      · simp [hj', hjb, show ¬ j - (w - t * bits % w) < bits - (w - t * bits % w) by omega]
  · -- the value lies in one word, the one held or, when the value starts it, the one read now
    have hheld : (if t * bits % w = 0 then (if t < w - 1 then input (index + getIterations w values * ((t + 1) * bits / w))
        else 0) else pack) = input (index + getIterations w values * (t * bits / w)) := by
      split_ifs with h0 h1
      · obtain ⟨hdiv, -⟩ := add_of_mod_add_lt (x := t * bits) (by omega : t * bits % w + bits < w)
        rw [hsucc, hdiv]
      · exact absurd (hlast (by omega)) (by omega)
      · exact hpack h0
    unfold bitUnpackValue
    dsimp only
    rw [if_neg hspan, hheld]
    refine ⟨fun j hj => ?_, fun hnz => ?_⟩
    · rw [BitVec.getLsbD_and, BitVec.getLsbD_ushiftRight, getLsbD_shiftLeft_sub_one]
      by_cases hjb : j < bits
      · rw [chunkStream_of_held (by omega)]
        simp [hj, hjb]
      · simp [hjb]
    · -- the next value starts in the same word, unless it starts the next one
      rcases Nat.lt_or_ge (t * bits % w + bits) w with hlt | hge
      · obtain ⟨hdiv, -⟩ := add_of_mod_add_lt (x := t * bits) hlt
        rw [hsucc, hdiv]
      · obtain ⟨-, hmod⟩ := add_of_le_mod_add (x := t * bits) hbw hge
        rw [hsucc, hmod] at hnz
        omega

/-- One step of chunk `index` of `bitUnpack` reads value `t`. -/
lemma unpackInv_succ (hbw : bits ≤ w) (hindex : index < getIterations w values) {t : ℕ} (ht : t < w)
    {out₀ out : ℕ → BitVec w} {pack : BitVec w} (hinv : UnpackInv bits values input base index t out₀ out pack) :
    UnpackInv bits values input base index (t + 1) out₀ (bitUnpackStep bits t values input base index out pack).1
      (bitUnpackStep bits t values input base index out pack).2 := by
  unfold bitUnpackStep
  dsimp only
  split_ifs with h0 hw
  · -- zero bits: every value is the base
    subst h0
    exact hinv.update hindex (fun j _ => by simp) (fun h => absurd (by simp) h)
  · -- full width: the word is the value
    subst hw
    refine hinv.update hindex (fun j hj => ?_) (fun h => absurd (Nat.mul_mod_left _ _) h)
    rw [BitVec.add_sub_cancel, chunkStream_mul_add _ _ _ hj]
    simp [hj]
  · obtain ⟨hvalue, hnext⟩ := bitUnpackValue_spec (Nat.pos_of_ne_zero h0) (lt_of_le_of_ne hbw hw) ht hinv.held
    exact hinv.update hindex (fun j hj => by rw [BitVec.add_sub_cancel]; exact hvalue j hj) hnext

lemma unpackInv_foldl (hbw : bits ≤ w) (hindex : index < getIterations w values) (out₀ : ℕ → BitVec w)
    {t : ℕ} (ht : t ≤ w) :
    UnpackInv bits values input base index t out₀
      ((List.range t).foldl (fun st step => bitUnpackStep bits step values input base index st.1 st.2) (out₀, 0)).1
      ((List.range t).foldl (fun st step => bitUnpackStep bits step values input base index st.1 st.2) (out₀, 0)).2 := by
  induction t with
  | zero => exact unpackInv_zero out₀
  | succ t ih =>
    rw [List.range_succ, List.foldl_append, List.foldl_cons, List.foldl_nil]
    exact unpackInv_succ hbw hindex (by omega) (ih (by omega))

/-- `bitUnpack` reads every value of every chunk off the chunk's stream and leaves the rest of
`out`. -/
lemma bitUnpack_values (hbw : bits ≤ w) (out : ℕ → BitVec w) :
    (∀ i < getIterations w values, ∀ s < w, ∀ j < w,
      (bitUnpack bits values input out base (getIterations w values * s + i) - base).getLsbD j =
        (decide (j < bits) && chunkStream values input i (s * bits + j))) ∧
      ∀ p, (∀ i < getIterations w values, ∀ s < w, p ≠ getIterations w values * s + i) →
        bitUnpack bits values input out base p = out p := by
  have hchunk := fun i (hi : i < getIterations w values) out =>
    @unpackInv_foldl w bits values input base i hbw hi out w (le_refl w)
  exact foldl_range_chunks (getIterations w values) w (fun i out => bitUnpackChunk bits values input base i out)
    (fun i s v => ∀ j < w, (v - base).getLsbD j = (decide (j < bits) && chunkStream values input i (s * bits + j)))
    (fun i hi out s hs => by
      have h := (hchunk i hi out).decoded s hs
      rwa [Nat.add_comm i] at h)
    (fun i hi out p hp => (hchunk i hi out).frame p (fun s hs => by rw [Nat.add_comm]; exact hp s hs)) out _ le_rfl

end Unpack

section RoundTrip

variable {bits values : ℕ} {base : BitVec w}

/-- Bit `j < bits` of value `s < w` lies in word `(s * bits + j) / w < bits` of its chunk. -/
lemma stream_div_lt {s j : ℕ} (hs : s < w) (hj : j < bits) : (s * bits + j) / w < bits := by
  apply Nat.div_lt_of_lt_mul
  have h₁ : (s + 1) * bits ≤ w * bits := Nat.mul_le_mul_right bits hs
  have h₂ := Nat.add_one_mul s bits
  omega

lemma chunk_word_lt {it i k : ℕ} (hi : i < it) (hk : k < bits) : i + it * k < it * bits := by
  have h : it * (k + 1) ≤ it * bits := Nat.mul_le_mul_left it hk
  rw [Nat.mul_add_one] at h
  omega

/-- Two buffers that agree on the packed words read the same streams. -/
lemma chunkStream_congr {in₁ in₂ : ℕ → BitVec w} (h : ∀ p < getIterations w values * bits, in₁ p = in₂ p)
    {i s j : ℕ} (hi : i < getIterations w values) (hs : s < w) (hj : j < bits) :
    chunkStream values in₁ i (s * bits + j) = chunkStream values in₂ i (s * bits + j) := by
  unfold chunkStream streamBit
  beta_reduce
  rw [h _ (chunk_word_lt hi (stream_div_lt hs hj))]

/-- The stream of chunk `i` of what `bitPack` writes holds its values, `bits` bits each. -/
lemma chunkStream_bitPack {input out₀ : ℕ → BitVec w} (hbw : bits ≤ w) {i s j : ℕ}
    (hi : i < getIterations w values) (hs : s < w) (hj : j < bits) :
    chunkStream values (bitPack bits values input out₀ base) i (s * bits + j) =
      (input (getIterations w values * s + i) - base).getLsbD j := by
  have hw : 0 < w := by omega
  obtain ⟨hwords, -⟩ := @bitPack_words w bits values input base (by omega) hbw out₀
  unfold chunkStream streamBit
  beta_reduce
  rw [Nat.add_comm i,
    hwords i hi _ (stream_div_lt hs hj) _ (Nat.mod_lt _ hw), Nat.div_add_mod', packedStream,
    streamBit_mul_add _ _ hj, packedValue_def, BitVec.getLsbD_and, getLsbD_shiftLeft_sub_one]
  simp [hj, show j < w by omega]

/-- Every value of `values = iterations * w` is value `p / iterations` of chunk `p % iterations`. -/
lemma chunk_of_lt (hvalues : getIterations w values * w = values) {p : ℕ} (hp : p < values) :
    p % getIterations w values < getIterations w values ∧ p / getIterations w values < w ∧
      getIterations w values * (p / getIterations w values) + p % getIterations w values = p := by
  have hit : 0 < getIterations w values := by
    rcases Nat.eq_zero_or_pos (getIterations w values) with h | h
    · rw [h, Nat.zero_mul] at hvalues
      omega
    · exact h
  refine ⟨Nat.mod_lt _ hit, Nat.div_lt_of_lt_mul (by rw [hvalues]; exact hp), Nat.div_add_mod p _⟩

/-- What `bitPack` writes of values within `bits` bits of the base, `bitUnpack` reads back. -/
lemma bitUnpack_bitPack (hbw : bits ≤ w) (hvalues : getIterations w values * w = values)
    {input : ℕ → BitVec w} (hin : ∀ p < values, (input p - base).toNat < 2 ^ bits) (out₀ out₁ : ℕ → BitVec w) :
    ∀ p < values, bitUnpack bits values (bitPack bits values input out₀ base) out₁ base p = input p := by
  intro p hp
  obtain ⟨hi, hs, hsplit⟩ := chunk_of_lt hvalues hp
  obtain ⟨hdecoded, -⟩ := @bitUnpack_values w bits values (bitPack bits values input out₀ base) base hbw out₁
  rw [← sub_left_inj (a := base)]
  apply BitVec.eq_of_getLsbD_eq
  intro j hj
  rw [← hsplit, hdecoded _ hi _ hs j hj]
  by_cases hjb : j < bits
  · rw [decide_eq_true hjb, Bool.true_and, chunkStream_bitPack hbw hi hs hjb]
  · -- the value less the base has no bits from `bits` on
    rw [decide_eq_false hjb, Bool.false_and, ← BitVec.testBit_toNat, hsplit]
    exact (Nat.testBit_lt_two_pow (lt_of_lt_of_le (hin p hp) (Nat.pow_le_pow_right (by decide) (by omega)))).symm

/-- `bitUnpack` reads no word past the `iterations * bits` packed ones. -/
lemma bitUnpack_congr (hbw : bits ≤ w) (hvalues : getIterations w values * w = values) {in₁ in₂ : ℕ → BitVec w}
    (h : ∀ p < getIterations w values * bits, in₁ p = in₂ p) (out : ℕ → BitVec w) :
    bitUnpack bits values in₁ out base = bitUnpack bits values in₂ out base := by
  obtain ⟨hdec₁, hframe₁⟩ := @bitUnpack_values w bits values in₁ base hbw out
  obtain ⟨hdec₂, hframe₂⟩ := @bitUnpack_values w bits values in₂ base hbw out
  funext p
  by_cases hp : p < values
  · obtain ⟨hi, hs, hsplit⟩ := chunk_of_lt hvalues hp
    rw [← sub_left_inj (a := base)]
    apply BitVec.eq_of_getLsbD_eq
    intro j hj
    rw [← hsplit, hdec₁ _ hi _ hs j hj, hdec₂ _ hi _ hs j hj]
    by_cases hjb : j < bits
    · rw [chunkStream_congr h hi hs hjb]
    · simp [hjb]
  · -- past the values nothing is written
    have hout : ∀ i < getIterations w values, ∀ s < w, p ≠ getIterations w values * s + i := by
      intro i hi s hs heq
      have hle : getIterations w values * (s + 1) ≤ getIterations w values * w := Nat.mul_le_mul_left _ hs
      rw [Nat.mul_add_one] at hle
      omega
    rw [hframe₁ p hout, hframe₂ p hout]

end RoundTrip

end Details

/-- `bitPack` for `T` of `w` bits: the dispatch table has an entry for each `bits` up to `w`. -/
def bitPack (values : ℕ) (input out : ℕ → BitVec w) (bits : UInt8) (base : BitVec w) :
    Except ErrorCode (ℕ → BitVec w) :=
  if w + 1 ≤ bits.toNat then .error .badArguments
  else .ok (Details.bitPack bits.toNat values input out base)

def bitUnpack (values : ℕ) (input out : ℕ → BitVec w) (bits : UInt8) (base : BitVec w) :
    Except ErrorCode (ℕ → BitVec w) :=
  if w + 1 ≤ bits.toNat then .error .badArguments
  else .ok (Details.bitUnpack bits.toNat values input out base)

/-- Returned as a `UInt16`. -/
def calculateBitpackedBytes (values : ℕ) (bits : UInt8) : ℕ := bits.toNat * values / 8 % 2 ^ 16


section Dispatch

/-- The words that lie within the first `calculateBitpackedBytes` bytes are the packed ones. -/
lemma le_calculateBitpackedBytes_iff (hw : w = 16 ∨ w = 32 ∨ w = 64) {bits : UInt8} (hbits : bits.toNat ≤ w)
    (j : ℕ) : (j + 1) * (w / 8) ≤ calculateBitpackedBytes 1024 bits ↔ j < getIterations w 1024 * bits.toNat := by
  rcases hw with rfl | rfl | rfl <;> norm_num [calculateBitpackedBytes, getIterations] <;> omega

/-- For `T` of 16, 32 or 64 bits and every `bits` up to its width: what `bitPack` writes of 1024
values within `bits` bits above the base, `bitUnpack` reads back whatever the buffer holds past
the first `calculateBitpackedBytes` bytes, and `bitUnpack` reads nothing past those bytes. -/
theorem bitUnpack_bitPack_within_bytes (hw : w = 16 ∨ w = 32 ∨ w = 64) (bits : UInt8) (hbits : bits.toNat ≤ w)
    (base : BitVec w) :
    (∀ input out₀ out₁ : ℕ → BitVec w, (∀ j < 1024, (input j - base).toNat < 2 ^ bits.toNat) →
      ∃ coded, bitPack 1024 input out₀ bits base = .ok coded ∧
        ∀ packed : ℕ → BitVec w, (∀ j, (j + 1) * (w / 8) ≤ calculateBitpackedBytes 1024 bits → packed j = coded j) →
          ∃ decoded, bitUnpack 1024 packed out₁ bits base = .ok decoded ∧ ∀ j < 1024, decoded j = input j) ∧
      ∀ in₁ in₂ out : ℕ → BitVec w, (∀ j, (j + 1) * (w / 8) ≤ calculateBitpackedBytes 1024 bits → in₁ j = in₂ j) →
        bitUnpack 1024 in₁ out bits base = bitUnpack 1024 in₂ out bits base := by
  have hvalues : getIterations w 1024 * w = 1024 := by rcases hw with rfl | rfl | rfl <;> rfl
  have hok : ¬ w + 1 ≤ bits.toNat := by omega
  -- the congruence first: the round trip then reads the packed words only
  have hcongr : ∀ in₁ in₂ out : ℕ → BitVec w,
      (∀ j, (j + 1) * (w / 8) ≤ calculateBitpackedBytes 1024 bits → in₁ j = in₂ j) →
        bitUnpack 1024 in₁ out bits base = bitUnpack 1024 in₂ out bits base := by
    intro in₁ in₂ out h
    rw [bitUnpack, bitUnpack, if_neg hok, if_neg hok,
      Details.bitUnpack_congr hbits hvalues (fun p hp => h p ((le_calculateBitpackedBytes_iff hw hbits p).mpr hp))]
  refine ⟨fun input out₀ out₁ hin => ⟨_, by rw [bitPack, if_neg hok], fun packed hpacked => ?_⟩, hcongr⟩
  refine ⟨_, by rw [hcongr _ _ out₁ hpacked, bitUnpack, if_neg hok], ?_⟩
  exact Details.bitUnpack_bitPack hbits hvalues hin out₀ out₁

theorem bitUnpack_bitPack_within_bytes_uint16 :
    (∀ input out₀ out₁ : ℕ → BitVec 16, (∀ j < 1024, (input j - 0).toNat < 2 ^ (3 : UInt8).toNat) →
      ∃ coded, bitPack 1024 input out₀ 3 0 = .ok coded ∧
        ∀ packed : ℕ → BitVec 16, (∀ j, (j + 1) * (16 / 8) ≤ calculateBitpackedBytes 1024 3 → packed j = coded j) →
          ∃ decoded, bitUnpack 1024 packed out₁ 3 0 = .ok decoded ∧ ∀ j < 1024, decoded j = input j) ∧
      ∀ in₁ in₂ out : ℕ → BitVec 16, (∀ j, (j + 1) * (16 / 8) ≤ calculateBitpackedBytes 1024 3 → in₁ j = in₂ j) →
        bitUnpack 1024 in₁ out 3 0 = bitUnpack 1024 in₂ out 3 0 :=
  bitUnpack_bitPack_within_bytes (.inl rfl) 3 (by decide) 0

end Dispatch

end ClickHouse.Compression.FFOR
