import ClickHouse.Lib.LinearProbing
import ClickHouse.Common.StringSearcher
import ClickHouse.Common.StringUtils

/-! `Common/Volnitsky.h`: substring search by Volnitsky's algorithm. The constructor puts the
two-octet n-gram of the needle at each offset `i`, from `needle_size - 2` down to `0`, into a table
of `64K` cells under linear probing, with `i + 1` as the value; the case-insensitive variants put
every case form of the n-gram that they build. `search` reads the n-gram of the haystack at
positions `needle_size - 1` apart, tries each offset that the cells from its home give with the
fallback searcher's `compare`, and leaves the end of the haystack to the fallback searcher's
`search`. Built for SIMD, `search` calls the fallback searcher at once. `toNGram` reads two octets
in the little-endian order of x86 and AArch64. -/

namespace ClickHouse.Common

open ClickHouse.Lib UTF8

namespace VolnitskyTraits

def hashSize : ℕ := 64 * 1024

def minHaystackSizeForAlgorithm : ℕ := 20000

/-- `isFallbackNeedle`, with `2 * sizeof(Ngram)` and `numeric_limits<Offset>::max()`. -/
def isFallbackNeedle (needleSize haystackSizeHint : ℕ) : Bool :=
  needleSize < 2 * 2 || 255 ≤ needleSize ||
    (haystackSizeHint ≠ 0 && haystackSizeHint < minHaystackSizeForAlgorithm)

def toNGram (c0 c1 : ℕ) : ℕ := c0 + 256 * c1

/-- `alternateCaseIfAlphaASCII` of an octet. -/
def alternateCase (c : ℕ) : ℕ := (alternateCaseIfAlphaASCII (Char.ofNat c)).toNat

/-- `putNGramASCIICaseInsensitive`: the n-grams it puts, in order, as it flips the case of the
octets in the union one after the other. -/
def putNGramASCIICaseInsensitive (c0 c1 : ℕ) : List ℕ :=
  if isAlphaASCII (Char.ofNat c0) && isAlphaASCII (Char.ofNat c1) then
    [toNGram c0 c1, toNGram (alternateCase c0) c1, toNGram (alternateCase c0) (alternateCase c1),
      toNGram (alternateCase (alternateCase c0)) (alternateCase c1)]
  else if isAlphaASCII (Char.ofNat c0) then [toNGram c0 c1, toNGram (alternateCase c0) c1]
  else if isAlphaASCII (Char.ofNat c1) then [toNGram c0 c1, toNGram c0 (alternateCase c1)]
  else [toNGram c0 c1]

/-- The lower and upper case of the code point the octets start with; `0` twice when they are not
UTF-8. -/
def caseForms (T : CaseTable) (bytes : List ℕ) : ℕ × ℕ :=
  match convertUTF8ToCodePoint bytes with
  | some c => (T.toLower c, T.toUpper c)
  | none => (0, 0)

/-- `putNGramUTF8CaseInsensitive` at offset `pos` of the needle: the n-grams it puts, in order, or
`none` where it returns `false`. -/
def putNGramUTF8CaseInsensitive (T : CaseTable) (needle : List ℕ) (pos : ℕ) : Option (List ℕ) :=
  let c0 := needle.getD pos 0
  let c1 := needle.getD (pos + 1) 0
  if c0 < 0x80 ∧ c1 < 0x80 then some (putNGramASCIICaseInsensitive c0 c1)
  else if UTF8.isContinuationOctet c1 then
    -- the n-gram lies inside one sequence
    let seqPos := syncBackward needle pos
    match convertUTF8ToCodePoint (needle.drop seqPos) with
    | none => some [toNGram c0 c1]
    | some u32 =>
      if T.toLower u32 = T.toUpper u32 then some [toNGram c0 c1]
      else
        let off := pos - seqPos
        let seqL := convertCodePointToUTF8 (T.toLower u32)
        let seqR := convertCodePointToUTF8 (T.toUpper u32)
        if seqL.length ≠ seqR.length then none
        else if seqL.length < 2 ∨ seqR.length < 2 then none
        else if seqL.length ≤ off + 1 ∨ seqR.length ≤ off + 1 then none
        else
          some [toNGram (seqL.getD off 0) (seqL.getD (off + 1) 0), toNGram (seqR.getD off 0) (seqR.getD (off + 1) 0)]
  else
    -- the n-gram ends one sequence and starts the next
    let firstSeqPos := syncBackward needle pos
    let off := pos - firstSeqPos
    let first := caseForms T (needle.drop firstSeqPos)
    let second := caseForms T (needle.drop (pos + 1))
    if first.1 = first.2 ∧ second.1 = second.2 then some [toNGram c0 c1]
    else if first.1 = first.2 then
      let seqL := convertCodePointToUTF8 second.1
      let seqU := convertCodePointToUTF8 second.2
      if seqL.length ≠ seqU.length then none
      else if seqL.length = 0 ∨ seqU.length = 0 then none
      else
        some (toNGram c0 (seqL.getD 0 0) ::
          if seqL.getD 0 0 ≠ seqU.getD 0 0 then [toNGram c0 (seqU.getD 0 0)] else [])
    else if second.1 = second.2 then
      let seqL := convertCodePointToUTF8 first.1
      let seqU := convertCodePointToUTF8 first.2
      if seqL.length ≠ seqU.length then none
      else if seqL.length ≤ off ∨ seqU.length ≤ off then none
      else
        some (toNGram (seqL.getD off 0) c1 ::
          if seqL.getD off 0 ≠ seqU.getD off 0 then [toNGram (seqU.getD off 0) c1] else [])
    else
      let firstL := convertCodePointToUTF8 first.1
      let firstU := convertCodePointToUTF8 first.2
      let secondL := convertCodePointToUTF8 second.1
      let secondU := convertCodePointToUTF8 second.2
      if firstL.length ≠ firstU.length ∨ secondL.length ≠ secondU.length then none
      else if firstL.length ≤ off ∨ firstU.length ≤ off ∨ secondL.length = 0 ∨ secondU.length = 0 then none
      else
        let c0l := firstL.getD off 0
        let c0u := firstU.getD off 0
        let c1l := secondL.getD 0 0
        let c1u := secondU.getD 0 0
        some (toNGram c0l c1l :: ((if c0l ≠ c0u then [toNGram c0u c1l] else []) ++
          (if c1l ≠ c1u then [toNGram c0l c1u] else []) ++
          (if c0l ≠ c0u ∧ c1l ≠ c1u then [toNGram c0u c1u] else [])))

def putNGram (caseSensitive ascii : Bool) (T : CaseTable) (needle : List ℕ) (pos : ℕ) : Option (List ℕ) :=
  if caseSensitive then some [toNGram (needle.getD pos 0) (needle.getD (pos + 1) 0)]
  else if ascii then some (putNGramASCIICaseInsensitive (needle.getD pos 0) (needle.getD (pos + 1) 0))
  else putNGramUTF8CaseInsensitive T needle pos

section CaseForms

open ASCIICaseInsensitiveStringSearcher

lemma isAlphaASCII_ofNat_iff {c : ℕ} :
    isAlphaASCII (Char.ofNat c) = true ↔ (0x41 ≤ c ∧ c ≤ 0x5A) ∨ (0x61 ≤ c ∧ c ≤ 0x7A) := by
  rw [isAlphaASCII_iff, Char.toNat_ofNat]
  split_ifs with hvalid
  · omega
  · -- an octet of a letter is a valid character
    have hbig : 0xD800 ≤ c := by
      by_contra hlt
      exact hvalid (Or.inl (by omega))
    omega

lemma alternateCase_of_upper {c : ℕ} (h : 0x41 ≤ c ∧ c ≤ 0x5A) : alternateCase c = c + 32 := by
  obtain ⟨h1, h2⟩ := h
  interval_cases c <;> rfl

lemma alternateCase_of_lower {c : ℕ} (h : 0x61 ≤ c ∧ c ≤ 0x7A) : alternateCase c = c - 32 := by
  obtain ⟨h1, h2⟩ := h
  interval_cases c <;> rfl

lemma alternateCase_alternateCase {c : ℕ} (h : isAlphaASCII (Char.ofNat c) = true) :
    alternateCase (alternateCase c) = c := by
  rcases isAlphaASCII_ofNat_iff.mp h with hu | hl
  · rw [alternateCase_of_upper hu, alternateCase_of_lower (by omega)]
    omega
  · rw [alternateCase_of_lower hl, alternateCase_of_upper (by omega)]
    omega

/-- An octet that agrees with `c` by `tolower` is `c` or, for a letter, its other case. -/
lemma eq_or_alternateCase_of_lowerEq {b c : ℕ} (h : LowerEq b c) :
    b = c ∨ (isAlphaASCII (Char.ofNat c) = true ∧ b = alternateCase c) := by
  unfold LowerEq asciiToLower at h
  rw [isAlphaASCII_ofNat_iff]
  by_cases hcu : 0x41 ≤ c ∧ c ≤ 0x5A
  · rw [alternateCase_of_upper hcu]
    split_ifs at h <;> omega
  · by_cases hcl : 0x61 ≤ c ∧ c ≤ 0x7A
    · rw [alternateCase_of_lower hcl]
      split_ifs at h <;> omega
    · left
      split_ifs at h <;> omega

lemma length_putNGramASCIICaseInsensitive_le (c0 c1 : ℕ) : (putNGramASCIICaseInsensitive c0 c1).length ≤ 4 := by
  unfold putNGramASCIICaseInsensitive
  split_ifs <;> simp

/-- `putNGramASCIICaseInsensitive` puts every n-gram that agrees with its octets by `tolower`. -/
lemma mem_putNGramASCIICaseInsensitive {b0 b1 c0 c1 : ℕ} (h0 : LowerEq b0 c0) (h1 : LowerEq b1 c1) :
    toNGram b0 b1 ∈ putNGramASCIICaseInsensitive c0 c1 := by
  unfold putNGramASCIICaseInsensitive
  rcases eq_or_alternateCase_of_lowerEq h0 with rfl | ⟨ha0, rfl⟩ <;>
    rcases eq_or_alternateCase_of_lowerEq h1 with rfl | ⟨ha1, rfl⟩
  · split_ifs <;> simp
  · by_cases ha0 : isAlphaASCII (Char.ofNat b0) = true
    · simp [ha0, ha1, alternateCase_alternateCase ha0]
    · simp [ha0, ha1]
  · by_cases ha1 : isAlphaASCII (Char.ofNat b1) = true <;> simp [ha0, ha1]
  · simp [ha0, ha1]

end CaseForms

/-- Two ASCII octets go to the ASCII case forms. -/
lemma putNGramUTF8CaseInsensitive_of_ascii (T : CaseTable) {needle : List ℕ} {pos : ℕ} (h0 : needle.getD pos 0 < 0x80)
    (h1 : needle.getD (pos + 1) 0 < 0x80) :
    putNGramUTF8CaseInsensitive T needle pos =
      some (putNGramASCIICaseInsensitive (needle.getD pos 0) (needle.getD (pos + 1) 0)) := by
  unfold putNGramUTF8CaseInsensitive
  dsimp only
  rw [if_pos ⟨h0, h1⟩]

end VolnitskyTraits

open VolnitskyTraits

/-- The SIMD a build targets, as far as the searchers read it: `case_sensitive_can_bypass`, which
`USE_MULTITARGET_CODE`, SSE 4.1 and NEON set, and the vectors of the cache path of the
case-insensitive searchers, where AVX2 sets `case_insensitive_can_bypass`. -/
structure Target where
  caseSensitiveCanBypass : Bool
  vector : Option VectorWidth

def Target.caseInsensitiveCanBypass (tgt : Target) : Bool := tgt.vector = some .avx2

def Target.useFallbackSearcher (tgt : Target) (caseSensitive : Bool) : Bool :=
  if caseSensitive then tgt.caseSensitiveCanBypass else tgt.caseInsensitiveCanBypass

/-- What `VolnitskyBase` calls of its `FallbackSearcher`: `compare` at a position, given the octets
from there to the end of the haystack, and `search` of a stretch of the haystack, as the offset of
the match in it or its length. -/
structure FallbackSearcher where
  compare : List ℕ → Bool
  search : List ℕ → ℕ

/-- `VolnitskyBase` after its constructor; `hash` is all empty where no table was built. -/
structure VolnitskyBase where
  needle : List ℕ
  fallback : Bool
  hash : ℕ → ℕ

namespace VolnitskyBase

/-- The entries the constructor puts for the offsets below `count`, the highest first: each
n-gram of offset `i` at the cell of its value, with `i + 1`; `none` where `putNGram` fails, which
drops the table. -/
def entries (putNGram : ℕ → Option (List ℕ)) : ℕ → Option (List (ℕ × ℕ))
  | 0 => some []
  | i + 1 =>
    match putNGram i, entries putNGram i with
    | some grams, some rest => some (grams.map (fun ngram => (ngram % hashSize, i + 1)) ++ rest)
    | _, _ => none

@[simp] lemma entries_zero (putNGram : ℕ → Option (List ℕ)) : entries putNGram 0 = some [] := rfl

lemma entries_succ (putNGram : ℕ → Option (List ℕ)) (i : ℕ) :
    entries putNGram (i + 1) =
      match putNGram i, entries putNGram i with
      | some grams, some rest => some (grams.map (fun ngram => (ngram % hashSize, i + 1)) ++ rest)
      | _, _ => none := rfl

def init (caseSensitive ascii : Bool) (T : CaseTable) (tgt : Target) (needle : List ℕ)
    (haystackSizeHint : ℕ) : VolnitskyBase :=
  let fallback := isFallbackNeedle needle.length haystackSizeHint
  if tgt.useFallbackSearcher caseSensitive || fallback then ⟨needle, fallback, fun _ => 0⟩
  else
    match entries (putNGram caseSensitive ascii T needle) (needle.length - 2 + 1) with
    | some es => ⟨needle, false, LinearProbing.insertAll hashSize (fun _ => 0) es⟩
    | none => ⟨needle, true, fun _ => 0⟩

variable (v : VolnitskyBase) (fs : FallbackSearcher) (hay : List ℕ)

def step : ℕ := v.needle.length - 2 + 1

/-- The position that a cell's offset gives at `pos`, where `compare` accepts it. -/
def candidate (pos off : ℕ) : Option ℕ :=
  if fs.compare (hay.drop (pos - (off - 1))) then some (pos - (off - 1)) else none

/-- The loop of `search` from the probed position `pos`, with `fuel` for the positions left; past
the last window it calls the fallback searcher from `pos - step + 1`. -/
def searchLoop : ℕ → ℕ → ℕ
  | 0, _ => hay.length
  | fuel + 1, pos =>
    if pos + v.needle.length ≤ hay.length then
      match LinearProbing.probe hashSize v.hash (candidate fs hay pos) hashSize
          (toNGram (hay.getD pos 0) (hay.getD (pos + 1) 0) % hashSize) with
      | some res => res
      | none => searchLoop fuel (pos + v.step)
    else pos + 1 - v.step + fs.search (hay.drop (pos + 1 - v.step))

@[simp] lemma searchLoop_zero (pos : ℕ) : v.searchLoop fs hay 0 pos = hay.length := rfl

lemma searchLoop_succ (fuel pos : ℕ) :
    v.searchLoop fs hay (fuel + 1) pos =
      if pos + v.needle.length ≤ hay.length then
        match LinearProbing.probe hashSize v.hash (candidate fs hay pos) hashSize
            (toNGram (hay.getD pos 0) (hay.getD (pos + 1) 0) % hashSize) with
        | some res => res
        | none => v.searchLoop fs hay fuel (pos + v.step)
      else pos + 1 - v.step + fs.search (hay.drop (pos + 1 - v.step)) := rfl

def search (useFallbackSearcher : Bool) : ℕ :=
  if v.needle = [] then 0
  else if useFallbackSearcher then fs.search hay
  else if v.fallback || hay.length ≤ v.needle.length then fs.search hay
  else v.searchLoop fs hay (hay.length + 1) (v.needle.length - 2)

section Entries

variable {putNGram : ℕ → Option (List ℕ)}

lemma entries_succ_eq_some {i : ℕ} {es : List (ℕ × ℕ)} (h : entries putNGram (i + 1) = some es) :
    ∃ grams rest, putNGram i = some grams ∧ entries putNGram i = some rest ∧
      es = grams.map (fun ngram => (ngram % hashSize, i + 1)) ++ rest := by
  rw [entries_succ] at h
  cases hp : putNGram i with
  | none => simp [hp] at h
  | some grams =>
    cases he : entries putNGram i with
    | none => simp [hp, he] at h
    | some rest =>
      rw [hp, he, Option.some.injEq] at h
      exact ⟨grams, rest, rfl, rfl, h.symm⟩

/-- Every entry has a cell as its home and an offset from `1` to `count`, and the offsets never grow
along the entries. -/
lemma entries_spec {count : ℕ} {es : List (ℕ × ℕ)} (h : entries putNGram count = some es) :
    (∀ e ∈ es, e.1 < hashSize ∧ 1 ≤ e.2 ∧ e.2 ≤ count) ∧ es.Pairwise (fun a b => b.2 ≤ a.2) := by
  induction count generalizing es with
  | zero =>
    rw [entries_zero, Option.some.injEq] at h
    subst h
    exact ⟨fun e he => absurd he List.not_mem_nil, List.Pairwise.nil⟩
  | succ i ih =>
    obtain ⟨grams, rest, -, hrest, rfl⟩ := entries_succ_eq_some h
    obtain ⟨hbounds, hsorted⟩ := ih hrest
    have hnew : ∀ e ∈ grams.map (fun ngram => (ngram % hashSize, i + 1)), e.1 < hashSize ∧ e.2 = i + 1 := by
      intro e he
      obtain ⟨g, -, rfl⟩ := List.mem_map.mp he
      exact ⟨Nat.mod_lt _ (by decide), rfl⟩
    refine ⟨fun e he => ?_, List.pairwise_append.mpr ⟨?_, hsorted, ?_⟩⟩
    · rcases List.mem_append.mp he with he | he
      · obtain ⟨hhome, hoff⟩ := hnew e he
        omega
      · obtain ⟨hhome, hlo, hhi⟩ := hbounds e he
        omega
    · exact List.Pairwise.imp_of_mem (fun ha hb _ => by rw [(hnew _ ha).2, (hnew _ hb).2])
        (List.pairwise_of_forall (fun _ _ => trivial))
    · intro a ha b hb
      rw [(hnew a ha).2]
      exact Nat.le_succ_of_le (hbounds b hb).2.2

lemma mem_entries {count : ℕ} {es : List (ℕ × ℕ)} (h : entries putNGram count = some es) {i : ℕ} (hi : i < count) :
    ∃ grams, putNGram i = some grams ∧ ∀ g ∈ grams, (g % hashSize, i + 1) ∈ es := by
  induction count generalizing es with
  | zero => exact absurd hi (Nat.not_lt_zero i)
  | succ j ih =>
    obtain ⟨grams, rest, hp, hrest, rfl⟩ := entries_succ_eq_some h
    rcases Nat.lt_succ_iff_lt_or_eq.mp hi with hlt | rfl
    · obtain ⟨grams', hp', hmem⟩ := ih hrest hlt
      exact ⟨grams', hp', fun g hg => List.mem_append_right _ (hmem g hg)⟩
    · exact ⟨grams, hp, fun g hg => List.mem_append_left _ (List.mem_map_of_mem hg)⟩

lemma entries_of_forall {count : ℕ} (hall : ∀ i < count, ∃ grams, putNGram i = some grams ∧ grams.length ≤ 4) :
    ∃ es, entries putNGram count = some es ∧ es.length ≤ 4 * count := by
  induction count with
  | zero => exact ⟨[], rfl, Nat.zero_le _⟩
  | succ i ih =>
    obtain ⟨rest, hrest, hlen⟩ := ih (fun j hj => hall j (by omega))
    obtain ⟨grams, hp, hglen⟩ := hall i (by omega)
    refine ⟨grams.map (fun ngram => (ngram % hashSize, i + 1)) ++ rest, by rw [entries_succ, hp, hrest], ?_⟩
    rw [List.length_append, List.length_map]
    omega

end Entries

/-- What the hash path needs of the fallback searcher and of `putNGram`, for a relation `R` of an
octet of the haystack to one of the needle: `search` returns the first position where `compare`
holds, and at once for an empty needle; where `compare` holds, the octets from there relate to the
needle's; and at each offset `putNGram` succeeds with at most four n-grams, among them every n-gram
whose octets relate to the needle's there. -/
structure Fits (R : ℕ → ℕ → Prop) (putNGram : ℕ → Option (List ℕ)) (needle : List ℕ) (fs : FallbackSearcher) :
    Prop where
  search_eq : ∀ l, fs.search l = firstMatch fs.compare l
  search_nil : needle = [] → ∀ l, fs.search l = 0
  compare_rel : ∀ rest, fs.compare rest = true → List.Forall₂ R (rest.take needle.length) needle
  putNGram_some : ∀ i, i + 2 ≤ needle.length → ∃ grams, putNGram i = some grams ∧ grams.length ≤ 4 ∧
    ∀ b0 b1, R b0 (needle.getD i 0) → R b1 (needle.getD (i + 1) 0) → toNGram b0 b1 ∈ grams

lemma rel_getD_of_forall₂ {R : ℕ → ℕ → Prop} {l₁ l₂ : List ℕ} (h : List.Forall₂ R l₁ l₂) {j : ℕ}
    (hj : j < l₂.length) : R (l₁.getD j 0) (l₂.getD j 0) := by
  induction h generalizing j with
  | nil => exact absurd hj (Nat.not_lt_zero j)
  | cons hab _ ih =>
    cases j with
    | zero => exact hab
    | succ j => exact ih (by simpa using hj)

lemma getD_take_drop (l : List ℕ) {k n j : ℕ} (hj : j < n) : ((l.drop k).take n).getD j 0 = l.getD (k + j) 0 := by
  simp [List.getD_eq_getElem?_getD, hj, List.getElem?_drop]

section HashPath

variable {R : ℕ → ℕ → Prop} {putNGram : ℕ → Option (List ℕ)} {needle : List ℕ} {fs : FallbackSearcher}
  {es : List (ℕ × ℕ)} {hay : List ℕ}

/-- The state after a constructor that built the table from `es`. -/
def built (needle : List ℕ) (es : List (ℕ × ℕ)) : VolnitskyBase :=
  ⟨needle, false, LinearProbing.insertAll hashSize (fun _ => 0) es⟩

@[simp] lemma built_needle : (built needle es).needle = needle := rfl

@[simp] lemma built_fallback : (built needle es).fallback = false := rfl

lemma step_built (hn : 2 ≤ needle.length) : (built needle es).step = needle.length - 1 := by
  rw [step, built_needle]
  omega

lemma layout_built (hes : entries putNGram (needle.length - 2 + 1) = some es) (hcount : es.length < hashSize) :
    LinearProbing.Layout hashSize es (built needle es).hash := by
  obtain ⟨hbounds, -⟩ := entries_spec hes
  exact LinearProbing.layout_insertAll hashSize (fun e he => (hbounds e he).1)
    (fun e he => Nat.one_le_iff_ne_zero.mp (hbounds e he).2.1) hcount

/-- What a probe at `pos` returns is a position where `compare` holds, at most `needle_size - 2`
before `pos`. -/
lemma candidate_of_probe (hes : entries putNGram (needle.length - 2 + 1) = some es) (hcount : es.length < hashSize)
    {pos fuel cell r : ℕ} (h : LinearProbing.probe hashSize (built needle es).hash (candidate fs hay pos) fuel cell = some r) :
    fs.compare (hay.drop r) = true ∧ pos - (needle.length - 2) ≤ r ∧ r ≤ pos := by
  obtain ⟨e, he, hr⟩ := (layout_built hes hcount).probe_sound h
  obtain ⟨-, hlo, hhi⟩ := (entries_spec hes).1 e he
  unfold candidate at hr
  split_ifs at hr with hc
  rw [Option.some.injEq] at hr
  subst hr
  exact ⟨hc, by omega, by omega⟩

/-- The probe at `pos` returns the first match of the haystack when it lies at `pos` or before,
given that no match lies before `pos - (needle_size - 2)`, and nothing otherwise. The first match
relates to the needle, so its n-gram at `pos` was put with its offset; the entries met before it
have larger offsets, that is earlier positions, and none of those matches. -/
lemma probe_window (hfits : Fits R putNGram needle fs) (hes : entries putNGram (needle.length - 2 + 1) = some es)
    (hcount : es.length < hashSize) {pos : ℕ} (hpos : needle.length - 2 ≤ pos) (hend : pos + needle.length ≤ hay.length)
    (hn : 2 ≤ needle.length) (hbefore : ∀ k < pos - (needle.length - 2), fs.compare (hay.drop k) = false) :
    LinearProbing.probe hashSize (built needle es).hash (candidate fs hay pos) hashSize
        (toNGram (hay.getD pos 0) (hay.getD (pos + 1) 0) % hashSize) =
      if firstMatch fs.compare hay ≤ pos then some (firstMatch fs.compare hay) else none := by
  split_ifs with hF
  · have hmatch : fs.compare (hay.drop (firstMatch fs.compare hay)) = true := firstMatch_spec (by omega)
    have hws : pos - (needle.length - 2) ≤ firstMatch fs.compare hay := by
      by_contra hlt
      rw [hbefore _ (by omega)] at hmatch
      exact Bool.false_ne_true hmatch
    -- the first match at offset `i` of the needle
    obtain ⟨i, hi, hpos_eq⟩ : ∃ i, i + 2 ≤ needle.length ∧ pos = firstMatch fs.compare hay + i :=
      ⟨pos - firstMatch fs.compare hay, by omega, by omega⟩
    have hrel := hfits.compare_rel _ hmatch
    have h0 := rel_getD_of_forall₂ hrel (j := i) (by omega)
    have h1 := rel_getD_of_forall₂ hrel (j := i + 1) (by omega)
    rw [getD_take_drop _ (by omega), ← hpos_eq] at h0
    rw [getD_take_drop _ (by omega), ← Nat.add_assoc, ← hpos_eq] at h1
    obtain ⟨grams, hgrams, -, hmem⟩ := hfits.putNGram_some i hi
    obtain ⟨grams', hgrams', hin⟩ := mem_entries hes (i := i) (by omega)
    rw [hgrams, Option.some.injEq] at hgrams'
    subst hgrams'
    obtain ⟨pre, post, hsplit⟩ := List.append_of_mem (hin _ (hmem _ _ h0 h1))
    have hcand : candidate fs hay pos (i + 1) = some (firstMatch fs.compare hay) := by
      unfold candidate
      rw [show pos - (i + 1 - 1) = firstMatch fs.compare hay by omega, if_pos hmatch]
    obtain ⟨e', he', r', hr', hprobe⟩ :=
      (layout_built hes hcount).probe_finds hsplit (Nat.mod_lt _ (by decide)) hcand
    rw [hprobe]
    -- `e'` was put no later than the n-gram of offset `i`, so its offset is not smaller
    have hoff : i + 1 ≤ e'.2 := by
      rcases List.mem_append.mp he' with hpre | hlast
      · have hsorted := (entries_spec hes).2
        rw [hsplit, List.pairwise_append] at hsorted
        exact hsorted.2.2 e' hpre _ List.mem_cons_self
      · rw [List.mem_singleton.mp hlast]
    unfold candidate at hr'
    split_ifs at hr' with hc
    rw [Option.some.injEq] at hr'
    subst hr'
    have hle := firstMatch_le_of hc
    rw [Option.some.injEq]
    omega
  · cases hp : LinearProbing.probe hashSize (built needle es).hash (candidate fs hay pos) hashSize
        (toNGram (hay.getD pos 0) (hay.getD (pos + 1) 0) % hashSize) with
    | none => rfl
    | some r =>
      obtain ⟨hc, -, hle⟩ := candidate_of_probe hes hcount hp
      have := firstMatch_le_of hc
      omega

/-- The loop from a probed position `pos` returns the first match, given that no match lies before
the window of `pos` and that the fuel covers the haystack. The induction is on the fuel, one window
a step. -/
lemma searchLoop_eq (hfits : Fits R putNGram needle fs) (hes : entries putNGram (needle.length - 2 + 1) = some es)
    (hcount : es.length < hashSize) (hn : 2 ≤ needle.length) :
    ∀ fuel pos, needle.length - 2 ≤ pos → pos < hay.length → hay.length ≤ fuel + pos →
      (∀ k < pos - (needle.length - 2), fs.compare (hay.drop k) = false) →
      (built needle es).searchLoop fs hay fuel pos = firstMatch fs.compare hay := by
  intro fuel
  induction fuel with
  | zero => intro pos _ hlt hfuel _; omega
  | succ fuel ih =>
    intro pos hpos hlt hfuel hbefore
    have hstep : (built needle es).step = needle.length - 1 := step_built hn
    rw [searchLoop_succ, built_needle]
    split_ifs with hend
    · rw [probe_window hfits hes hcount hpos hend hn hbefore]
      split_ifs with hF
      · rfl
      · -- no match up to `pos`: the next window starts right after it
        apply ih _ (by rw [hstep]; omega) (by rw [hstep]; omega) (by rw [hstep]; omega)
        intro k hk
        exact not_of_lt_firstMatch (by rw [hstep] at hk; omega)
    · -- past the last window the fallback searcher goes on from its start
      have hws : pos + 1 - (built needle es).step = pos - (needle.length - 2) := by
        rw [hstep]
        omega
      rw [hws, hfits.search_eq, firstMatch_drop (by omega) hbefore]

end HashPath

/-- `search` answers with the fallback searcher on its other paths. -/
lemma search_of_fallback (v : VolnitskyBase) (fs : FallbackSearcher) (hay : List ℕ) {b : Bool}
    (hnil : v.needle = [] → fs.search hay = 0) (h : b = true ∨ v.fallback = true ∨ hay.length ≤ v.needle.length) :
    v.search fs hay b = fs.search hay := by
  unfold search
  split_ifs with hn hb hf
  · exact (hnil hn).symm
  · rfl
  · rfl
  · exfalso
    rw [Bool.or_eq_true, decide_eq_true_iff] at hf
    rcases h with h | h | h
    · exact hb h
    · exact hf (Or.inl h)
    · exact hf (Or.inr h)

@[simp] lemma init_needle {caseSensitive ascii : Bool} {T : CaseTable} {tgt : Target} {needle : List ℕ}
    {haystackSizeHint : ℕ} : (init caseSensitive ascii T tgt needle haystackSizeHint).needle = needle := by
  unfold init
  dsimp only
  split_ifs
  · rfl
  · split <;> rfl

lemma init_of_entries {caseSensitive ascii : Bool} {T : CaseTable} {tgt : Target} {needle : List ℕ}
    {haystackSizeHint : ℕ} {es : List (ℕ × ℕ)} (hb : tgt.useFallbackSearcher caseSensitive = false)
    (hf : isFallbackNeedle needle.length haystackSizeHint = false)
    (hes : entries (putNGram caseSensitive ascii T needle) (needle.length - 2 + 1) = some es) :
    init caseSensitive ascii T tgt needle haystackSizeHint = built needle es := by
  unfold init
  dsimp only
  rw [hb, hf, Bool.or_false, if_neg Bool.false_ne_true, hes]
  rfl

lemma needle_length_of_isFallbackNeedle {needleSize haystackSizeHint : ℕ}
    (h : isFallbackNeedle needleSize haystackSizeHint = false) : 4 ≤ needleSize ∧ needleSize < 255 := by
  unfold isFallbackNeedle at h
  simp only [Bool.or_eq_false_iff, decide_eq_false_iff_not] at h
  omega

/-- Where the searcher and `putNGram` fit, `search` returns what the fallback searcher returns over
the whole haystack, on each of its paths: an empty needle, the bypass of a SIMD build, a needle the
table does not take, a failed table, a short haystack, and the hash path. -/
theorem search_eq_of_fits {caseSensitive ascii : Bool} {T : CaseTable} {tgt : Target} {needle : List ℕ}
    {fs : FallbackSearcher} {R : ℕ → ℕ → Prop} (hfits : Fits R (putNGram caseSensitive ascii T needle) needle fs)
    (haystackSizeHint : ℕ) (hay : List ℕ) :
    (init caseSensitive ascii T tgt needle haystackSizeHint).search fs hay (tgt.useFallbackSearcher caseSensitive) =
      fs.search hay := by
  have hnil : needle = [] → fs.search hay = 0 := fun h => hfits.search_nil h hay
  cases hb : tgt.useFallbackSearcher caseSensitive with
  | true => exact search_of_fallback _ _ _ (by rw [init_needle]; exact hnil) (Or.inl rfl)
  | false =>
    cases hf : isFallbackNeedle needle.length haystackSizeHint with
    | true =>
      apply search_of_fallback _ _ _ (by rw [init_needle]; exact hnil) (Or.inr (Or.inl ?_))
      unfold init
      dsimp only
      rw [hb, hf, Bool.or_true, if_pos rfl]
    | false =>
      obtain ⟨hn4, hn255⟩ := needle_length_of_isFallbackNeedle hf
      obtain ⟨es, hes, hlen⟩ : ∃ es, entries (putNGram caseSensitive ascii T needle) (needle.length - 2 + 1) = some es ∧
          es.length ≤ 4 * (needle.length - 2 + 1) := entries_of_forall fun i hi =>
          let ⟨grams, hgrams, hglen, _⟩ := hfits.putNGram_some i (by omega)
          ⟨grams, hgrams, hglen⟩
      have hcount : es.length < hashSize := by
        unfold hashSize
        omega
      rw [init_of_entries hb hf hes]
      by_cases hshort : hay.length ≤ needle.length
      · exact search_of_fallback _ _ _ hnil (Or.inr (Or.inr hshort))
      · -- the hash path from the first window, before which nothing lies
        unfold search
        rw [if_neg (by rw [built_needle]; rintro rfl; simp at hn4), if_neg Bool.false_ne_true, built_needle,
          built_fallback, Bool.false_or, if_neg (by simpa using hshort), hfits.search_eq]
        exact searchLoop_eq hfits hes hcount (by omega) _ _ (Nat.le_refl _) (by omega) (by omega)
          (fun k hk => absurd hk (by omega))

/-- Whatever the loop from `pos` returns lies at or after the window of `pos`. -/
lemma le_searchLoop {putNGram : ℕ → Option (List ℕ)} {needle : List ℕ} {fs : FallbackSearcher} {es : List (ℕ × ℕ)}
    {hay : List ℕ} (hes : entries putNGram (needle.length - 2 + 1) = some es) (hcount : es.length < hashSize)
    (hn : 2 ≤ needle.length) :
    ∀ fuel pos, pos < hay.length → pos - (needle.length - 2) ≤ (built needle es).searchLoop fs hay fuel pos := by
  intro fuel
  induction fuel with
  | zero => intro pos hlt; rw [searchLoop_zero]; omega
  | succ fuel ih =>
    intro pos hlt
    have hstep : (built needle es).step = needle.length - 1 := step_built hn
    rw [searchLoop_succ, built_needle]
    split_ifs with hend
    · cases hp : LinearProbing.probe hashSize (built needle es).hash (candidate fs hay pos) hashSize
          (toNGram (hay.getD pos 0) (hay.getD (pos + 1) 0) % hashSize) with
      | some r => exact (candidate_of_probe hes hcount hp).2.1
      | none =>
        dsimp only
        have := ih (pos + (built needle es).step) (by rw [hstep]; omega)
        rw [hstep] at this ⊢
        omega
    · rw [hstep]
      omega

end VolnitskyBase

def CaseSensitiveStringSearcher.toFallback (s : CaseSensitiveStringSearcher) : FallbackSearcher :=
  ⟨s.compare, s.search⟩

def ASCIICaseInsensitiveStringSearcher.toFallback (s : ASCIICaseInsensitiveStringSearcher) : FallbackSearcher :=
  ⟨s.compare, s.search⟩

/-- `UTF8CaseInsensitiveStringSearcher` as the build has it: with the cache path of AVX2 or NEON,
or scalar. -/
def utf8CaseInsensitiveFallback (T : CaseTable) (vector : Option VectorWidth) (needle : List ℕ) : FallbackSearcher :=
  match vector with
  | some w =>
    let s := UTF8CaseInsensitiveSearcher.init T w needle
    ⟨s.compare T w, s.search T w⟩
  | none =>
    let s := UTF8CaseInsensitiveSearcher.initScalar T needle
    ⟨s.compareScalar T, s.searchScalar T⟩

def Volnitsky.search (T : CaseTable) (tgt : Target) (needle : List ℕ) (haystackSizeHint : ℕ) (hay : List ℕ) : ℕ :=
  (VolnitskyBase.init true true T tgt needle haystackSizeHint).search
    (CaseSensitiveStringSearcher.mk needle).toFallback hay (tgt.useFallbackSearcher true)

def VolnitskyUTF8.search (T : CaseTable) (tgt : Target) (needle : List ℕ) (haystackSizeHint : ℕ) (hay : List ℕ) : ℕ :=
  (VolnitskyBase.init true false T tgt needle haystackSizeHint).search
    (CaseSensitiveStringSearcher.mk needle).toFallback hay (tgt.useFallbackSearcher true)

/-- `VolnitskyCaseInsensitive` where neither AVX2 nor NEON is built, as its searcher is modelled. -/
def VolnitskyCaseInsensitive.search (T : CaseTable) (caseSensitiveCanBypass : Bool) (needle : List ℕ)
    (haystackSizeHint : ℕ) (hay : List ℕ) : ℕ :=
  let tgt : Target := ⟨caseSensitiveCanBypass, none⟩
  (VolnitskyBase.init false true T tgt needle haystackSizeHint).search
    (ASCIICaseInsensitiveStringSearcher.init needle).toFallback hay (tgt.useFallbackSearcher false)

def VolnitskyCaseInsensitiveUTF8.search (T : CaseTable) (tgt : Target) (needle : List ℕ) (haystackSizeHint : ℕ)
    (hay : List ℕ) : ℕ :=
  (VolnitskyBase.init false false T tgt needle haystackSizeHint).search
    (utf8CaseInsensitiveFallback T tgt.vector needle) hay (tgt.useFallbackSearcher false)


section Instances

open VolnitskyBase ASCIICaseInsensitiveStringSearcher

lemma fits_caseSensitive (ascii : Bool) (T : CaseTable) (needle : List ℕ) :
    Fits (· = ·) (putNGram true ascii T needle) needle (CaseSensitiveStringSearcher.mk needle).toFallback where
  search_eq := (CaseSensitiveStringSearcher.mk needle).search_eq_firstMatch
  search_nil h l := by
    show (CaseSensitiveStringSearcher.mk needle).search l = 0
    rw [CaseSensitiveStringSearcher.search, if_pos h]
  compare_rel rest h := by
    have htake : rest.take needle.length = needle := (CaseSensitiveStringSearcher.mk needle).needle_eq_of_compare h
    rw [htake]
    exact List.forall₂_same.mpr fun _ _ => rfl
  putNGram_some i _ := ⟨_, rfl, by simp, fun b0 b1 h0 h1 => by rw [h0, h1]; exact List.mem_singleton_self _⟩

lemma fits_caseInsensitive (T : CaseTable) (needle : List ℕ) :
    Fits LowerEq (putNGram false true T needle) needle (ASCIICaseInsensitiveStringSearcher.init needle).toFallback where
  search_eq := (ASCIICaseInsensitiveStringSearcher.init needle).search_eq_firstMatch
  search_nil h l := by
    subst h
    rfl
  compare_rel _ h := forall₂_of_compare h
  putNGram_some _ _ := ⟨_, rfl, length_putNGramASCIICaseInsensitive_le _ _,
    fun _ _ h0 h1 => mem_putNGramASCIICaseInsensitive h0 h1⟩

end Instances


section KelvinSign

open VolnitskyBase UTF8CaseInsensitiveSearcher

/-- The needle `abck`. -/
def abck : List ℕ := [0x61, 0x62, 0x63, 0x6B]

/-- The n-grams the case-insensitive constructors put for `abck`, whose octets are ASCII. -/
def abckNGrams (i : ℕ) : Option (List ℕ) :=
  some (putNGramASCIICaseInsensitive (abck.getD i 0) (abck.getD (i + 1) 0))

lemma getD_abck_lt (i : ℕ) : abck.getD i 0 < 0x80 := by
  rcases i with _ | _ | _ | _ | i <;> simp [abck]

lemma putNGram_abck (T : CaseTable) : putNGram false false T abck = abckNGrams := by
  funext i
  exact putNGramUTF8CaseInsensitive_of_ascii T (getD_abck_lt i) (getD_abck_lt (i + 1))

/-- The table of `abck`: the cell of `bc` holds offset `1`, and the cell of `c` followed by `E2` is
empty. -/
lemma abck_table : ∃ es, entries abckNGrams 3 = some es ∧ es.length < hashSize ∧
    LinearProbing.insertAll hashSize (fun _ => 0) es (toNGram 0x62 0x63 % hashSize) = 2 ∧
    LinearProbing.insertAll hashSize (fun _ => 0) es (toNGram 0x63 0xE2 % hashSize) = 0 := by
  have hmap : (entries abckNGrams 3).map (fun es => (decide (es.length < hashSize),
      LinearProbing.insertAll hashSize (fun _ => 0) es (toNGram 0x62 0x63 % hashSize),
      LinearProbing.insertAll hashSize (fun _ => 0) es (toNGram 0x63 0xE2 % hashSize))) = some (true, 2, 0) := by
    decide
  cases hes : entries abckNGrams 3 with
  | none =>
    rw [hes] at hmap
    cases hmap
  | some es =>
    rw [hes, Option.map_some, Option.some.injEq, Prod.mk.injEq, Prod.mk.injEq] at hmap
    exact ⟨es, rfl, of_decide_eq_true hmap.1, hmap.2.1, hmap.2.2⟩

lemma initScalar_abck (T : CaseTable) : initScalar T abck = ⟨abck, true, 0x61, 0x41, [], [], false⟩ := rfl

/-- Past `a`, the needle `abck` compares with `bc` and a code point that lowers as `k`. -/
lemma compareTrivialUTF8_bck (T : CaseTable) {x c : ℕ} {xs : List ℕ} (hc : convertUTF8ToCodePoint (x :: xs) = some c)
    (hk : T.toLower c = T.toLower 0x6B) : compareTrivialUTF8 T (0x62 :: 0x63 :: x :: xs) [0x62, 0x63, 0x6B] = true := by
  have hb : seqLength 0x62 = 1 := seqLength_of_lt (by decide)
  have hc' : seqLength 0x63 = 1 := seqLength_of_lt (by decide)
  have hk' : seqLength 0x6B = 1 := seqLength_of_lt (by decide)
  rw [compareTrivialUTF8_cons T (convertUTF8ToCodePoint_ascii (by decide) _) (convertUTF8ToCodePoint_ascii (by decide) _),
    hb, beq_self_eq_true, Bool.true_and, List.drop_one, List.drop_one, List.tail_cons, List.tail_cons,
    compareTrivialUTF8_cons T (convertUTF8ToCodePoint_ascii (by decide) _) (convertUTF8ToCodePoint_ascii (by decide) _),
    hc', beq_self_eq_true, Bool.true_and, List.drop_one, List.drop_one, List.tail_cons, List.tail_cons,
    compareTrivialUTF8_cons T hc (convertUTF8ToCodePoint_ascii (by decide) _), hk, beq_self_eq_true, Bool.true_and, hk',
    List.drop_one, List.tail_cons, compareTrivialUTF8_nil_right]

/-- The scalar searcher of `abck` matches at `a` followed by `bc` and a code point that lowers as
`k`. -/
lemma scalarMatch_abck (T : CaseTable) {x c : ℕ} {xs : List ℕ} (hc : convertUTF8ToCodePoint (x :: xs) = some c)
    (hk : T.toLower c = T.toLower 0x6B) : (initScalar T abck).scalarMatch T (0x61 :: 0x62 :: 0x63 :: x :: xs) = true := by
  rw [initScalar_abck, scalarMatch]
  exact Bool.and_eq_true_iff.mpr ⟨by decide, compareTrivialUTF8_bck T hc hk⟩

variable (T : CaseTable) (caseSensitiveCanBypass : Bool)

@[simp] lemma built_hash {needle : List ℕ} {es : List (ℕ × ℕ)} :
    (built needle es).hash = LinearProbing.insertAll hashSize (fun _ => 0) es := rfl

lemma compare_abck (l : List ℕ) : (utf8CaseInsensitiveFallback T none abck).compare l = (initScalar T abck).scalarMatch T l := by
  show (initScalar T abck).compareScalar T l = _
  rw [compareScalar, if_neg (by rw [initScalar_abck]; decide)]

lemma search_fallback_abck (l : List ℕ) :
    (utf8CaseInsensitiveFallback T none abck).search l = (initScalar T abck).scalarLoop T l := by
  show (initScalar T abck).searchScalar T l = _
  rw [searchScalar, if_neg (by rw [initScalar_abck]; decide)]

/-- Built with neither AVX2 nor NEON, the hash path runs from the first window, that of position
`2`. -/
lemma search_abck {es : List (ℕ × ℕ)} (hes : entries abckNGrams 3 = some es) {hay : List ℕ}
    (hlen : abck.length < hay.length) :
    VolnitskyCaseInsensitiveUTF8.search T ⟨caseSensitiveCanBypass, none⟩ abck 0 hay =
      (built abck es).searchLoop (utf8CaseInsensitiveFallback T none abck) hay (hay.length + 1) 2 := by
  have hb : (⟨caseSensitiveCanBypass, none⟩ : Target).useFallbackSearcher false = false := rfl
  rw [VolnitskyCaseInsensitiveUTF8.search,
    init_of_entries rfl rfl (by rw [putNGram_abck]; exact hes), VolnitskyBase.search, built_needle, built_fallback,
    if_neg (by decide), hb, if_neg Bool.false_ne_true, Bool.false_or, if_neg (by simpa using hlen)]
  rfl

/-- Built with neither AVX2 nor NEON, the case-insensitive UTF-8 searcher's hash path compares the
haystack at the octets of the needle's n-grams, while its fallback searcher walks the haystack code
point by code point. After an invalid lead octet `E2`, the fallback searcher steps over the needle
`abck` with the lead octet's length, while the hash path finds it at `1`. Where `k` is written as
KELVIN SIGN, `E2 84 AA`, which Poco's tables lower to `k`, the fallback searcher finds `abck` at `0`,
while the hash path, whose n-grams are ASCII, steps past it. -/
theorem search_differs_from_fallback (rest : List ℕ) :
    (VolnitskyCaseInsensitiveUTF8.search T ⟨caseSensitiveCanBypass, none⟩ abck 0
        ([0xE2, 0x61, 0x62, 0x63, 0x6B, 0x78] ++ rest) = 1 ∧
      3 ≤ (utf8CaseInsensitiveFallback T none abck).search ([0xE2, 0x61, 0x62, 0x63, 0x6B, 0x78] ++ rest)) ∧
    (T.toLower 0x212A = T.toLower 0x6B →
      (utf8CaseInsensitiveFallback T none abck).search ([0x61, 0x62, 0x63, 0xE2, 0x84, 0xAA] ++ rest) = 0 ∧
        3 ≤ VolnitskyCaseInsensitiveUTF8.search T ⟨caseSensitiveCanBypass, none⟩ abck 0
          ([0x61, 0x62, 0x63, 0xE2, 0x84, 0xAA] ++ rest)) := by
  obtain ⟨es, hes, hcount, hbc, hcE2⟩ := abck_table
  have hentries : entries (putNGram false false T abck) (abck.length - 2 + 1) = some es := by
    rw [putNGram_abck]
    exact hes
  have hfuel : 0 < hashSize := by decide
  refine ⟨⟨?_, ?_⟩, fun hkelvin => ⟨?_, ?_⟩⟩
  · -- the window of position `2` meets `bc`, which puts the needle at `1`, where it matches
    have hcell : toNGram (([0xE2, 0x61, 0x62, 0x63, 0x6B, 0x78] ++ rest).getD 2 0)
        (([0xE2, 0x61, 0x62, 0x63, 0x6B, 0x78] ++ rest).getD (2 + 1) 0) % hashSize = toNGram 0x62 0x63 % hashSize := rfl
    have hmatch : (utf8CaseInsensitiveFallback T none abck).compare
        (([0xE2, 0x61, 0x62, 0x63, 0x6B, 0x78] ++ rest).drop (2 - (2 - 1))) = true := by
      rw [compare_abck]
      exact scalarMatch_abck T (convertUTF8ToCodePoint_ascii (by decide) (0x78 :: rest)) rfl
    have hhit : candidate (utf8CaseInsensitiveFallback T none abck) ([0xE2, 0x61, 0x62, 0x63, 0x6B, 0x78] ++ rest) 2 2 =
        some 1 := by
      unfold candidate
      rw [if_pos hmatch]
    rw [search_abck T caseSensitiveCanBypass hes (by simp [abck]), searchLoop_succ, built_needle,
      if_pos (by simp [abck]), hcell, LinearProbing.probe_of_hit hfuel (by rw [built_hash, hbc]; decide)
        (by rw [built_hash, hbc]; exact hhit)]
  · -- the fallback searcher skips the three octets that `E2` announces
    have hE2 : seqLength 0xE2 = 3 := seqLength_of_three (by decide) (by decide)
    rw [search_fallback_abck, initScalar_abck, List.cons_append, scalarLoop,
      if_neg (by rw [scalarMatch_of_ne _ (by decide) (by decide)]; exact Bool.false_ne_true),
      if_neg (by rw [hE2]; simp), hE2]
    omega
  · -- KELVIN SIGN lowers as `k`, so `abck` matches at `0`
    have hkc : convertUTF8ToCodePoint (0xE2 :: 0x84 :: 0xAA :: rest) = some 0x212A :=
      convertUTF8ToCodePoint_append (l := [0xE2, 0x84, 0xAA]) rest (by decide)
    rw [search_fallback_abck]
    exact scalarLoop_of_scalarMatch (scalarMatch_abck T hkc hkelvin)
  · -- the window of position `2` reads `c` and `E2`, whose cell is empty; the next starts at `3`
    have hcell : toNGram (([0x61, 0x62, 0x63, 0xE2, 0x84, 0xAA] ++ rest).getD 2 0)
        (([0x61, 0x62, 0x63, 0xE2, 0x84, 0xAA] ++ rest).getD (2 + 1) 0) % hashSize = toNGram 0x63 0xE2 % hashSize := rfl
    have hstep : (built abck es).step = 3 := rfl
    rw [search_abck T caseSensitiveCanBypass hes (by simp [abck]), searchLoop_succ, built_needle,
      if_pos (by simp [abck]), hcell, LinearProbing.probe_of_empty hfuel (by rw [built_hash, hcE2])]
    have hlater := @le_searchLoop _ _ (utf8CaseInsensitiveFallback T none abck) _
      ([0x61, 0x62, 0x63, 0xE2, 0x84, 0xAA] ++ rest) hentries hcount (by decide)
      (List.length ([0x61, 0x62, 0x63, 0xE2, 0x84, 0xAA] ++ rest)) (2 + (built abck es).step) (by rw [hstep]; simp)
    rw [hstep] at hlater ⊢
    exact hlater

def kelvinToLower (c : ℕ) : ℕ := if 0x41 ≤ c ∧ c ≤ 0x5A then c + 32 else if c = 0x212A then 0x6B else min c 0x10FFFF

def kelvinToUpper (c : ℕ) : ℕ := if 0x61 ≤ c ∧ c ≤ 0x7A then c - 32 else min c 0x10FFFF

lemma kelvinToLower_le (c : ℕ) : kelvinToLower c ≤ 0x10FFFF := by
  unfold kelvinToLower
  split_ifs <;> omega

lemma kelvinToUpper_le (c : ℕ) : kelvinToUpper c ≤ 0x10FFFF := by
  unfold kelvinToUpper
  split_ifs <;> omega

/-- A fragment of Poco's case tables: the ASCII letters, and KELVIN SIGN, which lowers to `k`; every
other code point is its own case. -/
def kelvinCaseTable : CaseTable where
  toLower := kelvinToLower
  toUpper := kelvinToUpper
  toLower_le := kelvinToLower_le
  toUpper_le := kelvinToUpper_le

theorem search_differs_from_fallback_kelvin :
    kelvinCaseTable.toLower 0x212A = kelvinCaseTable.toLower 0x6B ∧
      (utf8CaseInsensitiveFallback kelvinCaseTable none abck).search [0x61, 0x62, 0x63, 0xE2, 0x84, 0xAA] = 0 ∧
        3 ≤ VolnitskyCaseInsensitiveUTF8.search kelvinCaseTable ⟨true, none⟩ abck 0 [0x61, 0x62, 0x63, 0xE2, 0x84, 0xAA] :=
  have hk : kelvinCaseTable.toLower 0x212A = kelvinCaseTable.toLower 0x6B := by decide
  ⟨hk, (search_differs_from_fallback kelvinCaseTable true []).2 hk⟩

end KelvinSign

end ClickHouse.Common
