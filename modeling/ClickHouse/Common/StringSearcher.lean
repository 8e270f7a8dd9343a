import ClickHouse.Common.UTF8Helpers
import ClickHouse.Lib.FirstMatch

/-! `Common/StringSearcher.cpp`: the case-insensitive searcher in UTF-8. The needle's first
symbol gives the octets `l` and `u` of its lower and upper case; a position matches when its first
octet is one of them and `compareTrivialUTF8`, which lowers code point by code point, finds the
needle there. The scalar loop walks the haystack by `seqLength`. Built for AVX2 or NEON, the
searcher also keeps the needle's first `N` octets in lower and upper case, and its loop scans `N`
octets at a time for `l` or `u` and then compares the cached octets before the code points. The
case mappings are Poco's, taken from the tables of PCRE; they are a parameter here. -/

namespace ClickHouse.Common

open UTF8

/-- `Poco::Unicode::toLower` and `toUpper`, which map a code point to a code point. -/
structure CaseTable where
  toLower : ℕ → ℕ
  toUpper : ℕ → ℕ
  toLower_le : ∀ c, toLower c ≤ 0x10FFFF
  toUpper_le : ∀ c, toUpper c ≤ 0x10FFFF

/-- The registers of the cache path: `__m256i` under AVX2, `uint8x16_t` under NEON. -/
inductive VectorWidth
  | avx2
  | neon
  deriving DecidableEq, Repr

/-- `sizeof(Vec)`. -/
def VectorWidth.bytes : VectorWidth → ℕ
  | .avx2 => 32
  | .neon => 16

/-- `std::tolower` and `std::toupper` of the C locale on an ASCII octet. -/
def asciiToLower (b : ℕ) : ℕ := if 0x41 ≤ b ∧ b ≤ 0x5A then b + 32 else b

def asciiToUpper (b : ℕ) : ℕ := if 0x61 ≤ b ∧ b ≤ 0x7A then b - 32 else b

/-- `initFirstCharacter`: whether the first symbol is ASCII, the first octets `l` and `u` of its
lower and upper case, and whether these have different lengths, which forces the scalar path. An
invalid sequence stands for itself. -/
def initFirstCharacter (T : CaseTable) (needle : List ℕ) : Bool × ℕ × ℕ × Bool :=
  match needle with
  | [] => (false, 0, 0, false)
  | b :: _ =>
    if b < 0x80 then (true, asciiToLower b, asciiToUpper b, false)
    else
      match convertUTF8ToCodePoint needle with
      | none => (false, b, b, false)
      | some c =>
        let ls := convertCodePointToUTF8 (T.toLower c)
        let us := convertCodePointToUTF8 (T.toUpper c)
        (false, ls.headD 0, us.headD 0, ls.length ≠ us.length)

/-- `buildCacheBytes` from cache position `cachePos` on: the cached octets in lower and upper case,
symbol by symbol up to `cacheSize` octets, or `none` when a symbol's case forms differ from it in
length, which forces the scalar path. -/
def buildCacheBytes (T : CaseTable) (cacheSize : ℕ) (cachePos : ℕ) : List ℕ → Option (List ℕ × List ℕ)
  | [] => some ([], [])
  | b :: rest =>
    if cachePos < cacheSize then
      let srcLen := min (rest.length + 1) (seqLength b)
      let chunk := (b :: rest).take srcLen
      let seqs : Option (List ℕ × List ℕ) :=
        match convertUTF8ToCodePoint chunk with
        | some c =>
          let ls := convertCodePointToUTF8 (T.toLower c)
          let us := convertCodePointToUTF8 (T.toUpper c)
          if ls.length = us.length ∧ us.length = srcLen then some (ls, us) else none
        | none => some (chunk, chunk)
      match seqs with
      | none => none
      | some (ls, us) =>
        let k := min srcLen (cacheSize - cachePos)
        (buildCacheBytes T cacheSize (cachePos + srcLen) ((b :: rest).drop srcLen)).map fun cache =>
          (ls.take k ++ cache.1, us.take k ++ cache.2)
    else some ([], [])
termination_by l => l.length
decreasing_by
  have := seqLength_pos b
  simp only [List.length_drop, List.length_cons]
  omega

section Cache

variable (T : CaseTable) {cacheSize cachePos : ℕ}

lemma buildCacheBytes_nil : buildCacheBytes T cacheSize cachePos [] = some ([], []) := by
  rw [buildCacheBytes]

/-- A symbol of the needle that decodes and whose case forms keep its length goes into the cache,
cut at the cache's end. -/
lemma buildCacheBytes_cons {b c : ℕ} {rest : List ℕ} (hpos : cachePos < cacheSize)
    (hlen : seqLength b ≤ rest.length + 1)
    (hc : convertUTF8ToCodePoint ((b :: rest).take (seqLength b)) = some c)
    (hl : (convertCodePointToUTF8 (T.toLower c)).length = seqLength b)
    (hu : (convertCodePointToUTF8 (T.toUpper c)).length = seqLength b) :
    buildCacheBytes T cacheSize cachePos (b :: rest) =
      (buildCacheBytes T cacheSize (cachePos + seqLength b) ((b :: rest).drop (seqLength b))).map fun cache =>
        ((convertCodePointToUTF8 (T.toLower c)).take (min (seqLength b) (cacheSize - cachePos)) ++ cache.1,
          (convertCodePointToUTF8 (T.toUpper c)).take (min (seqLength b) (cacheSize - cachePos)) ++ cache.2) := by
  have hsrc : min (rest.length + 1) (seqLength b) = seqLength b := min_eq_right hlen
  rw [buildCacheBytes, if_pos hpos]
  simp only [hsrc, hc, hl, hu, and_self, if_true]

end Cache

/-- `compareTrivialUTF8`: the needle's code points against the haystack's, both lowered. -/
def compareTrivialUTF8 (T : CaseTable) : List ℕ → List ℕ → Bool
  | _, [] => true
  | [], _ :: _ => false
  | h :: hs, n :: ns =>
    match convertUTF8ToCodePoint (h :: hs), convertUTF8ToCodePoint (n :: ns) with
    | some hc, some nc =>
      if T.toLower hc ≠ T.toLower nc then false
      else compareTrivialUTF8 T ((h :: hs).drop (seqLength h)) ((n :: ns).drop (seqLength n))
    | _, _ => false
termination_by hay => hay.length
decreasing_by
  have := seqLength_pos h
  simp only [List.length_drop, List.length_cons]
  omega

section Compare

variable (T : CaseTable)

@[simp] lemma compareTrivialUTF8_nil_right (hay : List ℕ) : compareTrivialUTF8 T hay [] = true := by
  rw [compareTrivialUTF8]

/-- Two code points that decode compare as their lower cases, and the comparison goes on past
them. -/
lemma compareTrivialUTF8_cons {h n hc nc : ℕ} {hs ns : List ℕ} (hh : convertUTF8ToCodePoint (h :: hs) = some hc)
    (hn : convertUTF8ToCodePoint (n :: ns) = some nc) :
    compareTrivialUTF8 T (h :: hs) (n :: ns) =
      (T.toLower hc == T.toLower nc &&
        compareTrivialUTF8 T ((h :: hs).drop (seqLength h)) ((n :: ns).drop (seqLength n))) := by
  rw [compareTrivialUTF8, hh, hn]
  by_cases heq : T.toLower hc = T.toLower nc
  · simp only [heq, ne_eq, not_true_eq_false, if_false, beq_self_eq_true, Bool.true_and]
  · simp only [heq, ne_eq, not_false_eq_true, if_true, beq_eq_false_iff_ne.mpr heq, Bool.false_and]

end Compare

/-- `UTF8CaseInsensitiveSearcherImpl` after its constructor. -/
structure UTF8CaseInsensitiveSearcher where
  needle : List ℕ
  firstNeedleSymbolIsAscii : Bool
  l : ℕ
  u : ℕ
  cacheL : List ℕ
  cacheU : List ℕ
  forceFallback : Bool

/-- The constructor, built with the cache path of width `w`. -/
def UTF8CaseInsensitiveSearcher.init (T : CaseTable) (w : VectorWidth) (needle : List ℕ) :
    UTF8CaseInsensitiveSearcher :=
  if needle = [] then ⟨needle, false, 0, 0, [], [], false⟩
  else
    let first := initFirstCharacter T needle
    if first.2.2.2 = true then ⟨needle, first.1, first.2.1, first.2.2.1, [], [], true⟩
    else
      match buildCacheBytes T w.bytes 0 needle with
      | none => ⟨needle, first.1, first.2.1, first.2.2.1, [], [], true⟩
      | some cache => ⟨needle, first.1, first.2.1, first.2.2.1, cache.1, cache.2, false⟩

/-- With an ASCII first octet, `l` and `u` are its cases in the C locale, and the cache path is
taken when `buildCacheBytes` keeps every length. -/
lemma UTF8CaseInsensitiveSearcher.init_of_ascii (T : CaseTable) (w : VectorWidth) {b : ℕ} {rest : List ℕ}
    {cache : List ℕ × List ℕ} (hb : b < 0x80) (hcache : buildCacheBytes T w.bytes 0 (b :: rest) = some cache) :
    init T w (b :: rest) = ⟨b :: rest, true, asciiToLower b, asciiToUpper b, cache.1, cache.2, false⟩ := by
  simp only [init, initFirstCharacter, hb, if_true, reduceCtorEq, if_false, Bool.false_eq_true, hcache]

namespace UTF8CaseInsensitiveSearcher

variable (s : UTF8CaseInsensitiveSearcher) (T : CaseTable)

/-- The octets skipped before the comparison: the first symbol, when it is ASCII. -/
def skipped : ℕ := if s.firstNeedleSymbolIsAscii then 1 else 0

/-- The scalar test at a position: its first octet is `l` or `u`, and the needle compares there
past the skipped symbol. -/
def scalarMatch : List ℕ → Bool
  | [] => false
  | b :: rest => (b = s.l || b = s.u) && compareTrivialUTF8 T ((b :: rest).drop s.skipped) (s.needle.drop s.skipped)

/-- The cached octets against a window of the haystack: each equals its lower or upper case. -/
def cacheMatch (window : List ℕ) : Bool :=
  (window.zip (s.cacheL.zip s.cacheU)).all fun p => p.1 = p.2.1 || p.1 = p.2.2

/-- The loop after the `scalar:` label: the offset of the match, or the length of the haystack
for `haystack_end`. -/
def scalarLoop : List ℕ → ℕ
  | [] => 0
  | b :: rest =>
    if s.scalarMatch T (b :: rest) then 0
    else if (b :: rest).length < seqLength b then (b :: rest).length
    else seqLength b + scalarLoop ((b :: rest).drop (seqLength b))
termination_by hay => hay.length
decreasing_by
  have := seqLength_pos b
  simp only [List.length_drop, List.length_cons]
  omega

/-- The loop of the cache path: while `2N` octets remain, the first of `N` octets equal to `l` or
`u` is tried against the cache and then compared, and a window without one is skipped to the next
symbol; nearer the end it steps as the scalar loop does. -/
def vectorLoop (w : VectorWidth) : List ℕ → ℕ
  | [] => 0
  | b :: rest =>
    if 2 * w.bytes ≤ (b :: rest).length then
      match ((b :: rest).take w.bytes).findIdx? (fun x => x = s.l || x = s.u) with
      | none =>
        let skip := w.bytes + syncForward ((b :: rest).drop w.bytes)
        skip + vectorLoop w ((b :: rest).drop skip)
      | some offset =>
        let atOffset := (b :: rest).drop offset
        if s.cacheMatch (atOffset.take w.bytes) && compareTrivialUTF8 T atOffset s.needle then offset
        else offset + seqLength (atOffset.headD 0) + vectorLoop w (atOffset.drop (seqLength (atOffset.headD 0)))
    else if s.scalarMatch T (b :: rest) then 0
    else if (b :: rest).length < seqLength b then (b :: rest).length
    else seqLength b + vectorLoop w ((b :: rest).drop (seqLength b))
termination_by hay => hay.length
decreasing_by
  all_goals simp only [List.length_drop, List.length_cons]
  · have : 0 < w.bytes := by cases w <;> decide
    omega
  · have := seqLength_pos (((b :: rest).drop offset).headD 0)
    omega
  · have := seqLength_pos b
    omega

section Loops

variable {s T} (w : VectorWidth)

lemma scalarMatch_of_ne {b : ℕ} (rest : List ℕ) (hl : b ≠ s.l) (hu : b ≠ s.u) :
    s.scalarMatch T (b :: rest) = false := by
  simp only [scalarMatch, hl, hu, decide_false, Bool.or_self, Bool.false_and]

lemma scalarLoop_of_scalarMatch {b : ℕ} {rest : List ℕ} (h : s.scalarMatch T (b :: rest) = true) :
    s.scalarLoop T (b :: rest) = 0 := by
  rw [scalarLoop, if_pos h]

/-- Without the octets `l` and `u` the scalar loop runs to the end of the haystack. -/
lemma scalarLoop_of_forall_ne {hay : List ℕ} (h : ∀ x ∈ hay, x ≠ s.l ∧ x ≠ s.u) :
    s.scalarLoop T hay = hay.length := by
  fun_induction s.scalarLoop T hay with
  | case1 => rfl
  | case2 b rest hm =>
    have hb := h b List.mem_cons_self
    rw [scalarMatch_of_ne rest hb.1 hb.2] at hm
    exact absurd hm Bool.false_ne_true
  | case3 b rest _ hshort => rfl
  | case4 b rest _ hlong ih =>
    rw [ih fun x hx => h x (List.mem_of_mem_drop hx), List.length_drop]
    omega

/-- The vector loop at a candidate octet, with `2N` octets to go: the cache and the code points are
compared there, and on a mismatch the loop goes on after the symbol. -/
lemma vectorLoop_of_head {b : ℕ} {rest : List ℕ} (hlen : 2 * w.bytes ≤ rest.length + 1)
    (hb : (b = s.l || b = s.u) = true) :
    s.vectorLoop T w (b :: rest) =
      if s.cacheMatch ((b :: rest).take w.bytes) && compareTrivialUTF8 T (b :: rest) s.needle then 0
      else seqLength b + s.vectorLoop T w ((b :: rest).drop (seqLength b)) := by
  have hN : w.bytes = (w.bytes - 1) + 1 := by cases w <;> rfl
  have hfind : ((b :: rest).take w.bytes).findIdx? (fun x => x = s.l || x = s.u) = some 0 := by
    rw [hN, List.take_succ_cons, List.findIdx?_cons, if_pos hb]
  rw [vectorLoop, if_pos (by simp only [List.length_cons]; omega), hfind]
  simp only [List.drop_zero, List.headD_cons, Nat.zero_add]

/-- Without the octets `l` and `u` the vector loop runs to the end of the haystack too: a window
without a candidate is skipped whole. -/
lemma vectorLoop_of_forall_ne {hay : List ℕ} (h : ∀ x ∈ hay, x ≠ s.l ∧ x ≠ s.u) :
    s.vectorLoop T w hay = hay.length := by
  fun_induction s.vectorLoop T w hay with
  | case1 => rfl
  | case2 b rest hlong hnone skip ih =>
    have hskip : w.bytes + syncForward ((b :: rest).drop w.bytes) ≤ (b :: rest).length := by
      have := syncForward_le ((b :: rest).drop w.bytes)
      rw [List.length_drop] at this
      omega
    rw [ih fun x hx => h x (List.mem_of_mem_drop hx), List.length_drop]
    omega
  | case3 b rest hlong offset hsome _ | case4 b rest hlong offset hsome _ _ =>
    -- the window holds no candidate
    have hnone : ((b :: rest).take w.bytes).findIdx? (fun x => x = s.l || x = s.u) = none := by
      rw [List.findIdx?_eq_none_iff]
      intro x hx
      have hx' := h x (List.mem_of_mem_take hx)
      simp only [hx'.1, hx'.2, decide_false, Bool.or_self]
    rw [hnone] at hsome
    exact absurd hsome (by simp)
  | case5 b rest _ hm =>
    have hb := h b List.mem_cons_self
    rw [scalarMatch_of_ne rest hb.1 hb.2] at hm
    exact absurd hm Bool.false_ne_true
  | case6 b rest _ _ hshort => rfl
  | case7 b rest _ _ hlong' ih =>
    rw [ih fun x hx => h x (List.mem_of_mem_drop hx), List.length_drop]
    omega

end Loops

/-- `search` built with the cache path: the offset of the match, or the length of the haystack. -/
def search (w : VectorWidth) (hay : List ℕ) : ℕ :=
  if s.needle = [] then 0
  else if s.forceFallback then s.scalarLoop T hay
  else s.vectorLoop T w hay

/-- `search` where neither AVX2 nor NEON is built: the scalar loop alone. -/
def searchScalar (hay : List ℕ) : ℕ :=
  if s.needle = [] then 0 else s.scalarLoop T hay

/-- `compare` at a position, given the octets from there to the end, built with the cache path. -/
def compare (w : VectorWidth) (rest : List ℕ) : Bool :=
  if s.needle = [] then true
  else if s.forceFallback = false ∧ w.bytes ≤ rest.length then
    s.cacheMatch (rest.take w.bytes) && compareTrivialUTF8 T rest s.needle
  else s.scalarMatch T rest

/-- `compare` where neither AVX2 nor NEON is built. -/
def compareScalar (rest : List ℕ) : Bool :=
  if s.needle = [] then true else s.scalarMatch T rest

end UTF8CaseInsensitiveSearcher

/-- The constructor where neither AVX2 nor NEON is built: the first symbol alone. -/
def UTF8CaseInsensitiveSearcher.initScalar (T : CaseTable) (needle : List ℕ) : UTF8CaseInsensitiveSearcher :=
  if needle = [] then ⟨needle, false, 0, 0, [], [], false⟩
  else
    let first := initFirstCharacter T needle
    ⟨needle, first.1, first.2.1, first.2.2.1, [], [], first.2.2.2⟩

section OhmSign

open UTF8CaseInsensitiveSearcher

variable (T : CaseTable) (w : VectorWidth)

/-- The searcher for the needle `aω` where the cases of `a` stay in ASCII and those of `ω` in two
octets, as in Poco's tables: the cache holds both symbols in each case. -/
lemma init_a_omega (ha : T.toLower 0x61 ≤ 0x7F ∧ T.toUpper 0x61 ≤ 0x7F)
    (hω : 0x7F < T.toLower 0x3C9 ∧ T.toLower 0x3C9 ≤ 0x7FF ∧ 0x7F < T.toUpper 0x3C9 ∧ T.toUpper 0x3C9 ≤ 0x7FF) :
    init T w [0x61, 0xCF, 0x89] =
      ⟨[0x61, 0xCF, 0x89], true, 0x61, 0x41,
        [T.toLower 0x61, 0xC0 + T.toLower 0x3C9 / 64, T.toLower 0x3C9 &&& 0x3F ||| 0x80],
        [T.toUpper 0x61, 0xC0 + T.toUpper 0x3C9 / 64, T.toUpper 0x3C9 &&& 0x3F ||| 0x80], false⟩ := by
  obtain ⟨hl, hu⟩ := ha
  obtain ⟨hωl, hωl', hωu, hωu'⟩ := hω
  have hN : 3 ≤ w.bytes := by cases w <;> decide
  have hk1 : min 1 (w.bytes - 0) = 1 := by omega
  have hk2 : min 2 (w.bytes - 1) = 2 := by omega
  have h61 : seqLength 0x61 = 1 := by decide
  have hCF : seqLength 0xCF = 2 := by decide
  have hcache : buildCacheBytes T w.bytes 0 [0x61, 0xCF, 0x89] =
      some ([T.toLower 0x61, 0xC0 + T.toLower 0x3C9 / 64, T.toLower 0x3C9 &&& 0x3F ||| 0x80],
        [T.toUpper 0x61, 0xC0 + T.toUpper 0x3C9 / 64, T.toUpper 0x3C9 &&& 0x3F ||| 0x80]) := by
    -- the `a`, then the two octets of `ω`, then the end of the needle
    rw [buildCacheBytes_cons T (c := 0x61) (by omega) (by rw [h61]; decide) (by rw [h61]; decide)
      (by rw [convertCodePointToUTF8_of_le hl, h61]; rfl) (by rw [convertCodePointToUTF8_of_le hu, h61]; rfl)]
    rw [h61, List.drop_one, List.tail_cons, Nat.zero_add]
    rw [buildCacheBytes_cons T (c := 0x3C9) (by omega) (by rw [hCF]; decide) (by rw [hCF]; decide)
      (by rw [convertCodePointToUTF8_of_two hωl hωl', hCF]; rfl)
      (by rw [convertCodePointToUTF8_of_two hωu hωu', hCF]; rfl)]
    rw [hCF, convertCodePointToUTF8_of_le hl, convertCodePointToUTF8_of_le hu,
      convertCodePointToUTF8_of_two hωl hωl', convertCodePointToUTF8_of_two hωu hωu']
    simp only [List.drop_succ_cons, List.drop_zero, buildCacheBytes_nil, Option.map_some, hk1, hk2,
      List.take_succ_cons, List.take_zero, List.cons_append, List.nil_append]
  exact init_of_ascii T w (by decide) hcache

section

variable (ha : T.toLower 0x61 ≤ 0x7F ∧ T.toUpper 0x61 ≤ 0x7F)
  (hω : 0x7F < T.toLower 0x3C9 ∧ T.toLower 0x3C9 ≤ 0x7FF ∧ 0x7F < T.toUpper 0x3C9 ∧ T.toUpper 0x3C9 ≤ 0x7FF)
include ha hω

/-- The scalar test accepts `a` followed by OHM SIGN (`E2 84 A6`) for the needle `aω`: the `a` by its
first octet, and OHM SIGN because it lowers to `ω`. -/
lemma scalarMatch_a_ohm (hohm : T.toLower 0x2126 = T.toLower 0x3C9) (rest : List ℕ) :
    (init T w [0x61, 0xCF, 0x89]).scalarMatch T ([0x61, 0xE2, 0x84, 0xA6] ++ rest) = true := by
  have hohmSign : convertUTF8ToCodePoint (0xE2 :: 0x84 :: 0xA6 :: rest) = some 0x2126 :=
    convertUTF8ToCodePoint_append (l := [0xE2, 0x84, 0xA6]) rest (by decide)
  have homega : convertUTF8ToCodePoint [0xCF, 0x89] = some 0x3C9 := by decide
  have hE2 : seqLength 0xE2 = 3 := by decide
  have hCF : seqLength 0xCF = 2 := by decide
  rw [init_a_omega T w ha hω]
  simp only [scalarMatch, skipped, if_true, List.cons_append, List.nil_append, List.drop_one, List.tail_cons,
    decide_true, Bool.true_or, Bool.true_and]
  rw [compareTrivialUTF8_cons T hohmSign homega, hohm, hE2, hCF]
  simp only [beq_self_eq_true, List.drop_succ_cons, List.drop_zero, compareTrivialUTF8_nil_right, Bool.and_self]

/-- The cache of `aω` rejects a window whose second octet opens a three-octet sequence: the second
octets of the cache lead two-octet sequences. -/
lemma cacheMatch_a_ohm (rest : List ℕ) (hlen : w.bytes ≤ rest.length + 4) :
    (init T w [0x61, 0xCF, 0x89]).cacheMatch (([0x61, 0xE2, 0x84, 0xA6] ++ rest).take w.bytes) = false := by
  have hN : 3 ≤ w.bytes := by cases w <;> decide
  have hlead : ∀ c, c ≤ 0x7FF → 0xE2 ≠ 0xC0 + c / 64 := by omega
  rw [init_a_omega T w ha hω, List.cons_append, List.take_cons (by omega), List.cons_append,
    List.take_cons (by omega)]
  simp only [cacheMatch, List.zip_cons_cons, List.all_cons, hlead _ hω.2.1, hlead _ hω.2.2.2, decide_false,
    Bool.or_self, Bool.false_and, Bool.and_false]

/-- Built with AVX2 or NEON, the searcher for `aω` misses `a` followed by OHM SIGN, which the scalar
loop finds at the start of the haystack; and `compare` there rejects what the scalar test accepts. -/
theorem cache_path_disagrees_with_scalar (hohm : T.toLower 0x2126 = T.toLower 0x3C9) (rest : List ℕ)
    (hrest : ∀ x ∈ rest, x ≠ 0x61 ∧ x ≠ 0x41) (hlen : 2 * w.bytes ≤ rest.length + 4) :
    let s := init T w [0x61, 0xCF, 0x89]
    let hay := [0x61, 0xE2, 0x84, 0xA6] ++ rest
    s.search T w hay = hay.length ∧ s.searchScalar T hay = 0 ∧
      s.compare T w hay = false ∧ s.scalarMatch T hay = true := by
  dsimp only
  have hmatch := scalarMatch_a_ohm T w ha hω hohm rest
  have hcache := cacheMatch_a_ohm T w ha hω rest (by omega)
  obtain ⟨hne, hforce, hl, hu⟩ : (init T w [0x61, 0xCF, 0x89]).needle ≠ [] ∧
      (init T w [0x61, 0xCF, 0x89]).forceFallback = false ∧
      (init T w [0x61, 0xCF, 0x89]).l = 0x61 ∧ (init T w [0x61, 0xCF, 0x89]).u = 0x41 := by
    rw [init_a_omega T w ha hω]
    exact ⟨List.cons_ne_nil _ _, rfl, rfl, rfl⟩
  refine ⟨?_, ?_, ?_, hmatch⟩
  · -- the cache path: `a` fails the cache, and no `a` or `A` comes after it
    have hafter : ∀ x ∈ [0xE2, 0x84, 0xA6] ++ rest,
        x ≠ (init T w [0x61, 0xCF, 0x89]).l ∧ x ≠ (init T w [0x61, 0xCF, 0x89]).u := by
      rw [hl, hu]
      intro x hx
      rcases List.mem_append.mp hx with hx | hx
      · simp only [List.mem_cons, List.not_mem_nil, or_false] at hx
        omega
      · exact hrest x hx
    rw [List.cons_append] at hcache ⊢
    rw [search, if_neg hne, if_neg (by rw [hforce]; decide),
      vectorLoop_of_head w (by simp only [List.length_append, List.length_cons, List.length_nil]; omega)
        (by simp only [hl, decide_true, Bool.true_or]),
      hcache, Bool.false_and, if_neg Bool.false_ne_true, seqLength_of_lt (by decide), List.drop_one,
      List.tail_cons, vectorLoop_of_forall_ne w hafter]
    simp only [List.length_cons, List.length_append, List.length_nil]
    omega
  · -- the scalar loop stops at once
    rw [searchScalar, if_neg hne, List.cons_append]
    rw [List.cons_append] at hmatch
    exact scalarLoop_of_scalarMatch hmatch
  · have hwindow : w.bytes ≤ ([0x61, 0xE2, 0x84, 0xA6] ++ rest).length := by
      simp only [List.length_append, List.length_cons, List.length_nil]
      omega
    rw [UTF8CaseInsensitiveSearcher.compare, if_neg hne, if_pos ⟨hforce, hwindow⟩, hcache,
      Bool.false_and]

end

/-- A fragment of Poco's case tables: the ASCII letters, `ω` and `Ω`, and OHM SIGN, which lowers to
`ω`; every other code point is its own case. -/
def ohmCaseTable : CaseTable where
  toLower c := if 0x41 ≤ c ∧ c ≤ 0x5A then c + 32 else if c = 0x3A9 ∨ c = 0x2126 then 0x3C9 else min c 0x10FFFF
  toUpper c := if 0x61 ≤ c ∧ c ≤ 0x7A then c - 32 else if c = 0x3C9 then 0x3A9 else min c 0x10FFFF
  toLower_le c := by split_ifs <;> omega
  toUpper_le c := by split_ifs <;> omega

theorem cache_path_disagrees_with_scalar_avx2 :
    ohmCaseTable.toLower 0x2126 = ohmCaseTable.toLower 0x3C9 ∧
      let s := init ohmCaseTable .avx2 [0x61, 0xCF, 0x89]
      let hay := [0x61, 0xE2, 0x84, 0xA6] ++ List.replicate 60 0x62
      s.search ohmCaseTable .avx2 hay = hay.length ∧ s.searchScalar ohmCaseTable hay = 0 ∧
        s.compare ohmCaseTable .avx2 hay = false ∧ s.scalarMatch ohmCaseTable hay = true :=
  ⟨by decide, cache_path_disagrees_with_scalar ohmCaseTable .avx2 (by decide) (by decide) (by decide) _
    (fun x hx => by rw [List.eq_of_mem_replicate hx]; decide) (by decide)⟩

end OhmSign

/-! The searchers of `Common/StringSearcher.h` for octets. `CaseSensitiveStringSearcher` calls
StringZilla, which is not part of the sources: `sz_equal` compares octets and `sz_find` returns the
first occurrence. `ASCIICaseInsensitiveStringSearcher` is modelled where neither AVX2 nor NEON is
built: `compare` and `search` test the first octet against its two cases and the rest by `tolower`.
In both, `compare` at the end of the haystack reads padding, modelled as no match. -/

section OctetSearchers

open ClickHouse.Lib

structure CaseSensitiveStringSearcher where
  needle : List ℕ

namespace CaseSensitiveStringSearcher

variable (s : CaseSensitiveStringSearcher)

/-- The loop below 32 octets and `sz_equal` from there both compare the needle octet by octet. -/
def compare (rest : List ℕ) : Bool := s.needle.isPrefixOf rest

def search (hay : List ℕ) : ℕ := if s.needle = [] then 0 else firstMatch s.compare hay

lemma search_eq_firstMatch (hay : List ℕ) : s.search hay = firstMatch s.compare hay := by
  rw [search]
  split_ifs with hnil
  · cases hay with
    | nil => rfl
    | cons b rest => rw [firstMatch_cons, if_pos (by rw [compare, hnil]; rfl)]
  · rfl

lemma needle_eq_of_compare {rest : List ℕ} (h : s.compare rest = true) : rest.take s.needle.length = s.needle := by
  obtain ⟨tail, rfl⟩ := List.isPrefixOf_iff_prefix.mp h
  exact List.take_left

end CaseSensitiveStringSearcher

structure ASCIICaseInsensitiveStringSearcher where
  needle : List ℕ
  l : ℕ
  u : ℕ

namespace ASCIICaseInsensitiveStringSearcher

def init : List ℕ → ASCIICaseInsensitiveStringSearcher
  | [] => ⟨[], 0, 0⟩
  | b :: rest => ⟨b :: rest, asciiToLower b, asciiToUpper b⟩

/-- The loop after the first octet: octets agree by `tolower` while both remain, and the needle
has to run out first. -/
def compareLower : List ℕ → List ℕ → Bool
  | [], _ => true
  | _ :: _, [] => false
  | n :: ns, h :: hs => asciiToLower h = asciiToLower n && compareLower ns hs

variable (s : ASCIICaseInsensitiveStringSearcher)

def compare (rest : List ℕ) : Bool :=
  if s.needle = [] then true
  else
    match rest with
    | [] => false
    | b :: bs => (b = s.l || b = s.u) && compareLower (s.needle.drop 1) bs

/-- The scalar loop of `search`, one octet at a time. -/
def searchLoop : List ℕ → ℕ
  | [] => 0
  | b :: rest => if (b = s.l || b = s.u) && compareLower (s.needle.drop 1) rest then 0 else searchLoop rest + 1

def search (hay : List ℕ) : ℕ := if s.needle = [] then 0 else s.searchLoop hay

lemma search_eq_firstMatch (hay : List ℕ) : s.search hay = firstMatch s.compare hay := by
  rw [search]
  split_ifs with hnil
  · cases hay with
    | nil => rfl
    | cons b rest => rw [firstMatch_cons, if_pos (by rw [compare, if_pos hnil])]
  · induction hay with
    | nil => rfl
    | cons b rest ih =>
      rw [searchLoop, firstMatch_cons, compare, if_neg hnil, ih]

/-- Two octets agree by `tolower` when one is a case of the other. -/
def LowerEq (h n : ℕ) : Prop := asciiToLower h = asciiToLower n

lemma lowerEq_of_cases {b n : ℕ} (h : b = asciiToLower n ∨ b = asciiToUpper n) : LowerEq b n := by
  unfold LowerEq asciiToLower
  unfold asciiToLower asciiToUpper at h
  split_ifs at h ⊢ <;> omega

lemma forall₂_of_compareLower {ns hs : List ℕ} (h : compareLower ns hs = true) :
    List.Forall₂ LowerEq (hs.take ns.length) ns := by
  induction ns generalizing hs with
  | nil => exact List.Forall₂.nil
  | cons n ns ih =>
    cases hs with
    | nil => exact absurd h Bool.false_ne_true
    | cons b hs =>
      rw [compareLower, Bool.and_eq_true, decide_eq_true_iff] at h
      exact List.Forall₂.cons h.1 (ih h.2)

/-- Where `compare` of the searcher of a needle holds, the octets from there agree with the needle
by `tolower`. -/
lemma forall₂_of_compare {needle rest : List ℕ} (h : (init needle).compare rest = true) :
    List.Forall₂ LowerEq (rest.take needle.length) needle := by
  cases needle with
  | nil => exact List.Forall₂.nil
  | cons n ns =>
    cases rest with
    | nil => simp [init, compare] at h
    | cons b bs =>
      simp only [init, compare, reduceCtorEq, if_false, List.drop_one, List.tail_cons, Bool.and_eq_true,
        Bool.or_eq_true] at h
      rw [List.length_cons, List.take_succ_cons]
      exact List.Forall₂.cons (lowerEq_of_cases (h.1.imp of_decide_eq_true of_decide_eq_true))
        (forall₂_of_compareLower h.2)

end ASCIICaseInsensitiveStringSearcher

end OctetSearchers

end ClickHouse.Common
