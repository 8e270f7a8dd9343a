import ClickHouse.Storages.MergeTree.ActiveDataPartSet

/-! `Storages/MergeTree/OverlappingPartCovering.h`: an `ActiveDataPartSet` together with the list of
the parts it refused as intersecting, both consulted when looking for a part that contains a
part. -/

namespace ClickHouse.Storages.MergeTree

open ClickHouse.Common MergeTreePartInfo ActiveDataPartSet

structure OverlappingPartCovering where
  set : ActiveDataPartSet
  overlapping : List (MergeTreePartInfo × List Char)

namespace OverlappingPartCovering

/-- The constructor from a format version. -/
def empty (formatVersion : ℕ) : OverlappingPartCovering :=
  ⟨⟨formatVersion, []⟩, []⟩

variable (c : OverlappingPartCovering)

/-- `add(part_info, part_name)`: the set stores the part under its printed name; a part it refuses
as intersecting goes to the list under the caller's name. -/
def add (p : MergeTreePartInfo) (partName : List Char) : Except ErrorCode Unit × OverlappingPartCovering :=
  match c.set.tryAddPart p with
  | (.error e, set) => (.error e, { c with set := set })
  | (.ok outcome, set) =>
    if outcome = .hasIntersectingPart then (.ok (), ⟨set, c.overlapping ++ [(p, partName)]⟩)
    else (.ok (), { c with set := set })

/-- `add(part_name)`. -/
def addByName (partName : List Char) : Except ErrorCode Unit × OverlappingPartCovering :=
  match fromPartName partName c.set.formatVersion with
  | .error e => (.error e, c)
  | .ok p => c.add p partName

def getContainingPart (p : MergeTreePartInfo) : List Char :=
  if c.set.getContainingPart p ≠ [] then c.set.getContainingPart p
  else
    match c.overlapping.find? (fun e => decide (e.1.contains p)) with
    | some e => e.2
    | none => []

/-- The covering after adding the parts in order. -/
def addAll (parts : List (MergeTreePartInfo × List Char)) : OverlappingPartCovering :=
  parts.foldl (fun c e => (c.add e.1 e.2).2) c

/-! ### What the covering keeps -/

/-- The covering after the parts `added` went in: the set keeps its invariant in the
custom-partitioning format, every stored part (in the set or in the list) was added and has a
name, and every part added is contained in a stored one. -/
structure Covers (c : OverlappingPartCovering) (added : List (MergeTreePartInfo × List Char)) : Prop where
  formatVersion : c.set.formatVersion = minFormatVersionWithCustomPartitioning
  invariant : Invariant c.set.partInfoToName
  stored : ∀ e ∈ c.set.partInfoToName ++ c.overlapping, e.2 ≠ [] ∧ ∃ a ∈ added, a.1 = e.1
  covered : ∀ a ∈ added, ∃ e ∈ c.set.partInfoToName ++ c.overlapping, e.1.contains a.1

lemma Covers.empty : Covers (empty minFormatVersionWithCustomPartitioning) [] :=
  ⟨rfl, Invariant.nil, fun _ he => absurd he List.not_mem_nil, fun _ ha => absurd ha List.not_mem_nil⟩

/-- The stored-part facts of `Covers` carry over a step that adds `p`, when every new stored part
is an old one or `p` under a name, every old one is kept or contained in `p`, and some new one
contains `p`. Containment is transitive, so what an erased part covered, `p`'s cover covers. -/
lemma covers_step {stored stored' added : List (MergeTreePartInfo × List Char)}
    {p : MergeTreePartInfo} {partName : List Char}
    (hstored : ∀ e ∈ stored, e.2 ≠ [] ∧ ∃ a ∈ added, a.1 = e.1)
    (hcovered : ∀ a ∈ added, ∃ e ∈ stored, e.1.contains a.1)
    (hnew : ∀ e ∈ stored', e ∈ stored ∨ (e.1 = p ∧ e.2 ≠ []))
    (hkept : ∀ e ∈ stored, e ∈ stored' ∨ p.contains e.1) (hp : ∃ e ∈ stored', e.1.contains p) :
    (∀ e ∈ stored', e.2 ≠ [] ∧ ∃ a ∈ added ++ [(p, partName)], a.1 = e.1) ∧
      ∀ a ∈ added ++ [(p, partName)], ∃ e ∈ stored', e.1.contains a.1 := by
  obtain ⟨t, ht, htp⟩ := hp
  constructor
  · intro e he
    rcases hnew e he with hold | ⟨hfst, hname⟩
    · obtain ⟨hname, a, ha, hae⟩ := hstored e hold
      exact ⟨hname, a, List.mem_append_left _ ha, hae⟩
    · exact ⟨hname, (p, partName), List.mem_append_right _ (List.mem_singleton_self _), hfst.symm⟩
  · intro a ha
    rcases List.mem_append.mp ha with ha | ha
    · obtain ⟨e, he, hea⟩ := hcovered a ha
      rcases hkept e he with he' | hpe
      · exact ⟨e, he', hea⟩
      · exact ⟨t, ht, contains_trans htp (contains_trans hpe hea)⟩
    · rw [List.mem_singleton.mp ha]
      exact ⟨t, ht, htp⟩

section Add

variable {c : OverlappingPartCovering} {p : MergeTreePartInfo} {partName : List Char}

lemma add_eq (h : c.set.formatVersion = minFormatVersionWithCustomPartitioning) :
    (c.add p partName).2 =
      if (addImpl p p.getPartNameV1 c.set.partInfoToName).1 = .hasIntersectingPart then
        ⟨{ c.set with partInfoToName := (addImpl p p.getPartNameV1 c.set.partInfoToName).2 },
          c.overlapping ++ [(p, partName)]⟩
      else ⟨{ c.set with partInfoToName := (addImpl p p.getPartNameV1 c.set.partInfoToName).2 }, c.overlapping⟩ := by
  simp only [add, tryAddPart_of_formatVersion c.set h]
  split_ifs <;> rfl

/-- The stored parts after `add`, with `extra` joining the list: each is an old one or `p`, and
every old one is kept or contained in `p`. -/
lemma add_stored (extra : List (MergeTreePartInfo × List Char)) (hextra : ∀ e ∈ extra, e.1 = p ∧ e.2 ≠ []) :
    (∀ e ∈ (addImpl p p.getPartNameV1 c.set.partInfoToName).2 ++ (c.overlapping ++ extra),
        e ∈ c.set.partInfoToName ++ c.overlapping ∨ (e.1 = p ∧ e.2 ≠ [])) ∧
      ∀ e ∈ c.set.partInfoToName ++ c.overlapping,
        e ∈ (addImpl p p.getPartNameV1 c.set.partInfoToName).2 ++ (c.overlapping ++ extra) ∨ p.contains e.1 := by
  constructor
  · intro e he
    rcases List.mem_append.mp he with he | he
    · rcases mem_of_mem_addImpl he with hold | rfl
      · exact .inl (List.mem_append_left _ hold)
      · exact .inr ⟨rfl, getPartNameV1_ne_nil p⟩
    · rcases List.mem_append.mp he with he | he
      · exact .inl (List.mem_append_right _ he)
      · exact .inr (hextra e he)
  · intro e he
    rcases List.mem_append.mp he with he | he
    · rcases mem_addImpl_or_contains _ he with he | he
      · exact .inl (List.mem_append_left _ he)
      · exact .inr he
    · exact .inl (List.mem_append_right _ (List.mem_append_left _ he))

lemma Covers.add {added : List (MergeTreePartInfo × List Char)} (hc : Covers c added)
    (hp : p.minBlock ≤ p.maxBlock) (hname : partName ≠ []) :
    Covers (c.add p partName).2 (added ++ [(p, partName)]) := by
  have hinv := invariant_addImpl hc.invariant hp p.getPartNameV1
  rw [add_eq hc.formatVersion]
  split_ifs with hout
  · -- refused as intersecting: `p` joins the list
    obtain ⟨hnew, hkept⟩ := add_stored (c := c) [(p, partName)] (fun e he => by
      rw [List.mem_singleton.mp he]
      exact ⟨rfl, hname⟩)
    obtain ⟨hstored, hcovered⟩ := covers_step hc.stored hc.covered hnew hkept
      ⟨(p, partName), by simp, contains_refl p⟩
    exact ⟨hc.formatVersion, hinv, hstored, hcovered⟩
  · -- kept or added in the set: some part of the set contains `p`
    obtain ⟨t, ht, htp⟩ := exists_contains_addImpl hout
    obtain ⟨hnew, hkept⟩ := add_stored (c := c) (p := p) [] (fun e he => absurd he List.not_mem_nil)
    rw [List.append_nil] at hnew hkept
    obtain ⟨hstored, hcovered⟩ := covers_step hc.stored hc.covered hnew hkept
      ⟨t, List.mem_append_left _ ht, htp⟩
    exact ⟨hc.formatVersion, hinv, hstored, hcovered⟩

end Add

/-- Adding parts one after another keeps `Covers`; the induction is on the parts, one
`Covers.add` per part. -/
lemma Covers.addAll {c : OverlappingPartCovering} {added : List (MergeTreePartInfo × List Char)}
    (hc : Covers c added) (parts : List (MergeTreePartInfo × List Char))
    (hparts : ∀ e ∈ parts, e.1.minBlock ≤ e.1.maxBlock ∧ e.2 ≠ []) :
    Covers (c.addAll parts) (added ++ parts) := by
  induction parts generalizing c added with
  | nil =>
    rw [List.append_nil]
    exact hc
  | cons e parts ih =>
    have hstep := hc.add (hparts e List.mem_cons_self).1 (hparts e List.mem_cons_self).2
    have hrest := ih hstep (fun e' he' => hparts e' (List.mem_cons_of_mem _ he'))
    rwa [List.append_assoc, List.singleton_append] at hrest

/-- The lookup answers with a name exactly when a stored part, in the set or in the list,
contains the query: the set's own lookup is complete for queries with ordered blocks, and every
stored name is non-empty. -/
lemma Covers.getContainingPart_ne_nil_iff {c : OverlappingPartCovering}
    {added : List (MergeTreePartInfo × List Char)} (hc : Covers c added) {q : MergeTreePartInfo}
    (hq : q.minBlock ≤ q.maxBlock) :
    c.getContainingPart q ≠ [] ↔ ∃ e ∈ c.set.partInfoToName ++ c.overlapping, e.1.contains q := by
  unfold getContainingPart
  constructor
  · intro hne
    split_ifs at hne with hset
    · unfold ActiveDataPartSet.getContainingPart at hset
      split at hset
      · rename_i e he
        obtain ⟨hmem, hcontains⟩ := getContainingPartImpl_sound he
        exact ⟨e, List.mem_append_left _ hmem, hcontains⟩
      · exact absurd rfl hset
    · split at hne
      · rename_i e he
        have hcontains := List.find?_some he
        exact ⟨e, List.mem_append_right _ (List.mem_of_find?_eq_some he), of_decide_eq_true hcontains⟩
      · exact absurd rfl hne
  · rintro ⟨e, he, hcontains⟩
    split_ifs with hset
    · exact hset
    · rcases List.mem_append.mp he with hmem | hmem
      · -- the set holds a part containing `q`, so its lookup answers with that part's name
        obtain ⟨e', he', hmem', -⟩ :=
          (getContainingPartImpl_eq_some_iff hc.invariant hq).mpr ⟨e, hmem, hcontains⟩
        refine absurd ?_ hset
        rw [ActiveDataPartSet.getContainingPart, he']
        exact (hc.stored e' (List.mem_append_left _ hmem')).1
      · cases hfind : c.overlapping.find? (fun e => decide (e.1.contains q)) with
        | none => exact absurd (decide_eq_true hcontains) (List.find?_eq_none.mp hfind e hmem)
        | some e' =>
          exact (hc.stored e' (List.mem_append_right _ (List.mem_of_find?_eq_some hfind))).1

lemma Covers.exists_contains_iff {c : OverlappingPartCovering}
    {added : List (MergeTreePartInfo × List Char)} (hc : Covers c added) (q : MergeTreePartInfo) :
    (∃ e ∈ c.set.partInfoToName ++ c.overlapping, e.1.contains q) ↔ ∃ a ∈ added, a.1.contains q := by
  constructor
  · rintro ⟨e, he, hcontains⟩
    obtain ⟨-, a, ha, hae⟩ := hc.stored e he
    exact ⟨a, ha, hae ▸ hcontains⟩
  · rintro ⟨a, ha, hcontains⟩
    obtain ⟨e, he, hea⟩ := hc.covered a ha
    exact ⟨e, he, contains_trans hea hcontains⟩

/-- Whatever the order of the parts added (with ordered blocks and non-empty names) and wherever
each landed, the covering answers a query with ordered blocks exactly when an added part contains
it. -/
theorem addAll_getContainingPart_ne_nil_iff (parts : List (MergeTreePartInfo × List Char))
    (hparts : ∀ e ∈ parts, e.1.minBlock ≤ e.1.maxBlock ∧ e.2 ≠ []) (q : MergeTreePartInfo)
    (hq : q.minBlock ≤ q.maxBlock) :
    ((empty minFormatVersionWithCustomPartitioning).addAll parts).getContainingPart q ≠ [] ↔
      ∃ e ∈ parts, e.1.contains q := by
  have hc := Covers.empty.addAll parts hparts
  rw [List.nil_append] at hc
  rw [hc.getContainingPart_ne_nil_iff hq, hc.exists_contains_iff q]

theorem addAll_getContainingPart_ne_nil_iff_markers :
    (∀ e ∈ [((⟨.regular, ['a', 'l', 'l'], 0, 5, 2, 0, false, rfl⟩ : MergeTreePartInfo), "all_0_5_2".toList),
        (⟨.regular, ['a', 'l', 'l'], 2, 11, 3, 0, false, rfl⟩, "all_2_11_3".toList)],
      e.1.minBlock ≤ e.1.maxBlock ∧ e.2 ≠ []) ∧
    (⟨.regular, ['a', 'l', 'l'], 9, 10, 1, 0, false, rfl⟩ : MergeTreePartInfo).minBlock ≤
      (⟨.regular, ['a', 'l', 'l'], 9, 10, 1, 0, false, rfl⟩ : MergeTreePartInfo).maxBlock ∧
    (((empty minFormatVersionWithCustomPartitioning).addAll
        [(⟨.regular, ['a', 'l', 'l'], 0, 5, 2, 0, false, rfl⟩, "all_0_5_2".toList),
          (⟨.regular, ['a', 'l', 'l'], 2, 11, 3, 0, false, rfl⟩, "all_2_11_3".toList)]).getContainingPart
        ⟨.regular, ['a', 'l', 'l'], 9, 10, 1, 0, false, rfl⟩ ≠ [] ↔
      ∃ e ∈ [((⟨.regular, ['a', 'l', 'l'], 0, 5, 2, 0, false, rfl⟩ : MergeTreePartInfo), "all_0_5_2".toList),
          (⟨.regular, ['a', 'l', 'l'], 2, 11, 3, 0, false, rfl⟩, "all_2_11_3".toList)],
        e.1.contains ⟨.regular, ['a', 'l', 'l'], 9, 10, 1, 0, false, rfl⟩) :=
  ⟨by decide, by decide,
    addAll_getContainingPart_ne_nil_iff _ (by decide) _ (by decide)⟩

/-- Both conditions are needed. The unordered `all_5_1_2` goes into the set beside `all_2_10_1` and
hides it from the lookup of `all_6_8_0`, which `all_2_10_1` contains; and a part refused as
intersecting under an empty name answers with that empty name. -/
theorem addAll_getContainingPart_unordered :
    ((empty minFormatVersionWithCustomPartitioning).addAll
        [(⟨.regular, ['a', 'l', 'l'], 2, 10, 1, 0, false, rfl⟩, "all_2_10_1".toList),
          (⟨.regular, ['a', 'l', 'l'], 5, 1, 2, 0, false, rfl⟩, "all_5_1_2".toList)]).getContainingPart
        ⟨.regular, ['a', 'l', 'l'], 6, 8, 0, 0, false, rfl⟩ = [] ∧
    (⟨.regular, ['a', 'l', 'l'], 2, 10, 1, 0, false, rfl⟩ : MergeTreePartInfo).contains
      ⟨.regular, ['a', 'l', 'l'], 6, 8, 0, 0, false, rfl⟩ ∧
    ((empty minFormatVersionWithCustomPartitioning).addAll
        [(⟨.regular, ['a', 'l', 'l'], 0, 5, 2, 0, false, rfl⟩, "all_0_5_2".toList),
          (⟨.regular, ['a', 'l', 'l'], 2, 11, 3, 0, false, rfl⟩, [])]).getContainingPart
        ⟨.regular, ['a', 'l', 'l'], 9, 10, 1, 0, false, rfl⟩ = [] ∧
    (⟨.regular, ['a', 'l', 'l'], 2, 11, 3, 0, false, rfl⟩ : MergeTreePartInfo).contains
      ⟨.regular, ['a', 'l', 'l'], 9, 10, 1, 0, false, rfl⟩ := by
  decide


end OverlappingPartCovering

end ClickHouse.Storages.MergeTree
