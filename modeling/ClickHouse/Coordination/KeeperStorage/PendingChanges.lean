import ClickHouse.Coordination.KeeperStorage.RemoveRecursive

/-! Requests preprocessed over changes still pending: `Create` and `SetACL` judge their ACL in the
uncommitted view, while `RemoveRecursive` of `/` reads the root's children from the committed
container only. Its collector looks for uncommitted children from `upper_bound("//")`, past every
path of one level, so a child of the root that a pending request created or changed is not seen
as the view has it. -/

namespace ClickHouse.Coordination

open ClickHouse.Common.ZooKeeper

/-- A `Create` of a persistent node with no ACLs, as a client sends it. -/
def CreateRequest.persistent (path : String) : CreateRequest :=
  ⟨path, false, false, [], false, false, 0, false, -1⟩

namespace KeeperStorage

variable {ctx : KeeperContext} {sessionId : ℤ} {s s' : KeeperStorage}

@[simp]
lemma checkACL_withNodes (nodes : List (String × UncommittedNode)) (aclId permission : ℕ) (committed : Bool) :
    (s.withNodes nodes).checkACL aclId permission sessionId committed = s.checkACL aclId permission sessionId committed :=
  rfl

lemma checkACL_getNode (path : String) (aclId permission : ℕ) (committed : Bool) :
    (s.getNode path).2.checkACL aclId permission sessionId committed = s.checkACL aclId permission sessionId committed := by
  unfold getNode
  split
  · rfl
  · split <;> simp

/-! ### The checks of `Create` and `SetACL` -/

/-- A `Create` answered with `ZOK` under the ACL check had `CREATE` on the parent as the
uncommitted view holds it. -/
theorem preprocessCreate_checks_parent {request : CreateRequest}
    (h : preprocessCreate ctx request sessionId true s = .ok (.zok, s')) :
    ∃ parent, (s.getNode (parentNodePath request.path)).1 = some parent ∧
      s.checkACL parent.aclId ACL.create sessionId false = .ok true := by
  unfold preprocessCreate at h
  dsimp only at h
  rcases hp : s.getNode (parentNodePath request.path) with ⟨_ | parent, s₁⟩
  · rw [hp] at h
    cases h
  · rw [hp] at h
    refine ⟨parent, rfl, ?_⟩
    have hs₁ : s₁ = (s.getNode (parentNodePath request.path)).2 := by rw [hp]
    rw [← checkACL_getNode (parentNodePath request.path), ← hs₁]
    dsimp only at h
    rw [if_pos rfl] at h
    split at h
    · cases h
    · cases h
    · assumption

/-- A `SetACL` answered with `ZOK` under the ACL check had `ADMIN` on the node as the uncommitted
view holds it. -/
theorem preprocessSetACL_checks_node {path : String} {acls : List ACL} {version : ℤ}
    (h : preprocessSetACL ctx path acls version sessionId true s = .ok (.zok, s')) :
    ∃ node, (s.getNode path).1 = some node ∧ s.checkACL node.aclId ACL.admin sessionId false = .ok true := by
  unfold preprocessSetACL at h
  by_cases hsys : matchPath path keeperSystemPath ≠ .notMatch
  · rw [if_pos hsys] at h
    cases hctx : handleSystemNodeModification ctx <;> simp [hctx, Except.map] at h
  · rw [if_neg hsys] at h
    rcases hp : s.getNode path with ⟨_ | node, s₁⟩
    · rw [hp] at h
      cases h
    · rw [hp] at h
      refine ⟨node, rfl, ?_⟩
      have hs₁ : s₁ = (s.getNode path).2 := by rw [hp]
      rw [← checkACL_getNode path, ← hs₁]
      dsimp only at h
      rw [if_pos rfl] at h
      split at h
      · cases h
      · cases h
      · assumption

end KeeperStorage

/-! ### `RemoveRecursive` of `/` over pending changes -/

open KeeperStorage in
/-- The run of a `Create` of `/b`, then `RemoveRecursive` of `/`, on a fresh storage, evaluated. -/
lemma pendingChild_removeRecursive_root_run :
    (match create runningContext true with
      | .ok s₀ =>
        match preprocessCreate runningContext (.persistent "/b") 1 true s₀ with
        | .ok (.zok, s₁) =>
          match preprocessRemoveRecursive 5 runningContext "/" 3 2 true s₁ with
          | some (.ok (.zok, s₂)) =>
            match commit s₂ s₂.stagingDeltas with
            | .ok (.zok, s₃) => (s₃.container.find "/b").isSome && decide (s₃.container.find (parentNodePath "/b") = none)
            | _ => false
          | _ => false
        | _ => false
      | .error _ => false) = true := by
  decide

open KeeperStorage in
/-- A `Create` of `/b` is pending when `RemoveRecursive` of `/` comes: the collector does not see
`/b`, and once the deltas of both requests are committed in order, `/b` is in the container and
its parent is not. -/
theorem removeRecursive_root_orphans_pending_child (extraFuel : ℕ) :
    ∃ s₀, create runningContext true = .ok s₀ ∧
      ∃ s₁, preprocessCreate runningContext (.persistent "/b") 1 true s₀ = .ok (.zok, s₁) ∧
        ∃ s₂, preprocessRemoveRecursive (5 + extraFuel) runningContext "/" 3 2 true s₁ = some (.ok (.zok, s₂)) ∧
          ∃ s₃, commit s₂ s₂.stagingDeltas = .ok (.zok, s₃) ∧
            (s₃.container.find "/b").isSome ∧ s₃.container.find (parentNodePath "/b") = none := by
  have h := pendingChild_removeRecursive_root_run
  split at h
  · rename_i s₀ hs₀
    split at h
    · rename_i s₁ hs₁
      split at h
      · rename_i s₂ hs₂
        split at h
        · rename_i s₃ hs₃
          obtain ⟨hchild, hparent⟩ := Bool.and_eq_true_iff.mp h
          exact ⟨s₀, hs₀, s₁, hs₁, s₂, preprocessRemoveRecursive_fuel_add hs₂ extraFuel, s₃, hs₃, hchild,
            of_decide_eq_true hparent⟩
        · cases h
      · cases h
    · cases h
  · cases h

/-- An ACL that only a session with the digest auth `user:pw` passes. -/
def digestOnlyAcl : ACL :=
  ⟨ACL.all, "digest", "user:pw"⟩

open KeeperStorage in
/-- What a session without auths meets after `/a` is changed to `digestOnlyAcl` by a pending
`SetACL`: the view denies it `DELETE` on `/a`, and its `RemoveRecursive` of `/` removes `/a`. -/
def pendingAclOutcome (s : KeeperStorage) : Bool :=
  match (s.getNode "/a").1 with
  | some node =>
    decide (s.checkACL node.aclId ACL.delete 2 false = .ok false) &&
      match preprocessRemoveRecursive 7 runningContext "/" 10 2 true s with
      | some (.ok (.zok, s')) => decide ((s'.getNode "/a").1 = none)
      | _ => false
  | none => false

open KeeperStorage in
/-- The run of `Create` of `/a` and `/a/b`, their commit, a `SetACL` of `/a`, and the outcome above,
evaluated. -/
lemma pendingAcl_removeRecursive_root_run :
    (match create runningContext true with
      | .ok s₀ =>
        match preprocessCreate runningContext (.persistent "/a") 1 true s₀ with
        | .ok (.zok, s₁) =>
          match preprocessCreate runningContext (.persistent "/a/b") 1 true s₁ with
          | .ok (.zok, s₂) =>
            match commit s₂ s₂.stagingDeltas with
            | .ok (.zok, s₃) =>
              match preprocessSetACL runningContext "/a" [digestOnlyAcl] (-1) 1 true s₃ with
              | .ok (.zok, s₄) => (s₄.container.find "/a/b").isSome && pendingAclOutcome s₄
              | _ => false
            | _ => false
          | _ => false
        | _ => false
      | .error _ => false) = true := by
  decide

open KeeperStorage in
/-- `RemoveRecursive` of `/` by a session without auths removes `/a`, which has a child, while the
pending `SetACL` before it has left `/a` with an ACL that denies that session `DELETE` in the
uncommitted view: the collector judged `/a` by its committed ACL. -/
theorem removeRecursive_root_ignores_pending_acl (extraFuel : ℕ) :
    ∃ s₀, create runningContext true = .ok s₀ ∧
      ∃ s₁, preprocessCreate runningContext (.persistent "/a") 1 true s₀ = .ok (.zok, s₁) ∧
      ∃ s₂, preprocessCreate runningContext (.persistent "/a/b") 1 true s₁ = .ok (.zok, s₂) ∧
      ∃ s₃, commit s₂ s₂.stagingDeltas = .ok (.zok, s₃) ∧
      ∃ s₄, preprocessSetACL runningContext "/a" [digestOnlyAcl] (-1) 1 true s₃ = .ok (.zok, s₄) ∧
        (s₄.container.find "/a/b").isSome ∧
        ∃ node, (s₄.getNode "/a").1 = some node ∧ s₄.checkACL node.aclId ACL.delete 2 false = .ok false ∧
          ∃ s₅, preprocessRemoveRecursive (7 + extraFuel) runningContext "/" 10 2 true s₄ = some (.ok (.zok, s₅)) ∧
            (s₅.getNode "/a").1 = none := by
  have h := pendingAcl_removeRecursive_root_run
  split at h
  · rename_i s₀ hs₀
    split at h
    · rename_i s₁ hs₁
      split at h
      · rename_i s₂ hs₂
        split at h
        · rename_i s₃ hs₃
          split at h
          · rename_i s₄ hs₄
            obtain ⟨hchild, houtcome⟩ := Bool.and_eq_true_iff.mp h
            refine ⟨s₀, hs₀, s₁, hs₁, s₂, hs₂, s₃, hs₃, s₄, hs₄, hchild, ?_⟩
            unfold pendingAclOutcome at houtcome
            split at houtcome
            · rename_i node hnode
              obtain ⟨hdeny, hremove⟩ := Bool.and_eq_true_iff.mp houtcome
              split at hremove
              · rename_i s₅ hs₅
                exact ⟨node, hnode, of_decide_eq_true hdeny, s₅, preprocessRemoveRecursive_fuel_add hs₅ extraFuel,
                  of_decide_eq_true hremove⟩
              · cases hremove
            · cases houtcome
          · cases h
        · cases h
      · cases h
    · cases h
  · cases h

/-! ### What the collector gathers from `/` -/

namespace ToDeleteTreeCollector

open KeeperStorage

/-- `upper_bound("//")` is past every path of one level and `takeWhile` stops at the first path of
two levels, so `visitUncommitted` of `/` walks no entry when no path of two levels has `/` as its
parent. -/
lemma uncommitted_root_eq_nil {u : List (String × UncommittedNode)}
    (hu : ∀ e ∈ u, parentNodePath e.1 = "/" → depth e.1 ≤ 1) :
    (u.dropWhile fun e => !pathCmp ("/" ++ "/") e.1).takeWhile (fun e => decide (parentNodePath e.1 = "/")) = [] := by
  have htwo : ("/" ++ "/" : String).toList.count '/' = 2 := by decide
  generalize ("/" ++ "/" : String) = sep at htwo ⊢
  induction u with
  | nil => rfl
  | cons a u ih =>
    by_cases hskip : (!pathCmp sep a.1) = true
    · rw [List.dropWhile_cons, if_pos hskip]
      exact ih fun e he => hu e (List.mem_cons_of_mem a he)
    · -- past `//` the path has two levels or more, so its parent is not `/`
      have hdeep : 2 ≤ depth a.1 := by
        have hcmp : pathCmp sep a.1 = true := by simpa using hskip
        simp only [pathCmp, htwo, Bool.or_eq_true, decide_eq_true_eq, Bool.and_eq_true] at hcmp
        unfold depth
        omega
      have hparent : parentNodePath a.1 ≠ "/" := fun h => by
        have := hu a List.mem_cons_self h
        omega
      rw [List.dropWhile_cons, if_neg hskip, List.takeWhile_cons, if_neg (by simpa using hparent)]

/-- The paths the collector reaches from `/`: the root, the children of the root that the
container lists, and paths of two levels or more. -/
def ReachedFromRoot (s : KeeperStorage) (q : String) : Prop :=
  q = "/" ∨ (∃ node, s.container.find "/" = some node ∧ ∃ name ∈ node.value.children, q = "/" ++ name) ∨
    2 ≤ depth q

variable {s : KeeperStorage}

lemma ReachedFromRoot.one_le_depth {q : String} (h : ReachedFromRoot s q) : 1 ≤ depth q := by
  rcases h with rfl | ⟨-, -, name, -, rfl⟩ | h
  · decide
  · unfold depth
    simp [String.toList_append]
  · omega

/-- A reached path ending in a separator, other than `/`, has two levels. -/
lemma ReachedFromRoot.two_le_depth {q : String} (h : ReachedFromRoot s q) (hq : q ≠ "/")
    (hlast : q.toList.getLast? = some '/') : 2 ≤ depth q := by
  rcases h with rfl | ⟨-, -, name, -, rfl⟩ | h
  · exact absurd rfl hq
  · -- the name is not empty and ends in the separator
    have hname : name.toList ≠ [] := fun hn => hq (by rw [← String.toList_inj, String.toList_append, hn]; rfl)
    have hend : name.toList.getLast? = some '/' := by
      rw [String.toList_append, List.getLast?_append_of_ne_nil _ hname] at hlast
      exact hlast
    have hmem : '/' ∈ name.toList := List.mem_of_getLast? hend
    unfold depth
    simp only [String.toList_append, List.count_append]
    have hone : ("/" : String).toList.count '/' = 1 := by decide
    have hpos : 0 < name.toList.count '/' := List.count_pos_iff.mpr hmem
    omega
  · exact h

lemma passesDown_reachedFromRoot {u : List (String × UncommittedNode)} (hrel : RelativeChildren s)
    (hu : ∀ e ∈ u, parentNodePath e.1 = "/" → depth e.1 ≤ 1) : PassesDown s u (ReachedFromRoot s) where
  uncommitted := by
    intro path hpath e he
    by_cases hroot : path = "/"
    · subst hroot
      rw [uncommitted_root_eq_nil hu] at he
      cases he
    · -- a child of a deeper path is deeper still
      have hparent : parentNodePath e.1 = path := by simpa using List.mem_takeWhile_imp he
      have hdepth := depth_parentNodePath (hparent ▸ hroot) (hparent ▸ hpath.one_le_depth)
      rw [hparent] at hdepth
      exact .inr (.inr (by have := hpath.one_le_depth; omega))
  committed := by
    intro path node hpath hfind name hname
    obtain ⟨itr, hmem⟩ := mem_list_of_find_eq_some hfind
    have hrelName := hrel _ hmem name hname
    by_cases hroot : path = "/"
    · subst hroot
      exact .inr (.inl ⟨node, hfind, name, hname, appendPath_root hrelName⟩)
    · exact .inr (.inr (two_le_depth_appendPath hrelName hpath.one_le_depth (hpath.two_le_depth hroot)))

/-- `collect` of `/` gathers no path of one level whose name the container's root does not list,
whatever the uncommitted view holds there: the entries of the view are looked up from
`upper_bound("//")`, past every child of the root. -/
theorem collect_root_misses_pending_children (hrel : RelativeChildren s)
    (hview : ∀ e ∈ s.uncommittedState.nodes, parentNodePath e.1 = "/" → depth e.1 ≤ 1)
    {name : String} (hname : name ≠ "") (hslash : '/' ∉ name.toList)
    (hcommitted : ∀ node, s.container.find "/" = some node → name ∉ node.value.children)
    {sessionId : ℤ} {checkAcl : Bool} {limit fuel : ℕ} {rootNode : KeeperMemNode} {status : CollectStatus}
    {c : ToDeleteTreeCollector}
    (hc : (init sessionId checkAcl limit).collect fuel s "/" rootNode = some (.ok (status, c))) :
    ∀ e ∈ c.extractResult, e.path ≠ "/" ++ name := by
  -- the entries the collector walks are entries of the view
  have hu : ∀ e ∈ (s.uncommittedState.nodes.filter fun e => matchPath e.1 "/" = .isChild).insertionSort
      (fun a b => pathCmp a.1 b.1 = true), parentNodePath e.1 = "/" → depth e.1 ≤ 1 := fun e he =>
    hview e (List.mem_of_mem_filter ((List.perm_insertionSort _ _).subset he))
  have hreach := collect_passes (passesDown_reachedFromRoot hrel hu) (.inl rfl) hc
  intro e he hpath
  rcases hpath ▸ hreach e (List.mem_reverse.mp he) with hroot | ⟨node, hfind, name', hname', heq⟩ | hdeep
  · have hlist := congrArg String.toList hroot
    simp only [String.toList_append] at hlist
    exact hname (String.toList_inj.mp (by simpa using hlist))
  · have hlist := congrArg String.toList heq
    simp only [String.toList_append] at hlist
    have hsame : name = name' := String.toList_inj.mp (List.append_cancel_left hlist)
    exact hcommitted node hfind (hsame ▸ hname')
  · rw [depth_root_append hslash] at hdeep
    omega

/-- The run of a `Create` of `/b` left pending on a fresh storage, then `collect` of `/`, evaluated. -/
lemma pendingChild_collect_root_run :
    (match create runningContext true with
      | .ok s₀ =>
        match preprocessCreate runningContext (.persistent "/b") 1 true s₀ with
        | .ok (.zok, s₁) =>
          decide (RelativeChildren s₁) &&
            decide (∀ e ∈ s₁.uncommittedState.nodes, parentNodePath e.1 = "/" → depth e.1 ≤ 1) &&
            (match s₁.container.find "/" with
              | some node => decide ("b" ∉ node.value.children)
              | none => true) &&
            (s₁.getNode "/b").1.isSome &&
            match (s₁.getNode "/").1 with
            | some root =>
              match (init 2 true 10).collect 5 s₁ "/" root with
              | some (.ok (.ok, _)) => true
              | _ => false
            | none => false
        | _ => false
      | .error _ => false) = true := by
  decide

theorem collect_root_misses_pending_children_b :
    ∃ s₀, create runningContext true = .ok s₀ ∧
      ∃ s₁, preprocessCreate runningContext (.persistent "/b") 1 true s₀ = .ok (.zok, s₁) ∧
        (s₁.getNode "/b").1.isSome ∧
        ∃ root c, (s₁.getNode "/").1 = some root ∧ (init 2 true 10).collect 5 s₁ "/" root = some (.ok (.ok, c)) ∧
          ∀ e ∈ c.extractResult, e.path ≠ "/" ++ "b" := by
  have h := pendingChild_collect_root_run
  split at h
  · rename_i s₀ hs₀
    split at h
    · rename_i s₁ hs₁
      simp only [Bool.and_eq_true] at h
      obtain ⟨⟨⟨⟨hrel, hview⟩, hroot⟩, hpending⟩, hrun⟩ := h
      refine ⟨s₀, hs₀, s₁, hs₁, hpending, ?_⟩
      split at hrun
      · rename_i root hgot
        split at hrun
        · rename_i c hc
          refine ⟨root, c, hgot, hc, collect_root_misses_pending_children (of_decide_eq_true hrel)
            (of_decide_eq_true hview) (by decide) (by decide) (fun node hfind => ?_) hc⟩
          rw [hfind] at hroot
          exact of_decide_eq_true hroot
        · cases hrun
      · cases hrun
    · cases h
  · cases h

end ToDeleteTreeCollector

end ClickHouse.Coordination
