import OurChain.Contract.UpdateStrategy

/-!
# Where a strategy starts

On a block tree every strategy picks a starting point on the new chain whose state the cache
has, enters the blocks above it into the block cache, and executes them up to the first that
`ReadBlockFromDisk` does not give back. `updateSnapShot_eq` says so once, whatever `clear`
does and whichever blocks cannot be read.
-/

namespace OurChain

open List Node

variable {β τ σ δ : Type} {env : ContractEnv β τ σ δ}

/-- The cache follows the chain that ends in `q`, or no chain yet. -/
structure Following (t : ChainTree env) (q : Option (Node β)) (c : ContractStateCache σ) : Prop where
  inTree : ∀ n, q = some n → n ∈ t.nodes
  tracked : c.blockCache = track env.blockHash q
  ids : IdsOk c.checkPoints

theorem ChainTree.track_inj (t : ChainTree env) {a b : Node β} (ha : a ∈ t.nodes) (hb : b ∈ t.nodes)
    (h : track env.blockHash (some a) = track env.blockHash (some b)) : a = b := by
  have hlast := congrArg BlockCache.getHeighestBlock h
  rw [getHeighestBlock_track (t.height_lt a ha), getHeighestBlock_track (t.height_lt b hb)] at hlast
  exact blockRef_inj ha hb hlast

theorem track_ne_nil (n : Node β) : track env.blockHash (some n) ≠ [] := by
  cases n <;> simp [track, Node.branch]

theorem Following.eq_of_track {t : ChainTree env} {c : ContractStateCache σ} (h : Following t q c)
    {n : Node β} (hn : n ∈ t.nodes) (htrack : c.blockCache = track env.blockHash (some n)) :
    q = some n := by
  have hsame := h.tracked.symm.trans htrack
  cases q with
  | none => exact absurd hsame.symm (track_ne_nil n)
  | some m => rw [t.track_inj (h.inTree m rfl) hn hsame]

theorem continueWalk_failing (fails : Node β → Bool) (firstBlock : BlockRef) (n : Node β)
    (stack : List (Node β)) :
    continueWalk (env.failing fails) firstBlock n stack = continueWalk env firstBlock n stack := by
  induction n generalizing stack with
  | root x => rfl
  | child p x ih =>
    unfold continueWalk
    rw [ih]
    rfl

theorem rollbackWalk_failing (fails : Node β → Bool) (checkPointList : List (Uint256 × Nat))
    (n : Node β) (firstBlock : BlockRef) (c : ContractStateCache σ) :
    rollbackWalk (env.failing fails) checkPointList n firstBlock c =
      rollbackWalk env checkPointList n firstBlock c := by
  induction n generalizing firstBlock c with
  | root x => rfl
  | child p x ih =>
    unfold rollbackWalk
    simp only [ih]
    rfl

section
variable (t : ChainTree env) {c : ContractStateCache σ}

section
variable {m : Node β} (hm : m ∈ t.nodes) (htrack : c.blockCache = track env.blockHash (some m))
    (fuel : Nat)
  (hfuel : m.height < fuel)
include hm htrack fuel hfuel

theorem popTo_zero :
    popTo 0 fuel (blockRef env.blockHash m) c = .rebuild { c with blockCache := [] } := by
  induction m generalizing c fuel with
  | root x =>
    obtain ⟨fuel, rfl⟩ := Nat.exists_eq_succ_of_ne_zero (Nat.ne_of_gt hfuel)
    rw [popTo, if_pos (by simp [blockRef]), popFirst_root t hm htrack]
  | child p x ih =>
    obtain ⟨fuel, rfl⟩ := Nat.exists_eq_succ_of_ne_zero (Nat.ne_of_gt (Nat.zero_lt_of_lt hfuel))
    rw [popTo, if_pos (by simp [blockRef]), popFirst_child t hm htrack]
    exact ih (t.parent p x hm) rfl fuel (Nat.lt_of_succ_lt_succ hfuel)

theorem popTo_succ (k : Nat) (hk : k ≤ m.height) :
    ∃ m' ∈ m.path, m'.height = k ∧ popTo ((k + 1 : Nat) : Int) fuel (blockRef env.blockHash m) c =
      .next (blockRef env.blockHash m') { c with blockCache := track env.blockHash (some m') } := by
  obtain ⟨fuel, rfl⟩ := Nat.exists_eq_succ_of_ne_zero (Nat.ne_of_gt (Nat.zero_lt_of_lt hfuel))
  induction m generalizing c fuel with
  | root x =>
    cases Nat.le_zero.mp hk
    refine ⟨.root x, by simp, rfl, ?_⟩
    rw [popTo, if_neg (by simp [blockRef, Node.height]), ← htrack]
  | child p x ih =>
    rcases Nat.lt_or_ge p.height k with hlt | hge
    · have hheight : (Node.child p x).height = k := Nat.le_antisymm hlt hk
      refine ⟨.child p x, by simp, hheight, ?_⟩
      rw [popTo, if_neg (by simp only [blockRef]; omega), ← htrack]
    · have hfuel' : p.height < fuel := Nat.lt_of_succ_lt_succ hfuel
      obtain ⟨fuel, rfl⟩ := Nat.exists_eq_succ_of_ne_zero (Nat.ne_of_gt (Nat.zero_lt_of_lt hfuel'))
      obtain ⟨m', hm', hheight, hpop⟩ :=
        ih (c := { c with blockCache := track env.blockHash (some p) })
          (t.parent p x hm) rfl hge fuel hfuel'
      refine ⟨m', mem_cons_of_mem _ hm', hheight, ?_⟩
      rw [popTo, if_pos (by simp only [blockRef, Node.height]; omega), popFirst_child t hm htrack]
      exact hpop

end

theorem rollbackStep_below {m n : Node β} (h : m.height < n.height)
    (checkPointList : List (Uint256 × Nat)) (c : ContractStateCache σ) :
    rollbackStep env checkPointList n (blockRef env.blockHash m) c =
      some (.next (blockRef env.blockHash m) c) := by
  rw [rollbackStep, if_pos]
  exact Int.ofNat_lt.mpr h

end

section
variable [DecidableEq β]

section
variable (env : ContractEnv β τ σ δ)

/-- A block that the chain of `m` shares, with the first checkpoint filed under it. -/
def restoreAt (cps : List (CheckPoint σ)) (m a : Node β) : Option (Node β × σ) :=
  if a ∈ m.path then
    (cps.find? fun cp => cp.tipBlockHash = env.blockHash a).map fun cp => (a, cp.state)
  else none

/-- The highest block of both chains that has a checkpoint. A new tip below the
tracked one is not compared itself. -/
def restorePoint (cps : List (CheckPoint σ)) (q tip : Node β) : Option (Node β × σ) :=
  (if tip.height < q.height then tip.path.tail else tip.path).findSome? (restoreAt env cps q)

/-- The walk restores what was found, and rebuilds over no blocks if nothing was. -/
def RollbackWalk.ofRestorePoint (c : ContractStateCache σ) :
    Option (Node β × σ) → RollbackWalk σ
  | none => .rebuild { c with blockCache := [] }
  | some (a, s) => .restored { c with blockCache := track env.blockHash (some a), snapShot := s }

end

variable {cps : List (CheckPoint σ)}

theorem restoreAt_of_height_lt {m a : Node β} (h : m.height < a.height) :
    restoreAt env cps m a = none := by
  rw [restoreAt, if_neg]
  intro hmem
  exact Nat.not_le_of_lt h (height_le_of_mem_path hmem)

theorem restoreAt_eq_some {m a : Node β}
    (h : restoreAt env cps m a = some found) : a = found.1 ∧ a ∈ m.path := by
  unfold restoreAt at h
  split at h
  · rename_i hmem
    obtain ⟨cp, -, rfl⟩ := Option.map_eq_some_iff.mp h
    exact ⟨rfl, hmem⟩
  · cases h

theorem findSome?_restoreAt {m m' n : Node β} (hm : m' ∈ m.path) (hheight : n.height ≤ m'.height) :
    n.path.findSome? (restoreAt env cps m) = n.path.findSome? (restoreAt env cps m') := by
  have hsame : ∀ a ∈ n.path, restoreAt env cps m a = restoreAt env cps m' a := by
    intro a ha
    have hiff : a ∈ m.path ↔ a ∈ m'.path := by
      refine ⟨fun hmem => ?_, fun hmem => path_trans hmem hm⟩
      obtain ⟨b, hb, hbh⟩ := exists_mem_path
        (Nat.le_trans (height_le_of_mem_path ha) hheight)
      rw [eq_of_mem_path hmem (path_trans hb hm) hbh.symm]
      exact hb
    simp only [restoreAt, hiff]
  generalize n.path = path at hsame
  induction path with
  | nil => rfl
  | cons a path ih =>
    obtain ⟨ha, hpath⟩ := forall_mem_cons.mp hsame
    rw [findSome?_cons, findSome?_cons, ha, ih hpath]

section
variable (t : ChainTree env) {cps : List (CheckPoint σ)} {c : ContractStateCache σ}

theorem rollbackStep_level (hids : IdsOk cps) (hc : c.checkPoints = cps) {m n : Node β}
    (hm : m ∈ t.nodes) (hn : n ∈ t.nodes) (hheight : n.height = m.height) :
    rollbackStep env (cps.map fun cp => (cp.tipBlockHash, cp.id)) n (blockRef env.blockHash m) c =
      match restoreAt env cps m n with
      | some (_, s) => some (.restored { c with snapShot := s })
      | none => some (popFirst c) := by
  have hpath : n ∈ m.path ↔ env.blockHash n = env.blockHash m := by
    refine ⟨fun hmem => ?_, fun hhash => ?_⟩
    · rw [eq_of_mem_path hmem (mem_path_self m) hheight]
    · rw [t.hash_inj hn hm hhash]
      exact mem_path_self m
  have hlevel : (n.height : Int) = (blockRef env.blockHash m).blockHeight := congrArg _ hheight
  rw [rollbackStep, if_neg (by rw [hlevel]; exact Int.lt_irrefl _), if_pos hlevel, restoreAt]
  by_cases hhash : env.blockHash n = env.blockHash m
  · rw [if_pos (hpath.mpr hhash)]
    cases hfind : cps.find? fun cp => cp.tipBlockHash = env.blockHash n with
    | none =>
      have hnone : ¬ ((cps.map fun cp => (cp.tipBlockHash, cp.id)).map Prod.fst).contains
          (env.blockHash n) := by
        simpa using hfind
      rw [if_neg fun h => hnone h.2]
      rfl
    | some cp =>
      obtain ⟨hcp, htip⟩ : cp ∈ cps ∧ cp.tipBlockHash = env.blockHash n :=
        ⟨mem_of_find?_eq_some hfind, by simpa using find?_some hfind⟩
      have hlisted : ((cps.map fun cp => (cp.tipBlockHash, cp.id)).map Prod.fst).contains
          (env.blockHash n) := by
        simpa using ⟨cp, hcp, htip⟩
      rw [if_pos ⟨hhash, hlisted⟩, restoreCheckPoint_find hids hc hfind]
      rfl
  · rw [if_neg fun h => hhash h.1, if_neg fun h => hhash (hpath.mp h)]

theorem restored_eq {m n : Node β} {found : Node β × σ}
    (htrack : c.blockCache = track env.blockHash (some m)) (hheight : n.height = m.height)
    (hrestore : restoreAt env cps m n = some found) :
    RollbackWalk.restored { c with snapShot := found.2 } = .ofRestorePoint env c (some found) := by
  obtain ⟨rfl, hmem⟩ := restoreAt_eq_some hrestore
  have hm : found.1 = m := eq_of_mem_path hmem (mem_path_self m) hheight
  rw [RollbackWalk.ofRestorePoint, hm, ← htrack]

theorem rollbackWalk_restoreAt (hids : IdsOk cps) (hc : c.checkPoints = cps) {m n : Node β}
    (hm : m ∈ t.nodes) (hn : n ∈ t.nodes) (htrack : c.blockCache = track env.blockHash (some m))
    (hheight : m.height ≤ n.height) :
    rollbackWalk env (cps.map fun cp => (cp.tipBlockHash, cp.id)) n (blockRef env.blockHash m) c =
      some (.ofRestorePoint env c (n.path.findSome? (restoreAt env cps m))) := by
  induction n generalizing m c with
  | root x =>
    cases m with
    | child p y => exact absurd hheight (Nat.not_succ_le_zero _)
    | root y =>
      have hstep := rollbackStep_level t hids hc hm hn rfl
      simp only [rollbackWalk, hstep, Node.path, findSome?_cons, findSome?_nil]
      cases hrestore : restoreAt env cps (.root y) (.root x) with
      | some found =>
        simp [restored_eq (n := .root x) htrack rfl hrestore, RollbackWalk.ofRestorePoint]
      | none => simp [popFirst_root t hm htrack, RollbackWalk.ofRestorePoint]
  | child p x ih =>
    have hp := t.parent p x hn
    rw [rollbackWalk, Node.path, findSome?_cons]
    rcases Nat.lt_or_ge m.height (Node.child p x).height with hlt | hge
    · rw [rollbackStep_below hlt, restoreAt_of_height_lt hlt]
      exact ih hc hm hp htrack (Nat.le_of_lt_succ hlt)
    · have heq : (Node.child p x).height = m.height := Nat.le_antisymm hge hheight
      rw [rollbackStep_level t hids hc hm hn heq]
      cases hrestore : restoreAt env cps m (.child p x) with
      | some found => simp [restored_eq htrack heq hrestore, RollbackWalk.ofRestorePoint]
      | none =>
        cases m with
        | root y => exact absurd heq (Nat.succ_ne_zero _)
        | child p' y =>
          have hpp : p.height = p'.height := Nat.succ.inj heq
          have hmem : p' ∈ (Node.child p' y).path := by simp [Node.path]
          simp only [popFirst_child t hm htrack, findSome?_restoreAt hmem (Nat.le_of_eq hpp)]
          exact ih (c := { c with blockCache := track env.blockHash (some p') }) hc
            (t.parent p' y hm) hp rfl (Nat.le_of_eq hpp.symm)

theorem rollbackWalk_restorePoint (hids : IdsOk cps) (hc : c.checkPoints = cps) {q tip : Node β}
    (hq : q ∈ t.nodes) (ht : tip ∈ t.nodes) (htrack : c.blockCache = track env.blockHash (some q)) :
    rollbackWalk env (cps.map fun cp => (cp.tipBlockHash, cp.id)) tip (blockRef env.blockHash q) c =
      some (.ofRestorePoint env c (restorePoint env cps q tip)) := by
  rw [restorePoint]
  split
  · rename_i hlt
    have hfuel : q.height < c.blockCache.length + 1 := by
      rw [htrack, track, length_map, length_branch]
      omega
    have hstep : rollbackStep env (cps.map fun cp => (cp.tipBlockHash, cp.id)) tip
        (blockRef env.blockHash q) c =
        some (popTo tip.height (c.blockCache.length + 1) (blockRef env.blockHash q) c) := by
      rw [rollbackStep, if_neg (by simp only [blockRef]; omega),
        if_neg (by simp only [blockRef]; omega)]
    cases tip with
    | root x =>
      have hpop := popTo_zero t hq htrack _ hfuel
      simp [rollbackWalk, hstep, Node.height, Node.path, hpop, RollbackWalk.ofRestorePoint]
    | child p x =>
      have hle : p.height ≤ q.height := Nat.le_of_succ_le (Nat.le_of_lt hlt)
      obtain ⟨m, hm, hheight, hpop⟩ := popTo_succ t hq htrack _ hfuel p.height hle
      have hheight' : (((Node.child p x).height : Nat) : Int) = ((p.height + 1 : Nat) : Int) := rfl
      rw [rollbackWalk, hstep, hheight', hpop, Node.path, tail_cons,
        findSome?_restoreAt hm (Nat.le_of_eq hheight.symm)]
      exact rollbackWalk_restoreAt t
        (c := { c with blockCache := track env.blockHash (some m) }) hids hc
        (t.mem_of_mem_path hq hm) (t.parent p x ht) rfl (Nat.le_of_eq hheight)
  · rename_i hge
    exact rollbackWalk_restoreAt t hids hc hq ht htrack (Nat.le_of_not_lt hge)

end

section
variable (env) (clear : Clearing σ) (c : ContractStateCache σ)

def rollbackStart (q tip : Node β) : Option (Node β) × σ :=
  match restorePoint env c.checkPoints q tip with
  | some (a, s) => (some a, s)
  | none => (none, clear.snapShot c.snapShot)

/-- The block above which a strategy executes the chain of `tip` when the chain of `q`
is tracked, and the snapshot it starts from; none if it executes nothing. -/
def startPoint (strategy : UpdateStrategyType) (q : Option (Node β)) (tip : Node β) :
    Option (Option (Node β) × σ) :=
  match strategy, q with
  | .typeUnDo, _ => none
  | .typeRebuild, _ => some (none, clear.snapShot c.snapShot)
  | .typeContinue, none => none
  | .typeRollback, none => none
  | .typeContinue, some q =>
    some (if q ∈ tip.path then (some q, c.snapShot) else rollbackStart env clear c q tip)
  | .typeRollback, some q => some (rollbackStart env clear c q tip)

/-- The block cache that a strategy leaves. Only a rebuild that is called first finds old blocks. -/
def recorded (strategy : UpdateStrategyType) (tip : Node β) : BlockCache :=
  if strategy = .typeRebuild then pushPath env.blockHash tip (clear.blockCache c.blockCache)
  else track env.blockHash (some tip)

end

/-- The state after the blocks of `tip` above `from?` and below the first unreadable
one were executed from snapshot `s`. -/
def updatedBefore (env : ContractEnv β τ σ δ) (fails : Node β → Bool) (st : ContractState σ δ)
    (tip : Node β) (blockCache : BlockCache) (from? : Option (Node β)) (s : σ) : ContractState σ δ :=
  ContractState.withResult { st with cache := { st.cache with blockCache } }
    (execute env ((tip.since from?).takeWhile fun n => !fails n) (s, st.side))

theorem restorePoint_mem {q tip : Node β}
    (h : restorePoint env cps q tip = some found) : found.1 ∈ tip.path := by
  obtain ⟨a, ha, hrestore⟩ := exists_of_findSome?_eq_some h
  rw [← (restoreAt_eq_some hrestore).1]
  split at ha
  · exact mem_of_mem_tail ha
  · exact ha

variable (fails : Node β → Bool)

section
variable (t : ChainTree env) (clear : Clearing σ) {tip q : Node β} (ht : tip ∈ t.nodes)
  (st : ContractState σ δ) (fuel : Nat)
include t ht

theorem updateSnapShot_rebuild :
    updateSnapShot (env.failing fails) clear (fuel + 1) .typeRebuild tip st =
      some ((tip.since none).all fun n => !fails n,
        updatedBefore env fails st tip (recorded env clear st.cache .typeRebuild tip) none
          (clear.snapShot st.cache.snapShot)) := by
  rw [updateSnapShot, strategyStep, rebuild_eq]
  simp only [processContracts_failing fails (t.readable_branch ht), since_none, updatedBefore]
  rfl

theorem updateSnapShot_continue (hq : q ∈ tip.path)
    (hc : st.cache.blockCache = track env.blockHash (some q)) :
    updateSnapShot (env.failing fails) clear (fuel + 1) .typeContinue tip st =
      some ((tip.since (some q)).all fun n => !fails n,
        updatedBefore env fails st tip (track env.blockHash (some tip))
        (some q) st.cache.snapShot) := by
  have hfirst := getFirstBlockCache_track (t.height_lt q (t.mem_of_mem_path ht hq)) hc
  have hpush : (tip.since (some q)).foldl (fun cache pindex =>
      cache.pushBlock (blockRef (env.failing fails).blockHash pindex)) st.cache = _ :=
    pushSince_track (t.height_lt tip ht) hq st.cache hc
  simp only [updateSnapShot, strategyStep, hfirst, continueWalk_failing,
    continueWalk_found t ht hq, append_nil, hpush, processContracts_failing fails
    (t.readable_since ht _)]
  rfl

variable (hclear : clear.blockCache [] = [])
include hclear

theorem updateSnapShot_rollback (hfollow : Following t (some q) st.cache) :
    updateSnapShot (env.failing fails) clear (fuel + 2) .typeRollback tip st =
      some ((tip.since (rollbackStart env clear st.cache q tip).1).all fun n => !fails n,
        updatedBefore env fails st tip (track env.blockHash (some tip))
        (rollbackStart env clear st.cache q tip).1
          (rollbackStart env clear st.cache q tip).2) := by
  have hq := hfollow.inTree q rfl
  have hwalk := rollbackWalk_restorePoint t hfollow.ids rfl hq ht hfollow.tracked
  rw [updateSnapShot]
  simp only [strategyStep, getFirstBlockCache_track (t.height_lt q hq) hfollow.tracked,
    rollbackWalk_failing, ContractStateCache.getCheckPointList, hwalk, rollbackStart]
  cases hpoint : restorePoint env st.cache.checkPoints q tip with
  | none =>
    refine (updateSnapShot_rebuild fails t clear ht { st with cache := _ } fuel).trans ?_
    rw [recorded, if_pos rfl, hclear, pushPath_nil env.blockHash (t.height_lt tip ht)]
    rfl
  | some found =>
    exact updateSnapShot_continue fails t clear ht { st with cache := _ } fuel
      (restorePoint_mem hpoint) rfl

/-- Every strategy of a cache that follows a chain of the tree. Three levels of calls are enough. -/
theorem updateSnapShot_eq {q : Option (Node β)} (hfollow : Following t q st.cache)
    (strategy : UpdateStrategyType) :
    updateSnapShot (env.failing fails) clear (fuel + 3) strategy tip st =
      match startPoint env clear st.cache strategy q tip with
      | none => some (decide (strategy = .typeUnDo), st)
      | some (from?, s) => some ((tip.since from?).all fun n => !fails n,
          updatedBefore env fails st tip (recorded env clear st.cache strategy tip) from? s) := by
  cases q with
  | none =>
    have hfirst : st.cache.getFirstBlockCache = none := by
      rw [ContractStateCache.getFirstBlockCache, hfollow.tracked]
      rfl
    cases strategy with
    | typeUnDo => rfl
    | typeRebuild => exact updateSnapShot_rebuild fails t clear ht st _
    | typeContinue => simp [updateSnapShot, strategyStep, hfirst, startPoint]
    | typeRollback => simp [updateSnapShot, strategyStep, hfirst, startPoint]
  | some q =>
    have hroll := fun fuel => updateSnapShot_rollback fails t clear ht st fuel hclear hfollow
    cases strategy with
    | typeUnDo => rfl
    | typeRebuild => exact updateSnapShot_rebuild fails t clear ht st _
    | typeRollback => exact hroll _
    | typeContinue =>
      by_cases hmem : q ∈ tip.path
      · simp only [startPoint, if_pos hmem]
        exact updateSnapShot_continue fails t clear ht st _ hmem hfollow.tracked
      · have hq := hfollow.inTree q rfl
        have hfirst := getFirstBlockCache_track (t.height_lt q hq) hfollow.tracked
        simp only [startPoint, if_neg hmem]
        rw [updateSnapShot]
        simp only [strategyStep, hfirst, continueWalk_failing, continueWalk_behind t ht hq hmem]
        exact hroll fuel

end

/-- A block of the chain, or none for the empty chain, with the state that the cache
has for it: what `clear` leaves, the current snapshot, or a checkpoint. -/
inductive StartPoint (env : ContractEnv β τ σ δ) (clear : Clearing σ) (c : ContractStateCache σ)
    (tip : Node β) : Option (Node β) → σ → Prop
  | empty : StartPoint env clear c tip none (clear.snapShot c.snapShot)
  | current (hmem : q ∈ tip.path) (htrack : c.blockCache = track env.blockHash (some q)) :
      StartPoint env clear c tip (some q) c.snapShot
  | checkPoint (hmem : a ∈ tip.path) (hcp : cp ∈ c.checkPoints)
      (hhash : cp.tipBlockHash = env.blockHash a) : StartPoint env clear c tip (some a) cp.state

theorem startPoint_rollback (env : ContractEnv β τ σ δ) (clear : Clearing σ)
    (c : ContractStateCache σ) (q tip : Node β) :
    StartPoint env clear c tip (rollbackStart env clear c q tip).1
      (rollbackStart env clear c q tip).2 := by
  rw [rollbackStart]
  cases hpoint : restorePoint env c.checkPoints q tip with
  | none => exact .empty
  | some found =>
    obtain ⟨a, -, hrestore⟩ := exists_of_findSome?_eq_some hpoint
    rw [restoreAt, if_pos (restoreAt_eq_some hrestore).2] at hrestore
    obtain ⟨cp, hfind, rfl⟩ := Option.map_eq_some_iff.mp hrestore
    exact .checkPoint (restorePoint_mem hpoint) (mem_of_find?_eq_some hfind)
      (by simpa using find?_some hfind)

theorem StartPoint.of_startPoint {clear : Clearing σ} {c : ContractStateCache σ} {q : Option (Node β)}
    {tip : Node β} (htrack : c.blockCache = track env.blockHash q)
    (h : startPoint env clear c strategy q tip = some (from?, s)) :
    StartPoint env clear c tip from? s := by
  have hroll : ∀ q, rollbackStart env clear c q tip = (from?, s) →
    StartPoint env clear c tip from? s := by
    intro q hstart
    have := startPoint_rollback env clear c q tip
    rwa [hstart] at this
  cases strategy with
  | typeUnDo => cases h
  | typeRebuild =>
    cases h
    exact .empty
  | typeRollback =>
    cases q with
    | none => cases h
    | some q => exact hroll q (Option.some.inj h)
  | typeContinue =>
    cases q with
    | none => cases h
    | some q =>
      rw [startPoint, Option.some.injEq] at h
      split at h
      · rename_i hmem
        cases h
        exact .current hmem htrack
      · exact hroll q h

end

end OurChain
