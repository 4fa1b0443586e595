import OurChain.Contract.StartPoint

/-!
# The contract observer

`ContractObserver::onChainStateSet` picks a strategy, updates the snapshot and
keeps checkpoints. Over any run of active chains the snapshot is the replay of the
active chain, because every checkpoint that survives is the replay of its own tip.
-/

namespace OurChain

open List

variable {β τ σ δ : Type}

def isSaveCheckPointNow (height : Int) : Bool := height != 0

def isClearCheckPointNow (height : Int) : Bool := height != 0 && height.tmod 5 == 0

/-- The checkpoint to save at this height, then the checkpoints to drop. -/
def maintainCheckPoints (cache : ContractStateCache σ) : ContractStateCache σ :=
  let curHeight := cache.blockCache.getHeighestBlock.blockHeight
  let cache := if isSaveCheckPointNow curHeight then cache.saveCheckPoint else cache
  if isClearCheckPointNow curHeight then cache.clearCheckPoint 5 else cache

section
variable (env : ContractEnv β τ σ δ) (clear : Clearing σ) (fuel : Nat)

def onChainStateSet (tip : Node β)
    (st : ContractState σ δ) : Option (Bool × ContractState σ δ) :=
  let strategy := createUpdateStrategy env tip st.cache
  if strategy = .typeUnDo then some (true, st)
  else do
    let (ok, st) ← updateSnapShot env clear fuel strategy tip st
    if !ok then some (false, st)
    else some (true, { st with cache := maintainCheckPoints st.cache })

def observeAll (tips : List (Node β))
    (st : ContractState σ δ) : Option (ContractState σ δ) :=
  tips.foldlM (fun st tip => (onChainStateSet env clear fuel tip st).map Prod.snd) st

end

def ContractState.initial (env : ContractEnv β τ σ δ) (side : δ) : ContractState σ δ where
  cache := { blockCache := [], snapShot := env.emptySnapShot, checkPoints := [] }
  side

variable {cps : List (CheckPoint σ)}

theorem IdsOk.append (h : IdsOk cps) (tipBlockHash : Uint256) (state : σ) :
    IdsOk (cps ++ [⟨(cps.getLast?.map CheckPoint.id).getD 0 + 1, tipBlockHash, state⟩]) := by
  refine ⟨?_, pairwise_append.mpr ⟨h.2, pairwise_singleton .., ?_⟩⟩
  · intro cp hcp
    rcases mem_append.mp hcp with hcp | hcp
    · exact h.1 cp hcp
    · rw [mem_singleton.mp hcp]
      exact Nat.succ_pos _
  · intro cp hcp cp' hcp'
    cases mem_singleton.mp hcp'
    obtain ⟨last, hlast⟩ : ∃ last, cps.getLast? = some last :=
      Option.ne_none_iff_exists'.mp fun hnone => by simp [getLast?_eq_none_iff.mp hnone] at hcp
    obtain ⟨front, rfl⟩ := getLast?_eq_some_iff.mp hlast
    rw [hlast]
    rcases mem_append.mp hcp with hcp | hcp
    · exact Nat.lt_succ_of_lt ((pairwise_append.mp h.2).2.2 cp hcp last (by simp))
    · cases mem_singleton.mp hcp
      exact Nat.lt_succ_self _

theorem IdsOk.drop (h : IdsOk cps) (k : Nat) : IdsOk (cps.drop k) :=
  ⟨fun cp hcp => h.1 cp (mem_of_mem_drop hcp), h.2.sublist (drop_sublist k cps)⟩

theorem maintainCheckPoints_blockCache (c : ContractStateCache σ) :
    (maintainCheckPoints c).blockCache = c.blockCache := by
  simp only [maintainCheckPoints]
  split <;> split <;> rfl

theorem maintainCheckPoints_snapShot (c : ContractStateCache σ) :
    (maintainCheckPoints c).snapShot = c.snapShot := by
  simp only [maintainCheckPoints]
  split <;> split <;> rfl

variable {c : ContractStateCache σ}

theorem maintainCheckPoints_checkPoints (hids : IdsOk c.checkPoints) :
    IdsOk (maintainCheckPoints c).checkPoints ∧
      ∀ cp ∈ (maintainCheckPoints c).checkPoints, cp ∈ c.checkPoints ∨
        (cp.tipBlockHash = c.blockCache.getHeighestBlock.blockHash ∧ cp.state = c.snapShot) := by
  have hsave : IdsOk c.saveCheckPoint.checkPoints := hids.append _ _
  have hmem : ∀ cp ∈ c.saveCheckPoint.checkPoints, cp ∈ c.checkPoints ∨
      (cp.tipBlockHash = c.blockCache.getHeighestBlock.blockHash ∧ cp.state = c.snapShot) := by
    intro cp hcp
    rcases mem_append.mp hcp with hcp | hcp
    · exact .inl hcp
    · rw [mem_singleton.mp hcp]
      exact .inr ⟨rfl, rfl⟩
  simp only [maintainCheckPoints]
  split <;> split
  · exact ⟨hsave.drop _, fun cp hcp => hmem cp (mem_of_mem_drop hcp)⟩
  · exact ⟨hids.drop _, fun cp hcp => .inl (mem_of_mem_drop hcp)⟩
  · exact ⟨hsave, hmem⟩
  · exact ⟨hids, fun cp hcp => .inl hcp⟩

variable {env : ContractEnv β τ σ δ}

variable (t : ChainTree env)

theorem createUpdateStrategy_undo {tip : Node β} (ht : tip ∈ t.nodes) (hfollow : Following t q c)
    (h : createUpdateStrategy env tip c = .typeUnDo) : q = some tip := by
  cases q with
  | none =>
    have hempty : c.getFirstBlockCache = none := by
      rw [ContractStateCache.getFirstBlockCache, hfollow.tracked]
      rfl
    simp only [createUpdateStrategy, hempty] at h
    cases h
  | some n =>
    have hn := hfollow.inTree n rfl
    simp only [createUpdateStrategy, getFirstBlockCache_track (t.height_lt n hn) hfollow.tracked] at h
    split at h
    · rename_i hsame
      rw [t.hash_inj ht hn hsame.1]
    · split at h
      · split at h <;> cases h
      · cases h

theorem createUpdateStrategy_continue {tip n : Node β} (ht : tip ∈ t.nodes)
    (htrack : c.blockCache = track env.blockHash (some n))
    (hn : n ∈ tip.path) (hundo : createUpdateStrategy env tip c ≠ .typeUnDo) :
    createUpdateStrategy env tip c = .typeContinue := by
  have hnt := t.mem_of_mem_path ht hn
  simp only [createUpdateStrategy, getFirstBlockCache_track (t.height_lt n hnt) htrack, blockRef]
    at hundo ⊢
  cases tip with
  | root x =>
    cases mem_singleton.mp hn
    simp at hundo
  | child p x =>
    rcases Node.mem_path_child hn with rfl | hnp
    · simp at hundo
    · have hne : env.blockHash (.child p x) ≠ env.blockHash n := fun h =>
        Node.child_ne_of_mem_path hnp (t.hash_inj ht hnt h)
      have hheight : ¬ ((Node.child p x).height : Int) ≤ n.height := by
        have := Node.height_le_of_mem_path hnp
        simp only [Node.height]
        omega
      rw [if_neg (fun h => hne h.1), if_pos hne, if_neg hheight]

theorem recorded_createUpdateStrategy {clear : Clearing σ} (hclear : clear.blockCache [] = [])
    {tip : Node β} (ht : tip ∈ t.nodes) (hfollow : Following t q c) :
    recorded env clear c (createUpdateStrategy env tip c) tip = track env.blockHash (some tip) := by
  rw [recorded]
  split
  · rename_i hrebuild
    cases q with
    | none => rw [hfollow.tracked, track, hclear, pushPath_nil env.blockHash (t.height_lt tip ht)]
    | some n =>
      simp only [createUpdateStrategy,
        getFirstBlockCache_track (t.height_lt n (hfollow.inTree n rfl)) hfollow.tracked] at hrebuild
      split at hrebuild
      · cases hrebuild
      · split at hrebuild
        · split at hrebuild <;> cases hrebuild
        · cases hrebuild
  · rfl

section
variable [DecidableEq β]

/-- What a call after the chain of `q` leaves behind when it executed the chain of
`tip` above `from?`. -/
structure Observed (env : ContractEnv β τ σ δ) (clear : Clearing σ) (q : Option (Node β))
    (st : ContractState σ δ) (tip : Node β) (from? : Option (Node β)) (s : σ)
    (st' : ContractState σ δ) : Prop where
  start : StartPoint env clear st.cache tip from? s
  extends_chain : ∀ n ∈ tip.path, q = some n → from? = q
  result : (st'.cache.snapShot, st'.side) = execute env (tip.since from?) (s, st.side)
  checkPoints : ∀ cp ∈ st'.cache.checkPoints, cp ∈ st.cache.checkPoints ∨
    (cp.tipBlockHash = env.blockHash tip ∧ cp.state = st'.cache.snapShot)

/-- The chosen strategy executes the new chain from a starting point on it, and from
the tip followed so far if the new chain extends it. -/
theorem updateSnapShot_following (t : ChainTree env) {clear : Clearing σ}
    (hclear : clear.blockCache [] = []) {tip : Node β} (ht : tip ∈ t.nodes) {st : ContractState σ δ}
    (hfollow : Following t q st.cache) (fuel : Nat)
    (hundo : createUpdateStrategy env tip st.cache ≠ .typeUnDo) :
    ∃ from? s, StartPoint env clear st.cache tip from? s ∧ (∀ n ∈ tip.path, q = some n → from? = q) ∧
      updateSnapShot env clear (fuel + 3) (createUpdateStrategy env tip st.cache) tip st =
        some (true, updatedBefore env (fun _ => false) st tip
        (track env.blockHash (some tip)) from? s) := by
  have hupdate : updateSnapShot env clear (fuel + 3) _ tip st = _ :=
    updateSnapShot_eq (fun _ => false) t clear ht st fuel hclear hfollow
      (createUpdateStrategy env tip st.cache)
  rw [recorded_createUpdateStrategy t hclear ht hfollow] at hupdate
  obtain ⟨⟨from?, s⟩, hstart⟩ : ∃ start, startPoint env clear st.cache
    (createUpdateStrategy env tip st.cache) q tip =
      some start := by
    cases q with
    | none =>
      have hstrategy : createUpdateStrategy env tip st.cache = .typeRebuild := by
        rw [createUpdateStrategy, ContractStateCache.getFirstBlockCache, hfollow.tracked]
        rfl
      exact ⟨_, by rw [hstrategy]; rfl⟩
    | some n =>
      cases hstrategy : createUpdateStrategy env tip st.cache with
      | typeUnDo => exact absurd hstrategy hundo
      | typeRebuild => exact ⟨_, rfl⟩
      | typeContinue => exact ⟨_, rfl⟩
      | typeRollback => exact ⟨_, rfl⟩
  rw [hstart] at hupdate
  refine ⟨from?, s, .of_startPoint hfollow.tracked hstart, ?_, hupdate.trans (by simp)⟩
  rintro n hn rfl
  rw [createUpdateStrategy_continue t ht hfollow.tracked hn hundo, startPoint, if_pos hn] at hstart
  cases hstart
  rfl

theorem onChainStateSet_spec (t : ChainTree env) (clear : Clearing σ)
    (hclear : clear.blockCache [] = []) {tip : Node β} (ht : tip ∈ t.nodes) {st : ContractState σ δ}
    (hfollow : Following t q st.cache) (fuel : Nat) :
    ∃ st', onChainStateSet env clear (fuel + 3) tip st = some (true, st') ∧
      Following t (some tip) st'.cache ∧ ∃ from? s, Observed env clear q st tip from? s st' := by
  unfold onChainStateSet
  dsimp only
  split
  · rename_i hundo
    cases createUpdateStrategy_undo t ht hfollow hundo
    refine ⟨st, rfl, hfollow, some tip, st.cache.snapShot, ?_⟩
    exact ⟨.current (Node.mem_path_self tip) hfollow.tracked, fun _ _ _ => rfl,
      by rw [Node.since_self]; rfl, fun cp hcp => .inl hcp⟩
  · rename_i hundo
    obtain ⟨from?, s, hstart, hextends, hresult⟩ :=
      updateSnapShot_following t hclear ht hfollow fuel hundo
    generalize hst : updatedBefore env (fun _ => false) st tip
      (track env.blockHash (some tip)) from? s = st₁
      at hresult
    have htrack : st₁.cache.blockCache = track env.blockHash (some tip) := hst ▸ rfl
    have hcps : st₁.cache.checkPoints = st.cache.checkPoints := hst ▸ rfl
    have hkeep := maintainCheckPoints_checkPoints (hcps ▸ hfollow.ids : IdsOk st₁.cache.checkPoints)
    simp only [htrack, getHeighestBlock_track (t.height_lt tip ht), blockRef, hcps] at hkeep
    simp only [hresult, Option.bind_eq_bind, Option.bind_some]
    refine ⟨_, rfl, ⟨?_, (maintainCheckPoints_blockCache _).trans htrack, hkeep.1⟩, from?, s, hstart,
      hextends, ?_, ?_⟩
    · rintro n ⟨⟩
      exact ht
    · rw [maintainCheckPoints_snapShot, ← hst]
      simp [updatedBefore, ContractState.withResult, takeWhile_eq_self_iff.mpr]
    · rw [maintainCheckPoints_snapShot]
      exact hkeep.2

end

section
variable {env : ContractEnv β τ σ Unit}

/-- The snapshot of a chain: its blocks executed in order from an empty store. -/
def replay (env : ContractEnv β τ σ Unit) (tip : Node β) : σ :=
  (execute env tip.branch (env.emptySnapShot, ())).1

/-- The snapshot and every checkpoint are replays of the chains they belong to. -/
structure Replayed (t : ChainTree env) (q : Option (Node β)) (c : ContractStateCache σ) : Prop
    extends Following t q c where
  snapShot : ∀ n, q = some n → c.snapShot = replay env n
  checkPoint : ∀ cp ∈ c.checkPoints, ∀ a ∈ t.nodes, cp.tipBlockHash = env.blockHash a →
    cp.state = replay env a

theorem Replayed.initial (t : ChainTree env) :
    Replayed t none (ContractState.initial env ()).cache where
  inTree := by simp
  tracked := rfl
  ids := ⟨by simp [ContractState.initial], .nil⟩
  snapShot := by simp
  checkPoint := by simp [ContractState.initial]

variable [DecidableEq β]

variable {tip : Node β}

theorem replay_of_since {a : Node β} (ha : a ∈ tip.path) :
    (execute env (tip.since (some a)) (replay env a, ())).1 = replay env tip := by
  rw [replay, replay, Node.branch_eq_append_since ha, execute_append]

variable {t : ChainTree env}

theorem Replayed.execute_start (ht : tip ∈ t.nodes)
    {c : ContractStateCache σ} (h : Replayed t q c)
    (hstart : StartPoint env (emptying env) c tip from? s) :
    (execute env (tip.since from?) (s, ())).1 = replay env tip := by
  cases hstart with
  | empty => rw [Node.since_none, replay, emptying]
  | current hmem htrack =>
    have hq := h.eq_of_track (t.mem_of_mem_path ht hmem) htrack
    rw [h.snapShot _ hq, replay_of_since hmem]
  | checkPoint hmem hcp hhash =>
    rw [h.checkPoint _ hcp _ (t.mem_of_mem_path ht hmem) hhash, replay_of_since hmem]

variable {st : ContractState σ Unit}

theorem onChainStateSet_replayed (ht : tip ∈ t.nodes) (h : Replayed t q st.cache) (fuel : Nat) :
    ∃ st', onChainStateSet env (emptying env) (fuel + 3) tip st = some (true, st') ∧
      Replayed t (some tip) st'.cache := by
  obtain ⟨st', hcall, hfollow, from?, s, hobs⟩ :=
    onChainStateSet_spec t (emptying env) rfl ht h.toFollowing fuel
  have hsnap : st'.cache.snapShot = replay env tip :=
    (congrArg Prod.fst hobs.result).trans (h.execute_start ht hobs.start)
  refine ⟨st', hcall, hfollow, ?_, fun cp hcp a ha hhash => ?_⟩
  · rintro n ⟨⟩
    exact hsnap
  · rcases hobs.checkPoints cp hcp with hold | ⟨htip, hstate⟩
    · exact h.checkPoint cp hold a ha hhash
    · -- the new checkpoint is filed under the hash of the tip
      rw [hstate, hsnap, t.hash_inj ht ha (htip.symm.trans hhash)]

theorem observeAll_replayed {tips : List (Node β)}
    (htips : ∀ n ∈ tips, n ∈ t.nodes) (h : Replayed t q st.cache)
    (fuel : Nat) :
    ∃ st' q', observeAll env (emptying env) (fuel + 3) tips st = some st' ∧
    Replayed t q' st'.cache := by
  induction tips generalizing st q with
  | nil => exact ⟨st, q, rfl, h⟩
  | cons tip tips ih =>
    obtain ⟨ht, hrest⟩ := forall_mem_cons.mp htips
    obtain ⟨st₁, hcall, h₁⟩ := onChainStateSet_replayed ht h fuel
    obtain ⟨st₂, q₂, hrun, h₂⟩ := ih hrest h₁
    refine ⟨st₂, q₂, ?_, h₂⟩
    rw [observeAll, foldlM_cons, hcall]
    exact hrun

/-- After any run over chains of one tree, the observer returns true and leaves the
snapshot of the active chain, tracked block by block. -/
theorem onChainStateSet_follows_chain (t : ChainTree env) (tips : List (Node β))
    (htips : ∀ n ∈ tips, n ∈ t.nodes) (tip : Node β) (ht : tip ∈ t.nodes) (fuel : Nat) :
    ∃ st st', observeAll env (emptying env) (fuel + 3) tips (.initial env ()) = some st ∧
      onChainStateSet env (emptying env) (fuel + 3) tip st = some (true, st') ∧
      st'.cache.snapShot = replay env tip ∧
      st'.cache.blockCache = track env.blockHash (some tip) := by
  obtain ⟨st, q, hrun, h⟩ := observeAll_replayed htips (.initial t) fuel
  obtain ⟨st', hcall, h'⟩ := onChainStateSet_replayed ht h fuel
  exact ⟨st, st', hrun, hcall, h'.snapShot tip rfl, h'.tracked⟩

end

/-- Two forks over one genesis block; a transaction is a number and the snapshot
the list of those executed. -/
def forkEnv : ContractEnv Nat Nat (List Nat) Unit where
  blockHash n := BitVec.ofNat 256 n.value
  readBlockFromDisk n := some [n.value]
  processContract tx st := (true, st.1 ++ [tx], st.2)
  emptySnapShot := []

def forkTree : ChainTree forkEnv where
  nodes := {.root 0, .child (.root 0) 1, .child (.root 0) 2}
  parent := by
    rintro p a h
    rcases h with h | h | h <;> cases h <;> exact .inl rfl
  root := by
    rintro a b ha hb
    rcases ha with h | h | h <;> cases h
    rcases hb with h | h | h <;> cases h
    rfl
  hash_inj := by
    rintro a ha b hb h
    rcases ha with rfl | rfl | rfl <;> rcases hb with rfl | rfl | rfl <;>
      first | rfl | exact absurd h (by decide)
  height_lt := by
    rintro n h
    rcases h with rfl | rfl | rfl <;> decide
  readable _ _ := rfl

theorem onChainStateSet_forkTree :
    ∃ st st', observeAll forkEnv (emptying forkEnv) 3 [.child (.root 0) 1, .child (.root 0) 2]
        (.initial forkEnv ()) = some st ∧
      onChainStateSet forkEnv (emptying forkEnv) 3 (.child (.root 0) 1) st = some (true, st') ∧
      st'.cache.snapShot = replay forkEnv (.child (.root 0) 1) ∧
      st'.cache.blockCache = track forkEnv.blockHash (some (.child (.root 0) 1)) :=
  onChainStateSet_follows_chain forkTree [.child (.root 0) 1, .child (.root 0) 2]
    (by simp [forkTree]) (.child (.root 0) 1) (by simp [forkTree]) 0

end OurChain
