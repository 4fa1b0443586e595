import OurChain.Contract.Rebuild

/-!
# The calls between the strategies

`UpdateStrategyContinue` hands over to `UpdateStrategyRollback`, and that one back again.
Here the block cache may hold any heights and hashes: every strategy returns, because a
rollback hands over only a block that the chain has, and that block ends the next walk.
-/

namespace OurChain

variable {β τ σ δ : Type}

/-- The strategies of one call, from the first to the one that returns. -/
inductive Called (env : ContractEnv β τ σ δ) (clear : Clearing σ) (tip : Node β) :
    UpdateStrategyType → ContractState σ δ → List UpdateStrategyType →
      Bool × ContractState σ δ → Prop
  | returned (step : strategyStep env clear tip st strategy = some (.returned result)) :
      Called env clear tip strategy st [strategy] result
  | calls (step : strategyStep env clear tip st strategy = some (.calls next st'))
      (rest : Called env clear tip next st' calls result) :
      Called env clear tip strategy st (strategy :: calls) result

def callsBetween (caller callee : UpdateStrategyType) : List UpdateStrategyType → Nat
  | first :: second :: calls =>
    (if first = caller ∧ second = callee then 1 else 0) + callsBetween caller callee (second :: calls)
  | _ => 0

inductive PopLoop (height : Int) : BlockRef → ContractStateCache σ → RollbackWalk σ → Prop
  | stop (below : firstBlock.blockHeight < height) :
      PopLoop height firstBlock cache (.next firstBlock cache)
  | empty (above : height ≤ firstBlock.blockHeight) (pop : popFirst cache = .rebuild cache') :
      PopLoop height firstBlock cache (.rebuild cache')
  | turn (above : height ≤ firstBlock.blockHeight) (pop : popFirst cache = .next firstBlock' cache')
      (rest : PopLoop height firstBlock' cache' walk) : PopLoop height firstBlock cache walk

/-- The keys that `intToKey` writes. -/
def BlockCache.FourByteKeys (m : BlockCache) : Prop := ∀ e ∈ m, e.1.length = 4

theorem intToKey_keyToInt {key : Bytes} (h : key.length = 4) : intToKey (keyToInt key) = key := by
  have hlt := ofBeBytes_lt key
  rw [h] at hlt
  have hnat : (BitVec.ofNat 32 (ofBeBytes key)).toNat = ofBeBytes key := by
    rw [BitVec.toNat_ofNat]
    exact Nat.mod_eq_of_lt hlt
  have hle : ofBeBytes key = ofLeBytes key.reverse := by
    rw [← ofBeBytes_reverse, List.reverse_reverse]
  have hround := leBytes_ofLeBytes key.reverse
  rw [List.length_reverse, h] at hround
  rw [intToKey, keyToInt, BitVec.ofInt_toInt, hnat, hle, hround, List.reverse_reverse]

section
variable {c : ContractStateCache σ}

theorem popBlock_length (hkeys : c.blockCache.FourByteKeys)
    (hfirst : c.getFirstBlockCache = some firstBlock) :
    c.popBlock.blockCache.length < c.blockCache.length := by
  cases hlast : c.blockCache.getLast? with
  | none =>
    rw [ContractStateCache.getFirstBlockCache, BlockCache.getHeighestBlock, SortedMap.last?,
      hlast] at hfirst
    cases hfirst
  | some e =>
    have hmem := List.mem_of_getLast? hlast
    have hhighest : c.blockCache.getHeighestBlock = ⟨e.2, keyToInt e.1⟩ := by
      rw [BlockCache.getHeighestBlock, SortedMap.last?, hlast]
    simp only [ContractStateCache.popBlock, BlockCache.removeBlockIndex, SortedMap.delete, hhighest,
      intToKey_keyToInt (hkeys e hmem)]
    exact List.length_filter_lt_length_iff_exists.mpr ⟨e, hmem, by simp⟩

theorem popBlock_keys (hkeys : c.blockCache.FourByteKeys) : c.popBlock.blockCache.FourByteKeys :=
  fun e he => hkeys e (List.mem_of_mem_filter he)

theorem popFirst_ne_restored (c' : ContractStateCache σ) : popFirst c ≠ .restored c' := by
  rw [popFirst]
  split <;> simp

theorem popFirst_next (h : popFirst c = .next firstBlock c') :
    c' = c.popBlock ∧ c'.getFirstBlockCache = some firstBlock := by
  rw [popFirst] at h
  split at h
  · cases h
  · rename_i hfirst
    cases h
    exact ⟨rfl, hfirst⟩

theorem popTo_popLoop (height : Int) (fuel : Nat) (hkeys : c.blockCache.FourByteKeys)
    (hfirst : c.getFirstBlockCache = some firstBlock) (hfuel : c.blockCache.length < fuel) :
    PopLoop height firstBlock c (popTo height fuel firstBlock c) := by
  induction fuel generalizing c firstBlock with
  | zero => exact absurd hfuel (Nat.not_lt_zero _)
  | succ fuel ih =>
    rw [popTo]
    split
    · rename_i habove
      have hlen := popBlock_length hkeys hfirst
      cases hpop : popFirst c with
      | rebuild c' => exact .empty habove hpop
      | restored c' => exact absurd hpop (popFirst_ne_restored c')
      | next firstBlock' c' =>
        obtain ⟨rfl, hfirst'⟩ := popFirst_next hpop
        exact .turn habove hpop (ih (popBlock_keys hkeys) hfirst' (by omega))
    · rename_i hbelow
      exact .stop (Int.not_le.mp hbelow)

end

section
variable (env : ContractEnv β τ σ δ)

/-- The walk looks at the highest block of its cache, and a restored cache has a block of
the chain on top. -/
def RollbackWalk.OnTop (checkPoints : List (CheckPoint σ))
    (path : List (Node β)) : RollbackWalk σ → Prop
  | .rebuild _ => True
  | .restored c => ∃ n ∈ path, c.getFirstBlockCache = some (blockRef env.blockHash n)
  | .next firstBlock c => c.checkPoints = checkPoints ∧ c.getFirstBlockCache = some firstBlock

section
variable {c : ContractStateCache σ} {cps : List (CheckPoint σ)}

theorem popFirst_onTop (hc : c.checkPoints = cps) (path : List (Node β)) :
    (popFirst c).OnTop env cps path := by
  cases hpop : popFirst c with
  | rebuild c' => trivial
  | restored c' => exact absurd hpop (popFirst_ne_restored c')
  | next firstBlock c' =>
    obtain ⟨rfl, hfirst⟩ := popFirst_next hpop
    exact ⟨hc, hfirst⟩

theorem popTo_onTop (hc : c.checkPoints = cps) (hfirst : c.getFirstBlockCache = some firstBlock)
    (height : Int) (path : List (Node β)) (fuel : Nat) :
    (popTo height fuel firstBlock c).OnTop env cps path := by
  induction fuel generalizing firstBlock c with
  | zero => exact ⟨hc, hfirst⟩
  | succ fuel ih =>
    rw [popTo]
    split
    · have hpop := popFirst_onTop env hc path
      generalize popFirst c = walk at hpop ⊢
      cases walk with
      | next firstBlock c' => exact ih hpop.1 hpop.2
      | rebuild c' => exact hpop
      | restored c' => exact hpop
    · exact ⟨hc, hfirst⟩

theorem restoreCheckPoint_isSome (hids : ∀ cp ∈ cps, 0 < cp.id) (hc : c.checkPoints = cps)
    {tip : Uint256} (hmem : tip ∈ cps.map CheckPoint.tipBlockHash) :
    ∃ s, c.restoreCheckPoint tip (cps.map fun cp => (cp.tipBlockHash, cp.id)) =
      some { c with snapShot := s } := by
  obtain ⟨cp₀, hcp₀, htip₀⟩ := List.mem_map.mp hmem
  obtain ⟨cp, hfind⟩ : ∃ cp, cps.find? (fun cp => cp.tipBlockHash = tip) = some cp :=
    Option.isSome_iff_exists.mp (List.find?_isSome.mpr ⟨cp₀, hcp₀, by simpa using htip₀⟩)
  have hcp := List.mem_of_find?_eq_some hfind
  obtain ⟨saved, hsaved⟩ : ∃ saved, cps.find? (fun c => c.id = cp.id) = some saved :=
    Option.isSome_iff_exists.mp (List.find?_isSome.mpr ⟨cp, hcp, by simp⟩)
  exact ⟨saved.state, restoreCheckPoint_of_find hc hfind (hids cp hcp) hsaved⟩

section
variable {n : Node β} {path : List (Node β)} (hids : ∀ cp ∈ cps, 0 < cp.id)
  (hc : c.checkPoints = cps) (hfirst : c.getFirstBlockCache = some firstBlock)
include hids hc hfirst

theorem rollbackStep_onTop (hpath : n ∈ path) :
    ∃ walk, rollbackStep env (cps.map fun cp => (cp.tipBlockHash, cp.id)) n firstBlock c = some walk ∧
      walk.OnTop env cps path := by
  unfold rollbackStep
  split
  · exact ⟨_, rfl, hc, hfirst⟩
  · split
    · rename_i hheight
      split
      · rename_i hmatch
        obtain ⟨hhash, hlisted⟩ := hmatch
        obtain ⟨s, hrestore⟩ := restoreCheckPoint_isSome hids hc (by simpa using hlisted)
        have href : firstBlock = blockRef env.blockHash n := by
          rw [blockRef, hhash, hheight]
        refine ⟨.restored { c with snapShot := s }, by rw [hrestore]; rfl, n, hpath, ?_⟩
        rw [← href]
        exact hfirst
      · exact ⟨_, rfl, popFirst_onTop env hc _⟩
    · exact ⟨_, rfl, popTo_onTop env hc hfirst _ path _⟩

theorem rollbackWalk_onTop (hpath : n.path ⊆ path) :
    ∃ walk, rollbackWalk env (cps.map fun cp => (cp.tipBlockHash, cp.id)) n firstBlock c = some walk ∧
      walk.OnTop env cps path ∧ ∀ firstBlock c', walk ≠ .next firstBlock c' := by
  obtain ⟨walk, hstep, hok⟩ := rollbackStep_onTop env hids hc hfirst (hpath (Node.mem_path_self n))
  induction n generalizing c firstBlock walk with
  | root x =>
    simp only [rollbackWalk, hstep, Option.bind_eq_bind, Option.bind_some]
    cases walk with
    | rebuild c' => exact ⟨_, rfl, hok, nofun⟩
    | restored c' => exact ⟨_, rfl, hok, nofun⟩
    | next firstBlock c' => exact ⟨.rebuild c', rfl, trivial, nofun⟩
  | child p x ih =>
    simp only [rollbackWalk, hstep, Option.bind_eq_bind, Option.bind_some]
    cases walk with
    | rebuild c' => exact ⟨_, rfl, hok, nofun⟩
    | restored c' => exact ⟨_, rfl, hok, nofun⟩
    | next firstBlock c' =>
      have hbelow : p.path ⊆ path := fun a ha => hpath (List.mem_cons_of_mem _ ha)
      obtain ⟨walk', hstep', hok'⟩ := rollbackStep_onTop env hids hok.1 hok.2
        (hbelow (Node.mem_path_self p))
      exact ih hok.1 hok.2 hbelow walk' hstep' hok'

end

end

theorem continueWalk_on_chain {n m : Node β} (hm : m ∈ n.path) (stack : List (Node β)) :
    ∃ realBlock, continueWalk env (blockRef env.blockHash m) n stack = .found realBlock := by
  induction n generalizing stack with
  | root x =>
    cases List.mem_singleton.mp hm
    exact ⟨stack, by simp [continueWalk]⟩
  | child p x ih =>
    rw [continueWalk]
    split
    · exact ⟨stack, rfl⟩
    · rename_i hne
      rcases List.mem_cons.mp hm with rfl | hmp
      · exact absurd rfl hne
      · have hheight : ¬ ((Node.child p x).height : Int) <
          (blockRef env.blockHash m).blockHeight := by
          have := Node.height_le_of_mem_path hmp
          simp only [blockRef, Node.height]
          omega
        rw [if_neg hheight]
        exact ih hmp _

variable (clear : Clearing σ) (tip : Node β) (st : ContractState σ δ)

theorem continue_step : (∃ result, strategyStep env clear tip st .typeContinue =
      some (.returned result)) ∨
    strategyStep env clear tip st .typeContinue = some (.calls .typeRollback st) := by
  rw [strategyStep]
  split
  · exact .inl ⟨_, rfl⟩
  · split
    · exact .inl ⟨_, rfl⟩
    · exact .inr rfl
    · exact .inl ⟨_, rfl⟩

theorem rollback_called (hids : ∀ cp ∈ st.cache.checkPoints, 0 < cp.id) :
    ∃ calls result, Called env clear tip .typeRollback st calls result ∧
      (calls = [.typeRollback] ∨ calls = [.typeRollback, .typeRebuild] ∨
        calls = [.typeRollback, .typeContinue]) := by
  cases hfirst : st.cache.getFirstBlockCache with
  | none => exact ⟨_, (false, st), .returned (by simp [strategyStep, hfirst]), .inl rfl⟩
  | some firstBlock =>
    obtain ⟨walk, hwalk, hok, hnext⟩ := rollbackWalk_onTop env hids rfl hfirst
      (List.Subset.refl tip.path)
    cases walk with
    | rebuild c =>
      have hstep : strategyStep env clear tip st .typeRollback =
          some (.calls .typeRebuild { st with cache := c }) := by
        simp [strategyStep, hfirst, ContractStateCache.getCheckPointList, hwalk]
      exact ⟨_, _, .calls hstep (.returned rfl), .inr (.inl rfl)⟩
    | restored c =>
      have hstep : strategyStep env clear tip st .typeRollback =
          some (.calls .typeContinue { st with cache := c }) := by
        simp [strategyStep, hfirst, ContractStateCache.getCheckPointList, hwalk]
      obtain ⟨m, hm, hfirst'⟩ := hok
      obtain ⟨realBlock, hfound⟩ := continueWalk_on_chain env hm []
      obtain ⟨result, hresult⟩ : ∃ result, strategyStep env clear tip { st with cache := c }
          .typeContinue = some (.returned result) := by
        simp [strategyStep, hfirst', hfound]
      exact ⟨_, result, .calls hstep (.returned hresult), .inr (.inr rfl)⟩
    | next firstBlock' c => exact absurd rfl (hnext _ _)

section
variable {env clear tip st} {strategy : UpdateStrategyType} {trace : List UpdateStrategyType}
  {result : Bool × ContractState σ δ}

theorem Called.updates (h : Called env clear tip strategy st trace result) (fuel : Nat)
    (hfuel : trace.length ≤ fuel) :
    updateSnapShot env clear fuel strategy tip st = some result := by
  induction h generalizing fuel with
  | returned step =>
    obtain ⟨fuel, rfl⟩ := Nat.exists_eq_succ_of_ne_zero (Nat.ne_of_gt hfuel)
    simp only [updateSnapShot, step]
  | calls step rest ih =>
    obtain ⟨fuel, rfl⟩ := Nat.exists_eq_succ_of_ne_zero (Nat.ne_of_gt (Nat.zero_lt_of_lt hfuel))
    simp only [updateSnapShot, step]
    exact ih fuel (Nat.le_of_succ_le_succ hfuel)

theorem Called.trace_eq (h : Called env clear tip strategy st trace result)
    {trace' : List UpdateStrategyType} {result' : Bool × ContractState σ δ}
    (h' : Called env clear tip strategy st trace' result') : trace' = trace := by
  induction h generalizing trace' with
  | returned step =>
    cases h' with
    | returned _ => rfl
    | calls step' _ => exact nomatch step.symm.trans step'
  | calls step rest ih =>
    cases h' with
    | returned step' => exact nomatch step.symm.trans step'
    | calls step' rest' =>
      cases Option.some.inj (step.symm.trans step')
      rw [ih rest']

end

/-- From any block cache and any checkpoints every strategy returns, and on the way
continuing and rolling back call each other at most once in each direction. The loop that
drops blocks ends. -/
theorem strategies_terminate (strategy : UpdateStrategyType)
    (hids : ∀ cp ∈ st.cache.checkPoints, 0 < cp.id) (hkeys : st.cache.blockCache.FourByteKeys) :
    (∃ calls result, Called env clear tip strategy st calls result ∧
      updateSnapShot env clear 3 strategy tip st = some result) ∧
    (∀ calls result, Called env clear tip strategy st calls result →
      callsBetween .typeContinue .typeRollback calls ≤ 1 ∧
      callsBetween .typeRollback .typeContinue calls ≤ 1) ∧
    ∀ firstBlock height, st.cache.getFirstBlockCache = some firstBlock →
      PopLoop height firstBlock st.cache
        (popTo height (st.cache.blockCache.length + 1) firstBlock st.cache) := by
  suffices h : ∃ calls result, Called env clear tip strategy st calls result ∧ calls.length ≤ 3 ∧
      callsBetween .typeContinue .typeRollback calls ≤ 1 ∧
      callsBetween .typeRollback .typeContinue calls ≤ 1 by
    obtain ⟨calls, result, hcalled, hlen, hcounts⟩ := h
    refine ⟨⟨calls, result, hcalled, hcalled.updates 3 hlen⟩, fun calls' result' h' => ?_,
      fun firstBlock height hfirst => popTo_popLoop height _ hkeys hfirst (Nat.lt_succ_self _)⟩
    rw [hcalled.trace_eq h']
    exact hcounts
  obtain ⟨rollback, result, hrollback, hcases⟩ := rollback_called env clear tip st hids
  cases strategy with
  | typeUnDo => exact ⟨[.typeUnDo], _, .returned rfl, by decide, by decide, by decide⟩
  | typeRebuild => exact ⟨[.typeRebuild], _, .returned rfl, by decide, by decide, by decide⟩
  | typeRollback =>
    refine ⟨rollback, result, hrollback, ?_⟩
    rcases hcases with rfl | rfl | rfl <;> decide
  | typeContinue =>
    rcases continue_step env clear tip st with ⟨result, hstep⟩ | hstep
    · exact ⟨[.typeContinue], result, .returned hstep, by decide, by decide, by decide⟩
    · refine ⟨.typeContinue :: rollback, result, .calls hstep hrollback, ?_⟩
      rcases hcases with rfl | rfl | rfl <;> decide

end

/-- Heights with a hole, above the chain and with hashes of other blocks. -/
def brokenStores : ContractState ContractStore Unit where
  cache :=
    { blockCache := [(intToKey 0, 0), (intToKey 3, 8), (intToKey 9, 9)]
      snapShot := []
      checkPoints := [⟨1, 0, []⟩] }
  side := ()

theorem strategies_terminate_broken :
    (∃ calls result, Called putEnv storeClearing (.child (.root 0) 1) .typeRollback brokenStores calls
        result ∧
      updateSnapShot putEnv storeClearing 3 .typeRollback (.child (.root 0) 1) brokenStores =
        some result) ∧
    (∀ calls result,
      Called putEnv storeClearing (.child (.root 0) 1) .typeRollback brokenStores calls result →
      callsBetween .typeContinue .typeRollback calls ≤ 1 ∧
      callsBetween .typeRollback .typeContinue calls ≤ 1) ∧
    ∀ firstBlock height, brokenStores.cache.getFirstBlockCache = some firstBlock →
      PopLoop height firstBlock brokenStores.cache (popTo height 4 firstBlock brokenStores.cache) :=
  strategies_terminate putEnv storeClearing (.child (.root 0) 1) brokenStores .typeRollback
    (by decide) (by unfold BlockCache.FourByteKeys; decide)

end OurChain
