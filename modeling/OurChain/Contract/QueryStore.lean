import OurChain.Contract.Observer
import OurChain.Contract.Rebuild

/-!
# The store that queries read

After an update `saveTmpState` restores the latest checkpoint into the `tmp` store, which
`dumpcontractmessage` opens. A checkpoint is only taken above the genesis block, and a
call that finds its tip tracked already does not look at the store.
-/

namespace OurChain

variable {β τ σ δ : Type}

/-- The stores with the `tmp` store, none if there is no database. -/
structure QueryState (σ δ : Type) where
  st : ContractState σ δ
  tmp : Option σ

/-- `RestoreDBFromLatestBackup`: without a backup the directory stays as it is. -/
def saveTmpState (checkPoints : List (CheckPoint σ)) (tmp : Option σ) : Option σ :=
  match checkPoints.getLast? with
  | none => tmp
  | some cp => some cp.state

section
variable (env : ContractEnv β τ σ δ) (clear : Clearing σ) (fuel : Nat)

def onChainStateSetTmp (tip : Node β)
    (s : QueryState σ δ) : Option (Bool × QueryState σ δ) :=
  let strategy := createUpdateStrategy env tip s.st.cache
  if strategy = .typeUnDo then some (true, s)
  else do
    let (ok, st) ← updateSnapShot env clear fuel strategy tip s.st
    if !ok then some (false, { s with st })
    else
      let curHeight := st.cache.blockCache.getHeighestBlock.blockHeight
      let cache := if isSaveCheckPointNow curHeight then st.cache.saveCheckPoint else st.cache
      let tmp := saveTmpState cache.checkPoints s.tmp
      let cache := if isClearCheckPointNow curHeight then cache.clearCheckPoint 5 else cache
      some (true, { st := { st with cache }, tmp })

def observeAllTmp (tips : List (Node β))
    (s : QueryState σ δ) : Option (QueryState σ δ) :=
  tips.foldlM (fun s tip => (onChainStateSetTmp env clear fuel tip s).map Prod.snd) s

end

def QueryState.initial (env : ContractEnv β τ σ δ) (side : δ) : QueryState σ δ :=
  ⟨.initial env side, none⟩

section
variable {env : ContractEnv β τ σ δ}

/-- The `tmp` store is that of the followed chain, above the genesis block. -/
structure Current (t : ChainTree env) (q : Option (Node β)) (s : QueryState σ δ) : Prop where
  following : Following t q s.st.cache
  tmp : ∀ n, q = some n → n.height ≠ 0 → s.tmp = some s.st.cache.snapShot

theorem Current.initial (t : ChainTree env) (side : δ) : Current t none (.initial env side) where
  following := ⟨nofun, rfl, nofun, .nil⟩
  tmp := nofun

variable [DecidableEq β] {clear : Clearing σ}

section
variable {q : Option (Node β)} {s : QueryState σ δ} (hclear : clear.blockCache [] = [])
  (t : ChainTree env)
include hclear

theorem onChainStateSetTmp_current {tip : Node β}
    (ht : tip ∈ t.nodes) (h : Current t q s) (fuel : Nat) :
    ∃ s', onChainStateSetTmp env clear (fuel + 3) tip s = some (true, s') ∧
      Current t (some tip) s' := by
  rw [onChainStateSetTmp]
  split
  · rename_i hundo
    cases createUpdateStrategy_undo t ht h.following hundo
    exact ⟨s, rfl, h⟩
  · rename_i hundo
    obtain ⟨from?, start, -, -, hresult⟩ :=
      updateSnapShot_following t hclear ht h.following fuel hundo
    generalize hst : updatedBefore env (fun _ => false) s.st tip (track env.blockHash (some tip))
      from? start = st
      at hresult
    have htrack : st.cache.blockCache = track env.blockHash (some tip) := hst ▸ rfl
    have hids : IdsOk st.cache.checkPoints := hst ▸ h.following.ids
    have hhighest : st.cache.blockCache.getHeighestBlock = blockRef env.blockHash tip := by
      rw [htrack]
      exact getHeighestBlock_track (t.height_lt tip ht)
    simp only [hresult, Option.bind_eq_bind, Option.bind_some]
    refine ⟨_, rfl, ⟨?_, ?_, ?_⟩, ?_⟩
    · rintro n ⟨⟩
      exact ht
    · exact (maintainCheckPoints_blockCache st.cache).trans htrack
    · exact (maintainCheckPoints_checkPoints hids).1
    · rintro n ⟨⟩ hheight
      -- the checkpoint of the tip is the latest one
      have hsave : isSaveCheckPointNow (blockRef env.blockHash tip).blockHeight = true := by
        simpa [isSaveCheckPointNow, blockRef] using hheight
      have hsnap : (maintainCheckPoints st.cache).snapShot = st.cache.snapShot :=
        maintainCheckPoints_snapShot st.cache
      refine Eq.trans ?_ (congrArg some hsnap.symm)
      simp [hhighest, hsave, saveTmpState, ContractStateCache.saveCheckPoint]

theorem observeAllTmp_current {tips : List (Node β)} (htips : ∀ n ∈ tips, n ∈ t.nodes)
    (h : Current t q s) (fuel : Nat) :
    ∃ s' q', observeAllTmp env clear (fuel + 3) tips s = some s' ∧ Current t q' s' := by
  induction tips generalizing s q with
  | nil => exact ⟨s, q, rfl, h⟩
  | cons tip tips ih =>
    obtain ⟨ht, hrest⟩ := List.forall_mem_cons.mp htips
    obtain ⟨s₁, hcall, h₁⟩ := onChainStateSetTmp_current hclear t ht h fuel
    obtain ⟨s₂, q₂, hrun, h₂⟩ := ih hrest h₁
    refine ⟨s₂, q₂, ?_, h₂⟩
    rw [observeAllTmp, List.foldlM_cons, hcall]
    exact hrun

end

/-- In any run over chains of readable blocks, a call for a chain above the genesis block
returns true and leaves the current snapshot in the `tmp` store. -/
theorem tmpState_current (clear : Clearing σ) (hclear : clear.blockCache [] = []) (t : ChainTree env)
    (side : δ) (tips : List (Node β)) (htips : ∀ n ∈ tips, n ∈ t.nodes) (tip : Node β)
    (ht : tip ∈ t.nodes) (hheight : tip.height ≠ 0) :
    ∃ s s', observeAllTmp env clear 3 tips (.initial env side) = some s ∧
      onChainStateSetTmp env clear 3 tip s = some (true, s') ∧
      s'.tmp = some s'.st.cache.snapShot := by
  obtain ⟨s, q, hrun, h⟩ := observeAllTmp_current hclear t htips (Current.initial t side) 0
  obtain ⟨s', hcall, h'⟩ := onChainStateSetTmp_current hclear t ht h 0
  exact ⟨s, s', hrun, hcall, h'.tmp tip rfl hheight⟩

end

/-- As `forkEnv`, with the stores as they are and without the transactions of block 3. -/
def unreadEnv : ContractEnv Nat Nat (List Nat) Unit := forkEnv.failing fun n => n.value = 3

/-- A `clear` that keeps what is there, as that of the stores does. -/
def keeping (σ : Type) : Clearing σ := ⟨id, clearAllStates⟩

theorem tmpState_current_fork :
    ∃ s s', observeAllTmp forkEnv (keeping _) 3 [.root 0, .child (.root 0) 1] (.initial forkEnv ()) =
        some s ∧
      onChainStateSetTmp forkEnv (keeping _) 3 (.child (.root 0) 2) s = some (true, s') ∧
      s'.tmp = some s'.st.cache.snapShot :=
  tmpState_current (keeping _) rfl forkTree () [.root 0, .child (.root 0) 1] (by simp [forkTree])
    (.child (.root 0) 2) (by simp [forkTree]) (by decide)

/-- At the genesis block there is no `tmp` store yet. And when block 3 could not be read,
block 2 has been executed; the next call finds its tip tracked and returns true, with
the store of block 1. -/
theorem tmpState_stale :
    (∃ s, onChainStateSetTmp forkEnv (keeping _) 3 (.root 0) (.initial forkEnv ()) = some (true, s) ∧
      s.tmp = none) ∧
    ∃ s, observeAllTmp unreadEnv (keeping _) 3
        [.child (.root 0) 1, .child (.child (.child (.root 0) 1) 2) 3]
        (.initial unreadEnv ()) = some s ∧
      onChainStateSetTmp unreadEnv (keeping _) 3 (.child (.child (.child (.root 0) 1) 2) 3) s =
        some (true, s) ∧
      s.st.cache.snapShot = [0, 1, 2] ∧ s.tmp = some [0, 1] := by
  refine ⟨⟨_, rfl, rfl⟩, _, rfl, rfl, rfl, rfl⟩

end OurChain
