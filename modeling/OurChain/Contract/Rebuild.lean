import OurChain.Contract.UpdateStrategy

/-!
# Rebuilding over old stores

`ContractDBWrapper::clearAllStates` deletes the range from an empty key to an empty key,
in which there is no key. So `UpdateStrategyRebuild` starts from whatever the stores hold.
-/

namespace OurChain

abbrev ContractStore := List (Bytes × Bytes)

def clearAllStates {ν : Type} (m : List (Bytes × ν)) : List (Bytes × ν) :=
  SortedMap.deleteRange bytesLt [] [] m

def storeClearing : Clearing ContractStore := ⟨clearAllStates, clearAllStates⟩

theorem clearAllStates_eq {ν : Type} (m : List (Bytes × ν)) : clearAllStates m = m := by
  rw [clearAllStates, SortedMap.deleteRange, List.filter_eq_self]
  rintro ⟨key, value⟩ -
  cases key <;> rfl

variable {β τ δ : Type}

def ContractEnv.reading (env : ContractEnv β τ ContractStore δ) (read : Node β → List τ) :
    ContractEnv β τ ContractStore δ :=
  { env with readBlockFromDisk := fun n => some (read n) }

section
variable (env : ContractEnv β τ ContractStore δ)

theorem rebuild_storeClearing (read : Node β → List τ) (fails : Node β → Bool) (tip : Node β)
    (st : ContractState ContractStore δ) :
    rebuild ((env.reading read).failing fails) storeClearing tip st =
      (tip.branch.all fun n => !fails n, ContractState.withResult
        { st with
          cache := { st.cache with blockCache := pushPath env.blockHash tip st.cache.blockCache } }
        (execute (env.reading read) (tip.branch.takeWhile fun n => !fails n)
          (st.cache.snapShot, st.side))) := by
  rw [rebuild_eq, processContracts_failing fails fun _ _ => rfl]
  simp only [storeClearing, clearAllStates_eq]
  rfl

theorem execute_quiet (realBlock : List (Node β)) (st : ContractStore × δ) :
    execute (env.reading fun _ => []) realBlock st = st := by
  induction realBlock with
  | nil => rfl
  | cons n realBlock ih => exact ih

/-- A rebuild leaves the heights of the chain and the snapshot of its blocks, executed in order
from an empty store up to the first that cannot be read, whatever is in the blocks, exactly if
the snapshot was empty and the block cache had no height above the chain. -/
theorem rebuild_independent_iff (tip : Node β) (hheight : tip.height < 2 ^ 31)
    (st : ContractState ContractStore δ) (hsorted : SortedMap.Sorted bytesLt st.cache.blockCache) :
    (∀ read fails,
      (rebuild ((env.reading read).failing fails) storeClearing tip st).2.cache.snapShot =
        (execute (env.reading read) (tip.branch.takeWhile fun n => !fails n) ([], st.side)).1 ∧
      (rebuild ((env.reading read).failing fails) storeClearing tip st).2.cache.blockCache =
        track env.blockHash (some tip)) ↔
      st.cache.snapShot = [] ∧ ∀ e ∈ st.cache.blockCache, ∃ n ∈ tip.path,
      e.1 = intToKey n.height := by
  rw [← pushPath_eq_track_iff env.blockHash hheight hsorted]
  simp only [rebuild_storeClearing, ContractState.withResult]
  constructor
  · intro h
    -- a chain of empty blocks shows what was there before
    have hresult := h (fun _ => []) fun _ => false
    simp only [execute_quiet] at hresult
    exact hresult
  · rintro ⟨hsnap, hblocks⟩ read fails
    rw [hsnap]
    exact ⟨rfl, hblocks⟩

end

def putEnv : ContractEnv Nat (Bytes × Bytes) ContractStore Unit where
  blockHash n := BitVec.ofNat 256 n.value
  readBlockFromDisk _ := some []
  processContract tx st := (true, SortedMap.put bytesLt tx.1 tx.2 st.1, st.2)
  emptySnapShot := []

/-- The stores of a node that followed a chain of two blocks, the second with a contract. -/
def usedStores : ContractState ContractStore Unit where
  cache :=
    { blockCache := track putEnv.blockHash (some (.child (.root 0) 1))
      snapShot := [([1], [2])]
      checkPoints := [] }
  side := ()

def staleBlocks : ContractState ContractStore Unit :=
  { usedStores with cache := { usedStores.cache with snapShot := [] } }

theorem rebuild_independent_stale :
    (rebuild ((putEnv.reading fun _ => [([1], [3])]).failing fun _ => false) storeClearing
    (.child (.root 0) 2)
        staleBlocks).2.cache.snapShot = [([1], [3])] ∧
      (rebuild ((putEnv.reading fun _ => [([1], [3])]).failing fun _ => false) storeClearing
      (.child (.root 0) 2)
        staleBlocks).2.cache.blockCache = track putEnv.blockHash (some (.child (.root 0) 2)) :=
  (rebuild_independent_iff putEnv (.child (.root 0) 2) (by decide) staleBlocks
    (track_sorted (by decide))).mpr ⟨rfl, by decide⟩ (fun _ => [([1], [3])]) fun _ => false

/-- After a rebuild for the genesis block alone the old text and the old height are still
there. -/
theorem rebuild_keeps_old_stores :
    (rebuild putEnv storeClearing (.root 0) usedStores).2.cache.snapShot = [([1], [2])] ∧
      (execute putEnv (Node.root 0).branch ([], ())).1 = [] ∧
      (rebuild putEnv storeClearing (.root 0) usedStores).2.cache.blockCache.getHeighestBlock =
      ⟨1, 1⟩ ∧ (track putEnv.blockHash (some (.root 0))).getHeighestBlock = ⟨0, 0⟩ := by
  decide

end OurChain
