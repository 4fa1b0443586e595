import OurChain.TxMempool.Links

/-!
# What an entry is apart from its sums

Most updates of the pool change only the links and the sums over ancestors and descendants.
They leave the rest of the pool, its `frame`, as it is.
-/

namespace OurChain

def CTxMemPoolEntry.core (e : CTxMemPoolEntry) : CTxMemPoolEntry :=
  { e with
    nCountWithDescendants := 0
    nSizeWithDescendants := 0
    nModFeesWithDescendants := 0
    nCountWithAncestors := 0
    nSizeWithAncestors := 0
    nModFeesWithAncestors := 0
    nSigOpCostWithAncestors := 0 }

namespace CTxMemPool

variable {env : MempoolEnv} {pool : CTxMemPool}

def cores (pool : CTxMemPool) : List CTxMemPoolEntry := pool.mapTx.map CTxMemPoolEntry.core

def frame (pool : CTxMemPool) : List CTxMemPoolEntry × List (COutPoint × CTransaction) ×
    (Uint256 → Option Int) :=
  (pool.cores, pool.mapNextTx, pool.mapDeltas)

variable {pool' : CTxMemPool}

theorem cores_of_frame (h : pool'.frame = pool.frame) : pool'.cores = pool.cores :=
  congrArg Prod.fst h

theorem mapDeltas_of_frame (h : pool'.frame = pool.frame) : pool'.mapDeltas = pool.mapDeltas :=
  congrArg (fun frame => frame.2.2) h

theorem keys_eq_cores (env : MempoolEnv) (pool : CTxMemPool) :
    pool.keys env = pool.cores.map (·.getHash env) := by
  rw [keys, cores, List.map_map]
  rfl

theorem frame_foldl {step : CTxMemPool → Uint256 → CTxMemPool}
    (hstep : ∀ pool x, (step pool x).frame = pool.frame) (xs : List Uint256) (pool : CTxMemPool) :
    (xs.foldl step pool).frame = pool.frame := by
  induction xs generalizing pool with
  | nil => rfl
  | cons x xs ih => rw [List.foldl_cons, ih, hstep]

variable {f : CTxMemPoolEntry → CTxMemPoolEntry}

theorem cores_modify (hf : ∀ e, (f e).core = e.core) (it : Uint256) :
    (pool.modify env it f).cores = pool.cores := by
  rw [cores, modify, Table.modify, List.map_map]
  apply List.map_congr_left
  intro e _
  simp only [Function.comp]
  split
  · exact hf e
  · rfl

theorem frame_modify (hf : ∀ e, (f e).core = e.core) (it : Uint256) :
    (pool.modify env it f).frame = pool.frame := by
  rw [frame, cores_modify hf]
  rfl

variable (removeIt : Uint256) (add : Bool) (entry : CTxMemPoolEntry) (stage : List Uint256)
  (updateDescendants : Bool) (it : Uint256) (setAncestors : List Uint256)

theorem frame_updateDescendantState (modifySize modifyFee modifyCount : Int) :
    (pool.modify env it (·.updateDescendantState modifySize modifyFee modifyCount)).frame =
    pool.frame :=
  frame_modify (f := (·.updateDescendantState _ _ _)) (fun _ => rfl) it

theorem frame_updateAncestorState (modifySize modifyFee modifyCount modifySigOps : Int) :
    (pool.modify env it (·.updateAncestorState modifySize modifyFee modifyCount modifySigOps)).frame =
    pool.frame :=
  frame_modify (f := (·.updateAncestorState _ _ _ _)) (fun _ => rfl) it

theorem frame_updateChild (entry child : Uint256) (add : Bool) :
    (pool.updateChild entry child add).frame = pool.frame := rfl

theorem frame_updateParent (entry parent : Uint256) (add : Bool) :
    (pool.updateParent entry parent add).frame = pool.frame := rfl

theorem frame_updateAncestorsOf :
    (pool.updateAncestorsOf env add it setAncestors).frame = pool.frame := by
  rw [updateAncestorsOf, frame_foldl fun pool x => by rw [frame_updateDescendantState],
    frame_foldl fun pool x => by rw [frame_updateChild]]

theorem frame_updateEntryForAncestors :
    (pool.updateEntryForAncestors env it setAncestors).frame = pool.frame := by
  rw [updateEntryForAncestors, frame_updateAncestorState]

theorem frame_updateDescendantsForRemoval :
    (pool.updateDescendantsForRemoval env removeIt).frame = pool.frame := by
  rw [updateDescendantsForRemoval, frame_foldl fun pool x => by rw [frame_updateAncestorState]]

theorem frame_updateAncestorsForRemoval :
    (pool.updateAncestorsForRemoval env removeIt).frame = pool.frame := by
  unfold updateAncestorsForRemoval
  split
  · rfl
  · exact frame_updateAncestorsOf false removeIt _

theorem frame_updateChildrenForRemoval : (pool.updateChildrenForRemoval it).frame = pool.frame := by
  rw [updateChildrenForRemoval, frame_foldl fun pool x => by rw [frame_updateParent]]

theorem frame_updateForRemoveFromMempool (entriesToRemove : List Uint256) (updateDescendants : Bool) :
    (pool.updateForRemoveFromMempool env entriesToRemove updateDescendants).frame = pool.frame := by
  rw [updateForRemoveFromMempool, frame_foldl fun pool x => frame_updateChildrenForRemoval x,
    frame_foldl fun pool x => frame_updateAncestorsForRemoval x]
  split
  · exact frame_foldl (fun pool x => frame_updateDescendantsForRemoval x) _ _
  · rfl

theorem cores_removeUnchecked :
    (pool.removeUnchecked env it).cores = pool.cores.filter fun e => e.getHash env ≠ it := by
  rw [cores, removeUnchecked, Table.erase, cores, List.filter_map]
  rfl

theorem cores_removeStaged :
    (pool.removeStaged env stage updateDescendants).cores = pool.cores.filter fun e =>
    e.getHash env ∉ stage := by
  have hloop : ∀ (stage : List Uint256) (pool : CTxMemPool),
      (stage.foldl (fun pool it => pool.removeUnchecked env it) pool).cores =
        pool.cores.filter fun e => e.getHash env ∉ stage := by
    intro stage
    induction stage with
    | nil => simp
    | cons it stage ih =>
      intro pool
      rw [List.foldl_cons, ih, cores_removeUnchecked, List.filter_filter]
      simp only [List.mem_cons, not_or, Bool.decide_and, Bool.and_comm]
  rw [removeStaged, hloop, cores_of_frame (frame_updateForRemoveFromMempool stage updateDescendants)]

theorem mapDeltas_removeStaged :
    (pool.removeStaged env stage updateDescendants).mapDeltas = pool.mapDeltas := by
  have hloop : ∀ (stage : List Uint256) (pool : CTxMemPool),
      (stage.foldl (fun pool it => pool.removeUnchecked env it) pool).mapDeltas = pool.mapDeltas := by
    intro stage
    induction stage with
    | nil => exact fun _ => rfl
    | cons it stage ih => exact fun pool => ih (pool.removeUnchecked env it)
  rw [removeStaged, hloop, mapDeltas_of_frame
    (frame_updateForRemoveFromMempool stage updateDescendants)]

theorem mem_keys_removeStaged :
    x ∈ (pool.removeStaged env stage updateDescendants).keys env ↔ x ∈ pool.keys env ∧ x ∉ stage := by
  rw [keys_eq_cores, cores_removeStaged, keys_eq_cores]
  simp only [List.mem_map, List.mem_filter, decide_eq_true_eq]
  constructor
  · rintro ⟨e, ⟨he, hstage⟩, rfl⟩
    exact ⟨⟨e, he, rfl⟩, hstage⟩
  · rintro ⟨⟨e, he, rfl⟩, hstage⟩
    exact ⟨e, ⟨he, hstage⟩, rfl⟩

theorem exists_cores_addUnchecked (hnew : entry.getHash env ∉ pool.keys env) : ∃ feeDelta,
    (pool.addUnchecked env (entry.getHash env) entry setAncestors).cores =
    pool.cores ++ [{ entry.core with feeDelta }] ∧
      (entry.feeDelta = 0 → feeDelta = (pool.mapDeltas (entry.getHash env)).getD 0) := by
  have hadd : Table.add (CTxMemPoolEntry.getHash env) entry pool.mapTx = pool.mapTx ++ [entry] := by
    rw [Table.add, if_neg]
    rwa [← find, ← existsTx, existsTx_iff]
  have hold : ∀ delta, pool.mapTx.map (fun e =>
    (if e.getHash env = entry.getHash env then e.updateFeeDelta delta
      else e).core) = pool.cores := by
    intro delta
    apply List.map_congr_left
    intro e he
    have hne : e.getHash env ≠ entry.getHash env := by
      rintro heq
      exact hnew (heq ▸ List.mem_map_of_mem he)
    rw [if_neg hne]
  have hloop : ∀ (pool : CTxMemPool) (x : Uint256),
    (if pool.existsTx env x then pool.updateParent (entry.getHash env) x true
      else pool).frame = pool.frame := by
    intro pool x
    split
    · rfl
    · rfl
  rw [addUnchecked, cores_of_frame (frame_updateEntryForAncestors _ _),
    cores_of_frame (frame_updateAncestorsOf _ _ _), cores_of_frame (frame_foldl hloop _ _)]
  simp only [hadd]
  cases hdeltas : pool.mapDeltas (entry.getHash env) with
  | none => exact ⟨entry.feeDelta, by simp [cores, CTxMemPoolEntry.core], id⟩
  | some delta =>
    by_cases hzero : delta = 0
    · exact ⟨entry.feeDelta, by simp [cores, hzero, CTxMemPoolEntry.core],
        fun h => h.trans hzero.symm⟩
    · refine ⟨delta, ?_, fun _ => rfl⟩
      simp only [cores, ne_eq, hzero, not_false_eq_true, if_true, modify, Table.modify,
        List.map_append, List.map_map, Function.comp_def, List.map_cons, List.map_nil]
      rw [hold]
      rfl

theorem cores_addUnchecked
    (hnew : entry.getHash env ∉ pool.keys env) (hdelta : entry.feeDelta = 0) :
    (pool.addUnchecked env (entry.getHash env) entry setAncestors).cores =
      pool.cores ++
        [{ entry.core with feeDelta := (pool.mapDeltas (entry.getHash env)).getD 0 }] := by
  obtain ⟨feeDelta, hcores, hfee⟩ := exists_cores_addUnchecked entry setAncestors hnew
  rw [hcores, hfee hdelta]

end CTxMemPool

end OurChain
