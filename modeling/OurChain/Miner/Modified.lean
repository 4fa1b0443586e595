import OurChain.Lib.Ancestry
import OurChain.Miner
import OurChain.TxMempool.Links

/-!
# The modified set after a package is added

`UpdatePackagesForAdded` visits each descendant once for each of its ancestors in the package. What
it leaves for one descendant is a walk over these ancestors, in the order of their hashes.
-/

namespace OurChain

open List Option Relation

namespace BlockAssembler

section
variable (env : AssemblerEnv) (pool : CTxMemPool)

abbrev keys : List Uint256 := pool.keys env.toMempoolEnv

abbrev Spends : Uint256 → Uint256 → Prop := pool.Parent env.toMempoolEnv

abbrev Above : Uint256 → Uint256 → Prop := ReflTransGen (Spends env pool)

abbrev iters (s : ModifiedSet) : List Uint256 := s.map CTxMemPoolModifiedEntry.iter

abbrev modified (s : ModifiedSet) (d : Uint256) : Option CTxMemPoolModifiedEntry :=
  Table.find CTxMemPoolModifiedEntry.iter s d

def visit (d : Uint256) (m : Option CTxMemPoolModifiedEntry)
    (it : Uint256) : Option CTxMemPoolModifiedEntry :=
  some (match m with
    | none => newModified env pool it d
    | some m => updateForParentInclusion env pool it m)

abbrev txSize (a : Uint256) : Int :=
  pool.deref env.toMempoolEnv (fun e => e.getTxSize env.toMempoolEnv) a

abbrev modFee (a : Uint256) : Int :=
  pool.deref env.toMempoolEnv (·.getModifiedFee) a

abbrev sigOps (a : Uint256) : Int :=
  pool.deref env.toMempoolEnv (fun e => e.sigOpCost) a

abbrev feeDelta (a : Uint256) : Int :=
  pool.deref env.toMempoolEnv (·.feeDelta) a

def baseEntry (d : Uint256) (m : Option CTxMemPoolModifiedEntry) :
    CTxMemPoolModifiedEntry := m.getD (modifiedEntry env pool d)

end

variable {env : AssemblerEnv} {pool : CTxMemPool}

theorem iter_updateForParentInclusion (it : Uint256) (m : CTxMemPoolModifiedEntry) :
    (updateForParentInclusion env pool it m).iter = m.iter := rfl

theorem find_updateDescendant (P : List Uint256) (it desc d : Uint256) (map : ModifiedSet × Nat) :
    modified (updateDescendant env pool P it map desc).1 d =
      if d = desc ∧ d ∉ P then visit env pool d (modified map.1 d) it else modified map.1 d := by
  unfold updateDescendant
  by_cases hP : desc ∈ P
  · rw [if_pos hP, if_neg]
    rintro ⟨rfl, hd⟩
    exact hd hP
  · rw [if_neg hP]
    cases hfind : Table.find CTxMemPoolModifiedEntry.iter map.1 desc with
    | none =>
      have hkey : (newModified env pool it desc).iter = desc := rfl
      rw [modified, Table.find_add, hkey]
      by_cases hd : d = desc
      · subst hd
        rw [if_pos ⟨rfl, hfind⟩, if_pos ⟨rfl, hP⟩, modified, hfind, visit]
      · rw [if_neg (fun h => hd h.1), if_neg (fun h => hd h.1)]
    | some m =>
      rw [modified, Table.find_modify (iter_updateForParentInclusion it)]
      by_cases hd : d = desc
      · subst hd
        rw [if_pos rfl, if_pos ⟨rfl, hP⟩, modified, hfind, visit, map_some]
      · rw [if_neg hd, if_neg (fun h => hd h.1)]

theorem nodup_updateDescendant (P : List Uint256) (it desc : Uint256) {map : ModifiedSet × Nat}
    (h : (iters map.1).Nodup) :
    (iters (updateDescendant env pool P it map desc).1).Nodup := by
  unfold updateDescendant
  split
  · exact h
  · split
    · exact Table.nodup_add _ h
    · rw [iters, Table.map_key_modify (iter_updateForParentInclusion it)]
      exact h

theorem nodup_foldl_updateDescendant (P : List Uint256) (it : Uint256) (ds : List Uint256)
    {map : ModifiedSet × Nat} (h : (iters map.1).Nodup) :
    (iters (ds.foldl (updateDescendant env pool P it) map).1).Nodup := by
  induction ds generalizing map with
  | nil => exact h
  | cons d ds ih => exact ih (nodup_updateDescendant P it d h)

theorem find_foldl_updateDescendant (P : List Uint256) (it d : Uint256) {ds : List Uint256}
    (hds : ds.Nodup) (map : ModifiedSet × Nat) :
    modified (ds.foldl (updateDescendant env pool P it) map).1 d =
      if d ∈ ds ∧ d ∉ P then visit env pool d (modified map.1 d) it else modified map.1 d := by
  induction ds generalizing map with
  | nil => simp
  | cons desc ds ih =>
    obtain ⟨hdesc, hds⟩ := nodup_cons.mp hds
    rw [foldl_cons, ih hds, find_updateDescendant]
    by_cases hd : d = desc
    · subst hd
      simp [hdesc]
    · simp [hd]

/-- The ancestors of `d` among `P`, in the order in which they are visited. -/
def visits (pool : CTxMemPool) (P : List Uint256) (d : Uint256) : List Uint256 :=
  (inHashOrder P).filter fun it => d ∈ pool.calculateDescendants it []

theorem find_updatePackagesForAdded (P : List Uint256) (map : ModifiedSet) (d : Uint256) :
    modified (updatePackagesForAdded env pool P map).1 d =
      if d ∈ P then modified map d else (visits pool P d).foldl (visit env pool d)
      (modified map d) := by
  rw [updatePackagesForAdded, visits]
  suffices hloop : ∀ (its : List Uint256) (map : ModifiedSet × Nat),
      modified (its.foldl (fun map it =>
        (pool.calculateDescendants it []).foldl (updateDescendant env pool P it) map) map).1 d =
      if d ∈ P then modified map.1 d
      else (its.filter fun it => d ∈ pool.calculateDescendants it []).foldl (visit env pool d)
        (modified map.1 d) from
    hloop _ _
  intro its
  induction its with
  | nil => simp
  | cons it its ih =>
    intro map
    rw [foldl_cons, ih, find_foldl_updateDescendant P it d
      (CTxMemPool.nodup_calculateDescendants nodup_nil)]
    by_cases hP : d ∈ P
    · simp [hP]
    · by_cases hd : d ∈ pool.calculateDescendants it []
      · simp [hP, hd]
      · simp [hP, hd]

theorem nodup_updatePackagesForAdded (P : List Uint256) {map : ModifiedSet}
    (h : (iters map).Nodup) :
    (iters (updatePackagesForAdded env pool P map).1).Nodup := by
  rw [updatePackagesForAdded]
  suffices hloop : ∀ (its : List Uint256) (map : ModifiedSet × Nat), (iters map.1).Nodup →
      (iters (its.foldl (fun map it =>
        (pool.calculateDescendants it []).foldl (updateDescendant env pool P it) map) map).1).Nodup
          from hloop _ _ h
  intro its
  induction its with
  | nil => exact fun _ h => h
  | cons it its ih => exact fun map h => ih _ (nodup_foldl_updateDescendant P it _ h)

theorem perm_inHashOrder (P : List Uint256) : (inHashOrder P).Perm P := perm_insertionSort _ P

theorem mem_visits (hlinks : pool.LinksOk env.toMempoolEnv) {P : List Uint256}
    (hP : ∀ a ∈ P, a ∈ keys env pool) :
    it ∈ visits pool P d ↔ it ∈ P ∧ Above env pool d it := by
  rw [visits, mem_filter, (perm_inHashOrder P).mem_iff, decide_eq_true_eq]
  refine and_congr_right fun hit => ?_
  rw [CTxMemPool.mem_calculateDescendants hlinks (hP it hit) CTxMemPool.downClosed_nil,
    or_iff_right not_mem_nil, reflTransGen_swap]

theorem int64_sub_nFee (n : Int) (a : Uint256) :
    int64 (n - pool.deref env.toMempoolEnv (·.nFee) a) =
    int64 (n + feeDelta env pool a - modFee env pool a) := by
  unfold modFee feeDelta CTxMemPool.deref
  cases pool.find env.toMempoolEnv a with
  | none => simp
  | some e =>
    simp only [map_some, getD_some, CTxMemPoolEntry.getModifiedFee, int64, Int.sub_bmod_bmod]
    congr 1
    ring

/-- The visits that take off the fee without its delta: all of them, but the one that makes the
entry. -/
def unadjusted (m : Option CTxMemPoolModifiedEntry) (its : List Uint256) : List Uint256 :=
  if m.isSome then its else its.tail

theorem foldl_visit_some (d iter : Uint256) (its : List Uint256) (size fees cost : Int) :
    its.foldl (visit env pool d) (some ⟨iter, size, int64 fees, cost⟩) = some
      ⟨iter, size - (its.map (txSize env pool)).sum,
        int64 (fees + (its.map (feeDelta env pool)).sum - (its.map (modFee env pool)).sum),
        cost - (its.map (sigOps env pool)).sum⟩ := by
  induction its generalizing size fees cost with
  | nil => simp
  | cons it its ih =>
    rw [foldl_cons, visit]
    simp only [updateForParentInclusion, int64_sub_nFee]
    rw [ih, add_sub_assoc, add_sub_assoc, add_assoc, int64_add]
    simp only [map_cons, sum_cons, some.injEq, CTxMemPoolModifiedEntry.mk.injEq, true_and]
    exact ⟨by ring, congrArg int64 (by ring), by ring⟩

theorem foldl_visit (d : Uint256) {its : List Uint256} (m : Option CTxMemPoolModifiedEntry)
    (hits : its ≠ []) :
    its.foldl (visit env pool d) m = some
      { baseEntry env pool d m with
        nSizeWithAncestors := (baseEntry env pool d m).nSizeWithAncestors -
          (its.map (txSize env pool)).sum
        nModFeesWithAncestors := int64 ((baseEntry env pool d m).nModFeesWithAncestors +
          ((unadjusted m its).map (feeDelta env pool)).sum - (its.map (modFee env pool)).sum)
        nSigOpCostWithAncestors := (baseEntry env pool d m).nSigOpCostWithAncestors -
          (its.map (sigOps env pool)).sum } := by
  cases its with
  | nil => exact absurd rfl hits
  | cons it its =>
    cases m with
    | some m =>
      rw [foldl_cons, visit]
      simp only [updateForParentInclusion, int64_sub_nFee]
      rw [foldl_visit_some]
      simp only [baseEntry, unadjusted, getD_some, isSome_some, if_true, map_cons, sum_cons,
        some.injEq, CTxMemPoolModifiedEntry.mk.injEq, true_and]
      exact ⟨by ring, congrArg int64 (by ring), by ring⟩
    | none =>
      rw [foldl_cons, visit]
      simp only [newModified]
      rw [foldl_visit_some]
      simp only [baseEntry, unadjusted, getD_none, isSome_none, Bool.false_eq_true, if_false,
        tail_cons, map_cons, sum_cons, some.injEq, CTxMemPoolModifiedEntry.mk.injEq, true_and]
      exact ⟨by ring, congrArg int64 (by ring), by ring⟩

end BlockAssembler

end OurChain
