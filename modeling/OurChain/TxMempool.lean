import OurChain.Lib.Table
import OurChain.Lib.Worklist
import OurChain.Validation.LockPoints

/-!
# The memory pool

`CTxMemPool` (`txmempool.cpp`): the entries by transaction hash, the links between them
in both directions, and the outpoints that they spend. An iterator is the hash of the
entry it points at, and a set of iterators the list of its elements: where the source goes
through such a set, nothing depends on the order unless it is said.
-/

namespace OurChain

def getTransactionWeight (tx : CTransaction) : Nat :=
  (serializeTransaction false tx).length * (WITNESS_SCALE_FACTOR - 1) +
    (serializeTransaction true tx).length

def getVirtualTransactionSize (nBytesPerSigOp nWeight nSigOpCost : Nat) : Nat :=
  (max nWeight (nSigOpCost * nBytesPerSigOp) + WITNESS_SCALE_FACTOR - 1) / WITNESS_SCALE_FACTOR

/-- The value of an `int64_t` expression: amounts wrap around. -/
def int64 (n : Int) : Int := n.bmod (2 ^ 64)

theorem int64_le {n : Int} (h : -2 ^ 63 ≤ n) : int64 n ≤ n := by
  rw [int64, Int.bmod_def]
  split <;> omega

theorem le_int64 {n : Int} (h : n < 2 ^ 63) : n ≤ int64 n := by
  rw [int64, Int.bmod_def]
  split <;> omega

theorem int64_add (a b : Int) : int64 (int64 a + b) = int64 (a + b) := Int.bmod_add_bmod

theorem int64_sub (a b : Int) : int64 (int64 a - b) = int64 (a - b) := Int.bmod_sub_bmod

theorem foldl_int64 (f : α → Int) (l : List α) (n : Int) :
    l.foldl (fun n a => int64 (n + f a)) (int64 n) = int64 (n + (l.map f).sum) := by
  induction l generalizing n with
  | nil => simp
  | cons a l ih => rw [List.foldl_cons, int64_add, ih, List.map_cons, List.sum_cons, add_assoc]

structure CFeeRate where
  nSatoshisPerK : Int
  deriving DecidableEq

def CFeeRate.ofFee (nFeePaid : Int) (nBytes : Nat) : CFeeRate :=
  ⟨if 0 < nBytes then (int64 (nFeePaid * 1000)).tdiv nBytes else 0⟩

def CFeeRate.getFee (rate : CFeeRate) (nBytes : Nat) : Int :=
  let nFee := (int64 (rate.nSatoshisPerK * nBytes)).tdiv 1000
  if nFee = 0 ∧ nBytes ≠ 0 then
    if rate.nSatoshisPerK < 0 then -1 else if 0 < rate.nSatoshisPerK then 1 else nFee
  else nFee

structure CTxMemPoolEntry where
  tx : CTransaction
  nFee : Int
  nTime : Int
  entryHeight : Nat
  spendsCoinbase : Bool
  sigOpCost : Nat
  feeDelta : Int
  lockPoints : LockPoints
  nCountWithDescendants : Int
  nSizeWithDescendants : Int
  nModFeesWithDescendants : Int
  nCountWithAncestors : Int
  nSizeWithAncestors : Int
  nModFeesWithAncestors : Int
  nSigOpCostWithAncestors : Int
  deriving DecidableEq

/-- The hash function and the `-bytespersigop` option. -/
structure MempoolEnv where
  H : Bytes → Uint256
  nBytesPerSigOp : Nat

namespace CTxMemPoolEntry

variable (env : MempoolEnv) (e : CTxMemPoolEntry)

def getHash : Uint256 := e.tx.getHash env.H

def getTxWeight : Nat := getTransactionWeight e.tx

def getTxSize : Nat := getVirtualTransactionSize env.nBytesPerSigOp e.getTxWeight e.sigOpCost

def getModifiedFee : Int := int64 (e.nFee + e.feeDelta)

def new (tx : CTransaction) (nFee nTime : Int) (entryHeight : Nat) (spendsCoinbase : Bool)
    (sigOpCost : Nat) (lockPoints : LockPoints) : CTxMemPoolEntry where
  tx
  nFee
  nTime
  entryHeight
  spendsCoinbase
  sigOpCost
  feeDelta := 0
  lockPoints
  nCountWithDescendants := 1
  nSizeWithDescendants := getVirtualTransactionSize env.nBytesPerSigOp
    (getTransactionWeight tx) sigOpCost
  nModFeesWithDescendants := nFee
  nCountWithAncestors := 1
  nSizeWithAncestors := getVirtualTransactionSize env.nBytesPerSigOp
    (getTransactionWeight tx) sigOpCost
  nModFeesWithAncestors := nFee
  nSigOpCostWithAncestors := sigOpCost

def updateFeeDelta (newFeeDelta : Int) : CTxMemPoolEntry :=
  { e with
    nModFeesWithDescendants := int64 (e.nModFeesWithDescendants + (newFeeDelta - e.feeDelta))
    nModFeesWithAncestors := int64 (e.nModFeesWithAncestors + (newFeeDelta - e.feeDelta))
    feeDelta := newFeeDelta }

def updateDescendantState (modifySize modifyFee modifyCount : Int) : CTxMemPoolEntry :=
  { e with
    nSizeWithDescendants := e.nSizeWithDescendants + modifySize
    nModFeesWithDescendants := int64 (e.nModFeesWithDescendants + modifyFee)
    nCountWithDescendants := e.nCountWithDescendants + modifyCount }

def updateAncestorState (modifySize modifyFee modifyCount modifySigOps : Int) : CTxMemPoolEntry :=
  { e with
    nSizeWithAncestors := e.nSizeWithAncestors + modifySize
    nModFeesWithAncestors := int64 (e.nModFeesWithAncestors + modifyFee)
    nCountWithAncestors := e.nCountWithAncestors + modifyCount
    nSigOpCostWithAncestors := e.nSigOpCostWithAncestors + modifySigOps }

end CTxMemPoolEntry

structure TxLinks where
  parents : List Uint256
  children : List Uint256
  deriving DecidableEq

/-- An entry without links is one that `mapLinks` does not have. -/
structure CTxMemPool where
  mapTx : List CTxMemPoolEntry
  mapLinks : Uint256 → TxLinks
  mapNextTx : List (COutPoint × CTransaction)
  mapDeltas : Uint256 → Option Int

namespace CTxMemPool

variable (env : MempoolEnv) (pool : CTxMemPool)

def find (hash : Uint256) : Option CTxMemPoolEntry :=
  Table.find (CTxMemPoolEntry.getHash env) pool.mapTx hash

def existsTx (hash : Uint256) : Bool := (pool.find env hash).isSome

def deref (f : CTxMemPoolEntry → Int) (it : Uint256) : Int := ((pool.find env it).map f).getD 0

def modify (it : Uint256) (f : CTxMemPoolEntry → CTxMemPoolEntry) : CTxMemPool :=
  { pool with mapTx := Table.modify (CTxMemPoolEntry.getHash env) it f pool.mapTx }

def getMemPoolParents (entry : Uint256) : List Uint256 := (pool.mapLinks entry).parents

def getMemPoolChildren (entry : Uint256) : List Uint256 := (pool.mapLinks entry).children

def spender (prevout : COutPoint) : Option CTransaction :=
  (Table.find Prod.fst pool.mapNextTx prevout).map Prod.snd

def updateChild (entry child : Uint256) (add : Bool) : CTxMemPool :=
  let links := pool.mapLinks entry
  let children := if add then links.children.insert child else links.children.erase child
  { pool with mapLinks := Function.update pool.mapLinks entry { links with children } }

def updateParent (entry parent : Uint256) (add : Bool) : CTxMemPool :=
  let links := pool.mapLinks entry
  let parents := if add then links.parents.insert parent else links.parents.erase parent
  { pool with mapLinks := Function.update pool.mapLinks entry { links with parents } }

-- Every turn of a walk takes another entry of the pool.
def calculateDescendants (entryit : Uint256) (setDescendants : List Uint256) : List Uint256 :=
  Worklist.walk pool.getMemPoolChildren (fun _ => none) pool.mapTx.length
    (if entryit ∈ setDescendants then [] else [entryit]) setDescendants

structure Limits where
  ancestorCount : Nat
  ancestorSize : Nat
  descendantCount : Nat
  descendantSize : Nat

def noLimits : Limits := ⟨2 ^ 64 - 1, 2 ^ 64 - 1, 2 ^ 64 - 1, 2 ^ 64 - 1⟩

def uint64 (n : Int) : Nat := (n % 2 ^ 64).toNat

def limitText (limit : Nat) : String := " [limit: " ++ toString limit ++ "]"

def stageParents (limits : Limits) (setAncestors : List Uint256) : List Uint256 → List Uint256 →
    Except String (List Uint256)
  | [], parentHashes => .ok parentHashes
  | phash :: parents, parentHashes =>
    let parentHashes := if phash ∈ setAncestors then parentHashes else parentHashes.insert phash
    if limits.ancestorCount < uint64 (parentHashes.length + setAncestors.length + 1) then
      .error ("too many unconfirmed ancestors" ++ limitText limits.ancestorCount)
    else stageParents limits setAncestors parents parentHashes

/-- The loop of `CalculateMemPoolAncestors`, with the error and the set as it is left. -/
def ancestorLoop (limits : Limits) (entrySize : Nat) : Nat → List Uint256 → List Uint256 → Int →
    Option String × List Uint256
  | 0, _, setAncestors, _ => (none, setAncestors)
  | _ + 1, [], setAncestors, _ => (none, setAncestors)
  | fuel + 1, stageit :: parentHashes, setAncestors, totalSizeWithAncestors =>
    let setAncestors := setAncestors.insert stageit
    let totalSizeWithAncestors :=
      totalSizeWithAncestors + pool.deref env (fun e => e.getTxSize env) stageit
    if limits.descendantSize <
        uint64 (pool.deref env (·.nSizeWithDescendants) stageit + entrySize) then
      (some ("exceeds descendant size limit for tx " ++ stageit.toHex ++
        limitText limits.descendantSize), setAncestors)
    else if limits.descendantCount <
        uint64 (pool.deref env (·.nCountWithDescendants) stageit + 1) then
      (some ("too many descendants for tx " ++ stageit.toHex ++ limitText limits.descendantCount),
        setAncestors)
    else if limits.ancestorSize < uint64 totalSizeWithAncestors then
      (some ("exceeds ancestor size limit" ++ limitText limits.ancestorSize), setAncestors)
    else match stageParents limits setAncestors (pool.getMemPoolParents stageit) parentHashes with
      | .error errString => (some errString, setAncestors)
      | .ok parentHashes =>
        ancestorLoop limits entrySize fuel parentHashes setAncestors totalSizeWithAncestors

/-- The parents in the pool, by the inputs of a transaction that need not be in it. -/
def searchParents (limits : Limits) : List CTxIn → List Uint256 → Except String (List Uint256)
  | [], parentHashes => .ok parentHashes
  | txin :: vin, parentHashes =>
    if pool.existsTx env txin.prevout.hash then
      let parentHashes := parentHashes.insert txin.prevout.hash
      if limits.ancestorCount < uint64 (parentHashes.length + 1) then
        .error ("too many unconfirmed parents" ++ limitText limits.ancestorCount)
      else searchParents limits vin parentHashes
    else searchParents limits vin parentHashes

def calculateMemPoolAncestors (entry : CTxMemPoolEntry) (limits : Limits) (fSearchForParents : Bool) :
    Option String × List Uint256 :=
  let parentHashes :=
    if fSearchForParents then pool.searchParents env limits entry.tx.vin []
    else .ok (pool.getMemPoolParents (entry.getHash env))
  match parentHashes with
  | .error errString => (some errString, [])
  | .ok parentHashes =>
    pool.ancestorLoop env limits (entry.getTxSize env) pool.mapTx.length parentHashes []
      (entry.getTxSize env)

def updateAncestorsOf (add : Bool) (it : Uint256) (setAncestors : List Uint256) : CTxMemPool :=
  let linked := (pool.getMemPoolParents it).foldl (fun pool piter =>
    pool.updateChild piter it add) pool
  let updateCount : Int := if add then 1 else -1
  let updateSize := updateCount * pool.deref env (fun e => e.getTxSize env) it
  let updateFee := int64 (updateCount * pool.deref env (·.getModifiedFee) it)
  setAncestors.foldl (fun pool ancestorIt =>
    pool.modify env ancestorIt (·.updateDescendantState updateSize updateFee updateCount)) linked

def updateEntryForAncestors (it : Uint256) (setAncestors : List Uint256) : CTxMemPool :=
  let updateCount : Int := setAncestors.length
  let updateSize := (setAncestors.map (pool.deref env fun e => e.getTxSize env)).sum
  let updateFee := int64 (setAncestors.map (pool.deref env (·.getModifiedFee))).sum
  let updateSigOpsCost := (setAncestors.map (pool.deref env fun e => e.sigOpCost)).sum
  pool.modify env it (·.updateAncestorState updateSize updateFee updateCount updateSigOpsCost)

def updateChildrenForRemoval (it : Uint256) : CTxMemPool :=
  (pool.getMemPoolChildren it).foldl (fun pool updateIt => pool.updateParent updateIt it false) pool

/-- The descendants of an entry that leaves without them lose it as an ancestor. -/
def updateDescendantsForRemoval (removeIt : Uint256) : CTxMemPool :=
  let setDescendants := (pool.calculateDescendants removeIt []).erase removeIt
  let modifySize := -pool.deref env (fun e => e.getTxSize env) removeIt
  let modifyFee := int64 (-pool.deref env (·.getModifiedFee) removeIt)
  let modifySigOps := -pool.deref env (fun e => e.sigOpCost) removeIt
  setDescendants.foldl (fun pool dit =>
    pool.modify env dit (·.updateAncestorState modifySize modifyFee (-1) modifySigOps)) pool

/-- Its ancestors lose an entry that is removed as a descendant. -/
def updateAncestorsForRemoval (removeIt : Uint256) : CTxMemPool :=
  match pool.find env removeIt with
  | none => pool
  | some entry =>
    pool.updateAncestorsOf env false removeIt
      (pool.calculateMemPoolAncestors env entry noLimits false).2

def updateForRemoveFromMempool (entriesToRemove : List Uint256) (updateDescendants : Bool) :
    CTxMemPool :=
  let pool := if updateDescendants then
      entriesToRemove.foldl (fun pool removeIt => pool.updateDescendantsForRemoval env removeIt) pool
    else pool
  let pool := entriesToRemove.foldl (fun pool removeIt =>
    pool.updateAncestorsForRemoval env removeIt) pool
  entriesToRemove.foldl (fun pool removeIt => pool.updateChildrenForRemoval removeIt) pool

def removeUnchecked (it : Uint256) : CTxMemPool :=
  let vin := ((pool.find env it).map (·.tx.vin)).getD []
  { pool with
    mapNextTx := vin.foldl (fun mapNextTx (txin : CTxIn) =>
      Table.erase Prod.fst txin.prevout mapNextTx) pool.mapNextTx
    mapLinks := Function.update pool.mapLinks it ⟨[], []⟩
    mapTx := Table.erase (CTxMemPoolEntry.getHash env) it pool.mapTx }

def removeStaged (stage : List Uint256) (updateDescendants : Bool) : CTxMemPool :=
  stage.foldl (fun pool it => pool.removeUnchecked env it)
    (pool.updateForRemoveFromMempool env stage updateDescendants)

def addUnchecked (hash : Uint256) (entry : CTxMemPoolEntry) (setAncestors : List Uint256) :
    CTxMemPool :=
  let pool := { pool with mapTx := Table.add (CTxMemPoolEntry.getHash env) entry pool.mapTx }
  let pool := match pool.mapDeltas hash with
    | some delta => if delta ≠ 0 then pool.modify env hash (·.updateFeeDelta delta) else pool
    | none => pool
  let pool := { pool with
    mapNextTx := entry.tx.vin.foldl (fun mapNextTx (txin : CTxIn) => Table.add Prod.fst (txin.prevout,
      entry.tx) mapNextTx) pool.mapNextTx }
  let setParentTransactions := (entry.tx.vin.map (·.prevout.hash)).dedup
  let pool := setParentTransactions.foldl (fun pool phash =>
    if pool.existsTx env phash then pool.updateParent hash phash true else pool) pool
  let pool := pool.updateAncestorsOf env true hash setAncestors
  pool.updateEntryForAncestors env hash setAncestors

def withDescendants (entries : List Uint256) : List Uint256 :=
  entries.foldl (fun stage it => pool.calculateDescendants it stage) []

def expire (time : Int) : CTxMemPool :=
  let toremove := (pool.mapTx.filter fun e => e.nTime < time).map (·.getHash env)
  pool.removeStaged env (pool.withDescendants toremove) false

/-- Removes the first package of the `descendant_score` index, which is compared by products of
doubles, until the memory in use is within the limit. -/
def trimToSize (first : CTxMemPool → Option Uint256) (dynamicMemoryUsage : CTxMemPool → Nat)
    (sizelimit : Nat) :
    Nat → CTxMemPool → CTxMemPool
  | 0, pool => pool
  | fuel + 1, pool =>
    if dynamicMemoryUsage pool ≤ sizelimit then pool
    else match first pool with
      | none => pool
      | some it =>
        trimToSize first dynamicMemoryUsage sizelimit fuel
          (pool.removeStaged env (pool.calculateDescendants it []) false)

def applyDelta (hash : Uint256) (nFeeDelta : Int) :
    Int := int64 (nFeeDelta + (pool.mapDeltas hash).getD 0)

end CTxMemPool

end OurChain
