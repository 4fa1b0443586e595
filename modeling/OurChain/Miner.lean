import OurChain.TxMempool
import OurChain.Validation.CheckBlock

/-!
# Block assembly

`BlockAssembler::addPackageTxs` (`miner.cpp`): the transactions of a block are taken from the
pool in packages, a transaction with its ancestors that are not in the block yet, by the
fee rate of the package. The entries whose ancestors are partly in the block have their
sums in `mapModifiedTx`.
-/

namespace OurChain

def MAX_CONSECUTIVE_FAILURES : Nat := 1000

structure CTxMemPoolModifiedEntry where
  iter : Uint256
  nSizeWithAncestors : Int
  nModFeesWithAncestors : Int
  nSigOpCostWithAncestors : Int
  deriving DecidableEq

abbrev ModifiedSet := List CTxMemPoolModifiedEntry

/-- The `ancestor_score` index of a modified set. It is ordered by products of doubles, which are
whole numbers but rounded, so all that is known is that it begins with one of its entries. -/
structure AncestorScore where
  product : Int → Int → Int
  begin : ModifiedSet → Option CTxMemPoolModifiedEntry
  begin_nil : begin [] = none
  begin_mem : ∀ s, s ≠ [] → ∃ m ∈ s, begin s = some m

/-- The options of the node and the block that is to be built. -/
structure AssemblerEnv extends MempoolEnv where
  optionMaxWeight : Nat
  optionMaxSize : Nat
  blockMinFeeRate : CFeeRate
  nHeight : Int
  nLockTimeCutoff : Int
  fIncludeWitness : Bool
  score : AncestorScore

/-- The variables of `BlockAssembler` and of `addPackageTxs`. What comes from the pool stands in
the order in which it was added. -/
structure PackageState where
  inBlock : List Uint256
  vtx : List CTransaction
  vTxFees : List Int
  vTxSigOpsCost : List Nat
  nBlockSize : Nat
  nBlockWeight : Nat
  nBlockSigOpsCost : Nat
  nBlockTx : Nat
  nFees : Int
  mi : List Uint256
  mapModifiedTx : ModifiedSet
  failedTx : List Uint256
  nConsecutiveFailed : Nat
  nPackagesSelected : Nat
  nDescendantsUpdated : Nat
  done : Bool
  deriving DecidableEq

/-- `CompareIteratorByHash`: the bytes of the hashes are compared. -/
def compareIteratorByHash (a b : Uint256) : Bool := leBytes 32 a.toNat < leBytes 32 b.toNat

def inHashOrder (s : List Uint256) : List Uint256 :=
  s.insertionSort fun a b => !compareIteratorByHash b a

namespace BlockAssembler

variable (env : AssemblerEnv) (pool : CTxMemPool)

def nBlockMaxWeight : Nat := max 4000 (min (MAX_BLOCK_WEIGHT - 4000) env.optionMaxWeight)

def nBlockMaxSize : Nat := max 1000 (min (MAX_BLOCK_SERIALIZED_SIZE - 1000) env.optionMaxSize)

def fNeedSizeAccounting : Bool := nBlockMaxSize env < MAX_BLOCK_SERIALIZED_SIZE - 1000

/-- The constructor of a modified entry: the sums of the pool. -/
def modifiedEntry (entry : Uint256) : CTxMemPoolModifiedEntry where
  iter := entry
  nSizeWithAncestors := pool.deref env.toMempoolEnv (·.nSizeWithAncestors) entry
  nModFeesWithAncestors := pool.deref env.toMempoolEnv (·.nModFeesWithAncestors) entry
  nSigOpCostWithAncestors := pool.deref env.toMempoolEnv (·.nSigOpCostWithAncestors) entry

def compareModifiedEntry (a b : CTxMemPoolModifiedEntry) : Bool :=
  let f1 := env.score.product a.nModFeesWithAncestors b.nSizeWithAncestors
  let f2 := env.score.product b.nModFeesWithAncestors a.nSizeWithAncestors
  if f1 = f2 then compareIteratorByHash a.iter b.iter else f2 < f1

def updateForParentInclusion (iter : Uint256) (e : CTxMemPoolModifiedEntry) :
    CTxMemPoolModifiedEntry :=
  { e with
    nModFeesWithAncestors := int64 (e.nModFeesWithAncestors - pool.deref env.toMempoolEnv
      (·.nFee) iter)
    nSizeWithAncestors := e.nSizeWithAncestors - pool.deref env.toMempoolEnv (fun e =>
      e.getTxSize env.toMempoolEnv) iter
    nSigOpCostWithAncestors := e.nSigOpCostWithAncestors - pool.deref env.toMempoolEnv (fun e =>
      e.sigOpCost) iter }

def newModified (it desc : Uint256) : CTxMemPoolModifiedEntry :=
  let modEntry := modifiedEntry env pool desc
  { modEntry with
    nSizeWithAncestors := modEntry.nSizeWithAncestors -
      pool.deref env.toMempoolEnv (fun e => e.getTxSize env.toMempoolEnv) it
    nModFeesWithAncestors := int64 (modEntry.nModFeesWithAncestors - pool.deref env.toMempoolEnv
      (·.getModifiedFee) it)
    nSigOpCostWithAncestors := modEntry.nSigOpCostWithAncestors - pool.deref env.toMempoolEnv
      (fun e => e.sigOpCost) it }

def updateDescendant (alreadyAdded : List Uint256) (it : Uint256) (map : ModifiedSet × Nat)
    (desc : Uint256) :
    ModifiedSet × Nat :=
  if desc ∈ alreadyAdded then map
  else
    let mapModifiedTx := match Table.find CTxMemPoolModifiedEntry.iter map.1 desc with
      | none => Table.add CTxMemPoolModifiedEntry.iter (newModified env pool it desc) map.1
      | some _ =>
        Table.modify CTxMemPoolModifiedEntry.iter desc (updateForParentInclusion env pool it) map.1
    (mapModifiedTx, map.2 + 1)

def updatePackagesForAdded (alreadyAdded : List Uint256) (mapModifiedTx : ModifiedSet) :
    ModifiedSet × Nat :=
  (inHashOrder alreadyAdded).foldl (fun map it =>
    (pool.calculateDescendants it []).foldl (updateDescendant env pool alreadyAdded it) map)
      (mapModifiedTx, 0)

def skipMapTxEntry (s : PackageState) (it : Uint256) : Bool :=
  (Table.find CTxMemPoolModifiedEntry.iter s.mapModifiedTx it).isSome || it ∈ s.inBlock ||
    it ∈ s.failedTx

def testPackage (s : PackageState) (packageSize packageSigOpsCost : Int) : Bool :=
  s.nBlockWeight + WITNESS_SCALE_FACTOR * packageSize < nBlockMaxWeight env &&
    s.nBlockSigOpsCost + packageSigOpsCost < MAX_BLOCK_SIGOPS_COST

def testTransactions : Nat → List CTxMemPoolEntry → Bool
  | _, [] => true
  | nPotentialBlockSize, e :: package =>
    let nTxSize := (serializeTransaction true e.tx).length
    if !isFinalTx e.tx env.nHeight env.nLockTimeCutoff then false
    else if !env.fIncludeWitness && e.tx.hasWitness then false
    else if fNeedSizeAccounting env then
      if nPotentialBlockSize + nTxSize ≥ nBlockMaxSize env then false
      else testTransactions (nPotentialBlockSize + nTxSize) package
    else testTransactions nPotentialBlockSize package

def testPackageTransactions (s : PackageState) (package : List Uint256) : Bool :=
  testTransactions env s.nBlockSize ((inHashOrder package).filterMap (pool.find env.toMempoolEnv))

def addToBlock (s : PackageState) (iter : Uint256) : PackageState :=
  match pool.find env.toMempoolEnv iter with
  | none => s
  | some e =>
    { s with
      vtx := s.vtx ++ [e.tx]
      vTxFees := s.vTxFees ++ [e.nFee]
      vTxSigOpsCost := s.vTxSigOpsCost ++ [e.sigOpCost]
      nBlockSize :=
        if fNeedSizeAccounting env then s.nBlockSize + (serializeTransaction true e.tx).length
        else s.nBlockSize
      nBlockWeight := s.nBlockWeight + e.getTxWeight
      nBlockTx := s.nBlockTx + 1
      nBlockSigOpsCost := s.nBlockSigOpsCost + e.sigOpCost
      nFees := int64 (s.nFees + e.nFee)
      inBlock := s.inBlock ++ [iter] }

def compareTxIterByAncestorCount (a b : Uint256) : Bool :=
  let countA := pool.deref env.toMempoolEnv (·.nCountWithAncestors) a
  let countB := pool.deref env.toMempoolEnv (·.nCountWithAncestors) b
  if countA ≠ countB then countA < countB else compareIteratorByHash a b

def sortForBlock (package : List Uint256) : List Uint256 :=
  package.insertionSort fun a b => !compareTxIterByAncestorCount env pool b a

/-- The ancestors of an entry that are not in the block, with the entry. -/
def packageOf (s : PackageState) (iter : Uint256) : List Uint256 :=
  match pool.find env.toMempoolEnv iter with
  | none => [iter]
  | some e =>
    let ancestors := (pool.calculateMemPoolAncestors env.toMempoolEnv e CTxMemPool.noLimits false).2
    (ancestors.filter fun a => a ∉ s.inBlock).insert iter

def addPackage (s : PackageState) (ancestors : List Uint256) : PackageState :=
  let s := (sortForBlock env pool ancestors).foldl (fun s it =>
    let s := addToBlock env pool s it
    { s with mapModifiedTx := Table.erase CTxMemPoolModifiedEntry.iter it s.mapModifiedTx }) s
  let (mapModifiedTx, n) := updatePackagesForAdded env pool ancestors s.mapModifiedTx
  { s with
    mapModifiedTx
    nConsecutiveFailed := 0
    nPackagesSelected := s.nPackagesSelected + 1
    nDescendantsUpdated := s.nDescendantsUpdated + n }

/-- The entry to evaluate, the element of the modified set if it is taken from there, and what
is left of the index of the pool. -/
structure Choice where
  iter : Uint256
  modit : Option CTxMemPoolModifiedEntry
  mi : List Uint256

def choose (s : PackageState) : Option Choice :=
  match s.mi, env.score.begin s.mapModifiedTx with
  | [], none => none
  | [], some modit => some ⟨modit.iter, some modit, []⟩
  | iter :: mi, none => some ⟨iter, none, mi⟩
  | iter :: mi, some modit =>
    if compareModifiedEntry env modit (modifiedEntry env pool iter) then
      some ⟨modit.iter, some modit, iter :: mi⟩
    else some ⟨iter, none, mi⟩

def Choice.sums (c : Choice) : CTxMemPoolModifiedEntry := c.modit.getD (modifiedEntry env pool c.iter)

section
variable (s : PackageState)

/-- An entry of the modified set that failed is taken out of it. -/
def dropFailed (c : Choice) : PackageState :=
  match c.modit with
  | none => s
  | some modit =>
    { s with
      mapModifiedTx := Table.erase CTxMemPoolModifiedEntry.iter modit.iter s.mapModifiedTx
      failedTx := s.failedTx.insert c.iter }

/-- Gives up if the block is close to full and nothing was added in a while. -/
def countFailure : PackageState :=
  { s with
    nConsecutiveFailed := s.nConsecutiveFailed + 1
    done := decide (MAX_CONSECUTIVE_FAILURES < s.nConsecutiveFailed + 1 ∧
      nBlockMaxWeight env - 4000 < s.nBlockWeight) }

def evaluate (c : Choice) : PackageState :=
  let sums := c.sums env pool
  if sums.nModFeesWithAncestors < env.blockMinFeeRate.getFee sums.nSizeWithAncestors.toNat then
    { s with done := true }
  else if !testPackage env s sums.nSizeWithAncestors sums.nSigOpCostWithAncestors then
    countFailure env (dropFailed s c)
  else if !testPackageTransactions env pool s (packageOf env pool s c.iter) then dropFailed s c
  else addPackage env pool s (packageOf env pool s c.iter)

def turn : Option PackageState :=
  if s.mi.head?.any (skipMapTxEntry s) then some { s with mi := s.mi.tail }
  else match choose env pool s with
    | none => none
    | some c =>
      if c.iter ∈ s.inBlock then none else some (evaluate env pool { s with mi := c.mi } c)

def finished : Bool := s.done || (s.mi.isEmpty && s.mapModifiedTx.isEmpty)

end

def packageLoop : Nat → PackageState → Option PackageState
  | 0, s => if finished s then some s else none
  | fuel + 1, s => if finished s then some s else (turn env pool s).bind (packageLoop fuel)

/-- The state after `resetBlock`, with the index of the pool in the order `index`. -/
def resetBlock (index : List Uint256) : PackageState where
  inBlock := []
  vtx := []
  vTxFees := []
  vTxSigOpsCost := []
  nBlockSize := 1000
  nBlockWeight := 4000
  nBlockSigOpsCost := 400
  nBlockTx := 0
  nFees := 0
  mi := index
  mapModifiedTx := []
  failedTx := []
  nConsecutiveFailed := 0
  nPackagesSelected := 0
  nDescendantsUpdated := 0
  done := false

def startPackages (s : PackageState) : PackageState :=
  { s with mapModifiedTx := (updatePackagesForAdded env pool s.inBlock s.mapModifiedTx).1 }

def addPackageTxs (fuel : Nat) (index : List Uint256) : Option PackageState :=
  packageLoop env pool fuel (startPackages env pool (resetBlock index))

end BlockAssembler

end OurChain
