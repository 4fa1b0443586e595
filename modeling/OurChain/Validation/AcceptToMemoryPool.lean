import OurChain.TxMempool.Links
import OurChain.Validation.ConnectBlock

/-!
# Acceptance to the memory pool

`AcceptToMemoryPoolWorker`, in the order of the source: the checks of the transaction
alone, the conflicts with the pool, the coins of its inputs, fees, ancestors, the rules
for a replacement, the scripts, and the change of the pool.
-/

namespace OurChain

def REJECT_DUPLICATE : BitVec 8 := 0x12
def REJECT_INSUFFICIENTFEE : BitVec 8 := 0x42
def MAX_BIP125_RBF_SEQUENCE : BitVec 32 := 0xfffffffd
def MAX_STANDARD_TX_SIGOPS_COST : Nat := MAX_BLOCK_SIGOPS_COST / 5
def MANDATORY_SCRIPT_VERIFY_FLAGS : BitVec 32 := SCRIPT_VERIFY_P2SH
def STANDARD_SCRIPT_VERIFY_FLAGS : BitVec 32 :=
  MANDATORY_SCRIPT_VERIFY_FLAGS ||| STANDARD_NOT_MANDATORY_VERIFY_FLAGS
-- `LOCKTIME_VERIFY_SEQUENCE` and `LOCKTIME_MEDIAN_TIME_PAST`.
def STANDARD_LOCKTIME_VERIFY_FLAGS : BitVec 32 := 3
def maxDescendantsToVisit : Int := 100

/-- How a transaction is refused: with what a check has left, because inputs are missing, or with
`REJECT_HIGHFEE`, whose code is not one of the protocol. -/
inductive AcceptFailure
  | check (failure : CheckFailure)
  | missingInputs
  | absurdlyHighFee (strDebugMessage : String)

def AcceptFailure.reject (code : BitVec 8) (strRejectReason strDebugMessage : String) :
    AcceptFailure :=
  .check (.invalid ⟨0, code, strRejectReason, false, strDebugMessage⟩)

def AcceptFailure.lift : Except CheckFailure α → Except AcceptFailure α
  | .ok a => .ok a
  | .error failure => .error (.check failure)

def rejectIf (bad : Bool) (failure : AcceptFailure) : Except AcceptFailure Unit :=
  if bad then .error failure else .ok ()

theorem rejectIf_eq_ok {bad : Bool} {f : AcceptFailure} : rejectIf bad f = .ok () ↔ bad = false := by
  cases bad <;> simp [rejectIf]

/-- The options of the node and its policy for single transactions, the rolling minimum fee,
which is kept in a double, and what the eviction reads. -/
structure AcceptEnv extends BlockEnv where
  nBytesPerSigOp : Nat
  fPrematureWitness : Bool
  fRequireStandard : Bool
  fEnableReplacement : Bool
  isStandardTx : CTransaction → Bool → Option String
  areInputsStandard : CTransaction → CCoinsView → Bool
  isWitnessStandard : CTransaction → CCoinsView → Bool
  minRelayTxFee : CFeeRate
  incrementalRelayFee : CFeeRate
  limits : CTxMemPool.Limits
  scriptVerifyFlags : BitVec 32
  getMinFee : CTxMemPool → CFeeRate
  maxmempool : Nat
  expiryTime : Int
  firstToEvict : CTxMemPool → Option Uint256
  dynamicMemoryUsage : CTxMemPool → Nat

def AcceptEnv.mempool (env : AcceptEnv) : MempoolEnv := ⟨env.H, env.nBytesPerSigOp⟩

/-- The active chain with its coins, and those that are in the cache. -/
structure ChainCoinsTip where
  tip : BlockPtr
  pcoinsTip : CCoinsView
  haveCoinInCache : COutPoint → Bool

structure AcceptArgs where
  fLimitFree : Bool
  nAcceptTime : Int
  fOverrideMempoolLimit : Bool
  nAbsurdFee : Int

section
variable (env : AcceptEnv) (chain : ChainCoinsTip) (pool : CTxMemPool) (tx : CTransaction)

def checkFinalTx : Bool := isFinalTx tx (chain.tip.height + 1) (getMedianTimePast chain.tip)

def checkLoose : Except AcceptFailure Unit := do
  AcceptFailure.lift (CheckFailure.lift (checkTransaction tx true))
  rejectIf tx.isCoinBase (.check (.invalid (.dos 100 "coinbase")))
  let witnessEnabled := env.isActive (some chain.tip) .segWit
  rejectIf (!env.fPrematureWitness && tx.hasWitness && !witnessEnabled)
    (.check (.invalid ⟨0, REJECT_NONSTANDARD, "no-witness-yet", true, ""⟩))
  let nonstandard := if env.fRequireStandard then env.isStandardTx tx witnessEnabled else none
  rejectIf nonstandard.isSome (.reject REJECT_NONSTANDARD (nonstandard.getD "") "")
  rejectIf (!checkFinalTx chain tx) (.reject REJECT_NONSTANDARD "non-final" "")
  rejectIf (pool.existsTx env.mempool (tx.getHash env.H))
    (.reject REJECT_DUPLICATE "txn-already-in-mempool" "")

/-- A transaction opts in to replacement by one of its inputs. -/
def CTransaction.signalsReplacement (tx : CTransaction) : Bool :=
  tx.vin.any fun txin => txin.nSequence.toNat ≤ MAX_BIP125_RBF_SEQUENCE.toNat

def addConflict (setConflicts : List Uint256) (txin : CTxIn) : Except AcceptFailure (List Uint256) :=
  match pool.spender txin.prevout with
  | none => .ok setConflicts
  | some ptxConflicting =>
    let hash := ptxConflicting.getHash env.H
    if hash ∈ setConflicts then .ok setConflicts
    else if env.fEnableReplacement && ptxConflicting.signalsReplacement then .ok
      (setConflicts.insert hash)
    else .error (.reject REJECT_DUPLICATE "txn-mempool-conflict" "")

def poolView : PoolView where
  mempool hash := (pool.find env.mempool hash).map (·.tx)
  base := chain.pcoinsTip

def checkInputsExist : Except AcceptFailure Unit :=
  if tx.vin.all fun txin => ((poolView env chain pool).getCoin txin.prevout).isSome then .ok ()
  else if (List.range tx.vout.length).any fun out =>
      chain.haveCoinInCache ⟨tx.getHash env.H, BitVec.ofNat 32 out⟩ then
    .error (.reject REJECT_DUPLICATE "txn-already-known" "")
  else .error .missingInputs

/-- The view with the coins of the inputs, cut off from the pool. -/
def inputsView : CCoinsView where
  coins := tx.vin.foldl (fun coins txin =>
    match (poolView env chain pool).getCoin txin.prevout with
    | some coin => coins.insert txin.prevout coin
    | none => coins) ∅
  hashBlock := chain.pcoinsTip.hashBlock

def checkStandardInputs (view : CCoinsView) : Except AcceptFailure Unit := do
  rejectIf (env.fRequireStandard && !env.areInputsStandard tx view)
    (.reject REJECT_NONSTANDARD "bad-txns-nonstandard-inputs" "")
  rejectIf (tx.hasWitness && env.fRequireStandard && !env.isWitnessStandard tx view)
    (.check (.invalid ⟨0, REJECT_NONSTANDARD, "bad-witness-nonstandard", true, ""⟩))

def spendsCoinbase (view : CCoinsView) : Bool :=
  tx.vin.any fun txin => ((view.coins.lookup txin.prevout).map (·.fCoinBase)).getD false

/-- The entry of the transaction, once its inputs are known to be there. -/
def makeEntry (nAcceptTime : Int) : Except AcceptFailure CTxMemPoolEntry := do
  checkInputsExist env chain pool tx
  let view := inputsView env chain pool tx
  let nValueIn := view.getValueIn tx
  let (final, lp) := checkSequenceLocks tx STANDARD_LOCKTIME_VERIFY_FLAGS chain.tip
    (poolView env chain pool)
    ⟨0, 0, none⟩ false
  rejectIf (!final) (.reject REJECT_NONSTANDARD "non-BIP68-final" "")
  checkStandardInputs env tx view
  let nSigOpsCost ← AcceptFailure.lift (getTransactionSigOpCost tx view STANDARD_SCRIPT_VERIFY_FLAGS)
  let nValueOut ← AcceptFailure.lift (getValueOut tx)
  return .new env.mempool tx (int64 (nValueIn - nValueOut)) nAcceptTime chain.tip.height
    (spendsCoinbase tx view) nSigOpsCost lp

def CTxMemPoolEntry.checkFees (entry : CTxMemPoolEntry) (args : AcceptArgs) (nModifiedFees : Int) :
    Except AcceptFailure Unit := do
  let nSize := entry.getTxSize env.mempool
  rejectIf (MAX_STANDARD_TX_SIGOPS_COST < entry.sigOpCost)
    (.reject REJECT_NONSTANDARD "bad-txns-too-many-sigops" (toString entry.sigOpCost))
  let mempoolRejectFee := (env.getMinFee pool).getFee nSize
  rejectIf (0 < mempoolRejectFee && nModifiedFees < mempoolRejectFee)
    (.reject REJECT_INSUFFICIENTFEE "mempool min fee not met"
      (toString entry.nFee ++ " < " ++ toString mempoolRejectFee))
  rejectIf (args.fLimitFree && nModifiedFees < env.minRelayTxFee.getFee nSize)
    (.reject REJECT_INSUFFICIENTFEE "min relay fee not met" "")
  rejectIf (args.nAbsurdFee ≠ 0 && args.nAbsurdFee < entry.nFee)
    (.absurdlyHighFee (toString entry.nFee ++ " > " ++ toString args.nAbsurdFee))

def findAncestors (entry : CTxMemPoolEntry) (setConflicts : List Uint256) :
    Except AcceptFailure (List Uint256) :=
  match pool.calculateMemPoolAncestors env.mempool entry env.limits true with
  | (some errString, _) => .error (.reject REJECT_NONSTANDARD "too-long-mempool-chain" errString)
  | (none, setAncestors) =>
    match setAncestors.find? (· ∈ setConflicts) with
    | some hashAncestor =>
      .error (.check (.invalid ⟨10, REJECT_INVALID, "bad-txns-spends-conflicting-tx", false,
        (tx.getHash env.H).toHex ++ " spends conflicting transaction " ++ hashAncestor.toHex⟩))
    | none => .ok setAncestors

structure ConflictVars where
  setIterConflicting : List Uint256
  setConflictsParents : List Uint256
  nConflictingCount : Int

def padded (n : Int) : String :=
  let digits := toString n.natAbs
  let width := if n < 0 then 7 else 8
  (if n < 0 then "-" else "") ++ String.ofList (List.replicate (width - digits.length) '0') ++ digits

def CFeeRate.toText (rate : CFeeRate) : String :=
  toString (rate.nSatoshisPerK.tdiv COIN) ++ "." ++ padded (rate.nSatoshisPerK.tmod COIN) ++ " BTC/kB"

def rejecting : String := "rejecting replacement " ++ (tx.getHash env.H).toHex

def visitConflict (newFeeRate : CFeeRate) (vars : ConflictVars) (hashConflicting : Uint256) :
    Except AcceptFailure ConflictVars :=
  match pool.find env.mempool hashConflicting with
  | none => .ok vars
  | some mi =>
    let oldFeeRate := CFeeRate.ofFee mi.getModifiedFee (mi.getTxSize env.mempool)
    if newFeeRate.nSatoshisPerK ≤ oldFeeRate.nSatoshisPerK then
      .error (.reject REJECT_INSUFFICIENTFEE "insufficient fee"
        (rejecting env tx ++ "; new feerate " ++ newFeeRate.toText ++ " <= old feerate " ++
        oldFeeRate.toText))
    else .ok {
      setIterConflicting := vars.setIterConflicting.insert hashConflicting
      setConflictsParents := (mi.tx.vin.map (·.prevout.hash)) ∪ vars.setConflictsParents
      nConflictingCount := vars.nConflictingCount + mi.nCountWithDescendants }

/-- The first input that is new among those of the conflicts, but not confirmed. -/
def addsUnconfirmed (setConflictsParents : List Uint256) : Option Nat :=
  tx.vin.findIdx? fun txin =>
    txin.prevout.hash ∉ setConflictsParents && pool.existsTx env.mempool txin.prevout.hash

def checkReplacement (setConflicts : List Uint256) (nModifiedFees : Int) (nSize : Nat) :
    Except AcceptFailure (List Uint256) :=
  if setConflicts = [] then .ok []
  else do
    let vars ← setConflicts.foldlM (visitConflict env pool tx (CFeeRate.ofFee nModifiedFees nSize))
      ⟨[], [], 0⟩
    rejectIf (maxDescendantsToVisit < vars.nConflictingCount)
      (.reject REJECT_NONSTANDARD "too many potential replacements" (rejecting env tx ++
        "; too many potential replacements (" ++ toString vars.nConflictingCount ++ " > " ++
        toString maxDescendantsToVisit ++ ")\n"))
    let allConflicting := pool.withDescendants vars.setIterConflicting
    let nConflictingFees := int64 (allConflicting.map (pool.deref env.mempool (·.getModifiedFee))).sum
    let unconfirmed := addsUnconfirmed env pool tx vars.setConflictsParents
    rejectIf unconfirmed.isSome
      (.reject REJECT_NONSTANDARD "replacement-adds-unconfirmed"
      ("replacement " ++ (tx.getHash env.H).toHex ++
        " adds unconfirmed input, idx " ++ toString (unconfirmed.getD 0)))
    rejectIf (nModifiedFees < nConflictingFees)
      (.reject REJECT_INSUFFICIENTFEE "insufficient fee" (rejecting env tx ++
        ", less fees than conflicting txs; " ++ formatMoney nModifiedFees ++ " < " ++ formatMoney
        nConflictingFees))
    let nDeltaFees := int64 (nModifiedFees - nConflictingFees)
    rejectIf (nDeltaFees < env.incrementalRelayFee.getFee nSize)
      (.reject REJECT_INSUFFICIENTFEE "insufficient fee" (rejecting env tx ++
        ", not enough additional fees to relay; " ++ formatMoney nDeltaFees ++ " < " ++
        formatMoney (env.incrementalRelayFee.getFee nSize)))
    return allConflicting

def checkPoolInputs (view : CCoinsView) (flags : BitVec 32) : Except CheckFailure Unit :=
  (view.checkInputs { env.toBlockEnv with nScriptCheckThreads := 0 } tx
    (chain.tip.height + 1) true flags).map fun _ => ()

/-- The assertions that the view has what the pool and the chain have. -/
def viewAgrees (view : CCoinsView) (txin : CTxIn) : Bool :=
  match view.coins.lookup txin.prevout with
  | none => false
  | some coin => match pool.find env.mempool txin.prevout.hash with
    | some txFrom => txFrom.tx.vout[txin.prevout.n.toNat]? = some coin.out
    | none => ((chain.pcoinsTip.coins.lookup txin.prevout).map (·.out)) = some coin.out

def checkInputsFromMempoolAndCache (view : CCoinsView) (flags : BitVec 32) :
    Except CheckFailure Unit :=
  if tx.isCoinBase || !tx.vin.all (viewAgrees env chain pool view) then .error .assertion
  else checkPoolInputs env chain tx view flags

def CheckFailure.setCorruptionPossible : CheckFailure → CheckFailure
  | .invalid reject => .invalid { reject with corruptionPossible := true }
  | failure => failure

def passes (x : Except CheckFailure Unit) : Bool := x matches .ok ()

def checkPoolScripts (view : CCoinsView) : Except CheckFailure Unit :=
  let check := checkPoolInputs env chain tx view
  match check env.scriptVerifyFlags with
  | .error failure =>
    -- Only the witness is missing, so the transaction itself may be fine.
    if !tx.hasWitness &&
        passes (check (env.scriptVerifyFlags &&&
          ~~~(SCRIPT_VERIFY_WITNESS ||| SCRIPT_VERIFY_CLEANSTACK))) &&
        !passes (check (env.scriptVerifyFlags &&& ~~~SCRIPT_VERIFY_CLEANSTACK)) then
      .error failure.setCorruptionPossible
    else .error failure
  | .ok () =>
    let currentBlockScriptVerifyFlags := getBlockScriptFlags env.toBlockEnv chain.tip
    match checkInputsFromMempoolAndCache env chain pool tx view currentBlockScriptVerifyFlags with
    | .ok () => .ok ()
    | .error failure =>
      if ~~~env.scriptVerifyFlags &&& currentBlockScriptVerifyFlags = 0 then .error failure
      else check MANDATORY_SCRIPT_VERIFY_FLAGS

/-- What is replaced, the pool with the new entry in it, and the pool that is left when the
limits on its size are applied. -/
structure AcceptResult where
  allConflicting : List Uint256
  removed : CTxMemPool
  inserted : CTxMemPool
  pool : CTxMemPool

def limitMempoolSize (pool : CTxMemPool) : CTxMemPool :=
  let pool := pool.expire env.mempool env.expiryTime
  pool.trimToSize env.mempool env.firstToEvict env.dynamicMemoryUsage env.maxmempool pool.mapTx.length

def acceptToMemoryPoolWorker (args : AcceptArgs) : Except AcceptFailure AcceptResult := do
  checkLoose env chain pool tx
  let setConflicts ← tx.vin.foldlM (addConflict env pool) []
  let entry ← makeEntry env chain pool tx args.nAcceptTime
  let hash := tx.getHash env.H
  let nModifiedFees := pool.applyDelta hash entry.nFee
  entry.checkFees env pool args nModifiedFees
  let setAncestors ← findAncestors env pool tx entry setConflicts
  let allConflicting ← checkReplacement env pool tx setConflicts nModifiedFees
    (entry.getTxSize env.mempool)
  AcceptFailure.lift (checkPoolScripts env chain pool tx (inputsView env chain pool tx))
  let removed := pool.removeStaged env.mempool allConflicting false
  let inserted := removed.addUnchecked env.mempool hash entry setAncestors
  let limited := if args.fOverrideMempoolLimit then inserted else limitMempoolSize env inserted
  rejectIf (!args.fOverrideMempoolLimit && !limited.existsTx env.mempool hash)
    (.reject REJECT_INSUFFICIENTFEE "mempool full" "")
  return ⟨allConflicting, removed, inserted, limited⟩

end

end OurChain
