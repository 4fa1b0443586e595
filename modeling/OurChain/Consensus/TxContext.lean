import OurChain.Coins
import OurChain.Validation.Context

/-!
# Transactions in their context

The checks of a transaction that read the chain or the coins it spends: lock
times, the cost of its signature operations, and `CheckTxInputs`.
-/

namespace OurChain

def LOCKTIME_THRESHOLD : Int := 500000000
def SEQUENCE_FINAL : BitVec 32 := 0xffffffff
def SEQUENCE_LOCKTIME_DISABLE_FLAG : BitVec 32 := 0x80000000
def SEQUENCE_LOCKTIME_TYPE_FLAG : BitVec 32 := 0x00400000
def SEQUENCE_LOCKTIME_MASK : BitVec 32 := 0x0000ffff
def SEQUENCE_LOCKTIME_GRANULARITY : Nat := 9

def LOCKTIME_VERIFY_SEQUENCE : BitVec 32 := 1

def isFinalTx (tx : CTransaction) (nBlockHeight nBlockTime : Int) : Bool :=
  let nLockTime : Int := tx.nLockTime.toNat
  if nLockTime = 0 then true
  else if nLockTime < (if nLockTime < LOCKTIME_THRESHOLD then nBlockHeight else nBlockTime) then true
  else tx.vin.all fun txin => txin.nSequence = SEQUENCE_FINAL

/-- The turn of the loop for one input, with the height of its coin. -/
def lockInput (block : BlockPtr) (lock : Int × Int) (txin : CTxIn) (nCoinHeight : Nat) : Int × Int :=
  let (nMinHeight, nMinTime) := lock
  if txin.nSequence &&& SEQUENCE_LOCKTIME_DISABLE_FLAG ≠ 0 then lock
  else if txin.nSequence &&& SEQUENCE_LOCKTIME_TYPE_FLAG ≠ 0 then
    let nCoinTime := ((block.ancestorAt (nCoinHeight - 1)).map getMedianTimePast).getD 0
    let delta := (txin.nSequence &&& SEQUENCE_LOCKTIME_MASK) <<< SEQUENCE_LOCKTIME_GRANULARITY
    (nMinHeight, max nMinTime (nCoinTime + delta.toNat - 1))
  else
    (max nMinHeight (nCoinHeight + (txin.nSequence &&& SEQUENCE_LOCKTIME_MASK).toNat - 1), nMinTime)

/-- The last height and time at which the transaction is still locked. -/
def calculateSequenceLocks (tx : CTransaction) (flags : BitVec 32) (prevHeights : List Nat)
    (block : BlockPtr) : Int × Int :=
  let fEnforceBIP68 := decide (2 ≤ tx.nVersion.toNat) && flags &&& LOCKTIME_VERIFY_SEQUENCE != 0#32
  if !fEnforceBIP68 then (-1, -1)
  else (tx.vin.zip prevHeights).foldl (fun lock (txin, nCoinHeight) =>
    lockInput block lock txin nCoinHeight) (-1, -1)

def evaluateSequenceLocks (block : BlockPtr) (lockPair : Int × Int) : Bool :=
  let nBlockTime := (block.pprev.map getMedianTimePast).getD 0
  !(decide (lockPair.1 ≥ block.height) || decide (lockPair.2 ≥ nBlockTime))

def sequenceLocks (tx : CTransaction) (flags : BitVec 32) (prevHeights : List Nat)
    (block : BlockPtr) :
    Bool :=
  evaluateSequenceLocks block (calculateSequenceLocks tx flags prevHeights block)

theorem evaluateSequenceLocks_none (block : BlockPtr) :
    evaluateSequenceLocks block (-1, -1) = true := by
  have htime : 0 ≤ (block.pprev.map getMedianTimePast).getD 0 := by
    cases block.pprev with
    | none => exact Int.le_refl 0
    | some pprev => exact getMedianTimePast_nonneg pprev
  have hheight : ¬ (-1 : Int) ≥ block.height := by omega
  have htime' : ¬ (-1 : Int) ≥ (block.pprev.map getMedianTimePast).getD 0 := by omega
  simp [evaluateSequenceLocks, hheight, htime']

def getLegacySigOpCount (tx : CTransaction) : Nat :=
  (tx.vin.map fun txin => getSigOpCount false txin.scriptSig).sum +
    (tx.vout.map fun txout => getSigOpCount false txout.scriptPubKey).sum

def getP2SHSigOpCount (tx : CTransaction) (inputs : CCoinsView) : Except CheckFailure Nat :=
  if tx.isCoinBase then .ok 0
  else tx.vin.foldlM (fun nSigOps txin => do
    let coin ← inputs.unspentCoin txin.prevout
    if isPayToScriptHash coin.out.scriptPubKey then
      return nSigOps + getSigOpCountSpent coin.out.scriptPubKey txin.scriptSig
    else return nSigOps) 0

def countWitnessSigOps (scriptSig scriptPubKey : Bytes) (witness : List Bytes) (flags : BitVec 32) :
    Except CheckFailure Nat :=
  if flags &&& SCRIPT_VERIFY_WITNESS = 0 then .ok 0
  else if flags &&& SCRIPT_VERIFY_P2SH = 0 then .error .assertion
  else match isWitnessProgram scriptPubKey with
    | some (version, program) => .ok (witnessSigOps version program witness)
    | none =>
      if isPayToScriptHash scriptPubKey then
        -- `IsPushOnly` and the loop behind it
        match (lastPush scriptSig).bind isWitnessProgram with
        | some (version, program) => .ok (witnessSigOps version program witness)
        | none => .ok 0
      else .ok 0

def getTransactionSigOpCost (tx : CTransaction) (inputs : CCoinsView) (flags : BitVec 32) :
    Except CheckFailure Nat := do
  let nSigOps := getLegacySigOpCount tx * WITNESS_SCALE_FACTOR
  if tx.isCoinBase then return nSigOps
  else
    let nP2SH ← if flags &&& SCRIPT_VERIFY_P2SH ≠ 0 then getP2SHSigOpCount tx inputs else pure 0
    tx.vin.foldlM (fun nSigOps txin => do
      let coin ← inputs.unspentCoin txin.prevout
      let n ← countWitnessSigOps txin.scriptSig coin.out.scriptPubKey txin.scriptWitness flags
      return nSigOps + n) (nSigOps + nP2SH * WITNESS_SCALE_FACTOR)

def COINBASE_MATURITY : Int := 2

def valueOutFrom (nValueOut : Int) : List CTxOut → Except CheckFailure Int
  | [] => .ok nValueOut
  | txout :: vout =>
    if !moneyRange txout.value || !moneyRange (nValueOut + txout.value) then
      .error (.exception "GetValueOut: value out of range")
    else valueOutFrom (nValueOut + txout.value) vout

def getValueOut (tx : CTransaction) : Except CheckFailure Int := valueOutFrom 0 tx.vout

theorem valueOutFrom_cons (h : valueOutFrom nValueOut (txout :: vout) = .ok n) :
    moneyRange (nValueOut + txout.value) = true ∧
    valueOutFrom (nValueOut + txout.value) vout = .ok n := by
  rw [valueOutFrom, ite_error_eq_ok] at h
  simp_all

/-- The decimals of an amount, zeros at the end dropped down to two places. -/
def formatMoney (n : Int) : String :=
  let digits := (toString (n.natAbs % COIN.natAbs)).toList
  let decimals := List.replicate (8 - digits.length) '0' ++ digits
  let decimals := decimals.take 2 ++ ((decimals.drop 2).reverse.dropWhile (· = '0')).reverse
  (if n < 0 then "-" else "") ++ toString (n.natAbs / COIN.natAbs) ++ "." ++ String.ofList decimals

def sumInputs (inputs : CCoinsView) (nSpendHeight : Int) (nValueIn : Int) :
    List CTxIn → Except CheckFailure Int
  | [] => .ok nValueIn
  | txin :: vin => do
    let coin ← inputs.unspentCoin txin.prevout
    let depth := nSpendHeight - coin.nHeight.toNat
    if coin.fCoinBase ∧ depth < COINBASE_MATURITY then
      .error (.invalid ⟨0, REJECT_INVALID, "bad-txns-premature-spend-of-coinbase", false,
        "tried to spend coinbase at depth " ++ toString depth⟩)
    else if !moneyRange coin.out.value || !moneyRange (nValueIn + coin.out.value) then
      .error (.invalid (.dos 100 "bad-txns-inputvalues-outofrange"))
    else sumInputs inputs nSpendHeight (nValueIn + coin.out.value) vin

theorem sumInputs_cons (h : sumInputs inputs nSpendHeight nValueIn (txin :: vin) = .ok n) :
    ∃ coin, inputs.coins.lookup txin.prevout = some coin ∧ moneyRange coin.out.value = true ∧
      moneyRange (nValueIn + coin.out.value) = true ∧
      sumInputs inputs nSpendHeight (nValueIn + coin.out.value) vin = .ok n := by
  obtain ⟨coin, hcoin, h⟩ := bind_ok_iff.mp h
  simp only [ite_error_eq_ok] at h
  exact ⟨coin, CCoinsView.unspentCoin_eq hcoin, by simp_all⟩

def checkTxInputs (tx : CTransaction) (inputs : CCoinsView) (nSpendHeight : Int) :
    Except CheckFailure Unit :=
  if !inputs.haveInputs tx then .error (.invalid ⟨0, 0, "", false, "Inputs unavailable"⟩)
  else do
    let nValueIn ← sumInputs inputs nSpendHeight 0 tx.vin
    let nValueOut ← getValueOut tx
    let nTxFee := nValueIn - nValueOut
    if nValueIn < nValueOut then
      .error (.invalid ⟨100, REJECT_INVALID, "bad-txns-in-belowout", false,
        "value in (" ++ formatMoney nValueIn ++ ") < value out (" ++ formatMoney nValueOut ++ ")"⟩)
    else if nTxFee < 0 then .error (.invalid (.dos 100 "bad-txns-fee-negative"))
    else if !moneyRange nTxFee then .error (.invalid (.dos 100 "bad-txns-fee-outofrange"))
    else .ok ()

theorem checkTxInputs_ok (h : checkTxInputs tx inputs nSpendHeight = .ok ()) :
    ∃ nValueIn nValueOut, sumInputs inputs nSpendHeight 0 tx.vin = .ok nValueIn ∧
      getValueOut tx = .ok nValueOut ∧ nValueOut ≤ nValueIn := by
  rw [checkTxInputs, ite_error_eq_ok] at h
  obtain ⟨nValueIn, hin, h⟩ := bind_ok_iff.mp h.2
  obtain ⟨nValueOut, hout, h⟩ := bind_ok_iff.mp h
  exact ⟨nValueIn, nValueOut, hin, hout, Int.not_lt.mp (ite_error_eq_ok.mp h).1⟩

end OurChain
