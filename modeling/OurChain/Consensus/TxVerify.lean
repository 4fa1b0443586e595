import OurChain.Validation.Header

/-!
# Transaction checks

`CheckTransaction`, the checks of a transaction that need no context. The check
that tied the address of a deployed contract to its transaction is commented out in
the source, so the contract of a transaction counts for its size only.
-/

namespace OurChain

def COIN : Int := 100000000
def MAX_MONEY : Int := 21000000 * COIN
def MAX_BLOCK_SERIALIZED_SIZE : Nat := 4000000
def MAX_BLOCK_WEIGHT : Nat := 4000000
def WITNESS_SCALE_FACTOR : Nat := 4

def moneyRange (nValue : Int) : Bool := decide (0 ≤ nValue ∧ nValue ≤ MAX_MONEY)

def COutPoint.isNull (o : COutPoint) : Bool := o.hash = 0#256 && o.n = 0xffffffff#32

def CTransaction.isCoinBase (tx : CTransaction) : Bool :=
  match tx.vin with
  | [i] => i.prevout.isNull
  | _ => false

def CTxOut.value (o : CTxOut) : Int := o.nValue.toInt

/-- `state.DoS` with the defaults of its last two arguments. -/
def Reject.dos (level : Nat) (strRejectReason : String) : Reject where
  nDoS := level
  chRejectCode := REJECT_INVALID
  strRejectReason := strRejectReason
  corruptionPossible := false
  strDebugMessage := ""

def checkOutputs (nValueOut : Int) : List CTxOut → Except Reject Unit
  | [] => .ok ()
  | txout :: vout =>
    if txout.value < 0 then .error (.dos 100 "bad-txns-vout-negative")
    else if txout.value > MAX_MONEY then .error (.dos 100 "bad-txns-vout-toolarge")
    else if !moneyRange (nValueOut + txout.value) then
      .error (.dos 100 "bad-txns-txouttotal-toolarge")
    else checkOutputs (nValueOut + txout.value) vout

/-- The part of `CheckTransaction` behind the checks of size and outputs. -/
def checkInputs (fCheckDuplicateInputs : Bool) (tx : CTransaction) : Except Reject Unit :=
  if fCheckDuplicateInputs && !decide (tx.vin.map CTxIn.prevout).Nodup then
    .error (.dos 100 "bad-txns-inputs-duplicate")
  else if tx.isCoinBase then
    if tx.vin.any fun i => i.scriptSig.length < 2 || i.scriptSig.length > 100 then
      .error (.dos 100 "bad-cb-length")
    else .ok ()
  else if tx.vin.any fun i => i.prevout.isNull then .error (.dos 10 "bad-txns-prevout-null")
  else .ok ()

def checkTransaction (tx : CTransaction) (fCheckDuplicateInputs : Bool) : Except Reject Unit :=
  if tx.vin.isEmpty then .error (.dos 10 "bad-txns-vin-empty")
  else if tx.vout.isEmpty then .error (.dos 10 "bad-txns-vout-empty")
  else if (serializeTransaction false tx).length * WITNESS_SCALE_FACTOR > MAX_BLOCK_WEIGHT then
    .error (.dos 100 "bad-txns-oversize")
  else do
    checkOutputs 0 tx.vout
    checkInputs fCheckDuplicateInputs tx

theorem moneyRange_iff (n : Int) : moneyRange n = true ↔ 0 ≤ n ∧ n ≤ MAX_MONEY := by
  simp [moneyRange]

theorem checkOutputs_range {vout : List CTxOut} (h : checkOutputs nValueOut vout = .ok ()) :
    ∀ out ∈ vout, moneyRange out.value = true := by
  induction vout generalizing nValueOut with
  | nil => simp
  | cons txout vout ih =>
    rw [checkOutputs] at h
    split at h
    · cases h
    · rename_i hneg
      split at h
      · cases h
      · rename_i hlarge
        split at h
        · cases h
        · intro out hout
          rcases List.mem_cons.mp hout with rfl | hout
          · exact (moneyRange_iff _).mpr ⟨Int.not_lt.mp hneg, Int.not_lt.mp hlarge⟩
          · exact ih h out hout

theorem checkOutputs_sum {vout : List CTxOut} (hstart : moneyRange nValueOut = true)
    (h : checkOutputs nValueOut vout = .ok ()) :
    moneyRange (nValueOut + (vout.map CTxOut.value).sum) = true := by
  induction vout generalizing nValueOut with
  | nil => simpa using hstart
  | cons txout vout ih =>
    rw [checkOutputs] at h
    split at h
    · cases h
    · split at h
      · cases h
      · split at h
        · cases h
        · rename_i hrange
          rw [List.map_cons, List.sum_cons, ← add_assoc]
          exact ih (by simpa using hrange) h

end OurChain
