import OurChain.Primitives.Transaction

/-!
# Signature hashes

The bytes `SignatureHash` feeds to the hash, for the legacy serializer and for
witness version 0. Both were written for transactions without a contract: what
they read of a transaction is its version, inputs, outputs and lock time.
-/

namespace OurChain

open Codec

def SIGHASH_ALL : BitVec 32 := 1
def SIGHASH_NONE : BitVec 32 := 2
def SIGHASH_SINGLE : BitVec 32 := 3
def SIGHASH_ANYONECANPAY : BitVec 32 := 0x80

inductive SigVersion
  | base
  | witnessV0
  deriving DecidableEq

-- The flags that a hash type sets.
def fAnyoneCanPay (nHashType : BitVec 32) : Bool := nHashType &&& SIGHASH_ANYONECANPAY != 0#32
def fHashSingle (nHashType : BitVec 32) : Bool := nHashType &&& 0x1f#32 == SIGHASH_SINGLE
def fHashNone (nHashType : BitVec 32) : Bool := nHashType &&& 0x1f#32 == SIGHASH_NONE

def OP_PUSHDATA1 : Byte := 0x4c
def OP_PUSHDATA2 : Byte := 0x4d
def OP_PUSHDATA4 : Byte := 0x4e
def OP_CODESEPARATOR : Byte := 0xab

/-- The size of the operand of `opcode` and what follows the size bytes. -/
def pushSize (opcode : Byte) (pc : Bytes) : Option (Nat × Bytes) :=
  if opcode < OP_PUSHDATA1 then some (opcode.toNat, pc)
  else
    let nBytes := if opcode = OP_PUSHDATA1 then 1 else if opcode = OP_PUSHDATA2 then 2 else 4
    (takeBytes nBytes pc).map fun (a, pc) => (ofLeBytes a, pc)

/-- `GetOp`: the opcode, or none when the script ends inside the operation, and
the script from the position that was reached. -/
def getOp : Bytes → Option Byte × Bytes
  | [] => (none, [])
  | opcode :: pc =>
    if opcode ≤ OP_PUSHDATA4 then
      match pushSize opcode pc with
      | none => (none, pc)
      | some (nSize, pc) => if pc.length < nSize then (none, pc) else (some opcode, pc.drop nSize)
    else (some opcode, pc)

-- Every operation takes a byte, so the length of the script bounds the two loops.
def countSeparators : Nat → Bytes → Nat
  | 0, _ => 0
  | fuel + 1, pc =>
    match getOp pc with
    | (none, _) => 0
    | (some opcode, pc) => (if opcode = OP_CODESEPARATOR then 1 else 0) + countSeparators fuel pc

/-- `pending` is what was read since the last separator. -/
def withoutSeparators : Nat → Bytes → Bytes → Bytes
  | 0, pending, _ => pending
  | fuel + 1, pending, pc =>
    match getOp pc with
    | (none, pc') => pending ++ pc.take (pc.length - pc'.length)
    | (some opcode, pc') =>
      let pending := pending ++ pc.take (pc.length - pc'.length)
      if opcode = OP_CODESEPARATOR then pending.dropLast ++ withoutSeparators fuel [] pc'
      else withoutSeparators fuel pending pc'

def serializeScriptCode (scriptCode : Bytes) : Bytes :=
  writeCompactSize (scriptCode.length - countSeparators (scriptCode.length + 1) scriptCode) ++
    withoutSeparators (scriptCode.length + 1) [] scriptCode

section
variable (scriptCode : Bytes) (txTo : CTransaction) (nIn : Nat) (nHashType : BitVec 32)

def serializeInput (nInput : Nat) : Bytes :=
  let nInput := if fAnyoneCanPay nHashType then nIn else nInput
  match txTo.vin[nInput]? with
  | none => []
  | some txin =>
    outPointCodec.write txin.prevout ++
      ((if nInput ≠ nIn then byteVector.write [] else serializeScriptCode scriptCode) ++
        u32.write (if nInput ≠ nIn ∧ (fHashSingle nHashType || fHashNone nHashType) then 0
          else txin.nSequence))

def serializeOutput (nOutput : Nat) : Bytes :=
  -- a default `CTxOut` has the value -1 and no script
  if fHashSingle nHashType ∧ nOutput ≠ nIn then txOutCodec.write ⟨BitVec.allOnes 64, []⟩
  else match txTo.vout[nOutput]? with
    | none => []
    | some txout => txOutCodec.write txout

def serializeLegacy : Bytes :=
  let nInputs := if fAnyoneCanPay nHashType then 1 else txTo.vin.length
  let nOutputs := if fHashNone nHashType then 0 else if fHashSingle nHashType then nIn + 1
    else txTo.vout.length
  u32.write txTo.nVersion ++
    (writeCompactSize nInputs ++ ((List.range nInputs).flatMap
      (serializeInput scriptCode txTo nIn nHashType) ++
    (writeCompactSize nOutputs ++ ((List.range nOutputs).flatMap
      (serializeOutput txTo nIn nHashType) ++ u32.write txTo.nLockTime))))

end

section
variable (H : Bytes → Uint256) (txTo : CTransaction)

def getPrevoutHash : Uint256 :=
  H (txTo.vin.flatMap fun txin => outPointCodec.write txin.prevout)

def getSequenceHash : Uint256 :=
  H (txTo.vin.flatMap fun txin => u32.write txin.nSequence)

def getOutputsHash : Uint256 :=
  H (txTo.vout.flatMap txOutCodec.write)

end

section
variable (H : Bytes → Uint256) (scriptCode : Bytes) (txTo : CTransaction) (nIn : Nat)
  (nHashType : BitVec 32) (amount : BitVec 64)

def witnessPreimage (txin : CTxIn) : Bytes :=
  let hashPrevouts := if fAnyoneCanPay nHashType then 0 else getPrevoutHash H txTo
  let hashSequence :=
    if fAnyoneCanPay nHashType || fHashSingle nHashType || fHashNone nHashType then 0
    else getSequenceHash H txTo
  let hashOutputs :=
    if !fHashSingle nHashType && !fHashNone nHashType then getOutputsHash H txTo
    else if fHashSingle nHashType then
      match txTo.vout[nIn]? with
      | some txout => H (txOutCodec.write txout)
      | none => 0
    else 0
  u32.write txTo.nVersion ++ (u256.write hashPrevouts ++ (u256.write hashSequence ++
    (outPointCodec.write txin.prevout ++ (byteVector.write scriptCode ++ (u64.write amount ++
    (u32.write txin.nSequence ++ (u256.write hashOutputs ++
    (u32.write txTo.nLockTime ++ u32.write nHashType))))))))

/-- The bytes `SignatureHash` hashes; none where it returns without hashing. -/
def signaturePreimage : SigVersion → Option Bytes
  | .witnessV0 => txTo.vin[nIn]?.map (witnessPreimage H scriptCode txTo nIn nHashType amount)
  | .base =>
    if txTo.vin.length ≤ nIn then none
    else if fHashSingle nHashType ∧ txTo.vout.length ≤ nIn then none
    else some (serializeLegacy scriptCode txTo nIn nHashType ++ u32.write nHashType)

end

def CTransaction.signedPart (tx : CTransaction) :
    BitVec 32 × List (COutPoint × BitVec 32) × List CTxOut × BitVec 32 :=
  (tx.nVersion, tx.vin.map fun txin => (txin.prevout, txin.nSequence), tx.vout, tx.nLockTime)

section
variable {tx tx' : CTransaction} (h : tx.signedPart = tx'.signedPart)
include h

theorem CTransaction.signedPart_vin (nInput : Nat) :
    (∃ txin txin', tx.vin[nInput]? = some txin ∧ tx'.vin[nInput]? = some txin' ∧
      txin.prevout = txin'.prevout ∧ txin.nSequence = txin'.nSequence) ∨
    (tx.vin[nInput]? = none ∧ tx'.vin[nInput]? = none) := by
  have hmap := congrArg (fun part => part.2.1[nInput]?) h
  simp only [CTransaction.signedPart, List.getElem?_map] at hmap
  cases htx : tx.vin[nInput]? <;> cases htx' : tx'.vin[nInput]? <;>
    simp only [htx, htx', Option.map_some, Option.map_none, Option.some.injEq, Prod.mk.injEq,
      reduceCtorEq] at hmap
  · exact .inr ⟨rfl, rfl⟩
  · exact .inl ⟨_, _, rfl, rfl, hmap⟩

theorem serializeInput_congr (scriptCode : Bytes) (nIn : Nat) (nHashType : BitVec 32) (nInput : Nat) :
    serializeInput scriptCode tx nIn nHashType nInput =
      serializeInput scriptCode tx' nIn nHashType nInput := by
  unfold serializeInput
  rcases CTransaction.signedPart_vin h (if fAnyoneCanPay nHashType then nIn else nInput) with
    ⟨txin, txin', htx, htx', hprevout, hseq⟩ | ⟨htx, htx'⟩
  · simp only [htx, htx', hprevout, hseq]
  · simp only [htx, htx']

theorem serializeLegacy_congr (scriptCode : Bytes) (nIn : Nat) (nHashType : BitVec 32) :
    serializeLegacy scriptCode tx nIn nHashType = serializeLegacy scriptCode tx' nIn nHashType := by
  have hlen : tx.vin.length = tx'.vin.length := by
    simpa [CTransaction.signedPart] using congrArg (fun part => part.2.1.length) h
  have hinput := funext (serializeInput_congr h scriptCode nIn nHashType)
  simp only [CTransaction.signedPart, Prod.mk.injEq] at h
  have houtput : serializeOutput tx nIn nHashType = serializeOutput tx' nIn nHashType := by
    funext nOutput
    simp only [serializeOutput, h.2.2.1]
  simp only [serializeLegacy, hinput, houtput, hlen, h.1, h.2.2.1, h.2.2.2]

section
variable (H : Bytes → Uint256) (scriptCode : Bytes) (nIn : Nat) (nHashType : BitVec 32)
  (amount : BitVec 64)

theorem witnessPreimage_congr {txin txin' : CTxIn}
    (hprevout : txin.prevout = txin'.prevout) (hseq : txin.nSequence = txin'.nSequence) :
    witnessPreimage H scriptCode tx nIn nHashType amount txin =
      witnessPreimage H scriptCode tx' nIn nHashType amount txin' := by
  simp only [CTransaction.signedPart, Prod.mk.injEq] at h
  have hprevouts : getPrevoutHash H tx = getPrevoutHash H tx' := by
    have := congrArg (List.flatMap fun input : COutPoint × BitVec 32 =>
      outPointCodec.write input.1) h.2.1
    simpa [getPrevoutHash, List.flatMap_map] using congrArg H this
  have hsequences : getSequenceHash H tx = getSequenceHash H tx' := by
    have := congrArg (List.flatMap fun input : COutPoint × BitVec 32 => u32.write input.2) h.2.1
    simpa [getSequenceHash, List.flatMap_map] using congrArg H this
  simp only [witnessPreimage, getOutputsHash, hprevouts, hsequences, hprevout, hseq, h.1, h.2.2.1,
    h.2.2.2]

/-- Transactions with the same signed part have the same preimages, whatever is
signed and in whichever way. -/
theorem signaturePreimage_congr (sigversion : SigVersion) :
    signaturePreimage H scriptCode tx nIn nHashType amount sigversion =
      signaturePreimage H scriptCode tx' nIn nHashType amount sigversion := by
  cases sigversion with
  | base =>
    have hvin : tx.vin.length = tx'.vin.length := by
      simpa [CTransaction.signedPart] using congrArg (fun part => part.2.1.length) h
    have hvout : tx.vout.length = tx'.vout.length := congrArg (fun part => part.2.2.1.length) h
    simp only [signaturePreimage, hvin, hvout, serializeLegacy_congr h]
  | witnessV0 =>
    simp only [signaturePreimage]
    rcases CTransaction.signedPart_vin h nIn with ⟨txin, txin', htx, htx', hprevout,
      hseq⟩ | ⟨htx, htx'⟩
    · simp only [htx, htx', Option.map_some, witnessPreimage_congr h H scriptCode nIn nHashType amount
        hprevout hseq]
    · simp only [htx, htx', Option.map_none]

end

end

/-- No signature hash depends on the contract: two transactions that differ only
there have the same preimage under every hash type and signature version. -/
theorem signaturePreimage_contract (H : Bytes → Uint256) (scriptCode : Bytes) (tx : CTransaction)
    (contract contract' : Contract) (nIn : Nat) (nHashType : BitVec 32) (amount : BitVec 64)
    (sigversion : SigVersion) :
    signaturePreimage H scriptCode { tx with contract } nIn nHashType amount sigversion =
      signaturePreimage H scriptCode { tx with contract := contract' } nIn nHashType amount
        sigversion :=
  signaturePreimage_congr rfl H scriptCode nIn nHashType amount sigversion

def callContract (args : List Bytes) : Contract := ⟨ACTION_CALL, [], 7, args⟩

def callTransaction (args : List Bytes) : CTransaction :=
  ⟨2, callContract args, [⟨⟨1, 0⟩, [], 0xffffffff, []⟩], [], 0⟩

theorem callTransaction_same_preimage :
    callTransaction [[1]] ≠ callTransaction [[2]] ∧
    ∀ H sigversion, ∃ preimage,
      signaturePreimage H [] (callTransaction [[1]]) 0 SIGHASH_ALL 0 sigversion = some preimage ∧
      signaturePreimage H [] (callTransaction [[2]]) 0 SIGHASH_ALL 0 sigversion = some preimage := by
  refine ⟨by decide, fun H sigversion => ?_⟩
  have hsigned : (callTransaction [[2]]).signedPart = (callTransaction [[1]]).signedPart := rfl
  rw [signaturePreimage_congr hsigned]
  cases sigversion <;> exact ⟨_, rfl, rfl⟩

end OurChain
