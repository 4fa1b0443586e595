import OurChain.Consensus.Merkle
import OurChain.Consensus.TxContext

/-!
# Checks of a block

`CheckBlock`, which needs no context, and `ContextualCheckBlock`, which needs the
headers below the block. Each group of checks is a function of its own, in the order
of the source.
-/

namespace OurChain

def MAX_BLOCK_SIGOPS_COST : Nat := 80000

inductive DeploymentPos
  | testDummy
  | csv
  | segWit
  deriving DecidableEq

/-- The chain parameters and what the checks of a block call: the hash of
`CHashWriter`, whether `VersionBitsState` is active behind a block, whether a block is
not covered by `hashAssumeValid`, and script verification with the text of its error. -/
structure BlockEnv extends ChainParams where
  BIP34Hash : Uint256
  nSubsidyHalvingInterval : Int
  H : Bytes → Uint256
  isActive : Option BlockPtr → DeploymentPos → Bool
  fScriptChecks : BlockPtr → Bool
  nScriptCheckThreads : Nat
  verifyScript : CTransaction → Nat → CTxOut → BitVec 32 → Option String

def serializeBlock (fAllowWitness : Bool) (block : CBlock) : Bytes :=
  headerCodec.write block.header ++
    (writeCompactSize block.vtx.length ++ block.vtx.flatMap (serializeTransaction fAllowWitness))

def getBlockWeight (block : CBlock) : Nat :=
  (serializeBlock false block).length * (WITNESS_SCALE_FACTOR - 1) +
    (serializeBlock true block).length

section
variable (H : Bytes → Uint256) (block : CBlock)

def checkMerkleRoot : Except Reject Unit :=
  let (hashMerkleRoot2, mutated) := blockMerkleRoot H block
  if block.header.hashMerkleRoot ≠ hashMerkleRoot2 then
    .error ⟨100, REJECT_INVALID, "bad-txnmrklroot", true, "hashMerkleRoot mismatch"⟩
  else if mutated then
    .error ⟨100, REJECT_INVALID, "bad-txns-duplicate", true, "duplicate transaction"⟩
  else .ok ()

def checkBlockLength : Except Reject Unit :=
  if block.vtx.isEmpty ∨ block.vtx.length * WITNESS_SCALE_FACTOR > MAX_BLOCK_WEIGHT ∨
      (serializeBlock false block).length * WITNESS_SCALE_FACTOR > MAX_BLOCK_WEIGHT then
    .error ⟨100, REJECT_INVALID, "bad-blk-length", false, "size limits failed"⟩
  else .ok ()

def checkCoinBases : Except Reject Unit :=
  if block.vtx.head?.all fun tx => !tx.isCoinBase then
    .error ⟨100, REJECT_INVALID, "bad-cb-missing", false, "first tx is not coinbase"⟩
  else if block.vtx.tail.any CTransaction.isCoinBase then
    .error ⟨100, REJECT_INVALID, "bad-cb-multiple", false, "more than one coinbase"⟩
  else .ok ()

/-- A rejected transaction rejects the block, with another debug message. -/
def checkTransactions : List CTransaction → Except Reject Unit
  | [] => .ok ()
  | tx :: vtx =>
    match checkTransaction tx true with
    | .ok () => checkTransactions vtx
    | .error reject => .error { reject with
        corruptionPossible := false
        strDebugMessage := "Transaction check failed (tx hash " ++ (tx.getHash H).toHex ++ ") " ++
          reject.strDebugMessage }

def checkLegacySigOps : Except Reject Unit :=
  let nSigOps := (block.vtx.map getLegacySigOpCount).sum
  if nSigOps * WITNESS_SCALE_FACTOR > MAX_BLOCK_SIGOPS_COST then
    .error ⟨100, REJECT_INVALID, "bad-blk-sigops", false, "out-of-bounds SigOpCount"⟩
  else .ok ()

-- `fChecked` only spares a block that has passed from being checked again.
def checkBlock (params : ConsensusParams) (fCheckPOW fCheckMerkleRoot : Bool) :
    Except Reject Unit := do
  checkBlockHeader params block.header fCheckPOW
  if fCheckMerkleRoot then checkMerkleRoot H block
  checkBlockLength block
  checkCoinBases block
  checkTransactions H block.vtx
  checkLegacySigOps block

theorem checkBlock_ok_iff (params : ConsensusParams) : checkBlock H block params true true = .ok () ↔
    checkBlockHeader params block.header true = .ok () ∧ checkMerkleRoot H block = .ok () ∧
      checkBlockLength block = .ok () ∧ checkCoinBases block = .ok () ∧
      checkTransactions H block.vtx = .ok () ∧ checkLegacySigOps block = .ok () := by
  simp [checkBlock, bind_ok_iff, Unique.exists_iff]

theorem checkCoinBases_ok (h : checkCoinBases block = .ok ()) :
    ∃ tx vtx, block.vtx = tx :: vtx ∧ tx.isCoinBase = true ∧ ∀ tx ∈ vtx, tx.isCoinBase = false := by
  unfold checkCoinBases at h
  split at h
  · cases h
  · rename_i hfirst
    split at h
    · cases h
    · rename_i hrest
      cases hvtx : block.vtx with
      | nil => simp [hvtx] at hfirst
      | cons tx vtx =>
        rw [hvtx] at hfirst hrest
        refine ⟨tx, vtx, rfl, by simpa using hfirst, fun tx htx => ?_⟩
        simpa using fun hcoinbase => hrest (List.any_eq_true.mpr ⟨tx, htx, hcoinbase⟩)

theorem checkTransactions_ok {vtx : List CTransaction} (h : checkTransactions H vtx = .ok ()) :
    ∀ tx ∈ vtx, checkTransaction tx true = .ok () := by
  induction vtx with
  | nil => simp
  | cons tx vtx ih =>
    rw [checkTransactions] at h
    split at h
    · rename_i htx
      intro tx' htx'
      rcases List.mem_cons.mp htx' with rfl | htx'
      · exact htx
      · exact ih h tx' htx'
    · cases h

/-- What every `CheckBlock` checks of the transactions, with or without the proof of work
and the Merkle root. -/
theorem checkBlock_transactions {params : ConsensusParams} {fCheckPOW fCheckMerkleRoot : Bool}
    (h : checkBlock H block params fCheckPOW fCheckMerkleRoot = .ok ()) :
    checkBlockLength block = .ok () ∧ checkCoinBases block = .ok () ∧
      ∀ tx ∈ block.vtx, checkTransaction tx true = .ok () := by
  have hchecks : checkBlockLength block = .ok () ∧ checkCoinBases block = .ok () ∧
      checkTransactions H block.vtx = .ok () := by
    cases fCheckMerkleRoot with
    | true =>
      simp only [checkBlock, bind_ok_iff, Unique.exists_iff, if_true] at h
      exact ⟨h.2.2.1, h.2.2.2.1, h.2.2.2.2.1⟩
    | false =>
      simp only [checkBlock, bind_ok_iff, Unique.exists_iff, Bool.false_eq_true, if_false] at h
      exact ⟨h.2.1, h.2.2.1, h.2.2.2.1⟩
  exact ⟨hchecks.1, hchecks.2.1, checkTransactions_ok H hchecks.2.2⟩

end

theorem checkTransaction_size (h : checkTransaction tx fCheckDuplicateInputs = .ok ()) :
    (serializeTransaction false tx).length * WITNESS_SCALE_FACTOR ≤ MAX_BLOCK_WEIGHT := by
  unfold checkTransaction at h
  split at h
  · cases h
  · split at h
    · cases h
    · split at h
      · cases h
      · rename_i hsize
        exact Nat.not_lt.mp hsize

theorem checkTransaction_parts (h : checkTransaction tx true = .ok ()) :
    (∀ out ∈ tx.vout, moneyRange out.value = true) ∧
      moneyRange (tx.vout.map CTxOut.value).sum = true ∧ (tx.vin.map CTxIn.prevout).Nodup := by
  unfold checkTransaction at h
  split at h
  · cases h
  · split at h
    · cases h
    · split at h
      · cases h
      · obtain ⟨⟨⟩, houtputs, hinputs⟩ := bind_ok_iff.mp h
        have hsum := checkOutputs_sum rfl houtputs
        rw [zero_add] at hsum
        refine ⟨checkOutputs_range houtputs, hsum, ?_⟩
        unfold checkInputs at hinputs
        split at hinputs
        · cases hinputs
        · rename_i hdistinct
          simpa using hdistinct

theorem checked_vtx (h : checkBlock H block params fCheckPOW fCheckMerkleRoot = .ok ()) :
    ∃ coinbase vtx, block.vtx = coinbase :: vtx ∧ coinbase.isCoinBase = true ∧
      checkTransaction coinbase true = .ok () ∧
      ∀ e ∈ vtx.zipIdx 1, checkTransaction e.1 true = .ok () ∧ e.1.isCoinBase = false := by
  obtain ⟨-, hcoinbases, hvtx⟩ := checkBlock_transactions H block h
  obtain ⟨tx, vtx, heq, hfirst, hrest⟩ := checkCoinBases_ok block hcoinbases
  rw [heq] at hvtx
  refine ⟨tx, vtx, heq, hfirst, hvtx tx List.mem_cons_self, fun e he => ?_⟩
  have hmem := List.fst_mem_of_mem_zipIdx he
  exact ⟨hvtx e.1 (List.mem_cons_of_mem _ hmem), hrest e.1 hmem⟩

section
variable (env : BlockEnv) (block : CBlock) (pindexPrev : Option BlockPtr)

def nextHeight : Nat :=
  match pindexPrev with
  | none => 0
  | some pindex => pindex.height + 1

def checkFinal : Except Reject Unit :=
  let nLockTimeCutoff := match pindexPrev with
    | some pindex =>
      if env.isActive (some pindex) .csv then getMedianTimePast pindex else getBlockTime block.header
    | none => getBlockTime block.header
  if block.vtx.all fun tx => isFinalTx tx (nextHeight pindexPrev) nLockTimeCutoff then .ok ()
  else .error ⟨10, REJECT_INVALID, "bad-txns-nonfinal", false, "non-final transaction"⟩

def coinbaseInput : Option CTxIn := block.vtx.head?.bind fun tx => tx.vin.head?

def checkCoinbaseHeight : Except Reject Unit :=
  let nHeight := nextHeight pindexPrev
  let scriptSig := ((coinbaseInput block).map CTxIn.scriptSig).getD []
  if env.consensus.BIP34Height ≤ nHeight ∧ ¬ pushInt64 nHeight <+: scriptSig then
    .error ⟨100, REJECT_INVALID, "bad-cb-height", false, "block height mismatch in coinbase"⟩
  else .ok ()

def witnessHeader : Bytes := [OP_RETURN, 0x24, 0xaa, 0x21, 0xa9, 0xed]

/-- The script of the last output of the coinbase that has a witness commitment. -/
def witnessCommitment : Option Bytes :=
  block.vtx.head?.bind fun tx =>
    (tx.vout.map CTxOut.scriptPubKey).reverse.find? fun script =>
      decide (38 ≤ script.length) && decide (script.take 6 = witnessHeader)

def contextual (text : String) : String := "ContextualCheckBlock : " ++ text

def checkWitnessCommitment : Except Reject Bool :=
  if env.isActive pindexPrev .segWit then
    match witnessCommitment block with
    | none => .ok false
    | some scriptPubKey =>
      match (coinbaseInput block).map CTxIn.scriptWitness with
      | some [nonce] =>
        if nonce.length ≠ 32 then
          .error ⟨100, REJECT_INVALID, "bad-witness-nonce-size", true,
            contextual "invalid witness nonce size"⟩
        else
          let hashWitness := env.H (Codec.u256.write (blockWitnessMerkleRoot env.H block).1 ++ nonce)
          if Codec.u256.write hashWitness ≠ (scriptPubKey.drop 6).take 32 then
            .error ⟨100, REJECT_INVALID, "bad-witness-merkle-match", true,
              contextual "witness merkle commitment mismatch"⟩
          else .ok true
      | _ =>
        .error ⟨100, REJECT_INVALID, "bad-witness-nonce-size", true,
          contextual "invalid witness nonce size"⟩
  else .ok false

def checkNoWitness (fHaveWitness : Bool) : Except Reject Unit :=
  if !fHaveWitness && block.vtx.any CTransaction.hasWitness then
    .error ⟨100, REJECT_INVALID, "unexpected-witness", true,
      contextual "unexpected witness data found"⟩
  else .ok ()

def checkBlockWeight : Except Reject Unit :=
  if getBlockWeight block > MAX_BLOCK_WEIGHT then
    .error ⟨100, REJECT_INVALID, "bad-blk-weight", false, contextual "weight limit failed"⟩
  else .ok ()

def contextualCheckBlock : Except Reject Unit := do
  checkFinal env block pindexPrev
  checkCoinbaseHeight env block pindexPrev
  let fHaveWitness ← checkWitnessCommitment env block pindexPrev
  checkNoWitness block fHaveWitness
  checkBlockWeight block

theorem contextualCheckBlock_ok_iff : contextualCheckBlock env block pindexPrev = .ok () ↔
    checkFinal env block pindexPrev = .ok () ∧ checkCoinbaseHeight env block pindexPrev = .ok () ∧
      ∃ fHaveWitness, checkWitnessCommitment env block pindexPrev = .ok fHaveWitness ∧
        checkNoWitness block fHaveWitness = .ok () ∧ checkBlockWeight block = .ok () := by
  simp [contextualCheckBlock, bind_ok_iff, Unique.exists_iff]

end

end OurChain
