import OurChain.Validation.ConnectBlock

/-!
# Chains that validation accepts

A chain is accepted if it starts with the genesis block and every further block
passes the checks of its header, `CheckBlock` and `ContextualCheckBlock` on top of its
parent, and `ConnectBlock` on the coins its parent leaves.

Any header that has been accepted on the genesis block can carry a coinbase without
further transactions instead, with any value in `hashContractState`: no check reads
the field, and the proof of work is a field of its own.
-/

namespace OurChain

structure GenesisParams where
  nTime : BitVec 32
  nPrecisionTime : BitVec 32
  nNonce : BitVec 32
  nBits : BitVec 32
  nVersion : BitVec 32
  genesisReward : BitVec 64

def pszTimestamp : String := "The Times 03/Jan/2009 Chancellor on brink of second bailout for banks"

def genesisOutputScript : Bytes :=
  let high := 0x04678afdb0fe5548271967f1a67130b7105cd6a828e03909a67962e0ea1f61deb6
  let low := 0x49f6bc3f4cef38c4f35504e51ec112de5c384df7ba0b8d578a4c702b6bf11d5f
  pushData ((leBytes 33 high).reverse ++ (leBytes 32 low).reverse) ++ [OP_CHECKSIG]

def COutPoint.null : COutPoint := ⟨0, 0xffffffff⟩

def Contract.null : Contract := ⟨ACTION_NONE, [], 0, []⟩

def genesisTx (genesisReward : BitVec 64) : CTransaction where
  nVersion := 1
  contract := .null
  vin := [{
    prevout := .null
    scriptSig := pushInt64 486604799 ++ pushData (scriptNumBytes 4) ++
      pushData (pszTimestamp.toList.map fun c => BitVec.ofNat 8 c.toNat)
    nSequence := SEQUENCE_FINAL
    scriptWitness := [] }]
  vout := [⟨genesisReward, genesisOutputScript⟩]
  nLockTime := 0

def createGenesisBlock (H : Bytes → Uint256) (params : GenesisParams) : CBlock :=
  let vtx := [genesisTx params.genesisReward]
  { vtx
    header := {
      nVersion := params.nVersion
      hashPrevBlock := 0
      hashMerkleRoot := (computeMerkleRoot H (vtx.map (CTransaction.getHash H))).1
      hashContractState := 0
      nTime := params.nTime
      nBits := params.nBits
      nNonce := params.nNonce
      nPrecisionTime := params.nPrecisionTime
      hashGPoW := 0 } }

/-- A network: the environment of its blocks, and its genesis block. -/
structure Network extends BlockEnv where
  genesisParams : GenesisParams
  hashGenesisBlock_eq : hashGenesisBlock = (createGenesisBlock H genesisParams).header.getHash H

def Network.genesis (net : Network) : CBlock := createGenesisBlock net.H net.genesisParams

def indexEntry (n : Node CBlock) : BlockPtr := n.map CBlock.header

/-- `block` is accepted on top of `p`, whose coins are `view`, and leaves `view'`. The
adjusted time and the last checkpoint are those of the arrival of its header. -/
structure Extends (net : Network) (p : Node CBlock) (view : CCoinsView) (block : CBlock)
    (view' : CCoinsView) : Prop where
  hashPrevBlock : block.header.hashPrevBlock = p.value.header.getHash net.H
  contextHeader : ∃ pcheckpoint nAdjustedTime,
    contextualCheckBlockHeader net.toChainParams pcheckpoint block.header
    (indexEntry p) nAdjustedTime = .ok ()
  check : checkBlock net.H block net.consensus true true = .ok ()
  context : contextualCheckBlock net.toBlockEnv block (some (indexEntry p)) = .ok ()
  connect : ∃ r, connectBlock net.toBlockEnv (indexEntry (.child p block)) block view false = .ok r ∧
    r.view = view'

inductive Accepted (net : Network) : Node CBlock → CCoinsView → Prop
  | genesis : connectBlock net.toBlockEnv (.root net.genesis.header) net.genesis .empty false =
    .ok r →
      Accepted net (.root net.genesis) r.view
  | child : Accepted net p view → Extends net p view block view' →
      Accepted net (.child p block) view'

variable {net : Network}

def Network.genesisView (net : Network) : CCoinsView :=
  CCoinsView.empty.setBestBlock (net.genesis.header.getHash net.H)

theorem connectBlock_genesis (r : Connected) :
    connectBlock net.toBlockEnv (.root net.genesis.header) net.genesis .empty false = .ok r ↔
      checkBlock net.H net.genesis net.consensus true true = .ok () ∧
      r = ⟨net.genesisView, [], []⟩ := by
  have hgenesis : net.genesis.header.getHash net.H = net.hashGenesisBlock :=
    net.hashGenesisBlock_eq.symm
  rw [connectBlock_ok_iff net.toBlockEnv (by rfl), if_pos hgenesis]
  exact and_congr Iff.rfl ⟨And.right, fun h => ⟨rfl, h⟩⟩

theorem Accepted.root_eq (h : Accepted net (.root block) view) :
    block = net.genesis ∧ view = net.genesisView := by
  cases h with
  | genesis hconnect =>
    obtain ⟨-, rfl⟩ := (connectBlock_genesis _).mp hconnect
    exact ⟨rfl, rfl⟩

def bareCoinbase : CTransaction where
  nVersion := 1
  contract := .null
  vin := [⟨.null, [OP_1, OP_0], SEQUENCE_FINAL, []⟩]
  vout := [⟨0, []⟩]
  nLockTime := 0

def bareBlock (H : Bytes → Uint256) (header : CBlockHeader) (hashContractState : Uint256) :
    CBlock where
  header := { header with hashMerkleRoot := bareCoinbase.getHash H, hashContractState }
  vtx := [bareCoinbase]

theorem length_serialize_bareBlock (H : Bytes → Uint256) (header : CBlockHeader)
    (hashContractState : Uint256) (fAllowWitness : Bool) :
    (serializeBlock fAllowWitness (bareBlock H header hashContractState)).length ≤ 1000 := by
  have hheader := length_headerCodec_le (bareBlock H header hashContractState).header
  have hvtx : (serializeTransaction fAllowWitness bareCoinbase).length ≤ 100 := by
    cases fAllowWitness <;> decide
  simp only [serializeBlock, bareBlock, List.length_append, List.flatMap_singleton] at hheader hvtx ⊢
  have hcount : (writeCompactSize [bareCoinbase].length).length = 1 := by decide
  omega

variable (header : CBlockHeader) (hashContractState : Uint256)

theorem checkBlock_bareBlock (hheader : checkBlockHeader net.consensus header true = .ok ()) :
    checkBlock net.H (bareBlock net.H header hashContractState) net.consensus true true = .ok () := by
  have hlen := length_serialize_bareBlock net.H header hashContractState false
  refine (checkBlock_ok_iff ..).mpr ⟨hheader, ?_, ?_, rfl, ?_, rfl⟩
  · simp [checkMerkleRoot, blockMerkleRoot, bareBlock, computeMerkleRoot_singleton]
  · rw [checkBlockLength, if_neg]
    rintro (h | h | h)
    · exact absurd h (by simp [bareBlock])
    · exact absurd h (by simp [bareBlock, MAX_BLOCK_WEIGHT, WITNESS_SCALE_FACTOR])
    · simp only [MAX_BLOCK_WEIGHT, WITNESS_SCALE_FACTOR] at h
      omega
  · have htx : checkTransaction bareCoinbase true = .ok () := by rfl
    simp [bareBlock, checkTransactions, htx]

theorem contextualCheckBlock_bareBlock
    (genesis : CBlockHeader) : contextualCheckBlock net.toBlockEnv
      (bareBlock net.H header hashContractState) (some (.root genesis)) = .ok () := by
  have hlen := length_serialize_bareBlock net.H header hashContractState
  refine (contextualCheckBlock_ok_iff ..).mpr ⟨?_, ?_, false, ?_, rfl, ?_⟩
  · simp [checkFinal, bareBlock, isFinalTx, bareCoinbase]
  · rw [checkCoinbaseHeight, if_neg]
    rintro ⟨-, h⟩
    exact h ⟨[OP_0], rfl⟩
  · rw [checkWitnessCommitment]
    split <;> rfl
  · have hstripped := hlen false
    have htotal := hlen true
    rw [checkBlockWeight, if_neg]
    simp only [getBlockWeight, MAX_BLOCK_WEIGHT, WITNESS_SCALE_FACTOR]
    omega

theorem connectTransactions_bareBlock (pindex pprev : BlockPtr) (header : CBlockHeader)
    (hashContractState : Uint256) : ∃ r, connectTransactions net.toBlockEnv pindex
      (bareBlock net.H header hashContractState) pprev net.genesisView false = .ok r := by
  have hempty : overwrites net.toBlockEnv (bareBlock net.H header hashContractState) net.genesisView =
      false := by
    simp [overwrites, bareBlock, bareCoinbase, CCoinsView.haveCoin, Network.genesisView,
      CCoinsView.setBestBlock, CCoinsView.empty]
  obtain ⟨view, hadd⟩ : ∃ view, net.genesisView.addCoins net.H bareCoinbase pindex.height =
    .ok view :=
    ⟨_, rfl⟩
  have hcost : 0 + getLegacySigOpCount bareCoinbase * WITNESS_SCALE_FACTOR ≤
    MAX_BLOCK_SIGOPS_COST := by
    decide
  have htx := connectTx_coinBase net.toBlockEnv pindex
    ⟨net.genesisView, 0, 0, [], [], [], (writeCompactSize 1).length⟩ 0 (by decide) hcost hadd
  have hvalue : getValueOut bareCoinbase = .ok 0 := rfl
  have hsubsidy := getBlockSubsidy_nonneg net.nSubsidyHalvingInterval pindex.height
  rw [connectTransactions, if_neg (by simp [hempty])]
  simp [bareBlock, connectTxs, htx, hvalue, bind, Except.bind, pure, Except.pure,
    Int.not_lt.mpr hsubsidy]

theorem connectBlock_bareBlock (hheader : checkBlockHeader net.consensus header true = .ok ()) :
    ∃ r, connectBlock net.toBlockEnv
      (indexEntry (.child (.root net.genesis) (bareBlock net.H header hashContractState)))
      (bareBlock net.H header hashContractState) net.genesisView false = .ok r := by
  have hcheck := checkBlock_bareBlock header hashContractState hheader
  simp only [connectBlock_ok_iff net.toBlockEnv (show
    (indexEntry (.child (.root net.genesis) (bareBlock net.H header hashContractState))).value =
      (bareBlock net.H header hashContractState).header from rfl), hcheck, true_and]
  split
  · exact ⟨_, rfl, rfl⟩
  · obtain ⟨r, hr⟩ := connectTransactions_bareBlock _ _ header hashContractState
    exact ⟨r, rfl, _, rfl, hr⟩

theorem Extends.bare (h : Extends net (.root net.genesis) net.genesisView block view)
    (hashContractState : Uint256) : ∃ view', Extends net (.root net.genesis) net.genesisView
      (bareBlock net.H block.header hashContractState) view' := by
  have hheader := ((checkBlock_ok_iff ..).mp h.check).1
  obtain ⟨r, hr⟩ := connectBlock_bareBlock block.header hashContractState hheader
  exact ⟨r.view, {
    hashPrevBlock := h.hashPrevBlock
    contextHeader := h.contextHeader
    check := checkBlock_bareBlock block.header hashContractState hheader
    context := contextualCheckBlock_bareBlock block.header hashContractState net.genesis.header
    connect := ⟨r, hr, rfl⟩ }⟩

theorem Accepted.exists_bare (h : Accepted net (.child p block) view) (hashContractState : Uint256) :
    ∃ header view', Accepted net
      (.child (.root net.genesis) (bareBlock net.H header hashContractState)) view' := by
  induction p generalizing block view with
  | root first =>
    cases h with
    | child hp hext =>
      obtain ⟨rfl, rfl⟩ := hp.root_eq
      obtain ⟨view', hbare⟩ := hext.bare hashContractState
      exact ⟨block.header, view', .child hp hbare⟩
  | child p first ih =>
    cases h with
    | child hp hext => exact ih hp

def sampleHash (bs : Bytes) : Uint256 :=
  BitVec.ofNat 256 (bs.foldl (fun h b => 257 * h + b.toNat + 1) 0)

def sampleGenesis : GenesisParams where
  nTime := 1701836965
  nPrecisionTime := 158478
  nNonce := 16
  nBits := 0x207fffff
  nVersion := 1
  genesisReward := 5000000000

def sampleNet : Network where
  consensus := regTestParams
  hashGenesisBlock := (createGenesisBlock sampleHash sampleGenesis).header.getHash sampleHash
  mapCheckpoints := []
  fCheckpointsEnabled := true
  BIP34Hash := (createGenesisBlock sampleHash sampleGenesis).header.getHash sampleHash
  nSubsidyHalvingInterval := 150
  H := sampleHash
  isActive _ _ := false
  fScriptChecks _ := true
  nScriptCheckThreads := 0
  verifyScript _ _ _ _ := none
  genesisParams := sampleGenesis
  hashGenesisBlock_eq := rfl

/-- A block on the genesis block as the miner leaves it: `hashContractState` is null. -/
def minedBlock (coinbase : CTransaction) : CBlock where
  header := {
    nVersion := 0x20000000
    hashPrevBlock := sampleNet.hashGenesisBlock
    hashMerkleRoot := coinbase.getHash sampleHash
    hashContractState := 0
    nTime := 1701836966
    nBits := 0x207fffff
    nNonce := 0
    nPrecisionTime := 0
    hashGPoW := 0 }
  vtx := [coinbase]

def minedChain (coinbase : CTransaction) : Node CBlock :=
  .child (.root sampleNet.genesis) (minedBlock coinbase)

theorem accepted_minedChain {coinbase : CTransaction}
    (hheader : contextualCheckBlockHeader sampleNet.toChainParams none (minedBlock coinbase).header
      (indexEntry (.root sampleNet.genesis)) 1701836966 = .ok ())
    (hcheck : checkBlock sampleNet.H (minedBlock coinbase) sampleNet.consensus true true = .ok ())
    (hcontext : contextualCheckBlock sampleNet.toBlockEnv (minedBlock coinbase)
      (some (indexEntry (.root sampleNet.genesis))) = .ok ())
    (hconnect : (connectBlock sampleNet.toBlockEnv (indexEntry (minedChain coinbase))
      (minedBlock coinbase) sampleNet.genesisView false).isOk) :
    ∃ view, Accepted sampleNet (minedChain coinbase) view := by
  have hgenesis : checkBlock sampleNet.H sampleNet.genesis sampleNet.consensus true true =
    .ok () := by
    decide +kernel
  cases hr : connectBlock sampleNet.toBlockEnv (indexEntry (minedChain coinbase))
    (minedBlock coinbase)
      sampleNet.genesisView false with
  | error e =>
    rw [hr] at hconnect
    cases hconnect
  | ok r =>
    refine ⟨r.view, .child (.genesis ((connectBlock_genesis _).mpr ⟨hgenesis, rfl⟩)) ?_⟩
    exact {
      hashPrevBlock := sampleNet.hashGenesisBlock_eq
      contextHeader := ⟨none, 1701836966, hheader⟩
      check := hcheck
      context := hcontext
      connect := ⟨r, hr, rfl⟩ }

end OurChain
