import OurChain.BlockEncodings.InitData
import OurChain.BlockEncodings.Request

/-!
# Relaying a block

A block is sent as a compact block, the receiver asks for the transactions it does not find
among those it knows, and puts the block together. The four encodings on the way compose to the
identity.
-/

namespace OurChain

open List

namespace CompactRelay

open InitData

/-- The block as the receiver has it in the end, if every step succeeds and `FillBlock` gives
`READ_STATUS_OK`. The mempool and the extra transactions are known by their witness hashes. -/
def relay (env : RelayEnv) (params : ConsensusParams) (block : CBlock) (fUseWTXID : Bool)
    (nonce : BitVec 64) (mempool extra : List CTransaction) : Option CBlock := do
  let known := List.map fun tx : CTransaction => (tx.getWitnessHash env.H, tx)
  let cmpctblock ← CBlockHeaderAndShortTxIDs.ofBlock env block fUseWTXID nonce
  let partialBlock ← (initData env cmpctblock (known mempool) (known extra)).toOption
  let indexes ← missingIndexes cmpctblock partialBlock
  let message := BlockTransactionsRequest.serialize ⟨block.header.getHash env.H, indexes⟩
  let (req, _) ← BlockTransactionsRequest.unserialize message
  let vtx_missing ← sendBlockTransactions block req
  let status ← partialBlock.fillBlock env.H params vtx_missing
  status.toOption

section
variable {v : List (Option CTransaction)} {vtx : List CTransaction}

theorem mapM_range_getElem? (l : List α) (f : α → β) :
    (List.range l.length).mapM (fun i => l[i]?.map f) = some (l.map f) := by
  induction l with
  | nil => rfl
  | cons a l ih =>
    rw [length_cons, range_succ_eq_map, mapM_cons, mapM_map]
    simp [Function.comp_def, ih]

theorem zipIdx_filter_freeFrom (k : Nat) (v : List (Option CTransaction)) :
    (((v.map Option.isSome).zipIdx k).filter fun e => !e.1).map Prod.snd = freeFrom k v := by
  induction v generalizing k with
  | nil => rfl
  | cons slot v ih => cases slot <;> simp [freeFrom, ih]

theorem missingIndexes_eq {cmpctblock : CBlockHeaderAndShortTxIDs}
    {partialBlock : PartiallyDownloadedBlock} (hnull : partialBlock.header.isNull = false)
    (hlength : partialBlock.txn_available.length = cmpctblock.blockTxCount) :
    missingIndexes cmpctblock partialBlock = some ((freeFrom 0 partialBlock.txn_available).map
    (BitVec.ofNat 16)) := by
  have havailable : (List.range cmpctblock.blockTxCount).mapM partialBlock.isTxAvailable =
      some (partialBlock.txn_available.map Option.isSome) := by
    rw [← hlength, ← mapM_range_getElem?]
    congr 1
    funext index
    simp [PartiallyDownloadedBlock.isTxAvailable, hnull]
  rw [missingIndexes, havailable, ← zipIdx_filter_freeFrom, List.map_map]
  rfl

theorem pairwise_freeFrom (k : Nat) (v : List (Option CTransaction)) :
    (freeFrom k v).Pairwise (· < ·) := by
  rw [freeFrom_eq]
  exact (pairwise_lt_range' ..).filter _

/-- Each slot that is filled has the transaction of the block. -/
def Agrees (v : List (Option CTransaction)) (vtx : List CTransaction) : Prop :=
  List.Forall₂ (fun slot tx => ∀ t, slot = some t → t = tx) v vtx

theorem fillVtx_missing (h : Agrees v vtx) (get : Nat → Option CTransaction)
    (hget : ∀ i < vtx.length, get (k + i) = vtx[i]?) :
    ∃ missing, (freeFrom k v).mapM get = some missing ∧
      PartiallyDownloadedBlock.fillVtx v missing = some (vtx, []) := by
  induction h generalizing k with
  | nil => exact ⟨[], rfl, rfl⟩
  | @cons slot tx v vtx hslot _ ih =>
    have hget' : ∀ i < vtx.length, get (k + 1 + i) = vtx[i]? := by
      intro i hi
      rw [Nat.add_assoc, Nat.add_comm 1 i]
      simpa using hget (i + 1) (by simpa using hi)
    obtain ⟨missing, hmissing, hfill⟩ := ih hget'
    cases slot with
    | none =>
      have hfirst : get k = some tx := by simpa using hget 0 (by simp)
      exact ⟨tx :: missing, by simp [freeFrom, hfirst, hmissing],
        by simp [PartiallyDownloadedBlock.fillVtx, hfill]⟩
    | some t =>
      obtain rfl := hslot t rfl
      exact ⟨missing, by simp [freeFrom, hmissing], by simp [PartiallyDownloadedBlock.fillVtx, hfill]⟩

end

open CBlockHeaderAndShortTxIDs

def blockShortIDs (env : RelayEnv) (block : CBlock) (fUseWTXID : Bool) (nonce : BitVec 64) :
    List (BitVec 64) :=
  block.vtx.tail.map fun tx => shortID env block.header nonce (relayHash env fUseWTXID tx)

/-- The nonce makes no two short ids of the block the same, none the same as that of another
transaction that the receiver knows, and fills no bucket above the limit. -/
structure GoodNonce (env : RelayEnv) (block : CBlock) (fUseWTXID : Bool) (nonce : BitVec 64)
    (known : List CTransaction) :
    Prop where
  distinct : (blockShortIDs env block fUseWTXID nonce).Nodup
  known : ∀ tx ∈ block.vtx.tail, ∀ t ∈ known, t ≠ tx →
    shortID env block.header nonce (t.getWitnessHash env.H) ≠ shortID env block.header nonce
    (relayHash env fUseWTXID tx)
  buckets : ∀ before id after, blockShortIDs env block fUseWTXID nonce = before ++ id :: after →
    env.bucketSize (blockShortIDs env block fUseWTXID nonce).length (before ++ [id]) id ≤ 12

section
variable {env : RelayEnv} {params : ConsensusParams} {header : CBlockHeader} {coinbase : CTransaction}
  {vtx : List CTransaction} {fUseWTXID : Bool} {nonce : BitVec 64}

theorem not_isNull_of_checkBlockHeader (h : checkBlockHeader params header true = .ok ()) :
    header.isNull = false := by
  obtain ⟨target, htarget, -⟩ := (checkBlockHeader_ok_iff params header).mp h
  by_contra hnull
  have hzero : header.nBits = 0 := by simpa [CBlockHeader.isNull] using hnull
  rw [hzero] at htarget
  have hnone : validTarget params 0 = none := by
    rw [validTarget, show setCompact 0 = (0, false, false) by decide]
    rfl
  rw [hnone] at htarget
  cases htarget

theorem exists_coinbase {block : CBlock} (h : checkCoinBases block = .ok ()) :
    ∃ coinbase vtx, block.vtx = coinbase :: vtx ∧ coinbase.isNull = false := by
  cases hvtx : block.vtx with
  | nil => simp [checkCoinBases, hvtx] at h
  | cons coinbase vtx =>
    refine ⟨coinbase, vtx, rfl, ?_⟩
    cases hvin : coinbase.vin with
    | nil => simp [checkCoinBases, hvtx, CTransaction.isCoinBase, hvin] at h
    | cons => simp [CTransaction.isNull, hvin]

def compactOf (env : RelayEnv) (header : CBlockHeader) (coinbase : CTransaction)
    (vtx : List CTransaction) (fUseWTXID : Bool) (nonce : BitVec 64) : CBlockHeaderAndShortTxIDs where
  header := header
  nonce := nonce
  shorttxids := blockShortIDs env ⟨header, coinbase :: vtx⟩ fUseWTXID nonce
  prefilledtxn := [⟨0, coinbase⟩]

theorem blockTxCount_compactOf :
    (compactOf env header coinbase vtx fUseWTXID nonce).blockTxCount = vtx.length + 1 := by
  simp [CBlockHeaderAndShortTxIDs.blockTxCount, compactOf, blockShortIDs]

theorem placeTransactions_compactOf (hnull : coinbase.isNull = false) :
    placeTransactions (compactOf env header coinbase vtx fUseWTXID nonce) =
      .ok (some coinbase :: List.replicate vtx.length none) := by
  rw [placeTransactions, blockTxCount_compactOf]
  simp [compactOf, placePrefilled, hnull, writeAt, replicate_succ, bind, Except.bind]

theorem remaining_compactOf :
    remaining (compactOf env header coinbase vtx fUseWTXID nonce) =
    (List.range vtx.length).map (· + 1) := by
  rw [remaining, blockTxCount_compactOf, range_succ_eq_map]
  simp [positions, placements, compactOf]

variable {placed : List (Option CTransaction)} {known : List CTransaction}

theorem bindIndices_compactOf {cmpctblock : CBlockHeaderAndShortTxIDs}
    (hgood : GoodNonce env ⟨header, coinbase :: vtx⟩ fUseWTXID nonce known)
    (hcount : vtx.length < 2 ^ 16) (hc : compactOf env header coinbase vtx fUseWTXID nonce =
    cmpctblock) (hplaced : PlacedBy cmpctblock placed) :
    bindIndices env cmpctblock placed = .ok (assignAll [] (shortIndices cmpctblock)) ∧
      (assignAll [] (shortIndices cmpctblock)).length = cmpctblock.shorttxids.length := by
  have hkeys : (shortIndices cmpctblock).map Prod.fst = cmpctblock.shorttxids :=
    map_fst_zip hplaced.length_remaining.ge
  have hspec := @bindIndices_spec env _ _ hplaced
  generalize shortIndices cmpctblock = pairs at hkeys hspec ⊢
  subst hc
  have hnodup : (([] : ShortTxIDs).map Prod.fst ++ pairs.map Prod.fst).Nodup := by
    rw [hkeys]
    exact hgood.distinct
  constructor
  · rcases hspec with ⟨-, before, e, after, rfl, hfull⟩ | ⟨-, -, hmany⟩ | hok
    · have hbefore : (([] : ShortTxIDs).map Prod.fst ++ (before ++ [e]).map Prod.fst).Nodup := by
        refine hnodup.sublist ?_
        simp
      have hbucket := hgood.buckets (before.map Prod.fst) e.1 (after.map Prod.fst)
        (by rw [← map_cons, ← map_append, hkeys]; rfl)
      rw [assignAll_of_nodup hbefore] at hfull
      simp [Function.comp_def] at hfull
      exact absurd hfull (Nat.not_lt.mpr hbucket)
    · rw [blockTxCount_compactOf] at hmany
      omega
    · exact hok
  · rw [assignAll_of_nodup hnodup, nil_append, length_map, ← hkeys, length_map]

variable {partialBlock : PartiallyDownloadedBlock}

theorem agrees_of_accepted {shorttxids : ShortTxIDs}
    (hgood : GoodNonce env ⟨header, coinbase :: vtx⟩ fUseWTXID nonce known)
    (hcount : vtx.length < 2 ^ 16) (haccepted : Accepted env
    (compactOf env header coinbase vtx fUseWTXID nonce)
      (known.map fun tx => (tx.getWitnessHash env.H, tx)) placed shorttxids partialBlock) :
    Agrees partialBlock.txn_available (coinbase :: vtx) := by
  have hfew : (compactOf env header coinbase vtx fUseWTXID nonce).blockTxCount ≤ 2 ^ 16 := by
    rw [blockTxCount_compactOf]
    omega
  have hright := haccepted.slotRight hfew
  refine forall₂_iff_get.mpr ⟨?_, ?_⟩
  · rw [haccepted.length, blockTxCount_compactOf, length_cons]
  · intro i hi hi' t ht
    have hslot := hright i _ (getElem?_eq_getElem hi)
    cases i with
    | zero =>
      have hfirst := hslot.prefilled (0, coinbase) (by simp [compactOf, placements]) rfl
      exact Option.some.inj (ht.symm.trans hfirst)
    | succ i =>
      have hlt : i < vtx.length := by simpa using hi'
      have hbound : (shortID env header nonce (relayHash env fUseWTXID vtx[i]), i + 1) ∈
          shortIndices (compactOf env header coinbase vtx fUseWTXID nonce) := by
        refine mem_iff_getElem?.mpr ⟨i, getElem?_zip_eq_some.mpr ⟨?_, ?_⟩⟩
        · simp [compactOf, blockShortIDs, hlt]
        · simp [remaining_compactOf, hlt]
      rcases hslot.matched _ hbound rfl with hnone | ⟨k, hk, hid, hsome⟩
      · exact absurd (ht.symm.trans hnone) (by simp)
      · obtain ⟨t', ht', rfl⟩ := List.mem_map.mp hk
        obtain rfl : t = t' := Option.some.inj (ht.symm.trans hsome)
        by_contra hne
        exact hgood.known vtx[i] (getElem_mem hlt) t ht' hne hid

theorem complete_of_agrees {block : CBlock} {cmpctblock : CBlockHeaderAndShortTxIDs}
    (hvalid : checkBlock env.H block params true true = .ok ()) (hcount : block.vtx.length ≤ 65535)
    (hnull : block.header.isNull = false) (hheader : partialBlock.header = block.header)
    (hlength : partialBlock.txn_available.length = cmpctblock.blockTxCount)
    (hagrees : Agrees partialBlock.txn_available block.vtx) :
    ∃ indexes missing, missingIndexes cmpctblock partialBlock = some indexes ∧
      (∀ hash, BlockTransactionsRequest.unserialize
        (BlockTransactionsRequest.serialize ⟨hash, indexes⟩) = some (⟨hash, indexes⟩, [])) ∧
      (∀ hash, sendBlockTransactions block ⟨hash, indexes⟩ = some missing) ∧
      partialBlock.fillBlock env.H params missing = some (.ok block) := by
  have hsame : partialBlock.txn_available.length = block.vtx.length := hagrees.length_eq
  have hbelow : ∀ m ∈ freeFrom 0 partialBlock.txn_available, m < block.vtx.length := by
    intro m hm
    rw [freeFrom_eq] at hm
    have hlt := mem_range'_1.mp (mem_of_mem_filter hm)
    omega
  have hincreasing : ((freeFrom 0 partialBlock.txn_available).map (BitVec.ofNat 16)).Pairwise
    (· < ·) := by
    refine pairwise_map.mpr ((pairwise_freeFrom 0 _).imp_of_mem ?_)
    intro m m' hm hm' hlt
    have hm₂ := hbelow m' hm'
    rw [BitVec.lt_def, BitVec.toNat_ofNat, BitVec.toNat_ofNat]
    omega
  have hshort : ((freeFrom 0 partialBlock.txn_available).map (BitVec.ofNat 16)).length ≤
    MAX_SIZE := by
    have hfree := length_freeFrom 0 partialBlock.txn_available
    rw [length_map, MAX_SIZE]
    omega
  have hget : ∀ i < block.vtx.length, block.vtx[(BitVec.ofNat 16 (0 + i)).toNat]? =
    block.vtx[i]? := by
    intro i hi
    rw [Nat.zero_add, BitVec.toNat_ofNat, Nat.mod_eq_of_lt (by omega)]
  obtain ⟨missing, hsend, hfill⟩ :=
    fillVtx_missing hagrees (fun m => block.vtx[(BitVec.ofNat 16 m).toNat]?) hget
  refine ⟨_, missing, missingIndexes_eq (hheader ▸ hnull) hlength, ?_, ?_, ?_⟩
  · intro hash
    simpa using IndexList.unserialize_serialize ⟨hash, _⟩ hincreasing hshort []
  · intro hash
    rw [sendBlockTransactions, mapM_map]
    exact hsend
  · rw [PartiallyDownloadedBlock.fillBlock, hheader, hnull, hfill]
    simp [hvalid]

/-- For every valid block of at most 65535 transactions, whatever the receiver knows of it, the
block that is put together is the block that was sent. -/
theorem relay_eq (env : RelayEnv) (params : ConsensusParams) (block : CBlock) (fUseWTXID : Bool)
    (nonce : BitVec 64) (mempool extra : List CTransaction)
    (hvalid : checkBlock env.H block params true true = .ok ()) (hcount : block.vtx.length ≤ 65535)
    (hgood : GoodNonce env block fUseWTXID nonce (mempool ++ extra)) :
    relay env params block fUseWTXID nonce mempool extra = some block := by
  obtain ⟨hheader, -, -, hcoinbases, -⟩ := (checkBlock_ok_iff env.H block params).mp hvalid
  have hnull := not_isNull_of_checkBlockHeader hheader
  obtain ⟨coinbase, vtx, hvtx, hcoinbase⟩ := exists_coinbase hcoinbases
  obtain ⟨header, _⟩ := block
  obtain rfl := hvtx
  have hsized : Sized (compactOf env header coinbase vtx fUseWTXID nonce) := by
    refine ⟨by simp [compactOf, hnull], ?_⟩
    rw [blockTxCount_compactOf, ← length_cons]
    exact hcount.trans (by decide)
  have hplace := @placeTransactions_compactOf env header coinbase vtx fUseWTXID nonce hcoinbase
  have hcompact : CBlockHeaderAndShortTxIDs.ofBlock env ⟨header, coinbase :: vtx⟩ fUseWTXID nonce =
      some (compactOf env header coinbase vtx fUseWTXID nonce) := rfl
  generalize hc : compactOf env header coinbase vtx fUseWTXID nonce =
    cmpctblock at hsized hplace hcompact
  have hplaced := placedBy_of_ok hplace
  have hfew : vtx.length < 2 ^ 16 := by
    simp at hcount
    omega
  obtain ⟨hbind, hassigned⟩ := bindIndices_compactOf hgood hfew hc hplaced
  obtain ⟨partialBlock, hinit, haccepted⟩ := initData_accepts
    (mempool.map fun tx => (tx.getWitnessHash env.H, tx)) (extra.map fun tx =>
    (tx.getWitnessHash env.H, tx)) hsized hplace hplaced hbind hassigned
  rw [← map_append, ← hc] at haccepted
  obtain ⟨indexes, missing, hindexes, hrequest, hsend, hfill⟩ :=
    complete_of_agrees hvalid hcount hnull haccepted.header haccepted.length
      (agrees_of_accepted hgood hfew haccepted)
  subst hc
  simp only [relay, hcompact, hinit, hindexes, hrequest, hsend, hfill, Except.toOption,
    Option.bind_eq_bind, Option.bind_some]

end

def firstBytesEnv : RelayEnv where
  H bs := BitVec.ofNat 256 (ofLeBytes bs)
  sha256 _ := 0
  sipHashUint256 _ _ txhash := txhash.setWidth 64
  bucketSize _ _ _ := 1

def spendingTx (nVersion : BitVec 32) : CTransaction :=
  ⟨nVersion, ⟨ACTION_NONE, [], 0, []⟩, [⟨⟨1, 0⟩, [], 0, []⟩], [⟨0, []⟩], 0⟩

def coinbaseTx : CTransaction :=
  ⟨1, ⟨ACTION_NONE, [], 0, []⟩, [⟨⟨0, 0xffffffff⟩, [0x51, 0x51], 0, []⟩], [⟨0, []⟩], 0⟩

/-- A block of three transactions, of which the receiver knows the second. -/
def threeTxBlock : CBlock :=
  let vtx := [coinbaseTx, spendingTx 2, spendingTx 3]
  ⟨⟨1, 0, (blockMerkleRoot firstBytesEnv.H ⟨someHeader, vtx⟩).1, 0, 0, 0x1d00ffff, 0, 0, 0⟩, vtx⟩

theorem relay_eq_three :
    relay firstBytesEnv regTestParams threeTxBlock true 7 [spendingTx 2] [] = some threeTxBlock := by
  have hvalid : checkBlock firstBytesEnv.H threeTxBlock regTestParams true true = .ok () := by
    decide +kernel
  have hgood : GoodNonce firstBytesEnv threeTxBlock true 7 ([spendingTx 2] ++ []) := by
    refine ⟨by decide +kernel, by decide +kernel, ?_⟩
    intro before id after _
    exact Nat.one_le_ofNat
  exact relay_eq _ _ _ _ _ _ _ hvalid (by decide) hgood

end CompactRelay

end OurChain
