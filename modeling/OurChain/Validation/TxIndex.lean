import OurChain.Validation.DisconnectBlock
import OurChain.Validation.Disk

/-!
# The transaction index

`GetTransaction` finds a transaction by the position that `ConnectBlock` recorded for it: it
reads the header of the block, skips `nTxOffset` bytes and reads the transaction. The offsets
are added up from the sizes of the transactions, and the first of them is the size of their
number.
-/

namespace OurChain

open List

structure CDiskTxPos where
  nFile : Int
  nPos : BitVec 32
  nTxOffset : BitVec 32

/-- What `GetTransaction` looks at. `slowBlock` is the block at the height of an unspent coin of
the transaction, as `ReadBlockFromDisk` reads it, with the hash of its index entry. -/
structure TxSources where
  mempool : Uint256 → Option CTransaction
  fTxIndex : Bool
  readTxIndex : Uint256 → Option CDiskTxPos
  openBlockFile : Int → Option Bytes
  slowBlock : Uint256 → Option (CBlock × Uint256)

def readTransaction (H : Bytes → Uint256) (src : TxSources) (hash : Uint256) (postx : CDiskTxPos) :
    Option (CTransaction × Uint256) := do
  let file ← src.openBlockFile postx.nFile
  let (header, file) ← headerCodec.read (file.drop postx.nPos.toNat)
  let (txOut, _) ← txFormat.read (file.drop postx.nTxOffset.toNat)
  if txOut.getHash H ≠ hash then none else some (txOut, header.getHash H)

/-- The transaction and `hashBlock`, which stays as it was for a transaction of the pool. -/
def getTransaction (H : Bytes → Uint256) (src : TxSources) (hash hashBlock : Uint256)
    (fAllowSlow : Bool) :
    Option (CTransaction × Uint256) :=
  match src.mempool hash with
  | some ptx => some (ptx, hashBlock)
  | none =>
    match if src.fTxIndex then src.readTxIndex hash else none with
    | some postx => readTransaction H src hash postx
    | none =>
      if fAllowSlow then do
        let (block, blockHash) ← src.slowBlock hash
        let tx ← block.vtx.find? fun tx => tx.getHash H = hash
        return (tx, blockHash)
      else none

theorem length_le_vector (c : Codec α) (as : List α) (hpos : ∀ a ∈ as, 1 ≤ (c.write a).length) :
    as.length ≤ ((vector c).write as).length := by
  have hmany := Codec.mul_length_le_writeMany as hpos
  simp only [vector, Codec.counted, length_append]
  omega

theorem length_mem_le_flatMap (write : α → Bytes) {as : List α} (ha : a ∈ as) :
    (write a).length ≤ (as.flatMap write).length := by
  rw [length_flatMap]
  exact le_sum_of_mem (List.mem_map_of_mem ha)

theorem length_mem_le_vector (c : Codec α) (ha : a ∈ as) :
    (c.write a).length ≤ ((vector c).write as).length := by
  have hmem := length_mem_le_flatMap c.write ha
  simp only [vector, Codec.counted, Codec.writeMany, length_append]
  omega

theorem length_le_byteVector (bs : Bytes) : bs.length ≤ (byteVector.write bs).length :=
  length_le_vector Codec.u8 bs fun _ _ => (length_uint 8 1 _ _).ge

theorem length_byteVector_pos (bs : Bytes) : 1 ≤ (byteVector.write bs).length := by
  have hsize := length_writeCompactSize_pos bs.length
  simp only [byteVector, vector, Codec.counted, compactSize, length_append]
  omega

theorem lengths_le_byteVectors (items : List Bytes) :
    items.length ≤ ((vector byteVector).write items).length ∧
      ∀ item ∈ items, item.length ≤ ((vector byteVector).write items).length := by
  refine ⟨length_le_vector byteVector items fun item _ => length_byteVector_pos item,
    fun item hitem => ?_⟩
  exact (length_le_byteVector item).trans (length_mem_le_vector byteVector hitem)

theorem length_parts_le (tx : CTransaction) :
    ((vector txInCodec).write tx.vin).length + ((vector txOutCodec).write tx.vout).length +
      (contractCodec.write tx.contract).length ≤ (serializeTransaction true tx).length ∧
    ∀ i ∈ tx.vin, i.scriptWitness ≠ [] →
      (witnessCodec.write i.scriptWitness).length ≤ (serializeTransaction true tx).length := by
  constructor
  · simp only [serializeTransaction, length_append]
    omega
  · intro i hi hne
    have hwitness : tx.hasWitness = true := List.any_eq_true.mpr ⟨i, hi, by simpa using hne⟩
    have hmem := length_mem_le_flatMap (fun i : CTxIn => witnessCodec.write i.scriptWitness) hi
    simp only [serializeTransaction, hwitness, writeWitnesses, length_append, Bool.and_self, if_true]
    omega

theorem CTransaction.SizesOk.of_length (h : (serializeTransaction true tx).length ≤ MAX_SIZE) :
    tx.SizesOk := by
  obtain ⟨hparts, hwitness⟩ := length_parts_le tx
  have hvin := length_le_vector txInCodec tx.vin fun i _ =>
    (Nat.le_add_left 1 40).trans (length_txIn_txOut i ⟨0, []⟩).1
  have hvout := length_le_vector txOutCodec tx.vout fun o _ =>
    (length_txIn_txOut ⟨⟨0, 0⟩, [], 0, []⟩ o).2
  have hcontract : (byteVector.write tx.contract.code).length +
    ((vector byteVector).write tx.contract.args).length ≤
      (contractCodec.write tx.contract).length := by
    simp only [contractCodec, Codec.iso, Codec.seq, Codec.bind, length_append]
    omega
  have hcode := length_le_byteVector tx.contract.code
  obtain ⟨hargs, harg⟩ := lengths_le_byteVectors tx.contract.args
  refine ⟨by omega, fun i hi => ?_, fun i hi => ?_, by omega, fun o ho => ?_, by omega,
    by omega, fun arg hmem => ?_⟩
  · have hscript := length_le_byteVector i.scriptSig
    have hmem := length_mem_le_vector txInCodec hi
    simp only [txInCodec, Codec.iso, Codec.seq, Codec.bind, length_append] at hmem hparts
    omega
  · by_cases hne : i.scriptWitness = []
    · simp [hne]
    · have hle := hwitness i hi hne
      obtain ⟨hitems, hitem⟩ := lengths_le_byteVectors i.scriptWitness
      exact ⟨hitems.trans (hle.trans h), fun item hmem => (hitem item hmem).trans (hle.trans h)⟩
  · have hscript := length_le_byteVector o.scriptPubKey
    have hmem := length_mem_le_vector txOutCodec ho
    simp only [txOutCodec, Codec.iso, Codec.seq, Codec.bind, length_append] at hmem hparts
    omega
  · have hle := harg arg hmem
    omega

theorem length_serializeBlock_le (h : contextualCheckBlock env block pindexPrev = .ok ()) :
    (serializeBlock true block).length ≤ MAX_BLOCK_WEIGHT := by
  obtain ⟨-, -, -, -, -, hweight⟩ := (contextualCheckBlock_ok_iff env block pindexPrev).mp h
  unfold checkBlockWeight at hweight
  split at hweight
  · cases hweight
  · rename_i hle
    exact (Nat.le_add_left _ _).trans (Nat.not_lt.mp hle)

variable {block : CBlock}

theorem CBlock.Storable.of_checks
    (hcheck : checkBlock H block params fCheckPOW fCheckMerkleRoot = .ok ())
    (hlength : (serializeBlock true block).length ≤ MAX_BLOCK_WEIGHT) : block.Storable := by
  obtain ⟨hcount, -, hvtx⟩ := checkBlock_transactions H block hcheck
  have hmax : MAX_BLOCK_WEIGHT ≤ MAX_SIZE := by decide
  refine ⟨?_, fun tx htx => ⟨.of_length ?_, fun hnil => ?_⟩⟩
  · unfold checkBlockLength at hcount
    split at hcount
    · cases hcount
    · rename_i hle
      simp only [WITNESS_SCALE_FACTOR] at hle
      omega
  · have hmem := length_mem_le_flatMap (serializeTransaction true) htx
    simp only [serializeBlock, length_append] at hlength
    omega
  · have htx := hvtx tx htx
    simp [checkTransaction, hnil] at htx

def txPositions (H : Bytes → Uint256) : Nat → List CTransaction → List (Uint256 × Nat)
  | _, [] => []
  | nTxOffset, tx :: vtx =>
    (tx.getHash H, nTxOffset) :: txPositions H (nTxOffset + (serializeTransaction true tx).length) vtx

theorem txPositions_getElem? (H : Bytes → Uint256) (l₁ : List CTransaction) (tx : CTransaction)
    (l₂ : List CTransaction) (nTxOffset : Nat) :
    (txPositions H nTxOffset (l₁ ++ tx :: l₂))[l₁.length]? =
      some (tx.getHash H, nTxOffset + (l₁.flatMap (serializeTransaction true)).length) := by
  induction l₁ generalizing nTxOffset with
  | nil => simp [txPositions]
  | cons first l₁ ih =>
    simp only [cons_append, txPositions, length_cons, getElem?_cons_succ, ih, flatMap_cons,
      length_append, Nat.add_assoc]

theorem connectTx_vPos {v v' : ConnectVars} (h : connectTx env pindex v tx i = .ok v') :
    v'.vPos = v.vPos ++ [(tx.getHash env.H, v.nTxOffset)] ∧
      v'.nTxOffset = v.nTxOffset + (serializeTransaction true tx).length := by
  obtain ⟨⟨⟩, -, h⟩ := bind_ok_iff.mp h
  obtain ⟨nSigOpsCost, -, h⟩ := bind_ok_iff.mp h
  obtain ⟨⟨nFee, vChecks⟩, -, h⟩ := bind_ok_iff.mp (ite_error_eq_ok.mp h).2
  obtain ⟨⟨vprevout, view⟩, -, h⟩ := bind_ok_iff.mp h
  cases h
  exact ⟨rfl, rfl⟩

theorem connectTxs_vPos {v v' : ConnectVars}
    (h : (vtx.zipIdx k).foldlM (fun v (tx, i) => connectTx env pindex v tx i) v = .ok v') :
    v'.vPos = v.vPos ++ txPositions env.H v.nTxOffset vtx := by
  induction vtx generalizing v k with
  | nil =>
    cases h
    simp [txPositions]
  | cons tx vtx ih =>
    rw [zipIdx_cons, foldlM_cons] at h
    obtain ⟨v₁, hv₁, h⟩ := bind_ok_iff.mp h
    obtain ⟨hvPos, hoffset⟩ := connectTx_vPos hv₁
    rw [ih h, hvPos, hoffset, append_assoc]
    rfl

theorem connectBlock_vPos (hgenesis : block.header.getHash env.H ≠ env.hashGenesisBlock)
    (h : connectBlock env pindex block view fJustCheck = .ok r) :
    r.vPos = txPositions env.H (writeCompactSize block.vtx.length).length block.vtx := by
  obtain ⟨-, -, pprev, -, h⟩ := connectBlock_transactions hgenesis h
  obtain ⟨-, v, -, hloop, -, -, rfl⟩ := connectTransactions_ok h
  exact connectTxs_vPos hloop

theorem readTransaction_offset {src : TxSources} {l₁ l₂ : List CTransaction}
    (hvtx : block.vtx = l₁ ++ tx :: l₂) (hok : txFormat.Ok tx)
    (hlength : (serializeBlock true block).length < 2 ^ 32)
    (hfile : src.openBlockFile nFile = some file)
    (hbytes : file.drop nPos.toNat = blockFormat.write block ++ rest) :
    readTransaction H src (tx.getHash H) ⟨nFile, nPos, BitVec.ofNat 32
        ((writeCompactSize block.vtx.length).length +
          (l₁.flatMap (serializeTransaction true)).length)⟩ =
      some (tx, block.header.getHash H) := by
  have hsplit : blockFormat.write block ++ rest = headerCodec.write block.header ++
      ((writeCompactSize block.vtx.length ++ l₁.flatMap (serializeTransaction true)) ++
        (txFormat.write tx ++ (l₂.flatMap (serializeTransaction true) ++ rest))) := by
    simp [blockFormat, Format.iso, Format.seq, Format.counted, Codec.toFormat, Codec.writeMany,
      compactSize, txFormat, hvtx]
  have hoffset : (writeCompactSize block.vtx.length).length + (l₁.flatMap
    (serializeTransaction true)).length < 2 ^ 32 := by
    have htotal : (block.vtx.flatMap (serializeTransaction true)).length =
        (l₁.flatMap (serializeTransaction true)).length + ((tx :: l₂).flatMap
        (serializeTransaction true)).length := by
      rw [hvtx, flatMap_append, length_append]
    simp only [serializeBlock, length_append] at hlength
    omega
  rw [readTransaction, hfile]
  simp only [Option.bind_eq_bind, Option.bind_some, hbytes, hsplit,
    headerCodec.read_write _ _ (headerCodec_ok _)]
  rw [BitVec.toNat_ofNat, Nat.mod_eq_of_lt hoffset, drop_left' length_append,
    txFormat.read_write _ _ hok]
  simp

/-- `ConnectBlock` records for each transaction of a block where it is in the block file. -/
theorem getTransaction_connected {env : BlockEnv} {pindex : BlockPtr} {block : CBlock}
    {view : CCoinsView} {r : Connected} (hgenesis : block.header.getHash env.H ≠ env.hashGenesisBlock)
    (hcontext : contextualCheckBlock env block pindex.pprev = .ok ())
    (hconnect : connectBlock env pindex block view false = .ok r)
    (messageStart : BitVec 32) (file : Bytes) (nPos : BitVec 32) (hpos : nPos.toNat + 8 < 2 ^ 32)
    {i : Nat} {tx : CTransaction} (htx : block.vtx[i]? = some tx) :
    ∃ nTxOffset, r.vPos[i]? = some (tx.getHash env.H, nTxOffset) ∧
      ∀ (src : TxSources) (nFile : Int) (hashBlock : Uint256) (fAllowSlow : Bool),
        src.mempool (tx.getHash env.H) = none → src.fTxIndex = true →
        src.readTxIndex (tx.getHash env.H) =
          some ⟨nFile, (writeBlockToDisk messageStart block file nPos).2, BitVec.ofNat 32 nTxOffset⟩ →
        src.openBlockFile nFile = some (writeBlockToDisk messageStart block file nPos).1 →
        getTransaction env.H src (tx.getHash env.H) hashBlock fAllowSlow = some (tx,
        block.header.getHash env.H) := by
  obtain ⟨hi, rfl⟩ := List.getElem?_eq_some_iff.mp htx
  have hlength := length_serializeBlock_le hcontext
  have hstorable := CBlock.Storable.of_checks (connectBlock_transactions hgenesis hconnect).1 hlength
  have hok := hstorable.2 _ (getElem_mem hi)
  have hvtx : block.vtx = block.vtx.take i ++ block.vtx[i] :: block.vtx.drop (i + 1) := by
    rw [← drop_eq_getElem_cons hi, take_append_drop]
  have hrecorded := txPositions_getElem? env.H (block.vtx.take i) block.vtx[i]
    (block.vtx.drop (i + 1)) (writeCompactSize block.vtx.length).length
  rw [← hvtx, ← connectBlock_vPos hgenesis hconnect, length_take_of_le hi.le] at hrecorded
  refine ⟨_, hrecorded, fun src nFile hashBlock fAllowSlow hmempool hindex hread hopen => ?_⟩
  rw [getTransaction, hmempool, hindex, if_pos rfl, hread]
  exact readTransaction_offset hvtx hok (hlength.trans_lt (by decide)) hopen
    (drop_writeBlockToDisk messageStart block file nPos hpos)

def oneBlockSources (block : CBlock) (nTxOffset : Nat) : TxSources where
  mempool _ := none
  fTxIndex := true
  readTxIndex _ := some ⟨0, (writeBlockToDisk 0 block [] 0).2, BitVec.ofNat 32 nTxOffset⟩
  openBlockFile _ := some (writeBlockToDisk 0 block [] 0).1
  slowBlock _ := none

theorem getTransaction_spendingBlock : ∃ r nTxOffset,
    connectBlock longEnv (spendingIndex 0) (spendingBlock 0) (spentView 0) false = .ok r ∧
      r.vPos[1]? = some (spendingTx.getHash longEnv.H, nTxOffset) ∧
      getTransaction longEnv.H (oneBlockSources (spendingBlock 0) nTxOffset)
      (spendingTx.getHash longEnv.H) 0 false =
        some (spendingTx, (spendingBlock 0).header.getHash longEnv.H) := by
  have hok : (connectBlock longEnv (spendingIndex 0) (spendingBlock 0) (spentView 0) false).isOk := by
    decide +kernel
  have hgenesis : (spendingBlock 0).header.getHash longEnv.H ≠ longEnv.hashGenesisBlock := by
    decide +kernel
  have hcontext : contextualCheckBlock longEnv (spendingBlock 0) (spendingIndex 0).pprev =
    .ok () := by decide +kernel
  cases hconnect : connectBlock longEnv (spendingIndex 0) (spendingBlock 0) (spentView 0) false with
  | error e =>
    rw [hconnect] at hok
    cases hok
  | ok r =>
    obtain ⟨nTxOffset, hrecorded, hfound⟩ :=
      getTransaction_connected hgenesis hcontext hconnect 0 [] 0 (by decide)
        (show (spendingBlock 0).vtx[1]? = some spendingTx from rfl)
    exact ⟨r, nTxOffset, rfl, hrecorded,
      hfound (oneBlockSources _ nTxOffset) 0 0 false rfl rfl rfl rfl⟩

end OurChain
