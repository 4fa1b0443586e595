import OurChain.Lib.Table
import OurChain.Validation.CheckBlock

/-!
# Compact blocks

The messages by which a block is relayed without the transactions that the receiver knows, and
the receiver's `PartiallyDownloadedBlock`. Accesses to `txn_available` are partial, and the
counters of 16 bits wrap, as in the source.
-/

namespace OurChain

theorem toNat_succ {x : BitVec 16} (h : x.toNat + 1 < 2 ^ 16) : (x + 1).toNat = x.toNat + 1 := by
  simpa [BitVec.toNat_add] using h

structure BlockTransactionsRequest where
  blockhash : Uint256
  indexes : List (BitVec 16)
  deriving DecidableEq

/-- The next index as it is written: the distance from the one behind the last index. -/
def difference : Option (BitVec 16) → BitVec 16 → BitVec 64
  | none, index => BitVec.ofInt 64 index.toNat
  | some last, index => BitVec.ofInt 64 (index.toNat - (last.toNat + 1))

def writeIndexes : Option (BitVec 16) → List (BitVec 16) → Bytes
  | _, [] => []
  | last, index :: indexes =>
    writeCompactSize (difference last index).toNat ++ writeIndexes (some index) indexes

def BlockTransactionsRequest.serialize (req : BlockTransactionsRequest) : Bytes :=
  Codec.u256.write req.blockhash ++
    (writeCompactSize req.indexes.length ++ writeIndexes none req.indexes)

/-- The vector grows by a thousand elements at a time; they are read one after the other. -/
def readIndexes : Nat → Bytes → Option (List (BitVec 16) × Bytes)
  | 0, bs => some ([], bs)
  | n + 1, bs => do
    let (index, bs) ← readCompactSize bs
    if index > 0xffff then none
    else
      let (indexes, bs) ← readIndexes n bs
      some (BitVec.ofNat 16 index :: indexes, bs)

def addOffsets (offset : BitVec 16) : List (BitVec 16) → Option (List (BitVec 16))
  | [] => some []
  | index :: indexes =>
    if index.toNat + offset.toNat > 0xffff then none
    else (addOffsets (index + offset + 1) indexes).map ((index + offset) :: ·)

def BlockTransactionsRequest.unserialize (bs : Bytes) :
    Option (BlockTransactionsRequest × Bytes) := do
  let (blockhash, bs) ← Codec.u256.read bs
  let (indexes_size, bs) ← readCompactSize bs
  let (indexes, bs) ← readIndexes indexes_size bs
  let indexes ← addOffsets 0 indexes
  some (⟨blockhash, indexes⟩, bs)

structure PrefilledTransaction where
  index : BitVec 16
  tx : CTransaction

structure CBlockHeaderAndShortTxIDs where
  header : CBlockHeader
  nonce : BitVec 64
  shorttxids : List (BitVec 64)
  prefilledtxn : List PrefilledTransaction

/-- The hash functions, and how full `unordered_map` makes the bucket of a key: for a map
created with room for a number of keys, and the keys it holds. -/
structure RelayEnv where
  H : Bytes → Uint256
  sha256 : Bytes → Uint256
  sipHashUint256 : BitVec 64 → BitVec 64 → Uint256 → BitVec 64
  bucketSize : Nat → List (BitVec 64) → BitVec 64 → Nat

def CBlockHeader.isNull (header : CBlockHeader) : Bool := header.nBits == 0

def CTransaction.isNull (tx : CTransaction) : Bool := tx.vin.isEmpty && tx.vout.isEmpty

namespace CBlockHeaderAndShortTxIDs

def blockTxCount (cmpctblock : CBlockHeaderAndShortTxIDs) : Nat :=
  cmpctblock.shorttxids.length + cmpctblock.prefilledtxn.length

section
variable (env : RelayEnv)

/-- The keys `shorttxidk0` and `shorttxidk1`. -/
def shortTxIDSelector (header : CBlockHeader) (nonce : BitVec 64) : BitVec 64 × BitVec 64 :=
  let shorttxidhash := env.sha256 (headerCodec.write header ++ Codec.u64.write nonce)
  (shorttxidhash.extractLsb' 0 64, shorttxidhash.extractLsb' 64 64)

def shortID (header : CBlockHeader) (nonce : BitVec 64) (txhash : Uint256) : BitVec 64 :=
  let (k0, k1) := shortTxIDSelector env header nonce
  env.sipHashUint256 k0 k1 txhash &&& 0xffffffffffff

def getShortID (cmpctblock : CBlockHeaderAndShortTxIDs) (txhash : Uint256) : BitVec 64 :=
  shortID env cmpctblock.header cmpctblock.nonce txhash

def relayHash (fUseWTXID : Bool) (tx : CTransaction) : Uint256 :=
  if fUseWTXID then tx.getWitnessHash env.H else tx.getHash env.H

def ofBlock (block : CBlock) (fUseWTXID : Bool) (nonce : BitVec 64) :
    Option CBlockHeaderAndShortTxIDs :=
  match block.vtx with
  | [] => none
  | coinbase :: vtx => some {
      header := block.header
      nonce
      shorttxids := vtx.map fun tx => shortID env block.header nonce (relayHash env fUseWTXID tx)
      prefilledtxn := [⟨0, coinbase⟩] }

end

end CBlockHeaderAndShortTxIDs

inductive ReadStatus
  | ok
  | invalid
  | failed
  | checkBlockFailed
  deriving DecidableEq

/-- What ends `InitData` early: a status, an access outside of a vector, or a loop that never
ends. -/
inductive InitFault
  | status (s : ReadStatus)
  | outOfRange
  | loops
  deriving DecidableEq

abbrev InitM := Except InitFault

structure PartiallyDownloadedBlock where
  header : CBlockHeader
  txn_available : List (Option CTransaction)
  deriving DecidableEq

def MIN_SERIALIZABLE_TRANSACTION_WEIGHT : Nat := WITNESS_SCALE_FACTOR * 10

def readAt (v : List α) (i : Nat) : InitM α :=
  match v[i]? with
  | none => .error .outOfRange
  | some a => .ok a

def writeAt (v : List α) (i : Nat) (a : α) : InitM (List α) :=
  if i < v.length then .ok (v.set i a) else .error .outOfRange

def placePrefilled (nShort : Nat) : Nat → Int → List PrefilledTransaction →
    List (Option CTransaction) → InitM (List (Option CTransaction))
  | _, _, [], txn_available => .ok txn_available
  | i, lastprefilledindex, prefilled :: prefilledtxn, txn_available =>
    if prefilled.tx.isNull then .error (.status .invalid)
    else
      let lastprefilledindex := lastprefilledindex + (prefilled.index.toNat + 1)
      if lastprefilledindex > 0xffff then .error (.status .invalid)
      else if lastprefilledindex.toNat > nShort + i then .error (.status .invalid)
      else do
        let txn_available ← writeAt txn_available lastprefilledindex.toNat (some prefilled.tx)
        placePrefilled nShort (i + 1) lastprefilledindex prefilledtxn txn_available

/-- `while (txn_available[i + index_offset]) index_offset++`. The offset has 16 bits: after as
many turns as it has values the loop is where it was. -/
def skipAvailable (txn_available : List (Option CTransaction)) (i : Nat) :
    Nat → BitVec 16 → InitM (BitVec 16)
  | 0, _ => .error .loops
  | turns + 1, index_offset => do
    match ← readAt txn_available (i + index_offset.toNat) with
    | some _ => skipAvailable txn_available i turns (index_offset + 1)
    | none => .ok index_offset

abbrev ShortTxIDs := List (BitVec 64 × BitVec 16)

def assignIndex (shortid : BitVec 64) (index : BitVec 16) (shorttxids : ShortTxIDs) : ShortTxIDs :=
  Table.modify Prod.fst shortid (fun e => (e.1, index)) (Table.add Prod.fst (shortid,
    index) shorttxids)

def bindShortIDs (bucketSize : List (BitVec 64) → BitVec 64 → Nat)
    (txn_available : List (Option CTransaction)) :
    Nat → BitVec 16 → List (BitVec 64) → ShortTxIDs → InitM ShortTxIDs
  | _, _, [], shorttxids => .ok shorttxids
  | i, index_offset, shortid :: rest, shorttxids => do
    let index_offset ← skipAvailable txn_available i (2 ^ 16) index_offset
    let shorttxids := assignIndex shortid (BitVec.ofNat 16 (i + index_offset.toNat)) shorttxids
    if bucketSize (shorttxids.map Prod.fst) shortid > 12 then .error (.status .failed)
    else bindShortIDs bucketSize txn_available (i + 1) index_offset rest shorttxids

structure PoolScan where
  txn_available : List (Option CTransaction)
  have_txn : List Bool
  mempool_count : BitVec 64

/-- A known transaction whose short id stands for `index`. The second one that matches takes the
first one away again if it `differs` from it. -/
def offer (differs : CTransaction → CTransaction → Bool) (index : Nat) (tx : CTransaction)
    (s : PoolScan) :
    InitM PoolScan := do
  if !(← readAt s.have_txn index) then
    let txn_available ← writeAt s.txn_available index (some tx)
    let have_txn ← writeAt s.have_txn index true
    .ok { txn_available, have_txn, mempool_count := s.mempool_count + 1 }
  else
    match ← readAt s.txn_available index with
    | none => .ok s
    | some placed =>
      if differs placed tx then
        let txn_available ← writeAt s.txn_available index none
        .ok { s with txn_available, mempool_count := s.mempool_count - 1 }
      else .ok s

def lookAt (getShortID : Uint256 → BitVec 64) (shorttxids : ShortTxIDs)
    (differs : CTransaction → CTransaction → Bool) (known : Uint256 × CTransaction) (s : PoolScan) :
    InitM PoolScan :=
  match Table.find Prod.fst shorttxids (getShortID known.1) with
  | none => .ok s
  | some (_, index) => offer differs index.toNat known.2 s

/-- The loop over known transactions with the hash each is known by; it ends once every short id
is served. -/
def scanKnown (getShortID : Uint256 → BitVec 64) (shorttxids : ShortTxIDs)
    (differs : CTransaction → CTransaction → Bool) :
    List (Uint256 × CTransaction) → PoolScan → InitM PoolScan
  | [], s => .ok s
  | first :: known, s => do
    let s ← lookAt getShortID shorttxids differs first s
    if s.mempool_count = BitVec.ofNat 64 shorttxids.length then .ok s
    else scanKnown getShortID shorttxids differs known s

section
variable (env : RelayEnv) (cmpctblock : CBlockHeaderAndShortTxIDs)

def scanMempool (shorttxids : ShortTxIDs) (vTxHashes : List (Uint256 × CTransaction)) (s : PoolScan) :
    InitM PoolScan :=
  scanKnown (cmpctblock.getShortID env) shorttxids (fun _ _ => true) vTxHashes s

def scanExtra (shorttxids : ShortTxIDs) (extra_txn : List (Uint256 × CTransaction)) (s : PoolScan) :
    InitM PoolScan :=
  scanKnown (cmpctblock.getShortID env) shorttxids
    (fun placed tx => placed.getWitnessHash env.H ≠ tx.getWitnessHash env.H) extra_txn s

def placeTransactions : InitM (List (Option CTransaction)) :=
  placePrefilled cmpctblock.shorttxids.length 0 (-1) cmpctblock.prefilledtxn
    (List.replicate cmpctblock.blockTxCount none)

def bindIndices (txn_available : List (Option CTransaction)) : InitM ShortTxIDs :=
  bindShortIDs (env.bucketSize cmpctblock.shorttxids.length) txn_available 0 0
    cmpctblock.shorttxids []

/-- `InitData` of an object that was just created. -/
def initData (vTxHashes extra_txn : List (Uint256 × CTransaction)) :
    InitM PartiallyDownloadedBlock := do
  if cmpctblock.header.isNull || (cmpctblock.shorttxids.isEmpty &&
    cmpctblock.prefilledtxn.isEmpty) then
    .error (.status .invalid)
  else if cmpctblock.blockTxCount > MAX_BLOCK_WEIGHT / MIN_SERIALIZABLE_TRANSACTION_WEIGHT then
    .error (.status .invalid)
  else
    let txn_available ← placeTransactions cmpctblock
    let shorttxids ← bindIndices env cmpctblock txn_available
    if shorttxids.length ≠ cmpctblock.shorttxids.length then .error (.status .failed)
    else
      let s ← scanMempool env cmpctblock shorttxids vTxHashes
        ⟨txn_available, List.replicate txn_available.length false, 0⟩
      let s ← scanExtra env cmpctblock shorttxids extra_txn s
      .ok ⟨cmpctblock.header, s.txn_available⟩

end

namespace PartiallyDownloadedBlock

def isTxAvailable (partialBlock : PartiallyDownloadedBlock) (index : Nat) : Option Bool :=
  if partialBlock.header.isNull then none
  else partialBlock.txn_available[index]?.map Option.isSome

/-- The transactions in their places, and what is left of the missing ones. -/
def fillVtx : List (Option CTransaction) → List CTransaction →
    Option (List CTransaction × List CTransaction)
  | [], vtx_missing => some ([], vtx_missing)
  | some tx :: txn_available, vtx_missing => do
    let (vtx, vtx_missing) ← fillVtx txn_available vtx_missing
    some (tx :: vtx, vtx_missing)
  | none :: _, [] => none
  | none :: txn_available, tx :: vtx_missing => do
    let (vtx, vtx_missing) ← fillVtx txn_available vtx_missing
    some (tx :: vtx, vtx_missing)

/-- The block is what the caller has for the status `READ_STATUS_OK`; nothing if the assertion
fails. -/
def fillBlock (H : Bytes → Uint256) (params : ConsensusParams)
    (partialBlock : PartiallyDownloadedBlock) (vtx_missing : List CTransaction) :
    Option (Except ReadStatus CBlock) :=
  if partialBlock.header.isNull then none
  else some <|
    match fillVtx partialBlock.txn_available vtx_missing with
    | none => .error .invalid
    | some (_, _ :: _) => .error .invalid
    | some (vtx, []) =>
      let block : CBlock := ⟨partialBlock.header, vtx⟩
      match checkBlock H block params true true with
      | .ok () => .ok block
      | .error reject => .error (if reject.corruptionPossible then .failed else .checkBlockFailed)

end PartiallyDownloadedBlock

/-- The indices that `ProcessMessage` asks for; nothing if `IsTxAvailable` fails an assertion. -/
def missingIndexes (cmpctblock : CBlockHeaderAndShortTxIDs)
    (partialBlock : PartiallyDownloadedBlock) :
    Option (List (BitVec 16)) := do
  let available ← (List.range cmpctblock.blockTxCount).mapM partialBlock.isTxAvailable
  some ((available.zipIdx.filter fun e => !e.1).map fun e => BitVec.ofNat 16 e.2)

/-- `SendBlockTransactions`: nothing is sent for an index that is out of bounds. -/
def sendBlockTransactions (block : CBlock) (req : BlockTransactionsRequest) :
    Option (List CTransaction) :=
  req.indexes.mapM fun index => block.vtx[index.toNat]?

end OurChain
