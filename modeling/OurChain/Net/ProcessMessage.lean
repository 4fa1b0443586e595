import OurChain.BlockEncodings
import OurChain.Validation.ProcessNewBlock

/-!
# Messages that bring headers

The handlers of `headers`, `cmpctblock`, `blocktxn` and `block` in `ProcessMessage`,
with the round that the GPoW timer drives. A round has expired for a block of its
start time once `fAllowedMining` is false; the handler of `headers` looks at the first
header of the list only, the other handlers do not look at all.

A handler runs up to its call of `ActivateBestChain`, which leaves `mapBlockIndex`
alone. What the mempool and the transactions of a message contribute to a compact
block is left to an oracle; messages to the peer and its score are left out.
-/

namespace OurChain

open CBlockIndex (haveBit)

def MAX_HEADERS_RESULTS : Nat := 2000
def MAX_BLOCKS_TO_ANNOUNCE : Nat := 8
def MAX_BLOCKS_IN_TRANSIT_PER_PEER : Nat := 16

/-- A block that was requested from a peer. A `PartiallyDownloadedBlock` has a null
header before `InitData` and after `FillBlock`. -/
structure QueuedBlock where
  hash : Uint256
  nodeid : Nat
  partialBlock : Option (Option CBlockHeader)
  deriving DecidableEq

structure NetState extends ChainState where
  /-- `fImporting` or `fReindex`. -/
  fImporting : Bool
  fAllowedMining : Bool
  THIS_ROUND_START : Int
  mapBlocksInFlight : List QueuedBlock

structure Peer where
  id : Nat
  fWhitelisted : Bool
  fHaveWitness : Bool
  fSupportsDesiredCmpctVersion : Bool

/-- What happens outside the block index while a message is processed. -/
structure MessageOracle extends BlockOracle where
  isInitialBlockDownload : Bool
  canDirectFetch : Bool
  isWitnessEnabled : Option BlockPtr → Bool
  initData : ReadStatus
  /-- Some transaction of the compact block is not at hand. -/
  txnMissing : Bool
  fillBlock : ReadStatus
  vtx : List CTransaction

inductive NetMessage
  | headers (headers : List CBlockHeader)
  | cmpctblock (header : CBlockHeader)
  | blocktxn (blockhash : Uint256)
  | block (block : CBlock)

namespace NetState

def isCurrentRoundBlock (s : NetState) (index : CBlockHeader) : Bool :=
  getBlockTime index = s.THIS_ROUND_START

def inFlight (s : NetState) (hash : Uint256) : Option QueuedBlock :=
  Table.find QueuedBlock.hash s.mapBlocksInFlight hash

def nBlocksInFlight (s : NetState) (nodeid : Nat) : Nat :=
  s.mapBlocksInFlight.countP (·.nodeid = nodeid)

def markBlockAsReceived (hash : Uint256) (s : NetState) : Bool × NetState :=
  ((s.inFlight hash).isSome,
    { s with mapBlocksInFlight := s.mapBlocksInFlight.filter (·.hash ≠ hash) })

/-- False if the block is in flight from the same peer; `pit` asks for a partial block. -/
def markBlockAsInFlight (nodeid : Nat) (hash : Uint256) (pit : Bool) (s : NetState) :
    Bool × NetState :=
  if (s.inFlight hash).any (·.nodeid = nodeid) then (false, s)
  else
    let s := (s.markBlockAsReceived hash).2
    let queued : QueuedBlock := ⟨hash, nodeid, if pit then some none else none⟩
    (true, { s with mapBlocksInFlight := s.mapBlocksInFlight ++ [queued] })

def setPartialBlock (hash : Uint256) (header : Option CBlockHeader) (s : NetState) : NetState :=
  let blocks := Table.modify QueuedBlock.hash hash
    (fun queued => { queued with partialBlock := some header }) s.mapBlocksInFlight
  { s with mapBlocksInFlight := blocks }

end NetState

variable (env : ChainEnv) (o : MessageOracle) (peer : Peer)

/-- The entry of the last header; the loop stops at a header that is not accepted. -/
def processNewBlockHeaders (env : HeaderEnv) : List CBlockHeader → Option BlockPtr → HeaderState →
    Except Reject (Option BlockPtr) × HeaderState
  | [], pindex, s => (.ok pindex, s)
  | header :: headers, _, s =>
    match acceptBlockHeader env header s with
    | (.error reject, s) => (.error reject, s)
    | (.ok pindex, s) => processNewBlockHeaders env headers (some pindex) s

/-- `hashLastBlock` is the hash of the header before, null at the first one. -/
def continuous (H : Bytes → Uint256) : Uint256 → List CBlockHeader → Bool
  | _, [] => true
  | hashLastBlock, header :: headers =>
    (hashLastBlock == 0 || header.hashPrevBlock == hashLastBlock) &&
      continuous H (header.getHash H) headers

/-- The blocks to fetch on the way down to the active chain, lowest first; none if the
way is too long. -/
def vToFetch (s : NetState) : List BlockPtr → List BlockPtr → Option (List BlockPtr)
  | [], _ => none
  | pindexWalk :: path, fetch =>
    if pindexWalk ∈ s.chainActive.path then some fetch
    else if MAX_BLOCKS_IN_TRANSIT_PER_PEER < fetch.length then none
    else
      let wanted := !haveBit (s.nStatus pindexWalk) BLOCK_HAVE_DATA &&
        (s.inFlight (env.hashOf pindexWalk)).isNone &&
        (!o.isWitnessEnabled pindexWalk.pprev || peer.fHaveWitness)
      vToFetch s path (if wanted then pindexWalk :: fetch else fetch)

def directFetch (pindexLast : BlockPtr) (s : NetState) : NetState :=
  if o.canDirectFetch && isValid BLOCK_VALID_TREE (s.nStatus pindexLast) &&
      decide (nChainWork s.chainActive ≤ nChainWork pindexLast) then
    ((vToFetch env o peer s pindexLast.path []).getD []).foldl (fun s pindex =>
      if MAX_BLOCKS_IN_TRANSIT_PER_PEER ≤ s.nBlocksInFlight peer.id then s
      else (s.markBlockAsInFlight peer.id (env.hashOf pindex) false).2) s
  else s

def NetState.setHeaders (h : HeaderState) (s : NetState) : NetState :=
  { s with toChainState := s.toChainState.withHeaders h }

def storeHeaders (headers : List CBlockHeader) (s : NetState) : NetState :=
  match processNewBlockHeaders env.toHeaderEnv headers none s.toHeaderState with
  | (.ok (some pindexLast), h) => directFetch env o peer pindexLast (s.setHeaders h)
  | (_, h) => s.setHeaders h

def processHeaders (headers : List CBlockHeader) (s : NetState) : NetState :=
  if MAX_HEADERS_RESULTS < headers.length then s
  else match headers with
    | [] => s
    | first :: _ =>
      if s.isCurrentRoundBlock first && !s.fAllowedMining then s
      else if (s.find env.toHeaderEnv first.hashPrevBlock).isNone &&
          decide (headers.length < MAX_BLOCKS_TO_ANNOUNCE) then s
      else if !continuous env.H 0 headers then s
      else storeHeaders env o peer headers s

def NetState.processNewBlock (block : CBlock) (fForceProcessing : Bool) (s : NetState) : NetState :=
  let (ret, chain) := storeNewBlock env o.toBlockOracle block fForceProcessing s.toChainState
  -- `InterruptMining`
  { s with toChainState := chain, fAllowedMining := s.fAllowedMining && !ret }

def processBlockMessage (block : CBlock) (s : NetState) : NetState :=
  let (requested, s) := s.markBlockAsReceived (block.header.getHash env.H)
  s.processNewBlock env o block (peer.fWhitelisted && !o.isInitialBlockDownload || requested)

/-- None if the header of the partial block is null, which `FillBlock` asserts. -/
def processBlockTxn (blockhash : Uint256) (s : NetState) : Option NetState :=
  match s.inFlight blockhash with
  | some ⟨_, nodeid, some partialBlock⟩ =>
    if nodeid ≠ peer.id then some s
    else match partialBlock with
      | none => none
      | some header =>
        match o.fillBlock with
        | .invalid => some (s.markBlockAsReceived blockhash).2
        | .failed => some (s.setPartialBlock blockhash none)
        | _ => some ((s.markBlockAsReceived blockhash).2.processNewBlock env o ⟨header, o.vtx⟩ true)
  | _ => some s

/-- The compact block of a header that is in flight from this peer from now on. -/
def downloadCmpctBlock (header : CBlockHeader) (hash : Uint256) (s : NetState) : Option NetState :=
  let (fresh, s) := s.markBlockAsInFlight peer.id hash true
  if !fresh && (s.inFlight hash).any (·.partialBlock.isSome) then some s
  else match o.initData with
    | .invalid => some (s.markBlockAsReceived hash).2
    | .ok =>
      let s := s.setPartialBlock hash (some header)
      if o.txnMissing then some s else processBlockTxn env o peer (header.getHash env.H) s
    | _ => some (s.setPartialBlock hash (some header))

/-- A block that is in flight from another peer may be complete already. -/
def reconstructBlock (header : CBlockHeader) (pindex : BlockPtr) (s : NetState) : NetState :=
  if o.initData = .ok ∧ o.fillBlock = .ok then
    let s := s.processNewBlock env o ⟨header, o.vtx⟩ true
    if isValid BLOCK_VALID_TRANSACTIONS (s.nStatus pindex) then
      (s.markBlockAsReceived (header.getHash env.H)).2
    else s
  else s

/-- What follows the header of a compact block, once it is in the index as `pindex`. -/
def continueCmpctBlock (header : CBlockHeader) (pindex : BlockPtr) (s : NetState) : Option NetState :=
  let queued := s.inFlight (env.hashOf pindex)
  if haveBit (s.nStatus pindex) BLOCK_HAVE_DATA then some s
  else if nChainWork pindex ≤ nChainWork s.chainActive ∨ s.nTx pindex ≠ 0 then some s
  else if queued.isNone && !o.canDirectFetch then some s
  else if o.isWitnessEnabled pindex.pprev && !peer.fSupportsDesiredCmpctVersion then some s
  else if pindex.height ≤ s.chainActive.height + 2 then
    if queued.isNone ∧ s.nBlocksInFlight peer.id < MAX_BLOCKS_IN_TRANSIT_PER_PEER ∨
        queued.any (·.nodeid = peer.id) then
      downloadCmpctBlock env o peer header (env.hashOf pindex) s
    else some (reconstructBlock env o header pindex s)
  else if queued.isSome then some s
  else some (processHeaders env o peer [header] s)

def processCmpctBlock (header : CBlockHeader) (s : NetState) : Option NetState :=
  if (s.find env.toHeaderEnv header.hashPrevBlock).isNone then some s
  else match processNewBlockHeaders env.toHeaderEnv [header] none s.toHeaderState with
    | (.ok (some pindex), h) => continueCmpctBlock env o peer header pindex (s.setHeaders h)
    | (_, h) => some (s.setHeaders h)

def processMessage (message : NetMessage) (s : NetState) : Option NetState :=
  if s.fImporting then some s
  else match message with
    | .headers headers => some (processHeaders env o peer headers s)
    | .cmpctblock header => processCmpctBlock env o peer header s
    | .blocktxn blockhash => processBlockTxn env o peer blockhash s
    | .block block => some (processBlockMessage env o peer block s)

end OurChain
