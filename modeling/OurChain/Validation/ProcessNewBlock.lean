import OurChain.Validation.ActivateBestChain

/-!
# Processing new blocks

`ReceivedBlockTransactions`, `AcceptBlock` and `ProcessNewBlock`. A block whose
parents have all their transactions becomes a candidate together with the blocks
that were waiting for it.
-/

namespace OurChain

open List
open CBlockIndex (haveBit)

def MIN_BLOCKS_TO_KEEP : Nat := 288

inductive CheckResult
  | ok
  | invalid (corruptionPossible : Bool)
  deriving DecidableEq

/-- What happens outside the block index while a block is processed. -/
structure BlockOracle extends Oracle where
  checkBlock : CBlock → CheckResult
  contextualCheckBlock : CBlock → CheckResult
  findBlockPos : Bool

variable (env : ChainEnv)

namespace ChainState

/-- All parents of `pindex` have their transactions. -/
def link (pindex : BlockPtr) (s : ChainState) : ChainState :=
  { s with
    nChainTx := Function.update s.nChainTx pindex ((pindex.pprev.elim 0 s.nChainTx) + s.nTx pindex)
    setBlockIndexCandidates :=
      if env.less pindex s.chainActive then s.setBlockIndexCandidates
      else OrdSet.insert env.less pindex s.setBlockIndexCandidates }

/-- The blocks that wait for `pindex`, taken out of `mapBlocksUnlinked`. -/
def takeUnlinked (pindex : BlockPtr) (s : ChainState) : List BlockPtr × ChainState :=
  ((s.mapBlocksUnlinked.filter (·.1 = pindex)).map Prod.snd,
    { s with mapBlocksUnlinked := s.mapBlocksUnlinked.filter (·.1 ≠ pindex) })

/-- Every entry of the queue but the first came out of `mapBlocksUnlinked`, whose
length bounds the loop. -/
def linkQueue : Nat → List BlockPtr → ChainState → ChainState
  | 0, _, s => s
  | _ + 1, [], s => s
  | fuel + 1, pindex :: queue, s =>
    let (waiting, s) := (s.link env pindex).takeUnlinked pindex
    linkQueue fuel (queue ++ waiting) s

def receivedBlockTransactions (nTx : BitVec 32) (pindexNew : BlockPtr) (s : ChainState) :
    ChainState :=
  let nStatus := raiseValidity BLOCK_VALID_TRANSACTIONS (s.nStatus pindexNew ||| BLOCK_HAVE_DATA)
  let s := { s with
    nTx := Function.update s.nTx pindexNew nTx
    nChainTx := Function.update s.nChainTx pindexNew 0
    nStatus := Function.update s.nStatus pindexNew nStatus }
  match pindexNew.pprev with
  | none => s.linkQueue env (s.mapBlocksUnlinked.length + 1) [pindexNew]
  | some pprev =>
    if s.nChainTx pprev ≠ 0 then s.linkQueue env (s.mapBlocksUnlinked.length + 1) [pindexNew]
    else if isValid BLOCK_VALID_TREE (s.nStatus pprev) then
      { s with mapBlocksUnlinked := s.mapBlocksUnlinked ++ [(pprev, pindexNew)] }
    else s

def withHeaders (h : HeaderState) (s : ChainState) : ChainState :=
  { s with
    toHeaderState := h
    nTx := fun p => if p ∈ s.mapBlockIndex then s.nTx p else 0
    nChainTx := fun p => if p ∈ s.mapBlockIndex then s.nChainTx p else 0 }

end ChainState

variable (o : BlockOracle)

/-- An unrequested block is left alone if it was pruned, does not advance the tip or is
too far ahead. -/
def ignoresUnrequested (pindex : BlockPtr) (s : ChainState) : Bool :=
  s.nTx pindex != 0 || !decide (nChainWork s.chainActive < nChainWork pindex) ||
    decide (s.chainActive.height + MIN_BLOCKS_TO_KEEP < pindex.height)

def acceptBlock (block : CBlock) (fRequested : Bool) (s : ChainState) : Bool × ChainState :=
  match acceptBlockHeader env.toHeaderEnv block.header s.toHeaderState with
  | (.error _, h) => (false, s.withHeaders h)
  | (.ok pindex, h) =>
    let s := s.withHeaders h
    if haveBit (s.nStatus pindex) BLOCK_HAVE_DATA then (true, s)
    else if !fRequested && ignoresUnrequested pindex s then (true, s)
    else
      let check := match o.checkBlock block with
        | .ok => o.contextualCheckBlock block
        | invalid => invalid
      match check with
      | .invalid corruptionPossible =>
        let nStatus := s.nStatus pindex ||| BLOCK_FAILED_VALID
        (false, if corruptionPossible then s
          else { s with nStatus := Function.update s.nStatus pindex nStatus })
      | .ok =>
        if !o.findBlockPos then (false, s)
        else (true, s.receivedBlockTransactions env (.ofNat 32 block.vtx.length) pindex)

/-- `ProcessNewBlock` up to the call of `ActivateBestChain`: false if it returns before. -/
def storeNewBlock (block : CBlock) (fForceProcessing : Bool) (s : ChainState) : Bool × ChainState :=
  match o.checkBlock block with
  | .invalid _ => (false, s)
  | .ok => acceptBlock env o block fForceProcessing s

def processNewBlock (fuel : Nat) (block : CBlock) (fForceProcessing : Bool) (s : ChainState) :
    Option (Bool × ChainState) :=
  let (ret, s) := storeNewBlock env o block fForceProcessing s
  if !ret then some (false, s) else activateBestChain env o.toOracle fuel 0 none s

def ChainState.loaded (genesis : CBlockHeader) : ChainState where
  mapBlockIndex := [.root genesis]
  nStatus _ := BLOCK_VALID_SCRIPTS ||| BLOCK_HAVE_DATA
  pindexBestHeader := some (.root genesis)
  nTx _ := 1
  nChainTx _ := 1
  chainActive := .root genesis
  setBlockIndexCandidates := [.root genesis]
  mapBlocksUnlinked := []
  observed := .root genesis

variable {env o} {t : Tree CBlockHeader} {s : ChainState}

namespace ChainState

theorem loaded_ok (hroot : .root genesis ∈ t.nodes)
    (hhash : genesis.getHash env.H = env.params.hashGenesisBlock) : (loaded genesis).Ok env t where
  headers :=
    { genesis := by
        have hhash' : env.hashOf (.root genesis) = env.params.hashGenesisBlock := hhash
        simp [HeaderState.find, Table.find_isSome_iff, loaded, hhash']
      nodup := nodup_singleton _ }
  inTree n hn := mem_singleton.mp hn ▸ hroot
  closed := by simp [loaded, Node.path]
  tip := mem_singleton_self _
  candidates _ := id
  sorted := pairwise_singleton ..
  unlinked := by simp [loaded]

theorem link_ok (hord : env.Orders t) (hs : s.Ok env t) (hp : p ∈ s.mapBlockIndex) :
    (s.link env p).Ok env t := by
  unfold link
  split
  · exact hs.of_sublist rfl hs.tip (.refl _) hs.unlinked
  · exact (hs.insert hord hp).of_sublist rfl hs.tip (.refl _) hs.unlinked

theorem linkQueue_ok (hord : env.Orders t) (hs : s.Ok env t) {queue : List BlockPtr}
    (hqueue : ∀ p ∈ queue, p ∈ s.mapBlockIndex) (fuel : Nat) :
    (s.linkQueue env fuel queue).Ok env t := by
  induction fuel generalizing s queue with
  | zero => exact hs
  | succ fuel ih =>
    cases queue with
    | nil => exact hs
    | cons p queue =>
      obtain ⟨hp, hrest⟩ := forall_mem_cons.mp hqueue
      have hlinked := link_ok hord hs hp
      have htaken : ((s.link env p).takeUnlinked p).2.Ok env t :=
        hlinked.of_sublist rfl hlinked.tip (.refl _) fun e he =>
          hs.unlinked e (mem_of_mem_filter he)
      refine ih htaken fun a ha => ?_
      rcases mem_append.mp ha with ha | ha
      · exact hrest a ha
      · obtain ⟨e, he, rfl⟩ := List.mem_map.mp ha
        exact hs.unlinked e (mem_of_mem_filter he)

theorem linkQueue_map (s : ChainState) (fuel : Nat) (queue : List BlockPtr) :
    (s.linkQueue env fuel queue).mapBlockIndex = s.mapBlockIndex := by
  induction fuel generalizing s queue with
  | zero => rfl
  | succ fuel ih =>
    cases queue with
    | nil => rfl
    | cons p queue => exact ih _ _

theorem receivedBlockTransactions_map (s : ChainState) (nTx : BitVec 32) (p : BlockPtr) :
    (s.receivedBlockTransactions env nTx p).mapBlockIndex = s.mapBlockIndex := by
  unfold receivedBlockTransactions
  dsimp only
  split
  · exact linkQueue_map ..
  · split
    · exact linkQueue_map ..
    · split <;> rfl

theorem receivedBlockTransactions_ok (hord : env.Orders t) (hs : s.Ok env t)
    (hp : p ∈ s.mapBlockIndex) (nTx : BitVec 32) :
    (s.receivedBlockTransactions env nTx p).Ok env t := by
  have hset : ∀ nTx nChainTx nStatus unlinked, (∀ e ∈ unlinked, e.2 ∈ s.mapBlockIndex) →
      ChainState.Ok env t { s with
        nTx := nTx, nChainTx := nChainTx, nStatus := nStatus, mapBlocksUnlinked := unlinked } :=
    fun _ _ _ _ hunlinked => hs.of_sublist rfl hs.tip (.refl _) hunlinked
  have hlink : ∀ nTx nChainTx nStatus fuel,
      (linkQueue env fuel [p] { s with nTx := nTx, nChainTx := nChainTx, nStatus := nStatus }).Ok
      env t :=
    fun _ _ _ _ => linkQueue_ok hord (hset _ _ _ _ hs.unlinked) (by simpa using hp) _
  unfold receivedBlockTransactions
  dsimp only
  split
  · exact hlink ..
  · split
    · exact hlink ..
    · split
      · refine hset _ _ _ _ fun e he => ?_
        rcases mem_append.mp he with he | he
        · exact hs.unlinked e he
        · rw [mem_singleton.mp he]
          exact hp
      · exact hset _ _ _ _ hs.unlinked

theorem withHeaders_ok (hs : s.Ok env t) (hjoins : Joins env.toHeaderEnv s.toHeaderState block p)
    (hnew : Node.child p block ∈ t.nodes) :
    (s.withHeaders (s.addEntry (.child p block))).Ok env t := by
  have hp := Table.find_mem hjoins.prev
  refine ⟨hs.headers.addEntry hjoins.unknown, ?_, ?_, mem_append_left _ hs.tip,
    fun n hn => mem_append_left _ (hs.candidates n hn), hs.sorted,
    fun e he => mem_append_left _ (hs.unlinked e he)⟩
  · intro n hn
    rcases mem_append.mp hn with hn | hn
    · exact hs.inTree n hn
    · exact mem_singleton.mp hn ▸ hnew
  · intro n hn a ha
    rcases mem_append.mp hn with hold | hold
    · exact mem_append_left _ (hs.closed n hold a ha)
    · cases mem_singleton.mp hold
      rcases Node.mem_path_child ha with rfl | ha
      · exact hn
      · exact mem_append_left _ (hs.closed p hp a ha)

end ChainState

theorem acceptBlock_cases (env : ChainEnv) (o : BlockOracle) (block : CBlock) (fRequested : Bool)
    (s : ChainState) : ∃ result h, acceptBlockHeader env.toHeaderEnv block.header s.toHeaderState =
    (result, h) ∧
      ((∃ nStatus, (acceptBlock env o block fRequested s).2 =
        { s.withHeaders h with nStatus := nStatus }) ∨
      ∃ pindex, result = .ok pindex ∧ (acceptBlock env o block fRequested s).2 =
        (s.withHeaders h).receivedBlockTransactions env block.vtx.length pindex) := by
  unfold acceptBlock
  split
  · rename_i hheader
    exact ⟨_, _, hheader, .inl ⟨_, rfl⟩⟩
  · rename_i pindex h hheader
    refine ⟨_, _, hheader, ?_⟩
    dsimp only
    split
    · exact .inl ⟨_, rfl⟩
    · split
      · exact .inl ⟨_, rfl⟩
      · split
        · split <;> exact .inl ⟨_, rfl⟩
        · split
          · exact .inl ⟨_, rfl⟩
          · exact .inr ⟨pindex, rfl, rfl⟩

theorem acceptBlock_ok (hord : env.Orders t) (hs : s.Ok env t) (block : CBlock)
    (fRequested : Bool)
    (htree : ∀ n ∈ (acceptBlock env o block fRequested s).2.mapBlockIndex, n ∈ t.nodes) :
    (acceptBlock env o block fRequested s).2.Ok env t := by
  obtain ⟨result, h, hheader, hstate⟩ := acceptBlock_cases env o block fRequested s
  have hmap : (acceptBlock env o block fRequested s).2.mapBlockIndex = h.mapBlockIndex := by
    rcases hstate with ⟨_, hstate⟩ | ⟨_, -, hstate⟩
    · rw [hstate]
      rfl
    · rw [hstate, ChainState.receivedBlockTransactions_map]
      rfl
  -- the header joined the index, or changed nothing and named an entry if accepted
  have hok : (s.withHeaders h).Ok env t ∧ ∀ n, result = .ok n → n ∈ h.mapBlockIndex := by
    rcases acceptBlockHeader_cases hs.headers block.header with ⟨p, hjoins⟩ | ⟨hsame, hmem⟩
    · rw [acceptBlockHeader_joins hs.headers hjoins] at hheader
      cases hheader
      refine ⟨ChainState.withHeaders_ok hs hjoins (htree _ ?_), ?_⟩
      · rw [hmap]
        simp [HeaderState.addEntry]
      · rintro n ⟨⟩
        simp [HeaderState.addEntry]
    · rw [hheader] at hsame hmem
      cases hsame
      exact ⟨hs.of_sublist rfl hs.tip (.refl _) hs.unlinked, hmem⟩
  rcases hstate with ⟨nStatus, hstate⟩ | ⟨pindex, hresult, hstate⟩
  · rw [hstate]
    exact hok.1.of_sublist rfl hok.1.tip (.refl _) hok.1.unlinked
  · rw [hstate]
    exact ChainState.receivedBlockTransactions_ok hord hok.1 (hok.2 pindex hresult) _

theorem storeNewBlock_ok (hord : env.Orders t) (hs : s.Ok env t) (block : CBlock)
    (force : Bool) (htree : ∀ n ∈ (storeNewBlock env o block force s).2.mapBlockIndex, n ∈ t.nodes) :
    (storeNewBlock env o block force s).2.Ok env t := by
  unfold storeNewBlock at htree ⊢
  split
  · exact hs
  · rename_i hcheck
    rw [hcheck] at htree
    exact acceptBlock_ok hord hs block force htree

-- The regression-test chain again, now with addresses and with blocks.
def addressedEnv (addr : BlockPtr → Nat) : ChainEnv where
  toHeaderEnv := regTestEnv
  addr

def smoothOracle : BlockOracle where
  connectTip _ := .ok
  disconnectTip _ := true
  shutdownRequested _ := false
  flushStateToDisk := true
  onChainStateSet _ := true
  checkBlock _ := .ok
  contextualCheckBlock _ := .ok
  findBlockPos := true

def regTestGenesis : CBlockHeader := regTestHeader 1 0 0 0

def sibling (nVersion nPrecisionTime : BitVec 32) (hashGPoW : Uint256) : BlockPtr :=
  .child (.root regTestGenesis) { regTestHeader nVersion 10 1 hashGPoW with nPrecisionTime }

def coinbase : CTransaction where
  nVersion := 1
  contract := { action := 0, code := [], args := [], address := 0 }
  vin := []
  vout := []
  nLockTime := 0

end OurChain
