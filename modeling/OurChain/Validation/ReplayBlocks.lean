import OurChain.CoinsDB
import OurChain.Validation.DisconnectBlock
import OurChain.Validation.Supply

/-!
# Replaying blocks after a crash

`ReplayBlocks` on a database that is marked as being on its way from one tip to another.
The blocks of the old branch are disconnected and those of the new one applied again,
over coins that are those of no block. Each block is a journal, and of a journal only
the first value and the last write of an outpoint count.
-/

namespace OurChain

open List Node Option

def meet {α : Type} [DecidableEq α] : Node α → Node α → Option (Node α)
  | .root a, pb => if .root a = pb then some pb else none
  | .child pa a, pb =>
    if .child pa a = pb then some pb
    else match pb with
      | .root _ => none
      | .child pb _ => meet pa pb

def lastCommonAncestor {α : Type} [DecidableEq α] (pa pb : Node α) : Option (Node α) :=
  if pa.height > pb.height then (pa.ancestorAt pb.height).bind fun pa => meet pa pb
  else if pb.height > pa.height then (pb.ancestorAt pa.height).bind fun pb => meet pa pb
  else meet pa pb

structure BlockStore where
  readBlock : BlockPtr → Option CBlock
  undoPos : BlockPtr → Option Bytes
  mapBlockIndex : Uint256 → Option BlockPtr

/-- `AddCoins` with `check`: every coin may be there already. -/
def addCoinsChecked (H : Bytes → Uint256) (view : CCoinsView) (tx : CTransaction) (nHeight : Nat) :
    Except CheckFailure CCoinsView :=
  tx.vout.zipIdx.foldlM (fun view (out, i) =>
    view.addCoin ⟨tx.getHash H, BitVec.ofNat 32 i⟩ ⟨out, tx.isCoinBase, BitVec.ofNat 31 nHeight⟩
      (view.haveCoin ⟨tx.getHash H, BitVec.ofNat 32 i⟩)) view

/-- `SpendCoin` whether or not the coin is there. -/
def forgetCoin (view : CCoinsView) (outpoint : COutPoint) : CCoinsView :=
  ((view.spendCoin outpoint).map Prod.snd).getD view

section
variable (secp : Secp256k1) (env : BlockEnv) (store : BlockStore)

def rollforwardTx (nHeight : Nat) (view : CCoinsView) (tx : CTransaction) :
    Except CheckFailure CCoinsView :=
  let view := if tx.isCoinBase then view else tx.vin.foldl (fun view txin =>
    forgetCoin view txin.prevout) view
  addCoinsChecked env.H view tx nHeight

def rollforwardBlock (pindex : BlockPtr) (inputs : CCoinsView) :
    Except DisconnectFailure CCoinsView :=
  match store.readBlock pindex with
  | none => .error .failed
  | some block =>
    match block.vtx.foldlM (rollforwardTx env pindex.height) inputs with
    | .error failure => .error (.check failure)
    | .ok view => .ok view

def rollbackBlock (pindex : BlockPtr) (cache : CCoinsView) : Except DisconnectFailure CCoinsView :=
  match store.readBlock pindex with
  | none => .error .failed
  | some block =>
    -- an unclean result is accepted
    (disconnectBlock secp env pindex block (store.undoPos pindex) cache).map Prod.snd

/-- Back from the old tip to the fork. The genesis block is not disconnected. -/
def rollback (pindexFork : Option BlockPtr) :
    BlockPtr → CCoinsView → Except DisconnectFailure CCoinsView
  | .root b, cache =>
    if some (.root b) = pindexFork ∨ pindexFork = none then .ok cache else .error (.check .assertion)
  | .child p b, cache =>
    if some (.child p b) = pindexFork then .ok cache
    else do
      let cache ← rollbackBlock secp env store (.child p b) cache
      rollback pindexFork p cache

/-- There is an ancestor at every height up to that of the tip. -/
def rollforwardAt (cache : CCoinsView) : Option BlockPtr → Except DisconnectFailure CCoinsView
  | none => .error (.check .assertion)
  | some pindex => rollforwardBlock env store pindex cache

def rollforward (nForkHeight : Nat) (pindexNew : BlockPtr) (cache : CCoinsView) :
    Except DisconnectFailure CCoinsView :=
  (List.range' (nForkHeight + 1) (pindexNew.height - nForkHeight)).foldlM (fun cache nHeight =>
    rollforwardAt env store cache (pindexNew.ancestorAt nHeight)) cache

/-- The height of the fork, and the cache behind the old branch. The old tip may be null,
which makes it the first flush. -/
def rollbackOld (hashOld : Uint256) (pindexNew : BlockPtr) (cache : CCoinsView) :
    Except DisconnectFailure (Nat × CCoinsView) :=
  if hashOld = 0 then .ok (0, cache)
  else match store.mapBlockIndex hashOld with
    | none => .error .failed
    | some pindexOld => match lastCommonAncestor pindexOld pindexNew with
      | none => .error (.check .assertion)
      | some pindexFork =>
        (rollback secp env store (some pindexFork) pindexOld cache).map fun cache =>
          (pindexFork.height, cache)

/-- The cache that is flushed at the end, none if there is nothing to replay. -/
def replayBlocks (db : CCoinsViewDB) : Except DisconnectFailure (Option CCoinsView) :=
  match db.getHeadBlocks with
  | [] => .ok none
  | [hashNew, hashOld] =>
    match store.mapBlockIndex hashNew with
    | none => .error .failed
    | some pindexNew => do
      let (nForkHeight, cache) ← rollbackOld secp env store hashOld pindexNew ⟨db.coins,
        db.getBestBlock⟩
      let cache ← rollforward env store nForkHeight pindexNew cache
      return some (cache.setBestBlock (pindexNew.value.getHash env.H))
  | _ => .error .failed

end

open Journal

theorem forgetCoin_coinAt (view : CCoinsView) (outpoint : COutPoint) :
    (forgetCoin view outpoint).coinAt = Function.update view.coinAt outpoint none := by
  cases hspend : view.spendCoin outpoint with
  | none =>
    have hnone : view.coinAt outpoint = none := map_eq_none_iff.mp hspend
    rw [forgetCoin, hspend, ← hnone, Function.update_eq_self]
    rfl
  | some r =>
    obtain ⟨coin, view'⟩ := r
    obtain ⟨-, rfl⟩ := CCoinsView.spendCoin_eq hspend
    rw [forgetCoin, hspend]
    exact CCoinsView.coinAt_erase outpoint

theorem forgetCoins_journal {vin : List CTxIn} {vprevout : List Coin}
    (hlen : vprevout.length = vin.length) (view : CCoinsView) :
    (vin.foldl (fun view txin => forgetCoin view txin.prevout) view).coinAt =
      redo view.coinAt (spendWrites vin vprevout) := by
  induction vin generalizing vprevout view with
  | nil =>
    cases length_eq_zero_iff.mp hlen
    rfl
  | cons txin vin ih =>
    cases vprevout with
    | nil => cases hlen
    | cons coin vprevout =>
      rw [foldl_cons, ih (Nat.succ.inj hlen), forgetCoin_coinAt]
      rfl

theorem addCoin_checked {coin : Coin} (hvalue : coin.out.value ≠ -1) (view : CCoinsView)
    (outpoint : COutPoint) :
    view.addCoin outpoint coin (view.haveCoin outpoint) =
      .ok (if isUnspendable coin.out.scriptPubKey then view
        else { view with coins := view.coins.insert outpoint coin }) := by
  have hspent : coin.isSpent = false := decide_eq_false hvalue
  simp only [CCoinsView.addCoin, hspent, Bool.not_and_self, Bool.false_eq_true, if_false]
  split <;> rfl

theorem addCoinsChecked_journal {outs : List (CTxOut × Nat)} (hvalue : ∀ e ∈ outs, e.1.value ≠ -1)
    (view : CCoinsView) : ∃ view', outs.foldlM (fun view (out, i) =>
      view.addCoin ⟨txid, BitVec.ofNat 32 i⟩ ⟨out, fCoinBase, BitVec.ofNat 31 nHeight⟩
        (view.haveCoin ⟨txid, BitVec.ofNat 32 i⟩)) view = .ok view' ∧
      view'.coinAt = redo view.coinAt (addWrites txid fCoinBase nHeight outs) := by
  induction outs generalizing view with
  | nil => exact ⟨view, rfl, rfl⟩
  | cons e outs ih =>
    obtain ⟨out, i⟩ := e
    obtain ⟨hout, hvalue⟩ := forall_mem_cons.mp hvalue
    rw [foldlM_cons, addWrites_cons]
    dsimp only
    rw [addCoin_checked hout]
    obtain ⟨view', hadd, hcoins⟩ := ih hvalue _
    refine ⟨view', hadd, ?_⟩
    rw [hcoins]
    split
    · rfl
    · rw [CCoinsView.coinAt_insert]
      rfl

structure Replayable (tx : CTransaction) (txundo : Option (List Coin)) : Prop where
  values : ∀ out ∈ tx.vout, moneyRange out.value = true
  coinbase : txundo = none → tx.isCoinBase = true
  inputs : ∀ vprevout, txundo = some vprevout → tx.isCoinBase = false ∧
    vprevout.length = tx.vin.length

section
variable (env : BlockEnv)

theorem rollforwardTx_journal {tx : CTransaction} {txundo : Option (List Coin)}
    (h : Replayable tx txundo) (nHeight : Nat) (view : CCoinsView) :
    ∃ view', rollforwardTx env nHeight view tx = .ok view' ∧
      view'.coinAt = redo view.coinAt (txWrites env.H nHeight tx (txundo.getD [])) := by
  have hvalue : ∀ e ∈ tx.vout.zipIdx, e.1.value ≠ -1 := by
    intro e he
    have hrange := (moneyRange_iff _).mp (h.values e.1 (fst_mem_of_mem_zipIdx he))
    omega
  rw [txWrites, redo_append]
  cases txundo with
  | none =>
    have hnone : spendWrites tx.vin (none.getD []) = [] := zipWith_nil_right
    rw [rollforwardTx, if_pos (h.coinbase rfl), hnone]
    exact addCoinsChecked_journal hvalue view
  | some vprevout =>
    obtain ⟨hcoinbase, hlen⟩ := h.inputs vprevout rfl
    rw [rollforwardTx, if_neg (by simp [hcoinbase]), getD_some, ← forgetCoins_journal hlen view]
    exact addCoinsChecked_journal hvalue _

theorem rollforwardTxs_journal {vtx : List (CTransaction × Option (List Coin))}
    (h : ∀ e ∈ vtx, Replayable e.1 e.2) (nHeight : Nat) (view : CCoinsView) :
    ∃ view', (vtx.map Prod.fst).foldlM (rollforwardTx env nHeight) view = .ok view' ∧
      view'.coinAt = redo view.coinAt (vtxWrites env.H nHeight vtx) := by
  induction vtx generalizing view with
  | nil => exact ⟨view, rfl, rfl⟩
  | cons e vtx ih =>
    obtain ⟨htx, hvtx⟩ := forall_mem_cons.mp h
    obtain ⟨view₁, hfirst, hcoins₁⟩ := rollforwardTx_journal env htx nHeight view
    obtain ⟨view₂, hrest, hcoins₂⟩ := ih hvtx view₁
    refine ⟨view₂, ?_, ?_⟩
    · rw [map_cons, foldlM_cons, hfirst]
      exact hrest
    · rw [hcoins₂, hcoins₁]
      exact redo_append.symm

end

section
variable {secp : Secp256k1} {env : BlockEnv} {store : BlockStore}

def chainTxids (env : BlockEnv) (n : Node CBlock) : List Uint256 :=
  n.path.flatMap fun m => m.value.vtx.map (CTransaction.getHash env.H)

theorem chainTxids_child (p : Node CBlock) (block : CBlock) :
    chainTxids env (.child p block) = block.vtx.map (CTransaction.getHash env.H) ++
    chainTxids env p := rfl

/-- A chain as it stands on disk: connected block by block, without a txid that occurs
twice, and with every block and every undo record readable. -/
structure StoredChain (secp : Secp256k1) (env : BlockEnv) (store : BlockStore) (n : Node CBlock)
    (view : CCoinsView) : Prop where
  connected : ConnectedChain env n view
  height : n.height < 2 ^ 31
  genesis : ∀ p block, Node.child p block ∈ n.path → block.header.getHash env.H ≠ env.hashGenesisBlock
  txids : (chainTxids env n).Nodup
  blocks : ∀ m ∈ n.path, store.readBlock (indexEntry m) = some m.value
  undos : ∀ p block view r, Node.child p block ∈ n.path → ConnectedChain env p view →
    connectBlock env (indexEntry (.child p block)) block view false = .ok r →
    ∃ bs, store.undoPos (indexEntry (.child p block)) = some bs ∧
      undoReadFromDisk secp env.H bs (prevHash env (indexEntry (.child p block))) = some r.vtxundo

/-- The writes of the blocks from `q` to a node above it, whose coins are given. -/
inductive BranchJournal (env : BlockEnv) (q : Node CBlock) (viewq : CCoinsView) :
    Node CBlock → CCoinsView → List (Write COutPoint Coin) → Prop
  | refl : BranchJournal env q viewq q viewq []
  | step (h : BranchJournal env q viewq p view ws) (hparent : ConnectedChain env p view)
      (hconnect : connectBlock env (indexEntry (.child p block)) block view false = .ok r)
      (hblock : Journaled env (indexEntry (.child p block)) block view r) :
      BranchJournal env q viewq (.child p block) r.view
        (ws ++ vtxWrites env.H (indexEntry (.child p block)).height (block.withUndo r.vtxundo))

theorem BranchJournal.kept (h : BranchJournal env q viewq n view ws) :
    Kept viewq.coinAt ws ∧ view.coinAt = redo viewq.coinAt ws := by
  induction h with
  | refl => exact ⟨trivial, rfl⟩
  | step _ _ _ hblock ih =>
    obtain ⟨hkept, hredo⟩ := ih
    have hkept' := hblock.kept
    have hredo' := hblock.coins
    rw [hredo] at hkept' hredo'
    exact ⟨kept_append.mpr ⟨hkept, hkept'⟩, hredo'.trans redo_append.symm⟩

theorem ConnectedChain.unique (h : ConnectedChain env n view) (h' : ConnectedChain env n view') :
    view = view' := by
  induction h generalizing view' with
  | genesis h =>
    cases h' with
    | genesis h' =>
      cases h.symm.trans h'
      rfl
  | child _ h ih =>
    cases h' with
    | child hparent' h' =>
      cases ih hparent'
      cases h.symm.trans h'
      rfl

theorem ConnectedChain.txid_mem (h : ConnectedChain env n view) :
    view.All fun outpoint _ => outpoint.hash ∈ chainTxids env n := by
  induction h with
  | genesis h =>
    refine connectBlock_all CCoinsView.all_empty (fun hpos => ?_) h
    exact absurd hpos (Nat.lt_irrefl 0)
  | child _ h ih =>
    refine connectBlock_all (fun outpoint coin hcoin => ?_) (fun _ tx htx o _ coin _ _ => ?_) h
    · exact mem_append_right _ (ih outpoint coin hcoin)
    · exact mem_append_left _ (List.mem_map_of_mem htx)

section
variable (h : StoredChain secp env store (.child p block) view)
include h

theorem StoredChain.parent :
    ∃ viewp r, StoredChain secp env store p viewp ∧ r.view = view ∧
      connectBlock env (indexEntry (.child p block)) block viewp false = .ok r := by
  have hmem : ∀ m ∈ p.path, m ∈ (Node.child p block).path := fun m hm => mem_cons_of_mem _ hm
  have htxids := h.txids
  rw [chainTxids_child] at htxids
  cases h.connected with
  | @child _ viewp _ r hparent hconnect =>
    refine ⟨viewp, r, ?_, rfl, hconnect⟩
    exact {
      connected := hparent
      height := Nat.lt_of_succ_lt h.height
      genesis := fun p block hm => h.genesis p block (hmem _ hm)
      txids := htxids.of_append_right
      blocks := fun m hm => h.blocks m (hmem m hm)
      undos := fun p block view r hm => h.undos p block view r (hmem _ hm) }

theorem StoredChain.freshCoinBase (hparent : ConnectedChain env p viewp) :
    FreshCoinBase env block viewp := by
  intro coinbase hcoinbase o _
  by_contra hsome
  obtain ⟨coin, hcoin⟩ := ne_none_iff_exists'.mp hsome
  have htxids := h.txids
  rw [chainTxids_child, nodup_append] at htxids
  exact htxids.2.2 _ (List.mem_map_of_mem (mem_of_mem_head? hcoinbase)) _
    (hparent.txid_mem _ _ hcoin) rfl

theorem StoredChain.journaled (hparent : ConnectedChain env p viewp)
    (hconnect : connectBlock env (indexEntry (.child p block)) block viewp false = .ok r) :
    Journaled env (indexEntry (.child p block)) block viewp r := by
  obtain ⟨hcheck, -, pprev, -, htransactions⟩ :=
    connectBlock_transactions (h.genesis p block (mem_path_self _)) hconnect
  exact connectTransactions_journal hcheck (h.freshCoinBase hparent) htransactions

end

theorem StoredChain.branchJournal (h : StoredChain secp env store n view) (hq : q ∈ n.path)
    (hviewq : ConnectedChain env q viewq) : ∃ ws, BranchJournal env q viewq n view ws := by
  induction n generalizing view with
  | root block =>
    cases mem_singleton.mp hq
    cases h.connected.unique hviewq
    exact ⟨[], .refl⟩
  | child p block ih =>
    rcases mem_path_child hq with rfl | hq
    · cases h.connected.unique hviewq
      exact ⟨[], .refl⟩
    · obtain ⟨viewp, r, hp, rfl, hconnect⟩ := h.parent
      obtain ⟨ws, hws⟩ := ih hp hq
      exact ⟨_, .step hws hp.connected hconnect (h.journaled hp.connected hconnect)⟩

theorem withUndo_map_fst (h : Journaled env pindex block view r) :
    (block.withUndo r.vtxundo).map Prod.fst = block.vtx := by
  refine map_fst_zip (Nat.le_of_eq ?_)
  rw [← h.length, length_cons, length_map]

theorem Journaled.replayable (h : Journaled env pindex block view r)
    (hcheck : checkBlock env.H block env.consensus fCheckPOW fCheckMerkleRoot = .ok ()) :
    ∀ e ∈ block.withUndo r.vtxundo, Replayable e.1 e.2 := by
  obtain ⟨-, hcoinbases, hvtx⟩ := checkBlock_transactions env.H block hcheck
  obtain ⟨coinbase, vtx, heq, hcoinbase, hrest⟩ := checkCoinBases_ok block hcoinbases
  rintro ⟨tx, txundo⟩ he
  have htx : tx ∈ block.vtx := (of_mem_zip he).1
  refine ⟨(checkTransaction_parts (hvtx tx htx)).1, ?_, ?_⟩
  · rintro rfl
    rw [CBlock.withUndo, heq, zip_cons_cons, zip_map_right] at he
    rcases mem_cons.mp he with heq | he
    · cases heq
      exact hcoinbase
    · obtain ⟨_, -, heq⟩ := List.mem_map.mp he
      cases heq
  · rintro vprevout rfl
    have hmem := mem_withUndo.mp he
    have htail : tx ∈ block.vtx.tail := (of_mem_zip hmem).1
    rw [heq] at htail
    exact ⟨hrest tx htail, (h.records _ hmem).1⟩

section
variable (h : StoredChain secp env store (.child p block) view) (hparent : ConnectedChain env p viewp)
  (hconnect : connectBlock env (indexEntry (.child p block)) block viewp false = .ok r)
  (cache : CCoinsView)
include h hparent hconnect cache

theorem StoredChain.rollforwardBlock :
    ∃ cache', rollforwardBlock env store (indexEntry (.child p block)) cache = .ok cache' ∧
      cache'.coinAt = redo cache.coinAt
        (vtxWrites env.H (indexEntry (.child p block)).height (block.withUndo r.vtxundo)) := by
  have hjournal := h.journaled hparent hconnect
  obtain ⟨hcheck, -⟩ := connectBlock_transactions (h.genesis p block (mem_path_self _)) hconnect
  obtain ⟨cache', hroll, hcoins⟩ := rollforwardTxs_journal env (hjournal.replayable hcheck)
    (indexEntry (.child p block)).height cache
  rw [withUndo_map_fst hjournal] at hroll
  have hread := h.blocks _ (mem_path_self _)
  refine ⟨cache', ?_, hcoins⟩
  rw [OurChain.rollforwardBlock, hread]
  dsimp only [Node.value]
  rw [hroll]

theorem StoredChain.rollbackBlock :
    ∃ cache', rollbackBlock secp env store (indexEntry (.child p block)) cache = .ok cache' ∧
      cache'.coinAt = undo cache.coinAt
        (vtxWrites env.H (indexEntry (.child p block)).height (block.withUndo r.vtxundo)) := by
  have hjournal := h.journaled hparent hconnect
  have hheight : (indexEntry (.child p block)).height < 2 ^ 31 := by
    rw [indexEntry, height_map]
    exact h.height
  have hview := hparent.wellFormed (Nat.lt_of_succ_lt h.height)
  obtain ⟨bs, hpos, hread⟩ := h.undos p block viewp r (mem_path_self _) hparent hconnect
  obtain ⟨fClean, cache', hdisconnect, hcoins, -⟩ :=
    disconnectTxs_journal env cache hheight (hjournal.fitsUndo hview (Nat.succ_pos _) hheight)
  refine ⟨cache'.setBestBlock (prevHash env (indexEntry (.child p block))), ?_, hcoins⟩
  have hblock := h.blocks _ (mem_path_self _)
  simp only [OurChain.rollbackBlock, hblock, Node.value, disconnectBlock, hpos, bind_some, hread,
    disconnectTransactions, hjournal.length, ne_eq, not_true_eq_false, if_false, hdisconnect,
    bind, Except.bind, pure, Except.pure, Except.map]

end

theorem BranchJournal.mem_path (h : BranchJournal env q viewq n view ws) : q ∈ n.path := by
  induction h with
  | refl => exact mem_path_self _
  | step _ _ _ _ ih => exact mem_cons_of_mem _ ih

theorem rollback_self (pindex : BlockPtr) (cache : CCoinsView) :
    rollback secp env store (some pindex) pindex cache = .ok cache := by
  cases pindex with
  | root b => exact if_pos (.inl rfl)
  | child p b => exact if_pos rfl

theorem BranchJournal.rollback (h : BranchJournal env q viewq n view ws)
    (hstored : StoredChain secp env store n view) (cache : CCoinsView) : ∃ cache',
      rollback secp env store (some (indexEntry q)) (indexEntry n) cache = .ok cache' ∧
        cache'.coinAt = undo cache.coinAt ws := by
  induction h generalizing cache with
  | refl => exact ⟨cache, rollback_self _ cache, rfl⟩
  | @step p view _ block r h hparent hconnect hblock ih =>
    have habove : some (indexEntry (.child p block)) ≠ some (indexEntry q) := by
      intro heq
      have hheight := congrArg Node.height (some.inj heq)
      rw [indexEntry, indexEntry, height_map, height_map] at hheight
      have hle := height_le_of_mem_path h.mem_path
      exact absurd hheight (Nat.ne_of_gt (Nat.lt_succ_of_le hle))
    obtain ⟨viewp, _, hp, -, -⟩ := hstored.parent
    cases hp.connected.unique hparent
    obtain ⟨cache₁, hfirst, hcoins₁⟩ := hstored.rollbackBlock hparent hconnect cache
    obtain ⟨cache₂, hrest, hcoins₂⟩ := ih hp cache₁
    refine ⟨cache₂, ?_, ?_⟩
    · have hstep : OurChain.rollback secp env store (some (indexEntry q))
        (indexEntry (.child p block)) cache =
          OurChain.rollbackBlock secp env store (indexEntry (.child p block)) cache >>=
            OurChain.rollback secp env store (some (indexEntry q)) (indexEntry p) := if_neg habove
      rw [hstep, hfirst]
      exact hrest
    · rw [hcoins₂, hcoins₁, undo_append]

variable (env store) in
theorem rollforward_child (p : BlockPtr) (b : CBlockHeader) (hle : nForkHeight ≤ p.height)
    (cache : CCoinsView) :
    rollforward env store nForkHeight (.child p b) cache =
      rollforward env store nForkHeight p cache >>= OurChain.rollforwardBlock env
      store (.child p b) := by
  have hsize : (Node.child p b).height - nForkHeight = p.height - nForkHeight + 1 := Nat.succ_sub hle
  have hlast : (Node.child p b).ancestorAt (nForkHeight + 1 + (p.height - nForkHeight)) =
    some (.child p b) := by
    have hheight : nForkHeight + 1 + (p.height - nForkHeight) = p.branch.length := by
      rw [length_branch]
      omega
    rw [Node.ancestorAt, Node.branch, hheight, getElem?_append_right (Nat.le_refl _), Nat.sub_self]
    rfl
  have hlow : (List.range' (nForkHeight + 1) (p.height - nForkHeight)).map
    (Node.child p b).ancestorAt =
      (List.range' (nForkHeight + 1) (p.height - nForkHeight)).map p.ancestorAt := by
    refine map_congr_left fun k hk => ?_
    rw [mem_range'_1] at hk
    exact getElem?_append_left (by rw [length_branch]; omega)
  have hmap : ∀ (n : BlockPtr) (heights : List Nat),
      heights.foldlM (fun cache nHeight =>
      rollforwardAt env store cache (n.ancestorAt nHeight)) cache =
        (heights.map n.ancestorAt).foldlM (rollforwardAt env store) cache :=
        fun n heights => foldlM_map.symm
  rw [rollforward, rollforward, hsize, range'_1_concat, foldlM_append, hmap, hmap, hlow]
  refine bind_congr fun cache' => ?_
  rw [foldlM_cons, hlast]
  exact bind_pure _

theorem BranchJournal.rollforward (h : BranchJournal env q viewq n view ws)
    (hstored : StoredChain secp env store n view) (cache : CCoinsView) :
    ∃ cache', rollforward env store q.height (indexEntry n) cache = .ok cache' ∧
      cache'.coinAt = redo cache.coinAt ws := by
  induction h generalizing cache with
  | refl =>
    refine ⟨cache, ?_, rfl⟩
    rw [OurChain.rollforward, indexEntry, height_map, Nat.sub_self]
    rfl
  | @step p view _ block r h hparent hconnect hblock ih =>
    obtain ⟨viewp, _, hp, -, -⟩ := hstored.parent
    cases hp.connected.unique hparent
    obtain ⟨cache₁, hfirst, hcoins₁⟩ := ih hp cache
    obtain ⟨cache₂, hlast, hcoins₂⟩ := hstored.rollforwardBlock hparent hconnect cache₁
    have hle : q.height ≤ (indexEntry p).height := by
      rw [indexEntry, height_map]
      exact height_le_of_mem_path h.mem_path
    refine ⟨cache₂, ?_, ?_⟩
    · have hchild := rollforward_child env store (indexEntry p) block.header hle cache
      rw [hfirst] at hchild
      exact hchild.trans hlast
    · rw [hcoins₂, hcoins₁, redo_append]

section
variable {α : Type} [DecidableEq α] {pa pb q : Node α} {first : α}

theorem meet_spec (hheight : pa.height = pb.height) (ha : .root first ∈ pa.path)
    (hb : .root first ∈ pb.path) :
    ∃ q, meet pa pb = some q ∧ q ∈ pa.path ∧ q ∈ pb.path := by
  induction pa generalizing pb with
  | root a =>
    cases mem_singleton.mp ha
    cases pb with
    | root b =>
      cases mem_singleton.mp hb
      exact ⟨.root first, if_pos rfl, ha, hb⟩
    | child pb b => cases hheight
  | child pa a ih =>
    by_cases heq : Node.child pa a = pb
    · exact ⟨pb, if_pos heq, heq ▸ mem_path_self _, mem_path_self _⟩
    · cases pb with
      | root b => cases hheight
      | child pb b =>
        have ha' : Node.root first ∈ pa.path := (mem_path_child ha).resolve_left (fun h => nomatch h)
        have hb' : Node.root first ∈ pb.path := (mem_path_child hb).resolve_left (fun h => nomatch h)
        obtain ⟨q, hq, hqa, hqb⟩ := ih (Nat.succ.inj hheight) ha' hb'
        exact ⟨q, (if_neg heq).trans hq, mem_cons_of_mem _ hqa, mem_cons_of_mem _ hqb⟩

end

theorem lastCommonAncestor_spec {α : Type} [DecidableEq α] {pa pb : Node α} {first : α}
    (ha : .root first ∈ pa.path) (hb : .root first ∈ pb.path) :
    ∃ q, lastCommonAncestor pa pb = some q ∧ q ∈ pa.path ∧ q ∈ pb.path := by
  -- the higher one is replaced by its ancestor at the height of the other
  have hdown : ∀ {n : Node α} {k : Nat}, .root first ∈ n.path → k ≤ n.height →
      ∃ a, n.ancestorAt k = some a ∧ a ∈ n.path ∧ a.height = k ∧ .root first ∈ a.path := by
    intro n k hroot hk
    obtain ⟨a, hget, hmem, hheight⟩ := ancestorAt_spec hk
    obtain ⟨b, hb, hzero⟩ := exists_mem_path (Nat.zero_le a.height)
    cases eq_of_mem_path (path_trans hb hmem) hroot hzero
    exact ⟨a, hget, hmem, hheight, hb⟩
  unfold lastCommonAncestor
  rcases Nat.lt_trichotomy pa.height pb.height with hlt | heq | hgt
  · obtain ⟨b, hget, hmem, hheight, hroot⟩ := hdown hb (Nat.le_of_lt hlt)
    obtain ⟨q, hq, hqa, hqb⟩ := meet_spec hheight.symm ha hroot
    rw [if_neg (Nat.not_lt.mpr (Nat.le_of_lt hlt)), if_pos hlt, hget]
    exact ⟨q, hq, hqa, path_trans hqb hmem⟩
  · obtain ⟨q, hq, hqa, hqb⟩ := meet_spec heq ha hb
    rw [if_neg (Nat.not_lt.mpr (Nat.le_of_eq heq)), if_neg (Nat.not_lt.mpr (Nat.le_of_eq heq.symm))]
    exact ⟨q, hq, hqa, hqb⟩
  · obtain ⟨a, hget, hmem, hheight, hroot⟩ := hdown ha (Nat.le_of_lt hgt)
    obtain ⟨q, hq, hqa, hqb⟩ := meet_spec hheight hroot hb
    rw [if_pos hgt, hget]
    exact ⟨q, hq, path_trans hqa hmem, hqb⟩

theorem eq_of_indexEntry {a b : Node CBlock}
    (ha : ∀ m ∈ a.path, store.readBlock (indexEntry m) = some m.value)
    (hb : ∀ m ∈ b.path, store.readBlock (indexEntry m) = some m.value)
    (h : indexEntry a = indexEntry b) : a = b := by
  induction a generalizing b with
  | root block =>
    have hblock := ha _ (mem_path_self _)
    rw [h, hb _ (mem_path_self _)] at hblock
    cases b with
    | root block' =>
      cases hblock
      rfl
    | child p block' => cases h
  | child p block ih =>
    have hblock := ha _ (mem_path_self _)
    rw [h, hb _ (mem_path_self _)] at hblock
    cases b with
    | root block' => cases h
    | child p' block' =>
      cases hblock
      have hparent : indexEntry p = indexEntry p' := (Node.child.inj h).1
      cases ih (fun m hm => ha m (mem_cons_of_mem _ hm)) (fun m hm =>
        hb m (mem_cons_of_mem _ hm)) hparent
      rfl

theorem ConnectedChain.ancestor (h : ConnectedChain env n view) (hq : q ∈ n.path) :
    ∃ viewq, ConnectedChain env q viewq := by
  induction h with
  | genesis h =>
    cases mem_singleton.mp hq
    exact ⟨_, .genesis h⟩
  | child hparent h ih =>
    rcases mem_path_child hq with rfl | hq
    · exact ⟨_, .child hparent h⟩
    · exact ih hq

theorem ConnectedChain.coinAt_root (h : ConnectedChain env (.root block) view) :
    view.coinAt = fun _ => none := by
  cases h with
  | @genesis _ r h =>
    have hnone : r.view.All fun _ _ => False := by
      refine connectBlock_all CCoinsView.all_empty (fun hpos => ?_) h
      exact absurd hpos (Nat.lt_irrefl 0)
    funext outpoint
    cases hcoin : r.view.coinAt outpoint with
    | none => rfl
    | some coin => exact (hnone outpoint coin hcoin).elim

/-- The coins and the hash of the old tip of a flush, which is null for the first one. -/
inductive FlushFrom (secp : Secp256k1) (env : BlockEnv) (store : BlockStore) (new : Node CBlock) :
    (COutPoint → Option Coin) → Uint256 → Prop
  | first : FlushFrom secp env store new (fun _ => none) 0
  | tip (hold : StoredChain secp env store old view) (hne : old.value.header.getHash env.H ≠ 0)
      (hindex : store.mapBlockIndex (old.value.header.getHash env.H) = some (indexEntry old))
      (hroot : .root genesis ∈ old.path ∧ .root genesis ∈ new.path) :
      FlushFrom secp env store new view.coinAt (old.value.header.getHash env.H)

section
variable (h : FlushFrom secp env store new coinsOld hashOld)
  (hnew : StoredChain secp env store new viewNew)
include h hnew

/-- The part of `ReplayBlocks` for the old branch ends in coins over which the journal of
the new one, from the fork on, leads to the coins of the new tip. -/
theorem FlushFrom.rollbackOld (cache : CCoinsView)
    (hmix : ∀ o, cache.coinAt o = coinsOld o ∨ cache.coinAt o = viewNew.coinAt o) :
    ∃ (q : Node CBlock) (viewq : CCoinsView) (ws : List (Write COutPoint Coin)) (cache' : CCoinsView),
      BranchJournal env q viewq new viewNew ws ∧
        rollbackOld secp env store hashOld (indexEntry new) cache = .ok (q.height, cache') ∧
        redo cache'.coinAt ws = viewNew.coinAt := by
  cases h with
  | first =>
    obtain ⟨q, hq, hzero⟩ := exists_mem_path (Nat.zero_le new.height)
    cases q with
    | child p block => cases hzero
    | root block =>
      obtain ⟨viewq, hviewq⟩ := hnew.connected.ancestor hq
      obtain ⟨ws, hws⟩ := hnew.branchJournal hq hviewq
      refine ⟨.root block, viewq, ws, cache, hws, if_pos rfl, ?_⟩
      have hredo := hws.kept.2
      have hempty : Kept viewq.coinAt [] := trivial
      rw [hredo]
      refine redo_undo_mix hempty fun o => ?_
      rw [← hredo]
      exact hviewq.coinAt_root ▸ hmix o
  | @tip old viewOld genesis hold hne hindex hroot =>
    have hpath : ∀ {n : Node CBlock}, .root genesis ∈ n.path →
      .root genesis.header ∈ (indexEntry n).path := by
      intro n hn
      rw [indexEntry, path_map]
      exact List.mem_map.mpr ⟨_, hn, rfl⟩
    obtain ⟨q', hfork, hqold, hqnew⟩ := lastCommonAncestor_spec (hpath hroot.1) (hpath hroot.2)
    rw [indexEntry, path_map] at hqold hqnew
    obtain ⟨q, hq, rfl⟩ := List.mem_map.mp hqold
    obtain ⟨q', hq', hsame⟩ := List.mem_map.mp hqnew
    cases eq_of_indexEntry (fun m hm => hnew.blocks m (path_trans hm hq'))
      (fun m hm => hold.blocks m (path_trans hm hq)) hsame
    obtain ⟨viewq, hviewq⟩ := hold.connected.ancestor hq
    obtain ⟨wsOld, hwsOld⟩ := hold.branchJournal hq hviewq
    obtain ⟨ws, hws⟩ := hnew.branchJournal hq' hviewq
    obtain ⟨cache', hrollback, hcoins⟩ := hwsOld.rollback hold cache
    refine ⟨q, viewq, ws, cache', hws, ?_, ?_⟩
    · rw [OurChain.rollbackOld, if_neg hne, hindex]
      dsimp only
      rw [hfork]
      dsimp only
      rw [show q.map CBlock.header = indexEntry q from rfl, hrollback, indexEntry, height_map]
      rfl
    · rw [hcoins, hws.kept.2]
      refine redo_undo_mix hwsOld.kept.1 fun o => ?_
      rw [← hwsOld.kept.2, ← hws.kept.2]
      exact hmix o

theorem FlushFrom.replayBlocks (hindex : store.mapBlockIndex (new.value.header.getHash env.H) =
    some (indexEntry new)) (hdb : db.Between coinsOld viewNew.coinAt hashOld
    (new.value.header.getHash env.H)) :
    ∃ cache, replayBlocks secp env store db = .ok (some cache) ∧ cache.coinAt = viewNew.coinAt ∧
      cache.hashBlock = new.value.header.getHash env.H := by
  obtain ⟨q, viewq, ws, cache₁, hws, hold, hcoins⟩ :=
    h.rollbackOld hnew ⟨db.coins, db.getBestBlock⟩ hdb.coins
  obtain ⟨cache₂, hforward, hcoins₂⟩ := hws.rollforward hnew cache₁
  refine ⟨cache₂.setBestBlock (new.value.header.getHash env.H), ?_, hcoins₂.trans hcoins, rfl⟩
  have hvalue : (indexEntry new).value = new.value.header := value_map _ new
  simp only [OurChain.replayBlocks, CCoinsViewDB.getHeadBlocks, hdb.heads, getD_some, hindex,
    hold, hforward, hvalue, bind, Except.bind, pure, Except.pure]

end

/-- `ReplayBlocks` with the flush at its end, whose batches are all written, leaves these
coins and this best block. The cache hands on some dirty entries that make up for what it
differs from the database in. -/
def RecoversTo (secp : Secp256k1) (env : BlockEnv) (store : BlockStore) (db : CCoinsViewDB)
    (coins : COutPoint → Option Coin) (hashBlock : Uint256) : Prop :=
  ∃ cache, replayBlocks secp env store db = .ok (some cache) ∧
    ∀ mapCoins, CCoinsViewDB.Turns mapCoins db.getCoin cache.coinAt → ∀ mapContState full, ∃ batches,
      db.batchWrite full mapCoins mapContState cache.hashBlock = .ok batches ∧
        (db.crashAfter batches batches.length).Settled coins hashBlock

/-- However the entries of a flush are split into batches, and wherever it is cut off
between two of them: replaying the blocks leaves the UTXO set of the new tip, and the new
tip as the best block. -/
theorem crash_recovery (hfrom : FlushFrom secp env store new coinsOld hashOld)
    (hnew : StoredChain secp env store new viewNew) (hne : new.value.header.getHash env.H ≠ 0)
    (hindex : store.mapBlockIndex (new.value.header.getHash env.H) = some (indexEntry new))
    {db : CCoinsViewDB} (hcoins : db.getCoin = coinsOld) (hbest : db.getBestBlock = hashOld)
    (hheads : db.headBlocks = none) {mapCoins : CCoinsMap}
    (hturns : CCoinsViewDB.Turns mapCoins coinsOld viewNew.coinAt) (mapContState : CContStateMap)
    (full : CDBBatch → Bool) :
    ∃ batches, db.batchWrite full mapCoins mapContState
    (new.value.header.getHash env.H) = .ok batches ∧
      ∀ k, 0 < k → k < batches.length → RecoversTo secp env store
      (db.crashAfter batches k) viewNew.coinAt
        (new.value.header.getHash env.H) := by
  have htip : db.oldTip (new.value.header.getHash env.H) = .ok hashOld := by
    unfold CCoinsViewDB.oldTip
    split
    · rename_i hzero
      rw [CCoinsViewDB.getHeadBlocks, hheads, ← hbest, hzero]
      rfl
    · rw [hbest]
  obtain ⟨batches, hbatches, -⟩ := CCoinsViewDB.batchWrite_ok full mapCoins mapContState hne htip
  refine ⟨batches, hbatches, fun k hk hlt => ?_⟩
  subst hcoins
  have hbetween := CCoinsViewDB.batchWrite_crash (fun _ => .inl rfl) hturns htip hbatches hk
  rw [if_pos hlt] at hbetween
  obtain ⟨cache, hreplay, hcache, hhash⟩ := hfrom.replayBlocks hnew hindex hbetween
  refine ⟨cache, hreplay, fun mapCoins' hturns' mapContState' full' => ?_⟩
  rw [hcache] at hturns'
  rw [hhash]
  obtain ⟨batches', hbatches', hpos⟩ := CCoinsViewDB.batchWrite_ok full' mapCoins' mapContState' hne
    hbetween.oldTip
  refine ⟨batches', hbatches', ?_⟩
  have hsettled := CCoinsViewDB.batchWrite_crash hbetween.coins hturns' hbetween.oldTip hbatches' hpos
  rwa [if_neg (Nat.lt_irrefl _)] at hsettled

end

section
variable (coins : COutPoint → Option Coin) (outpoints : List COutPoint)

def dirtyEntries : CCoinsMap :=
  outpoints.foldr (fun o mapCoins => mapCoins.insert o ⟨(coins o).getD coinEmpty, true, false⟩) ∅

theorem lookup_dirtyEntries (o : COutPoint) :
    (dirtyEntries coins outpoints).lookup o =
      if o ∈ outpoints then some ⟨(coins o).getD coinEmpty, true, false⟩ else none := by
  induction outpoints with
  | nil => rfl
  | cons o' outpoints ih =>
    by_cases ho : o = o'
    · subst ho
      rw [dirtyEntries, foldr_cons, AList.lookup_insert, if_pos mem_cons_self]
    · rw [dirtyEntries, foldr_cons, AList.lookup_insert_ne ho]
      refine ih.trans ?_
      simp only [mem_cons, ho, false_or]

end

theorem exists_turns (old new : CCoinsView) (hnew : new.All fun _ coin => coin.isSpent = false) :
    ∃ mapCoins, CCoinsViewDB.Turns mapCoins old.coinAt new.coinAt := by
  refine ⟨dirtyEntries new.coinAt (old.coins.keys ∪ new.coins.keys).toList, fun o => ?_⟩
  rw [lookup_dirtyEntries]
  split
  · cases hcoin : new.coinAt o with
    | none => rfl
    | some coin =>
      have hspent := hnew o coin hcoin
      simp [Option.filter, Coin.unspent, hspent]
  · rename_i hnone
    rw [Finset.mem_toList, Finset.mem_union, not_or, Finmap.mem_keys, Finmap.mem_keys] at hnone
    have hold : old.coinAt o = none := Finmap.lookup_eq_none.mpr hnone.1
    have hnew : new.coinAt o = none := Finmap.lookup_eq_none.mpr hnone.2
    rw [hold, hnew]
    rfl

def otherCoinbase : CTransaction := { bareCoinbase with
  vin := [⟨.null, [OP_1, OP_1], SEQUENCE_FINAL, []⟩] }

def forkStore : BlockStore where
  readBlock pindex := ([.root sampleNet.genesis, minedChain bareCoinbase,
    minedChain otherCoinbase].find? fun n =>
    indexEntry n = pindex).map Node.value
  undoPos pindex := undoWriteToDisk noKeys sampleHash [] (prevHash sampleNet.toBlockEnv pindex)
  mapBlockIndex hash := ([.root sampleNet.genesis, minedChain bareCoinbase,
    minedChain otherCoinbase].find? fun n =>
    n.value.header.getHash sampleHash = hash).map indexEntry

/-- What is computed of a block with a coinbase only on the genesis block. -/
structure MinedFacts (coinbase : CTransaction) : Prop where
  connects : (connectBlock sampleNet.toBlockEnv (indexEntry (minedChain coinbase))
    (minedBlock coinbase) sampleNet.genesisView false).isOk
  genesis : (minedBlock coinbase).header.getHash sampleNet.H ≠ sampleNet.hashGenesisBlock
  txids : (chainTxids sampleNet.toBlockEnv (minedChain coinbase)).Nodup
  block : forkStore.readBlock (indexEntry (minedChain coinbase)) = some (minedBlock coinbase)

theorem MinedFacts.stored (h : MinedFacts coinbase) : ∃ view,
    StoredChain noKeys sampleNet.toBlockEnv forkStore (minedChain coinbase) view := by
  have hcheck : checkBlock sampleNet.H sampleNet.genesis sampleNet.consensus true true = .ok () := by
    decide +kernel
  have hroot : forkStore.readBlock (indexEntry (.root sampleNet.genesis)) =
    some sampleNet.genesis := by
    decide +kernel
  have hgenesis : ConnectedChain sampleNet.toBlockEnv
    (.root sampleNet.genesis) sampleNet.genesisView :=
    .genesis ((connectBlock_genesis _).mpr ⟨hcheck, rfl⟩)
  have hconnects := h.connects
  cases hr : connectBlock sampleNet.toBlockEnv (indexEntry (minedChain coinbase))
    (minedBlock coinbase)
      sampleNet.genesisView false with
  | error e =>
    rw [hr] at hconnects
    cases hconnects
  | ok r =>
    have hundo : r.vtxundo = [] := by
      obtain ⟨hcheck, -, pprev, -, htransactions⟩ := connectBlock_transactions h.genesis hr
      have hfresh : FreshCoinBase sampleNet.toBlockEnv (minedBlock coinbase) sampleNet.genesisView :=
        fun coinbase _ o _ => congrFun hgenesis.coinAt_root _
      exact length_eq_zero_iff.mp (Nat.succ.inj
        (connectTransactions_journal hcheck hfresh htransactions).length)
    have hpath : ∀ p block, Node.child p block ∈ (minedChain coinbase).path →
        p = .root sampleNet.genesis ∧ block = minedBlock coinbase := by
      intro p block hmem
      rcases mem_path_child hmem with heq | hmem
      · cases heq
        exact ⟨rfl, rfl⟩
      · cases mem_singleton.mp hmem
    refine ⟨r.view, ?_⟩
    exact {
      connected := .child hgenesis hr
      height := (by decide : 1 < 2 ^ 31)
      genesis := fun p block hmem => (hpath p block hmem).2 ▸ h.genesis
      txids := h.txids
      blocks := fun m hm => by
        rcases mem_path_child hm with rfl | hm
        · exact h.block
        · cases mem_singleton.mp hm
          exact hroot
      undos := fun p block view r' hmem hparent hconnect => by
        obtain ⟨rfl, rfl⟩ := hpath p block hmem
        cases hgenesis.unique hparent
        cases hr.symm.trans hconnect
        rw [hundo]
        have hwrite := (undoWriteToDisk_isSome noKeys sampleHash []
          (prevHash sampleNet.toBlockEnv (indexEntry (minedChain coinbase)))).mpr (forall_mem_nil _)
        obtain ⟨bs, hbs⟩ := isSome_iff_exists.mp hwrite
        exact ⟨bs, hbs, undoReadFromDisk_write noKeys_lawful sampleHash _ (Nat.zero_le _)
          (forall_mem_nil _) (forall_mem_nil _) hbs⟩ }

theorem crash_recovery_fork :
    ∃ (viewOld viewNew : CCoinsView) (mapCoins : CCoinsMap) (db : CCoinsViewDB),
    StoredChain noKeys sampleNet.toBlockEnv forkStore (minedChain bareCoinbase) viewOld ∧
      StoredChain noKeys sampleNet.toBlockEnv forkStore (minedChain otherCoinbase) viewNew ∧
      db.getCoin = viewOld.coinAt ∧ CCoinsViewDB.Turns mapCoins viewOld.coinAt viewNew.coinAt ∧
      ∃ batches, db.batchWrite (fun _ => true) mapCoins ∅
      ((minedChain otherCoinbase).value.header.getHash sampleHash) =
          .ok batches ∧
        ∀ k, 0 < k → k < batches.length → RecoversTo noKeys sampleNet.toBlockEnv forkStore
          (db.crashAfter batches k) viewNew.coinAt
          ((minedChain otherCoinbase).value.header.getHash sampleHash) := by
  have hbare : MinedFacts bareCoinbase :=
    ⟨by decide +kernel, by decide +kernel, by decide +kernel, by decide +kernel⟩
  have hother : MinedFacts otherCoinbase :=
    ⟨by decide +kernel, by decide +kernel, by decide +kernel, by decide +kernel⟩
  obtain ⟨viewOld, hold⟩ := hbare.stored
  obtain ⟨viewNew, hnew⟩ := hother.stored
  have hunspent : viewNew.All fun _ coin => coin.isSpent = false := by
    intro outpoint coin hcoin
    have hrange := (moneyRange_iff _).mp (hnew.connected.total_le.1 outpoint coin hcoin)
    refine decide_eq_false ?_
    omega
  obtain ⟨mapCoins, hturns⟩ := exists_turns viewOld viewNew hunspent
  have hroot : ∀ coinbase, Node.root sampleNet.genesis ∈ (minedChain coinbase).path :=
    fun _ => mem_path_parent ..
  obtain ⟨hashOld, hhash⟩ : ∃ hashOld, hashOld = (minedChain bareCoinbase).value.header.getHash
    sampleHash := ⟨_, rfl⟩
  have hfrom : FlushFrom noKeys sampleNet.toBlockEnv forkStore
    (minedChain otherCoinbase) viewOld.coinAt hashOld := by
    rw [hhash]
    exact .tip hold (by decide +kernel) (by decide +kernel) ⟨hroot _, hroot _⟩
  exact ⟨viewOld, viewNew, mapCoins, ⟨viewOld.coins, ∅, some hashOld, none⟩, hold, hnew, rfl, hturns,
    crash_recovery hfrom hnew (by decide +kernel) (by decide +kernel) rfl rfl rfl hturns ∅
    fun _ => true⟩

end OurChain
