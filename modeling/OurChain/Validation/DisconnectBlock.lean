import OurChain.Lib.Journal
import OurChain.Undo
import OurChain.Validation.AcceptedChain

/-!
# Disconnecting a block

`DisconnectBlock` takes the outputs of a block out of the view and puts back the coins
its inputs have spent, with the last transaction first. What a block does to the coins
is a journal of writes, of which the undo record holds the values before; the block is
disconnected by taking the journal back, from any view.
-/

namespace OurChain

open Function List

/-- `DISCONNECT_FAILED`, or a check of `AddCoin`. -/
inductive DisconnectFailure
  | failed
  | check (failure : CheckFailure)

/-- The weight of the smallest output, which is `CTxOut()`. -/
def MIN_TRANSACTION_OUTPUT_WEIGHT : Nat := WITNESS_SCALE_FACTOR * (txOutCodec.write ⟨-1, []⟩).length

def MAX_OUTPUTS_PER_BLOCK : Nat := MAX_BLOCK_WEIGHT / MIN_TRANSACTION_OUTPUT_WEIGHT

def accessByTxid (view : CCoinsView) (txid : Uint256) : Option Coin :=
  (List.range MAX_OUTPUTS_PER_BLOCK).findSome? fun n => view.coins.lookup ⟨txid, BitVec.ofNat 32 n⟩

/-- The coin with the metadata of another output where older records lack them. -/
def withMetadata (undo : Coin) (view : CCoinsView) (txid : Uint256) : Option Coin :=
  if undo.nHeight = 0 then (accessByTxid view txid).map fun alternate =>
    { undo with nHeight := alternate.nHeight, fCoinBase := alternate.fCoinBase }
  else some undo

def applyTxInUndo (undo : Coin) (view : CCoinsView) (out : COutPoint) :
    Except DisconnectFailure (Bool × CCoinsView) :=
  let fClean := !view.haveCoin out
  match withMetadata undo view out.hash with
  | none => .error .failed
  | some undo => match view.addCoin out undo (!fClean) with
    | .error failure => .error (.check failure)
    | .ok view => .ok (fClean, view)

def restoreInputs : List CTxIn → List Coin → CCoinsView → Except DisconnectFailure (Bool × CCoinsView)
  | txin :: vin, undo :: vprevout, view => do
    let (fClean, view) ← restoreInputs vin vprevout view
    let (res, view) ← applyTxInUndo undo view txin.prevout
    return (fClean && res, view)
  | _, _, view => .ok (true, view)

def removeOutput (nHeight : Nat) (is_coinbase : Bool) (hash : Uint256) (r : Bool × CCoinsView)
    (out : CTxOut) (o : Nat) : Bool × CCoinsView :=
  let (fClean, view) := r
  if isUnspendable out.scriptPubKey then r
  else match view.spendCoin ⟨hash, BitVec.ofNat 32 o⟩ with
    | none => (false, view)
    | some (coin, view) =>
      (fClean && decide (out = coin.out ∧ nHeight = coin.nHeight.toNat ∧
        is_coinbase = coin.fCoinBase), view)

section
variable (secp : Secp256k1) (env : BlockEnv) (pindex : BlockPtr)

def removeOutputs (tx : CTransaction) (view : CCoinsView) : Bool × CCoinsView :=
  tx.vout.zipIdx.foldl (fun r (out, o) =>
    removeOutput pindex.height tx.isCoinBase (tx.getHash env.H) r out o) (true, view)

/-- A transaction with its undo record, which the first one lacks. -/
def disconnectTx (tx : CTransaction) (txundo : Option (List Coin)) (view : CCoinsView) :
    Except DisconnectFailure (Bool × CCoinsView) :=
  let (fClean, view) := removeOutputs env pindex tx view
  match txundo with
  | none => .ok (fClean, view)
  | some vprevout =>
    if vprevout.length ≠ tx.vin.length then .error .failed
    else do
      let (res, view) ← restoreInputs tx.vin vprevout view
      return (fClean && res, view)

def disconnectTxs : List (CTransaction × Option (List Coin)) → CCoinsView →
    Except DisconnectFailure (Bool × CCoinsView)
  | [], view => .ok (true, view)
  | (tx, txundo) :: vtx, view => do
    let (fClean, view) ← disconnectTxs vtx view
    let (res, view) ← disconnectTx env pindex tx txundo view
    return (fClean && res, view)

def CBlock.withUndo (block : CBlock) (vtxundo : List (List Coin)) :
    List (CTransaction × Option (List Coin)) :=
  block.vtx.zip (none :: vtxundo.map some)

/-- The part behind the reading of the record. The block has a parent. -/
def disconnectTransactions (block : CBlock) (vtxundo : List (List Coin)) (view : CCoinsView) :
    Except DisconnectFailure (Bool × CCoinsView) :=
  if vtxundo.length + 1 ≠ block.vtx.length then .error .failed
  else do
    let (fClean, view) ← disconnectTxs env pindex (block.withUndo vtxundo) view
    return (fClean, view.setBestBlock (prevHash env pindex))

/-- With what stands at the position of the record in the undo file. -/
def disconnectBlock (block : CBlock) (undoPos : Option Bytes) (view : CCoinsView) :
    Except DisconnectFailure (Bool × CCoinsView) :=
  match undoPos.bind fun bs => undoReadFromDisk secp env.H bs (prevHash env pindex) with
  | none => .error .failed
  | some vtxundo => disconnectTransactions env pindex block vtxundo view

end

open Journal

def CCoinsView.coinAt (view : CCoinsView) (outpoint : COutPoint) :
    Option Coin := view.coins.lookup outpoint

namespace CCoinsView

variable {view view' : CCoinsView}

theorem ext_coinAt (h : view.coinAt = view'.coinAt) (hhash : view.hashBlock = view'.hashBlock) :
    view = view' := by
  obtain ⟨coins, hash⟩ := view
  obtain ⟨coins', hash'⟩ := view'
  cases (show hash = hash' from hhash)
  rw [show coins = coins' from Finmap.ext_lookup fun x => congrFun h x]

@[simp] theorem coinAt_erase (outpoint : COutPoint) :
    coinAt { view with coins := view.coins.erase outpoint } = update view.coinAt outpoint none :=
  lookup_erase_update view.coins outpoint

@[simp] theorem coinAt_insert (outpoint : COutPoint) (coin : Coin) :
    coinAt { view with coins := view.coins.insert outpoint coin } =
      update view.coinAt outpoint (some coin) :=
  lookup_insert_update view.coins outpoint coin

end CCoinsView

def spendWrites (vin : List CTxIn) (vprevout : List Coin) : List (Write COutPoint Coin) :=
  List.zipWith (fun txin coin => ⟨txin.prevout, some coin, none⟩) vin vprevout

/-- The outputs with their places; those that cannot be spent are not added. -/
def addWrites (txid : Uint256) (fCoinBase : Bool) (nHeight : Nat) (outs : List (CTxOut × Nat)) :
    List (Write COutPoint Coin) :=
  outs.filterMap fun (out, i) =>
    if isUnspendable out.scriptPubKey then none
    else some ⟨⟨txid, BitVec.ofNat 32 i⟩, none, some ⟨out, fCoinBase, BitVec.ofNat 31 nHeight⟩⟩

def txWrites (H : Bytes → Uint256) (nHeight : Nat) (tx : CTransaction) (vprevout : List Coin) :
    List (Write COutPoint Coin) :=
  spendWrites tx.vin vprevout ++ addWrites (tx.getHash H) tx.isCoinBase nHeight tx.vout.zipIdx

def vtxWrites (H : Bytes → Uint256) (nHeight : Nat) (vtx : List (CTransaction × Option (List Coin))) :
    List (Write COutPoint Coin) :=
  vtx.flatMap fun (tx, txundo) => txWrites H nHeight tx (txundo.getD [])

theorem mem_addWrites (h : w ∈ addWrites txid fCoinBase nHeight outs) :
    ∃ out i, (out, i) ∈ outs ∧ isUnspendable out.scriptPubKey = false ∧
      w = ⟨⟨txid, BitVec.ofNat 32 i⟩, none, some ⟨out, fCoinBase, BitVec.ofNat 31 nHeight⟩⟩ := by
  obtain ⟨⟨out, i⟩, hmem, hw⟩ := mem_filterMap.mp h
  dsimp only at hw
  split at hw
  · cases hw
  · rename_i hscript
    cases hw
    exact ⟨out, i, hmem, Bool.eq_false_of_not_eq_true hscript, rfl⟩

section
variable (txid : Uint256) (fCoinBase : Bool) (nHeight : Nat) (outs : List (CTxOut × Nat))

theorem adds_addWrites : Adds (addWrites txid fCoinBase nHeight outs) := by
  intro w hw
  obtain ⟨out, i, -, -, rfl⟩ := mem_addWrites hw
  exact ⟨rfl, Option.some_ne_none _⟩

theorem addWrites_cons (out : CTxOut) (i : Nat) :
    addWrites txid fCoinBase nHeight ((out, i) :: outs) =
      if isUnspendable out.scriptPubKey then addWrites txid fCoinBase nHeight outs
      else ⟨⟨txid, BitVec.ofNat 32 i⟩, none, some ⟨out, fCoinBase, BitVec.ofNat 31 nHeight⟩⟩ ::
        addWrites txid fCoinBase nHeight outs := by
  rw [addWrites, filterMap_cons]
  split <;> rename_i h <;> split at h <;> simp_all [addWrites]

end

namespace CCoinsView

variable {view view' : CCoinsView}

theorem spendInputs_journal {vin : List CTxIn} {vprevout : List Coin}
    (h : view.spendInputs vin = .ok (vprevout, view')) :
    vprevout.length = vin.length ∧ Kept view.coinAt (spendWrites vin vprevout) ∧
      view'.coinAt = redo view.coinAt (spendWrites vin vprevout) := by
  induction vin generalizing view vprevout with
  | nil =>
    cases h
    exact ⟨rfl, trivial, rfl⟩
  | cons txin vin ih =>
    obtain ⟨coin, rest, rfl, hcoin, hrest⟩ := spendInputs_cons h
    obtain ⟨hlen, hkept, hredo⟩ := ih hrest
    rw [coinAt_erase] at hkept hredo
    exact ⟨congrArg Nat.succ hlen, ⟨hcoin, hkept⟩, hredo⟩

theorem addCoin_journal {outpoint : COutPoint} {coin : Coin}
    (h : view.addCoin outpoint coin overwrite = .ok view')
    (hfree : overwrite = true → view.coinAt outpoint = none) :
    if isUnspendable coin.out.scriptPubKey then view' = view
    else view.coinAt outpoint = none ∧ view'.coinAt = update view.coinAt outpoint (some coin) := by
  obtain ⟨hscript, rfl⟩ | ⟨hscript, hnone, rfl⟩ := addCoin_ok h
  · rw [if_pos hscript]
  · rw [if_neg (by simp [hscript])]
    refine ⟨?_, coinAt_insert outpoint coin⟩
    cases overwrite with
    | true => exact hfree rfl
    | false => exact hnone rfl

theorem addCoins_journal {outs : List (CTxOut × Nat)}
    (hnodup : (outs.map fun e => (⟨txid, BitVec.ofNat 32 e.2⟩ : COutPoint)).Nodup)
    (hfree : fCoinBase = true → ∀ e ∈ outs, view.coinAt ⟨txid, BitVec.ofNat 32 e.2⟩ = none)
    (h : outs.foldlM (fun view (out, i) => view.addCoin ⟨txid, BitVec.ofNat 32 i⟩
      ⟨out, fCoinBase, BitVec.ofNat 31 nHeight⟩ fCoinBase) view = .ok view') :
    Kept view.coinAt (addWrites txid fCoinBase nHeight outs) ∧
      view'.coinAt = redo view.coinAt (addWrites txid fCoinBase nHeight outs) := by
  induction outs generalizing view with
  | nil =>
    cases h
    exact ⟨trivial, rfl⟩
  | cons e outs ih =>
    obtain ⟨out, i⟩ := e
    rw [foldlM_cons] at h
    obtain ⟨view₁, hadd, hrest⟩ := bind_ok_iff.mp h
    rw [map_cons, nodup_cons] at hnodup
    have hadd := addCoin_journal hadd fun hc => hfree hc _ mem_cons_self
    rw [addWrites_cons]
    split at hadd
    · rename_i hscript
      subst hadd
      rw [if_pos hscript]
      exact ih hnodup.2 (fun hc e he => hfree hc e (mem_cons_of_mem _ he)) hrest
    · rename_i hscript
      obtain ⟨hnone, hcoins⟩ := hadd
      rw [if_neg hscript]
      have hfree₁ : fCoinBase = true → ∀ e ∈ outs,
        view₁.coinAt ⟨txid, BitVec.ofNat 32 e.2⟩ = none := by
        intro hc e he
        have hne : (⟨txid, BitVec.ofNat 32 e.2⟩ : COutPoint) ≠ ⟨txid, BitVec.ofNat 32 i⟩ := by
          intro heq
          exact hnodup.1 (heq ▸ List.mem_map.mpr ⟨e, he, rfl⟩)
        rw [hcoins, update_of_ne hne]
        exact hfree hc e (mem_cons_of_mem _ he)
      obtain ⟨hkept, hredo⟩ := ih hnodup.2 hfree₁ hrest
      rw [hcoins] at hkept hredo
      exact ⟨⟨hnone, hkept⟩, hredo⟩

theorem nodup_outpoints (txid : Uint256) {vout : List CTxOut} (hlen : vout.length ≤ 2 ^ 32) :
    (vout.zipIdx.map fun e => (⟨txid, BitVec.ofNat 32 e.2⟩ : COutPoint)).Nodup := by
  have hmap : vout.zipIdx.map (fun e => (⟨txid, BitVec.ofNat 32 e.2⟩ : COutPoint)) =
      (List.range vout.length).map fun i => ⟨txid, BitVec.ofNat 32 i⟩ := by
    rw [range_eq_range', ← zipIdx_map_snd 0 vout, List.map_map]
    rfl
  rw [hmap]
  refine Nodup.map_on (fun i hi j hj heq => ?_) nodup_range
  have hval := congrArg (fun o : COutPoint => o.n.toNat) heq
  simp only [BitVec.toNat_ofNat] at hval
  rw [mem_range] at hi hj
  omega

theorem updateCoins_journal {tx : CTransaction} (hlen : tx.vout.length ≤ 2 ^ 32)
    (hfree : tx.isCoinBase = true → ∀ o < tx.vout.length,
    view.coinAt ⟨tx.getHash H, BitVec.ofNat 32 o⟩ = none) (h :
    view.updateCoins H tx nHeight = .ok (vprevout, view')) :
    vprevout.length = (if tx.isCoinBase then 0 else tx.vin.length) ∧
      Kept view.coinAt (txWrites H nHeight tx vprevout) ∧
      view'.coinAt = redo view.coinAt (txWrites H nHeight tx vprevout) := by
  obtain ⟨spent, hspend, hadd⟩ := updateCoins_ok_iff.mp h
  rw [txWrites, kept_append, redo_append]
  split at hspend
  · rename_i hcoinbase
    obtain ⟨rfl, rfl⟩ := hspend
    have hnone : spendWrites tx.vin [] = [] := zipWith_nil_right
    rw [hnone]
    have hjournal := addCoins_journal (nodup_outpoints (tx.getHash H) hlen) (fun hc e he => ?_) hadd
    · exact ⟨by rw [if_pos hcoinbase]; rfl, ⟨trivial, hjournal.1⟩, hjournal.2⟩
    · exact hfree hc e.2 (by simpa using snd_lt_of_mem_zipIdx he)
  · rename_i hcoinbase
    obtain ⟨hvin, hkept, hredo⟩ := spendInputs_journal hspend
    have hjournal := addCoins_journal (nodup_outpoints (tx.getHash H) hlen)
      (fun hc => absurd hc hcoinbase) hadd
    rw [hredo] at hjournal
    exact ⟨by rw [if_neg hcoinbase, hvin], ⟨hkept, hjournal.1⟩, hjournal.2⟩

end CCoinsView

/-- A coin that `ApplyTxInUndo` puts back as it is. -/
structure Coin.Restorable (coin : Coin) : Prop where
  out : coin.out.Restorable
  height : coin.nHeight ≠ 0

/-- The run takes the journal back from any view, cleanly from the one that the journal leads to. -/
def TakesBack (view : CCoinsView) (ws : List (Write COutPoint Coin))
    (x : Except DisconnectFailure (Bool × CCoinsView)) :
    Prop :=
  ∃ fClean view', x = .ok (fClean, view') ∧ view'.coinAt = undo view.coinAt ws ∧
    ∀ m, Kept m ws → view.coinAt = redo m ws → fClean = true

/-- The later part of a journal is taken back first. -/
theorem TakesBack.append {f : CCoinsView → Except DisconnectFailure (Bool × CCoinsView)}
    (hx : TakesBack view ws' x) (hf : ∀ view, TakesBack view ws (f view)) :
    TakesBack view (ws ++ ws') (do
      let (fClean, view) ← x
      let (res, view) ← f view
      return (fClean && res, view)) := by
  obtain ⟨fClean, view₁, rfl, hundo, hclean⟩ := hx
  obtain ⟨res, view₂, hthis, hundo', hres⟩ := hf view₁
  refine ⟨fClean && res, view₂, ?_, ?_, fun m hkept hredo => ?_⟩
  · simp only [hthis, bind, Except.bind, pure, Except.pure]
  · rw [undo_append, hundo', hundo]
  · rw [kept_append] at hkept
    rw [redo_append] at hredo
    -- without the later part the view is the one that the earlier part leads to
    have hfirst : view₁.coinAt = redo m ws := by
      rw [hundo, hredo]
      exact undo_redo hkept.2
    rw [hclean _ hkept.2 hredo, hres m hkept.1 hfirst]
    rfl

theorem applyTxInUndo_journal {coin : Coin} (hcoin : coin.Restorable) (outpoint : COutPoint)
    (view : CCoinsView) :
    TakesBack view [⟨outpoint, some coin, none⟩] (applyTxInUndo coin view outpoint) := by
  have hspent : coin.isSpent = false := decide_eq_false hcoin.out.unspent
  have hknown : withMetadata coin view outpoint.hash = some coin := if_neg hcoin.height
  refine ⟨!view.haveCoin outpoint, _, ?_, CCoinsView.coinAt_insert outpoint coin, fun m _ hredo => ?_⟩
  · simp [applyTxInUndo, hknown, CCoinsView.addCoin, hspent, hcoin.out.script]
  · have hnone : view.coins.lookup outpoint = none := (congrFun hredo outpoint).trans (update_self ..)
    rw [CCoinsView.haveCoin, hnone]
    rfl

variable {vin : List CTxIn} {vprevout : List Coin}

theorem restoreInputs_journal (view : CCoinsView) (hlen : vprevout.length = vin.length)
    (hcoins : ∀ coin ∈ vprevout, coin.Restorable) :
    TakesBack view (spendWrites vin vprevout) (restoreInputs vin vprevout view) := by
  induction vin generalizing vprevout with
  | nil =>
    cases length_eq_zero_iff.mp hlen
    exact ⟨true, view, rfl, rfl, fun _ _ _ => rfl⟩
  | cons txin vin ih =>
    cases vprevout with
    | nil => cases hlen
    | cons coin vprevout =>
      obtain ⟨hcoin, hcoins⟩ := forall_mem_cons.mp hcoins
      exact (ih (Nat.succ.inj hlen) hcoins).append (applyTxInUndo_journal hcoin txin.prevout)

theorem removeOutput_coinAt (nHeight : Nat) (is_coinbase : Bool) (hash : Uint256)
    (r : Bool × CCoinsView) (out : CTxOut) (o : Nat) :
    (removeOutput nHeight is_coinbase hash r out o).2.coinAt =
      if isUnspendable out.scriptPubKey then r.2.coinAt
      else update r.2.coinAt ⟨hash, BitVec.ofNat 32 o⟩ none := by
  unfold removeOutput
  dsimp only
  split
  · rfl
  · split
    · rename_i hspend
      have hnone : r.2.coinAt ⟨hash, BitVec.ofNat 32 o⟩ = none := Option.map_eq_none_iff.mp hspend
      rw [← hnone, update_eq_self]
    · rename_i hspend
      obtain ⟨-, rfl⟩ := CCoinsView.spendCoin_eq hspend
      exact CCoinsView.coinAt_erase _

variable {r : Bool × CCoinsView}

theorem removeOutput_clean {hash : Uint256} (hr : r.1 = true) (hheight : nHeight < 2 ^ 31)
    (hcoin : isUnspendable out.scriptPubKey = false →
      r.2.coinAt ⟨hash, BitVec.ofNat 32 o⟩ = some ⟨out, is_coinbase, BitVec.ofNat 31 nHeight⟩) :
    (removeOutput nHeight is_coinbase hash r out o).1 = true := by
  unfold removeOutput
  dsimp only
  split
  · exact hr
  · rename_i hscript
    have hlookup : r.2.coins.lookup ⟨hash, BitVec.ofNat 32 o⟩ = some ⟨out, is_coinbase,
      BitVec.ofNat 31 nHeight⟩ :=
      hcoin (Bool.eq_false_of_not_eq_true hscript)
    simp only [CCoinsView.spendCoin, hlookup, Option.map_some, hr, BitVec.toNat_ofNat,
      Nat.mod_eq_of_lt hheight, and_self, decide_true, Bool.and_self]

theorem removeOutputs_journal (nHeight : Nat) (is_coinbase : Bool) (hash : Uint256)
    (outs : List (CTxOut × Nat)) (r : Bool × CCoinsView) (k : COutPoint) :
    (outs.foldl (fun r (out, o) => removeOutput nHeight is_coinbase hash r out o) r).2.coinAt k =
      if k ∈ (addWrites hash is_coinbase nHeight outs).map Write.key then none else r.2.coinAt k := by
  induction outs generalizing r with
  | nil => rfl
  | cons e outs ih =>
    obtain ⟨out, o⟩ := e
    rw [foldl_cons, ih, removeOutput_coinAt, addWrites_cons]
    cases isUnspendable out.scriptPubKey with
    | true => rfl
    | false =>
      simp only [Bool.false_eq_true, if_false, map_cons, mem_cons]
      by_cases hk : k = ⟨hash, BitVec.ofNat 32 o⟩
      · subst hk
        simp
      · simp only [update_of_ne hk, hk, false_or]

theorem removeOutputs_clean {hash : Uint256} (hheight : nHeight < 2 ^ 31) {outs : List (CTxOut × Nat)}
    (hr : r.1 = true) (hnodup : ((addWrites hash is_coinbase nHeight outs).map Write.key).Nodup)
    (hcoins : ∀ w ∈ addWrites hash is_coinbase nHeight outs, r.2.coinAt w.key = w.after) :
    (outs.foldl (fun r (out, o) => removeOutput nHeight is_coinbase hash r out o) r).1 = true := by
  induction outs generalizing r with
  | nil => exact hr
  | cons e outs ih =>
    obtain ⟨out, o⟩ := e
    rw [addWrites_cons] at hnodup hcoins
    rw [foldl_cons]
    cases hscript : isUnspendable out.scriptPubKey with
    | true =>
      rw [if_pos hscript] at hnodup hcoins
      refine ih (removeOutput_clean hr hheight fun h => ?_) hnodup fun w hw => ?_
      · rw [hscript] at h
        cases h
      · rw [removeOutput_coinAt, if_pos hscript]
        exact hcoins w hw
    | false =>
      rw [if_neg (by simp [hscript]), map_cons, nodup_cons] at hnodup
      rw [if_neg (by simp [hscript])] at hcoins
      refine ih (removeOutput_clean hr hheight fun _ => hcoins _ mem_cons_self) hnodup.2
        fun w hw => ?_
      have hne : w.key ≠ ⟨hash, BitVec.ofNat 32 o⟩ := by
        intro heq
        exact hnodup.1 (heq ▸ List.mem_map.mpr ⟨w, hw, rfl⟩)
      rw [removeOutput_coinAt, if_neg (by simp [hscript]), update_of_ne hne]
      exact hcoins w (mem_cons_of_mem _ hw)

def FitsUndo (tx : CTransaction) (txundo : Option (List Coin)) : Prop :=
  ∀ vprevout, txundo = some vprevout →
    vprevout.length = tx.vin.length ∧ ∀ coin ∈ vprevout, coin.Restorable

section
variable (env : BlockEnv) {pindex : BlockPtr} (view : CCoinsView)

theorem removeOutputs_takesBack (hheight : pindex.height < 2 ^ 31) (tx : CTransaction) :
    TakesBack view (addWrites (tx.getHash env.H) tx.isCoinBase pindex.height tx.vout.zipIdx)
      (.ok (removeOutputs env pindex tx view)) := by
  have hadds := adds_addWrites (tx.getHash env.H) tx.isCoinBase pindex.height tx.vout.zipIdx
  refine ⟨_, _, rfl, ?_, fun m hkept hredo => ?_⟩
  · funext k
    rw [undo_of_adds hadds]
    exact removeOutputs_journal ..
  · have hnodup := hkept.nodup hadds
    refine removeOutputs_clean hheight rfl hnodup fun w hw => ?_
    rw [hredo]
    exact redo_of_nodup hnodup hw

theorem disconnectTx_journal (hheight : pindex.height < 2 ^ 31) {tx : CTransaction}
    {txundo : Option (List Coin)} (hundo : FitsUndo tx txundo) :
    TakesBack view (txWrites env.H pindex.height tx (txundo.getD []))
    (disconnectTx env pindex tx txundo view) := by
  have hremoved := removeOutputs_takesBack env view hheight tx
  cases txundo with
  | none =>
    have hspends : spendWrites tx.vin (none.getD []) = [] := zipWith_nil_right
    rw [txWrites, hspends]
    exact hremoved
  | some vprevout =>
    obtain ⟨hlen, hcoins⟩ := hundo vprevout rfl
    simp only [disconnectTx, ne_eq, hlen, not_true_eq_false, if_false]
    exact hremoved.append fun view => restoreInputs_journal view hlen hcoins

theorem disconnectTxs_journal (hheight : pindex.height < 2 ^ 31)
    {vtx : List (CTransaction × Option (List Coin))} (hundo : ∀ e ∈ vtx, FitsUndo e.1 e.2) :
    TakesBack view (vtxWrites env.H pindex.height vtx) (disconnectTxs env pindex vtx view) := by
  induction vtx with
  | nil => exact ⟨true, view, rfl, rfl, fun _ _ _ => rfl⟩
  | cons e vtx ih =>
    obtain ⟨hfirst, hrest⟩ := forall_mem_cons.mp hundo
    exact (ih hrest).append fun view => disconnectTx_journal env view hheight hfirst

end

theorem spendWrites_eq (vin : List CTxIn) (vprevout : List Coin) :
    spendWrites vin vprevout = (vin.zip vprevout).map fun e => ⟨e.1.prevout, some e.2, none⟩ := by
  rw [map_zip_eq_zipWith]
  rfl

theorem mem_spendWrites (h : w ∈ spendWrites vin vprevout) :
    ∃ txin ∈ vin, ∃ coin ∈ vprevout, w = ⟨txin.prevout, some coin, none⟩ := by
  rw [spendWrites_eq] at h
  obtain ⟨⟨txin, coin⟩, he, rfl⟩ := List.mem_map.mp h
  exact ⟨txin, (of_mem_zip he).1, coin, (of_mem_zip he).2, rfl⟩

theorem spendWrites_covers (hlen : vprevout.length = vin.length) :
    (∀ txin ∈ vin, ∃ coin ∈ vprevout, ⟨txin.prevout, some coin, none⟩ ∈ spendWrites vin vprevout) ∧
      ∀ coin ∈ vprevout, ∃ txin ∈ vin, ⟨txin.prevout, some coin, none⟩ ∈
      spendWrites vin vprevout := by
  rw [spendWrites_eq]
  constructor
  · intro txin htxin
    rw [← map_fst_zip hlen.ge] at htxin
    obtain ⟨e, he, rfl⟩ := List.mem_map.mp htxin
    exact ⟨e.2, (of_mem_zip he).2, List.mem_map.mpr ⟨e, he, rfl⟩⟩
  · intro coin hcoin
    rw [← map_snd_zip hlen.le] at hcoin
    obtain ⟨e, he, rfl⟩ := List.mem_map.mp hcoin
    exact ⟨e.1, (of_mem_zip he).1, List.mem_map.mpr ⟨e, he, rfl⟩⟩

theorem sumInputs_coins {inputs : CCoinsView}
    (h : sumInputs inputs nSpendHeight nValueIn vin = .ok n) :
    ∀ txin ∈ vin, ∃ coin, inputs.coinAt txin.prevout = some coin ∧
    moneyRange coin.out.value = true := by
  induction vin generalizing nValueIn with
  | nil => exact forall_mem_nil _
  | cons txin vin ih =>
    obtain ⟨coin, hcoin, hvalue, -, h⟩ := sumInputs_cons h
    exact forall_mem_cons.mpr ⟨⟨coin, hcoin, hvalue⟩, ih h⟩

def RecordsInputs (tx : CTransaction) (vprevout : List Coin) : Prop :=
  vprevout.length = tx.vin.length ∧ ∀ coin ∈ vprevout, moneyRange coin.out.value = true

section
variable {env : BlockEnv} {pindex : BlockPtr}

theorem connectTx_journal {v v' : ConnectVars} {tx : CTransaction} {i : Nat} (hi : i ≠ 0)
    (hcoinbase : tx.isCoinBase = false) (hlen : tx.vout.length ≤ 2 ^ 32)
    (h : connectTx env pindex v tx i = .ok v') :
    ∃ vprevout, v'.vtxundo = v.vtxundo ++ [vprevout] ∧ RecordsInputs tx vprevout ∧
      Kept v.view.coinAt (txWrites env.H pindex.height tx vprevout) ∧
      v'.view.coinAt = redo v.view.coinAt (txWrites env.H pindex.height tx vprevout) := by
  obtain ⟨nFee, vprevout, hconnects⟩ := connectTx_ok h
  obtain ⟨vChecks, hfee⟩ := hconnects.fee
  obtain ⟨-, -, -, hinputs⟩ := checkFee_ok hcoinbase hfee
  have hnot : ¬ tx.isCoinBase = true := by simp [hcoinbase]
  obtain ⟨hvin, hkept, hredo⟩ := CCoinsView.updateCoins_journal hlen (fun hc =>
    absurd hc hnot) hconnects.update
  rw [if_neg hnot] at hvin
  have hundo := hconnects.vtxundo
  rw [if_neg hi] at hundo
  refine ⟨vprevout, hundo, ⟨hvin, fun coin hcoin => ?_⟩, hkept, hredo⟩
  obtain ⟨txin, htxin, hw⟩ := (spendWrites_covers hvin).2 coin hcoin
  -- a coin that is spent was there before the transaction
  have hbefore := (kept_append.mp hkept).1.forall_value (P := fun o c => v.view.coinAt o = some c)
    (fun _ _ hv => hv) (fun w hw _ hv => by
      obtain ⟨_, -, _, -, rfl⟩ := mem_spendWrites hw
      cases hv)
  have hspent := hbefore.1 _ hw coin rfl
  obtain ⟨nValueIn, -, hsum, -⟩ := checkTxInputs_ok hinputs
  obtain ⟨coin', hcoin', hrange⟩ := sumInputs_coins hsum txin htxin
  rw [hspent] at hcoin'
  cases hcoin'
  exact hrange

theorem connectTxs_journal {v v' : ConnectVars} {vtx : List (CTransaction × Nat)}
    (hvtx : ∀ e ∈ vtx, e.2 ≠ 0 ∧ e.1.isCoinBase = false ∧ e.1.vout.length ≤ 2 ^ 32)
    (h : vtx.foldlM (fun v (tx, i) => connectTx env pindex v tx i) v = .ok v') :
    ∃ vtxundo, v'.vtxundo = v.vtxundo ++ vtxundo ∧ vtxundo.length = vtx.length ∧
      (∀ e ∈ (vtx.map Prod.fst).zip vtxundo, RecordsInputs e.1 e.2) ∧
      Kept v.view.coinAt (vtxWrites env.H pindex.height ((vtx.map Prod.fst).zip (vtxundo.map some))) ∧
      v'.view.coinAt =
        redo v.view.coinAt (vtxWrites env.H pindex.height
        ((vtx.map Prod.fst).zip (vtxundo.map some))) := by
  induction vtx generalizing v with
  | nil =>
    cases h
    exact ⟨[], by simp, rfl, forall_mem_nil _, trivial, rfl⟩
  | cons e vtx ih =>
    obtain ⟨tx, i⟩ := e
    rw [foldlM_cons] at h
    obtain ⟨v₁, hconnect, hrest⟩ := bind_ok_iff.mp h
    obtain ⟨hi, hcoinbase, hlen⟩ := hvtx _ mem_cons_self
    obtain ⟨vprevout, hundo, hrecords, hkept, hredo⟩ := connectTx_journal hi hcoinbase hlen hconnect
    obtain ⟨vtxundo, hundo', hlen', hrecords', hkept', hredo'⟩ :=
      ih (fun e he => hvtx e (mem_cons_of_mem _ he)) hrest
    rw [hredo] at hkept' hredo'
    refine ⟨vprevout :: vtxundo, ?_, congrArg Nat.succ hlen', forall_mem_cons.mpr ⟨hrecords,
      hrecords'⟩, ?_, ?_⟩
    · rw [hundo', hundo, append_assoc]
      rfl
    · exact kept_append.mpr ⟨hkept, hkept'⟩
    · rw [hredo']
      exact redo_append.symm

end

structure Journaled (env : BlockEnv) (pindex : BlockPtr) (block : CBlock) (view : CCoinsView)
    (r : Connected) :
    Prop where
  length : r.vtxundo.length + 1 = block.vtx.length
  records : ∀ e ∈ block.vtx.tail.zip r.vtxundo, RecordsInputs e.1 e.2
  kept : Kept view.coinAt (vtxWrites env.H pindex.height (block.withUndo r.vtxundo))
  coins : r.view.coinAt = redo view.coinAt (vtxWrites env.H pindex.height (block.withUndo r.vtxundo))

def FreshCoinBase (env : BlockEnv) (block : CBlock) (view : CCoinsView) : Prop :=
  ∀ coinbase ∈ block.vtx.head?, ∀ o < coinbase.vout.length,
    view.coinAt ⟨coinbase.getHash env.H, BitVec.ofNat 32 o⟩ = none

section
variable {env : BlockEnv} {pindex : BlockPtr} {block : CBlock} {view : CCoinsView} {r : Connected}

theorem connectTransactions_journal
    (hcheck : checkBlock env.H block env.consensus fCheckPOW fCheckMerkleRoot = .ok ())
    (hfresh : FreshCoinBase env block view)
    (h : connectTransactions env pindex block pprev view false = .ok r) :
    Journaled env pindex block view r := by
  obtain ⟨coinbase, vtx, hvtx, hcoinbase, htx, hrest⟩ := checked_vtx hcheck
  obtain ⟨-, v, nValueOut, hconnect, -, -, rfl⟩ := connectTransactions_ok h
  rw [connectTxs, hvtx, zipIdx_cons, foldlM_cons] at hconnect
  obtain ⟨v₁, hfirst, hconnect⟩ := bind_ok_iff.mp hconnect
  obtain ⟨nFee, vprevout, hconnects⟩ := connectTx_ok hfirst
  obtain ⟨hnone, hkept, hredo⟩ := CCoinsView.updateCoins_journal
    (length_vin_vout_le (checkTransaction_size htx)).2
    (fun _ => hfresh coinbase (by rw [hvtx]; rfl)) hconnects.update
  rw [if_pos hcoinbase] at hnone
  cases length_eq_zero_iff.mp hnone
  have hvtx' : ∀ e ∈ vtx.zipIdx 1, e.2 ≠ 0 ∧ e.1.isCoinBase = false ∧ e.1.vout.length ≤ 2 ^ 32 := by
    intro e he
    obtain ⟨hchecked, hnot⟩ := hrest e he
    exact ⟨Nat.ne_of_gt (le_snd_of_mem_zipIdx he), hnot,
      (length_vin_vout_le (checkTransaction_size hchecked)).2⟩
  obtain ⟨vtxundo, hundo, hlen, hrecords, hkept', hredo'⟩ := connectTxs_journal hvtx' hconnect
  have hundo' : v.vtxundo = vtxundo := by
    rw [hundo, hconnects.vtxundo, if_pos rfl]
    rfl
  rw [zipIdx_map_fst] at hrecords hkept' hredo'
  rw [hredo] at hkept' hredo'
  rw [length_zipIdx] at hlen
  have hwith : block.withUndo vtxundo = (coinbase, none) :: vtx.zip (vtxundo.map some) := by
    rw [CBlock.withUndo, hvtx]
    rfl
  refine ⟨?_, ?_, ?_, ?_⟩
  · rw [hundo', hlen, hvtx]
    rfl
  · rw [hundo', hvtx]
    exact hrecords
  · rw [hundo', hwith]
    exact kept_append.mpr ⟨hkept, hkept'⟩
  · rw [hundo', hwith]
    exact hredo'.trans redo_append.symm

/-- A coin that can have been added to the UTXO set: the genesis block adds none. -/
def CCoinsView.WellFormed (view : CCoinsView) : Prop :=
  ∀ outpoint coin, view.coinAt outpoint = some coin →
    isUnspendable coin.out.scriptPubKey = false ∧ coin.nHeight ≠ 0

theorem after_vtxWrites {vtx : List (CTransaction × Option (List Coin))}
    (hw : w ∈ vtxWrites H nHeight vtx) (hcoin : w.after = some coin) :
    ∃ e ∈ vtx, ∃ o < e.1.vout.length, w.key = ⟨e.1.getHash H, BitVec.ofNat 32 o⟩ ∧
      isUnspendable coin.out.scriptPubKey = false ∧ coin.nHeight = BitVec.ofNat 31 nHeight := by
  obtain ⟨⟨tx, txundo⟩, he, hw⟩ := mem_flatMap.mp hw
  rcases mem_append.mp hw with hw | hw
  · obtain ⟨_, -, _, -, rfl⟩ := mem_spendWrites hw
    cases hcoin
  · obtain ⟨out, o, ho, hscript, rfl⟩ := mem_addWrites hw
    cases hcoin
    exact ⟨_, he, o, by simpa using snd_lt_of_mem_zipIdx ho, rfl, hscript, rfl⟩

theorem mem_withUndo {vtxundo : List (List Coin)} :
    (tx, some vprevout) ∈ block.withUndo vtxundo ↔ (tx, vprevout) ∈ block.vtx.tail.zip vtxundo := by
  rw [CBlock.withUndo]
  cases block.vtx with
  | nil => simp
  | cons coinbase vtx =>
    rw [zip_cons_cons, zip_map_right, tail_cons]
    simp

/-- What holds of the coins of the view and of those that are added holds of the coins that are
spent. -/
theorem Journaled.forall_spent {P : COutPoint → Coin → Prop} (h : Journaled env pindex block view r)
    (hview : ∀ outpoint coin, view.coinAt outpoint = some coin → P outpoint coin)
    (hadded : ∀ tx ∈ block.vtx, ∀ o < tx.vout.length, ∀ coin : Coin,
      isUnspendable coin.out.scriptPubKey = false → coin.nHeight = BitVec.ofNat 31 pindex.height →
        P ⟨tx.getHash env.H, BitVec.ofNat 32 o⟩ coin)
    (he : e ∈ block.vtx.tail.zip r.vtxundo)
    (hw : ⟨outpoint, some coin, none⟩ ∈ spendWrites e.1.vin e.2) :
    P outpoint coin := by
  refine (h.kept.forall_value hview fun w hw coin hcoin => ?_).1 _
    (mem_flatMap.mpr ⟨(e.1, some e.2), mem_withUndo.mpr he, mem_append_left _ hw⟩) coin rfl
  obtain ⟨e, he, o, ho, hkey, hscript, hheight⟩ := after_vtxWrites hw hcoin
  rw [hkey]
  exact hadded e.1 (of_mem_zip he).1 o ho coin hscript hheight

theorem ofNat_height_ne_zero (hpos : 0 < nHeight) (hheight : nHeight < 2 ^ 31) :
    BitVec.ofNat 31 nHeight ≠ 0 := by
  intro hzero
  have hval := congrArg BitVec.toNat hzero
  rw [BitVec.toNat_ofNat, Nat.mod_eq_of_lt hheight] at hval
  exact Nat.ne_of_gt hpos hval

theorem Journaled.fitsUndo (h : Journaled env pindex block view r) (hview : view.WellFormed)
    (hpos : 0 < pindex.height) (hheight : pindex.height < 2 ^ 31) :
    ∀ e ∈ block.withUndo r.vtxundo, FitsUndo e.1 e.2 := by
  rintro ⟨tx, txundo⟩ he vprevout rfl
  have hmem := mem_withUndo.mp he
  obtain ⟨hlen, hvalue⟩ := h.records _ hmem
  refine ⟨hlen, fun coin hcoin => ?_⟩
  obtain ⟨txin, -, hw⟩ := (spendWrites_covers hlen).2 coin hcoin
  obtain ⟨hscript, hne⟩ := h.forall_spent hview (fun _ _ _ _ _ hscript hcoin =>
    ⟨hscript, hcoin ▸ ofNat_height_ne_zero hpos hheight⟩) hmem hw
  exact ⟨⟨hvalue coin hcoin, hscript⟩, hne⟩

end

namespace CCoinsView

def All (view : CCoinsView) (P : COutPoint → Coin → Prop) : Prop :=
  ∀ outpoint coin, view.coinAt outpoint = some coin → P outpoint coin

variable {view view' : CCoinsView} {P : COutPoint → Coin → Prop}

theorem all_empty : CCoinsView.empty.All P := by
  intro outpoint coin hcoin
  have hnone : CCoinsView.empty.coinAt outpoint = none := Finmap.lookup_empty outpoint
  rw [hnone] at hcoin
  cases hcoin

theorem All.spendInputs (hview : view.All P) (h : view.spendInputs vin = .ok (vprevout, view')) :
    view'.All P := by
  obtain ⟨-, hkept, hredo⟩ := spendInputs_journal h
  have hafter : ∀ w ∈ spendWrites vin vprevout, ∀ coin, w.after = some coin → P w.key coin := by
    intro w hw coin hcoin
    obtain ⟨_, -, _, -, rfl⟩ := mem_spendWrites hw
    cases hcoin
  intro outpoint coin hcoin
  rw [hredo] at hcoin
  exact (hkept.forall_value hview hafter).2 outpoint coin hcoin

theorem All.addCoin (hview : view.All P) (hcoin : isUnspendable coin.out.scriptPubKey = false →
    P outpoint coin) (h : view.addCoin outpoint coin overwrite = .ok view') : view'.All P := by
  obtain ⟨-, rfl⟩ | ⟨hscript, -, rfl⟩ := addCoin_ok h
  · exact hview
  · intro o c hc
    rw [coinAt_insert] at hc
    by_cases ho : o = outpoint
    · rw [ho, update_self] at hc
      cases hc
      exact ho ▸ hcoin hscript
    · rw [update_of_ne ho] at hc
      exact hview o c hc

theorem All.updateCoins (hview : view.All P)
    (hadded : ∀ o < tx.vout.length, ∀ coin : Coin, isUnspendable coin.out.scriptPubKey = false →
      coin.nHeight = BitVec.ofNat 31 nHeight → P ⟨tx.getHash H, BitVec.ofNat 32 o⟩ coin)
    (h : view.updateCoins H tx nHeight = .ok (vprevout, view')) : view'.All P := by
  obtain ⟨spent, hspend, hadd⟩ := updateCoins_ok_iff.mp h
  have hspent : spent.All P := by
    split at hspend
    · exact hspend.2 ▸ hview
    · exact hview.spendInputs hspend
  refine foldlM_ok_induction (P := fun view : CCoinsView => view.All P) hspent
    (fun e he _ _ hview hadd => hview.addCoin (fun hscript => ?_) hadd) hadd
  exact hadded e.2 (by simpa using snd_lt_of_mem_zipIdx he) _ hscript rfl

end CCoinsView

/-- What holds of the coins of the view and of those that the block adds holds of the
coins of the view it leaves. -/
theorem connectBlock_all {env : BlockEnv} {pindex : BlockPtr} {block : CBlock} {view : CCoinsView}
    {r : Connected} {P : COutPoint → Coin → Prop} (hview : view.All P)
    (hadded : 0 < pindex.height → ∀ tx ∈ block.vtx, ∀ o < tx.vout.length, ∀ coin : Coin,
      isUnspendable coin.out.scriptPubKey = false → coin.nHeight = BitVec.ofNat 31 pindex.height →
        P ⟨tx.getHash env.H, BitVec.ofNat 32 o⟩ coin)
    (h : connectBlock env pindex block view false = .ok r) : r.view.All P := by
  by_cases hgenesis : block.header.getHash env.H = env.hashGenesisBlock
  · have hcoins := connectBlock_genesis_coins hgenesis h
    intro outpoint coin hcoin
    rw [CCoinsView.coinAt, hcoins] at hcoin
    exact hview outpoint coin hcoin
  · obtain ⟨-, -, pprev, hpprev, h⟩ := connectBlock_transactions hgenesis h
    obtain ⟨-, v, nValueOut, hconnect, -, -, rfl⟩ := connectTransactions_ok h
    refine foldlM_ok_induction (P := fun v : ConnectVars => v.view.All P) hview ?_ hconnect
    rintro ⟨tx, i⟩ he v v' hv hconnect
    obtain ⟨nFee, vprevout, hconnects⟩ := connectTx_ok hconnect
    exact hv.updateCoins (hadded (Node.height_pos hpprev) tx (fst_mem_of_mem_zipIdx he))
      hconnects.update

theorem ConnectedChain.wellFormed {env : BlockEnv} (h : ConnectedChain env n view)
    (hheight : n.height < 2 ^ 31) :
    view.WellFormed := by
  induction h with
  | genesis h =>
    refine connectBlock_all CCoinsView.all_empty (fun hpos => ?_) h
    exact absurd hpos (Nat.lt_irrefl 0)
  | @child p view block r _ h ih =>
    refine connectBlock_all (ih (Nat.lt_of_succ_lt hheight))
      (fun hpos _ _ _ _ coin hscript hcoin => ?_) h
    refine ⟨hscript, ?_⟩
    rw [hcoin]
    rw [Node.height_map] at hpos ⊢
    exact ofNat_height_ne_zero hpos hheight

/-- The height of the coin that an input of the block spends: a coin of the view, or one
that the block adds itself. -/
def spentHeight (pindex : BlockPtr) (view : CCoinsView) (txin : CTxIn) : Nat :=
  ((view.coins.lookup txin.prevout).map fun coin => coin.nHeight.toNat).getD pindex.height

section
variable {secp : Secp256k1} {env : BlockEnv} {pindex pprev : BlockPtr} {block : CBlock}
    {view : CCoinsView}
  {r : Connected}

section
variable (h : Journaled env pindex block view r)
include h

theorem Journaled.length_tail : block.vtx.tail.length = r.vtxundo.length := by
  rw [List.length_tail, ← h.length, Nat.add_sub_cancel]

theorem Journaled.exists_record (htx : tx ∈ block.vtx.tail) :
    ∃ vprevout, (tx, vprevout) ∈ block.vtx.tail.zip r.vtxundo := by
  rw [← map_fst_zip h.length_tail.le] at htx
  obtain ⟨⟨tx, vprevout⟩, he, rfl⟩ := List.mem_map.mp htx
  exact ⟨vprevout, he⟩

theorem Journaled.exists_tx (hundo : vprevout ∈ r.vtxundo) :
    ∃ tx, (tx, vprevout) ∈ block.vtx.tail.zip r.vtxundo := by
  rw [← map_snd_zip h.length_tail.ge] at hundo
  obtain ⟨⟨tx, vprevout⟩, he, rfl⟩ := List.mem_map.mp hundo
  exact ⟨tx, he⟩

end

theorem connectTransactions_bip30 (hbip30 : fEnforceBIP30 env pindex pprev fJustCheck = true)
    (h : connectTransactions env pindex block pprev view fJustCheck = .ok r) :
    ∀ tx ∈ block.vtx, ∀ o < tx.vout.length, view.coinAt ⟨tx.getHash env.H,
    BitVec.ofNat 32 o⟩ = none := by
  intro tx htx o ho
  by_contra hsome
  refine (connectTransactions_ok h).1 ⟨hbip30, List.any_eq_true.mpr ⟨tx, htx, List.any_eq_true.mpr
    ⟨o, mem_range.mpr ho, ?_⟩⟩⟩
  exact Option.isSome_iff_ne_none.mpr hsome

section
variable (h : Journaled env pindex block view r) (hheight : pindex.height < 2 ^ 31)
  (hnew : ∀ tx ∈ block.vtx, ∀ o < tx.vout.length, view.coinAt ⟨tx.getHash env.H,
  BitVec.ofNat 32 o⟩ = none)
include h hheight hnew

theorem Journaled.height_eq (he : e ∈ block.vtx.tail.zip r.vtxundo)
    (hw : ⟨txin.prevout, some coin, none⟩ ∈ spendWrites e.1.vin e.2) :
    coin.nHeight.toNat = spentHeight pindex view txin := by
  refine h.forall_spent (P := fun o coin =>
    coin.nHeight.toNat = ((view.coinAt o).map fun coin =>
      coin.nHeight.toNat).getD pindex.height) ?_ ?_ he hw
  · intro o coin hcoin
    rw [hcoin]
    rfl
  · intro tx htx o ho coin _ hcoin
    rw [hnew tx htx o ho, hcoin, BitVec.toNat_ofNat, Nat.mod_eq_of_lt hheight]
    rfl

theorem Journaled.undoable_iff :
    (∀ vprevout ∈ r.vtxundo, ∀ coin ∈ vprevout, coin.Undoable) ↔
      ∀ tx ∈ block.vtx.tail, ∀ txin ∈ tx.vin, spentHeight pindex view txin < 2 ^ 30 := by
  constructor
  · intro hcoins tx htx txin htxin
    obtain ⟨vprevout, he⟩ := h.exists_record htx
    obtain ⟨coin, hcoin, hw⟩ := (spendWrites_covers (h.records _ he).1).1 txin htxin
    rw [← h.height_eq hheight hnew he hw]
    exact hcoins vprevout (of_mem_zip he).2 coin hcoin
  · intro hheights vprevout hundo coin hcoin
    obtain ⟨tx, he⟩ := h.exists_tx hundo
    obtain ⟨txin, htxin, hw⟩ := (spendWrites_covers (h.records _ he).1).2 coin hcoin
    rw [Coin.Undoable, h.height_eq hheight hnew he hw]
    exact hheights tx (of_mem_zip he).1 txin htxin

end

theorem Journaled.disconnect (h : Journaled env pindex block view r) (hview : view.WellFormed)
    (hpos : 0 < pindex.height) (hheight : pindex.height < 2 ^ 31)
    (hprev : prevHash env pindex = view.hashBlock) :
    disconnectTransactions env pindex block r.vtxundo r.view = .ok (true, view) := by
  obtain ⟨fClean, view', hdisconnect, hcoins, hclean⟩ :=
    disconnectTxs_journal env r.view hheight (h.fitsUndo hview hpos hheight)
  have hback : view'.setBestBlock (prevHash env pindex) = view := by
    refine CCoinsView.ext_coinAt ?_ hprev
    rw [h.coins] at hcoins
    exact hcoins.trans (undo_redo h.kept)
  simp only [disconnectTransactions, h.length, ne_eq, not_true_eq_false, if_false, hdisconnect,
    hclean _ h.kept h.coins, bind, Except.bind, pure, Except.pure, hback]

theorem checkBlockLength_vtx (h : checkBlockLength block = .ok ()) : block.vtx.length ≤ MAX_SIZE := by
  rw [checkBlockLength, ite_error_eq_ok] at h
  have hvtx : ¬ block.vtx.length * WITNESS_SCALE_FACTOR > MAX_BLOCK_WEIGHT :=
    fun hv => h.1 (.inr (.inl hv))
  simp only [WITNESS_SCALE_FACTOR, MAX_BLOCK_WEIGHT, MAX_SIZE] at hvtx ⊢
  omega

/-- A connected block is disconnected to exactly the view it was connected to, through
its record on disk, if and only if the coins it spends are below height `2 ^ 30`. -/
theorem disconnectBlock_connectBlock_iff (hsecp : secp.Lawful) (hpprev : pindex.pprev = some pprev)
    (hheight : pindex.height < 2 ^ 31) (hgenesis : block.header.getHash env.H ≠ env.hashGenesisBlock)
    (hbip30 : fEnforceBIP30 env pindex pprev false = true) (hview : view.WellFormed)
    (hconnect : connectBlock env pindex block view false = .ok r) :
    (∃ bs, undoWriteToDisk secp env.H r.vtxundo (prevHash env pindex) = some bs ∧
      disconnectBlock secp env pindex block (some bs) r.view = .ok (true, view)) ↔
      ∀ tx ∈ block.vtx.tail, ∀ txin ∈ tx.vin, spentHeight pindex view txin < 2 ^ 30 := by
  obtain ⟨hcheck, hprev, pprev', hpprev', htransactions⟩ :=
    connectBlock_transactions hgenesis hconnect
  cases hpprev.symm.trans hpprev'
  have hnew := connectTransactions_bip30 hbip30 htransactions
  have hjournal := connectTransactions_journal hcheck
    (fun coinbase hcoinbase => hnew coinbase (mem_of_mem_head? hcoinbase)) htransactions
  have hpos : 0 < pindex.height := Node.height_pos hpprev
  rw [← hjournal.undoable_iff hheight hnew, ← undoWriteToDisk_isSome secp env.H _
    (prevHash env pindex), Option.isSome_iff_exists]
  refine exists_congr fun bs => ⟨And.left, fun hwrite => ⟨hwrite, ?_⟩⟩
  obtain ⟨hlength, -, hvtx⟩ := checkBlock_transactions env.H block hcheck
  have hfits := hjournal.fitsUndo hview hpos hheight
  have hrecord : ∀ vprevout ∈ r.vtxundo, ∃ tx ∈ block.vtx, vprevout.length = tx.vin.length ∧
      ∀ coin ∈ vprevout, coin.Restorable := by
    intro vprevout hundo
    obtain ⟨tx, he⟩ := hjournal.exists_tx hundo
    obtain ⟨hlen, hcoins⟩ := hfits _ (mem_withUndo.mpr he) vprevout rfl
    exact ⟨tx, mem_of_mem_tail (of_mem_zip he).1, hlen, hcoins⟩
  have hread : undoReadFromDisk secp env.H bs (prevHash env pindex) = some r.vtxundo := by
    refine undoReadFromDisk_write hsecp env.H _ ?_ ?_ ?_ hwrite
    · have hmax := checkBlockLength_vtx hlength
      rw [← hjournal.length] at hmax
      exact Nat.le_of_succ_le hmax
    · intro vprevout hundo
      obtain ⟨tx, htx, hlen, -⟩ := hrecord vprevout hundo
      rw [hlen]
      exact (length_vin_vout_le (checkTransaction_size (hvtx tx htx))).1
    · intro vprevout hundo coin hcoin
      obtain ⟨-, -, -, hcoins⟩ := hrecord vprevout hundo
      exact (hcoins coin hcoin).out
  simp only [disconnectBlock, Option.bind_some, hread]
  exact hjournal.disconnect hview hpos hheight hprev

end

/-- A network on which BIP30 stays enforced, as on the main one. -/
def longEnv : BlockEnv :=
  { sampleNet.toBlockEnv with
    BIP34Hash := 0x000000000000024b89b42a942fe0d9fea3bb44ab7bd1b19115dd6a759c0808b8 }

def longHeader (n : Nat) : CBlockHeader :=
  { sampleNet.genesis.header with nNonce := BitVec.ofNat 32 (16 + n) }

def longChain : Nat → BlockPtr
  | 0 => .root (longHeader 0)
  | n + 1 => .child (longChain n) (longHeader (n + 1))

def spentOutpoint : COutPoint := ⟨1, 0⟩

/-- The coins of a block at height `n`. -/
def spentView (n : Nat) : CCoinsView where
  coins := (∅ : Finmap fun _ : COutPoint => Coin).insert spentOutpoint ⟨⟨1, [OP_1]⟩, false,
    BitVec.ofNat 31 n⟩
  hashBlock := (longHeader n).getHash sampleHash

def spendingTx : CTransaction where
  nVersion := 1
  contract := .null
  vin := [⟨spentOutpoint, [], SEQUENCE_FINAL, []⟩]
  vout := [⟨1, [OP_1]⟩]
  nLockTime := 0

def spendingBlock (n : Nat) : CBlock where
  header := { (minedBlock bareCoinbase).header with
    hashPrevBlock := (longHeader n).getHash sampleHash
    hashMerkleRoot :=
      (computeMerkleRoot sampleHash [bareCoinbase.getHash sampleHash,
        spendingTx.getHash sampleHash]).1 }
  vtx := [bareCoinbase, spendingTx]

def spendingIndex (n : Nat) : BlockPtr := .child (longChain n) (spendingBlock n).header

theorem longChain_height (n : Nat) : (longChain n).height = n := by
  induction n with
  | zero => rfl
  | succ n ih => exact congrArg Nat.succ ih

theorem longChain_value (n : Nat) : (longChain n).value = longHeader n := by
  cases n <;> rfl

theorem longChain_first (n : Nat) : (longChain n).ancestorAt 0 = some (longChain 0) := by
  induction n with
  | zero => rfl
  | succ n ih =>
    have hlt : 0 < (longChain n).branch.length := (List.getElem?_eq_some_iff.mp ih).1
    exact (getElem?_append_left hlt).trans ih

/-- The coins behind the coinbase of the block above height `n`. -/
def coinbaseView (n : Nat) : CCoinsView :=
  { spentView n with
    coins := (spentView n).coins.insert ⟨bareCoinbase.getHash sampleHash, 0⟩
      ⟨⟨0, []⟩, true, BitVec.ofNat 31 (n + 1)⟩ }

section
variable {pindex : BlockPtr} {n : Nat} (hn : n = 2 ^ 30) (hheight : pindex.height = n + 1)
  (hvalue : pindex.value = (spendingBlock n).header)
include hn hheight hvalue

theorem spendingTx_connects {v : ConnectVars} (hview : v.view = coinbaseView n)
    (hcost : v.nSigOpsCost = 0) :
    ∃ v', connectTx longEnv pindex v spendingTx 1 = .ok v' ∧ v'.nFees = v.nFees ∧
    v'.vChecks = v.vChecks := by
  have hinactive : ∀ p d, longEnv.isActive p d = false := fun _ _ => rfl
  have hcoinbase : spendingTx.isCoinBase = false := rfl
  obtain ⟨flags, hflags, hsigops, hscripts⟩ : ∃ flags, getBlockScriptFlags longEnv pindex = flags ∧
      getTransactionSigOpCost spendingTx (coinbaseView n) flags = .ok 0 ∧
      checkScripts longEnv spendingTx (coinbaseView n) flags 0 spendingTx.vin = .ok [] := by
    subst hn
    refine ⟨0x205, ?_, by decide +kernel, ?_⟩
    · simp only [getBlockScriptFlags, hheight, hvalue, hinactive]
      decide +kernel
    · have hcoin : (coinbaseView (2 ^ 30)).unspentCoin spentOutpoint =
          .ok ⟨⟨1, [OP_1]⟩, false, BitVec.ofNat 31 (2 ^ 30)⟩ := by decide +kernel
      have hthreads : longEnv.nScriptCheckThreads = 0 := rfl
      have hrun : ∀ check : CScriptCheck, check.run longEnv = none := fun _ => rfl
      simp only [spendingTx, checkScripts, hcoin, hthreads, hrun, bind, Except.bind, ne_eq,
        not_true_eq_false, if_false]
  have hspends : checkSpends longEnv pindex (coinbaseView n) spendingTx = .ok () := by
    have hinputs : (coinbaseView n).haveInputs spendingTx = true := by
      subst hn
      decide +kernel
    have hlocks : ∀ flags prevHeights, sequenceLocks spendingTx flags prevHeights pindex = true :=
      fun _ _ => evaluateSequenceLocks_none pindex
    simp [checkSpends, hcoinbase, hinputs, hlocks]
  have hfee : checkFee longEnv pindex (coinbaseView n) spendingTx = .ok (0, []) := by
    have hvalueOut : getValueOut spendingTx = .ok 1 := rfl
    obtain ⟨hvalueIn, hinputs⟩ : (coinbaseView n).getValueIn spendingTx = 1 ∧
        checkTxInputs spendingTx (coinbaseView n) ((n + 1 : Nat) : Int) = .ok () := by
      subst hn
      exact ⟨by decide +kernel, by decide +kernel⟩
    have hchecks : longEnv.fScriptChecks pindex = true := rfl
    simp only [checkFee, CCoinsView.checkInputs, hcoinbase, hvalueOut, hvalueIn, hheight, hchecks,
      hflags, hinputs, hscripts, bind, Except.bind, pure, Except.pure, Bool.false_eq_true, if_false,
      if_true, sub_self]
  have hupdates : ((coinbaseView n).updateCoins longEnv.H spendingTx (n + 1)).isOk := by
    subst hn
    decide +kernel
  cases hupdate : (coinbaseView n).updateCoins longEnv.H spendingTx (n + 1) with
  | error _ =>
    rw [hupdate] at hupdates
    cases hupdates
  | ok r =>
    have hlow : ¬ 0 + 0 > MAX_BLOCK_SIGOPS_COST := by decide
    simp only [connectTx, hview, hspends, hflags, hsigops, hcost, hfee, hheight, hupdate, bind,
      Except.bind, pure, Except.pure, if_neg hlow]
    exact ⟨_, rfl, Int.add_zero _, append_nil _⟩

theorem spendingBlock_connects (hpprev : pindex.pprev = some pprev)
    (hpvalue : pprev.value = longHeader n) :
    ∃ r, connectBlock longEnv pindex (spendingBlock n) (spentView n) false = .ok r := by
  obtain ⟨hcheck, hgenesis, hoverwrites⟩ :
      checkBlock longEnv.H (spendingBlock n) longEnv.consensus true true = .ok () ∧
        (spendingBlock n).header.getHash longEnv.H ≠ longEnv.hashGenesisBlock ∧
        overwrites longEnv (spendingBlock n) (spentView n) = false := by
    subst hn
    exact ⟨by decide +kernel, by decide +kernel, by decide +kernel⟩
  have hprev : prevHash longEnv pindex = (spentView n).hashBlock := by
    rw [prevHash, hpprev, Option.map_some, hpvalue]
    rfl
  have hadd : (spentView n).addCoins longEnv.H bareCoinbase pindex.height = .ok (coinbaseView n) := by
    rw [hheight]
    rfl
  have hcost : 0 + getLegacySigOpCount bareCoinbase * WITNESS_SCALE_FACTOR = 0 := by decide
  have hlow : 0 + getLegacySigOpCount bareCoinbase * WITNESS_SCALE_FACTOR ≤
    MAX_BLOCK_SIGOPS_COST := by decide
  obtain ⟨v₁, hcoinbase, hview, hcost, hfees, hchecks⟩ : ∃ v₁,
      connectTx longEnv pindex ⟨spentView n, 0, 0, [], [], [],
      (writeCompactSize (spendingBlock n).vtx.length).length⟩
        bareCoinbase 0 = .ok v₁ ∧ v₁.view = coinbaseView n ∧ v₁.nSigOpsCost = 0 ∧ v₁.nFees = 0 ∧
        v₁.vChecks = [] :=
    ⟨_, connectTx_coinBase longEnv pindex _ 0 (by decide) hlow hadd, rfl, hcost, rfl, rfl⟩
  obtain ⟨v₂, hspending, hfees₂, hchecks₂⟩ := spendingTx_connects hn hheight hvalue hview hcost
  have hsubsidy := getBlockSubsidy_nonneg longEnv.nSubsidyHalvingInterval pindex.height
  have hvalueOut : getValueOut bareCoinbase = .ok 0 := rfl
  have hzip : (spendingBlock n).vtx.zipIdx = [(bareCoinbase, 0), (spendingTx, 1)] := rfl
  have hhead : (spendingBlock n).vtx.head? = some bareCoinbase := rfl
  simp only [connectBlock_ok_iff longEnv hvalue, hcheck, hprev, if_neg hgenesis, hpprev,
    Option.some.injEq, exists_eq_left', true_and]
  rw [connectTransactions, if_neg (by simp [hoverwrites])]
  simp only [connectTxs, hzip, foldlM_cons, foldlM_nil, hcoinbase, bind, Except.bind,
    hspending, hhead, Option.map_some, Option.getD_some, hvalueOut, pure, Except.pure, hfees₂, hfees,
    hchecks₂, hchecks, zero_add, if_neg (Int.not_lt.mpr hsubsidy), any_nil,
    Bool.false_eq_true, if_false]
  exact ⟨_, rfl⟩

end

theorem spentView_wellFormed (hpos : 0 < n) (hn : n < 2 ^ 31) : (spentView n).WellFormed := by
  have hempty : (CCoinsView.empty.setBestBlock ((longHeader n).getHash sampleHash)).WellFormed :=
    CCoinsView.all_empty
  have hadd : (CCoinsView.empty.setBestBlock ((longHeader n).getHash sampleHash)).addCoin
    spentOutpoint
      ⟨⟨1, [OP_1]⟩, false, BitVec.ofNat 31 n⟩ true = .ok (spentView n) := rfl
  exact CCoinsView.All.addCoin hempty (fun hscript => ⟨hscript, ofNat_height_ne_zero hpos hn⟩) hadd

theorem spendingIndex_bip30 (hlow : n ≠ 91841) (hhigh : n ≠ 91879) :
    fEnforceBIP30 longEnv (spendingIndex n) (longChain n) false = true := by
  have hhash : (longHeader 0).getHash longEnv.H ≠ longEnv.BIP34Hash := by decide +kernel
  have hheight : (spendingIndex n).height = n + 1 := congrArg Nat.succ (longChain_height n)
  have hfirst : ((longChain n).ancestorAt longEnv.consensus.BIP34Height.toNat).all
      (fun p => p.value.getHash longEnv.H ≠ longEnv.BIP34Hash) = true := by
    have hzero : longEnv.consensus.BIP34Height.toNat = 0 := rfl
    rw [hzero, longChain_first, Option.all_some]
    exact decide_eq_true hhash
  have hbip34 : ¬ longEnv.consensus.BIP34Height < 0 := by decide
  have hfirst' : n + 1 ≠ 91842 ∧ n + 1 ≠ 91880 := by omega
  simp only [fEnforceBIP30, hheight, hfirst'.1, hfirst'.2, if_neg hbip34, hfirst, false_and,
    or_self, decide_false, Bool.not_false, Bool.or_true, Bool.and_self]

theorem spentHeight_spentView (n : Nat) (hn : n < 2 ^ 31) (txin : CTxIn)
    (htxin : txin.prevout = spentOutpoint) :
    spentHeight (spendingIndex n) (spentView n) txin = n := by
  have hcoin : (spentView n).coins.lookup spentOutpoint = some ⟨⟨1, [OP_1]⟩, false,
    BitVec.ofNat 31 n⟩ :=
    Finmap.lookup_insert _
  rw [spentHeight, htxin, hcoin, Option.map_some, Option.getD_some, BitVec.toNat_ofNat,
    Nat.mod_eq_of_lt hn]

/-- The record of a block that spends a coin of height `2 ^ 30` cannot be written. -/
theorem disconnectBlock_overflow : ∃ (pindex pprev : BlockPtr) (r : Connected),
    pindex.pprev = some pprev ∧ pindex.height = 2 ^ 30 + 1 ∧
      (spendingBlock (2 ^ 30)).header.getHash longEnv.H ≠ longEnv.hashGenesisBlock ∧
      fEnforceBIP30 longEnv pindex pprev false = true ∧ (spentView (2 ^ 30)).WellFormed ∧
      connectBlock longEnv pindex (spendingBlock (2 ^ 30)) (spentView (2 ^ 30)) false = .ok r ∧
      ∀ secp, ¬ ∃ bs, undoWriteToDisk secp longEnv.H r.vtxundo (prevHash longEnv pindex) = some bs ∧
        disconnectBlock secp longEnv pindex (spendingBlock (2 ^ 30)) (some bs) r.view =
          .ok (true, spentView (2 ^ 30)) := by
  obtain ⟨n, hn⟩ : ∃ n : Nat, n = 2 ^ 30 := ⟨_, rfl⟩
  rw [← hn]
  have hheight : (spendingIndex n).height = n + 1 := congrArg Nat.succ (longChain_height n)
  have hgenesis : (spendingBlock n).header.getHash longEnv.H ≠ longEnv.hashGenesisBlock := by
    subst hn
    decide +kernel
  have hbip30 : fEnforceBIP30 longEnv (spendingIndex n) (longChain n) false = true :=
    spendingIndex_bip30 (by omega) (by omega)
  obtain ⟨r, hconnect⟩ := spendingBlock_connects hn hheight rfl rfl (longChain_value n)
  refine ⟨spendingIndex n, longChain n, r, rfl, hheight, hgenesis, hbip30,
    spentView_wellFormed (by omega) (by omega), hconnect, ?_⟩
  rintro secp ⟨bs, hwrite, -⟩
  obtain ⟨hcheck, -, pprev, hpprev, htransactions⟩ := connectBlock_transactions hgenesis hconnect
  cases hpprev
  have hnew := connectTransactions_bip30 hbip30 htransactions
  have hjournal := connectTransactions_journal hcheck
    (fun coinbase hcoinbase => hnew coinbase (mem_of_mem_head? hcoinbase)) htransactions
  have hcoins := (undoWriteToDisk_isSome secp longEnv.H _ _).mp
    (Option.isSome_iff_exists.mpr ⟨bs, hwrite⟩)
  have hlow := (hjournal.undoable_iff (by omega) hnew).mp hcoins spendingTx mem_cons_self
    _ mem_cons_self
  rw [spentHeight_spentView n (by omega) _ rfl] at hlow
  omega

theorem disconnectBlock_connectBlock_low : ∃ r,
    connectBlock longEnv (spendingIndex 1) (spendingBlock 1) (spentView 1) false = .ok r ∧
      ((∃ bs, undoWriteToDisk noKeys longEnv.H r.vtxundo (prevHash longEnv (spendingIndex 1)) =
      some bs ∧
        disconnectBlock noKeys longEnv (spendingIndex 1) (spendingBlock 1) (some bs) r.view =
          .ok (true, spentView 1)) ↔
        ∀ tx ∈ (spendingBlock 1).vtx.tail, ∀ txin ∈ tx.vin,
          spentHeight (spendingIndex 1) (spentView 1) txin < 2 ^ 30) := by
  have hok : (connectBlock longEnv (spendingIndex 1) (spendingBlock 1) (spentView 1) false).isOk := by
    decide +kernel
  have hgenesis : (spendingBlock 1).header.getHash longEnv.H ≠ longEnv.hashGenesisBlock := by
    decide +kernel
  cases hconnect : connectBlock longEnv (spendingIndex 1) (spendingBlock 1) (spentView 1) false with
  | error e =>
    rw [hconnect] at hok
    cases hok
  | ok r =>
    exact ⟨r, rfl, disconnectBlock_connectBlock_iff (fun _ _ _ _ _ hvalid =>
      nomatch hvalid) rfl (by decide) hgenesis (spendingIndex_bip30 (by decide) (by decide))
        (spentView_wellFormed (by decide) (by decide)) hconnect⟩

end OurChain
