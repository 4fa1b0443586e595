import OurChain.Validation.CheckBlock

/-!
# Connecting a block

`ConnectBlock` on the coins of the parent block: the rules that need the coins, the
spending of the inputs and the adding of the outputs, transaction by transaction, and
the limit of the coinbase. What it hands on is the new view, the undo record and the
positions for the transaction index. The cache of executed scripts is left out, it
only spares repeating checks that have passed.
-/

namespace OurChain

def getBlockSubsidy (nSubsidyHalvingInterval : Int) (nHeight : Nat) : Int :=
  let halvings := (nHeight : Int).tdiv nSubsidyHalvingInterval
  if halvings ≥ 64 then 0 else (50 * COIN) >>> halvings.toNat

theorem getBlockSubsidy_nonneg (interval : Int) (nHeight : Nat) :
    0 ≤ getBlockSubsidy interval nHeight := by
  unfold getBlockSubsidy
  dsimp only
  split
  · exact Int.le_refl 0
  · rw [Int.shiftRight_eq_div_pow]
    exact Int.ediv_nonneg (by decide) (by positivity)

def REJECT_NONSTANDARD : BitVec 8 := 0x40

/-- The standard flags without `SCRIPT_VERIFY_P2SH`, the mandatory one. -/
def STANDARD_NOT_MANDATORY_VERIFY_FLAGS : BitVec 32 := 0xffde

def nBIP16SwitchTime : Int := 1333238400

section
variable (env : BlockEnv)

def getBlockScriptFlags (pindex : BlockPtr) : BitVec 32 :=
  let flag (set : Bool) (bits : BitVec 32) : BitVec 32 := if set then bits else 0
  flag (nBIP16SwitchTime ≤ getBlockTime pindex.value) SCRIPT_VERIFY_P2SH |||
    flag (env.consensus.BIP66Height ≤ pindex.height) SCRIPT_VERIFY_DERSIG |||
    flag (env.consensus.BIP65Height ≤ pindex.height) SCRIPT_VERIFY_CHECKLOCKTIMEVERIFY |||
    flag (env.isActive pindex.pprev .csv) SCRIPT_VERIFY_CHECKSEQUENCEVERIFY |||
    flag (env.isActive pindex.pprev .segWit) (SCRIPT_VERIFY_WITNESS ||| SCRIPT_VERIFY_NULLDUMMY)

structure CScriptCheck where
  txTo : CTransaction
  nIn : Nat
  out : CTxOut
  nFlags : BitVec 32

def CScriptCheck.run (check : CScriptCheck) : Option String :=
  env.verifyScript check.txTo check.nIn check.out check.nFlags

/-- The script checks of the inputs from the `i`th on: with worker threads they are
handed on, otherwise they are run here. -/
def checkScripts (tx : CTransaction) (inputs : CCoinsView) (flags : BitVec 32) :
    Nat → List CTxIn → Except CheckFailure (List CScriptCheck)
  | _, [] => .ok []
  | i, txin :: vin => do
    let coin ← inputs.unspentCoin txin.prevout
    let check : CScriptCheck := ⟨tx, i, coin.out, flags⟩
    if env.nScriptCheckThreads ≠ 0 then
      let checks ← checkScripts tx inputs flags (i + 1) vin
      return check :: checks
    else match check.run env with
      | none => checkScripts tx inputs flags (i + 1) vin
      | some error =>
        let mandatory := { check with nFlags := flags &&& ~~~STANDARD_NOT_MANDATORY_VERIFY_FLAGS }
        if flags &&& STANDARD_NOT_MANDATORY_VERIFY_FLAGS ≠ 0 ∧ mandatory.run env = none then
          .error (.invalid ⟨0, REJECT_NONSTANDARD,
            "non-mandatory-script-verify-flag (" ++ error ++ ")", false, ""⟩)
        else .error (.invalid (.dos 100 ("mandatory-script-verify-flag-failed (" ++ error ++ ")")))

/-- `CheckInputs` of `validation.cpp`, with the checks that are left to the queue. -/
def CCoinsView.checkInputs (tx : CTransaction) (inputs : CCoinsView) (nSpendHeight : Int)
    (fScriptChecks : Bool) (flags : BitVec 32) : Except CheckFailure (List CScriptCheck) :=
  if tx.isCoinBase then .ok []
  else do
    checkTxInputs tx inputs nSpendHeight
    if fScriptChecks then checkScripts env tx inputs flags 0 tx.vin else .ok []

end

structure ConnectVars where
  view : CCoinsView
  nFees : Int
  nSigOpsCost : Nat
  vtxundo : List (List Coin)
  vChecks : List CScriptCheck
  vPos : List (Uint256 × Nat)
  nTxOffset : Nat

section
variable (env : BlockEnv) (pindex : BlockPtr)

def checkSpends (view : CCoinsView) (tx : CTransaction) : Except CheckFailure Unit :=
  if tx.isCoinBase then .ok ()
  else if !view.haveInputs tx then .error (.invalid (.dos 100 "bad-txns-inputs-missingorspent"))
  else
    let nLockTimeFlags := if env.isActive pindex.pprev .csv then LOCKTIME_VERIFY_SEQUENCE else 0
    let prevheights := tx.vin.map fun txin =>
      ((view.coins.lookup txin.prevout).map fun coin => coin.nHeight.toNat).getD 0
    if !sequenceLocks tx nLockTimeFlags prevheights pindex then
      .error (.invalid (.dos 100 "bad-txns-nonfinal"))
    else .ok ()

def checkFee (view : CCoinsView) (tx : CTransaction) :
    Except CheckFailure (Int × List CScriptCheck) :=
  if tx.isCoinBase then .ok (0, [])
  else do
    let nValueOut ← getValueOut tx
    let nFee := view.getValueIn tx - nValueOut
    let vChecks ← view.checkInputs env tx pindex.height (env.fScriptChecks pindex)
      (getBlockScriptFlags env pindex)
    return (nFee, vChecks)

def connectTx (v : ConnectVars) (tx : CTransaction) (i : Nat) : Except CheckFailure ConnectVars := do
  checkSpends env pindex v.view tx
  let nSigOpsCost ← getTransactionSigOpCost tx v.view (getBlockScriptFlags env pindex)
  if v.nSigOpsCost + nSigOpsCost > MAX_BLOCK_SIGOPS_COST then
    .error (.invalid (.dos 100 "bad-blk-sigops"))
  else
    let (nFee, vChecks) ← checkFee env pindex v.view tx
    let (vprevout, view) ← v.view.updateCoins env.H tx pindex.height
    return {
      view
      nFees := v.nFees + nFee
      nSigOpsCost := v.nSigOpsCost + nSigOpsCost
      -- the coinbase has no undo record
      vtxundo := if i = 0 then v.vtxundo else v.vtxundo ++ [vprevout]
      vChecks := v.vChecks ++ vChecks
      vPos := v.vPos ++ [(tx.getHash env.H, v.nTxOffset)]
      nTxOffset := v.nTxOffset + (serializeTransaction true tx).length }

def connectTxs (v : ConnectVars) (vtx : List CTransaction) : Except CheckFailure ConnectVars :=
  vtx.zipIdx.foldlM (fun v (tx, i) => connectTx env pindex v tx i) v

/-- The two blocks that violate the rule, and chains above the known activation of
BIP34, are spared. A block that is only tested has no hash. -/
def fEnforceBIP30 (pprev : BlockPtr) (fJustCheck : Bool) : Bool :=
  let hash := pindex.value.getHash env.H
  let spared := pindex.height = 91842 ∧
      hash = 0x00000000000a4d0a398161ffc163c503763b1f4360639393e0e4c8e300e0caec#256 ∨
    pindex.height = 91880 ∧
      hash = 0x00000000000743f190a18c5577a3c2d2a1f610ae9601ac046a38084ccb7cd721#256
  let pindexBIP34height :=
    if env.consensus.BIP34Height < 0 then none else pprev.ancestorAt env.consensus.BIP34Height.toNat
  (fJustCheck || !decide spared) &&
    pindexBIP34height.all fun p => p.value.getHash env.H ≠ env.BIP34Hash

def overwrites (block : CBlock) (view : CCoinsView) : Bool :=
  block.vtx.any fun tx => (List.range tx.vout.length).any fun o =>
    view.haveCoin ⟨tx.getHash env.H, BitVec.ofNat 32 o⟩

/-- What a connected block leaves: the view, the undo record, and the offset of each
transaction behind the header for the transaction index. -/
structure Connected where
  view : CCoinsView
  vtxundo : List (List Coin)
  vPos : List (Uint256 × Nat)

def connectTransactions (block : CBlock) (pprev : BlockPtr) (view : CCoinsView) (fJustCheck : Bool) :
    Except CheckFailure Connected :=
  if fEnforceBIP30 env pindex pprev fJustCheck ∧ overwrites env block view then
    .error (.invalid (.dos 100 "bad-txns-BIP30"))
  else do
    let v ← connectTxs env pindex
      ⟨view, 0, 0, [], [], [], (writeCompactSize block.vtx.length).length⟩ block.vtx
    let blockReward := v.nFees + getBlockSubsidy env.nSubsidyHalvingInterval pindex.height
    let nValueOut ← (block.vtx.head?.map getValueOut).getD (.error .assertion)
    if nValueOut > blockReward then .error (.invalid (.dos 100 "bad-cb-amount"))
    -- `control.Wait()`
    else if v.vChecks.any fun check => (check.run env).isSome then
      .error (.invalid (.dos 100 "block-validation-failed"))
    else
      let view := if fJustCheck then v.view else v.view.setBestBlock (pindex.value.getHash env.H)
      return ⟨view, v.vtxundo, v.vPos⟩

def prevHash : Uint256 := (pindex.pprev.map fun pprev => pprev.value.getHash env.H).getD 0

def connectBlock (block : CBlock) (view : CCoinsView) (fJustCheck : Bool) :
    Except CheckFailure Connected :=
  if !fJustCheck ∧ pindex.value.getHash env.H ≠ block.header.getHash env.H then .error .assertion
  else do
    CheckFailure.lift (checkBlock env.H block env.consensus (!fJustCheck) (!fJustCheck))
    if prevHash env pindex ≠ view.hashBlock then .error .assertion
    else if block.header.getHash env.H = env.hashGenesisBlock then
      return ⟨if fJustCheck then view else view.setBestBlock (pindex.value.getHash env.H), [], []⟩
    else match pindex.pprev with
      | some pprev => connectTransactions env pindex block pprev view fJustCheck
      -- only the genesis block has no parent
      | none => .error .assertion

end

/-- The coins of a chain whose blocks were connected one after the other. -/
inductive ConnectedChain (env : BlockEnv) : Node CBlock → CCoinsView → Prop
  | genesis (h : connectBlock env (.root block.header) block .empty false = .ok r) :
      ConnectedChain env (.root block) r.view
  | child (hparent : ConnectedChain env p view)
      (h : connectBlock env ((Node.child p block).map CBlock.header) block view false = .ok r) :
      ConnectedChain env (.child p block) r.view

variable {pindex : BlockPtr}

theorem checkFee_ok {env : BlockEnv} (hcoinbase : tx.isCoinBase = false)
    (h : checkFee env pindex view tx = .ok (nFee, vChecks)) :
    ∃ nValueOut, getValueOut tx = .ok nValueOut ∧ nFee = view.getValueIn tx - nValueOut ∧
      checkTxInputs tx view pindex.height = .ok () := by
  simp only [checkFee, CCoinsView.checkInputs, hcoinbase, Bool.false_eq_true, if_false] at h
  obtain ⟨nValueOut, hout, h⟩ := bind_ok_iff.mp h
  obtain ⟨checks, hchecks, h⟩ := bind_ok_iff.mp h
  cases h
  obtain ⟨⟨⟩, hinputs, -⟩ := bind_ok_iff.mp hchecks
  exact ⟨nValueOut, hout, rfl, hinputs⟩

structure ConnectsTx (env : BlockEnv) (pindex : BlockPtr) (v : ConnectVars)
    (tx : CTransaction) (i : Nat) (v' : ConnectVars) (nFee : Int) (vprevout : List Coin) : Prop where
  spends : checkSpends env pindex v.view tx = .ok ()
  fee : ∃ vChecks, checkFee env pindex v.view tx = .ok (nFee, vChecks)
  update : v.view.updateCoins env.H tx pindex.height = .ok (vprevout, v'.view)
  nFees : v'.nFees = v.nFees + nFee
  vtxundo : v'.vtxundo = if i = 0 then v.vtxundo else v.vtxundo ++ [vprevout]

theorem connectTx_ok {env : BlockEnv} {v v' : ConnectVars}
    (h : connectTx env pindex v tx i = .ok v') :
    ∃ nFee vprevout, ConnectsTx env pindex v tx i v' nFee vprevout := by
  obtain ⟨⟨⟩, hspends, h⟩ := bind_ok_iff.mp h
  obtain ⟨nSigOpsCost, hcost, h⟩ := bind_ok_iff.mp h
  obtain ⟨⟨nFee, vChecks⟩, hfee, h⟩ := bind_ok_iff.mp (ite_error_eq_ok.mp h).2
  obtain ⟨⟨vprevout, view⟩, hupdate, h⟩ := bind_ok_iff.mp h
  cases h
  exact ⟨nFee, vprevout, hspends, ⟨vChecks, hfee⟩, hupdate, rfl, rfl⟩

theorem connectTx_coinBase (env : BlockEnv) (pindex : BlockPtr) (v : ConnectVars) {tx : CTransaction}
    (i : Nat) (hcoinbase : tx.isCoinBase = true)
    (hcost : v.nSigOpsCost + getLegacySigOpCount tx * WITNESS_SCALE_FACTOR ≤ MAX_BLOCK_SIGOPS_COST)
    (hadd : v.view.addCoins env.H tx pindex.height = .ok view) :
    connectTx env pindex v tx i = .ok {
      view
      nFees := v.nFees
      nSigOpsCost := v.nSigOpsCost + getLegacySigOpCount tx * WITNESS_SCALE_FACTOR
      vtxundo := if i = 0 then v.vtxundo else v.vtxundo ++ [[]]
      vChecks := v.vChecks
      vPos := v.vPos ++ [(tx.getHash env.H, v.nTxOffset)]
      nTxOffset := v.nTxOffset + (serializeTransaction true tx).length } := by
  have hsigops : getTransactionSigOpCost tx v.view (getBlockScriptFlags env pindex) =
      .ok (getLegacySigOpCount tx * WITNESS_SCALE_FACTOR) := by
    rw [getTransactionSigOpCost, if_pos hcoinbase]
    rfl
  have hupdate : v.view.updateCoins env.H tx pindex.height = .ok ([], view) := by
    simp only [CCoinsView.updateCoins, if_pos hcoinbase, pure_bind, hadd]
    rfl
  have hspends : checkSpends env pindex v.view tx = .ok () := if_pos hcoinbase
  have hfee : checkFee env pindex v.view tx = .ok (0, []) := if_pos hcoinbase
  simp only [connectTx, hspends, hsigops, hfee, hupdate, bind, Except.bind, pure, Except.pure,
    if_neg (Nat.not_lt.mpr hcost), List.append_nil, Int.add_zero]

section
variable {env : BlockEnv} {pindex : BlockPtr} {block : CBlock} {view : CCoinsView}

theorem connectTransactions_ok (h : connectTransactions env pindex block pprev view fJustCheck =
    .ok r) :
    ¬ (fEnforceBIP30 env pindex pprev fJustCheck = true ∧ overwrites env block view = true) ∧
      ∃ v nValueOut, connectTxs env pindex
          ⟨view, 0, 0, [], [], [], (writeCompactSize block.vtx.length).length⟩ block.vtx = .ok v ∧
        (block.vtx.head?.map getValueOut).getD (.error .assertion) = .ok nValueOut ∧
        nValueOut ≤ v.nFees + getBlockSubsidy env.nSubsidyHalvingInterval pindex.height ∧
        r = ⟨if fJustCheck then v.view else v.view.setBestBlock (pindex.value.getHash env.H),
        v.vtxundo, v.vPos⟩ := by
  rw [connectTransactions, ite_error_eq_ok] at h
  obtain ⟨hbip30, h⟩ := h
  obtain ⟨v, hloop, h⟩ := bind_ok_iff.mp h
  obtain ⟨nValueOut, hout, h⟩ := bind_ok_iff.mp h
  simp only [ite_error_eq_ok] at h
  exact ⟨hbip30, v, nValueOut, hloop, hout, Int.not_lt.mp h.1, (Except.ok.inj h.2.2).symm⟩

theorem connectBlock_ok (h : connectBlock env pindex block view fJustCheck = .ok r) :
    checkBlock env.H block env.consensus (!fJustCheck) (!fJustCheck) = .ok () ∧
      prevHash env pindex = view.hashBlock ∧
      if block.header.getHash env.H = env.hashGenesisBlock then
        r = ⟨if fJustCheck then view else view.setBestBlock (pindex.value.getHash env.H), [], []⟩
      else ∃ pprev, pindex.pprev = some pprev ∧
        connectTransactions env pindex block pprev view fJustCheck = .ok r := by
  rw [connectBlock, ite_error_eq_ok] at h
  obtain ⟨⟨⟩, hcheck, h⟩ := bind_ok_iff.mp h.2
  obtain ⟨hprev, h⟩ := ite_error_eq_ok.mp h
  refine ⟨CheckFailure.lift_eq_ok.mp hcheck, not_not.mp hprev, ?_⟩
  by_cases hgenesis : block.header.getHash env.H = env.hashGenesisBlock
  · rw [if_pos hgenesis] at h ⊢
    exact (Except.ok.inj h).symm
  · rw [if_neg hgenesis] at h ⊢
    cases hpprev : pindex.pprev <;> simp_all

theorem connectBlock_transactions (hgenesis : block.header.getHash env.H ≠ env.hashGenesisBlock)
    (h : connectBlock env pindex block view fJustCheck = .ok r) :
    checkBlock env.H block env.consensus (!fJustCheck) (!fJustCheck) = .ok () ∧
      prevHash env pindex = view.hashBlock ∧ ∃ pprev, pindex.pprev = some pprev ∧
        connectTransactions env pindex block pprev view fJustCheck = .ok r := by
  simpa only [if_neg hgenesis] using connectBlock_ok h

theorem connectBlock_genesis_coins {r : Connected}
    (hgenesis : block.header.getHash env.H = env.hashGenesisBlock)
    (h : connectBlock env pindex block view fJustCheck = .ok r) : r.view.coins = view.coins := by
  obtain ⟨-, -, h⟩ := connectBlock_ok h
  rw [if_pos hgenesis] at h
  cases h
  split <;> rfl

end

theorem connectBlock_ok_iff (env : BlockEnv) {block : CBlock}
    (hindex : pindex.value = block.header) (view : CCoinsView) (r : Connected) :
    connectBlock env pindex block view false = .ok r ↔
      checkBlock env.H block env.consensus true true = .ok () ∧ prevHash env pindex = view.hashBlock ∧
        if block.header.getHash env.H = env.hashGenesisBlock then
          r = ⟨view.setBestBlock (block.header.getHash env.H), [], []⟩
        else ∃ pprev, pindex.pprev = some pprev ∧
          connectTransactions env pindex block pprev view false = .ok r := by
  simp only [connectBlock, hindex, Bool.not_false, ne_eq, not_true_eq_false, and_false, if_false,
    bind_ok_iff, CheckFailure.lift_eq_ok, Unique.exists_iff]
  refine and_congr Iff.rfl ?_
  by_cases hprev : prevHash env pindex = view.hashBlock
  · rw [if_neg (not_not_intro hprev), and_iff_right hprev]
    split
    · exact ⟨fun h => (Except.ok.inj h).symm, fun h => congrArg Except.ok h.symm⟩
    · cases pindex.pprev <;> simp
  · simp [hprev]

end OurChain
