import OurChain.Validation.AcceptedChain
import OurChain.Lib.MapSum

/-!
# The supply of money

What the coins of a chain are worth together. A transaction moves value from its inputs
to its outputs and the fees, and the coinbase may take the fees and the subsidy, so the
coins are worth at most the subsidies so far. From this bound follows that no sum of
amounts on the way leaves the range of `CAmount`, although `ConnectBlock` does not check
the sum of the fees.
-/

namespace OurChain

open List

/-- The range of `CAmount`. -/
def FitsAmount (nAmount : Int) : Prop := -2 ^ 63 ≤ nAmount ∧ nAmount < 2 ^ 63

/-- In the loop of `CheckTransaction`. -/
def checkOutputsAmounts (nValueOut : Int) : List CTxOut → List Int
  | [] => []
  | txout :: vout =>
    if txout.value < 0 ∨ txout.value > MAX_MONEY then []
    else (nValueOut + txout.value) ::
      if moneyRange (nValueOut + txout.value) then checkOutputsAmounts (nValueOut + txout.value) vout
      else []

/-- In `GetValueOut`, which adds before it checks. -/
def valueOutAmounts (nValueOut : Int) : List CTxOut → List Int
  | [] => []
  | txout :: vout => (nValueOut + txout.value) ::
    if moneyRange txout.value && moneyRange (nValueOut + txout.value) then
      valueOutAmounts (nValueOut + txout.value) vout
    else []

/-- In `GetValueIn`, which does not check. -/
def valueInAmounts (view : CCoinsView) (nResult : Int) : List CTxIn → List Int
  | [] => []
  | txin :: vin =>
    let nResult := nResult + ((view.coins.lookup txin.prevout).map fun coin =>
      coin.out.value).getD (-1)
    nResult :: valueInAmounts view nResult vin

/-- In the loop of `CheckTxInputs`. -/
def sumInputsAmounts (inputs : CCoinsView) (nValueIn : Int) : List CTxIn → List Int
  | [] => []
  | txin :: vin =>
    match inputs.coins.lookup txin.prevout with
    | none => []
    | some coin => (nValueIn + coin.out.value) ::
      if moneyRange coin.out.value && moneyRange (nValueIn + coin.out.value) then
        sumInputsAmounts inputs (nValueIn + coin.out.value) vin
      else []

def checkTxInputsAmounts (tx : CTransaction) (inputs : CCoinsView) (nSpendHeight : Int) : List Int :=
  sumInputsAmounts inputs 0 tx.vin ++
    match sumInputs inputs nSpendHeight 0 tx.vin with
    | .error _ => []
    | .ok nValueIn => valueOutAmounts 0 tx.vout ++
      match getValueOut tx with
      | .error _ => []
      | .ok nValueOut =>
        let nTxFee := nValueIn - nValueOut
        [nTxFee, 0 + nTxFee]

section
variable (env : BlockEnv) (pindex : BlockPtr)

/-- In the turn of `ConnectBlock` for one transaction. -/
def connectTxAmounts (v : ConnectVars) (tx : CTransaction) : List Int :=
  if tx.isCoinBase then []
  else match checkSpends env pindex v.view tx with
    | .error _ => []
    | .ok () => valueInAmounts v.view 0 tx.vin ++ valueOutAmounts 0 tx.vout ++
      match getValueOut tx with
      | .error _ => []
      | .ok nValueOut =>
        let nFee := v.view.getValueIn tx - nValueOut
        [nFee, v.nFees + nFee] ++ checkTxInputsAmounts tx v.view pindex.height

def connectTxsAmounts (v : ConnectVars) : List (CTransaction × Nat) → List Int
  | [] => []
  | (tx, i) :: vtx => connectTxAmounts env pindex v tx ++
    match connectTx env pindex v tx i with
    | .error _ => []
    | .ok v => connectTxsAmounts v vtx

def ConnectVars.start (block : CBlock) (view : CCoinsView) : ConnectVars :=
  ⟨view, 0, 0, [], [], [], (writeCompactSize block.vtx.length).length⟩

/-- In `ConnectBlock` with the `CheckBlock` at its start. -/
def connectBlockAmounts (block : CBlock) (view : CCoinsView) (fJustCheck : Bool) : List Int :=
  block.vtx.flatMap (fun tx => checkOutputsAmounts 0 tx.vout) ++
    match checkBlock env.H block env.consensus (!fJustCheck) (!fJustCheck) with
    | .error _ => []
    | .ok () => connectTxsAmounts env pindex (.start block view) block.vtx.zipIdx ++
      match connectTxs env pindex (.start block view) block.vtx with
      | .error _ => []
      | .ok v => (v.nFees + getBlockSubsidy env.nSubsidyHalvingInterval pindex.height) ::
        valueOutAmounts 0 ((block.vtx.head?.map CTransaction.vout).getD [])

end

def CCoinsView.total (view : CCoinsView) :
    Int := MapSum.total (fun coin : Coin => coin.out.value) view.coins

def CCoinsView.InRange (view : CCoinsView) : Prop :=
  ∀ outpoint coin, view.coins.lookup outpoint = some coin → moneyRange coin.out.value = true

namespace CCoinsView

variable {view view' : CCoinsView}

theorem InRange.nonneg (h : view.InRange) :
    MapSum.Nonneg (fun coin : Coin => coin.out.value) view.coins :=
  fun outpoint coin hcoin => ((moneyRange_iff _).mp (h outpoint coin hcoin)).1

theorem InRange.total_nonneg (h : view.InRange) : 0 ≤ view.total := h.nonneg.total

theorem inRange_empty : CCoinsView.empty.InRange := by
  intro o coin ho
  cases ho

/-- The value `GetValueIn` reads for an input. -/
def valueAt (view : CCoinsView) (txin : CTxIn) : Int :=
  ((view.coins.lookup txin.prevout).map fun coin => coin.out.value).getD (-1)

theorem valueAt_eq (h : view.coins.lookup txin.prevout = some coin) :
    view.valueAt txin = coin.out.value := by
  simp [valueAt, h]

theorem InRange.erase (h : view.InRange) (outpoint : COutPoint) :
    InRange { view with coins := view.coins.erase outpoint } := by
  intro o coin ho
  by_cases heq : o = outpoint
  · subst heq
    rw [Finmap.lookup_erase] at ho
    cases ho
  · rw [Finmap.lookup_erase_ne heq] at ho
    exact h o coin ho

theorem spendInputs_have {vin : List CTxIn} (h : view.spendInputs vin = .ok (vprevout, view')) :
    ∀ txin ∈ vin, (view.coins.lookup txin.prevout).isSome := by
  induction vin generalizing view vprevout with
  | nil => simp
  | cons txin vin ih =>
    obtain ⟨coin, rest, rfl, hcoin, hrest⟩ := spendInputs_cons h
    refine forall_mem_cons.mpr ⟨by simp [hcoin], fun i hi => ?_⟩
    by_cases heq : i.prevout = txin.prevout
    · rw [heq, hcoin]
      rfl
    · have hsome := ih hrest i hi
      rwa [Finmap.lookup_erase_ne heq] at hsome

theorem spendInputs_total {vin : List CTxIn} (hrange : view.InRange)
    (h : view.spendInputs vin = .ok (vprevout, view')) :
    view'.InRange ∧ view.total = (vin.map view.valueAt).sum + view'.total := by
  induction vin generalizing view vprevout with
  | nil =>
    cases h
    exact ⟨hrange, (zero_add _).symm⟩
  | cons txin vin ih =>
    obtain ⟨coin, rest, rfl, hcoin, hrest⟩ := spendInputs_cons h
    obtain ⟨hrange', htotal⟩ := ih (hrange.erase _) hrest
    refine ⟨hrange', ?_⟩
    -- an input that comes later spends another coin
    have hsame : ∀ i ∈ vin, valueAt { view with coins := view.coins.erase txin.prevout } i =
      view.valueAt i := by
      intro i hi
      have hsome := spendInputs_have hrest i hi
      have hne : i.prevout ≠ txin.prevout := by
        intro heq
        rw [heq, Finmap.lookup_erase] at hsome
        cases hsome
      rw [valueAt, valueAt, Finmap.lookup_erase_ne hne]
    rw [map_congr_left hsame] at htotal
    rw [map_cons, sum_cons, valueAt_eq hcoin, total, MapSum.total_erase hcoin, add_assoc]
    exact congrArg (coin.out.value + ·) htotal

theorem addCoin_total (hrange : view.InRange) (hvalue : moneyRange coin.out.value = true)
    (h : view.addCoin outpoint coin overwrite = .ok view') :
    view'.InRange ∧ view'.total ≤ view.total + coin.out.value := by
  obtain ⟨-, rfl⟩ | ⟨-, -, rfl⟩ := addCoin_ok h
  · exact ⟨hrange, le_add_of_nonneg_right ((moneyRange_iff _).mp hvalue).1⟩
  · refine ⟨fun o c ho => ?_, hrange.nonneg.total_insert_le outpoint coin⟩
    by_cases heq : o = outpoint
    · subst heq
      rw [Finmap.lookup_insert] at ho
      cases ho
      exact hvalue
    · rw [Finmap.lookup_insert_of_ne _ heq] at ho
      exact hrange o c ho

theorem addCoins_total (hrange : view.InRange) (hvout : ∀ out ∈ tx.vout, moneyRange out.value = true)
    (h : view.addCoins H tx nHeight = .ok view') :
    view'.InRange ∧ view'.total ≤ view.total + (tx.vout.map CTxOut.value).sum := by
  have hfold : ∀ (l : List CTxOut) (k : Nat) (view : CCoinsView), view.InRange →
      (∀ out ∈ l, moneyRange out.value = true) →
      (l.zipIdx k).foldlM (fun view e => view.addCoin ⟨tx.getHash H, BitVec.ofNat 32 e.2⟩
        ⟨e.1, tx.isCoinBase, BitVec.ofNat 31 nHeight⟩ tx.isCoinBase) view = .ok view' →
      view'.InRange ∧ view'.total ≤ view.total + (l.map CTxOut.value).sum := by
    intro l
    induction l with
    | nil =>
      intro k view hrange _ h
      cases h
      exact ⟨hrange, le_of_eq (add_zero _).symm⟩
    | cons out l ih =>
      intro k view hrange hl h
      obtain ⟨view₁, hadd, hrest⟩ := bind_ok_iff.mp h
      obtain ⟨hrange₁, htotal₁⟩ := addCoin_total hrange (hl out mem_cons_self) hadd
      obtain ⟨hrange', htotal⟩ := ih (k + 1) view₁ hrange₁ (fun o ho =>
        hl o (mem_cons_of_mem _ ho)) hrest
      refine ⟨hrange', ?_⟩
      calc view'.total ≤ view₁.total + (l.map CTxOut.value).sum := htotal
        _ ≤ view.total + out.value + (l.map CTxOut.value).sum := Int.add_le_add_right htotal₁ _
        _ = view.total + ((out :: l).map CTxOut.value).sum := by
          rw [map_cons, sum_cons, add_assoc]
  exact hfold tx.vout 0 view hrange hvout h

theorem updateCoins_total (hrange : view.InRange)
    (hvout : ∀ out ∈ tx.vout, moneyRange out.value = true)
    (h : view.updateCoins H tx nHeight = .ok (vprevout, view')) :
    view'.InRange ∧
      view'.total + view.getValueIn tx ≤ view.total + (tx.vout.map CTxOut.value).sum := by
  obtain ⟨spent, hspend, hadd⟩ := updateCoins_ok_iff.mp h
  have hspent : spent.InRange ∧ view.total = view.getValueIn tx + spent.total := by
    unfold getValueIn
    split at hspend
    · rename_i hcoinbase
      obtain ⟨-, rfl⟩ := hspend
      rw [if_pos hcoinbase]
      exact ⟨hrange, (zero_add _).symm⟩
    · rename_i hcoinbase
      rw [if_neg hcoinbase]
      exact spendInputs_total hrange hspend
  obtain ⟨hrange', htotal⟩ := addCoins_total hspent.1 hvout hadd
  refine ⟨hrange', ?_⟩
  rw [hspent.2, add_comm, add_assoc]
  exact Int.add_le_add_left htotal _

end CCoinsView

variable {vout : List CTxOut}

theorem valueOutFrom_eq (h : valueOutFrom nValueOut vout = .ok n) :
    n = nValueOut + (vout.map CTxOut.value).sum := by
  induction vout generalizing nValueOut with
  | nil =>
    cases h
    exact (add_zero _).symm
  | cons txout vout ih => rw [ih (valueOutFrom_cons h).2, map_cons, sum_cons, add_assoc]

theorem valueOutFrom_range (hstart : moneyRange nValueOut = true)
    (h : valueOutFrom nValueOut vout = .ok n) : moneyRange n = true := by
  induction vout generalizing nValueOut with
  | nil =>
    cases h
    exact hstart
  | cons txout vout ih =>
    obtain ⟨hrange, h⟩ := valueOutFrom_cons h
    exact ih hrange h

variable {vin : List CTxIn}

theorem sumInputs_eq (hstart : moneyRange nValueIn = true)
    (h : sumInputs inputs nSpendHeight nValueIn vin = .ok n) :
    n = nValueIn + (vin.map inputs.valueAt).sum ∧ moneyRange n = true := by
  induction vin generalizing nValueIn with
  | nil =>
    cases h
    exact ⟨(add_zero _).symm, hstart⟩
  | cons txin vin ih =>
    obtain ⟨coin, hcoin, -, hrange, h⟩ := sumInputs_cons h
    obtain ⟨hsum, hn⟩ := ih hrange h
    exact ⟨by rw [hsum, map_cons, sum_cons, CCoinsView.valueAt_eq hcoin, add_assoc], hn⟩

theorem checkTxInputs_fee (hcoinbase : tx.isCoinBase = false)
    (h : checkTxInputs tx inputs nSpendHeight = .ok ()) (hout : getValueOut tx = .ok nValueOut) :
    nValueOut ≤ inputs.getValueIn tx := by
  obtain ⟨nValueIn, _, hin, hout', hle⟩ := checkTxInputs_ok h
  cases hout'.symm.trans hout
  have hsum := (sumInputs_eq rfl hin).1
  rw [zero_add] at hsum
  rw [CCoinsView.getValueIn, hcoinbase]
  exact hsum ▸ hle

/-- The coins and the fees together are worth at most `bound`. -/
structure Conserved (bound : Int) (v : ConnectVars) : Prop where
  range : v.view.InRange
  worth : v.view.total + v.nFees ≤ bound
  fees : 0 ≤ v.nFees

section
variable {env : BlockEnv} {pindex : BlockPtr} {v v' : ConnectVars} {bound : Int}

theorem connectTx_conserved (hv : Conserved bound v) (htx : checkTransaction tx true = .ok ())
    (hcoinbase : tx.isCoinBase = false) (h : connectTx env pindex v tx i = .ok v') :
    Conserved bound v' := by
  obtain ⟨nFee, vprevout, hconnects⟩ := connectTx_ok h
  obtain ⟨vChecks, hfee⟩ := hconnects.fee
  obtain ⟨nValueOut, hout, rfl, hinputs⟩ := checkFee_ok hcoinbase hfee
  obtain ⟨hrange, htotal⟩ := CCoinsView.updateCoins_total hv.range (checkTransaction_parts htx).1
    hconnects.update
  have hbelow := checkTxInputs_fee hcoinbase hinputs hout
  have hvalue := valueOutFrom_eq hout
  have hworth := hv.worth
  have hfees := hv.fees
  refine ⟨hrange, ?_, ?_⟩ <;> rw [hconnects.nFees] <;> omega

theorem connectTxs_conserved {vtx : List (CTransaction × Nat)}
    (hvtx : ∀ e ∈ vtx, checkTransaction e.1 true = .ok () ∧ e.1.isCoinBase = false)
    (hv : Conserved bound v)
    (h : vtx.foldlM (fun v (tx, i) => connectTx env pindex v tx i) v = .ok v') : Conserved bound v' :=
  foldlM_ok_induction (P := Conserved bound) hv
    (fun e he _ _ hv hconnect => connectTx_conserved hv (hvtx e he).1 (hvtx e he).2 hconnect) h

theorem connectTx_coinBase_conserved (hv : Conserved bound v)
    (htx : checkTransaction tx true = .ok ()) (hcoinbase : tx.isCoinBase = true)
    (h : connectTx env pindex v tx i = .ok v') :
    Conserved (bound + (tx.vout.map CTxOut.value).sum) v' := by
  obtain ⟨nFee, vprevout, hconnects⟩ := connectTx_ok h
  obtain ⟨vChecks, hfee⟩ := hconnects.fee
  obtain ⟨hrange, htotal⟩ := CCoinsView.updateCoins_total hv.range (checkTransaction_parts htx).1
    hconnects.update
  simp only [checkFee, hcoinbase, if_true] at hfee
  cases hfee
  simp only [CCoinsView.getValueIn, hcoinbase, if_true, add_zero] at htotal
  have hworth := hv.worth
  have hfees := hv.fees
  refine ⟨hrange, ?_, ?_⟩ <;> rw [hconnects.nFees] <;> omega

theorem start_conserved (hview : view.InRange) (block : CBlock) :
    Conserved view.total (.start block view) :=
  ⟨hview, le_of_eq (add_zero _), le_refl 0⟩

theorem CCoinsView.setBest_supply {view : CCoinsView} (fJustCheck : Bool) (hash : Uint256)
    (hrange : view.InRange) (htotal : view.total ≤ bound) :
    (if fJustCheck then view else view.setBestBlock hash).InRange ∧
      (if fJustCheck then view else view.setBestBlock hash).total ≤ bound := by
  cases fJustCheck <;> exact ⟨hrange, htotal⟩

theorem connectTransactions_total (hview : view.InRange)
    (hcheck : checkBlock env.H block env.consensus fCheckPOW fCheckMerkleRoot = .ok ())
    (h : connectTransactions env pindex block pprev view fJustCheck = .ok r) :
    r.view.InRange ∧
      r.view.total ≤ view.total + getBlockSubsidy env.nSubsidyHalvingInterval pindex.height := by
  obtain ⟨tx, vtx, hvtx, hcoinbase, htx, hrest⟩ := checked_vtx hcheck
  obtain ⟨-, v, nValueOut, hloop, hout, hamount, rfl⟩ := connectTransactions_ok h
  rw [hvtx] at hloop hout
  obtain ⟨v₁, hfirst, hloop⟩ := bind_ok_iff.mp hloop
  have hv₁ := connectTx_coinBase_conserved (start_conserved hview block) htx hcoinbase (hvtx ▸ hfirst)
  have hv := connectTxs_conserved hrest hv₁ hloop
  have hvalue := valueOutFrom_eq hout
  have hworth := hv.worth
  exact CCoinsView.setBest_supply fJustCheck _ hv.range (by omega)

theorem connectBlock_total (hview : view.InRange)
    (h : connectBlock env pindex block view fJustCheck = .ok r) :
    r.view.InRange ∧
      r.view.total ≤ view.total + getBlockSubsidy env.nSubsidyHalvingInterval pindex.height := by
  obtain ⟨hcheck, -, h⟩ := connectBlock_ok h
  split at h
  · subst h
    exact CCoinsView.setBest_supply fJustCheck _ hview
      (le_add_of_nonneg_right (getBlockSubsidy_nonneg _ _))
  · obtain ⟨pprev, -, h⟩ := h
    exact connectTransactions_total hview hcheck h

theorem ConnectedChain.total_le (h : ConnectedChain env n view) :
    view.InRange ∧
      view.total ≤ ∑ i ∈ Finset.range (n.height + 1),
      getBlockSubsidy env.nSubsidyHalvingInterval i := by
  induction h with
  | genesis h =>
    obtain ⟨hrange, htotal⟩ := connectBlock_total CCoinsView.inRange_empty h
    refine ⟨hrange, htotal.trans ?_⟩
    rw [CCoinsView.total, CCoinsView.empty, MapSum.total_empty, zero_add]
    simp [Node.height]
  | @child p view block r hparent h ih =>
    obtain ⟨hrange, htotal⟩ := connectBlock_total ih.1 h
    refine ⟨hrange, htotal.trans ?_⟩
    rw [Node.height_map, Finset.sum_range_succ]
    exact Int.add_le_add_right ih.2 _

end

theorem fitsAmount_of_le (h : -(4 * MAX_MONEY) ≤ a ∧ a ≤ 4 * MAX_MONEY) : FitsAmount a := by
  have hmax : MAX_MONEY = 2100000000000000 := rfl
  unfold FitsAmount
  omega

theorem getBlockSubsidy_le (interval : Int) (nHeight : Nat) :
    getBlockSubsidy interval nHeight ≤ MAX_MONEY := by
  unfold getBlockSubsidy
  dsimp only
  split
  · decide
  · rw [Int.shiftRight_eq_div_pow]
    exact (Int.ediv_le_self _ (by decide)).trans (by decide)

theorem checkOutputsAmounts_fit (hstart : moneyRange nValueOut = true)
    (ha : a ∈ checkOutputsAmounts nValueOut vout) : FitsAmount a := by
  induction vout generalizing nValueOut with
  | nil => cases ha
  | cons txout vout ih =>
    rw [checkOutputsAmounts] at ha
    split at ha
    · cases ha
    · have hstart' := (moneyRange_iff _).mp hstart
      rcases mem_cons.mp ha with rfl | ha
      · exact fitsAmount_of_le (by omega)
      · split at ha
        · rename_i hrange
          exact ih hrange ha
        · cases ha

theorem valueOutAmounts_fit (hvout : ∀ out ∈ vout, moneyRange out.value = true)
    (hstart : moneyRange nValueOut = true) (ha : a ∈ valueOutAmounts nValueOut vout) :
    FitsAmount a := by
  induction vout generalizing nValueOut with
  | nil => cases ha
  | cons txout vout ih =>
    have hstart' := (moneyRange_iff _).mp hstart
    have hvalue := (moneyRange_iff _).mp (hvout txout mem_cons_self)
    rcases mem_cons.mp ha with rfl | ha
    · exact fitsAmount_of_le (by omega)
    · split at ha
      · rename_i hrange
        exact ih (fun out hout => hvout out (mem_cons_of_mem _ hout))
          (Bool.and_eq_true_iff.mp hrange).2 ha
      · cases ha

theorem sumInputsAmounts_fit (hrange : inputs.InRange) (hstart : moneyRange nValueIn = true)
    (ha : a ∈ sumInputsAmounts inputs nValueIn vin) : FitsAmount a := by
  induction vin generalizing nValueIn with
  | nil => cases ha
  | cons txin vin ih =>
    have hstart' := (moneyRange_iff _).mp hstart
    rw [sumInputsAmounts] at ha
    split at ha
    · cases ha
    · rename_i coin hcoin
      have hvalue := (moneyRange_iff _).mp (hrange _ _ hcoin)
      rcases mem_cons.mp ha with rfl | ha
      · exact fitsAmount_of_le (by omega)
      · split at ha
        · rename_i hrange'
          exact ih (Bool.and_eq_true_iff.mp hrange').2 ha
        · cases ha

theorem mem_valueInAmounts (ha : a ∈ valueInAmounts view nResult vin) :
    ∃ first, first <+: vin ∧ a = nResult + (first.map view.valueAt).sum := by
  induction vin generalizing nResult with
  | nil => cases ha
  | cons txin vin ih =>
    rcases mem_cons.mp ha with rfl | ha
    · exact ⟨[txin], by simp, by simp [CCoinsView.valueAt]⟩
    · obtain ⟨first, hfirst, rfl⟩ := ih ha
      refine ⟨txin :: first, by simpa using hfirst, ?_⟩
      rw [map_cons, sum_cons, add_assoc]
      rfl

theorem sum_valueAt_le {view : CCoinsView} (hrange : view.InRange)
    (hnodup : (vin.map CTxIn.prevout).Nodup)
    (hhave : ∀ txin ∈ vin, view.haveCoin txin.prevout = true) :
    0 ≤ (vin.map view.valueAt).sum ∧ (vin.map view.valueAt).sum ≤ view.total := by
  have hcoins : ∀ txin ∈ vin, ∃ coin, view.coins.lookup txin.prevout = some coin ∧
      view.valueAt txin = coin.out.value := by
    intro txin htxin
    obtain ⟨coin, hcoin⟩ := Option.isSome_iff_exists.mp (hhave txin htxin)
    exact ⟨coin, hcoin, CCoinsView.valueAt_eq hcoin⟩
  constructor
  · refine sum_nonneg fun x hx => ?_
    obtain ⟨txin, htxin, rfl⟩ := List.mem_map.mp hx
    obtain ⟨coin, hcoin, heq⟩ := hcoins txin htxin
    exact heq ▸ hrange.nonneg _ coin hcoin
  · let valueOf (o : COutPoint) : Int :=
      ((view.coins.lookup o).map fun coin => coin.out.value).getD (-1)
    have hmap : vin.map view.valueAt = (vin.map CTxIn.prevout).map valueOf := by
      rw [List.map_map]
      rfl
    rw [hmap]
    refine hrange.nonneg.sum_le hnodup fun o ho => ?_
    obtain ⟨txin, htxin, rfl⟩ := List.mem_map.mp ho
    exact hcoins txin htxin

theorem checkTxInputsAmounts_fit (hrange : inputs.InRange)
    (hvout : ∀ out ∈ tx.vout, moneyRange out.value = true)
    (ha : a ∈ checkTxInputsAmounts tx inputs nSpendHeight) : FitsAmount a := by
  rcases mem_append.mp ha with ha | ha
  · exact sumInputsAmounts_fit hrange rfl ha
  · split at ha
    · cases ha
    · rename_i nValueIn hin
      rcases mem_append.mp ha with ha | ha
      · exact valueOutAmounts_fit hvout rfl ha
      · split at ha
        · cases ha
        · rename_i nValueOut hout
          have hin' := (moneyRange_iff _).mp (sumInputs_eq rfl hin).2
          have hout' := (moneyRange_iff _).mp (valueOutFrom_range rfl hout)
          simp only [zero_add, mem_cons, not_mem_nil, or_false, or_self] at ha
          exact fitsAmount_of_le (by omega)

section
variable {env : BlockEnv} {pindex : BlockPtr} {v v' : ConnectVars} {bound : Int}

theorem connectTxAmounts_fit (hv : Conserved bound v) (hbound : bound ≤ 2 * MAX_MONEY)
    (htx : checkTransaction tx true = .ok ()) (ha : a ∈ connectTxAmounts env pindex v tx) :
    FitsAmount a := by
  obtain ⟨hvout, -, hnodup⟩ := checkTransaction_parts htx
  have hworth := hv.worth
  have hfees := hv.fees
  unfold connectTxAmounts at ha
  split at ha
  · cases ha
  · rename_i hcoinbase
    split at ha
    · cases ha
    · rename_i hspends
      have hhave : ∀ txin ∈ tx.vin, v.view.haveCoin txin.prevout = true := by
        unfold checkSpends at hspends
        rw [if_neg hcoinbase] at hspends
        split at hspends
        · cases hspends
        · rename_i hinputs
          simpa [CCoinsView.haveInputs, hcoinbase] using hinputs
      rcases mem_append.mp ha with ha | ha
      · rcases mem_append.mp ha with ha | ha
        · obtain ⟨first, hfirst, rfl⟩ := mem_valueInAmounts ha
          have hsum := sum_valueAt_le hv.range (hnodup.sublist (hfirst.sublist.map _))
            fun txin htxin => hhave txin (hfirst.subset htxin)
          exact fitsAmount_of_le (by omega)
        · exact valueOutAmounts_fit hvout rfl ha
      · split at ha
        · cases ha
        · rename_i nValueOut hout
          have hout' := (moneyRange_iff _).mp (valueOutFrom_range rfl hout)
          have hsum := sum_valueAt_le hv.range hnodup hhave
          have hin : v.view.getValueIn tx = (tx.vin.map v.view.valueAt).sum := if_neg hcoinbase
          rcases mem_append.mp ha with ha | ha
          · simp only [mem_cons, not_mem_nil, or_false] at ha
            rcases ha with rfl | rfl <;> exact fitsAmount_of_le (by omega)
          · exact checkTxInputsAmounts_fit hv.range hvout ha

theorem connectTxsAmounts_fit {vtx : List (CTransaction × Nat)}
    (hvtx : ∀ e ∈ vtx, checkTransaction e.1 true = .ok () ∧ e.1.isCoinBase = false)
    (hv : Conserved bound v) (hbound : bound ≤ 2 * MAX_MONEY)
    (ha : a ∈ connectTxsAmounts env pindex v vtx) : FitsAmount a := by
  induction vtx generalizing v with
  | nil => cases ha
  | cons e vtx ih =>
    obtain ⟨htx, hcoinbase⟩ := hvtx e mem_cons_self
    rcases mem_append.mp ha with ha | ha
    · exact connectTxAmounts_fit hv hbound htx ha
    · split at ha
      · cases ha
      · rename_i v₁ hconnect
        exact ih (fun e' he' => hvtx e' (mem_cons_of_mem _ he'))
          (connectTx_conserved hv htx hcoinbase hconnect) ha

/-- No sum or difference of amounts leaves the range, whatever block is tried on coins that
are worth at most `MAX_MONEY` together. -/
theorem connectBlockAmounts_fit (hview : view.InRange) (htotal : view.total ≤ MAX_MONEY)
    (ha : a ∈ connectBlockAmounts env pindex block view fJustCheck) : FitsAmount a := by
  rcases mem_append.mp ha with ha | ha
  · obtain ⟨tx, -, ha⟩ := mem_flatMap.mp ha
    exact checkOutputsAmounts_fit rfl ha
  · split at ha
    · cases ha
    · rename_i hcheck
      obtain ⟨tx, vtx, hvtx, hcoinbase, htx, hrest⟩ := checked_vtx hcheck
      obtain ⟨hvout, hsum, -⟩ := checkTransaction_parts htx
      have hpays := (moneyRange_iff _).mp hsum
      have hstart := start_conserved hview block
      -- the coinbase has been connected, so the bound leaves room for what it pays
      have hbound : view.total + (tx.vout.map CTxOut.value).sum ≤ 2 * MAX_MONEY := by omega
      rw [connectTxs, hvtx, zipIdx_cons] at ha
      rcases mem_append.mp ha with ha | ha
      · rcases mem_append.mp ha with ha | ha
        · exact connectTxAmounts_fit hstart (by omega) htx ha
        · split at ha
          · cases ha
          · rename_i v₁ hfirst
            exact connectTxsAmounts_fit hrest
              (connectTx_coinBase_conserved hstart htx hcoinbase hfirst) hbound ha
      · split at ha
        · cases ha
        · rename_i v hloop
          obtain ⟨v₁, hfirst, hloop⟩ := bind_ok_iff.mp hloop
          have hv := connectTxs_conserved hrest
            (connectTx_coinBase_conserved hstart htx hcoinbase hfirst) hloop
          have hworth := hv.worth
          have hfees := hv.fees
          have hleft := hv.range.total_nonneg
          rcases mem_cons.mp ha with rfl | ha
          · have hsubsidy := getBlockSubsidy_le env.nSubsidyHalvingInterval pindex.height
            have hsubsidy' := getBlockSubsidy_nonneg env.nSubsidyHalvingInterval pindex.height
            exact fitsAmount_of_le (by omega)
          · exact valueOutAmounts_fit hvout rfl ha

end

/-- No inflation: the coins of a chain are worth at most the subsidies of its heights, and
no block that is tried on top of it, or first of all, makes a sum or difference of
amounts overflow. -/
theorem no_inflation (env : BlockEnv)
    (hsupply : ∀ k, ∑ h ∈ Finset.range k, getBlockSubsidy env.nSubsidyHalvingInterval h ≤ MAX_MONEY)
    {n : Node CBlock} {view : CCoinsView} (hchain : ConnectedChain env n view) :
    view.total ≤ ∑ h ∈ Finset.range (n.height + 1), getBlockSubsidy env.nSubsidyHalvingInterval h ∧
    ∀ pindex block fJustCheck,
      (∀ a ∈ connectBlockAmounts env pindex block view fJustCheck, FitsAmount a) ∧
      ∀ a ∈ connectBlockAmounts env pindex block .empty fJustCheck, FitsAmount a := by
  obtain ⟨hrange, htotal⟩ := hchain.total_le
  refine ⟨htotal, fun pindex block fJustCheck => ⟨?_, ?_⟩⟩
  · exact fun a ha => connectBlockAmounts_fit hrange (htotal.trans (hsupply _)) ha
  · exact fun a ha => connectBlockAmounts_fit CCoinsView.inRange_empty (by decide) ha

theorem sum_range_div (g : Nat → Int) {interval : Nat} (hpos : 0 < interval) (k : Nat) :
    ∑ h ∈ Finset.range (interval * k), g (h / interval) = interval * ∑ i ∈ Finset.range k, g i := by
  induction k with
  | zero => simp
  | succ k ih =>
    have hlast : ∀ h ∈ Finset.range interval, g ((interval * k + h) / interval) = g k := by
      intro h hh
      rw [Nat.mul_add_div hpos, Nat.div_eq_of_lt (Finset.mem_range.mp hh), Nat.add_zero]
    rw [Nat.mul_succ, Finset.sum_range_add, ih, Finset.sum_congr rfl hlast, Finset.sum_const,
      Finset.card_range, Finset.sum_range_succ, mul_add, nsmul_eq_mul]

theorem sum_subsidy_le {interval : Nat} (hpos : 0 < interval) (k : Nat) :
    ∑ h ∈ Finset.range k, getBlockSubsidy interval h ≤
      interval * ∑ i ∈ Finset.range 64, getBlockSubsidy 1 i := by
  have hdiv : ∀ h : Nat, getBlockSubsidy interval h = getBlockSubsidy 1 (h / interval : Nat) := by
    intro h
    simp only [getBlockSubsidy, Int.tdiv_one]
    rw [show (h : Int).tdiv interval = ((h / interval : Nat) : Int) from rfl]
  have hzero : ∀ i, 64 ≤ i → getBlockSubsidy 1 i = 0 := by
    intro i hi
    simp only [getBlockSubsidy, Int.tdiv_one]
    exact if_pos (by exact_mod_cast hi)
  calc ∑ h ∈ Finset.range k, getBlockSubsidy interval h
      ≤ ∑ h ∈ Finset.range (interval * (64 + k)), getBlockSubsidy interval h := by
        refine Finset.sum_le_sum_of_subset_of_nonneg (Finset.range_subset_range.mpr ?_)
          fun i _ _ => getBlockSubsidy_nonneg _ _
        calc k ≤ 1 * (64 + k) := by omega
          _ ≤ interval * (64 + k) := Nat.mul_le_mul_right _ hpos
    _ = interval * ∑ i ∈ Finset.range (64 + k), getBlockSubsidy 1 i := by
        simp only [hdiv]
        exact sum_range_div (fun i => getBlockSubsidy 1 i) hpos (64 + k)
    _ = interval * ∑ i ∈ Finset.range 64, getBlockSubsidy 1 i := by
        rw [Finset.sum_range_add, Finset.sum_eq_zero (s := Finset.range k), add_zero]
        exact fun i _ => hzero (64 + i) (Nat.le_add_right 64 i)

theorem supply_le (interval : Nat) (hpos : 0 < interval) (hmain : interval ≤ 210000) (k : Nat) :
    ∑ h ∈ Finset.range k, getBlockSubsidy interval h ≤ MAX_MONEY := by
  have h64 : ∑ i ∈ Finset.range 64, getBlockSubsidy 1 i = 9999999989 := by decide +kernel
  have hmax : MAX_MONEY = 2100000000000000 := rfl
  have hle := sum_subsidy_le hpos k
  rw [h64] at hle
  omega

theorem Accepted.connectedChain {net : Network} (h : Accepted net n view) :
    ConnectedChain net.toBlockEnv n view := by
  induction h with
  | genesis h => exact .genesis h
  | child _ hextends ih =>
    obtain ⟨r, hconnect, rfl⟩ := hextends.connect
    exact .child ih hconnect

def payingCoinbase : CTransaction := { bareCoinbase with vout := [⟨5000000000, [OP_1]⟩] }

theorem no_inflation_minedChain : ∃ view, ConnectedChain sampleNet.toBlockEnv
    (minedChain payingCoinbase) view ∧ view.total ≤ ∑ h ∈ Finset.range
    ((minedChain payingCoinbase).height + 1),
      getBlockSubsidy sampleNet.nSubsidyHalvingInterval h ∧
    ∀ pindex block fJustCheck,
      (∀ a ∈ connectBlockAmounts sampleNet.toBlockEnv pindex block view fJustCheck, FitsAmount a) ∧
      ∀ a ∈ connectBlockAmounts sampleNet.toBlockEnv pindex block .empty fJustCheck,
      FitsAmount a := by
  have haccepted : ∃ view, Accepted sampleNet (minedChain payingCoinbase) view := by
    apply accepted_minedChain <;> decide +kernel
  obtain ⟨view, hview⟩ := haccepted
  have hsupply := fun k => supply_le 150 (by decide) (by decide) k
  exact ⟨view, hview.connectedChain, no_inflation sampleNet.toBlockEnv hsupply hview.connectedChain⟩

end OurChain
