import OurChain.Validation.TimeLocks

/-!
# Cached lock points

`CheckSequenceLocks` for the next block, with the lock computed from the inputs or taken
from the `LockPoints` that an earlier call left in the mempool entry, and
`TestLockPointValidity`, which decides whether those may still be used.
-/

namespace OurChain

open Node

def MEMPOOL_HEIGHT : BitVec 31 := 0x7FFFFFFF

structure LockPoints where
  height : Int
  time : Int
  maxInputBlock : Option BlockPtr
  deriving DecidableEq

/-- The coins that `CCoinsViewMemPool` sees: the outputs of pool transactions over those of the
chain. -/
structure PoolView where
  mempool : Uint256 → Option CTransaction
  base : CCoinsView

def PoolView.getCoin (view : PoolView) (outpoint : COutPoint) : Option Coin :=
  match view.mempool outpoint.hash with
  | some ptx => ptx.vout[outpoint.n.toNat]?.map fun out => ⟨out, false, MEMPOOL_HEIGHT⟩
  | none => view.base.coins.lookup outpoint

def testLockPointValidity (tip : BlockPtr) (lp : LockPoints) : Bool :=
  lp.maxInputBlock.all fun block => block ∈ tip.path

-- The `CBlockIndex` on the stack has a parent and a height, but no header.
def emptyHeader : CBlockHeader := ⟨0, 0, 0, 0, 0, 0, 0, 0, 0⟩

def enforcesBIP68 (tx : CTransaction) (flags : BitVec 32) : Bool :=
  decide (2 ≤ tx.nVersion.toNat) && flags &&& LOCKTIME_VERIFY_SEQUENCE != 0#32

-- Transactions of the pool are taken to confirm in the next block.
def prevHeight (tip : BlockPtr) (coin : Coin) : Nat :=
  if coin.nHeight = MEMPOOL_HEIGHT then tip.height + 1 else coin.nHeight.toNat

/-- `prevheights` after `CalculateSequenceLocks`, which clears the heights that do not count. -/
def heightsLeft (tx : CTransaction) (flags : BitVec 32) (prevheights : List Nat) : List Nat :=
  if enforcesBIP68 tx flags then
    List.zipWith (fun txin height =>
      if txin.nSequence &&& SEQUENCE_LOCKTIME_DISABLE_FLAG ≠ 0 then 0 else height) tx.vin prevheights
  else prevheights

def checkSequenceLocks (tx : CTransaction) (flags : BitVec 32) (tip : BlockPtr) (view : PoolView)
    (lp : LockPoints) (useExistingLockPoints : Bool) : Bool × LockPoints :=
  let index := child tip emptyHeader
  if useExistingLockPoints then (evaluateSequenceLocks index (lp.height, lp.time), lp)
  else if tx.vin.any fun txin => (view.getCoin txin.prevout).isNone then (false, lp)
  else
    let prevheights := tx.vin.map fun txin =>
      ((view.getCoin txin.prevout).map (prevHeight tip)).getD 0
    let lockPair := calculateSequenceLocks tx flags prevheights index
    let maxInputHeight := ((heightsLeft tx flags prevheights).filter (· ≠ tip.height + 1)).foldl max 0
    (evaluateSequenceLocks index lockPair, ⟨lockPair.1, lockPair.2, tip.ancestorAt maxInputHeight⟩)

def LockOpen (block tip : BlockPtr) (txin : CTxIn) (nCoinHeight : Nat) : Prop :=
  txin.nSequence &&& SEQUENCE_LOCKTIME_DISABLE_FLAG = 0 →
    if txin.nSequence &&& SEQUENCE_LOCKTIME_TYPE_FLAG ≠ 0 then
      ((block.ancestorAt (nCoinHeight - 1)).map getMedianTimePast).getD 0 +
        ((txin.nSequence &&& SEQUENCE_LOCKTIME_MASK) <<< SEQUENCE_LOCKTIME_GRANULARITY).toNat - 1 <
          getMedianTimePast tip
    else (nCoinHeight : Int) + (txin.nSequence &&& SEQUENCE_LOCKTIME_MASK).toNat - 1 < tip.height + 1

theorem evaluate_lockInput :
    evaluateSequenceLocks (child tip x) (lockInput block lock txin nCoinHeight) = true ↔
      evaluateSequenceLocks (child tip x) lock = true ∧ LockOpen block tip txin nCoinHeight := by
  rw [evaluateSequenceLocks_child, evaluateSequenceLocks_child, lockInput, LockOpen]
  by_cases hdisabled : txin.nSequence &&& SEQUENCE_LOCKTIME_DISABLE_FLAG = 0
  · by_cases htype : txin.nSequence &&& SEQUENCE_LOCKTIME_TYPE_FLAG = 0
    · simp only [hdisabled, htype, ne_eq, not_true_eq_false, if_false, true_imp_iff, max_lt_iff]
      exact and_right_comm
    · simp only [hdisabled, htype, ne_eq, not_true_eq_false, not_false_eq_true, if_true,
        if_false, true_imp_iff, max_lt_iff, and_assoc]
  · simp only [hdisabled, ne_eq, not_false_eq_true, if_true, false_imp_iff, and_true]

theorem evaluate_calculateSequenceLocks (heights : CTxIn → Nat) :
    evaluateSequenceLocks (child tip x) (calculateSequenceLocks tx flags (tx.vin.map heights) block) =
    true ↔
      (enforcesBIP68 tx flags = true → ∀ txin ∈ tx.vin, LockOpen block tip txin (heights txin)) := by
  have hfold : ∀ (vin : List CTxIn) lock, evaluateSequenceLocks (child tip x)
      ((vin.zip (vin.map heights)).foldl (fun lock e => lockInput block lock e.1 e.2) lock) =
        true ↔ evaluateSequenceLocks (child tip x) lock = true ∧
          ∀ txin ∈ vin, LockOpen block tip txin (heights txin) := by
    intro vin
    induction vin with
    | nil => simp
    | cons txin vin ih =>
      intro lock
      simp only [List.map_cons, List.zip_cons_cons, List.foldl_cons, ih,
        evaluate_lockInput, and_assoc, List.forall_mem_cons]
  unfold calculateSequenceLocks
  rw [← enforcesBIP68]
  by_cases henforce : enforcesBIP68 tx flags = true
  · simp only [henforce, Bool.not_true, Bool.false_eq_true, if_false, hfold,
      evaluateSequenceLocks_none, true_and, true_imp_iff]
  · simp [henforce, evaluateSequenceLocks_none]

/-- The coins of a node whose chain ends at `tip`: those in the database were made once, by
the block of their height, and those of the pool by no block of the chain. `Creates` is what
the blocks contain. -/
structure ChainCoins (Creates : BlockPtr → COutPoint → Prop) (tip : BlockPtr) (view : PoolView) :
    Prop where
  confirmed : ∀ o coin, view.base.coins.lookup o = some coin → coin.nHeight ≠ MEMPOOL_HEIGHT ∧
    ∃ a, tip.ancestorAt coin.nHeight.toNat = some a ∧ Creates a o
  once : ∀ o, ∀ a ∈ tip.path, ∀ a' ∈ tip.path, Creates a o → Creates a' o → a = a'
  pooled : ∀ o ptx, view.mempool o.hash = some ptx → ∀ a ∈ tip.path, ¬ Creates a o

/-- The height that `CheckSequenceLocks` takes for an input. -/
def inputHeight (tip : BlockPtr) (view : PoolView) (txin : CTxIn) : Nat :=
  ((view.getCoin txin.prevout).map (prevHeight tip)).getD 0

/-- The highest block of an input that counts and is confirmed. -/
def maxInputHeight (tx : CTransaction) (flags : BitVec 32) (tip : BlockPtr) (view : PoolView) : Nat :=
  ((heightsLeft tx flags (tx.vin.map (inputHeight tip view))).filter (· ≠ tip.height + 1)).foldl max 0

theorem checkSequenceLocks_recomputed (lp : LockPoints)
    (hexist : ∀ txin ∈ tx.vin, (view.getCoin txin.prevout).isSome) :
    checkSequenceLocks tx flags tip view lp false =
      let lockPair := calculateSequenceLocks tx flags (tx.vin.map (inputHeight tip view))
        (child tip emptyHeader)
      (evaluateSequenceLocks (child tip emptyHeader) lockPair,
        ⟨lockPair.1, lockPair.2, tip.ancestorAt (maxInputHeight tx flags tip view)⟩) := by
  have hnone : (tx.vin.any fun txin => (view.getCoin txin.prevout).isNone) = false := by
    rw [List.any_eq_false]
    intro txin hmem
    have hsome := hexist txin hmem
    rw [Option.isSome_iff_ne_none] at hsome
    simp [hsome]
  simp only [checkSequenceLocks, hnone, Bool.false_eq_true, if_false]
  rfl

theorem ChainCoins.pool_height (hpool : view.mempool txin.prevout.hash ≠ none)
    (hexist : (view.getCoin txin.prevout).isSome) : inputHeight tip view txin = tip.height + 1 := by
  obtain ⟨ptx, hptx⟩ := Option.ne_none_iff_exists'.mp hpool
  obtain ⟨coin, hcoin⟩ := Option.isSome_iff_exists.mp hexist
  have hget := hcoin
  simp only [PoolView.getCoin, hptx, Option.map_eq_some_iff] at hget
  obtain ⟨out, -, rfl⟩ := hget
  simp [inputHeight, hcoin, prevHeight]

theorem ChainCoins.confirmed_height (h : ChainCoins Creates tip view)
    (hpool : view.mempool txin.prevout.hash = none) (hexist : (view.getCoin txin.prevout).isSome) :
    ∃ a ∈ tip.path, a.height = inputHeight tip view txin ∧ Creates a txin.prevout := by
  obtain ⟨coin, hcoin⟩ := Option.isSome_iff_exists.mp hexist
  have hlookup := hcoin
  rw [PoolView.getCoin, hpool] at hlookup
  obtain ⟨hheight, a, ha, hcreates⟩ := h.confirmed _ _ hlookup
  obtain ⟨hmem, ha⟩ := ancestorAt_eq_some.mp ha
  refine ⟨a, hmem, ?_, hcreates⟩
  simp [inputHeight, hcoin, prevHeight, hheight, ha]

theorem ChainCoins.inputHeight_le (h : ChainCoins Creates tip view)
    (hexist : (view.getCoin txin.prevout).isSome) : inputHeight tip view txin ≤ tip.height + 1 := by
  by_cases hpool : view.mempool txin.prevout.hash = none
  · obtain ⟨a, hmem, hheight, -⟩ := h.confirmed_height hpool hexist
    exact hheight.symm.trans_le ((height_le_of_mem_path hmem).trans (Nat.le_succ _))
  · exact (ChainCoins.pool_height hpool hexist).le

theorem foldl_max_le_iff (l : List Nat) (m b : Nat) : l.foldl max m ≤ b ↔ m ≤ b ∧ ∀ k ∈ l, k ≤ b := by
  induction l generalizing m with
  | nil => simp
  | cons a l ih => simp [ih, and_assoc]

theorem heightsLeft_map (heights : CTxIn → Nat) : heightsLeft tx flags (tx.vin.map heights) =
    tx.vin.map fun txin =>
      if enforcesBIP68 tx flags = true ∧ txin.nSequence &&& SEQUENCE_LOCKTIME_DISABLE_FLAG ≠ 0 then 0
      else heights txin := by
  by_cases henforce : enforcesBIP68 tx flags = true
  · simp [heightsLeft, henforce, List.zipWith_map_right]
  · simp [heightsLeft, henforce]

theorem maxInputHeight_le_iff : maxInputHeight tx flags tip view ≤ b ↔ ∀ txin ∈ tx.vin,
    (enforcesBIP68 tx flags = true → txin.nSequence &&& SEQUENCE_LOCKTIME_DISABLE_FLAG = 0) →
      inputHeight tip view txin ≠ tip.height + 1 → inputHeight tip view txin ≤ b := by
  rw [maxInputHeight, foldl_max_le_iff, heightsLeft_map]
  simp only [Nat.zero_le, true_and, List.mem_filter, List.mem_map, decide_eq_true_eq, and_imp,
    forall_exists_index, forall_apply_eq_imp_iff₂]
  refine forall₂_congr fun txin _ => ?_
  by_cases hcounts : enforcesBIP68 tx flags = true ∧
    txin.nSequence &&& SEQUENCE_LOCKTIME_DISABLE_FLAG ≠ 0
  · simp only [if_pos hcounts, Nat.zero_le, implies_true, true_iff]
    exact fun h => absurd (h hcounts.1) hcounts.2
  · have himp : enforcesBIP68 tx flags = true →
      txin.nSequence &&& SEQUENCE_LOCKTIME_DISABLE_FLAG = 0 :=
      fun henforce => not_not.mp fun hne => hcounts ⟨henforce, hne⟩
    rw [if_neg hcounts]
    exact ⟨fun h _ => h, fun h => h himp⟩

/-- The inputs that were confirmed can be spent after `tip`. -/
def ConfirmedLocksOpen (tx : CTransaction) (flags : BitVec 32) (view₀ : PoolView) (tip : BlockPtr)
    (view : PoolView) : Prop :=
  enforcesBIP68 tx flags = true → ∀ txin ∈ tx.vin, view₀.mempool txin.prevout.hash = none →
    LockOpen (child tip emptyHeader) tip txin (inputHeight tip view txin)

/-- The chain has come to the height, or the median time, that it had when the lock of an
unconfirmed input was computed. -/
def LockReached (tip₀ tip : BlockPtr) (txin : CTxIn) : Prop :=
  txin.nSequence &&& SEQUENCE_LOCKTIME_DISABLE_FLAG = 0 →
    if txin.nSequence &&& SEQUENCE_LOCKTIME_TYPE_FLAG ≠ 0 then
      getMedianTimePast tip₀ ≤ getMedianTimePast tip
    else tip₀.height ≤ tip.height

def PoolLocksReached (tx : CTransaction) (flags : BitVec 32) (tip₀ : BlockPtr) (view₀ : PoolView)
    (tip : BlockPtr) : Prop :=
  enforcesBIP68 tx flags = true → ∀ txin ∈ tx.vin, view₀.mempool txin.prevout.hash ≠ none →
    LockReached tip₀ tip txin

section
variable {Creates : BlockPtr → COutPoint → Prop} {tx : CTransaction} {flags : BitVec 32}
  {tip₀ tip : BlockPtr} {view₀ view : PoolView}

theorem lockOpen_confirmed (h₀ : ChainCoins Creates tip₀ view₀) (h : ChainCoins Creates tip view)
    (hexist₀ : (view₀.getCoin txin.prevout).isSome) (hexist : (view.getCoin txin.prevout).isSome)
    (hpool : view₀.mempool txin.prevout.hash = none)
    (hmax : inputHeight tip₀ view₀ txin ≤ block.height) (hblock₀ : block ∈ tip₀.path)
    (hblock : block ∈ tip.path) :
    LockOpen (child tip₀ x) tip txin (inputHeight tip₀ view₀ txin) ↔
      LockOpen (child tip y) tip txin (inputHeight tip view txin) := by
  obtain ⟨a, hmem, hheight, hcreates⟩ := h₀.confirmed_height hpool hexist₀
  have hbelow : a ∈ block.path := by
    have hat := ancestorAt_of_mem_path hblock₀ (hheight.trans_le hmax)
    rw [ancestorAt_eq_some.mpr ⟨hmem, rfl⟩] at hat
    exact (ancestorAt_eq_some.mp hat.symm).1
  have hsame : inputHeight tip view txin = inputHeight tip₀ view₀ txin := by
    have hconfirmed : view.mempool txin.prevout.hash = none := by
      by_contra hne
      obtain ⟨ptx, hptx⟩ := Option.ne_none_iff_exists'.mp hne
      exact h.pooled _ _ hptx a (path_trans hbelow hblock) hcreates
    obtain ⟨a', hmem', hheight', hcreates'⟩ := h.confirmed_height hconfirmed hexist
    rw [← hheight', ← hheight, h.once _ a (path_trans hbelow hblock) a' hmem' hcreates hcreates']
  have hancestor : (child tip₀ x).ancestorAt (inputHeight tip₀ view₀ txin - 1) =
      (child tip y).ancestorAt (inputHeight tip₀ view₀ txin - 1) := by
    have hlow : inputHeight tip₀ view₀ txin - 1 ≤ block.height := (Nat.sub_le _ _).trans hmax
    rw [ancestorAt_of_mem_path (n := child tip₀ x) (List.mem_cons_of_mem _ hblock₀) hlow,
      ancestorAt_of_mem_path (n := child tip y) (List.mem_cons_of_mem _ hblock) hlow]
  rw [hsame, LockOpen, LockOpen, hancestor]

theorem lockOpen_pool (h : ChainCoins Creates tip view)
    (hmedian : ∀ a ∈ tip.path, getMedianTimePast a ≤ getMedianTimePast tip)
    (hexist₀ : (view₀.getCoin txin.prevout).isSome) (hexist : (view.getCoin txin.prevout).isSome)
    (hpool : view₀.mempool txin.prevout.hash ≠ none)
    (hopen : LockOpen (child tip₀ x) tip₀ txin (inputHeight tip₀ view₀ txin)) :
    LockOpen (child tip y) tip txin (inputHeight tip view txin) ∧
      (LockOpen (child tip₀ x) tip txin (inputHeight tip₀ view₀ txin) ↔
        LockReached tip₀ tip txin) := by
  have htip₀ : (child tip₀ x).ancestorAt (tip₀.height + 1 - 1) = some tip₀ :=
    ancestorAt_eq_some.mpr ⟨mem_path_parent tip₀ _, rfl⟩
  have hheight := h.inputHeight_le hexist
  obtain ⟨a, ha, hmem, -⟩ := ancestorAt_spec (n := tip)
    (k := inputHeight tip view txin - 1) (by omega)
  have hcoin : (child tip y).ancestorAt (inputHeight tip view txin - 1) = some a := by
    rw [← ha, ancestorAt_of_mem_path (mem_path_parent tip _) (by omega)]
  have hle := hmedian a hmem
  rw [ChainCoins.pool_height hpool hexist₀] at hopen ⊢
  unfold LockReached
  unfold LockOpen at hopen ⊢
  rw [htip₀] at hopen ⊢
  rw [hcoin]
  simp only [Option.map_some, Option.getD_some] at hopen ⊢
  by_cases hcounts : txin.nSequence &&& SEQUENCE_LOCKTIME_DISABLE_FLAG = 0
  · have hopen := hopen hcounts
    by_cases htype : txin.nSequence &&& SEQUENCE_LOCKTIME_TYPE_FLAG ≠ 0
    · rw [if_pos htype] at hopen
      simp only [if_pos htype]
      refine ⟨fun _ => by omega, forall_congr' fun _ => by omega⟩
    · rw [if_neg htype] at hopen
      simp only [if_neg htype]
      refine ⟨fun _ => by omega, forall_congr' fun _ => by omega⟩
  · exact ⟨fun hzero => absurd hzero hcounts, forall_congr' fun hzero => absurd hzero hcounts⟩

theorem checkSequenceLocks_recomputed_iff (lp : LockPoints)
    (hexist : ∀ txin ∈ tx.vin, (view.getCoin txin.prevout).isSome) :
    (checkSequenceLocks tx flags tip view lp false).1 = true ↔ (enforcesBIP68 tx flags = true →
      ∀ txin ∈ tx.vin, LockOpen (child tip emptyHeader) tip txin (inputHeight tip view txin)) := by
  rw [checkSequenceLocks_recomputed lp hexist]
  exact evaluate_calculateSequenceLocks (inputHeight tip view)

theorem checkSequenceLocks_stored (hexist₀ : ∀ txin ∈ tx.vin, (view₀.getCoin txin.prevout).isSome)
    {lp₀ lp : LockPoints} (hcheck : checkSequenceLocks tx flags tip₀ view₀ lp₀ false = (true, lp)) :
    lp.maxInputBlock = tip₀.ancestorAt (maxInputHeight tx flags tip₀ view₀) ∧ ∀ tip view,
      (checkSequenceLocks tx flags tip view lp true).1 = true ↔ (enforcesBIP68 tx flags = true →
        ∀ txin ∈ tx.vin, LockOpen (child tip₀ emptyHeader) tip txin
        (inputHeight tip₀ view₀ txin)) := by
  rw [checkSequenceLocks_recomputed lp₀ hexist₀] at hcheck
  obtain ⟨-, rfl⟩ := Prod.mk.inj hcheck
  exact ⟨rfl, fun tip view => evaluate_calculateSequenceLocks (inputHeight tip₀ view₀)⟩

/-- Lock points that `TestLockPointValidity` accepts answer as new ones would, unless nothing
but the lock of an input that was unconfirmed is closed. -/
theorem checkSequenceLocks_cached (h₀ : ChainCoins Creates tip₀ view₀)
    (h : ChainCoins Creates tip view) (hpass : HeadersPass params tip)
    (hexist₀ : ∀ txin ∈ tx.vin, (view₀.getCoin txin.prevout).isSome)
    (hexist : ∀ txin ∈ tx.vin, (view.getCoin txin.prevout).isSome) {lp₀ lp : LockPoints}
    (hcheck : checkSequenceLocks tx flags tip₀ view₀ lp₀ false = (true, lp))
    (hvalid : testLockPointValidity tip lp = true) :
    (checkSequenceLocks tx flags tip view lp true).1 =
    (checkSequenceLocks tx flags tip view lp false).1 ↔
      (ConfirmedLocksOpen tx flags view₀ tip view → PoolLocksReached tx flags tip₀ view₀ tip) := by
  have hopen₀ := (checkSequenceLocks_recomputed_iff lp₀ hexist₀).mp (congrArg Prod.fst hcheck)
  obtain ⟨hmaxBlock, hstored⟩ := checkSequenceLocks_stored hexist₀ hcheck
  have hmax : maxInputHeight tx flags tip₀ view₀ ≤ tip₀.height := by
    rw [maxInputHeight_le_iff]
    intro txin hmem _ hne
    have hle := h₀.inputHeight_le (hexist₀ txin hmem)
    omega
  obtain ⟨block, hblock₀, hmem₀, hheight⟩ := ancestorAt_spec hmax
  have hmem : block ∈ tip.path := by simpa [testLockPointValidity, hmaxBlock, hblock₀] using hvalid
  rw [Bool.eq_iff_iff, hstored, checkSequenceLocks_recomputed_iff lp hexist, ConfirmedLocksOpen,
    PoolLocksReached]
  by_cases henforce : enforcesBIP68 tx flags = true
  · simp only [henforce, true_imp_iff] at hopen₀ ⊢
    -- A confirmed input has one lock, an unconfirmed one is open now and may be closed in
    -- the cache.
    have hconfirmed : ∀ txin ∈ tx.vin, view₀.mempool txin.prevout.hash = none →
        (LockOpen (child tip₀ emptyHeader) tip txin (inputHeight tip₀ view₀ txin) ↔
          LockOpen (child tip emptyHeader) tip txin (inputHeight tip view txin)) := by
      intro txin htxin hnone
      by_cases hcounts : txin.nSequence &&& SEQUENCE_LOCKTIME_DISABLE_FLAG = 0
      · obtain ⟨a, ha, haheight, -⟩ := h₀.confirmed_height hnone (hexist₀ txin htxin)
        have hlow : inputHeight tip₀ view₀ txin ≤ block.height := by
          rw [hheight]
          refine maxInputHeight_le_iff.mp le_rfl txin htxin (fun _ => hcounts) ?_
          have := height_le_of_mem_path ha
          omega
        exact lockOpen_confirmed h₀ h (hexist₀ txin htxin) (hexist txin htxin) hnone hlow hmem₀ hmem
      · exact iff_of_true (fun hzero => absurd hzero hcounts) (fun hzero => absurd hzero hcounts)
    have hpooled := fun txin htxin hpool => lockOpen_pool (y := emptyHeader) h (fun a ha =>
      hpass.median_le ha) (hexist₀ txin htxin) (hexist txin htxin) hpool (hopen₀ txin htxin)
    have hsplit : ∀ P : CTxIn → Prop, (∀ txin ∈ tx.vin, P txin) ↔
        (∀ txin ∈ tx.vin, view₀.mempool txin.prevout.hash = none → P txin) ∧
        ∀ txin ∈ tx.vin, view₀.mempool txin.prevout.hash ≠ none → P txin := by
      refine fun P => ⟨fun hall => ⟨fun txin htxin _ => hall txin htxin, fun txin htxin _ =>
        hall txin htxin⟩, ?_⟩
      exact fun hall txin htxin => (em _).elim (hall.1 txin htxin) (hall.2 txin htxin)
    rw [hsplit fun txin => LockOpen (child tip₀ emptyHeader) tip txin (inputHeight tip₀ view₀ txin),
      hsplit fun txin => LockOpen (child tip emptyHeader) tip txin (inputHeight tip view txin),
      forall₃_congr hconfirmed, forall₃_congr fun txin htxin hpool => (hpooled txin htxin hpool).2,
      and_iff_left fun txin htxin hpool => (hpooled txin htxin hpool).1]
    exact and_iff_left_iff_imp
  · simp [henforce]

end

def unlockedSpend : CTransaction where
  nVersion := 2
  contract := ⟨ACTION_NONE, [], 0, []⟩
  vin := [⟨⟨7, 0⟩, [], 0, []⟩]
  vout := []
  nLockTime := 0

def parentPool : PoolView where
  mempool hash := if hash = 7 then some { unlockedSpend with vin := [], vout := [⟨0, []⟩] } else none
  base := .empty

def mixedSpend : CTransaction := { unlockedSpend with
  vin := ⟨⟨9, 0⟩, [], 1, []⟩ :: unlockedSpend.vin }

def nextTip : BlockPtr := child (.root unminedHeader) (easyHeader 1)

def CreatesMixed (a : BlockPtr) (o : COutPoint) : Prop :=
  a = .root unminedHeader ∧ o = ⟨9, 0⟩ ∨ a = nextTip ∧ o = ⟨7, 0⟩

def coinNine : CCoinsView := ⟨(∅ : Finmap fun _ : COutPoint => Coin).insert ⟨9, 0⟩
    ⟨⟨0, []⟩, false, 0⟩, 0⟩

def confirmedParent : PoolView where
  mempool _ := none
  base := ⟨coinNine.coins.insert ⟨7, 0⟩ ⟨⟨0, []⟩, false, 1⟩, 0⟩

theorem coinNine_lookup (h : coinNine.coins.lookup o = some coin) :
    o = ⟨9, 0⟩ ∧ coin = ⟨⟨0, []⟩, false, 0⟩ := by
  by_cases ho : o = ⟨9, 0⟩
  · subst ho
    rw [coinNine, Finmap.lookup_insert] at h
    exact ⟨rfl, (Option.some.inj h).symm⟩
  · rw [coinNine, Finmap.lookup_insert_of_ne _ ho, Finmap.lookup_empty] at h
    cases h

theorem createsMixed_once (h : CreatesMixed a o) (h' : CreatesMixed a' o) : a = a' := by
  rcases h with ⟨rfl, rfl⟩ | ⟨rfl, rfl⟩ <;> rcases h' with ⟨rfl, ho⟩ | ⟨rfl, ho⟩
  · rfl
  · cases ho
  · cases ho
  · rfl

theorem parentPool_coins : ChainCoins CreatesMixed (.root unminedHeader) { parentPool with
  base := coinNine } where
  confirmed o coin h := by
    obtain ⟨rfl, rfl⟩ := coinNine_lookup h
    exact ⟨by decide, _, rfl, .inl ⟨rfl, rfl⟩⟩
  once o a _ a' _ := createsMixed_once
  pooled o ptx h a ha := by
    rintro (⟨-, rfl⟩ | ⟨rfl, -⟩)
    · cases h
    · exact absurd ha (by decide)

theorem confirmedParent_coins : ChainCoins CreatesMixed nextTip confirmedParent where
  confirmed o coin h := by
    by_cases ho : o = ⟨7, 0⟩
    · subst ho
      rw [confirmedParent, Finmap.lookup_insert] at h
      obtain rfl := Option.some.inj h
      exact ⟨by decide, nextTip, rfl, .inr ⟨rfl, rfl⟩⟩
    · rw [confirmedParent, Finmap.lookup_insert_of_ne _ ho] at h
      obtain ⟨rfl, rfl⟩ := coinNine_lookup h
      exact ⟨by decide, _, rfl, .inl ⟨rfl, rfl⟩⟩
  once o a _ a' _ := createsMixed_once
  pooled o ptx h := by cases h

/-- One block later the pool transaction is confirmed, and the lock points of before still
answer. -/
theorem checkSequenceLocks_cached_next :
    testLockPointValidity nextTip ⟨0, -1, some (.root unminedHeader)⟩ = true ∧
    (checkSequenceLocks mixedSpend LOCKTIME_VERIFY_SEQUENCE nextTip confirmedParent
      ⟨0, -1, some (.root unminedHeader)⟩ true).1 =
    (checkSequenceLocks mixedSpend LOCKTIME_VERIFY_SEQUENCE nextTip confirmedParent
      ⟨0, -1, some (.root unminedHeader)⟩ false).1 := by
  have hpass : HeadersPass ⟨regTestParams, 0, [], false⟩ nextTip := ⟨trivial, none, 0, by decide⟩
  have hcheck : checkSequenceLocks mixedSpend LOCKTIME_VERIFY_SEQUENCE (.root unminedHeader)
      { parentPool with base := coinNine } ⟨0, 0, none⟩ false = (true,
      ⟨0, -1, some (.root unminedHeader)⟩) := by decide
  have hvalid : testLockPointValidity nextTip ⟨0, -1, some (.root unminedHeader)⟩ = true := by decide
  refine ⟨hvalid, (checkSequenceLocks_cached parentPool_coins confirmedParent_coins hpass (by decide)
    (by decide) hcheck hvalid).mpr ?_⟩
  rintro - - txin - - -
  split
  · decide
  · decide

/-- After one block is disconnected the transaction is still as good as before, and the lock points
that count as valid say that it is not. -/
theorem checkSequenceLocks_cached_shorter :
    let tip := child (.root unminedHeader) (easyHeader 1)
    let tip₀ := child tip (easyHeader 2)
    HeadersPass ⟨regTestParams, 0, [], false⟩ tip₀ ∧
      ∃ lp, checkSequenceLocks unlockedSpend LOCKTIME_VERIFY_SEQUENCE tip₀ parentPool ⟨0, 0,
      none⟩ false = (true, lp) ∧
        testLockPointValidity tip lp = true ∧
        (checkSequenceLocks unlockedSpend LOCKTIME_VERIFY_SEQUENCE tip parentPool lp true).1 = false ∧
        (checkSequenceLocks unlockedSpend LOCKTIME_VERIFY_SEQUENCE tip parentPool lp false).1 =
        true :=
  ⟨⟨⟨trivial, none, 0, by decide⟩, none, 0, by decide⟩,
    ⟨2, -1, some (.root unminedHeader)⟩, by decide⟩

end OurChain
