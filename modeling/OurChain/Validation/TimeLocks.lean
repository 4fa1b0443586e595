import OurChain.Consensus.TxContext
import OurChain.Lib.OrderStatistic

/-!
# Time locks

Block times may go down along a chain, their median does not: a header has to be later
than the median of the blocks below it. So a lock that is open for the block after
some block stays open on every continuation of its chain.
-/

namespace OurChain

open Node (child)

def medianTimes (pindex : BlockPtr) : List Int :=
  (pindex.path.take nMedianTimeSpan).map fun p => getBlockTime p.value

theorem getMedianTimePast_eq_median (pindex : BlockPtr) :
    getMedianTimePast pindex = OrderStatistic.median 0 (medianTimes pindex) := by
  simp [getMedianTimePast, OrderStatistic.median, medianTimes]

theorem medianTimes_ne_nil (pindex : BlockPtr) : medianTimes pindex ≠ [] := by
  cases pindex <;> simp [medianTimes, Node.path, nMedianTimeSpan]

theorem medianTimes_child (p : BlockPtr) (block : CBlockHeader) :
    medianTimes (child p block) = getBlockTime block :: (medianTimes p).take
    (nMedianTimeSpan - 1) := by
  simp [medianTimes, Node.path, nMedianTimeSpan, Node.value, List.take_take, ← List.map_take]

theorem length_medianTimes_le (p : BlockPtr) (block : CBlockHeader) :
    (medianTimes p).length ≤ (medianTimes (child p block)).length := by
  have hwindow : (medianTimes p).length ≤ nMedianTimeSpan := by simp [medianTimes]
  rw [medianTimes_child, List.length_cons, List.length_take]
  unfold nMedianTimeSpan at *
  omega

theorem getMedianTimePast_le_child (h : getMedianTimePast p < getBlockTime block) :
    getMedianTimePast p ≤ getMedianTimePast (child p block) := by
  rw [getMedianTimePast_eq_median] at h
  rw [getMedianTimePast_eq_median, getMedianTimePast_eq_median]
  refine OrderStatistic.median_le_median (medianTimes_ne_nil p) (length_medianTimes_le p block) ?_
  rw [medianTimes_child, List.countP_cons_of_neg (by simpa using h.le)]
  exact (List.take_sublist _ _).countP_le

/-- Every header above the root passed its check, with the checkpoint and the clock of
that moment. -/
def HeadersPass (params : ChainParams) : BlockPtr → Prop
  | .root _ => True
  | .child pprev block => HeadersPass params pprev ∧ ∃ pcheckpoint nAdjustedTime,
    contextualCheckBlockHeader params pcheckpoint block pprev nAdjustedTime = .ok ()

theorem time_of_contextualCheckBlockHeader
    (h : contextualCheckBlockHeader params pcheckpoint block pindexPrev nAdjustedTime = .ok ()) :
    getMedianTimePast pindexPrev < getBlockTime block := by
  unfold contextualCheckBlockHeader at h
  dsimp only at h
  split at h
  · cases h
  · split at h
    · cases h
    · split at h
      · cases h
      · rename_i htime
        exact not_le.mp htime

theorem HeadersPass.median_le_child (h : HeadersPass params (child p block)) :
    getMedianTimePast p ≤ getMedianTimePast (child p block) := by
  obtain ⟨-, pcheckpoint, nAdjustedTime, hpass⟩ := h
  exact getMedianTimePast_le_child (time_of_contextualCheckBlockHeader hpass)

theorem HeadersPass.median_le (h : HeadersPass params d) (hb : b ∈ d.path) :
    getMedianTimePast b ≤ getMedianTimePast d := by
  induction d with
  | root x =>
    cases List.mem_singleton.mp hb
    exact le_rfl
  | child p x ih =>
    rcases Node.mem_path_child hb with rfl | hb
    · exact le_rfl
    · exact (ih h.1 hb).trans h.median_le_child

theorem HeadersPass.of_mem_path (h : HeadersPass params d) (hb : b ∈ d.path) :
    HeadersPass params b := by
  induction d with
  | root x =>
    cases List.mem_singleton.mp hb
    exact h
  | child p x ih =>
    rcases Node.mem_path_child hb with rfl | hb
    · exact h
    · exact ih h.1 hb

theorem isFinalTx_mono (hheight : nBlockHeight ≤ nBlockHeight') (htime : nBlockTime ≤ nBlockTime')
    (h : isFinalTx tx nBlockHeight nBlockTime = true) :
    isFinalTx tx nBlockHeight' nBlockTime' = true := by
  unfold isFinalTx at h ⊢
  by_cases hzero : (tx.nLockTime.toNat : Int) = 0
  · simp [hzero]
  · rw [if_neg hzero] at h ⊢
    by_cases hpassed : (tx.nLockTime.toNat : Int) <
        if (tx.nLockTime.toNat : Int) < LOCKTIME_THRESHOLD then nBlockHeight else nBlockTime
    · rw [if_pos]
      refine hpassed.trans_le ?_
      split
      · exact hheight
      · exact htime
    · rw [if_neg hpassed] at h
      rw [h, ite_self]

theorem calculateSequenceLocks_congr {block block' : BlockPtr} (tx : CTransaction) (flags : BitVec 32)
    (h : ∀ nCoinHeight ∈ prevHeights, block.ancestorAt (nCoinHeight - 1) = block'.ancestorAt
    (nCoinHeight - 1)) :
    calculateSequenceLocks tx flags prevHeights block =
    calculateSequenceLocks tx flags prevHeights block' := by
  unfold calculateSequenceLocks
  dsimp only
  congr 1
  refine List.foldl_ext _ _ _ fun lock x hx => ?_
  simp only [lockInput, h x.2 (List.of_mem_zip hx).2]

theorem evaluateSequenceLocks_child : evaluateSequenceLocks (child b x) lockPair = true ↔
    lockPair.1 < b.height + 1 ∧ lockPair.2 < getMedianTimePast b := by
  simp [evaluateSequenceLocks, Node.pprev, Node.height]

theorem sequenceLocks_descendant {b d : BlockPtr} (hb : b ∈ d.path)
    (htime : getMedianTimePast b ≤ getMedianTimePast d)
    (hheights : ∀ nCoinHeight ∈ prevHeights, nCoinHeight ≤ b.height + 1 ∨
      nCoinHeight = b.height + 2 ∧ child b x ∈ (child d y).path)
    (h : sequenceLocks tx flags prevHeights (child b x) = true) :
    sequenceLocks tx flags prevHeights (child d y) = true := by
  have hb' : b ∈ (child d y).path := List.mem_cons_of_mem _ hb
  have hancestors : ∀ nCoinHeight ∈ prevHeights,
      (child b x).ancestorAt (nCoinHeight - 1) = (child d y).ancestorAt (nCoinHeight - 1) := by
    intro nCoinHeight hmem
    rcases hheights nCoinHeight hmem with hle | ⟨heq, hnext⟩
    · have hself : b ∈ (child b x).path := Node.mem_path_parent b _
      rw [Node.ancestorAt_of_mem_path hself (by omega), Node.ancestorAt_of_mem_path hb' (by omega)]
    · exact (Node.ancestorAt_of_mem_path hnext (by rw [heq]; exact le_rfl)).symm
  unfold sequenceLocks at h ⊢
  rw [← calculateSequenceLocks_congr tx flags hancestors]
  obtain ⟨hlow, hearly⟩ := evaluateSequenceLocks_child.mp h
  have hheight := Node.height_le_of_mem_path hb
  exact evaluateSequenceLocks_child.mpr ⟨by omega, hearly.trans_le htime⟩

theorem time_locks_stay_open {b d : BlockPtr} (hpass : HeadersPass params d) (hb : b ∈ d.path) :
    (∀ pprev block, child pprev block ∈ d.path →
      getMedianTimePast pprev ≤ getMedianTimePast (child pprev block)) ∧
    (∀ tx, isFinalTx tx (b.height + 1) (getMedianTimePast b) = true →
      isFinalTx tx (d.height + 1) (getMedianTimePast d) = true) ∧
    ∀ tx flags prevHeights x y,
      (∀ nCoinHeight ∈ prevHeights, nCoinHeight ≤ b.height + 1 ∨
        nCoinHeight = b.height + 2 ∧ child b x ∈ (child d y).path) →
      sequenceLocks tx flags prevHeights (child b x) = true →
      sequenceLocks tx flags prevHeights (child d y) = true := by
  have htime := hpass.median_le hb
  have hheight := Node.height_le_of_mem_path hb
  refine ⟨fun pprev block hmem => (hpass.of_mem_path hmem).median_le_child,
    fun tx h => isFinalTx_mono (by omega) htime h,
    fun tx flags prevHeights x y hheights h => sequenceLocks_descendant hb htime hheights h⟩

def easyHeader (nTime : BitVec 32) : CBlockHeader := { unminedHeader with nVersion := 4, nTime }

/-- A transaction with a lock time of one block, and a lock of one block on its input. -/
def lockedTx : CTransaction where
  nVersion := 2
  contract := ⟨ACTION_NONE, [], 0, []⟩
  vin := [⟨⟨7, 0⟩, [], 1, []⟩]
  vout := []
  nLockTime := 1

theorem time_locks_stay_open_later :
    let b := child (.root unminedHeader) (easyHeader 1)
    let d := child b (easyHeader 2)
    getMedianTimePast b ≤ getMedianTimePast d ∧
      isFinalTx lockedTx (d.height + 1) (getMedianTimePast d) = true ∧
      sequenceLocks lockedTx LOCKTIME_VERIFY_SEQUENCE [1] (child d (easyHeader 3)) = true := by
  intro b d
  have hpass : HeadersPass ⟨regTestParams, 0, [], false⟩ d :=
    ⟨⟨trivial, none, 0, by decide⟩, none, 0, by decide⟩
  obtain ⟨hmedian, hfinal, hlocks⟩ := time_locks_stay_open hpass (Node.mem_path_parent b _)
  refine ⟨hmedian b _ (Node.mem_path_self d), hfinal lockedTx (by decide), ?_⟩
  exact hlocks lockedTx LOCKTIME_VERIFY_SEQUENCE [1] (easyHeader 3) (easyHeader 3)
    (by decide) (by decide)

end OurChain
