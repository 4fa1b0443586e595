import OurChain.Validation.Header
import OurChain.Lib.Tree

/-!
# Checks of a header in its chain

What the index knows about the chain below a header, and the checks of
`ContextualCheckBlockHeader`. None of them reads `hashGPoW`: neither that of the
header nor that of an entry below it.
-/

namespace OurChain

/-- A `CBlockIndex*`: the header fields of the entry on top of the entry that it has
as `pprev`. -/
abbrev BlockPtr := Node CBlockHeader

/-- The consensus parameters, the checkpoints by increasing height, and whether they
are used. -/
structure ChainParams where
  consensus : ConsensusParams
  hashGenesisBlock : Uint256
  mapCheckpoints : List (Int × Uint256)
  fCheckpointsEnabled : Bool

def MAX_FUTURE_BLOCK_TIME : Int := 2 * 60 * 60
def nMedianTimeSpan : Nat := 11

def nChainWork : BlockPtr → Uint256
  | .root block => 0#256 + getBlockProof block.nBits
  | .child pprev block => nChainWork pprev + getBlockProof block.nBits

def getBlockTime (block : CBlockHeader) : Int := block.nTime.toNat

def getMedianTimePast (pindex : BlockPtr) : Int :=
  let pmedian := (pindex.path.take nMedianTimeSpan).map fun p => getBlockTime p.value
  let pmedian := pmedian.insertionSort (· ≤ ·)
  pmedian.getD (pmedian.length / 2) 0

theorem getMedianTimePast_nonneg (pindex : BlockPtr) : 0 ≤ getMedianTimePast pindex := by
  have htimes : ∀ time ∈ ((pindex.path.take nMedianTimeSpan).map fun p =>
    getBlockTime p.value).insertionSort (· ≤ ·),
      0 ≤ time := by
    intro time htime
    obtain ⟨p, -, rfl⟩ := List.mem_map.mp ((List.mem_insertionSort _).mp htime)
    exact Int.natCast_nonneg _
  unfold getMedianTimePast
  rw [List.getD_eq_getElem?_getD]
  generalize hindex : List.length _ / 2 = k
  cases htime : (((pindex.path.take nMedianTimeSpan).map fun p => getBlockTime p.value).insertionSort
    (· ≤ ·))[k]? with
  | none => exact Int.le_refl 0
  | some time => exact htimes time (List.mem_of_getElem? htime)

/-- The bits of the last block that is not a minimum-difficulty exception. -/
def lastRegularBits (interval : Int) (nProofOfWorkLimit : BitVec 32) : BlockPtr → BitVec 32
  | .root block => block.nBits
  | .child pprev block =>
    if ((Node.child pprev block).height : Int).tmod interval ≠ 0 ∧ block.nBits = nProofOfWorkLimit
    then lastRegularBits interval nProofOfWorkLimit pprev
    else block.nBits

def getNextWorkRequired (params : ConsensusParams) (pindexLast : BlockPtr) (pblock : CBlockHeader) :
    BitVec 32 :=
  let nProofOfWorkLimit := getCompact params.powLimit
  let interval := params.difficultyAdjustmentInterval
  if ((pindexLast.height : Int) + 1).tmod interval ≠ 0 then
    if params.fPowAllowMinDifficultyBlocks then
      if getBlockTime pindexLast.value + params.nPowTargetSpacing * 2 < getBlockTime pblock then
        nProofOfWorkLimit
      else lastRegularBits interval nProofOfWorkLimit pindexLast
    else pindexLast.value.nBits
  else
    let nHeightFirst := (pindexLast.height : Int) - (interval - 1)
    let pindexFirst := (pindexLast.ancestorAt nHeightFirst.toNat).getD pindexLast
    calculateNextWorkRequired params pindexLast.value.nBits (getBlockTime pindexLast.value)
      (getBlockTime pindexFirst.value)

/-- The highest checkpoint that `find`, the lookup in `mapBlockIndex`, knows. -/
def getLastCheckpoint (params : ChainParams) (find : Uint256 → Option BlockPtr) : Option BlockPtr :=
  params.mapCheckpoints.reverse.findSome? fun (_, hash) => find hash

def contextualCheckBlockHeader (params : ChainParams) (pcheckpoint : Option BlockPtr)
    (block : CBlockHeader) (pindexPrev : BlockPtr) (nAdjustedTime : Int) : Except Reject Unit :=
  let nHeight : Int := pindexPrev.height + 1
  let consensusParams := params.consensus
  if block.nBits ≠ getNextWorkRequired consensusParams pindexPrev block then
    .error ⟨100, REJECT_INVALID, "bad-diffbits", false, "incorrect proof of work"⟩
  else if params.fCheckpointsEnabled ∧ pcheckpoint.any (fun p => nHeight < p.height) then
    .error ⟨100, REJECT_CHECKPOINT, "bad-fork-prior-to-checkpoint", false, ""⟩
  else if getBlockTime block ≤ getMedianTimePast pindexPrev then
    .error ⟨0, REJECT_INVALID, "time-too-old", false, "block's timestamp is too early"⟩
  else if nAdjustedTime + MAX_FUTURE_BLOCK_TIME < getBlockTime block then
    .error ⟨0, REJECT_INVALID, "time-too-new", false, "block timestamp too far in the future"⟩
  else if (block.nVersion.toInt < 2 ∧ consensusParams.BIP34Height ≤ nHeight) ∨
      (block.nVersion.toInt < 3 ∧ consensusParams.BIP66Height ≤ nHeight) ∨
      (block.nVersion.toInt < 4 ∧ consensusParams.BIP65Height ≤ nHeight) then
    .error ⟨0, REJECT_OBSOLETE, "bad-version(0x" ++ block.nVersion.toHex ++ ")", false,
      "rejected nVersion=0x" ++ block.nVersion.toHex ++ " block"⟩
  else .ok ()

theorem getLastCheckpoint_congr (params : ChainParams) {find find' : Uint256 → Option BlockPtr}
    (h : ∀ cp ∈ params.mapCheckpoints, find cp.2 = find' cp.2) :
    getLastCheckpoint params find = getLastCheckpoint params find' := by
  unfold getLastCheckpoint
  replace h : ∀ cp ∈ params.mapCheckpoints.reverse, find cp.2 = find' cp.2 := by simpa using h
  generalize params.mapCheckpoints.reverse = cps at h ⊢
  induction cps with
  | nil => rfl
  | cons cp cps ih =>
    obtain ⟨hcp, hcps⟩ := List.forall_mem_cons.mp h
    simp only [List.findSome?_cons, hcp, ih hcps]

/-- A change of headers that keeps every field but `hashGPoW`. -/
structure KeepsHashed (f : CBlockHeader → CBlockHeader) : Prop where
  eq : ∀ block, f block = { block with hashGPoW := (f block).hashGPoW }

namespace KeepsHashed

variable {f : CBlockHeader → CBlockHeader} (hf : KeepsHashed f)
include hf

variable (block : CBlockHeader)

theorem time_eq : getBlockTime (f block) = getBlockTime block := by
  rw [hf.eq]
  rfl

theorem nBits_eq : (f block).nBits = block.nBits := by rw [hf.eq]

theorem hashPrevBlock_eq : (f block).hashPrevBlock = block.hashPrevBlock := by
  rw [hf.eq]

theorem getHash_eq (H : Bytes → Uint256) (block : CBlockHeader) :
    (f block).getHash H = block.getHash H := by
  rw [hf.eq, getHash_hashGPoW]

theorem medianTimePast_eq (n : BlockPtr) : getMedianTimePast (n.map f) = getMedianTimePast n := by
  have htimes : ((n.map f).path.take nMedianTimeSpan).map (fun p => getBlockTime p.value) =
      (n.path.take nMedianTimeSpan).map fun p => getBlockTime p.value := by
    rw [Node.path_map, ← List.map_take, List.map_map]
    apply List.map_congr_left
    intro a _
    simp [hf.time_eq]
  simp only [getMedianTimePast, htimes]

theorem lastRegularBits_eq (interval : Int) (limit : BitVec 32) (n : BlockPtr) :
    lastRegularBits interval limit (n.map f) = lastRegularBits interval limit n := by
  induction n with
  | root a => exact hf.nBits_eq a
  | child p a ih =>
    have hheight : (Node.child (p.map f) (f a)).height = (Node.child p a).height := by
      simp [Node.height]
    simp only [Node.map, lastRegularBits, hheight, hf.nBits_eq, ih]

theorem nextWork_eq (params : ConsensusParams) (n : BlockPtr) (block : CBlockHeader) :
    getNextWorkRequired params (n.map f) block = getNextWorkRequired params n block := by
  have hfirst : ∀ k, getBlockTime (((n.map f).ancestorAt k).getD (n.map f)).value =
      getBlockTime ((n.ancestorAt k).getD n).value := by
    intro k
    rw [Node.ancestorAt_map]
    cases n.ancestorAt k <;> simp [hf.time_eq]
  simp only [getNextWorkRequired, Node.height_map, hfirst, hf.time_eq,
    hf.lastRegularBits_eq, Node.value_map, hf.nBits_eq]

theorem context_eq (params : ChainParams) (pcheckpoint : Option BlockPtr)
    (block : CBlockHeader) (n : BlockPtr) (nAdjustedTime : Int) :
    contextualCheckBlockHeader params pcheckpoint block (n.map f) nAdjustedTime =
      contextualCheckBlockHeader params pcheckpoint block n nAdjustedTime := by
  simp only [contextualCheckBlockHeader, hf.nextWork_eq, hf.medianTimePast_eq,
    Node.height_map]

end KeepsHashed

end OurChain
