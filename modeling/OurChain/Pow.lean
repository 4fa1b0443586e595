import OurChain.Primitives.Block

/-!
# Targets and proof of work

The compact form of a target (`arith_uint256.cpp`) and the checks of `pow.cpp`
that are built on it.
-/

namespace OurChain

structure ConsensusParams where
  BIP34Height : Int
  BIP65Height : Int
  BIP66Height : Int
  powLimit : Uint256
  fPowAllowMinDifficultyBlocks : Bool
  fPowNoRetargeting : Bool
  nPowTargetSpacing : Int
  nPowTargetTimespan : Int

def ConsensusParams.difficultyAdjustmentInterval (params : ConsensusParams) : Int :=
  params.nPowTargetTimespan.tdiv params.nPowTargetSpacing

-- `CMainParams` and `CRegTestParams` of `chainparams.cpp`.
def mainParams : ConsensusParams where
  BIP34Height := 227931
  BIP65Height := 388381
  BIP66Height := 363725
  powLimit := 0x0000007fffffffffffffffffffffffffffffffffffffffffffffffffffffffff
  fPowAllowMinDifficultyBlocks := false
  fPowNoRetargeting := false
  nPowTargetSpacing := 10 * 60
  nPowTargetTimespan := 14 * 24 * 60 * 60

def regTestParams : ConsensusParams where
  BIP34Height := 0
  BIP65Height := 1351
  BIP66Height := 1251
  powLimit := 0x7fffffffffffffffffffffffffffffffffffffffffffffffffffffffffffffff
  fPowAllowMinDifficultyBlocks := true
  fPowNoRetargeting := true
  nPowTargetSpacing := 10 * 60
  nPowTargetTimespan := 14 * 24 * 60 * 60

def setCompact (nCompact : BitVec 32) : Uint256 × Bool × Bool :=
  let nSize := (nCompact >>> 24).toNat
  let nWord := nCompact &&& 0x007fffff#32
  let nWord := if nSize ≤ 3 then nWord >>> (8 * (3 - nSize)) else nWord
  let target : Uint256 :=
    if nSize ≤ 3 then nWord.setWidth 256 else nWord.setWidth 256 <<< (8 * (nSize - 3))
  let fNegative := nWord != 0#32 && nCompact &&& 0x00800000#32 != 0#32
  let fOverflow := nWord != 0#32 && (decide (34 < nSize) ||
    (decide (0xff#32 < nWord) && decide (33 < nSize)) ||
    (decide (0xffff#32 < nWord) && decide (32 < nSize)))
  (target, fNegative, fOverflow)

/-- Position of the highest bit that is set, plus one; zero has none. -/
def bits (x : Uint256) : Nat := if x = 0 then 0 else x.toNat.log2 + 1

def getCompact (x : Uint256) : BitVec 32 :=
  let nSize := (bits x + 7) / 8
  let nCompact : BitVec 32 :=
    if nSize ≤ 3 then (x.setWidth 64 <<< (8 * (3 - nSize))).setWidth 32
    else ((x >>> (8 * (nSize - 3))).setWidth 64).setWidth 32
  -- The 0x00800000 bit denotes the sign.
  if nCompact &&& 0x00800000#32 ≠ 0 then
    (nCompact >>> 8) ||| (BitVec.ofNat 32 (nSize + 1) <<< 24)
  else nCompact ||| (BitVec.ofNat 32 nSize <<< 24)

def checkProofOfWork (params : ConsensusParams) (hash : Uint256) (nBits : BitVec 32) : Bool :=
  let (bnTarget, fNegative, fOverflow) := setCompact nBits
  if fNegative || bnTarget == 0 || fOverflow || decide (params.powLimit < bnTarget) then false
  else if bnTarget < hash then false
  else true

def validTarget (params : ConsensusParams) (nBits : BitVec 32) : Option Uint256 :=
  let (bnTarget, fNegative, fOverflow) := setCompact nBits
  if fNegative || bnTarget == 0 || fOverflow || decide (params.powLimit < bnTarget) then none
  else some bnTarget

theorem checkProofOfWork_iff (params : ConsensusParams) (hash : Uint256) (nBits : BitVec 32) :
    checkProofOfWork params hash nBits = true ↔
      ∃ target, validTarget params nBits = some target ∧ hash ≤ target := by
  unfold checkProofOfWork validTarget
  rcases setCompact nBits with ⟨bnTarget, fNegative, fOverflow⟩
  dsimp only
  split
  · simp
  · simp [BitVec.not_lt]

/-- The work of one block with this `nBits`: `2^256 / (target + 1)`. -/
def getBlockProof (nBits : BitVec 32) : Uint256 :=
  let (bnTarget, fNegative, fOverflow) := setCompact nBits
  if fNegative || fOverflow || bnTarget == 0 then 0
  else (~~~bnTarget / (bnTarget + 1)) + 1

def calculateNextWorkRequired (params : ConsensusParams) (nBits : BitVec 32)
    (nLastBlockTime nFirstBlockTime : Int) : BitVec 32 :=
  if params.fPowNoRetargeting then nBits
  else
    let nActualTimespan := nLastBlockTime - nFirstBlockTime
    let nActualTimespan := max nActualTimespan (params.nPowTargetTimespan.tdiv 4)
    let nActualTimespan := min nActualTimespan (params.nPowTargetTimespan * 4)
    let bnNew := (setCompact nBits).1
    -- `*=` takes a `uint32_t`, `/=` an `arith_uint256` made from a `uint64_t`
    let bnNew := bnNew * (BitVec.ofInt 32 nActualTimespan).setWidth 256
    let bnNew := bnNew / (BitVec.ofInt 64 params.nPowTargetTimespan).setWidth 256
    getCompact (if params.powLimit < bnNew then params.powLimit else bnNew)

end OurChain
