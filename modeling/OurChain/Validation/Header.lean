import OurChain.Pow

/-!
# Header checks

`CheckBlockHeader` of the GPoW build, and what its acceptance of a header says
about the group proof of work that `hashGPoW` stands for.
-/

namespace OurChain

/-- What a failed check leaves in `CValidationState`. -/
structure Reject where
  nDoS : Nat
  chRejectCode : BitVec 8
  strRejectReason : String
  corruptionPossible : Bool
  strDebugMessage : String
  deriving DecidableEq

def REJECT_INVALID : BitVec 8 := 0x10
def REJECT_OBSOLETE : BitVec 8 := 0x11
def REJECT_CHECKPOINT : BitVec 8 := 0x43

def checkBlockHeader (params : ConsensusParams) (block : CBlockHeader) (fCheckPOW : Bool) :
    Except Reject Unit :=
  if fCheckPOW && !checkProofOfWork params block.hashGPoW block.nBits then
    .error ⟨50, REJECT_INVALID, "high-hash", false, "proof of work failed"⟩
  else .ok ()

theorem checkBlockHeader_ok_iff (params : ConsensusParams) (block : CBlockHeader) :
    checkBlockHeader params block true = .ok () ↔
      ∃ target, validTarget params block.nBits = some target ∧ block.hashGPoW ≤ target := by
  rw [← checkProofOfWork_iff]
  unfold checkBlockHeader
  cases checkProofOfWork params block.hashGPoW block.nBits <;> simp

def GPOW_M : Nat := 8

section
variable (H : Bytes → Uint256) (block : CBlockHeader)

def hashAt (nonce : BitVec 32) : Uint256 :=
  CBlockHeader.getHash H { block with nNonce := nonce }

/-- `value` is the floor of the mean of the hashes of `block` at `GPOW_M` nonces,
none of them above `target`. -/
def IsGroupMean (target value : Uint256) : Prop :=
  ∃ nonces : Finset (BitVec 32), nonces.card = GPOW_M ∧
    (∀ nonce ∈ nonces, hashAt H block nonce ≤ target) ∧
    value.toNat = (∑ nonce ∈ nonces, (hashAt H block nonce).toNat) / GPOW_M

def GenuineGPoW : Prop :=
  IsGroupMean H block (setCompact block.nBits).1 block.hashGPoW

end

theorem validTarget_eq_some (h : validTarget params nBits = some target) :
    (setCompact nBits).1 = target := by
  simp only [validTarget] at h
  split at h
  · cases h
  · exact Option.some.inj h

theorem exists_not_isGroupMean (H : Bytes → Uint256) (block : CBlockHeader) (target : Uint256)
    (h : Nat.choose (2 ^ 32) GPOW_M ≤ target.toNat) :
    ∃ value, value ≤ target ∧ ¬ IsGroupMean H block target value := by
  by_contra hall
  push Not at hall
  -- Every value up to the target would be the mean of a group of its own.
  let mean (nonces : Finset (BitVec 32)) : Nat :=
    (∑ nonce ∈ nonces, (hashAt H block nonce).toNat) / GPOW_M
  have hsub : Finset.range (target.toNat + 1) ⊆
      (Finset.powersetCard GPOW_M Finset.univ).image mean := by
    intro n hn
    have hval : (BitVec.ofNat 256 n).toNat = n := by
      have := Finset.mem_range.mp hn
      simp only [BitVec.toNat_ofNat]
      omega
    have hle : BitVec.ofNat 256 n ≤ target := by
      rw [BitVec.le_def, hval]
      exact Nat.lt_succ_iff.mp (Finset.mem_range.mp hn)
    obtain ⟨nonces, hcard, -, hmean⟩ := hall _ hle
    refine Finset.mem_image.mpr ⟨nonces, ?_, ?_⟩
    · exact Finset.mem_powersetCard.mpr ⟨Finset.subset_univ _, hcard⟩
    · exact hmean.symm.trans hval
  have hnonces : Fintype.card (BitVec 32) = 2 ^ 32 :=
    (Fintype.card_congr BitVec.equivFin.toEquiv).trans (Fintype.card_fin _)
  have hcard : target.toNat + 1 ≤ Nat.choose (2 ^ 32) GPOW_M := by
    calc target.toNat + 1 = (Finset.range (target.toNat + 1)).card := (Finset.card_range _).symm
      _ ≤ ((Finset.powersetCard GPOW_M Finset.univ).image mean).card := Finset.card_le_card hsub
      _ ≤ (Finset.powersetCard GPOW_M (Finset.univ : Finset (BitVec 32))).card :=
        Finset.card_image_le
      _ = Nat.choose (2 ^ 32) GPOW_M := by
        rw [Finset.card_powersetCard, Finset.card_univ, hnonces]
  omega

/-- The check never looks at a nonce: it accepts only genuine values of `hashGPoW`
exactly when all values up to the target are group means, and no hash function is
like that once the target exceeds the number of groups. -/
theorem checkBlockHeader_genuine_iff (params : ConsensusParams) (H : Bytes → Uint256)
    (block : CBlockHeader) :
    ((∀ hashGPoW, checkBlockHeader params { block with hashGPoW } true = .ok () →
        GenuineGPoW H { block with hashGPoW }) ↔
      ∀ target, validTarget params block.nBits = some target →
        ∀ value ≤ target, IsGroupMean H block target value) ∧
    ∀ target, validTarget params block.nBits = some target →
      Nat.choose (2 ^ 32) GPOW_M ≤ target.toNat →
      ∃ hashGPoW, checkBlockHeader params { block with hashGPoW } true = .ok () ∧
        ¬ GenuineGPoW H { block with hashGPoW } := by
  refine ⟨⟨?_, ?_⟩, ?_⟩
  · intro h target ht value hle
    have hgen := h value ((checkBlockHeader_ok_iff _ _).mpr ⟨target, ht, hle⟩)
    rwa [GenuineGPoW, validTarget_eq_some ht] at hgen
  · intro h hashGPoW hacc
    obtain ⟨target, ht, hle⟩ := (checkBlockHeader_ok_iff _ _).mp hacc
    have hmean := h target ht hashGPoW hle
    rwa [← validTarget_eq_some ht] at hmean
  · intro target ht hcount
    obtain ⟨value, hle, hnot⟩ := exists_not_isGroupMean H block target hcount
    refine ⟨value, (checkBlockHeader_ok_iff _ _).mpr ⟨target, ht, hle⟩, ?_⟩
    rw [GenuineGPoW, validTarget_eq_some ht]
    exact hnot

def unminedHeader : CBlockHeader where
  nVersion := 1
  hashPrevBlock := 0
  hashMerkleRoot := 0
  hashContractState := 0
  nTime := 0
  nBits := 0x1d7fffff
  nNonce := 0
  nPrecisionTime := 0
  hashGPoW := 0

theorem unminedHeader_accepted :
    checkBlockHeader mainParams unminedHeader true = .ok () ∧
      ¬ GenuineGPoW (fun _ => BitVec.allOnes 256) unminedHeader := by
  refine ⟨by decide, ?_⟩
  rintro ⟨nonces, hcard, hle, -⟩
  -- No hash is below the target, but a group is not empty.
  obtain ⟨nonce, hmem⟩ : nonces.Nonempty := Finset.card_pos.mp (by rw [hcard]; decide)
  have hones : BitVec.allOnes 256 ≤ (setCompact unminedHeader.nBits).1 := hle nonce hmem
  exact absurd hones (by decide)

theorem unminedHeader_regTest : ∃ hashGPoW,
    checkBlockHeader regTestParams { unminedHeader with
      nBits := 0x207fffff, hashGPoW } true = .ok () ∧
      ¬ GenuineGPoW (fun _ => 0) { unminedHeader with nBits := 0x207fffff, hashGPoW } := by
  have hcount : Nat.choose (2 ^ 32) GPOW_M ≤ (0x7fffff#256 <<< 232).toNat := by
    have hq : ((Nat.choose (2 ^ 32) GPOW_M : Nat) : ℚ) ≤ ((2 ^ 32 : Nat) : ℚ) ^ 8 /
      (Nat.factorial 8) :=
      Nat.choose_le_pow_div 8 (2 ^ 32)
    have hnum : ((2 ^ 32 : Nat) : ℚ) ^ 8 / (Nat.factorial 8) ≤ ((2 ^ 241 : Nat) : ℚ) := by
      norm_num [Nat.factorial]
    have hle : Nat.choose (2 ^ 32) GPOW_M ≤ 2 ^ 241 := by exact_mod_cast hq.trans hnum
    exact hle.trans (by decide)
  exact (checkBlockHeader_genuine_iff regTestParams (fun _ => 0)
    { unminedHeader with nBits := 0x207fffff }).2 (0x7fffff#256 <<< 232) (by decide) hcount

end OurChain
