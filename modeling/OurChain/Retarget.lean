import OurChain.Compact

/-!
# Difficulty retargeting

`CalculateNextWorkRequired` scales the old target by the time that the last period
took, within a factor of four in either direction, and encodes the result.
-/

namespace OurChain

open BitVec

variable {params : ConsensusParams} {nBits : BitVec 32}

def limitedTimespan (params : ConsensusParams) (nActualTimespan : Int) : Int :=
  min (max nActualTimespan (params.nPowTargetTimespan.tdiv 4)) (params.nPowTargetTimespan * 4)

theorem limitedTimespan_mono (params : ConsensusParams) (h : a ≤ b) :
    limitedTimespan params a ≤ limitedTimespan params b :=
  min_le_min_right _ (max_le_max_right _ h)

/-- The setting of one retargeting: the target timespan `T` and room for the product. -/
structure Retargetable (params : ConsensusParams) (nBits : BitVec 32) (T : Nat) : Prop where
  retarget : params.fPowNoRetargeting = false
  timespan : params.nPowTargetTimespan = T
  pos : 0 < T
  width : 4 * T < 2 ^ 32
  room : params.powLimit.toNat * (4 * T) < 2 ^ 256
  old_le : (setCompact nBits).1.toNat ≤ params.powLimit.toNat

namespace Retargetable

theorem limited (h : Retargetable params nBits T) (a : Int) :
    ∃ s : Nat, limitedTimespan params a = s ∧ T / 4 ≤ s ∧ s ≤ 4 * T := by
  have hquarter : Int.tdiv T 4 = T / 4 := Int.tdiv_eq_ediv_of_nonneg (Int.natCast_nonneg T)
  refine ⟨(limitedTimespan params a).toNat, ?_, ?_, ?_⟩ <;>
    simp only [limitedTimespan, h.timespan, hquarter] <;> omega

section
variable (h : Retargetable params nBits T) {s : Nat} (hs : s ≤ 4 * T)
include h hs

theorem toNat_mul :
    ((setCompact nBits).1 * (BitVec.ofInt 32 s).setWidth 256).toNat =
    (setCompact nBits).1.toNat * s := by
  have hwidth := h.width
  have hfactor : ((BitVec.ofInt 32 s).setWidth 256).toNat = s := by
    rw [toNat_setWidth, toNat_ofInt]
    omega
  have hroom : (setCompact nBits).1.toNat * s < 2 ^ 256 :=
    (Nat.mul_le_mul h.old_le hs).trans_lt h.room
  rw [BitVec.toNat_mul, hfactor, Nat.mod_eq_of_lt hroom]

theorem eq_getCompact (hspan : limitedTimespan params (last - first) = s) :
    calculateNextWorkRequired params nBits last first =
      getCompact (BitVec.ofNat 256
        (min ((setCompact nBits).1.toNat * s / T) params.powLimit.toNat)) := by
  have hdivisor : ((BitVec.ofInt 64 T).setWidth 256).toNat = T := by
    have hwidth := h.width
    rw [toNat_setWidth, toNat_ofInt]
    omega
  obtain ⟨bnNew, hnew⟩ : ∃ bnNew, bnNew = (setCompact nBits).1 * (BitVec.ofInt 32 s).setWidth 256 /
      (BitVec.ofInt 64 T).setWidth 256 := ⟨_, rfl⟩
  have hquotient : bnNew.toNat = (setCompact nBits).1.toNat * s / T := by
    rw [hnew, toNat_udiv, h.toNat_mul hs, hdivisor]
  have hcode : calculateNextWorkRequired params nBits last first =
      getCompact (if params.powLimit < bnNew then params.powLimit else bnNew) := by
    rw [hnew, ← hspan, ← h.timespan, calculateNextWorkRequired, h.retarget]
    rfl
  rw [hcode, ← hquotient]
  by_cases hlt : params.powLimit < bnNew
  · rw [if_pos hlt, min_eq_right (lt_def.mp hlt).le, BitVec.ofNat_toNat, setWidth_eq]
  · rw [if_neg hlt, min_eq_left (Nat.le_of_not_lt hlt), BitVec.ofNat_toNat, setWidth_eq]

theorem toNat_new (hspan : limitedTimespan params (last - first) = s) :
    (setCompact (calculateNextWorkRequired params nBits last first)).1.toNat =
      compactTrunc (min ((setCompact nBits).1.toNat * s / T) params.powLimit.toNat) := by
  have hmin := min_le_right ((setCompact nBits).1.toNat * s / T) params.powLimit.toNat
  rw [h.eq_getCompact hs hspan, toNat_setCompact_getCompact, BitVec.toNat_ofNat,
    Nat.mod_eq_of_lt (hmin.trans_lt params.powLimit.isLt)]

end

end Retargetable

theorem checkProofOfWork_eq (hflags : (setCompact nBits).2 = (false, false))
    (hne : (setCompact nBits).1 ≠ 0) (hlimit : (setCompact nBits).1 ≤ params.powLimit)
    (hash : Uint256) :
    checkProofOfWork params hash nBits = decide (hash ≤ (setCompact nBits).1) := by
  rcases hdecode : setCompact nBits with ⟨bnTarget, fNegative, fOverflow⟩
  rw [hdecode] at hflags hne hlimit
  obtain ⟨rfl, rfl⟩ := Prod.mk.inj hflags
  have hrange : (false || bnTarget == 0 || false || decide (params.powLimit < bnTarget)) = false := by
    simpa [BitVec.not_lt] using ⟨hne, hlimit⟩
  simp only [checkProofOfWork, hdecode, hrange]
  by_cases hlt : bnTarget < hash
  · simp [hlt, BitVec.not_le.mpr hlt]
  · simp [hlt, BitVec.not_lt.mp hlt]

theorem calculateNextWorkRequired_safe (params : ConsensusParams) (nBits : BitVec 32)
    (hretarget : params.fPowNoRetargeting = false) (hpos : 0 < params.nPowTargetTimespan)
    (hwidth : 4 * params.nPowTargetTimespan < 2 ^ 32)
    (hroom : params.powLimit.toNat * (4 * params.nPowTargetTimespan) < 2 ^ 256)
    (hlimit : (setCompact nBits).1 ≤ params.powLimit)
    (nLastBlockTime nFirstBlockTime : Int) :
    let old := (setCompact nBits).1
    let timespan := params.nPowTargetTimespan.toNat
    let actual := limitedTimespan params (nLastBlockTime - nFirstBlockTime)
    let nNew := calculateNextWorkRequired params nBits nLastBlockTime nFirstBlockTime
    let new := (setCompact nNew).1
    (old * (BitVec.ofInt 32 actual).setWidth 256).toNat = old.toNat * actual.toNat ∧
      new ≤ params.powLimit ∧ new.toNat ≤ 4 * old.toNat ∧
      (setCompact (getCompact (BitVec.ofNat 256 (old.toNat * (timespan / 4) / timespan)))).1 ≤ new ∧
      (∀ nLastBlockTime' nFirstBlockTime',
        nLastBlockTime - nFirstBlockTime ≤ nLastBlockTime' - nFirstBlockTime' →
        new ≤ (setCompact
          (calculateNextWorkRequired params nBits nLastBlockTime' nFirstBlockTime')).1) ∧
      (new ≠ 0 → ∀ hash, checkProofOfWork params hash nNew = decide (hash ≤ new)) := by
  obtain ⟨T, hT⟩ := Int.eq_ofNat_of_zero_le hpos.le
  rw [hT] at hpos hwidth hroom
  have h : Retargetable params nBits T :=
    ⟨hretarget, hT, by omega, by omega, by exact_mod_cast hroom, le_def.mp hlimit⟩
  obtain ⟨s, hspan, hleast, hmost⟩ := h.limited (nLastBlockTime - nFirstBlockTime)
  have hnew := h.toNat_new hmost hspan
  have hle := le_def.mp hlimit
  have hcompact := compactTrunc_le (min ((setCompact nBits).1.toNat * s / T) params.powLimit.toNat)
  have hnewlimit :
      (setCompact (calculateNextWorkRequired params nBits nLastBlockTime nFirstBlockTime)).1 ≤
        params.powLimit := by
    rw [le_def, hnew]
    exact hcompact.trans (min_le_right _ _)
  refine ⟨?_, hnewlimit, ?_, ?_, ?_, ?_⟩
  · rw [hspan, h.toNat_mul hmost, Int.toNat_natCast]
  · rw [hnew]
    refine (hcompact.trans (min_le_left _ _)).trans ?_
    calc (setCompact nBits).1.toNat * s / T ≤ (setCompact nBits).1.toNat * (4 * T) / T :=
          Nat.div_le_div_right (Nat.mul_le_mul_left _ hmost)
      _ = 4 * (setCompact nBits).1.toNat := by
          rw [← Nat.mul_assoc, Nat.mul_div_cancel _ h.pos, Nat.mul_comm]
  · have hbelow : (setCompact nBits).1.toNat * (T / 4) / T ≤ (setCompact nBits).1.toNat := by
      calc (setCompact nBits).1.toNat * (T / 4) / T ≤ (setCompact nBits).1.toNat * T / T :=
            Nat.div_le_div_right (Nat.mul_le_mul_left _ (Nat.div_le_self T 4))
        _ = (setCompact nBits).1.toNat := Nat.mul_div_cancel _ h.pos
    rw [le_def, hnew, toNat_setCompact_getCompact, BitVec.toNat_ofNat, hT, Int.toNat_natCast,
      Nat.mod_eq_of_lt (hbelow.trans_lt (setCompact nBits).1.isLt)]
    exact compactTrunc_mono (le_min (Nat.div_le_div_right (Nat.mul_le_mul_left _ hleast))
      (hbelow.trans hle))
  · intro nLastBlockTime' nFirstBlockTime' hlonger
    obtain ⟨s', hspan', -, hmost'⟩ := h.limited (nLastBlockTime' - nFirstBlockTime')
    have hss : s ≤ s' := by
      have hmono := limitedTimespan_mono params hlonger
      rw [hspan, hspan'] at hmono
      exact_mod_cast hmono
    rw [le_def, hnew, h.toNat_new hmost' hspan']
    exact compactTrunc_mono (min_le_min_right _ (Nat.div_le_div_right (Nat.mul_le_mul_left _ hss)))
  · intro hne hash
    refine checkProofOfWork_eq ?_ hne hnewlimit hash
    rw [h.eq_getCompact hmost hspan, setCompact_getCompact]

theorem calculateNextWorkRequired_safe_main :
    (setCompact (calculateNextWorkRequired mainParams 0x1d00ffff 1262152739 1261130161)).1 ≤
    mainParams.powLimit := by
  exact (calculateNextWorkRequired_safe mainParams 0x1d00ffff rfl (by decide) (by decide) (by decide)
    (by decide) 1262152739 1261130161).2.1

end OurChain
