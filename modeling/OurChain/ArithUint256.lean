import OurChain.ArithUint288
import OurChain.Pow

/-!
# 256-bit integers

The remaining operators of `base_uint`. The rest of the development computes with
`arith_uint256` as with the integers modulo `2 ^ 256`; this is what the loops over the limbs
come to.
-/

namespace OurChain

open Limbs

namespace BaseUint

variable {n : Nat} (a b : BaseUint n)

def neg (a : BaseUint n) : BaseUint n :=
  ⟨Limbs.negate a.pn, by rw [negate_eq (by decide), length_ofNat, a.length_pn]⟩

theorem toNat_neg : a.neg.toNat = (2 ^ (32 * n) - a.toNat) % 2 ^ (32 * n) := by
  rw [toNat_eq_mod (negate_eq (by decide) a.pn), a.length_pn, ← Nat.pow_mul]
  rfl

theorem length_zero_eq : (zero n).pn.length = a.pn.length := (zero n).length_pn.trans a.length_pn.symm

def mulUint32 (a : BaseUint n) (b32 : BitVec 32) : BaseUint n :=
  ⟨Limbs.mulAdd b32 0 (zero n).pn a.pn, by
    rw [mulAdd_eq b32 (by decide) a.length_zero_eq.le, length_ofNat, (zero n).length_pn]⟩

theorem toNat_mulUint32 (b32 : BitVec 32) :
    (a.mulUint32 b32).toNat = a.toNat * b32.toNat % 2 ^ (32 * n) := by
  have hzero : Limbs.toNat (zero n).pn = 0 := toNat_zero n
  rw [toNat_eq_mod (mulAdd_eq b32 (by decide) a.length_zero_eq.le), hzero, Nat.zero_add,
    Nat.mul_comm]
  rfl

def mul (a b : BaseUint n) : BaseUint n :=
  ⟨Limbs.multiply b.pn a.pn (zero n).pn, by
    rw [multiply_eq a.length_zero_eq.symm b.length_zero_eq.le, length_ofNat,
      (zero n).length_pn]⟩

theorem toNat_mul : (a.mul b).toNat = a.toNat * b.toNat % 2 ^ (32 * n) := by
  have hzero : Limbs.toNat (zero n).pn = 0 := toNat_zero n
  rw [toNat_eq_mod (multiply_eq a.length_zero_eq.symm b.length_zero_eq.le), hzero, Nat.zero_add]
  rfl

def div (a b : BaseUint n) : Option (BaseUint n) :=
  let num_bits := Limbs.bits a.pn
  let div_bits := Limbs.bits b.pn
  if div_bits = 0 then none
  else if div_bits > num_bits then some (zero n)
  else
    let shift := num_bits - div_bits
    some (divideLoop (shift + 1) a (b.shiftLeft shift) (zero n))

theorem bits_eq : Limbs.bits a.pn = a.toNat.size := bits_eq_size (by decide) a.pn

theorem div_zero (hb : b.toNat = 0) : a.div b = none := by
  rw [div, b.bits_eq, hb]
  rfl

theorem div_eq {b : BaseUint n} (hb : b.toNat ≠ 0) :
    ∃ q, a.div b = some q ∧ q.toNat = a.toNat / b.toNat := by
  have ha := Nat.lt_size_self a.toNat
  have hfew : a.toNat.size ≤ 32 * n := Nat.size_le.mpr a.toNat_lt
  have hpos : b.toNat.size ≠ 0 := mt Nat.size_eq_zero.mp hb
  simp only [div, bits_eq, if_neg hpos]
  split
  · rename_i hlt
    refine ⟨_, rfl, ?_⟩
    rw [toNat_zero, eq_comm, Nat.div_eq_zero_iff]
    exact .inr (Nat.lt_of_lt_of_le ha (Nat.lt_size.mp hlt))
  · obtain ⟨t, ht⟩ := Nat.exists_eq_add_of_le (Nat.le_of_not_lt ‹_›)
    rw [ht, Nat.add_sub_cancel_left]
    refine ⟨_, rfl, ?_⟩
    -- shifted, the divisor is as long as the dividend
    have hfits : b.toNat * 2 ^ t < 2 ^ (32 * n) := by
      refine Nat.lt_of_lt_of_le ?_ (Nat.pow_le_pow_right Nat.two_pos hfew)
      rw [ht, Nat.pow_add]
      exact Nat.mul_lt_mul_of_pos_right (Nat.lt_size_self _) (Nat.two_pow_pos t)
    have hquot : a.toNat / b.toNat < 2 ^ (t + 1) := by
      have hhalf : 2 ^ (b.toNat.size - 1) ≤ b.toNat := Nat.lt_size.mp (by omega)
      rw [Nat.div_lt_iff_lt_mul (Nat.pos_of_ne_zero hb)]
      calc a.toNat < 2 ^ (b.toNat.size + t) := ht ▸ ha
        _ = 2 ^ (t + 1) * 2 ^ (b.toNat.size - 1) := by rw [← Nat.pow_add]; congr 1; omega
        _ ≤ 2 ^ (t + 1) * b.toNat := Nat.mul_le_mul_left _ hhalf
    rw [toNat_divideLoop (by omega) (d := b.toNat) (fun k hk => by
      cases hk
      rw [toNat_shiftLeft, Nat.mod_eq_of_lt hfits]) (by simp), toNat_zero, Nat.zero_add,
      ArithUint288.cappedQuotient, if_neg hb]
    omega

end BaseUint

theorem toNat_getBlockProof {nBits : BitVec 32} {bnTarget : Uint256}
    (h : setCompact nBits = (bnTarget, false, false)) (hne : bnTarget ≠ 0) :
    (getBlockProof nBits).toNat = 2 ^ 256 / (bnTarget.toNat + 1) := by
  have hpos : bnTarget.toNat ≠ 0 := fun h => hne (BitVec.eq_of_toNat_eq h)
  have hdiv : 2 ^ 256 / (bnTarget.toNat + 1) = (2 ^ 256 - 1 - bnTarget.toNat) /
    (bnTarget.toNat + 1) + 1 := by
    rw [← Nat.add_div_right _ (Nat.succ_pos _)]
    congr 1
    omega
  have hsmall : 2 ^ 256 / (bnTarget.toNat + 1) < 2 ^ 256 := Nat.div_lt_self (by decide) (by omega)
  have hproof : getBlockProof nBits = (~~~bnTarget / (bnTarget + 1)) + 1 := by
    have hzero : (bnTarget == 0) = false := beq_eq_false_iff_ne.mpr hne
    simp only [getBlockProof, h, hzero]
    rfl
  rw [hproof, BitVec.toNat_add, BitVec.toNat_udiv, BitVec.toNat_not, BitVec.toNat_add]
  rcases Nat.lt_or_ge (bnTarget.toNat + 1) (2 ^ 256) with hfits | hfull
  · have hone : (bnTarget.toNat + (1#256).toNat) % 2 ^ 256 = bnTarget.toNat + 1 :=
      Nat.mod_eq_of_lt hfits
    rw [show (1 : Uint256) = 1#256 from rfl, hone, hdiv]
    rw [hdiv] at hsmall
    exact Nat.mod_eq_of_lt hsmall
  · rw [hdiv, show bnTarget.toNat = 2 ^ 256 - 1 by omega]
    decide

/-- The operators of `base_uint<256>` compute with integers, modulo `2 ^ 256` where the
result does not fit. -/
theorem baseUint_exact (a b : BaseUint 8) :
    (∀ shift < 256, (a.shiftLeft shift).toNat = a.toNat * 2 ^ shift % 2 ^ 256 ∧
      (a.shiftRight shift).toNat = a.toNat / 2 ^ shift) ∧
    (∀ b32 : BitVec 32, (a.mulUint32 b32).toNat = a.toNat * b32.toNat % 2 ^ 256) ∧
    (a.mul b).toNat = a.toNat * b.toNat % 2 ^ 256 ∧
    (a.neg.toNat : Int) = -a.toNat % 2 ^ 256 ∧
    ((a.sub b).toNat : Int) = (a.toNat - b.toNat) % 2 ^ 256 ∧
    (b.toNat = 0 → a.div b = none) ∧
    (b.toNat ≠ 0 → ∃ q, a.div b = some q ∧ q.toNat = a.toNat / b.toNat) ∧
    Limbs.bits a.pn = a.toNat.size ∧
    Limbs.compareTo a.pn b.pn = compare a.toNat b.toNat ∧
    ∀ nBits bnTarget, setCompact nBits = (bnTarget, false, false) → bnTarget ≠ 0 →
      (getBlockProof nBits).toNat = 2 ^ 256 / (bnTarget.toNat + 1) := by
  have ha : a.toNat < 2 ^ 256 := a.toNat_lt
  have hb : b.toNat < 2 ^ 256 := b.toNat_lt
  refine ⟨fun shift _ => ⟨a.toNat_shiftLeft shift, a.toNat_shiftRight shift⟩, a.toNat_mulUint32,
    a.toNat_mul b, ?_, ?_, a.div_zero b, a.div_eq, a.bits_eq,
    compareTo_eq (a.length_pn.trans b.length_pn.symm), fun _ _ => toNat_getBlockProof⟩
  · have h : a.neg.toNat = (2 ^ 256 - a.toNat) % 2 ^ 256 := a.toNat_neg
    omega
  · have h : (a.sub b).toNat = (a.toNat + (2 ^ 256 - b.toNat)) % 2 ^ 256 := a.toNat_sub b
    omega

end OurChain
