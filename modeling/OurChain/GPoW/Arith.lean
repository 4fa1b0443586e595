import OurChain.ArithUint288

/-!
# The mean of the hashes

`NextGPoW` keeps the mean of the best hashes through function pointers that `SetArith`
sets: on GMP rationals, where every operation ends in a whole number again, or on one
288-bit sum that is divided at the end. A history is a list of additions to and evictions
from the queue, the last one first.
-/

namespace OurChain

open Nat

/-- `m` is a `uint32_t`, and the mean of no hashes is not asked for. -/
structure GPoWSize where
  m : BitVec 32
  pos : m ≠ 0

variable (size : GPoWSize)

theorem GPoWSize.toNat_pos : 0 < size.m.toNat :=
  Nat.pos_of_ne_zero fun h => size.pos (BitVec.eq_of_toNat_eq h)

/-- `mpz_set_q`: the whole part, towards zero. -/
def truncate (q : ℚ) : Int := if 0 ≤ q then ⌊q⌋ else ⌈q⌉

/-- `SetHex` of the hexadecimal text of an integer. A minus sign is not a digit, so a
negative number reads as zero. -/
def setHexInt (z : Int) : Uint256 := if z < 0 then 0 else BitVec.ofNat 256 z.toNat

def addHash1 (m : BitVec 32) (avg hash : Uint256) : Uint256 :=
  setHexInt (truncate ((avg.toNat : ℚ) + (hash.toNat : ℚ) * (1 / (m.toNat : ℚ))))

def minusHash1 (m : BitVec 32) (avg hash : Uint256) : Uint256 :=
  setHexInt (truncate ((avg.toNat : ℚ) - (hash.toNat : ℚ) * (1 / (m.toNat : ℚ))))

theorem truncate_natCast_div (a b : Nat) : truncate ((a : ℚ) / (b : ℚ)) = (a / b : Nat) := by
  have hnonneg : (0 : ℚ) ≤ (a : ℚ) / (b : ℚ) := by positivity
  have hfloor := Rat.floor_intCast_div_natCast (a : Int) b
  rw [Int.cast_natCast] at hfloor
  rw [truncate, if_pos hnonneg, hfloor, Int.natCast_ediv]

theorem truncate_nonpos {q : ℚ} (h : q < 0) : truncate q ≤ 0 := by
  rw [truncate, if_neg (not_le.mpr h), Int.ceil_le]
  exact_mod_cast h.le

theorem setHexInt_natCast (n : Nat) : setHexInt n = BitVec.ofNat 256 n := by
  rw [setHexInt, if_neg (by omega), Int.toNat_natCast]

theorem setHexInt_nonpos {z : Int} (h : z ≤ 0) : setHexInt z = 0 := by
  rw [setHexInt]
  split
  · rfl
  · rw [show z = 0 by omega]
    rfl

def shareUp (m : Nat) (hash : Uint256) : Nat := (hash.toNat + (m - 1)) / m

section
variable (size : GPoWSize) (avg hash : Uint256)

theorem addHash1_eq :
    addHash1 size.m avg hash = BitVec.ofNat 256 (avg.toNat + hash.toNat / size.m.toNat) := by
  have hm := size.toNat_pos
  have hq : (avg.toNat : ℚ) + (hash.toNat : ℚ) * (1 / (size.m.toNat : ℚ)) =
      ((hash.toNat + avg.toNat * size.m.toNat : Nat) : ℚ) / (size.m.toNat : ℚ) := by
    push_cast
    field_simp
    ring
  rw [addHash1, hq, truncate_natCast_div, add_mul_div_right _ _ hm, setHexInt_natCast, Nat.add_comm]

theorem minusHash1_eq :
    minusHash1 size.m avg hash = BitVec.ofNat 256 (avg.toNat - shareUp size.m.toNat hash) := by
  have hm := size.toNat_pos
  generalize hp : avg.toNat * size.m.toNat = p
  have hshare : shareUp size.m.toNat hash ≤ avg.toNat ↔ hash.toNat ≤ p := by
    rw [shareUp, Nat.div_le_iff_le_mul hm, hp]
    omega
  rw [minusHash1]
  by_cases hle : hash.toNat ≤ p
  · have hq : (avg.toNat : ℚ) - (hash.toNat : ℚ) * (1 / (size.m.toNat : ℚ)) =
        ((p - hash.toNat : Nat) : ℚ) / (size.m.toNat : ℚ) := by
      rw [cast_sub hle, ← hp]
      push_cast
      field_simp
    have hvalue : (p - hash.toNat) / size.m.toNat = avg.toNat - shareUp size.m.toNat hash := by
      have hdiv := div_add_mod (hash.toNat + (size.m.toNat - 1)) size.m.toNat
      have hmod := mod_lt (hash.toNat + (size.m.toNat - 1)) hm
      have hmul := Nat.sub_mul avg.toNat (shareUp size.m.toNat hash) size.m.toNat
      have hup := Nat.mul_le_mul_right size.m.toNat (hshare.mpr hle)
      rw [← shareUp, Nat.mul_comm] at hdiv
      have hsum : p - hash.toNat =
          (size.m.toNat - 1 - (hash.toNat + (size.m.toNat - 1)) % size.m.toNat) +
            (avg.toNat - shareUp size.m.toNat hash) * size.m.toNat := by omega
      rw [hsum, add_mul_div_right _ _ hm, div_eq_of_lt (by omega), Nat.zero_add]
    rw [hq, truncate_natCast_div, setHexInt_natCast, hvalue]
  · have hneg : (avg.toNat : ℚ) - (hash.toNat : ℚ) * (1 / (size.m.toNat : ℚ)) < 0 := by
      have hlt : ((avg.toNat * size.m.toNat : Nat) : ℚ) < (hash.toNat : ℚ) :=
        cast_lt.mpr (hp ▸ Nat.lt_of_not_le hle)
      have hpos : (0 : ℚ) < (size.m.toNat : ℚ) := cast_pos.mpr hm
      rw [sub_neg, mul_one_div, lt_div_iff₀ hpos]
      exact_mod_cast hlt
    rw [setHexInt_nonpos (truncate_nonpos hneg), Nat.sub_eq_zero_of_le (by omega)]
    rfl

end

variable {m : Nat}

theorem shareUp_eq (hm : 0 < m) (hash : Uint256) :
    shareUp m hash = hash.toNat / m + if m ∣ hash.toNat then 0 else 1 := by
  have hdiv := div_add_mod hash.toNat m
  have hmod := mod_lt hash.toNat hm
  have hsum : hash.toNat + (m - 1) = (hash.toNat % m + (m - 1)) + m * (hash.toNat / m) := by omega
  rw [shareUp, hsum, add_mul_div_left _ _ hm, Nat.add_comm]
  congr 1
  split
  · exact div_eq_of_lt (by omega)
  · rw [Nat.div_eq_iff hm]
    omega

def addHash2 (Avg : ArithUint288) (hash : Uint256) : ArithUint288 := Avg.add hash

def minusHash2 (Avg : ArithUint288) (hash : Uint256) : ArithUint288 :=
  Avg.sub (ArithUint288.add (.zero 9) hash)

variable {hash : Uint256} {Avg : ArithUint288}

theorem toNat_minusHash2 (h : hash.toNat ≤ Avg.toNat) :
    (minusHash2 Avg hash).toNat = Avg.toNat - hash.toNat := by
  have htmp : (ArithUint288.add (.zero 9) hash).toNat = hash.toNat := by
    rw [ArithUint288.toNat_add, BaseUint.toNat_zero, Nat.zero_add]
    rw [BaseUint.toNat_zero]
    omega
  rw [minusHash2, BaseUint.toNat_sub_of_le (htmp.trans_le h), htmp]

def hashSum (hashes : List Uint256) : Nat := (hashes.map BitVec.toNat).sum

theorem hashSum_le (hashes : List Uint256) : hashSum hashes ≤ hashes.length * (2 ^ 256 - 1) := by
  induction hashes with
  | nil => simp [hashSum]
  | cons hash hashes ih =>
    simp only [hashSum, List.map_cons, List.sum_cons, List.length_cons] at ih ⊢
    omega

variable {hashes : List Uint256}

theorem toNat_addHash2 (hash : Uint256)
    (hlen : hashes.length < 2 ^ 32) (hsum : Avg.toNat = hashSum hashes) :
    (addHash2 Avg hash).toNat = Avg.toNat + hash.toNat := by
  apply ArithUint288.toNat_add
  have hle := hashSum_le hashes
  omega

/-- Sums of hashes are exact, and so is the division by a 32-bit number. The division by
a 64-bit number is exact if the bits it tries hold the quotient. -/
theorem arithUint288_exact_iff (hashes : List Uint256) (hlen : hashes.length < 2 ^ 32)
    (sum : ArithUint288) (hsum : sum.toNat = hashSum hashes) (hash : Uint256)
    (a : ArithUint288) (b : BitVec 32) (hb : b ≠ 0) (c : BitVec 64) (hc : c ≠ 0) :
    (addHash2 sum hash).toNat = sum.toNat + hash.toNat ∧
      (hash.toNat ≤ sum.toNat → (minusHash2 sum hash).toNat = sum.toNat - hash.toNat) ∧
      (∃ q, ArithUint288.divUint32 a b = some q ∧ q.toNat = a.toNat / b.toNat) ∧
      ((∃ q, ArithUint288.divUint64 a c = some q ∧ q.toNat = a.toNat / c.toNat) ↔
        ArithUint288.QuotientTried a.toNat c.toNat) :=
  ⟨toNat_addHash2 hash hlen hsum, toNat_minusHash2, ArithUint288.divUint32_eq a hb,
    ArithUint288.divUint64_eq_iff a hc⟩

theorem arithUint288_exact_seven :
    (addHash2 (ArithUint288.ofUint64 7) 5).toNat = (ArithUint288.ofUint64 7).toNat + 5 ∧
      (minusHash2 (ArithUint288.ofUint64 7) 5).toNat = (ArithUint288.ofUint64 7).toNat - 5 ∧
      (∃ q, ArithUint288.divUint32 (ArithUint288.ofUint64 7) 3 = some q ∧
        q.toNat = (ArithUint288.ofUint64 7).toNat / 3) ∧
      (∃ q, ArithUint288.divUint64 (ArithUint288.ofUint64 7) 5 = some q ∧
        q.toNat = (ArithUint288.ofUint64 7).toNat / 5) := by
  have h := arithUint288_exact_iff [7] (by decide) (.ofUint64 7) (by decide) 5 (.ofUint64 7) 3
    (by decide) 5 (by decide)
  exact ⟨h.1, h.2.1 (by decide), h.2.2.1, h.2.2.2.mpr (by decide +kernel)⟩

/-- Both lengths are found to be one, so only the last bit of 6 / 3 is tried. -/
theorem divUint64_six_three :
    ArithUint288.divUint64 (ArithUint288.ofUint64 6) 3 = some (ArithUint288.ofUint64 1) ∧
      (ArithUint288.ofUint64 6).toNat / (3 : BitVec 64).toNat = 2 := by
  decide

structure ArithState where
  Avg : ArithUint288
  hashGPoW : Uint256
  deriving DecidableEq

/-- `InitArith`, `AddHash`, `MinusHash` and `AvgHash`; none if the division traps. -/
structure GPoWArith where
  initArith : ArithState → ArithState
  addHash : Uint256 → ArithState → ArithState
  minusHash : Uint256 → ArithState → ArithState
  avgHash : ArithState → Option ArithState

def setArith (m : BitVec 32) : Fin 2 → GPoWArith
  | 0 =>
    { initArith := id
      addHash := fun hash s => { s with hashGPoW := addHash1 m s.hashGPoW hash }
      minusHash := fun hash s => { s with hashGPoW := minusHash1 m s.hashGPoW hash }
      avgHash := some }
  | 1 =>
    { initArith := fun s => { s with Avg := .zero 9 }
      addHash := fun hash s => { s with Avg := addHash2 s.Avg hash }
      minusHash := fun hash s => { s with Avg := minusHash2 s.Avg hash }
      avgHash := fun s => (ArithUint288.divUint32 s.Avg m).map fun Avg =>
        { Avg, hashGPoW := ArithUint288.toUint256 Avg } }

inductive QueueOp
  | add (hash : Uint256)
  | evict (hash : Uint256)
  deriving DecidableEq

def GPoWArith.apply (A : GPoWArith) : QueueOp → ArithState → ArithState
  | .add hash => A.addHash hash
  | .evict hash => A.minusHash hash

def GPoWArith.after (A : GPoWArith) (s : ArithState) (ops : List QueueOp) : ArithState :=
  ops.foldr A.apply (A.initArith s)

def GPoWArith.mean (A : GPoWArith) (s : ArithState) (ops : List QueueOp) : Option Uint256 :=
  (A.avgHash (A.after s ops)).map ArithState.hashGPoW

def queueOf : List QueueOp → List Uint256
  | [] => []
  | .add hash :: ops => hash :: queueOf ops
  | .evict hash :: ops => (queueOf ops).erase hash

/-- The queue never holds more than `m` hashes, and what is evicted is in it. -/
def Performed (m : Nat) : List QueueOp → Prop
  | [] => True
  | .add _ :: ops => Performed m ops ∧ (queueOf ops).length < m
  | .evict hash :: ops => Performed m ops ∧ hash ∈ queueOf ops

instance (m : Nat) (ops : List QueueOp) : Decidable (Performed m ops) := by
  induction ops with
  | nil => exact isTrue trivial
  | cons op ops ih =>
    cases op with
    | add hash => exact inferInstanceAs (Decidable (_ ∧ _))
    | evict hash => exact inferInstanceAs (Decidable (_ ∧ _))

theorem Performed.tail {m : Nat} {op : QueueOp} {ops : List QueueOp} (h : Performed m (op :: ops)) :
    Performed m ops := by
  cases op with
  | add hash => exact h.1
  | evict hash => exact h.1

variable {ops : List QueueOp}

theorem Performed.length_le (h : Performed m ops) : (queueOf ops).length ≤ m := by
  induction ops with
  | nil => exact Nat.zero_le m
  | cons op ops ih =>
    cases op with
    | add hash => exact h.2
    | evict hash => exact Nat.le_trans List.length_erase_le (ih h.1)

theorem hashSum_erase (h : hash ∈ hashes) :
    hash.toNat + hashSum (hashes.erase hash) = hashSum hashes :=
  List.sum_map_erase BitVec.toNat h

theorem after_setArith_one (s : ArithState) (h : Performed size.m.toNat ops) :
    ((setArith size.m 1).after s ops).Avg.toNat = hashSum (queueOf ops) := by
  induction ops with
  | nil => exact BaseUint.toNat_zero 9
  | cons op ops ih =>
    have hprev := ih h.tail
    cases op with
    | add hash =>
      have hlen : (queueOf ops).length < 2 ^ 32 := Nat.lt_trans h.2 size.m.isLt
      show (addHash2 ((setArith size.m 1).after s ops).Avg hash).toNat = _
      rw [toNat_addHash2 hash hlen hprev, hprev, queueOf, Nat.add_comm]
      rfl
    | evict hash =>
      have hsum := hashSum_erase h.2
      show (minusHash2 ((setArith size.m 1).after s ops).Avg hash).toNat = _
      rw [toNat_minusHash2 (by omega), hprev, queueOf]
      omega

theorem mean_setArith_one (s : ArithState)
    (h : Performed size.m.toNat ops) : ∃ mean, (setArith size.m 1).mean s ops = some mean ∧
      mean.toNat = hashSum (queueOf ops) / size.m.toNat := by
  obtain ⟨q, hq, hvalue⟩ := ArithUint288.divUint32_eq ((setArith size.m 1).after s ops).Avg size.pos
  rw [after_setArith_one size s h] at hvalue
  have hlt : q.toNat < 2 ^ 256 := by
    have hle := hashSum_le (queueOf ops)
    have hlen := Nat.mul_le_mul_right (2 ^ 256 - 1) h.length_le
    rw [hvalue, Nat.div_lt_iff_lt_mul size.toNat_pos]
    have := size.toNat_pos
    omega
  refine ⟨ArithUint288.toUint256 q, ?_, by rw [ArithUint288.toNat_toUint256 hlt, hvalue]⟩
  show Option.map ArithState.hashGPoW (Option.map _ (ArithUint288.divUint32 _ _)) = _
  rw [hq]
  rfl

def shares (m : Nat) (hashes : List Uint256) : Nat := (hashes.map fun hash => hash.toNat / m).sum

def rests (m : Nat) (hashes : List Uint256) : Nat := (hashes.map fun hash => hash.toNat % m).sum

theorem hashSum_eq (m : Nat) (hashes : List Uint256) :
    hashSum hashes = m * shares m hashes + rests m hashes := by
  induction hashes with
  | nil => simp [hashSum, shares, rests]
  | cons hash hashes ih =>
    have hdiv := div_add_mod hash.toNat m
    simp only [hashSum, shares, rests, List.map_cons, List.sum_cons, Nat.mul_add] at ih ⊢
    omega

theorem shares_erase (h : hash ∈ hashes) :
    hash.toNat / m + shares m (hashes.erase hash) = shares m hashes :=
  List.sum_map_erase (fun hash : Uint256 => hash.toNat / m) h

theorem shares_lt (hm : 0 < m) (hlen : hashes.length ≤ m) : shares m hashes < 2 ^ 256 := by
  have hsum := hashSum_eq m hashes
  have hle := hashSum_le hashes
  have hbound : m * shares m hashes ≤ m * (2 ^ 256 - 1) := by omega
  have := Nat.le_of_mul_le_mul_left hbound hm
  omega

theorem shares_eq_zero_iff (hm : 0 < m) (hashes : List Uint256) :
    shares m hashes = 0 ↔ ∀ hash ∈ hashes, hash.toNat < m := by
  simp [shares, List.sum_eq_zero_iff, Nat.div_eq_zero_iff, Nat.ne_of_gt hm]

/-- No eviction takes a fraction of a hash away: every evicted hash is a multiple of `m`,
or all that is left behind is too small to count. -/
def LosesNothing (m : Nat) : List QueueOp → Prop
  | [] => True
  | .add _ :: ops => LosesNothing m ops
  | .evict hash :: ops =>
    (∀ left ∈ (queueOf ops).erase hash, left.toNat < m) ∨ (m ∣ hash.toNat ∧ LosesNothing m ops)

theorem after_setArith_zero (Avg : ArithUint288) (h : Performed size.m.toNat ops) :
    ((setArith size.m 0).after ⟨Avg, 0⟩ ops).hashGPoW.toNat ≤ shares size.m.toNat (queueOf ops) ∧
      (((setArith size.m 0).after ⟨Avg, 0⟩ ops).hashGPoW.toNat = shares size.m.toNat (queueOf ops) ↔
        LosesNothing size.m.toNat ops) := by
  have hm := size.toNat_pos
  induction ops with
  | nil => exact ⟨Nat.le_refl 0, iff_of_true rfl trivial⟩
  | cons op ops ih =>
    obtain ⟨hle, hiff⟩ := ih h.tail
    generalize hprev : (setArith size.m 0).after ⟨Avg, 0⟩ ops = s at hle hiff
    cases op with
    | add hash =>
      have hfit' := shares_lt hm (Performed.length_le h)
      have hstep : (setArith size.m 0).after ⟨Avg, 0⟩ (.add hash :: ops) =
          { s with hashGPoW := addHash1 size.m s.hashGPoW hash } := by rw [← hprev]; rfl
      simp only [queueOf, shares, List.map_cons, List.sum_cons] at hfit' ⊢
      simp only [shares] at hle hiff
      rw [hstep, addHash1_eq, BitVec.toNat_ofNat, mod_eq_of_lt (by omega)]
      refine ⟨by omega, ?_⟩
      rw [LosesNothing, ← hiff]
      omega
    | evict hash =>
      have hsum := shares_erase (m := size.m.toNat) h.2
      have hup := shareUp_eq hm hash
      have hstep : (setArith size.m 0).after ⟨Avg, 0⟩ (.evict hash :: ops) =
          { s with hashGPoW := minusHash1 size.m s.hashGPoW hash } := by rw [← hprev]; rfl
      rw [hstep, minusHash1_eq, BitVec.toNat_ofNat, mod_eq_of_lt (by omega), queueOf, LosesNothing,
        ← shares_eq_zero_iff hm, ← hiff]
      split at hup
      · omega
      · omega

/-- The two back ends leave the same mean if no fraction gets lost on the way and the
fractions that are left stay below one hash. -/
theorem setArith_agree_iff (size : GPoWSize) (Avg : ArithUint288) (ops : List QueueOp)
    (hops : Performed size.m.toNat ops) :
    (setArith size.m 0).mean ⟨Avg, 0⟩ ops = (setArith size.m 1).mean ⟨Avg, 0⟩ ops ↔
      LosesNothing size.m.toNat ops ∧ rests size.m.toNat (queueOf ops) < size.m.toNat := by
  have hm := size.toNat_pos
  obtain ⟨mean, hmean, hvalue⟩ := mean_setArith_one size ⟨Avg, 0⟩ hops
  obtain ⟨hle, hiff⟩ := after_setArith_zero size Avg hops
  have hzero : (setArith size.m 0).mean ⟨Avg, 0⟩ ops =
      some ((setArith size.m 0).after ⟨Avg, 0⟩ ops).hashGPoW := rfl
  have hsplit : mean.toNat = shares size.m.toNat (queueOf ops) +
      rests size.m.toNat (queueOf ops) / size.m.toNat := by
    rw [hvalue, hashSum_eq size.m.toNat, Nat.add_comm, add_mul_div_left _ _ hm, Nat.add_comm]
  have hrest : rests size.m.toNat (queueOf ops) / size.m.toNat = 0 ↔
      rests size.m.toNat (queueOf ops) < size.m.toNat := by
    rw [Nat.div_eq_zero_iff]
    omega
  rw [hzero, hmean, Option.some.injEq, ← hiff, ← hrest]
  generalize rests size.m.toNat (queueOf ops) / size.m.toNat = rest at hsplit
  constructor
  · intro h
    rw [h] at hle ⊢
    omega
  · rintro ⟨hall, hnone⟩
    apply BitVec.eq_of_toNat_eq
    omega

theorem setArith_agree_even :
    (setArith 2 0).mean ⟨.zero 9, 0⟩ [.add 2, .evict 6, .add 4, .add 6] =
      (setArith 2 1).mean ⟨.zero 9, 0⟩ [.add 2, .evict 6, .add 4, .add 6] := by
  refine (setArith_agree_iff ⟨2, by decide⟩ (.zero 9) _ (by decide)).mpr ⟨?_, by decide⟩
  exact .inr ⟨by decide, trivial⟩

/-- Two odd hashes: one back end drops a half twice, the other adds the halves up. -/
theorem setArith_differ_odd :
    Performed 2 [.add 3, .add 1] ∧ (queueOf [.add 3, .add 1]).length = 2 ∧
      (setArith 2 0).mean ⟨.zero 9, 0⟩ [.add 3, .add 1] = some 1 ∧
      (setArith 2 1).mean ⟨.zero 9, 0⟩ [.add 3, .add 1] = some 2 := by
  refine ⟨by decide, by decide, ?_, by decide⟩
  show some (addHash1 2 (addHash1 2 0 1) 3) = some 1
  rw [addHash1_eq ⟨2, by decide⟩, addHash1_eq ⟨2, by decide⟩]
  decide

end OurChain
