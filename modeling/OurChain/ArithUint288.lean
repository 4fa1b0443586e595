import OurChain.Serialize
import OurChain.Lib.Limbs

/-!
# 288-bit integers

The part of `base_uint` that the sums of block hashes need, and `arith_uint288` with the
operators it adds: the addition of a `uint256`, the division by a 32-bit number and the
division by a 64-bit number, which rests on a routine of its own for the length of a
number.
-/

namespace OurChain

open Nat
open BitVec hiding not_not

/-- `base_uint` with `n` limbs. -/
structure BaseUint (n : Nat) where
  pn : List (BitVec 32)
  length_pn : pn.length = n
  deriving DecidableEq

abbrev ArithUint288 := BaseUint 9

namespace BaseUint

variable {n : Nat}

def toNat (a : BaseUint n) : Nat := Limbs.toNat a.pn

variable (a : BaseUint n)

theorem toNat_lt : a.toNat < 2 ^ (32 * n) := by
  have h := Limbs.toNat_lt a.pn
  rwa [a.length_pn, ← Nat.pow_mul] at h

def zero (n : Nat) : BaseUint n := ⟨List.replicate n 0#32, by simp⟩

@[simp] theorem toNat_zero (n : Nat) : (zero n).toNat = 0 := Limbs.toNat_replicate_zero n

def sub (a b : BaseUint n) : BaseUint n :=
  ⟨Limbs.subtract a.pn b.pn, by
    rw [Limbs.subtract_eq (by decide) (a.length_pn.trans b.length_pn.symm), Limbs.length_ofNat,
      a.length_pn]⟩

theorem toNat_eq_mod {a : BaseUint n} {k x : Nat} (h : a.pn = Limbs.ofNat 32 k x) :
    a.toNat = x % 2 ^ (32 * n) := by
  have hlen := a.length_pn
  rw [h, Limbs.length_ofNat] at hlen
  rw [toNat, h, Limbs.toNat_ofNat, hlen, ← Nat.pow_mul]

theorem toNat_sub (b : BaseUint n) :
    (a.sub b).toNat = (a.toNat + (2 ^ (32 * n) - b.toNat)) % 2 ^ (32 * n) := by
  rw [toNat_eq_mod (Limbs.subtract_eq (by decide) (a.length_pn.trans b.length_pn.symm)), a.length_pn,
    ← Nat.pow_mul]
  rfl

theorem toNat_sub_of_le {a b : BaseUint n} (h : b.toNat ≤ a.toNat) :
    (a.sub b).toNat = a.toNat - b.toNat := by
  have ha := a.toNat_lt
  have hsum : a.toNat + (2 ^ (32 * n) - b.toNat) = a.toNat - b.toNat + 2 ^ (32 * n) := by omega
  rw [toNat_sub, hsum, add_mod_right, mod_eq_of_lt (by omega)]

def ge (a b : BaseUint n) : Bool := Limbs.compareTo a.pn b.pn != .lt

theorem ge_iff (b : BaseUint n) : a.ge b = true ↔ b.toNat ≤ a.toNat := by
  rw [ge, bne_iff_ne]
  exact Limbs.compareTo_ne_lt (a.length_pn.trans b.length_pn.symm)

def shiftLeft (a : BaseUint n) (shift : Nat) : BaseUint n :=
  ⟨Limbs.shiftLeft shift a.pn, by rw [Limbs.length_shiftLeft, a.length_pn]⟩

theorem toNat_shiftLeft (shift : Nat) :
    (a.shiftLeft shift).toNat = a.toNat * 2 ^ shift % 2 ^ (32 * n) := by
  rw [toNat, shiftLeft, Limbs.toNat_shiftLeft (by decide), a.length_pn, ← Nat.pow_mul]
  rfl

def shiftRight (a : BaseUint n) (shift : Nat) : BaseUint n :=
  ⟨Limbs.shiftRight shift a.pn, by rw [Limbs.length_shiftRight, a.length_pn]⟩

theorem toNat_shiftRight (shift : Nat) : (a.shiftRight shift).toNat = a.toNat / 2 ^ shift :=
  Limbs.toNat_shiftRight (by decide) shift a.pn

def setBit (a : BaseUint n) (shift : Nat) : BaseUint n :=
  ⟨Limbs.setBit shift a.pn, by rw [Limbs.length_setBit, a.length_pn]⟩

theorem toNat_setBit {a : BaseUint n} {shift : Nat} (hshift : shift < 32 * n)
    (hdvd : 2 ^ (shift + 1) ∣ a.toNat) : (a.setBit shift).toNat = a.toNat + 2 ^ shift :=
  Limbs.toNat_setBit (by decide) (a.length_pn.symm ▸ hshift) hdvd

/-- The loop of `operator/=`, for the values of `shift` below the first argument. -/
def divideLoop : Nat → BaseUint n → BaseUint n → BaseUint n → BaseUint n
  | 0, _, _, quotient => quotient
  | shift + 1, num, div, quotient =>
    if num.ge div then divideLoop shift (num.sub div) (div.shiftRight 1) (quotient.setBit shift)
    else divideLoop shift num (div.shiftRight 1) quotient

end BaseUint

def Uint256.words (b : Uint256) : List (BitVec 32) := Limbs.ofNat 32 8 b.toNat

@[simp] theorem Uint256.length_words (b : Uint256) : (Uint256.words b).length = 8 :=
  Limbs.length_ofNat 8 b.toNat

@[simp] theorem Uint256.toNat_words (b : Uint256) : Limbs.toNat (Uint256.words b) = b.toNat := by
  rw [Uint256.words, Limbs.toNat_ofNat, ← Nat.pow_mul]
  exact mod_eq_of_lt b.isLt

namespace ArithUint288

/-- `operator+=` of a `uint256`. The last limb takes the carry, and none is expected
out of it. -/
def add (a : ArithUint288) (b : Uint256) : ArithUint288 :=
  let sum := Limbs.addCarry 0 (a.pn.take 8) (Uint256.words b)
  ⟨sum.1 ++ (a.pn.drop 8).map (· + BitVec.ofNat 32 sum.2), by
    have hlen : (a.pn.take 8).length = (Uint256.words b).length := by simp [a.length_pn]
    simp [sum, Limbs.addCarry_eq 0 hlen, a.length_pn]⟩

theorem toNat_add {a : ArithUint288} {b : Uint256} (h : a.toNat + b.toNat < 2 ^ 288) :
    (a.add b).toNat = a.toNat + b.toNat := by
  obtain ⟨top, htop⟩ : ∃ top, a.pn.drop 8 = [top] :=
    List.length_eq_one_iff.mp (by rw [List.length_drop, a.length_pn])
  have hlen : (a.pn.take 8).length = 8 := by rw [List.length_take, a.length_pn]; rfl
  have hadd := Limbs.addCarry_eq 0 (hlen.trans (Uint256.length_words b).symm)
  have hsplit := Limbs.toNat_take_add_drop 8 a.pn
  have hpow : (2 ^ 32) ^ 8 = 2 ^ 256 := by rw [← Nat.pow_mul]
  rw [hlen, hpow, Nat.zero_add, Uint256.toNat_words] at hadd
  rw [htop, hpow] at hsplit
  simp only [Limbs.toNat, Nat.mul_zero, Nat.add_zero] at hsplit
  -- the low limbs hold the sum modulo 2 ^ 256 and the top one takes the rest
  generalize hs : Limbs.toNat (a.pn.take 8) + b.toNat = s at hadd
  have hvalue : a.toNat + b.toNat = s + 2 ^ 256 * top.toNat := by
    show Limbs.toNat a.pn + b.toNat = _
    omega
  have hcarry : (top + BitVec.ofNat 32 (s / 2 ^ 256)).toNat = top.toNat + s / 2 ^ 256 := by
    rw [BitVec.toNat_add, toNat_ofNat, add_mod_mod]
    omega
  show Limbs.toNat ((Limbs.addCarry 0 (a.pn.take 8) (Uint256.words b)).1 ++
    (a.pn.drop 8).map (· + BitVec.ofNat 32 (Limbs.addCarry 0 (a.pn.take 8) (Uint256.words b)).2)) = _
  rw [hadd, htop, Limbs.toNat_append, Limbs.toNat_ofNat, Limbs.length_ofNat, hpow, List.map_singleton,
    Limbs.toNat, Limbs.toNat, hcarry, hvalue]
  omega

/-- `ToUint256`: the last limb is left out. -/
def toUint256 (a : ArithUint288) : Uint256 := BitVec.ofNat 256 (Limbs.toNat (a.pn.take 8))

theorem toNat_toUint256 {a : ArithUint288} (h : a.toNat < 2 ^ 256) :
    (toUint256 a).toNat = a.toNat := by
  have hpow : (2 ^ 32) ^ 8 = 2 ^ 256 := by rw [← Nat.pow_mul]
  have hlow : a.toNat % 2 ^ 256 = a.toNat := mod_eq_of_lt h
  rw [toUint256, toNat_ofNat, Limbs.toNat_take, hpow, mod_mod]
  exact hlow

/-- `operator/=(uint32_t)`: one limb after the other is divided together with the
remainder above it. A zero traps. -/
def divUint32 (a : ArithUint288) (b : BitVec 32) : Option ArithUint288 :=
  if b = 0 then none
  else some ⟨(Limbs.divideShort b.toNat a.pn).1, by rw [Limbs.length_divideShort, a.length_pn]⟩

theorem divUint32_eq (a : ArithUint288) {b : BitVec 32} (hb : b ≠ 0) :
    ∃ q, divUint32 a b = some q ∧ q.toNat = a.toNat / b.toNat := by
  have hpos : 0 < b.toNat := Nat.pos_of_ne_zero fun h => hb (eq_of_toNat_eq h)
  have hlt : Limbs.toNat a.pn / b.toNat < (2 ^ 32) ^ a.pn.length :=
    Nat.lt_of_le_of_lt (Nat.div_le_self _ _) (Limbs.toNat_lt a.pn)
  refine ⟨_, if_neg hb, ?_⟩
  show Limbs.toNat (Limbs.divideShort b.toNat a.pn).1 = _
  rw [Limbs.divideShort_eq hpos, Limbs.toNat_ofNat]
  exact mod_eq_of_lt hlt

/-- `LMBMapTbl`: the position of the highest bit of a byte. -/
def LMBMapTbl : List Nat :=
  [0, 0, 1, 1] ++ List.replicate 4 2 ++ List.replicate 8 3 ++ List.replicate 16 4 ++
    List.replicate 32 5 ++ List.replicate 64 6 ++ List.replicate 128 7

/-- What `bits` returns for a word that is not zero. The lowest byte is not looked up. -/
def wordBits (tmp : BitVec 32) : Nat :=
  let byte (nbyts : Nat) : Byte := (tmp >>> (8 * nbyts)).setWidth 8
  let found (nbyts : Nat) : Nat := 8 * nbyts + (LMBMapTbl[(byte nbyts).toNat]?).getD 0 + 1
  if byte 3 ≠ 0 then found 3
  else if byte 2 ≠ 0 then found 2
  else if byte 1 ≠ 0 then found 1
  else 1

/-- `bits`: the first word from above that is not zero decides. -/
def bits : List (BitVec 32) → Nat
  | [] => 0
  | tmp :: above => if bits above ≠ 0 then 32 + bits above else if tmp ≠ 0 then wordBits tmp else 0

theorem LMBMapTbl_eq (b : Byte) : (LMBMapTbl[b.toNat]?).getD 0 = b.toNat.log2 := by
  revert b
  decide

/-- The bits that `bits` misses: it takes a top word below 256 for a one. -/
def missedBits (x : Nat) : Nat := if x.log2 % 32 < 8 then x.log2 % 32 else 0

def foundBits (x : Nat) : Nat := if x = 0 then 0 else x.log2 + 1 - missedBits x

theorem log2_add_mul {k low high : Nat} (hlow : low < 2 ^ k) (hhigh : high ≠ 0) :
    (low + 2 ^ k * high).log2 = k + high.log2 := by
  have hle := log2_self_le hhigh
  have hlt := lt_log2_self (n := high)
  have hne : low + 2 ^ k * high ≠ 0 := by
    have := Nat.mul_pos (Nat.two_pow_pos k) (Nat.pos_of_ne_zero hhigh)
    omega
  rw [log2_eq_iff hne, Nat.pow_add, Nat.add_assoc, Nat.pow_add]
  constructor
  · have := Nat.mul_le_mul_left (2 ^ k) hle
    omega
  · have := Nat.mul_le_mul_left (2 ^ k) hlt
    rw [Nat.mul_succ] at this
    omega

theorem log2_eq_of_div {k x : Nat} (h : x / 2 ^ k ≠ 0) : x.log2 = k + (x / 2 ^ k).log2 := by
  conv_lhs => rw [← mod_add_div x (2 ^ k)]
  exact log2_add_mul (mod_lt _ (Nat.two_pow_pos k)) h

theorem foundBits_high {nbyts x : Nat} (hpos : 1 ≤ nbyts) (hle : nbyts ≤ 3)
    (hx : x / 2 ^ (8 * nbyts) < 256) (hne : x / 2 ^ (8 * nbyts) ≠ 0) :
    foundBits x = 8 * nbyts + (x / 2 ^ (8 * nbyts)).log2 + 1 := by
  have hlog := log2_eq_of_div hne
  have hbyte : (x / 2 ^ (8 * nbyts)).log2 < 8 := (log2_lt hne).mpr hx
  have hzero : x ≠ 0 := by
    rintro rfl
    simp at hne
  rw [foundBits, if_neg hzero, missedBits, if_neg (by omega)]
  omega

theorem toNat_byte (tmp : BitVec 32) (nbyts : Nat) :
    ((tmp >>> (8 * nbyts)).setWidth 8).toNat = tmp.toNat / 2 ^ (8 * nbyts) % 256 := by
  rw [toNat_setWidth, toNat_ushiftRight, shiftRight_eq_div_pow]

theorem byte_eq_zero_iff (tmp : BitVec 32) (nbyts : Nat) :
    (tmp >>> (8 * nbyts)).setWidth 8 = 0#8 ↔ tmp.toNat / 2 ^ (8 * nbyts) % 256 = 0 := by
  rw [← toNat_byte]
  exact ⟨fun h => by rw [h]; rfl, fun h => eq_of_toNat_eq h⟩

theorem wordBits_eq {tmp : BitVec 32} (htmp : tmp ≠ 0) : wordBits tmp = foundBits tmp.toNat := by
  have hne : tmp.toNat ≠ 0 := fun h => htmp (eq_of_toNat_eq h)
  have hfound : ∀ nbyts, 1 ≤ nbyts → nbyts ≤ 3 → tmp.toNat / 2 ^ (8 * nbyts) < 256 →
      (tmp >>> (8 * nbyts)).setWidth 8 ≠ 0#8 →
      8 * nbyts + (LMBMapTbl[((tmp >>> (8 * nbyts)).setWidth 8).toNat]?).getD 0 + 1 =
        foundBits tmp.toNat := by
    intro nbyts hpos hle hx hbyte
    rw [ne_eq, byte_eq_zero_iff, mod_eq_of_lt hx] at hbyte
    rw [LMBMapTbl_eq, toNat_byte, mod_eq_of_lt hx, foundBits_high hpos hle hx hbyte]
  unfold wordBits
  dsimp only
  split
  · rename_i h3
    exact hfound 3 (by decide) (by decide) (by omega) h3
  · rename_i h3
    rw [not_not, ofNat_eq_ofNat, byte_eq_zero_iff] at h3
    split
    · rename_i h2
      exact hfound 2 (by decide) (by decide) (by omega) h2
    · rename_i h2
      rw [not_not, ofNat_eq_ofNat, byte_eq_zero_iff] at h2
      split
      · rename_i h1
        exact hfound 1 (by decide) (by decide) (by omega) h1
      · rename_i h1
        rw [not_not, ofNat_eq_ofNat, byte_eq_zero_iff] at h1
        have hlow : tmp.toNat < 2 ^ 8 := by omega
        have hlog : tmp.toNat.log2 < 8 := (log2_lt hne).mpr hlow
        rw [foundBits, if_neg hne, missedBits, if_pos (by omega)]
        omega

theorem foundBits_eq_zero_iff (x : Nat) : foundBits x = 0 ↔ x = 0 := by
  unfold foundBits missedBits
  split
  · simp [*]
  · split <;> omega

theorem bits_eq (xs : List (BitVec 32)) : bits xs = foundBits (Limbs.toNat xs) := by
  induction xs with
  | nil => rfl
  | cons tmp above ih =>
    rw [bits, ih, Limbs.toNat]
    split
    · rename_i habove
      rw [ne_eq, foundBits_eq_zero_iff] at habove
      have hlog := log2_add_mul tmp.isLt habove
      have hne : tmp.toNat + 2 ^ 32 * Limbs.toNat above ≠ 0 := by omega
      have hmod : (32 + (Limbs.toNat above).log2) % 32 = (Limbs.toNat above).log2 % 32 := by omega
      rw [foundBits, foundBits, if_neg habove, if_neg hne, missedBits, missedBits, hlog, hmod]
      split <;> omega
    · rename_i habove
      rw [not_not, foundBits_eq_zero_iff] at habove
      rw [habove, Nat.mul_zero, Nat.add_zero]
      split
      · rename_i htmp
        exact wordBits_eq htmp
      · rename_i htmp
        rw [not_not] at htmp
        rw [htmp]
        rfl

def ofUint64 (b : BitVec 64) : ArithUint288 :=
  ⟨b.setWidth 32 :: (b >>> 32).setWidth 32 :: List.replicate 7 0#32, rfl⟩

theorem toNat_ofUint64 (b : BitVec 64) : (ofUint64 b).toNat = b.toNat := by
  show Limbs.toNat (b.setWidth 32 :: (b >>> 32).setWidth 32 :: List.replicate 7 0#32) = _
  rw [Limbs.toNat, Limbs.toNat, Limbs.toNat_replicate_zero, toNat_setWidth,
    toNat_setWidth, toNat_ushiftRight, shiftRight_eq_div_pow]
  omega

/-- The loop of `operator/=(uint64_t)`, for the values of `shift` below the first argument. -/
def divideLoop : Nat → ArithUint288 → ArithUint288 → ArithUint288 → ArithUint288
  | 0, _, _, quotient => quotient
  | shift + 1, num, div, quotient =>
    if num.ge div then divideLoop shift (num.sub div) (div.shiftRight 1) (quotient.setBit shift)
    else divideLoop shift num (div.shiftRight 1) quotient

/-- `operator/=(uint64_t)`; a zero throws. -/
def divUint64 (a : ArithUint288) (b : BitVec 64) : Option ArithUint288 :=
  let div := ofUint64 b
  let num_bits := bits a.pn
  let div_bits := bits div.pn
  if div_bits = 0 then none
  else if div_bits > num_bits then some (.zero 9)
  else
    let shift := num_bits - div_bits
    some (divideLoop (shift + 1) a (div.shiftLeft shift) (.zero 9))

/-- The quotient by `d` with at most `count` bits. -/
def cappedQuotient (d count num : Nat) : Nat :=
  if d = 0 then 2 ^ count - 1 else min (num / d) (2 ^ count - 1)

theorem cappedQuotient_of_le {d shift num : Nat} (h : d * 2 ^ shift ≤ num) :
    2 ^ shift + cappedQuotient d shift (num - d * 2 ^ shift) = cappedQuotient d (shift + 1) num := by
  have hpos := Nat.two_pow_pos shift
  unfold cappedQuotient
  split
  · omega
  · rename_i hd
    have hdiv : num / d = (num - d * 2 ^ shift) / d + 2 ^ shift := by
      rw [← add_mul_div_left _ _ (Nat.pos_of_ne_zero hd), Nat.sub_add_cancel h]
    omega

theorem cappedQuotient_of_lt {d shift num : Nat} (h : num < d * 2 ^ shift) :
    cappedQuotient d shift num = cappedQuotient d (shift + 1) num := by
  have hd : d ≠ 0 := by
    rintro rfl
    simp at h
  have hquot : num / d < 2 ^ shift := (Nat.div_lt_iff_lt_mul (Nat.pos_of_ne_zero hd)).mpr
    (by rwa [Nat.mul_comm])
  unfold cappedQuotient
  rw [if_neg hd, if_neg hd]
  omega

end ArithUint288

theorem BaseUint.toNat_divideLoop {n : Nat} {d count : Nat} (hcount : count ≤ 32 * n)
    {num div quotient : BaseUint n} (hdiv : ∀ shift, count = shift + 1 → div.toNat = d * 2 ^ shift)
    (hquot : 2 ^ count ∣ quotient.toNat) : (divideLoop count num div quotient).toNat =
      quotient.toNat + ArithUint288.cappedQuotient d count num.toNat := by
  induction count generalizing num div quotient with
  | zero => simp [divideLoop, ArithUint288.cappedQuotient]
  | succ shift ih =>
    have hshift := hdiv shift rfl
    have hnext : ∀ k, shift = k + 1 → (div.shiftRight 1).toNat = d * 2 ^ k := by
      rintro k rfl
      rw [toNat_shiftRight, hshift, Nat.pow_succ, ← Nat.mul_assoc, Nat.pow_one,
        Nat.mul_div_cancel _ Nat.two_pos]
    have hdvd : 2 ^ shift ∣ quotient.toNat :=
      Nat.dvd_trans (Nat.pow_dvd_pow 2 (le_succ shift)) hquot
    rw [divideLoop]
    split
    · rename_i hge
      rw [ge_iff] at hge
      have hset := toNat_setBit hcount hquot
      rw [ih (le_of_succ_le hcount) hnext (hset ▸ Nat.dvd_add hdvd (Nat.dvd_refl _)), hset,
        toNat_sub_of_le hge, hshift, Nat.add_assoc, ArithUint288.cappedQuotient_of_le (hshift ▸ hge)]
    · rename_i hlt
      rw [ge_iff, Nat.not_le] at hlt
      rw [ih (le_of_succ_le hcount) hnext hdvd, ArithUint288.cappedQuotient_of_lt (hshift ▸ hlt)]

namespace ArithUint288

theorem divideLoop_eq : @divideLoop = BaseUint.divideLoop := by
  funext count
  induction count with
  | zero => rfl
  | succ shift ih =>
    funext num div quotient
    rw [divideLoop, BaseUint.divideLoop, ih]

theorem foundBits_le {x : Nat} (hx : x < 2 ^ 288) : foundBits x ≤ 288 := by
  rw [foundBits]
  split
  · exact Nat.zero_le _
  · rename_i hne
    have := (log2_lt hne).mpr hx
    omega

theorem two_pow_le_of_foundBits {x k : Nat} (h : k + 1 ≤ foundBits x) : 2 ^ k ≤ x := by
  rw [foundBits] at h
  split at h
  · omega
  · rename_i hne
    exact Nat.le_trans (Nat.pow_le_pow_right Nat.two_pos (by omega)) (log2_self_le hne)

theorem cappedQuotient_ne_of_lost {n d t : Nat} (hn : n < 2 ^ 288) (hd : d < 2 ^ 64) (ht : t < 288)
    (hle : 2 ^ t ≤ n) (hlost : 2 ^ 288 ≤ d * 2 ^ t) :
    cappedQuotient (d % 2 ^ (288 - t)) (t + 1) n ≠ n / d := by
  have hsplit := (pow_sub_mul_pow 2 ht.le).symm
  have hpos : 0 < d := by
    rcases Nat.eq_zero_or_pos d with rfl | hpos
    · rw [Nat.zero_mul] at hlost
      exact absurd (Nat.lt_of_lt_of_le (Nat.two_pow_pos _) hlost) (Nat.lt_irrefl 0)
    · exact hpos
  have hhalf : 2 * (d % 2 ^ (288 - t)) ≤ d := by
    have hge : 2 ^ (288 - t) ≤ d := Nat.le_of_mul_le_mul_right (hsplit ▸ hlost) (Nat.two_pow_pos t)
    have hdiv := Nat.div_pos hge (Nat.two_pow_pos (288 - t))
    have hadd := div_add_mod d (2 ^ (288 - t))
    have hmul := Nat.mul_le_mul_left (2 ^ (288 - t)) hdiv
    omega
  have hbig : 2 ^ 224 < 2 ^ t := by
    by_contra hsmall
    have h := Nat.mul_le_mul_left d (Nat.le_of_not_lt hsmall)
    omega
  have hquot : 1 ≤ n / d := by
    rw [Nat.le_div_iff_mul_le hpos]
    omega
  have hfew : n / d < 2 ^ t := (Nat.div_lt_iff_lt_mul hpos).mpr (by rw [Nat.mul_comm]; omega)
  unfold cappedQuotient
  split
  · omega
  · rename_i hne
    have hdouble : 2 * (n / d) ≤ n / (d % 2 ^ (288 - t)) := by
      rw [Nat.le_div_iff_mul_le (Nat.pos_of_ne_zero hne)]
      calc 2 * (n / d) * (d % 2 ^ (288 - t)) = n / d * (2 * (d % 2 ^ (288 - t))) := by ring
        _ ≤ n / d * d := Nat.mul_le_mul_left _ hhalf
        _ ≤ n := div_mul_le_self n d
    omega

/-- The bits that the division tries hold the quotient, and the shifted divisor fits. -/
def QuotientTried (n d : Nat) : Prop :=
  if foundBits n < foundBits d then n < d
  else d * 2 ^ (foundBits n - foundBits d) < 2 ^ 288 ∧ n < d * 2 ^ (foundBits n - foundBits d + 1)

instance (n d : Nat) : Decidable (QuotientTried n d) := by
  unfold QuotientTried
  infer_instance

theorem divUint64_eq_iff (a : ArithUint288) {b : BitVec 64} (hb : b ≠ 0) :
    (∃ q, divUint64 a b = some q ∧ q.toNat = a.toNat / b.toNat) ↔
      QuotientTried a.toNat b.toNat := by
  have hpos : 0 < b.toNat := Nat.pos_of_ne_zero fun h => hb (eq_of_toNat_eq h)
  have hdiv : bits (ofUint64 b).pn = foundBits b.toNat :=
    (bits_eq _).trans (congrArg foundBits (toNat_ofUint64 b))
  have hnum : bits a.pn = foundBits a.toNat := bits_eq a.pn
  have hfound : foundBits b.toNat ≠ 0 := by
    rw [ne_eq, foundBits_eq_zero_iff]
    omega
  rw [divUint64, QuotientTried]
  simp only [hdiv, hnum, if_neg hfound]
  split
  · simp only [Option.some.injEq, exists_eq_left', BaseUint.toNat_zero]
    rw [eq_comm, Nat.div_eq_zero_iff]
    omega
  · have ha : a.toNat < 2 ^ 288 := Nat.lt_of_lt_of_eq a.toNat_lt (congrArg (2 ^ ·) (by decide))
    have hle := foundBits_le ha
    generalize ht : foundBits a.toNat - foundBits b.toNat = t
    have hsplit : 2 ^ 288 = 2 ^ (288 - t) * 2 ^ t := (pow_sub_mul_pow 2 (by omega)).symm
    have hcap : (divideLoop (t + 1) a ((ofUint64 b).shiftLeft t) (.zero 9)).toNat =
        cappedQuotient (b.toNat % 2 ^ (288 - t)) (t + 1) a.toNat := by
      have hshift : ((ofUint64 b).shiftLeft t).toNat = b.toNat % 2 ^ (288 - t) * 2 ^ t := by
        rw [BaseUint.toNat_shiftLeft, toNat_ofUint64, ← mul_mod_mul_right, ← hsplit]
      rw [divideLoop_eq, BaseUint.toNat_divideLoop (by omega) (d := b.toNat % 2 ^ (288 - t))
        (fun k hk => by
        cases hk; exact hshift) (by simp), BaseUint.toNat_zero, Nat.zero_add]
    simp only [Option.some.injEq, exists_eq_left', hcap]
    by_cases hlost : b.toNat * 2 ^ t < 2 ^ 288
    · have hkeep : b.toNat % 2 ^ (288 - t) = b.toNat := by
        apply mod_eq_of_lt
        exact Nat.lt_of_mul_lt_mul_right (hsplit ▸ hlost)
      have hpow := Nat.two_pow_pos (t + 1)
      rw [hkeep, cappedQuotient, if_neg (Nat.ne_of_gt hpos), Nat.mul_comm b.toNat (2 ^ (t + 1)),
        ← Nat.div_lt_iff_lt_mul hpos]
      omega
    · have hne := cappedQuotient_ne_of_lost (t := t) ha b.isLt (by omega)
        (two_pow_le_of_foundBits (by omega)) (Nat.le_of_not_lt hlost)
      exact ⟨fun h => absurd h hne, fun h => absurd h.1 hlost⟩

end ArithUint288

end OurChain
