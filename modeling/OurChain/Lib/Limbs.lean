import Mathlib

/-!
# Numbers in limbs

A number as the list of its digits to the base `2 ^ w`, least significant first, and the loops
by which fixed-width integer classes add, negate, multiply, compare, measure, shift and divide
such lists. Every operation is said to be the digits of a number: what it computes is read off
there, modulo the width of the list.
-/

namespace OurChain

open List Nat

namespace Limbs

variable {w : Nat}

def toNat : List (BitVec w) → Nat
  | [] => 0
  | x :: xs => x.toNat + 2 ^ w * toNat xs

def ofNat (w : Nat) : Nat → Nat → List (BitVec w)
  | 0, _ => []
  | n + 1, x => BitVec.ofNat w x :: ofNat w n (x / 2 ^ w)

variable (n : Nat) (xs : List (BitVec w))

@[simp] theorem length_ofNat (x : Nat) : (ofNat w n x).length = n := by
  induction n generalizing x with
  | zero => rfl
  | succ n ih => simp [ofNat, ih]

theorem toNat_ofNat (x : Nat) : toNat (ofNat w n x) = x % (2 ^ w) ^ n := by
  induction n generalizing x with
  | zero => simp [ofNat, toNat, mod_one]
  | succ n ih =>
    rw [ofNat, toNat, ih, BitVec.toNat_ofNat, Nat.pow_succ', mod_mul]

theorem toNat_lt : toNat xs < (2 ^ w) ^ xs.length := by
  induction xs with
  | nil => simp [toNat]
  | cons x xs ih =>
    have hstep : 2 ^ w * (toNat xs + 1) ≤ 2 ^ w * (2 ^ w) ^ xs.length := Nat.mul_le_mul_left _ ih
    rw [toNat, length_cons, Nat.pow_succ']
    rw [Nat.mul_add] at hstep
    omega

theorem ofNat_toNat : ofNat w xs.length (toNat xs) = xs := by
  induction xs with
  | nil => rfl
  | cons x xs ih =>
    have hhead : BitVec.ofNat w (x.toNat + 2 ^ w * toNat xs) = x := by
      apply BitVec.eq_of_toNat_eq
      rw [BitVec.toNat_ofNat, add_mul_mod_self_left, mod_eq_of_lt x.isLt]
    have htail : (x.toNat + 2 ^ w * toNat xs) / 2 ^ w = toNat xs := by
      rw [add_mul_div_left _ _ (Nat.two_pow_pos w), div_eq_of_lt x.isLt, Nat.zero_add]
    rw [length_cons, ofNat, toNat, hhead, htail, ih]

theorem toNat_inj {xs ys : List (BitVec w)} (hlen : xs.length = ys.length)
    (h : toNat xs = toNat ys) : xs = ys := by
  rw [← ofNat_toNat xs, ← ofNat_toNat ys, hlen, h]

theorem ofNat_congr {n x y : Nat} (h : x % (2 ^ w) ^ n = y % (2 ^ w) ^ n) :
    ofNat w n x = ofNat w n y :=
  toNat_inj (by simp) (by rw [toNat_ofNat, toNat_ofNat, h])

theorem ofNat_succ_add (low high : Nat) :
    ofNat w (n + 1) (low + 2 ^ w * high) = BitVec.ofNat w low :: ofNat w n (low / 2 ^ w + high) := by
  rw [ofNat, add_mul_div_left _ _ (Nat.two_pow_pos w)]
  congr 1
  apply BitVec.eq_of_toNat_eq
  rw [BitVec.toNat_ofNat, BitVec.toNat_ofNat, add_mul_mod_self_left]

/-- Adds limb by limb and returns what is carried out of the last one. -/
def addCarry : Nat → List (BitVec w) → List (BitVec w) → List (BitVec w) × Nat
  | carry, x :: xs, y :: ys =>
    let n := carry + x.toNat + y.toNat
    let (zs, carry) := addCarry (n / 2 ^ w) xs ys
    (BitVec.ofNat w n :: zs, carry)
  | carry, _, _ => ([], carry)

theorem addCarry_eq (carry : Nat) {xs ys : List (BitVec w)} (hlen : xs.length = ys.length) :
    addCarry carry xs ys = (ofNat w xs.length (carry + toNat xs + toNat ys),
      (carry + toNat xs + toNat ys) / (2 ^ w) ^ xs.length) := by
  induction xs generalizing carry ys with
  | nil =>
    cases ys with
    | nil => simp [addCarry, ofNat, toNat]
    | cons y ys => simp at hlen
  | cons x xs ih =>
    cases ys with
    | nil => simp at hlen
    | cons y ys =>
      have hsum : carry + toNat (x :: xs) + toNat (y :: ys) =
          (carry + x.toNat + y.toNat) + 2 ^ w * (toNat xs + toNat ys) := by
        simp only [toNat]
        ring
      rw [addCarry, ih _ (by simpa using hlen), hsum, length_cons, ofNat_succ_add, Nat.pow_succ',
        ← Nat.div_div_eq_div_mul, add_mul_div_left _ _ (Nat.two_pow_pos w),
        Nat.add_assoc _ (toNat xs)]

/-- `++`: the carry runs on while limbs become zero. -/
def increment : List (BitVec w) → List (BitVec w)
  | [] => []
  | x :: xs => if x + 1 = 0 then (x + 1) :: increment xs else (x + 1) :: xs

theorem increment_eq (hw : 0 < w) (xs : List (BitVec w)) :
    increment xs = ofNat w xs.length (toNat xs + 1) := by
  induction xs with
  | nil => rfl
  | cons x xs ih =>
    have hsum : toNat (x :: xs) + 1 = (x.toNat + 1) + 2 ^ w * toNat xs := by
      rw [toNat]
      omega
    have hone : 1 % 2 ^ w = 1 := mod_eq_of_lt (Nat.one_lt_two_pow (Nat.ne_of_gt hw))
    have hhead : x + 1 = BitVec.ofNat w (x.toNat + 1) := by
      apply BitVec.eq_of_toNat_eq
      simp
    rw [increment, hsum, length_cons, ofNat_succ_add, ← hhead]
    split
    · rename_i hzero
      have hmod : (x.toNat + 1) % 2 ^ w = 0 := by
        simpa [hone] using congrArg BitVec.toNat hzero
      have hfull : x.toNat + 1 = 2 ^ w := by
        by_contra hne
        rw [mod_eq_of_lt (by omega)] at hmod
        omega
      rw [ih, hfull, Nat.div_self (Nat.two_pow_pos w), Nat.add_comm]
    · rename_i hzero
      have hlt : x.toNat + 1 < 2 ^ w := by
        by_contra hge
        apply hzero
        apply BitVec.eq_of_toNat_eq
        rw [hhead, BitVec.toNat_ofNat, show x.toNat + 1 = 2 ^ w by omega, mod_self]
        simp
      rw [div_eq_of_lt hlt, Nat.zero_add, ofNat_toNat]

theorem toNat_not : toNat (xs.map (~~~ ·)) + toNat xs + 1 = (2 ^ w) ^ xs.length := by
  induction xs with
  | nil => simp [toNat]
  | cons x xs ih =>
    have hsum : (2 ^ w - 1 - x.toNat) + 2 ^ w * toNat (xs.map (~~~ ·)) +
        (x.toNat + 2 ^ w * toNat xs) + 1 = 2 ^ w * (toNat (xs.map (~~~ ·)) + toNat xs + 1) := by
      rw [Nat.mul_add, Nat.mul_add]
      omega
    rw [map_cons, toNat, toNat, BitVec.toNat_not, hsum, ih, length_cons, Nat.pow_succ']

/-- `-b` as the class computes it: the complement, plus one. -/
def negate (xs : List (BitVec w)) : List (BitVec w) := increment (xs.map (~~~ ·))

theorem negate_eq (hw : 0 < w) (xs : List (BitVec w)) :
    negate xs = ofNat w xs.length ((2 ^ w) ^ xs.length - toNat xs) := by
  have hnot := toNat_not xs
  rw [negate, increment_eq hw, length_map]
  congr 1
  omega

def subtract (xs ys : List (BitVec w)) : List (BitVec w) := (addCarry 0 xs (negate ys)).1

theorem subtract_eq (hw : 0 < w) {xs ys : List (BitVec w)} (hlen : xs.length = ys.length) :
    subtract xs ys = ofNat w xs.length (toNat xs + ((2 ^ w) ^ xs.length - toNat ys)) := by
  rw [subtract, negate_eq hw, addCarry_eq _ (by rw [length_ofNat, hlen]), ← hlen]
  apply ofNat_congr
  rw [toNat_ofNat, Nat.zero_add, add_mod_mod]

/-- Adds a multiple of the second list to the first, in words of twice the width. -/
def mulAdd (m : BitVec w) : Nat → List (BitVec w) → List (BitVec w) → List (BitVec w)
  | carry, p :: ps, x :: xs =>
    let n := (carry + p.toNat + m.toNat * x.toNat) % 2 ^ (2 * w)
    BitVec.ofNat w n :: mulAdd m (n / 2 ^ w) ps xs
  | _, _, _ => []

theorem mulAdd_eq (m : BitVec w) {carry : Nat} (hcarry : carry < 2 ^ w) {ps xs : List (BitVec w)}
    (hlen : ps.length ≤ xs.length) :
    mulAdd m carry ps xs = ofNat w ps.length (carry + toNat ps + m.toNat * toNat xs) := by
  induction ps generalizing carry xs with
  | nil => rfl
  | cons p ps ih =>
    cases xs with
    | nil => simp at hlen
    | cons x xs =>
      -- a word of twice the width takes a product of limbs and two limbs more
      have hfit : carry + p.toNat + m.toNat * x.toNat < 2 ^ w * 2 ^ w := by
        have := Nat.mul_le_mul (le_sub_one_of_lt m.isLt) (le_sub_one_of_lt x.isLt)
        have hsquare : (2 ^ w - 1) * (2 ^ w - 1) + 2 * (2 ^ w - 1) + 1 = 2 ^ w * 2 ^ w := by
          obtain ⟨b, hb⟩ := exists_eq_add_one.mpr (Nat.two_pow_pos w)
          rw [hb, Nat.add_sub_cancel]
          ring
        omega
      have hsum : carry + toNat (p :: ps) + m.toNat * toNat (x :: xs) =
          (carry + p.toNat + m.toNat * x.toNat) + 2 ^ w * (toNat ps + m.toNat * toNat xs) := by
        simp only [toNat]
        ring
      rw [mulAdd, Nat.two_mul, Nat.pow_add, mod_eq_of_lt hfit,
        ih ((Nat.div_lt_iff_lt_mul (Nat.two_pow_pos w)).mpr hfit) (le_of_succ_le_succ hlen), hsum,
        length_cons, ofNat_succ_add, Nat.add_assoc _ (toNat ps)]

/-- Row by row: the multiple of `bs` by each limb is added one limb further up. -/
def multiply (bs : List (BitVec w)) : List (BitVec w) → List (BitVec w) → List (BitVec w)
  | a :: as, ps =>
    match mulAdd a 0 ps bs with
    | [] => []
    | p :: ps => p :: multiply bs as ps
  | [], ps => ps

theorem multiply_eq {as ps bs : List (BitVec w)} (hlen : as.length = ps.length)
    (hbs : ps.length ≤ bs.length) :
    multiply bs as ps = ofNat w ps.length (toNat ps + toNat as * toNat bs) := by
  induction as generalizing ps with
  | nil => cases length_eq_zero_iff.mp hlen.symm; rfl
  | cons a as ih =>
    obtain ⟨p, ps, rfl⟩ := exists_cons_of_length_eq_add_one hlen.symm
    have hsum : toNat (p :: ps) + toNat (a :: as) * toNat bs =
        (toNat (p :: ps) + a.toNat * toNat bs) + 2 ^ w * (toNat as * toNat bs) := by
      simp only [toNat]
      ring
    rw [multiply, mulAdd_eq a (Nat.two_pow_pos w) hbs, Nat.zero_add, hsum, length_cons,
      ofNat_succ_add, ofNat]
    dsimp only
    rw [ih (by simpa using hlen) (by rw [length_ofNat]; exact le_of_succ_le hbs), length_ofNat,
      toNat_ofNat, ofNat_congr (mod_add_mod _ _ _)]

def compareTo : List (BitVec w) → List (BitVec w) → Ordering
  | x :: xs, y :: ys =>
    match compareTo xs ys with
    | .eq => if x < y then .lt else if y < x then .gt else .eq
    | o => o
  | _, _ => .eq

theorem compareTo_eq {xs ys : List (BitVec w)} (hlen : xs.length = ys.length) :
    compareTo xs ys = compare (toNat xs) (toNat ys) := by
  induction xs generalizing ys with
  | nil =>
    cases ys with
    | nil => simp [compareTo, toNat]
    | cons y ys => simp at hlen
  | cons x xs ih =>
    cases ys with
    | nil => simp at hlen
    | cons y ys =>
      rw [compareTo, ih (by simpa using hlen), toNat, toNat]
      rcases Nat.lt_trichotomy (toNat xs) (toNat ys) with h | h | h
      · have hstep : 2 ^ w * (toNat xs + 1) ≤ 2 ^ w * toNat ys := Nat.mul_le_mul_left _ h
        rw [Nat.mul_add] at hstep
        rw [Nat.compare_eq_lt.mpr h, Nat.compare_eq_lt.mpr (by omega)]
      · rw [Nat.compare_eq_eq.mpr h, h]
        simp only [BitVec.lt_def]
        split
        · rw [Nat.compare_eq_lt.mpr (by omega)]
        · split
          · rw [Nat.compare_eq_gt.mpr (by omega)]
          · rw [Nat.compare_eq_eq.mpr (by omega)]
      · have hstep : 2 ^ w * (toNat ys + 1) ≤ 2 ^ w * toNat xs := Nat.mul_le_mul_left _ h
        rw [Nat.mul_add] at hstep
        rw [Nat.compare_eq_gt.mpr h, Nat.compare_eq_gt.mpr (by omega)]

theorem compareTo_ne_lt {xs ys : List (BitVec w)} (hlen : xs.length = ys.length) :
    compareTo xs ys ≠ .lt ↔ toNat ys ≤ toNat xs := by
  rw [compareTo_eq hlen, ne_eq, Nat.compare_eq_lt, Nat.not_lt]

/-- The highest bit from `nbits` down that is set, plus one. -/
def topBit (x : BitVec w) : Nat → Nat
  | 0 => 1
  | nbits + 1 => if x.getLsbD (nbits + 1) then nbits + 2 else topBit x nbits

/-- The first limb from above that is not zero decides. -/
def bits : List (BitVec w) → Nat
  | [] => 0
  | x :: xs => if bits xs ≠ 0 then w + bits xs else if x ≠ 0 then topBit x (w - 1) else 0

theorem topBit_le_iff {x : BitVec w} (hx : x.toNat ≠ 0) {nbits : Nat}
    (hlt : x.toNat < 2 ^ (nbits + 1)) (k : Nat) : topBit x nbits ≤ k ↔ x.toNat < 2 ^ k := by
  induction nbits with
  | zero =>
    rw [topBit, show x.toNat = 1 by omega, Nat.one_lt_two_pow_iff, one_le_iff_ne_zero]
  | succ nbits ih =>
    rw [topBit, BitVec.getLsbD]
    split
    · rename_i hbit
      have hge := ge_two_pow_of_testBit hbit
      refine ⟨fun h => Nat.lt_of_lt_of_le hlt (Nat.pow_le_pow_right Nat.two_pos h), fun h => ?_⟩
      exact (Nat.pow_lt_pow_iff_right Nat.one_lt_two).mp (Nat.lt_of_le_of_lt hge h)
    · rename_i hbit
      apply ih
      apply lt_pow_two_of_testBit
      intro i hi
      rcases Nat.eq_or_lt_of_le hi with rfl | hi
      · simpa using hbit
      · exact testBit_lt_two_pow (Nat.lt_of_lt_of_le hlt (Nat.pow_le_pow_right Nat.two_pos hi))

theorem bits_le_iff (hw : 0 < w) (xs : List (BitVec w)) (k : Nat) :
    bits xs ≤ k ↔ toNat xs < 2 ^ k := by
  induction xs generalizing k with
  | nil => simp [bits, toNat]
  | cons x xs ih =>
    have hzero : bits xs = 0 ↔ toNat xs = 0 := by simpa using ih 0
    rw [bits, toNat]
    split
    · rename_i hxs
      rw [ne_eq, hzero] at hxs
      have hdiv : (x.toNat + 2 ^ w * toNat xs) / 2 ^ w = toNat xs := by
        rw [add_mul_div_left _ _ (Nat.two_pow_pos w), div_eq_of_lt x.isLt, Nat.zero_add]
      rcases Nat.lt_or_ge k w with hk | hk
      · have := Nat.pow_le_pow_right Nat.two_pos (Nat.le_of_lt hk)
        have := Nat.le_mul_of_pos_right (2 ^ w) (Nat.pos_of_ne_zero hxs)
        omega
      · obtain ⟨j, rfl⟩ := Nat.exists_eq_add_of_le hk
        rw [Nat.add_le_add_iff_left, ih, Nat.pow_add, Nat.mul_comm (2 ^ w) (2 ^ j),
          ← Nat.div_lt_iff_lt_mul (Nat.two_pow_pos w), hdiv]
    · rename_i hxs
      rw [not_not, hzero] at hxs
      rw [hxs, Nat.mul_zero, Nat.add_zero]
      split
      · rename_i hx
        have hone : w - 1 + 1 = w := Nat.sub_add_cancel hw
        exact topBit_le_iff (fun h => hx (BitVec.eq_of_toNat_eq h)) (by rw [hone]; exact x.isLt) k
      · rename_i hx
        rw [not_not] at hx
        simp [hx]

theorem bits_eq_size (hw : 0 < w) (xs : List (BitVec w)) : bits xs = (toNat xs).size :=
  eq_of_forall_ge_iff fun k => (bits_le_iff hw xs k).trans size_le.symm

/-- Shifts by less than a limb; `below` is the limb before the list. -/
def shiftBitsLeft (shift : Nat) : BitVec w → List (BitVec w) → List (BitVec w)
  | _, [] => []
  | below, x :: xs =>
    ((x <<< shift) ||| (if shift = 0 then 0 else below >>> (w - shift))) :: shiftBitsLeft shift x xs

def movedUp (shift : Nat) (x : BitVec w) : Nat := x.toNat * 2 ^ shift / 2 ^ w

theorem movedUp_lt (shift : Nat) (x : BitVec w) : movedUp shift x < 2 ^ shift := by
  rw [movedUp, Nat.div_lt_iff_lt_mul (Nat.two_pow_pos w), Nat.mul_comm]
  exact Nat.mul_lt_mul_of_pos_left x.isLt (Nat.two_pow_pos shift)

variable {shift : Nat}

theorem toNat_movedUp (hshift : shift < w) (x : BitVec w) :
    (if shift = 0 then 0 else x >>> (w - shift)).toNat = movedUp shift x := by
  split
  · rename_i h
    rw [movedUp, h, Nat.pow_zero, Nat.mul_one, div_eq_of_lt x.isLt]
    rfl
  · have hpow := (pow_sub_mul_pow 2 hshift.le).symm
    rw [BitVec.toNat_ushiftRight, shiftRight_eq_div_pow, movedUp, hpow,
      Nat.mul_div_mul_right _ _ (Nat.two_pow_pos shift)]

theorem shiftedLimb (hshift : shift < w) (below x : BitVec w) :
    (x <<< shift) ||| (if shift = 0 then 0 else below >>> (w - shift)) =
      BitVec.ofNat w (x.toNat * 2 ^ shift + movedUp shift below) := by
  have hlow := movedUp_lt shift below
  have hpow := (pow_mul_pow_sub 2 hshift.le).symm
  have hlt : movedUp shift below < 2 ^ w :=
    Nat.lt_of_lt_of_le hlow (Nat.pow_le_pow_right Nat.two_pos (Nat.le_of_lt hshift))
  -- the shifted limb is a multiple of `2 ^ shift`, so the bits from below are added to it
  have hmod : x.toNat * 2 ^ shift % 2 ^ w = 2 ^ shift * (x.toNat % 2 ^ (w - shift)) := by
    rw [hpow, Nat.mul_comm, mul_mod_mul_left]
  apply BitVec.eq_of_toNat_eq
  rw [BitVec.toNat_or, BitVec.toNat_shiftLeft, toNat_movedUp hshift, shiftLeft_eq, hmod,
    ← two_pow_add_eq_or_of_lt hlow, BitVec.toNat_ofNat, add_mod (x.toNat * 2 ^ shift), hmod,
    mod_eq_of_lt hlt]
  have hle : x.toNat % 2 ^ (w - shift) + 1 ≤ 2 ^ (w - shift) := mod_lt _ (Nat.two_pow_pos _)
  have hroom := Nat.mul_le_mul_left (2 ^ shift) hle
  rw [← hpow, Nat.mul_add] at hroom
  exact (mod_eq_of_lt (by omega)).symm

theorem shiftBitsLeft_eq (hshift : shift < w) (below : BitVec w)
    (xs : List (BitVec w)) : shiftBitsLeft shift below xs =
      ofNat w xs.length (toNat xs * 2 ^ shift + movedUp shift below) := by
  induction xs generalizing below with
  | nil => rfl
  | cons x xs ih =>
    have hvalue : toNat (x :: xs) * 2 ^ shift + movedUp shift below =
        (x.toNat * 2 ^ shift + movedUp shift below) + 2 ^ w * (toNat xs * 2 ^ shift) := by
      rw [toNat]
      ring
    have hcarry : (x.toNat * 2 ^ shift + movedUp shift below) / 2 ^ w = movedUp shift x := by
      have hpow := (pow_mul_pow_sub 2 hshift.le).symm
      have hzero : movedUp shift below / 2 ^ shift = 0 := div_eq_of_lt (movedUp_lt shift below)
      rw [movedUp.eq_def shift x, hpow, ← Nat.div_div_eq_div_mul, ← Nat.div_div_eq_div_mul,
        Nat.add_comm, add_mul_div_right _ _ (Nat.two_pow_pos shift), hzero, Nat.zero_add,
        Nat.mul_div_cancel _ (Nat.two_pow_pos shift)]
    rw [shiftBitsLeft, shiftedLimb hshift, ih, length_cons, hvalue, ofNat_succ_add, hcarry,
      Nat.add_comm (movedUp shift x)]

def shiftLeft (shift : Nat) (xs : List (BitVec w)) : List (BitVec w) :=
  (List.replicate (shift / w) 0#w ++ shiftBitsLeft (shift % w) 0 xs).take xs.length

theorem toNat_append (ys : List (BitVec w)) :
    toNat (xs ++ ys) = toNat xs + (2 ^ w) ^ xs.length * toNat ys := by
  induction xs with
  | nil => simp [toNat]
  | cons x xs ih =>
    rw [cons_append, toNat, toNat, ih, length_cons, Nat.pow_succ']
    ring

@[simp] theorem toNat_replicate_zero : toNat (List.replicate n 0#w) = 0 := by
  induction n with
  | zero => rfl
  | succ n ih => simp [replicate_succ, toNat, ih]

theorem toNat_take_lt : toNat (xs.take n) < (2 ^ w) ^ n :=
  Nat.lt_of_lt_of_le (toNat_lt _)
    (Nat.pow_le_pow_right (Nat.two_pow_pos w) (length_take_le n xs))

theorem toNat_take_add_drop : toNat (xs.take n) + (2 ^ w) ^ n * toNat (xs.drop n) = toNat xs := by
  by_cases hn : xs.length ≤ n
  · rw [take_of_length_le hn, drop_eq_nil_of_le hn, toNat, Nat.mul_zero, Nat.add_zero]
  · conv_rhs => rw [← take_append_drop n xs]
    rw [toNat_append, length_take_of_le (by omega)]

theorem toNat_take : toNat (xs.take n) = toNat xs % (2 ^ w) ^ n := by
  rw [← toNat_take_add_drop n xs, add_mul_mod_self_left, mod_eq_of_lt (toNat_take_lt n xs)]

theorem toNat_drop : toNat (xs.drop n) = toNat xs / (2 ^ w) ^ n := by
  rw [← toNat_take_add_drop n xs, add_mul_div_left _ _ (Nat.pow_pos (Nat.two_pow_pos w)),
    div_eq_of_lt (toNat_take_lt n xs), Nat.zero_add]

theorem pow_split (w shift : Nat) : 2 ^ shift = 2 ^ (shift % w) * (2 ^ w) ^ (shift / w) := by
  rw [← Nat.pow_mul, ← Nat.pow_add, mod_add_div]

@[simp] theorem length_shiftBitsLeft (shift : Nat) (below : BitVec w) (xs : List (BitVec w)) :
    (shiftBitsLeft shift below xs).length = xs.length := by
  induction xs generalizing below with
  | nil => rfl
  | cons x xs ih => simp [shiftBitsLeft, ih]

@[simp] theorem length_shiftLeft (shift : Nat) (xs : List (BitVec w)) :
    (shiftLeft shift xs).length = xs.length := by
  simp [shiftLeft]

theorem toNat_shiftLeft (hw : 0 < w) (shift : Nat) (xs : List (BitVec w)) :
    toNat (shiftLeft shift xs) = toNat xs * 2 ^ shift % (2 ^ w) ^ xs.length := by
  have hbits := shiftBitsLeft_eq (mod_lt shift hw) 0 xs
  have hzero : movedUp (shift % w) (0 : BitVec w) = 0 := by simp [movedUp]
  rw [hzero, Nat.add_zero] at hbits
  rw [shiftLeft, toNat_take, toNat_append, toNat_replicate_zero, length_replicate, Nat.zero_add,
    hbits, toNat_ofNat, mul_mod_mod, pow_split w shift]
  congr 1
  ring

def shiftBitsRight (shift : Nat) : List (BitVec w) → List (BitVec w)
  | [] => []
  | x :: xs =>
    ((x >>> shift) ||| (if shift = 0 then 0 else xs.headD 0 <<< (w - shift))) ::
      shiftBitsRight shift xs

section
variable (shift : Nat) (xs : List (BitVec w))

def shiftRight : List (BitVec w) :=
  shiftBitsRight (shift % w) (xs.drop (shift / w)) ++ List.replicate (min (shift / w) xs.length) 0#w

@[simp] theorem length_shiftBitsRight : (shiftBitsRight shift xs).length = xs.length := by
  induction xs with
  | nil => rfl
  | cons x xs ih => simp [shiftBitsRight, ih]

@[simp] theorem length_shiftRight : (shiftRight shift xs).length = xs.length := by
  simp [shiftRight]
  omega

end

theorem shiftedDownLimb (hshift : shift < w) (x : BitVec w) (xs : List (BitVec w)) :
    ((x >>> shift) ||| (if shift = 0 then 0 else xs.headD 0 <<< (w - shift))).toNat =
      x.toNat / 2 ^ shift + 2 ^ (w - shift) * (toNat xs % 2 ^ shift) := by
  have hpow := (pow_sub_mul_pow 2 hshift.le).symm
  have hlow : x.toNat / 2 ^ shift < 2 ^ (w - shift) := by
    rw [Nat.div_lt_iff_lt_mul (Nat.two_pow_pos shift), ← hpow]
    exact x.isLt
  by_cases hzero : shift = 0
  · subst hzero
    simp [mod_one]
  · have hhead : toNat xs % 2 ^ shift = (xs.headD 0).toNat % 2 ^ shift := by
      cases xs with
      | nil => simp [toNat]
      | cons y ys => simp [toNat, hpow, add_mod, Nat.mul_assoc, Nat.mul_comm]
    have hhigh : (xs.headD 0 <<< (w - shift)).toNat =
        2 ^ (w - shift) * ((xs.headD 0).toNat % 2 ^ shift) := by
      rw [BitVec.toNat_shiftLeft, shiftLeft_eq, hpow, Nat.mul_comm, mul_mod_mul_left]
    rw [if_neg hzero, BitVec.toNat_or, BitVec.toNat_ushiftRight, shiftRight_eq_div_pow, hhigh,
      Nat.or_comm, ← two_pow_add_eq_or_of_lt hlow, hhead, Nat.add_comm]

theorem toNat_shiftBitsRight (hshift : shift < w) (xs : List (BitVec w)) :
    toNat (shiftBitsRight shift xs) = toNat xs / 2 ^ shift := by
  induction xs with
  | nil => simp [shiftBitsRight, toNat]
  | cons x xs ih =>
    have hpow := (pow_sub_mul_pow 2 hshift.le).symm
    have hsplit : 2 ^ w * (toNat xs / 2 ^ shift) + 2 ^ (w - shift) * (toNat xs % 2 ^ shift) =
        2 ^ (w - shift) * toNat xs := by
      conv_rhs => rw [← div_add_mod (toNat xs) (2 ^ shift)]
      rw [hpow]
      ring
    have hvalue : (x.toNat + 2 ^ w * toNat xs) / 2 ^ shift =
        x.toNat / 2 ^ shift + 2 ^ (w - shift) * toNat xs := by
      rw [hpow, Nat.mul_right_comm, add_mul_div_right _ _ (Nat.two_pow_pos shift)]
    rw [shiftBitsRight, toNat, shiftedDownLimb hshift, ih, toNat, hvalue]
    omega

theorem toNat_shiftRight (hw : 0 < w) (shift : Nat) (xs : List (BitVec w)) :
    toNat (shiftRight shift xs) = toNat xs / 2 ^ shift := by
  rw [shiftRight, toNat_append, toNat_replicate_zero, Nat.mul_zero, Nat.add_zero,
    toNat_shiftBitsRight (mod_lt shift hw), toNat_drop, Nat.div_div_eq_div_mul, Nat.mul_comm,
    ← pow_split]

/-- The quotient and the remainder, from the most significant limb down. -/
def divideShort (b : Nat) : List (BitVec w) → List (BitVec w) × Nat
  | [] => ([], 0)
  | x :: xs =>
    let (quotient, remainder) := divideShort b xs
    let n := x.toNat + 2 ^ w * remainder
    (BitVec.ofNat w (n / b) :: quotient, n % b)

@[simp] theorem length_divideShort (b : Nat) (xs : List (BitVec w)) :
    (divideShort b xs).1.length = xs.length := by
  induction xs with
  | nil => rfl
  | cons x xs ih => simp [divideShort, ih]

theorem divideShort_eq {b : Nat} (hb : 0 < b) (xs : List (BitVec w)) :
    divideShort b xs = (ofNat w xs.length (toNat xs / b), toNat xs % b) := by
  induction xs with
  | nil => simp [divideShort, ofNat, toNat]
  | cons x xs ih =>
    have hsplit : x.toNat + 2 ^ w * toNat xs =
        (x.toNat + 2 ^ w * (toNat xs % b)) + b * (2 ^ w * (toNat xs / b)) := by
      conv_lhs => rw [← mod_add_div (toNat xs) b]
      ring
    have hquot : (x.toNat + 2 ^ w * toNat xs) / b =
        (x.toNat + 2 ^ w * (toNat xs % b)) / b + 2 ^ w * (toNat xs / b) := by
      rw [hsplit, add_mul_div_left _ _ hb]
    -- the remainder above is below `b`, so one limb holds the digit
    have hdigit : (x.toNat + 2 ^ w * (toNat xs % b)) / b < 2 ^ w := by
      rw [Nat.div_lt_iff_lt_mul hb]
      have hstep := Nat.mul_le_mul_left (2 ^ w) (mod_lt (toNat xs) hb)
      rw [mul_succ] at hstep
      omega
    have hrem : (x.toNat + 2 ^ w * toNat xs) % b = (x.toNat + 2 ^ w * (toNat xs % b)) % b := by
      rw [hsplit, add_mul_mod_self_left]
    rw [divideShort, ih, length_cons, toNat, hquot, ofNat_succ_add, div_eq_of_lt hdigit,
      Nat.zero_add, hrem]

def setBit (i : Nat) (xs : List (BitVec w)) : List (BitVec w) :=
  xs.modify (i / w) (· ||| (1#w <<< (i % w)))

@[simp] theorem length_setBit (i : Nat) (xs : List (BitVec w)) :
    (setBit i xs).length = xs.length := by
  simp [setBit]

theorem toNat_setBit (hw : 0 < w) {i : Nat} {xs : List (BitVec w)} (hi : i < w * xs.length)
    (hdvd : 2 ^ (i + 1) ∣ toNat xs) : toNat (setBit i xs) = toNat xs + 2 ^ i := by
  induction xs generalizing i with
  | nil => simp at hi
  | cons x xs ih =>
    have hx := x.isLt
    rw [toNat] at hdvd ⊢
    by_cases hlow : i < w
    · have hpow : 2 ^ (i + 1) ∣ 2 ^ w := Nat.pow_dvd_pow 2 hlow
      have hdvdx : 2 ^ (i + 1) ∣ x.toNat :=
        (Nat.dvd_add_left (Nat.dvd_trans hpow (Nat.dvd_mul_right _ _))).mp hdvd
      obtain ⟨q, hq⟩ := hdvdx
      have hbit : 2 ^ i < 2 ^ (i + 1) := Nat.pow_lt_pow_right Nat.one_lt_two (lt_succ_self i)
      have hone : (1#w <<< i).toNat = 2 ^ i := by
        rw [BitVec.toNat_shiftLeft, BitVec.toNat_ofNat, shiftLeft_eq,
          mod_eq_of_lt (Nat.one_lt_two_pow (Nat.ne_of_gt hw)), Nat.one_mul,
          mod_eq_of_lt (Nat.pow_lt_pow_right Nat.one_lt_two hlow)]
      have hor : (x ||| 1#w <<< i).toNat = x.toNat + 2 ^ i := by
        rw [BitVec.toNat_or, hone, hq, ← two_pow_add_eq_or_of_lt hbit]
      rw [setBit, div_eq_of_lt hlow, mod_eq_of_lt hlow, modify_zero_cons, toNat, hor]
      omega
    · -- the limb below is zero, and the bit is one of the limbs above
      have hxz : x.toNat = 0 := by
        have hpow : 2 ^ w ∣ 2 ^ (i + 1) := Nat.pow_dvd_pow 2 (by omega)
        have hdvdx := (Nat.dvd_add_left (Nat.dvd_mul_right (2 ^ w) (toNat xs))).mp
          (Nat.dvd_trans hpow hdvd)
        exact eq_zero_of_dvd_of_lt hdvdx hx
      have hpow := (pow_mul_pow_sub 2 (Nat.le_of_not_lt hlow)).symm
      have hrest : 2 ^ (i - w + 1) ∣ toNat xs := by
        rw [hxz, Nat.zero_add, Nat.pow_succ, hpow, Nat.mul_assoc] at hdvd
        exact Nat.dvd_of_mul_dvd_mul_left (Nat.two_pow_pos w) hdvd
      have hlen : i - w < w * xs.length := by
        rw [length_cons, mul_succ] at hi
        omega
      have hset : setBit i (x :: xs) = x :: setBit (i - w) xs := by
        obtain ⟨j, rfl⟩ := Nat.exists_eq_add_of_le (Nat.le_of_not_lt hlow)
        rw [setBit, setBit, Nat.add_sub_cancel_left, add_mod_left, add_div_left _ hw,
          modify_succ_cons]
      rw [hset, toNat, ih hlen hrest, Nat.mul_add, ← hpow, Nat.add_assoc]

end Limbs

end OurChain
