import OurChain.ArithUint288
import OurChain.Compact

/-!
# The target of the miner

`InitGPoW` sets the globals that `NextGPoW` mines with. The target is decoded from `nBits`
by `GPoWSetCompact`, on the bytes of the global `bnTarget`, next to the decoder that block
validation uses.
-/

namespace OurChain

structure GPoWGlobals where
  m : BitVec 32
  N : BitVec 32
  nBits : BitVec 32
  _conservative : Bool
  _nonce_compressed : Bool
  NONCE_TYPE : BitVec 8
  bnPowLimit : Uint256
  bnTarget : Uint256
  deriving DecidableEq

def GPoWGlobals.zero : GPoWGlobals := ⟨0, 0, 0, false, false, 0, 0, 0⟩

/-- `CompareTo`: the words from the most significant one down. -/
def compareTo (a b : Uint256) : Ordering := Limbs.compareTo (Uint256.words a) (Uint256.words b)

theorem compareTo_lt_iff (a b : Uint256) : compareTo a b = .lt ↔ a.toNat < b.toNat := by
  rw [compareTo, Limbs.compareTo_eq (by simp), Uint256.toNat_words, Uint256.toNat_words,
    Nat.compare_eq_lt]

/-- A store of four bytes behind `data + offset`; none if it leaves the 32 bytes. -/
def storeUint32 (data : Uint256) (offset : Nat) (word : BitVec 32) : Option Uint256 :=
  if offset + 4 ≤ 32 then
    some (data &&& ~~~(0xffffffff#256 <<< (8 * offset)) ||| word.setWidth 256 <<< (8 * offset))
  else none

/-- The result and the new target; none if a store is out of bounds. -/
def gpowSetCompact (bnPowLimit : Uint256) (nBits : BitVec 32) (bnTarget : Uint256) :
    Option (Bool × Uint256) :=
  if compareTo bnPowLimit bnTarget = .lt then some (false, bnTarget)
  else
    let nSize := (nBits >>> 24).toNat
    let nWord := nBits &&& 0x00ffffff
    let stored :=
      if nSize ≤ 3 then storeUint32 0 0 (nWord >>> (8 * (3 - nSize)))
      else storeUint32 0 (nSize - 4) (nWord <<< 8)
    stored.map (true, ·)

def CONSERVATIVE : BitVec 8 := 1 <<< 7
def NONCE_COMPRESSED : BitVec 8 := 1 <<< 6

structure InitArgs where
  m : BitVec 32
  n : BitVec 32
  cons : Int
  comp : Int
  nbits : BitVec 32

/-- The result of `GPoWSetCompact` is not looked at. -/
def initGPoW (g : GPoWGlobals) (args : InitArgs) : Option GPoWGlobals := do
  let (_, bnTarget) ← gpowSetCompact g.bnPowLimit args.nbits g.bnTarget
  let _conservative := args.cons == CONSERVATIVE.toNat || args.cons == 1
  let _nonce_compressed := args.comp == NONCE_COMPRESSED.toNat || args.comp == 1
  return { g with
    m := args.m
    N := args.n
    nBits := args.nbits
    bnTarget
    _conservative
    _nonce_compressed
    NONCE_TYPE := (if _conservative then CONSERVATIVE else 0) |||
      (if _nonce_compressed then NONCE_COMPRESSED else 0) }

def initAll (calls : List InitArgs) : Option GPoWGlobals := calls.foldlM initGPoW .zero

section
variable (nBits : BitVec 32)

theorem toNat_word24 : (nBits &&& 0x00ffffff).toNat = nBits.toNat % 2 ^ 24 := by
  rw [BitVec.toNat_and]
  exact Nat.and_two_pow_sub_one_eq_mod nBits.toNat 24

theorem word24_eq : nBits.toNat % 2 ^ 24 =
    nBits.toNat % 2 ^ 23 + 2 ^ 23 * (nBits.toNat / 2 ^ 23 % 2) := Nat.mod_mul (a := 2 ^ 23) (b := 2)

end

theorem storeUint32_zero {offset : Nat} (h : offset + 4 ≤ 32) (word : BitVec 32) :
    storeUint32 0 offset word = some (BitVec.ofNat 256 (word.toNat * 2 ^ (8 * offset))) := by
  rw [storeUint32, if_pos h]
  congr 1
  apply BitVec.eq_of_toNat_eq
  simp [Nat.shiftLeft_eq]

def compactValue (word nSize : Nat) : Nat :=
  if nSize ≤ 3 then word / 2 ^ (8 * (3 - nSize)) else word * 2 ^ (8 * (nSize - 3)) % 2 ^ 256

theorem gpowSetCompact_zero (nBits : BitVec 32) (hsize : nBits.toNat / 2 ^ 24 ≤ 32) :
    gpowSetCompact 0 nBits 0 = some (true,
      BitVec.ofNat 256 (compactValue (nBits.toNat % 2 ^ 24) (nBits.toNat / 2 ^ 24))) := by
  have hlt : ¬ compareTo 0 0 = .lt := by
    rw [compareTo_lt_iff]
    exact Nat.lt_irrefl 0
  rw [gpowSetCompact, if_neg hlt, compactValue]
  simp only [toNat_size]
  split
  · rw [storeUint32_zero (by decide), BitVec.toNat_ushiftRight, Nat.shiftRight_eq_div_pow,
      toNat_word24]
    simp
  · rename_i hbig
    have hpow : 2 ^ (8 * (nBits.toNat / 2 ^ 24 - 3)) = 2 ^ 8 * 2 ^
      (8 * (nBits.toNat / 2 ^ 24 - 4)) := by
      rw [← Nat.pow_add]
      congr 1
      omega
    have hshift : ((nBits &&& 0x00ffffff) <<< 8).toNat = nBits.toNat % 2 ^ 24 * 2 ^ 8 := by
      rw [BitVec.toNat_shiftLeft, toNat_word24, Nat.shiftLeft_eq]
      exact Nat.mod_eq_of_lt (by omega)
    rw [storeUint32_zero (by omega), hshift, Nat.mul_assoc, ← hpow, Option.map_some]
    congr 2
    apply BitVec.eq_of_toNat_eq
    simp

theorem gpowSetCompact_zero_none {nBits : BitVec 32} (hsize : 32 < nBits.toNat / 2 ^ 24) :
    gpowSetCompact 0 nBits 0 = none := by
  have hlt : ¬ compareTo 0 0 = .lt := by
    rw [compareTo_lt_iff]
    exact Nat.lt_irrefl 0
  rw [gpowSetCompact, if_neg hlt]
  simp only [toNat_size]
  rw [if_neg (by omega), storeUint32, if_neg (by omega)]
  rfl

theorem toNat_setCompact (nBits : BitVec 32) :
    (setCompact nBits).1.toNat = compactValue (nBits.toNat % 2 ^ 23) (nBits.toNat / 2 ^ 24) := by
  rw [(setCompact_spec nBits rfl rfl).1, compactValue]
  split
  · have := Nat.div_le_self (nBits.toNat % 2 ^ 23) (2 ^ (8 * (3 - nBits.toNat / 2 ^ 24)))
    rw [show nBits.toNat / 2 ^ 24 - 3 = 0 by omega, Nat.mul_zero, pow_zero, Nat.mul_one]
    exact Nat.mod_eq_of_lt (by omega)
  · rw [show 3 - nBits.toNat / 2 ^ 24 = 0 by omega, Nat.mul_zero, pow_zero, Nat.div_one]

theorem compactValue_eq_iff {nBits : BitVec 32} (hsize : nBits.toNat / 2 ^ 24 ≤ 32)
    (hpositive : (setCompact nBits).2.1 = false) :
    compactValue (nBits.toNat % 2 ^ 24) (nBits.toNat / 2 ^ 24) =
        compactValue (nBits.toNat % 2 ^ 23) (nBits.toNat / 2 ^ 24) ↔
      nBits &&& 0x00800000#32 = 0 ∨ nBits.toNat / 2 ^ 24 = 0 := by
  rw [(setCompact_spec nBits rfl rfl).2.1] at hpositive
  have hword := word24_eq nBits
  constructor
  · intro heq
    by_contra hnot
    obtain ⟨hsign, hzero⟩ := not_or.mp hnot
    have hmantissa := hpositive.resolve_right hsign
    have hbit : nBits.toNat / 2 ^ 23 % 2 = 1 := by
      rw [sign_eq_zero_iff] at hsign
      omega
    rw [hbit, Nat.mul_one] at hword
    generalize nBits.toNat / 2 ^ 24 = nSize at heq hmantissa hsize hzero
    rw [compactValue, compactValue] at heq
    split at heq
    · rw [hmantissa, Nat.div_eq_zero_iff] at heq
      have hpow : 2 ^ (8 * (3 - nSize)) ≤ 2 ^ 16 := Nat.pow_le_pow_right Nat.two_pos (by omega)
      have hpos := Nat.two_pow_pos (8 * (3 - nSize))
      generalize 2 ^ (8 * (3 - nSize)) = k at heq hpow hpos
      omega
    · rename_i hbig
      rw [show 3 - nSize = 0 by omega, Nat.mul_zero, pow_zero, Nat.div_one] at hmantissa
      rw [hword, hmantissa, Nat.zero_add, Nat.zero_mul, Nat.zero_mod, ← Nat.pow_add,
        Nat.mod_eq_of_lt (Nat.pow_lt_pow_right Nat.one_lt_two (by omega))] at heq
      exact absurd heq (Nat.ne_of_gt (Nat.two_pow_pos _))
  · rintro (hsign | hzero)
    · rw [sign_eq_zero_iff] at hsign
      rw [hword, hsign, Nat.mul_zero, Nat.add_zero]
    · have hlow24 := Nat.mod_lt nBits.toNat (Nat.two_pow_pos 24)
      rw [hzero, compactValue, compactValue, if_pos (Nat.zero_le 3), if_pos (Nat.zero_le 3),
        Nat.div_eq_of_lt hlow24, Nat.div_eq_of_lt (by omega)]

theorem initGPoW_target (g : GPoWGlobals) (args : InitArgs) (target : Uint256) :
    (∃ g', initGPoW g args = some g' ∧ g'.bnTarget = target) ↔
      ∃ ok, gpowSetCompact g.bnPowLimit args.nbits g.bnTarget = some (ok, target) := by
  rw [initGPoW]
  cases hset : gpowSetCompact g.bnPowLimit args.nbits g.bnTarget with
  | none => simp
  | some r => simp [Prod.ext_iff]

theorem initGPoW_powLimit {g g' : GPoWGlobals} {args : InitArgs} (h : initGPoW g args = some g') :
    g'.bnPowLimit = g.bnPowLimit := by
  rw [initGPoW, Option.bind_eq_bind, Option.bind_eq_some_iff] at h
  obtain ⟨r, -, h⟩ := h
  cases h
  rfl

theorem foldlM_initGPoW_powLimit {calls : List InitArgs} {g g' : GPoWGlobals}
    (h : calls.foldlM initGPoW g = some g') : g'.bnPowLimit = g.bnPowLimit := by
  induction calls generalizing g with
  | nil => cases h; rfl
  | cons args calls ih =>
    rw [List.foldlM_cons, Option.bind_eq_bind, Option.bind_eq_some_iff] at h
    obtain ⟨g₁, hcall, hrest⟩ := h
    rw [ih hrest, initGPoW_powLimit hcall]

/-- When a call of `InitGPoW` takes the target of `nbits` over from a global `bnTarget`:
the global is still zero, the stores stay inside it and the sign bit is clear (or behind
the last byte); or the global already is that target. -/
def TargetTaken (bnTarget : Uint256) (nbits : BitVec 32) : Prop :=
  if bnTarget = 0 then
    nbits.toNat / 2 ^ 24 ≤ 32 ∧ (nbits &&& 0x00800000#32 = 0 ∨ nbits.toNat / 2 ^ 24 = 0)
  else bnTarget = (setCompact nbits).1

instance (bnTarget : Uint256) (nbits : BitVec 32) : Decidable (TargetTaken bnTarget nbits) := by
  unfold TargetTaken
  infer_instance

theorem initGPoW_target_iff (calls : List InitArgs) (g : GPoWGlobals) (hrun : initAll calls = some g)
    (args : InitArgs) (hpositive : (setCompact args.nbits).2.1 = false)
    (_hfits : (setCompact args.nbits).2.2 = false) :
    (∃ g', initGPoW g args = some g' ∧ g'.bnTarget = (setCompact args.nbits).1) ↔
      TargetTaken g.bnTarget args.nbits := by
  have hlimit : g.bnPowLimit = 0 := foldlM_initGPoW_powLimit hrun
  rw [initGPoW_target, hlimit, TargetTaken]
  split
  · rename_i hzero
    rw [hzero]
    by_cases hsize : args.nbits.toNat / 2 ^ 24 ≤ 32
    · have hlt : compactValue (args.nbits.toNat % 2 ^ 24) (args.nbits.toNat / 2 ^ 24) < 2 ^ 256 := by
        rw [compactValue]
        split
        · have := Nat.div_le_self (args.nbits.toNat % 2 ^ 24)
            (2 ^ (8 * (3 - args.nbits.toNat / 2 ^ 24)))
          omega
        · exact Nat.mod_lt _ (Nat.two_pow_pos 256)
      have hvalue : BitVec.ofNat 256 (compactValue (args.nbits.toNat % 2 ^ 24)
        (args.nbits.toNat / 2 ^ 24)) =
          (setCompact args.nbits).1 ↔ compactValue (args.nbits.toNat % 2 ^ 24)
          (args.nbits.toNat / 2 ^ 24) =
            compactValue (args.nbits.toNat % 2 ^ 23) (args.nbits.toNat / 2 ^ 24) := by
        rw [← BitVec.toNat_inj, BitVec.toNat_ofNat, Nat.mod_eq_of_lt hlt, toNat_setCompact]
      rw [gpowSetCompact_zero args.nbits hsize]
      simp only [Option.some.injEq, Prod.mk.injEq, exists_eq_left', hsize, true_and]
      rw [hvalue, compactValue_eq_iff hsize hpositive]
    · rw [gpowSetCompact_zero_none (Nat.lt_of_not_le hsize)]
      exact iff_of_false (by simp) fun h => hsize h.1
  · rename_i hne
    have hlt : compareTo 0 g.bnTarget = .lt := by
      rw [compareTo_lt_iff]
      exact Nat.pos_of_ne_zero fun h => hne (BitVec.eq_of_toNat_eq h)
    rw [gpowSetCompact, if_pos hlt]
    simp

def initArgs (nbits : BitVec 32) : InitArgs := ⟨8, 1024, 1, 64, nbits⟩

theorem initGPoW_target_again : ∃ g, initAll [initArgs 0x207fffff] = some g ∧
    ∃ g', initGPoW g (initArgs 0x207fffff) = some g' ∧ g'.bnTarget = (setCompact 0x207fffff).1 := by
  obtain ⟨g, hg⟩ : ∃ g, initAll [initArgs 0x207fffff] = some g :=
    Option.isSome_iff_exists.mp (by decide)
  have htarget : (initAll [initArgs 0x207fffff]).map GPoWGlobals.bnTarget =
    some (setCompact 0x207fffff).1 := by decide
  rw [hg] at htarget
  refine ⟨g, hg, (initGPoW_target_iff _ g hg (initArgs 0x207fffff) (by decide) (by decide)).mpr ?_⟩
  rw [Option.some.inj htarget]
  decide

/-- The second call finds a target that is above the limit of zero and leaves it, and with
it the difficulty of the first call. -/
theorem initGPoW_target_kept :
    (initAll [initArgs 0x207fffff, initArgs 0x1d00ffff]).map GPoWGlobals.bnTarget =
        some (setCompact 0x207fffff).1 ∧
      (setCompact 0x1d00ffff).2 = (false, false) ∧
      (setCompact 0x207fffff).1 ≠ (setCompact 0x1d00ffff).1 := by
  decide

end OurChain
