import OurChain.Pow

/-!
# Compact targets

The compact form is a number of bytes and a mantissa of 23 bits: encoding keeps the
leading two or three bytes of a target, and decoding puts zeros behind them.
-/

namespace OurChain

open BitVec

/-- The size of the compact form: one byte more than the bits fill, for the sign. -/
def compactBytes (x : Nat) : Nat := if x = 0 then 0 else (x.log2 + 1) / 8 + 1

/-- The leading three of `size` bytes. -/
def mantissa (x size : Nat) : Nat := x * 2 ^ (8 * (3 - size)) / 2 ^ (8 * (size - 3))

/-- `x` without the bytes that the mantissa has no room for. -/
def compactTrunc (x : Nat) : Nat :=
  x / 2 ^ (8 * (compactBytes x - 3)) * 2 ^ (8 * (compactBytes x - 3))

theorem compactTrunc_le (x : Nat) : compactTrunc x ≤ x := Nat.div_mul_le_self _ _

theorem lt_two_pow_compactBytes (x : Nat) : x < 2 ^ (8 * compactBytes x - 1) := by
  rcases Nat.eq_zero_or_pos x with rfl | hx
  · simp [compactBytes]
  · have hlog := Nat.lt_log2_self (n := x)
    refine hlog.trans_le (Nat.pow_le_pow_right two_pos ?_)
    rw [compactBytes, if_neg hx.ne']
    omega

theorem two_pow_compactBytes_le (hx : x ≠ 0) (hbytes : 2 ≤ compactBytes x) :
    2 ^ (8 * (compactBytes x - 1) - 1) ≤ x := by
  refine le_trans (Nat.pow_le_pow_right two_pos ?_) (Nat.log2_self_le hx)
  rw [compactBytes, if_neg hx] at *
  omega

theorem compactBytes_mono (h : x ≤ y) : compactBytes x ≤ compactBytes y := by
  rcases Nat.eq_zero_or_pos x with rfl | hx
  · simp [compactBytes]
  · have hlog : x.log2 ≤ y.log2 := by
      simpa only [Nat.log2_eq_log_two] using Nat.log_mono_right h
    rw [compactBytes, compactBytes, if_neg hx.ne', if_neg (hx.trans_le h).ne']
    omega

theorem compactTrunc_mono (h : x ≤ y) : compactTrunc x ≤ compactTrunc y := by
  rcases Nat.eq_or_lt_of_le (compactBytes_mono h) with heq | hlt
  · rw [compactTrunc, compactTrunc, heq]
    exact Nat.mul_le_mul_right _ (Nat.div_le_div_right h)
  · -- The power of two that `y` reaches and `x` does not survives the truncation.
    have hy : y ≠ 0 := by
      rintro rfl
      simp [compactBytes] at hlt
    have hx := lt_two_pow_compactBytes x
    by_cases hshort : compactBytes y ≤ 3
    · have hwhole : compactTrunc y = y := by simp [compactTrunc, Nat.sub_eq_zero_of_le hshort]
      rw [hwhole]
      exact (compactTrunc_le x).trans h
    · have hpow := two_pow_compactBytes_le hy (by omega)
      have hkept : 2 ^ (8 * (compactBytes y - 1) - 1) ≤ compactTrunc y := by
        rw [compactTrunc, show 8 * (compactBytes y - 1) - 1 =
          15 + 8 * (compactBytes y - 3) by omega, pow_add]
        refine Nat.mul_le_mul_right _ ((Nat.le_div_iff_mul_le (Nat.two_pow_pos _)).mpr ?_)
        rwa [← pow_add, show 15 + 8 * (compactBytes y - 3) = 8 * (compactBytes y - 1) - 1 by omega]
      have hbelow : 2 ^ (8 * compactBytes x - 1) ≤ 2 ^ (8 * (compactBytes y - 1) - 1) :=
        Nat.pow_le_pow_right two_pos (by omega)
      exact (compactTrunc_le x).trans ((hx.trans_le hbelow).le.trans hkept)

section
variable (nBits : BitVec 32)

theorem toNat_size : (nBits >>> 24).toNat = nBits.toNat / 2 ^ 24 := by
  rw [toNat_ushiftRight, Nat.shiftRight_eq_div_pow]

theorem toNat_word23 : (nBits &&& 0x007fffff#32).toNat = nBits.toNat % 2 ^ 23 := by
  exact Nat.and_two_pow_sub_one_eq_mod nBits.toNat 23

theorem sign_eq_zero_iff : nBits &&& 0x00800000#32 = 0 ↔ nBits.toNat / 2 ^ 23 % 2 = 0 := by
  have hand : (nBits &&& 0x00800000#32).toNat = (nBits.toNat.testBit 23).toNat * 2 ^ 23 := by
    exact Nat.and_two_pow nBits.toNat 23
  have hiff : nBits &&& 0x00800000#32 = 0 ↔ (nBits &&& 0x00800000#32).toNat = 0 :=
    ⟨fun h => by rw [h]; rfl, fun h => eq_of_toNat_eq h⟩
  rw [hiff, hand, Nat.testBit_eq_decide_div_mod_eq]
  simp

end

/-- What `SetCompact` reads off the size and the word. -/
theorem setCompact_spec (c : BitVec 32) (hsize : c.toNat / 2 ^ 24 = size)
    (hword : c.toNat % 2 ^ 23 / 2 ^ (8 * (3 - size)) = word) :
    (setCompact c).1.toNat = word * 2 ^ (8 * (size - 3)) % 2 ^ 256 ∧
    ((setCompact c).2.1 = false ↔ word = 0 ∨ c &&& 0x00800000#32 = 0) ∧
    ((setCompact c).2.2 = false ↔
      word = 0 ∨ size ≤ 34 ∧ (0xff < word → size ≤ 33) ∧ (0xffff < word → size ≤ 32)) := by
  have hnWord : (if size ≤ 3 then (c &&& 0x007fffff#32) >>>
    (8 * (3 - size)) else c &&& 0x007fffff#32).toNat = word := by
    rw [← hword]
    split
    · rw [toNat_ushiftRight, Nat.shiftRight_eq_div_pow, toNat_word23]
    · rw [toNat_word23, show 3 - size = 0 by omega, Nat.mul_zero, pow_zero, Nat.div_one]
  simp only [setCompact, toNat_size, hsize]
  generalize (if size ≤ 3 then (c &&& 0x007fffff#32) >>> (8 * (3 - size)) else c &&& 0x007fffff#32) =
    nWord at hnWord
  subst hnWord
  have hwide : (nWord.setWidth 256).toNat = nWord.toNat := by
    rw [toNat_setWidth]
    exact Nat.mod_eq_of_lt (nWord.isLt.trans (by decide))
  have hzero : nWord = 0#32 ↔ nWord.toNat = 0 := by rw [← toNat_inj]; rfl
  refine ⟨?_, ?_, ?_⟩
  · split
    · rw [hwide, show size - 3 = 0 by omega, Nat.mul_zero, pow_zero, Nat.mul_one]
      exact (Nat.mod_eq_of_lt (nWord.isLt.trans (by decide))).symm
    · rw [toNat_shiftLeft, hwide, Nat.shiftLeft_eq]
  · simp only [Bool.and_eq_false_iff, bne_eq_false_iff_eq, hzero]
    rfl
  · simp only [Bool.and_eq_false_iff, Bool.or_eq_false_iff, bne_eq_false_iff_eq,
      decide_eq_false_iff_not, lt_def, hzero, toNat_ofNat]
    omega

def compactOf (size m : Nat) : BitVec 32 := BitVec.ofNat 32 (size * 2 ^ 24 + m)

theorem toNat_compactOf (hsize : size < 256) (hm : m < 2 ^ 23) :
    (compactOf size m).toNat = size * 2 ^ 24 + m := by
  rw [compactOf, toNat_ofNat]
  omega

theorem setCompact_compactOf (hm : m < 2 ^ 23) (hlarge : size ≤ 33) (hword : 32 < size → m ≤ 0xffff) :
    setCompact (compactOf size m) =
      (BitVec.ofNat 256 (m / 2 ^ (8 * (3 - size)) * 2 ^ (8 * (size - 3))), false, false) := by
  have htoNat := toNat_compactOf (show size < 256 by omega) hm
  have hmod : (compactOf size m).toNat % 2 ^ 23 = m := by omega
  obtain ⟨hvalue, hnegative, hoverflow⟩ := setCompact_spec (compactOf size m)
    (show _ = size by omega) (by rw [hmod])
  have hle : m / 2 ^ (8 * (3 - size)) ≤ m := Nat.div_le_self _ _
  refine Prod.ext (eq_of_toNat_eq (by rw [hvalue, toNat_ofNat])) (Prod.ext ?_ ?_)
  · exact hnegative.mpr (.inr ((sign_eq_zero_iff _).mpr (by omega)))
  · exact hoverflow.mpr (.inr (by omega))

theorem mantissa_short (hshort : size ≤ 3) : mantissa x size = x * 2 ^ (8 * (3 - size)) := by
  simp [mantissa, Nat.sub_eq_zero_of_le hshort]

theorem mantissa_long (hlong : 3 ≤ size) : mantissa x size = x / 2 ^ (8 * (size - 3)) := by
  simp [mantissa, Nat.sub_eq_zero_of_le hlong]

theorem mantissa_lt (hsize : 1 ≤ size) (hx : x < 2 ^ (8 * size - k)) (hk : k ≤ 8) :
    mantissa x size < 2 ^ (24 - k) := by
  by_cases hshort : size ≤ 3
  · rw [mantissa_short hshort]
    calc x * 2 ^ (8 * (3 - size)) < 2 ^ (8 * size - k) * 2 ^ (8 * (3 - size)) :=
          Nat.mul_lt_mul_of_pos_right hx (Nat.two_pow_pos _)
      _ = 2 ^ (24 - k) := by rw [← pow_add]; congr 1; omega
  · rw [mantissa_long (by omega), Nat.div_lt_iff_lt_mul (Nat.two_pow_pos _), ← pow_add]
    rwa [show 24 - k + 8 * (size - 3) = 8 * size - k by omega]

theorem le_mantissa (hsize : 1 ≤ size) (hx : 2 ^ (8 * size - 1) ≤ x) : 2 ^ 23 ≤ mantissa x size := by
  by_cases hshort : size ≤ 3
  · rw [mantissa_short hshort]
    calc 2 ^ 23 = 2 ^ (8 * size - 1) * 2 ^ (8 * (3 - size)) := by rw [← pow_add]; congr 1; omega
      _ ≤ x * 2 ^ (8 * (3 - size)) := Nat.mul_le_mul_right _ hx
  · rw [mantissa_long (by omega), Nat.le_div_iff_mul_le (Nat.two_pow_pos _), ← pow_add]
    rwa [show 23 + 8 * (size - 3) = 8 * size - 1 by omega]

theorem mantissa_succ (x size : Nat) : mantissa x (size + 1) = mantissa x size / 2 ^ 8 := by
  by_cases hshort : size + 1 ≤ 3
  · rw [mantissa_short hshort, mantissa_short (by omega),
      show 8 * (3 - size) = 8 * (3 - (size + 1)) + 8 by omega, pow_add, ← Nat.mul_assoc,
      Nat.mul_div_cancel _ (Nat.two_pow_pos 8)]
  · rw [mantissa_long (by omega), mantissa_long (by omega), Nat.div_div_eq_div_mul, ← pow_add]
    congr 2
    omega

theorem mantissa_decode (x : Nat) :
    mantissa x (compactBytes x) / 2 ^ (8 * (3 - compactBytes x)) * 2 ^ (8 * (compactBytes x - 3)) =
      compactTrunc x := by
  rw [compactTrunc]
  by_cases hshort : compactBytes x ≤ 3
  · rw [mantissa_short hshort, Nat.mul_div_cancel _ (Nat.two_pow_pos _), Nat.sub_eq_zero_of_le hshort]
    simp
  · rw [mantissa_long (by omega), show 3 - compactBytes x = 0 by omega]
    simp

theorem or_size {c : BitVec 32} (hm : c.toNat < 2 ^ 24) (hsize : size < 256) :
    c ||| (BitVec.ofNat 32 size <<< 24) = compactOf size c.toNat := by
  refine eq_of_toNat_eq ?_
  rw [toNat_or, toNat_shiftLeft, toNat_ofNat, Nat.mod_eq_of_lt (show size < 2 ^ 32 by omega),
    compactOf, toNat_ofNat, Nat.or_comm, Nat.mod_eq_of_lt (by rw [Nat.shiftLeft_eq]; omega),
    ← Nat.shiftLeft_add_eq_or_of_lt hm, Nat.shiftLeft_eq, Nat.mod_eq_of_lt (by omega)]

theorem toNat_unsigned {x : Uint256} (hx : x.toNat < 2 ^ (8 * size)) (hsize : 1 ≤ size) :
    (if size ≤ 3 then (x.setWidth 64 <<< (8 * (3 - size))).setWidth 32
      else ((x >>> (8 * (size - 3))).setWidth 64).setWidth 32 :
      BitVec 32).toNat = mantissa x.toNat size := by
  have hlt := mantissa_lt hsize (k := 0) hx (by omega)
  split
  · rename_i hshort
    rw [mantissa_short hshort] at hlt ⊢
    have hle : x.toNat ≤ x.toNat * 2 ^ (8 * (3 - size)) :=
      Nat.le_mul_of_pos_right _ (Nat.two_pow_pos _)
    rw [toNat_setWidth, toNat_shiftLeft, toNat_setWidth, Nat.shiftLeft_eq,
      Nat.mod_eq_of_lt (show x.toNat < 2 ^ 64 by omega)]
    omega
  · rw [mantissa_long (by omega)] at hlt ⊢
    rw [toNat_setWidth, toNat_setWidth, toNat_ushiftRight, Nat.shiftRight_eq_div_pow]
    generalize x.toNat / 2 ^ (8 * (size - 3)) = m at hlt ⊢
    omega

theorem sign_set_iff {c : BitVec 32} (hm : c.toNat < 2 ^ 24) :
    c &&& 0x00800000#32 ≠ 0 ↔ 2 ^ 23 ≤ c.toNat := by
  rw [Ne, sign_eq_zero_iff]
  omega

variable (x : Uint256)

theorem getCompact_eq :
    getCompact x = compactOf (compactBytes x.toNat) (mantissa x.toNat (compactBytes x.toNat)) := by
  by_cases hx : x = 0
  · subst hx
    decide
  have hne : x.toNat ≠ 0 := fun h => hx (eq_of_toNat_eq h)
  have hhigh := Nat.lt_log2_self (n := x.toNat)
  have hlow := Nat.log2_self_le hne
  have hlog : x.toNat.log2 < 256 := (Nat.log2_lt hne).mpr x.isLt
  have hbits : bits x = x.toNat.log2 + 1 := if_neg hx
  have hbytes : compactBytes x.toNat = (x.toNat.log2 + 1) / 8 + 1 := if_neg hne
  rw [getCompact, hbits]
  generalize hsize : (x.toNat.log2 + 1 + 7) / 8 = size
  have hone : 1 ≤ size := by omega
  have hfit : x.toNat < 2 ^ (8 * size) := hhigh.trans_le (Nat.pow_le_pow_right two_pos (by omega))
  have hm := toNat_unsigned hfit hone
  have hlt := mantissa_lt hone (k := 0) hfit (by omega)
  rw [← hm] at hlt
  generalize (if size ≤ 3 then (x.setWidth 64 <<< (8 * (3 - size))).setWidth 32
    else ((x >>> (8 * (size - 3))).setWidth 64).setWidth 32 : BitVec 32) = c at hm hlt ⊢
  by_cases hfull : (x.toNat.log2 + 1) % 8 = 0
  · have hset : 2 ^ 23 ≤ c.toNat := by
      rw [hm]
      exact le_mantissa hone ((Nat.pow_le_pow_right two_pos (by omega)).trans hlow)
    have hshift : (c >>> 8).toNat = mantissa x.toNat (size + 1) := by
      rw [toNat_ushiftRight, Nat.shiftRight_eq_div_pow, hm, mantissa_succ]
    have hroom : (c >>> 8).toNat < 2 ^ 24 := by
      rw [hshift]
      exact (mantissa_lt (k := 8) (by omega) (by simpa [Nat.mul_succ] using hfit) le_rfl).trans
        (by norm_num)
    rw [if_pos ((sign_set_iff hlt).mpr hset), or_size hroom (by omega), hshift,
      show compactBytes x.toNat = size + 1 by omega]
  · have hclear : ¬ 2 ^ 23 ≤ c.toNat := by
      rw [hm, Nat.not_le]
      exact mantissa_lt hone (k := 1) (hhigh.trans_le (Nat.pow_le_pow_right two_pos (by omega)))
        (by omega)
    rw [if_neg (fun h => hclear ((sign_set_iff hlt).mp h)), or_size hlt (by omega), hm,
      show compactBytes x.toNat = size by omega]

theorem compactBytes_le : compactBytes x.toNat ≤ 33 := by
  by_cases hx : x.toNat = 0
  · simp [compactBytes, hx]
  · have hlog : x.toNat.log2 < 256 := (Nat.log2_lt hx).mpr x.isLt
    rw [compactBytes, if_neg hx]
    omega

theorem mantissa_compactBytes_lt (x : Nat) : mantissa x (compactBytes x) < 2 ^ 23 := by
  by_cases hx : x = 0
  · simp [mantissa, hx]
  · refine mantissa_lt (k := 1) ?_ (lt_two_pow_compactBytes x) (by omega)
    rw [compactBytes, if_neg hx]
    exact Nat.le_add_left _ _

theorem setCompact_getCompact :
    setCompact (getCompact x) = (BitVec.ofNat 256 (compactTrunc x.toNat), false, false) := by
  have hword : 32 < compactBytes x.toNat → mantissa x.toNat (compactBytes x.toNat) ≤ 0xffff := by
    intro h32
    rw [show compactBytes x.toNat = 33 by have := compactBytes_le x; omega, mantissa_long (by omega)]
    omega
  rw [getCompact_eq, setCompact_compactOf (mantissa_compactBytes_lt x.toNat)
    (compactBytes_le x) hword, mantissa_decode]

theorem toNat_setCompact_getCompact : (setCompact (getCompact x)).1.toNat = compactTrunc x.toNat := by
  rw [setCompact_getCompact, toNat_ofNat]
  exact Nat.mod_eq_of_lt ((compactTrunc_le _).trans_lt x.isLt)

theorem compactTrunc_mul (hword : word < 2 ^ 23) (k : Nat) :
    compactTrunc (word * 2 ^ (8 * k)) = word * 2 ^ (8 * k) := by
  have hbytes : compactBytes (word * 2 ^ (8 * k)) - 3 ≤ k := by
    by_cases hzero : word * 2 ^ (8 * k) = 0
    · simp [compactBytes, hzero]
    · have hlt : word * 2 ^ (8 * k) < 2 ^ (23 + 8 * k) := by
        rw [pow_add]
        exact Nat.mul_lt_mul_of_pos_right hword (Nat.two_pow_pos _)
      have hlog := (Nat.log2_lt hzero).mpr hlt
      rw [compactBytes, if_neg hzero]
      omega
  have hdvd : 2 ^ (8 * (compactBytes (word * 2 ^ (8 * k)) - 3)) ∣ word * 2 ^ (8 * k) :=
    (pow_dvd_pow 2 (by omega)).mul_left word
  exact Nat.div_mul_cancel hdvd

theorem compactTrunc_of_setCompact (h : setCompact c = (u, false, false)) :
    compactTrunc u.toNat = u.toNat := by
  obtain ⟨hvalue, -, hoverflow⟩ := setCompact_spec c rfl rfl
  rw [h] at hvalue hoverflow
  have hfits := hoverflow.mp rfl
  have hle := Nat.div_le_self (c.toNat % 2 ^ 23) (2 ^ (8 * (3 - c.toNat / 2 ^ 24)))
  generalize c.toNat % 2 ^ 23 / 2 ^ (8 * (3 - c.toNat / 2 ^ 24)) = word at hvalue hfits hle
  generalize c.toNat / 2 ^ 24 = size at hvalue hfits
  -- no overflow: the word keeps its place below the last bit
  have hlt : word * 2 ^ (8 * (size - 3)) < 2 ^ 256 := by
    have hroom : ∀ n, word < 2 ^ n → n + 8 * (size - 3) ≤ 256 →
      word * 2 ^ (8 * (size - 3)) < 2 ^ 256 := by
      intro n hn hle
      refine (Nat.mul_lt_mul_of_pos_right hn (Nat.two_pow_pos _)).trans_le ?_
      rw [← pow_add]
      exact Nat.pow_le_pow_right two_pos hle
    rcases hfits with rfl | ⟨hsize, hbyte, hshort⟩
    · simp
    · by_cases h32 : size ≤ 32
      · exact hroom 23 (by omega) (by omega)
      · by_cases h33 : size ≤ 33
        · exact hroom 16 (by omega) (by omega)
        · exact hroom 8 (by omega) (by omega)
  rw [hvalue, Nat.mod_eq_of_lt hlt]
  exact compactTrunc_mul (by omega) _

theorem getCompact_mono {x y : Uint256} (h : x ≤ y) : getCompact x ≤ getCompact y := by
  have hm := mantissa_compactBytes_lt
  have hsize : ∀ z : Uint256, compactBytes z.toNat < 256 :=
    fun z => (compactBytes_le z).trans_lt (by decide)
  rw [le_def, getCompact_eq, getCompact_eq, toNat_compactOf (hsize x) (hm _),
    toNat_compactOf (hsize y) (hm _)]
  rcases Nat.eq_or_lt_of_le (compactBytes_mono h) with heq | hlt
  · rw [heq]
    exact Nat.add_le_add_left (Nat.div_le_div_right (Nat.mul_le_mul_right _ h)) _
  · have hx := hm x.toNat
    omega

/-- The round trip cuts down to the next number with a compact form, and leaves such numbers as
they are. -/
theorem compact_canonical :
    (∀ x : Uint256, ∃ v, setCompact (getCompact x) = (v, false, false) ∧ v ≤ x ∧
      ∀ c u, setCompact c = (u, false, false) → u ≤ x → u ≤ v) ∧
    (∀ x y : Uint256, x ≤ y → getCompact x ≤ getCompact y) ∧
    ∀ c u, setCompact c = (u, false, false) → setCompact (getCompact u) = (u, false, false) ∧
      getCompact (setCompact (getCompact u)).1 = getCompact u := by
  have htrunc : ∀ x : Uint256, (BitVec.ofNat 256 (compactTrunc x.toNat)).toNat =
    compactTrunc x.toNat := fun x =>
    Nat.mod_eq_of_lt ((compactTrunc_le _).trans_lt x.isLt)
  refine ⟨fun x => ⟨_, setCompact_getCompact x, ?_, fun c u hu hle => ?_⟩, fun x y => getCompact_mono,
    fun c u hu => ?_⟩
  · rw [le_def, htrunc]
    exact compactTrunc_le _
  · rw [le_def, htrunc, ← compactTrunc_of_setCompact hu]
    exact compactTrunc_mono hle
  · have hround : setCompact (getCompact u) = (u, false, false) := by
      rw [setCompact_getCompact, compactTrunc_of_setCompact hu, ofNat_toNat, setWidth_eq]
    exact ⟨hround, by rw [hround]⟩

end OurChain
