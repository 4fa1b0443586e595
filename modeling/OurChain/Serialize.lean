import OurChain.Lib.Codec

/-!
# Stream serialization

The two variable-length integers of `serialize.h` and the vectors built on
them. `ReadCompactSize` refuses a size above `MAX_SIZE` and any size that has a
shorter encoding; `ReadVarInt` refuses a number above the maximum of the type it
reads into. Both are therefore codecs: every accepted byte string is the one the
writer produces.
-/

namespace OurChain

open List

/-- `uint256` and `arith_uint256`: the 32 bytes read as a little-endian number. -/
abbrev Uint256 := BitVec 256

instance : LawfulBEq Uint256 := inferInstance

def MAX_SIZE : Nat := 0x02000000

def writeCompactSize (nSize : Nat) : Bytes :=
  if nSize < 253 then leBytes 1 nSize
  else if nSize ≤ 0xffff then 253 :: leBytes 2 nSize
  else if nSize ≤ 0xffffffff then 254 :: leBytes 4 nSize
  else 255 :: leBytes 8 nSize

/-- The `n`-byte size behind a marker; a size below `least` is not canonical. -/
def readLongSize (n least : Nat) (bs : Bytes) : Option (Nat × Bytes) := do
  let (a, bs) ← Codec.takeBytes n bs
  if ofLeBytes a < least then none else some (ofLeBytes a, bs)

/-- The size announced by the first byte `chSize`. -/
def readSize (chSize : Byte) (bs : Bytes) : Option (Nat × Bytes) :=
  if chSize.toNat < 253 then some (chSize.toNat, bs)
  else if chSize.toNat = 253 then readLongSize 2 253 bs
  else if chSize.toNat = 254 then readLongSize 4 0x10000 bs
  else readLongSize 8 0x100000000 bs

def readCompactSize : Bytes → Option (Nat × Bytes)
  | [] => none
  | chSize :: bs => do
    let (nSizeRet, bs) ← readSize chSize bs
    if MAX_SIZE < nSizeRet then none else some (nSizeRet, bs)

theorem readLongSize_leBytes (n least : Nat) (rest : Bytes) (hlt : x < 256 ^ n) (hle : least ≤ x) :
    readLongSize n least (leBytes n x ++ rest) = some (x, rest) := by
  have hval : ofLeBytes (leBytes n x) = x := by
    rw [ofLeBytes_leBytes, Nat.mod_eq_of_lt hlt]
  simp [readLongSize, Codec.takeBytes_append (length_leBytes n x), hval, Nat.not_lt_of_ge hle]

theorem readLongSize_eq_some (h : readLongSize n least bs = some (x, rest)) :
    least ≤ x ∧ x < 256 ^ n ∧ bs = leBytes n x ++ rest := by
  simp only [readLongSize, Option.bind_eq_bind, Option.bind_eq_some_iff] at h
  obtain ⟨⟨a, bs₁⟩, ha, h⟩ := h
  obtain ⟨hlen, rfl⟩ := Codec.takeBytes_eq_some ha
  simp only at h
  split at h
  · cases h
  · rename_i hle
    cases h
    have hlt := ofLeBytes_lt a
    have hself := leBytes_ofLeBytes a
    rw [hlen] at hlt hself
    exact ⟨by omega, hlt, by rw [hself]⟩

theorem readSize_write (hn : nSize < 2 ^ 64) : ∃ chSize bs, writeCompactSize nSize = chSize :: bs ∧
    ∀ rest, readSize chSize (bs ++ rest) = some (nSize, rest) := by
  unfold writeCompactSize
  split
  · rename_i hsmall
    have hb : (BitVec.ofNat 8 nSize).toNat = nSize := by
      simp only [BitVec.toNat_ofNat]
      omega
    exact ⟨BitVec.ofNat 8 nSize, [], rfl, fun rest => by simp [readSize, hb, hsmall]⟩
  · split
    · exact ⟨253, _, rfl, fun rest => readLongSize_leBytes 2 253 rest (by omega) (by omega)⟩
    · split
      · exact ⟨254, _, rfl, fun rest => readLongSize_leBytes 4 0x10000 rest (by omega) (by omega)⟩
      · exact ⟨255, _, rfl, fun rest => readLongSize_leBytes 8 0x100000000 rest (by omega) (by omega)⟩

theorem readCompactSize_write (hn : nSize ≤ MAX_SIZE) :
    readCompactSize (writeCompactSize nSize ++ rest) = some (nSize, rest) := by
  have hlt : nSize < 2 ^ 64 := Nat.lt_of_le_of_lt hn (by decide)
  obtain ⟨chSize, bs, hwrite, hread⟩ := readSize_write hlt
  simp [hwrite, readCompactSize, hread, Nat.not_lt_of_ge hn]

theorem prefixFree_writeCompactSize : PrefixFree writeCompactSize (· < 2 ^ 64) := by
  intro m n r r' hm hn heq
  obtain ⟨ch, bs, hwrite, hread⟩ := readSize_write hm
  obtain ⟨ch', bs', hwrite', hread'⟩ := readSize_write hn
  rw [hwrite, hwrite', cons_append, cons_append, cons.injEq] at heq
  obtain ⟨rfl, heq⟩ := heq
  have hsame : some (m, r) = some (n, r') := by
    rw [← hread, ← hread', heq]
  cases hsame
  exact ⟨rfl, rfl⟩

theorem writeCompactSize_read (h : readCompactSize bs = some (nSize, rest)) :
    nSize ≤ MAX_SIZE ∧ bs = writeCompactSize nSize ++ rest := by
  cases bs with
  | nil => cases h
  | cons chSize bs =>
    simp only [readCompactSize, Option.bind_eq_bind, Option.bind_eq_some_iff] at h
    obtain ⟨⟨n, bs₁⟩, hread, h⟩ := h
    simp only at h
    split at h
    · cases h
    · rename_i hmax
      cases h
      refine ⟨Nat.le_of_not_lt hmax, ?_⟩
      unfold readSize at hread
      split at hread
      · cases hread
        have hb : BitVec.ofNat 8 chSize.toNat = chSize := by simp
        simp [writeCompactSize, leBytes, ‹chSize.toNat < 253›, hb]
      · split at hread
        · rename_i hch
          obtain ⟨hle, hlt, rfl⟩ := readLongSize_eq_some hread
          have hc : chSize = 253 := BitVec.eq_of_toNat_eq hch
          rw [writeCompactSize, if_neg (by omega), if_pos (by omega), hc]
          rfl
        · split at hread
          · rename_i hch
            obtain ⟨hle, hlt, rfl⟩ := readLongSize_eq_some hread
            have hc : chSize = 254 := BitVec.eq_of_toNat_eq hch
            rw [writeCompactSize, if_neg (by omega), if_neg (by omega), if_pos (by omega), hc]
            rfl
          · obtain ⟨hle, -, rfl⟩ := readLongSize_eq_some hread
            simp only [MAX_SIZE] at hmax
            omega

def compactSize : Codec Nat where
  write := writeCompactSize
  read := readCompactSize
  Ok n := n ≤ MAX_SIZE
  read_write _ _ h := readCompactSize_write h
  write_read _ _ _ h := writeCompactSize_read h

/-- `std::vector<T>`: a compact size, then the elements. -/
def vector (c : Codec α) : Codec (List α) := Codec.counted compactSize c

/-- `std::vector<unsigned char>`, `std::string` and `CScript` share one format. -/
def byteVector : Codec Bytes := vector Codec.u8

/-- The digits above the last one, each with the continuation bit set. The
number of digits of a value is at most the value, which bounds the loop. -/
def varIntHigh : Nat → Nat → Bytes
  | 0, _ => []
  | fuel + 1, n =>
    if n ≤ 0x7F then [BitVec.ofNat 8 (n + 0x80)]
    else varIntHigh fuel (n / 128 - 1) ++ [BitVec.ofNat 8 (n % 128 + 0x80)]

def writeVarInt (n : Nat) : Bytes :=
  if n ≤ 0x7F then [BitVec.ofNat 8 n]
  else varIntHigh n (n / 128 - 1) ++ [BitVec.ofNat 8 (n % 128)]

/-- `maxI` is `std::numeric_limits<I>::max()` of the type that is read. -/
def readVarIntFrom (maxI : Nat) (n : Nat) : Bytes → Option (Nat × Bytes)
  | [] => none
  | chData :: bs =>
    if maxI / 128 < n then none
    else
      let n := n * 128 + chData.toNat % 128
      if 128 ≤ chData.toNat then
        if n = maxI then none else readVarIntFrom maxI (n + 1) bs
      else some (n, bs)

def readVarInt (maxI : Nat) (bs : Bytes) : Option (Nat × Bytes) := readVarIntFrom maxI 0 bs

theorem varIntHigh_fuel (hf : n < f) (hg : n < g) : varIntHigh f n = varIntHigh g n := by
  induction f generalizing n g with
  | zero => omega
  | succ f ih =>
    cases g with
    | zero => omega
    | succ g =>
      simp only [varIntHigh]
      split
      · rfl
      · rw [ih (by omega) (g := g) (by omega)]

theorem readVarIntFrom_high (hfuel : n < fuel) (hn : n < maxI) :
    readVarIntFrom maxI 0 (varIntHigh fuel n ++ bs) = readVarIntFrom maxI (n + 1) bs := by
  induction fuel generalizing n bs with
  | zero => omega
  | succ fuel ih =>
    simp only [varIntHigh]
    split
    · have hb : (BitVec.ofNat 8 (n + 128)).toNat = n + 128 := by
        simp only [BitVec.toNat_ofNat]
        omega
      have hmod : (n + 128) % 128 = n := by omega
      simp [readVarIntFrom, hb, hmod, Nat.ne_of_lt hn]
    · have hb : (BitVec.ofNat 8 (n % 128 + 128)).toNat = n % 128 + 128 := by
        simp only [BitVec.toNat_ofNat]
        omega
      have hval : (n / 128) * 128 + (n % 128 + 128) % 128 = n := by omega
      have hacc : ¬ maxI / 128 < n / 128 := by omega
      rw [append_assoc, ih (by omega) (by omega), show n / 128 - 1 + 1 = n / 128 by omega]
      simp only [cons_append, nil_append, readVarIntFrom, hb, hval, if_neg hacc,
        if_pos (show 128 ≤ n % 128 + 128 by omega), if_neg (Nat.ne_of_lt hn)]

theorem readVarInt_write (hn : n ≤ maxI) :
    readVarInt maxI (writeVarInt n ++ rest) = some (n, rest) := by
  unfold readVarInt writeVarInt
  split
  · have hb : (BitVec.ofNat 8 n).toNat = n := by
      simp only [BitVec.toNat_ofNat]
      omega
    simp only [cons_append, nil_append, readVarIntFrom, hb, Nat.not_lt_zero, if_false,
      if_neg (show ¬ 128 ≤ n by omega)]
    congr 2
    omega
  · have hb : (BitVec.ofNat 8 (n % 128)).toNat = n % 128 := by
      simp only [BitVec.toNat_ofNat]
      omega
    have hacc : ¬ maxI / 128 < n / 128 := by omega
    rw [append_assoc, readVarIntFrom_high (by omega) (by omega),
      show n / 128 - 1 + 1 = n / 128 by omega]
    simp only [cons_append, nil_append, readVarIntFrom, hb, if_neg hacc,
      if_neg (show ¬ 128 ≤ n % 128 by omega)]
    congr 2
    omega

def varIntPrefix : Nat → Bytes
  | 0 => []
  | n + 1 => varIntHigh (n + 1) n

theorem varIntPrefix_digit (b : Byte) (hb : 128 ≤ b.toNat) :
    varIntPrefix n ++ [b] = varIntPrefix (n * 128 + b.toNat % 128 + 1) := by
  have hbyte : ∀ k, k % 128 = b.toNat % 128 → BitVec.ofNat 8 (k % 128 + 128) = b := by
    intro k hk
    apply BitVec.eq_of_toNat_eq
    simp only [BitVec.toNat_ofNat]
    omega
  cases n with
  | zero =>
    have h := hbyte (b.toNat % 128) (by omega)
    rw [Nat.mod_mod] at h
    simp only [varIntPrefix, varIntHigh, nil_append, Nat.zero_mul, Nat.zero_add,
      if_pos (show b.toNat % 128 ≤ 0x7F by omega), h]
  | succ n =>
    have hdiv : ((n + 1) * 128 + b.toNat % 128) / 128 - 1 = n := by omega
    have h := hbyte ((n + 1) * 128 + b.toNat % 128) (by omega)
    have hhigh : varIntHigh ((n + 1) * 128 + b.toNat % 128 + 1) ((n + 1) * 128 + b.toNat % 128) =
        varIntHigh ((n + 1) * 128 + b.toNat % 128) n ++ [b] := by
      rw [varIntHigh, if_neg (by omega), hdiv, h]
    rw [varIntPrefix, varIntPrefix, hhigh]
    rw [varIntHigh_fuel (f := n + 1) (g := (n + 1) * 128 + b.toNat % 128) (by omega) (by omega)]

theorem varIntPrefix_last (b : Byte) (hb : ¬ 128 ≤ b.toNat) :
    varIntPrefix n ++ [b] = writeVarInt (n * 128 + b.toNat % 128) := by
  have hbyte : ∀ k, k % 128 = b.toNat → BitVec.ofNat 8 (k % 128) = b := by
    intro k hk
    rw [hk]
    simp
  cases n with
  | zero =>
    have h := hbyte (b.toNat % 128) (by omega)
    rw [Nat.mod_mod] at h
    simp [varIntPrefix, writeVarInt, h, show b.toNat % 128 ≤ 0x7F by omega]
  | succ n =>
    have hdiv : ((n + 1) * 128 + b.toNat % 128) / 128 - 1 = n := by omega
    have h := hbyte ((n + 1) * 128 + b.toNat % 128) (by omega)
    rw [writeVarInt, if_neg (by omega), hdiv, h, varIntPrefix]
    rw [varIntHigh_fuel (f := n + 1) (g := (n + 1) * 128 + b.toNat % 128) (by omega) (by omega)]

theorem writeVarInt_readFrom (hmax : 128 * (maxI / 128) + 127 = maxI)
    (h : readVarIntFrom maxI n bs = some (x, rest)) :
    x ≤ maxI ∧ varIntPrefix n ++ bs = writeVarInt x ++ rest := by
  induction bs generalizing n with
  | nil => cases h
  | cons b bs ih =>
    simp only [readVarIntFrom] at h
    split at h
    · cases h
    · split at h
      · rename_i hacc hb
        split at h
        · cases h
        · obtain ⟨hx, heq⟩ := ih h
          refine ⟨hx, ?_⟩
          rw [← heq, ← varIntPrefix_digit b hb]
          simp
      · rename_i hacc hb
        cases h
        refine ⟨by omega, ?_⟩
        rw [← varIntPrefix_last b hb]
        simp

/-- A number of a type whose maximum fills its last base-128 digit, as the
maximum of every integer type does. -/
def varInt (maxI : Nat) (hmax : 128 * (maxI / 128) + 127 = maxI) : Codec Nat where
  write := writeVarInt
  read := readVarInt maxI
  Ok n := n ≤ maxI
  read_write _ _ h := readVarInt_write h
  write_read _ _ _ h := writeVarInt_readFrom hmax h

-- `VARINT` of an `int` that is not negative and of a `uint32_t`.
def varInt31 : Codec (BitVec 31) :=
  (varInt (2 ^ 31 - 1) (by norm_num)).bits 31 fun _ => Nat.le_sub_one_iff_lt (by norm_num)
def varInt32 : Codec (BitVec 32) :=
  (varInt (2 ^ 32 - 1) (by norm_num)).bits 32 fun _ => Nat.le_sub_one_iff_lt (by norm_num)

theorem length_varIntHigh_le (fuel k : Nat) (h : n < 128 ^ (k + 1)) :
    (varIntHigh fuel n).length ≤ k + 1 := by
  induction k generalizing fuel n with
  | zero =>
    cases fuel with
    | zero => simp [varIntHigh]
    | succ fuel =>
      have hle : n ≤ 0x7F := by omega
      simp [varIntHigh, hle]
  | succ k ih =>
    cases fuel with
    | zero => simp [varIntHigh]
    | succ fuel =>
      rw [varIntHigh]
      split
      · simp
      · have hlt : n / 128 - 1 < 128 ^ (k + 1) := by
          rw [Nat.pow_succ] at h
          omega
        have hlen := ih fuel hlt
        simp only [length_append, length_singleton]
        omega

theorem length_writeVarInt_le (k : Nat) (h : n < 128 ^ (k + 1)) : (writeVarInt n).length ≤ k + 1 := by
  rw [writeVarInt]
  split
  · simp
  · cases k with
    | zero => omega
    | succ k =>
      rw [Nat.pow_succ] at h
      have hlen := length_varIntHigh_le n k (show n / 128 - 1 < 128 ^ (k + 1) by omega)
      simp only [length_append, length_singleton]
      omega

theorem length_varInt32_le (x : BitVec 32) : (varInt32.write x).length ≤ 5 :=
  length_writeVarInt_le 4 (show x.toNat < 128 ^ 5 by omega)

theorem prefixFree_writeVarInt : PrefixFree writeVarInt fun _ => True := by
  intro m n r r' _ _ heq
  have hm : readVarInt (max m n) (writeVarInt m ++ r) = some (m, r) :=
    readVarInt_write (Nat.le_max_left m n)
  have hn : readVarInt (max m n) (writeVarInt n ++ r') = some (n, r') :=
    readVarInt_write (Nat.le_max_right m n)
  rw [heq, hn] at hm
  cases hm
  exact ⟨rfl, rfl⟩

/-- The maximum of an unsigned type fills its last base-128 digit. -/
theorem max_digit (hw : 7 ≤ w) : 128 * ((2 ^ w - 1) / 128) + 127 = 2 ^ w - 1 := by
  obtain ⟨k, rfl⟩ := Nat.exists_eq_add_of_le hw
  have hpos := Nat.two_pow_pos k
  rw [Nat.pow_add]
  omega

end OurChain
