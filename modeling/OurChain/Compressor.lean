import OurChain.Consensus.TxVerify
import OurChain.Script.Script

/-!
# Compressed outputs

The format of an output in the coin database and in undo records: amounts without their
trailing zeros, and the common scripts by the hash or key they hold. The calls into
secp256k1 are a parameter.
-/

namespace OurChain

open List

def dropZeros : Nat → Nat → Nat × Nat
  | 0, n => (n, 0)
  | fuel + 1, n =>
    if n % 10 = 0 then
      let (n, e) := dropZeros fuel (n / 10)
      (n, e + 1)
    else (n, 0)

/-- On `uint64_t`. -/
def compressAmount (n : Nat) : Nat :=
  if n = 0 then 0
  else
    let (n, e) := dropZeros 9 n
    if e < 9 then (1 + (n / 10 * 9 + n % 10 - 1) * 10 + e) % 2 ^ 64
    else (1 + (n - 1) * 10 + 9) % 2 ^ 64

def decompressAmount (x : Nat) : Nat :=
  if x = 0 then 0
  else
    let x := x - 1
    let e := x % 10
    let x := x / 10
    let n := if e < 9 then x / 9 * 10 + (x % 9 + 1) else x + 1
    n * 10 ^ e % 2 ^ 64

theorem dropZeros_spec (fuel n : Nat) (hn : n ≠ 0) :
    (dropZeros fuel n).1 * 10 ^ (dropZeros fuel n).2 = n ∧ (dropZeros fuel n).1 ≠ 0 ∧
      (dropZeros fuel n).2 ≤ fuel ∧ ((dropZeros fuel n).2 < fuel →
      (dropZeros fuel n).1 % 10 ≠ 0) := by
  induction fuel generalizing n with
  | zero => simp [dropZeros, hn]
  | succ fuel ih =>
    rw [dropZeros]
    split
    · rename_i hzero
      obtain ⟨hvalue, hne, hle, hlast⟩ := ih (n / 10) (by omega)
      refine ⟨?_, hne, Nat.succ_le_succ hle, fun h => hlast (Nat.lt_of_succ_lt_succ h)⟩
      rw [Nat.pow_succ, ← Nat.mul_assoc, hvalue]
      omega
    · rename_i hdigit
      exact ⟨by simp, hn, Nat.zero_le _, fun _ => hdigit⟩

theorem decompress_compressAmount (n : Nat) (hn : (n : Int) ≤ MAX_MONEY) :
    decompressAmount (compressAmount n) = n := by
  have hmax : n ≤ 2100000000000000 := by
    have hmoney : MAX_MONEY = 2100000000000000 := rfl
    omega
  unfold compressAmount
  split
  · rename_i hzero
    rw [hzero]
    rfl
  · rename_i hne
    obtain ⟨hvalue, hne', hle, hlast⟩ := dropZeros_spec 9 n hne
    generalize dropZeros 9 n = r at hvalue hne' hle hlast
    obtain ⟨m, e⟩ := r
    dsimp only at hvalue hne' hle hlast ⊢
    have hm : m ≤ n := hvalue ▸ Nat.le_mul_of_pos_right m (by positivity)
    split
    · rename_i he
      rw [Nat.mod_eq_of_lt (by omega), decompressAmount, if_neg (by omega)]
      have hx : 1 + (m / 10 * 9 + m % 10 - 1) * 10 + e - 1 = (m / 10 * 9 + m % 10 - 1) * 10 + e := by
        omega
      have hmod : ((m / 10 * 9 + m % 10 - 1) * 10 + e) % 10 = e := by omega
      have hdiv : ((m / 10 * 9 + m % 10 - 1) * 10 + e) / 10 = m / 10 * 9 + m % 10 - 1 := by omega
      have hback : (m / 10 * 9 + m % 10 - 1) / 9 * 10 + ((m / 10 * 9 + m % 10 - 1) % 9 + 1) = m := by
        omega
      simp only [hx, hmod, hdiv, if_pos he, hback, hvalue]
      omega
    · have he : e = 9 := by omega
      subst he
      rw [Nat.mod_eq_of_lt (by omega), decompressAmount, if_neg (by omega)]
      have hx : 1 + (m - 1) * 10 + 9 - 1 = (m - 1) * 10 + 9 := by omega
      have hmod : ((m - 1) * 10 + 9) % 10 = 9 := by omega
      have hdiv : ((m - 1) * 10 + 9) / 10 = m - 1 := by omega
      have hback : m - 1 + 1 = m := by omega
      simp only [hx, hmod, hdiv, Nat.lt_irrefl, if_false, hback, hvalue]
      omega

def nSpecialScripts : Nat := 6

/-- `CPubKey::IsFullyValid` and `CPubKey::Decompress`. -/
structure Secp256k1 where
  isFullyValid : Bytes → Bool
  decompress : Bytes → Option Bytes

/-- A valid key is found again from its first coordinate and the parity of the second. -/
def Secp256k1.Lawful (secp : Secp256k1) : Prop :=
  ∀ x y : Bytes, ∀ last : Byte, x.length = 32 → y.length = 31 →
    secp.isFullyValid (0x04 :: x ++ y ++ [last]) = true →
    secp.decompress ((0x02 ||| last &&& 0x01) :: x) = some (0x04 :: x ++ y ++ [last])

def noKeys : Secp256k1 where
  isFullyValid _ := false
  decompress _ := none

theorem noKeys_lawful : noKeys.Lawful := fun _ _ _ _ _ hvalid => nomatch hvalid

namespace CScriptCompressor

variable (secp : Secp256k1)

def isToKeyID (script : Bytes) : Option Bytes :=
  if script.length = 25 ∧ script.take 3 = [OP_DUP, OP_HASH160, 20] ∧
      script.drop 23 = [OP_EQUALVERIFY, OP_CHECKSIG] then some ((script.drop 3).take 20)
  else none

def isToScriptID (script : Bytes) : Option Bytes :=
  if script.length = 23 ∧ script.take 2 = [OP_HASH160, 20] ∧ script.drop 22 = [OP_EQUAL] then
    some ((script.drop 2).take 20)
  else none

def isToPubKey (script : Bytes) : Option (Byte × Bytes) :=
  match script with
  | size :: kind :: rest =>
    if rest.length = 33 ∧ size = 33 ∧ rest.drop 32 = [OP_CHECKSIG] ∧ (kind = 0x02 ∨ kind = 0x03) then
      some (kind, rest.take 32)
    else if rest.length = 65 ∧ size = 65 ∧ rest.drop 64 = [OP_CHECKSIG] ∧ kind = 0x04 ∧
        secp.isFullyValid (kind :: rest.take 64) then some (kind, rest.take 64)
    else none
  | _ => none

def compressPubKey : Byte × Bytes → Bytes
  | (kind, key) =>
    if kind = 0x04 then (0x04 ||| key.getLastD 0 &&& 0x01) :: key.take 32 else kind :: key.take 32

def compress (script : Bytes) : Option Bytes :=
  match isToKeyID script with
  | some hash => some (0x00 :: hash)
  | none => match isToScriptID script with
    | some hash => some (0x01 :: hash)
    | none => (isToPubKey secp script).map compressPubKey

def getSpecialSize (nSize : Nat) : Nat := if nSize < 2 then 20 else if nSize < 6 then 32 else 0

def decompress (nSize : Nat) (data : Bytes) : Option Bytes :=
  match nSize with
  | 0 => some ([OP_DUP, OP_HASH160, 20] ++ data ++ [OP_EQUALVERIFY, OP_CHECKSIG])
  | 1 => some ([OP_HASH160, 20] ++ data ++ [OP_EQUAL])
  | 2 => some ([33, 2] ++ data ++ [OP_CHECKSIG])
  | 3 => some ([33, 3] ++ data ++ [OP_CHECKSIG])
  | 4 => (secp.decompress (2 :: data)).map fun key => [65] ++ key ++ [OP_CHECKSIG]
  | 5 => (secp.decompress (3 :: data)).map fun key => [65] ++ key ++ [OP_CHECKSIG]
  | _ => none

def write (script : Bytes) : Bytes :=
  match compress secp script with
  | some out => out
  | none => writeVarInt ((script.length + nSpecialScripts) % 2 ^ 32) ++ script

/-- A script that is too long is replaced; one that cannot be decompressed is left empty. -/
def read (bs : Bytes) : Option (Bytes × Bytes) :=
  match readVarInt (2 ^ 32 - 1) bs with
  | none => none
  | some (nSize, bs) =>
    if nSize < nSpecialScripts then
      (Codec.takeBytes (getSpecialSize nSize) bs).map fun (vch, bs) =>
        ((decompress secp nSize vch).getD [], bs)
    else if nSize - nSpecialScripts > MAX_SCRIPT_SIZE then
      (Codec.takeBytes (nSize - nSpecialScripts) bs).map fun (_, bs) => ([OP_RETURN], bs)
    else Codec.takeBytes (nSize - nSpecialScripts) bs

theorem take_take_drop (script : Bytes) (a b : Nat) :
    script.take a ++ (script.drop a).take b ++ script.drop (a + b) = script := by
  rw [append_assoc, ← drop_drop, take_append_drop, take_append_drop]

theorem isToKeyID_eq_some {script hash : Bytes} (h : isToKeyID script = some hash) :
    hash.length = 20 ∧ [OP_DUP, OP_HASH160, 20] ++ hash ++ [OP_EQUALVERIFY,
    OP_CHECKSIG] = script := by
  unfold isToKeyID at h
  split at h
  · rename_i hform
    obtain ⟨hlen, hfirst, hlast⟩ := hform
    cases h
    refine ⟨by simp [hlen], ?_⟩
    rw [← hfirst, ← hlast]
    exact take_take_drop script 3 20
  · cases h

theorem isToScriptID_eq_some {script hash : Bytes} (h : isToScriptID script = some hash) :
    hash.length = 20 ∧ [OP_HASH160, 20] ++ hash ++ [OP_EQUAL] = script := by
  unfold isToScriptID at h
  split at h
  · rename_i hform
    obtain ⟨hlen, hfirst, hlast⟩ := hform
    cases h
    refine ⟨by simp [hlen], ?_⟩
    rw [← hfirst, ← hlast]
    exact take_take_drop script 2 20
  · cases h

/-- The special form of a script: its kind and the data it is decompressed from. -/
def Special (script out : Bytes) : Prop :=
  ∃ nSize data, nSize < nSpecialScripts ∧ out = BitVec.ofNat 8 nSize :: data ∧
    data.length = getSpecialSize nSize ∧ decompress secp nSize data = some script

variable {secp}

theorem special_uncompressed (hsecp : secp.Lawful) (key : Bytes) (hlen : key.length = 64)
    (hvalid : secp.isFullyValid (0x04 :: key) = true) :
    Special secp ([65, 0x04] ++ key ++ [OP_CHECKSIG]) (compressPubKey (0x04, key)) := by
  have hkey : key = key.take 32 ++ (key.drop 32).take 31 ++ [key.getLastD 0] := by
    have hlast : key.drop 63 = [key.getLastD 0] := by
      obtain ⟨last, hlast⟩ := length_eq_one_iff.mp (show (key.drop 63).length = 1 by simp [hlen])
      rw [hlast, ← take_append_drop 63 key, hlast]
      simp
    rw [← hlast]
    exact (take_take_drop key 32 31).symm
  have hback : secp.decompress ((0x02 ||| key.getLastD 0 &&& 0x01) :: key.take 32) =
    some (0x04 :: key) := by
    have := hsecp (key.take 32) ((key.drop 32).take 31) (key.getLastD 0) (by simp [hlen])
      (by simp [hlen])
    rw [cons_append, cons_append, ← hkey] at this
    exact this hvalid
  have hparity : key.getLastD 0 &&& 0x01 = 0 ∨ key.getLastD 0 &&& 0x01 = 1 := by
    generalize key.getLastD 0 = last
    revert last
    decide
  rcases hparity with heven | hodd
  · rw [heven] at hback
    refine ⟨4, key.take 32, by decide, ?_, by simp [hlen, getSpecialSize], ?_⟩
    · rw [compressPubKey, if_pos rfl, heven]
      rfl
    · simpa [decompress] using ⟨_, hback, rfl⟩
  · rw [hodd] at hback
    refine ⟨5, key.take 32, by decide, ?_, by simp [hlen, getSpecialSize], ?_⟩
    · rw [compressPubKey, if_pos rfl, hodd]
      rfl
    · simpa [decompress] using ⟨_, hback, rfl⟩

variable (secp) in
theorem special_compressed (kind : Byte) (key : Bytes) (hlen : key.length = 32)
    (hkind : kind = 0x02 ∨ kind = 0x03) :
    Special secp ([33, kind] ++ key ++ [OP_CHECKSIG]) (compressPubKey (kind, key)) := by
  have htake : key.take 32 = key := take_of_length_le (by omega)
  rcases hkind with rfl | rfl
  · exact ⟨2, key, by decide, by simp [compressPubKey, htake], by simp [hlen, getSpecialSize], rfl⟩
  · exact ⟨3, key, by decide, by simp [compressPubKey, htake], by simp [hlen, getSpecialSize], rfl⟩

theorem special_pubKey (hsecp : secp.Lawful) (h : isToPubKey secp script = some key) :
    Special secp script (compressPubKey key) := by
  unfold isToPubKey at h
  split at h
  · rename_i size kind rest
    split at h
    · rename_i hform
      obtain ⟨hlen, rfl, hlast, hkind⟩ := hform
      cases h
      have := special_compressed secp kind (rest.take 32) (by simp [hlen]) hkind
      rwa [append_assoc, ← hlast, take_append_drop] at this
    · split at h
      · rename_i hform
        obtain ⟨hlen, rfl, hlast, rfl, hvalid⟩ := hform
        cases h
        have := special_uncompressed hsecp (rest.take 64) (by simp [hlen]) hvalid
        rwa [append_assoc, ← hlast, take_append_drop] at this
      · cases h
  · cases h

theorem compress_special (hsecp : secp.Lawful) (h : compress secp script = some out) :
    Special secp script out := by
  unfold compress at h
  split at h
  · rename_i hash hkey
    cases h
    obtain ⟨hlen, hscript⟩ := isToKeyID_eq_some hkey
    exact ⟨0, hash, by decide, rfl, hlen, congrArg some hscript⟩
  · split at h
    · rename_i hash hid
      cases h
      obtain ⟨hlen, hscript⟩ := isToScriptID_eq_some hid
      exact ⟨1, hash, by decide, rfl, hlen, congrArg some hscript⟩
    · obtain ⟨key, hkey, rfl⟩ := Option.map_eq_some_iff.mp h
      exact special_pubKey hsecp hkey

theorem read_write (hsecp : secp.Lawful) (hlen : script.length ≤ MAX_SCRIPT_SIZE) (rest : Bytes) :
    read secp (write secp script ++ rest) = some (script, rest) := by
  unfold write
  split
  · rename_i out hout
    obtain ⟨nSize, data, hsize, rfl, hdata, hscript⟩ := compress_special hsecp hout
    have hspecial : nSpecialScripts = 6 := rfl
    have hsmall : writeVarInt nSize = [BitVec.ofNat 8 nSize] := if_pos (by omega)
    have hread : readVarInt (2 ^ 32 - 1) (BitVec.ofNat 8 nSize :: data ++ rest) =
      some (nSize, data ++ rest) := by
      have hwritten : BitVec.ofNat 8 nSize :: data ++ rest = writeVarInt nSize ++ (data ++ rest) := by
        rw [hsmall]
        rfl
      rw [hwritten, readVarInt_write (by omega)]
    rw [read, hread]
    simp only [if_pos hsize, Codec.takeBytes_append hdata, Option.map_some, hscript, Option.getD_some]
  · have hmax : MAX_SCRIPT_SIZE = 10000 := rfl
    have hspecial : nSpecialScripts = 6 := rfl
    rw [Nat.mod_eq_of_lt (by omega), append_assoc, read, readVarInt_write (by omega)]
    simp only [if_neg (show ¬ script.length + nSpecialScripts < nSpecialScripts by omega),
      Nat.add_sub_cancel, if_neg (show ¬ script.length > MAX_SCRIPT_SIZE by omega)]
    exact Codec.takeBytes_append rfl

end CScriptCompressor

section
variable (secp : Secp256k1)

def writeTxOut (out : CTxOut) : Bytes :=
  writeVarInt (compressAmount out.nValue.toNat) ++ CScriptCompressor.write secp out.scriptPubKey

def readTxOut (bs : Bytes) : Option (CTxOut × Bytes) := do
  let (nVal, bs) ← readVarInt (2 ^ 64 - 1) bs
  let (scriptPubKey, bs) ← CScriptCompressor.read secp bs
  return (⟨BitVec.ofNat 64 (decompressAmount nVal), scriptPubKey⟩, bs)

theorem compressAmount_lt (n : Nat) : compressAmount n < 2 ^ 64 := by
  unfold compressAmount
  dsimp only
  split
  · decide
  · split <;> exact Nat.mod_lt _ (by decide)

theorem readTxOut_write (hsecp : secp.Lawful) (hvalue : moneyRange out.value = true)
    (hlen : out.scriptPubKey.length ≤ MAX_SCRIPT_SIZE) (rest : Bytes) :
    readTxOut secp (writeTxOut secp out ++ rest) = some (out, rest) := by
  have hamount : decompressAmount (compressAmount out.nValue.toNat) = out.nValue.toNat := by
    apply decompress_compressAmount
    have hrange : 0 ≤ out.nValue.toInt ∧ out.nValue.toInt ≤ MAX_MONEY := of_decide_eq_true hvalue
    rw [BitVec.toInt_eq_toNat_cond] at hrange
    split at hrange <;> omega
  have hamounts := compressAmount_lt out.nValue.toNat
  rw [readTxOut, writeTxOut, append_assoc, readVarInt_write (by omega)]
  simp [CScriptCompressor.read_write hsecp hlen, hamount]

end

end OurChain
