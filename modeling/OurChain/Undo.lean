import OurChain.Coins
import OurChain.Compressor

/-!
# Undo records

The coins a block has spent, as they are written to the undo file and read back. The
height and the coinbase flag of a coin go into one number, which is computed as an
`int`: a bit field of 31 bits is promoted to it. Doubling a height of `2 ^ 30` or more
overflows, which leaves nothing defined to be written.
-/

namespace OurChain

open Codec List Option

/-- The weight of the smallest input, which is `CTxIn()`. -/
def MIN_TRANSACTION_INPUT_WEIGHT : Nat :=
  WITNESS_SCALE_FACTOR * (txInCodec.write ⟨⟨0, 0xffffffff⟩, [], 0xffffffff, []⟩).length

def MAX_INPUTS_PER_BLOCK : Nat := MAX_BLOCK_WEIGHT / MIN_TRANSACTION_INPUT_WEIGHT

theorem length_uint (w n : Nat) (hw : 2 ^ w = 256 ^ n) (x : BitVec w) :
    ((Codec.uint w n hw).write x).length = n := length_leBytes n _

theorem length_writeCompactSize_pos (nSize : Nat) : 1 ≤ (writeCompactSize nSize).length := by
  unfold writeCompactSize
  split
  · simp
  · split
    · simp
    · split <;> simp

theorem length_txIn_txOut (txin : CTxIn) (txout : CTxOut) :
    41 ≤ (txInCodec.write txin).length ∧ 1 ≤ (txOutCodec.write txout).length := by
  constructor
  · have hscript := length_writeCompactSize_pos txin.scriptSig.length
    simp only [txInCodec, outPointCodec, Codec.iso, Codec.seq, Codec.bind, byteVector, vector,
      Codec.counted, compactSize, u256, u32, length_append, length_uint]
    omega
  · simp only [txOutCodec, Codec.iso, Codec.seq, Codec.bind, u64, length_append, length_uint]
    omega

theorem length_vin_vout_le (h : (serializeTransaction false tx).length * WITNESS_SCALE_FACTOR ≤
    MAX_BLOCK_WEIGHT) :
    tx.vin.length ≤ MAX_INPUTS_PER_BLOCK ∧ tx.vout.length ≤ 2 ^ 32 := by
  have hvin := mul_length_le_writeMany tx.vin fun i _ => (length_txIn_txOut i ⟨0, []⟩).1
  have hvout := mul_length_le_writeMany tx.vout fun o _ => (length_txIn_txOut ⟨⟨0, 0⟩, [], 0, []⟩ o).2
  have hinputs : MAX_INPUTS_PER_BLOCK = 24390 := by decide
  have hscale : WITNESS_SCALE_FACTOR = 4 := rfl
  have hmax : MAX_BLOCK_WEIGHT = 4000000 := rfl
  have hparts : (writeMany txInCodec.write tx.vin).length +
    (writeMany txOutCodec.write tx.vout).length ≤
      (serializeTransaction false tx).length := by
    simp only [serializeTransaction, Bool.false_and, Bool.false_eq_true, if_false,
      length_append, vector, Codec.counted, length_nil]
    omega
  rw [hscale, hmax] at h
  omega

section
variable (secp : Secp256k1)

def Coin.undoCode (coin : Coin) : Nat := coin.nHeight.toNat * 2 + if coin.fCoinBase then 1 else 0

def Coin.undoBytes (coin : Coin) : Bytes :=
  writeVarInt coin.undoCode ++
    ((if 0 < coin.nHeight.toNat then [0] else []) ++ writeTxOut secp coin.out)

def writeTxInUndo (coin : Coin) : Option Bytes :=
  if coin.nHeight.toNat * 2 < 2 ^ 31 then some (coin.undoBytes secp) else none

def skipVersion (nHeight : BitVec 31) (bs : Bytes) : Option Bytes :=
  if 0 < nHeight.toNat then (readVarInt (2 ^ 31 - 1) bs).map Prod.snd else some bs

def readTxInUndo (bs : Bytes) : Option (Coin × Bytes) := do
  let (nCode, bs) ← readVarInt (2 ^ 32 - 1) bs
  let nHeight := BitVec.ofNat 31 (nCode / 2)
  let bs ← skipVersion nHeight bs
  let (out, bs) ← readTxOut secp bs
  return (⟨out, nCode % 2 = 1, nHeight⟩, bs)

def writeTxUndo (vprevout : List Coin) : Option Bytes :=
  (vprevout.mapM (writeTxInUndo secp)).map fun coins =>
    writeCompactSize vprevout.length ++ coins.flatten

def readTxUndo (bs : Bytes) : Option (List Coin × Bytes) := do
  let (count, bs) ← readCompactSize bs
  if count > MAX_INPUTS_PER_BLOCK then none
  else readMany (readTxInUndo secp) count bs

def writeBlockUndo (vtxundo : List (List Coin)) : Option Bytes :=
  (vtxundo.mapM (writeTxUndo secp)).map fun txs => writeCompactSize vtxundo.length ++ txs.flatten

def readBlockUndo (bs : Bytes) : Option (List (List Coin) × Bytes) := do
  let (count, bs) ← readCompactSize bs
  readMany (readTxUndo secp) count bs

def undoChecksum (H : Bytes → Uint256) (hashBlock : Uint256) (record : Bytes) : Uint256 :=
  H (u256.write hashBlock ++ record)

def undoWriteToDisk (H : Bytes → Uint256) (vtxundo : List (List Coin)) (hashBlock : Uint256) :
    Option Bytes :=
  (writeBlockUndo secp vtxundo).map fun record =>
    record ++ u256.write (undoChecksum H hashBlock record)

def undoReadFromDisk (H : Bytes → Uint256) (bs : Bytes) (hashBlock : Uint256) :
    Option (List (List Coin)) := do
  let (vtxundo, rest) ← readBlockUndo secp bs
  let (hashChecksum, _) ← u256.read rest
  if hashChecksum ≠ undoChecksum H hashBlock (bs.take (bs.length - rest.length)) then none
  else some vtxundo

def Coin.Undoable (coin : Coin) : Prop := coin.nHeight.toNat < 2 ^ 30

structure CTxOut.Restorable (out : CTxOut) : Prop where
  value : moneyRange out.value = true
  script : isUnspendable out.scriptPubKey = false

theorem CTxOut.Restorable.length {out : CTxOut} (h : out.Restorable) :
    out.scriptPubKey.length ≤ MAX_SCRIPT_SIZE := by
  have hscript := h.script
  rw [isUnspendable, Bool.or_eq_false_iff] at hscript
  exact Nat.not_lt.mp (of_decide_eq_false hscript.2)

theorem CTxOut.Restorable.unspent {out : CTxOut} (h : out.Restorable) : out.value ≠ -1 := by
  have hvalue : 0 ≤ out.value ∧ out.value ≤ MAX_MONEY := of_decide_eq_true h.value
  omega

theorem mapM_ite {p : α → Prop} [DecidablePred p] (f : α → β) (as : List α) :
    (as.mapM fun a => if p a then some (f a) else none) = if ∀ a ∈ as,
    p a then some (as.map f) else none := by
  induction as with
  | nil => simp
  | cons a as ih =>
    rw [mapM_cons, ih]
    by_cases ha : p a
    · by_cases has : ∀ a ∈ as, p a
      · rw [if_pos ha, if_pos has, if_pos (forall_mem_cons.mpr ⟨ha, has⟩)]
        rfl
      · rw [if_pos ha, if_neg has, if_neg fun h => has (forall_mem_cons.mp h).2]
        rfl
    · rw [if_neg ha, if_neg fun h => ha (forall_mem_cons.mp h).1]
      rfl

def txUndoBytes (vprevout : List Coin) : Bytes :=
  writeCompactSize vprevout.length ++ writeMany (Coin.undoBytes secp) vprevout

def blockUndoBytes (vtxundo : List (List Coin)) : Bytes :=
  writeCompactSize vtxundo.length ++ writeMany (txUndoBytes secp) vtxundo

instance : DecidablePred Coin.Undoable :=
  fun coin => inferInstanceAs (Decidable (coin.nHeight.toNat < 2 ^ 30))

theorem writeTxInUndo_eq (coin : Coin) :
    writeTxInUndo secp coin = if coin.Undoable then some (coin.undoBytes secp) else none := by
  have hiff : coin.nHeight.toNat * 2 < 2 ^ 31 ↔ coin.Undoable := by
    unfold Coin.Undoable
    omega
  simp only [writeTxInUndo, hiff]

theorem writeTxUndo_eq (vprevout : List Coin) : writeTxUndo secp vprevout =
    if ∀ coin ∈ vprevout, coin.Undoable then some (txUndoBytes secp vprevout) else none := by
  rw [writeTxUndo, funext (writeTxInUndo_eq secp), mapM_ite]
  split <;> rfl

theorem writeBlockUndo_eq (vtxundo : List (List Coin)) : writeBlockUndo secp vtxundo =
    if ∀ vprevout ∈ vtxundo, ∀ coin ∈ vprevout, coin.Undoable then some (blockUndoBytes secp vtxundo)
    else none := by
  rw [writeBlockUndo, funext (writeTxUndo_eq secp), mapM_ite]
  split <;> rfl

variable {secp}

variable {coin : Coin}

theorem Coin.undoCode_lt (hcoin : coin.Undoable) : coin.undoCode < 2 ^ 31 := by
  unfold Coin.undoCode Coin.Undoable at *
  split <;> omega

theorem Coin.of_undoCode (coin : Coin) :
    BitVec.ofNat 31 (coin.undoCode / 2) = coin.nHeight ∧ decide (coin.undoCode % 2 = 1) =
    coin.fCoinBase := by
  have hhalf : coin.undoCode / 2 = coin.nHeight.toNat := by
    unfold Coin.undoCode
    split <;> omega
  refine ⟨by rw [hhalf, BitVec.ofNat_toNat, BitVec.setWidth_eq], ?_⟩
  unfold Coin.undoCode
  cases coin.fCoinBase with
  | false => simp
  | true => simp [Nat.add_mod]

theorem readTxInUndo_bytes (hsecp : secp.Lawful) (hvalue : moneyRange coin.out.value = true)
    (hlen : coin.out.scriptPubKey.length ≤ MAX_SCRIPT_SIZE) (hcoin : coin.Undoable) (rest : Bytes) :
    readTxInUndo secp (coin.undoBytes secp ++ rest) = some (coin, rest) := by
  have hcode := coin.undoCode_lt hcoin
  obtain ⟨hheight, hflag⟩ := coin.of_undoCode
  have hskip : ∀ bs, skipVersion coin.nHeight ((if 0 < coin.nHeight.toNat then [0] else []) ++ bs) =
    some bs := by
    intro bs
    unfold skipVersion
    split
    · have hzero : [0] ++ bs = writeVarInt 0 ++ bs := rfl
      rw [hzero, readVarInt_write (by omega)]
      rfl
    · rfl
  rw [readTxInUndo, Coin.undoBytes, append_assoc, readVarInt_write (by omega)]
  simp only [bind_eq_bind, bind_some, hheight, hflag, append_assoc, hskip,
    readTxOut_write secp hsecp hvalue hlen, Option.pure_def]

theorem readTxUndo_bytes (hsecp : secp.Lawful) {vprevout : List Coin}
    (hlen : vprevout.length ≤ MAX_INPUTS_PER_BLOCK)
    (hcoins : ∀ coin ∈ vprevout, coin.out.Restorable ∧ coin.Undoable) (rest : Bytes) :
    readTxUndo secp (txUndoBytes secp vprevout ++ rest) = some (vprevout, rest) := by
  have hmax : MAX_INPUTS_PER_BLOCK ≤ MAX_SIZE := by decide
  have hmany := readMany_writeMany vprevout rest fun coin hcoin rest =>
    readTxInUndo_bytes hsecp (hcoins coin hcoin).1.value (hcoins coin hcoin).1.length
      (hcoins coin hcoin).2 rest
  rw [readTxUndo, txUndoBytes, append_assoc, readCompactSize_write (hlen.trans hmax)]
  simp only [bind_eq_bind, bind_some, if_neg (Nat.not_lt.mpr hlen), hmany]

theorem undoReadFromDisk_write (hsecp : secp.Lawful) (H : Bytes → Uint256) (hashBlock : Uint256)
    {vtxundo : List (List Coin)} (hlen : vtxundo.length ≤ MAX_SIZE)
    (hlens : ∀ vprevout ∈ vtxundo, vprevout.length ≤ MAX_INPUTS_PER_BLOCK)
    (hout : ∀ vprevout ∈ vtxundo, ∀ coin ∈ vprevout, coin.out.Restorable)
    (h : undoWriteToDisk secp H vtxundo hashBlock = some bs) :
    undoReadFromDisk secp H bs hashBlock = some vtxundo := by
  obtain ⟨record, hrecord, rfl⟩ := map_eq_some_iff.mp h
  rw [writeBlockUndo_eq] at hrecord
  split at hrecord
  · rename_i hcoins
    cases hrecord
    have hmany := fun rest => readMany_writeMany vtxundo rest fun vprevout hmem rest =>
      readTxUndo_bytes hsecp (hlens vprevout hmem)
        (fun coin hcoin => ⟨hout vprevout hmem coin hcoin, hcoins vprevout hmem coin hcoin⟩) rest
    have hread : ∀ rest, readBlockUndo secp (blockUndoBytes secp vtxundo ++ rest) =
      some (vtxundo, rest) := by
      intro rest
      rw [readBlockUndo, blockUndoBytes, append_assoc, readCompactSize_write hlen]
      exact hmany rest
    have hchecksum := u256.read_write (undoChecksum H hashBlock (blockUndoBytes secp vtxundo))
      [] trivial
    rw [append_nil] at hchecksum
    rw [undoReadFromDisk, hread]
    simp [hchecksum]
  · cases hrecord

variable (secp) in
/-- A spent coin fails the assertion; `code` is computed as an `int` here as well. -/
def Coin.serialize (coin : Coin) : Option Bytes :=
  if coin.isSpent then none
  else if coin.nHeight.toNat * 2 < 2 ^ 31 then some
    (writeVarInt coin.undoCode ++ writeTxOut secp coin.out) else none

variable (secp) in
def Coin.unserialize (bs : Bytes) : Option (Coin × Bytes) := do
  let (code, bs) ← readVarInt (2 ^ 32 - 1) bs
  let (out, bs) ← readTxOut secp bs
  return (⟨out, code % 2 = 1, BitVec.ofNat 31 (code / 2)⟩, bs)

theorem Coin.unserialize_serialize (hsecp : secp.Lawful) (hvalue : moneyRange coin.out.value = true)
    (hlen : coin.out.scriptPubKey.length ≤ MAX_SCRIPT_SIZE) (hcoin : coin.Undoable) :
    ∃ bs, coin.serialize secp = some bs ∧ ∀ rest, Coin.unserialize secp (bs ++ rest) =
    some (coin, rest) := by
  have hspent : coin.isSpent = false := by
    have hrange : 0 ≤ coin.out.value ∧ coin.out.value ≤ MAX_MONEY := of_decide_eq_true hvalue
    exact decide_eq_false (by omega)
  have hheight : coin.nHeight.toNat * 2 < 2 ^ 31 := by
    unfold Coin.Undoable at hcoin
    omega
  have hcode := coin.undoCode_lt hcoin
  refine ⟨writeVarInt coin.undoCode ++ writeTxOut secp coin.out, ?_, ?_⟩
  · rw [Coin.serialize, if_neg (Bool.eq_false_iff.mp hspent), if_pos hheight]
  intro rest
  rw [Coin.unserialize, append_assoc, readVarInt_write (by omega)]
  simp [readTxOut_write secp hsecp hvalue hlen, coin.of_undoCode]

/-- A coin comes back from the database and from an undo record, an amount from its code, and a
script from the special form it is given. -/
theorem compressed_coins_decode (hsecp : secp.Lawful) :
    (∀ coin : Coin, 0 ≤ coin.out.value → coin.out.value ≤ MAX_MONEY → coin.nHeight.toNat < 2 ^ 30 →
      coin.out.scriptPubKey.length ≤ MAX_SCRIPT_SIZE →
      (∃ bs, coin.serialize secp = some bs ∧ ∀ rest, Coin.unserialize secp (bs ++ rest) =
      some (coin, rest)) ∧ ∃ bs, writeTxInUndo secp coin = some bs ∧ ∀ rest,
      readTxInUndo secp (bs ++ rest) = some (coin, rest)) ∧
    (∀ n : Nat, (n : Int) ≤ MAX_MONEY → decompressAmount (compressAmount n) = n) ∧
    (∀ m n : Nat, (m : Int) ≤ MAX_MONEY → (n : Int) ≤ MAX_MONEY →
    compressAmount m = compressAmount n → m = n) ∧ ∀ script out,
    CScriptCompressor.compress secp script = some out →
      ∃ nSize data, nSize < nSpecialScripts ∧ out = BitVec.ofNat 8 nSize :: data ∧
        data.length = CScriptCompressor.getSpecialSize nSize ∧
        CScriptCompressor.decompress secp nSize data = some script := by
  refine ⟨?_, decompress_compressAmount, ?_, fun script out =>
    CScriptCompressor.compress_special hsecp⟩
  · intro coin hpos hmax hheight hlen
    have hvalue : moneyRange coin.out.value = true := decide_eq_true ⟨hpos, hmax⟩
    refine ⟨Coin.unserialize_serialize hsecp hvalue hlen hheight, coin.undoBytes secp, ?_, ?_⟩
    · exact (writeTxInUndo_eq secp coin).trans (if_pos hheight)
    · exact readTxInUndo_bytes hsecp hvalue hlen hheight
  · intro m n hm hn hsame
    rw [← decompress_compressAmount m hm, hsame, decompress_compressAmount n hn]

def oneKey : Secp256k1 where
  isFullyValid key := key = 0x04 :: List.replicate 32 7 ++ List.replicate 31 7 ++ [7]
  decompress key := if key = 0x03 :: List.replicate 32 7 then
      some (0x04 :: List.replicate 32 7 ++ List.replicate 31 7 ++ [7])
    else none

theorem oneKey_lawful : oneKey.Lawful := by
  intro x y last hx hy hvalid
  have hkey : 0x04 :: x ++ y ++ [last] = 0x04 :: List.replicate 32 7 ++ List.replicate 31 7 ++ [7] :=
    of_decide_eq_true hvalid
  obtain ⟨hcoordinates, hlast⟩ := append_inj' hkey rfl
  obtain ⟨hx, rfl⟩ := append_inj hcoordinates (by simp [hx])
  cases hx
  cases hlast
  rfl

theorem compressed_coins_decode_payment :
    let key : Bytes := 0x04 :: List.replicate 32 7 ++ List.replicate 31 7 ++ [7]
    let coin : Coin := ⟨⟨5000000000, [65] ++ key ++ [OP_CHECKSIG]⟩, true, 100⟩
    oneKey.isFullyValid key = true ∧
    (∃ bs, coin.serialize oneKey = some bs ∧ ∀ rest, Coin.unserialize oneKey (bs ++ rest) =
    some (coin, rest)) ∧ ∃ bs, writeTxInUndo oneKey coin = some bs ∧ ∀ rest,
    readTxInUndo oneKey (bs ++ rest) = some (coin, rest) :=
  ⟨by decide, (compressed_coins_decode oneKey_lawful).1 _ (by decide) (by decide) (by decide)
    (by decide)⟩

variable (secp) in
theorem undoWriteToDisk_isSome (H : Bytes → Uint256) (vtxundo : List (List Coin))
    (hashBlock : Uint256) :
    (undoWriteToDisk secp H vtxundo hashBlock).isSome ↔
      ∀ vprevout ∈ vtxundo, ∀ coin ∈ vprevout, coin.Undoable := by
  rw [undoWriteToDisk, isSome_map, writeBlockUndo_eq]
  split
  · exact iff_of_true rfl ‹_›
  · exact iff_of_false (by simp) ‹_›

end

end OurChain
