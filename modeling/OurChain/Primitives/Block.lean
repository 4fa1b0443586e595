import OurChain.Primitives.Transaction

/-!
# Blocks and block headers

The header of the GPoW build. Its hash covers every field but `hashGPoW`, in an
order of its own; the hash function is a parameter of whatever uses it.
-/

namespace OurChain

open Codec

structure CBlockHeader where
  nVersion : BitVec 32
  hashPrevBlock : Uint256
  hashMerkleRoot : Uint256
  hashContractState : Uint256
  nTime : BitVec 32
  nBits : BitVec 32
  nNonce : BitVec 32
  nPrecisionTime : BitVec 32
  hashGPoW : Uint256
  deriving DecidableEq

structure CBlock where
  header : CBlockHeader
  vtx : List CTransaction
  deriving DecidableEq

def headerCodec : Codec CBlockHeader :=
  (u32.seq (u256.seq (u256.seq (u256.seq (u32.seq (u32.seq
    (varInt32.seq (u32.seq u256)))))))).iso
    (fun (nVersion, hashPrevBlock, hashMerkleRoot, hashContractState, nTime, nBits, nNonce,
        nPrecisionTime, hashGPoW) =>
      { nVersion, hashPrevBlock, hashMerkleRoot, hashContractState, nTime, nBits, nNonce,
        nPrecisionTime, hashGPoW })
    (fun h => (h.nVersion, h.hashPrevBlock, h.hashMerkleRoot, h.hashContractState, h.nTime,
      h.nBits, h.nNonce, h.nPrecisionTime, h.hashGPoW))
    (fun _ => rfl) (fun _ => rfl)

def blockFormat : Format CBlock :=
  (headerCodec.toFormat.seq (Format.counted compactSize txFormat)).iso
    (fun (header, vtx) => { header, vtx }) (fun b => (b.header, b.vtx)) (fun _ => rfl) (fun _ => rfl)

theorem headerCodec_ok (h : CBlockHeader) : headerCodec.Ok h := by
  simp [headerCodec, Codec.iso, Codec.seq, Codec.bind, u32, u256, Codec.uint, varInt32,
    Codec.bits]

/-- Compact sizes and variable-length integers of every unsigned width have one encoding each,
and so has a header, whose nonce is such an integer. -/
theorem variableLength_canonical :
    (∀ nSize ≤ MAX_SIZE, ∀ rest,
      readCompactSize (writeCompactSize nSize ++ rest) = some (nSize, rest)) ∧
    (∀ bs nSize rest, readCompactSize bs = some (nSize, rest) → bs = writeCompactSize nSize ++ rest) ∧
    PrefixFree writeVarInt (fun _ => True) ∧
    (∀ w, 7 ≤ w →
      (∀ n < 2 ^ w, (writeVarInt n).length ≤ (w + 6) / 7 ∧
        ∀ rest, readVarInt (2 ^ w - 1) (writeVarInt n ++ rest) = some (n, rest)) ∧
      ∀ bs n rest, readVarInt (2 ^ w - 1) bs = some (n, rest) →
        n < 2 ^ w ∧ bs = writeVarInt n ++ rest) ∧
    ∀ bs header rest, headerCodec.read bs = some (header, rest) ↔
      bs = headerCodec.write header ++ rest := by
  refine ⟨fun _ h _ => readCompactSize_write h, fun _ _ _ h => (writeCompactSize_read h).2,
    prefixFree_writeVarInt, fun w hw => ⟨fun n hn => ⟨?_, fun rest => ?_⟩, fun bs n rest h => ?_⟩,
    fun bs header rest => ⟨fun h => (headerCodec.write_read _ _ _ h).2, ?_⟩⟩
  · -- `tmp` has room for the digits of the greatest value
    have hdigits : 2 ^ w ≤ 128 ^ ((w - 1) / 7 + 1) := by
      rw [show (128 : Nat) = 2 ^ 7 from rfl, ← Nat.pow_mul]
      exact Nat.pow_le_pow_right (by decide) (by omega)
    exact (length_writeVarInt_le _ (hn.trans_le hdigits)).trans (by omega)
  · exact readVarInt_write (by omega)
  · obtain ⟨hle, heq⟩ := writeVarInt_readFrom (max_digit hw) h
    have hpos := Nat.two_pow_pos w
    exact ⟨by omega, heq⟩
  · rintro rfl
    exact headerCodec.read_write header rest (headerCodec_ok header)

theorem length_headerCodec_le (h : CBlockHeader) : (headerCodec.write h).length ≤ 149 := by
  have hnonce := length_varInt32_le h.nNonce
  simp only [headerCodec, Codec.iso, Codec.seq, Codec.bind, u32, u256, Codec.uint,
    List.length_append, length_leBytes]
  omega

/-- Every transaction of the block, and their number, survive the disk format. -/
def CBlock.Storable (block : CBlock) : Prop :=
  block.vtx.length ≤ MAX_SIZE ∧ ∀ tx ∈ block.vtx, tx.SizesOk ∧ (tx.vin = [] → tx.vout = [])

theorem blockFormat_ok (block : CBlock) : blockFormat.Ok block ↔ block.Storable :=
  ⟨And.right, fun h => ⟨headerCodec_ok _, h⟩⟩

/-- The fields `GetHash` covers, in the order it writes them. -/
def hashedFields : Codec (BitVec 32 × Uint256 × Uint256 × Uint256 × BitVec 32 × BitVec 32 ×
    BitVec 32 × BitVec 32) :=
  u32.seq (u256.seq (u256.seq (u256.seq (u32.seq (u32.seq
    (u32.seq varInt32))))))

def CBlockHeader.hashPreimage (h : CBlockHeader) : Bytes :=
  hashedFields.write (h.nVersion, h.hashPrevBlock, h.hashMerkleRoot, h.hashContractState, h.nTime,
    h.nPrecisionTime, h.nBits, h.nNonce)

/-- `H` is the hash of `CHashWriter`. -/
def CBlockHeader.getHash (H : Bytes → Uint256) (h : CBlockHeader) : Uint256 := H h.hashPreimage

@[simp] theorem getHash_hashGPoW (H : Bytes → Uint256) (h : CBlockHeader) (g : Uint256) :
    CBlockHeader.getHash H { h with hashGPoW := g } = h.getHash H := rfl

theorem hashPreimage_inj {h h' : CBlockHeader} (heq : h.hashPreimage = h'.hashPreimage) :
    h = { h' with hashGPoW := h.hashGPoW } := by
  have hok : ∀ x, hashedFields.Ok x := by
    intro x
    simp [hashedFields, Codec.seq, Codec.bind, u32, u256, Codec.uint, varInt32,
      Codec.bits]
  have hfields := hashedFields.write_inj (hok _) (hok _) heq
  cases h
  cases h'
  simp only [Prod.mk.injEq] at hfields
  simp [hfields]

end OurChain
