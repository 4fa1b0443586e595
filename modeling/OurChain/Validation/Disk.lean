import OurChain.Validation.Header
import OurChain.TxDB

/-!
# Block files

`WriteBlockToDisk` and `ReadBlockFromDisk`. A block is accepted by the proof of
work of its `hashGPoW`, but its file and its index record are re-checked by the
proof of work of its own hash; the two agree on no more than what is stated here.
-/

namespace OurChain

/-- Overwrites the file from `pos` on; a gap before `pos` is filled with zeros. -/
def fileWrite (file : Bytes) (pos : Nat) (bs : Bytes) : Bytes :=
  file.take pos ++ (List.replicate (pos - file.length) 0 ++ (bs ++ file.drop (pos + bs.length)))

/-- The file after the block was written and the position it was written to. -/
def writeBlockToDisk (messageStart : BitVec 32) (block : CBlock) (file : Bytes) (nPos : BitVec 32) :
    Bytes × BitVec 32 :=
  let data := blockFormat.write block
  let indexHeader := Codec.u32.write messageStart ++ Codec.u32.write (BitVec.ofNat 32 data.length)
  let fileOutPos := nPos.toNat + indexHeader.length
  (fileWrite file nPos.toNat (indexHeader ++ data), BitVec.ofNat 32 fileOutPos)

def readBlockFromDisk (H : Bytes → Uint256) (params : ConsensusParams) (file : Bytes)
    (nPos : BitVec 32) : Option CBlock := do
  let (block, _) ← blockFormat.read (file.drop nPos.toNat)
  if checkProofOfWork params (block.header.getHash H) block.header.nBits then some block else none

variable (H : Bytes → Uint256) (params : ConsensusParams) (messageStart : BitVec 32)
  (block : CBlock) (file : Bytes) (nPos : BitVec 32)

theorem drop_fileWrite (pos : Nat) (bs bs' : Bytes) :
    (fileWrite file pos (bs ++ bs')).drop (pos + bs.length) =
      bs' ++ file.drop (pos + bs.length + bs'.length) := by
  have hlen : (file.take pos ++ List.replicate (pos - file.length) (0 : Byte)).length = pos := by
    simp only [List.length_append, List.length_take, List.length_replicate]
    omega
  rw [fileWrite, ← List.append_assoc, ← List.drop_drop, List.drop_left' hlen, List.append_assoc,
    List.drop_left, List.length_append, Nat.add_assoc]

theorem drop_writeBlockToDisk (hpos : nPos.toNat + 8 < 2 ^ 32) :
    (writeBlockToDisk messageStart block file nPos).1.drop
    (writeBlockToDisk messageStart block file nPos).2.toNat =
      blockFormat.write block ++ file.drop (nPos.toNat + 8 + (blockFormat.write block).length) := by
  have hlen : (Codec.u32.write messageStart ++
      Codec.u32.write (BitVec.ofNat 32 (blockFormat.write block).length)).length = 8 := by
    simp [Codec.u32, Codec.uint]
  simp only [writeBlockToDisk, hlen, BitVec.toNat_ofNat, Nat.mod_eq_of_lt hpos]
  rw [← hlen, drop_fileWrite]

theorem readBlockFromDisk_write (hpos : nPos.toNat + 8 < 2 ^ 32) :
    readBlockFromDisk H params (writeBlockToDisk messageStart block file nPos).1
        (writeBlockToDisk messageStart block file nPos).2 =
      (blockFormat.read (blockFormat.write block ++
        file.drop (nPos.toNat + 8 + (blockFormat.write block).length))).bind fun (block, _) =>
          if checkProofOfWork params (block.header.getHash H) block.header.nBits then some block
          else none := by
  rw [readBlockFromDisk, drop_writeBlockToDisk _ _ _ _ hpos]
  rfl

/-- Both re-checks of an accepted block succeed: its file gives the block back,
whatever else the file holds, and the record of its index entry is loaded. -/
def StaysReadable (H : Bytes → Uint256) (params : ConsensusParams) (block : CBlock) : Prop :=
  checkBlockHeader params block.header true = .ok () →
    (∀ messageStart file nPos, nPos.toNat + 8 < 2 ^ 32 →
      readBlockFromDisk H params (writeBlockToDisk messageStart block file nPos).1
        (writeBlockToDisk messageStart block file nPos).2 = some block) ∧
    ∀ e clientVersion m, e.getBlockHeader = block.header →
      ∃ m', loadBlockIndexGuts H params [(CDiskBlockIndex.ofIndex e).serialize clientVersion] m =
        some m'

/-- The block's own hash meets its target, and is not the null hash. -/
def SelfProven (H : Bytes → Uint256) (params : ConsensusParams) (header : CBlockHeader) : Prop :=
  header.getHash H ≠ 0#256 ∧ checkProofOfWork params (header.getHash H) header.nBits = true

theorem readBack_iff : (∀ messageStart file nPos, nPos.toNat + 8 < 2 ^ 32 →
      readBlockFromDisk H params (writeBlockToDisk messageStart block file nPos).1
        (writeBlockToDisk messageStart block file nPos).2 = some block) ↔
    checkProofOfWork params (block.header.getHash H) block.header.nBits = true ∧
      block.Storable := by
  constructor
  · intro h
    have hread := h 0 [] 0 (by decide)
    rw [readBlockFromDisk_write H params _ _ _ _ (by decide), Option.bind_eq_some_iff] at hread
    obtain ⟨⟨block', rest⟩, hread, hcheck⟩ := hread
    simp only at hcheck
    split at hcheck
    · rename_i hpow
      cases hcheck
      refine ⟨hpow, (blockFormat_ok block).mp ?_⟩
      rcases blockFormat.read_length _ _ _ hread with hlt | ⟨hok, -⟩
      · simp at hlt
      · exact hok
    · cases hcheck
  · rintro ⟨hpow, hstorable⟩ messageStart file nPos hpos
    rw [readBlockFromDisk_write H params _ _ _ _ hpos,
      blockFormat.read_write _ _ ((blockFormat_ok block).mpr hstorable)]
    simp [hpow]

theorem recordLoads_iff (header : CBlockHeader) : (∀ e clientVersion m, e.getBlockHeader = header →
      ∃ m', loadBlockIndexGuts H params [(CDiskBlockIndex.ofIndex e).serialize clientVersion] m =
        some m') ↔ SelfProven H params header := by
  constructor
  · intro h
    let e : CBlockIndex := { CBlockIndex.null 0 with
      pprev := some header.hashPrevBlock, nVersion := header.nVersion
      hashMerkleRoot := header.hashMerkleRoot, hashContractState := header.hashContractState
      nTime := header.nTime, nBits := header.nBits, nNonce := header.nNonce
      nPrecisionTime := header.nPrecisionTime, hashGPoW := header.hashGPoW }
    obtain ⟨m', hload⟩ := h e 0 [] rfl
    obtain ⟨d, hd, hne, hpow⟩ := loadBlockIndexGuts_record hload List.mem_cons_self
    rw [CDiskBlockIndex.unserialize_serialize] at hd
    cases hd
    exact ⟨hne, hpow⟩
  · rintro ⟨hne, hpow⟩ e clientVersion m rfl
    have hhash : (CDiskBlockIndex.ofIndex e).stored.getBlockHash H = e.getBlockHeader.getHash H := rfl
    have hbits : (CDiskBlockIndex.ofIndex e).stored.header.nBits = e.getBlockHeader.nBits := rfl
    simp [loadBlockIndexGuts, loadRecord, CDiskBlockIndex.unserialize_serialize, hhash, hbits, hne,
      hpow]

/-- An accepted block stays readable exactly when its own hash is proof of work too
and its transactions survive the disk format. -/
theorem staysReadable_iff (H : Bytes → Uint256) (params : ConsensusParams) (block : CBlock) :
    StaysReadable H params block ↔
      (checkBlockHeader params block.header true = .ok () →
        SelfProven H params block.header ∧ block.Storable) := by
  refine imp_congr_right fun _ => ?_
  rw [readBack_iff, recordLoads_iff, SelfProven]
  tauto

theorem unminedHeader_unreadable :
    checkBlockHeader mainParams unminedHeader true = .ok () ∧
      readBlockFromDisk (fun _ => BitVec.allOnes 256) mainParams
        (writeBlockToDisk 0xd9b4bef9 ⟨unminedHeader, []⟩ [] 0).1
        (writeBlockToDisk 0xd9b4bef9 ⟨unminedHeader, []⟩ [] 0).2 = none := by
  refine ⟨by decide, ?_⟩
  have hok : blockFormat.Ok ⟨unminedHeader, []⟩ := (blockFormat_ok _).mpr (by simp [CBlock.Storable])
  rw [readBlockFromDisk_write _ _ _ _ _ _ (by decide), blockFormat.read_write _ _ hok]
  decide

end OurChain
