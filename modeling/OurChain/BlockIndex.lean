import OurChain.Pow
import OurChain.Validation.WorkComparator

/-!
# Block index entries

`CBlockIndex` and the record `CDiskBlockIndex` it is stored as. A pointer to
another entry is the hash under which `mapBlockIndex` holds that entry. The file
and the two positions are only on disk when the status bits say so.
-/

namespace OurChain

def BLOCK_VALID_TREE : BitVec 32 := 2
def BLOCK_VALID_TRANSACTIONS : BitVec 32 := 3
def BLOCK_VALID_SCRIPTS : BitVec 32 := 5
def BLOCK_VALID_MASK : BitVec 32 := 7
def BLOCK_HAVE_DATA : BitVec 32 := 8
def BLOCK_HAVE_UNDO : BitVec 32 := 16
def BLOCK_FAILED_VALID : BitVec 32 := 32
def BLOCK_FAILED_CHILD : BitVec 32 := 64
def BLOCK_FAILED_MASK : BitVec 32 := 96

structure CDiskBlockPos where
  nFile : Int
  nPos : BitVec 32
  deriving DecidableEq

def CDiskBlockPos.null : CDiskBlockPos := ⟨-1, 0⟩

structure CBlockIndex where
  hashBlock : Uint256
  pprev : Option Uint256
  nHeight : BitVec 31
  nFile : BitVec 31
  nDataPos : BitVec 32
  nUndoPos : BitVec 32
  nChainWork : Uint256
  nTx : BitVec 32
  nStatus : BitVec 32
  nVersion : BitVec 32
  hashMerkleRoot : Uint256
  hashContractState : Uint256
  nTime : BitVec 32
  nBits : BitVec 32
  nNonce : BitVec 32
  nPrecisionTime : BitVec 32
  hashGPoW : Uint256
  deriving DecidableEq

namespace CBlockIndex

/-- The entry `SetNull` leaves, filed under `hashBlock`. -/
def null (hashBlock : Uint256) : CBlockIndex where
  hashBlock
  pprev := none
  nHeight := 0
  nFile := 0
  nDataPos := 0
  nUndoPos := 0
  nChainWork := 0
  nTx := 0
  nStatus := 0
  nVersion := 0
  hashMerkleRoot := 0
  hashContractState := 0
  nTime := 0
  nBits := 0
  nNonce := 0
  nPrecisionTime := 0
  hashGPoW := 0

def haveBit (nStatus bit : BitVec 32) : Bool := nStatus &&& bit != 0#32

def getBlockPos (e : CBlockIndex) : CDiskBlockPos :=
  if haveBit e.nStatus BLOCK_HAVE_DATA then ⟨e.nFile.toNat, e.nDataPos⟩ else .null

def getUndoPos (e : CBlockIndex) : CDiskBlockPos :=
  if haveBit e.nStatus BLOCK_HAVE_UNDO then ⟨e.nFile.toNat, e.nUndoPos⟩ else .null

def getBlockHeader (e : CBlockIndex) : CBlockHeader where
  nVersion := e.nVersion
  hashPrevBlock := e.pprev.getD 0#256
  hashMerkleRoot := e.hashMerkleRoot
  hashContractState := e.hashContractState
  nTime := e.nTime
  nBits := e.nBits
  nNonce := e.nNonce
  nPrecisionTime := e.nPrecisionTime
  hashGPoW := e.hashGPoW

/-- What `CBlockIndexWorkComparator` reads of an entry at address `addr`. -/
def workKey (e : CBlockIndex) (addr : Nat) : WorkKey :=
  { nChainWork := e.nChainWork, nTime := e.nTime, nPrecisionTime := e.nPrecisionTime,
    hashGPoW := e.getBlockHeader.hashGPoW, addr }

end CBlockIndex

structure CDiskBlockIndex where
  nHeight : BitVec 31
  nStatus : BitVec 32
  nTx : BitVec 32
  nFile : BitVec 31
  nDataPos : BitVec 32
  nUndoPos : BitVec 32
  header : CBlockHeader
  deriving DecidableEq

open CBlockIndex (haveBit)

/-- `c` if the field is stored, otherwise the value `SetNull` gives it. -/
def storedIf (stored : Bool) (c : Codec (BitVec w)) : Codec (BitVec w) :=
  if stored then c else Codec.absent 0

def positionsCodec (nStatus : BitVec 32) : Codec (BitVec 31 × BitVec 32 × BitVec 32) :=
  (storedIf (haveBit nStatus (BLOCK_HAVE_DATA ||| BLOCK_HAVE_UNDO)) varInt31).seq
    ((storedIf (haveBit nStatus BLOCK_HAVE_DATA) varInt32).seq
      (storedIf (haveBit nStatus BLOCK_HAVE_UNDO) varInt32))

-- The leading number is the client version, which the reader drops.
def diskRecordCodec : Codec (BitVec 31 × CDiskBlockIndex) :=
  ((varInt31.seq (varInt31.seq (varInt32.seq varInt32))).bind
      fun (_, _, nStatus, _) => (positionsCodec nStatus).seq headerCodec).iso
    (fun ((version, nHeight, nStatus, nTx), (nFile, nDataPos, nUndoPos), header) =>
      (version, { nHeight, nStatus, nTx, nFile, nDataPos, nUndoPos, header }))
    (fun (version, d) => ((version, d.nHeight, d.nStatus, d.nTx),
      (d.nFile, d.nDataPos, d.nUndoPos), d.header))
    (fun _ => rfl) (fun _ => rfl)

namespace CDiskBlockIndex

def ofIndex (pindex : CBlockIndex) : CDiskBlockIndex where
  nHeight := pindex.nHeight
  nStatus := pindex.nStatus
  nTx := pindex.nTx
  nFile := pindex.nFile
  nDataPos := pindex.nDataPos
  nUndoPos := pindex.nUndoPos
  header := {
    nVersion := pindex.nVersion
    hashPrevBlock := pindex.pprev.getD 0#256
    hashMerkleRoot := pindex.hashMerkleRoot
    hashContractState := pindex.hashContractState
    nTime := pindex.nTime
    nBits := pindex.nBits
    nNonce := pindex.nNonce
    nPrecisionTime := pindex.nPrecisionTime
    hashGPoW := pindex.hashGPoW }

def getBlockHash (H : Bytes → Uint256) (d : CDiskBlockIndex) : Uint256 := d.header.getHash H

def serialize (clientVersion : BitVec 31) (d : CDiskBlockIndex) : Bytes :=
  diskRecordCodec.write (clientVersion, d)

def unserialize (bs : Bytes) : Option CDiskBlockIndex := (diskRecordCodec.read bs).map fun r => r.1.2

def stored (d : CDiskBlockIndex) : CDiskBlockIndex :=
  { d with
    nFile := if haveBit d.nStatus (BLOCK_HAVE_DATA ||| BLOCK_HAVE_UNDO) then d.nFile else 0
    nDataPos := if haveBit d.nStatus BLOCK_HAVE_DATA then d.nDataPos else 0
    nUndoPos := if haveBit d.nStatus BLOCK_HAVE_UNDO then d.nUndoPos else 0 }

theorem storedIf_write (stored : Bool) (c : Codec (BitVec w)) (x : BitVec w) :
    (storedIf stored c).write (if stored then x else 0) = (storedIf stored c).write x := by
  cases stored <;> rfl

theorem storedIf_ok (stored : Bool) {c : Codec (BitVec w)} (hc : ∀ x, c.Ok x) (x : BitVec w) :
    (storedIf stored c).Ok (if stored then x else 0) := by
  cases stored
  · exact rfl
  · exact hc x

variable (clientVersion : BitVec 31) (d : CDiskBlockIndex)

theorem serialize_stored : d.stored.serialize clientVersion = d.serialize clientVersion := by
  simp only [serialize, diskRecordCodec, Codec.iso, Codec.bind, Codec.seq, positionsCodec, stored,
    storedIf_write]

theorem diskRecordCodec_ok : diskRecordCodec.Ok (clientVersion, d.stored) := by
  have h31 : ∀ x, varInt31.Ok x := fun _ => trivial
  have h32 : ∀ x, varInt32.Ok x := fun _ => trivial
  refine ⟨⟨h31 _, h31 _, h32 _, h32 _⟩, ⟨?_, ?_, ?_⟩, headerCodec_ok _⟩
  · exact storedIf_ok _ h31 _
  · exact storedIf_ok _ h32 _
  · exact storedIf_ok _ h32 _

theorem unserialize_serialize : unserialize (d.serialize clientVersion) = some d.stored := by
  have h := diskRecordCodec.read_write _ [] (diskRecordCodec_ok clientVersion d)
  rw [List.append_nil] at h
  rw [← serialize_stored, unserialize, serialize, h]
  rfl

end CDiskBlockIndex

end OurChain
