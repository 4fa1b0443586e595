import OurChain.Consensus.TxVerify

/-!
# Space in the block files

`FindBlockPos` and `FindUndoPos` hand out the positions that blocks and undo records are written
to, from the sizes recorded for each file. The sizes are `unsigned int`; `FindBlockPos` leaves a
file before it is full, while nothing limits the size of an undo file.
-/

namespace OurChain

open List hiding ranges

def MAX_BLOCKFILE_SIZE : Nat := 0x8000000
def BLOCKFILE_CHUNK_SIZE : Nat := 0x1000000
def UNDOFILE_CHUNK_SIZE : Nat := 0x100000

structure CBlockFileInfo where
  nBlocks : Nat := 0
  nSize : Nat := 0
  nUndoSize : Nat := 0
  nHeightFirst : Nat := 0
  nHeightLast : Nat := 0
  nTimeFirst : Nat := 0
  nTimeLast : Nat := 0
  deriving DecidableEq

def CBlockFileInfo.null : CBlockFileInfo := {}

def CBlockFileInfo.addBlock (info : CBlockFileInfo) (nHeightIn nTimeIn : Nat) : CBlockFileInfo :=
  { info with
    nHeightFirst := if info.nBlocks = 0 ∨
      info.nHeightFirst > nHeightIn then nHeightIn else info.nHeightFirst
    nTimeFirst := if info.nBlocks = 0 ∨ info.nTimeFirst > nTimeIn then nTimeIn else info.nTimeFirst
    nBlocks := (info.nBlocks + 1) % 2 ^ 32
    nHeightLast := if nHeightIn > info.nHeightLast then nHeightIn else info.nHeightLast
    nTimeLast := if nTimeIn > info.nTimeLast then nTimeIn else info.nTimeLast }

theorem CBlockFileInfo.nHeightLast_addBlock (info : CBlockFileInfo) (nHeightIn nTimeIn : Nat) :
    info.nHeightLast ≤ (info.addBlock nHeightIn nTimeIn).nHeightLast ∧
      nHeightIn ≤ (info.addBlock nHeightIn nTimeIn).nHeightLast := by
  dsimp only [addBlock]
  split <;> omega

structure BlockStorage where
  vinfoBlockFile : List CBlockFileInfo
  nLastBlockFile : Nat
  fCheckForPruning : Bool
  setDirtyFileInfo : List Nat

namespace BlockStorage

def file (s : BlockStorage) (nFile : Nat) : CBlockFileInfo := s.vinfoBlockFile.getD nFile .null

def modifyFile (s : BlockStorage) (nFile : Nat) (f : CBlockFileInfo → CBlockFileInfo) :
    BlockStorage :=
  let resized := s.vinfoBlockFile ++ List.replicate (nFile + 1 - s.vinfoBlockFile.length) .null
  { s with vinfoBlockFile := resized.modify nFile f }

/-- The loop that leaves a file where the block does not fit; a new file is empty, so that the
loop ends there or never. -/
def seekFile (s : BlockStorage) (nAddSize : Nat) : Nat → Nat → Option Nat
  | 0, _ => none
  | turns + 1, nFile =>
    if ((s.file nFile).nSize + nAddSize) % 2 ^ 32 ≥ MAX_BLOCKFILE_SIZE then s.seekFile nAddSize
      turns (nFile + 1)
    else some nFile

def chunks (chunkSize size : Nat) : Nat := (size + chunkSize - 1) % 2 ^ 32 / chunkSize

/-- Whether the file has to grow, and whether there is space for it: `checkDiskSpace` is asked
for the bytes up to the end of the last chunk. -/
def preallocate (s : BlockStorage) (fPruneMode : Bool) (checkDiskSpace : Nat → Bool)
    (chunkSize nPos nNewSize : Nat) :
    Bool × BlockStorage :=
  if chunks chunkSize nNewSize > chunks chunkSize nPos then
    (checkDiskSpace ((chunks chunkSize nNewSize * chunkSize + 2 ^ 32 - nPos) % 2 ^ 32),
      { s with fCheckForPruning := s.fCheckForPruning || fPruneMode })
  else (true, s)

def setDirty (s : BlockStorage) (nFile : Nat) : BlockStorage :=
  { s with setDirtyFileInfo := s.setDirtyFileInfo.insert nFile }

section
variable (s : BlockStorage) (fPruneMode : Bool) (checkDiskSpace : Nat → Bool)

/-- `FindBlockPos` of an unknown position: whether it succeeds, the file and the position in it. -/
def findBlockPos (nAddSize nHeight nTime : Nat) : Option (Bool × (Nat × Nat) × BlockStorage) := do
  let nFile ← s.seekFile nAddSize (s.vinfoBlockFile.length - s.nLastBlockFile + 1) s.nLastBlockFile
  let nPos := (s.file nFile).nSize
  let nNewSize := (nPos + nAddSize) % 2 ^ 32
  let s := { s with nLastBlockFile := nFile }.modifyFile nFile fun info =>
    { info.addBlock nHeight nTime with nSize := nNewSize }
  let grown := s.preallocate fPruneMode checkDiskSpace BLOCKFILE_CHUNK_SIZE nPos nNewSize
  return (grown.1, (nFile, nPos), if grown.1 then grown.2.setDirty nFile else grown.2)

/-- The position in the undo file that goes with a block file, which is one that exists. -/
def findUndoPos (nFile nAddSize : Nat) : Bool × Nat × BlockStorage :=
  let nPos := (s.file nFile).nUndoSize
  let nNewSize := (nPos + nAddSize) % 2 ^ 32
  let s := (s.modifyFile nFile fun info => { info with nUndoSize := nNewSize }).setDirty nFile
  let grown := s.preallocate fPruneMode checkDiskSpace UNDOFILE_CHUNK_SIZE nPos nNewSize
  (grown.1, nPos, grown.2)

end

variable {s : BlockStorage}

theorem file_modifyFile (s : BlockStorage) (nFile n : Nat) (f : CBlockFileInfo → CBlockFileInfo) :
    (s.modifyFile nFile f).file n = if n = nFile then f (s.file nFile) else s.file n := by
  have hresized : ∀ k, (s.vinfoBlockFile ++
      List.replicate (nFile + 1 - s.vinfoBlockFile.length) .null)[k]?.getD .null = s.file k := by
    intro k
    simp only [file, getD_eq_getElem?_getD, getElem?_append, getElem?_replicate]
    split
    · rfl
    · rename_i hbeyond
      rw [getElem?_eq_none (Nat.not_lt.mp hbeyond)]
      split <;> rfl
  have hlength : nFile < (s.vinfoBlockFile ++
      List.replicate (nFile + 1 - s.vinfoBlockFile.length) CBlockFileInfo.null).length := by
    simp only [length_append, length_replicate]
    omega
  rw [file, modifyFile, getD_eq_getElem?_getD, getElem?_modify]
  split
  · rename_i heq
    subst heq
    rw [if_pos rfl, ← hresized, getElem?_eq_getElem hlength]
    rfl
  · rename_i hne
    rw [if_neg (Ne.symm hne), ← hresized n]
    simp

@[simp] theorem file_preallocate (s : BlockStorage) (fPruneMode : Bool) (checkDiskSpace : Nat → Bool)
    (chunkSize nPos nNewSize n : Nat) :
    (s.preallocate fPruneMode checkDiskSpace chunkSize nPos nNewSize).2.file n = s.file n := by
  unfold preallocate
  split <;> rfl

@[simp] theorem file_setDirty (s : BlockStorage) (nFile n : Nat) :
    (s.setDirty nFile).file n = s.file n := rfl

theorem seekFile_spec (hsizes : ∀ n, (s.file n).nSize < MAX_BLOCKFILE_SIZE)
    (hadd : nAddSize < MAX_BLOCKFILE_SIZE) (hpos : 0 < turns)
    (hturns : s.vinfoBlockFile.length < nFile + turns) :
    ∃ n, s.seekFile nAddSize turns nFile = some n ∧ (s.file n).nSize + nAddSize <
    MAX_BLOCKFILE_SIZE := by
  have hmax : MAX_BLOCKFILE_SIZE = 2 ^ 27 := rfl
  induction turns generalizing nFile with
  | zero => omega
  | succ turns ih =>
    have hsmall := hsizes nFile
    rw [seekFile, Nat.mod_eq_of_lt (by omega)]
    split
    · rename_i hfull
      have hexists : nFile < s.vinfoBlockFile.length := by
        by_contra hnot
        have hnull : s.file nFile = .null := by simp [file, getElem?_eq_none (Nat.not_lt.mp hnot)]
        rw [hnull] at hfull
        exact absurd hfull (by simp [CBlockFileInfo.null, hadd])
      exact ih (by omega) (by omega)
    · exact ⟨nFile, rfl, by omega⟩

theorem findBlockPos_spec (fPruneMode : Bool) (checkDiskSpace : Nat → Bool) (nHeight nTime : Nat)
    (hsizes : ∀ n, (s.file n).nSize < MAX_BLOCKFILE_SIZE) (hadd : nAddSize < MAX_BLOCKFILE_SIZE) :
    ∃ ok nFile s', s.findBlockPos fPruneMode checkDiskSpace nAddSize nHeight nTime =
        some (ok, (nFile, (s.file nFile).nSize), s') ∧
      (s.file nFile).nSize + nAddSize < MAX_BLOCKFILE_SIZE ∧
      ∀ n, s'.file n = if n = nFile then
        { (s.file nFile).addBlock nHeight nTime with
          nSize := (s.file nFile).nSize + nAddSize }
        else s.file n := by
  have hturns : s.vinfoBlockFile.length <
    s.nLastBlockFile + (s.vinfoBlockFile.length - s.nLastBlockFile + 1) := by omega
  obtain ⟨nFile, hseek, hfits⟩ := seekFile_spec hsizes hadd (Nat.succ_pos _) hturns
  have hmod : ((s.file nFile).nSize + nAddSize) % 2 ^ 32 = (s.file nFile).nSize + nAddSize := by
    have hmax : MAX_BLOCKFILE_SIZE < 2 ^ 32 := by decide
    exact Nat.mod_eq_of_lt (hfits.trans hmax)
  rw [findBlockPos, hseek]
  simp only [Option.bind_eq_bind, Option.bind_some, Option.pure_def, hmod]
  refine ⟨_, nFile, _, rfl, hfits, ?_⟩
  intro n
  rw [apply_ite (file · n), file_setDirty, ite_self, file_preallocate, file_modifyFile]
  rfl

theorem findUndoPos_spec (s : BlockStorage) (fPruneMode : Bool) (checkDiskSpace : Nat → Bool)
    (nFile nAddSize : Nat) :
    ∃ ok s', s.findUndoPos fPruneMode checkDiskSpace nFile nAddSize =
    (ok, (s.file nFile).nUndoSize, s') ∧
      ∀ n, s'.file n = if n = nFile then
        { s.file nFile with nUndoSize := ((s.file nFile).nUndoSize + nAddSize) % 2 ^ 32 }
        else s.file n := by
  refine ⟨_, _, rfl, ?_⟩
  intro n
  rw [file_preallocate, file_setDirty, file_modifyFile]

end BlockStorage

structure Range where
  file : Nat
  pos : Nat
  size : Nat

def Range.Apart (r r' : Range) : Prop := r.file = r'.file → r.pos + r.size ≤ r'.pos ∨
    r'.pos + r'.size ≤ r.pos

/-- The ranges do not overlap and lie inside files of these sizes. -/
def Packed (sizes : Nat → Nat) (ranges : List Range) : Prop :=
  ranges.Pairwise Range.Apart ∧ ∀ r ∈ ranges, r.pos + r.size ≤ sizes r.file

theorem Packed.mono (h : Packed sizes ranges) (hle : ∀ n, sizes n ≤ sizes' n) :
    Packed sizes' ranges :=
  ⟨h.1, fun r hr => (h.2 r hr).trans (hle r.file)⟩

theorem Packed.push (h : Packed sizes ranges)
    (hsizes : ∀ n, sizes' n = if n = file then sizes file + size else sizes n) (ok : Bool) :
    Packed sizes' (if ok then ⟨file, sizes file, size⟩ :: ranges else ranges) := by
  have hmono : Packed sizes' ranges := by
    refine h.mono fun n => ?_
    rw [hsizes]
    split
    · rename_i heq
      rw [heq]
      exact Nat.le_add_right _ _
    · exact Nat.le_refl _
  cases ok with
  | false => exact hmono
  | true =>
    refine ⟨pairwise_cons.mpr ⟨?_, h.1⟩, forall_mem_cons.mpr ⟨?_, hmono.2⟩⟩
    · rintro r hr rfl
      exact .inr (h.2 r hr)
    · simp [hsizes]

structure Handed where
  storage : BlockStorage
  blocks : List Range
  undos : List Range

inductive StorageOp
  | block (checkDiskSpace : Nat → Bool) (nAddSize nHeight nTime : Nat)
  | undo (checkDiskSpace : Nat → Bool) (nFile nAddSize : Nat)

/-- A block has at most its maximal size and the header of eight bytes. -/
def StorageOp.Allowed : StorageOp → Prop
  | .block _ nAddSize _ _ => nAddSize ≤ MAX_BLOCK_SERIALIZED_SIZE + 8
  | .undo .. => True

namespace Handed

def apply (fPruneMode : Bool) (h : Handed) : StorageOp → Option Handed
  | .block checkDiskSpace nAddSize nHeight nTime =>
    (h.storage.findBlockPos fPruneMode checkDiskSpace nAddSize nHeight nTime).map
      fun (ok, pos, storage) =>
      { h with storage, blocks := if ok then ⟨pos.1, pos.2, nAddSize⟩ :: h.blocks else h.blocks }
  | .undo checkDiskSpace nFile nAddSize =>
    let (ok, nPos, storage) := h.storage.findUndoPos fPruneMode checkDiskSpace nFile nAddSize
    some { h with storage, undos := if ok then ⟨nFile, nPos, nAddSize⟩ :: h.undos else h.undos }

/-- The sizes that a call computes as `unsigned int`. -/
def sizesComputed (chunkSize nPos nAddSize : Nat) : List Nat :=
  [nPos + nAddSize, nPos + chunkSize - 1, nPos + nAddSize + chunkSize - 1,
    (nPos + nAddSize + chunkSize - 1) / chunkSize * chunkSize]

def NoWrap (h : Handed) : StorageOp → Prop
  | .block _ nAddSize _ _ =>
    ∀ n, ∀ x ∈ sizesComputed BLOCKFILE_CHUNK_SIZE (h.storage.file n).nSize nAddSize, x < 2 ^ 32
  | .undo _ nFile nAddSize =>
    ∀ x ∈ sizesComputed UNDOFILE_CHUNK_SIZE (h.storage.file nFile).nUndoSize nAddSize, x < 2 ^ 32

structure Sound (h : Handed) : Prop where
  blocks : Packed (fun n => (h.storage.file n).nSize) h.blocks
  undos : Packed (fun n => (h.storage.file n).nUndoSize) h.undos
  sizes : ∀ n, (h.storage.file n).nSize < MAX_BLOCKFILE_SIZE

/-- Every call returns, without a size that wraps around, and the ranges are sound before and
after it. -/
def SoundRun (fPruneMode : Bool) : Handed → List StorageOp → Prop
  | h, [] => h.Sound
  | h, op :: ops =>
    h.Sound ∧ h.NoWrap op ∧ ∃ h', h.apply fPruneMode op = some h' ∧ SoundRun fPruneMode h' ops

def undoTotal (n : Nat) : List StorageOp → Nat
  | [] => 0
  | .block .. :: ops => undoTotal n ops
  | .undo _ nFile nAddSize :: ops => (if n = nFile then nAddSize else 0) + undoTotal n ops

variable {h h' : Handed} {fPruneMode : Bool}

theorem sizesComputed_lt_iff (hpos : 0 < chunkSize) :
    (∀ x ∈ sizesComputed chunkSize nPos nAddSize, x < 2 ^ 32) ↔
    nPos + nAddSize + chunkSize - 1 < 2 ^ 32 := by
  have hle := Nat.div_mul_le_self (nPos + nAddSize + chunkSize - 1) chunkSize
  simp only [sizesComputed, forall_mem_cons]
  constructor
  · exact fun hall => hall.2.2.1
  · intro hlt
    exact ⟨by omega, by omega, hlt, by omega, nofun⟩

theorem Sound.block (hs : h.Sound) (fPruneMode : Bool) (checkDiskSpace : Nat → Bool)
    (nHeight nTime : Nat) (hallowed : nAddSize ≤ MAX_BLOCK_SERIALIZED_SIZE + 8) :
    h.NoWrap (.block checkDiskSpace nAddSize nHeight nTime) ∧
    ∃ h', h.apply fPruneMode (.block checkDiskSpace nAddSize nHeight nTime) = some h' ∧ h'.Sound ∧
      ∀ n, (h'.storage.file n).nUndoSize = (h.storage.file n).nUndoSize := by
  have hmax : MAX_BLOCKFILE_SIZE = 134217728 := rfl
  have hblock : MAX_BLOCK_SERIALIZED_SIZE = 4000000 := rfl
  have hchunk : BLOCKFILE_CHUNK_SIZE = 16777216 := rfl
  refine ⟨fun n => (sizesComputed_lt_iff (by omega)).mpr ?_, ?_⟩
  · have hsize := hs.sizes n
    omega
  · obtain ⟨ok, nFile, s', hfind, hfits, hfile⟩ :=
      BlockStorage.findBlockPos_spec fPruneMode checkDiskSpace nHeight nTime hs.sizes
        (show nAddSize < MAX_BLOCKFILE_SIZE by omega)
    refine ⟨{ h with storage := s', blocks := if ok then ⟨nFile, _,
      nAddSize⟩ :: h.blocks else h.blocks }, congrArg (Option.map _) hfind, ⟨hs.blocks.push ?_ ok,
      hs.undos.mono ?_, ?_⟩, ?_⟩
    all_goals
      intro n
      have hsize := hs.sizes n
      simp only [hfile]
      split <;> simp_all [CBlockFileInfo.addBlock]

theorem Sound.undo (hs : h.Sound) (fPruneMode : Bool)
    (hwrap : h.NoWrap (.undo checkDiskSpace nFile nAddSize)) :
    ∃ h', h.apply fPruneMode (.undo checkDiskSpace nFile nAddSize) = some h' ∧ h'.Sound ∧
      ∀ n, (h'.storage.file n).nUndoSize = (h.storage.file n).nUndoSize + if n =
      nFile then nAddSize else 0 := by
  have hfits : (h.storage.file nFile).nUndoSize + nAddSize < 2 ^ 32 := hwrap _ mem_cons_self
  obtain ⟨ok, s', hfind, hfile⟩ := BlockStorage.findUndoPos_spec h.storage fPruneMode checkDiskSpace
    nFile nAddSize
  rw [Nat.mod_eq_of_lt hfits] at hfile
  refine ⟨{ h with storage := s', undos := if ok then ⟨nFile, _, nAddSize⟩ :: h.undos else h.undos },
    by rw [apply, hfind], ⟨hs.blocks.mono ?_, hs.undos.push ?_ ok, ?_⟩, ?_⟩
  all_goals
    intro n
    have hsize := hs.sizes n
    simp only [hfile]
    split <;> simp_all

theorem soundRun_iff (fPruneMode : Bool) (hs : h.Sound)
    (hundo : ∀ n, (h.storage.file n).nUndoSize + UNDOFILE_CHUNK_SIZE - 1 < 2 ^ 32)
    (hallowed : ∀ op ∈ ops, op.Allowed) : SoundRun fPruneMode h ops ↔
      ∀ n, (h.storage.file n).nUndoSize + undoTotal n ops + UNDOFILE_CHUNK_SIZE - 1 < 2 ^ 32 := by
  have hchunk : 0 < UNDOFILE_CHUNK_SIZE := by decide
  induction ops generalizing h with
  | nil => exact iff_of_true hs hundo
  | cons op ops ih =>
    obtain ⟨hop, hlater⟩ := forall_mem_cons.mp hallowed
    cases op with
    | block checkDiskSpace nAddSize nHeight nTime =>
      obtain ⟨hwrap, h', happly, hs', hsame⟩ := hs.block fPruneMode checkDiskSpace nHeight nTime hop
      have hrest := ih hs' (by simpa only [hsame] using hundo) hlater
      simp only [hsame] at hrest
      simp only [SoundRun, happly, Option.some.injEq, exists_eq_left', hs, hwrap, true_and,
        hrest, undoTotal]
    | undo checkDiskSpace nFile nAddSize =>
      have hwrap_iff : h.NoWrap (.undo checkDiskSpace nFile nAddSize) ↔
          (h.storage.file nFile).nUndoSize + nAddSize + UNDOFILE_CHUNK_SIZE - 1 < 2 ^ 32 :=
          sizesComputed_lt_iff hchunk
      have hstep : h.NoWrap (.undo checkDiskSpace nFile nAddSize) →
          (SoundRun fPruneMode h (.undo checkDiskSpace nFile nAddSize :: ops) ↔
            ∀ n, (h.storage.file n).nUndoSize +
              undoTotal n (.undo checkDiskSpace nFile nAddSize :: ops) +
              UNDOFILE_CHUNK_SIZE - 1 < 2 ^ 32) := by
        intro hwrap
        obtain ⟨h', happly, hs', hadded⟩ := hs.undo fPruneMode hwrap
        have hundo' : ∀ n, (h'.storage.file n).nUndoSize + UNDOFILE_CHUNK_SIZE - 1 < 2 ^ 32 := by
          intro n
          rw [hadded]
          split
          · rename_i heq
            subst heq
            exact hwrap_iff.mp hwrap
          · exact hundo n
        have hrest := ih hs' hundo' hlater
        simp only [hadded, Nat.add_assoc] at hrest
        simp only [SoundRun, happly, Option.some.injEq, exists_eq_left', hs, hwrap, true_and,
          hrest, undoTotal, Nat.add_assoc]
      constructor
      · intro hrun
        exact (hstep hrun.2.1).mp hrun
      · intro hall
        refine (hstep (hwrap_iff.mpr ?_)).mpr hall
        have hle := hall nFile
        rw [undoTotal, if_pos rfl] at hle
        omega

def empty : Handed := ⟨⟨[], 0, false, []⟩, [], []⟩

theorem file_empty (n : Nat) : empty.storage.file n = .null := by simp [empty, BlockStorage.file]

theorem sound_empty : empty.Sound := ⟨⟨.nil, nofun⟩, ⟨.nil, nofun⟩,
    fun n => by rw [file_empty]; decide⟩

theorem storage_sound_iff (hallowed : ∀ op ∈ ops, op.Allowed) :
    SoundRun fPruneMode empty ops ↔ ∀ n, undoTotal n ops + UNDOFILE_CHUNK_SIZE - 1 < 2 ^ 32 := by
  have hiff := soundRun_iff fPruneMode sound_empty (fun n => by rw [file_empty]; decide) hallowed
  simpa only [file_empty, CBlockFileInfo.null, Nat.zero_add] using hiff

theorem storage_sound_small :
    SoundRun false empty [.block (fun _ => true) 1000 0 0, .undo (fun _ => true) 0 100,
    .block (fun _ => false) 500 1 0] := by
  refine (storage_sound_iff ?_).mpr ?_
  · simp [StorageOp.Allowed, MAX_BLOCK_SERIALIZED_SIZE]
  · intro n
    have hchunk : UNDOFILE_CHUNK_SIZE = 1048576 := rfl
    simp only [undoTotal]
    split <;> omega

/-- Eighteen records of 240 megabytes, for the blocks of one file. -/
theorem undo_ranges_wrap :
    let ops := List.replicate 18 (.block (fun _ => true) 1000008 0 0) ++
      List.replicate 18 (.undo (fun _ => true) 0 240000000)
    (∀ op ∈ ops, op.Allowed) ∧ ¬SoundRun false empty ops := by
  have hallowed : ∀ op ∈ List.replicate 18 (StorageOp.block (fun _ => true) 1000008 0 0) ++
      List.replicate 18 (.undo (fun _ => true) 0 240000000), op.Allowed := by
    simp [StorageOp.Allowed, MAX_BLOCK_SERIALIZED_SIZE]
  refine ⟨hallowed, fun hrun => ?_⟩
  have hlt := (soundRun_iff false sound_empty (fun n => by rw [file_empty]; decide)
    hallowed).mp hrun 0
  rw [file_empty] at hlt
  exact absurd hlt (by decide)

end Handed

end OurChain
