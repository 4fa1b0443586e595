import OurChain.Validation.BlockFiles
import OurChain.Validation.ProcessNewBlock

/-!
# Pruning

`FindFilesToPrune` and `FindFilesToPruneManual` choose files by the greatest height recorded for
them, and `PruneOneBlockFile` takes the data from every entry of the block index that lies in
such a file. The last height that can be pruned is computed as `unsigned int`; only the first of
the two functions makes sure that the tip is high enough for it.
-/

namespace OurChain

open List

/-- Without the data that `PruneOneBlockFile` forgets. -/
def CBlockIndex.pruned (e : CBlockIndex) : CBlockIndex :=
  { e with
    nStatus := e.nStatus &&& ~~~BLOCK_HAVE_DATA &&& ~~~BLOCK_HAVE_UNDO
    nFile := 0, nDataPos := 0, nUndoPos := 0 }

def CBlockIndex.haveData (e : CBlockIndex) : Bool := haveBit e.nStatus BLOCK_HAVE_DATA

structure PruneState where
  storage : BlockStorage
  mapBlockIndex : List CBlockIndex
  setDirtyBlockIndex : List Uint256
  mapBlocksUnlinked : List (Option Uint256 × Uint256)

namespace PruneState

def pruneOneBlockFile (s : PruneState) (fileNumber : Nat) : PruneState :=
  let found := s.mapBlockIndex.filter fun e => e.nFile.toNat = fileNumber
  { storage := (s.storage.modifyFile fileNumber fun _ => .null).setDirty fileNumber
    mapBlockIndex := s.mapBlockIndex.map fun e => if e.nFile.toNat = fileNumber then e.pruned else e
    setDirtyBlockIndex := found.foldl (fun dirty e => dirty.insert e.hashBlock) s.setDirtyBlockIndex
    mapBlocksUnlinked := s.mapBlocksUnlinked.filter fun link => found.all fun e =>
      link ≠ (e.pprev, e.hashBlock) }

def fileBytes (info : CBlockFileInfo) : Nat := (info.nSize + info.nUndoSize) % 2 ^ 32

def calculateCurrentUsage (s : PruneState) :
    Nat := (s.storage.vinfoBlockFile.map fileBytes).sum % 2 ^ 64

/-- The loop over the files, with the set of files that are to be removed. It stops when the
usage is low enough. -/
def pruneFiles (nLastBlockWeCanPrune : Nat) (lowEnough : Nat → Bool) :
    List Nat → Nat → PruneState → List Nat × PruneState
  | [], _, s => ([], s)
  | fileNumber :: files, nCurrentUsage, s =>
    let info := s.storage.file fileNumber
    if info.nSize = 0 then s.pruneFiles nLastBlockWeCanPrune lowEnough files nCurrentUsage
    else if lowEnough nCurrentUsage then ([], s)
    else if info.nHeightLast > nLastBlockWeCanPrune then s.pruneFiles nLastBlockWeCanPrune lowEnough
      files nCurrentUsage
    else
      let r := (s.pruneOneBlockFile fileNumber).pruneFiles nLastBlockWeCanPrune lowEnough files
        ((nCurrentUsage + 2 ^ 64 - fileBytes info) % 2 ^ 64)
      (fileNumber :: r.1, r.2)

/-- `tip` is the height of the active chain; a failed assertion is `none`. -/
def findFilesToPruneManual (s : PruneState) (fPruneMode : Bool) (tip : Option Nat)
    (nManualPruneHeight : Int) :
    Option (List Nat × PruneState) :=
  if fPruneMode ∧ 0 < nManualPruneHeight then
    match tip with
    | none => some ([], s)
    | some nHeight =>
      let nLastBlockWeCanPrune := min nManualPruneHeight.toNat
        ((nHeight + 2 ^ 32 - MIN_BLOCKS_TO_KEEP) % 2 ^ 32)
      some (s.pruneFiles nLastBlockWeCanPrune (fun _ => false)
        (List.range s.storage.nLastBlockFile) 0)
  else none

def findFilesToPrune (s : PruneState) (tip : Option Nat) (nPruneTarget nPruneAfterHeight : Nat) :
    List Nat × PruneState :=
  match tip with
  | none => ([], s)
  | some nHeight =>
    if nPruneTarget = 0 ∨ nHeight ≤ nPruneAfterHeight then ([], s)
    else
      let nLastBlockWeCanPrune := (nHeight + 2 ^ 32 - MIN_BLOCKS_TO_KEEP) % 2 ^ 32
      let nBuffer := BLOCKFILE_CHUNK_SIZE + UNDOFILE_CHUNK_SIZE
      let lowEnough (nCurrentUsage : Nat) : Bool := (nCurrentUsage + nBuffer) % 2 ^ 64 < nPruneTarget
      if lowEnough s.calculateCurrentUsage then ([], s)
      else s.pruneFiles nLastBlockWeCanPrune lowEnough (List.range s.storage.nLastBlockFile)
        s.calculateCurrentUsage

/-- The files are gone and nothing else has changed. -/
structure Prunes (s : PruneState) (files : List Nat) (s' : PruneState) : Prop where
  index : s'.mapBlockIndex = s.mapBlockIndex.map fun e =>
    if e.nFile.toNat ∈ files then e.pruned else e
  file : ∀ n, s'.storage.file n = if n ∈ files then .null else s.storage.file n

variable {s s' : PruneState}

theorem Prunes.nil (s : PruneState) : Prunes s [] s := ⟨by simp, by simp⟩

theorem pruned_pruned (e : CBlockIndex) : e.pruned.pruned = e.pruned := by
  have hidem : ∀ b : BitVec 32, b &&& ~~~BLOCK_HAVE_DATA &&& ~~~BLOCK_HAVE_UNDO &&&
    ~~~BLOCK_HAVE_DATA &&&
      ~~~BLOCK_HAVE_UNDO = b &&& ~~~BLOCK_HAVE_DATA &&& ~~~BLOCK_HAVE_UNDO := by
    intro b
    ext i
    simp only [BitVec.getElem_and, BitVec.getElem_not]
    cases b[i] <;> cases BLOCK_HAVE_DATA[i] <;> cases BLOCK_HAVE_UNDO[i] <;> rfl
  simp [CBlockIndex.pruned, hidem]

theorem haveData_pruned (e : CBlockIndex) : e.pruned.haveData = false := by
  have hclear : e.nStatus &&& ~~~BLOCK_HAVE_DATA &&& ~~~BLOCK_HAVE_UNDO &&& BLOCK_HAVE_DATA =
    0#32 := by
    ext i
    simp
    tauto
  simp [CBlockIndex.haveData, CBlockIndex.haveBit, CBlockIndex.pruned, hclear]

/-- An entry that was pruned counts as one of the first file; pruning it once more changes
nothing. -/
theorem Prunes.cons (h : Prunes (s.pruneOneBlockFile n) files s') : Prunes s (n :: files) s' := by
  constructor
  · rw [h.index, pruneOneBlockFile, List.map_map]
    refine map_congr_left fun e _ => ?_
    by_cases hfile : e.nFile.toNat = n
    · simp [hfile, pruned_pruned]
    · simp [hfile]
  · intro k
    rw [h.file, pruneOneBlockFile, BlockStorage.file_setDirty, BlockStorage.file_modifyFile]
    by_cases hk : k = n
    · simp [hk]
    · simp [hk]

theorem file_pruneOneBlockFile (s : PruneState) (n k : Nat) :
    (s.pruneOneBlockFile n).storage.file k = if k = n then .null else s.storage.file k := by
  rw [pruneOneBlockFile, BlockStorage.file_setDirty, BlockStorage.file_modifyFile]

def Old (s : PruneState) (nLast n : Nat) : Prop :=
  (s.storage.file n).nSize ≠ 0 ∧ (s.storage.file n).nHeightLast ≤ nLast

/-- What the loop over `ns` gives: it takes some of the old files, and all of them if it is not
stopped. -/
structure Scanned (s : PruneState) (nLast : Nat) (unstopped : Prop) (ns : List Nat)
    (r : List Nat × PruneState) : Prop where
  prunes : Prunes s r.1 r.2
  old : ∀ n ∈ r.1, n ∈ ns ∧ s.Old nLast n
  all : unstopped → ∀ n ∈ ns, s.Old nLast n → n ∈ r.1

theorem Scanned.skip (h : Scanned s nLast unstopped ns r) (hnot : ¬s.Old nLast n) :
    Scanned s nLast unstopped (n :: ns) r where
  prunes := h.prunes
  old k hk := (h.old k hk).imp_left (mem_cons_of_mem n)
  all hun := forall_mem_cons.mpr ⟨fun hold => absurd hold hnot, h.all hun⟩

theorem Scanned.take (h : Scanned (s.pruneOneBlockFile n) nLast unstopped ns r) (hn : n ∉ ns)
    (hold : s.Old nLast n) :
    Scanned s nLast unstopped (n :: ns) (n :: r.1, r.2) := by
  have hsame : ∀ k ∈ ns, (s.pruneOneBlockFile n).Old nLast k ↔ s.Old nLast k := by
    intro k hk
    rw [Old, Old, file_pruneOneBlockFile, if_neg (ne_of_mem_of_not_mem hk hn)]
  refine ⟨h.prunes.cons, forall_mem_cons.mpr ⟨⟨mem_cons_self, hold⟩, fun k hk => ?_⟩, fun hun => ?_⟩
  · obtain ⟨hmem, hkold⟩ := h.old k hk
    exact ⟨mem_cons_of_mem n hmem, (hsame k hmem).mp hkold⟩
  · refine forall_mem_cons.mpr ⟨fun _ => mem_cons_self, fun k hk hkold => ?_⟩
    exact mem_cons_of_mem n (h.all hun k hk ((hsame k hk).mpr hkold))

theorem scanned_pruneFiles (nLast : Nat) (lowEnough : Nat → Bool) (ns : List Nat)
    (hnodup : ns.Nodup) (usage : Nat) (s : PruneState) :
    Scanned s nLast (∀ u, lowEnough u = false) ns (s.pruneFiles nLast lowEnough ns usage) := by
  induction ns generalizing usage s with
  | nil => exact ⟨.nil s, nofun, fun _ => nofun⟩
  | cons n ns ih =>
    obtain ⟨hn, hnodup⟩ := nodup_cons.mp hnodup
    rw [pruneFiles]
    split_ifs with hsize hlow hhigh
    · exact (ih hnodup usage s).skip fun hold => hold.1 hsize
    · exact ⟨.nil s, nofun, fun hun => absurd hlow (by simp [hun])⟩
    · exact (ih hnodup usage s).skip fun hold => Nat.not_le.mpr hhigh hold.2
    · exact (ih hnodup _ _).take hn ⟨hsize, Nat.not_lt.mp hhigh⟩

theorem scanned_findFilesToPrune (s : PruneState) (tip : Option Nat)
    (nPruneTarget nPruneAfterHeight : Nat) :
    s.findFilesToPrune tip nPruneTarget nPruneAfterHeight = ([], s) ∨ ∃ nHeight unstopped,
    tip = some nHeight ∧
      nPruneAfterHeight < nHeight ∧ Scanned s
      ((nHeight + 2 ^ 32 - MIN_BLOCKS_TO_KEEP) % 2 ^ 32) unstopped
        (List.range s.storage.nLastBlockFile)
        (s.findFilesToPrune tip nPruneTarget nPruneAfterHeight) := by
  cases tip with
  | none => exact .inl rfl
  | some nHeight =>
    unfold findFilesToPrune
    dsimp only
    split_ifs with hearly hlow
    · exact .inl rfl
    · exact .inl rfl
    · exact .inr ⟨nHeight, _, rfl, by omega, scanned_pruneFiles _ _ _ nodup_range _ s⟩

theorem scanned_findFilesToPruneManual
    (h : s.findFilesToPruneManual fPruneMode tip nManualPruneHeight = some r) :
    tip = none ∧ r = ([], s) ∨ ∃ nHeight, tip = some nHeight ∧
      Scanned s (min nManualPruneHeight.toNat ((nHeight + 2 ^ 32 - MIN_BLOCKS_TO_KEEP) % 2 ^ 32)) True
        (List.range s.storage.nLastBlockFile) r := by
  unfold findFilesToPruneManual at h
  split at h
  · cases tip with
    | none => exact .inl ⟨rfl, (Option.some.inj h).symm⟩
    | some nHeight =>
      cases h
      have hscan := scanned_pruneFiles (min nManualPruneHeight.toNat
        ((nHeight + 2 ^ 32 - MIN_BLOCKS_TO_KEEP) % 2 ^ 32)) (fun _ =>
        false) (List.range s.storage.nLastBlockFile) nodup_range 0 s
      exact .inr ⟨nHeight, rfl, hscan.prunes, hscan.old, fun _ => hscan.all fun _ => rfl⟩
  · cases h

inductive Op
  | header (e : CBlockIndex)
  | block (i : Nat) (checkDiskSpace : Nat → Bool) (nAddSize nTime : Nat)
  | undo (checkDiskSpace : Nat → Bool) (nFile nAddSize : Nat)
  | prune (tip : Option Nat) (nPruneTarget nPruneAfterHeight : Nat)
  | pruneManual (tip : Option Nat) (nManualPruneHeight : Int)

/-- A header joins the index without data, the data of its `i`th entry is stored where
`FindBlockPos` says, or files are pruned. File numbers are `int`. -/
def apply (fPruneMode : Bool) (s : PruneState) : Op → Option PruneState
  | .header e => if e.haveData then none else some { s with mapBlockIndex := e :: s.mapBlockIndex }
  | .block i checkDiskSpace nAddSize nTime => do
    let e ← s.mapBlockIndex[i]?
    let (ok, (nFile, nPos), storage) ← s.storage.findBlockPos fPruneMode checkDiskSpace nAddSize
      e.nHeight.toNat nTime
    let e' := { e with
      nFile := BitVec.ofNat 31 nFile, nDataPos := BitVec.ofNat 32 nPos, nStatus :=
        e.nStatus ||| BLOCK_HAVE_DATA }
    if nFile < 2 ^ 31 then some { s with
      storage, mapBlockIndex := if ok then s.mapBlockIndex.set i e' else s.mapBlockIndex }
    else none
  | .undo checkDiskSpace nFile nAddSize =>
    some { s with storage := (s.storage.findUndoPos fPruneMode checkDiskSpace nFile nAddSize).2.2 }
  | .prune tip nPruneTarget nPruneAfterHeight =>
    some (s.findFilesToPrune tip nPruneTarget nPruneAfterHeight).2
  | .pruneManual tip nManualPruneHeight =>
    (s.findFilesToPruneManual fPruneMode tip nManualPruneHeight).map Prod.snd

def empty : PruneState := ⟨⟨[], 0, false, []⟩, [], [], []⟩

/-- The block files and the index after any calls. -/
def Filled (fPruneMode : Bool) (s : PruneState) :
    Prop := ∃ ops : List Op, ops.foldlM (apply fPruneMode) empty = some s

def HeightsRecorded (s : PruneState) : Prop :=
  ∀ e ∈ s.mapBlockIndex, e.haveData = true →
    e.nHeight.toNat ≤ (s.storage.file e.nFile.toNat).nHeightLast

theorem HeightsRecorded.prunes (hs : s.HeightsRecorded) (h : Prunes s files s') :
    s'.HeightsRecorded := by
  intro e he hdata
  rw [h.index] at he
  obtain ⟨e₀, he₀, rfl⟩ := List.mem_map.mp he
  split at hdata
  · rw [haveData_pruned] at hdata
    cases hdata
  · rename_i hkept
    rw [if_neg hkept, h.file, if_neg hkept]
    exact hs e₀ he₀ hdata

theorem nHeightLast_findBlockPos {s s' : BlockStorage}
    (h : s.findBlockPos fPruneMode checkDiskSpace nAddSize nHeight nTime = some (ok, (nFile, nPos),
    s')) (n : Nat) :
    (s.file n).nHeightLast ≤ (s'.file n).nHeightLast ∧
    (n = nFile → nHeight ≤ (s'.file n).nHeightLast) := by
  obtain ⟨file, -, h⟩ := Option.bind_eq_some_iff.mp h
  cases h
  rw [apply_ite (BlockStorage.file · n), BlockStorage.file_setDirty, ite_self,
    BlockStorage.file_preallocate, BlockStorage.file_modifyFile]
  split
  · rename_i heq
    subst heq
    have hlast := (s.file n).nHeightLast_addBlock nHeight nTime
    exact ⟨hlast.1, fun _ => hlast.2⟩
  · rename_i hne
    exact ⟨Nat.le_refl _, fun heq => absurd heq hne⟩

theorem HeightsRecorded.apply (hs : s.HeightsRecorded) (h : s.apply fPruneMode op = some s') :
    s'.HeightsRecorded := by
  cases op with
  | header e =>
    obtain ⟨hnew, h⟩ := Option.ite_none_left_eq_some.mp h
    cases h
    exact forall_mem_cons.mpr ⟨fun hdata => absurd hdata hnew, hs⟩
  | block i checkDiskSpace nAddSize nTime =>
    obtain ⟨e, he, h⟩ := Option.bind_eq_some_iff.mp h
    obtain ⟨⟨ok, ⟨nFile, nPos⟩, storage⟩, hfind, h⟩ := Option.bind_eq_some_iff.mp h
    obtain ⟨hfile, h⟩ := Option.ite_none_right_eq_some.mp h
    cases h
    have hlast := nHeightLast_findBlockPos hfind
    have hkept : ∀ e ∈ s.mapBlockIndex, e.haveData = true →
        e.nHeight.toNat ≤ (storage.file e.nFile.toNat).nHeightLast :=
      fun e he hdata => (hs e he hdata).trans (hlast _).1
    cases ok with
    | false => exact hkept
    | true =>
      intro e' he' hdata
      rcases mem_or_eq_of_mem_set he' with he' | rfl
      · exact hkept e' he' hdata
      · refine (hlast _).2 ?_
        simpa using hfile
  | undo checkDiskSpace nFile nAddSize =>
    obtain ⟨ok, storage, hfind, hfile⟩ :=
      s.storage.findUndoPos_spec fPruneMode checkDiskSpace nFile nAddSize
    rw [PruneState.apply, hfind] at h
    cases h
    intro e he hdata
    have hheight := hs e he hdata
    rw [hfile]
    split <;> simp_all
  | prune tip nPruneTarget nPruneAfterHeight =>
    cases h
    rcases scanned_findFilesToPrune s tip nPruneTarget nPruneAfterHeight with heq | ⟨_,
      _, -, -, hscan⟩
    · rw [heq]
      exact hs
    · exact hs.prunes hscan.prunes
  | pruneManual tip nManualPruneHeight =>
    obtain ⟨r, hr, rfl⟩ := Option.map_eq_some_iff.mp h
    rcases scanned_findFilesToPruneManual hr with ⟨-, rfl⟩ | ⟨_, -, hscan⟩
    · exact hs
    · exact hs.prunes hscan.prunes

theorem Filled.heightsRecorded (h : Filled fPruneMode s) : s.HeightsRecorded := by
  obtain ⟨ops, h⟩ := h
  have hstart : empty.HeightsRecorded := nofun
  generalize empty = s₀ at h hstart
  induction ops generalizing s₀ with
  | nil =>
    cases h
    exact hstart
  | cons op ops ih =>
    rw [foldlM_cons] at h
    obtain ⟨s₁, hop, h⟩ := Option.bind_eq_some_iff.mp h
    exact ih s₁ h (hstart.apply hop)

/-- Between a state and what a function for pruning returned: recent blocks keep their data, and
what lay in a removed file has lost it. -/
def KeepsRecent (nHeight : Nat) (s : PruneState) (r : List Nat × PruneState) : Prop :=
  List.Forall₂ (fun e e' => e'.hashBlock = e.hashBlock ∧ (e.haveData = true →
    ((nHeight : Int) - MIN_BLOCKS_TO_KEEP < e.nHeight.toNat → e'.haveData = true) ∧
    (e.nFile.toNat ∈ r.1 → e'.haveData = false))) s.mapBlockIndex r.2.mapBlockIndex

theorem keepsRecent_iff (h : Prunes s r.1 r.2) :
    KeepsRecent nHeight s r ↔ ∀ e ∈ s.mapBlockIndex, e.haveData = true →
    (nHeight : Int) - MIN_BLOCKS_TO_KEEP < e.nHeight.toNat → e.nFile.toNat ∉ r.1 := by
  rw [KeepsRecent, h.index, forall₂_map_right_iff, forall₂_same]
  refine forall₂_congr fun e _ => ?_
  have hhash : e.pruned.hashBlock = e.hashBlock := rfl
  split
  · simp_all [haveData_pruned]
  · simp_all

theorem Scanned.keepsRecent (hs : s.HeightsRecorded) (h : Scanned s nLast unstopped ns r)
    (hlast : nLast + MIN_BLOCKS_TO_KEEP ≤ nHeight) : KeepsRecent nHeight s r := by
  refine (keepsRecent_iff h.prunes).mpr fun e he hdata hrecent hremoved => ?_
  have hheight := hs e he hdata
  have hold := (h.old _ hremoved).2.2
  omega

/-- `FindFilesToPrune` keeps the recent blocks. `FindFilesToPruneManual` does so when the tip is
high enough, and otherwise if it takes no file that has data. -/
theorem pruning_keepsRecent_iff (hs : Filled fPruneMode s) (hheight : nHeight < 2 ^ 31) :
    (∀ nPruneTarget nPruneAfterHeight, MIN_BLOCKS_TO_KEEP ≤ nPruneAfterHeight →
      KeepsRecent nHeight s (s.findFilesToPrune (some nHeight) nPruneTarget nPruneAfterHeight)) ∧
    ∀ nManualPruneHeight : Int, 0 < nManualPruneHeight → nManualPruneHeight < 2 ^ 31 →
      ∃ r, s.findFilesToPruneManual true (some nHeight) nManualPruneHeight = some r ∧
        (KeepsRecent nHeight s r ↔ MIN_BLOCKS_TO_KEEP ≤ nHeight ∨ ∀ e ∈ s.mapBlockIndex,
        e.haveData = true →
          e.nFile.toNat < s.storage.nLastBlockFile →
          ¬s.Old nManualPruneHeight.toNat e.nFile.toNat) := by
  have hmin : MIN_BLOCKS_TO_KEEP = 288 := rfl
  constructor
  · intro nPruneTarget nPruneAfterHeight hafter
    rcases scanned_findFilesToPrune s (some nHeight) nPruneTarget nPruneAfterHeight with heq | ⟨_, _,
      ⟨⟩, hlt, hscan⟩
    · rw [heq]
      exact (keepsRecent_iff (.nil s)).mpr fun _ _ _ _ => nofun
    · exact hscan.keepsRecent hs.heightsRecorded (by omega)
  · intro nManualPruneHeight hpos hmax
    obtain ⟨r, hr⟩ : ∃ r, s.findFilesToPruneManual true (some nHeight) nManualPruneHeight = some r :=
      ⟨_, if_pos ⟨rfl, hpos⟩⟩
    refine ⟨r, hr, ?_⟩
    rcases scanned_findFilesToPruneManual hr with ⟨⟨⟩, -⟩ | ⟨_, ⟨⟩, hscan⟩
    by_cases htip : MIN_BLOCKS_TO_KEEP ≤ nHeight
    · exact iff_of_true (hscan.keepsRecent hs.heightsRecorded (by omega)) (.inl htip)
    · -- the subtraction wraps, and every block is recent
      rw [min_eq_left (by omega)] at hscan
      rw [keepsRecent_iff hscan.prunes, or_iff_right htip]
      refine forall₃_congr fun e he hdata => ⟨fun hkept hlt hold => ?_, fun hkept _ hremoved => ?_⟩
      · exact hkept (by omega) (hscan.all trivial _ (mem_range.mpr hlt) hold)
      · obtain ⟨hlt, hold⟩ := hscan.old _ hremoved
        exact hkept (mem_range.mp hlt) hold

instance (nHeight : Nat) (s : PruneState) (r : List Nat × PruneState) :
    Decidable (KeepsRecent nHeight s r) :=
  inferInstanceAs (Decidable (List.Forall₂ _ _ _))

/-- Thirty-five blocks of the greatest size, of which the first file holds thirty-three. -/
def largeBlocks : List Op :=
  (List.range 35).flatMap fun nHeight =>
    [.header { CBlockIndex.null (BitVec.ofNat 256 nHeight) with nHeight := BitVec.ofNat 31 nHeight },
      .block 0 (fun _ => true) 4000008 0]

theorem pruneManual_keepsRecent_large : ∃ s r, Filled true s ∧
    s.findFilesToPruneManual true (some 1034) 100 = some r ∧ r.1 = [0] ∧ KeepsRecent 1034 s r := by
  have hrun : ((largeBlocks.foldlM (apply true) empty).bind fun s =>
      (s.findFilesToPruneManual true (some 1034) 100).map (·.1)) = some [0] := by
    decide +kernel
  obtain ⟨s, hs, h⟩ := Option.bind_eq_some_iff.mp hrun
  obtain ⟨r, hr, hkeeps⟩ :=
    (pruning_keepsRecent_iff ⟨largeBlocks, hs⟩ (show 1034 < 2 ^ 31 by decide)).2 100
      (by decide) (by decide)
  rw [hr] at h
  exact ⟨s, r, ⟨largeBlocks, hs⟩, hr, Option.some.inj h, hkeeps.mpr (.inl (by decide))⟩

theorem pruneManual_forgets_recent :
    ∃ s r, Filled true s ∧ s.findFilesToPruneManual true (some 34) 100 = some r ∧
    ¬KeepsRecent 34 s r := by
  have hrun : ((largeBlocks.foldlM (apply true) empty).bind fun s =>
      (s.findFilesToPruneManual true (some 34) 100).map fun r =>
        decide (KeepsRecent 34 s r)) = some false := by
    decide +kernel
  obtain ⟨s, hs, h⟩ := Option.bind_eq_some_iff.mp hrun
  obtain ⟨r, hr, hkept⟩ := Option.map_eq_some_iff.mp h
  exact ⟨s, r, ⟨largeBlocks, hs⟩, hr, of_decide_eq_false hkept⟩

end PruneState

end OurChain
