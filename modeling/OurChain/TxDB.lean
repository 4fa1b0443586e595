import OurChain.BlockIndex
import OurChain.Lib.Table

/-!
# Reloading the block index

`LoadBlockIndexGuts` rebuilds `mapBlockIndex` from the stored records, and
`LoadBlockIndexDB` recomputes the chain work of what was loaded. The record
carries every field of the header, but the loader copies only some of them: what
survives a restart is stated here against the index that was written.
-/

namespace OurChain

open List Option
open CBlockIndex (null)

abbrev BlockMap := List CBlockIndex

namespace BlockMap

abbrev find (m : BlockMap) (hash : Uint256) : Option CBlockIndex :=
  Table.find CBlockIndex.hashBlock m hash

end BlockMap

/-- Makes sure that `hash` has an entry; the null hash has none. -/
def insertBlockIndex (hash : Uint256) (m : BlockMap) : BlockMap :=
  if hash = 0#256 then m else Table.add CBlockIndex.hashBlock (null hash) m

def copyRecord (d : CDiskBlockIndex) (pindexNew : CBlockIndex) : CBlockIndex :=
  { pindexNew with
    pprev := if d.header.hashPrevBlock = 0#256 then none else some d.header.hashPrevBlock
    nHeight := d.nHeight
    nFile := d.nFile
    nDataPos := d.nDataPos
    nUndoPos := d.nUndoPos
    nVersion := d.header.nVersion
    hashMerkleRoot := d.header.hashMerkleRoot
    nTime := d.header.nTime
    nBits := d.header.nBits
    nNonce := d.header.nNonce
    nStatus := d.nStatus
    nTx := d.nTx }

def loadRecord (H : Bytes → Uint256) (params : ConsensusParams) (m : BlockMap) (bs : Bytes) :
    Option BlockMap := do
  let d ← CDiskBlockIndex.unserialize bs
  let hash := d.getBlockHash H
  -- the entry of a null hash is a null pointer, which is written through
  if hash = 0#256 then none
  else if checkProofOfWork params hash d.header.nBits then
    some (Table.modify CBlockIndex.hashBlock hash (copyRecord d)
      (insertBlockIndex d.header.hashPrevBlock (insertBlockIndex hash m)))
  else none

def loadBlockIndexGuts (H : Bytes → Uint256) (params : ConsensusParams) (records : List Bytes)
    (m : BlockMap) : Option BlockMap := records.foldlM (loadRecord H params) m

def CBlockIndex.withWork (e : CBlockIndex) (nChainWork : Uint256) :
    CBlockIndex := { e with nChainWork }

def chainWorkOf (m : BlockMap) (e : CBlockIndex) : Uint256 :=
  ((e.pprev.bind m.find).map CBlockIndex.nChainWork).getD 0#256 + getBlockProof e.nBits

def setChainWork (m : BlockMap) (hash : Uint256) : BlockMap :=
  Table.modify CBlockIndex.hashBlock hash (fun e => e.withWork (chainWorkOf m e)) m

/-- The entries by height, and their work summed up from the genesis block on. -/
def calculateChainWork (m : BlockMap) : BlockMap :=
  ((m.mergeSort fun a b => a.nHeight ≤ b.nHeight).map CBlockIndex.hashBlock).foldl setChainWork m

def loadBlockIndexDB (H : Bytes → Uint256) (params : ConsensusParams) (records : List Bytes) :
    Option BlockMap := (loadBlockIndexGuts H params records []).map calculateChainWork

theorem loadRecord_eq_some (h : loadRecord H params m bs = some m') :
    ∃ d, CDiskBlockIndex.unserialize bs = some d ∧ d.getBlockHash H ≠ 0#256 ∧
      checkProofOfWork params (d.getBlockHash H) d.header.nBits = true ∧
      m' = Table.modify CBlockIndex.hashBlock (d.getBlockHash H) (copyRecord d)
        (insertBlockIndex d.header.hashPrevBlock (insertBlockIndex (d.getBlockHash H) m)) := by
  simp only [loadRecord, bind_eq_bind, bind_eq_some_iff] at h
  obtain ⟨d, hd, h⟩ := h
  split at h
  · cases h
  · rename_i hne
    split at h
    · rename_i hpow
      cases h
      exact ⟨d, hd, hne, hpow, rfl⟩
    · cases h

/-- No loaded entry has any of the three fields the loader forgets. -/
def Forgotten (m : BlockMap) : Prop :=
  ∀ e ∈ m, e.hashContractState = 0#256 ∧ e.nPrecisionTime = 0#32 ∧ e.hashGPoW = 0#256

theorem Forgotten.insert (h : Forgotten m) (hash : Uint256) :
    Forgotten (insertBlockIndex hash m) := by
  unfold insertBlockIndex Table.add
  split
  · exact h
  · split
    · exact h
    · intro e he
      rcases mem_append.mp he with he | he
      · exact h e he
      · rw [mem_singleton.mp he]
        exact ⟨rfl, rfl, rfl⟩

theorem Forgotten.modify (h : Forgotten m) (hash : Uint256) {f : CBlockIndex → CBlockIndex}
    (hf : ∀ e, (f e).hashContractState = e.hashContractState ∧
      (f e).nPrecisionTime = e.nPrecisionTime ∧ (f e).hashGPoW = e.hashGPoW) :
    Forgotten (Table.modify CBlockIndex.hashBlock hash f m) := by
  intro e he
  obtain ⟨e₀, he₀, rfl⟩ := List.mem_map.mp he
  split
  · obtain ⟨hs, hp, hg⟩ := hf e₀
    rw [hs, hp, hg]
    exact h e₀ he₀
  · exact h e₀ he₀

theorem Forgotten.loadBlockIndexGuts (h : Forgotten m)
    (hload : loadBlockIndexGuts H params records m = some m') : Forgotten m' := by
  induction records generalizing m with
  | nil => cases hload; exact h
  | cons bs records ih =>
    simp only [OurChain.loadBlockIndexGuts, foldlM_cons, bind_eq_bind,
      bind_eq_some_iff] at hload
    obtain ⟨m₁, hrecord, hload⟩ := hload
    obtain ⟨d, -, -, -, rfl⟩ := loadRecord_eq_some hrecord
    refine ih (((h.insert _).insert _).modify _ (f := copyRecord d) ?_) hload
    exact fun _ => ⟨rfl, rfl, rfl⟩

theorem Forgotten.calculateChainWork (h : Forgotten m) : Forgotten (calculateChainWork m) := by
  unfold OurChain.calculateChainWork
  generalize (List.map CBlockIndex.hashBlock _) = hashes
  induction hashes generalizing m with
  | nil => exact h
  | cons hash hashes ih => exact ih (h.modify hash fun _ => ⟨rfl, rfl, rfl⟩)

theorem loadBlockIndexGuts_record (hload : loadBlockIndexGuts H params records m = some m')
    (hbs : bs ∈ records) :
    ∃ d, CDiskBlockIndex.unserialize bs = some d ∧ d.getBlockHash H ≠ 0#256 ∧
      checkProofOfWork params (d.getBlockHash H) d.header.nBits = true := by
  induction records generalizing m with
  | nil => cases hbs
  | cons bs' records ih =>
    simp only [loadBlockIndexGuts, foldlM_cons, bind_eq_bind,
      bind_eq_some_iff] at hload
    obtain ⟨m₁, hrecord, hload⟩ := hload
    rcases mem_cons.mp hbs with rfl | hbs
    · obtain ⟨d, hd, hne, hpow, -⟩ := loadRecord_eq_some hrecord
      exact ⟨d, hd, hne, hpow⟩
    · exact ih hload hbs

/-- `mapBlockIndex` as `AddToBlockIndex` builds it: every entry is filed under the
hash of its header, above its parent, with the work of its parent plus its own. -/
structure BlockIndex (H : Bytes → Uint256) where
  entries : List CBlockIndex
  nodup : (entries.map CBlockIndex.hashBlock).Nodup
  key : ∀ e ∈ entries, e.hashBlock = e.getBlockHeader.getHash H
  root : ∀ e ∈ entries, e.pprev = none → e.nChainWork = getBlockProof e.nBits
  parent : ∀ e ∈ entries, ∀ hash, e.pprev = some hash → ∃ p ∈ entries, p.hashBlock = hash ∧
    e.nHeight.toNat = p.nHeight.toNat + 1 ∧ e.nChainWork = p.nChainWork + getBlockProof e.nBits

def BlockIndex.records (index : BlockIndex H) (clientVersion : BitVec 31) : List Bytes :=
  index.entries.map fun e => (CDiskBlockIndex.ofIndex e).serialize clientVersion

/-- An entry and what a restart made of it agree on everything the record is for. -/
structure Restored (e e' : CBlockIndex) : Prop where
  nHeight : e'.nHeight = e.nHeight
  blockPos : e'.getBlockPos = e.getBlockPos
  undoPos : e'.getUndoPos = e.getUndoPos
  nStatus : e'.nStatus = e.nStatus
  nTx : e'.nTx = e.nTx
  header : e'.getBlockHeader = e.getBlockHeader

/-- The entries come back as they were, each under the hash of its header, and in
the same order whatever addresses the entries have. -/
def BlockIndex.RoundTrips (index : BlockIndex H) (params : ConsensusParams)
    (clientVersion : BitVec 31) : Prop :=
  ∃ m', loadBlockIndexDB H params (index.records clientVersion) = some m' ∧
    (∀ e ∈ index.entries, ∃ e', m'.find e.hashBlock = some e' ∧ Restored e e' ∧
      e'.getBlockHeader.getHash H = e.hashBlock) ∧
    ∀ a ∈ index.entries, ∀ b ∈ index.entries, ∀ a' b', m'.find a.hashBlock = some a' →
      m'.find b.hashBlock = some b' → ∀ addrA addrB,
        workLess (a'.workKey addrA) (b'.workKey addrB) = workLess (a.workKey addrA) (b.workKey addrB)

structure CBlockIndex.Reloadable (params : ConsensusParams) (e : CBlockIndex) : Prop where
  hash : e.hashBlock ≠ 0#256
  pow : checkProofOfWork params e.hashBlock e.nBits = true
  contractState : e.hashContractState = 0#256
  precisionTime : e.nPrecisionTime = 0#32
  gpow : e.hashGPoW = 0#256

theorem BlockIndex.reloadable_of_roundTrips {index : BlockIndex H}
    (h : index.RoundTrips params clientVersion) (he : e ∈ index.entries) : e.Reloadable params := by
  obtain ⟨m', hload, hback, -⟩ := h
  obtain ⟨m, hguts, rfl⟩ := map_eq_some_iff.mp hload
  have hmem : (CDiskBlockIndex.ofIndex e).serialize clientVersion ∈ index.records clientVersion :=
    List.mem_map_of_mem he
  obtain ⟨d, hd, hne, hpow⟩ := loadBlockIndexGuts_record hguts hmem
  rw [CDiskBlockIndex.unserialize_serialize] at hd
  cases hd
  have hkey : (CDiskBlockIndex.ofIndex e).stored.getBlockHash H = e.hashBlock := (index.key e he).symm
  rw [hkey] at hne hpow
  obtain ⟨e', hfind, hrestored, -⟩ := hback e he
  have hzero := (Forgotten.loadBlockIndexGuts (by simp [Forgotten]) hguts).calculateChainWork e'
    (Table.find_mem hfind)
  have hheader := hrestored.header
  simp only [CBlockIndex.getBlockHeader, CBlockHeader.mk.injEq] at hheader
  obtain ⟨-, -, -, hstate, -, -, -, hprecision, hgpow⟩ := hheader
  exact ⟨hne, hpow, hstate ▸ hzero.1, hprecision ▸ hzero.2.1, hgpow ▸ hzero.2.2⟩

def CBlockIndex.reload (e : CBlockIndex) : CBlockIndex :=
  copyRecord (CDiskBlockIndex.ofIndex e).stored (null e.hashBlock)

theorem find_insertBlockIndex (hash k : Uint256) (m : BlockMap) :
    (insertBlockIndex hash m).find k =
      if hash ≠ 0#256 ∧ k = hash ∧ m.find k = none then some (null hash) else m.find k := by
  unfold insertBlockIndex
  split
  · rename_i hzero
    rw [if_neg fun h => h.1 hzero]
  · rename_i hne
    simp only [BlockMap.find, Table.find_add, null, ne_eq, hne, not_false_eq_true, true_and]

theorem nodup_insertBlockIndex {hash : Uint256} (h : (List.map CBlockIndex.hashBlock m).Nodup) :
    ((insertBlockIndex hash m).map CBlockIndex.hashBlock).Nodup := by
  unfold insertBlockIndex
  split
  · exact h
  · exact Table.nodup_add _ h

def afterRecord (e : CBlockIndex) (m : BlockMap) : BlockMap :=
  Table.modify CBlockIndex.hashBlock e.hashBlock (copyRecord (CDiskBlockIndex.ofIndex e).stored)
    (insertBlockIndex (e.pprev.getD 0#256) (insertBlockIndex e.hashBlock m))

theorem find_afterRecord (hk : k ≠ e.hashBlock) : (afterRecord e m).find k =
    if e.pprev.getD 0#256 ≠ 0#256 ∧ k = e.pprev.getD 0#256 ∧ m.find k = none then some (null k)
    else m.find k := by
  rw [BlockMap.find, afterRecord, Table.find_modify (f := copyRecord _) fun _ => rfl, if_neg hk]
  simp only [find_insertBlockIndex, hk, false_and, and_false, if_false]
  split
  · rename_i h
    rw [h.2.1]
  · rfl

theorem find_afterRecord_self (hne : e.hashBlock ≠ 0#256)
    (hm : m.find e.hashBlock = none ∨ m.find e.hashBlock = some (null e.hashBlock)) :
    (afterRecord e m).find e.hashBlock = some e.reload := by
  rw [BlockMap.find, afterRecord, Table.find_modify (f := copyRecord _) fun _ => rfl, if_pos rfl]
  have hrow : (insertBlockIndex (e.pprev.getD 0#256) (insertBlockIndex e.hashBlock m)).find
      e.hashBlock = some (null e.hashBlock) := by
    rcases hm with hm | hm <;> simp [find_insertBlockIndex, hm, hne]
  exact congrArg (Option.map (copyRecord (CDiskBlockIndex.ofIndex e).stored)) hrow

/-- The map after the records of `done`: their entries, and empty ones for parents
whose own record is still to come. -/
structure Loaded (index : BlockIndex H) (done : List CBlockIndex) (m : BlockMap) : Prop where
  nodup : (m.map CBlockIndex.hashBlock).Nodup
  filled : ∀ e ∈ done, m.find e.hashBlock = some e.reload
  pending : ∀ k row, m.find k = some row → (∃ e ∈ done, e.hashBlock = k) ∨
    (row = null k ∧ ∃ e ∈ index.entries, e.hashBlock = k)

section
variable {index : BlockIndex H} (hall : ∀ e ∈ index.entries, e.Reloadable params)
include hall

section
variable (he : e ∈ index.entries)
include he

theorem BlockIndex.pprev_ne_zero {hash : Uint256}
    (hp : e.pprev = some hash) : hash ≠ 0#256 := by
  obtain ⟨p, hmem, rfl, -⟩ := index.parent e he hash hp
  exact (hall p hmem).hash

theorem BlockIndex.reload_pprev : e.reload.pprev = e.pprev := by
  cases hp : e.pprev with
  | none => simp [CBlockIndex.reload, copyRecord, CDiskBlockIndex.stored, CDiskBlockIndex.ofIndex, hp]
  | some hash =>
    have hne := index.pprev_ne_zero hall he hp
    simp [CBlockIndex.reload, copyRecord, CDiskBlockIndex.stored, CDiskBlockIndex.ofIndex, hp, hne]

theorem loadRecord_of_reloadable (clientVersion : BitVec 31)
    (m : BlockMap) : loadRecord H params m ((CDiskBlockIndex.ofIndex e).serialize clientVersion) =
      some (afterRecord e m) := by
  have hkey : (CDiskBlockIndex.ofIndex e).stored.getBlockHash H = e.hashBlock := (index.key e he).symm
  simp only [loadRecord, CDiskBlockIndex.unserialize_serialize, bind_eq_bind,
    bind_some, hkey, if_neg (hall e he).hash]
  exact if_pos (hall e he).pow

end

theorem Loaded.step (h : Loaded index done m) (he : e ∈ index.entries)
    (hfresh : ∀ e' ∈ done, e'.hashBlock ≠ e.hashBlock) :
    Loaded index (done ++ [e]) (afterRecord e m) where
  nodup := by
    rw [afterRecord, Table.map_key_modify (f := copyRecord _) fun _ => rfl]
    exact nodup_insertBlockIndex (nodup_insertBlockIndex h.nodup)
  filled e' he' := by
    rcases mem_append.mp he' with he' | he'
    · rw [find_afterRecord (hfresh e' he'), h.filled e' he']
      simp
    · cases mem_singleton.mp he'
      refine find_afterRecord_self (hall e he).hash ?_
      cases hm : m.find e.hashBlock with
      | none => exact .inl rfl
      | some row =>
        rcases h.pending _ _ hm with ⟨e', he', heq⟩ | ⟨rfl, -⟩
        · exact absurd heq (hfresh e' he')
        · exact .inr rfl
  pending k row hrow := by
    by_cases hk : k = e.hashBlock
    · exact .inl ⟨e, by simp, hk.symm⟩
    · rw [find_afterRecord hk] at hrow
      split at hrow
      · rename_i hprev
        cases hrow
        obtain ⟨hash, hhash⟩ : ∃ hash, e.pprev = some hash := by
          cases hp : e.pprev with
          | none => simp [hp] at hprev
          | some hash => exact ⟨hash, rfl⟩
        obtain ⟨p, hp, hpk, -⟩ := index.parent e he hash hhash
        exact .inr ⟨rfl, p, hp, by rw [hpk, hprev.2.1, hhash, getD_some]⟩
      · rcases h.pending k row hrow with ⟨e', he', heq⟩ | hnull
        · exact .inl ⟨e', by simp [he'], heq⟩
        · exact .inr hnull

theorem Loaded.all (h : Loaded index done m) (clientVersion : BitVec 31)
    (hsplit : index.entries = done ++ rest) :
    ∃ m', loadBlockIndexGuts H params
        (rest.map fun e => (CDiskBlockIndex.ofIndex e).serialize clientVersion) m = some m' ∧
      Loaded index index.entries m' := by
  induction rest generalizing done m with
  | nil =>
    rw [append_nil] at hsplit
    exact ⟨m, rfl, hsplit ▸ h⟩
  | cons e rest ih =>
    have hfresh : ∀ e' ∈ done, e'.hashBlock ≠ e.hashBlock := by
      have hnodup := index.nodup
      rw [hsplit, map_append, nodup_append] at hnodup
      intro e' he'
      exact hnodup.2.2 _ (List.mem_map_of_mem he') _ (by simp)
    have he : e ∈ index.entries := by simp [hsplit]
    obtain ⟨m', hload, h'⟩ := ih (h.step hall he hfresh) (by simp [hsplit])
    refine ⟨m', ?_, h'⟩
    simp only [loadBlockIndexGuts, map_cons, foldlM_cons,
      loadRecord_of_reloadable hall he, bind_eq_bind, bind_some]
    exact hload

omit hall in
theorem find_setChainWork (m : BlockMap) (hash k : Uint256) : (setChainWork m hash).find k =
    if k = hash then (m.find k).map fun e => e.withWork (chainWorkOf m e) else m.find k :=
  Table.find_modify (f := fun e : CBlockIndex => e.withWork (chainWorkOf m e)) (fun _ => rfl) hash k

/-- The entries are back up to their work, which is right for those in `done`. -/
def Summed (index : BlockIndex H) (done : List CBlockIndex) (m : BlockMap) : Prop :=
  ∀ e ∈ index.entries, ∃ w, m.find e.hashBlock = some (e.reload.withWork w) ∧
    (e.reload ∈ done → w = e.nChainWork)

section
variable (h : Summed index done m) (he : e ∈ index.entries)
  (hparent : ∀ p ∈ index.entries, p.nHeight < e.nHeight → p.reload ∈ done)
include h he hparent

theorem Summed.chainWorkOf (w : Uint256) : chainWorkOf m (e.reload.withWork w) = e.nChainWork := by
  have hpprev : (e.reload.withWork w).pprev = e.pprev := index.reload_pprev hall he
  have hbits : (e.reload.withWork w).nBits = e.nBits := rfl
  rw [OurChain.chainWorkOf, hpprev, hbits]
  cases hp : e.pprev with
  | none => simp [index.root e he hp]
  | some hash =>
    obtain ⟨p, hmem, rfl, hheight, hwork⟩ := index.parent e he hash hp
    obtain ⟨w', hfind, hdone⟩ := h p hmem
    have hw : w' = p.nChainWork := hdone (hparent p hmem (by rw [BitVec.lt_def]; omega))
    simp [hfind, hwork, hw, CBlockIndex.withWork]

theorem Summed.step : Summed index (done ++ [e.reload]) (setChainWork m e.hashBlock) := by
  intro e' he'
  obtain ⟨w', hfind', hdone'⟩ := h e' he'
  rw [find_setChainWork]
  by_cases heq : e'.hashBlock = e.hashBlock
  · cases inj_on_of_nodup_map index.nodup he' he heq
    refine ⟨e.nChainWork, ?_, fun _ => rfl⟩
    rw [if_pos rfl, hfind', map_some, h.chainWorkOf hall he hparent]
    rfl
  · refine ⟨w', by rw [if_neg heq, hfind'], ?_⟩
    intro hmem
    rcases mem_append.mp hmem with hmem | hmem
    · exact hdone' hmem
    · exact absurd (congrArg CBlockIndex.hashBlock (mem_singleton.mp hmem)) heq

end

theorem Summed.all (h : Summed index done m)
    (hsorted : (done ++ rest).Pairwise fun a b => a.nHeight ≤ b.nHeight)
    (hrest : ∀ row ∈ rest, ∃ e ∈ index.entries, row = e.reload)
    (hcomplete : ∀ e ∈ index.entries, e.reload ∈ done ++ rest) :
    Summed index (done ++ rest) ((rest.map CBlockIndex.hashBlock).foldl setChainWork m) := by
  induction rest generalizing done m with
  | nil => simpa using h
  | cons row rest ih =>
    obtain ⟨⟨e, he, rfl⟩, htail⟩ := forall_mem_cons.mp hrest
    have hparent : ∀ p ∈ index.entries, p.nHeight < e.nHeight → p.reload ∈ done := by
      intro p hp hlt
      rcases mem_append.mp (hcomplete p hp) with hmem | hmem
      · exact hmem
      · have hle : e.reload.nHeight ≤ p.reload.nHeight := by
          rcases mem_cons.mp hmem with heq | hmem
          · exact BitVec.le_of_eq (congrArg CBlockIndex.nHeight heq).symm
          · exact (pairwise_cons.mp (pairwise_append.mp hsorted).2.1).1 _ hmem
        exact absurd hlt (BitVec.not_lt.mpr hle)
    have htotal := ih (h.step hall he hparent) (by simpa using hsorted) htail
      (by simpa using hcomplete)
    rw [append_assoc] at htotal
    exact htotal

omit hall in
theorem sortedByHeight (m : BlockMap) :
    (m.mergeSort fun a b => a.nHeight ≤ b.nHeight).Pairwise fun a b => a.nHeight ≤ b.nHeight := by
  have htrans (a b c : CBlockIndex) (hab : decide (a.nHeight ≤ b.nHeight) = true)
      (hbc : decide (b.nHeight ≤ c.nHeight) = true) : decide (a.nHeight ≤ c.nHeight) = true := by
    simp only [decide_eq_true_eq] at hab hbc ⊢
    exact BitVec.le_trans hab hbc
  have htotal (a b : CBlockIndex) :
      (decide (a.nHeight ≤ b.nHeight) || decide (b.nHeight ≤ a.nHeight)) = true := by
    simpa using BitVec.le_total a.nHeight b.nHeight
  exact (pairwise_mergeSort htrans htotal m).imp of_decide_eq_true

theorem Loaded.chainWork (h : Loaded index index.entries m) (he : e ∈ index.entries) :
    (calculateChainWork m).find e.hashBlock = some (e.reload.withWork e.nChainWork) := by
  let rows := m.mergeSort fun a b => decide (a.nHeight ≤ b.nHeight)
  have hperm : rows.Perm m := mergeSort_perm ..
  have hmem : ∀ e ∈ index.entries, e.reload ∈ rows := fun e he =>
    hperm.mem_iff.mpr (Table.find_mem (h.filled e he))
  have hrows : ∀ row ∈ rows, ∃ e ∈ index.entries, row = e.reload := by
    intro row hrow
    have hfind := Table.find_of_mem h.nodup (hperm.mem_iff.mp hrow)
    have hentry : ∃ e ∈ index.entries, e.hashBlock = row.hashBlock := by
      rcases h.pending _ _ hfind with hdone | ⟨-, hentry⟩
      · exact hdone
      · exact hentry
    obtain ⟨e, he, heq⟩ := hentry
    refine ⟨e, he, some.inj ?_⟩
    rw [← hfind, ← heq]
    exact h.filled e he
  have hstart : Summed index [] m := fun e he =>
    ⟨0, h.filled e he, fun hnil => absurd hnil not_mem_nil⟩
  obtain ⟨w, hfind, hwork⟩ := hstart.all hall (sortedByHeight m) hrows hmem e he
  rw [hwork (hmem e he)] at hfind
  exact hfind

end

theorem haveBit_or (h : CBlockIndex.haveBit nStatus BLOCK_HAVE_DATA = true ∨
      CBlockIndex.haveBit nStatus BLOCK_HAVE_UNDO = true) :
    CBlockIndex.haveBit nStatus (BLOCK_HAVE_DATA ||| BLOCK_HAVE_UNDO) = true := by
  simp only [CBlockIndex.haveBit, bne_iff_ne, ne_eq] at h ⊢
  intro hzero
  rw [BitVec.and_or_distrib_left, BitVec.or_eq_zero_iff] at hzero
  rcases h with h | h
  · exact h hzero.1
  · exact h hzero.2

theorem BlockIndex.restored_reload {index : BlockIndex H}
    (hall : ∀ e ∈ index.entries, e.Reloadable params) (he : e ∈ index.entries) (w : Uint256) :
    Restored e (e.reload.withWork w) where
  nHeight := rfl
  blockPos := by
    simp only [CBlockIndex.getBlockPos, CBlockIndex.withWork, CBlockIndex.reload, copyRecord,
      CDiskBlockIndex.stored, CDiskBlockIndex.ofIndex]
    by_cases hbit : CBlockIndex.haveBit e.nStatus BLOCK_HAVE_DATA = true
    · simp [hbit, haveBit_or (.inl hbit)]
    · simp [hbit]
  undoPos := by
    simp only [CBlockIndex.getUndoPos, CBlockIndex.withWork, CBlockIndex.reload, copyRecord,
      CDiskBlockIndex.stored, CDiskBlockIndex.ofIndex]
    by_cases hbit : CBlockIndex.haveBit e.nStatus BLOCK_HAVE_UNDO = true
    · simp [hbit, haveBit_or (.inr hbit)]
    · simp [hbit]
  nStatus := rfl
  nTx := rfl
  header := by
    have hpprev : (e.reload.withWork w).pprev = e.pprev := index.reload_pprev hall he
    obtain ⟨-, -, hstate, hprecision, hgpow⟩ := hall e he
    simp only [CBlockIndex.getBlockHeader, hpprev, hstate, hprecision, hgpow]
    rfl

/-- A restart gives the index back exactly when no entry has a null hash, fails
the proof of work of its own hash, or has one of the fields that are not copied. -/
theorem BlockIndex.roundTrips_iff (index : BlockIndex H) (params : ConsensusParams)
    (clientVersion : BitVec 31) :
    index.RoundTrips params clientVersion ↔ ∀ e ∈ index.entries, e.Reloadable params := by
  refine ⟨fun h e he => index.reloadable_of_roundTrips h he, fun hall => ?_⟩
  have hstart : Loaded index [] [] := ⟨nodup_nil, by simp, by simp [BlockMap.find, Table.find]⟩
  obtain ⟨m, hguts, hloaded⟩ := hstart.all hall clientVersion (nil_append _).symm
  refine ⟨calculateChainWork m, by rw [loadBlockIndexDB, BlockIndex.records, hguts, map_some], ?_, ?_⟩
  · intro e he
    have hrestored := index.restored_reload hall he e.nChainWork
    refine ⟨_, hloaded.chainWork hall he, hrestored, ?_⟩
    rw [hrestored.header, index.key e he]
  · intro a ha b hb a' b' hfa hfb addrA addrB
    rw [hloaded.chainWork hall ha] at hfa
    rw [hloaded.chainWork hall hb] at hfb
    cases hfa
    cases hfb
    have hkey (e : CBlockIndex) (he : e ∈ index.entries) (addr : Nat) :
        (e.reload.withWork e.nChainWork).workKey addr = e.workKey addr := by
      obtain ⟨-, -, -, hprecision, hgpow⟩ := hall e he
      simp only [CBlockIndex.workKey, CBlockIndex.getBlockHeader, hprecision, hgpow]
      rfl
    rw [hkey a ha, hkey b hb]

def stampedIndex : BlockIndex fun _ => 1 where
  entries := [{ null 1 with
    nVersion := 1, nBits := 0x207fffff, nChainWork := getBlockProof 0x207fffff
    nPrecisionTime := 250000 }]
  nodup := by decide
  key := by decide
  root := by decide
  parent := by simp [null]

theorem stampedIndex_not_roundTrips :
    (∀ e ∈ stampedIndex.entries, e.hashBlock ≠ 0 ∧
      checkProofOfWork regTestParams e.hashBlock e.nBits = true) ∧
    ∀ clientVersion, ¬ stampedIndex.RoundTrips regTestParams clientVersion := by
  refine ⟨by decide, fun clientVersion h => ?_⟩
  have hreload := stampedIndex.reloadable_of_roundTrips h mem_cons_self
  exact absurd hreload.precisionTime (by decide)

end OurChain
