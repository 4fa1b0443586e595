import OurChain.Serialize
import OurChain.Lib.SortedMap
import OurChain.Lib.Tree

/-!
# The contract state cache

`ContractStateCache` holds the contract snapshot, the block cache that says which
chain the snapshot belongs to, and the checkpoints. The block cache is a byte
store under four-byte big-endian heights; a checkpoint is a copy of the snapshot
filed under the hash of the tip it was taken at. The type of snapshots is a
parameter.
-/

namespace OurChain

open SortedMap

structure BlockRef where
  blockHash : Uint256
  blockHeight : Int
  deriving DecidableEq

def intToKey (num : Int) : Bytes := (leBytes 4 (BitVec.ofInt 32 num).toNat).reverse

def keyToInt (key : Bytes) : Int := (BitVec.ofNat 32 (ofBeBytes key)).toInt

abbrev BlockCache := List (Bytes × Uint256)

namespace BlockCache

def setBlockIndex (blockHash : Uint256) (blockHeight : Int) (m : BlockCache) : BlockCache :=
  SortedMap.put bytesLt (intToKey blockHeight) blockHash m

def getHeighestBlock (m : BlockCache) : BlockRef :=
  match SortedMap.last? m with
  | none => ⟨0, -1⟩
  | some (key, value) => ⟨value, keyToInt key⟩

def removeBlockIndex (blockHeight : Int) (m : BlockCache) : BlockCache :=
  SortedMap.delete (intToKey blockHeight) m

end BlockCache

structure CheckPoint (σ : Type) where
  id : Nat
  tipBlockHash : Uint256
  state : σ

structure ContractStateCache (σ : Type) where
  blockCache : BlockCache
  snapShot : σ
  checkPoints : List (CheckPoint σ)

namespace ContractStateCache

variable {σ : Type}

def getFirstBlockCache (c : ContractStateCache σ) : Option BlockRef :=
  let blockIndex := c.blockCache.getHeighestBlock
  if blockIndex.blockHeight = -1 then none else some blockIndex

def pushBlock (b : BlockRef) (c : ContractStateCache σ) : ContractStateCache σ :=
  { c with blockCache := c.blockCache.setBlockIndex b.blockHash b.blockHeight }

def popBlock (c : ContractStateCache σ) : ContractStateCache σ :=
  { c with blockCache := c.blockCache.removeBlockIndex c.blockCache.getHeighestBlock.blockHeight }

def saveCheckPoint (c : ContractStateCache σ) : ContractStateCache σ :=
  let id := (c.checkPoints.getLast?.map CheckPoint.id).getD 0 + 1
  let tipBlockHash := c.blockCache.getHeighestBlock.blockHash
  { c with checkPoints := c.checkPoints ++ [{ id, tipBlockHash, state := c.snapShot }] }

def getCheckPointList (c : ContractStateCache σ) : List (Uint256 × Nat) :=
  c.checkPoints.map fun cp => (cp.tipBlockHash, cp.id)

/-- The first listed checkpoint of this tip; none if an assertion fails. -/
def restoreCheckPoint (tipBlockHash : Uint256) (checkPointList : List (Uint256 × Nat))
    (c : ContractStateCache σ) : Option (ContractStateCache σ) := do
  let (_, targetBackupId) ← checkPointList.find? fun info => info.1 = tipBlockHash
  if targetBackupId = 0 then none
  else
    let cp ← c.checkPoints.find? fun cp => cp.id = targetBackupId
    some { c with snapShot := cp.state }

def clearCheckPoint (maxCheckPointCount : Nat) (c : ContractStateCache σ) : ContractStateCache σ :=
  { c with checkPoints := c.checkPoints.drop (c.checkPoints.length - maxCheckPointCount) }

end ContractStateCache

theorem ofBeBytes_intToKey {n : Nat} (hn : n < 2 ^ 31) : ofBeBytes (intToKey n) = n := by
  have hval : (BitVec.ofInt 32 n).toNat = n := by
    simp only [BitVec.toNat_ofInt]
    omega
  rw [intToKey, ofBeBytes_reverse, hval, ofLeBytes_leBytes]
  omega

@[simp] theorem length_intToKey (num : Int) : (intToKey num).length = 4 := by
  simp [intToKey]

def IsInt (h : Int) : Prop := -2 ^ 31 ≤ h ∧ h < 2 ^ 31

/-- The heights of blocks: the `int`s that are not negative. -/
def IsHeight (h : Int) : Prop := 0 ≤ h ∧ h < 2 ^ 31

theorem IsHeight.isInt (h : IsHeight n) : IsInt n := ⟨by have := h.1; omega, h.2⟩

theorem keyToInt_of_isInt (h : IsInt n) : keyToInt (intToKey n) = n := by
  have hkey : ofBeBytes (intToKey n) = (BitVec.ofInt 32 n).toNat := by
    rw [intToKey, ofBeBytes_reverse, ofLeBytes_leBytes]
    exact Nat.mod_eq_of_lt (BitVec.isLt _)
  rw [keyToInt, hkey, BitVec.ofNat_toNat, BitVec.setWidth_eq, BitVec.toInt_ofInt]
  exact Int.bmod_eq_of_le (by have := h.1; omega) (by have := h.2; omega)

theorem IsInt.eq_of_key (hn : IsInt n) (hk : IsInt k) (h : intToKey n = intToKey k) : n = k := by
  rw [← keyToInt_of_isInt hn, h, keyToInt_of_isInt hk]

theorem keyToInt_intToKey {n : Nat} (hn : n < 2 ^ 31) : keyToInt (intToKey n) = n :=
  keyToInt_of_isInt ⟨by omega, by omega⟩

theorem bytesLt_intToKey {n k : Nat} (hn : n < 2 ^ 31) (hk : k < 2 ^ 31) :
    bytesLt (intToKey n) (intToKey k) = decide (n < k) := by
  rw [Bool.eq_iff_iff, bytesLt_iff (by simp), ofBeBytes_intToKey hn, ofBeBytes_intToKey hk,
    decide_eq_true_iff]

theorem intToKey_lt (ha : IsHeight a) (hb : IsHeight b) :
    bytesLt (intToKey a) (intToKey b) = decide (a < b) := by
  obtain ⟨a, rfl⟩ := Int.eq_ofNat_of_zero_le ha.1
  obtain ⟨b, rfl⟩ := Int.eq_ofNat_of_zero_le hb.1
  rw [bytesLt_intToKey (by have := ha.2; omega) (by have := hb.2; omega)]
  simp

theorem intToKey_inj {n k : Nat} (hn : n < 2 ^ 31) (hk : k < 2 ^ 31)
    (h : intToKey n = intToKey k) : n = k := by
  rw [← ofBeBytes_intToKey hn, h, ofBeBytes_intToKey hk]

section
variable {β : Type} (hash : Node β → Uint256)

/-- What the block cache holds when it follows the chain that ends in `q`. -/
def track (q : Option (Node β)) : BlockCache :=
  match q with
  | none => []
  | some q => q.branch.map fun a => (intToKey a.height, hash a)

def blockRef (n : Node β) : BlockRef := ⟨hash n, n.height⟩

theorem track_child (p : Node β) (x : β) : track hash (some (.child p x)) =
    track hash (some p) ++ [(intToKey (Node.child p x).height, hash (.child p x))] := by
  simp [track, Node.branch]

theorem track_key_le {p : Node β} (he : e ∈ track hash (some p)) :
    ∃ k ≤ p.height, e.1 = intToKey k := by
  obtain ⟨a, ha, rfl⟩ := List.mem_map.mp he
  exact ⟨a.height, Node.height_le_of_mem_path ((Node.mem_branch a p).mp ha), rfl⟩

variable {hash} {q : Node β} (hq : q.height < 2 ^ 31)
include hq

theorem getHeighestBlock_track : (track hash (some q)).getHeighestBlock = blockRef hash q := by
  have hlast : SortedMap.last? (track hash (some q)) = some (intToKey q.height, hash q) := by
    cases q with
    | root x => rfl
    | child p x => rw [track_child]; simp [SortedMap.last?]
  rw [BlockCache.getHeighestBlock, hlast]
  simp only [blockRef, keyToInt_intToKey hq]

theorem setBlockIndex_track {p : Node β} {x : β} (h : q = .child p x) :
    (track hash (some p)).setBlockIndex (hash q) q.height = track hash (some q) := by
  subst h
  rw [track_child, BlockCache.setBlockIndex]
  apply put_above
  intro e he
  obtain ⟨k, hk, hkey⟩ := track_key_le hash he
  simp only [Node.height] at hq ⊢
  rw [hkey, bytesLt_intToKey (by omega) hq, bytesLt_intToKey hq (by omega)]
  simp only [decide_eq_true_iff, decide_eq_false_iff_not]
  omega

theorem removeBlockIndex_track :
    (track hash (some q)).removeBlockIndex q.height = track hash q.pprev := by
  cases q with
  | root x => simp [track, Node.branch, Node.pprev, BlockCache.removeBlockIndex, SortedMap.delete]
  | child p x =>
    rw [track_child]
    apply delete_last
    intro e he heq
    simp only [Node.height] at hq heq
    obtain ⟨k, hk, hkey⟩ := track_key_le hash he
    have := intToKey_inj (by omega) hq (hkey.symm.trans heq)
    omega

theorem track_sorted : SortedMap.Sorted bytesLt (track hash (some q)) := by
  induction q with
  | root x => exact List.pairwise_singleton _ _
  | child p x ih =>
    rw [track_child]
    refine List.pairwise_append.mpr ⟨ih (Nat.lt_of_succ_lt hq), List.pairwise_singleton _ _, ?_⟩
    intro e he e' he'
    obtain ⟨k, hk, hkey⟩ := track_key_le hash he
    have hlt : k < (Node.child p x).height := Nat.lt_succ_of_le hk
    rw [List.mem_singleton.mp he', hkey, bytesLt_intToKey (hlt.trans hq) hq, decide_eq_true_iff]
    exact hlt

theorem get_track {key : Bytes} {value : Uint256} :
    SortedMap.get (track hash (some q)) key = some value ↔
      ∃ a ∈ q.path, intToKey a.height = key ∧ hash a = value := by
  rw [get_eq_some_iff bytesLt_keyOrder (track_sorted hq)]
  simp only [track, List.mem_map, Node.mem_branch, Prod.mk.injEq]

end

section
variable {β : Type} (hash : Node β → Uint256)

/-- The block cache after the walk of `UpdateStrategyRebuild` from `n` down. -/
def pushPath (n : Node β) (m : BlockCache) : BlockCache :=
  n.path.foldl (fun m pindex => m.setBlockIndex (hash pindex) pindex.height) m

theorem pushPath_child (p : Node β) (x : β) (m : BlockCache) : pushPath hash (.child p x) m =
    pushPath hash p (m.setBlockIndex (hash (.child p x)) (Node.child p x).height) := rfl

variable {m : BlockCache}

theorem get_pushPath (n : Node β) (hsorted : SortedMap.Sorted bytesLt m) :
    SortedMap.Sorted bytesLt (pushPath hash n m) ∧ ∀ key, SortedMap.get (pushPath hash n m) key =
      (SortedMap.get (track hash (some n)) key).or (SortedMap.get m key) := by
  have hput : ∀ (a : Node β) {m : BlockCache}, SortedMap.Sorted bytesLt m →
      SortedMap.Sorted bytesLt (m.setBlockIndex (hash a) a.height) ∧
        ∀ key, SortedMap.get (m.setBlockIndex (hash a) a.height) key =
          (SortedMap.get [(intToKey a.height, hash a)] key).or (SortedMap.get m key) := by
    intro a m hm
    refine ⟨hm.put bytesLt_keyOrder _ _, fun key => ?_⟩
    rw [get_cons]
    refine (get_put bytesLt_keyOrder hm _ _ key).trans ?_
    by_cases hkey : intToKey a.height = key
    · simp [hkey]
    · simp [hkey]
  induction n generalizing m with
  | root x => exact hput (.root x) hsorted
  | child p x ih =>
    obtain ⟨hsorted', hget⟩ := hput (.child p x) hsorted
    obtain ⟨hresult, hrest⟩ := ih hsorted'
    refine ⟨hresult, fun key => ?_⟩
    rw [pushPath_child, hrest, hget, track_child, get_append, Option.or_assoc]

/-- Over keys of the chain's own heights, and over no others, the walk leaves the block cache of
the chain. -/
theorem pushPath_eq_track_iff {n : Node β} (hn : n.height < 2 ^ 31)
    (hsorted : SortedMap.Sorted bytesLt m) :
    pushPath hash n m = track hash (some n) ↔ ∀ e ∈ m, ∃ a ∈ n.path, e.1 = intToKey a.height := by
  obtain ⟨hresult, hget⟩ := get_pushPath hash n hsorted
  constructor
  · intro heq e he
    have hsome := (get_eq_some_iff bytesLt_keyOrder hsorted).mpr he
    have hor := hget e.1
    rw [heq, hsome] at hor
    cases hnew : SortedMap.get (track hash (some n)) e.1 with
    | none =>
      rw [hnew] at hor
      cases hor
    | some value =>
      obtain ⟨a, ha, hkey, -⟩ := (get_track hn).mp hnew
      exact ⟨a, ha, hkey.symm⟩
  · intro hkeys
    refine SortedMap.ext bytesLt_keyOrder hresult (track_sorted hn) fun key => ?_
    rw [hget]
    cases hold : SortedMap.get m key with
    | none => rw [Option.or_none]
    | some value =>
      obtain ⟨a, ha, hkey⟩ := hkeys _ ((get_eq_some_iff bytesLt_keyOrder hsorted).mp hold)
      rw [(get_track hn).mpr ⟨a, ha, hkey.symm, rfl⟩, Option.some_or]

theorem pushPath_nil {n : Node β} (hn : n.height < 2 ^ 31) :
    pushPath hash n [] = track hash (some n) :=
  (pushPath_eq_track_iff hash hn .nil).mpr nofun

end

inductive CacheCall
  | setBlockIndex (blockHash : Uint256) (blockHeight : Int)
  | pushBlock (blockIndex : BlockRef)
  | popBlock
  | removeBlockIndex (blockHeight : Int)

namespace CacheCall

def run : CacheCall → ContractStateCache σ → ContractStateCache σ
  | setBlockIndex hash height, c => { c with blockCache := c.blockCache.setBlockIndex hash height }
  | pushBlock blockIndex, c => c.pushBlock blockIndex
  | popBlock, c => c.popBlock
  | removeBlockIndex height, c => { c with blockCache := c.blockCache.removeBlockIndex height }

def WritesHeight : CacheCall → Prop
  | setBlockIndex _ height => IsHeight height
  | pushBlock blockIndex => IsHeight blockIndex.blockHeight
  | popBlock | removeBlockIndex _ => True

end CacheCall

namespace BlockCache

structure Heights (m : BlockCache) : Prop where
  sorted : SortedMap.Sorted bytesLt m
  keys : ∀ e ∈ m, ∃ h, IsHeight h ∧ e.1 = intToKey h

def entry (m : BlockCache) (h : Int) : Option Uint256 := SortedMap.get m (intToKey h)

variable {m : BlockCache}

theorem Heights.setBlockIndex (hm : m.Heights) (hash : Uint256) (hh : IsHeight h) :
    (m.setBlockIndex hash h).Heights where
  sorted := hm.sorted.put bytesLt_keyOrder _ _
  keys e he := by
    rcases mem_put he with rfl | he
    · exact ⟨h, hh, rfl⟩
    · exact hm.keys e he

theorem Heights.removeBlockIndex (hm : m.Heights) (h : Int) : (m.removeBlockIndex h).Heights where
  sorted := List.Pairwise.filter _ hm.sorted
  keys e he := hm.keys e (List.mem_of_mem_filter he)

theorem Heights.run {c : ContractStateCache σ} (hc : c.blockCache.Heights) (calls : List CacheCall)
    (hcalls : ∀ call ∈ calls, call.WritesHeight) :
    (calls.foldl (fun c call => call.run c) c).blockCache.Heights := by
  induction calls generalizing c with
  | nil => exact hc
  | cons call calls ih =>
    obtain ⟨hcall, hcalls⟩ := List.forall_mem_cons.mp hcalls
    refine ih ?_ hcalls
    cases call with
    | setBlockIndex hash h => exact hc.setBlockIndex hash hcall
    | pushBlock b => exact hc.setBlockIndex b.blockHash hcall
    | popBlock => exact hc.removeBlockIndex _
    | removeBlockIndex h => exact hc.removeBlockIndex h

theorem entry_removeBlockIndex (hh : IsInt h) (hk : IsInt k) :
    (m.removeBlockIndex h).entry k = if k = h then none else m.entry k := by
  refine (get_delete _ _).trans ?_
  have hinj : intToKey h = intToKey k ↔ k = h :=
    ⟨fun heq => (hh.eq_of_key hk heq).symm, fun heq => by rw [heq]⟩
  simp only [hinj, entry]

/-- The block that `getHeighestBlock` finds is the entry of the greatest height. -/
theorem Heights.getHeighestBlock (hm : m.Heights) (hne : m ≠ []) :
    IsHeight m.getHeighestBlock.blockHeight ∧
      m.entry m.getHeighestBlock.blockHeight = some m.getHeighestBlock.blockHash ∧
      ∀ k, IsInt k → (m.entry k).isSome → k ≤ m.getHeighestBlock.blockHeight := by
  cases hlast : SortedMap.last? m with
  | none => exact absurd (List.getLast?_eq_none_iff.mp hlast) hne
  | some e =>
    obtain ⟨hmem, hmax⟩ := hm.sorted.last hlast
    obtain ⟨h, hh, hkey⟩ := hm.keys e hmem
    have hblock : m.getHeighestBlock = ⟨e.2, h⟩ := by
      rw [BlockCache.getHeighestBlock, hlast]
      simp only [hkey, keyToInt_of_isInt hh.isInt]
    have hget : SortedMap.get m (intToKey h) = some e.2 := by
      rw [get_eq_some_iff bytesLt_keyOrder hm.sorted, ← hkey]
      exact hmem
    rw [hblock]
    refine ⟨hh, hget, ?_⟩
    intro k hk hsome
    obtain ⟨value, hvalue⟩ := Option.isSome_iff_exists.mp hsome
    have hentry := (get_eq_some_iff bytesLt_keyOrder hm.sorted).mp hvalue
    -- the key of an `int` that is in the cache is that of a height, so `k` is one
    obtain ⟨k', hk', hsame⟩ := hm.keys _ hentry
    cases hk.eq_of_key hk'.isInt hsame
    rcases hmax _ hentry with heq | hlt
    · exact (hk.eq_of_key hh.isInt ((congrArg Prod.fst heq).trans hkey)).le
    · rw [hkey, intToKey_lt hk' hh, decide_eq_true_iff] at hlt
      exact hlt.le

end BlockCache

/-- `getHeighestBlock` finds the entry of the greatest height, and `popBlock` removes that entry
alone. -/
def ContractStateCache.PopsHeighest (c : ContractStateCache σ) : Prop :=
  let top := c.blockCache.getHeighestBlock
  if c.blockCache = [] then top.blockHeight = -1 ∧ c.popBlock.blockCache = []
  else IsHeight top.blockHeight ∧ c.blockCache.entry top.blockHeight = some top.blockHash ∧
    (∀ k, IsInt k → (c.blockCache.entry k).isSome → k ≤ top.blockHeight) ∧
    ∀ k, IsInt k → c.popBlock.blockCache.entry k =
      if k = top.blockHeight then none else c.blockCache.entry k

theorem blockCache_ordered (c : ContractStateCache σ) (calls : List CacheCall)
    (hempty : c.blockCache = []) (hcalls : ∀ call ∈ calls, call.WritesHeight) :
    (∀ h, IsHeight h → keyToInt (intToKey h) = h) ∧
    (∀ a b, IsHeight a → IsHeight b → a < b → bytesLt (intToKey a) (intToKey b) = true) ∧
    (calls.foldl (fun c call => call.run c) c).PopsHeighest := by
  refine ⟨fun h hh => keyToInt_of_isInt hh.isInt, fun a b ha hb hlt => ?_, ?_⟩
  · rw [intToKey_lt ha hb, decide_eq_true hlt]
  · have hm : (calls.foldl (fun c call => call.run c) c).blockCache.Heights := by
      refine BlockCache.Heights.run ?_ calls hcalls
      rw [hempty]
      exact ⟨List.Pairwise.nil, nofun⟩
    rw [ContractStateCache.PopsHeighest]
    split
    · rename_i hnil
      simp only [ContractStateCache.popBlock, hnil]
      exact ⟨rfl, rfl⟩
    · rename_i hne
      obtain ⟨hh, hentry, hmax⟩ := hm.getHeighestBlock hne
      exact ⟨hh, hentry, hmax, fun k hk => BlockCache.entry_removeBlockIndex hh.isInt hk⟩

def blockCalls : List CacheCall :=
  [.pushBlock ⟨1, 255⟩, .setBlockIndex 2 256, .pushBlock ⟨3, 65536⟩, .popBlock, .removeBlockIndex 7]

theorem blockCache_ordered_calls :
    let c := blockCalls.foldl (fun c call => call.run c) (⟨[], (), []⟩ : ContractStateCache Unit)
    c.PopsHeighest ∧ c.blockCache.getHeighestBlock = ⟨2, 256⟩ := by
  have hcalls : ∀ call ∈ blockCalls, call.WritesHeight := by
    simp [blockCalls, CacheCall.WritesHeight, IsHeight]
  exact ⟨(blockCache_ordered _ blockCalls rfl hcalls).2.2, by decide⟩

end OurChain
