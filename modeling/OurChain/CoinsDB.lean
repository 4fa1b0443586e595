import OurChain.CoinsCache

/-!
# The coin database

`CCoinsViewDB::BatchWrite` hands the dirty entries of a cache to the database in batches,
each of which is written as a whole. The first one marks the database as being on its
way from one tip to another, the last one takes the mark away. A database that is found
with the mark holds at every outpoint what either tip has there.
-/

namespace OurChain

open List

structure CCoinsViewDB where
  coins : Finmap fun _ : COutPoint => Coin
  contStates : Finmap fun _ : Uint256 => ContState
  bestBlock : Option Uint256
  headBlocks : Option (List Uint256)

inductive BatchOp
  | writeCoin (outpoint : COutPoint) (coin : Coin)
  | eraseCoin (outpoint : COutPoint)
  | writeContState (ctid : Uint256) (cs : ContState)
  | writeBestBlock (hash : Uint256)
  | eraseBestBlock
  | writeHeadBlocks (hashes : List Uint256)
  | eraseHeadBlocks

abbrev CDBBatch := List BatchOp

namespace CCoinsViewDB

section
variable (db : CCoinsViewDB)

def getCoin (outpoint : COutPoint) : Option Coin := db.coins.lookup outpoint

def getBestBlock : Uint256 := db.bestBlock.getD 0

def getHeadBlocks : List Uint256 := db.headBlocks.getD []

def write : BatchOp → CCoinsViewDB
  | .writeCoin outpoint coin => { db with coins := db.coins.insert outpoint coin }
  | .eraseCoin outpoint => { db with coins := db.coins.erase outpoint }
  | .writeContState ctid cs => { db with contStates := db.contStates.insert ctid cs }
  | .writeBestBlock hash => { db with bestBlock := some hash }
  | .eraseBestBlock => { db with bestBlock := none }
  | .writeHeadBlocks hashes => { db with headBlocks := some hashes }
  | .eraseHeadBlocks => { db with headBlocks := none }

def writeBatch (batch : CDBBatch) : CCoinsViewDB := batch.foldl write db

end

def coinOp (it : Σ _ : COutPoint, CCoinsCacheEntry) : Option BatchOp :=
  if !it.2.dirty then none
  else if it.2.coin.isSpent then some (.eraseCoin it.1)
  else some (.writeCoin it.1 it.2.coin)

def entryOps (mapCoins : CCoinsMap) (mapContState : CContStateMap) : List (Option BatchOp) :=
  mapCoins.entries.map coinOp ++ mapContState.entries.map fun it => some (.writeContState it.1 it.2)

/-- The loops over the entries: the batch is written as soon as it is `full`, which is to
say that its size estimate exceeds the size of a batch. -/
def fillBatches (full : CDBBatch → Bool) : CDBBatch → List (Option BatchOp) → List CDBBatch × CDBBatch
  | batch, [] => ([], batch)
  | batch, op :: ops =>
    let batch := batch ++ op.toList
    if full batch then
      let (written, batch') := fillBatches full [] ops
      (batch :: written, batch')
    else fillBatches full batch ops

/-- The tip that the coins come from. While blocks are replayed there is no best block. -/
def oldTip (db : CCoinsViewDB) (hashBlock : Uint256) : Except CheckFailure Uint256 :=
  if db.getBestBlock = 0 then
    match db.getHeadBlocks with
    | [new, old] => if new = hashBlock then .ok old else .error .assertion
    | _ => .ok 0
  else .ok db.getBestBlock

def batchWrite (full : CDBBatch → Bool) (db : CCoinsViewDB) (mapCoins : CCoinsMap)
    (mapContState : CContStateMap) (hashBlock : Uint256) : Except CheckFailure (List CDBBatch) :=
  if hashBlock = 0 then .error .assertion
  else do
    let old_tip ← db.oldTip hashBlock
    let (written, batch) := fillBatches full [.eraseBestBlock, .writeHeadBlocks [hashBlock, old_tip]]
      (entryOps mapCoins mapContState)
    return written ++ [batch ++ [.eraseHeadBlocks, .writeBestBlock hashBlock]]

/-- The database as it is found after a crash behind the `k`th batch. -/
def crashAfter (db : CCoinsViewDB) (batches : List CDBBatch) (k : Nat) : CCoinsViewDB :=
  (batches.take k).foldl writeBatch db

section
variable (full : CDBBatch → Bool)

theorem fillBatches_flatten (batch : CDBBatch) (ops : List (Option BatchOp)) :
    (fillBatches full batch ops).1.flatten ++ (fillBatches full batch ops).2 =
    batch ++ ops.reduceOption := by
  induction ops generalizing batch with
  | nil => simp [fillBatches]
  | cons op ops ih =>
    have hop : batch ++ (op :: ops).reduceOption = batch ++ op.toList ++ ops.reduceOption := by
      cases op <;> simp
    rw [fillBatches, hop]
    split
    · rw [flatten_cons, append_assoc, ih, nil_append]
    · exact ih _

theorem take_fillBatches (batch : CDBBatch) (ops : List (Option BatchOp)) (hpos : 0 < k)
    (hk : k ≤ (fillBatches full batch ops).1.length) :
    ∃ l, ((fillBatches full batch ops).1.take k).flatten = batch ++ l ∧ l <+: ops.reduceOption := by
  induction ops generalizing batch with
  | nil => exact absurd (hpos.trans_le hk) (Nat.lt_irrefl 0)
  | cons op ops ih =>
    have hop : (op :: ops).reduceOption = op.toList ++ ops.reduceOption := by
      cases op <;> simp
    rw [hop]
    rw [fillBatches] at hk ⊢
    split at hk
    · rename_i hfull
      rw [if_pos hfull]
      cases k with
      | zero => cases hpos
      | succ k =>
        have hrest : ((fillBatches full [] ops).1.take k).flatten <+: ops.reduceOption := by
          have hall := fillBatches_flatten full [] ops
          rw [nil_append, ← take_append_drop k (fillBatches full [] ops).1, flatten_append,
            append_assoc] at hall
          exact ⟨_, hall⟩
        refine ⟨op.toList ++ ((fillBatches full [] ops).1.take k).flatten, ?_, ?_⟩
        · rw [take_succ_cons, flatten_cons, append_assoc]
        · exact (prefix_append_right_inj _).mpr hrest
    · rename_i hfull
      rw [if_neg hfull]
      obtain ⟨l, hl, hops⟩ := ih (batch ++ op.toList) hk
      exact ⟨op.toList ++ l, hl.trans (append_assoc ..), (prefix_append_right_inj _).mpr hops⟩

end

theorem crashAfter_eq (db : CCoinsViewDB) (batches : List CDBBatch) (k : Nat) :
    db.crashAfter batches k = db.writeBatch (batches.take k).flatten :=
  foldl_flatten.symm

end CCoinsViewDB

def BatchOp.coinWrite : BatchOp → Option (COutPoint × Option Coin)
  | .writeCoin outpoint coin => some (outpoint, some coin)
  | .eraseCoin outpoint => some (outpoint, none)
  | _ => none

def BatchOp.isEntry : BatchOp → Bool
  | .writeCoin _ _ | .eraseCoin _ | .writeContState _ _ => true
  | _ => false

namespace CCoinsViewDB

variable {db : CCoinsViewDB} {new : COutPoint → Option Coin} {ops : CDBBatch}

theorem getCoin_write (op : BatchOp) : (db.write op).getCoin =
    (op.coinWrite.map fun w => Function.update db.getCoin w.1 w.2).getD db.getCoin := by
  cases op with
  | writeCoin outpoint coin => exact Journal.lookup_insert_update db.coins outpoint coin
  | eraseCoin outpoint => exact Journal.lookup_erase_update db.coins outpoint
  | _ => rfl

theorem getCoin_writeBatch (h : ∀ op ∈ ops, ∀ w ∈ op.coinWrite, w.2 = new w.1) (o : COutPoint) :
    (db.writeBatch ops).getCoin o =
      if ∃ op ∈ ops, ∃ w ∈ op.coinWrite, w.1 = o then new o else db.getCoin o := by
  induction ops generalizing db with
  | nil => simp [writeBatch]
  | cons op ops ih =>
    obtain ⟨hop, hops⟩ := forall_mem_cons.mp h
    have hrest : (db.writeBatch (op :: ops)).getCoin o =
      ((db.write op).writeBatch ops).getCoin o := rfl
    rw [hrest, ih hops]
    simp only [exists_mem_cons_iff]
    by_cases hlater : ∃ op ∈ ops, ∃ w ∈ op.coinWrite, w.1 = o
    · rw [if_pos hlater, if_pos (.inr hlater)]
    · rw [if_neg hlater, getCoin_write]
      cases hw : op.coinWrite with
      | none => rw [if_neg (by simpa using hlater)]; rfl
      | some w =>
        have hvalue := hop w hw
        by_cases ho : w.1 = o
        · rw [if_pos (.inl ⟨w, rfl, ho⟩), Option.map_some, Option.getD_some, ho,
            Function.update_self, hvalue, ho]
        · rw [if_neg, Option.map_some, Option.getD_some, Function.update_of_ne (Ne.symm ho)]
          rintro (⟨w', hw', ho'⟩ | h)
          · cases hw'
            exact ho ho'
          · exact hlater h

variable (db) in
theorem writeBatch_marks (h : ∀ op ∈ ops, op.isEntry = true) :
    (db.writeBatch ops).bestBlock = db.bestBlock ∧
    (db.writeBatch ops).headBlocks = db.headBlocks := by
  induction ops generalizing db with
  | nil => exact ⟨rfl, rfl⟩
  | cons op ops ih =>
    obtain ⟨hop, hops⟩ := forall_mem_cons.mp h
    obtain ⟨hbest, hheads⟩ := ih (db.write op) hops
    have hfirst : (db.write op).bestBlock = db.bestBlock ∧
      (db.write op).headBlocks = db.headBlocks := by
      cases op <;> first | exact ⟨rfl, rfl⟩ | cases hop
    exact ⟨hbest.trans hfirst.1, hheads.trans hfirst.2⟩

theorem writeBatch_append (ops ops' : CDBBatch) :
    db.writeBatch (ops ++ ops') = (db.writeBatch ops).writeBatch ops' := foldl_append

/-- The dirty entries turn the coins `old` into `new`. -/
def Turns (mapCoins : CCoinsMap) (old new : COutPoint → Option Coin) : Prop :=
  ∀ outpoint, new outpoint = (((mapCoins.lookup outpoint).filter CCoinsCacheEntry.dirty).map
    fun entry => entry.coin.unspent).getD (old outpoint)

variable {mapCoins : CCoinsMap}

theorem Turns.dirty {old new : COutPoint → Option Coin} (h : Turns mapCoins old new)
    (hentry : mapCoins.lookup outpoint = some entry) (hdirty : entry.dirty = true) :
    new outpoint = entry.coin.unspent := by
  rw [h, hentry, Option.filter, hdirty]
  rfl

theorem Turns.clean {old new : COutPoint → Option Coin} (h : Turns mapCoins old new)
    (hclean : ∀ entry, mapCoins.lookup outpoint = some entry → ¬ entry.dirty = true) :
    new outpoint = old outpoint := by
  rw [h]
  cases hentry : mapCoins.lookup outpoint with
  | none => rfl
  | some entry =>
    rw [Option.filter, if_neg (hclean entry hentry)]
    rfl

/-- The database is marked, and has at every outpoint what either tip has there. -/
structure Between (db : CCoinsViewDB) (old new : COutPoint → Option Coin)
    (hashOld hashNew : Uint256) : Prop where
  best : db.bestBlock = none
  heads : db.headBlocks = some [hashNew, hashOld]
  coins : ∀ outpoint, db.getCoin outpoint = old outpoint ∨ db.getCoin outpoint = new outpoint

structure Settled (db : CCoinsViewDB) (coins : COutPoint → Option Coin) (hashBlock : Uint256) :
    Prop where
  best : db.bestBlock = some hashBlock
  heads : db.headBlocks = none
  coins : db.getCoin = coins

variable {mapContState : CContStateMap}

theorem mem_entryOps {op : BatchOp} (h : op ∈ (entryOps mapCoins mapContState).reduceOption) :
    op.isEntry = true ∧ ∀ w ∈ op.coinWrite, ∃ entry, mapCoins.lookup w.1 = some entry ∧
      entry.dirty = true ∧ entry.coin.unspent = w.2 := by
  rw [reduceOption_mem_iff] at h
  rcases mem_append.mp h with h | h
  · obtain ⟨⟨o, entry⟩, hmem, hop⟩ := List.mem_map.mp h
    have hlookup := AList.mem_lookup_iff.mpr hmem
    unfold coinOp at hop
    split at hop
    · cases hop
    · rename_i hdirty
      have hdirty : entry.dirty = true := by simpa using hdirty
      split at hop
      · rename_i hspent
        cases hop
        refine ⟨rfl, fun w hw => ?_⟩
        cases hw
        exact ⟨entry, hlookup, hdirty, if_pos hspent⟩
      · rename_i hspent
        cases hop
        refine ⟨rfl, fun w hw => ?_⟩
        cases hw
        exact ⟨entry, hlookup, hdirty, if_neg hspent⟩
  · obtain ⟨it, -, hop⟩ := List.mem_map.mp h
    cases hop
    exact ⟨rfl, fun w hw => nomatch hw⟩

theorem exists_entryOps (h : mapCoins.lookup outpoint = some entry) (hdirty : entry.dirty = true) :
    ∃ op ∈ (entryOps mapCoins mapContState).reduceOption, ∃ w ∈ op.coinWrite, w.1 = outpoint := by
  have hmem := AList.mem_lookup_iff.mp h
  have hop : ∀ op, coinOp ⟨outpoint, entry⟩ = some op →
    op ∈ (entryOps mapCoins mapContState).reduceOption := by
    intro op hop
    rw [reduceOption_mem_iff]
    exact mem_append_left _ (List.mem_map.mpr ⟨_, hmem, hop⟩)
  unfold coinOp at hop
  simp only [hdirty, Bool.not_true, Bool.false_eq_true, if_false] at hop
  split at hop
  · exact ⟨_, hop _ rfl, _, rfl, rfl⟩
  · exact ⟨_, hop _ rfl, _, rfl, rfl⟩

theorem batchWrite_ok (full : CDBBatch → Bool) {db : CCoinsViewDB} (mapCoins : CCoinsMap)
    (mapContState : CContStateMap) (hne : hashNew ≠ 0) (htip : db.oldTip hashNew = .ok hashOld) :
    ∃ batches, batchWrite full db mapCoins mapContState hashNew = .ok batches ∧
    0 < batches.length := by
  rw [batchWrite, if_neg hne, htip]
  exact ⟨_, rfl, by simp⟩

theorem Between.oldTip {db : CCoinsViewDB} {old new : COutPoint → Option Coin}
    (h : db.Between old new hashOld hashNew) : db.oldTip hashNew = .ok hashOld := by
  rw [CCoinsViewDB.oldTip, getBestBlock, h.best, getHeadBlocks, h.heads, if_pos (Option.getD_none)]
  exact if_pos rfl

theorem batchWrite_crash {full : CDBBatch → Bool} {db : CCoinsViewDB}
    {old new : COutPoint → Option Coin} (hmix : ∀ o, db.getCoin o = old o ∨ db.getCoin o = new o)
    (hturns : Turns mapCoins db.getCoin new) (htip : db.oldTip hashNew = .ok hashOld)
    (h : batchWrite full db mapCoins mapContState hashNew = .ok batches) (hk : 0 < k) :
    if k < batches.length then (db.crashAfter batches k).Between old new hashOld hashNew
    else (db.crashAfter batches k).Settled new hashNew := by
  unfold batchWrite at h
  split at h
  · cases h
  · rw [htip] at h
    cases h
    have htoward : ∀ op ∈ (entryOps mapCoins mapContState).reduceOption,
      ∀ w ∈ op.coinWrite, w.2 = new w.1 := by
      intro op hop w hw
      obtain ⟨entry, hlookup, hdirty, hcoin⟩ := (mem_entryOps hop).2 w hw
      rw [hturns.dirty hlookup hdirty, hcoin]
    rw [crashAfter_eq]
    split
    · rename_i hlt
      -- the batches written so far are among those of the loops
      rw [length_append, length_singleton] at hlt
      have hle := Nat.le_of_lt_succ hlt
      rw [take_append_of_le_length hle]
      obtain ⟨l, hflat, hl⟩ := take_fillBatches full _ _ hk hle
      rw [hflat, writeBatch_append]
      have hmem : ∀ op ∈ l, op ∈ (entryOps mapCoins mapContState).reduceOption :=
        fun op hop => hl.subset hop
      obtain ⟨hbest, hheads⟩ := writeBatch_marks
        (db.writeBatch [.eraseBestBlock, .writeHeadBlocks [hashNew, hashOld]])
        fun op hop => (mem_entryOps (hmem op hop)).1
      refine ⟨hbest, hheads, fun o => ?_⟩
      rw [getCoin_writeBatch fun op hop => htoward op (hmem op hop)]
      split
      · exact .inr rfl
      · exact hmix o
    · rename_i hge
      rw [take_of_length_le (Nat.not_lt.mp hge), flatten_append, flatten_singleton,
        ← append_assoc, fillBatches_flatten, writeBatch_append, writeBatch_append]
      refine ⟨rfl, rfl, funext fun o => ?_⟩
      have hsame : ∀ db : CCoinsViewDB,
          (db.writeBatch [.eraseHeadBlocks, .writeBestBlock hashNew]).getCoin = db.getCoin :=
          fun _ => rfl
      rw [hsame, getCoin_writeBatch htoward]
      split
      · rfl
      · rename_i hnone
        -- an outpoint that is not written has no dirty entry
        exact (hturns.clean fun entry hentry hdirty => hnone (exists_entryOps hentry hdirty)).symm

end CCoinsViewDB

end OurChain
