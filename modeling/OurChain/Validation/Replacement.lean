import OurChain.TxMempool.Entries
import OurChain.Validation.AcceptToMemoryPool

/-!
# Replacement

An accepted transaction that conflicts with entries of the pool takes their place and
that of all their descendants. What it removes does not support it, and it pays for what
it removes and for its own relay.
-/

namespace OurChain

open CTxMemPool List Relation

namespace CTxMemPool

/-- The links are exact, and so is the record of spent outpoints. -/
structure PoolOk (env : MempoolEnv) (pool : CTxMemPool) : Prop extends LinksOk env pool where
  next : ∀ o tx, pool.spender o = some tx ↔ ∃ e ∈ pool.mapTx, e.tx = tx ∧ ∃ txin ∈ tx.vin,
    txin.prevout = o

section
variable (env : MempoolEnv) (pool : CTxMemPool)

/-- The entry spends an outpoint that the transaction spends as well. -/
def Conflicts (tx : CTransaction) (x : Uint256) : Prop :=
  ∃ e ∈ pool.mapTx, e.getHash env = x ∧ ∃ txin ∈ tx.vin, ∃ txin' ∈ e.tx.vin,
    txin'.prevout = txin.prevout

def Supports (tx : CTransaction) (x : Uint256) : Prop :=
  ∃ txin ∈ tx.vin, txin.prevout.hash ∈ pool.keys env ∧
    ReflTransGen (Parent env pool) txin.prevout.hash x

/-- The entry is `c` or a descendant of it. -/
abbrev Below (c x : Uint256) : Prop :=
  ReflTransGen (fun a b => Parent env pool b a) c x

end

theorem below_iff {env : MempoolEnv} {pool : CTxMemPool} :
    Below env pool c x ↔ ReflTransGen (Parent env pool) x c :=
  reflTransGen_swap

variable {env : MempoolEnv} {pool : CTxMemPool}

theorem PoolOk.of_outpoints (hlinks : LinksOk env pool) (hspent : (pool.mapNextTx.map Prod.fst).Nodup)
    (hnext : pool.mapNextTx = pool.mapTx.flatMap fun e => e.tx.vin.map fun txin =>
    (txin.prevout, e.tx)) :
    PoolOk env pool where
  toLinksOk := hlinks
  next o tx := by
    rw [spender, Option.map_eq_some_iff]
    constructor
    · rintro ⟨pair, hfind, rfl⟩
      have hpair := Table.find_mem hfind
      rw [hnext] at hpair
      obtain ⟨e, he, hpair⟩ := mem_flatMap.mp hpair
      obtain ⟨txin, htxin, rfl⟩ := List.mem_map.mp hpair
      have hkey : (txin.prevout, e.tx).1 = o := Table.find_key hfind
      exact ⟨e, he, rfl, txin, htxin, hkey⟩
    · rintro ⟨e, he, rfl, txin, htxin, rfl⟩
      have hmem : (txin.prevout, e.tx) ∈ pool.mapNextTx := by
        rw [hnext]
        exact mem_flatMap.mpr ⟨e, he, List.mem_map_of_mem htxin⟩
      exact ⟨_, Table.find_of_mem hspent hmem, rfl⟩

theorem mem_withDescendants (h : LinksOk env pool) {entries : List Uint256}
    (hin : ∀ c ∈ entries, c ∈ pool.keys env) :
    x ∈ pool.withDescendants entries ↔ ∃ c ∈ entries, Below env pool c x := by
  have hloop : ∀ (entries stage : List Uint256), (∀ c ∈ entries, c ∈ pool.keys env) →
    DownClosed env pool stage →
      (x ∈ entries.foldl (fun stage it => pool.calculateDescendants it stage) stage ↔
        x ∈ stage ∨ ∃ c ∈ entries, Below env pool c x) := by
    intro entries
    induction entries with
    | nil => simp
    | cons c entries ih =>
      intro stage hin hstage
      obtain ⟨hc, hrest⟩ := forall_mem_cons.mp hin
      rw [foldl_cons, ih _ hrest (downClosed_calculateDescendants h hc hstage),
        mem_calculateDescendants h hc hstage, exists_mem_cons_iff, or_assoc]
  exact (hloop entries [] hin downClosed_nil).trans (or_iff_right not_mem_nil)

theorem nodup_withDescendants (entries : List Uint256) : (pool.withDescendants entries).Nodup := by
  have hloop : ∀ (entries stage : List Uint256), stage.Nodup →
      (entries.foldl (fun stage it => pool.calculateDescendants it stage) stage).Nodup := by
    intro entries
    induction entries with
    | nil => exact fun _ => id
    | cons c entries ih => exact fun stage hstage => ih _ (nodup_calculateDescendants hstage)
  exact hloop entries [] nodup_nil

theorem searchParents_eq_ok {vin : List CTxIn}
    (h : pool.searchParents env limits vin parentHashes = .ok parentHashes') :
    (parentHashes.Nodup → parentHashes'.Nodup) ∧
    ∀ p, p ∈ parentHashes' ↔ p ∈ parentHashes ∨ ∃ txin ∈ vin, txin.prevout.hash = p ∧
    p ∈ pool.keys env := by
  induction vin generalizing parentHashes with
  | nil =>
    cases h
    simp
  | cons txin vin ih =>
    rw [searchParents] at h
    by_cases hexists : pool.existsTx env txin.prevout.hash = true
    · rw [if_pos hexists] at h
      dsimp only at h
      split at h
      · cases h
      · obtain ⟨hnodup, hmem⟩ := ih h
        refine ⟨fun hn => hnodup hn.insert, fun p => ?_⟩
        have hin := existsTx_iff.mp hexists
        rw [hmem, mem_insert_iff, exists_mem_cons_iff]
        constructor
        · rintro ((rfl | hp) | hp)
          · exact .inr (.inl ⟨rfl, hin⟩)
          · exact .inl hp
          · exact .inr (.inr hp)
        · rintro (hp | ⟨rfl, -⟩ | hp)
          · exact .inl (.inr hp)
          · exact .inl (.inl rfl)
          · exact .inr hp
    · rw [if_neg hexists] at h
      obtain ⟨hnodup, hmem⟩ := ih h
      refine ⟨hnodup, fun p => ?_⟩
      rw [hmem, exists_mem_cons_iff]
      rw [existsTx_iff] at hexists
      constructor
      · rintro (hp | hp)
        · exact .inl hp
        · exact .inr (.inr hp)
      · rintro (hp | ⟨rfl, hin⟩ | hp)
        · exact .inl hp
        · exact absurd hin hexists
        · exact .inr hp

theorem mem_ancestors_of_search (h : LinksOk env pool) {entry : CTxMemPoolEntry}
    (hresult : pool.calculateMemPoolAncestors env entry limits true = (none, setAncestors)) :
    x ∈ setAncestors ↔ Supports env pool entry.tx x := by
  rw [calculateMemPoolAncestors, if_pos rfl] at hresult
  cases hparents : pool.searchParents env limits entry.tx.vin [] with
  | error errString =>
    rw [hparents] at hresult
    cases hresult
  | ok parentHashes =>
    rw [hparents] at hresult
    dsimp only at hresult
    obtain ⟨hnodup, hmem⟩ := searchParents_eq_ok hparents
    have hloop := mem_ancestorLoop (y := x) h (hnodup nodup_nil)
      (fun a ha => by
        rcases (hmem a).mp ha with ha | ⟨txin, -, -, hin⟩
        · cases ha
        · exact hin)
      (congrArg Prod.fst hresult)
    rw [hresult] at hloop
    refine hloop.trans ?_
    constructor
    · rintro ⟨p, hp, hpx⟩
      rcases (hmem p).mp hp with hp | ⟨txin, htxin, rfl, hin⟩
      · cases hp
      · exact ⟨txin, htxin, hin, hpx⟩
    · rintro ⟨txin, htxin, hin, hpx⟩
      exact ⟨_, (hmem _).mpr (.inr ⟨txin, htxin, rfl, hin⟩), hpx⟩

end CTxMemPool

section
variable {env : AcceptEnv} {chain : ChainCoinsTip} {pool : CTxMemPool} {tx : CTransaction}
    {args : AcceptArgs}

theorem checkLoose_fresh (h : checkLoose env chain pool tx = .ok ()) :
    tx.getHash env.H ∉ pool.keys env.mempool := by
  simp only [checkLoose, bind_ok_iff] at h
  obtain ⟨-, -, -, -, -, -, -, -, -, -, hexists⟩ := h
  rw [← existsTx_iff, rejectIf_eq_ok.mp hexists]
  exact Bool.false_ne_true

theorem makeEntry_ok (h : makeEntry env chain pool tx nAcceptTime = .ok entry) :
    entry.tx = tx ∧ entry.feeDelta = 0 := by
  simp only [makeEntry, bind_ok_iff] at h
  obtain ⟨-, -, -, -, -, -, nSigOpsCost, -, nValueOut, -, hentry⟩ := h
  cases hentry
  exact ⟨rfl, rfl⟩

theorem acceptToMemoryPoolWorker_ok (h : acceptToMemoryPoolWorker env chain pool tx args = .ok r) :
    ∃ setConflicts entry setAncestors, tx.getHash env.H ∉ pool.keys env.mempool ∧
      entry.tx = tx ∧ entry.feeDelta = 0 ∧
      tx.vin.foldlM (addConflict env pool) [] = .ok setConflicts ∧
      findAncestors env pool tx entry setConflicts = .ok setAncestors ∧
      checkReplacement env pool tx setConflicts (pool.applyDelta (tx.getHash env.H) entry.nFee)
        (entry.getTxSize env.mempool) = .ok r.allConflicting ∧
      r.removed = pool.removeStaged env.mempool r.allConflicting false ∧
      r.inserted = r.removed.addUnchecked env.mempool (tx.getHash env.H) entry setAncestors := by
  simp only [acceptToMemoryPoolWorker, bind_ok_iff] at h
  obtain ⟨_, hloose, setConflicts, hconflicts, entry, hentry, _, -, setAncestors, hancestors,
    allConflicting, hreplaced, -, -, -, -, hr⟩ := h
  obtain ⟨htx, hdelta⟩ := makeEntry_ok hentry
  cases hr
  exact ⟨setConflicts, entry, setAncestors, checkLoose_fresh hloose, htx, hdelta, hconflicts,
    hancestors, hreplaced, rfl, rfl⟩

theorem addConflict_ok (h : addConflict env pool s txin = .ok s') :
    ∀ x, x ∈ s' ↔ x ∈ s ∨ ∃ t, pool.spender txin.prevout = some t ∧ t.getHash env.H = x := by
  intro x
  rw [addConflict] at h
  cases hspender : pool.spender txin.prevout with
  | none =>
    rw [hspender] at h
    cases h
    simp
  | some t =>
    simp only [hspender] at h
    by_cases hin : t.getHash env.H ∈ s
    · rw [if_pos hin] at h
      cases h
      simp only [Option.some.injEq, exists_eq_left']
      exact ⟨.inl, fun hx => hx.elim id fun heq => heq ▸ hin⟩
    · rw [if_neg hin] at h
      split at h
      · cases h
        rw [mem_insert_iff]
        simp only [Option.some.injEq, exists_eq_left']
        exact ⟨fun hx => hx.elim (fun heq => .inr heq.symm) .inl, fun hx => hx.elim .inr fun heq =>
          .inl heq.symm⟩
      · cases h

theorem foldlM_addConflict {vin : List CTxIn} (h : vin.foldlM (addConflict env pool) s = .ok s') :
    ∀ x, x ∈ s' ↔ x ∈ s ∨ ∃ txin ∈ vin, ∃ t, pool.spender txin.prevout = some t ∧
    t.getHash env.H = x := by
  induction vin generalizing s with
  | nil =>
    cases h
    simp
  | cons txin vin ih =>
    rw [foldlM_cons] at h
    obtain ⟨s₁, hfirst, hrest⟩ := bind_ok_iff.mp h
    intro x
    rw [ih hrest x, addConflict_ok hfirst x, exists_mem_cons_iff, or_assoc]

theorem getHash_mempool (env : AcceptEnv) (e : CTxMemPoolEntry) :
    e.getHash env.mempool = e.tx.getHash env.H := by
  rw [CTxMemPoolEntry.getHash, AcceptEnv.mempool]

theorem mem_setConflicts (hok : CTxMemPool.PoolOk env.mempool pool)
    (h : tx.vin.foldlM (addConflict env pool) [] = .ok setConflicts) :
    x ∈ setConflicts ↔ CTxMemPool.Conflicts env.mempool pool tx x := by
  rw [foldlM_addConflict h x, or_iff_right not_mem_nil]
  constructor
  · rintro ⟨txin, htxin, t, hspender, rfl⟩
    obtain ⟨e, he, rfl, txin', htxin', heq⟩ := (hok.next _ _).mp hspender
    exact ⟨e, he, getHash_mempool env e, txin, htxin, txin', htxin', heq⟩
  · rintro ⟨e, he, rfl, txin, htxin, txin', htxin', heq⟩
    exact ⟨txin, htxin, e.tx, (hok.next _ _).mpr ⟨e, he, rfl, txin', htxin', heq⟩,
      (getHash_mempool env e).symm⟩

theorem visitConflict_ok (h : visitConflict env pool tx newFeeRate vars c = .ok vars') :
    (∀ x, x ∈ vars'.setIterConflicting ↔ x ∈ vars.setIterConflicting ∨ x = c ∧
    x ∈ pool.keys env.mempool) ∧ ∀ mi, pool.find env.mempool c = some mi →
      (CFeeRate.ofFee mi.getModifiedFee (mi.getTxSize env.mempool)).nSatoshisPerK <
      newFeeRate.nSatoshisPerK := by
  rw [visitConflict] at h
  cases hfind : pool.find env.mempool c with
  | none =>
    rw [hfind] at h
    cases h
    refine ⟨fun x => ⟨.inl, fun hx => hx.elim id ?_⟩, fun mi hmi =>
      absurd hmi (Option.some_ne_none mi).symm⟩
    rintro ⟨rfl, hin⟩
    rw [← existsTx_iff, CTxMemPool.existsTx, hfind] at hin
    cases hin
  | some mi =>
    simp only [hfind] at h
    split at h
    · cases h
    · rename_i hrate
      cases h
      refine ⟨fun x => ?_, ?_⟩
      · have hin : c ∈ pool.keys env.mempool := by
          rw [← existsTx_iff, CTxMemPool.existsTx, hfind]
          rfl
        rw [mem_insert_iff]
        constructor
        · rintro (rfl | hx)
          · exact .inr ⟨rfl, hin⟩
          · exact .inl hx
        · rintro (hx | ⟨rfl, -⟩)
          · exact .inr hx
          · exact .inl rfl
      · intro mi' hmi'
        rw [← Option.some.inj hmi']
        exact not_le.mp hrate

theorem foldlM_visitConflict {setConflicts : List Uint256}
    (h : setConflicts.foldlM (visitConflict env pool tx newFeeRate) vars = .ok vars') :
    (∀ x, x ∈ vars'.setIterConflicting ↔
      x ∈ vars.setIterConflicting ∨ x ∈ setConflicts ∧ x ∈ pool.keys env.mempool) ∧
    ∀ c ∈ setConflicts, ∀ mi, pool.find env.mempool c = some mi →
      (CFeeRate.ofFee mi.getModifiedFee (mi.getTxSize env.mempool)).nSatoshisPerK <
      newFeeRate.nSatoshisPerK := by
  induction setConflicts generalizing vars with
  | nil =>
    cases h
    simp
  | cons c setConflicts ih =>
    rw [foldlM_cons] at h
    obtain ⟨vars₁, hfirst, hrest⟩ := bind_ok_iff.mp h
    obtain ⟨hmem, hrate⟩ := visitConflict_ok hfirst
    obtain ⟨hmem', hrate'⟩ := ih hrest
    refine ⟨fun x => ?_, forall_mem_cons.mpr ⟨hrate, hrate'⟩⟩
    rw [hmem', hmem, mem_cons, or_and_right, or_assoc]

theorem checkReplacement_ok (hok : CTxMemPool.LinksOk env.mempool pool)
    (h : checkReplacement env pool tx setConflicts nModifiedFees nSize = .ok allConflicting)
    (hne : setConflicts ≠ []) (hin : ∀ c ∈ setConflicts, c ∈ pool.keys env.mempool) :
    allConflicting.Nodup ∧
    (∀ x, x ∈ allConflicting ↔ ∃ c ∈ setConflicts, CTxMemPool.Below env.mempool pool c x) ∧
    ((allConflicting.map (pool.deref env.mempool (·.getModifiedFee))).sum < 2 ^ 63 →
      (allConflicting.map (pool.deref env.mempool (·.getModifiedFee))).sum +
      env.incrementalRelayFee.getFee nSize ≤
        nModifiedFees) ∧
    ∀ c ∈ setConflicts, ∀ mi, pool.find env.mempool c = some mi →
      (CFeeRate.ofFee mi.getModifiedFee (mi.getTxSize env.mempool)).nSatoshisPerK <
        (CFeeRate.ofFee nModifiedFees nSize).nSatoshisPerK := by
  rw [checkReplacement, if_neg hne] at h
  simp only [bind_ok_iff] at h
  obtain ⟨vars, hvars, -, -, -, -, _, hfees, _, hdelta, hresult⟩ := h
  cases hresult
  obtain ⟨hmem, hrate⟩ := foldlM_visitConflict hvars
  have hiter : ∀ x, x ∈ vars.setIterConflicting ↔ x ∈ setConflicts := by
    intro x
    rw [hmem, or_iff_right not_mem_nil]
    exact and_iff_left_of_imp (hin x)
  refine ⟨nodup_withDescendants _, fun x => ?_, fun hrange => ?_, hrate⟩
  · rw [mem_withDescendants hok fun c hc => hin c ((hiter c).mp hc)]
    simp only [hiter]
  · -- The sum that the code has is not below the exact one, nor is the difference above.
    have hfees := rejectIf_eq_ok.mp hfees
    have hdelta := rejectIf_eq_ok.mp hdelta
    rw [decide_eq_false_iff_not, not_lt] at hfees hdelta
    have hsum := le_int64 hrange
    have hdifference := int64_le (by omega : -2 ^ 63 ≤ nModifiedFees - int64
      ((pool.withDescendants vars.setIterConflicting).map
      (pool.deref env.mempool (·.getModifiedFee))).sum)
    omega

theorem findAncestors_ok (hok : CTxMemPool.LinksOk env.mempool pool) (htx : entry.tx = tx)
    (h : findAncestors env pool tx entry setConflicts = .ok setAncestors) :
    ∀ x, CTxMemPool.Supports env.mempool pool tx x → x ∉ setConflicts := by
  rw [findAncestors] at h
  split at h
  · cases h
  · rename_i found hfound
    split at h
    · cases h
    · rename_i hnone
      intro x hx hconflict
      rw [← htx, ← mem_ancestors_of_search hok hfound] at hx
      simpa [hconflict] using find?_eq_none.mp hnone x hx

theorem mem_inserted {env : MempoolEnv} {entry : CTxMemPoolEntry} (hdelta : entry.feeDelta = 0)
    (hnew : entry.getHash env ∉ pool.keys env) {stage : List Uint256} (core : CTxMemPoolEntry) :
    core ∈ ((pool.removeStaged env stage false).addUnchecked env
    (entry.getHash env) entry setAncestors).cores ↔
      core ∈ pool.cores ∧ core.getHash env ∉ stage ∨
      core = { entry.core with feeDelta := (pool.mapDeltas (entry.getHash env)).getD 0 } := by
  have hnew' : entry.getHash env ∉ (pool.removeStaged env stage false).keys env :=
    fun hin => hnew ((mem_keys_removeStaged stage false).mp hin).1
  rw [cores_addUnchecked entry setAncestors hnew' hdelta, cores_removeStaged,
    mapDeltas_removeStaged, mem_append, mem_filter, mem_singleton, decide_eq_true_eq]

theorem CTxMemPool.PoolOk.spends_once {env : MempoolEnv} (hok : CTxMemPool.PoolOk env pool)
    (he : e ∈ pool.mapTx) (he' : e' ∈ pool.mapTx) (htxin : txin ∈ e.tx.vin)
    (htxin' : txin' ∈ e'.tx.vin) (heq : txin.prevout = txin'.prevout) : e.tx = e'.tx := by
  have hspender := (hok.next txin.prevout e.tx).mpr ⟨e, he, rfl, txin, htxin, rfl⟩
  have hspender' := (hok.next txin.prevout e'.tx).mpr ⟨e', he', rfl, txin', htxin', heq.symm⟩
  exact Option.some.inj (hspender.symm.trans hspender')

end

def lockTimeHash (bytes : Bytes) : Uint256 := BitVec.ofNat 256 (bytes.reverse.getD 3 0).toNat

def poolEnv : AcceptEnv where
  consensus := regTestParams
  hashGenesisBlock := 0
  mapCheckpoints := []
  fCheckpointsEnabled := false
  BIP34Hash := 0
  nSubsidyHalvingInterval := 150
  H := lockTimeHash
  isActive _ _ := false
  fScriptChecks _ := true
  nScriptCheckThreads := 0
  verifyScript _ _ _ _ := none
  nBytesPerSigOp := 20
  fPrematureWitness := false
  fRequireStandard := false
  fEnableReplacement := true
  isStandardTx _ _ := none
  areInputsStandard _ _ := true
  isWitnessStandard _ _ := true
  minRelayTxFee := ⟨1000⟩
  incrementalRelayFee := ⟨1000⟩
  limits := ⟨25, 101000, 25, 101000⟩
  scriptVerifyFlags := STANDARD_SCRIPT_VERIFY_FLAGS
  getMinFee _ := ⟨0⟩
  maxmempool := 300000000
  expiryTime := 0
  firstToEvict _ := none
  dynamicMemoryUsage _ := 0

def spendOne (nLockTime nSequence : BitVec 32) (hash : Uint256) (nValue : BitVec 64) :
    CTransaction where
  nVersion := 1
  contract := ⟨ACTION_NONE, [], 0, []⟩
  vin := [⟨⟨hash, 0⟩, [], nSequence, []⟩]
  vout := [⟨nValue, []⟩]
  nLockTime

def coinSeven : ChainCoinsTip where
  tip := .root unminedHeader
  pcoinsTip := ⟨(∅ : Finmap fun _ : COutPoint => Coin).insert ⟨7, 0⟩ ⟨⟨100000, []⟩, false, 0⟩, 0⟩
  haveCoinInCache _ := true

def oneEntry (tx : CTransaction) (nFee : Int) : CTxMemPoolEntry :=
  .new poolEnv.mempool tx nFee 0 0 false 0 ⟨0, 0, none⟩

def chainLinks : List (Uint256 × TxLinks) := [(1, ⟨[], [2]⟩), (2, ⟨[1], [3]⟩), (3, ⟨[2], []⟩)]

/-- Each transaction spends from the one before it, and the last two are prioritised. -/
def chainPool (delta : Int) : CTxMemPool where
  mapTx := [
    (oneEntry (spendOne 1 0xffffffff 7 99000) 1000).updateDescendantState 190 (20000 + 2 * delta) 2,
    (((oneEntry (spendOne 2 0 1 89000) 10000).updateFeeDelta delta).updateDescendantState
      95 (10000 + delta) 1).updateAncestorState 95 1000 1 0,
    ((oneEntry (spendOne 3 0xffffffff 2 79000) 10000).updateFeeDelta delta).updateAncestorState
      190 (11000 + delta) 2 0]
  mapLinks := CTxMemPool.linksOf chainLinks
  mapNextTx := [(⟨7, 0⟩, spendOne 1 0xffffffff 7 99000), (⟨1, 0⟩, spendOne 2 0 1 89000),
    (⟨2, 0⟩, spendOne 3 0xffffffff 2 79000)]
  mapDeltas x := if x = 2 ∨ x = 3 then some delta else none

theorem chainPool_ok {delta : Int} (hkeys : ((chainPool delta).keys poolEnv.mempool).Nodup)
    (hlinks : chainLinks = (chainPool delta).spendingLinks poolEnv.mempool) :
    CTxMemPool.PoolOk poolEnv.mempool (chainPool delta) :=
  .of_outpoints (.of_table hkeys (congrArg CTxMemPool.linksOf hlinks))
    (by decide : ((chainPool 0).mapNextTx.map Prod.fst).Nodup) rfl

theorem exists_of_isOk {x : Except AcceptFailure AcceptResult} {f : AcceptResult → α}
    (h : x.toOption.map f = some a) : ∃ r, x = .ok r ∧ f r = a := by
  cases x with
  | error failure => cases h
  | ok r => exact ⟨r, rfl, Option.some.inj h⟩

end OurChain
