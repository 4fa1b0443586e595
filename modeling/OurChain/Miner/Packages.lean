import OurChain.Miner.Modified

/-!
# Packages

What adding a package does: the block stays a list of distinct transactions, parents first and
within the limits, and the modified set keeps up with what is left of each package.
-/

namespace OurChain

open CTxMemPool List Option Relation

namespace BlockAssembler

section
variable (env : AssemblerEnv) (pool : CTxMemPool)

abbrev ancestorCount (a : Uint256) : Int :=
  pool.deref env.toMempoolEnv (·.nCountWithAncestors) a

noncomputable abbrev ancestors (x : Uint256) : Finset Uint256 :=
  Ancestry.above (Spends env pool) (keys env pool).toFinset x

/-- What the pool records of the ancestors of each entry is right. No transaction spends from itself
through others, since its hash depends on the hashes it names. -/
structure AncestorsExact : Prop where
  links : pool.LinksOk env.toMempoolEnv
  acyclic : ∀ x, ¬ TransGen (Spends env pool) x x
  count : ∀ x ∈ keys env pool, ancestorCount env pool x =
    (ancestors env pool x).card
  size : ∀ x ∈ keys env pool, (modifiedEntry env pool x).nSizeWithAncestors =
    ∑ a ∈ ancestors env pool x, txSize env pool a
  modFees : ∀ x ∈ keys env pool, (modifiedEntry env pool x).nModFeesWithAncestors = int64
    (∑ a ∈ ancestors env pool x, modFee env pool a)
  sigOpCost : ∀ x ∈ keys env pool, (modifiedEntry env pool x).nSigOpCostWithAncestors =
    ∑ a ∈ ancestors env pool x, sigOps env pool a

noncomputable abbrev unconfirmed (inBlock : List Uint256) (x : Uint256) :
    Finset Uint256 :=
  Ancestry.rest (Spends env pool) (keys env pool).toFinset inBlock x

def recordedSums (e : CTxMemPoolEntry) : Int × Int × Int × Int × Bool :=
  (e.nCountWithAncestors, e.nSizeWithAncestors, e.nModFeesWithAncestors,
    e.nSigOpCostWithAncestors, false)

/-- The sums over what the walk from an entry finds, and whether it comes back to the entry. -/
def walkedSums (e : CTxMemPoolEntry) : Int × Int × Int × Int × Bool :=
  let P := packageOf env pool (resetBlock []) (e.getHash env.toMempoolEnv)
  (P.length, (P.map (txSize env pool)).sum, int64 (P.map (modFee env pool)).sum,
    (P.map (sigOps env pool)).sum, decide (e.getHash env.toMempoolEnv ∈
    (pool.calculateMemPoolAncestors env.toMempoolEnv e CTxMemPool.noLimits false).2))

def entriesOf (l : List Uint256) : List CTxMemPoolEntry :=
  l.filterMap (pool.find env.toMempoolEnv)

def eraseAll (its : List Uint256) (map : ModifiedSet) : ModifiedSet :=
  its.foldl (fun map it => Table.erase CTxMemPoolModifiedEntry.iter it map) map

def withAdded (s : PackageState) (its : List Uint256) : PackageState :=
  { s with
    inBlock := s.inBlock ++ its
    vtx := s.vtx ++ (entriesOf env pool its).map (·.tx)
    vTxFees := s.vTxFees ++ (entriesOf env pool its).map (·.nFee)
    vTxSigOpsCost := s.vTxSigOpsCost ++ (entriesOf env pool its).map (·.sigOpCost)
    nBlockSize := if fNeedSizeAccounting env then
        s.nBlockSize + ((entriesOf env pool its).map fun e =>
          (serializeTransaction true e.tx).length).sum
      else s.nBlockSize
    nBlockWeight := s.nBlockWeight + ((entriesOf env pool its).map (·.getTxWeight)).sum
    nBlockSigOpsCost := s.nBlockSigOpsCost + ((entriesOf env pool its).map (·.sigOpCost)).sum
    nBlockTx := s.nBlockTx + its.length
    nFees := (entriesOf env pool its).foldl (fun nFees e => int64 (nFees + e.nFee)) s.nFees
    mapModifiedTx := eraseAll its s.mapModifiedTx }

def ParentsFirst (l : List Uint256) : Prop :=
  ∀ l₁ x l₂, l = l₁ ++ x :: l₂ → ∀ p, Spends env pool x p → p ∈ l₁

/-- The block is made of distinct transactions of the pool after their parents, its totals are those
of its transactions and the reserve for the coinbase, and it is within the limits. -/
structure BlockOk (s : PackageState) : Prop where
  nodup : s.inBlock.Nodup
  inPool : ∀ x ∈ s.inBlock, x ∈ keys env pool
  parentsFirst : ParentsFirst env pool s.inBlock
  vtx : s.vtx = (entriesOf env pool s.inBlock).map (·.tx)
  vTxFees : s.vTxFees = (entriesOf env pool s.inBlock).map (·.nFee)
  vTxSigOpsCost : s.vTxSigOpsCost = (entriesOf env pool s.inBlock).map (·.sigOpCost)
  nBlockTx : s.nBlockTx = s.inBlock.length
  weight : s.nBlockWeight = 4000 + ((entriesOf env pool s.inBlock).map (·.getTxWeight)).sum
  sigOps : s.nBlockSigOpsCost = 400 + ((entriesOf env pool s.inBlock).map (·.sigOpCost)).sum
  fees : s.nFees = int64 ((entriesOf env pool s.inBlock).map (·.nFee)).sum
  weightLimit : s.inBlock = [] ∨ s.nBlockWeight < nBlockMaxWeight env
  sigOpsLimit : s.nBlockSigOpsCost < MAX_BLOCK_SIGOPS_COST

/-- The modified set is made of transactions of the pool that are not in the block, with sums that
are at least those of what is left of their ancestors. What is not in it nor has failed has no
ancestor in the block. -/
structure ModifiedOk (s : PackageState) : Prop where
  nodup : (iters s.mapModifiedTx).Nodup
  inPool : ∀ d m, modified s.mapModifiedTx d = some m → d ∈ keys env pool ∧ d ∉ s.inBlock
  size : ∀ d m, modified s.mapModifiedTx d = some m →
    ∑ a ∈ unconfirmed env pool s.inBlock d, txSize env pool a ≤ m.nSizeWithAncestors
  sigOps : ∀ d m, modified s.mapModifiedTx d = some m →
    ∑ a ∈ unconfirmed env pool s.inBlock d, BlockAssembler.sigOps env pool a ≤
    m.nSigOpCostWithAncestors
  untouched : ∀ d ∈ keys env pool, d ∉ s.inBlock → modified s.mapModifiedTx d = none →
    d ∉ s.failedTx → ∀ a ∈ s.inBlock, ¬ Above env pool d a

structure NewPackage (s : PackageState) (P : List Uint256) : Prop where
  nodup : P.Nodup
  inPool : ∀ a ∈ P, a ∈ keys env pool
  notInBlock : ∀ a ∈ P, a ∉ s.inBlock

/-- Each entry of the modified set has in `f` the sum of `w` over what is left of its ancestors. -/
def Exact (wrap : Int → Int) (f : CTxMemPoolModifiedEntry → Int)
    (w : Uint256 → Int) (s : PackageState) : Prop :=
  ∀ m ∈ s.mapModifiedTx, f m = wrap (∑ a ∈ unconfirmed env pool s.inBlock m.iter, w a)

def SizesExact (s : PackageState) : Prop :=
  Exact env pool id (·.nSizeWithAncestors) (txSize env pool) s ∧
  Exact env pool id (·.nSigOpCostWithAncestors) (sigOps env pool) s

def FeesExact (s : PackageState) : Prop :=
  Exact env pool int64 (·.nModFeesWithAncestors) (modFee env pool) s

/-- Of the transactions outside the package that depend on it, none has failed before. -/
def FreshPackage (s : PackageState) (P : List Uint256) : Prop :=
  ∀ it ∈ P, ∀ d ∉ P, Above env pool d it → d ∉ s.failedTx

/-- In addition, a prioritised member of the package is for each of them the first to be
visited, of those not in the modified set. -/
def CleanPackage (s : PackageState) (P : List Uint256) : Prop :=
  FreshPackage env pool s P ∧ ∀ it ∈ P, ∀ d ∉ P, Above env pool d it →
    feeDelta env pool it = 0 ∨ modified s.mapModifiedTx d = none ∧
      ∀ a ∈ P, Above env pool d a → a ≠ it → compareIteratorByHash it a = true

end

variable {env : AssemblerEnv} {pool : CTxMemPool} {iter : Uint256}

theorem not_compareIteratorByHash {a b : Uint256} :
    (!compareIteratorByHash b a) = true ↔ leBytes 32 a.toNat ≤ leBytes 32 b.toNat := by
  simp [compareIteratorByHash]

instance : Std.Total fun a b : Uint256 => (!compareIteratorByHash b a) = true where
  total a b := by
    simp only [not_compareIteratorByHash]
    exact List.le_total _ _

instance : IsTrans Uint256 fun a b : Uint256 => (!compareIteratorByHash b a) = true where
  trans a b c := by
    simp only [not_compareIteratorByHash]
    exact List.le_trans

theorem pairwise_inHashOrder (P : List Uint256) :
    (inHashOrder P).Pairwise fun a b => (!compareIteratorByHash b a) = true :=
  pairwise_insertionSort _ P

theorem not_compareTxIterByAncestorCount {a b : Uint256} :
    (!compareTxIterByAncestorCount env pool b a) = true ↔
      ancestorCount env pool a < ancestorCount env pool b ∨
      ancestorCount env pool a = ancestorCount env pool b ∧
      leBytes 32 a.toNat ≤ leBytes 32 b.toNat := by
  unfold compareTxIterByAncestorCount
  rw [← not_compareIteratorByHash]
  dsimp only
  split
  · simp only [Bool.not_eq_true', decide_eq_false_iff_not, ancestorCount]
    omega
  · rename_i heq
    have heq : ancestorCount env pool b = ancestorCount env pool a := not_not.mp heq
    simp [heq]

instance : Std.Total fun a b : Uint256 => (!compareTxIterByAncestorCount env pool b a) = true where
  total a b := by
    simp only [not_compareTxIterByAncestorCount]
    have hbytes := List.le_total (leBytes 32 a.toNat) (leBytes 32 b.toNat)
    rcases lt_trichotomy (ancestorCount env pool a) (ancestorCount env pool b) with h | h | h
    · exact .inl (.inl h)
    · exact hbytes.imp (fun hle => .inr ⟨h, hle⟩) (fun hle => .inr ⟨h.symm, hle⟩)
    · exact .inr (.inl h)

instance : IsTrans Uint256 fun a b : Uint256 =>
    (!compareTxIterByAncestorCount env pool b a) = true where
  trans a b c := by
    simp only [not_compareTxIterByAncestorCount]
    rintro (hab | ⟨hab, hle⟩) (hbc | ⟨hbc, hle'⟩)
    · exact .inl (hab.trans hbc)
    · exact .inl (hbc ▸ hab)
    · exact .inl (hab ▸ hbc)
    · exact .inr ⟨hab.trans hbc, List.le_trans hle hle'⟩

theorem perm_sortForBlock (P : List Uint256) : (sortForBlock env pool P).Perm P :=
  perm_insertionSort _ P

theorem mem_sortForBlock : a ∈ sortForBlock env pool P ↔ a ∈ P := (perm_sortForBlock P).mem_iff

theorem pairwise_sortForBlock (P : List Uint256) :
    (sortForBlock env pool P).Pairwise fun a b =>
      ancestorCount env pool a ≤ ancestorCount env pool b := by
  refine (pairwise_insertionSort
    (fun a b => (!compareTxIterByAncestorCount env pool b a) = true) P).imp ?_
  intro a b hab
  rcases not_compareTxIterByAncestorCount.mp hab with hlt | ⟨heq, -⟩
  · exact hlt.le
  · exact heq.le

theorem find_of_mem_keys (hx : x ∈ keys env pool) :
    ∃ e, pool.find env.toMempoolEnv x = some e ∧ e.getHash env.toMempoolEnv = x := by
  have hsome := existsTx_iff.mpr hx
  rw [CTxMemPool.existsTx, isSome_iff_exists] at hsome
  obtain ⟨e, he⟩ := hsome
  exact ⟨e, he, (find_eq_some he).2⟩

theorem mem_keys_of_above (hx : x ∈ keys env pool)
    (h : Above env pool x a) : a ∈ keys env pool := by
  induction h with
  | refl => exact hx
  | tail _ hstep _ => exact hstep.mem_parent

theorem mem_packageOf (hlinks : pool.LinksOk env.toMempoolEnv) (s : PackageState)
    (hx : x ∈ keys env pool) (hnew : x ∉ s.inBlock) :
    a ∈ packageOf env pool s x ↔ a ∈ unconfirmed env pool s.inBlock x := by
  obtain ⟨e, he, hhash⟩ := find_of_mem_keys hx
  rw [packageOf, he, mem_insert_iff, mem_filter, mem_ancestors_of_entry hlinks, hhash,
    decide_eq_true_eq, Ancestry.mem_rest, List.mem_toFinset]
  constructor
  · rintro (rfl | ⟨ha, hB⟩)
    · exact ⟨⟨hx, .refl⟩, hnew⟩
    · exact ⟨⟨mem_keys_of_above hx ha.to_reflTransGen, ha.to_reflTransGen⟩, hB⟩
  · rintro ⟨⟨-, ha⟩, hB⟩
    rcases reflTransGen_iff_eq_or_transGen.mp ha with heq | ha
    · exact .inl heq
    · exact .inr ⟨ha, hB⟩

theorem nodup_packageOf (s : PackageState) (x : Uint256) : (packageOf env pool s x).Nodup := by
  unfold packageOf
  split
  · exact nodup_singleton x
  · rename_i e _
    have hloop := nodup_ancestorLoop (@ancestorLoop_noLimits env.toMempoolEnv pool
      (e.getTxSize env.toMempoolEnv) pool.mapTx.length
      (pool.getMemPoolParents (e.getHash env.toMempoolEnv)) [] (e.getTxSize env.toMempoolEnv))
    exact (hloop.filter _).insert

theorem sum_packageOf (hlinks : pool.LinksOk env.toMempoolEnv) (s : PackageState)
    (hx : x ∈ keys env pool) (hnew : x ∉ s.inBlock) (w : Uint256 → Int) :
    ∑ a ∈ unconfirmed env pool s.inBlock x, w a = ((packageOf env pool s x).map w).sum :=
  (Ancestry.sum_map_eq_sum_rest w (nodup_packageOf s x) fun _ => mem_packageOf hlinks s hx hnew).symm

theorem AncestorsExact.of_walks (hlinks : pool.LinksOk env.toMempoolEnv)
    (h : pool.mapTx.map recordedSums = pool.mapTx.map (walkedSums env pool)) :
    AncestorsExact env pool := by
  have hentry : ∀ x ∈ keys env pool, ∃ e, pool.find env.toMempoolEnv x = some e ∧
      e.getHash env.toMempoolEnv = x ∧ recordedSums e = walkedSums env pool e := by
    intro x hx
    obtain ⟨e, he, hhash⟩ := find_of_mem_keys hx
    exact ⟨e, he, hhash, map_inj_left.mp h e (find_eq_some he).1⟩
  have hsum : ∀ x ∈ keys env pool, ∀ w : Uint256 → Int,
      ∑ a ∈ ancestors env pool x, w a =
        ((packageOf env pool (resetBlock []) x).map w).sum := by
    intro x hx w
    rw [← sum_packageOf hlinks (resetBlock []) hx not_mem_nil]
    exact Finset.sum_congr (Ancestry.rest_eq_above nofun).symm fun _ _ => rfl
  refine ⟨hlinks, fun x hx => ?_, fun x hx => ?_, fun x hx => ?_, fun x hx => ?_, fun x hx => ?_⟩
  · obtain ⟨p, hp, -⟩ := TransGen.head'_iff.mp hx
    obtain ⟨e, -, rfl, hsums⟩ := hentry x hp.mem
    simp only [recordedSums, walkedSums, Prod.mk.injEq] at hsums
    exact of_decide_eq_false hsums.2.2.2.2.symm ((mem_ancestors_of_entry hlinks e).mpr hx)
  all_goals
    obtain ⟨e, he, rfl, hsums⟩ := hentry x hx
    simp only [recordedSums, walkedSums, Prod.mk.injEq] at hsums
  · have hcard := hsum _ hx fun _ => 1
    rw [Finset.sum_const, nsmul_one, map_const', sum_replicate, nsmul_one] at hcard
    simp only [ancestorCount, CTxMemPool.deref, he, map_some, getD_some, hsums.1, hcard]
  · simp only [hsum _ hx, modifiedEntry, CTxMemPool.deref, he, map_some, getD_some, hsums.2.1]
    rfl
  · simp only [hsum _ hx, modifiedEntry, CTxMemPool.deref, he, map_some, getD_some, hsums.2.2.1]
    rfl
  · simp only [hsum _ hx, modifiedEntry, CTxMemPool.deref, he, map_some, getD_some, hsums.2.2.2.1]
    rfl

theorem getTxWeight_le (e : CTxMemPoolEntry) :
    e.getTxWeight ≤ WITNESS_SCALE_FACTOR * e.getTxSize env.toMempoolEnv := by
  unfold CTxMemPoolEntry.getTxSize getVirtualTransactionSize WITNESS_SCALE_FACTOR
  omega

theorem sum_entriesOf (f : CTxMemPoolEntry → Int) {l : List Uint256}
    (hl : ∀ a ∈ l, a ∈ keys env pool) :
    ((entriesOf env pool l).map f).sum = (l.map (pool.deref env.toMempoolEnv f)).sum := by
  induction l with
  | nil => rfl
  | cons a l ih =>
    obtain ⟨ha, hl⟩ := forall_mem_cons.mp hl
    obtain ⟨e, he, -⟩ := find_of_mem_keys ha
    have ih := ih hl
    simp only [entriesOf, filterMap_cons, he, map_cons, sum_cons, CTxMemPool.deref, map_some,
      getD_some] at ih ⊢
    rw [ih]

theorem deref_nonneg (f : CTxMemPoolEntry → Nat) (a : Uint256) :
    0 ≤ pool.deref env.toMempoolEnv (fun e => f e) a := by
  unfold CTxMemPool.deref
  cases pool.find env.toMempoolEnv a with
  | none => exact le_refl 0
  | some e => exact Int.natCast_nonneg _

theorem foldl_addToBlock (s : PackageState) {its : List Uint256}
    (hits : ∀ a ∈ its, a ∈ keys env pool) :
    its.foldl (fun s it =>
      let s := addToBlock env pool s it
      { s with mapModifiedTx := Table.erase CTxMemPoolModifiedEntry.iter it s.mapModifiedTx }) s =
      withAdded env pool s its := by
  induction its generalizing s with
  | nil => simp [withAdded, entriesOf, eraseAll]
  | cons it its ih =>
    obtain ⟨hit, hits⟩ := forall_mem_cons.mp hits
    obtain ⟨e, he, -⟩ := find_of_mem_keys hit
    rw [foldl_cons, ih _ hits]
    simp only [addToBlock, he, withAdded, entriesOf, eraseAll, filterMap_cons, map_cons, sum_cons,
      foldl_cons, append_assoc, cons_append, nil_append, length_cons,
      PackageState.mk.injEq, true_and, and_true]
    refine ⟨?_, ?_, ?_, ?_⟩
    · split <;> omega
    · omega
    · omega
    · omega

theorem modified_foldl_erase (its : List Uint256) (map : ModifiedSet) (d : Uint256) :
    modified (eraseAll its map) d =
      if d ∈ its then none else modified map d := by
  induction its generalizing map with
  | nil => simp [eraseAll]
  | cons it its ih =>
    rw [eraseAll, foldl_cons, ← eraseAll, ih, modified, Table.find_erase]
    by_cases hd : d = it
    · simp [hd]
    · simp [hd]

theorem nodup_foldl_erase (its : List Uint256) {map : ModifiedSet}
    (h : (iters map).Nodup) :
    (iters (eraseAll its map)).Nodup := by
  induction its generalizing map with
  | nil => exact h
  | cons it its ih => exact ih (Table.nodup_erase it h)

section
variable (s : PackageState) {P : List Uint256} (hP : ∀ a ∈ P, a ∈ keys env pool)
include s hP

theorem addPackage_eq :
    ∃ n, addPackage env pool s P =
      { withAdded env pool s (sortForBlock env pool P) with
        mapModifiedTx := (updatePackagesForAdded env pool P
          (withAdded env pool s (sortForBlock env pool P)).mapModifiedTx).1
        nConsecutiveFailed := 0
        nPackagesSelected := s.nPackagesSelected + 1
        nDescendantsUpdated := n } := by
  rw [addPackage, foldl_addToBlock s fun a ha => hP a (mem_sortForBlock.mp ha)]
  exact ⟨_, rfl⟩

theorem modified_addPackage (d : Uint256) :
    modified (addPackage env pool s P).mapModifiedTx d =
      if d ∈ P then none else (visits pool P d).foldl (visit env pool d)
      (modified s.mapModifiedTx d) := by
  obtain ⟨n, heq⟩ := addPackage_eq s hP
  rw [heq, find_updatePackagesForAdded, withAdded, modified_foldl_erase]
  by_cases hd : d ∈ P
  · simp [hd, mem_sortForBlock]
  · simp [hd, mem_sortForBlock]

theorem nodup_addPackage (h : (iters s.mapModifiedTx).Nodup) :
    (iters (addPackage env pool s P).mapModifiedTx).Nodup := by
  obtain ⟨n, heq⟩ := addPackage_eq s hP
  rw [heq]
  exact nodup_updatePackagesForAdded P (nodup_foldl_erase _ h)

theorem inBlock_addPackage : (addPackage env pool s P).inBlock =
    s.inBlock ++ sortForBlock env pool P := by
  obtain ⟨n, heq⟩ := addPackage_eq s hP
  rw [heq]
  rfl

end

theorem ParentsFirst.closed (h : ParentsFirst env pool l) (hx : x ∈ l)
    (ha : Above env pool x a) : a ∈ l := by
  induction ha with
  | refl => exact hx
  | tail _ hstep ih =>
    obtain ⟨l₁, l₂, rfl⟩ := append_of_mem ih
    exact mem_append_left _ (h l₁ _ l₂ rfl _ hstep)

theorem ancestorCount_lt (hexact : AncestorsExact env pool) (h : Spends env pool x p) :
    ancestorCount env pool p < ancestorCount env pool x := by
  rw [hexact.count p h.mem_parent, hexact.count x h.mem]
  have hcard := Ancestry.card_above_lt hexact.acyclic (List.mem_toFinset.mpr h.mem) (.single h)
  exact_mod_cast hcard

theorem parent_mem_before (hexact : AncestorsExact env pool)
    (hsorted : sortForBlock env pool P = mid ++ x :: l₂) (hp : Spends env pool x p) (hpP : p ∈ P) :
    p ∈ mid := by
  have hpsorted : p ∈ sortForBlock env pool P := mem_sortForBlock.mpr hpP
  have hpair := @pairwise_sortForBlock env pool P
  have hcount := ancestorCount_lt hexact hp
  rw [hsorted] at hpsorted hpair
  rcases mem_append.mp hpsorted with hmid | hafter
  · exact hmid
  · rcases mem_cons.mp hafter with rfl | hl₂
    · exact absurd hcount (lt_irrefl _)
    · have hle := (pairwise_cons.mp (pairwise_append.mp hpair).2.1).1 p hl₂
      exact absurd hcount (not_lt.mpr hle)

theorem parent_mem_or (hP : ∀ a, a ∈ P ↔ a ∈ unconfirmed env pool B iter)
    (hsorted : sortForBlock env pool P = mid ++ x :: l₂) (hp : Spends env pool x p) :
    p ∈ B ∨ p ∈ P := by
  have hx : x ∈ sortForBlock env pool P := by
    rw [hsorted]
    exact mem_append_right _ mem_cons_self
  obtain ⟨⟨-, hix⟩, -⟩ := Ancestry.mem_rest.mp ((hP x).mp (mem_sortForBlock.mp hx))
  by_cases hpB : p ∈ B
  · exact .inl hpB
  · exact .inr ((hP p).mpr (Ancestry.mem_rest.mpr ⟨⟨List.mem_toFinset.mpr hp.mem_parent, hix.tail hp⟩,
      hpB⟩))

theorem ParentsFirst.append_package (hexact : AncestorsExact env pool) (h : ParentsFirst env pool B)
    (hP : ∀ a, a ∈ P ↔ a ∈ unconfirmed env pool B iter) :
    ParentsFirst env pool (B ++ sortForBlock env pool P) := by
  intro l₁ x l₂ heq p hp
  have hpackage : ∀ mid, sortForBlock env pool P = mid ++ x :: l₂ → p ∈ B ++ mid := by
    intro mid hsorted
    rcases parent_mem_or hP hsorted hp with hpB | hpP
    · exact mem_append_left _ hpB
    · exact mem_append_right _ (parent_mem_before hexact hsorted hp hpP)
  rcases append_eq_append_iff.mp heq with ⟨mid, rfl, hsorted⟩ | ⟨mid, hB, hx⟩
  · exact hpackage mid hsorted
  · cases mid with
    | nil =>
      rw [append_nil] at hB
      rw [← hB, ← append_nil B]
      exact hpackage [] hx.symm
    | cons y mid =>
      rw [cons_append, cons.injEq] at hx
      obtain ⟨rfl, -⟩ := hx
      exact h l₁ x mid hB p hp

theorem entriesOf_append (l l' : List Uint256) :
    entriesOf env pool (l ++ l') = entriesOf env pool l ++ entriesOf env pool l' := filterMap_append

theorem mem_package {P : List Uint256} (hP : ∀ a, a ∈ P ↔ a ∈ unconfirmed env pool B iter)
    (a : Uint256) (ha : a ∈ P) :
    a ∈ keys env pool ∧ a ∉ B := by
  obtain ⟨⟨hin, -⟩, hnew⟩ := Ancestry.mem_rest.mp ((hP a).mp ha)
  exact ⟨List.mem_toFinset.mp hin, hnew⟩

theorem sum_package (f : CTxMemPoolEntry → Nat) (hnodup : P.Nodup)
    (hP : ∀ a, a ∈ P ↔ a ∈ unconfirmed env pool B iter) :
    (((entriesOf env pool (sortForBlock env pool P)).map f).sum : Int) =
      ∑ a ∈ unconfirmed env pool B iter, pool.deref env.toMempoolEnv (fun e => f e) a := by
  have hin : ∀ a ∈ sortForBlock env pool P, a ∈ keys env pool :=
    fun a ha => (mem_package hP a (mem_sortForBlock.mp ha)).1
  calc (((entriesOf env pool (sortForBlock env pool P)).map f).sum : Int)
      = ((entriesOf env pool (sortForBlock env pool P)).map fun e => (f e : Int)).sum := by
        rw [Nat.cast_list_sum, List.map_map]
        rfl
    _ = ((sortForBlock env pool P).map (pool.deref env.toMempoolEnv fun e => f e)).sum :=
      sum_entriesOf _ hin
    _ = (P.map (pool.deref env.toMempoolEnv fun e => f e)).sum := ((perm_sortForBlock P).map _).sum_eq
    _ = _ := Ancestry.sum_map_eq_sum_rest _ hnodup hP

theorem sum_weight_le (l : List CTxMemPoolEntry) :
    (l.map (·.getTxWeight)).sum ≤ WITNESS_SCALE_FACTOR *
    (l.map (·.getTxSize env.toMempoolEnv)).sum := by
  rw [← sum_map_mul_left]
  exact sum_le_sum fun e _ => getTxWeight_le e

theorem BlockOk.addPackage (hexact : AncestorsExact env pool) (h : BlockOk env pool s)
    (hnodup : P.Nodup) (hP : ∀ a, a ∈ P ↔ a ∈ unconfirmed env pool s.inBlock iter)
    (hsize : ∑ a ∈ unconfirmed env pool s.inBlock iter, txSize env pool a ≤ size)
    (hsigOps : ∑ a ∈ unconfirmed env pool s.inBlock iter, BlockAssembler.sigOps env pool a ≤ cost)
    (htest : testPackage env s size cost = true) :
    BlockOk env pool (BlockAssembler.addPackage env pool s P) := by
  have hpackage := mem_package hP
  simp only [testPackage, Bool.and_eq_true, decide_eq_true_eq] at htest
  obtain ⟨hweight, hcost⟩ := htest
  have hsizes := sum_package (fun e => e.getTxSize env.toMempoolEnv) hnodup hP
  have hcosts := sum_package (fun e => e.sigOpCost) hnodup hP
  have hscale := @sum_weight_le env (entriesOf env pool (sortForBlock env pool P))
  obtain ⟨n, heq⟩ := addPackage_eq s fun a ha => (hpackage a ha).1
  rw [heq]
  refine
    { nodup := ?_, inPool := ?_, parentsFirst := h.parentsFirst.append_package hexact hP,
      vtx := ?_, vTxFees := ?_, vTxSigOpsCost := ?_, nBlockTx := ?_, weight := ?_, sigOps := ?_,
      fees := ?_, weightLimit := .inr ?_, sigOpsLimit := ?_ }
  · refine h.nodup.append ((perm_sortForBlock P).nodup_iff.mpr hnodup) fun a ha ha' => ?_
    exact (hpackage a (mem_sortForBlock.mp ha')).2 ha
  · intro x hx
    rcases mem_append.mp hx with hx | hx
    · exact h.inPool x hx
    · exact (hpackage x (mem_sortForBlock.mp hx)).1
  · simp [withAdded, entriesOf_append, h.vtx]
  · simp [withAdded, entriesOf_append, h.vTxFees]
  · simp [withAdded, entriesOf_append, h.vTxSigOpsCost]
  · simp [withAdded, h.nBlockTx]
  · simp only [withAdded, entriesOf_append, map_append, sum_append, h.weight]
    omega
  · simp only [withAdded, entriesOf_append, map_append, sum_append, h.sigOps]
    omega
  · simp only [withAdded, h.fees, foldl_int64, entriesOf_append, map_append, sum_append]
  · simp only [withAdded]
    unfold WITNESS_SCALE_FACTOR at hscale hweight
    simp only [txSize] at hsize
    push_cast at hweight
    omega
  · simp only [withAdded]
    simp only [BlockAssembler.sigOps] at hsigOps
    omega

theorem visits_nodup (hnodup : P.Nodup) (d : Uint256) : (visits pool P d).Nodup :=
  ((perm_inHashOrder P).nodup_iff.mpr hnodup).filter _

theorem sum_unconfirmed_append (w : Uint256 → Int) (hlinks : pool.LinksOk env.toMempoolEnv)
    (hnodup : P.Nodup) (hin : ∀ a ∈ P, a ∈ keys env pool) (hnew : ∀ a ∈ P, a ∉ B) (d : Uint256) :
    ∑ a ∈ unconfirmed env pool (B ++ sortForBlock env pool P) d, w a =
      ∑ a ∈ unconfirmed env pool B d, w a - ((visits pool P d).map w).sum := by
  classical
  have hperm := @perm_sortForBlock env pool P
  rw [unconfirmed, Ancestry.sum_rest_append w (hperm.nodup_iff.mpr hnodup)
    (fun a ha => hnew a (hperm.mem_iff.mp ha)) (fun a ha =>
    List.mem_toFinset.mpr (hin a (hperm.mem_iff.mp ha)))]
  congr 1
  refine (Perm.map w ?_).sum_eq
  rw [perm_ext_iff_of_nodup ((hperm.nodup_iff.mpr hnodup).filter _) (visits_nodup hnodup d)]
  intro a
  rw [mem_filter, mem_visits hlinks hin, hperm.mem_iff, decide_eq_true_eq]

section
variable {d : Uint256} {its : List Uint256} {m₀ : Option CTxMemPoolModifiedEntry}

theorem foldl_visit_eq_some (h : its.foldl (visit env pool d) m₀ = some m) :
    m.nSizeWithAncestors = (baseEntry env pool d m₀).nSizeWithAncestors -
    (its.map (txSize env pool)).sum ∧ m.nSigOpCostWithAncestors =
    (baseEntry env pool d m₀).nSigOpCostWithAncestors - (its.map (sigOps env pool)).sum := by
  by_cases hits : its = []
  · subst hits
    rw [foldl_nil] at h
    subst h
    simp [baseEntry]
  · rw [foldl_visit d m₀ hits] at h
    obtain rfl := some.inj h
    exact ⟨rfl, rfl⟩

theorem foldl_visit_eq_none (h : its.foldl (visit env pool d) m₀ = none) : its = [] ∧ m₀ = none := by
  by_cases hits : its = []
  · subst hits
    exact ⟨rfl, h⟩
  · rw [foldl_visit d m₀ hits] at h
    cases h

end

theorem sum_le_baseEntry {s : PackageState} (f : CTxMemPoolModifiedEntry → Int) {w : Uint256 → Int}
    (hw : ∀ a, 0 ≤ w a) (hmod : ∀ m, modified s.mapModifiedTx d = some m →
    ∑ a ∈ unconfirmed env pool s.inBlock d, w a ≤ f m) (hexact : f (modifiedEntry env pool d) =
      ∑ a ∈ ancestors env pool d, w a) :
    ∑ a ∈ unconfirmed env pool s.inBlock d,
    w a ≤ f (baseEntry env pool d (modified s.mapModifiedTx d)) := by
  cases hm : modified s.mapModifiedTx d with
  | some m => exact hmod m hm
  | none =>
    rw [baseEntry, getD_none, hexact]
    exact Ancestry.sum_rest_le hw _ _

section
variable {s : PackageState} {P : List Uint256} (hexact : AncestorsExact env pool)
    (hblock : BlockOk env pool s)
  (hmod : ModifiedOk env pool s) (hP : NewPackage env pool s P)
include hexact hblock hmod hP

theorem modified_addPackage_eq_some (hm : modified (addPackage env pool s P).mapModifiedTx d =
    some m) :
    d ∉ P ∧ (visits pool P d).foldl (visit env pool d) (modified s.mapModifiedTx d) = some m ∧
    (d ∈ keys env pool ∧ d ∉ s.inBlock) ∧
    (modified s.mapModifiedTx d = none → ∃ it ∈ P, Above env pool d it) := by
  rw [modified_addPackage s hP.inPool, ite_none_left_eq_some] at hm
  obtain ⟨hd, hm⟩ := hm
  refine ⟨hd, hm, ?_⟩
  cases hvisits : visits pool P d with
  | nil =>
    rw [hvisits] at hm
    exact ⟨hmod.inPool d m hm, fun hnone => absurd (hnone.symm.trans hm) nofun⟩
  | cons it its =>
    have hit : it ∈ visits pool P d := hvisits ▸ mem_cons_self
    obtain ⟨hitP, habove⟩ := (mem_visits hexact.links hP.inPool).mp hit
    refine ⟨⟨?_, fun hdB => hP.notInBlock it hitP (hblock.parentsFirst.closed hdB habove)⟩,
      fun _ => ⟨it, hitP, habove⟩⟩
    rcases habove.cases_head with rfl | ⟨p, hp, -⟩
    · exact absurd hitP hd
    · exact hp.mem

theorem ModifiedOk.addPackage : ModifiedOk env pool (BlockAssembler.addPackage env pool s P) := by
  have hinBlock := inBlock_addPackage s hP.inPool
  refine
    { nodup := nodup_addPackage s hP.inPool hmod.nodup, inPool := ?_, size := ?_, sigOps := ?_,
      untouched := ?_ }
  · intro d m hm
    obtain ⟨hdP, -, ⟨hd, hdB⟩, -⟩ := modified_addPackage_eq_some hexact hblock hmod hP hm
    rw [hinBlock, mem_append, mem_sortForBlock, not_or]
    exact ⟨hd, hdB, hdP⟩
  · intro d m hm
    obtain ⟨-, hfold, ⟨hd, -⟩, -⟩ := modified_addPackage_eq_some hexact hblock hmod hP hm
    rw [hinBlock, sum_unconfirmed_append _ hexact.links hP.nodup hP.inPool hP.notInBlock,
      (foldl_visit_eq_some hfold).1]
    exact Int.sub_le_sub_right (sum_le_baseEntry _ (deref_nonneg _) (hmod.size d)
      (hexact.size d hd)) _
  · intro d m hm
    obtain ⟨-, hfold, ⟨hd, -⟩, -⟩ := modified_addPackage_eq_some hexact hblock hmod hP hm
    rw [hinBlock, sum_unconfirmed_append _ hexact.links hP.nodup hP.inPool hP.notInBlock,
      (foldl_visit_eq_some hfold).2]
    exact Int.sub_le_sub_right (sum_le_baseEntry _ (deref_nonneg _) (hmod.sigOps d)
      (hexact.sigOpCost d hd)) _
  · intro d hd hdB hnone hdfailed a ha habove
    rw [hinBlock, mem_append, mem_sortForBlock, not_or] at hdB
    rw [hinBlock, mem_append, mem_sortForBlock] at ha
    rw [modified_addPackage s hP.inPool, if_neg hdB.2] at hnone
    obtain ⟨hvisits, hnone⟩ := foldl_visit_eq_none hnone
    rcases ha with ha | ha
    · obtain ⟨n, heq⟩ := addPackage_eq s hP.inPool
      rw [heq] at hdfailed
      exact hmod.untouched d hd hdB.1 hnone hdfailed a ha habove
    · have hvisit : a ∈ visits pool P d := (mem_visits hexact.links hP.inPool).mpr ⟨ha, habove⟩
      rw [hvisits] at hvisit
      cases hvisit

end

theorem sum_unadjusted (hlinks : pool.LinksOk env.toMempoolEnv) (hclean : CleanPackage env pool s P)
    (hP : NewPackage env pool s P) (hd : d ∉ P) :
    ((unadjusted (modified s.mapModifiedTx d) (visits pool P d)).map (feeDelta env pool)).sum =
    0 := by
  refine sum_eq_zero fun delta hdelta => ?_
  obtain ⟨it, hit, rfl⟩ := List.mem_map.mp hdelta
  have hvisit : it ∈ visits pool P d := by
    unfold unadjusted at hit
    split at hit
    · exact hit
    · exact mem_of_mem_tail hit
  obtain ⟨hitP, habove⟩ := (mem_visits hlinks hP.inPool).mp hvisit
  rcases hclean.2 it hitP d hd habove with hzero | ⟨hnone, hfirst⟩
  · exact hzero
  · -- the first visit makes the entry, and a later one is not before it
    rw [unadjusted, hnone, isSome_none, if_neg Bool.false_ne_true] at hit
    have hsorted : (visits pool P d).Pairwise fun a b => (!compareIteratorByHash b a) = true :=
      (pairwise_inHashOrder P).filter _
    have hdistinct : (visits pool P d).Nodup := visits_nodup hP.nodup d
    cases hvisits : visits pool P d with
    | nil =>
      rw [hvisits] at hit
      cases hit
    | cons first its =>
      have hmem : first ∈ visits pool P d := hvisits ▸ mem_cons_self
      rw [hvisits] at hit hsorted hdistinct
      obtain ⟨hfirstP, hfirstAbove⟩ := (mem_visits hlinks hP.inPool).mp hmem
      have hne : first ≠ it := fun heq => (nodup_cons.mp hdistinct).1 (heq ▸ hit)
      have hlt := hfirst first hfirstP hfirstAbove hne
      have hnot := (pairwise_cons.mp hsorted).1 it hit
      rw [hlt] at hnot
      cases hnot

section
variable {s : PackageState} {P : List Uint256} {wrap : Int → Int} {f : CTxMemPoolModifiedEntry → Int}
    {w : Uint256 → Int}
  (hexact : AncestorsExact env pool)
  (hpool : ∀ d ∈ keys env pool, f (modifiedEntry env pool d) = wrap
    (∑ a ∈ ancestors env pool d, w a))
include hpool

theorem Exact.baseEntry (hmod : ModifiedOk env pool s) (h : Exact env pool wrap f w s)
    (hd : d ∈ keys env pool) (hdB : d ∉ s.inBlock)
    (hfresh : modified s.mapModifiedTx d = none → d ∉ s.failedTx) :
    f (baseEntry env pool d (modified s.mapModifiedTx d)) =
    wrap (∑ a ∈ unconfirmed env pool s.inBlock d, w a) := by
  cases hm : modified s.mapModifiedTx d with
  | some m =>
    have hiter : m.iter = d := Table.find_key hm
    exact hiter ▸ h m (Table.find_mem hm)
  | none =>
    have hall : unconfirmed env pool s.inBlock d = _ :=
      Ancestry.rest_eq_above (hmod.untouched d hd hdB hm (hfresh hm))
    rw [hall]
    exact hpool d hd

include hexact

theorem Exact.addPackage (hwrap : ∀ x y, wrap (wrap x - y) = wrap (x - y))
    (hblock : BlockOk env pool s) (hmod : ModifiedOk env pool s) (hP : NewPackage env pool s P)
    (hfresh : FreshPackage env pool s P) (hvisits : ∀ d ∉ P, visits pool P d ≠ [] → ∀ m,
      (visits pool P d).foldl (visit env pool d) (modified s.mapModifiedTx d) = some m →
      f m = wrap (f (BlockAssembler.baseEntry env pool d (modified s.mapModifiedTx d)) -
      ((visits pool P d).map w).sum))
    (h : Exact env pool wrap f w s) : Exact env pool wrap f w
    (BlockAssembler.addPackage env pool s P) := by
  intro m hmem
  have hm := Table.find_of_mem (nodup_addPackage s hP.inPool hmod.nodup) hmem
  obtain ⟨hd, hfold, ⟨hkey, hdB⟩, hvisited⟩ := modified_addPackage_eq_some hexact hblock hmod hP hm
  have hbase := Exact.baseEntry hpool hmod h hkey hdB fun hnone => by
    obtain ⟨it, hit, habove⟩ := hvisited hnone
    exact hfresh it hit _ hd habove
  rw [inBlock_addPackage s hP.inPool, sum_unconfirmed_append _ hexact.links hP.nodup hP.inPool
    hP.notInBlock]
  by_cases hnil : visits pool P m.iter = []
  · rw [hnil, foldl_nil] at hfold
    rw [hfold] at hbase
    rw [hnil, map_nil, sum_nil, sub_zero]
    exact hbase
  · rw [hvisits _ hd hnil m hfold, hbase, hwrap]

end

section
variable {s : PackageState} {P : List Uint256} (hexact : AncestorsExact env pool)
    (hblock : BlockOk env pool s)
  (hmod : ModifiedOk env pool s) (hP : NewPackage env pool s P)
include hexact hblock hmod hP

theorem SizesExact.addPackage (hfresh : FreshPackage env pool s P) (h : SizesExact env pool s) :
    SizesExact env pool (BlockAssembler.addPackage env pool s P) := by
  refine ⟨Exact.addPackage hexact hexact.size (fun _ _ => rfl) hblock hmod hP hfresh ?_ h.1,
    Exact.addPackage hexact hexact.sigOpCost (fun _ _ => rfl) hblock hmod hP hfresh ?_ h.2⟩
  · exact fun d _ _ m hfold => (foldl_visit_eq_some hfold).1
  · exact fun d _ _ m hfold => (foldl_visit_eq_some hfold).2

theorem FeesExact.addPackage (hclean : CleanPackage env pool s P) (h : FeesExact env pool s) :
    FeesExact env pool (BlockAssembler.addPackage env pool s P) := by
  refine Exact.addPackage hexact hexact.modFees int64_sub hblock hmod hP hclean.1
    (fun d hd hne m hfold => ?_) h
  rw [foldl_visit d _ hne, sum_unadjusted hexact.links hclean hP hd, add_zero] at hfold
  rw [← some.inj hfold]

end

end BlockAssembler

end OurChain
