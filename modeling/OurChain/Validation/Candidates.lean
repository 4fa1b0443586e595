import OurChain.Validation.AcceptHeader

/-!
# Candidates for the best chain

The state behind `ActivateBestChain`: the active chain, given by its tip, and
`setBlockIndexCandidates` in the order of `CBlockIndexWorkComparator`. A node is
past `LoadGenesisBlock`, so the active chain is never empty.

`FindMostWorkChain` takes the best candidate whose blocks off the active chain are
all usable, and drops the candidates above a block that is not.
-/

namespace OurChain

open List
open CBlockIndex (haveBit)

structure ChainEnv extends HeaderEnv where
  /-- The memory address of an entry, the last tie-break of the comparator. -/
  addr : BlockPtr → Nat

structure ChainState extends HeaderState where
  nTx : BlockPtr → BitVec 32
  nChainTx : BlockPtr → BitVec 32
  /-- The tip of `chainActive`. -/
  chainActive : BlockPtr
  setBlockIndexCandidates : List BlockPtr
  mapBlocksUnlinked : List (BlockPtr × BlockPtr)
  /-- The tip that the last call of `ContractObserver::onChainStateSet` saw. -/
  observed : BlockPtr

variable (env : ChainEnv)

def ChainEnv.workKey (n : BlockPtr) : WorkKey where
  nChainWork := nChainWork n
  nTime := n.value.nTime
  nPrecisionTime := n.value.nPrecisionTime
  hashGPoW := n.value.hashGPoW
  addr := env.addr n

def ChainEnv.less (pa pb : BlockPtr) : Bool := workLess (env.workKey pa) (env.workKey pb)

namespace ChainState

/-- The block is not marked as failed and its data is on disk. -/
def usable (s : ChainState) (p : BlockPtr) : Bool :=
  !haveBit (s.nStatus p) BLOCK_FAILED_MASK && haveBit (s.nStatus p) BLOCK_HAVE_DATA

/-- The walk down to the active chain: the first block that is not usable, if there
is one. None if the assertion on `nChainTx` fails. -/
def findUnusable (s : ChainState) : List BlockPtr → Option (Option BlockPtr)
  | [] => some none
  | pindexTest :: rest =>
    if pindexTest ∈ s.chainActive.path then some none
    else if s.nChainTx pindexTest = 0 ∧ pindexTest.height ≠ 0 then none
    else if !s.usable pindexTest then some (some pindexTest)
    else s.findUnusable rest

/-- Takes the chain from `pindexNew` down to `pindexTest` out of the candidates. The
blocks above `pindexTest` are marked or, if only data is missing, unlinked. -/
def dropChain (pindexNew pindexTest : BlockPtr) (s : ChainState) : ChainState :=
  let fFailedChain := haveBit (s.nStatus pindexTest) BLOCK_FAILED_MASK
  let above := pindexNew.path.takeWhile (· ≠ pindexTest)
  { s with
    nStatus := fun p => if fFailedChain ∧ p ∈ above then s.nStatus p ||| BLOCK_FAILED_CHILD
      else s.nStatus p
    mapBlocksUnlinked := if fFailedChain then s.mapBlocksUnlinked
      else s.mapBlocksUnlinked ++ above.filterMap fun p => p.pprev.map (·, p)
    setBlockIndexCandidates :=
      s.setBlockIndexCandidates.filter fun p => p ∉ above ∧ p ≠ pindexTest }

def findMostWorkChain : Nat → ChainState → Option (Option BlockPtr × ChainState)
  | 0, _ => none
  | fuel + 1, s =>
    match s.setBlockIndexCandidates.getLast? with
    | none => some (none, s)
    | some pindexNew =>
      match s.findUnusable pindexNew.path with
      | none => none
      | some none => some (some pindexNew, s)
      | some (some pindexTest) => findMostWorkChain fuel (s.dropChain pindexNew pindexTest)

def pruneBlockIndexCandidates (s : ChainState) : Option ChainState :=
  let left := s.setBlockIndexCandidates.dropWhile (env.less · s.chainActive)
  if left = [] then none else some { s with setBlockIndexCandidates := left }

end ChainState

/-- The index is a part of the tree `t`, and the candidates are entries in the order
of the comparator. -/
structure ChainState.Ok (t : Tree CBlockHeader) (s : ChainState) : Prop where
  headers : s.toHeaderState.WellFormed env.toHeaderEnv
  inTree : ∀ n ∈ s.mapBlockIndex, n ∈ t.nodes
  closed : ∀ n ∈ s.mapBlockIndex, ∀ a ∈ n.path, a ∈ s.mapBlockIndex
  tip : s.chainActive ∈ s.mapBlockIndex
  candidates : ∀ n ∈ s.setBlockIndexCandidates, n ∈ s.mapBlockIndex
  sorted : OrdSet.Sorted env.less s.setBlockIndexCandidates
  unlinked : ∀ e ∈ s.mapBlocksUnlinked, e.2 ∈ s.mapBlockIndex

/-- No two blocks of the tree compare as equal. -/
abbrev ChainEnv.Orders (t : Tree CBlockHeader) : Prop := StrictTotalOn env.less t.nodes

variable {env} {t : Tree CBlockHeader} {s : ChainState}

namespace ChainState

theorem Ok.candidates_inTree (h : s.Ok env t) :
    ∀ n ∈ s.setBlockIndexCandidates, n ∈ t.nodes := fun n hn => h.inTree n (h.candidates n hn)

theorem Ok.of_sublist (h : s.Ok env t) {s' : ChainState} (hmap : s'.mapBlockIndex = s.mapBlockIndex)
    (htip : s'.chainActive ∈ s.mapBlockIndex)
    (hsub : s'.setBlockIndexCandidates.Sublist s.setBlockIndexCandidates)
    (hunlinked : ∀ e ∈ s'.mapBlocksUnlinked, e.2 ∈ s.mapBlockIndex) : s'.Ok env t where
  headers := h.headers.of_map_eq hmap
  inTree n hn := h.inTree n (hmap ▸ hn)
  closed n hn a ha := by
    rw [hmap] at hn ⊢
    exact h.closed n hn a ha
  tip := hmap ▸ htip
  candidates n hn := by
    rw [hmap]
    exact h.candidates n (hsub.subset hn)
  sorted := h.sorted.sublist hsub
  unlinked e he := hmap ▸ hunlinked e he

theorem Ok.insert (h : s.Ok env t) (hord : env.Orders t) (hp : p ∈ s.mapBlockIndex) :
    ChainState.Ok env t { s with
      setBlockIndexCandidates := OrdSet.insert env.less p s.setBlockIndexCandidates } where
  headers := h.headers
  inTree := h.inTree
  closed := h.closed
  tip := h.tip
  candidates n hn := by
    rcases (OrdSet.mem_insert hord (h.inTree p hp) h.candidates_inTree).mp hn with rfl | hn
    · exact hp
    · exact h.candidates n hn
  sorted := OrdSet.insert_sorted hord (h.inTree p hp) h.candidates_inTree h.sorted
  unlinked := h.unlinked

theorem prune_eq_some (h : s.pruneBlockIndexCandidates env = some s') :
    s' = { s with setBlockIndexCandidates :=
      s.setBlockIndexCandidates.dropWhile (env.less · s.chainActive) } := by
  simp only [pruneBlockIndexCandidates] at h
  split at h
  · cases h
  · exact (Option.some.inj h).symm

theorem mem_prune (hord : env.Orders t) (hs : s.Ok env t) (p : BlockPtr) :
    p ∈ s.setBlockIndexCandidates.dropWhile (env.less · s.chainActive) ↔
      p ∈ s.setBlockIndexCandidates ∧ env.less p s.chainActive = false :=
  OrdSet.mem_dropWhile hord hs.candidates_inTree hs.sorted (hs.inTree _ hs.tip)

theorem prune_isSome (hord : env.Orders t) (hs : s.Ok env t)
    (hm : m ∈ s.setBlockIndexCandidates) (hle : env.less m s.chainActive = false) :
    ∃ s', s.pruneBlockIndexCandidates env = some s' := by
  have hmem := (mem_prune hord hs m).mpr ⟨hm, hle⟩
  simp only [pruneBlockIndexCandidates]
  rw [if_neg (ne_nil_of_mem hmem)]
  exact ⟨_, rfl⟩

theorem findUnusable_eq_none (s : ChainState) {n : BlockPtr}
    (h : ∀ a ∈ n.path, a ∉ s.chainActive.path → s.usable a ∧ (s.nChainTx a ≠ 0 ∨ a.height = 0)) :
    s.findUnusable n.path = some none := by
  generalize n.path = l at h
  induction l with
  | nil => rfl
  | cons a l ih =>
    obtain ⟨ha, hl⟩ := forall_mem_cons.mp h
    rw [findUnusable]
    split
    · rfl
    · rename_i hoff
      obtain ⟨husable, hchain⟩ := ha hoff
      rw [if_neg (by tauto), if_neg (by simp [husable]), ih hl]

theorem usable_of_findUnusable {n : BlockPtr} (h : s.findUnusable n.path = some none) :
    ∀ a ∈ n.path, a ∉ s.chainActive.path → s.usable a := by
  induction n with
  | root x =>
    intro a ha hoff
    cases mem_singleton.mp ha
    rw [Node.path, findUnusable, if_neg hoff] at h
    split at h
    · cases h
    · split at h
      · cases h
      · rename_i husable
        simpa using husable
  | child p x ih =>
    intro a ha hoff
    rw [Node.path, findUnusable] at h
    split at h
    · -- below a block of the active chain everything is on it
      rename_i hon
      exact absurd (Node.path_trans ha hon) hoff
    · split at h
      · cases h
      · split at h
        · cases h
        · rename_i husable
          rcases Node.mem_path_child ha with rfl | ha
          · simpa using husable
          · exact ih h a ha hoff

theorem findUnusable_eq_some (h : s.findUnusable l = some (some p)) :
    p ∈ l ∧ p ∉ s.chainActive.path ∧ s.usable p = false := by
  induction l with
  | nil => cases h
  | cons a l ih =>
    rw [findUnusable] at h
    split at h
    · cases h
    · rename_i hoff
      split at h
      · cases h
      · split at h
        · rename_i husable
          cases h
          exact ⟨by simp, hoff, by simpa using husable⟩
        · obtain ⟨hp, hrest⟩ := ih h
          exact ⟨mem_cons_of_mem _ hp, hrest⟩

theorem usable_of_dropChain (h : (s.dropChain n p).usable a) : s.usable a := by
  unfold usable dropChain at h
  dsimp only at h
  split at h
  · have hmark : haveBit BLOCK_FAILED_CHILD BLOCK_FAILED_MASK = true := by decide
    simp [hmark] at h
  · exact h

theorem dropChain_off (hp : p ∈ n.path) (hout : p ∉ c.path) :
    (c ∈ s.setBlockIndexCandidates → c ∈ (s.dropChain n p).setBlockIndexCandidates) ∧
      ∀ a ∈ c.path, (s.dropChain n p).nStatus a = s.nStatus a := by
  have habove : ∀ a ∈ c.path, a ∉ n.path.takeWhile (· ≠ p) := fun a ha hmem =>
    hout (Node.path_trans (Node.mem_path_of_mem_takeWhile hp hmem) ha)
  refine ⟨fun hc => mem_filter.mpr ⟨hc, ?_⟩, fun a ha => if_neg fun h => habove a ha h.2⟩
  have hne : c ≠ p := by
    rintro rfl
    exact hout (Node.mem_path_self c)
  simpa using And.intro (habove c (Node.mem_path_self c)) hne

theorem dropChain_keeps (hp : p ∈ n.path) (hbad : s.usable p = false)
    (hgood : ∀ a ∈ c.path, s.usable a) :
    (c ∈ s.setBlockIndexCandidates → c ∈ (s.dropChain n p).setBlockIndexCandidates) ∧
      ∀ a ∈ c.path, (s.dropChain n p).usable a := by
  have hout : p ∉ c.path := fun hpc => by simp [hgood p hpc] at hbad
  obtain ⟨hkept, hstatus⟩ := dropChain_off hp hout
  refine ⟨hkept, fun a ha => ?_⟩
  rw [usable, hstatus a ha]
  exact hgood a ha

theorem dropChain_ok (hs : s.Ok env t) (hn : n ∈ s.setBlockIndexCandidates) (p : BlockPtr) :
    (s.dropChain n p).Ok env t := by
  refine hs.of_sublist rfl hs.tip filter_sublist fun e he => ?_
  unfold dropChain at he
  dsimp only at he
  split at he
  · exact hs.unlinked e he
  · rcases mem_append.mp he with he | he
    · exact hs.unlinked e he
    · obtain ⟨a, ha, hpair⟩ := mem_filterMap.mp he
      obtain ⟨b, -, rfl⟩ := Option.map_eq_some_iff.mp hpair
      exact hs.closed n (hs.candidates n hn) a (takeWhile_subset _ ha)

/-- What a call of `FindMostWorkChain` leaves of the state. -/
structure Searched (s s' : ChainState) : Prop where
  mapBlockIndex : s'.mapBlockIndex = s.mapBlockIndex
  chainActive : s'.chainActive = s.chainActive
  observed : s'.observed = s.observed
  candidates : s'.setBlockIndexCandidates.Sublist s.setBlockIndexCandidates
  usable : ∀ a, s'.usable a → s.usable a

theorem findMostWorkChain_searched (h : findMostWorkChain fuel s = some (r, s')) :
    Searched s s' ∧ ∀ m, r = some m → m ∈ s'.setBlockIndexCandidates := by
  induction fuel generalizing s with
  | zero => cases h
  | succ fuel ih =>
    rw [findMostWorkChain] at h
    split at h
    · cases h
      exact ⟨⟨rfl, rfl, rfl, .refl _, fun _ => id⟩, by simp⟩
    · rename_i n hlast
      split at h
      · cases h
      · cases h
        refine ⟨⟨rfl, rfl, rfl, .refl _, fun _ => id⟩, ?_⟩
        rintro m ⟨⟩
        exact mem_of_getLast? hlast
      · obtain ⟨hrest, hmem⟩ := ih h
        exact ⟨⟨hrest.mapBlockIndex, hrest.chainActive, hrest.observed,
          hrest.candidates.trans filter_sublist,
          fun a ha => usable_of_dropChain (hrest.usable a ha)⟩, hmem⟩

theorem findMostWorkChain_ok (hs : s.Ok env t) (h : findMostWorkChain fuel s = some (r, s')) :
    s'.Ok env t := by
  induction fuel generalizing s with
  | zero => cases h
  | succ fuel ih =>
    rw [findMostWorkChain] at h
    split at h
    · cases h
      exact hs
    · rename_i n hlast
      split at h
      · cases h
      · cases h
        exact hs
      · exact ih (dropChain_ok hs (mem_of_getLast? hlast) _) h

theorem findMostWorkChain_spec (hs : s.Ok env t) (hc : c ∈ s.setBlockIndexCandidates)
    (hgood : ∀ a ∈ c.path, s.usable a) (h : findMostWorkChain fuel s = some (r, s')) :
    c ∈ s'.setBlockIndexCandidates ∧ (∀ a ∈ c.path, s'.usable a) ∧
    ∃ m, r = some m ∧ m ∈ s'.setBlockIndexCandidates ∧ (m = c ∨ env.less c m = true) ∧
      ∀ a ∈ m.path, a ∉ s'.chainActive.path → s'.usable a := by
  induction fuel generalizing s with
  | zero => cases h
  | succ fuel ih =>
    rw [findMostWorkChain] at h
    split at h
    · rename_i hlast
      rw [getLast?_eq_none_iff.mp hlast] at hc
      cases hc
    · rename_i n hlast
      split at h
      · cases h
      · rename_i hwalk
        cases h
        have hmax := OrdSet.isMax_getLast? hs.sorted hlast
        refine ⟨hc, hgood, n, rfl, hmax.1, ?_, usable_of_findUnusable hwalk⟩
        by_cases hne : c = n
        · exact .inl hne.symm
        · exact .inr (hmax.2 c hc hne)
      · rename_i p hwalk
        obtain ⟨hp, -, hbad⟩ := findUnusable_eq_some hwalk
        obtain ⟨hc', hgood'⟩ := dropChain_keeps hp hbad hgood
        exact ih (dropChain_ok hs (mem_of_getLast? hlast) p) (hc' hc) hgood' h

def Available (s : ChainState) (n : BlockPtr) : Prop :=
  ∀ a ∈ n.path, a ∉ s.chainActive.path → s.usable a = true

instance (s : ChainState) (n : BlockPtr) : Decidable (s.Available n) :=
  inferInstanceAs (Decidable (∀ a ∈ n.path, _))

theorem available_tip (s : ChainState) : s.Available s.chainActive := fun _ ha hoff => absurd ha hoff

theorem Available.dropChain (hp : p ∈ n.path) (hoff : p ∉ s.chainActive.path)
    (hbad : s.usable p = false) (h : s.Available c) :
    (c ∈ s.setBlockIndexCandidates → c ∈ (s.dropChain n p).setBlockIndexCandidates) ∧
      (s.dropChain n p).Available c := by
  have hout : p ∉ c.path := fun hpc => by simp [h p hpc hoff] at hbad
  obtain ⟨hkept, hstatus⟩ := dropChain_off hp hout
  refine ⟨hkept, fun a ha hoff => ?_⟩
  rw [usable, hstatus a ha]
  exact h a ha hoff

theorem findUnusable_isSome (h : ∀ a ∈ l, s.nChainTx a ≠ 0) : ∃ r, s.findUnusable l = some r := by
  induction l with
  | nil => exact ⟨none, rfl⟩
  | cons a l ih =>
    obtain ⟨ha, hl⟩ := forall_mem_cons.mp h
    rw [findUnusable, if_neg (fun hzero => ha hzero.1 : ¬(s.nChainTx a = 0 ∧ a.height ≠ 0))]
    split
    · exact ⟨none, rfl⟩
    · split
      · exact ⟨some a, rfl⟩
      · exact ih hl

theorem length_dropChain_lt (hn : n ∈ s.setBlockIndexCandidates) (hp : p ∈ n.path) :
    (s.dropChain n p).setBlockIndexCandidates.length < s.setBlockIndexCandidates.length := by
  refine length_filter_lt_length_iff_exists.mpr ⟨n, hn, ?_⟩
  by_cases hnp : n = p
  · simp [hnp]
  · have habove : n ∈ n.path.takeWhile (· ≠ p) := by
      cases n <;> simp [Node.path, hnp]
    exact fun hkept => (of_decide_eq_true hkept).1 habove

theorem findMostWorkChain_best (hs : s.Ok env t) (hc : c ∈ s.setBlockIndexCandidates)
    (havailable : s.Available c)
    (hlinked : ∀ n ∈ s.setBlockIndexCandidates, ∀ a ∈ n.path, s.nChainTx a ≠ 0)
    (hfuel : s.setBlockIndexCandidates.length < fuel) :
    ∃ m s', findMostWorkChain fuel s = some (some m, s') ∧ s'.nChainTx = s.nChainTx ∧ s'.Available m ∧
      OrdSet.IsMax env.less s'.setBlockIndexCandidates m ∧
      (∀ n, s.Available n → s'.Available n ∧
        (n ∈ s.setBlockIndexCandidates → n ∈ s'.setBlockIndexCandidates)) ∧
      ∀ a ∈ s.chainActive.path, s'.usable a = s.usable a := by
  induction fuel generalizing s with
  | zero => cases hfuel
  | succ fuel ih =>
    obtain ⟨n, hlast⟩ : ∃ n, s.setBlockIndexCandidates.getLast? = some n := by
      rw [← Option.isSome_iff_exists, getLast?_isSome]
      exact ne_nil_of_mem hc
    have hn := mem_of_getLast? hlast
    obtain ⟨unusable, hwalk⟩ := findUnusable_isSome (hlinked n hn)
    simp only [findMostWorkChain, hlast, hwalk]
    cases unusable with
    | none =>
      exact ⟨n, s, rfl, rfl, usable_of_findUnusable hwalk, OrdSet.isMax_getLast? hs.sorted hlast,
        fun _ h => ⟨h, id⟩, fun _ _ => rfl⟩
    | some p =>
      obtain ⟨hp, hoff, hbad⟩ := findUnusable_eq_some hwalk
      obtain ⟨hc', hkept⟩ := havailable.dropChain hp hoff hbad
      have hlt := length_dropChain_lt hn hp
      obtain ⟨m, s', hsearch, hchainTx, hm, hmax, hall, hchain⟩ := ih (dropChain_ok hs hn p) (hc' hc)
        hkept (fun n hn => hlinked n (mem_of_mem_filter hn)) (by omega)
      refine ⟨m, s', hsearch, hchainTx, hm, hmax, fun a hava => ?_, fun a ha => ?_⟩
      · obtain ⟨hkeep, hava'⟩ := hava.dropChain hp hoff hbad
        exact ⟨(hall a hava').1, fun ha => (hall a hava').2 (hkeep ha)⟩
      · rw [hchain a ha, usable, (dropChain_off hp hoff).2 a ha]
        rfl

end ChainState

end OurChain
