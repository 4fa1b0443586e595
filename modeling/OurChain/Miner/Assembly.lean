import OurChain.Miner.Packages
import OurChain.Validation.Replacement

/-!
# Runs of block assembly

The loop of `addPackageTxs` ends, and every state on the way has a sound block. The sums of the
modified set are right as long as `update_for_parent_inclusion` meets no fee delta, and no
transaction comes back to the modified set after it failed.
-/

namespace OurChain

open List Option Relation

namespace BlockAssembler

def skips (s : PackageState) : Bool := s.mi.head?.any (skipMapTxEntry s)

section
variable (env : AssemblerEnv) (pool : CTxMemPool)

def started (index : List Uint256) : PackageState := startPackages env pool (resetBlock index)

def Adds (s : PackageState) (c : Choice) : Prop :=
  skips s = false ∧ choose env pool s = some c ∧
  ¬ (c.sums env pool).nModFeesWithAncestors <
    env.blockMinFeeRate.getFee (c.sums env pool).nSizeWithAncestors.toNat ∧
  testPackage env s (c.sums env pool).nSizeWithAncestors (c.sums env pool).nSigOpCostWithAncestors =
    true ∧
  testPackageTransactions env pool s (packageOf env pool s c.iter) = true

def IndexOk (mi : List Uint256) : Prop :=
  (∀ x ∈ mi, x ∈ keys env pool) ∧ mi.length ≤ pool.mapTx.length

structure RunOk (s : PackageState) : Prop where
  block : BlockOk env pool s
  modified : ModifiedOk env pool s
  index : IndexOk env pool s.mi

def Step (s s' : PackageState) : Prop :=
  finished s = false ∧ turn env pool s = some s'

/-- A step that adds only packages with `ok`. -/
def StepIf (ok : PackageState → List Uint256 → Prop) (s s' : PackageState) : Prop :=
  Step env pool s s' ∧ ∀ c, Adds env pool s c → ok s (packageOf env pool s c.iter)

def FreshStep : PackageState → PackageState → Prop :=
  StepIf env pool (FreshPackage env pool)

def CleanStep : PackageState → PackageState → Prop :=
  StepIf env pool (CleanPackage env pool)

def turns : Nat → PackageState → Option PackageState
  | 0, s => some s
  | n + 1, s => if finished s then none else (turn env pool s).bind (turns n)

end

variable {env : AssemblerEnv} {pool : CTxMemPool}

theorem choose_cases (h : choose env pool s = some c) :
    (c.modit = none ∧ s.mi = c.iter :: c.mi) ∨
    ∃ m ∈ s.mapModifiedTx, c.modit = some m ∧ c.iter = m.iter ∧ c.mi = s.mi := by
  have hbegin : ∀ m, env.score.begin s.mapModifiedTx = some m → m ∈ s.mapModifiedTx := by
    intro m hm
    by_cases hnil : s.mapModifiedTx = []
    · rw [hnil, env.score.begin_nil] at hm
      cases hm
    · obtain ⟨m', hmem, hm'⟩ := env.score.begin_mem _ hnil
      rw [hm] at hm'
      exact some.inj hm' ▸ hmem
  unfold choose at h
  split at h
  · cases h
  · rename_i modit hmi hmodit
    cases h
    exact .inr ⟨modit, hbegin modit hmodit, rfl, rfl, hmi.symm⟩
  · rename_i hmi _
    cases h
    exact .inl ⟨rfl, hmi⟩
  · rename_i modit hmi hmodit
    split at h
    · cases h
      exact .inr ⟨modit, hbegin modit hmodit, rfl, rfl, hmi.symm⟩
    · cases h
      exact .inl ⟨rfl, hmi⟩

theorem turn_cases (h : turn env pool s = some s') :
    (∃ x mi, s.mi = x :: mi ∧ s' = { s with mi := mi }) ∨
    ∃ c, skips s = false ∧ choose env pool s = some c ∧ c.iter ∉ s.inBlock ∧
      (s' = { s with mi := c.mi, done := true } ∨
       s' = countFailure env (dropFailed { s with mi := c.mi } c) ∨
       s' = dropFailed { s with mi := c.mi } c ∨
       Adds env pool s c ∧ s' = addPackage env pool { s with
         mi := c.mi } (packageOf env pool s c.iter)) := by
  unfold turn at h
  by_cases hskip : s.mi.head?.any (skipMapTxEntry s) = true
  · rw [if_pos hskip] at h
    cases hmi : s.mi with
    | nil => simp [hmi] at hskip
    | cons x mi =>
      refine .inl ⟨x, mi, rfl, ?_⟩
      rw [← some.inj h, hmi, tail_cons]
  · rw [if_neg hskip] at h
    cases hchoose : choose env pool s with
    | none =>
      rw [hchoose] at h
      cases h
    | some c =>
      rw [hchoose] at h
      dsimp only at h
      by_cases hin : c.iter ∈ s.inBlock
      · rw [if_pos hin] at h
        cases h
      · rw [if_neg hin] at h
        refine .inr ⟨c, by simpa [skips] using hskip, rfl, hin, ?_⟩
        have h := (some.inj h).symm
        unfold evaluate at h
        dsimp only at h
        split at h
        · exact .inl h
        · split at h
          · exact .inr (.inl h)
          · split at h
            · exact .inr (.inr (.inl h))
            · rename_i hfee htest htxs
              -- the tests do not read what is left of the index
              simp only [Bool.not_eq_true', Bool.not_eq_false] at htest htxs
              exact .inr (.inr (.inr ⟨⟨by simpa [skips] using hskip, hchoose, hfee, htest, htxs⟩, h⟩))

theorem BlockOk.congr (h : BlockOk env pool s) (mi : List Uint256) (map : ModifiedSet)
    (failedTx : List Uint256) (nConsecutiveFailed : Nat) (done : Bool) :
    BlockOk env pool { s with mi, mapModifiedTx := map, failedTx, nConsecutiveFailed, done } := by
  exact ⟨h.nodup, h.inPool, h.parentsFirst, h.vtx, h.vTxFees, h.vTxSigOpsCost, h.nBlockTx, h.weight,
    h.sigOps, h.fees, h.weightLimit, h.sigOpsLimit⟩

theorem ModifiedOk.congr (h : ModifiedOk env pool s) (mi : List Uint256) (nConsecutiveFailed : Nat)
    (done : Bool) :
    ModifiedOk env pool { s with mi, nConsecutiveFailed, done } := by
  exact ⟨h.nodup, h.inPool, h.size, h.sigOps, h.untouched⟩

theorem BlockOk.dropFailed (h : BlockOk env pool s) (c : Choice) :
    BlockOk env pool (dropFailed s c) := by
  unfold BlockAssembler.dropFailed
  split
  · exact h
  · exact h.congr s.mi _ _ s.nConsecutiveFailed s.done

theorem ModifiedOk.dropFailed (h : ModifiedOk env pool s)
    (hc : ∀ m, c.modit = some m → c.iter = m.iter) :
    ModifiedOk env pool (dropFailed s c) := by
  unfold BlockAssembler.dropFailed
  split
  · exact h
  · rename_i modit hmodit
    have hiter := hc modit hmodit
    have hkept : ∀ d m, BlockAssembler.modified
      (Table.erase CTxMemPoolModifiedEntry.iter modit.iter s.mapModifiedTx) d = some m →
        BlockAssembler.modified s.mapModifiedTx d = some m := by
      intro d m hm
      rw [BlockAssembler.modified, Table.find_erase] at hm
      split at hm
      · cases hm
      · exact hm
    refine ⟨Table.nodup_erase _ h.nodup, fun d m hm => h.inPool d m (hkept d m hm),
      fun d m hm => h.size d m (hkept d m hm), fun d m hm => h.sigOps d m (hkept d m hm), ?_⟩
    intro d hd hdB hnone hfailed
    rw [mem_insert_iff, not_or] at hfailed
    rw [BlockAssembler.modified, Table.find_erase, if_neg (hiter ▸ hfailed.1)] at hnone
    exact h.untouched d hd hdB hnone hfailed.2

theorem IndexOk.tail (h : IndexOk env pool (x :: mi)) : IndexOk env pool mi :=
  ⟨fun y hy => h.1 y (mem_cons_of_mem x hy), (Nat.le_succ _).trans h.2⟩

theorem IndexOk.choose (h : IndexOk env pool s.mi) (hc : choose env pool s = some c) :
    IndexOk env pool c.mi := by
  rcases choose_cases hc with ⟨-, hmi⟩ | ⟨m, -, -, -, hmi⟩
  · rw [hmi] at h
    exact h.tail
  · rw [hmi]
    exact h

theorem iter_of_modit (hc : choose env pool s = some c) (hm : c.modit = some m) :
    c.iter = m.iter := by
  rcases choose_cases hc with ⟨hnone, -⟩ | ⟨m', -, hsome, heq, -⟩
  · rw [hnone] at hm
    cases hm
  · rw [hsome] at hm
    exact some.inj hm ▸ heq

@[simp] theorem dropFailed_mi (s : PackageState) (c : Choice) : (dropFailed s c).mi = s.mi := by
  unfold dropFailed
  split <;> rfl

theorem addPackage_mi (s : PackageState) {P : List Uint256} (hP : ∀ a ∈ P, a ∈ keys env pool) :
    (addPackage env pool s P).mi = s.mi := by
  obtain ⟨n, heq⟩ := addPackage_eq s hP
  rw [heq]
  rfl

theorem length_keys : (keys env pool).length = pool.mapTx.length := length_map _

theorem RunOk.start {index : List Uint256} (hindex : index.Perm (keys env pool)) :
    RunOk env pool (started env pool index) := by
  refine ⟨?_, ?_, ?_⟩
  · refine ⟨nodup_nil, nofun, ?_, rfl, rfl, rfl, rfl, rfl, rfl, rfl, .inl rfl,
      (by decide : 400 < MAX_BLOCK_SIGOPS_COST)⟩
    intro l₁ x l₂ h
    exact absurd (congrArg List.length h) (by simp [started, startPackages, resetBlock])
  · exact ⟨nodup_nil, nofun, nofun, nofun, fun _ _ _ _ _ => nofun⟩
  · exact ⟨fun x hx => hindex.mem_iff.mp hx, by
      rw [show (started env pool index).mi = index from rfl, hindex.length_eq, length_keys]⟩

theorem dropFailed_subset (s : PackageState) (c : Choice) :
    (dropFailed s c).inBlock = s.inBlock ∧ (dropFailed s c).mapModifiedTx ⊆ s.mapModifiedTx := by
  unfold dropFailed
  split
  · exact ⟨rfl, Subset.refl _⟩
  · exact ⟨rfl, filter_subset_self _⟩

theorem Exact.subset (hblock : s'.inBlock = s.inBlock) (hsubset : s'.mapModifiedTx ⊆ s.mapModifiedTx)
    (h : Exact env pool wrap f w s) : Exact env pool wrap f w s' :=
  fun m hm => hblock ▸ h m (hsubset hm)

/-- Turns that can follow: a package fills the block, the others use up the index or the
modified set. -/
def turnsLeft (pool : CTxMemPool) (s : PackageState) : Nat :=
  (pool.mapTx.length - s.inBlock.length) * (2 * pool.mapTx.length + 1) + s.mi.length +
    s.mapModifiedTx.length

theorem RunOk.mapModifiedTx_length (h : RunOk env pool s) :
    s.mapModifiedTx.length ≤ pool.mapTx.length := by
  have hsubset : s.mapModifiedTx.map CTxMemPoolModifiedEntry.iter ⊆ keys env pool := by
    intro d hd
    obtain ⟨m, hm, rfl⟩ := List.mem_map.mp hd
    exact (h.modified.inPool _ m (Table.find_of_mem h.modified.nodup hm)).1
  have hle := (h.modified.nodup.subperm hsubset).length_le
  rwa [length_map, length_keys] at hle

theorem RunOk.inBlock_length (h : RunOk env pool s) : s.inBlock.length ≤ pool.mapTx.length := by
  have hle := (h.block.nodup.subperm h.block.inPool).length_le
  rwa [length_keys] at hle

theorem RunOk.progress (h : RunOk env pool s) (hfinished : finished s = false) :
    ∃ s', BlockAssembler.turn env pool s = some s' := by
  unfold BlockAssembler.turn
  by_cases hskip : s.mi.head?.any (skipMapTxEntry s) = true
  · exact ⟨_, if_pos hskip⟩
  · rw [if_neg hskip]
    cases hchoose : choose env pool s with
    | none =>
      exfalso
      simp only [finished, Bool.or_eq_false_iff, Bool.and_eq_false_iff] at hfinished
      unfold choose at hchoose
      split at hchoose
      · rename_i hmi hbegin
        rcases hfinished.2 with hne | hne
        · simp [hmi] at hne
        · obtain ⟨m, -, hm⟩ := env.score.begin_mem s.mapModifiedTx (by simpa using hne)
          rw [hbegin] at hm
          cases hm
      · cases hchoose
      · cases hchoose
      · split at hchoose <;> cases hchoose
    | some c =>
      refine ⟨_, if_neg ?_⟩
      rcases choose_cases hchoose with ⟨-, hmi⟩ | ⟨m, hm, -, hiter, -⟩
      · intro hin
        refine hskip ?_
        simp [hmi, skipMapTxEntry, hin]
      · rw [hiter]
        exact (h.modified.inPool _ m (Table.find_of_mem h.modified.nodup hm)).2

theorem turnsLeft_dropFailed (hchoose : choose env pool s = some c) :
    turnsLeft pool (dropFailed { s with mi := c.mi } c) < turnsLeft pool s := by
  rcases choose_cases hchoose with ⟨hmodit, hmi⟩ | ⟨m, hm, hmodit, -, hmi⟩
  · simp only [dropFailed, hmodit, turnsLeft, hmi, length_cons]
    omega
  · have hlt : (Table.erase CTxMemPoolModifiedEntry.iter m.iter s.mapModifiedTx).length <
      s.mapModifiedTx.length := by
      refine length_filter_lt_length_iff_exists.mpr ⟨m, hm, ?_⟩
      simp
    simp only [dropFailed, hmodit, turnsLeft, hmi]
    omega

theorem packageLoop_finished (hfinished : finished s = true) (fuel : Nat) :
    packageLoop env pool fuel s = some s := by
  cases fuel <;> simp [packageLoop, hfinished]

def turnBound (pool : CTxMemPool) : Nat := (pool.mapTx.length + 1) * (2 * pool.mapTx.length + 1)

section
variable (hexact : AncestorsExact env pool)
include hexact

theorem RunOk.choice (h : RunOk env pool s) (hc : choose env pool s = some c) :
    c.iter ∈ keys env pool ∧
    ∑ a ∈ unconfirmed env pool s.inBlock c.iter,
    txSize env pool a ≤ (c.sums env pool).nSizeWithAncestors ∧
    ∑ a ∈ unconfirmed env pool s.inBlock c.iter,
    sigOps env pool a ≤ (c.sums env pool).nSigOpCostWithAncestors := by
  rcases choose_cases hc with ⟨hmodit, hmi⟩ | ⟨m, hm, hmodit, hiter, -⟩
  · have hin : c.iter ∈ keys env pool := h.index.1 c.iter (hmi ▸ mem_cons_self)
    rw [Choice.sums, hmodit, getD_none, hexact.size _ hin, hexact.sigOpCost _ hin]
    exact ⟨hin, Ancestry.sum_rest_le (deref_nonneg _) _ _, Ancestry.sum_rest_le (deref_nonneg _) _ _⟩
  · have hfind := Table.find_of_mem h.modified.nodup hm
    rw [Choice.sums, hmodit, getD_some, hiter]
    exact ⟨(h.modified.inPool _ m hfind).1, h.modified.size _ m hfind, h.modified.sigOps _ m hfind⟩

theorem packageOf_spec (hin : x ∈ keys env pool) (hnew : x ∉ s.inBlock) :
    NewPackage env pool s (packageOf env pool s x) ∧ x ∈ packageOf env pool s x := by
  have hpackage := mem_package fun a => mem_packageOf hexact.links s hin hnew
  refine ⟨⟨nodup_packageOf s x, fun a ha => (hpackage a ha).1, fun a ha => (hpackage a ha).2⟩, ?_⟩
  exact (mem_packageOf hexact.links s hin hnew).mpr
    (Ancestry.mem_rest.mpr ⟨⟨List.mem_toFinset.mpr hin, .refl⟩, hnew⟩)

theorem RunOk.turn (h : RunOk env pool s) (hturn : turn env pool s = some s') :
    RunOk env pool s' := by
  rcases turn_cases hturn with ⟨x, mi, hmi, rfl⟩ | ⟨c, -, hchoose, hnew, hcases⟩
  · have hindex := h.index
    rw [hmi] at hindex
    exact ⟨h.block.congr mi _ _ _ _, h.modified.congr mi _ _, hindex.tail⟩
  · have hindex := h.index.choose hchoose
    have hblock := h.block.congr c.mi s.mapModifiedTx s.failedTx s.nConsecutiveFailed s.done
    have hmod := h.modified.congr c.mi s.nConsecutiveFailed s.done
    have hdropped := hmod.dropFailed fun m => iter_of_modit hchoose
    rcases hcases with rfl | rfl | rfl | ⟨hadds, rfl⟩
    · exact ⟨h.block.congr c.mi _ _ _ true, h.modified.congr c.mi _ true, hindex⟩
    · refine ⟨(hblock.dropFailed c).congr _ _ _ _ _, hdropped.congr _ _ _, ?_⟩
      rw [countFailure, dropFailed_mi]
      exact hindex
    · refine ⟨hblock.dropFailed c, hdropped, ?_⟩
      rw [dropFailed_mi]
      exact hindex
    · obtain ⟨-, -, -, htest, -⟩ := hadds
      obtain ⟨hin, hsize, hcost⟩ := h.choice hexact hchoose
      obtain ⟨hP, -⟩ := packageOf_spec hexact hin hnew
      refine ⟨hblock.addPackage hexact hP.nodup (fun a => mem_packageOf hexact.links s hin hnew)
        hsize hcost htest, hmod.addPackage hexact hblock ⟨hP.nodup, hP.inPool, hP.notInBlock⟩, ?_⟩
      rw [addPackage_mi _ hP.inPool]
      exact hindex

theorem RunOk.run (h : RunOk env pool s)
    (hrun : ReflTransGen (Step env pool) s s') : RunOk env pool s' := by
  induction hrun with
  | refl => exact h
  | tail _ hstep ih => exact ih.turn hexact hstep.2

/-- A property holds along a run if it survives that entries leave the modified set and that
packages with `ok` are added. -/
theorem run_keeps {I : PackageState → Prop}
    {ok : PackageState → List Uint256 → Prop} (hmi : ∀ s P mi, ok s P → ok { s with mi } P)
    (hdrop : ∀ s s', s'.inBlock = s.inBlock → s'.mapModifiedTx ⊆ s.mapModifiedTx → I s → I s')
    (hadd : ∀ s P, BlockOk env pool s → ModifiedOk env pool s → NewPackage env pool s P →
    ok s P → I s →
      I (addPackage env pool s P))
    (hrunOk : RunOk env pool s) (h : I s) (hrun : ReflTransGen (StepIf env pool ok) s s') :
    RunOk env pool s' ∧ I s' := by
  induction hrun with
  | refl => exact ⟨hrunOk, h⟩
  | @tail s s' _ hstep ih =>
    obtain ⟨hs, h⟩ := ih
    obtain ⟨⟨-, hturn⟩, hok⟩ := hstep
    refine ⟨hs.turn hexact hturn, ?_⟩
    rcases turn_cases hturn with ⟨x, mi, -, rfl⟩ | ⟨c, -, hchoose, hnew, hcases⟩
    · exact hdrop s _ rfl (Subset.refl _) h
    · obtain ⟨hblock, hsubset⟩ := dropFailed_subset { s with mi := c.mi } c
      rcases hcases with rfl | rfl | rfl | ⟨hadds, rfl⟩
      · exact hdrop s _ rfl (Subset.refl _) h
      · exact hdrop s _ hblock hsubset h
      · exact hdrop s _ hblock hsubset h
      · obtain ⟨hin, -, -⟩ := hs.choice hexact hchoose
        obtain ⟨hP, -⟩ := packageOf_spec hexact hin hnew
        exact hadd _ _ (hs.block.congr c.mi _ _ _ _) (hs.modified.congr c.mi _ _)
          ⟨hP.nodup, hP.inPool, hP.notInBlock⟩ (hmi s _ c.mi (hok c hadds))
          (hdrop s _ rfl (Subset.refl _) h)

theorem RunOk.turnsLeft_lt (h : RunOk env pool s)
    (hturn : BlockAssembler.turn env pool s = some s') :
    finished s' = true ∨ turnsLeft pool s' < turnsLeft pool s := by
  have hnext := h.turn hexact hturn
  rcases turn_cases hturn with ⟨x, mi, hmi, rfl⟩ | ⟨c, -, hchoose, hnew, hcases⟩
  · right
    simp only [turnsLeft, hmi, length_cons]
    omega
  · rcases hcases with rfl | rfl | rfl | ⟨-, rfl⟩
    · exact .inl rfl
    · exact .inr (turnsLeft_dropFailed hchoose)
    · exact .inr (turnsLeft_dropFailed hchoose)
    · right
      obtain ⟨hin, -, -⟩ := h.choice hexact hchoose
      obtain ⟨hP, hmem⟩ := packageOf_spec hexact hin hnew
      have hlength : s.inBlock.length <
          (addPackage env pool { s with mi := c.mi }
          (packageOf env pool s c.iter)).inBlock.length := by
        rw [inBlock_addPackage _ hP.inPool, length_append, (perm_sortForBlock _).length_eq]
        exact Nat.lt_add_of_pos_right (length_pos_of_mem hmem)
      have hfull := hnext.inBlock_length
      have hmap := hnext.mapModifiedTx_length
      have hmi := hnext.index.2
      unfold turnsLeft
      -- one transaction more in the block pays for a whole index and a whole modified set
      have hpay := Nat.mul_le_mul_right (2 * pool.mapTx.length + 1)
        (show pool.mapTx.length -
            (addPackage env pool { s with mi := c.mi } (packageOf env pool s c.iter)).inBlock.length +
            1 ≤ pool.mapTx.length - s.inBlock.length by omega)
      rw [Nat.add_mul, Nat.one_mul] at hpay
      omega

theorem RunOk.packageLoop (bound : Nat) (h : RunOk env pool s)
    (hbound : turnsLeft pool s ≤ bound) :
    ∃ s', (∀ fuel, bound ≤ fuel → BlockAssembler.packageLoop env pool fuel s = some s') ∧
    finished s' = true ∧
      ReflTransGen (Step env pool) s s' := by
  induction bound generalizing s with
  | zero =>
    have hzero : s.mi.length = 0 ∧ s.mapModifiedTx.length = 0 := by
      unfold turnsLeft at hbound
      omega
    have hfinished : finished s = true := by
      simp [finished, length_eq_zero_iff.mp hzero.1, length_eq_zero_iff.mp hzero.2]
    exact ⟨s, fun fuel _ => packageLoop_finished hfinished fuel, hfinished, .refl⟩
  | succ bound ih =>
    cases hfinished : finished s with
    | true => exact ⟨s, fun fuel _ => packageLoop_finished hfinished fuel, hfinished, .refl⟩
    | false =>
      obtain ⟨s₁, hturn⟩ := h.progress hfinished
      obtain ⟨s', hs', hend, hrun⟩ : ∃ s',
        (∀ fuel, bound ≤ fuel → BlockAssembler.packageLoop env pool fuel s₁ = some s') ∧
          finished s' = true ∧ ReflTransGen (Step env pool) s₁ s' := by
        rcases h.turnsLeft_lt hexact hturn with hdone | hlt
        · exact ⟨s₁, fun fuel _ => packageLoop_finished hdone fuel, hdone, .refl⟩
        · exact ih (h.turn hexact hturn) (by omega)
      refine ⟨s', fun fuel hfuel => ?_, hend, .head ⟨hfinished, hturn⟩ hrun⟩
      obtain ⟨fuel, rfl⟩ : ∃ n, fuel = n + 1 := ⟨fuel - 1, by omega⟩
      rw [BlockAssembler.packageLoop, hfinished, if_neg Bool.false_ne_true, hturn, bind_some]
      exact hs' fuel (by omega)

end

def exactBefore (a b : CTxMemPoolModifiedEntry) : Bool :=
  let f1 := a.nModFeesWithAncestors * b.nSizeWithAncestors
  let f2 := b.nModFeesWithAncestors * a.nSizeWithAncestors
  if f1 = f2 then compareIteratorByHash a.iter b.iter else f2 < f1

/-- The first of the entries, when the products are not rounded. -/
def bestEntry : ModifiedSet → Option CTxMemPoolModifiedEntry
  | [] => none
  | m :: ms =>
    match bestEntry ms with
    | none => some m
    | some best => if exactBefore m best then some m else some best

theorem bestEntry_mem : ∀ s : ModifiedSet, s ≠ [] → ∃ m ∈ s, bestEntry s = some m
  | [], h => absurd rfl h
  | m :: ms, _ => by
    unfold bestEntry
    cases hbest : bestEntry ms with
    | none => exact ⟨m, mem_cons_self, rfl⟩
    | some best =>
      have hmem : best ∈ ms := by
        by_cases hnil : ms = []
        · rw [hnil] at hbest
          cases hbest
        · obtain ⟨m', hm', heq⟩ := bestEntry_mem ms hnil
          rw [hbest] at heq
          exact some.inj heq ▸ hm'
      dsimp only
      split
      · exact ⟨m, mem_cons_self, rfl⟩
      · exact ⟨best, mem_cons_of_mem m hmem, rfl⟩

def assemblerEnv (optionMaxWeight : Nat) : AssemblerEnv where
  H := lockTimeHash
  nBytesPerSigOp := 20
  optionMaxWeight
  optionMaxSize := 4000000
  blockMinFeeRate := ⟨0⟩
  nHeight := 100
  nLockTimeCutoff := 0
  fIncludeWitness := true
  score := ⟨fun a b => a * b, bestEntry, rfl, bestEntry_mem⟩

def roomyEnv : AssemblerEnv := assemblerEnv 400000

def spendAll (nLockTime : BitVec 32) (parents : List Uint256) : CTransaction where
  nVersion := 1
  contract := ⟨ACTION_NONE, [], 0, []⟩
  vin := parents.map fun p => ⟨⟨p, 0⟩, [], 0xffffffff, []⟩
  vout := [⟨1000, []⟩]
  nLockTime

def poolEntry (nLockTime : BitVec 32) (parents : List Uint256) (nFee : Int) : CTxMemPoolEntry :=
  .new (assemblerEnv 0).toMempoolEnv (spendAll nLockTime parents) nFee 0 1 false 4 ⟨0, 0, none⟩

def parentLinks : List (Uint256 × TxLinks) := [(1, ⟨[], [3]⟩), (2, ⟨[], [3]⟩), (3, ⟨[1, 2], []⟩)]

def twoParents (nFee₁ nFee₂ nFee₃ delta₁ delta₂ : Int) : CTxMemPool where
  mapTx := [((poolEntry 1 [7] nFee₁).updateFeeDelta delta₁).updateDescendantState 136 nFee₃ 1,
    ((poolEntry 2 [8] nFee₂).updateFeeDelta delta₂).updateDescendantState 136 nFee₃ 1,
    (poolEntry 3 [1, 2] nFee₃).updateAncestorState 190 (nFee₁ + delta₁ + (nFee₂ + delta₂)) 2 8]
  mapLinks := CTxMemPool.linksOf parentLinks
  mapNextTx := [(⟨7, 0⟩, spendAll 1 [7]), (⟨8, 0⟩, spendAll 2 [8]), (⟨1, 0⟩, spendAll 3 [1, 2]),
    (⟨2, 0⟩, spendAll 3 [1, 2])]
  mapDeltas x := if x = 1 then some delta₁ else if x = 2 then some delta₂ else none

theorem run_of_turns (h : turns env pool n s = some s') : ReflTransGen (Step env pool) s s' := by
  induction n generalizing s with
  | zero =>
    cases h
    exact .refl
  | succ n ih =>
    rw [turns] at h
    split at h
    · cases h
    · rename_i hunfinished
      obtain ⟨s₁, hturn, hrest⟩ := bind_eq_some_iff.mp h
      exact .head ⟨by simpa using hunfinished, hturn⟩ (ih hrest)

theorem cleanStep_of_single (hstep : Step env pool s s')
    (hchoose : (choose env pool s).map (·.iter) = some x) (hP : packageOf env pool s x = [x])
    (hfailed : s.failedTx = []) (hfee : feeDelta env pool x = 0 ∨ s.mapModifiedTx = []) :
    CleanStep env pool s s' := by
  refine ⟨hstep, fun c hadds => ?_⟩
  rw [hadds.2.1, map_some, some.injEq] at hchoose
  rw [hchoose, hP]
  refine ⟨fun it _ d _ _ => hfailed ▸ not_mem_nil, fun it hit d _ _ => ?_⟩
  rw [mem_singleton.mp hit]
  refine hfee.imp id fun hnone => ⟨by rw [hnone]; rfl, fun a ha _ hne => ?_⟩
  exact absurd (mem_singleton.mp ha) hne

theorem exact_of_tables (hlinks : pool.mapLinks = CTxMemPool.linksOf parentLinks)
    (hspending : parentLinks = pool.spendingLinks env.toMempoolEnv) (hkeys : (keys env pool).Nodup)
    (hsums : pool.mapTx.map recordedSums = pool.mapTx.map (walkedSums env pool)) :
    AncestorsExact env pool :=
  .of_walks (.of_table hkeys (hlinks.trans (congrArg CTxMemPool.linksOf hspending))) hsums

def firstPrioritised : CTxMemPool := twoParents 10000 10000 100 5000 0

/-- The second transaction is prioritised, and comes off the third one without its fee delta. -/
def secondPrioritised : CTxMemPool := twoParents 10000 0 100 0 5000

/-- The block has room for the first two transactions only, and the third one is tried before
the second. -/
def nearlyFull : CTxMemPool := twoParents 30000 100 10000 0 0

end BlockAssembler

end OurChain
