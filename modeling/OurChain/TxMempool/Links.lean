import OurChain.TxMempool

/-!
# The links of the pool

When the links are those of the spending relation, the walks along them find all ancestors
and descendants in the pool.
-/

namespace OurChain

open List Relation

namespace CTxMemPool

variable {env : MempoolEnv} {pool : CTxMemPool}

def keys (env : MempoolEnv) (pool : CTxMemPool) : List Uint256 := pool.mapTx.map (·.getHash env)

/-- The entry `x` spends an output of the entry `p`. -/
def Parent (env : MempoolEnv) (pool : CTxMemPool) (x p : Uint256) : Prop :=
  p ∈ pool.keys env ∧ ∃ e ∈ pool.mapTx, e.getHash env = x ∧ ∃ txin ∈ e.tx.vin, txin.prevout.hash = p

/-- `mapLinks` has the parents and the children of each entry, and nothing else. -/
structure LinksOk (env : MempoolEnv) (pool : CTxMemPool) : Prop where
  nodup : (pool.keys env).Nodup
  parents : ∀ x p, p ∈ pool.getMemPoolParents x ↔ Parent env pool x p
  children : ∀ p x, x ∈ pool.getMemPoolChildren p ↔ Parent env pool x p
  parentsNodup : ∀ x, (pool.getMemPoolParents x).Nodup
  childrenNodup : ∀ x, (pool.getMemPoolChildren x).Nodup

theorem Parent.mem_parent (h : Parent env pool x p) : p ∈ pool.keys env := h.1

theorem Parent.mem (h : Parent env pool x p) : x ∈ pool.keys env := by
  obtain ⟨-, e, he, rfl, -⟩ := h
  exact List.mem_map_of_mem he

theorem find_of_mem (hnodup : (pool.keys env).Nodup) (he : e ∈ pool.mapTx) :
    pool.find env (e.getHash env) = some e := Table.find_of_mem hnodup he

theorem find_eq_some (h : pool.find env x = some e) : e ∈ pool.mapTx ∧ e.getHash env = x :=
  ⟨Table.find_mem h, Table.find_key h⟩

theorem existsTx_iff : pool.existsTx env x = true ↔ x ∈ pool.keys env := by
  rw [existsTx, find, Table.find_isSome_iff, keys, List.mem_map]

instance parentDecidable (env : MempoolEnv) (pool : CTxMemPool) (x p : Uint256) :
    Decidable (Parent env pool x p) :=
  inferInstanceAs (Decidable (_ ∧ _))

def linksOf (links : List (Uint256 × TxLinks)) (x : Uint256) : TxLinks :=
  ((Table.find Prod.fst links x).map Prod.snd).getD ⟨[], []⟩

def spendingLinks (env : MempoolEnv) (pool : CTxMemPool) : List (Uint256 × TxLinks) :=
  (pool.keys env).map fun x =>
    (x, ⟨(pool.keys env).filter fun p => Parent env pool x p, (pool.keys env).filter fun c =>
      Parent env pool c x⟩)

theorem LinksOk.of_table (hnodup : (pool.keys env).Nodup)
    (hmap : pool.mapLinks = linksOf (pool.spendingLinks env)) :
    LinksOk env pool := by
  have hlinks : ∀ x, pool.mapLinks x = if x ∈ pool.keys env then
      ⟨(pool.keys env).filter fun p => Parent env pool x p, (pool.keys env).filter fun c =>
        Parent env pool c x⟩
      else ⟨[], []⟩ := by
    intro x
    have hfst : (pool.spendingLinks env).map Prod.fst = pool.keys env := by
      simp [spendingLinks, Function.comp_def]
    rw [hmap, linksOf]
    split
    · rename_i hx
      have hmem := List.mem_map_of_mem (f := fun x =>
        ((x, ⟨(pool.keys env).filter fun p => Parent env pool x p, (pool.keys env).filter fun c =>
          Parent env pool c x⟩) : Uint256 × TxLinks)) hx
      rw [← hfst] at hnodup
      rw [Table.find_of_mem (a := (x, _)) hnodup hmem]
      rfl
    · rename_i hx
      have hnone : Table.find Prod.fst (pool.spendingLinks env) x = none := by
        rw [← Option.not_isSome_iff_eq_none, Table.find_isSome_iff]
        rintro ⟨l, hl, rfl⟩
        exact hx (hfst ▸ List.mem_map_of_mem hl)
      rw [hnone]
      rfl
  have hparents : ∀ x, pool.getMemPoolParents x = (pool.keys env).filter fun p =>
    Parent env pool x p := by
    intro x
    rw [getMemPoolParents, hlinks]
    split
    · rfl
    · rename_i hx
      exact (filter_eq_nil_iff.mpr fun p _ h => hx (of_decide_eq_true h).mem).symm
  have hchildren : ∀ p, pool.getMemPoolChildren p = (pool.keys env).filter fun c =>
    Parent env pool c p := by
    intro p
    rw [getMemPoolChildren, hlinks]
    split
    · rfl
    · rename_i hp
      exact (filter_eq_nil_iff.mpr fun c _ h => hp (of_decide_eq_true h).mem_parent).symm
  refine ⟨hnodup, fun x p => ?_, fun p x => ?_, fun x => ?_, fun x => ?_⟩
  · rw [hparents, mem_filter, decide_eq_true_eq]
    exact and_iff_right_of_imp Parent.mem_parent
  · rw [hchildren, mem_filter, decide_eq_true_eq]
    exact and_iff_right_of_imp Parent.mem
  · rw [hparents]
    exact hnodup.filter _
  · rw [hchildren]
    exact hnodup.filter _

def DownClosed (env : MempoolEnv) (pool : CTxMemPool) (s : List Uint256) : Prop :=
  ∀ y ∈ s, ∀ z, Parent env pool z y → z ∈ s

theorem DownClosed.reached (h : DownClosed env pool s) (hy : y ∈ s)
    (hz : ReflTransGen (fun a b => Parent env pool b a) y z) : z ∈ s := by
  induction hz with
  | refl => exact hy
  | tail _ hstep ih => exact h _ ih _ hstep

theorem card_keys (hnodup : (pool.keys env).Nodup) :
    (pool.keys env).toFinset.card ≤ pool.mapTx.length := by
  rw [toFinset_card_of_nodup hnodup, keys, length_map]

theorem nodup_calculateDescendants (hs : s.Nodup) : (pool.calculateDescendants x s).Nodup :=
  Worklist.nodup_walk (@Worklist.known_none _ pool.getMemPoolChildren) _ _ hs

theorem downClosed_nil : DownClosed env pool [] := nofun

theorem foldl_schedule (cs stage visited : List Uint256) :
    cs.foldl (Worklist.schedule fun _ => none) (stage, visited) =
      (cs.foldl (fun stage c => if c ∈ visited then stage else stage.insert c) stage, visited) := by
  induction cs generalizing stage with
  | nil => rfl
  | cons c cs ih =>
    simp only [foldl_cons, Worklist.schedule]
    split
    · exact ih _
    · exact ih _

theorem stageParents_eq_ok (h : stageParents limits setAncestors parents parentHashes =
    .ok parentHashes') :
    parentHashes' = parents.foldl (fun stage c => if c ∈ setAncestors then stage else stage.insert c)
      parentHashes := by
  induction parents generalizing parentHashes with
  | nil =>
    cases h
    rfl
  | cons c parents ih =>
    rw [foldl_cons]
    refine ih ?_
    rw [stageParents] at h
    generalize (if c ∈ setAncestors then parentHashes else parentHashes.insert c) = staged at h ⊢
    by_cases hlimit : limits.ancestorCount < uint64 (staged.length + setAncestors.length + 1)
    · simp [hlimit] at h
    · simpa [hlimit] using h

theorem ancestorLoop_eq_walk (fuel : Nat)
    (h : (pool.ancestorLoop env limits size fuel stage visited total).1 = none) :
    (pool.ancestorLoop env limits size fuel stage visited total).2 =
      Worklist.walk pool.getMemPoolParents (fun _ => none) fuel stage visited := by
  induction fuel generalizing stage visited total with
  | zero => rfl
  | succ fuel ih =>
    cases stage with
    | nil => rfl
    | cons a stage =>
      simp only [ancestorLoop] at h ⊢
      split at h
      · cases h
      · split at h
        · cases h
        · split at h
          · cases h
          · split at h
            · cases h
            · rename_i hsize hcount htotal _ parentHashes hstage
              simp only [if_neg hsize, if_neg hcount, if_neg htotal]
              rw [ih h, Worklist.walk, foldl_schedule, stageParents_eq_ok hstage]

theorem uint64_le (n : Int) : ¬ 2 ^ 64 - 1 < uint64 n := by
  unfold uint64
  omega

theorem stageParents_noLimits (setAncestors parents parentHashes : List Uint256) :
    ∃ parentHashes', stageParents noLimits setAncestors parents parentHashes = .ok parentHashes' := by
  induction parents generalizing parentHashes with
  | nil => exact ⟨parentHashes, rfl⟩
  | cons c parents ih =>
    rw [stageParents, if_neg (show ¬ noLimits.ancestorCount < _ from uint64_le _)]
    exact ih _

theorem ancestorLoop_noLimits (size fuel : Nat) (stage visited : List Uint256) (total : Int) :
    (pool.ancestorLoop env noLimits size fuel stage visited total).1 = none := by
  induction fuel generalizing stage visited total with
  | zero => rfl
  | succ fuel ih =>
    cases stage with
    | nil => rfl
    | cons a stage =>
      obtain ⟨parentHashes, hstage⟩ :=
        stageParents_noLimits (visited.insert a) (pool.getMemPoolParents a) stage
      have hsize : ¬ noLimits.descendantSize < uint64
        (pool.deref env (·.nSizeWithDescendants) a + size) := uint64_le _
      have hcount : ¬ noLimits.descendantCount < uint64
        (pool.deref env (·.nCountWithDescendants) a + 1) := uint64_le _
      have htotal : ¬ noLimits.ancestorSize < uint64 (total + pool.deref env (fun e =>
        e.getTxSize env) a) :=
        uint64_le _
      simp only [ancestorLoop, if_neg hsize, if_neg hcount, if_neg htotal, hstage]
      exact ih _ _ _

theorem nodup_ancestorLoop (hnone : (pool.ancestorLoop env limits size fuel stage [] total).1 =
    none) :
    (pool.ancestorLoop env limits size fuel stage [] total).2.Nodup := by
  rw [ancestorLoop_eq_walk _ hnone]
  exact Worklist.nodup_walk (@Worklist.known_none _ pool.getMemPoolParents) _ _ nodup_nil

section
variable (h : LinksOk env pool)
include h

theorem LinksOk.step_children :
    Worklist.Step pool.getMemPoolChildren = fun a b => Parent env pool b a := by
  funext a b
  exact propext (h.children a b)

theorem LinksOk.step_parents :
    Worklist.Step pool.getMemPoolParents = fun a b => Parent env pool a b := by
  funext a b
  exact propext (h.parents a b)

theorem mem_calculateDescendants (hx : x ∈ pool.keys env) (hs : DownClosed env pool s) :
    y ∈ pool.calculateDescendants x s ↔
      y ∈ s ∨ ReflTransGen (fun a b => Parent env pool b a) x y := by
  have hclosed : ∀ v ∈ s, Worklist.Closed pool.getMemPoolChildren (fun _ => False) s v := by
    intro v hv z _ hz
    rw [h.step_children] at hz
    exact hs.reached hv hz.to_reflTransGen
  have hinside : ∀ a ∈ (if x ∈ s then [] else [x]), a ∈ (pool.keys env).toFinset := by
    split
    · exact nofun
    · rintro a ha
      rw [mem_singleton.mp ha]
      exact List.mem_toFinset.mpr hx
  have hstage : (if x ∈ s then [] else [x]).Nodup := by
    split
    · exact nodup_nil
    · exact nodup_singleton x
  have hU : ∀ a ∈ (pool.keys env).toFinset, ∀ c ∈ pool.getMemPoolChildren a,
    c ∈ (pool.keys env).toFinset :=
    fun a _ c hc => List.mem_toFinset.mpr ((h.children a c).mp hc).mem
  rw [calculateDescendants, Worklist.mem_walk Worklist.known_none hU hinside hstage hclosed
    (card_keys h.nodup) id, h.step_children]
  constructor
  · rintro (hy | ⟨a, ha, hay⟩)
    · exact .inl hy
    · split at ha
      · cases ha
      · rw [mem_singleton.mp ha] at hay
        exact .inr hay
  · rintro (hy | hxy)
    · exact .inl hy
    · by_cases hxs : x ∈ s
      · exact .inl (hs.reached hxs hxy)
      · exact .inr ⟨x, by simp [hxs], hxy⟩

theorem downClosed_calculateDescendants (hx : x ∈ pool.keys env)
    (hs : DownClosed env pool s) : DownClosed env pool (pool.calculateDescendants x s) := by
  intro y hy z hz
  rw [mem_calculateDescendants h hx hs] at hy ⊢
  rcases hy with hy | hy
  · exact .inl (hs y hy z hz)
  · exact .inr (hy.tail hz)

theorem mem_ancestorLoop (hstage : stage.Nodup) (hin : ∀ a ∈ stage, a ∈ pool.keys env)
    (hnone : (pool.ancestorLoop env limits size pool.mapTx.length stage [] total).1 = none) :
    y ∈ (pool.ancestorLoop env limits size pool.mapTx.length stage [] total).2 ↔
      ∃ p ∈ stage, ReflTransGen (Parent env pool) p y := by
  have hU : ∀ a ∈ (pool.keys env).toFinset, ∀ c ∈ pool.getMemPoolParents a,
    c ∈ (pool.keys env).toFinset :=
    fun a _ c hc => List.mem_toFinset.mpr ((h.parents a c).mp hc).mem_parent
  have hinside : ∀ a ∈ stage, a ∈ (pool.keys env).toFinset :=
    fun a ha => List.mem_toFinset.mpr (hin a ha)
  rw [ancestorLoop_eq_walk _ hnone, Worklist.mem_walk Worklist.known_none hU hinside hstage
    (fun _ hv => absurd hv not_mem_nil) (card_keys h.nodup) id, h.step_parents]
  exact or_iff_right not_mem_nil

theorem mem_ancestors_of_entry (entry : CTxMemPoolEntry) :
    y ∈ (pool.calculateMemPoolAncestors env entry noLimits false).2 ↔
      TransGen (Parent env pool) (entry.getHash env) y := by
  have hloop := mem_ancestorLoop (y := y) h (h.parentsNodup (entry.getHash env))
    (fun a ha => ((h.parents _ a).mp ha).mem_parent)
    (ancestorLoop_noLimits (entry.getTxSize env) _ _ [] (entry.getTxSize env))
  rw [TransGen.head'_iff]
  refine hloop.trans (exists_congr fun p => ?_)
  rw [h.parents]

end

end CTxMemPool

end OurChain
