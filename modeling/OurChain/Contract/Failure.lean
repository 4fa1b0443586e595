import OurChain.Contract.Observer
import OurChain.Contract.Rebuild

/-!
# Blocks that cannot be read

Every strategy enters the blocks of the new chain into the block cache before it
executes the first of them, and stops at the first block that `ReadBlockFromDisk`
does not give back. So a failed update leaves the block cache at the new tip
whatever was executed, and the next call takes the new chain for done. A rebuild that is
not called by another strategy also meets the blocks that were there before.
-/

namespace OurChain

variable {β τ σ δ : Type}

section
variable {env : ContractEnv β τ σ δ} (t : ChainTree env) {tip q n : Node β}

theorem get_track_hash (hq : q ∈ t.nodes) (hn : n ∈ t.nodes) :
    SortedMap.get (track env.blockHash (some n)) (intToKey q.height) = some (env.blockHash q) ↔
    q ∈ n.path := by
  rw [get_track (t.height_lt n hn)]
  constructor
  · rintro ⟨a, ha, -, hhash⟩
    rwa [← t.hash_inj (t.mem_of_mem_path hn ha) hq hhash]
  · exact fun hmem => ⟨q, hmem, rfl, rfl⟩

theorem get_track_above (hq : q ∈ t.nodes) (hn : n ∈ t.nodes) (hlt : n.height < q.height) :
    SortedMap.get (track env.blockHash (some n)) (intToKey q.height) = none := by
  refine Option.eq_none_iff_forall_ne_some.mpr fun value hvalue => ?_
  obtain ⟨a, ha, hkey, -⟩ := (get_track (t.height_lt n hn)).mp hvalue
  have hle := Node.height_le_of_mem_path ha
  have := intToKey_inj (hle.trans_lt (t.height_lt n hn)) (t.height_lt q hq) hkey
  omega

theorem eq_of_mem_paths (h : n ∈ q.path) (h' : q ∈ n.path) : n = q :=
  Node.eq_of_mem_path h (Node.mem_path_self q)
    (Nat.le_antisymm (Node.height_le_of_mem_path h) (Node.height_le_of_mem_path h'))

variable [DecidableEq β]

/-- The chain that the block cache records when a strategy has entered the chain of `tip`. A
rebuild over higher blocks leaves those above the tip, which are of one chain with it only if it
is below them. -/
def recordedTip (strategy : UpdateStrategyType) (q : Option (Node β)) (tip : Node β) :
    Option (Node β) :=
  match strategy, q with
  | .typeRebuild, some q =>
    if q.height ≤ tip.height then some tip else if tip ∈ q.path then some q else none
  | _, _ => some tip

variable (ht : tip ∈ t.nodes) (hn : n ∈ t.nodes)
include ht hn

theorem pushPath_track_iff (hq : q ∈ t.nodes) :
    pushPath env.blockHash tip (track env.blockHash (some q)) = track env.blockHash (some n) ↔
      recordedTip .typeRebuild (some q) tip = some n := by
  have hqh := t.height_lt q hq
  have hold : SortedMap.Sorted bytesLt (track env.blockHash (some q)) := track_sorted hqh
  obtain ⟨hsorted, hget⟩ := get_pushPath env.blockHash tip hold
  have hlow : q.height ≤ tip.height →
      pushPath env.blockHash tip (track env.blockHash (some q)) = track env.blockHash (some tip) := by
    intro hle
    refine (pushPath_eq_track_iff env.blockHash (t.height_lt tip ht) (track_sorted hqh)).mpr
      fun e he => ?_
    obtain ⟨k, hk, hkey⟩ := track_key_le env.blockHash he
    obtain ⟨a, ha, rfl⟩ := Node.exists_mem_path (hk.trans hle)
    exact ⟨a, ha, hkey⟩
  rw [recordedTip]
  constructor
  · intro heq
    simp only [heq] at hget
    have htip : tip ∈ n.path := by
      rw [← get_track_hash t ht hn, hget, (get_track_hash t ht ht).mpr (Node.mem_path_self tip),
        Option.some_or]
    split
    · rename_i hle
      rw [t.track_inj ht hn ((hlow hle).symm.trans heq)]
    · rename_i hgt
      have hqn : q ∈ n.path := by
        rw [← get_track_hash t hq hn, hget, get_track_above t hq ht (Nat.lt_of_not_le hgt),
          Option.none_or]
        exact (get_track_hash t hq hq).mpr (Node.mem_path_self q)
      have hown := (get_track_hash t hn hn).mpr (Node.mem_path_self n)
      have hnq : n = q := by
        rw [hget, Option.or_eq_some_iff] at hown
        rcases hown with hown | ⟨-, hown⟩
        · rw [eq_of_mem_paths ((get_track_hash t hn ht).mp hown) htip] at hqn
          exact absurd (Node.height_le_of_mem_path hqn) hgt
        · exact eq_of_mem_paths ((get_track_hash t hn hq).mp hown) hqn
      rw [← hnq, if_pos htip]
  · intro h
    split at h
    · rename_i hle
      cases h
      exact hlow hle
    · split at h
      · rename_i hmem
        cases h
        refine SortedMap.ext bytesLt_keyOrder hsorted (track_sorted hqh) fun key => ?_
        rw [hget]
        cases hnew : SortedMap.get (track env.blockHash (some tip)) key with
        | none => rfl
        | some value =>
          obtain ⟨a, ha, hkey, hvalue⟩ := (get_track (t.height_lt tip ht)).mp hnew
          rw [(get_track hqh).mpr ⟨a, Node.path_trans ha hmem, hkey, hvalue⟩, Option.some_or]
      · cases h

end

section
variable {env : ContractEnv β τ ContractStore δ}

theorem recorded_ne_nil (c : ContractStateCache ContractStore) (strategy : UpdateStrategyType)
    (tip : Node β) :
    recorded env storeClearing c strategy tip ≠ [] := by
  have hpush : ∀ (n : Node β) (m : BlockCache), pushPath env.blockHash n m ≠ [] := by
    intro n
    induction n with
    | root x =>
      intro m
      cases m with
      | nil => exact List.cons_ne_nil _ _
      | cons e m =>
        simp only [pushPath, Node.path, List.foldl_cons, List.foldl_nil, BlockCache.setBlockIndex,
          SortedMap.put]
        split
        · exact List.cons_ne_nil _ _
        · split <;> exact List.cons_ne_nil _ _
    | child p x ih => exact fun m => ih _
  rw [recorded]
  split
  · exact hpush tip _
  · exact track_ne_nil tip

theorem recordedTip_mem [DecidableEq β] {t : ChainTree env} {tip n : Node β} (ht : tip ∈ t.nodes)
    (hfollow : Following t q c) (h : recordedTip strategy q tip = some n) : n ∈ t.nodes := by
  unfold recordedTip at h
  split at h
  · rename_i q
    split at h
    · cases h
      exact ht
    · split at h
      · cases h
        exact hfollow.inTree _ rfl
      · cases h
  · cases h
    exact ht

theorem recorded_storeClearing [DecidableEq β] (t : ChainTree env) {tip n : Node β}
    (ht : tip ∈ t.nodes) (hn : n ∈ t.nodes) (hfollow : Following t q c)
    (strategy : UpdateStrategyType) :
    recorded env storeClearing c strategy tip = track env.blockHash (some n) ↔
    recordedTip strategy q tip = some n := by
  have hsame : track env.blockHash (some tip) = track env.blockHash (some n) ↔ some tip = some n :=
    ⟨fun h => congrArg some (t.track_inj ht hn h), fun h => congrArg (track env.blockHash) h⟩
  cases strategy with
  | typeUnDo => exact hsame
  | typeContinue => exact hsame
  | typeRollback => exact hsame
  | typeRebuild =>
    simp only [recorded, if_true, storeClearing, clearAllStates_eq, hfollow.tracked]
    cases q with
    | none => rwa [track, pushPath_nil env.blockHash (t.height_lt tip ht)]
    | some q => exact pushPath_track_iff t ht hn (hfollow.inTree q rfl)

end

section
variable {env : ContractEnv β τ ContractStore Unit}

/-- The snapshot is the replay of the chain that the block cache records. -/
structure Truthful (t : ChainTree env) (q : Option (Node β))
    (c : ContractStateCache ContractStore) : Prop extends Following t q c where
  snapShot : c.snapShot = q.elim env.emptySnapShot (replay env)

/-- If one of the blocks above the starting point cannot be read, those below it lead to the
replay of the chain that is recorded then. -/
def HarmlessFailure [DecidableEq β] (env : ContractEnv β τ ContractStore Unit) (fails : Node β → Bool)
    (tip : Node β) (recorded : Option (Node β)) (from? : Option (Node β)) (s : ContractStore) :
    Prop :=
  (∃ n ∈ tip.since from?, fails n) → ∃ n, recorded = some n ∧
    (execute env ((tip.since from?).takeWhile fun n => !fails n) (s, ())).1 = replay env n

/-- A failed update leaves a truthful cache exactly if the blocks that it executed lead from the
snapshot it starts from to the replay of what it recorded. -/
theorem updateSnapShot_truthful_iff [DecidableEq β] (t : ChainTree env) {tip : Node β}
    (ht : tip ∈ t.nodes) {st : ContractState ContractStore Unit} (h : Truthful t q st.cache)
    (fails : Node β → Bool) (strategy : UpdateStrategyType) (fuel : Nat) :
    (∀ st', updateSnapShot (env.failing fails) storeClearing (fuel + 3) strategy tip st =
    some (false, st') →
      ∃ q', Truthful t q' st'.cache) ↔
    ∀ from? s, startPoint env storeClearing st.cache strategy q tip = some (from?, s) →
      HarmlessFailure env fails tip (recordedTip strategy q tip) from? s := by
  have hupdate := updateSnapShot_eq fails t storeClearing ht st fuel rfl h.toFollowing strategy
  have hrecorded := fun n (hn : n ∈ t.nodes) => recorded_storeClearing t ht hn h.toFollowing strategy
  cases hstart : startPoint env storeClearing st.cache strategy q tip with
  | none =>
    rw [hstart] at hupdate
    refine ⟨by simp, fun _ st' hst' => ⟨q, ?_⟩⟩
    have hsame : st = st' := congrArg Prod.snd (Option.some.inj (hupdate.symm.trans hst'))
    exact hsame ▸ h
  | some start =>
    obtain ⟨from?, s⟩ := start
    simp only [hstart] at hupdate
    have hfailed : ((tip.since from?).all fun n => !fails n) = false ↔
        ∃ n ∈ tip.since from?, fails n := by
      simp
    refine ⟨fun hkeeps => ?_, fun hharmless st' hst' => ?_⟩
    · rintro _ _ ⟨⟩ hfails
      rw [hfailed.mpr hfails] at hupdate
      obtain ⟨q', h'⟩ := hkeeps _ hupdate
      cases q' with
      | none => exact absurd h'.tracked (recorded_ne_nil st.cache strategy tip)
      | some n => exact ⟨n, (hrecorded n (h'.inTree n rfl)).mp h'.tracked, h'.snapShot⟩
    · have hresult := Option.some.inj (hupdate.symm.trans hst')
      cases congrArg Prod.snd hresult
      obtain ⟨n, hn, hreplay⟩ := hharmless from? s rfl (hfailed.mp (congrArg Prod.fst hresult))
      have hmem := recordedTip_mem ht h.toFollowing hn
      refine ⟨some n, ⟨?_, (hrecorded n hmem).mpr hn, h.ids⟩, hreplay⟩
      rintro _ ⟨⟩
      exact hmem

end

def textEnv (read : Node Nat → List (Bytes × Bytes)) :
    ContractEnv Nat (Bytes × Bytes) ContractStore Unit :=
  putEnv.reading read

def textTree (read : Node Nat → List (Bytes × Bytes)) : ChainTree (textEnv read) where
  toTree := forkTree.toTree
  hash_inj := forkTree.hash_inj
  height_lt := forkTree.height_lt
  readable _ _ := rfl

def genesisText (n : Node Nat) : List (Bytes × Bytes) := if n.value = 0 then [([0], [0])] else []

/-- A rebuild for block 2 over the stores of block 1, when block 2 cannot be read and neither
has a contract. -/
theorem updateSnapShot_truthful_quiet : ∃ st st',
    Truthful (textTree genesisText) (some (.child (.root 0) 1)) st.cache ∧
    updateSnapShot ((textEnv genesisText).failing fun n => n.value = 2) storeClearing 3 .typeRebuild
      (.child (.root 0) 2) st = some (false, st') ∧
    ∃ q', Truthful (textTree genesisText) q' st'.cache := by
  let st : ContractState ContractStore Unit :=
    ⟨⟨track putEnv.blockHash (some (.child (.root 0) 1)), [([0], [0])], []⟩, ()⟩
  have htruthful : Truthful (textTree genesisText) (some (.child (.root 0) 1)) st.cache := by
    refine ⟨⟨?_, rfl, nofun, .nil⟩, rfl⟩
    rintro n ⟨⟩
    exact .inr (.inl rfl)
  refine ⟨st, _, htruthful, rfl, (updateSnapShot_truthful_iff (textTree genesisText)
    (.inr (.inr rfl)) htruthful (fun n => n.value = 2) .typeRebuild 0).mpr ?_ _ rfl⟩
  rintro _ _ ⟨⟩ -
  exact ⟨_, rfl, rfl⟩

def ownText (n : Node Nat) : List (Bytes × Bytes) := [([BitVec.ofNat 8 n.value], [0])]

/-- After a rebuild from empty stores that could not read block 1 the cache takes the chain for
done, and the next call does nothing. -/
theorem updateSnapShot_partly_processed : ∃ st',
    Truthful (textTree ownText) none (ContractState.initial (textEnv ownText) ()).cache ∧
    updateSnapShot ((textEnv ownText).failing fun n => n.value = 1) storeClearing 3 .typeRebuild
    (.child (.root 0) 1)
      (.initial (textEnv ownText) ()) = some (false, st') ∧
    st'.cache.blockCache = track putEnv.blockHash (some (.child (.root 0) 1)) ∧
    st'.cache.snapShot = replay (textEnv ownText) (.root 0) ∧
    ¬ (∃ q', Truthful (textTree ownText) q' st'.cache) ∧
    onChainStateSet (textEnv ownText) storeClearing 3 (.child (.root 0) 1) st' =
    some (true, st') := by
  refine ⟨_, ⟨(Replayed.initial (textTree ownText)).toFollowing, rfl⟩, rfl, rfl, rfl, ?_, rfl⟩
  rintro ⟨q', h'⟩
  have hq' : q' = some (.child (.root 0) 1) := h'.eq_of_track (.inr (.inl rfl)) rfl
  subst hq'
  exact absurd h'.snapShot (by decide)

end OurChain
