import OurChain.Validation.ProcessNewBlock

/-!
# Calls that end in ActivateBestChain

`InvalidateBlock`, `ResetBlockFailureFlags` and `PreciousBlock`, behind the RPC calls
that look a block up by its hash, next to `ProcessNewBlock`. `InvalidateBlock` moves
the tip itself and tells nobody, so the observer only hears of it if the following
`ActivateBestChain` moves the tip once more.
-/

namespace OurChain

open CBlockIndex (haveBit)

variable (env : ChainEnv) (o : BlockOracle)

namespace ChainState

/-- The loop that disconnects the tip while the chain contains `pindex`. -/
def disconnectFrom (o : Oracle) (pindex : BlockPtr) : BlockPtr → ChainState → Bool × ChainState
  | .root block, s =>
    if pindex ∈ (Node.root block).path then (false, s.markFailed BLOCK_FAILED_CHILD (.root block))
    else (true, s)
  | .child pprev block, s =>
    if pindex ∈ (Node.child pprev block).path then
      let s := s.markFailed BLOCK_FAILED_CHILD (.child pprev block)
      if o.disconnectTip (.child pprev block) then
        disconnectFrom o pindex pprev { s with chainActive := pprev }
      else (false, s)
    else (true, s)

/-- The block could be the best tip: it is valid, linked and not worse than the tip. -/
def restoreCandidate (s : ChainState) (pindex : BlockPtr) : ChainState :=
  if isValid BLOCK_VALID_TRANSACTIONS (s.nStatus pindex) ∧ s.nChainTx pindex ≠ 0 ∧
      env.less pindex s.chainActive = false then
    { s with setBlockIndexCandidates := OrdSet.insert env.less pindex s.setBlockIndexCandidates }
  else s

def invalidateBlock (o : Oracle) (pindex : BlockPtr) (s : ChainState) : Bool × ChainState :=
  let (ok, s) := (s.markFailed BLOCK_FAILED_VALID pindex).disconnectFrom o pindex s.chainActive
  if !ok then (false, s) else (true, s.mapBlockIndex.foldl (restoreCandidate env) s)

section
variable (pindex : BlockPtr) (s : ChainState)

def resetEntry (entry : BlockPtr) : ChainState :=
  if isValid BLOCK_VALID_TRANSACTIONS (s.nStatus entry) = false ∧
      entry.ancestorAt pindex.height = some pindex then
    let nStatus := s.nStatus entry &&& ~~~BLOCK_FAILED_MASK
    let s := { s with nStatus := Function.update s.nStatus entry nStatus }
    if isValid BLOCK_VALID_TRANSACTIONS nStatus ∧ s.nChainTx entry ≠ 0 ∧
        env.less s.chainActive entry then
      { s with setBlockIndexCandidates := OrdSet.insert env.less entry s.setBlockIndexCandidates }
    else s
  else s

def resetBlockFailureFlags : ChainState :=
  let s := s.mapBlockIndex.foldl (resetEntry env pindex) s
  { s with nStatus := fun p =>
      if p ∈ pindex.path then s.nStatus p &&& ~~~BLOCK_FAILED_MASK else s.nStatus p }

/-- `PreciousBlock` up to the call of `ActivateBestChain`: false if it returns before.
The sequence ids that it changes are not read by the comparator. -/
def preciousBlock : Option (Bool × ChainState) :=
  if nChainWork pindex < nChainWork s.chainActive then some (false, s)
  else
    let candidates := s.setBlockIndexCandidates.filter (· ≠ pindex)
    if isValid BLOCK_VALID_TRANSACTIONS (s.nStatus pindex) ∧ s.nChainTx pindex ≠ 0 then do
      let s ← pruneBlockIndexCandidates env
        { s with setBlockIndexCandidates := OrdSet.insert env.less pindex candidates }
      some (true, s)
    else some (true, { s with setBlockIndexCandidates := candidates })

end

end ChainState

inductive Call
  | processNewBlock (block : CBlock) (fForceProcessing : Bool)
  | invalidateblock (hash : Uint256)
  | reconsiderblock (hash : Uint256)
  | preciousblock (hash : Uint256)

/-- A call up to `ActivateBestChain`: false if it does not get there. An unknown hash is
an error of the RPC call. -/
def Call.before (s : ChainState) : Call → Option (Bool × ChainState)
  | .processNewBlock block fForceProcessing => some (storeNewBlock env o block fForceProcessing s)
  | .invalidateblock hash =>
    match s.find env.toHeaderEnv hash with
    | none => some (false, s)
    | some pindex => some (true, (s.invalidateBlock env o.toOracle pindex).2)
  | .reconsiderblock hash =>
    match s.find env.toHeaderEnv hash with
    | none => some (false, s)
    | some pindex => some (true, s.resetBlockFailureFlags env pindex)
  | .preciousblock hash =>
    match s.find env.toHeaderEnv hash with
    | none => some (false, s)
    | some pindex => s.preciousBlock env pindex

/-- A call, with what `ActivateBestChain` returned if it was reached. -/
def Call.run (fuel : Nat) (call : Call) (s : ChainState) : Option (Option Bool × ChainState) :=
  match call.before env o s with
  | none => none
  | some (false, s) => some (none, s)
  | some (true, s) =>
    match activateBestChain env o.toOracle fuel 0 none s with
    | none => none
    | some (result, s) => some (some result, s)

/-- One call after the other, each with its own outside world, and the result of the
last one. -/
def runCalls (fuel : Nat) : List (BlockOracle × Call) → Option Bool → ChainState →
    Option (Option Bool × ChainState)
  | [], last, s => some (last, s)
  | (o, call) :: rest, _, s =>
    match call.run env o fuel s with
    | none => none
    | some (last, s) => runCalls fuel rest last s

/-- Every `ActivateBestChain` of the run is entered under the cover of a good candidate,
and the index stays within the tree `t`. -/
def AllCovered (t : Tree CBlockHeader) (fuel : Nat) : List (BlockOracle × Call) → ChainState → Prop
  | [], _ => True
  | (o, call) :: rest, s =>
    (∀ activates s₁, call.before env o s = some (activates, s₁) →
      (∀ n ∈ s₁.mapBlockIndex, n ∈ t.nodes) ∧
      (activates = true → ∃ c, Covers env o.toOracle s₁ c)) ∧
    ∀ last s', call.run env o fuel s = some (last, s') → AllCovered t fuel rest s'

variable {env o} {t : Tree CBlockHeader} {s s' : ChainState}

namespace ChainState

theorem markFailed_ok (hs : s.Ok env t) (flag : BitVec 32) (p : BlockPtr) :
    (s.markFailed flag p).Ok env t :=
  hs.of_sublist rfl hs.tip List.filter_sublist hs.unlinked

theorem disconnectFrom_ok {o : Oracle} {tip : BlockPtr} (hs : s.Ok env t) (htip : s.chainActive = tip)
    (p : BlockPtr) : (s.disconnectFrom o p tip).2.Ok env t := by
  induction tip generalizing s with
  | root x =>
    rw [disconnectFrom]
    split
    · exact markFailed_ok hs _ _
    · exact hs
  | child pprev x ih =>
    rw [disconnectFrom]
    split
    · have hmarked := markFailed_ok hs BLOCK_FAILED_CHILD (.child pprev x)
      have hpprev : pprev ∈ s.mapBlockIndex :=
        hs.closed _ hs.tip pprev (htip ▸ Node.mem_path_parent pprev _)
      split
      · exact ih (hmarked.of_sublist rfl hpprev (.refl _) hmarked.unlinked) rfl
      · exact hmarked
    · exact hs

theorem foldl_ok {f : ChainState → BlockPtr → ChainState}
    (hf : ∀ s p, s.Ok env t → p ∈ s.mapBlockIndex →
      (f s p).Ok env t ∧ (f s p).mapBlockIndex = s.mapBlockIndex)
    {entries : List BlockPtr} (hs : s.Ok env t) (hentries : ∀ p ∈ entries, p ∈ s.mapBlockIndex) :
    (entries.foldl f s).Ok env t := by
  induction entries generalizing s with
  | nil => exact hs
  | cons p entries ih =>
    obtain ⟨hp, hrest⟩ := List.forall_mem_cons.mp hentries
    obtain ⟨hok, hmap⟩ := hf s p hs hp
    exact ih hok (hmap ▸ hrest)

section
variable (hord : env.Orders t) (hs : s.Ok env t)
include hord hs

theorem restoreCandidate_ok (hp : p ∈ s.mapBlockIndex) :
    (s.restoreCandidate env p).Ok env t ∧ (s.restoreCandidate env p).mapBlockIndex =
    s.mapBlockIndex := by
  unfold restoreCandidate
  split
  · exact ⟨hs.insert hord hp, rfl⟩
  · exact ⟨hs, rfl⟩

theorem resetEntry_ok (hp : p ∈ s.mapBlockIndex) (pindex : BlockPtr) :
    (s.resetEntry env pindex p).Ok env t ∧ (s.resetEntry env pindex p).mapBlockIndex =
    s.mapBlockIndex := by
  have hcleared : ∀ nStatus, ChainState.Ok env t { s with nStatus := nStatus } := fun _ =>
    hs.of_sublist rfl hs.tip (.refl _) hs.unlinked
  unfold resetEntry
  dsimp only
  split
  · split
    · exact ⟨(hcleared _).insert hord hp, rfl⟩
    · exact ⟨hcleared _, rfl⟩
  · exact ⟨hs, rfl⟩

theorem invalidateBlock_ok (o : Oracle)
    (p : BlockPtr) : (s.invalidateBlock env o p).2.Ok env t := by
  have hwalk := disconnectFrom_ok (o := o) (markFailed_ok hs BLOCK_FAILED_VALID p) rfl p
  unfold invalidateBlock
  dsimp only
  split
  · exact hwalk
  · exact foldl_ok (fun _ _ hs hp => restoreCandidate_ok hord hs hp) hwalk fun _ => id

theorem resetBlockFailureFlags_ok (p : BlockPtr) : (s.resetBlockFailureFlags env p).Ok env t := by
  have hreset := foldl_ok (fun _ _ hok hmem => resetEntry_ok hord hok hmem p) hs fun _ => id
  exact hreset.of_sublist rfl hreset.tip (.refl _) hreset.unlinked

theorem preciousBlock_ok (hp : p ∈ s.mapBlockIndex)
    (h : s.preciousBlock env p = some (activates, s')) : s'.Ok env t := by
  have herased : ChainState.Ok env t { s with
      setBlockIndexCandidates := s.setBlockIndexCandidates.filter (· ≠ p) } :=
    hs.of_sublist rfl hs.tip List.filter_sublist hs.unlinked
  unfold preciousBlock at h
  split at h
  · cases h
    exact hs
  · split at h
    · simp only [Option.bind_eq_bind, Option.bind_eq_some_iff] at h
      obtain ⟨s₁, hprune, h⟩ := h
      cases h
      have hinserted := herased.insert hord hp
      rw [prune_eq_some hprune]
      exact hinserted.of_sublist rfl hs.tip (List.dropWhile_sublist _) hs.unlinked
    · cases h
      exact herased

end

end ChainState

section
variable (hord : env.Orders t) (hs : s.Ok env t)
include hord hs

theorem Call.before_ok {call : Call}
    (h : call.before env o s = some (activates, s')) (htree : ∀ n ∈ s'.mapBlockIndex, n ∈ t.nodes) :
    s'.Ok env t := by
  cases call with
  | processNewBlock block force =>
    have hstore : storeNewBlock env o block force s = (activates, s') := Option.some.inj h
    have hok := storeNewBlock_ok hord hs (o := o) block force
    rw [hstore] at hok
    exact hok htree
  | invalidateblock hash =>
    rw [Call.before] at h
    split at h
    · cases h
      exact hs
    · cases h
      exact ChainState.invalidateBlock_ok hord hs _ _
  | reconsiderblock hash =>
    rw [Call.before] at h
    split at h
    · cases h
      exact hs
    · cases h
      exact ChainState.resetBlockFailureFlags_ok hord hs _
  | preciousblock hash =>
    rw [Call.before] at h
    split at h
    · cases h
      exact hs
    · rename_i hfind
      exact ChainState.preciousBlock_ok hord hs (Table.find_mem hfind) h

/-- A covered call keeps the state well-formed, and leaves a tip that the observer has
seen if `ActivateBestChain` returns true. -/
theorem Call.run_observed {call : Call}
    (hcovered : ∀ activates s₁, call.before env o s = some (activates, s₁) →
      (∀ n ∈ s₁.mapBlockIndex, n ∈ t.nodes) ∧
      (activates = true → ∃ c, Covers env o.toOracle s₁ c))
    (h : call.run env o fuel s = some (last, s')) :
    s'.Ok env t ∧ (last = some true → s'.observed = s'.chainActive) := by
  rw [Call.run] at h
  split at h
  · cases h
  · rename_i hbefore
    cases h
    exact ⟨Call.before_ok hord hs hbefore (hcovered _ _ hbefore).1, by simp⟩
  · rename_i s₁ hbefore
    obtain ⟨htree, hcover⟩ := hcovered _ _ hbefore
    have hs₁ := Call.before_ok hord hs hbefore htree
    split at h
    · cases h
    · rename_i hactivate
      cases h
      refine ⟨activateBestChain_ok hord hs₁ (by simp) hactivate, ?_⟩
      rintro ⟨⟩
      have hunder : UnderCover env o.toOracle s₁ none := hcover rfl
      exact activateBestChain_observed hord hs₁ hunder (by simp) hactivate

theorem runCalls_seen {calls : List (BlockOracle × Call)} (hcovered : AllCovered env t fuel calls s)
    (hlast : last = some true → s.observed = s.chainActive)
    (h : runCalls env fuel calls last s = some (last', s')) :
    last' = some true → s'.observed = s'.chainActive := by
  induction calls generalizing s last with
  | nil =>
    cases h
    exact hlast
  | cons c rest ih =>
    obtain ⟨o, call⟩ := c
    rw [runCalls] at h
    split at h
    · cases h
    · rename_i hrun
      obtain ⟨hok, hseen⟩ := Call.run_observed hord hs hcovered.1 hrun
      exact ih hok (hcovered.2 _ _ hrun) hseen h

end

theorem runCalls_observed (env : ChainEnv) (t : Tree CBlockHeader)
    (hord : StrictTotalOn env.less t.nodes) (genesis : CBlockHeader) (hroot : .root genesis ∈ t.nodes)
    (hhash : genesis.getHash env.H = env.params.hashGenesisBlock) (fuel : Nat)
    (calls : List (BlockOracle × Call)) (hcovered : AllCovered env t fuel calls (.loaded genesis))
    (s : ChainState) (h : runCalls env fuel calls none (.loaded genesis) = some (some true, s)) :
    s.observed = s.chainActive :=
  runCalls_seen hord (ChainState.loaded_ok hroot hhash) hcovered (by simp) h rfl

/-- The block that was connected last is invalidated: the tip goes back to the genesis
block, and the observer still stands at the block that is gone. -/
theorem runCalls_invalidated :
    let env := addressedEnv fun n => n.value.nVersion.toNat
    let A := sibling 4 0 0
    (runCalls env 2
      [(smoothOracle, .processNewBlock { header := A.value, vtx := [coinbase] } true),
        (smoothOracle, .invalidateblock (env.hashOf A))] none (.loaded regTestGenesis)).map
      (fun final => (final.1, final.2.chainActive, final.2.observed)) =
    some (some true, .root regTestGenesis, A) := by decide

def rejectingOracle (n : BlockPtr) : BlockOracle :=
  { smoothOracle with connectTip := fun b => if b = n then .invalid false else .ok }

def pairTree : Tree CBlockHeader where
  nodes := {n | n = .root regTestGenesis ∨ n = sibling 4 0 0}
  parent := by
    rintro p a (h | h)
    · cases h
    · cases h
      exact .inl rfl
  root := by
    rintro a b (ha | ha) (hb | hb) <;> cases ha <;> cases hb
    rfl

theorem pairTree_ordered :
    StrictTotalOn (addressedEnv fun n => n.value.nVersion.toNat).less pairTree.nodes where
  irrefl := by
    rintro a (rfl | rfl) <;> decide
  trans := by
    rintro a (rfl | rfl) b (rfl | rfl) c (rfl | rfl) <;> decide
  total := by
    rintro a (rfl | rfl) b (rfl | rfl) <;> decide

/-- A block that fails on top of the genesis block, which the observer has seen. -/
theorem runCalls_observed_rejected :
    let env := addressedEnv fun n => n.value.nVersion.toNat
    let calls := [(rejectingOracle (sibling 4 0 0),
      Call.processNewBlock { header := (sibling 4 0 0).value, vtx := [coinbase] } true)]
    ∃ s, runCalls env 2 calls none (.loaded regTestGenesis) = some (some true, s) ∧
      s.observed = s.chainActive := by
  intro env calls
  have hresult : (runCalls env 2 calls none (.loaded regTestGenesis)).map Prod.fst =
    some (some true) := by decide
  obtain ⟨⟨_, s⟩, hrun, rfl⟩ := Option.map_eq_some_iff.mp hresult
  have hcovered : AllCovered env pairTree 2 calls (.loaded regTestGenesis) := by
    refine ⟨fun activates s₁ hbefore => ?_, fun _ _ _ => trivial⟩
    obtain rfl : (storeNewBlock env (rejectingOracle (sibling 4 0 0))
        { header := (sibling 4 0 0).value, vtx := [coinbase] } true
        (.loaded regTestGenesis)).2 = s₁ :=
      congrArg Prod.snd (Option.some.inj hbefore)
    have htree : ∀ n ∈ (storeNewBlock env (rejectingOracle (sibling 4 0 0))
        { header := (sibling 4 0 0).value, vtx := [coinbase] } true
        (.loaded regTestGenesis)).2.mapBlockIndex,
        n = .root regTestGenesis ∨ n = sibling 4 0 0 := by decide
    exact ⟨htree, fun _ => ⟨.root regTestGenesis, by decide, by decide, by decide, by decide,
      by decide, by decide⟩⟩
  exact ⟨s, hrun, runCalls_observed env pairTree pairTree_ordered regTestGenesis
    (.inl rfl) (by decide) 2 calls hcovered s hrun⟩

end OurChain
