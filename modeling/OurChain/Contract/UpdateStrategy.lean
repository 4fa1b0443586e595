import OurChain.Contract.Cache

/-!
# Update strategies

The four strategies that bring the contract snapshot to the active chain: do
nothing, rebuild from the genesis block, continue from the tracked tip, roll back
to a checkpoint. They call each other, so they are one function by fuel; `none`
stands for a failed assertion or exhausted fuel. What `clear` does to the stores is a
parameter.
-/

namespace OurChain

open List

/-- What the strategies use of the rest of the node. Next to the snapshot, which
is rolled back, executing a transaction may change a side state, which is not. -/
structure ContractEnv (β τ σ δ : Type) where
  blockHash : Node β → Uint256
  readBlockFromDisk : Node β → Option (List τ)
  processContract : τ → σ × δ → Bool × σ × δ
  emptySnapShot : σ

structure ContractState (σ δ : Type) where
  cache : ContractStateCache σ
  side : δ

inductive UpdateStrategyType
  | typeUnDo
  | typeRebuild
  | typeContinue
  | typeRollback
  deriving DecidableEq

variable {β τ σ δ : Type} (env : ContractEnv β τ σ δ)

/-- The result of `ProcessContract` is only logged. -/
def processBlock (vtx : List τ) (st : σ × δ) : σ × δ :=
  vtx.foldl (fun st tx => (env.processContract tx st).2) st

/-- `realBlock` is the stack of blocks, its top first. -/
def processContracts : List (Node β) → ContractState σ δ → Bool × ContractState σ δ
  | [], st => (true, st)
  | tmpBlock :: realBlock, st =>
    match env.readBlockFromDisk tmpBlock with
    | none => (false, st)
    | some vtx =>
      let (snapShot, side) := processBlock env vtx (st.cache.snapShot, st.side)
      processContracts realBlock { cache := { st.cache with snapShot }, side }

/-- What `clear` leaves of the two stores. -/
structure Clearing (σ : Type) where
  snapShot : σ → σ
  blockCache : BlockCache → BlockCache

def emptying : Clearing σ := ⟨fun _ => env.emptySnapShot, fun _ => []⟩

def rebuild (clear : Clearing σ) (tip : Node β) (st : ContractState σ δ) :
    Bool × ContractState σ δ :=
  let cleared := { st.cache with
    snapShot := clear.snapShot st.cache.snapShot
    blockCache := clear.blockCache st.cache.blockCache }
  let (cache, realBlock) := tip.path.foldl (fun (cache, realBlock) pindex =>
    (cache.pushBlock (blockRef env.blockHash pindex), pindex :: realBlock)) (cleared, [])
  processContracts env realBlock { st with cache }

/-- How the walk of `UpdateStrategyContinue` ends, with the blocks it stacked. -/
inductive ContinueWalk (β : Type)
  | found (realBlock : List (Node β))
  | behind
  | exhausted (realBlock : List (Node β))

def continueWalk (firstBlock : BlockRef) : Node β → List (Node β) → ContinueWalk β
  | .root x, realBlock =>
    if blockRef env.blockHash (.root x) = firstBlock then .found realBlock
    else if (Node.root x).height < firstBlock.blockHeight then .behind
    else .exhausted (.root x :: realBlock)
  | .child parent x, realBlock =>
    if blockRef env.blockHash (.child parent x) = firstBlock then .found realBlock
    else if (Node.child parent x).height < firstBlock.blockHeight then .behind
    else continueWalk firstBlock parent (.child parent x :: realBlock)

/-- What `UpdateStrategyRollback` hands over to. -/
inductive RollbackWalk (σ : Type)
  | rebuild (cache : ContractStateCache σ)
  | restored (cache : ContractStateCache σ)
  | next (firstBlock : BlockRef) (cache : ContractStateCache σ)

def popFirst (cache : ContractStateCache σ) : RollbackWalk σ :=
  let cache := cache.popBlock
  match cache.getFirstBlockCache with
  | none => .rebuild cache
  | some firstBlock => .next firstBlock cache

/-- Drops blocks down to below `height`. Every turn drops one, so their number
bounds the loop. -/
def popTo (height : Int) : Nat → BlockRef → ContractStateCache σ → RollbackWalk σ
  | 0, firstBlock, cache => .next firstBlock cache
  | fuel + 1, firstBlock, cache =>
    if height ≤ firstBlock.blockHeight then
      match popFirst cache with
      | .next firstBlock cache => popTo height fuel firstBlock cache
      | done => done
    else .next firstBlock cache

def rollbackStep (checkPointList : List (Uint256 × Nat)) (pindex : Node β) (firstBlock : BlockRef)
    (cache : ContractStateCache σ) : Option (RollbackWalk σ) :=
  if firstBlock.blockHeight < pindex.height then some (.next firstBlock cache)
  else if (pindex.height : Int) = firstBlock.blockHeight then
    if env.blockHash pindex = firstBlock.blockHash ∧
        (checkPointList.map Prod.fst).contains (env.blockHash pindex) then
      (cache.restoreCheckPoint (env.blockHash pindex) checkPointList).map .restored
    else some (popFirst cache)
  else some (popTo pindex.height (cache.blockCache.length + 1) firstBlock cache)

def rollbackWalk (checkPointList : List (Uint256 × Nat)) : Node β → BlockRef →
    ContractStateCache σ → Option (RollbackWalk σ)
  | .root x, firstBlock, cache => do
    match ← rollbackStep env checkPointList (.root x) firstBlock cache with
    | .next _ cache => some (.rebuild cache)
    | done => some done
  | .child parent x, firstBlock, cache => do
    match ← rollbackStep env checkPointList (.child parent x) firstBlock cache with
    | .next firstBlock cache => rollbackWalk checkPointList parent firstBlock cache
    | done => some done

/-- How a strategy ends: it returns, or it returns what another one returns. -/
inductive StrategyStep (σ δ : Type)
  | returned (result : Bool × ContractState σ δ)
  | calls (strategy : UpdateStrategyType) (st : ContractState σ δ)

/-- A strategy up to its call of another one; none if an assertion fails. -/
def strategyStep (clear : Clearing σ) (tip : Node β) (st : ContractState σ δ) :
    UpdateStrategyType → Option (StrategyStep σ δ)
  | .typeUnDo => some (.returned (true, st))
  | .typeRebuild => some (.returned (rebuild env clear tip st))
  | .typeContinue =>
    match st.cache.getFirstBlockCache with
    | none => some (.returned (false, st))
    | some firstBlock =>
      match continueWalk env firstBlock tip [] with
      | .found realBlock =>
        let cache := realBlock.foldl (fun cache pindex =>
          cache.pushBlock (blockRef env.blockHash pindex)) st.cache
        some (.returned (processContracts env realBlock { st with cache }))
      | .behind => some (.calls .typeRollback st)
      -- the chain ended without a match: the stacked blocks are executed but not tracked
      | .exhausted realBlock => some (.returned (processContracts env realBlock st))
  | .typeRollback =>
    match st.cache.getFirstBlockCache with
    | none => some (.returned (false, st))
    | some firstBlock =>
      match rollbackWalk env st.cache.getCheckPointList tip firstBlock st.cache with
      | some (.rebuild cache) => some (.calls .typeRebuild { st with cache })
      | some (.restored cache) => some (.calls .typeContinue { st with cache })
      | _ => none

def updateSnapShot (clear : Clearing σ) : Nat → UpdateStrategyType → Node β →
    ContractState σ δ → Option (Bool × ContractState σ δ)
  | 0, _, _, _ => none
  | fuel + 1, strategy, tip, st =>
    match strategyStep env clear tip st strategy with
    | none => none
    | some (.returned result) => some result
    | some (.calls strategy st) => updateSnapShot clear fuel strategy tip st

def createUpdateStrategy (tip : Node β) (cache : ContractStateCache σ) : UpdateStrategyType :=
  match cache.getFirstBlockCache with
  | none => .typeRebuild
  | some firstBlock =>
    if env.blockHash tip = firstBlock.blockHash ∧ (tip.height : Int) = firstBlock.blockHeight then
      .typeUnDo
    else if env.blockHash tip ≠ firstBlock.blockHash then
      if (tip.height : Int) ≤ firstBlock.blockHeight then .typeRollback else .typeContinue
    else .typeRollback

/-- A block tree the node can run on: one genesis block, a hash names one block,
heights are `int`s, and every block can be read. -/
structure ChainTree (env : ContractEnv β τ σ δ) extends Tree β where
  hash_inj : Set.InjOn env.blockHash nodes
  height_lt : ∀ n ∈ nodes, n.height < 2 ^ 31
  readable : ∀ n ∈ nodes, (env.readBlockFromDisk n).isSome

variable {env}

/-- The node when its disk does not give back the blocks in `fails`. -/
def ContractEnv.failing (env : ContractEnv β τ σ δ) (fails : Node β → Bool) : ContractEnv β τ σ δ :=
  { env with readBlockFromDisk := fun n => if fails n then none else env.readBlockFromDisk n }

def execute (env : ContractEnv β τ σ δ) (realBlock : List (Node β)) (st : σ × δ) : σ × δ :=
  realBlock.foldl (fun st n => processBlock env ((env.readBlockFromDisk n).getD []) st) st

theorem execute_append (l l' : List (Node β)) (st : σ × δ) :
    execute env (l ++ l') st = execute env l' (execute env l st) := by
  simp [execute]

def ContractState.withResult (st : ContractState σ δ) (r : σ × δ) : ContractState σ δ :=
  { cache := { st.cache with snapShot := r.1 }, side := r.2 }

theorem processContracts_failing (fails : Node β → Bool) {realBlock : List (Node β)}
    (h : ∀ n ∈ realBlock, (env.readBlockFromDisk n).isSome) (st : ContractState σ δ) :
    processContracts (env.failing fails) realBlock st = (realBlock.all fun n => !fails n,
      st.withResult (execute env (realBlock.takeWhile fun n => !fails n)
        (st.cache.snapShot, st.side))) := by
  induction realBlock generalizing st with
  | nil => rfl
  | cons n realBlock ih =>
    obtain ⟨hn, hrest⟩ := forall_mem_cons.mp h
    obtain ⟨vtx, hvtx⟩ := Option.isSome_iff_exists.mp hn
    cases hfails : fails n with
    | true => simp [processContracts, ContractEnv.failing, hfails, execute, ContractState.withResult]
    | false =>
      have hread : (env.failing fails).readBlockFromDisk n = some vtx := by
        simp [ContractEnv.failing, hfails, hvtx]
      simp only [processContracts, hread, ih hrest]
      simp [execute, hfails, hvtx, ContractState.withResult, processBlock, ContractEnv.failing]

theorem ChainTree.readable_branch (t : ChainTree env) {tip : Node β} (ht : tip ∈ t.nodes) :
    ∀ n ∈ tip.branch, (env.readBlockFromDisk n).isSome := fun n hn =>
  t.readable n (t.mem_of_mem_path ht ((Node.mem_branch n tip).mp hn))

theorem ChainTree.readable_since [DecidableEq β] (t : ChainTree env) {tip : Node β}
    (ht : tip ∈ t.nodes) (q : Option (Node β)) :
    ∀ n ∈ tip.since q, (env.readBlockFromDisk n).isSome := fun n hn =>
  t.readable n (t.mem_of_mem_path ht (Node.mem_since hn))

section
variable {c : ContractStateCache σ} {q : Node β} (hq : q.height < 2 ^ 31)
  (h : c.blockCache = track env.blockHash (some q))
include hq h

theorem getFirstBlockCache_track : c.getFirstBlockCache = some (blockRef env.blockHash q) := by
  rw [ContractStateCache.getFirstBlockCache, h, getHeighestBlock_track hq, if_neg]
  simp only [blockRef]
  omega

theorem popBlock_track : c.popBlock = { c with blockCache := track env.blockHash q.pprev } := by
  rw [ContractStateCache.popBlock, h, getHeighestBlock_track hq]
  simp only [blockRef, removeBlockIndex_track hq]

end

theorem foldl_pushBlock (hash : Node β → Uint256) (n : Node β) (c : ContractStateCache σ)
    (stack : List (Node β)) :
    n.path.foldl (fun (cache, realBlock) pindex =>
      (cache.pushBlock (blockRef hash pindex), pindex :: realBlock)) (c, stack) =
      ({ c with blockCache := pushPath hash n c.blockCache }, n.branch ++ stack) := by
  induction n generalizing c stack with
  | root x => rfl
  | child p x ih =>
    rw [Node.path, foldl_cons, pushPath_child, Node.branch, append_assoc]
    exact ih _ _

theorem rebuild_eq (clear : Clearing σ) (tip : Node β) (st : ContractState σ δ) :
    rebuild env clear tip st = processContracts env tip.branch
      { st with cache := { st.cache with
          snapShot := clear.snapShot st.cache.snapShot
          blockCache := pushPath env.blockHash tip (clear.blockCache st.cache.blockCache) } } := by
  rw [rebuild]
  simp only [foldl_pushBlock, append_nil]

def IdsOk (checkPoints : List (CheckPoint σ)) : Prop :=
  (∀ cp ∈ checkPoints, 0 < cp.id) ∧ checkPoints.Pairwise fun a b => a.id < b.id

theorem find_id_of_pairwise {cps : List (CheckPoint σ)} (h : cps.Pairwise fun a b => a.id < b.id)
    (hcp : cp ∈ cps) : cps.find? (fun c => c.id = cp.id) = some cp := by
  induction cps with
  | nil => cases hcp
  | cons c cps ih =>
    obtain ⟨hc, hrest⟩ := pairwise_cons.mp h
    rcases mem_cons.mp hcp with rfl | hcp
    · simp
    · rw [find?_cons_of_neg (by simpa using Nat.ne_of_lt (hc cp hcp))]
      exact ih hrest hcp

section
variable {c : ContractStateCache σ} {cps : List (CheckPoint σ)}

theorem restoreCheckPoint_of_find (hc : c.checkPoints = cps)
    {tip : Uint256} (hfind : cps.find? (fun cp => cp.tipBlockHash = tip) = some cp) (hid : 0 < cp.id)
    (hsaved : cps.find? (fun c => c.id = cp.id) = some saved) :
    c.restoreCheckPoint tip (cps.map fun cp => (cp.tipBlockHash, cp.id)) = some { c with
      snapShot := saved.state } := by
  have hlist : (cps.map fun cp => (cp.tipBlockHash, cp.id)).find? (fun info => info.1 = tip) =
      some (cp.tipBlockHash, cp.id) := by
    rw [find?_map]
    exact congrArg (Option.map _) hfind
  rw [ContractStateCache.restoreCheckPoint, hlist, hc]
  simp only [Option.bind_eq_bind, Option.bind_some, if_neg (Nat.ne_of_gt hid), hsaved]

theorem restoreCheckPoint_find (hids : IdsOk cps) (hc : c.checkPoints = cps) {tip : Uint256}
    (hfind : cps.find? (fun cp => cp.tipBlockHash = tip) = some cp) :
    c.restoreCheckPoint tip (cps.map fun cp => (cp.tipBlockHash, cp.id)) =
      some { c with snapShot := cp.state } := by
  have hcp := mem_of_find?_eq_some hfind
  exact restoreCheckPoint_of_find hc hfind (hids.1 cp hcp) (find_id_of_pairwise hids.2 hcp)

end

section
variable (t : ChainTree env) {c : ContractStateCache σ}

theorem popFirst_root {x : β} (hx : Node.root x ∈ t.nodes)
    (htrack : c.blockCache = track env.blockHash (some (.root x))) :
    popFirst c = .rebuild { c with blockCache := [] } := by
  rw [popFirst, popBlock_track (t.height_lt _ hx) htrack]
  rfl

theorem popFirst_child {p : Node β} {x : β} (hx : Node.child p x ∈ t.nodes)
    (htrack : c.blockCache = track env.blockHash (some (.child p x))) :
    popFirst c = .next (blockRef env.blockHash p)
      { c with blockCache := track env.blockHash (some p) } := by
  have hfirst : ContractStateCache.getFirstBlockCache
      { c with blockCache := track env.blockHash (some p) } = some (blockRef env.blockHash p) :=
    getFirstBlockCache_track (t.height_lt p (t.parent p x hx)) rfl
  rw [popFirst, popBlock_track (t.height_lt _ hx) htrack]
  simp only [Node.pprev, hfirst]

end

theorem blockRef_inj {t : ChainTree env} (ha : a ∈ t.nodes) (hb : b ∈ t.nodes)
    (h : blockRef env.blockHash a = blockRef env.blockHash b) : a = b :=
  t.hash_inj ha hb (congrArg BlockRef.blockHash h)

theorem continueWalk_behind (t : ChainTree env) {n q : Node β} (hn : n ∈ t.nodes)
    (hqt : q ∈ t.nodes) (hq : q ∉ n.path) (stack : List (Node β)) :
    continueWalk env (blockRef env.blockHash q) n stack = .behind := by
  have hself : ∀ n ∈ t.nodes, q ∉ n.path → blockRef env.blockHash n ≠ blockRef env.blockHash q := by
    intro n hn hq h
    cases blockRef_inj hn hqt h
    exact hq (Node.mem_path_self q)
  induction n generalizing stack with
  | root x =>
    have hheight : ((Node.root x).height : Int) < (blockRef env.blockHash q).blockHeight := by
      cases q with
      | root y =>
        cases t.root x y hn hqt
        exact absurd (Node.mem_path_self _) hq
      | child p y =>
        simp only [blockRef, Node.height]
        omega
    rw [continueWalk, if_neg (hself _ hn hq), if_pos hheight]
  | child p x ih =>
    rw [continueWalk, if_neg (hself _ hn hq)]
    split
    · rfl
    · exact ih (t.parent p x hn) (fun h => hq (mem_cons_of_mem _ h)) _

section
variable [DecidableEq β]

theorem pushSince_track {q n : Node β} (hn : n.height < 2 ^ 31) (hq : q ∈ n.path)
    (c : ContractStateCache σ) (hc : c.blockCache = track env.blockHash (some q)) :
    (n.since (some q)).foldl (fun cache pindex =>
      cache.pushBlock (blockRef env.blockHash pindex)) c =
      { c with blockCache := track env.blockHash (some n) } := by
  induction n with
  | root x =>
    cases mem_singleton.mp hq
    rw [Node.since_self, ← hc]
    rfl
  | child p x ih =>
    rcases Node.mem_path_child hq with rfl | hqp
    · rw [Node.since_self, ← hc]
      rfl
    · have hp : p.height < 2 ^ 31 := Nat.lt_of_succ_lt hn
      have hne : some (Node.child p x) ≠ some q := fun h =>
        Node.child_ne_of_mem_path hqp (Option.some.inj h)
      rw [Node.since, if_neg hne, foldl_append, ih hp hqp]
      simp only [foldl_cons, foldl_nil, ContractStateCache.pushBlock, blockRef,
        setBlockIndex_track (q := .child p x) hn rfl]

theorem continueWalk_found (t : ChainTree env) {n q : Node β} (hn : n ∈ t.nodes) (hq : q ∈ n.path)
    (stack : List (Node β)) : continueWalk env (blockRef env.blockHash q) n stack =
      .found (n.since (some q) ++ stack) := by
  have hqt := t.mem_of_mem_path hn hq
  induction n generalizing stack with
  | root x =>
    cases mem_singleton.mp hq
    simp [continueWalk]
  | child p x ih =>
    rcases Node.mem_path_child hq with rfl | hqp
    · simp [continueWalk]
    · have hne := Node.child_ne_of_mem_path (x := x) hqp
      have href : blockRef env.blockHash (.child p x) ≠ blockRef env.blockHash q := fun h =>
        hne (blockRef_inj hn hqt h)
      have hheight : ¬ ((Node.child p x).height : Int) < (blockRef env.blockHash q).blockHeight := by
        have := Node.height_le_of_mem_path hqp
        simp only [blockRef, Node.height]
        omega
      have hne' : some (Node.child p x) ≠ some q := fun h => hne (Option.some.inj h)
      rw [continueWalk, if_neg href, if_neg hheight, ih (t.parent p x hn) hqp, Node.since,
        if_neg hne', append_assoc]
      rfl

end

end OurChain
