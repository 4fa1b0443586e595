import OurChain.Contract.Observer
import OurChain.Consensus.TxVerify

/-!
# Processing a contract

`ProcessContract` with the contracts directory it works on. An `ACTION_NEW` writes
`code.cpp` and lets `ourcontract-mkdll` compile it, unless the address has a
`code.so` already; every run opens the `code.so` of its address. The directory is
the side state of the observer: no strategy rolls it back.

The runs that succeeded are recorded together with the code they ran, so that what
a whole history of active chains executed can be compared with what the chains
deployed.
-/

namespace OurChain

open List hiding after
open Option

/-- The directory of contracts: source text and shared object by address. -/
structure ContractsDir (κ : Type) where
  codeCpp : Uint256 → Option Bytes
  codeSo : Uint256 → Option κ

/-- The compiler, and the entry point of compiled code. A contract is a shared object in a
process of the node's own user, which is told where the contracts are: it sees the directory,
the transaction and the state, and leaves an exit status, a state and a directory. -/
structure Runtime (κ σ : Type) where
  compile : Bytes → Option κ
  contractMain : κ → ContractsDir κ → CTransaction → σ → BitVec 8 × σ × ContractsDir κ

/-- No contract writes to the directory. -/
def Runtime.Confined (rt : Runtime κ σ) : Prop :=
  ∀ code dir tx state, (rt.contractMain code dir tx state).2.2 = dir

structure BlockTx (β : Type) where
  block : Node β
  pos : Nat
  tx : CTransaction

structure ContractRun (β κ : Type) where
  tx : BlockTx β
  code : κ

structure ContractSide (β κ : Type) where
  dir : ContractsDir κ
  runs : List (ContractRun β κ)

variable {β κ σ : Type}

namespace BlockTx

def action (c : BlockTx β) : BitVec 8 := c.tx.contract.action
def address (c : BlockTx β) : Uint256 := c.tx.contract.address

end BlockTx

def ContractsDir.writeCode (dir : ContractsDir κ) (address : Uint256) (code : Bytes) :
    ContractsDir κ :=
  { dir with codeCpp := Function.update dir.codeCpp address (some code) }

/-- The script skips an address that has its shared object. It ends with `rm -f` or
`echo`, so its exit status does not tell whether the compiler failed. -/
def callMkdll (rt : Runtime κ σ) (address : Uint256) (dir : ContractsDir κ) : Int × ContractsDir κ :=
  match dir.codeSo address with
  | some _ => (0, dir)
  | none =>
    let codeSo := (dir.codeCpp address).bind rt.compile
    (0, { dir with codeSo := Function.update dir.codeSo address codeSo })

section
variable (rt : Runtime κ σ) (c : BlockTx β) (st : σ × ContractSide β κ)

def callRt : Int × σ × ContractSide β κ :=
  let (state, side) := st
  match side.dir.codeSo c.address with
  | none => (-1, st)
  | some code =>
    let (status, state, dir) := rt.contractMain code side.dir c.tx state
    if status ≠ 0#8 then (-1, state, { side with dir })
    else (0, state, { side with dir, runs := side.runs ++ [⟨c, code⟩] })

def processContract : Bool × σ × ContractSide β κ :=
  let (state, side) := st
  if c.action = ACTION_NEW then
    let dir := side.dir.writeCode c.address c.tx.contract.code
    let (ret, dir) := callMkdll rt c.address dir
    if ret < 0 then (false, state, { side with dir })
    else
      let (ret, st) := callRt rt c (state, { side with dir })
      if ret < 0 then (false, st) else (true, st)
  else if c.action = ACTION_CALL then
    let (ret, st) := callRt rt c st
    if ret < 0 then (false, st) else (true, st)
  else (true, st)

end

/-- A node: its runtime, and what the observer needs of the block store. -/
structure ContractNode (β κ σ : Type) extends Runtime κ σ where
  blockHash : Node β → Uint256
  readBlockFromDisk : Node β → Option (List CTransaction)
  emptySnapShot : σ

def ContractNode.env (node : ContractNode β κ σ) :
    ContractEnv β (BlockTx β) σ (ContractSide β κ) where
  blockHash := node.blockHash
  readBlockFromDisk n :=
    (node.readBlockFromDisk n).map fun vtx => vtx.mapIdx fun pos tx => ⟨n, pos, tx⟩
  processContract := processContract node.toRuntime
  emptySnapShot := node.emptySnapShot

section
variable (rt : Runtime κ σ)

def startDir (c : BlockTx β) (dir : ContractsDir κ) : ContractsDir κ :=
  if c.action = ACTION_NEW then (callMkdll rt c.address
    (dir.writeCode c.address c.tx.contract.code)).2 else dir

def executedCode (c : BlockTx β) (dir : ContractsDir κ) : Option κ :=
  if c.action = ACTION_NEW ∨ c.action = ACTION_CALL then (startDir rt c dir).codeSo c.address
  else none

def processAll (txs : List (BlockTx β)) (st : σ × ContractSide β κ) : σ × ContractSide β κ :=
  txs.foldl (fun st tx => (processContract rt tx st).2) st

def deploys (address : Uint256) (c : BlockTx β) : Option κ :=
  if c.action = ACTION_NEW ∧ c.address = address then rt.compile c.tx.contract.code else none

/-- The first code that the transactions deploy at an address. -/
def deployedCode (txs : List (BlockTx β)) (address : Uint256) : Option κ :=
  txs.findSome? (deploys rt address)

theorem deployedCode_append (l l' : List (BlockTx β)) (address : Uint256) :
    deployedCode rt (l ++ l') address = (deployedCode rt l address).or
    (deployedCode rt l' address) := by
  simp [deployedCode, findSome?_append]

end

theorem deployedCode_eq_some {rt : Runtime κ σ} {txs : List (BlockTx β)}
    (h : deployedCode rt txs address = some code) :
    ∃ d ∈ txs, d.action = ACTION_NEW ∧ d.address = address ∧
      rt.compile d.tx.contract.code = some code := by
  obtain ⟨d, hd, hdeploys⟩ := exists_of_findSome?_eq_some h
  unfold deploys at hdeploys
  split at hdeploys
  · rename_i hnew
    exact ⟨d, hd, hnew.1, hnew.2, hdeploys⟩
  · cases hdeploys

section
variable (rt : Runtime κ σ) (c : BlockTx β)

theorem callMkdll_fst (address : Uint256) (dir : ContractsDir κ) :
    (callMkdll rt address dir).1 = 0 := by
  unfold callMkdll
  split <;> rfl

theorem startDir_codeSo (dir : ContractsDir κ) (address : Uint256) :
    (startDir rt c dir).codeSo address = (dir.codeSo address).or (deploys rt address c) := by
  unfold startDir
  by_cases hnew : c.action = ACTION_NEW
  · rw [if_pos hnew]
    unfold callMkdll ContractsDir.writeCode
    dsimp only
    by_cases haddr : c.address = address
    · subst haddr
      split
      · rename_i code hcode
        simp [hcode]
      · rename_i hcode
        simp [hcode, deploys, hnew]
    · have hdeploys : deploys rt address c = none := if_neg fun h => haddr h.2
      split
      · simp [hdeploys]
      · simp [hdeploys, Function.update_of_ne (Ne.symm haddr)]
  · have hdeploys : deploys rt address c = none := if_neg fun h => hnew h.1
    rw [if_neg hnew, hdeploys, or_none]

theorem callRt_eq (st : σ × ContractSide β κ) : callRt rt c st =
    match st.2.dir.codeSo c.address with
    | none => (-1, st)
    | some code =>
      let r := rt.contractMain code st.2.dir c.tx st.1
      (if r.1 = 0#8 then 0 else -1, r.2.1,
        ⟨r.2.2, if r.1 = 0#8 then st.2.runs ++ [⟨c, code⟩] else st.2.runs⟩) := by
  unfold callRt
  dsimp only
  split
  · rfl
  · split
    · rfl
    · rename_i hzero
      simp [if_pos (not_not.mp hzero)]

theorem processContract_eq (st : σ × ContractSide β κ) : processContract rt c st =
    match executedCode rt c st.2.dir with
    | none => (decide (c.action ≠ ACTION_NEW ∧ c.action ≠ ACTION_CALL), st.1,
        { st.2 with dir := startDir rt c st.2.dir })
    | some code =>
      let r := rt.contractMain code (startDir rt c st.2.dir) c.tx st.1
      (decide (r.1 = 0#8), r.2.1,
        ⟨r.2.2, if r.1 = 0#8 then st.2.runs ++ [⟨c, code⟩] else st.2.runs⟩) := by
  have hcalls : c.action = ACTION_NEW ∨ c.action = ACTION_CALL → processContract rt c st =
      let r := callRt rt c (st.1, { st.2 with dir := startDir rt c st.2.dir })
      (decide (¬ r.1 < 0), r.2) := by
    intro hact
    unfold processContract startDir
    by_cases hnew : c.action = ACTION_NEW
    · simp only [if_pos hnew, callMkdll_fst, Int.lt_irrefl, if_false]
      split <;> simp [*]
    · simp only [if_neg hnew, if_pos (hact.resolve_left hnew)]
      split <;> simp [*]
  by_cases hact : c.action = ACTION_NEW ∨ c.action = ACTION_CALL
  · rw [hcalls hact, callRt_eq, executedCode, if_pos hact]
    cases (startDir rt c st.2.dir).codeSo c.address with
    | none => simpa using fun h => hact.resolve_left h
    | some code =>
      dsimp only
      split <;> simp [*]
  · obtain ⟨hnew, hcall⟩ := not_or.mp hact
    simp [processContract, executedCode, startDir, hnew, hcall]

theorem executedCode_of_codeSo {c : BlockTx β} {dir : ContractsDir κ}
    (hcode : dir.codeSo c.address = some code)
    (hact : c.action = ACTION_NEW ∨ c.action = ACTION_CALL) : executedCode rt c dir = some code := by
  rw [executedCode, if_pos hact, startDir_codeSo, hcode, some_or]

end

section
variable {rt : Runtime κ σ} (hconfined : rt.Confined)
include hconfined

/-- One transaction: the directory keeps what it has, and a call runs what the
directory holds when it starts. -/
theorem processContract_side (c : BlockTx β) (st : σ × ContractSide β κ) :
    (∀ address, (processContract rt c st).2.2.dir.codeSo address =
      (st.2.dir.codeSo address).or (deploys rt address c)) ∧
    ∃ new, (processContract rt c st).2.2.runs = st.2.runs ++ new ∧
      ∀ r ∈ new, r.tx = c ∧ (c.action = ACTION_CALL → st.2.dir.codeSo c.address = some r.code) := by
  rw [processContract_eq]
  cases hcode : executedCode rt c st.2.dir with
  | none => exact ⟨startDir_codeSo rt c st.2.dir, [], by simp⟩
  | some code =>
    dsimp only
    rw [hconfined]
    refine ⟨startDir_codeSo rt c st.2.dir, ?_⟩
    split
    · refine ⟨[⟨c, code⟩], rfl, fun r hr => ?_⟩
      rw [mem_singleton.mp hr]
      refine ⟨rfl, fun hcall => ?_⟩
      have hnew : c.action ≠ ACTION_NEW := by rw [hcall]; decide
      rwa [executedCode, if_pos (.inr hcall), startDir, if_neg hnew] at hcode
    · exact ⟨[], by simp⟩

/-- A list of transactions: the first code of an address stays, and a call runs the
code that was there before or else the first one deployed on the way. -/
theorem processAll_side (txs : List (BlockTx β)) (st : σ × ContractSide β κ) :
    let st' := processAll rt txs st
    (∀ address, st'.2.dir.codeSo address =
      (st.2.dir.codeSo address).or (deployedCode rt txs address)) ∧
    ∃ new, st'.2.runs = st.2.runs ++ new ∧ ∀ r ∈ new, ∃ before after, txs = before ++ r.tx :: after ∧
      (r.tx.action = ACTION_CALL → (st.2.dir.codeSo r.tx.address).or
        (deployedCode rt before r.tx.address) = some r.code) := by
  induction txs generalizing st with
  | nil => exact ⟨by simp [processAll, deployedCode], [], by simp [processAll]⟩
  | cons c txs ih =>
    obtain ⟨hdir, new, hruns, hr⟩ := processContract_side hconfined c st
    obtain ⟨hdir', new', hruns', hr'⟩ := ih (processContract rt c st).2
    have hcons : ∀ txs address, deployedCode rt (c :: txs) address =
        (deploys rt address c).or (deployedCode rt txs address) := by
      intro txs address
      simp only [deployedCode, findSome?_cons]
      cases deploys rt address c <;> rfl
    refine ⟨fun address => ?_, new ++ new', ?_, fun r hmem => ?_⟩
    · rw [processAll, foldl_cons, ← processAll, hdir', hdir, hcons, Option.or_assoc]
    · rw [processAll, foldl_cons, ← processAll, hruns', hruns, append_assoc]
    · rcases mem_append.mp hmem with hmem | hmem
      · obtain ⟨htx, hcode⟩ := hr r hmem
        refine ⟨[], txs, by rw [htx]; rfl, fun hcall => ?_⟩
        rw [htx] at hcall ⊢
        simp [deployedCode, hcode hcall]
      · obtain ⟨before, after, hsplit, hcode⟩ := hr' r hmem
        refine ⟨c :: before, after, by rw [hsplit]; rfl, fun hcall => ?_⟩
        rw [hcons, ← Option.or_assoc, ← hdir]
        exact hcode hcall

end

section
variable (node : ContractNode β κ σ)

def blockTxs (n : Node β) : List (BlockTx β) := (node.env.readBlockFromDisk n).getD []

def chainTxs (realBlock : List (Node β)) : List (BlockTx β) := realBlock.flatMap (blockTxs node)

/-- The transactions before `c` in every chain that holds the block of `c`. -/
def preceding (c : BlockTx β) : List (BlockTx β) :=
  chainTxs node c.block.branch.dropLast ++ (blockTxs node c.block).take c.pos

variable {node}

theorem execute_eq_processAll (realBlock : List (Node β)) (st : σ × ContractSide β κ) :
    execute node.env realBlock st = processAll node.toRuntime (chainTxs node realBlock) st := by
  rw [processAll, chainTxs, foldl_flatMap]
  rfl

theorem getElem?_blockTxs {n : Node β} {c : BlockTx β} {i : Nat}
    (h : (blockTxs node n)[i]? = some c) : c.block = n ∧ c.pos = i := by
  unfold blockTxs ContractNode.env at h
  cases hread : node.readBlockFromDisk n with
  | none => simp [hread] at h
  | some vtx =>
    simp only [hread, map_some, getD_some, getElem?_mapIdx,
      map_eq_some_iff] at h
    obtain ⟨tx, -, rfl⟩ := h
    exact ⟨rfl, rfl⟩

theorem blockTxs_split {n : Node β} (h : blockTxs node n = before ++ c :: after) :
    c.block = n ∧ before = (blockTxs node c.block).take c.pos ∧
      (blockTxs node c.block)[c.pos]? = some c := by
  have hget : (blockTxs node n)[before.length]? = some c := by simp [h]
  obtain ⟨hblock, hpos⟩ := getElem?_blockTxs hget
  rw [hblock, hpos]
  exact ⟨rfl, by simp [h], hget⟩

theorem chainTxs_child (p : Node β) (x : β) : chainTxs node (Node.child p x).branch =
    chainTxs node p.branch ++ blockTxs node (.child p x) := by
  simp [chainTxs, Node.branch]

theorem eq_preceding {tip : Node β} (h : chainTxs node tip.branch = before ++ c :: after) :
    before = preceding node c ∧ (blockTxs node c.block)[c.pos]? = some c := by
  induction tip generalizing after with
  | root x =>
    have hblock : blockTxs node (.root x) = before ++ c :: after := by
      simpa [chainTxs, Node.branch] using h
    obtain ⟨hblock, hbefore, hget⟩ := blockTxs_split hblock
    refine ⟨?_, hget⟩
    rw [hbefore, preceding, hblock]
    simp [Node.branch, chainTxs]
  | child p x ih =>
    have hsplit : (∃ mid, before = chainTxs node p.branch ++ mid ∧
        blockTxs node (.child p x) = mid ++ c :: after) ∨
        ∃ mid, chainTxs node p.branch = before ++ c :: mid := by
      rw [chainTxs_child] at h
      rcases append_eq_append_iff.mp h with ⟨mid, hbefore, hblock⟩ | ⟨mid, hp, hrest⟩
      · exact .inl ⟨mid, hbefore, hblock⟩
      · rcases cons_eq_append_iff.mp hrest with ⟨rfl, hblock⟩ | ⟨mid, rfl, -⟩
        · exact .inl ⟨[], by simp [hp], hblock⟩
        · exact .inr ⟨mid, hp⟩
    rcases hsplit with ⟨mid, rfl, hmid⟩ | ⟨mid, hp⟩
    · obtain ⟨hblock, hbefore, hget⟩ := blockTxs_split hmid
      refine ⟨?_, hget⟩
      rw [hbefore, preceding, hblock]
      simp [Node.branch]
    · exact ih hp

theorem chainTxs_eq_preceding {tip : Node β} {c : BlockTx β}
    (hget : (blockTxs node c.block)[c.pos]? = some c) (hmem : c.block ∈ tip.path) :
    ∃ after, chainTxs node tip.branch = preceding node c ++ c :: after := by
  classical
  obtain ⟨hlt, hc⟩ := List.getElem?_eq_some_iff.mp hget
  have hblock : blockTxs node c.block =
      (blockTxs node c.block).take c.pos ++ c :: (blockTxs node c.block).drop (c.pos + 1) := by
    conv_lhs => rw [← take_append_drop c.pos (blockTxs node c.block),
      drop_eq_getElem_cons hlt, hc]
  have hown : chainTxs node c.block.branch =
      chainTxs node c.block.branch.dropLast ++ blockTxs node c.block := by
    cases c.block <;> simp [chainTxs, Node.branch]
  refine ⟨(blockTxs node c.block).drop (c.pos + 1) ++ chainTxs node (tip.since (some c.block)), ?_⟩
  have happend : chainTxs node tip.branch =
      chainTxs node c.block.branch ++ chainTxs node (tip.since (some c.block)) := by
    rw [Node.branch_eq_append_since hmem, chainTxs, flatMap_append]
    rfl
  rw [happend, hown, preceding]
  nth_rewrite 1 [hblock]
  simp only [append_assoc, cons_append]

end

/-- The contract of `c` leaves the shared object of the address as it is. -/
def LeavesCode (rt : Runtime κ σ) (address : Uint256) (c : BlockTx β) (st : σ × ContractSide β κ) :
    Prop :=
  ∀ code, executedCode rt c st.2.dir = some code →
    (rt.contractMain code (startDir rt c st.2.dir) c.tx st.1).2.2.codeSo address =
      (startDir rt c st.2.dir).codeSo address

theorem processContract_keeps_iff {rt : Runtime κ σ} {st : σ × ContractSide β κ}
    (hcode : st.2.dir.codeSo address = some code) (c : BlockTx β) :
    (processContract rt c st).2.2.dir.codeSo address = some code ↔ LeavesCode rt address c st := by
  have hstart : (startDir rt c st.2.dir).codeSo address = some code := by
    rw [startDir_codeSo, hcode, some_or]
  rw [processContract_eq, LeavesCode, hstart]
  cases executedCode rt c st.2.dir with
  | none => exact iff_of_true hstart nofun
  | some run => simp

theorem processAll_concat (rt : Runtime κ σ) (txs : List (BlockTx β)) (c : BlockTx β)
    (st : σ × ContractSide β κ) :
    processAll rt (txs ++ [c]) st = (processContract rt c (processAll rt txs st)).2 := by
  simp [processAll]

/-- In the chain of `tip`, `d` is an `ACTION_NEW` with `before` in front of it, and
processing the chain up to `d` leaves `code` at the address of `d`. -/
structure DeployedAt (node : ContractNode β κ σ) (tip : Node β) (st : σ × ContractSide β κ)
    (before : List (BlockTx β)) (d : BlockTx β) (after : List (BlockTx β)) (code : κ) : Prop where
  chain : chainTxs node tip.branch = before ++ d :: after
  action : d.action = ACTION_NEW
  codeSo : (processAll node.toRuntime (before ++ [d]) st).2.dir.codeSo d.address = some code

/-- After a deployment every further transaction for its address runs that code, another
deployment there included, exactly if no contract of the rest of the chain touches the shared
object of the address. -/
theorem DeployedAt.immutable_iff {node : ContractNode β κ σ} {tip : Node β}
    {st : σ × ContractSide β κ} (h : DeployedAt node tip st before d after code) :
    (∀ mid rest, after = mid ++ rest →
      (processAll node.toRuntime (before ++ d :: mid) st).2.dir.codeSo d.address = some code ∧
      ∀ c : BlockTx β, c.address = d.address → c.action = ACTION_NEW ∨ c.action = ACTION_CALL →
        executedCode node.toRuntime c (processAll node.toRuntime (before ++ d :: mid) st).2.dir =
        some code) ↔
    ∀ mid c rest, after = mid ++ c :: rest →
      LeavesCode node.toRuntime d.address c (processAll node.toRuntime (before ++ d :: mid) st) := by
  have hconcat : ∀ mid c, processAll node.toRuntime (before ++ d :: (mid ++ [c])) st =
      (processContract node.toRuntime c (processAll node.toRuntime (before ++ d :: mid) st)).2 := by
    intro mid c
    rw [← cons_append, ← append_assoc, processAll_concat]
  constructor
  · intro hkeeps mid c rest hafter
    have hnext := (hkeeps (mid ++ [c]) rest (by rw [hafter, append_assoc]; rfl)).1
    rw [hconcat] at hnext
    exact (processContract_keeps_iff (hkeeps mid (c :: rest) hafter).1 c).mp hnext
  · intro hleaves
    have hkept : ∀ mid rest, after = mid ++ rest →
        (processAll node.toRuntime (before ++ d :: mid) st).2.dir.codeSo d.address = some code := by
      intro mid
      induction mid using List.reverseRecOn with
      | nil => exact fun _ _ => h.codeSo
      | append_singleton mid c ih =>
        intro rest hafter
        rw [append_assoc] at hafter
        rw [hconcat]
        exact (processContract_keeps_iff (ih _ hafter) c).mpr (hleaves mid c rest hafter)
    exact fun mid rest hafter => ⟨hkept mid rest hafter, fun c haddr hact =>
      executedCode_of_codeSo _ (haddr ▸ hkept mid rest hafter) hact⟩

def carrierTx (action : BitVec 8) (code : Bytes) (address : Uint256) : CTransaction where
  nVersion := 1
  contract := { action, code, address, args := [] }
  vin := [⟨⟨1, 0⟩, [], 0xffffffff, []⟩]
  vout := [⟨0, []⟩]
  nLockTime := 0

/-- Block 1 deploys a contract at address 7, block 2 another one, block 3 calls address 7. A
contract with the code 2 overwrites the shared object of address 7. -/
def redeployNode (address : Uint256) : ContractNode Nat Bytes Nat where
  compile code := some code
  contractMain code dir tx state := (0, state + 1,
    if code = [2] ∧ tx.contract.address ≠ 7 then { dir with
      codeSo := Function.update dir.codeSo 7 (some [9]) } else dir)
  blockHash n := BitVec.ofNat 256 n.value
  readBlockFromDisk n := some (match n.value with
    | 1 => [carrierTx ACTION_NEW [1] 7]
    | 2 => [carrierTx ACTION_NEW [2] address]
    | 3 => [carrierTx ACTION_CALL [] 7]
    | _ => [])
  emptySnapShot := 0

def redeployTip : Node Nat := .child (.child (.child (.root 0) 1) 2) 3

def emptySide : ContractSide Nat Bytes := { dir := ⟨fun _ => none, fun _ => none⟩, runs := [] }

theorem redeploy_deployed (address : Uint256) :
    DeployedAt (redeployNode address) redeployTip (0, emptySide) [] ⟨.child (.root 0) 1, 0,
    carrierTx ACTION_NEW [1] 7⟩ [⟨.child (.child (.root 0) 1) 2, 0, carrierTx ACTION_NEW [2] address⟩,
    ⟨redeployTip, 0, carrierTx ACTION_CALL [] 7⟩] [1] :=
  { chain := rfl, action := rfl, codeSo := rfl }

theorem redeploy_immutable : ∃ c₁ c₂ c₃, chainTxs (redeployNode 7) redeployTip.branch = [c₁, c₂, c₃] ∧
    (∀ c ∈ [c₁, c₂, c₃], checkTransaction c.tx true = .ok ()) ∧
    deploys (redeployNode 7).toRuntime 7 c₂ = some [2] ∧
    executedCode (redeployNode 7).toRuntime c₃
      (processAll (redeployNode 7).toRuntime [c₁, c₂] (0, emptySide)).2.dir = some [1] := by
  have hleaves := (redeploy_deployed 7).immutable_iff.mpr (by
    intro mid c rest hafter
    rcases mid with _ | ⟨a, mid⟩
    · cases hafter
      rintro _ ⟨⟩
      rfl
    · rcases mid with _ | ⟨b, mid⟩
      · cases hafter
        rintro _ ⟨⟩
        rfl
      · cases mid <;> cases hafter)
  exact ⟨_, _, _, rfl, by decide, rfl, (hleaves [_] [_] rfl).2 _ rfl (.inr rfl)⟩

/-- The contract of another address replaces the code that the call of address 7 runs. -/
theorem redeploy_overwritten : ∃ c₁ c₂ c₃, chainTxs (redeployNode 8) redeployTip.branch =
    [c₁, c₂, c₃] ∧ (∀ c ∈ [c₁, c₂, c₃], checkTransaction c.tx true = .ok ()) ∧
    executedCode (redeployNode 8).toRuntime c₁ emptySide.dir = some [1] ∧
    executedCode (redeployNode 8).toRuntime c₃
      (processAll (redeployNode 8).toRuntime [c₁, c₂] (0, emptySide)).2.dir = some [9] :=
  ⟨_, _, _, rfl, by decide, rfl, rfl⟩

section
variable [DecidableEq β] {node : ContractNode β κ σ}

/-- For every call above the chain of `q`, the directory holds no code at its
address or the code that the chain of `tip` deploys before the call. -/
def DirectoryAgrees (node : ContractNode β κ σ) (dir : ContractsDir κ) (q : Option (Node β))
    (tip : Node β) : Prop :=
  ∀ c ∈ chainTxs node (tip.since q), c.action = ACTION_CALL → ∀ code,
    dir.codeSo c.address = some code →
      deployedCode node.toRuntime (preceding node c) c.address = some code

/-- A run of the observer, with the last tip it saw, in which the directory agrees
with every new chain before the chain is observed. -/
inductive AgreeingRun (node : ContractNode β κ σ) (clear : Clearing σ) (t : ChainTree node.env)
    (fuel : Nat) :
    Option (Node β) → ContractState σ (ContractSide β κ) → Prop
  | start (dir : ContractsDir κ) : AgreeingRun node clear t fuel none (.initial node.env ⟨dir, []⟩)
  | step (hrun : AgreeingRun node clear t fuel q st) (htip : tip ∈ t.nodes)
      (hagrees : DirectoryAgrees node st.side.dir q tip)
      (hcall : onChainStateSet node.env clear (fuel + 3) tip st = some (ok, st')) :
      AgreeingRun node clear t fuel (some tip) st'

def Deployed (node : ContractNode β κ σ) (dir : ContractsDir κ) (n : Node β) : Prop :=
  ∀ address, (deployedCode node.toRuntime (chainTxs node n.branch) address).isSome →
    (dir.codeSo address).isSome

/-- What the observer keeps in such runs: the chains it has states for are deployed,
and every call ran the code that its chain deployed before it. -/
structure Provenanced (node : ContractNode β κ σ) (t : ChainTree node.env) (q : Option (Node β))
    (st : ContractState σ (ContractSide β κ)) : Prop extends Following t q st.cache where
  deployed : ∀ n, q = some n → Deployed node st.side.dir n
  checkPoint : ∀ cp ∈ st.cache.checkPoints, ∀ a ∈ t.nodes, cp.tipBlockHash = node.blockHash a →
    Deployed node st.side.dir a
  runs : ∀ r ∈ st.side.runs, (blockTxs node r.tx.block)[r.tx.pos]? = some r.tx ∧
    (r.tx.action = ACTION_CALL →
      deployedCode node.toRuntime (preceding node r.tx) r.tx.address = some r.code)

theorem Provenanced.deployed_start {t : ChainTree node.env} {tip : Node β} (ht : tip ∈ t.nodes)
    {st : ContractState σ (ContractSide β κ)} (h : Provenanced node t q st)
    (hstart : StartPoint node.env clear st.cache tip from? s) :
    ∃ below, chainTxs node tip.branch = below ++ chainTxs node (tip.since from?) ∧
      ∀ address, (deployedCode node.toRuntime below address).isSome →
        (st.side.dir.codeSo address).isSome := by
  have hsplit : ∀ a ∈ tip.path, chainTxs node tip.branch =
      chainTxs node a.branch ++ chainTxs node (tip.since (some a)) := by
    intro a ha
    rw [Node.branch_eq_append_since ha, chainTxs, flatMap_append]
    rfl
  cases hstart with
  | empty => exact ⟨[], by rw [Node.since_none]; rfl, by simp [deployedCode]⟩
  | current hmem htrack =>
    have hq := h.eq_of_track (t.mem_of_mem_path ht hmem) htrack
    exact ⟨_, hsplit _ hmem, h.deployed _ hq⟩
  | checkPoint hmem hcp hhash =>
    exact ⟨_, hsplit _ hmem, h.checkPoint _ hcp _ (t.mem_of_mem_path ht hmem) hhash⟩

theorem Observed.mem_since_last {tip a : Node β} (hobs : Observed node.env clear q st tip from? s st')
    (ha : a ∈ tip.since from?) : a ∈ tip.since q := by
  by_cases hq : ∃ n ∈ tip.path, q = some n
  · obtain ⟨n, hn, rfl⟩ := hq
    rw [← hobs.extends_chain n hn rfl]
    exact ha
  · rw [Node.since_of_notMem fun a ha heq => hq ⟨a, ha, heq⟩, Node.mem_branch]
    exact Node.mem_since ha

omit [DecidableEq β] in
/-- A call that ran what the directory had, or else the first code deployed since the
starting point, ran the code that its chain deployed before it. -/
theorem deployedCode_preceding {tip : Node β} {dir : ContractsDir κ} {c : BlockTx β}
    (hchain : chainTxs node tip.branch = (below ++ before) ++ c :: after)
    (hbelow : (deployedCode node.toRuntime below c.address).isSome → (dir.codeSo c.address).isSome)
    (hagrees : ∀ code, dir.codeSo c.address = some code →
      deployedCode node.toRuntime (preceding node c) c.address = some code)
    (hcode : (dir.codeSo c.address).or (deployedCode node.toRuntime before c.address) = some code) :
    deployedCode node.toRuntime (preceding node c) c.address = some code := by
  cases hold : dir.codeSo c.address with
  | some old =>
    -- the code was there before, so the condition speaks about it
    rw [hold, some_or] at hcode
    rw [← hcode]
    exact hagrees old hold
  | none =>
    -- nothing below the starting point deployed at this address
    have hnone : deployedCode node.toRuntime below c.address = none := by
      rw [← not_isSome_iff_eq_none]
      intro hsome
      simpa [hold] using hbelow hsome
    rw [hold, none_or] at hcode
    rw [← (eq_preceding hchain).1, deployedCode_append, hnone, none_or, hcode]

variable {clear : Clearing σ} (hconfined : node.toRuntime.Confined)
    (hclear : clear.blockCache [] = [])
include hconfined hclear

theorem onChainStateSet_provenanced {t : ChainTree node.env} {tip : Node β} (ht : tip ∈ t.nodes)
    {st : ContractState σ (ContractSide β κ)} (h : Provenanced node t q st)
    (hagrees : DirectoryAgrees node st.side.dir q tip) (fuel : Nat) :
    ∃ st', onChainStateSet node.env clear (fuel + 3) tip st = some (true, st') ∧
      Provenanced node t (some tip) st' := by
  obtain ⟨st', hcall, hfollow, from?, s, hobs⟩ :=
    onChainStateSet_spec t clear hclear ht h.toFollowing fuel
  obtain ⟨below, hchain, hbelow⟩ := h.deployed_start ht hobs.start
  have hside := congrArg Prod.snd hobs.result
  rw [execute_eq_processAll] at hside
  obtain ⟨hdir, new, hruns, hnew⟩ := processAll_side hconfined
    (chainTxs node (tip.since from?)) (s, st.side)
  simp only [← hside] at hdir hruns
  have hmono : ∀ n, Deployed node st.side.dir n → Deployed node st'.side.dir n := by
    intro n hn address hsome
    rw [hdir, isSome_or, hn address hsome, Bool.true_or]
  have htip : Deployed node st'.side.dir tip := by
    intro address hsome
    rw [hchain, deployedCode_append, isSome_or, Bool.or_eq_true] at hsome
    rw [hdir, isSome_or, Bool.or_eq_true]
    exact hsome.imp_left (hbelow address)
  refine ⟨st', hcall, hfollow, ?_, ?_, ?_⟩
  · rintro n ⟨⟩
    exact htip
  · intro cp hcp a ha hhash
    rcases hobs.checkPoints cp hcp with hold | ⟨hcptip, -⟩
    · exact hmono a (h.checkPoint cp hold a ha hhash)
    · rw [← t.hash_inj ht ha (hcptip.symm.trans hhash)]
      exact htip
  · intro r hr
    rw [hruns] at hr
    rcases mem_append.mp hr with hr | hr
    · exact h.runs r hr
    · obtain ⟨before, after, hsplit, hcode⟩ := hnew r hr
      have htxs : chainTxs node tip.branch = (below ++ before) ++ r.tx :: after := by
        rw [hchain, hsplit, append_assoc]
      refine ⟨(eq_preceding htxs).2, fun hcall => ?_⟩
      refine deployedCode_preceding htxs (hbelow _) (fun code hold => ?_) (hcode hcall)
      obtain ⟨a, ha, hmem⟩ := mem_flatMap.mp
        (show r.tx ∈ chainTxs node (tip.since from?) by rw [hsplit]; simp)
      exact hagrees r.tx (mem_flatMap.mpr ⟨a, hobs.mem_since_last ha, hmem⟩) hcall code hold

theorem AgreeingRun.provenanced {t : ChainTree node.env} (h : AgreeingRun node clear t fuel q st) :
    Provenanced node t q st := by
  induction h with
  | start dir =>
    exact ⟨⟨by simp, rfl, by simp [ContractState.initial], .nil⟩, by simp,
      by simp [ContractState.initial], by simp [ContractState.initial]⟩
  | step hrun htip hagrees hcall ih =>
    obtain ⟨st', hcall', h'⟩ := onChainStateSet_provenanced hconfined hclear htip ih hagrees _
    cases hcall.symm.trans hcall'
    exact h'

/-- The code that ran was deployed by a transaction that stands before the call in
the chain of `tip`. -/
def FromChain (node : ContractNode β κ σ) (tip : Node β) (r : ContractRun β κ) : Prop :=
  ∃ before after, chainTxs node tip.branch = before ++ r.tx :: after ∧
    ∃ d ∈ before, d.action = ACTION_NEW ∧ d.address = r.tx.address ∧
      node.compile d.tx.contract.code = some r.code

/-- While the directory agrees with the chains, every call runs code that its own
chain deployed before it, and two nodes run the same code for the same call. -/
theorem AgreeingRun.fromChain {t₁ t₂ : ChainTree node.env}
    {st₁ st₂ : ContractState σ (ContractSide β κ)} (h₁ : AgreeingRun node clear t₁ fuel₁ q₁ st₁)
    (h₂ : AgreeingRun node clear t₂ fuel₂ q₂ st₂) :
    (∀ r ∈ st₁.side.runs, r.tx.action = ACTION_CALL → ∀ tip : Node β, r.tx.block ∈ tip.path →
      FromChain node tip r) ∧
    ∀ r₁ ∈ st₁.side.runs, ∀ r₂ ∈ st₂.side.runs, r₁.tx.action = ACTION_CALL → r₁.tx = r₂.tx →
      r₁.code = r₂.code := by
  refine ⟨fun r hr hcall tip hmem => ?_, fun r₁ hr₁ r₂ hr₂ hcall htx => ?_⟩
  · obtain ⟨hget, hcode⟩ := (h₁.provenanced hconfined hclear).runs r hr
    obtain ⟨after, hchain⟩ := chainTxs_eq_preceding hget hmem
    exact ⟨_, after, hchain, deployedCode_eq_some (hcode hcall)⟩
  · have hcode₁ := ((h₁.provenanced hconfined hclear).runs r₁ hr₁).2 hcall
    have hcode₂ := ((h₂.provenanced hconfined hclear).runs r₂ hr₂).2 (htx ▸ hcall)
    rw [htx, hcode₂] at hcode₁
    exact (some.inj hcode₁).symm

end

def contractTx (action : BitVec 8) : CTransaction where
  nVersion := 1
  contract := { action, code := [1], address := 7, args := [] }
  vin := []
  vout := []
  nLockTime := 0

/-- Block 1 deploys a contract, blocks 3 and 4 call it. The state counts the runs. -/
def callNode : ContractNode Nat Bytes Nat where
  compile code := some code
  contractMain _ dir _ state := (0, state + 1, dir)
  blockHash n := BitVec.ofNat 256 n.value
  readBlockFromDisk n := some (match n.value with
    | 1 => [contractTx ACTION_NEW]
    | 3 => [contractTx ACTION_CALL]
    | 4 => [contractTx ACTION_CALL]
    | _ => [])
  emptySnapShot := 0

def deployBlock : Node Nat := .child (.root 0) 1

def strayCallBlock : Node Nat := .child (.child (.root 0) 2) 3

def callBlock : Node Nat := .child deployBlock 4

def callTree : ChainTree callNode.env where
  nodes := {.root 0, deployBlock, .child (.root 0) 2, strayCallBlock, callBlock}
  parent := by
    rintro p a h
    rcases h with h | h | h | h | h <;> cases h <;> simp
  root := by
    rintro a b ha hb
    rcases ha with h | h | h | h | h <;> cases h
    rcases hb with h | h | h | h | h <;> cases h
    rfl
  hash_inj := by
    rintro a ha b hb h
    rcases ha with rfl | rfl | rfl | rfl | rfl <;> rcases hb with rfl | rfl | rfl | rfl | rfl <;>
      first | rfl | exact absurd h (by decide)
  height_lt := by
    rintro n h
    rcases h with rfl | rfl | rfl | rfl | rfl <;> decide
  readable _ _ := rfl

theorem fromChain_callBlock : ∃ st, AgreeingRun callNode (emptying callNode.env) callTree 0
    (some callBlock) st ∧ ∃ r ∈ st.side.runs, r.tx.action = ACTION_CALL ∧
    FromChain callNode callBlock r := by
  have hrun : AgreeingRun callNode (emptying callNode.env) callTree 0 (some callBlock) _ :=
    .step (.start emptySide.dir) (by simp [callTree]) (by intro c _ _ code h; cases h) rfl
  refine ⟨_, hrun, ⟨⟨callBlock, 0, contractTx ACTION_CALL⟩, [1]⟩, ?_, rfl, ?_⟩
  · exact mem_of_getElem? (i := 1) rfl
  · exact (AgreeingRun.fromChain (fun _ _ _ _ => rfl) rfl hrun hrun).1 _
      (mem_of_getElem? (i := 1) rfl) rfl callBlock (Node.mem_path_self _)

/-- A node that saw the deployment on another fork runs the call of a chain without
it; a node that did not fails the same call. -/
theorem strayCall_not_fromChain : ∃ st st' r,
    observeAll callNode.env (emptying callNode.env) 3 [deployBlock, strayCallBlock]
    (.initial callNode.env emptySide) =
      some st ∧
    observeAll callNode.env (emptying callNode.env) 3 [strayCallBlock]
    (.initial callNode.env emptySide) = some st' ∧ r ∈ st.side.runs ∧ r.tx.action = ACTION_CALL ∧
    r.tx.block = strayCallBlock ∧ ¬ FromChain callNode strayCallBlock r ∧ st'.side.runs = [] := by
  refine ⟨_, _, ⟨⟨strayCallBlock, 0, contractTx ACTION_CALL⟩, [1]⟩, rfl, rfl,
    mem_of_getElem? (i := 1) rfl, rfl, rfl, ?_, rfl⟩
  rintro ⟨before, after, hchain, d, hd, -⟩
  have hlength := congrArg List.length hchain
  rw [length_append, length_cons] at hlength
  have hone : (chainTxs callNode strayCallBlock.branch).length = 1 := rfl
  have : 0 < before.length := length_pos_of_mem hd
  omega

end OurChain
