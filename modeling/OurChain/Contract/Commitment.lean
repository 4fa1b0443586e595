import OurChain.Contract.Execution
import OurChain.Validation.AcceptedChain

/-!
# What a header says about the contracts

The header carries a `hashContractState`, which is serialised and hashed with the
other fields. If it tied the header to the contracts that were executed, two accepted
chains whose tips agree in it would have replayed to one snapshot. No check reads the
field, so a tip can have any value of it over any executions, and the property is left
to networks in which contracts have no effect.
-/

namespace OurChain

variable {κ σ : Type}

def Network.contractNode (net : Network) (rt : Runtime κ σ) (emptySnapShot : σ) :
    ContractNode CBlock κ σ where
  toRuntime := rt
  blockHash n := n.value.header.getHash net.H
  readBlockFromDisk n := some n.value.vtx
  emptySnapShot

section
variable (net : Network) (rt : Runtime κ σ) (emptySnapShot : σ)

/-- The snapshot and the contracts directory behind a chain, from an empty store and an
empty directory. -/
def replayContracts (n : Node CBlock) : σ × ContractSide CBlock κ :=
  execute (net.contractNode rt emptySnapShot).env n.branch
    (emptySnapShot, ⟨⟨fun _ => none, fun _ => none⟩, []⟩)

def processTip (n : Node CBlock) (st : σ × ContractSide CBlock κ) : σ × ContractSide CBlock κ :=
  execute (net.contractNode rt emptySnapShot).env [n] st

/-- Accepted chains whose tips have one `hashContractState` replay to one snapshot. -/
def HeaderCommits : Prop :=
  ∀ n n' view view', Accepted net n view → Accepted net n' view' →
    n.value.header.hashContractState = n'.value.header.hashContractState →
    (replayContracts net rt emptySnapShot n).1 = (replayContracts net rt emptySnapShot n').1

variable {net rt emptySnapShot}

theorem replayContracts_child (p : Node CBlock) (block : CBlock) :
    replayContracts net rt emptySnapShot (.child p block) =
      processTip net rt emptySnapShot (.child p block) (replayContracts net rt emptySnapShot p) := by
  simp only [replayContracts, processTip, Node.branch, execute_append]

theorem processAll_plain {txs : List (BlockTx CBlock)} (hplain : ∀ c ∈ txs, c.tx.contract = .null)
    (st : σ × ContractSide CBlock κ) : processAll rt txs st = st := by
  induction txs with
  | nil => rfl
  | cons c txs ih =>
    obtain ⟨hc, htxs⟩ := List.forall_mem_cons.mp hplain
    have hstep : (processContract rt c st).2 = st := by
      simp [processContract, BlockTx.action, hc, Contract.null, ACTION_NONE, ACTION_NEW, ACTION_CALL]
    rw [processAll, List.foldl_cons, hstep]
    exact ih htxs

variable {n : Node CBlock}

theorem processTip_plain (hplain : ∀ tx ∈ n.value.vtx, tx.contract = .null)
    (st : σ × ContractSide CBlock κ) : processTip net rt emptySnapShot n st = st := by
  rw [processTip, execute_eq_processAll]
  apply processAll_plain
  intro c hc
  simp only [chainTxs, blockTxs, ContractNode.env, Network.contractNode, List.flatMap_singleton,
    Option.map_some, Option.getD_some, List.mem_mapIdx] at hc
  obtain ⟨i, hi, rfl⟩ := hc
  exact hplain _ (List.getElem_mem hi)

theorem replayContracts_genesis :
    (replayContracts net rt emptySnapShot (.root net.genesis)).1 = emptySnapShot := by
  have hplain : ∀ tx ∈ (Node.root net.genesis).value.vtx, tx.contract = .null := by
    intro tx htx
    rw [List.mem_singleton.mp htx]
    rfl
  exact congrArg Prod.fst (processTip_plain hplain _)

theorem replayContracts_bareBlock (header : CBlockHeader) (hashContractState : Uint256) :
    (replayContracts net rt emptySnapShot
      (.child (.root net.genesis) (bareBlock net.H header hashContractState))).1 = emptySnapShot := by
  rw [replayContracts_child, processTip_plain, replayContracts_genesis]
  intro tx htx
  rw [List.mem_singleton.mp htx]
  rfl

theorem HeaderCommits.replay_eq (h : HeaderCommits net rt emptySnapShot)
    (hn : Accepted net n view) : (replayContracts net rt emptySnapShot n).1 = emptySnapShot := by
  cases n with
  | root block =>
    obtain ⟨rfl, -⟩ := hn.root_eq
    exact replayContracts_genesis
  | child p block =>
    obtain ⟨header, view', hbare⟩ := hn.exists_bare block.header.hashContractState
    rw [h _ _ _ _ hn hbare rfl, replayContracts_bareBlock]

theorem Accepted.replay_eq (hstill : ∀ p block view, Accepted net (.child p block) view →
      (processTip net rt emptySnapShot (.child p block) (replayContracts net rt emptySnapShot p)).1 =
        (replayContracts net rt emptySnapShot p).1)
    (hn : Accepted net n view) : (replayContracts net rt emptySnapShot n).1 = emptySnapShot := by
  induction n generalizing view with
  | root block =>
    obtain ⟨rfl, -⟩ := hn.root_eq
    exact replayContracts_genesis
  | child p block ih =>
    rw [replayContracts_child, hstill p block view hn]
    cases hn with
    | child hp hext => exact ih hp

variable (net rt emptySnapShot)

/-- The field commits to the contracts exactly if no accepted block has contracts that
change the snapshot they start from. -/
theorem headerCommits_iff : HeaderCommits net rt emptySnapShot ↔
    ∀ p block view, Accepted net (.child p block) view →
      (processTip net rt emptySnapShot (.child p block) (replayContracts net rt emptySnapShot p)).1 =
        (replayContracts net rt emptySnapShot p).1 := by
  constructor
  · intro h p block view hn
    have hp : ∃ view, Accepted net p view := by
      cases hn with
      | child hp hext => exact ⟨_, hp⟩
    obtain ⟨view, hp⟩ := hp
    rw [← replayContracts_child, h.replay_eq hn, h.replay_eq hp]
  · intro h n n' view view' hn hn' _
    rw [hn.replay_eq h, hn'.replay_eq h]

end

def deployingCoinbase : CTransaction := { bareCoinbase with contract := ⟨ACTION_NEW, [], 7, []⟩ }

def writingWorld : Rt.World Bytes (Option (Fin 10)) :=
  { Rt.failingWorld with
    contractMain := fun _ _ _ => some (.stateWrite (some (Fin.last 9)) (.ret 0)) }

/-- A coinbase with a contract and one without, under one `hashContractState`. -/
theorem replay_uncommitted :
    (∃ view, Accepted sampleNet (minedChain bareCoinbase) view) ∧
    (∃ view, Accepted sampleNet (minedChain deployingCoinbase) view) ∧
    (minedChain bareCoinbase).value.header.hashContractState =
      (minedChain deployingCoinbase).value.header.hashContractState ∧
    (replayContracts sampleNet writingWorld.runtime .empty (minedChain bareCoinbase)).1 ≠
      (replayContracts sampleNet writingWorld.runtime .empty (minedChain deployingCoinbase)).1 := by
  refine ⟨?_, ?_, rfl, fun h => ?_⟩
  · apply accepted_minedChain <;> decide +kernel
  · apply accepted_minedChain <;> decide +kernel
  · have hlookup := congrArg (fun s => s.lookup 7) h
    exact absurd hlookup (by decide +kernel)

end OurChain
