import OurChain.Contract.LibOurContract
import OurChain.Contract.Processing

/-!
# A contract process and its node

The bytes that a contract process writes, fed to the loops of `call_rt` and
`call_rt_pure`: the loops handle the messages that the runtime sent, so the end of the
process decides what the calls return and what they leave behind. `ProcessContract` is
closed over that.
-/

namespace OurChain

open List Option

variable {J ν β κ : Type}

def ContractProg.StateOnly : ContractProg J → Prop
  | .ret _ => True
  | .exit _ => True
  | .abort => True
  | .stateRead k => ∀ state, (k state).StateOnly
  | .stateWrite _ k => k.StateOnly
  | .preStateRead k => ∀ preState, (k preState).StateOnly
  | .checkRuntimeCanWriteDb _ => False
  | .getPreTxid _ => False
  | .contractDaemon _ _ => False
  | .daemonClient _ _ => False
  | .callContract _ callee k => callee.StateOnly ∧ ∀ ret, (k ret).StateOnly
  | .callMissing _ k => ∀ ret, (k ret).StateOnly

namespace Rt

def Asked (env : RtEnv J ν) : List Request → ν → ν → Prop
  | [], node, node' => node' = node
  | q :: qs, node, node' =>
    ∃ reply node₁, env.ask q node = some (reply, node₁) ∧ Asked env qs node₁ node'

/-- All that happens to the node on the way is that it handles well-formed messages. -/
def Sends (env : RtEnv J ν) (daemons : Bool) (st st' : RtState J ν) : Prop :=
  ∃ new, st'.sent = st.sent ++ new ∧ Asked env new st.node st'.node ∧
    ∀ q ∈ new, Request.WellFormed daemons q

section
variable {env : RtEnv J ν} {daemons : Bool} {st st' : RtState J ν}

theorem Asked.append (h : Asked env qs node node₁) (h' : Asked env qs' node₁ node₂) :
    Asked env (qs ++ qs') node node₂ := by
  induction qs generalizing node with
  | nil =>
    cases h
    exact h'
  | cons q qs ih =>
    obtain ⟨reply, node', hask, hrest⟩ := h
    exact ⟨reply, node', hask, ih hrest⟩

theorem Sends.refl (st : RtState J ν) : Sends env daemons st st := ⟨[], by simp, rfl, by simp⟩

theorem Sends.trans (h : Sends env daemons st st') (h' : Sends env daemons st' st'') :
    Sends env daemons st st'' := by
  obtain ⟨new, hsent, hasked, hwf⟩ := h
  obtain ⟨new', hsent', hasked', hwf'⟩ := h'
  refine ⟨new ++ new', ?_, hasked.append hasked', forall_mem_append.mpr ⟨hwf, hwf'⟩⟩
  rw [hsent', hsent, append_assoc]

theorem send_sends (hq : q.WellFormed daemons) (h : send env q st = some r) :
    Sends env daemons st r.2 := by
  obtain ⟨⟨reply, node'⟩, hask, rfl⟩ := map_eq_some_iff.mp h
  exact ⟨[q], rfl, ⟨reply, node', hask, rfl⟩, by simpa using hq⟩

/-- The state with which `enter` or `leave` ends. -/
def stateOf : Except (RtEnd × RtState J ν) (RtState J ν) → RtState J ν
  | .ok st => st
  | .error r => r.2

theorem enter_sends (env : RtEnv J ν) (daemons : Bool) (contract : Bytes) (st : RtState J ν) :
    Sends env daemons st (stateOf (enter env contract st)) := by
  have hname : (Request.readState (env.name contract)).WellFormed daemons := length_overread ..
  unfold enter
  cases hsend : send env (.readState (env.name contract)) st with
  | none => exact .refl st
  | some r =>
    obtain ⟨reply, st'⟩ := r
    have hsends := send_sends hname hsend
    cases hlocal : localState env (stateText reply) (env.heap st'.entered.length) with
    | none =>
      simp only [hlocal]
      exact hsends
    | some top =>
      simp only [hlocal]
      exact hsends

theorem leave_sends (env : RtEnv J ν) (daemons : Bool) (st : RtState J ν) :
    Sends env daemons st (stateOf (leave env st)) := by
  unfold leave
  cases hstack : st.callStack with
  | nil => exact .refl st
  | cons top rest =>
    cases rest with
    | nil =>
      dsimp only
      split
      · exact .refl st
      · have hbuf : (Request.writeState (env.js.dump top.state).length
          (env.js.dump top.state)).WellFormed
            daemons := ⟨rfl, env.js.length_dump _⟩
        cases hsend : send env (.writeState (env.js.dump top.state).length (env.js.dump top.state))
            { st with callStack := [] } with
        | none => exact .refl st
        | some r =>
          have hsends := send_sends hbuf hsend
          exact hsends
    | cons caller rest =>
      dsimp only
      split
      · exact .refl st
      · split <;> exact .refl st

theorem record_sends (h : Sends env daemons st st₃) :
    Sends env daemons st (record name st₀ st₁ st₂ st₃) := by
  unfold record
  split <;> exact h

theorem callContract_sends (contract : Bytes) {callee : ContractProg J} {k : Int → ContractProg J}
    (hcallee : ∀ st, Sends env daemons st (eval env callee st).2)
    (hk : ∀ ret st, Sends env daemons st (eval env (k ret) st).2) (st : RtState J ν) :
    Sends env daemons st (eval env (.callContract contract callee k) st).2 := by
  have henter := enter_sends env daemons contract st
  cases hst₁ : enter env contract st with
  | error r =>
    rw [hst₁] at henter
    rw [eval, hst₁]
    exact henter
  | ok st₁ =>
    rw [hst₁] at henter
    have hrun := henter.trans (hcallee st₁)
    cases hr : eval env callee st₁ with
    | mk e st₂ =>
      rw [hr] at hrun
      cases e with
      | exited status => rwa [eval_call_ended hst₁ hr (by simp)]
      | killed => rwa [eval_call_ended hst₁ hr (by simp)]
      | waiting => rwa [eval_call_ended hst₁ hr (by simp)]
      | returned ret =>
        rw [eval_call_returned hst₁ hr]
        have hleave := hrun.trans (leave_sends env daemons st₂)
        cases hst₃ : leave env st₂ with
        | error r =>
          rw [hst₃] at hleave
          exact hleave
        | ok st₃ =>
          rw [hst₃] at hleave
          exact (record_sends hleave).trans (hk ret _)

theorem eval_sends (prog : ContractProg J) (h : daemons = true ∨ prog.StateOnly) (st : RtState J ν) :
    Sends env daemons st (eval env prog st).2 := by
  induction prog generalizing st with
  | ret status => exact .refl st
  | exit status => exact .refl st
  | abort => exact .refl st
  | stateRead k ih =>
    rw [eval]
    split
    · exact .refl st
    · exact ih _ (h.imp_right (· _)) st
  | stateWrite buf k ih =>
    rw [eval]
    split
    · exact .refl st
    · exact ih h _
  | preStateRead k ih =>
    rw [eval]
    split
    · exact .refl st
    · exact ih _ (h.imp_right (· _)) st
  | checkRuntimeCanWriteDb k ih =>
    have hd : daemons = true := h.resolve_right id
    have hq : Request.checkRuntime.WellFormed daemons := trivial
    rw [eval]
    split
    · exact ih _ (.inl hd) st
    · cases hsend : send env .checkRuntime st with
      | none => exact .refl st
      | some r => exact (send_sends hq hsend).trans (ih _ (.inl hd) _)
  | getPreTxid k ih =>
    have hd : daemons = true := h.resolve_right id
    have hq : Request.getPreTxid.WellFormed daemons := trivial
    rw [eval]
    cases hsend : send env .getPreTxid st with
    | none => exact .refl st
    | some r => exact (send_sends hq hsend).trans (ih _ (.inl hd) _)
  | contractDaemon pid k ih =>
    have hd : daemons = true := h.resolve_right id
    have hpid : (Request.contractDaemon pid.toInt).WellFormed daemons :=
      ⟨hd, pid.le_toInt, pid.toInt_lt⟩
    rw [eval]
    cases hsend : send env (.contractDaemon pid.toInt) st with
    | none => exact .refl st
    | some r =>
      have hsends := send_sends hpid hsend
      dsimp only
      split
      · exact hsends
      · exact hsends.trans (ih (.inl hd) _)
  | daemonClient cmd k ih =>
    have hd : daemons = true := h.resolve_right id
    have hcmd : (Request.daemonClient (overread env.mem 50 cmd)).WellFormed daemons :=
      ⟨hd, length_overread ..⟩
    rw [eval]
    cases hsend : send env (.daemonClient (overread env.mem 50 cmd)) st with
    | none => exact .refl st
    | some r =>
      have hsends := send_sends hcmd hsend
      dsimp only
      split
      · exact hsends
      · exact hsends.trans (ih _ (.inl hd) _)
  | callContract contract callee k ihcallee ihk =>
    exact callContract_sends contract (ihcallee (h.imp_right (·.1)))
      (fun ret => ihk ret (h.imp_right (·.2 ret))) st
  | callMissing contract k ih => exact ih _ (h.imp_right (· _)) st

theorem answerAll_asked (h : Asked env qs node node') :
    (answerAll env.ask (qs.map (⟨·, true⟩)) node).returned = true ∧
      (answerAll env.ask (qs.map (⟨·, true⟩)) node).data = node' := by
  induction qs generalizing node with
  | nil => exact ⟨rfl, h.symm⟩
  | cons q qs ih =>
    obtain ⟨reply, node₁, hask, hrest⟩ := h
    simp only [map_cons, answerAll, hask, Proc.LoopEnd.after]
    exact ih hrest

theorem serve_sent (env : RtEnv J ν) {body : ν → Proc Byte (LoopStep ν)} {mem : Memory}
    (hserve : ∀ node stream, Proc.serve body node stream =
      answerAll env.ask (messages mem daemons stream) node) (main : Option (ContractProg J))
    (h : daemons = true ∨ ∀ prog ∈ main, prog.StateOnly) (contract : Bytes) (node : ν) :
    let st := (startRuntime env contract main node).2
    (Proc.serve body node (st.sent.flatMap Request.encode)).returned = true ∧
      (Proc.serve body node (st.sent.flatMap Request.encode)).data = st.node := by
  intro st
  have hsends : Sends env daemons (initial node) st := by
    refine eval_sends _ (h.imp_right fun hmain => ?_) _
    cases main with
    | none => exact fun _ => trivial
    | some main => exact ⟨hmain main rfl, fun _ => trivial⟩
  obtain ⟨new, hsent, hasked, hwf⟩ := hsends
  have hsent : st.sent = new := hsent
  rw [hserve, hsent, messages_encode hwf]
  exact answerAll_asked hasked

end

/-- What `waitpid` reports, none for a process that did not exit. -/
def exitStatus : RtEnd → Option (BitVec 8)
  | .returned ret => some (BitVec.ofInt 8 ret)
  | .exited status => some status
  | .killed => none
  | .waiting => none

/-- `call_rt` with the process it forks. It does not return if the process waits: the
node waits too, or has left with an exception. -/
def Call.run (c : Call J) (main : Option (ContractProg J)) (d : CallData c.node.js) :
    Option Int × CallData c.node.js :=
  let (e, st) := startRuntime c.env (getHex c.base) main d
  if e = .waiting then (none, st.node)
  else callRtStream c.node c.base c.curTx (st.sent.flatMap Request.encode) (exitStatus e) d

def Call.pureEnv (c : Call J) (cache : ContractDB) : RtEnv J Bytes where
  js := c.node.js
  ask := answerPure c.node cache
  mem := c.mem
  heap := c.heap

def Call.runPure (c : Call J) (main : Option (ContractProg J)) (cache : ContractDB) : Option Bytes :=
  let (e, st) := startRuntime (c.pureEnv cache) (getHex c.base) main []
  if e = .waiting then none
  else callRtPureStream c.node cache (st.sent.flatMap Request.encode) (exitStatus e)

variable (c : Call J)

theorem Call.run_eq (main : Option (ContractProg J)) (d : CallData c.node.js) :
    let r := startRuntime c.env (getHex c.base) main d
    c.run main d =
      (if r.1 = .waiting then none else some (if exitStatus r.1 = some 0 then 0 else -1),
      r.2.node) := by
  intro r
  obtain ⟨hreturned, hdata⟩ := serve_sent c.env (callRt_serve c.node c.base c.curTx) main (.inl rfl)
    (getHex c.base) d
  have hrun : c.run main d = if r.1 = .waiting then (none, r.2.node) else callRtStream c.node c.base
      c.curTx (r.2.sent.flatMap Request.encode) (exitStatus r.1) d := rfl
  rw [hrun]
  split
  · rfl
  · rw [callRtStream, hreturned, hdata]
    rfl

theorem Call.runPure_eq {main : Option (ContractProg J)}
    (h : ∀ prog ∈ main, prog.StateOnly) (cache : ContractDB) :
    let r := startRuntime (c.pureEnv cache) (getHex c.base) main []
    c.runPure main cache =
      if r.1 = .waiting then none else some (if exitStatus r.1 = some 0 then r.2.node else []) := by
  intro r
  obtain ⟨hreturned, hdata⟩ := serve_sent (c.pureEnv cache)
    (callRtPure_serve c.node cache) main (.inr h) (getHex c.base) []
  have hrun : c.runPure main cache = if r.1 = .waiting then none else callRtPureStream c.node cache
      (r.2.sent.flatMap Request.encode) (exitStatus r.1) := rfl
  rw [hrun]
  split
  · rfl
  · rw [callRtPureStream, hreturned, hdata]
    rfl

theorem Call.run_returned (c : Call J) (d : CallData c.node.js)
    (hm : RunsBase c.env (c.service d.snapShot) (getHex c.base) main m) :
    (c.run (some main) d).1 = some (if BitVec.ofInt 8 m.ret = 0 then 0 else -1) ∧
      (c.run (some main) d).2.snapShot = d.snapShot.setContractState c.base m.state := by
  have hend := startRuntime_end (c.serves d.snapShot) (getHex c.base) main d rfl
  rw [c.run_eq]
  generalize startRuntime c.env (getHex c.base) (some main) d = r at hend
  cases hend with
  | ended hnot => exact absurd hm (hnot m)
  | returned hm' hbase hstored hwrites hcalls =>
    cases hm.unique hm'
    exact ⟨by simp [exitStatus], hstored⟩

theorem Call.run_ended (d : CallData c.node.js) (main : Option (ContractProg J))
    (hnot : ∀ prog ∈ main, ∀ m, ¬ RunsBase c.env (c.service d.snapShot) (getHex c.base) prog m) :
    (c.run main d).2.snapShot = d.snapShot := by
  rw [c.run_eq]
  cases main with
  | none => rfl
  | some main =>
    have hend := startRuntime_end (c.serves d.snapShot) (getHex c.base) main d rfl
    generalize startRuntime c.env (getHex c.base) (some main) d = r at hend
    cases hend with
    | ended _ hkept => exact hkept
    | returned hm => exact absurd hm (hnot main rfl _)

/-- The compiler, the programs of compiled code, none without a `contract_main`, the directory
they leave, and the process that runs them. -/
structure World (κ J : Type) where
  node : RtNode J
  compile : Bytes → Option κ
  contractMain : κ → (Uint256 → Option κ) → List Bytes → Option (ContractProg J)
  dirAfter : κ → ContractsDir κ → CTransaction → ContractsDir κ
  mem : Nat → Byte
  heap : Nat → Bool

@[reducible] def World.call (w : World κ J) (tx : CTransaction) : Call J where
  node := w.node
  base := tx.contract.address
  curTx := tx
  mem := w.mem
  heap := w.heap

/-- The programs run through `call_rt`. A call that does not return counts as failed. -/
def World.runtime (w : World κ J) : Runtime κ (SnapShot w.node.js) where
  compile := w.compile
  contractMain code dir tx s :=
    let (ret, d) := (w.call tx).run (w.contractMain code dir.codeSo tx.contract.args) ⟨s, [], []⟩
    (if ret = some 0 then 0 else 1, d.snapShot, w.dirAfter code dir tx)

def World.program (w : World κ J) (c : BlockTx β) (dir : ContractsDir κ) : Option (ContractProg J) :=
  (executedCode w.runtime c dir).bind fun code =>
    w.contractMain code (startDir w.runtime c dir).codeSo c.tx.contract.args

section
variable (w : World κ J) (c : BlockTx β) (st : SnapShot w.node.js × ContractSide β κ)

theorem World.processContract_run :
    let r := (w.call c.tx).run (w.program c st.2.dir) ⟨st.1, [], []⟩
    (processContract w.runtime c st).2.1 = r.2.snapShot ∧
      ((w.program c st.2.dir).isSome →
        ((processContract w.runtime c st).1 = false ↔ r.1 ≠ some 0)) := by
  intro r
  have hr : (w.call c.tx).run (w.program c st.2.dir) ⟨st.1, [], []⟩ = r := rfl
  clear_value r
  rw [processContract_eq]
  cases hcode : executedCode w.runtime c st.2.dir with
  | none =>
    have hprogram : w.program c st.2.dir = none := by simp [World.program, hcode]
    refine ⟨?_, by simp [hprogram]⟩
    rw [← hr, hprogram]
    exact ((w.call c.tx).run_ended ⟨st.1, [], []⟩ none (by simp)).symm
  | some code =>
    have hprogram : w.program c st.2.dir =
        w.contractMain code (startDir w.runtime c st.2.dir).codeSo c.tx.contract.args := by
      simp [World.program, hcode]
    have hmain : w.runtime.contractMain code (startDir w.runtime c st.2.dir) c.tx st.1 =
        (if r.1 = some 0 then 0 else 1, r.2.snapShot,
        w.dirAfter code (startDir w.runtime c st.2.dir) c.tx) := by
      rw [← hr, hprogram]
      rfl
    dsimp only
    rw [hmain]
    refine ⟨rfl, fun _ => ?_⟩
    by_cases hzero : r.1 = some 0
    · simp [hzero]
    · simp [hzero]

/-- A transaction that fails has no effect exactly if its contract does not return an
error from a state other than the stored one. -/
theorem processContract_failure_iff :
    ((processContract w.runtime c st).1 = false → (processContract w.runtime c st).2.1 = st.1) ↔
    ∀ main m, w.program c st.2.dir = some main →
      RunsBase (w.call c.tx).env ((w.call c.tx).service st.1) (getHex c.address) main m →
      BitVec.ofInt 8 m.ret ≠ 0 → st.1.lookup c.address = some m.state := by
  obtain ⟨hstate, hfailed⟩ := w.processContract_run c st
  rw [hstate]
  by_cases hruns : ∃ main m, w.program c st.2.dir = some main ∧
      RunsBase (w.call c.tx).env ((w.call c.tx).service st.1) (getHex c.address) main m
  · obtain ⟨main, m, hmain, hm⟩ := hruns
    obtain ⟨hret, hset⟩ := (w.call c.tx).run_returned ⟨st.1, [], []⟩ hm
    rw [← hmain] at hret hset
    have hfailed : (processContract w.runtime c st).1 = false ↔ BitVec.ofInt 8 m.ret ≠ 0 := by
      rw [hfailed (by rw [hmain]; rfl), hret]
      by_cases hzero : BitVec.ofInt 8 m.ret = 0 <;> simp [hzero]
    rw [hfailed, hset, SnapShot.setContractState_eq_self_iff]
    refine ⟨fun h main' m' hmain' hm' hret' => ?_, fun h => h main m hmain hm⟩
    cases hmain.symm.trans hmain'
    cases hm.unique hm'
    exact h hret'
  · have hsame : ((w.call c.tx).run (w.program c st.2.dir) ⟨st.1, [], []⟩).2.snapShot = st.1 :=
      (w.call c.tx).run_ended _ _ fun main hmain m hm => hruns ⟨main, m, hmain, hm⟩
    exact iff_of_true (fun _ => hsame) fun main m hmain hm => absurd ⟨main, m, hmain, hm⟩ hruns

end

def failingWorld : World Bytes (Option (Fin 10)) where
  node := digitNode 0
  compile code := some code
  contractMain _ _ _ := some (.stateWrite (some 5) (.ret 1))
  dirAfter _ dir _ := dir
  mem _ := 0
  heap _ := true

/-- A deployment that fails leaves a state behind. -/
theorem processContract_failure_kept :
    let r := processContract failingWorld.runtime ⟨.root 0, 0, carrierTx ACTION_NEW [] 7⟩
      (.empty, emptySide)
    r.1 = false ∧ r.2.1 ≠ .empty := by
  intro r
  have hlookup : r.2.1.lookup 7 = some (some 5) := by decide +kernel
  refine ⟨by decide +kernel, fun hempty => ?_⟩
  rw [hempty] at hlookup
  cases hlookup

def Call.pureService (c : Call J) (cache : ContractDB) : Service J where
  state name := c.node.js.parse (cache.getState name)
  canWriteDb := false
  preTxid := some []
  daemonClient _ := none

theorem Call.servesPure (cache : ContractDB) :
    Serves (c.pureEnv cache) (c.pureService cache) (fun result => result = [])
      (fun state result => result = c.node.js.dump state) where
  readState result name hresult := by
    simp only [Call.pureService]
    cases hparse : c.node.js.parse (cache.getState name) with
    | none => simp [Call.pureEnv, answerPure, hparse]
    | some known =>
      refine ⟨stateReply c.node known, result, ?_, hresult, stateText_stateReply c.node known⟩
      simp [Call.pureEnv, answerPure, hparse]
  writeState result state hresult := ⟨[],
    c.node.js.dump state, by simp [Call.pureEnv, answerPure], rfl⟩
  checkRuntime result hresult := by
    have hflag : ¬ ofIntBytes ((intBytes 0).take 4) = BYTE_WRITE_STATE := by decide
    exact ⟨intBytes 0, result, rfl, hresult, decide_eq_false hflag⟩
  getPreTxid result hresult := ⟨List.replicate 64 0, result, rfl, hresult, by decide⟩
  contractDaemon result pid hresult := ⟨_, result, rfl, hresult, trivial⟩
  daemonClient result cmd hresult := ⟨List.replicate 64 0, result, rfl,
    hresult, by simp [Call.pureService]⟩

section
variable {env : RtEnv J ν} {prog : ContractProg J} {nested : Bool} {state preState : J}
  {m : Meaning J}

theorem means_known {srv : Service J} (h : means env srv prog nested state preState = some m) :
    ∀ name ∈ m.entered, (srv.state name).isSome := by
  induction prog generalizing nested state preState m with
  | ret status => cases h; simp
  | exit status => cases h
  | abort => cases h
  | stateRead k ih => exact ih _ h
  | stateWrite buf k ih => exact ih h
  | preStateRead k ih => exact ih _ h
  | checkRuntimeCanWriteDb k ih => exact ih _ h
  | getPreTxid k ih =>
    obtain ⟨txid, -, hm⟩ := bind_eq_some_iff.mp h
    exact ih _ hm
  | contractDaemon pid k ih =>
    simp only [means] at h
    split at h
    · cases h
    · exact ih h
  | daemonClient cmd k ih =>
    obtain ⟨dir, -, hm⟩ := bind_eq_some_iff.mp h
    exact ih _ hm
  | callContract contract callee k ihcallee ihk =>
    obtain ⟨known, hknown, hrest⟩ := bind_eq_some_iff.mp h
    obtain ⟨m₁, hm₁, hrest⟩ := bind_eq_some_iff.mp hrest
    obtain ⟨m₂, hm₂, rfl⟩ := map_eq_some_iff.mp hrest
    refine forall_mem_cons.mpr ⟨by rw [hknown]; rfl, forall_mem_append.mpr ⟨?_, ?_⟩⟩
    · exact ihcallee hm₁
    · exact ihk _ hm₂
  | callMissing contract k ih => exact ih _ h

theorem means_congr {env' : RtEnv J ν'} (hmem : env'.mem = env.mem)
    (hjs : env'.js = env.js) {srv srv' : Service J} (hprog : prog.StateOnly)
    (h : means env srv prog nested state preState = some m)
    (hsame : ∀ name ∈ m.entered, srv'.state name = srv.state name) :
    means env' srv' prog nested state preState = some m := by
  induction prog generalizing nested state preState m with
  | ret status => exact h
  | exit status => cases h
  | abort => cases h
  | stateRead k ih => exact ih _ (hprog _) h hsame
  | stateWrite buf k ih => exact ih hprog h hsame
  | preStateRead k ih => exact ih _ (hprog _) h hsame
  | checkRuntimeCanWriteDb k ih => cases hprog
  | getPreTxid k ih => cases hprog
  | contractDaemon pid k ih => cases hprog
  | daemonClient cmd k ih => cases hprog
  | callContract contract callee k ihcallee ihk =>
    obtain ⟨known, hknown, hrest⟩ := bind_eq_some_iff.mp h
    obtain ⟨m₁, hm₁, hrest⟩ := bind_eq_some_iff.mp hrest
    obtain ⟨m₂, hm₂, rfl⟩ := map_eq_some_iff.mp hrest
    obtain ⟨hname, hentered⟩ := forall_mem_cons.mp hsame
    obtain ⟨hsame₁, hsame₂⟩ := forall_mem_append.mp hentered
    have hname' : env'.name contract = env.name contract := by rw [RtEnv.name, RtEnv.name, hmem]
    rw [← hjs] at hm₁
    have hcallee := ihcallee hprog.1 hm₁ hsame₁
    have hk := ihk _ (hprog.2 _) hm₂ hsame₂
    simp only [means, hname', hname, hknown, bind_some, hcallee, hk, map_some]
  | callMissing contract k ih => exact ih _ (hprog _) h hsame

end

theorem name_getHex (env : RtEnv J ν) (x : Uint256) : env.name (getHex x) = getHex x := by
  have htake : (getHex x ++ [0]).take 64 = getHex x := take_left' (length_getHex x)
  rw [RtEnv.name, overread, htake, fill_self _ (length_getHex x)]

/-- Under a key that it has, the store knows the committed state; under any other key
it has an empty text, which does not parse. -/
theorem Call.pureService_state (s : SnapShot c.node.js) (name : Bytes) :
    (c.pureService s.db).state name = if (s.db name).isSome then some
    (committed s name) else none := by
  simp only [Call.pureService, ContractDB.getState]
  cases hdb : s.db name with
  | none => simp [c.node.js.parse_nil]
  | some text =>
    obtain ⟨address, j, rfl, rfl⟩ := s.stored name text hdb
    simp [committed, setHex_getHex, SnapShot.lookup, hdb, c.node.js.parse_dump]

theorem Call.runsBase_pure_iff {main : ContractProg J} (hmain : main.StateOnly)
    (s : SnapShot c.node.js) (m : Meaning J) :
    RunsBase (c.pureEnv s.db) (c.pureService s.db) (getHex c.base) main m ↔
      RunsBase c.env (c.service s) (getHex c.base) main m ∧
        ∀ name ∈ getHex c.base :: m.entered, (s.db name).isSome := by
  have hmem : (c.pureEnv s.db).mem = c.env.mem := rfl
  have hjs : (c.pureEnv s.db).js = c.env.js := rfl
  have hstate := c.pureService_state s
  have hsame : ∀ {name}, (s.db name).isSome → (c.pureService s.db).state name =
    (c.service s).state name :=
    fun hdb => by rw [hstate, if_pos hdb]; rfl
  have hdb : ∀ {name known}, (c.pureService s.db).state name = some known → (s.db name).isSome := by
    intro name known hknown
    rw [hstate] at hknown
    split at hknown
    · assumption
    · cases hknown
  constructor
  · rintro ⟨known, hknown, hmeans, hfreed⟩
    rw [name_getHex] at hknown hfreed
    have hentered : ∀ name ∈ m.entered, (s.db name).isSome := by
      intro name hname
      obtain ⟨known', hknown'⟩ := isSome_iff_exists.mp (means_known hmeans name hname)
      exact hdb hknown'
    have hall : ∀ name ∈ getHex c.base :: m.entered, (s.db name).isSome :=
      forall_mem_cons.mpr ⟨hdb hknown, hentered⟩
    refine ⟨⟨known, ?_, means_congr hmem.symm hjs.symm hmain hmeans fun name hname => ?_, ?_⟩, hall⟩
    · rw [name_getHex, ← hsame (hdb hknown), hknown]
    · exact (hsame (hentered name hname)).symm
    · rw [name_getHex]
      intro j name known' hname hknown'
      refine hfreed j name known' hname ?_
      rw [hsame (hall name (mem_of_getElem? hname)), hknown']
  · rintro ⟨⟨known, hknown, hmeans, hfreed⟩, hall⟩
    rw [name_getHex] at hknown hfreed
    obtain ⟨hbase, hentered⟩ := forall_mem_cons.mp hall
    refine ⟨known, ?_, means_congr hmem hjs hmain hmeans fun name hname => ?_, ?_⟩
    · rw [name_getHex, hsame hbase, hknown]
    · exact hsame (hentered name hname)
    · rw [name_getHex]
      intro j name known' hname hknown'
      refine hfreed j name known' hname ?_
      rw [← hsame (hall name (mem_of_getElem? hname)), hknown']

/-- A pure call shows what the transaction commits exactly if the store has an entry,
under the bytes that the runtime sends, for the contract and for every callee. -/
theorem callRtPure_shows_iff (c : Call J) {main : ContractProg J} (hmain : main.StateOnly)
    (d : CallData c.node.js) {ret : Int}
    (hret : (startRuntime c.env (getHex c.base) (some main) d).1 = .returned ret)
    (hzero : BitVec.ofInt 8 ret = 0) :
    (∃ v, (c.run (some main) d).2.snapShot.lookup c.base = some v ∧
      c.runPure (some main) d.snapShot.db = some (c.node.js.dump v)) ↔
    ∀ m, means c.env (c.service d.snapShot) main false (committed d.snapShot (getHex c.base))
        c.node.js.null = some m →
      ∀ name ∈ getHex c.base :: m.entered, (d.snapShot.db name).isSome := by
  obtain ⟨m, hm, hmret⟩ : ∃ m, RunsBase c.env (c.service d.snapShot) (getHex c.base) main m ∧
      m.ret = ret := by
    have hend := startRuntime_end (c.serves d.snapShot) (getHex c.base) main d rfl
    generalize startRuntime c.env (getHex c.base) (some main) d = r at hend hret
    cases hend with
    | returned hm => exact ⟨_, hm, RtEnd.returned.inj hret⟩
    | ended _ _ _ _ hend => exact absurd hret (hend ret)
  have hstored : (c.run (some main) d).2.snapShot.lookup c.base = some m.state := by
    rw [(c.run_returned d hm).2, SnapShot.lookup_setContractState]
  have hmeans : means c.env (c.service d.snapShot) main false (committed d.snapShot (getHex c.base))
      c.node.js.null = some m := by
    obtain ⟨known, hknown, hmeans, -⟩ := hm
    rw [name_getHex] at hknown
    cases some.inj hknown
    exact hmeans
  have hpure := c.runsBase_pure_iff hmain d.snapShot
  have hend := startRuntime_end (c.servesPure d.snapShot.db) (getHex c.base) main [] rfl
  rw [c.runPure_eq (by simpa using hmain)]
  generalize startRuntime (c.pureEnv d.snapShot.db) (getHex c.base) (some main) [] = r at hend
  cases hend with
  | returned hm' hbase hresult =>
    obtain ⟨hm'', hdb⟩ := (hpure _).mp hm'
    cases hm.unique hm''
    refine iff_of_true ⟨m.state, hstored, ?_⟩ fun m' hm' => ?_
    · have hstatus : exitStatus (.returned m.ret) = some 0 := by rw [exitStatus, hmret, hzero]
      rw [if_neg (by simp), if_pos hstatus, hresult]
    · cases some.inj (hmeans.symm.trans hm')
      exact hdb
  | ended hnot hempty =>
    refine iff_of_false ?_ fun hall => hnot m ((hpure m).mpr ⟨hm, hall m hmeans⟩)
    rintro ⟨v, -, hv⟩
    split at hv
    · cases hv
    · refine c.node.js.dump_ne_nil v ?_
      rw [← some.inj hv, hempty, ite_self]

def cleanCall : Call (Option (Fin 10)) := { dirtyCall with heap := fun _ => true }

def copyProg : ContractProg (Option (Fin 10)) :=
  .callContract (getHex 9) (.stateWrite (some 3) (.ret 0)) fun _ =>
    .preStateRead fun preState => .stateWrite preState (.ret 0)

def knownCall : CallData digitJson :=
  { emptyCall with
    snapShot := (SnapShot.empty.setContractState 7 (some 1)).setContractState 9 (some 2) }

theorem callRtPure_shows_copy : ∃ v, (cleanCall.run (some copyProg) knownCall).2.snapShot.lookup 7 =
    some v ∧ cleanCall.runPure (some copyProg) knownCall.snapShot.db = some (digitJson.dump v) := by
  have hret : (startRuntime cleanCall.env (getHex 7) (some copyProg) knownCall).1 = .returned 0 := by
    decide +kernel
  refine (callRtPure_shows_iff cleanCall (by simp [copyProg, ContractProg.StateOnly]) knownCall hret
    (by decide)).mpr fun m hm => ?_
  have hentered : m.entered = [cleanCall.env.name (getHex 9)] :=
    (congrArg Meaning.entered (some.inj hm)).symm
  rw [hentered, name_getHex]
  decide +kernel

/-- The first call of a contract stores a state, and its pure call leaves with an
exception. -/
theorem callRtPure_throws_first : (ContractProg.stateWrite (some 5) (.ret 0)).StateOnly ∧
    (cleanCall.run (some (.stateWrite (some 5) (.ret 0))) emptyCall).1 = some 0 ∧
    (cleanCall.run (some (.stateWrite (some 5) (.ret 0))) emptyCall).2.snapShot.lookup 7 =
    some (some 5) ∧ cleanCall.runPure (some (.stateWrite (some 5) (.ret 0))) emptyCall.snapShot.db =
    none := by
  refine ⟨trivial, ?_⟩
  decide +kernel

end Rt

end OurChain
