import OurChain.Contract.CallRtStream

/-!
# The contract runtime

`libourcontract`, which a contract process runs in. A contract is a program over the
runtime's calls; `call_contract` pushes a local state that was read from the node, runs
the callee, and on return hands the callee's state to the caller or, for the base
contract, to the node. `state_exist` and `general_interface_write` are made of the
calls below.

A program is given as the tree of what it may do next, so that the callee of a nested
call is a part of it. The runtime answers to `ask`, one message at a time; `CallRt`
says that the loops of the node serve a stream of messages in that way.
-/

namespace OurChain

open List Option

inductive ContractProg (J : Type) where
  | ret (status : Int)
  | exit (status : BitVec 8)
  | abort
  | stateRead (k : J → ContractProg J)
  | stateWrite (buf : J) (k : ContractProg J)
  | preStateRead (k : J → ContractProg J)
  | checkRuntimeCanWriteDb (k : Bool → ContractProg J)
  | getPreTxid (k : Bytes → ContractProg J)
  /-- The parent's side, with the result of `fork`. -/
  | contractDaemon (pid : BitVec 32) (k : ContractProg J)
  | daemonClient (cmd : Bytes) (k : Bytes → ContractProg J)
  | callContract (contract : Bytes) (callee : ContractProg J) (k : Int → ContractProg J)
  /-- A call that fails before it reaches `contract_main`. -/
  | callMissing (contract : Bytes) (k : Int → ContractProg J)

/-- The member `stateStr`: set by the constructor, or left as the heap had it. -/
inductive StateStr where
  | owned
  | indeterminate (isNull : Bool)
  deriving DecidableEq

structure ContractLocalState (J : Type) where
  stateStr : StateStr
  state : J
  preState : J

/-- Whether the destructor frees a pointer that was allocated, or none. -/
def StateStr.deletable : StateStr → Bool
  | owned => true
  | indeterminate isNull => isNull

/-- A record of a nested call that returned: the stack before and after it, and the
callee's state when it started and when it returned. -/
structure NestedCall (J : Type) where
  contract : Bytes
  before : List (ContractLocalState J)
  started : Option J
  final : Option J
  after : List (ContractLocalState J)

/-- The call stack, its top first, with the node's data and records of the run: the
messages sent, the contracts entered and the nested calls. -/
structure RtState (J ν : Type) where
  callStack : List (ContractLocalState J)
  node : ν
  sent : List Request
  entered : List Bytes
  calls : List (NestedCall J)

/-- How a run ends: `contract_main` returned, the process exited or died, or it waits
for a reply that does not come. -/
inductive RtEnd where
  | returned (ret : Int)
  | exited (status : BitVec 8)
  | killed
  | waiting
  deriving DecidableEq

/-- The JSON library, the node, the memory behind a contract's name, and the pointers
that the heap leaves in local states, by the number of states made before. -/
structure RtEnv (J ν : Type) where
  js : Json J
  ask : Request → ν → Option (Bytes × ν)
  mem : Nat → Byte
  heap : Nat → Bool

def EXIT_FAILURE : Int := 1

variable {J ν : Type}

def RtEnv.name (env : RtEnv J ν) (contract : Bytes) : Bytes := overread env.mem 64 contract

namespace Rt

section
variable (env : RtEnv J ν)

def send (q : Request) (st : RtState J ν) : Option (Bytes × RtState J ν) :=
  (env.ask q st.node).map fun (reply, node) => (reply, { st with node, sent := st.sent ++ [q] })

def stateText (reply : Bytes) : Option Bytes :=
  let flag := ofIntBytes (reply.take 4)
  if flag = 0 then none else some ((reply.drop 4).take flag.toNat)

def localState (stateStr : Option Bytes) (isNull : Bool) : Option (ContractLocalState J) :=
  match stateStr with
  | none => some ⟨.indeterminate isNull, env.js.null, env.js.null⟩
  | some text => (env.js.parse text).map fun state => ⟨.owned, state, env.js.null⟩

def enter (contract : Bytes) (st : RtState J ν) : Except (RtEnd × RtState J ν) (RtState J ν) :=
  match send env (.readState (env.name contract)) st with
  | none => .error (.waiting, st)
  | some (reply, st) =>
    match localState env (stateText reply) (env.heap st.entered.length) with
    | none => .error (.killed, st)
    | some top =>
      .ok { st with callStack := top :: st.callStack, entered := st.entered ++ [env.name contract] }

def leave (st : RtState J ν) : Except (RtEnd × RtState J ν) (RtState J ν) :=
  match st.callStack with
  | [] => .error (.killed, st)
  | [top] =>
    let buf := env.js.dump top.state
    if !top.stateStr.deletable then .error (.killed, st)
    else match send env (.writeState buf.length buf) { st with callStack := [] } with
      | none => .error (.waiting, st)
      | some (_, st) => .ok st
  | top :: caller :: rest =>
    if !top.stateStr.deletable then .error (.killed, st)
    else match env.js.parse (env.js.dump top.state) with
      | none => .error (.killed, st)
      | some preState => .ok { st with callStack := { caller with preState } :: rest }

def preTxid (reply : Bytes) : Bytes := if reply.head? = some 0 then [] else reply.take 64

def topState (stack : List (ContractLocalState J)) : Option J := stack.head?.map (·.state)

/-- The record of a call between the states before it, at the start of the callee, at
its end and after it; the base contract has none. -/
def record (contract : Bytes) (st st₁ st₂ st₃ : RtState J ν) : RtState J ν :=
  if st.callStack.isEmpty then st₃
  else { st₃ with calls := st₃.calls ++
    [⟨contract, st.callStack, topState st₁.callStack, topState st₂.callStack, st₃.callStack⟩] }

def eval : ContractProg J → RtState J ν → RtEnd × RtState J ν
  | .ret status, st => (.returned status, st)
  | .exit status, st => (.exited status, st)
  | .abort, st => (.killed, st)
  | .stateRead k, st =>
    match st.callStack with
    | [] => (.killed, st)
    | top :: _ => eval (k top.state) st
  | .stateWrite buf k, st =>
    match st.callStack with
    | [] => (.killed, st)
    | top :: rest => eval k { st with callStack := { top with state := buf } :: rest }
  | .preStateRead k, st =>
    match st.callStack with
    | [] => (.killed, st)
    | top :: _ => eval (k top.preState) st
  | .checkRuntimeCanWriteDb k, st =>
    if st.callStack.length > 1 then eval (k false) st
    else match send env .checkRuntime st with
      | none => (.waiting, st)
      | some (reply, st) => eval (k (ofIntBytes (reply.take 4) = BYTE_WRITE_STATE)) st
  | .getPreTxid k, st =>
    match send env .getPreTxid st with
    | none => (.waiting, st)
    | some (reply, st) => eval (k (preTxid reply)) st
  | .contractDaemon pid k, st =>
    match send env (.contractDaemon pid.toInt) st with
    | none => (.waiting, st)
    | some (_, st) => if pid.toInt < 0 then (.exited 1, st) else eval k st
  | .daemonClient cmd k, st =>
    match send env (.daemonClient (overread env.mem 50 cmd)) st with
    | none => (.waiting, st)
    | some (reply, st) =>
      if reply.length < 150 then (.waiting, st) else eval (k (cString (reply.take 150))) st
  | .callContract contract callee k, st =>
    match enter env contract st with
    | .error r => r
    | .ok st₁ =>
      match eval callee st₁ with
      | (.returned ret, st₂) =>
        match leave env st₂ with
        | .error r => r
        | .ok st₃ => eval (k ret) (record (env.name contract) st st₁ st₂ st₃)
      | r => r
  | .callMissing _ k, st => eval (k EXIT_FAILURE) st

def initial (node : ν) : RtState J ν :=
  { callStack := [], node, sent := [], entered := [], calls := [] }

/-- `start_runtime`, and with it the process: the base contract and its program, none
if its `contract_main` is not reached. -/
def startRuntime (contract : Bytes) (main : Option (ContractProg J)) (node : ν) :
    RtEnd × RtState J ν :=
  eval env (match main with
    | none => .callMissing contract .ret
    | some main => .callContract contract main .ret) (initial node)

end

/-- What a node tells a contract: the states it knows, none where it throws, and its
answers to the other calls, none where it does not answer. -/
structure Service (J : Type) where
  state : Bytes → Option J
  canWriteDb : Bool
  preTxid : Option Bytes
  daemonClient : Bytes → Option Bytes

/-- The result of `contract_main`, the state and the callee's state it leaves, and the
contracts it entered. -/
structure Meaning (J : Type) where
  ret : Int
  state : J
  preState : J
  entered : List Bytes

section
variable (env : RtEnv J ν) (srv : Service J)

/-- What a program does if no destructor fails: each contract works on a copy of its
state that only its caller gets to see. None if a contract ends the process or waits. -/
def means : ContractProg J → Bool → J → J → Option (Meaning J)
  | .ret status, _, state, preState => some ⟨status, state, preState, []⟩
  | .exit _, _, _, _ => none
  | .abort, _, _, _ => none
  | .stateRead k, nested, state, preState => means (k state) nested state preState
  | .stateWrite buf k, nested, _, preState => means k nested buf preState
  | .preStateRead k, nested, state, preState => means (k preState) nested state preState
  | .checkRuntimeCanWriteDb k, nested, state, preState =>
    means (k (!nested && srv.canWriteDb)) nested state preState
  | .getPreTxid k, nested, state, preState =>
    srv.preTxid.bind fun txid => means (k txid) nested state preState
  | .contractDaemon pid k, nested, state, preState =>
    if pid.toInt < 0 then none else means k nested state preState
  | .daemonClient cmd k, nested, state, preState =>
    (srv.daemonClient (overread env.mem 50 cmd)).bind fun dir => means (k dir) nested state preState
  | .callContract contract callee k, nested, state, _ =>
    (srv.state (env.name contract)).bind fun known =>
      (means callee true known env.js.null).bind fun m₁ =>
        (means (k m₁.ret) nested state m₁.state).map fun m₂ =>
          { m₂ with entered := env.name contract :: m₁.entered ++ m₂.entered }
  | .callMissing _ k, nested, state, preState => means (k EXIT_FAILURE) nested state preState

/-- The local states of `names`, made after `i` others, are freed without harm: the
node knows a state, or the heap left no pointer. -/
def Freed (i : Nat) (names : List Bytes) : Prop :=
  ∀ j name known, names[j]? = some name → srv.state name = some known →
    env.js.isNull known = false ∨ env.heap (i + j) = true

def Runs (prog : ContractProg J) (nested : Bool) (i : Nat) (state preState : J) (m : Meaning J) :
    Prop :=
  means env srv prog nested state preState = some m ∧ Freed env srv i m.entered

variable {env srv}

theorem freed_nil (i : Nat) : Freed env srv i [] := by
  intro j name known h
  simp at h

theorem freed_cons (i : Nat) (name : Bytes) (names : List Bytes) : Freed env srv i (name :: names) ↔
    (∀ known, srv.state name = some known → env.js.isNull known = false ∨ env.heap i = true) ∧
      Freed env srv (i + 1) names := by
  rw [Freed, ← Nat.and_forall_add_one]
  refine and_congr ⟨fun h known => h name known rfl, fun h _ known hname => ?_⟩ ?_
  · cases hname
    exact h known
  · simp [Freed, Nat.add_assoc, Nat.add_comm 1]

theorem freed_append (i : Nat) (l l' : List Bytes) :
    Freed env srv i (l ++ l') ↔ Freed env srv i l ∧ Freed env srv (i + l.length) l' := by
  induction l generalizing i with
  | nil => simp [freed_nil]
  | cons name l ih =>
    simp only [cons_append, freed_cons, ih, length_cons, and_assoc, Nat.add_assoc,
      Nat.add_comm 1]

theorem runs_ret : Runs env srv (.ret status) nested i state preState m ↔
    m = ⟨status, state, preState, []⟩ := by
  refine ⟨fun h => (some.inj h.1).symm, fun h => ?_⟩
  subst h
  exact ⟨rfl, freed_nil i⟩

end

/-- The node answers `q` with a reply that satisfies `P` and stays in `kept`. -/
def Gives (env : RtEnv J ν) (kept : ν → Prop) (node : ν) (q : Request) (P : Bytes → Prop) : Prop :=
  ∃ reply node', env.ask q node = some (reply, node') ∧ kept node' ∧ P reply

/-- A node that gives the answers of `srv` as long as it is in `kept`, and leaves it
for `stored` with a write. -/
structure Serves (env : RtEnv J ν) (srv : Service J) (kept : ν → Prop) (stored : J → ν → Prop) :
    Prop where
  readState : ∀ node name, kept node → match srv.state name with
    | none => env.ask (.readState name) node = none
    | some known => Gives env kept node (.readState name) fun reply =>
      stateText reply = if env.js.isNull known then none else some (env.js.dump known)
  writeState : ∀ node state, kept node → ∃ reply node',
    env.ask (.writeState (env.js.dump state).length (env.js.dump state)) node = some (reply, node') ∧
      stored state node'
  checkRuntime : ∀ node, kept node → Gives env kept node .checkRuntime fun reply =>
    decide (ofIntBytes (reply.take 4) = BYTE_WRITE_STATE) = srv.canWriteDb
  getPreTxid : ∀ node, kept node → match srv.preTxid with
    | none => env.ask .getPreTxid node = none
    | some txid => Gives env kept node .getPreTxid fun reply => preTxid reply = txid
  contractDaemon : ∀ node pid, kept node → Gives env kept node (.contractDaemon pid) fun _ => True
  daemonClient : ∀ node cmd, kept node → Gives env kept node (.daemonClient cmd) fun reply =>
    srv.daemonClient cmd = if reply.length < 150 then none else some (cString (reply.take 150))

def frame (env : RtEnv J ν) (i : Nat) (known : J) : ContractLocalState J where
  stateStr := if env.js.isNull known then .indeterminate (env.heap i) else .owned
  state := known
  preState := env.js.null

def entry (env : RtEnv J ν) (name : Bytes) (known : J) (node : ν) (st : RtState J ν) : RtState J ν :=
  { st with
    callStack := frame env st.entered.length known :: st.callStack
    node
    sent := st.sent ++ [.readState name]
    entered := st.entered ++ [name] }

/-- A nested call as it should be: the callee starts from the state that the node
knows, and the stack afterwards differs in the caller's view of the callee only. -/
def Disciplined (srv : Service J) (call : NestedCall J) : Prop :=
  ∃ caller rest final, call.before = caller :: rest ∧ call.started = srv.state call.contract ∧
    call.final = some final ∧ call.after = { caller with preState := final } :: rest

def isWrite : Request → Bool
  | .writeState _ _ => true
  | _ => false

/-- What a part of a run inside the base contract leaves as it was, except for reads
and disciplined calls. -/
structure Keeps (srv : Service J) (kept : ν → Prop) (st st' : RtState J ν) : Prop where
  node : kept st'.node
  sent : ∃ new, st'.sent = st.sent ++ new ∧ ∀ q ∈ new, isWrite q = false
  calls : ∃ new, st'.calls = st.calls ++ new ∧ ∀ call ∈ new, Disciplined srv call

/-- The end of a run from `st` with `top` on its stack: it returned with a meaning that
`runs` admits, and changed only the state and the callee's state of `top`; or `runs`
admits none, and it did not return. -/
inductive Follows (srv : Service J) (kept : ν → Prop) (st : RtState J ν) (top : ContractLocalState J)
    (rest : List (ContractLocalState J)) (runs : Meaning J → Prop) : RtEnd × RtState J ν → Prop where
  | returned (hruns : runs m) (hkeeps : Keeps srv kept st st')
      (hstack : st'.callStack = { top with state := m.state, preState := m.preState } :: rest)
      (hentered : st'.entered = st.entered ++ m.entered) :
      Follows srv kept st top rest runs (.returned m.ret, st')
  | ended (hruns : ∀ m, ¬ runs m) (hkeeps : Keeps srv kept st st') (hend : ∀ ret, e ≠ .returned ret) :
      Follows srv kept st top rest runs (e, st')

section
variable {env : RtEnv J ν} {srv : Service J} {kept : ν → Prop} {stored : J → ν → Prop}
variable {st st₁ : RtState J ν}

theorem Keeps.refl (h : kept st.node) : Keeps srv kept st st :=
  ⟨h, ⟨[], by simp⟩, ⟨[], by simp⟩⟩

theorem Keeps.trans (h : Keeps srv kept st st₁) (h' : Keeps srv kept st₁ st₂) :
    Keeps srv kept st st₂ := by
  obtain ⟨sent, hsent, hreads⟩ := h.sent
  obtain ⟨sent', hsent', hreads'⟩ := h'.sent
  obtain ⟨calls, hcalls, hdisc⟩ := h.calls
  obtain ⟨calls', hcalls', hdisc'⟩ := h'.calls
  refine ⟨h'.node, ⟨sent ++ sent', ?_, ?_⟩, ⟨calls ++ calls', ?_, ?_⟩⟩
  · rw [hsent', hsent, append_assoc]
  · exact forall_mem_append.mpr ⟨hreads, hreads'⟩
  · rw [hcalls', hcalls, append_assoc]
  · exact forall_mem_append.mpr ⟨hdisc, hdisc'⟩

theorem Follows.after (names : List Bytes) (h : Follows srv kept st₁ top₁ rest runs₁ r)
    (hkeeps : Keeps srv kept st st₁) (hentered : st₁.entered = st.entered ++ names)
    (htop : top₁.stateStr = top.stateStr)
    (hruns : ∀ m, runs m ↔ ∃ m₁, runs₁ m₁ ∧ m = { m₁ with entered := names ++ m₁.entered }) :
    Follows srv kept st top rest runs r := by
  cases h with
  | @returned m st' hm hkeeps' hstack hentered' =>
    refine .returned (m := { m with entered := names ++ m.entered }) ((hruns _).mpr ⟨m, hm, rfl⟩)
      (hkeeps.trans hkeeps') ?_ ?_
    · rw [hstack, htop]
    · rw [hentered', hentered, append_assoc]
  | ended hnot hkeeps' hend =>
    refine .ended (fun m hm => ?_) (hkeeps.trans hkeeps') hend
    obtain ⟨m₁, hm₁, -⟩ := (hruns m).mp hm
    exact hnot m₁ hm₁

theorem Gives.send (srv : Service J) (h : Gives env kept st.node q P) (hq : isWrite q = false) :
    ∃ reply st', send env q st = some (reply, st') ∧ P reply ∧ Keeps srv kept st st' ∧
      st'.callStack = st.callStack ∧ st'.entered = st.entered := by
  obtain ⟨reply, node', hask, hkept, hreply⟩ := h
  refine ⟨reply, { st with node := node', sent := st.sent ++ [q] }, by rw [Rt.send, hask]; rfl,
    hreply, ⟨hkept, ⟨[q], rfl, by simpa using hq⟩, ⟨[], by simp⟩⟩, rfl, rfl⟩

theorem frame_deletable (env : RtEnv J ν) (i : Nat) (known : J) :
    (frame env i known).stateStr.deletable = true ↔ env.js.isNull known = false ∨
    env.heap i = true := by
  cases hnull : env.js.isNull known <;> simp [frame, hnull, StateStr.deletable]

theorem freed_cons_known (hstate : srv.state name = some known) : Freed env srv i (name :: names) ↔
    (frame env i known).stateStr.deletable = true ∧ Freed env srv (i + 1) names := by
  simp [freed_cons, frame_deletable, hstate]

/-- A nested call of a known contract comes to its end if the frame of the callee can be
deleted and both programs come to theirs. -/
theorem runs_callContract_known (hstate : srv.state (env.name contract) = some known) :
    Runs env srv (.callContract contract callee k) nested i state preState m ↔
      (frame env i known).stateStr.deletable = true ∧
      ∃ m₁ m₂, Runs env srv callee true (i + 1) known env.js.null m₁ ∧
        Runs env srv (k m₁.ret) nested (i + 1 + m₁.entered.length) state m₁.state m₂ ∧
        m = { m₂ with entered := env.name contract :: m₁.entered ++ m₂.entered } := by
  have hfreed : ∀ l l', Freed env srv i (env.name contract :: l ++ l') ↔
      ((frame env i known).stateStr.deletable = true ∧ Freed env srv (i + 1) l) ∧
        Freed env srv (i + 1 + l.length) l' := by
    intro l l'
    rw [freed_append, freed_cons_known hstate, length_cons, Nat.add_right_comm i 1]
    rfl
  simp only [Runs, means, hstate, bind_some, bind_eq_some_iff, map_eq_some_iff]
  constructor
  · rintro ⟨⟨m₁, hm₁, m₂, hm₂, rfl⟩, h⟩
    obtain ⟨⟨hdel, h₁⟩, h₂⟩ := (hfreed ..).mp h
    exact ⟨hdel, m₁, m₂, ⟨hm₁, h₁⟩, ⟨hm₂, h₂⟩, rfl⟩
  · rintro ⟨hdel, m₁, m₂, ⟨hm₁, h₁⟩, ⟨hm₂, h₂⟩, rfl⟩
    exact ⟨⟨m₁, hm₁, m₂, hm₂, rfl⟩, (hfreed ..).mpr ⟨⟨hdel, h₁⟩, h₂⟩⟩

theorem enter_waiting (hs : Serves env srv kept stored) (st : RtState J ν) (hkept : kept st.node)
    (hstate : srv.state (env.name contract) = none) :
    enter env contract st = .error (.waiting, st) := by
  have hask := hs.readState st.node (env.name contract) hkept
  simp only [hstate] at hask
  simp only [enter, send, hask, map_none]

theorem enter_ok (hs : Serves env srv kept stored) (st : RtState J ν) (hkept : kept st.node)
    (hstate : srv.state (env.name contract) = some known) : ∃ st₁, enter env contract st = .ok st₁ ∧
      Keeps srv kept st st₁ ∧ st₁.callStack = frame env st.entered.length known :: st.callStack ∧
      st₁.entered = st.entered ++ [env.name contract] := by
  have hask := hs.readState st.node (env.name contract) hkept
  simp only [hstate] at hask
  obtain ⟨reply, node', hask, hkept', htext⟩ := hask
  have henter : enter env contract st = .ok (entry env (env.name contract) known node' st) := by
    simp only [enter, send, hask, map_some, htext, localState]
    cases hnull : env.js.isNull known with
    | true =>
      cases (env.js.isNull_iff known).mp hnull
      simp [entry, frame, hnull]
    | false => simp [entry, frame, hnull, env.js.parse_dump]
  exact ⟨_, henter, ⟨hkept', ⟨[.readState _], rfl, by simp [isWrite]⟩, ⟨[], by simp [entry]⟩⟩,
    rfl, rfl⟩

theorem leave_nested (h : st.callStack = top :: caller :: rest) :
    leave env st = if top.stateStr.deletable then
        .ok { st with callStack := { caller with preState := top.state } :: rest }
      else .error (.killed, st) := by
  rw [leave, h]
  cases hdel : top.stateStr.deletable <;> simp [hdel, env.js.parse_dump]

theorem record_keeps {st₃ : RtState J ν} (hstack : st.callStack = caller :: rest)
    (hstate : srv.state name = some known) (h₁ : topState st₁.callStack = some known)
    (h₂ : topState st₂.callStack = some final)
    (h₃ : st₃.callStack = { caller with preState := final } :: rest)
    (hkeeps : Keeps srv kept st st₃) : Keeps srv kept st (record name st st₁ st₂ st₃) := by
  have hrecord : record name st st₁ st₂ st₃ = { st₃ with calls := st₃.calls ++
      [⟨name, st.callStack, topState st₁.callStack, topState st₂.callStack, st₃.callStack⟩] } := by
    rw [record, hstack]
    rfl
  obtain ⟨calls, hcalls, hdisc⟩ := hkeeps.calls
  rw [hrecord]
  refine ⟨hkeeps.node, hkeeps.sent, ⟨_, by rw [hcalls, append_assoc], ?_⟩⟩
  refine forall_mem_append.mpr ⟨hdisc, forall_mem_singleton.mpr ?_⟩
  exact ⟨caller, rest, final, hstack, h₁.trans hstate.symm, h₂, h₃⟩

theorem eval_call_ended (henter : enter env contract st = .ok st₁)
    (hcallee : eval env callee st₁ = (e, st₂)) (hend : ∀ ret, e ≠ .returned ret) :
    eval env (.callContract contract callee k) st = (e, st₂) := by
  rw [eval, henter]
  simp only [hcallee]
  cases e with
  | returned ret => exact absurd rfl (hend ret)
  | exited status => rfl
  | killed => rfl
  | waiting => rfl

theorem eval_call_returned (henter : enter env contract st = .ok st₁)
    (hcallee : eval env callee st₁ = (.returned ret, st₂)) :
    eval env (.callContract contract callee k) st = match leave env st₂ with
      | .error r => r
      | .ok st₃ => eval env (k ret) (record (env.name contract) st st₁ st₂ st₃) := by
  rw [eval, henter]
  simp only [hcallee]

/-- Whatever is on the stack, the runs of `prog` follow its meaning. -/
def Obeys (env : RtEnv J ν) (srv : Service J) (kept : ν → Prop) (prog : ContractProg J) : Prop :=
  ∀ (st : RtState J ν) top rest, kept st.node → st.callStack = top :: rest →
    Follows srv kept st top rest
      (Runs env srv prog (!rest.isEmpty) st.entered.length top.state top.preState)
      (eval env prog st)

theorem Obeys.step (h : Obeys env srv kept prog₁) (hkeeps : Keeps srv kept st st₁)
    (hstack : st₁.callStack = top₁ :: rest) (hentered : st₁.entered = st.entered)
    (htop : top₁.stateStr = top.stateStr)
    (hmeans : means env srv prog (!rest.isEmpty) top.state top.preState =
      means env srv prog₁ (!rest.isEmpty) top₁.state top₁.preState) :
    Follows srv kept st top rest
      (Runs env srv prog (!rest.isEmpty) st.entered.length top.state top.preState)
      (eval env prog₁ st₁) := by
  refine (h st₁ top₁ rest hkeeps.node hstack).after [] hkeeps
    (by rw [hentered, append_nil]) htop fun m => ?_
  simp only [Runs, hmeans, hentered]
  exact ⟨fun hm => ⟨m, hm, rfl⟩, fun ⟨_, hm₁, heq⟩ => heq ▸ hm₁⟩

theorem obeys_callContract (hs : Serves env srv kept stored) (hcallee : Obeys env srv kept callee)
    (hk : ∀ ret, Obeys env srv kept (k ret)) :
    Obeys env srv kept (.callContract contract callee k) := by
  intro st top rest hkept hstack
  cases hstate : srv.state (env.name contract) with
  | none =>
    rw [eval, enter_waiting hs st hkept hstate]
    exact .ended (by simp [Runs, means, hstate]) (.refl hkept) (by simp)
  | some known =>
    obtain ⟨st₁, henter, hentry, hstack₁, hentered₁⟩ := enter_ok hs st hkept hstate
    rw [hstack] at hstack₁
    have hrun := hcallee st₁ _ _ hentry.node hstack₁
    have hlen : st₁.entered.length = st.entered.length + 1 := by
      rw [hentered₁, length_append, length_singleton]
    rw [hlen] at hrun
    generalize hr : eval env callee st₁ = r at hrun
    cases hrun with
    | ended hnot hkeeps hend =>
      rw [eval_call_ended henter hr hend]
      refine .ended (fun m hm => ?_) (hentry.trans hkeeps) hend
      obtain ⟨-, m₁, -, hm₁, -⟩ := (runs_callContract_known hstate).mp hm
      exact hnot m₁ hm₁
    | @returned m₁ st₂ hm₁ hkeeps hstack₂ hentered₂ =>
      rw [eval_call_returned henter hr, leave_nested hstack₂]
      cases hdel : (frame env st.entered.length known).stateStr.deletable with
      | false =>
        refine .ended (fun m hm => ?_) (hentry.trans hkeeps) (by simp)
        cases hdel.symm.trans ((runs_callContract_known hstate).mp hm).1
      | true =>
        -- the caller goes on with the callee's state in its frame
        generalize hst₃ : ({ st₂ with callStack := { top with preState := m₁.state } :: rest } :
          RtState J ν) = st₃
        have hkeeps₃ : Keeps srv kept st st₃ := by
          subst hst₃
          exact ⟨hkeeps.node, (hentry.trans hkeeps).sent, (hentry.trans hkeeps).calls⟩
        have hstack₃ : st₃.callStack = { top with preState := m₁.state } :: rest := by rw [← hst₃]
        have hentered₃ : st₃.entered = st.entered ++ (env.name contract :: m₁.entered) := by
          rw [← hst₃]
          simp [hentered₂, hentered₁]
        have hrec := record_keeps hstack hstate (by rw [hstack₁]; rfl)
          (by rw [hstack₂]; rfl) hstack₃ hkeeps₃
        have hsame : (record (env.name contract) st st₁ st₂ st₃).callStack = st₃.callStack ∧
            (record (env.name contract) st st₁ st₂ st₃).entered = st₃.entered := by
          rw [record]
          split <;> exact ⟨rfl, rfl⟩
        have hrest := hk m₁.ret _ _ rest hrec.node (hsame.1.trans hstack₃)
        refine hrest.after _ hrec (hsame.2.trans hentered₃) rfl fun m => ?_
        have hlen₃ : (record (env.name contract) st st₁ st₂ st₃).entered.length =
            st.entered.length + 1 + m₁.entered.length := by
          rw [hsame.2, hentered₃, length_append, length_cons]
          omega
        rw [runs_callContract_known hstate, hlen₃]
        constructor
        · rintro ⟨-, m₁', m₂, hm₁', hm₂, hm⟩
          cases some.inj (hm₁.1.symm.trans hm₁'.1)
          exact ⟨m₂, hm₂, hm⟩
        · rintro ⟨m₂, hm₂, hm⟩
          exact ⟨hdel, m₁, m₂, hm₁, hm₂, hm⟩

theorem eval_obeys (hs : Serves env srv kept stored) (prog : ContractProg J) :
    Obeys env srv kept prog := by
  induction prog with
  | ret status =>
    intro st top rest hkept hstack
    exact .returned (runs_ret.mpr rfl) (.refl hkept) hstack (by simp)
  | exit status =>
    intro st top rest hkept hstack
    exact .ended (by simp [Runs, means]) (.refl hkept) (by simp)
  | abort =>
    intro st top rest hkept hstack
    exact .ended (by simp [Runs, means]) (.refl hkept) (by simp)
  | stateRead k ih =>
    intro st top rest hkept hstack
    simp only [eval, hstack]
    exact (ih top.state).step (.refl hkept) hstack rfl rfl rfl
  | stateWrite buf k ih =>
    intro st top rest hkept hstack
    simp only [eval, hstack]
    have hstack' : ({ st with callStack := { top with state := buf } :: rest } :
      RtState J ν).callStack =
        { top with state := buf } :: rest := rfl
    exact ih.step ⟨hkept, ⟨[], by simp⟩, ⟨[], by simp⟩⟩ hstack' rfl rfl rfl
  | preStateRead k ih =>
    intro st top rest hkept hstack
    simp only [eval, hstack]
    exact (ih top.preState).step (.refl hkept) hstack rfl rfl rfl
  | checkRuntimeCanWriteDb k ih =>
    intro st top rest hkept hstack
    cases rest with
    | cons caller rest =>
      have hnested : (top :: caller :: rest).length > 1 := by simp
      simp only [eval, hstack, if_pos hnested]
      exact (ih false).step (.refl hkept) hstack rfl rfl rfl
    | nil =>
      obtain ⟨reply, st', hsend, hreply, hkeeps, hstack', hentered⟩ :=
        (hs.checkRuntime st.node hkept).send srv rfl
      simp only [eval, hstack, length_singleton, gt_iff_lt, Nat.lt_irrefl, if_false, hsend, hreply]
      exact (ih _).step hkeeps (hstack'.trans hstack) hentered rfl rfl
  | getPreTxid k ih =>
    intro st top rest hkept hstack
    have hask := hs.getPreTxid st.node hkept
    cases htxid : srv.preTxid with
    | none =>
      simp only [htxid] at hask
      simp only [eval, send, hask, map_none]
      exact .ended (by simp [Runs, means, htxid]) (.refl hkept) (by simp)
    | some txid =>
      simp only [htxid] at hask
      obtain ⟨reply, st', hsend, hreply, hkeeps, hstack', hentered⟩ := hask.send srv rfl
      simp only [eval, hsend, hreply]
      exact (ih txid).step hkeeps (hstack'.trans hstack) hentered rfl (by simp [means, htxid])
  | contractDaemon pid k ih =>
    intro st top rest hkept hstack
    obtain ⟨reply, st', hsend, -, hkeeps, hstack', hentered⟩ :=
      (hs.contractDaemon st.node pid.toInt hkept).send srv rfl
    simp only [eval, hsend]
    split
    · rename_i hpid
      exact .ended (by simp [Runs, means, hpid]) hkeeps (by simp)
    · rename_i hpid
      exact ih.step hkeeps (hstack'.trans hstack) hentered rfl (by simp [means, hpid])
  | daemonClient cmd k ih =>
    intro st top rest hkept hstack
    obtain ⟨reply, st', hsend, hreply, hkeeps, hstack', hentered⟩ :=
      (hs.daemonClient st.node (overread env.mem 50 cmd) hkept).send srv rfl
    simp only [eval, hsend]
    split
    · rename_i hshort
      rw [if_pos hshort] at hreply
      exact .ended (by simp [Runs, means, hreply]) hkeeps (by simp)
    · rename_i hlong
      rw [if_neg hlong] at hreply
      exact (ih _).step hkeeps (hstack'.trans hstack) hentered rfl (by simp [means, hreply])
  | callContract contract callee k ihcallee ihk => exact obeys_callContract hs ihcallee ihk
  | callMissing contract k ih =>
    intro st top rest hkept hstack
    exact (ih EXIT_FAILURE).step (.refl hkept) hstack rfl rfl rfl

end

def writeOf (env : RtEnv J ν) (state : J) : Request :=
  .writeState (env.js.dump state).length (env.js.dump state)

def RunsBase (env : RtEnv J ν) (srv : Service J) (contract : Bytes) (main : ContractProg J)
    (m : Meaning J) : Prop :=
  ∃ known, srv.state (env.name contract) = some known ∧
    means env srv main false known env.js.null = some m ∧
    Freed env srv 0 (env.name contract :: m.entered)

theorem runsBase_known (hstate : srv.state (env.name contract) = some known) :
    RunsBase env srv contract main m ↔
      (frame env 0 known).stateStr.deletable = true ∧
        Runs env srv main false 1 known env.js.null m := by
  simp only [RunsBase, hstate, some.injEq, exists_eq_left', freed_cons_known hstate, Runs]
  exact and_left_comm

theorem RunsBase.unique (h : RunsBase env srv contract main m)
    (h' : RunsBase env srv contract main m') :
    m = m' := by
  obtain ⟨known, hknown, hmeans, -⟩ := h
  obtain ⟨known', hknown', hmeans', -⟩ := h'
  cases hknown.symm.trans hknown'
  exact some.inj (hmeans.symm.trans hmeans')

def BaseReturned (env : RtEnv J ν) (contract : Bytes) (main : ContractProg J) (node : ν) (final : J) :
    Prop :=
  ∃ st₁ ret st₂, enter env contract (initial node) = .ok st₁ ∧
    eval env main st₁ = (.returned ret, st₂) ∧ topState st₂.callStack = some final

inductive BaseEnd (env : RtEnv J ν) (srv : Service J) (kept : ν → Prop) (stored : J → ν → Prop)
    (contract : Bytes) (main : ContractProg J) (node : ν) : RtEnd × RtState J ν → Prop where
  | returned (hm : RunsBase env srv contract main m)
    (hbase : BaseReturned env contract main node m.state)
      (hstored : stored m.state st.node) (hwrites : st.sent.filter isWrite = [writeOf env m.state])
      (hcalls : ∀ call ∈ st.calls, Disciplined srv call) :
      BaseEnd env srv kept stored contract main node (.returned m.ret, st)
  | ended (hnot : ∀ m, ¬ RunsBase env srv contract main m) (hkept : kept st.node)
      (hwrites : st.sent.filter isWrite = []) (hcalls : ∀ call ∈ st.calls, Disciplined srv call)
      (hend : ∀ ret, e ≠ .returned ret) : BaseEnd env srv kept stored contract main node (e, st)

section
variable {env : RtEnv J ν} {srv : Service J} {kept : ν → Prop} {stored : J → ν → Prop}
variable {st : RtState J ν} {node : ν}

theorem leave_base (hs : Serves env srv kept stored) (hkept : kept st.node) (h : st.callStack = [top])
    (hdel : top.stateStr.deletable = true) : ∃ node', stored top.state node' ∧ leave env st =
      .ok { st with callStack := [], node := node', sent := st.sent ++ [writeOf env top.state] } := by
  obtain ⟨reply, node', hask, hstored⟩ := hs.writeState st.node top.state hkept
  refine ⟨node', hstored, ?_⟩
  rw [leave, h]
  simp [hdel, send, hask, writeOf]

theorem leave_base_killed (h : st.callStack = [top]) (hdel : top.stateStr.deletable = false) :
    leave env st = .error (.killed, st) := by
  rw [leave, h]
  simp [hdel]

theorem Keeps.writes_initial {node : ν} (h : Keeps srv kept (initial node) st) :
    st.sent.filter isWrite = [] := by
  obtain ⟨sent, hsent, hreads⟩ := h.sent
  rw [hsent]
  exact filter_eq_nil_iff.mpr fun q hq => by simp [hreads q (by simpa [initial] using hq)]

theorem Keeps.calls_initial {node : ν} (h : Keeps srv kept (initial node) st) :
    ∀ call ∈ st.calls, Disciplined srv call := by
  obtain ⟨calls, hcalls, hdisc⟩ := h.calls
  intro call hcall
  rw [hcalls] at hcall
  exact hdisc call (by simpa [initial] using hcall)

theorem startRuntime_end (hs : Serves env srv kept stored) (contract : Bytes) (main : ContractProg J)
    (node : ν) (hkept : kept node) : BaseEnd env srv kept stored contract main node
      (startRuntime env contract (some main) node) := by
  cases hstate : srv.state (env.name contract) with
  | none =>
    have hr : startRuntime env contract (some main) node = (.waiting, initial node) := by
      simp only [startRuntime, eval, enter_waiting hs (initial node) hkept hstate]
    rw [hr]
    refine .ended ?_ hkept rfl (by simp [initial]) nofun
    rintro m ⟨known, hknown, -⟩
    cases hstate.symm.trans hknown
  | some known =>
    obtain ⟨st₁, henter, hentry, hstack₁, hentered₁⟩ := enter_ok hs (initial node) hkept hstate
    have hrun := eval_obeys hs main st₁ _ [] hentry.node hstack₁
    rw [hentered₁] at hrun
    generalize hr : eval env main st₁ = r at hrun
    cases hrun with
    | ended hnot hkeeps hend =>
      have hkeeps' := hentry.trans hkeeps
      rw [startRuntime, eval_call_ended henter hr hend]
      exact .ended (fun m hm => hnot m ((runsBase_known hstate).mp hm).2) hkeeps'.node
        hkeeps'.writes_initial hkeeps'.calls_initial hend
    | @returned m st₂ hm hkeeps hstack₂ hentered₂ =>
      have hkeeps' := hentry.trans hkeeps
      rw [startRuntime, eval_call_returned henter hr]
      cases hdel : (frame env 0 known).stateStr.deletable with
      | false =>
        rw [leave_base_killed hstack₂ hdel]
        refine .ended (fun m hm => ?_) hkeeps'.node hkeeps'.writes_initial hkeeps'.calls_initial nofun
        cases hdel.symm.trans ((runsBase_known hstate).mp hm).1
      | true =>
        obtain ⟨node₃, hstored, hleave⟩ := leave_base hs hkeeps'.node hstack₂ hdel
        rw [hleave]
        refine .returned ((runsBase_known hstate).mpr ⟨hdel, hm⟩) ⟨st₁, m.ret, st₂, henter,
          hr, by rw [hstack₂]; rfl⟩ hstored ?_ hkeeps'.calls_initial
        have hsent := hkeeps'.writes_initial
        simp [record, initial, hsent, writeOf, isWrite]

end

/-- A process that `call_rt` forked for the contract `base`. -/
structure Call (J : Type) where
  node : RtNode J
  base : Uint256
  curTx : CTransaction
  mem : Nat → Byte
  heap : Nat → Bool

def Call.env (c : Call J) : RtEnv J (CallData c.node.js) where
  js := c.node.js
  ask := answer c.node c.base c.curTx
  mem := c.mem
  heap := c.heap

def committed {js : Json J} (s : SnapShot js) (name : Bytes) :
    J := (s.lookup (setHex name)).getD js.null

def Call.service (c : Call J) (s : SnapShot c.node.js) : Service J where
  state name := some (committed s name)
  canWriteDb := true
  preTxid := c.curTx.vin.head?.map fun i => getHex i.prevout.hash
  daemonClient cmd :=
    if cString cmd = ascii "getcontractdir" then some (cString (contDir c.node c.base)) else none

theorem stateText_stateReply (node : RtNode J) (j : J) :
    stateText (stateReply node j) = if node.js.isNull j then none else some (node.js.dump j) := by
  unfold stateReply stateText
  split
  · have hflag : ofIntBytes ((intBytes BYTE_READ_STATE).take 4) = 0 := by decide
    simp [hflag]
  · have hlen := node.js.length_dump j
    have hne : (node.js.dump j).length ≠ 0 := fun h => node.js.dump_ne_nil j (length_eq_zero_iff.mp h)
    have htake : (intBytes (node.js.dump j).length ++ node.js.dump j).take 4 =
        intBytes (node.js.dump j).length := take_left' (length_intBytes _)
    have hdrop : (intBytes (node.js.dump j).length ++ node.js.dump j).drop 4 = node.js.dump j :=
      drop_left' (length_intBytes _)
    have hflag : ofIntBytes (intBytes (node.js.dump j).length) = (node.js.dump j).length :=
      ofIntBytes_intBytes (by omega) (by omega)
    simp only [htake, hdrop, hflag, Int.natCast_eq_zero, if_neg hne, Int.toNat_natCast, take_length]

theorem preTxid_getHex (x : Uint256) : preTxid (getHex x) = getHex x := by
  have hhead : (getHex x).head? ≠ some 0 := fun h => zero_notMem_getHex x (mem_of_head? h)
  rw [preTxid, if_neg hhead, take_of_length_le (by simp)]

theorem Call.serves (c : Call J) (s : SnapShot c.node.js) :
    Serves c.env (c.service s) (fun d => d.snapShot = s)
      (fun state d => d.snapShot = s.setContractState c.base state) where
  readState d name hd := by
    subst hd
    refine ⟨stateReply c.node (committed d.snapShot name),
      { d with handled := d.handled ++ [.readState name] }, ?_, rfl, ?_⟩
    · simp only [Call.env, answer, SnapShot.getContractState_eq, map_some]
      rfl
    · exact stateText_stateReply c.node _
  writeState d state hd := by
    subst hd
    have hparse : c.node.js.parse (c.node.js.dump state) = some state := c.node.js.parse_dump state
    refine ⟨[], { d with
      snapShot := d.snapShot.setContractState c.base state
      handled := d.handled ++ [.writeState (c.node.js.dump state).length (c.node.js.dump state)] },
        ?_, rfl⟩
    simp [Call.env, answer, hparse]
  checkRuntime d hd := by
    have hflag : ofIntBytes ((intBytes 1).take 4) = BYTE_WRITE_STATE := by decide
    exact ⟨intBytes 1, { d with handled := d.handled ++ [.checkRuntime] }, rfl, hd,
      decide_eq_true hflag⟩
  getPreTxid d hd := by
    cases hvin : c.curTx.vin.head? with
    | none => simp [Call.service, Call.env, answer, hvin]
    | some i =>
      simp only [Call.service, hvin, map_some]
      refine ⟨getHex i.prevout.hash, { d with handled := d.handled ++ [.getPreTxid] }, ?_, hd,
        preTxid_getHex _⟩
      simp only [Call.env, answer, hvin, map_some]
  contractDaemon d pid hd := ⟨_, _, rfl, hd, trivial⟩
  daemonClient d cmd hd := by
    refine ⟨_, _, rfl, hd, ?_⟩
    by_cases hcmd : cString cmd = ascii "getcontractdir"
    · have hlen : (contDir c.node c.base).length = 150 := length_overread ..
      simp only [Call.service, if_pos hcmd, hlen, Nat.lt_irrefl, if_false]
      rw [take_of_length_le (Nat.le_of_eq hlen)]
    · simp [Call.service, hcmd]

section
variable (c : Call J) (contract : Bytes) (main : ContractProg J) (d : CallData c.node.js)

/-- Every nested call is disciplined, and the only write of the process carries the
state in which the base contract returned. -/
def NestedDiscipline : Prop :=
  let st := (startRuntime c.env contract (some main) d).2
  (∀ call ∈ st.calls, Disciplined (c.service d.snapShot) call) ∧
    ∃ final, BaseReturned c.env contract main d final ∧ st.sent.filter isWrite = [writeOf c.env final]

/-- The discipline holds exactly if no contract of the tree ends the process or waits
for the node, and every contract that is entered has a state that is not null or finds
no pointer in its new local state. -/
theorem nestedDiscipline_iff : NestedDiscipline c contract main d ↔
      ∃ m, means c.env (c.service d.snapShot) main false (committed d.snapShot (c.env.name contract))
          c.node.js.null = some m ∧
        ∀ i name, (c.env.name contract :: m.entered)[i]? = some name →
          c.node.js.isNull (committed d.snapShot name) = false ∨ c.heap i = true := by
  have hruns : ∀ m, RunsBase c.env (c.service d.snapShot) contract main m ↔
      means c.env (c.service d.snapShot) main false (committed d.snapShot (c.env.name contract))
          c.node.js.null = some m ∧
        ∀ i name, (c.env.name contract :: m.entered)[i]? = some name →
          c.node.js.isNull (committed d.snapShot name) = false ∨ c.heap i = true := by
    intro m
    constructor
    · rintro ⟨known, hknown, hmeans, hfreed⟩
      cases some.inj hknown
      exact ⟨hmeans, fun i name hname => Nat.zero_add i ▸ hfreed i name _ hname rfl⟩
    · rintro ⟨hmeans, hfreed⟩
      refine ⟨_, rfl, hmeans, fun i name known hname hknown => ?_⟩
      cases some.inj hknown
      exact (Nat.zero_add i).symm ▸ hfreed i name hname
  have hend := startRuntime_end (c.serves d.snapShot) contract main d rfl
  unfold NestedDiscipline
  generalize startRuntime c.env contract (some main) d = r at hend
  cases hend with
  | returned hm hbase hstored hwrites hcalls =>
    exact iff_of_true ⟨hcalls, _, hbase, hwrites⟩ ⟨_, (hruns _).mp hm⟩
  | ended hnot hkept hwrites hcalls hend =>
    refine iff_of_false ?_ fun ⟨m, hm⟩ => hnot m ((hruns m).mpr hm)
    rintro ⟨-, final, -, hwrite⟩
    rw [hwrites] at hwrite
    cases hwrite

end

def dirtyCall : Call (Option (Fin 10)) where
  node := digitNode 0
  base := 7
  curTx := spendTx
  mem _ := 0
  heap _ := false

/-- A contract without a state that writes one and returns: the process dies in the
destructor of the local state, and sends nothing. -/
theorem first_write_lost :
    ¬ NestedDiscipline dirtyCall (getHex 7) (.stateWrite (some 5) (.ret 0)) emptyCall := by
  have hsent : (startRuntime dirtyCall.env (getHex 7) (some (.stateWrite (some 5) (.ret 0)))
      emptyCall).2.sent.filter isWrite = [] := by
    decide +kernel
  rintro ⟨-, final, -, hwrite⟩
  cases hsent.symm.trans hwrite

end Rt

end OurChain
