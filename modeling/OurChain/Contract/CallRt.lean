import OurChain.Contract.SnapShot
import OurChain.Lib.Pipe
import OurChain.Primitives.Transaction

/-!
# The node's side of the contract pipe

`call_rt` and `call_rt_pure` fork a contract process and serve the messages it writes
to its pipe until the pipe ends. The loops decode flags, lengths and payloads from
bytes that the process chooses freely. A read that the end of the pipe cuts short
leaves the rest of its buffer as the allocator handed it out, so the contents of
uninitialised memory are a parameter.

The messages in a stream are decoded a second time by `messages`, without running
anything; the loops are shown to do to a stream what `answer` and `answerPure` do to
its messages.
-/

namespace OurChain

open List hiding next

def BYTE_READ_STATE : Int := 0
def BYTE_WRITE_STATE : Int := 1
def CHECK_RUNTIME_STATE : Int := 2
def GET_PRE_TXID_STATE : Int := 3
def CONTRACT_DAEMON : Int := 4
def CONTRACT_DAEMON_CLIENT : Int := 5

def intBytes (i : Int) : Bytes := leBytes 4 (BitVec.ofInt 32 i).toNat

def ofIntBytes (bs : Bytes) : Int := (BitVec.ofNat 32 (ofLeBytes bs)).toInt

/-- What uninitialised memory holds: an `int` on the stack, a buffer on the heap. -/
structure Memory where
  int : Nat → Byte
  buffer : Nat → Byte

/-- The `n` bytes of a buffer after `got` was read into it. -/
def fill (mem : Nat → Byte) (n : Nat) (got : Bytes) : Bytes :=
  got ++ ((List.range n).drop got.length).map mem

def overread (mem : Nat → Byte) (n : Nat) (text : Bytes) : Bytes := fill mem n ((text ++ [0]).take n)

def cString (buf : Bytes) : Bytes := buf.takeWhile (· ≠ 0)

def ascii (s : String) : Bytes := s.toList.map fun c => BitVec.ofNat 8 c.toNat

@[simp] theorem length_intBytes (i : Int) : (intBytes i).length = 4 := by
  simp [intBytes]

theorem ofIntBytes_intBytes {i : Int} (hlo : -2 ^ 31 ≤ i) (hhi : i < 2 ^ 31) :
    ofIntBytes (intBytes i) = i := by
  have hmod : (BitVec.ofInt 32 i).toNat % 256 ^ 4 = (BitVec.ofInt 32 i).toNat :=
    Nat.mod_eq_of_lt (BitVec.ofInt 32 i).isLt
  rw [ofIntBytes, intBytes, ofLeBytes_leBytes, hmod, BitVec.ofNat_toNat, BitVec.setWidth_eq,
    BitVec.toInt_ofInt]
  exact Int.bmod_eq_of_le (by omega) (by omega)

@[simp] theorem fill_self {n : Nat} (mem : Nat → Byte) {got : Bytes} (h : got.length = n) :
    fill mem n got = got := by
  subst h
  simp [fill]

@[simp] theorem length_fill (mem : Nat → Byte) {n : Nat} {got : Bytes} (h : got.length ≤ n) :
    (fill mem n got).length = n := by
  simp only [fill, length_append, length_map, length_drop, length_range]
  omega

@[simp] theorem length_overread (mem : Nat → Byte) (n : Nat) (text : Bytes) :
    (overread mem n text).length = n :=
  length_fill mem (by simp)

/-- What the loops use of the node: its JSON library, the memory it gets, and the text
of its contracts directory. -/
structure RtNode (J : Type) where
  js : Json J
  mem : Memory
  contractsDir : Bytes

inductive Request where
  | readState (address : Bytes)
  | writeState (size : Int) (text : Bytes)
  | checkRuntime
  | getPreTxid
  | contractDaemon (pid : Int)
  | daemonClient (command : Bytes)
  deriving DecidableEq

/-- The snapshot, the queue of daemons, and a record of the messages handled. -/
structure CallData {J : Type} (js : Json J) where
  snapShot : SnapShot js
  contDaemonQ : List Int
  handled : List Request

variable {J : Type} (node : RtNode J)

def readStateFromJson (j : J) (flag : Int) : Proc Byte Unit :=
  if !node.js.isNull j then do
    let newbuffer := node.js.dump j
    Proc.write (intBytes newbuffer.length)
    Proc.write newbuffer
  -- the client does not read on after a flag of 0
  else Proc.write (intBytes flag)

def readStateFromCache (cache : SnapShot node.js) (hexCtid : Bytes) (flag : Int) : Proc Byte Unit :=
  match cache.getContractState (setHex hexCtid) with
  | none => .throw
  | some j => readStateFromJson node j flag

def readStateFromTmpDB (cache : ContractDB) (hexCtid : Bytes) (flag : Int) : Proc Byte Unit :=
  match node.js.parse (cache.getState hexCtid) with
  | none => .throw
  | some j => readStateFromJson node j flag

def readBufferSize : Proc Byte Int := do
  let got ← Proc.read 4
  return ofIntBytes (fill node.mem.int 4 got)

/-- The announced number of bytes; a string of negative length cannot be built. -/
def readBuffer (size : Int) : Proc Byte Bytes :=
  if size < 0 then .throw
  else do
    let tmp ← Proc.read size.toNat
    return fill node.mem.buffer size.toNat tmp

def writeStateToCache (cache : SnapShot node.js) (hexCtid text : Bytes) :
    Proc Byte (SnapShot node.js) :=
  match node.js.parse text with
  | none => .throw
  | some j => return cache.setContractState (setHex hexCtid) j

def readChar64 : Proc Byte Bytes := do
  let tmp ← Proc.read 64
  return fill node.mem.buffer 64 tmp

def contDir (contract : Uint256) : Bytes :=
  overread node.mem.buffer 150 (node.contractsDir ++ ascii "/" ++ getHex contract)

def readFlag : Proc Byte (Option Int) := do
  let got ← Proc.read 4
  return if got.length < 4 then none else some (ofIntBytes got)

def callRtMessage (contract : Uint256) (curTx : CTransaction) (flag : Int) (d : CallData node.js) :
    Proc Byte (LoopStep (CallData node.js)) :=
  if flag = BYTE_READ_STATE then do
    let targetAddress ← readChar64 node
    readStateFromCache node d.snapShot targetAddress flag
    return .next { d with handled := d.handled ++ [.readState targetAddress] }
  else if flag = BYTE_WRITE_STATE then do
    let size ← readBufferSize node
    let text ← readBuffer node size
    let snapShot ← writeStateToCache node d.snapShot (getHex contract) text
    return .next { d with snapShot, handled := d.handled ++ [.writeState size text] }
  else if flag = CHECK_RUNTIME_STATE then do
    Proc.write (intBytes 1)
    return .next { d with handled := d.handled ++ [.checkRuntime] }
  else if flag = GET_PRE_TXID_STATE then
    match curTx.vin with
    | [] => .throw
    | i :: _ => do
      Proc.write (getHex i.prevout.hash)
      return .next { d with handled := d.handled ++ [.getPreTxid] }
  else if flag = CONTRACT_DAEMON then do
    Proc.write (contDir node contract)
    let got ← Proc.read 4
    let contPid := ofIntBytes (fill node.mem.int 4 got)
    return .next { d with
      contDaemonQ := d.contDaemonQ ++ [contPid], handled := d.handled ++ [.contractDaemon contPid] }
  else if flag = CONTRACT_DAEMON_CLIENT then do
    let buf ← Proc.read 50
    if buf.length < 50 then return .stop d
    else if cString buf = ascii "getcontractdir" then do
      Proc.write (contDir node contract)
      return .next { d with handled := d.handled ++ [.daemonClient buf] }
    else return .next { d with handled := d.handled ++ [.daemonClient buf] }
  else return .stop d

def callRtBody (contract : Uint256) (curTx : CTransaction) (d : CallData node.js) :
    Proc Byte (LoopStep (CallData node.js)) := do
  match ← readFlag with
  | none => return .stop d
  | some flag => callRtMessage node contract curTx flag d

def callRtPureMessage (cache : ContractDB) (flag : Int) (result : Bytes) :
    Proc Byte (LoopStep Bytes) :=
  if flag = BYTE_READ_STATE then do
    let targetAddress ← readChar64 node
    readStateFromTmpDB node cache targetAddress flag
    return .next result
  else if flag = BYTE_WRITE_STATE then do
    let size ← readBufferSize node
    let text ← readBuffer node size
    return .next text
  else if flag = CHECK_RUNTIME_STATE then do
    Proc.write (intBytes 0)
    return .next result
  else if flag = GET_PRE_TXID_STATE then do
    Proc.write (List.replicate 64 0)
    return .next result
  else return .stop result

def callRtPureBody (cache : ContractDB) (result : Bytes) : Proc Byte (LoopStep Bytes) := do
  match ← readFlag with
  | none => return .stop result
  | some flag => callRtPureMessage node cache flag result

/-- `status` is the exit status of the process, none if it did not exit. The result is
none if an exception leaves the call. -/
def callRtStream (contract : Uint256) (curTx : CTransaction) (stream : Bytes)
    (status : Option (BitVec 8)) (d : CallData node.js) : Option Int × CallData node.js :=
  let r := Proc.serve (callRtBody node contract curTx) d stream
  (if r.returned then some (if status = some 0 then 0 else -1) else none, r.data)

def callRtPureStream (cache : ContractDB) (stream : Bytes) (status : Option (BitVec 8)) :
    Option Bytes :=
  let r := Proc.serve (callRtPureBody node cache) [] stream
  if r.returned then some (if status = some 0 then r.data else []) else none

/-- A request as it stands in a stream; `complete` if the stream has all its bytes. -/
structure Message where
  request : Request
  complete : Bool

/-- The message that a flag announces and what follows it. `daemons` says whether the
two flags of daemons are known. -/
def messageOf (mem : Memory) (daemons : Bool) (flag : Int) (rest : Bytes) :
    Option (Message × Bytes) :=
  if flag = BYTE_READ_STATE then
    some (⟨.readState (fill mem.buffer 64 (rest.take 64)), decide (64 ≤ rest.length)⟩, rest.drop 64)
  else if flag = BYTE_WRITE_STATE then
    let size := ofIntBytes (fill mem.int 4 (rest.take 4))
    let data := rest.drop 4
    some (⟨.writeState size (fill mem.buffer size.toNat (data.take size.toNat)),
      decide (4 ≤ rest.length ∧ size.toNat ≤ data.length)⟩, data.drop size.toNat)
  else if flag = CHECK_RUNTIME_STATE then some (⟨.checkRuntime, true⟩, rest)
  else if flag = GET_PRE_TXID_STATE then some (⟨.getPreTxid, true⟩, rest)
  else if daemons = false then none
  else if flag = CONTRACT_DAEMON then
    some (⟨.contractDaemon (ofIntBytes (fill mem.int 4 (rest.take 4))), decide (4 ≤ rest.length)⟩,
      rest.drop 4)
  else if flag = CONTRACT_DAEMON_CLIENT then
    if rest.length < 50 then none else some (⟨.daemonClient (rest.take 50), true⟩, rest.drop 50)
  else none

def nextMessage (mem : Memory) (daemons : Bool) (stream : Bytes) : Option (Message × Bytes) :=
  if stream.length < 4 then none
  else messageOf mem daemons (ofIntBytes (stream.take 4)) (stream.drop 4)

def stateReply (j : J) : Bytes :=
  if node.js.isNull j then intBytes BYTE_READ_STATE
  else intBytes (node.js.dump j).length ++ node.js.dump j

/-- What `call_rt` does with a message: its reply and the new data, none if it throws. -/
def answer (contract : Uint256) (curTx : CTransaction) (q : Request) (d : CallData node.js) :
    Option (Bytes × CallData node.js) :=
  let log := { d with handled := d.handled ++ [q] }
  match q with
  | .readState address =>
    (d.snapShot.getContractState (setHex address)).map fun j => (stateReply node j, log)
  | .writeState size text =>
    if size < 0 then none
    else (node.js.parse text).map fun j =>
      ([], { log with snapShot := d.snapShot.setContractState contract j })
  | .checkRuntime => some (intBytes 1, log)
  | .getPreTxid => curTx.vin.head?.map fun i => (getHex i.prevout.hash, log)
  | .contractDaemon pid =>
    some (contDir node contract, { log with contDaemonQ := d.contDaemonQ ++ [pid] })
  | .daemonClient command =>
    some (if cString command = ascii "getcontractdir" then contDir node contract else [], log)

def answerPure (cache : ContractDB) (q : Request) (result : Bytes) : Option (Bytes × Bytes) :=
  match q with
  | .readState address =>
    (node.js.parse (cache.getState address)).map fun j => (stateReply node j, result)
  | .writeState size text => if size < 0 then none else some ([], text)
  | .checkRuntime => some (intBytes 0, result)
  | _ => some (List.replicate 64 0, result)

variable {mem : Memory}

theorem messageOf_rest (h : messageOf mem daemons flag rest = some (m, rest')) :
    ∃ k, rest' = rest.drop k := by
  unfold messageOf at h
  repeat'
    split at h
  all_goals
    cases h
  · exact ⟨64, rfl⟩
  · exact ⟨_, drop_drop⟩
  · exact ⟨0, rfl⟩
  · exact ⟨0, rfl⟩
  · exact ⟨4, rfl⟩
  · exact ⟨50, rfl⟩

theorem nextMessage_length (h : nextMessage mem daemons stream = some next) :
    next.2.length < stream.length := by
  unfold nextMessage at h
  split at h
  · cases h
  · obtain ⟨k, hrest⟩ := messageOf_rest h
    rw [hrest, length_drop, length_drop]
    omega

theorem readStateFromJson_eq (j : J) {α : Type} (k : Unit → Proc Byte α) (input : Bytes) :
    ((readStateFromJson node j BYTE_READ_STATE).bind k).run input =
      ((k ()).run input).after (stateReply node j) := by
  unfold readStateFromJson stateReply
  cases node.js.isNull j <;> simp [Proc.Ran.after]

theorem run_readFlag (k : Option Int → Proc Byte α) (stream : Bytes) :
    (readFlag.bind k).run stream =
      (k (if stream.length < 4 then none else some (ofIntBytes (stream.take 4)))).run
      (stream.drop 4) := by
  simp [readFlag]

/-- What a turn of a loop does with a message: it stops without one, and throws
without an answer. -/
def Answered (r : Proc.Ran Byte (LoopStep δ)) (message : Option (Message × Bytes)) (d : δ)
    (answer : Request → Option (Bytes × δ)) : Prop :=
  match message with
  | none => r.result = some (.stop d) ∧ r.output = []
  | some (m, rest) =>
    match answer m.request with
    | none => r.result = none ∧ r.output = []
    | some (reply, d') => r = ⟨some (.next d'), rest, reply⟩

variable (cache : ContractDB) (contract : Uint256) (curTx : CTransaction)

theorem callRtMessage_run (flag : Int) (d : CallData node.js) (rest : Bytes) :
    Answered ((callRtMessage node contract curTx flag d).run rest)
    (messageOf node.mem true flag rest) d
      (answer node contract curTx · d) := by
  unfold callRtMessage messageOf
  split
  · rename_i hflag
    subst hflag
    simp [Answered, answer, readChar64, readStateFromCache, SnapShot.getContractState_eq,
      readStateFromJson_eq, Proc.Ran.after]
  split
  · simp only [Answered, answer, readBufferSize, readBuffer, writeStateToCache, Proc.bind_eq,
      Proc.read_bind, Proc.pure_eq, Proc.ret_bind, Proc.fread_bind, Proc.run_fread, setHex_getHex]
    generalize ofIntBytes (fill node.mem.int 4 (rest.take 4)) = size
    by_cases hneg : size < 0
    · simp [hneg]
    · cases hparse : node.js.parse (fill node.mem.buffer size.toNat
        ((rest.drop 4).take size.toNat)) with
      | none => simp [hneg, hparse]
      | some j => simp [hneg, hparse]
  split
  · simp [Answered, answer, Proc.Ran.after]
  split
  · cases hvin : curTx.vin with
    | nil => simp [Answered, answer, hvin]
    | cons i vin => simp [Answered, answer, hvin, Proc.Ran.after]
  simp only [Bool.true_eq_false, if_false]
  split
  · simp [Answered, answer, Proc.Ran.after]
  split
  · have hshort : (rest.take 50).length < 50 ↔ rest.length < 50 := by
      rw [length_take]
      omega
    simp only [Proc.bind_eq, Proc.read_bind, Proc.run_fread, hshort]
    split
    · simp [Answered]
    · by_cases hcmd : cString (rest.take 50) = ascii "getcontractdir"
      · simp only [Answered, answer, if_pos hcmd]
        simp [Proc.Ran.after]
      · simp only [Answered, answer, if_neg hcmd]
        simp
  · simp [Answered]

theorem callRtPureMessage_run (flag : Int) (result rest : Bytes) :
    Answered ((callRtPureMessage node cache flag result).run rest)
    (messageOf node.mem false flag rest)
      result (answerPure node cache · result) := by
  unfold callRtPureMessage messageOf
  split
  · rename_i hflag
    subst hflag
    simp only [Answered, answerPure, readChar64, readStateFromTmpDB, Proc.bind_eq, Proc.read_bind,
      Proc.pure_eq, Proc.ret_bind, Proc.fread_bind, Proc.run_fread]
    cases node.js.parse (cache.getState (fill node.mem.buffer 64 (rest.take 64))) with
    | none => simp
    | some j => simp [readStateFromJson_eq, Proc.Ran.after]
  split
  · simp only [Answered, answerPure, readBufferSize, readBuffer, Proc.bind_eq, Proc.read_bind,
      Proc.pure_eq, Proc.ret_bind, Proc.fread_bind, Proc.run_fread]
    generalize ofIntBytes (fill node.mem.int 4 (rest.take 4)) = size
    by_cases hneg : size < 0
    · simp [hneg]
    · simp [hneg]
  split
  · simp [Answered, answerPure, Proc.Ran.after]
  split
  · simp [Answered, answerPure, Proc.Ran.after]
  · simp [Answered]

def messagesFrom (mem : Memory) (daemons : Bool) : Nat → Bytes → List Message
  | 0, _ => []
  | fuel + 1, stream =>
    match nextMessage mem daemons stream with
    | none => []
    | some (m, rest) => m :: messagesFrom mem daemons fuel rest

/-- The messages of a stream, up to its end or to an unknown flag. -/
def messages (mem : Memory) (daemons : Bool) (stream : Bytes) : List Message :=
  messagesFrom mem daemons (stream.length + 1) stream

def answerAll {δ : Type} (answer : Request → δ → Option (Bytes × δ)) : List Message → δ →
    Proc.LoopEnd Byte δ
  | [], d => ⟨true, d, []⟩
  | m :: ms, d =>
    match answer m.request d with
    | none => ⟨false, d, []⟩
    | some (reply, d) => (answerAll answer ms d).after reply

variable {daemons : Bool}

theorem serve_answered {body : δ → Proc Byte (LoopStep δ)}
    {answer : Request → δ → Option (Bytes × δ)}
    (h : ∀ d stream, Answered ((body d).run stream) (nextMessage mem daemons stream) d (answer · d))
    (d : δ) (stream : Bytes) :
    Proc.serve body d stream = answerAll answer (messages mem daemons stream) d := by
  unfold Proc.serve messages
  generalize stream.length + 1 = fuel
  induction fuel generalizing d stream with
  | zero => rfl
  | succ fuel ih =>
    have hturn := h d stream
    unfold Answered at hturn
    rw [Proc.runLoop, messagesFrom]
    cases hnext : nextMessage mem daemons stream with
    | none =>
      simp only [hnext] at hturn
      simp only [hturn]
      rfl
    | some next =>
      obtain ⟨m, rest⟩ := next
      simp only [hnext] at hturn
      cases hanswer : answer m.request d with
      | none =>
        simp only [hanswer] at hturn
        simp only [hturn, answerAll, hanswer]
      | some reply =>
        simp only [hanswer] at hturn
        simp only [hturn, answerAll, hanswer, ih]

theorem callRt_serve (d : CallData node.js)
    (stream : Bytes) : Proc.serve (callRtBody node contract curTx) d stream =
      answerAll (answer node contract curTx) (messages node.mem true stream) d := by
  refine serve_answered (fun d stream => ?_) d stream
  simp only [callRtBody, Proc.bind_eq, run_readFlag, nextMessage]
  by_cases hlen : stream.length < 4
  · simp [hlen, Answered]
  · simp only [if_neg hlen]
    exact callRtMessage_run node contract curTx _ d _

theorem callRtPure_serve (result stream : Bytes) :
    Proc.serve (callRtPureBody node cache) result stream =
      answerAll (answerPure node cache) (messages node.mem false stream) result := by
  refine serve_answered (fun result stream => ?_) result stream
  simp only [callRtPureBody, Proc.bind_eq, run_readFlag, nextMessage]
  by_cases hlen : stream.length < 4
  · simp [hlen, Answered]
  · simp only [if_neg hlen]
    exact callRtPureMessage_run node cache _ result _

theorem messagesFrom_fuel {stream : Bytes} {fuel : Nat} (hfuel : stream.length < fuel) :
    messagesFrom mem daemons fuel stream = messages mem daemons stream := by
  unfold messages
  generalize hbound : stream.length + 1 = fuel'
  have hfuel' : stream.length < fuel' := hbound ▸ Nat.lt_succ_self _
  clear hbound
  induction fuel generalizing stream fuel' with
  | zero => cases hfuel
  | succ fuel ih =>
    obtain ⟨fuel', rfl⟩ := Nat.exists_eq_succ_of_ne_zero (Nat.ne_of_gt (Nat.zero_lt_of_lt hfuel'))
    rw [messagesFrom, messagesFrom]
    cases hnext : nextMessage mem daemons stream with
    | none => rfl
    | some next =>
      have hlt := nextMessage_length hnext
      have hrest := ih (Nat.lt_of_lt_of_le hlt (Nat.le_of_lt_succ hfuel)) fuel'
        (Nat.lt_of_lt_of_le hlt (Nat.le_of_lt_succ hfuel'))
      simp only [hrest]

theorem messages_eq (mem : Memory) (daemons : Bool) (stream : Bytes) :
    messages mem daemons stream = match nextMessage mem daemons stream with
      | none => []
      | some (m, rest) => m :: messages mem daemons rest := by
  rw [messages, messagesFrom]
  cases hnext : nextMessage mem daemons stream with
  | none => rfl
  | some next =>
    simp only [messagesFrom_fuel (nextMessage_length hnext)]

/-- The bytes that `libourcontract` writes for a message. -/
def Request.encode : Request → Bytes
  | .readState address => intBytes BYTE_READ_STATE ++ address
  | .writeState size text => intBytes BYTE_WRITE_STATE ++ (intBytes size ++ text)
  | .checkRuntime => intBytes CHECK_RUNTIME_STATE
  | .getPreTxid => intBytes GET_PRE_TXID_STATE
  | .contractDaemon pid => intBytes CONTRACT_DAEMON ++ intBytes pid
  | .daemonClient command => intBytes CONTRACT_DAEMON_CLIENT ++ command

/-- The messages that `libourcontract` writes; `daemons` if those of daemons are among
them. -/
def Request.WellFormed (daemons : Bool) : Request → Prop
  | .readState address => address.length = 64
  | .writeState size text => size = text.length ∧ text.length < 2 ^ 31
  | .checkRuntime => True
  | .getPreTxid => True
  | .contractDaemon pid => daemons = true ∧ -2 ^ 31 ≤ pid ∧ pid < 2 ^ 31
  | .daemonClient command => daemons = true ∧ command.length = 50

theorem nextMessage_int (hlo : -2 ^ 31 ≤ flag) (hhi : flag < 2 ^ 31) (rest : Bytes) :
    nextMessage mem daemons (intBytes flag ++ rest) = messageOf mem daemons flag rest := by
  have hlen : ¬ (intBytes flag ++ rest).length < 4 := by simp
  rw [nextMessage, if_neg hlen, take_left' (length_intBytes flag), ofIntBytes_intBytes hlo hhi,
    drop_left' (length_intBytes flag)]

theorem nextMessage_encode {q : Request} (h : q.WellFormed daemons) (rest : Bytes) :
    nextMessage mem daemons (q.encode ++ rest) = some (⟨q, true⟩, rest) := by
  cases q with
  | readState address =>
    rw [Request.encode, append_assoc, nextMessage_int (by decide) (by decide), messageOf]
    have hlen : address.length = 64 := h
    simp [take_left' hlen, drop_left' hlen, hlen]
  | writeState size text =>
    obtain ⟨rfl, hlt⟩ := h
    have hint : ofIntBytes (intBytes text.length) = text.length :=
      ofIntBytes_intBytes (by omega) (by omega)
    rw [Request.encode, append_assoc, append_assoc, nextMessage_int (by decide) (by decide),
      messageOf, if_neg (by decide), if_pos rfl, take_left' (length_intBytes _),
      fill_self _ (length_intBytes _), hint, drop_left' (length_intBytes _)]
    simp
  | checkRuntime => rw [Request.encode, nextMessage_int (by decide) (by decide)]; rfl
  | getPreTxid => rw [Request.encode, nextMessage_int (by decide) (by decide)]; rfl
  | contractDaemon pid =>
    obtain ⟨rfl, hlo, hhi⟩ := h
    have hint : ofIntBytes (intBytes pid) = pid := ofIntBytes_intBytes hlo hhi
    rw [Request.encode, append_assoc, nextMessage_int (by decide) (by decide), messageOf]
    iterate 5 rw [if_neg (by decide)]
    rw [if_pos rfl, take_left' (length_intBytes _), fill_self _ (length_intBytes _), hint,
      drop_left' (length_intBytes _)]
    simp
  | daemonClient command =>
    obtain ⟨rfl, hlen⟩ := h
    have hlong : ¬ (command ++ rest).length < 50 := by simp [hlen]
    rw [Request.encode, append_assoc, nextMessage_int (by decide) (by decide), messageOf]
    iterate 6 rw [if_neg (by decide)]
    rw [if_pos rfl, if_neg hlong, take_left' hlen, drop_left' hlen]

theorem messages_encode {qs : List Request} (h : ∀ q ∈ qs, q.WellFormed daemons) :
    messages mem daemons (qs.flatMap Request.encode) = qs.map (⟨·, true⟩) := by
  induction qs with
  | nil => rfl
  | cons q qs ih =>
    obtain ⟨hq, hqs⟩ := forall_mem_cons.mp h
    rw [messages_eq, flatMap_cons, nextMessage_encode hq, map_cons, ← ih hqs]

end OurChain
