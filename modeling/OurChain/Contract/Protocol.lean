import OurChain.Contract.CallRtStream

/-!
# The pipe protocol

The calls of `libourcontract` that talk to the node, byte by byte, against the loop of
`call_rt`. The two sides run in any interleaving; each call is followed through one
schedule, and the schedules of the pair commute.
-/

namespace OurChain

open List

inductive ApiCall (J : Type) where
  | physicalStateRead (contractAddress : Bytes)
  | physicalStateWrite (state : J)
  | checkRuntimeCanWriteDb
  | getPreTxid
  /-- The parent's side, with the result of `fork`. -/
  | contractDaemon (pid : BitVec 32)
  | daemonClient (cmd : Bytes)

def full (n : Nat) (got : Bytes) : Option Bytes := if got.length < n then none else some got

namespace ApiCall

variable {J : Type} (js : Json J) (mem : Nat → Byte)

/-- What a call does on the pipes, and the reply it ends with, none if a part of the
reply is missing. `mem` is the memory behind the strings that are sent. -/
def proc : ApiCall J → Proc Byte (Option Bytes)
  | physicalStateRead contractAddress => do
    Proc.write (intBytes BYTE_READ_STATE)
    Proc.write (overread mem 64 contractAddress)
    let got ← Proc.read 4
    if got.length < 4 then return none
    else
      let flag := ofIntBytes got
      if flag = 0 then return some []
      else do
        let buf ← Proc.read flag.toNat
        return full flag.toNat buf
  | physicalStateWrite state => do
    let buf := js.dump state
    Proc.write (intBytes BYTE_WRITE_STATE)
    Proc.write (intBytes buf.length)
    Proc.write buf
    return some []
  | checkRuntimeCanWriteDb => do
    Proc.write (intBytes CHECK_RUNTIME_STATE)
    let got ← Proc.read 4
    return full 4 got
  | getPreTxid => do
    Proc.write (intBytes GET_PRE_TXID_STATE)
    let buf ← Proc.read 64
    return full 64 buf
  | contractDaemon pid => do
    Proc.write (intBytes CONTRACT_DAEMON)
    let buf ← Proc.read 150
    if buf.length < 150 then return none
    else do
      Proc.write (intBytes pid.toInt)
      return some buf
  | daemonClient cmd => do
    Proc.write (intBytes CONTRACT_DAEMON_CLIENT)
    Proc.write (overread mem 50 cmd)
    let buf ← Proc.read 150
    return full 150 buf

def request : ApiCall J → Request
  | physicalStateRead contractAddress => .readState (overread mem 64 contractAddress)
  | physicalStateWrite state => .writeState (js.dump state).length (js.dump state)
  | checkRuntimeCanWriteDb => .checkRuntime
  | getPreTxid => .getPreTxid
  | contractDaemon pid => .contractDaemon pid.toInt
  | daemonClient cmd => .daemonClient (overread mem 50 cmd)

def procs : List (ApiCall J) → Proc Byte (List (Option Bytes))
  | [] => return []
  | call :: calls => do
    let reply ← call.proc js mem
    let replies ← procs calls
    return reply :: replies

def Answerable (curTx : CTransaction) : ApiCall J → Prop
  | getPreTxid => curTx.vin ≠ []
  | daemonClient cmd => cString (overread mem 50 cmd) = ascii "getcontractdir"
  | _ => True

end ApiCall

section
variable {J : Type} {node : RtNode J} {contract : Uint256} {curTx : CTransaction} {mem : Nat → Byte}

open Joint

variable {d : CallData node.js}

abbrev CallData.log (d : CallData node.js) (q : Request) : CallData node.js :=
  { d with handled := d.handled ++ [q] }

/-- A run from the head of the server's loop, with nothing in the pipes. -/
abbrev FromLoop (node : RtNode J) (contract : Uint256) (curTx : CTransaction) (client : Proc Byte α)
    (d : CallData node.js) : Joint Byte α (CallData node.js) → Prop :=
  Reaches (callRtBody node contract curTx) ⟨client, .running d (callRtBody node contract curTx d),
    [], []⟩

theorem callRtBody_eq : callRtBody node contract curTx d = .fread 4 fun got =>
    if got.length < 4 then .ret (.stop d)
    else callRtMessage node contract curTx (ofIntBytes got) d := by
  simp only [callRtBody, readFlag, Proc.bind_eq, Proc.read_bind, Proc.fread_bind, Proc.pure_eq,
    Proc.ret_bind]
  congr 1
  funext got
  by_cases hlen : got.length < 4 <;> simp only [hlen, if_true, if_false]

theorem reaches_flag {client : Proc Byte α} {rest back : Bytes} (hlo : -2 ^ 31 ≤ flag)
    (hhi : flag < 2 ^ 31) (h : Reaches (callRtBody node contract curTx)
      ⟨client, .running d (callRtMessage node contract curTx flag d), rest, back⟩ t) :
    Reaches (callRtBody node contract curTx)
      ⟨client, .running d (callRtBody node contract curTx d), intBytes flag ++ rest, back⟩ t := by
  have hshort : ¬ (intBytes flag).length < 4 := by simp
  rw [callRtBody_eq]
  refine .server_read (length_intBytes flag) rfl ?_
  rwa [if_neg hshort, ofIntBytes_intBytes hlo hhi]

theorem full_eq {got : Bytes} (h : got.length = n) : full n got = some got := by
  simp [full, h]

/-- A call that gets its reply leaves both pipes empty and the server at its loop. -/
def Served (node : RtNode J) (contract : Uint256) (curTx : CTransaction) (mem : Nat → Byte)
    (call : ApiCall J) (d : CallData node.js) (reply : Bytes) (d' : CallData node.js) : Prop :=
  d'.handled = d.handled ++ [call.request node.js mem] ∧
    ∀ {α : Type} (k : Option Bytes → Proc Byte α) t,
      FromLoop node contract curTx (k (some reply)) d' t →
      FromLoop node contract curTx ((call.proc node.js mem).bind k) d t

theorem served_checkRuntime : Served node contract curTx mem .checkRuntimeCanWriteDb d
    (intBytes 1) (d.log .checkRuntime) := by
  refine ⟨rfl, fun k t h => ?_⟩
  refine .client_write (reaches_flag (by decide) (by decide) ?_)
  refine .server_write (.server_next (.client_read (length_intBytes 1) rfl ?_))
  simpa [full_eq] using h

theorem reaches_readState (contractAddress : Bytes)
    (h : Reaches (callRtBody node contract curTx)
      ⟨.fread 4 fun got => (if got.length < 4 then Proc.ret none
        else if ofIntBytes got = 0 then Proc.ret (some [])
        else .fread (ofIntBytes got).toNat fun buf => .ret (full (ofIntBytes got).toNat buf)).bind k,
        .running d ((readStateFromJson node
          ((d.snapShot.lookup (setHex (overread mem 64 contractAddress))).getD node.js.null)
          BYTE_READ_STATE).bind fun _ =>
            .ret (.next (d.log (.readState (overread mem 64 contractAddress))))),
        [], []⟩ t) :
    FromLoop node contract curTx
      (((ApiCall.physicalStateRead contractAddress).proc node.js mem).bind k) d t := by
  have hmessage : callRtMessage node contract curTx BYTE_READ_STATE d = .fread 64 fun tmp =>
      (readStateFromCache node d.snapShot (fill node.mem.buffer 64 tmp) BYTE_READ_STATE).bind fun _ =>
        .ret (.next (d.log (.readState (fill node.mem.buffer 64 tmp)))) := by
    simp [callRtMessage, readChar64]
  have hlen : (overread mem 64 contractAddress).length = 64 := length_overread mem 64 contractAddress
  refine .client_write (.client_write (reaches_flag (by decide) (by decide) ?_))
  rw [hmessage]
  refine .server_read hlen (append_nil _).symm ?_
  rw [fill_self _ hlen, readStateFromCache, SnapShot.getContractState_eq]
  exact h

theorem served_physicalStateRead (contractAddress : Bytes) : ∃ reply,
    Served node contract curTx mem (.physicalStateRead contractAddress) d reply
      (d.log (.readState (overread mem 64 contractAddress))) := by
  generalize hstate : (d.snapShot.lookup (setHex (overread mem 64 contractAddress))).getD
    node.js.null = state
  cases hnull : node.js.isNull state with
  | true =>
    -- a contract without a state is answered with the length 0 only
    refine ⟨[], rfl, fun k t h => reaches_readState contractAddress ?_⟩
    have hflag : ofIntBytes (intBytes BYTE_READ_STATE) = 0 := by decide
    simp only [hstate, readStateFromJson, hnull, Bool.not_true, Bool.false_eq_true, if_false,
      Proc.write_bind]
    refine .server_write (.server_next (.client_read (length_intBytes _) (append_nil _).symm ?_))
    simpa [hflag] using h
  | false =>
    refine ⟨node.js.dump state, rfl, fun k t h => reaches_readState contractAddress ?_⟩
    have hlt := node.js.length_dump state
    have hne : (node.js.dump state).length ≠ 0 :=
      fun h => node.js.dump_ne_nil state (length_eq_zero_iff.mp h)
    have hflag : ofIntBytes (intBytes (node.js.dump state).length) = (node.js.dump state).length :=
      ofIntBytes_intBytes (by omega) (by omega)
    simp only [hstate, readStateFromJson, hnull, Bool.not_false, if_true, Proc.bind_eq,
      Proc.write_bind, Proc.fwrite_bind]
    refine .server_write (.server_write (.server_next (.client_read (length_intBytes _) rfl ?_)))
    simp only [length_intBytes, Nat.lt_irrefl, if_false, hflag, Int.natCast_eq_zero, if_neg hne,
      Int.toNat_natCast, Proc.fread_bind, Proc.ret_bind]
    refine .client_read rfl (append_nil _).symm ?_
    rw [full_eq rfl]
    exact h

theorem served_physicalStateWrite (state : J) : Served node contract curTx mem
    (.physicalStateWrite state) d [] { d with
      snapShot := d.snapShot.setContractState contract state
      handled := d.handled ++ [.writeState (node.js.dump state).length (node.js.dump state)] } := by
  refine ⟨rfl, fun k t h => ?_⟩
  have hlt := node.js.length_dump state
  generalize htext : node.js.dump state = text at hlt h
  have hparse : node.js.parse text = some state := htext ▸ node.js.parse_dump state
  have hsize : ofIntBytes (intBytes text.length) = text.length :=
    ofIntBytes_intBytes (by omega) (by omega)
  have hmessage : callRtMessage node contract curTx BYTE_WRITE_STATE d = .fread 4 fun got =>
      (readBuffer node (ofIntBytes (fill node.mem.int 4 got))).bind fun text =>
        (writeStateToCache node d.snapShot (getHex contract) text).bind fun snapShot =>
          .ret (.next { d with
            snapShot
            handled := d.handled ++ [.writeState (ofIntBytes (fill node.mem.int 4 got)) text] }) := by
    simp [callRtMessage, readBufferSize, BYTE_READ_STATE, BYTE_WRITE_STATE]
  have hbuffer : readBuffer node text.length = .fread text.length fun tmp =>
      .ret (fill node.mem.buffer text.length tmp) := by
    rw [readBuffer, if_neg (by omega)]
    rfl
  have hset : writeStateToCache node d.snapShot (getHex contract) text =
      .ret (d.snapShot.setContractState contract state) := by
    rw [writeStateToCache, hparse, setHex_getHex]
    rfl
  have hclient : ((ApiCall.physicalStateWrite state).proc node.js mem).bind k =
      .fwrite (intBytes BYTE_WRITE_STATE) (.fwrite (intBytes text.length)
      (.fwrite text (k (some [])))) := by
    rw [← htext]
    rfl
  rw [hclient]
  refine .client_write (.client_write (.client_write ?_))
  rw [nil_append, append_assoc]
  refine reaches_flag (by decide) (by decide) ?_
  rw [hmessage]
  refine .server_read (length_intBytes _) rfl ?_
  rw [fill_self _ (length_intBytes _), hsize, hbuffer]
  refine .server_read rfl (append_nil _).symm ?_
  simp only [fill_self node.mem.buffer (rfl : text.length = text.length), Proc.ret_bind, hset]
  exact .server_next h

theorem served_getPreTxid (hvin : curTx.vin = i :: vin) :
    Served node contract curTx mem .getPreTxid d (getHex i.prevout.hash)
      (d.log .getPreTxid) := by
  refine ⟨rfl, fun k t h => ?_⟩
  have hmessage : callRtMessage node contract curTx GET_PRE_TXID_STATE d =
      .fwrite (getHex i.prevout.hash) (.ret (.next (d.log .getPreTxid))) := by
    simp [callRtMessage, hvin, BYTE_READ_STATE, BYTE_WRITE_STATE, CHECK_RUNTIME_STATE,
      GET_PRE_TXID_STATE]
  refine .client_write (reaches_flag (by decide) (by decide) ?_)
  rw [hmessage]
  refine .server_write (.server_next (.client_read (length_getHex _) (append_nil _).symm ?_))
  simpa [full_eq] using h

theorem served_contractDaemon (pid : BitVec 32) :
    Served node contract curTx mem (.contractDaemon pid) d (contDir node contract)
      { d with
        contDaemonQ := d.contDaemonQ ++ [pid.toInt]
        handled := d.handled ++ [.contractDaemon pid.toInt] } := by
  refine ⟨rfl, fun k t h => ?_⟩
  have hdir : (contDir node contract).length = 150 := length_overread ..
  have hpid : ofIntBytes (intBytes pid.toInt) = pid.toInt :=
    ofIntBytes_intBytes pid.le_toInt pid.toInt_lt
  have hclient : ((ApiCall.contractDaemon pid).proc node.js mem).bind k = .fwrite
    (intBytes CONTRACT_DAEMON)
      (.fread 150 fun buf => if buf.length < 150 then k none
        else .fwrite (intBytes pid.toInt) (k (some buf))) := by
    simp only [ApiCall.proc, Proc.bind_eq, Proc.write_bind, Proc.read_bind, Proc.fwrite_bind,
      Proc.fread_bind]
    congr 2
    funext buf
    split <;> rfl
  rw [hclient]
  refine .client_write (reaches_flag (by decide) (by decide) ?_)
  refine .server_write (.client_read hdir (append_nil _).symm ?_)
  rw [if_neg (Nat.not_lt_of_le (Nat.le_of_eq hdir.symm))]
  refine .client_write (.server_read (length_intBytes _) (append_nil _).symm ?_)
  refine .server_next ?_
  simpa [hpid] using h

theorem reaches_command (cmd : Bytes)
    (h : Reaches (callRtBody node contract curTx) ⟨.fread 150 fun buf => k (full 150 buf), .running d
      (if cString (overread mem 50 cmd) = ascii "getcontractdir" then .fwrite (contDir node contract)
          (.ret (.next (d.log (.daemonClient (overread mem 50 cmd)))))
        else .ret (.next (d.log (.daemonClient (overread mem 50 cmd))))),
      [], []⟩ t) :
    FromLoop node contract curTx (((ApiCall.daemonClient cmd).proc node.js mem).bind k) d t := by
  have hmessage : callRtMessage node contract curTx CONTRACT_DAEMON_CLIENT d = .fread 50 fun buf =>
      if buf.length < 50 then .ret (.stop d)
      else if cString buf = ascii "getcontractdir" then .fwrite (contDir node contract)
        (.ret (.next (d.log (.daemonClient buf))))
      else .ret (.next (d.log (.daemonClient buf))) := by
    simp [callRtMessage, BYTE_READ_STATE, BYTE_WRITE_STATE, CHECK_RUNTIME_STATE, GET_PRE_TXID_STATE,
      CONTRACT_DAEMON, CONTRACT_DAEMON_CLIENT]
  have hlen : (overread mem 50 cmd).length = 50 := length_overread mem 50 cmd
  refine .client_write (.client_write (reaches_flag (by decide) (by decide) ?_))
  rw [hmessage]
  refine .server_read hlen (append_nil _).symm ?_
  rw [if_neg (Nat.not_lt_of_le (Nat.le_of_eq hlen.symm))]
  exact h

theorem served_daemonClient (hcmd : cString (overread mem 50 cmd) = ascii "getcontractdir")
    : Served node contract curTx mem (.daemonClient cmd) d (contDir node contract)
      (d.log (.daemonClient (overread mem 50 cmd))) := by
  refine ⟨rfl, fun k t h => reaches_command cmd ?_⟩
  have hdir : (contDir node contract).length = 150 := length_overread ..
  rw [if_pos hcmd]
  refine .server_write (.server_next (.client_read hdir (append_nil _).symm ?_))
  rw [full_eq hdir]
  exact h

theorem exists_served (contract : Uint256) {call : ApiCall J} (h : call.Answerable mem curTx)
    (d : CallData node.js) :
    ∃ reply d', Served node contract curTx mem call d reply d' := by
  cases call with
  | physicalStateRead contractAddress =>
    obtain ⟨reply, hserved⟩ := served_physicalStateRead contractAddress
    exact ⟨reply, _, hserved⟩
  | physicalStateWrite state => exact ⟨_, _, served_physicalStateWrite state⟩
  | checkRuntimeCanWriteDb => exact ⟨_, _, served_checkRuntime⟩
  | getPreTxid =>
    obtain ⟨i, vin, hvin⟩ := exists_cons_of_ne_nil h
    exact ⟨_, _, served_getPreTxid hvin⟩
  | contractDaemon pid => exact ⟨_, _, served_contractDaemon pid⟩
  | daemonClient cmd => exact ⟨_, _, served_daemonClient h⟩

theorem exists_served_all (contract : Uint256) {calls : List (ApiCall J)}
    (h : ∀ call ∈ calls, call.Answerable mem curTx) (d : CallData node.js) :
    ∃ (replies : List Bytes) (d' : CallData node.js),
      replies.length = calls.length ∧
      d'.handled = d.handled ++ calls.map (·.request node.js mem) ∧
      ∀ {α : Type} (k : List (Option Bytes) → Proc Byte α) t,
        FromLoop node contract curTx (k (replies.map some)) d' t →
        FromLoop node contract curTx ((ApiCall.procs node.js mem calls).bind k) d t := by
  induction calls generalizing d with
  | nil => exact ⟨[], d, rfl, (append_nil _).symm, fun k t h => h⟩
  | cons call calls ih =>
    obtain ⟨hcall, hcalls⟩ := forall_mem_cons.mp h
    obtain ⟨reply, d₁, hhandled₁, hserved⟩ := exists_served contract hcall d
    obtain ⟨replies, d', hlen, hhandled, hall⟩ := ih hcalls d₁
    refine ⟨reply :: replies, d', congrArg Nat.succ hlen, ?_, fun k t h => ?_⟩
    · rw [hhandled, hhandled₁, append_assoc, map_cons, singleton_append]
    · simp only [ApiCall.procs, Proc.bind_eq, Proc.pure_eq, Proc.bind_assoc, Proc.ret_bind]
      exact hserved _ t (hall _ t h)

theorem reaches_blocked (node : RtNode J) (contract : Uint256) (curTx : CTransaction)
    (hcmd : ¬ cString (overread mem 50 cmd) = ascii "getcontractdir") (d : CallData node.js)
    (k : Option Bytes → Proc Byte α) :
    ∃ b, FromLoop node contract curTx (((ApiCall.daemonClient cmd).proc node.js mem).bind k) d b ∧
    BothBlocked b := by
  let d' : CallData node.js := d.log (.daemonClient (overread mem 50 cmd))
  refine ⟨⟨.fread 150 fun buf => k (full 150 buf), .running d' (callRtBody node contract curTx d'),
    [], []⟩, reaches_command cmd ?_, ⟨150, _, rfl, by simp⟩, d', 4, _, by rw [callRtBody_eq], by simp⟩
  rw [if_neg hcmd]
  exact .server_next .refl

theorem reaches_unanswered {call : ApiCall J} (h : ¬ call.Answerable mem curTx) (d : CallData node.js)
    (k : Option Bytes → Proc Byte α) :
    ∃ b, FromLoop node contract curTx ((call.proc node.js mem).bind k) d b ∧
      (BothBlocked b ∨ b.server = .closed d true) := by
  cases call with
  | getPreTxid =>
    have hvin : curTx.vin = [] := Classical.not_not.mp h
    have hmessage : callRtMessage node contract curTx GET_PRE_TXID_STATE d = .throw := by
      simp [callRtMessage, hvin, BYTE_READ_STATE, BYTE_WRITE_STATE, CHECK_RUNTIME_STATE,
        GET_PRE_TXID_STATE]
    refine ⟨⟨.fread 64 fun buf => k (full 64 buf), .closed d true, [], []⟩, ?_, .inr rfl⟩
    refine .client_write (reaches_flag (by decide) (by decide) ?_)
    rw [hmessage]
    exact .server_throw .refl
  | daemonClient cmd =>
    obtain ⟨b, hb, hblocked⟩ := reaches_blocked node contract curTx h d k
    exact ⟨b, hb, .inl hblocked⟩
  | physicalStateRead contractAddress => exact absurd trivial h
  | physicalStateWrite state => exact absurd trivial h
  | checkRuntimeCanWriteDb => exact absurd trivial h
  | contractDaemon pid => exact absurd trivial h

theorem reaches_unanswered_mem (contract : Uint256) {calls : List (ApiCall J)}
    (h : ¬ ∀ call ∈ calls, call.Answerable mem curTx) (d : CallData node.js)
    (k : List (Option Bytes) → Proc Byte α) :
    ∃ b, FromLoop node contract curTx ((ApiCall.procs node.js mem calls).bind k) d b ∧
      (BothBlocked b ∨ ∃ d', b.server = .closed d' true) := by
  induction calls generalizing d k with
  | nil => exact absurd (fun _ hcall => nomatch hcall) h
  | cons call calls ih =>
    simp only [ApiCall.procs, Proc.bind_eq, Proc.pure_eq, Proc.bind_assoc, Proc.ret_bind]
    by_cases hcall : call.Answerable mem curTx
    · have hcalls : ¬ ∀ call ∈ calls, call.Answerable mem curTx :=
        fun hcalls => h (forall_mem_cons.mpr ⟨hcall, hcalls⟩)
      obtain ⟨reply, d₁, -, hserved⟩ := exists_served contract hcall d
      obtain ⟨b, hb, hbad⟩ := ih hcalls d₁ fun replies => k (some reply :: replies)
      exact ⟨b, hserved _ b hb, hbad⟩
    · obtain ⟨b, hb, hbad⟩ := reaches_unanswered hcall d _
      exact ⟨b, hb, hbad.imp_right fun hclosed => ⟨d, hclosed⟩⟩

end

section
variable {J : Type} (node : RtNode J) (contract : Uint256) (curTx : CTransaction) (mem : Nat → Byte)
  (calls : List (ApiCall J)) (d : CallData node.js)

def protocolStart : Joint Byte (List (Option Bytes)) (CallData node.js) where
  client := ApiCall.procs node.js mem calls
  server := .running d (callRtBody node contract curTx d)
  toServer := []
  toClient := []

/-- No schedule leaves both sides waiting, and every schedule can be completed to the
same end: the runtime has a full reply to each call, the loop has handled the messages
of the calls in their order and has returned, and the pipes are empty. -/
def Agrees : Prop :=
  (∀ b, Joint.Reaches (callRtBody node contract curTx)
    (protocolStart node contract curTx mem calls d) b → ¬ b.BothBlocked) ∧
  ∃ (replies : List Bytes) (d' : CallData node.js), replies.length = calls.length ∧
    d'.handled = d.handled ++ calls.map (·.request node.js mem) ∧
    ∀ b, Joint.Reaches (callRtBody node contract curTx)
    (protocolStart node contract curTx mem calls d) b →
      Joint.Reaches (callRtBody node contract curTx) b ⟨.ret (replies.map some),
      .closed d' false, [], []⟩

/-- The sides agree exactly if every command of `daemon_client` is `getcontractdir` and
`get_pre_txid` is called in a transaction with an input only. -/
theorem agrees_iff :
    Agrees node contract curTx mem calls d ↔ ∀ call ∈ calls, call.Answerable mem curTx := by
  constructor
  · rintro ⟨hfree, replies, d', -, -, hend⟩
    by_contra hcalls
    obtain ⟨b, hb, hbad⟩ := reaches_unanswered_mem contract hcalls d .ret
    rw [Proc.bind_ret] at hb
    rcases hbad with hblocked | ⟨d₁, hclosed⟩
    · exact hfree b hb hblocked
    · cases (hend b hb).closed hclosed
  · intro hcalls
    obtain ⟨replies, d', hlen, hhandled, hall⟩ := exists_served_all contract hcalls d
    have hstuck : Joint.Stuck (callRtBody node contract curTx)
        ⟨.ret (replies.map some), .closed d' false, [], []⟩ := Joint.stuck_of_ended rfl
    have hend : Joint.Reaches (callRtBody node contract curTx)
        (protocolStart node contract curTx mem calls d)
        ⟨.ret (replies.map some), .closed d' false, [], []⟩ := by
      have hserved := hall .ret ⟨.ret (replies.map some), .closed d' false, [], []⟩
      rw [Proc.bind_ret] at hserved
      refine hserved ?_
      rw [FromLoop, callRtBody_eq]
      exact .server_end rfl (.server_stop .refl)
    refine ⟨fun b hb hblocked => ?_, replies, d', hlen, hhandled, fun b hb =>
      hend.confluent hstuck hb⟩
    cases hend.stuck_unique hstuck hb hblocked.stuck
    obtain ⟨⟨n, next, hclient, -⟩, -⟩ := hblocked
    cases hclient

end

/-- A command other than `getcontractdir` leaves the runtime waiting for a reply and
the node for the next message. -/
theorem daemonClient_deadlock : ∃ b, Joint.Reaches (callRtBody (digitNode 0) 7 spendTx)
      (protocolStart (digitNode 0) 7 spendTx (fun _ => 0) [.daemonClient (ascii "stop")]
        emptyCall) b ∧
    b.BothBlocked := by
  have hcmd : ¬ cString (overread (fun _ => 0) 50 (ascii "stop")) = ascii "getcontractdir" := by
    decide +kernel
  exact reaches_blocked (digitNode 0) 7 spendTx hcmd emptyCall _

end OurChain
