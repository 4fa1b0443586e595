import OurChain.Contract.CallRt

/-!
# What a stream can do to the node

The stream of a contract process is arbitrary. `call_rt` and `call_rt_pure` return to
their callers on the streams whose messages are all harmless, and `call_rt` touches no
other entry of the snapshot than that of the executed contract.
-/

namespace OurChain

open List Option

variable {J : Type} (node : RtNode J)

def Harmless (curTx : CTransaction) : Request → Prop
  | .writeState size text => 0 ≤ size ∧ (node.js.parse text).isSome
  | .getPreTxid => curTx.vin ≠ []
  | _ => True

def HarmlessPure (cache : ContractDB) : Request → Prop
  | .readState address => (node.js.parse (cache.getState address)).isSome
  | .writeState size _ => 0 ≤ size
  | _ => True

variable {node}

variable (contract : Uint256) (curTx : CTransaction)

theorem answer_isSome (q : Request) (d : CallData node.js) :
    (answer node contract curTx q d).isSome ↔ Harmless node curTx q := by
  cases q with
  | writeState size text =>
    by_cases hneg : size < 0
    · simp [answer, Harmless, hneg]
    · simp [answer, Harmless, hneg, Int.not_lt.mp hneg]
  | getPreTxid => cases hvin : curTx.vin <;> simp [answer, Harmless, hvin]
  | readState address => simp [answer, Harmless, SnapShot.getContractState_eq]
  | checkRuntime => simp [answer, Harmless]
  | contractDaemon pid => simp [answer, Harmless]
  | daemonClient command => simp [answer, Harmless]

theorem answerPure_isSome (cache : ContractDB) (q : Request) (result : Bytes) :
    (answerPure node cache q result).isSome ↔ HarmlessPure node cache q := by
  cases q with
  | writeState size text =>
    by_cases hneg : size < 0
    · simp [answerPure, HarmlessPure, hneg]
    · simp [answerPure, HarmlessPure, hneg, Int.not_lt.mp hneg]
  | readState address => simp [answerPure, HarmlessPure]
  | getPreTxid => simp [answerPure, HarmlessPure]
  | checkRuntime => simp [answerPure, HarmlessPure]
  | contractDaemon pid => simp [answerPure, HarmlessPure]
  | daemonClient command => simp [answerPure, HarmlessPure]

theorem answerAll_returned {answer : Request → δ → Option (Bytes × δ)} {ok : Request → Prop}
    (h : ∀ q d, (answer q d).isSome ↔ ok q) (ms : List Message) (d : δ) :
    (answerAll answer ms d).returned = true ↔ ∀ m ∈ ms, ok m.request := by
  induction ms generalizing d with
  | nil => simp [answerAll]
  | cons m ms ih =>
    have hm := h m.request d
    rw [answerAll, forall_mem_cons, ← hm]
    cases answer m.request d with
    | none => simp
    | some reply => simpa [Proc.LoopEnd.after] using ih reply.2

/-- Both calls return exactly on the streams whose messages are all harmless. -/
theorem callRt_returns_iff (node : RtNode J) (contract : Uint256) (curTx : CTransaction)
    (cache : ContractDB) (stream : Bytes) (status : Option (BitVec 8)) (d : CallData node.js) :
    ((callRtStream node contract curTx stream status d).1.isSome ∧
      (callRtPureStream node cache stream status).isSome) ↔
    (∀ m ∈ messages node.mem true stream, Harmless node curTx m.request) ∧
      ∀ m ∈ messages node.mem false stream, HarmlessPure node cache m.request := by
  rw [← answerAll_returned (answer_isSome contract curTx) _ d, ← callRt_serve,
    ← answerAll_returned (answerPure_isSome cache) _ [], ← callRtPure_serve]
  simp only [callRtStream, callRtPureStream]
  cases (Proc.serve (callRtBody node contract curTx) d stream).returned <;>
    cases (Proc.serve (callRtPureBody node cache) [] stream).returned <;> simp

def digitJson : Json (Option (Fin 10)) where
  null := none
  isNull := Option.isNone
  parse text :=
    if text = ascii "null" then some none
    else match text with
      | [c] =>
        if h : 48 ≤ c.toNat ∧ c.toNat ≤ 57 then
          some (some ⟨c.toNat - 48, Nat.sub_lt_left_of_lt_add h.1 (Nat.lt_succ_of_le h.2)⟩)
        else none
      | _ => none
  dump
    | none => ascii "null"
    | some d => [BitVec.ofNat 8 (48 + d.val)]
  isNull_iff j := isNone_iff_eq_none
  parse_dump := by decide
  parse_nil := rfl
  length_dump := by decide

def digitNode (c : Byte) : RtNode (Option (Fin 10)) where
  js := digitJson
  mem := ⟨fun _ => 0, fun _ => c⟩
  contractsDir := ascii "/contracts"

def emptyCall : CallData digitJson := ⟨.empty, [], []⟩

def spendTx : CTransaction where
  nVersion := 1
  contract := { action := ACTION_CALL, code := [], address := 7, args := [] }
  vin := [⟨⟨1, 0⟩, [], 0xffffffff, []⟩]
  vout := [⟨0, []⟩]
  nLockTime := 0

/-- A payload that is no JSON text and a negative size leave `call_rt` with an
exception, a read of a contract without state leaves `call_rt_pure` with one. -/
theorem callRt_throws :
    (callRtStream (digitNode 0) 7 spendTx
      (intBytes BYTE_WRITE_STATE ++ intBytes 1 ++ ascii "x") (some 0) emptyCall).1 = none ∧
    (callRtStream (digitNode 0) 7 spendTx
      (intBytes BYTE_WRITE_STATE ++ intBytes (-1)) (some 0) emptyCall).1 = none ∧
    callRtPureStream (digitNode 0) (fun _ => none) (intBytes BYTE_READ_STATE ++ getHex 7) (some 0) =
      none := by
  decide +kernel

/-- A value that a complete write message of the stream carries. -/
def Carried (node : RtNode J) (stream : Bytes) (v : J) : Prop :=
  ∃ m ∈ messages node.mem true stream, m.complete = true ∧
    ∃ size text, m.request = .writeState size text ∧ node.js.parse text = some v

/-- Other entries than that of the executed contract are untouched, and that one is
untouched or holds a carried value. -/
def Isolated (node : RtNode J) (contract : Uint256) (stream : Bytes) (s s' : SnapShot node.js) :
    Prop :=
  (∀ key, key ≠ getHex contract → s'.db key = s.db key) ∧
    (s'.lookup contract = s.lookup contract ∨ ∃ v, Carried node stream v ∧
    s'.lookup contract = some v)

theorem rest_of_incomplete {mem : Memory} (h : nextMessage mem daemons stream = some (m, rest))
    (hm : m.complete = false) : rest = [] := by
  unfold nextMessage at h
  split at h
  · cases h
  · unfold messageOf at h
    repeat'
      split at h
    all_goals
      cases h
    · simp only [decide_eq_false_iff_not, Nat.not_le] at hm
      exact drop_eq_nil_of_le (Nat.le_of_lt hm)
    · simp only [decide_eq_false_iff_not, not_and, Nat.not_le] at hm
      refine drop_eq_nil_of_le ?_
      by_cases hsize : 4 ≤ (stream.drop 4).length
      · exact Nat.le_of_lt (hm hsize)
      · rw [drop_eq_nil_of_le (Nat.le_of_not_le hsize)]
        exact Nat.zero_le _
    · cases hm
    · cases hm
    · simp only [decide_eq_false_iff_not, Nat.not_le] at hm
      exact drop_eq_nil_of_le (Nat.le_of_lt hm)
    · cases hm

theorem messages_nil (mem : Memory) (daemons : Bool) : messages mem daemons [] = [] := rfl

theorem back_of_incomplete {mem : Memory} {daemons : Bool} {stream : Bytes}
    {front back : List Message} (h : messages mem daemons stream = front ++ m :: back)
    (hm : m.complete = false) : back = [] := by
  induction front generalizing stream with
  | nil =>
    rw [messages_eq] at h
    cases hnext : nextMessage mem daemons stream with
    | none =>
      rw [hnext] at h
      cases h
    | some next =>
      obtain ⟨m', rest⟩ := next
      rw [hnext] at h
      obtain ⟨rfl, rfl⟩ := cons.inj h
      rw [rest_of_incomplete hnext hm, messages_nil]
  | cons m' front ih =>
    rw [messages_eq] at h
    cases hnext : nextMessage mem daemons stream with
    | none =>
      rw [hnext] at h
      cases h
    | some next =>
      rw [hnext] at h
      exact ih (cons.inj h).2

theorem answerAll_append_harmless {curTx : CTransaction} {front : List Message}
    (h : ∀ m ∈ front, Harmless node curTx m.request) (d : CallData node.js) :
    ∃ d', ∀ back, (answerAll (answer node contract curTx) (front ++ back) d).data =
      (answerAll (answer node contract curTx) back d').data := by
  induction front generalizing d with
  | nil => exact ⟨d, fun _ => rfl⟩
  | cons m front ih =>
    obtain ⟨hm, hfront⟩ := forall_mem_cons.mp h
    obtain ⟨⟨reply, d₁⟩, hanswer⟩ :=
      isSome_iff_exists.mp ((answer_isSome contract curTx m.request d).mpr hm)
    obtain ⟨d', hd'⟩ := ih hfront d₁
    refine ⟨d', fun back => ?_⟩
    rw [cons_append, answerAll, hanswer]
    exact hd' back

theorem answer_snapShot {contract : Uint256} {curTx : CTransaction} {d d' : CallData node.js}
    (h : answer node contract curTx q d = some (reply, d')) :
    d'.snapShot = d.snapShot ∨ ∃ size text v, q = .writeState size text ∧ 0 ≤ size ∧
      node.js.parse text = some v ∧ d'.snapShot = d.snapShot.setContractState contract v := by
  cases q with
  | writeState size text =>
    simp only [answer] at h
    split at h
    · cases h
    · rename_i hneg
      obtain ⟨v, hv, heq⟩ := map_eq_some_iff.mp h
      cases heq
      exact .inr ⟨size, text, v, rfl, Int.not_lt.mp hneg, hv, rfl⟩
  | readState address =>
    obtain ⟨j, -, heq⟩ := map_eq_some_iff.mp h
    cases heq
    exact .inl rfl
  | getPreTxid =>
    obtain ⟨i, -, heq⟩ := map_eq_some_iff.mp h
    cases heq
    exact .inl rfl
  | checkRuntime => cases h; exact .inl rfl
  | contractDaemon pid => cases h; exact .inl rfl
  | daemonClient command => cases h; exact .inl rfl

/-- The messages of a stream change the entry of the executed contract only, and to
the value of a write message that is reached. -/
theorem answerAll_snapShot (ms : List Message) (d : CallData node.js) :
    let s' := (answerAll (answer node contract curTx) ms d).data.snapShot
    (∀ key, key ≠ getHex contract → s'.db key = d.snapShot.db key) ∧
      (s'.lookup contract = d.snapShot.lookup contract ∨
        ∃ front m back size text v, ms = front ++ m :: back ∧
          (∀ m' ∈ front, Harmless node curTx m'.request) ∧ m.request = .writeState size text ∧
          0 ≤ size ∧ node.js.parse text = some v ∧ s'.lookup contract = some v) := by
  induction ms generalizing d with
  | nil => exact ⟨fun _ _ => rfl, .inl rfl⟩
  | cons m ms ih =>
    rw [answerAll]
    cases hanswer : answer node contract curTx m.request d with
    | none => exact ⟨fun _ _ => rfl, .inl rfl⟩
    | some reply =>
      obtain ⟨reply, d₁⟩ := reply
      have hm : Harmless node curTx m.request :=
        (answer_isSome contract curTx m.request d).mp (by rw [hanswer]; rfl)
      obtain ⟨hkeys, hvalue⟩ := ih d₁
      have hlater : ∀ {front m' back}, ms = front ++ m' :: back →
          (∀ m' ∈ front, Harmless node curTx m'.request) →
          m :: ms = (m :: front) ++ m' :: back ∧ ∀ m' ∈ m :: front, Harmless node curTx m'.request :=
        fun hms hfront => ⟨congrArg (List.cons m) hms, forall_mem_cons.mpr ⟨hm, hfront⟩⟩
      rcases answer_snapShot hanswer with hsame | ⟨size, text, v, hq, hsize, hparse, hset⟩
      · refine ⟨fun key hkey => (hkeys key hkey).trans (by rw [hsame]), ?_⟩
        rcases hvalue with hvalue | ⟨front, m', back, size, text, v, hms, hfront, hrest⟩
        · exact .inl (hvalue.trans (by rw [hsame]))
        · obtain ⟨hms, hfront⟩ := hlater hms hfront
          exact .inr ⟨m :: front, m', back, size, text, v, hms, hfront, hrest⟩
      · refine ⟨fun key hkey => ?_, .inr ?_⟩
        · refine (hkeys key hkey).trans ?_
          rw [hset, SnapShot.db_setContractState_of_ne _ _ _ hkey]
        · rcases hvalue with hvalue | ⟨front, m', back, size, text, v, hms, hfront, hrest⟩
          · refine ⟨[], m, ms, size, text, v, rfl, by simp, hq, hsize, hparse, ?_⟩
            refine hvalue.trans ?_
            rw [hset, SnapShot.lookup_setContractState]
          · obtain ⟨hms, hfront⟩ := hlater hms hfront
            exact ⟨m :: front, m', back, size, text, v, hms, hfront, hrest⟩

/-- Streams isolate contracts exactly if a write message that the end of the stream
cuts short does not, with what its buffer held before, make up another value. -/
theorem callRt_isolated_iff (node : RtNode J) (contract : Uint256) (curTx : CTransaction)
    (stream : Bytes) (status : Option (BitVec 8)) (d : CallData node.js) :
    Isolated node contract stream d.snapShot
      (callRtStream node contract curTx stream status d).2.snapShot ↔
    ∀ front m size text v, messages node.mem true stream = front ++ [m] → m.complete = false →
      (∀ m' ∈ front, Harmless node curTx m'.request) → m.request = .writeState size text →
      0 ≤ size → node.js.parse text = some v →
      Carried node stream v ∨ d.snapShot.lookup contract = some v := by
  have hdata : (callRtStream node contract curTx stream status d).2 =
      (answerAll (answer node contract curTx) (messages node.mem true stream) d).data :=
    congrArg Proc.LoopEnd.data (callRt_serve node contract curTx d stream)
  rw [hdata]
  refine ⟨fun hisolated front m size text v hms _ hfront hm hsize hparse => ?_, fun hcond => ?_⟩
  · obtain ⟨d', hd'⟩ := answerAll_append_harmless contract hfront d
    have hlast : (answerAll (answer node contract curTx) [m] d').data.snapShot.lookup contract =
        some v := by
      simp [answerAll, answer, hm, Int.not_lt.mpr hsize, hparse, Proc.LoopEnd.after]
    rw [hms, hd'] at hisolated
    rcases hisolated.2 with hsame | ⟨v', hcarried, hv'⟩
    · exact .inr (hsame.symm.trans hlast)
    · cases some.inj (hv'.symm.trans hlast)
      exact .inl hcarried
  · obtain ⟨hkeys, hvalue⟩ := answerAll_snapShot contract curTx (messages node.mem true stream) d
    refine ⟨hkeys, ?_⟩
    rcases hvalue with hsame | ⟨front, m, back, size, text, v, hms, hfront, hm, hsize, hparse, hv⟩
    · exact .inl hsame
    · cases hcomplete : m.complete with
      | true =>
        exact .inr ⟨v, ⟨m, by rw [hms]; simp, hcomplete, size, text, hm, hparse⟩, hv⟩
      | false =>
        cases back_of_incomplete hms hcomplete
        rcases hcond front m size text v hms hcomplete hfront hm hsize hparse with hcarried | hsame
        · exact .inr ⟨v, hcarried, hv⟩
        · exact .inl (hv.trans hsame.symm)

/-- A write message without its one byte of payload stores the digit that the buffer
happened to hold. -/
theorem callRt_stores_memory : ¬ Isolated (digitNode 53) 7 (intBytes BYTE_WRITE_STATE ++ intBytes 1)
    emptyCall.snapShot (callRtStream (digitNode 53) 7 spendTx
      (intBytes BYTE_WRITE_STATE ++ intBytes 1) (some 0) emptyCall).2.snapShot := by
  have hincomplete : ∀ m ∈ messages (digitNode 53).mem true (intBytes BYTE_WRITE_STATE ++ intBytes 1),
      m.complete = false := by
    decide +kernel
  have hstored : (callRtStream (digitNode 53) 7 spendTx
      (intBytes BYTE_WRITE_STATE ++ intBytes 1) (some 0) emptyCall).2.snapShot.lookup 7 =
        some (some 5) := by
    decide +kernel
  have hold : emptyCall.snapShot.lookup 7 = none := rfl
  rintro ⟨-, hsame | ⟨v, ⟨m, hm, hcomplete, -⟩, -⟩⟩
  · cases hstored.symm.trans (hsame.trans hold)
  · rw [hincomplete m hm] at hcomplete
    cases hcomplete

end OurChain
