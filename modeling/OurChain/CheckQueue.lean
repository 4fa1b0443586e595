import OurChain.Lib.Interleaving

/-!
# The queue of script checks

`CCheckQueue` distributes the checks of a block over worker threads. The thread that
connects the block is the master: it adds checks and then joins the workers in `Wait`
until nothing is left to do. Whoever takes the lock runs on to the end of the critical
section, so each critical section is one step; a check runs outside of the lock and is
a step of its own. A waiting thread may wake up without a reason.

`ControlMutex` admits one master at a time, and `CCheckQueueControl` calls `Wait` in its
destructor if `ConnectBlock` left early, so every series of `Add` ends with `Wait`.
-/

namespace OurChain

structure CCheckQueue (α : Type) where
  queue : List α
  nIdle : Nat
  nTotal : Nat
  fAllOk : Bool
  /-- Below `2 ^ 32`: an `Add` that exceeds it is not a step of the model. -/
  nTodo : Nat
  fQuit : Bool

namespace CCheckQueue

variable {α ι : Type}

def empty : CCheckQueue α where
  queue := []
  nIdle := 0
  nTotal := 0
  fAllOk := true
  nTodo := 0
  fQuit := false

/-- Where a thread is in `Loop`. -/
inductive Place (α : Type)
  | outside
  /-- Outside of the lock, with the rest of the batch; `nNow` is 0 before the first one. -/
  | running (vChecks : List α) (nNow : Nat) (fOk : Bool)
  /-- At the head of the inner loop, which is passed within a critical section. -/
  | checking
  | waiting
  | notified
  deriving DecidableEq

inductive Outcome (α : Type)
  | returned (fRet : Bool)
  | waits
  | batch (vChecks : List α) (nNow : Nat) (fOk : Bool)

/-- The clean-up of the previous batch, and whether the master is notified. -/
def cleanUp (fMaster : Bool) (nNow : Nat) (fOk : Bool) (q : CCheckQueue α) : Bool × CCheckQueue α :=
  if nNow ≠ 0 then
    let q := { q with fAllOk := q.fAllOk && fOk, nTodo := q.nTodo - nNow }
    (q.nTodo == 0 && !fMaster, q)
  else (false, { q with nTotal := q.nTotal + 1 })

def batchSize (nBatchSize : Nat) (q : CCheckQueue α) : Nat :=
  max 1 (min nBatchSize (q.queue.length / (q.nTotal + q.nIdle + 1)))

/-- The inner loop up to the next wait, and the choice of a batch. -/
def enter (nBatchSize : Nat) (fMaster : Bool) (q : CCheckQueue α) : Outcome α × CCheckQueue α :=
  if q.queue.isEmpty then
    if (fMaster || q.fQuit) && q.nTodo == 0 then
      (.returned q.fAllOk,
        { q with nTotal := q.nTotal - 1, fAllOk := if fMaster then true else q.fAllOk })
    else (.waits, { q with nIdle := q.nIdle + 1 })
  else
    let nNow := q.batchSize nBatchSize
    (.batch (q.queue.reverse.take nNow) nNow q.fAllOk,
      { q with queue := q.queue.take (q.queue.length - nNow) })

/-- What a `Wait` returned, with the checks that had been added for it and those that
were executed. -/
structure Verdict (α : Type) where
  added : List α
  executed : List α
  fRet : Bool
  deriving DecidableEq

/-- The queue, the master as the thread `none`, and what happened to the checks since
the last `Wait`. -/
structure Pool (ι α : Type) where
  q : CCheckQueue α
  thread : Option ι → Place α
  added : List α
  executed : List α
  skipped : List α
  verdicts : List (Verdict α)

inductive Action (ι α : Type)
  | thread (i : ι)
  /-- `Add`, with the worker that `notify_one` picks. -/
  | add (vChecks : List α) (picked : Option ι)
  | wait
  | lock (i : Option ι)
  | spurious (i : Option ι)
  | wake (i : Option ι)
  | check (i : Option ι)

def Place.isWaiting : Place α → Bool
  | .waiting => true
  | _ => false

def Place.notify : Place α → Place α
  | .waiting => .notified
  | p => p

namespace Pool

variable [DecidableEq ι]

def init : Pool ι α where
  q := empty
  thread _ := .outside
  added := []
  executed := []
  skipped := []
  verdicts := []

def put (i : Option ι) (p : Place α) (s : Pool ι α) : Pool ι α :=
  { s with thread := Function.update s.thread i p }

def cleanUp (i : Option ι) (nNow : Nat) (fOk : Bool) (s : Pool ι α) : Pool ι α :=
  let (notify, q) := s.q.cleanUp i.isNone nNow fOk
  let s := { s with q }
  (if notify then s.put none (s.thread none).notify else s).put i .checking

/-- The end of a critical section. A `Wait` that returns closes the account. -/
def enter (nBatchSize : Nat) (i : Option ι) (s : Pool ι α) : Pool ι α :=
  let (outcome, q) := s.q.enter nBatchSize i.isNone
  let s := { s with q }
  match outcome, i with
  | .returned fRet, none =>
    { s.put none .outside with
      added := [], executed := [], skipped := []
      verdicts := s.verdicts ++ [⟨s.added, s.executed, fRet⟩] }
  | .returned _, some _ => s.put i .outside
  | .waits, _ => s.put i .waiting
  | .batch vChecks nNow fOk, _ => s.put i (.running vChecks nNow fOk)

/-- The lock is taken again after `cond.wait`. -/
def resume (i : Option ι) (s : Pool ι α) : Pool ι α :=
  { s with q := { s.q with nIdle := s.q.nIdle - 1 } }.put i .checking

def check (ok : α → Bool) (i : Option ι) (c : α) (rest : List α) (nNow : Nat) (fOk : Bool)
    (s : Pool ι α) : Pool ι α :=
  if fOk then { s with executed := s.executed ++ [c] }.put i (.running rest nNow (ok c))
  else { s with skipped := s.skipped ++ [c] }.put i (.running rest nNow fOk)

/-- The worker that `notify_one` wakes is one that waits, if there is one. -/
def Picks [Fintype ι] (s : Pool ι α) : Option ι → Prop
  | some i => (s.thread (some i)).isWaiting = true
  | none => ∀ i : ι, (s.thread (some i)).isWaiting = false

instance [Fintype ι] (s : Pool ι α) : (picked : Option ι) → Decidable (s.Picks picked)
  | some _ => inferInstanceAs (Decidable (_ = _))
  | none => inferInstanceAs (Decidable (∀ _, _))

def notifyWorkers (vChecks : List α) (picked : Option ι) (s : Pool ι α) : Pool ι α :=
  if vChecks.length = 1 then
    match picked with
    | some i => s.put (some i) (s.thread (some i)).notify
    | none => s
  else if 1 < vChecks.length then
    { s with thread := fun i => if i.isSome then (s.thread i).notify else s.thread i }
  else s

def add (vChecks : List α) (picked : Option ι) (s : Pool ι α) : Pool ι α :=
  notifyWorkers vChecks picked
    { s with
      q := { s.q with queue := s.q.queue ++ vChecks, nTodo := s.q.nTodo + vChecks.length }
      added := s.added ++ vChecks }

variable [Fintype ι] (nBatchSize : Nat) (ok : α → Bool)

def step : Action ι α → Pool ι α → Option (Pool ι α)
  | .thread i, s =>
    match s.thread (some i) with
    | .outside => some (s.put (some i) (.running [] 0 true))
    | _ => none
  | .add vChecks picked, s =>
    match s.thread none with
    | .outside =>
      if (vChecks.length = 1 ∧ ¬ s.Picks picked) ∨ 2 ^ 32 ≤ s.q.nTodo + vChecks.length then none
      else some (s.add vChecks picked)
    | _ => none
  | .wait, s =>
    match s.thread none with
    | .outside => some (s.put none (.running [] 0 true))
    | _ => none
  | .lock i, s =>
    match s.thread i with
    | .running [] nNow fOk => some ((s.cleanUp i nNow fOk).enter nBatchSize i)
    | _ => none
  | .spurious i, s =>
    match s.thread i with
    | .waiting => some (s.put i .notified)
    | _ => none
  | .wake i, s =>
    match s.thread i with
    | .notified => some ((s.resume i).enter nBatchSize i)
    | _ => none
  | .check i, s =>
    match s.thread i with
    | .running (c :: rest) nNow fOk => some (s.check ok i c rest nNow fOk)
    | _ => none

end Pool

end CCheckQueue

end OurChain
