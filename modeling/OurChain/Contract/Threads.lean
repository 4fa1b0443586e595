import OurChain.Lib.Interleaving

/-!
# Threads in `ActivateBestChain`

Any number of threads run `ActivateBestChain`: each turn of its loop works under
`cs_main`, which is a recursive lock that the caller may hold already, and after the
loop the thread builds a `ContractStateCache`, updates it under `cs_main` and destroys
it. The cache opens the directories `block_index` and `current_cache`; opening a
directory that is open fails, and the wrapper asserts that it does not.

A thread is at one point of the function at a time. Which branch it takes depends on
blocks that other threads add, so the results of `ActivateBestChainStep`, of the flush
and of the update are part of the schedule.
-/

namespace OurChain

open Function

inductive Dir where
  | blockIndex
  | currentCache
  deriving DecidableEq

/-- Where a thread is; the names say what it does next or is in the middle of. -/
inductive Pc where
  | outside
  | loopHead
  | loopBody
  | loopTail
  | afterLoop
  | flushing
  | flushed
  | constructing
  | halfOpen
  | cacheOpen
  | observing
  | saving
  | closing
  | halfClosed
  deriving DecidableEq

namespace Pc

/-- The lifetime of the `ContractStateCache`. -/
def hasCache : Pc → Bool
  | constructing | halfOpen | cacheOpen | observing | saving | closing | halfClosed => true
  | _ => false

def holds : Pc → Dir → Bool
  | halfOpen, .blockIndex => true
  | cacheOpen, _ | observing, _ | saving, _ | closing, _ => true
  | halfClosed, .currentCache => true
  | _, _ => false

end Pc

inductive ChainStep (β : Type) where
  | failed
  | connected (tip : Option β) (fInvalidFound : Bool)

/-- A step of a thread, with what the step does not decide itself. -/
inductive Action (β : Type) where
  | lockMain
  | unlockMain
  | acceptBlock (best : Option β)
  | startShutdown
  | activateBestChain
  | shutdown
  | activateStep (result : ChainStep β)
  | next
  | flushStateToDisk (ok : Bool)
  | construct
  | openStore
  | onChainStateSet (updated : Bool)
  | saveTmpState
  | closeStore

/-- The owner of `cs_main` with the number of its other locks, the chain, and the
variables of each thread. -/
structure ChainVars (τ β : Type) where
  csMain : Option (τ × Nat)
  tip : Option β
  best : Option β
  shutdownRequested : Bool
  pindexMostWork : τ → Option β
  pindexNewTip : τ → Option β

/-- The threads that have the directories open, and whether an open was refused. -/
structure StoreDirs (τ : Type) where
  owner : Dir → Option τ
  aborted : Bool

structure Threads (τ β : Type) where
  pc : τ → Pc
  vars : ChainVars τ β
  dirs : StoreDirs τ

variable {τ β : Type}

section
variable [DecidableEq τ] [DecidableEq β]

def ChainVars.lock (i : τ) (v : ChainVars τ β) : Option (ChainVars τ β) :=
  match v.csMain with
  | none => some { v with csMain := some (i, 0) }
  | some (j, n) => if j = i then some { v with csMain := some (i, n + 1) } else none

def ChainVars.unlock (i : τ) (v : ChainVars τ β) : Option (ChainVars τ β) :=
  match v.csMain with
  | some (j, 0) => if j = i then some { v with csMain := none } else none
  | some (j, n + 1) => if j = i then some { v with csMain := some (i, n) } else none
  | none => none

/-- The constructor of `ContractDBWrapper`: on to `q`, or an assertion fails at `p`. -/
def StoreDirs.openDir (dir : Dir) (i : τ) (p q : Pc) (d : StoreDirs τ) : Pc × StoreDirs τ :=
  match d.owner dir with
  | none => (q, { d with owner := update d.owner dir (some i) })
  | some _ => (p, { d with aborted := true })

def StoreDirs.closeDir (dir : Dir) (d : StoreDirs τ) : StoreDirs τ :=
  { d with owner := update d.owner dir none }

def activateTurn (i : τ) (result : ChainStep β) (v : ChainVars τ β) : Option (Pc × ChainVars τ β) :=
  let pindexMostWork := (v.pindexMostWork i).or v.best
  if pindexMostWork = none ∨ pindexMostWork = v.tip then (v.unlock i).map (.outside, ·)
  else match result with
    | .failed => (v.unlock i).map (.outside, ·)
    | .connected tip fInvalidFound =>
      let v := { v with
        tip
        pindexNewTip := update v.pindexNewTip i tip
        pindexMostWork :=
          update v.pindexMostWork i (if fInvalidFound then none else pindexMostWork) }
      (v.unlock i).map (.loopTail, ·)

def move (i : τ) (a : Action β) (p : Pc) (v : ChainVars τ β) (d : StoreDirs τ) :
    Option (Pc × ChainVars τ β × StoreDirs τ) :=
  match p, a with
  | .outside, .lockMain => (v.lock i).map fun v => (.outside, v, d)
  | .outside, .unlockMain => (v.unlock i).map fun v => (.outside, v, d)
  | .outside, .acceptBlock best =>
    if v.csMain.any (·.1 = i) then some (.outside, { v with best }, d) else none
  | .outside, .startShutdown => some (.outside, { v with shutdownRequested := true }, d)
  | .outside, .activateBestChain =>
    some (.loopHead, { v with
      pindexMostWork := update v.pindexMostWork i none
      pindexNewTip := update v.pindexNewTip i none }, d)
  | .loopHead, .shutdown => if v.shutdownRequested then some (.afterLoop, v, d) else none
  | .loopHead, .lockMain => (v.lock i).map fun v => (.loopBody, v, d)
  | .loopBody, .activateStep result => (activateTurn i result v).map fun (p, v) => (p, v, d)
  | .loopTail, .next =>
    some (if v.pindexNewTip i ≠ v.pindexMostWork i then .loopHead else .afterLoop, v, d)
  | .afterLoop, .lockMain => (v.lock i).map fun v => (.flushing, v, d)
  | .flushing, .flushStateToDisk ok =>
    (v.unlock i).map fun v => (if ok then .flushed else .outside, v, d)
  | .flushed, .construct => some (.constructing, v, d)
  | .constructing, .openStore =>
    let (p, d) := d.openDir .blockIndex i .constructing .halfOpen
    some (p, v, d)
  | .halfOpen, .openStore =>
    let (p, d) := d.openDir .currentCache i .halfOpen .cacheOpen
    some (p, v, d)
  | .cacheOpen, .lockMain => (v.lock i).map fun v => (.observing, v, d)
  | .observing, .onChainStateSet updated =>
    (v.unlock i).map fun v => (if updated then .saving else .closing, v, d)
  | .saving, .saveTmpState => some (.closing, v, d)
  | .closing, .closeStore => some (.halfClosed, v, d.closeDir .blockIndex)
  | .halfClosed, .closeStore => some (.outside, v, d.closeDir .currentCache)
  | _, _ => none

def Threads.step (i : τ) (a : Action β) (s : Threads τ β) : Option (Threads τ β) :=
  if s.dirs.aborted then none
  else (move i a (s.pc i) s.vars s.dirs).map fun (p, vars, dirs) =>
    { pc := update s.pc i p, vars, dirs }

def Threads.run : List (τ × Action β) → Threads τ β → Option (Threads τ β) :=
  Interleaving.run fun (i, a) s => s.step i a

end

/-- Every thread outside, nothing open, and some active chain. -/
def Threads.initial (tip : Option β) : Threads τ β where
  pc _ := .outside
  vars := ⟨none, tip, tip, false, fun _ => none, fun _ => none⟩
  dirs := ⟨fun _ => none, false⟩

/-- No two threads have a `ContractStateCache`, and no open was refused. -/
def Threads.Exclusive (s : Threads τ β) : Prop :=
  (∀ i j, (s.pc i).hasCache = true → (s.pc j).hasCache = true → i = j) ∧ s.dirs.aborted = false

/-- At most one thread is in the function, and it has the directories that are open. -/
structure Alone (s : Threads τ β) : Prop where
  inside : ∀ i j, s.pc i ≠ .outside → s.pc j ≠ .outside → i = j
  owner : ∀ dir i, s.dirs.owner dir = some i → (s.pc i).holds dir = true
  aborted : s.dirs.aborted = false

theorem Alone.owner_eq_none {s : Threads τ β} (h : Alone s) (hin : s.pc i ≠ .outside)
    (hi : (s.pc i).holds dir = false) : s.dirs.owner dir = none := by
  by_contra hne
  obtain ⟨j, hj⟩ := Option.ne_none_iff_exists'.mp hne
  have hholds := h.owner dir j hj
  have hout : s.pc j ≠ .outside := fun hout => by
    rw [hout] at hholds
    cases hholds
  rw [h.inside j i hout hin, hi] at hholds
  cases hholds

inductive DirMove (i : τ) (p : Pc) (d : StoreDirs τ) : Pc → StoreDirs τ → Prop where
  | same (hholds : ∀ dir, p'.holds dir = p.holds dir) : DirMove i p d p' d
  | opens (dir : Dir) (q : Pc) (hp : p ≠ .outside) (hfree : p.holds dir = false)
      (hholds : ∀ other, q.holds other = update p.holds dir true other) :
      DirMove i p d (d.openDir dir i p q).1 (d.openDir dir i p q).2
  | closes (dir : Dir) (hholds : ∀ other, p'.holds other = update p.holds dir false other) :
      DirMove i p d p' (d.closeDir dir)

section
variable [DecidableEq τ]

variable {s : Threads τ β}

theorem Alone.update (h : Alone s) (i : τ) (p : Pc) (vars : ChainVars τ β)
    {dirs : StoreDirs τ} (hother : ∀ j, j ≠ i → p ≠ .outside → s.pc j = .outside)
    (howner : ∀ dir j, dirs.owner dir = some j →
      if j = i then p.holds dir = true else s.dirs.owner dir = some j)
    (haborted : dirs.aborted = false) : Alone ⟨update s.pc i p, vars, dirs⟩ where
  inside j k hj hk := by
    simp only [update_apply] at hj hk
    split at hj <;> split at hk
    · rename_i hji hki
      exact hji.trans hki.symm
    · rename_i hji hki
      exact absurd (hother k hki hj) hk
    · rename_i hji hki
      exact absurd (hother j hji hk) hj
    · exact h.inside j k hj hk
  owner dir j hj := by
    have hj := howner dir j hj
    simp only [update_apply]
    split at hj
    · rename_i hji
      rwa [if_pos hji]
    · rename_i hji
      rw [if_neg hji]
      exact h.owner dir j hj
  aborted := haborted

theorem Alone.owner_kept {p : Pc} (h : Alone s) (hj : s.dirs.owner dir = some j)
    (hholds : p.holds dir = (s.pc i).holds dir) :
    if j = i then p.holds dir = true else s.dirs.owner dir = some j := by
  split
  · rename_i hji
    rw [hholds]
    exact h.owner dir i (hji ▸ hj)
  · exact hj

variable [DecidableEq β]

/-- A thread calls `ActivateBestChain` only when no other thread is in it. -/
def Threads.Serialised : List (τ × Action β) → Threads τ β → Prop
  | [], _ => True
  | (i, a) :: schedule, s => (a = .activateBestChain → ∀ j, j ≠ i → s.pc j = .outside) ∧
    ∀ s', s.step i a = some s' → Serialised schedule s'

variable {v : ChainVars τ β} {i : τ}

theorem activateTurn_pc (h : activateTurn i result v = some (p, v')) :
    p = .outside ∨ p = .loopTail := by
  unfold activateTurn at h
  dsimp only at h
  split at h
  · obtain ⟨_, -, heq⟩ := Option.map_eq_some_iff.mp h
    cases heq
    exact .inl rfl
  · split at h
    · obtain ⟨_, -, heq⟩ := Option.map_eq_some_iff.mp h
      cases heq
      exact .inl rfl
    · obtain ⟨_, -, heq⟩ := Option.map_eq_some_iff.mp h
      cases heq
      exact .inr rfl

theorem move_cases {a : Action β} {d : StoreDirs τ} (h : move i a p v d = some (p', v', d')) :
    (p ≠ .outside ∨ p' = .outside ∨ a = .activateBestChain) ∧ DirMove i p d p' d' := by
  unfold move at h
  split at h
  -- a step that only moves on, perhaps with the lock
  case h_1 | h_2 | h_7 | h_10 | h_15 =>
    obtain ⟨_, -, ⟨⟩⟩ := Option.map_eq_some_iff.mp h
    exact ⟨by simp, .same fun dir => by cases dir <;> rfl⟩
  case h_4 | h_5 | h_12 | h_17 =>
    cases h
    exact ⟨by simp, .same fun dir => by cases dir <;> rfl⟩
  -- a step that depends on the chain or on a result
  case h_3 | h_6 =>
    split at h
    · cases h
      exact ⟨by simp, .same fun dir => by cases dir <;> rfl⟩
    · cases h
  case h_8 =>
    obtain ⟨⟨p₁, v₁⟩, hturn, ⟨⟩⟩ := Option.map_eq_some_iff.mp h
    rcases activateTurn_pc hturn with rfl | rfl
    · exact ⟨by simp, .same fun dir => by cases dir <;> rfl⟩
    · exact ⟨by simp, .same fun dir => by cases dir <;> rfl⟩
  case h_9 =>
    cases h
    refine ⟨by simp, .same fun dir => ?_⟩
    split <;> cases dir <;> rfl
  case h_11 | h_16 =>
    obtain ⟨_, -, ⟨⟩⟩ := Option.map_eq_some_iff.mp h
    refine ⟨by simp, .same fun dir => ?_⟩
    split <;> cases dir <;> rfl
  -- a step on a directory
  case h_13 =>
    cases h
    exact ⟨by simp, .opens .blockIndex .halfOpen (by simp) rfl fun other => by cases other <;> rfl⟩
  case h_14 =>
    cases h
    exact ⟨by simp, .opens .currentCache .cacheOpen (by simp) rfl fun other => by cases other <;> rfl⟩
  case h_18 =>
    cases h
    exact ⟨by simp, .closes .blockIndex fun other => by cases other <;> rfl⟩
  case h_19 =>
    cases h
    exact ⟨by simp, .closes .currentCache fun other => by cases other <;> rfl⟩
  case h_20 => cases h

theorem Alone.step {s s' : Threads τ β} (h : Alone s) (hstep : s.step i a = some s')
    (hserial : a = .activateBestChain → ∀ j, j ≠ i → s.pc j = .outside) : Alone s' := by
  rw [Threads.step, if_neg (by simp [h.aborted])] at hstep
  obtain ⟨⟨p', v', d'⟩, hmove, rfl⟩ := Option.map_eq_some_iff.mp hstep
  obtain ⟨hpc, hdirs⟩ := move_cases hmove
  have hother : ∀ j, j ≠ i → p' ≠ .outside → s.pc j = .outside := by
    intro j hj hp'
    rcases hpc with hin | hout | hact
    · by_contra hj'
      exact hj (h.inside j i hj' hin)
    · exact absurd hout hp'
    · exact hserial hact j hj
  clear hmove hpc
  cases hdirs with
  | same hholds =>
    exact h.update i p' v' hother (fun dir _ hj => h.owner_kept hj (hholds dir)) h.aborted
  | opens dir q hp hfree hholds =>
    have hopen : s.dirs.openDir dir i (s.pc i) q =
        (q, { s.dirs with owner := Function.update s.dirs.owner dir (some i) }) := by
      rw [StoreDirs.openDir, h.owner_eq_none hp hfree]
    rw [hopen] at hother ⊢
    refine h.update i q v' hother (fun other j hj => ?_) h.aborted
    simp only [update_apply] at hj hholds
    split at hj
    · rename_i hdir
      cases hj
      simp [hholds, hdir]
    · rename_i hdir
      exact h.owner_kept hj ((hholds other).trans (if_neg hdir))
  | closes dir hholds =>
    refine h.update i p' v' hother (fun other j hj => ?_) h.aborted
    simp only [StoreDirs.closeDir, update_apply] at hj hholds
    split at hj
    · cases hj
    · rename_i hdir
      exact h.owner_kept hj ((hholds other).trans (if_neg hdir))

theorem Alone.run {schedule : List (τ × Action β)} {s' : Threads τ β} (h : Alone s)
    (hserial : Threads.Serialised schedule s) (hrun : Threads.run schedule s = some s') : Alone s' :=
  (Interleaving.run_induct (I := fun schedule s => Alone s ∧ Threads.Serialised schedule s)
    (fun ⟨h, hserial⟩ hstep => ⟨h.step hstep hserial.1, hserial.2 _ hstep⟩) ⟨h, hserial⟩ hrun).1

/-- If calls of `ActivateBestChain` do not overlap, then at every moment of every
interleaving at most one `ContractStateCache` exists, and every open succeeds. -/
theorem run_exclusive (tip : Option β) {schedule : List (τ × Action β)} {s : Threads τ β}
    (hserial : Threads.Serialised schedule (.initial tip))
    (hrun : Threads.run schedule (.initial tip) = some s) : s.Exclusive := by
  have hinitial : Alone (Threads.initial tip : Threads τ β) :=
    ⟨fun _ _ hi => absurd rfl hi, fun _ _ h => (nomatch h), rfl⟩
  have halone := hinitial.run hserial hrun
  have hinside : ∀ i, (s.pc i).hasCache = true → s.pc i ≠ .outside := by
    intro i hi hout
    rw [hout] at hi
    cases hi
  exact ⟨fun i j hi hj => halone.inside i j (hinside i hi) (hinside j hj), halone.aborted⟩

theorem Threads.serialised_single (actions : List (Action β)) (rest : List (τ × Action β))
    (h : ∀ j, j ≠ i → s.pc j = .outside)
    (hrest : ∀ s', Threads.run (actions.map (i, ·)) s = some s' → Threads.Serialised rest s') :
    Threads.Serialised (actions.map (i, ·) ++ rest) s := by
  induction actions generalizing s with
  | nil => exact hrest s rfl
  | cons a actions ih =>
    refine ⟨fun _ => h, fun s' hstep => ih (fun j hj => ?_) fun s'' hrun => hrest s'' ?_⟩
    · unfold Threads.step at hstep
      split at hstep
      · cases hstep
      · obtain ⟨_, -, rfl⟩ := Option.map_eq_some_iff.mp hstep
        exact (update_of_ne hj _ _).trans (h j hj)
    · simp only [Threads.run, List.map_cons, Interleaving.run, hstep]
      exact hrun

end

def toCache (block : Nat) : List (Action Nat) :=
  [.lockMain, .acceptBlock (some block), .unlockMain, .activateBestChain, .lockMain,
    .activateStep (.connected (some block) false), .next, .lockMain,
    .flushStateToDisk true, .construct]

def openCache (block : Nat) : List (Action Nat) := toCache block ++ [.openStore, .openStore]

def closeCache : List (Action Nat) :=
  [.lockMain, .onChainStateSet true, .saveTmpState, .closeStore, .closeStore]

/-- Block 2 arrives when the first thread has closed its cache. -/
theorem run_exclusive_one_by_one : ∃ s : Threads Bool Nat,
    Threads.run ((openCache 1 ++ closeCache).map (false, ·) ++ (openCache 2).map (true, ·))
      (.initial (some 0)) = some s ∧
    s.pc false = .outside ∧ s.pc true = .cacheOpen ∧ s.Exclusive := by
  have hfirst : ∀ s, Threads.run ((openCache 1 ++ closeCache).map (false, ·))
    (.initial (some 0)) = some s →
      s.pc false = .outside := by
    intro s hrun
    have hpc : (Threads.run ((openCache 1 ++ closeCache).map (false, ·)) (.initial (some 0))).map
        (fun s => s.pc false) = some .outside := rfl
    rw [hrun] at hpc
    exact Option.some.inj hpc
  have hserial : Threads.Serialised ((openCache 1 ++ closeCache).map (false,
    ·) ++ (openCache 2).map (true, ·))
      (.initial (some 0) : Threads Bool Nat) := by
    refine Threads.serialised_single _ _ (fun _ _ => rfl) fun s hrun => ?_
    rw [← List.append_nil ((openCache 2).map _)]
    refine Threads.serialised_single _ _ (fun j hj => ?_) fun _ _ => trivial
    rw [Bool.eq_false_of_not_eq_true hj]
    exact hfirst s hrun
  exact ⟨_, rfl, rfl, rfl, run_exclusive (some 0) hserial rfl⟩

/-- Block 2 arrives while the first thread has its cache open: the second thread comes
to its own, and the node aborts. -/
theorem run_clash : ∃ s s' : Threads Bool Nat,
    Threads.run ((openCache 1).map (false, ·) ++ (toCache 2).map (true, ·))
      (.initial (some 0)) = some s ∧
    s.pc false = .cacheOpen ∧ s.pc true = .constructing ∧ ¬ s.Exclusive ∧
    s.step true .openStore = some s' ∧ s'.dirs.aborted = true := by
  refine ⟨_, _, rfl, rfl, rfl, ?_, rfl, rfl⟩
  rintro ⟨hone, -⟩
  cases hone false true rfl rfl

end OurChain
