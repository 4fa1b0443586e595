import OurChain.CheckQueue.Account

/-!
# Wait of a check queue

A waiting master has an empty queue before it and checks of others still under way, so
there is always a thread that runs, and the last check that is reported wakes the master.
-/

namespace OurChain

open Interleaving (total run)

namespace CCheckQueue

variable {α ι : Type}

namespace Pool

variable [Fintype ι] [DecidableEq ι] {nBatchSize : Nat} {ok : α → Bool} {s s' : Pool ι α}

/-- The master waits for the others only: nothing is queued and something is left to do. -/
def MasterWaits (s : Pool ι α) : Prop :=
  s.thread none = .waiting → s.q.queue = [] ∧ s.q.nTodo ≠ 0

omit [Fintype ι] in
theorem put_masterWaits (h : s.MasterWaits) (i : Option ι) (hp : p ≠ .waiting) :
    (s.put i p).MasterWaits := by
  intro hwaits
  by_cases hi : none = i
  · subst hi
    exact absurd (s.put_self none p ▸ hwaits) hp
  · exact h (s.put_of_ne hi p ▸ hwaits)

omit [Fintype ι] in
theorem enter_masterWaits (hquit : s.q.fQuit = false) (h : s.MasterWaits) (i : Option ι) :
    (s.enter nBatchSize i).MasterWaits := by
  rcases enter_cases hquit nBatchSize i with
    ⟨rfl, hqueue, htodo, heq⟩ | ⟨hqueue, htodo, heq⟩ | ⟨hne, heq⟩
  · rw [heq]
    intro hwaits
    cases (put_self s none .outside).symm.trans hwaits
  · rw [heq]
    intro hwaits
    by_cases hi : none = i
    · exact ⟨hqueue, htodo hi.symm⟩
    · exact h (s.put_of_ne hi _ ▸ hwaits)
  · rw [heq]
    intro hwaits
    -- a waiting master means an empty queue
    have hput := put_masterWaits h i (p := .running _ (s.q.batchSize nBatchSize) s.q.fAllOk) nofun
      hwaits
    exact absurd hput.1 hne

omit [Fintype ι] in
theorem cleanUp_masterWaits (h : s.MasterWaits) (i : Option ι) (nNow : Nat) (fOk : Bool) :
    (s.cleanUp i nNow fOk).MasterWaits := by
  cases i with
  | none =>
    intro hwaits
    cases (put_self _ none .checking).symm.trans hwaits
  | some i =>
    unfold Pool.cleanUp
    dsimp only
    refine put_masterWaits ?_ (some i) nofun
    split
    · intro hwaits
      have hnotified : (s.thread none).notify = .waiting := (put_self _ none _).symm.trans hwaits
      cases hplace : s.thread none <;> simp [hplace, Place.notify] at hnotified
    · rename_i hquiet
      intro hwaits
      obtain ⟨hqueue, htodo⟩ := h hwaits
      unfold CCheckQueue.cleanUp at hquiet ⊢
      by_cases hfirst : nNow ≠ 0
      · simp only [if_pos hfirst] at hquiet ⊢
        exact ⟨hqueue, by simpa using hquiet⟩
      · simp only [if_neg hfirst]
        exact ⟨hqueue, htodo⟩

theorem MasterWaits.steps (haccount : s.Account ok) (h : s.MasterWaits)
    (hstep : Steps nBatchSize ok s s') : s'.MasterWaits := by
  cases hstep with
  | begun hi => exact put_masterWaits h _ nofun
  | added vChecks picked hmaster =>
    obtain ⟨thread, heq, hnone, -⟩ := add_spec vChecks picked s
    rw [heq]
    intro hwaits
    cases (hnone.trans hmaster).symm.trans hwaits
  | locked hi => exact enter_masterWaits (haccount.cleanUp hi).fQuit (cleanUp_masterWaits h _ _ _) _
  | woken hi => exact put_masterWaits h _ nofun
  | resumed hi => exact enter_masterWaits (haccount.resume hi).fQuit (put_masterWaits h _ nofun) _
  | checked hi =>
    unfold Pool.check
    split
    · exact put_masterWaits h _ nofun
    · exact put_masterWaits h _ nofun

def Unlocked (s : Pool ι α) : Prop := ∀ i, s.thread i ≠ .checking

variable {i : Option ι}

omit [Fintype ι] in
theorem put_unlocked (h : ∀ j, j ≠ i → s.thread j ≠ .checking) (hp : p ≠ .checking) :
    (s.put i p).Unlocked :=
  forall_put (P := (· ≠ .checking)) |>.mpr ⟨hp, h⟩

omit [Fintype ι] in
theorem enter_unlocked (hquit : s.q.fQuit = false)
    (h : ∀ j, j ≠ i → s.thread j ≠ .checking) : (s.enter nBatchSize i).Unlocked := by
  rcases enter_cases hquit nBatchSize i with ⟨rfl, -, -, heq⟩ | ⟨-, -, heq⟩ | ⟨-, heq⟩
  · rw [heq]
    exact put_unlocked (p := .outside) h nofun
  · rw [heq]
    exact put_unlocked (p := .waiting) h nofun
  · rw [heq]
    exact put_unlocked (p := .running ..) h nofun

theorem Unlocked.steps (haccount : s.Account ok) (h : s.Unlocked) (hstep : Steps nBatchSize ok s s') :
    s'.Unlocked := by
  cases hstep with
  | begun hi => exact put_unlocked (fun j _ => h j) nofun
  | added vChecks picked _ =>
    obtain ⟨thread, heq, -, hstays⟩ := add_spec vChecks picked s
    rw [heq]
    intro i hi
    have hstay := hstays i
    rw [show thread i = .checking from hi] at hstay
    exact h i (hstay.eq nofun)
  | @locked i nNow fOk hi =>
    refine enter_unlocked (haccount.cleanUp hi).fQuit fun j hj hchecking => ?_
    have hstay := cleanUp_stays s i j nNow fOk
    rw [hchecking, put_of_ne s hj] at hstay
    exact h j (hstay.eq nofun)
  | woken hi => exact put_unlocked (fun j _ => h j) nofun
  | resumed hi =>
    refine enter_unlocked (haccount.resume hi).fQuit fun j hj => ?_
    rw [resume, put_of_ne _ hj]
    exact h j
  | checked hi =>
    unfold Pool.check
    split
    · exact put_unlocked (fun j _ => h j) nofun
    · exact put_unlocked (fun j _ => h j) nofun

/-- `Wait` has just returned, and the queue can be used again. -/
structure Ready (s : Pool ι α) : Prop where
  master : s.thread none = .outside
  queue : s.q.queue = []
  nTodo : s.q.nTodo = 0
  fAllOk : s.q.fAllOk = true
  batches : ∀ i, (s.thread i).vChecks = 0

/-- The step of a thread, seen from `Wait`: it returns, or it goes on. -/
inductive Returns (s s' : Pool ι α) : Prop
  | goesOn (verdicts : s'.verdicts = s.verdicts)
      (inside : s.thread none ≠ .outside → s'.thread none ≠ .outside)
  | returned (master : s'.thread none = .outside) (added : s'.added = [])
      (verdicts : s'.verdicts.length = s.verdicts.length + 1)

omit [Fintype ι] in
theorem put_goesOn (s : Pool ι α) (i : Option ι) (hp : p ≠ .outside) :
    s.thread none ≠ .outside → (s.put i p).thread none ≠ .outside := by
  intro hinside
  by_cases hi : none = i
  · subst hi
    rwa [put_self]
  · rwa [put_of_ne s hi]

omit [Fintype ι] in
theorem enter_returns (hquit : s.q.fQuit = false) (i : Option ι) :
    s.Returns (s.enter nBatchSize i) := by
  rcases enter_cases hquit nBatchSize i with ⟨rfl, -, -, heq⟩ | ⟨-, -, heq⟩ | ⟨-, heq⟩
  · rw [heq]
    exact .returned (put_self s none .outside) rfl List.length_append
  · rw [heq]
    exact .goesOn rfl (put_goesOn (p := .waiting) s i nofun)
  · rw [heq]
    exact .goesOn rfl (put_goesOn (p := .running ..) s i nofun)

omit [DecidableEq ι] [Fintype ι] in
theorem Returns.after (h : Returns s₁ s') (hverdicts : s₁.verdicts = s.verdicts)
    (hinside : s.thread none ≠ .outside → s₁.thread none ≠ .outside) : Returns s s' := by
  cases h with
  | goesOn verdicts inside => exact .goesOn (verdicts.trans hverdicts) fun h => inside (hinside h)
  | returned master added verdicts => exact .returned master added (hverdicts ▸ verdicts)

theorem Steps.returns (haccount : s.Account ok) (hstep : Steps nBatchSize ok s s') :
    s.Returns s' := by
  cases hstep with
  | begun hi => exact .goesOn rfl (put_goesOn s _ nofun)
  | added vChecks picked _ =>
    obtain ⟨thread, heq, hnone, -⟩ := add_spec vChecks picked s
    rw [heq]
    exact .goesOn rfl fun hinside hout => hinside (hnone.symm.trans hout)
  | @locked i nNow fOk hi =>
    refine (enter_returns (haccount.cleanUp hi).fQuit i).after ?_ fun hinside hout => ?_
    · rw [cleanUp_eq]
    · have hstay := cleanUp_stays s i none nNow fOk
      rw [hout] at hstay
      exact put_goesOn (p := .checking) s i nofun hinside (hstay.eq nofun)
  | woken hi => exact .goesOn rfl (put_goesOn s _ nofun)
  | @resumed i hi =>
    exact (enter_returns (haccount.resume hi).fQuit i).after rfl (put_goesOn s i nofun)
  | checked hi =>
    unfold Pool.check
    split
    · exact .goesOn rfl (put_goesOn s _ nofun)
    · exact .goesOn rfl (put_goesOn s _ nofun)

def work (s : Pool ι α) : Nat := 3 * s.q.queue.length + total Place.work s.thread

theorem enter_work (hquit : s.q.fQuit = false) (hi : s.thread i = .checking) :
    (s.enter nBatchSize i).work < s.work := by
  have hput p : total Place.work (s.put i p).thread + 1 = total Place.work s.thread + p.work := by
    have htotal := total_put Place.work s i p
    rwa [hi] at htotal
  rcases enter_cases hquit nBatchSize i with ⟨rfl, -, -, heq⟩ | ⟨-, -, heq⟩ | ⟨hne, heq⟩
  · have houtside := hput .outside
    rw [heq]
    simp only [work, Place.work] at houtside ⊢
    omega
  · have hwaiting := hput .waiting
    rw [heq]
    simp only [work, Place.work] at hwaiting ⊢
    omega
  · obtain ⟨hpos, hle⟩ := batchSize_bounds nBatchSize hne
    have hrunning := hput (.running (s.q.queue.reverse.take (s.q.batchSize nBatchSize))
      (s.q.batchSize nBatchSize) s.q.fAllOk)
    rw [heq]
    simp only [work, Place.work, List.length_take, List.length_reverse] at hrunning ⊢
    omega

omit [Fintype ι] in
theorem cleanUp_queue (s : Pool ι α) (i : Option ι) (nNow : Nat) (fOk : Bool) :
    (s.cleanUp i nNow fOk).q.queue = s.q.queue := by
  rw [cleanUp_eq]
  unfold CCheckQueue.cleanUp
  split <;> rfl

theorem cleanUp_work (hi : s.thread i = .running [] nNow fOk) :
    (s.cleanUp i nNow fOk).work ≤ s.work := by
  have hqueue := cleanUp_queue s i nNow fOk
  unfold work
  rw [hqueue]
  refine Nat.add_le_add_left ?_ _
  have hbefore : (Place.running ([] : List α) nNow fOk).work = 2 := rfl
  have hafter : (Place.checking : Place α).work = 1 := rfl
  have hplain := total_put Place.work s i .checking
  rw [hi, hbefore, hafter] at hplain
  unfold Pool.cleanUp
  dsimp only
  split
  · rename_i hnotify
    have hworker : i ≠ none := by
      rintro rfl
      unfold CCheckQueue.cleanUp at hnotify
      split at hnotify <;> simp at hnotify
    have hmaster := total_put Place.work s none (s.thread none).notify
    have hboth := total_put Place.work (s.put none (s.thread none).notify) i .checking
    rw [put_of_ne _ hworker, hi, hbefore, hafter] at hboth
    have hone := (s.thread none).work_notify_le
    simp only [put] at hmaster hboth ⊢
    omega
  · simp only [put] at hplain ⊢
    omega

theorem check_work (hi : s.thread i = .running (c :: rest) nNow fOk) :
    (s.check ok i c rest nNow fOk).work < s.work := by
  have hput b : total Place.work (s.put i (.running rest nNow b)).thread + (rest.length + 3) =
      total Place.work s.thread + (rest.length + 2) := by
    have htotal := total_put Place.work s i (.running rest nNow b)
    rwa [hi] at htotal
  unfold Pool.check
  split
  · have hrest := hput (ok c)
    simp only [work, put] at hrest ⊢
    omega
  · have hrest := hput fOk
    simp only [work, put] at hrest ⊢
    omega

structure Inv (ok : α → Bool) (s : Pool ι α) : Prop where
  account : s.Account ok
  masterWaits : s.MasterWaits
  unlocked : s.Unlocked

omit [DecidableEq ι] in
theorem init_inv (ok : α → Bool) : (init : Pool ι α).Inv ok :=
  ⟨init_account ok, nofun, fun _ => nofun⟩

theorem Inv.next (h : s.Inv ok) (hstep : step nBatchSize ok a s = some s') : s'.Inv ok :=
  have hsteps := step_steps hstep
  ⟨h.account.steps hsteps, h.masterWaits.steps h.account hsteps, h.unlocked.steps h.account hsteps⟩

omit [DecidableEq ι] in
theorem Inv.ready (h : s.Inv ok) (hmaster : s.thread none = .outside) (hadded : s.added = []) :
    s.Ready := by
  have htodo := h.account.fresh hadded
  have hqueue : s.q.queue = [] := by
    have hsum := h.account.nTodo
    rw [← List.length_eq_zero_iff]
    omega
  have hexecuted : s.executed = [] := by
    have hconserved := h.account.conserved
    rw [hadded, Multiset.coe_nil, add_eq_zero, add_eq_zero] at hconserved
    exact (Multiset.coe_eq_zero _).mp hconserved.1.2
  have hok : s.q.fAllOk = true := (h.account.fAllOk.mpr (by simp [hexecuted])).1
  exact ⟨hmaster, hqueue, htodo, hok, fun i => (h.account.quiet htodo i).1⟩

theorem Inv.advances (h : s.Inv ok) (hout : s.thread i ≠ .outside) (hwait : s.thread i ≠ .waiting) :
    ∃ a s', step nBatchSize ok a s = some s' ∧ s'.work < s.work := by
  cases hi : s.thread i with
  | outside => exact absurd hi hout
  | waiting => exact absurd hi hwait
  | checking => exact absurd hi (h.unlocked i)
  | notified =>
    refine ⟨.wake i, (s.resume i).enter nBatchSize i, by simp [Pool.step, hi], ?_⟩
    have hresume : (s.resume i).work = s.work := by
      have htotal := total_put Place.work s i .checking
      rw [hi] at htotal
      simp only [work, resume, put, Place.work] at htotal ⊢
      omega
    rw [← hresume]
    exact enter_work (h.account.resume hi).fQuit (put_self ..)
  | running vChecks nNow fOk =>
    cases vChecks with
    | nil =>
      refine ⟨.lock i, (s.cleanUp i nNow fOk).enter nBatchSize i, by simp [Pool.step, hi], ?_⟩
      exact Nat.lt_of_lt_of_le (enter_work (h.account.cleanUp hi).fQuit (put_self ..))
        (cleanUp_work hi)
    | cons c rest =>
      exact ⟨.check i, s.check ok i c rest nNow fOk, by simp [Pool.step, hi], check_work hi⟩

omit [DecidableEq ι] in
theorem Account.exists_running (h : s.Account ok) (hqueue : s.q.queue = []) (htodo : s.q.nTodo ≠ 0) :
    ∃ i vChecks nNow fOk, s.thread i = .running vChecks nNow fOk := by
  by_contra hnone
  refine htodo ?_
  have hshares : total Place.nNow s.thread = 0 := by
    rw [Interleaving.total_eq_zero]
    intro i
    cases hi : s.thread i with
    | running vChecks nNow fOk => exact absurd ⟨i, vChecks, nNow, fOk, hi⟩ hnone
    | _ => rfl
  rw [h.nTodo, hqueue, hshares]
  rfl

theorem Inv.progress (h : s.Inv ok) (hmaster : s.thread none ≠ .outside) (nBatchSize : Nat) :
    ∃ a s', step nBatchSize ok a s = some s' ∧ s'.work < s.work := by
  by_cases hwait : s.thread none = .waiting
  · obtain ⟨hqueue, htodo⟩ := h.masterWaits hwait
    obtain ⟨i, vChecks, nNow, fOk, hi⟩ := h.account.exists_running hqueue htodo
    exact h.advances (i := i) (by simp [hi]) (by simp [hi])
  · exact h.advances hmaster hwait

theorem Inv.wait_returns (h : s.Inv ok) (hmaster : s.thread none ≠ .outside) (nBatchSize : Nat) :
    ∃ labels s', run (Pool.step nBatchSize ok) labels s = some s' ∧
      s'.verdicts.length = s.verdicts.length + 1 := by
  refine Interleaving.run_reaches work
    (I := fun s' => s'.Inv ok ∧ ((s'.thread none ≠ .outside ∧ s'.verdicts = s.verdicts) ∨
      s'.verdicts.length = s.verdicts.length + 1)) ?_ s ⟨h, .inl ⟨hmaster, rfl⟩⟩
  rintro s₁ ⟨hs₁, ⟨hinside, hverdicts⟩ | hdone⟩
  · obtain ⟨a, s₂, hstep, hlt⟩ := hs₁.progress hinside nBatchSize
    refine .inr ⟨a, s₂, hstep, ⟨hs₁.next hstep, ?_⟩, hlt⟩
    cases (step_steps hstep).returns hs₁.account with
    | goesOn verdicts inside => exact .inl ⟨inside hinside, verdicts.trans hverdicts⟩
    | returned _ _ verdicts => exact .inr (hverdicts ▸ verdicts)
  · exact .inl hdone

end Pool

open Pool in
/-- Along every interleaving `Wait` returns what the checks return one by one. No check is
executed twice, a positive verdict means that all were executed, the queue is ready after
each return, and the threads never wait for each other. -/
theorem wait_sequential [DecidableEq ι] [Fintype ι] (nBatchSize : Nat) (ok : α → Bool)
    (labels : List (Action ι α)) (s : Pool ι α)
    (h : run (Pool.step nBatchSize ok) labels init = some s) :
    (∀ v ∈ s.verdicts, v.Right ok) ∧
    (s.executed : Multiset α) ≤ s.added ∧
    (∀ a s', Pool.step nBatchSize ok a s = some s' → s'.verdicts ≠ s.verdicts → s'.Ready) ∧
    ¬ (0 < s.q.nTodo ∧ ∀ i, s.thread i = .waiting) ∧
    ¬ (s.q.nTodo = 0 ∧ s.thread none = .waiting) ∧
    (s.thread none ≠ .outside → ∃ rest s', run (Pool.step nBatchSize ok) rest s = some s' ∧
      s'.verdicts.length = s.verdicts.length + 1) := by
  have hinv : s.Inv ok := Interleaving.run_preserves (fun hs hstep => hs.next hstep) (init_inv ok) h
  refine ⟨hinv.account.verdicts, ?_, fun a s' hstep hne => ?_, fun ⟨hpos, hall⟩ => ?_,
    fun ⟨hzero, hwait⟩ => (hinv.masterWaits hwait).2 hzero, fun hmaster =>
    hinv.wait_returns hmaster _⟩
  · rw [← hinv.account.conserved]
    exact (Multiset.le_add_left _ _).trans (Multiset.le_add_right _ _)
  · cases (step_steps hstep).returns hinv.account with
    | goesOn verdicts _ => exact absurd verdicts hne
    | returned master added _ => exact (hinv.next hstep).ready master added
  · obtain ⟨hqueue, htodo⟩ := hinv.masterWaits (hall none)
    obtain ⟨i, vChecks, nNow, fOk, hi⟩ := hinv.account.exists_running hqueue htodo
    rw [hall i] at hi
    cases hi

/-- A worker and the master share two checks, and the worker reports the last one. -/
theorem wait_sequential_pair :
    let labels : List (Action (Fin 1) Bool) :=
  [.thread 0, .lock (some 0), .add [true, false] none, .wait,
      .wake (some 0), .lock none, .check none, .check (some 0), .lock none,
      .lock (some 0), .wake none]
    ∃ s : Pool (Fin 1) Bool, run (Pool.step 2 id) labels .init = some s ∧
      s.verdicts = [⟨[true, false], [true, false], false⟩] ∧ ∀ v ∈ s.verdicts, v.Right id := by
  intro labels
  have hrun : (run (Pool.step 2 id) labels .init).map Pool.verdicts =
      some [⟨[true, false], [true, false], false⟩] := by decide
  obtain ⟨s, hs, hverdicts⟩ := Option.map_eq_some_iff.mp hrun
  exact ⟨s, hs, hverdicts, (wait_sequential 2 id labels s hs).1⟩

end CCheckQueue

end OurChain
