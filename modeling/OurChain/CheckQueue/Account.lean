import OurChain.CheckQueue

/-!
# The account of a check queue

Every check that was added is in the queue, in the batch of a thread, executed or passed
over; the counters and `fAllOk` follow from where the threads are. A critical section
changes the share of one thread, and `Account.turn` says once what that does to the
totals.
-/

namespace OurChain

open Function List
open Interleaving (total)

namespace CCheckQueue

variable {α ι : Type}

namespace Place

def nNow : Place α → Nat
  | running _ nNow _ => nNow
  | _ => 0

def vChecks : Place α → Multiset α
  | running vChecks _ _ => vChecks
  | _ => 0

def fOk : Place α → Bool
  | running _ _ fOk => fOk
  | _ => true

def counted : Place α → Nat
  | outside => 0
  | running _ nNow _ => if nNow = 0 then 0 else 1
  | _ => 1

def idle : Place α → Nat
  | waiting | notified => 1
  | _ => 0

/-- A bound for the steps to the next wait, with what is in the batch. -/
def work : Place α → Nat
  | running vChecks _ _ => vChecks.length + 2
  | checking | notified => 1
  | outside | waiting => 0

theorem work_notify_le (p : Place α) : p.notify.work ≤ p.work + 1 := by
  cases p <;> simp [notify, work]

/-- A batch is not longer than what is reported for it, and nothing has failed before the
first one. -/
def WellFormed : Place α → Prop
  | running vChecks nNow fOk => vChecks.length ≤ nNow ∧ (nNow = 0 → fOk = true)
  | _ => True

structure SameShare (p p' : Place α) : Prop where
  nNow : p'.nNow = p.nNow
  vChecks : p'.vChecks = p.vChecks
  fOk : p'.fOk = p.fOk
  counted : p'.counted = p.counted
  idle : p'.idle = p.idle
  wellFormed : p.WellFormed → p'.WellFormed

theorem SameShare.refl (p : Place α) : SameShare p p := ⟨rfl, rfl, rfl, rfl, rfl, id⟩

theorem sameShare_notify (p : Place α) : SameShare p p.notify := by
  cases p <;> exact ⟨rfl, rfl, rfl, rfl, rfl, id⟩

def Stays (p p' : Place α) : Prop := p' = p ∨ p' = p.notify

theorem Stays.sameShare (h : Stays p p') : SameShare p p' := by
  rcases h with rfl | rfl
  · exact .refl _
  · exact sameShare_notify _

theorem Stays.eq (h : Stays p p') (hne : p' ≠ .notified) : p = p' := by
  rcases h with rfl | rfl
  · rfl
  · cases p <;> simp [notify] at hne ⊢

theorem WellFormed.idle_batch {p : Place α} (h : p.WellFormed) (hnone : p.nNow = 0) :
    p.vChecks = 0 ∧ p.fOk = true := by
  cases p with
  | running v n b =>
    obtain ⟨hlen, hok⟩ := h
    have hn : n = 0 := hnone
    rw [hn, Nat.le_zero, length_eq_zero_iff] at hlen
    exact ⟨congrArg _ hlen, hok hn⟩
  | _ => exact ⟨rfl, rfl⟩

end Place

/-- The verdict is that of all checks, no check was executed more often than it was
added, and a positive verdict rests on all of them. -/
structure Verdict.Right (ok : α → Bool) (v : Verdict α) : Prop where
  verdict : v.fRet = true ↔ ∀ c ∈ v.added, ok c = true
  once : (v.executed : Multiset α) ≤ v.added
  complete : v.fRet = true → v.executed.Perm v.added

namespace Pool

variable [Fintype ι] {nBatchSize : Nat} {ok : α → Bool} {s s' : Pool ι α}

structure Account (ok : α → Bool) (s : Pool ι α) : Prop where
  nTodo : s.q.nTodo = s.q.queue.length + total Place.nNow s.thread
  nTotal : s.q.nTotal = total Place.counted s.thread
  nIdle : s.q.nIdle = total Place.idle s.thread
  wellFormed : ∀ i, (s.thread i).WellFormed
  conserved : (s.q.queue : Multiset α) + total Place.vChecks s.thread + s.executed +
    s.skipped = s.added
  fAllOk : (s.q.fAllOk = true ∧ ∀ i, (s.thread i).fOk = true) ↔ ∀ c ∈ s.executed, ok c = true
  skipped : (∀ c ∈ s.executed, ok c = true) → s.skipped = []
  fQuit : s.q.fQuit = false
  fresh : s.added = [] → s.q.nTodo = 0
  verdicts : ∀ v ∈ s.verdicts, v.Right ok

theorem init_account (ok : α → Bool) : (init : Pool ι α).Account ok where
  nTodo := by simp [init, empty, total, Place.nNow]
  nTotal := by simp [init, empty, total, Place.counted]
  nIdle := by simp [init, empty, total, Place.idle]
  wellFormed _ := trivial
  conserved := by simp [init, empty, total, Place.vChecks]
  fAllOk := by simp [init, empty, Place.fOk]
  skipped _ := rfl
  fQuit := rfl
  fresh _ := rfl
  verdicts := by simp [init]

theorem Account.moved (h : s.Account ok) {thread : Option ι → Place α}
    (hsame : ∀ i, (s.thread i).SameShare (thread i)) : Account ok { s with thread } where
  nTodo := by rw [h.nTodo, Interleaving.total_congr fun i => (hsame i).nNow]
  nTotal := by rw [h.nTotal, Interleaving.total_congr fun i => (hsame i).counted]
  nIdle := by rw [h.nIdle, Interleaving.total_congr fun i => (hsame i).idle]
  wellFormed i := (hsame i).wellFormed (h.wellFormed i)
  conserved := by rw [← h.conserved, Interleaving.total_congr fun i => (hsame i).vChecks]
  fAllOk := by
    rw [← h.fAllOk]
    exact and_congr_right fun _ => forall_congr' fun i => by rw [(hsame i).fOk]
  skipped := h.skipped
  fQuit := h.fQuit
  fresh := h.fresh
  verdicts := h.verdicts

variable [DecidableEq ι]

omit [Fintype ι] in
@[simp] theorem put_self (s : Pool ι α) (i : Option ι) (p : Place α) : (s.put i p).thread i = p :=
  update_self ..

omit [Fintype ι] in
theorem put_of_ne (s : Pool ι α) {i j : Option ι} (hj : j ≠ i) (p : Place α) :
    (s.put i p).thread j = s.thread j :=
  update_of_ne hj ..

theorem total_put {M : Type} [AddCommMonoid M] (f : Place α → M) (s : Pool ι α) (i : Option ι)
    (p : Place α) : total f (s.put i p).thread + f (s.thread i) = total f s.thread + f p :=
  Interleaving.total_update f s.thread i p

omit [Fintype ι] in
theorem forall_put {P : Place α → Prop} {i : Option ι} {p : Place α} :
    (∀ j, P ((s.put i p).thread j)) ↔ P p ∧ ∀ j, j ≠ i → P (s.thread j) :=
  forall_update_iff s.thread fun _ => P

theorem Account.put (h : s.Account ok) (hsame : (s.thread i).SameShare p) :
    (s.put i p).Account ok := by
  refine h.moved fun j => ?_
  by_cases hj : j = i
  · subst hj
    rwa [update_self]
  · rw [update_of_ne hj]
    exact .refl _

/-- What a thread does to its own share, with the checks that it executes and those that
it passes over. -/
structure Turn (ok : α → Bool) (q q' : CCheckQueue α) (p p' : Place α) (new gone : List α) :
    Prop where
  nTodo : q'.nTodo + q.queue.length + p.nNow = q.nTodo + q'.queue.length + p'.nNow
  finished : q.nTodo = 0 → q'.nTodo = 0
  nTotal : q'.nTotal + p.counted = q.nTotal + p'.counted
  nIdle : q'.nIdle + p.idle = q.nIdle + p'.idle
  wellFormed : p'.WellFormed
  conserved : (q'.queue : Multiset α) + p'.vChecks + new + gone = q.queue + p.vChecks
  fAllOk : (q'.fAllOk && p'.fOk) = (q.fAllOk && p.fOk && new.all ok)
  gone : gone ≠ [] → p.fOk = false
  fQuit : q'.fQuit = q.fQuit

theorem Account.turn (h : s.Account ok) {i : Option ι}
    (hturn : Turn ok s.q q' (s.thread i) p' new gone) :
    Account ok { s.put i p' with
      q := q', executed := s.executed ++ new, skipped := s.skipped ++ gone } := by
  have hall : (s.q.fAllOk = true ∧ ∀ j, (s.thread j).fOk = true) ↔
      (s.q.fAllOk && (s.thread i).fOk) = true ∧ ∀ j, j ≠ i → (s.thread j).fOk = true := by
    rw [Bool.and_eq_true, and_assoc]
    refine and_congr_right fun _ => ⟨fun hj => ⟨hj i, fun j _ => hj j⟩, fun hj j => ?_⟩
    by_cases hji : j = i
    · exact hji ▸ hj.1
    · exact hj.2 j hji
  have hexecuted : (∀ c ∈ s.executed ++ new, ok c = true) ↔
      (∀ c ∈ s.executed, ok c = true) ∧ new.all ok = true := by
    rw [forall_mem_append, List.all_eq_true]
  have hnNow := total_put Place.nNow s i p'
  have hcounted := total_put Place.counted s i p'
  have hidle := total_put Place.idle s i p'
  have hvChecks := total_put Place.vChecks s i p'
  refine ⟨?_, ?_, ?_, ?_, ?_, ?_, ?_, hturn.fQuit.trans h.fQuit, fun hadded => ?_, h.verdicts⟩
  · have hbefore := h.nTodo
    have hchange := hturn.nTodo
    dsimp only
    omega
  · have hbefore := h.nTotal
    have hchange := hturn.nTotal
    dsimp only
    omega
  · have hbefore := h.nIdle
    have hchange := hturn.nIdle
    dsimp only
    omega
  · exact forall_put.mpr ⟨hturn.wellFormed, fun j _ => h.wellFormed j⟩
  · refine add_right_cancel (b := (s.thread i).vChecks) ?_
    rw [← Multiset.coe_add, ← Multiset.coe_add]
    calc (q'.queue : Multiset α) + total Place.vChecks (s.put i p').thread + (s.executed + new) +
          (s.skipped + gone) + (s.thread i).vChecks
        = q'.queue + (total Place.vChecks (s.put i p').thread + (s.thread i).vChecks) + s.executed +
            s.skipped + new + gone := by abel
      _ = (q'.queue + p'.vChecks + new + gone) + total Place.vChecks s.thread + s.executed +
            s.skipped := by rw [hvChecks]; abel
      _ = (s.q.queue + total Place.vChecks s.thread + s.executed + s.skipped) +
            (s.thread i).vChecks := by rw [hturn.conserved]; abel
      _ = s.added + (s.thread i).vChecks := by rw [h.conserved]
  · rw [forall_put (P := fun p => p.fOk = true), ← and_assoc, ← Bool.and_eq_true,
      hturn.fAllOk, hexecuted, ← h.fAllOk, hall, Bool.and_eq_true, and_right_comm]
  · rw [hexecuted]
    rintro ⟨hok, -⟩
    have hgone : gone = [] := by
      by_contra hne
      have hfailed := hturn.gone hne
      simp [(h.fAllOk.mpr hok).2 i] at hfailed
    rw [h.skipped hok, hgone, append_nil]
  · exact hturn.finished (h.fresh hadded)

omit [DecidableEq ι] in
theorem cleanUp_turn (h : s.Account ok) {i : Option ι} (hi : s.thread i = .running [] nNow fOk)
    (fMaster : Bool) : Turn ok s.q (s.q.cleanUp fMaster nNow fOk).2 (s.thread i) .checking [] [] := by
  have hle : nNow ≤ s.q.nTodo := by
    have hshare := Interleaving.le_total Place.nNow s.thread i
    rw [hi] at hshare
    have htodo := h.nTodo
    simp only [Place.nNow] at hshare
    omega
  have hwf := h.wellFormed i
  rw [hi] at hwf ⊢
  unfold CCheckQueue.cleanUp
  split
  · rename_i hpos
    refine ⟨?_, ?_, ?_, rfl, trivial, by simp [Place.vChecks], ?_, by simp, rfl⟩
    · simp only [Place.nNow]
      omega
    · intro hzero
      simp [hzero]
    · simp [Place.counted, hpos]
    · simp [Place.fOk]
  · rename_i hfirst
    obtain rfl : nNow = 0 := of_not_not hfirst
    refine ⟨rfl, id, ?_, rfl, trivial, by simp [Place.vChecks], ?_, by simp, rfl⟩
    · simp [Place.counted]
    · simp [Place.fOk, hwf.2 rfl]

omit [Fintype ι] in
theorem cleanUp_stays (s : Pool ι α) (i j : Option ι) (nNow : Nat) (fOk : Bool) :
    ((s.put i .checking).thread j).Stays ((s.cleanUp i nNow fOk).thread j) := by
  unfold Pool.cleanUp put
  dsimp only
  by_cases hj : j = i
  · subst hj
    rw [update_self, update_self]
    exact .inl rfl
  · rw [update_of_ne hj, update_of_ne hj]
    split
    · dsimp only
      by_cases hmaster : j = none
      · subst hmaster
        rw [update_self]
        exact .inr rfl
      · rw [update_of_ne hmaster]
        exact .inl rfl
    · exact .inl rfl

omit [Fintype ι] in
theorem cleanUp_eq (s : Pool ι α) (i : Option ι) (nNow : Nat) (fOk : Bool) :
    s.cleanUp i nNow fOk =
      { s with
        q := (s.q.cleanUp i.isNone nNow fOk).2
        thread := (s.cleanUp i nNow fOk).thread } := by
  unfold Pool.cleanUp put
  dsimp only
  split <;> rfl

theorem Account.cleanUp (h : s.Account ok) {i : Option ι} (hi : s.thread i = .running [] nNow fOk) :
    (s.cleanUp i nNow fOk).Account ok := by
  have hturn := h.turn (cleanUp_turn h hi i.isNone)
  simp only [append_nil] at hturn
  rw [cleanUp_eq]
  exact hturn.moved fun j => (cleanUp_stays s i j nNow fOk).sameShare

omit [DecidableEq ι] in
theorem resume_turn (h : s.Account ok) {i : Option ι} (hi : s.thread i = .notified) :
    Turn ok s.q { s.q with nIdle := s.q.nIdle - 1 } (s.thread i) .checking [] [] := by
  have hshare := Interleaving.le_total Place.idle s.thread i
  have hidle := h.nIdle
  rw [hi] at hshare ⊢
  refine ⟨rfl, id, rfl, ?_, trivial, by simp [Place.vChecks], by simp [Place.fOk], by simp, rfl⟩
  simp only [Place.idle] at hshare ⊢
  omega

theorem Account.resume (h : s.Account ok) {i : Option ι} (hi : s.thread i = .notified) :
    (s.resume i).Account ok := by
  have hturn := h.turn (resume_turn h hi)
  simp only [append_nil] at hturn
  exact hturn

theorem Account.check (h : s.Account ok) {i : Option ι}
    (hi : s.thread i = .running (c :: rest) nNow fOk) :
    (s.check ok i c rest nNow fOk).Account ok := by
  have hwf := h.wellFormed i
  rw [hi] at hwf
  have hlen : rest.length ≤ nNow := Nat.le_of_succ_le hwf.1
  have hpos : nNow ≠ 0 := by
    rintro rfl
    cases hwf.1
  have htaken : (s.q.queue : Multiset α) + rest + [c] = s.q.queue + (c :: rest : List α) := by
    rw [Multiset.coe_singleton, ← Multiset.cons_coe, ← Multiset.singleton_add]
    abel
  unfold Pool.check
  split
  · rename_i hok
    have hturn : Turn ok s.q s.q (s.thread i) (.running rest nNow (ok c)) [c] [] := by
      rw [hi]
      refine ⟨rfl, id, rfl, rfl, ⟨hlen, fun hzero => absurd hzero hpos⟩, ?_, ?_, by simp, rfl⟩
      · simpa [Place.vChecks] using htaken
      · simp [Place.fOk, hok]
    have haccount := h.turn hturn
    simp only [append_nil] at haccount
    exact haccount
  · rename_i hfailed
    have hturn : Turn ok s.q s.q (s.thread i) (.running rest nNow fOk) [] [c] := by
      rw [hi]
      refine ⟨rfl, id, rfl, rfl, ⟨hlen, fun hzero => absurd hzero hpos⟩, ?_, ?_, ?_, rfl⟩
      · simpa [Place.vChecks] using htaken
      · simp [Place.fOk]
      · intro _
        simpa [Place.fOk] using hfailed
    have haccount := h.turn hturn
    simp only [append_nil] at haccount
    exact haccount

omit [DecidableEq ι] [Fintype ι] in
theorem batchSize_bounds (nBatchSize : Nat) {q : CCheckQueue α} (hne : q.queue ≠ []) :
    1 ≤ q.batchSize nBatchSize ∧ q.batchSize nBatchSize ≤ q.queue.length := by
  have hpos := length_pos_iff.mpr hne
  have hdiv : q.queue.length / (q.nTotal + q.nIdle + 1) ≤ q.queue.length := Nat.div_le_self ..
  unfold batchSize
  omega

omit [DecidableEq ι] [Fintype ι] in
theorem batch_turn (ok : α → Bool) (nBatchSize : Nat) {q : CCheckQueue α} (hne : q.queue ≠ []) :
    let nNow := q.batchSize nBatchSize
    Turn ok q { q with queue := q.queue.take (q.queue.length - nNow) } .checking
      (.running (q.queue.reverse.take nNow) nNow q.fAllOk) [] [] := by
  obtain ⟨hpos, hle⟩ := batchSize_bounds nBatchSize hne
  intro nNow
  have hne : nNow ≠ 0 := Nat.ne_zero_of_lt hpos
  refine ⟨?_, id, ?_, rfl, ⟨?_, fun hzero => absurd hzero hne⟩, ?_, ?_, by simp, rfl⟩
  · simp only [Place.nNow, length_take]
    omega
  · simp [Place.counted, hne]
  · exact length_take_le ..
  · have hsplit : q.queue.take (q.queue.length - nNow) ++ q.queue.drop
      (q.queue.length - nNow) = q.queue :=
      take_append_drop ..
    simp only [Place.vChecks, take_reverse, Multiset.coe_reverse, Multiset.coe_nil, add_zero,
      Multiset.coe_add, hsplit]
  · simp [Place.fOk]

section
omit [DecidableEq ι]
variable (h : s.Account ok) (htodo : s.q.nTodo = 0)
include h htodo

theorem Account.quiet (i : Option ι) : (s.thread i).vChecks = 0 ∧ (s.thread i).fOk = true := by
  refine (h.wellFormed i).idle_batch ((Interleaving.total_eq_zero Place.nNow s.thread).mp ?_ i)
  have hsum := h.nTodo
  omega

theorem Account.batches_eq_zero :
    total Place.vChecks s.thread = 0 := Finset.sum_eq_zero fun i _ => (h.quiet htodo i).1

theorem Account.right (hqueue : s.q.queue = []) :
    Verdict.Right ok ⟨s.added, s.executed, s.q.fAllOk⟩ := by
  have hadded : (s.executed : Multiset α) + s.skipped = s.added := by
    have hconserved := h.conserved
    rwa [hqueue, h.batches_eq_zero htodo, Multiset.coe_nil, zero_add, zero_add] at hconserved
  have hverdict : s.q.fAllOk = true ↔ ∀ c ∈ s.executed, ok c = true := by
    rw [← h.fAllOk]
    exact (and_iff_left fun i => (h.quiet htodo i).2).symm
  have hcomplete : s.q.fAllOk = true → s.executed.Perm s.added := by
    intro hok
    rw [h.skipped (hverdict.mp hok), Multiset.coe_nil, add_zero] at hadded
    exact Multiset.coe_eq_coe.mp hadded
  have honce : (s.executed : Multiset α) ≤ s.added := hadded ▸ Multiset.le_add_right _ _
  refine ⟨⟨fun hok c hc => ?_, fun hall => ?_⟩, honce, hcomplete⟩
  · exact hverdict.mp hok c ((hcomplete hok).mem_iff.mpr hc)
  · exact hverdict.mpr fun c hc => hall c (Multiset.mem_coe.mp (Multiset.mem_of_le honce hc))

theorem Account.closed (hqueue : s.q.queue = []) :
    Account ok { s with
      q := { s.q with fAllOk := true }
      added := [], executed := [], skipped := []
      verdicts := s.verdicts ++ [⟨s.added, s.executed, s.q.fAllOk⟩] } where
  nTodo := h.nTodo
  nTotal := h.nTotal
  nIdle := h.nIdle
  wellFormed := h.wellFormed
  conserved := by simp [hqueue, h.batches_eq_zero htodo]
  fAllOk := iff_of_true ⟨rfl, fun i => (h.quiet htodo i).2⟩ (by simp)
  skipped _ := rfl
  fQuit := h.fQuit
  fresh _ := htodo
  verdicts := by
    rw [forall_mem_append]
    exact ⟨h.verdicts, forall_mem_singleton.mpr (h.right htodo hqueue)⟩

end

omit [Fintype ι] in
theorem enter_cases (hquit : s.q.fQuit = false) (nBatchSize : Nat) (i : Option ι) :
    (i = none ∧ s.q.queue = [] ∧ s.q.nTodo = 0 ∧
      s.enter nBatchSize i =
        { s.put none .outside with
          q := { s.q with nTotal := s.q.nTotal - 1, fAllOk := true }
          added := [], executed := [], skipped := []
          verdicts := s.verdicts ++ [⟨s.added, s.executed, s.q.fAllOk⟩] }) ∨
    (s.q.queue = [] ∧ (i = none → s.q.nTodo ≠ 0) ∧
      s.enter nBatchSize i = { s.put i .waiting with q := { s.q with nIdle := s.q.nIdle + 1 } }) ∨
    (s.q.queue ≠ [] ∧
      s.enter nBatchSize i =
        { s.put i (.running (s.q.queue.reverse.take (s.q.batchSize nBatchSize))
            (s.q.batchSize nBatchSize) s.q.fAllOk) with
          q := { s.q with
            queue := s.q.queue.take (s.q.queue.length - s.q.batchSize nBatchSize) } }) := by
  by_cases hqueue : s.q.queue = []
  · have hempty : s.q.queue.isEmpty = true := List.isEmpty_iff.mpr hqueue
    by_cases hdone : i = none ∧ s.q.nTodo = 0
    · obtain ⟨rfl, htodo⟩ := hdone
      have hq : s.q.enter nBatchSize true =
          (.returned s.q.fAllOk, { s.q with nTotal := s.q.nTotal - 1, fAllOk := true }) := by
        rw [CCheckQueue.enter, if_pos hempty, if_pos (by simp [htodo])]
        rfl
      refine .inl ⟨rfl, hqueue, htodo, ?_⟩
      simp only [Pool.enter, Option.isNone_none, hq]
      rfl
    · have hq : s.q.enter nBatchSize i.isNone = (.waits, { s.q with nIdle := s.q.nIdle + 1 }) := by
        rw [CCheckQueue.enter, if_pos hempty, if_neg (by simpa [hquit] using hdone)]
      refine .inr (.inl ⟨hqueue, fun hi htodo => hdone ⟨hi, htodo⟩, ?_⟩)
      simp only [Pool.enter, hq]
      rfl
  · have hq : s.q.enter nBatchSize i.isNone =
        (.batch (s.q.queue.reverse.take (s.q.batchSize nBatchSize))
        (s.q.batchSize nBatchSize) s.q.fAllOk,
          { s.q with queue := s.q.queue.take (s.q.queue.length - s.q.batchSize nBatchSize) }) := by
      rw [CCheckQueue.enter, if_neg (by simpa using hqueue)]
    refine .inr (.inr ⟨hqueue, ?_⟩)
    simp only [Pool.enter, hq]
    rfl

theorem Account.enter (h : s.Account ok) {i : Option ι} (hi : s.thread i = .checking) :
    (s.enter nBatchSize i).Account ok := by
  rcases enter_cases h.fQuit nBatchSize i with
    ⟨rfl, hqueue, htodo, heq⟩ | ⟨hqueue, -, heq⟩ | ⟨hne, heq⟩
  · have hshare := Interleaving.le_total Place.counted s.thread none
    have htotal := h.nTotal
    have hturn : Turn ok s.q { s.q with nTotal := s.q.nTotal - 1 }
      (s.thread none) .outside [] [] := by
      rw [hi] at hshare ⊢
      refine ⟨rfl, id, ?_, rfl, trivial, by simp [Place.vChecks], by simp [Place.fOk], by simp, rfl⟩
      simp only [Place.counted] at hshare ⊢
      omega
    have haccount := h.turn hturn
    simp only [append_nil] at haccount
    rw [heq]
    exact haccount.closed htodo hqueue
  · rw [heq]
    have hturn : Turn ok s.q { s.q with nIdle := s.q.nIdle + 1 } (s.thread i) .waiting [] [] := by
      rw [hi]
      exact ⟨rfl, id, rfl, rfl, trivial, by simp [Place.vChecks], by simp [Place.fOk], by simp, rfl⟩
    have haccount := h.turn hturn
    simp only [append_nil] at haccount
    exact haccount
  · rw [heq]
    have haccount := h.turn (i := i) (hi ▸ batch_turn ok nBatchSize hne)
    simp only [append_nil] at haccount
    exact haccount

omit [Fintype ι] in
theorem notifyWorkers_spec (vChecks : List α) (picked : Option ι) (s : Pool ι α) :
    ∃ thread, s.notifyWorkers vChecks picked = { s with thread } ∧ thread none = s.thread none ∧
      ∀ i, (s.thread i).Stays (thread i) := by
  unfold notifyWorkers
  split
  · cases picked with
    | none => exact ⟨s.thread, rfl, rfl, fun i => .inl rfl⟩
    | some i =>
      refine ⟨_, rfl, update_of_ne (Option.some_ne_none i).symm _ _, fun j => ?_⟩
      by_cases hj : j = some i
      · subst hj
        rw [update_self]
        exact .inr rfl
      · rw [update_of_ne hj]
        exact .inl rfl
  · split
    · refine ⟨_, rfl, rfl, fun i => ?_⟩
      cases i with
      | none => exact .inl rfl
      | some i => exact .inr rfl
    · exact ⟨s.thread, rfl, rfl, fun i => .inl rfl⟩

omit [Fintype ι] in
theorem add_spec (vChecks : List α) (picked : Option ι) (s : Pool ι α) :
    ∃ thread, s.add vChecks picked =
        { s with
          q := { s.q with queue := s.q.queue ++ vChecks, nTodo := s.q.nTodo + vChecks.length }
          added := s.added ++ vChecks
          thread } ∧
      thread none = s.thread none ∧ ∀ i, (s.thread i).Stays (thread i) :=
  notifyWorkers_spec vChecks picked _

theorem Account.add (h : s.Account ok) (vChecks : List α) (picked : Option ι) :
    (s.add vChecks picked).Account ok := by
  have hqueued : Account ok { s with
      q := { s.q with queue := s.q.queue ++ vChecks, nTodo := s.q.nTodo + vChecks.length }
      added := s.added ++ vChecks } := by
    refine ⟨?_, h.nTotal, h.nIdle, h.wellFormed, ?_, h.fAllOk, h.skipped, h.fQuit, ?_, h.verdicts⟩
    · have hbefore := h.nTodo
      simp only [length_append]
      omega
    · simp only [← Multiset.coe_add]
      rw [← h.conserved]
      abel
    · intro hnone
      obtain ⟨hadded, rfl⟩ := append_eq_nil_iff.mp hnone
      exact h.fresh hadded
  obtain ⟨thread, heq, -, hstays⟩ := add_spec vChecks picked s
  rw [heq]
  exact hqueued.moved fun i => (hstays i).sameShare

inductive Steps (nBatchSize : Nat) (ok : α → Bool) (s : Pool ι α) : Pool ι α → Prop
  | begun (hi : s.thread i = .outside) : Steps nBatchSize ok s (s.put i (.running [] 0 true))
  | added (vChecks : List α) (picked : Option ι) (hmaster : s.thread none = .outside) :
      Steps nBatchSize ok s (s.add vChecks picked)
  | locked (hi : s.thread i = .running [] nNow fOk) :
      Steps nBatchSize ok s ((s.cleanUp i nNow fOk).enter nBatchSize i)
  | woken (hi : s.thread i = .waiting) : Steps nBatchSize ok s (s.put i .notified)
  | resumed (hi : s.thread i = .notified) : Steps nBatchSize ok s ((s.resume i).enter nBatchSize i)
  | checked (hi : s.thread i = .running (c :: rest) nNow fOk) :
      Steps nBatchSize ok s (s.check ok i c rest nNow fOk)

theorem step_steps {a : Action ι α} (h : step nBatchSize ok a s = some s') :
    Steps nBatchSize ok s s' := by
  cases a with
  | add vChecks picked =>
    simp only [step] at h
    split at h
    · split at h
      · cases h
      · cases h
        exact .added vChecks picked ‹_›
    · cases h
  | _ =>
    simp only [step] at h
    split at h
    · cases h
      constructor
      assumption
    · cases h

theorem Account.steps (h : s.Account ok) (hstep : Steps nBatchSize ok s s') : s'.Account ok := by
  cases hstep with
  | begun hi => exact h.put (hi ▸ ⟨rfl, rfl, rfl, rfl, rfl, fun _ => ⟨Nat.le_refl 0, fun _ => rfl⟩⟩)
  | added vChecks picked _ => exact h.add vChecks picked
  | locked hi => exact (h.cleanUp hi).enter (put_self ..)
  | woken hi => exact h.put (hi ▸ Place.sameShare_notify .waiting)
  | resumed hi => exact (h.resume hi).enter (put_self ..)
  | checked hi => exact h.check hi

end Pool

end CCheckQueue

end OurChain
