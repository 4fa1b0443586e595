import OurChain.Validation.Candidates

/-!
# Activating the best chain

`ActivateBestChain` moves the tip towards the best candidate, in steps that connect
blocks until the tip has more work than before. What connecting and disconnecting a
block, the disk and the shutdown flag do in one call is left to an oracle. `none`
stands for a failed assertion or exhausted fuel.

The contract observer is called once, at the end of the call; the returns in the
middle of the loop skip it. `Covers` is what makes up for that: one good candidate
that outranks every block below a block that fails.
-/

namespace OurChain

open ChainState List Node Option
open CBlockIndex (haveBit)

inductive ConnectResult
  | ok
  | invalid (corruptionPossible : Bool)
  | error
  deriving DecidableEq

structure Oracle where
  connectTip : BlockPtr → ConnectResult
  disconnectTip : BlockPtr → Bool
  shutdownRequested : Nat → Bool
  flushStateToDisk : Bool
  onChainStateSet : BlockPtr → Bool

inductive StepResult
  | progress
  | invalidFound
  | error

/-- One turn of the loop: a return of the call, or the next `pindexMostWork`. -/
inductive Turn
  | stop (result : Bool) (s : ChainState)
  | again (pindexMostWork : Option BlockPtr) (s : ChainState)

variable (env : ChainEnv) (o : Oracle)

/-- Disconnects the tip until it is the fork. The genesis block has no undo data. -/
def disconnectTo (pindexFork : Option BlockPtr) : BlockPtr → Bool × BlockPtr
  | .root block => (pindexFork = some (.root block), .root block)
  | .child pprev block =>
    if pindexFork = some (.child pprev block) then (true, .child pprev block)
    else if o.disconnectTip (.child pprev block) then disconnectTo pindexFork pprev
    else (false, .child pprev block)

namespace ChainState

/-- `ConnectBlock` writes the undo data and raises the validity. -/
def connected (pindex : BlockPtr) (s : ChainState) : ChainState :=
  { s with
    chainActive := pindex
    nStatus := Function.update s.nStatus pindex
      (raiseValidity BLOCK_VALID_SCRIPTS (s.nStatus pindex ||| BLOCK_HAVE_UNDO)) }

/-- The block gets a mark of failure and is no candidate any more. -/
def markFailed (flag : BitVec 32) (pindex : BlockPtr) (s : ChainState) : ChainState :=
  { s with
    nStatus := Function.update s.nStatus pindex (s.nStatus pindex ||| flag)
    setBlockIndexCandidates := s.setBlockIndexCandidates.filter (· ≠ pindex) }

def invalidBlockFound (pindex : BlockPtr) (s : ChainState) : ChainState :=
  s.markFailed BLOCK_FAILED_VALID pindex

end ChainState

/-- Connects the blocks, lowest first, until the tip has more work than `nOldWork`.
The source cuts the list into batches of 32. -/
def connectBlocks (nOldWork : Uint256) : List BlockPtr → ChainState →
    Option (StepResult × ChainState)
  | [], s => some (.progress, s)
  | pindexConnect :: rest, s =>
    match o.connectTip pindexConnect with
    | .error => some (.error, s)
    | .invalid corruptionPossible =>
      some (.invalidFound, if corruptionPossible then s else s.invalidBlockFound pindexConnect)
    | .ok => do
      let s ← (s.connected pindexConnect).pruneBlockIndexCandidates env
      if nOldWork < nChainWork s.chainActive then some (.progress, s)
      else connectBlocks nOldWork rest s

def activateBestChainStep (pindexMostWork : BlockPtr) (s : ChainState) :
    Option (StepResult × ChainState) :=
  let pindexFork := Node.fork s.chainActive pindexMostWork
  let (ok, tip) := disconnectTo o pindexFork s.chainActive
  if !ok then some (.error, { s with chainActive := tip })
  else
    connectBlocks env o (nChainWork s.chainActive) (pindexMostWork.since pindexFork)
      { s with chainActive := tip }

/-- What follows the loop: the flush and the contract observer. -/
def finish (s : ChainState) : Turn :=
  if !o.flushStateToDisk then .stop false s
  else .stop (o.onChainStateSet s.chainActive) { s with observed := s.chainActive }

/-- `pindexMostWork` is looked up when it is null. -/
def mostWork (pindexMostWork : Option BlockPtr) (s : ChainState) :
    Option (Option BlockPtr × ChainState) :=
  match pindexMostWork with
  | some m => some (some m, s)
  | none => s.findMostWorkChain (s.setBlockIndexCandidates.length + 1)

def turn (i : Nat) (pindexMostWork : Option BlockPtr) (s : ChainState) : Option Turn :=
  if o.shutdownRequested i then some (finish o s)
  else
    match mostWork pindexMostWork s with
    | none => none
    | some (none, s) => some (.stop true s)
    | some (some m, s) =>
      if m = s.chainActive then some (.stop true s)
      else
        match activateBestChainStep env o m s with
        | none => none
        | some (.error, s) => some (.stop false s)
        | some (.invalidFound, s) => some (.again none s)
        | some (.progress, s) => some (if s.chainActive = m then finish o s else .again (some m) s)

/-- `i` counts the turns. -/
def activateBestChain : Nat → Nat → Option BlockPtr → ChainState → Option (Bool × ChainState)
  | 0, _, _, _ => none
  | fuel + 1, i, pindexMostWork, s =>
    match turn env o i pindexMostWork s with
    | none => none
    | some (.stop result s) => some (result, s)
    | some (.again pindexMostWork s) => activateBestChain fuel (i + 1) pindexMostWork s

variable {env o} {t : Tree CBlockHeader}

inductive Connects (env : ChainEnv) (o : Oracle) : ChainState → List BlockPtr → ChainState → Prop
  | nil : Connects env o s [] s
  | cons {s s₁ s' : ChainState} (hok : o.connectTip n = .ok)
      (hprune : (s.connected n).pruneBlockIndexCandidates env = some s₁)
      (hrest : Connects env o s₁ ns s') : Connects env o s (n :: ns) s'

variable {s s' : ChainState}

theorem connectBlocks_cases (h : connectBlocks env o w l s = some (r, s')) :
    ∃ done rest s₁, l = done ++ rest ∧ Connects env o s done s₁ ∧
      match r with
      | .progress => s' = s₁ ∧ (rest = [] ∨ done ≠ [])
      | .error => s' = s₁
      | .invalidFound => ∃ b rest' cp, rest = b :: rest' ∧ o.connectTip b = .invalid cp ∧
          s' = if cp then s₁ else s₁.invalidBlockFound b := by
  induction l generalizing s with
  | nil =>
    cases h
    exact ⟨[], [], _, rfl, .nil, rfl, .inl rfl⟩
  | cons n l ih =>
    rw [connectBlocks] at h
    split at h
    · cases h
      exact ⟨[], _, _, rfl, .nil, rfl⟩
    · rename_i cp hinvalid
      cases h
      exact ⟨[], _, s, rfl, .nil, n, l, cp, rfl, hinvalid, rfl⟩
    · rename_i hok
      simp only [bind_eq_bind, bind_eq_some_iff] at h
      obtain ⟨s₁, hprune, h⟩ := h
      split at h
      · cases h
        exact ⟨[n], l, _, rfl, .cons hok hprune .nil, rfl, .inr (by simp)⟩
      · obtain ⟨done, rest, s₂, rfl, hconnects, hr⟩ := ih h
        refine ⟨n :: done, rest, s₂, rfl, .cons hok hprune hconnects, ?_⟩
        cases r with
        | progress => exact ⟨hr.1, .inr (by simp)⟩
        | error => exact hr
        | invalidFound => exact hr

/-- A state that differs from `s` in the tip, the candidates and the status only. -/
def ChainState.moved (s : ChainState) (tip : BlockPtr) (candidates : List BlockPtr)
    (nStatus : BlockPtr → BitVec 32) : ChainState :=
  { s with chainActive := tip, setBlockIndexCandidates := candidates, nStatus := nStatus }

theorem usable_connected (s : ChainState) (n a : BlockPtr) :
    (s.connected n).usable a = s.usable a := by
  unfold ChainState.usable ChainState.connected
  by_cases h : a = n
  · subst h
    have hfailed : haveBit BLOCK_HAVE_UNDO BLOCK_FAILED_MASK = false := by decide
    have hdata : haveBit BLOCK_HAVE_UNDO BLOCK_HAVE_DATA = false := by decide
    dsimp only
    rw [Function.update_self, haveBit_raiseValidity _ _ (by decide) (by decide),
      haveBit_raiseValidity _ _ (by decide) (by decide), haveBit_set, haveBit_set, hfailed, hdata,
      Bool.or_false, Bool.or_false]
  · simp only [Function.update_of_ne h]

section
variable (hord : env.Orders t) (h : Connects env o s l s') (hs : s.Ok env t)
  (hl : ∀ a ∈ l, a ∈ s.mapBlockIndex)
include hord h hs hl

theorem Connects.spec :
    s'.Ok env t ∧
    (∃ candidates nStatus, s' = s.moved (l.getLast?.getD s.chainActive) candidates nStatus) ∧
    (∀ p, p ∈ s'.setBlockIndexCandidates ↔
      p ∈ s.setBlockIndexCandidates ∧ ∀ x ∈ l, env.less p x = false) ∧
    (∀ a, s'.usable a = s.usable a) ∧ ∀ x ∈ l, o.connectTip x = .ok := by
  induction h with
  | nil => exact ⟨hs, ⟨_, _, rfl⟩, by simp, fun _ => rfl, by simp⟩
  | @cons n ns s s₁ s' hok hprune _ ih =>
    obtain ⟨hn, hns⟩ := forall_mem_cons.mp hl
    have hconnected : (s.connected n).Ok env t := hs.of_sublist rfl hn (.refl _) hs.unlinked
    have hs₁ := prune_eq_some hprune
    have hmem := mem_prune hord hconnected
    have hpruned : s₁.Ok env t := by
      rw [hs₁]
      exact hconnected.of_sublist rfl hn (dropWhile_sublist _) hs.unlinked
    obtain ⟨hok', ⟨candidates, nStatus, hmoved⟩, hcands, husable, hall⟩ := ih hpruned (hs₁ ▸ hns)
    refine ⟨hok', ⟨candidates, nStatus, ?_⟩, fun p => ?_, fun a => ?_, ?_⟩
    · rw [hmoved, hs₁]
      cases ns <;> simp [ChainState.moved, ChainState.connected, getLast?_cons]
    · rw [hcands, forall_mem_cons, hs₁]
      exact (and_congr_left' (hmem p)).trans and_assoc
    · rw [husable, hs₁, ← usable_connected s n a]
      rfl
    · exact forall_mem_cons.mpr ⟨hok, hall⟩

theorem Connects.tip_mem : s'.chainActive ∈ s.chainActive :: l := by
  obtain ⟨-, ⟨_, _, hmoved⟩, -⟩ := h.spec hord hs hl
  rw [hmoved]
  cases hlast : l.getLast? with
  | none => simp [ChainState.moved]
  | some x => simp [ChainState.moved, mem_of_getLast? hlast]

end

theorem disconnectTo_mem (o : Oracle) (f : Option BlockPtr) (n : BlockPtr) :
    (disconnectTo o f n).2 ∈ n.path := by
  induction n with
  | root x => simp [disconnectTo]
  | child p x ih =>
    rw [disconnectTo]
    split
    · simp
    · split
      · exact mem_cons_of_mem _ ih
      · simp

theorem disconnectTo_fork {n : BlockPtr} (h : (disconnectTo o f n).1 = true) :
    f = some (disconnectTo o f n).2 := by
  induction n with
  | root x => simpa [disconnectTo] using h
  | child p x ih =>
    rw [disconnectTo] at h ⊢
    split at h
    · rename_i heq
      rw [if_pos heq]
      exact heq
    · rename_i hne
      split at h
      · rename_i hdisconnect
        rw [if_neg hne, if_pos hdisconnect]
        exact ih h
      · cases h

theorem activateBestChainStep_cases (h : activateBestChainStep env o m s = some (r, s')) :
    (r = .error ∧ ∃ tip ∈ s.chainActive.path, s' = { s with chainActive := tip }) ∨
    ∃ q, Node.fork s.chainActive m = some q ∧
      connectBlocks env o (nChainWork s.chainActive) (m.since (some q))
        { s with chainActive := q } = some (r, s') := by
  rw [activateBestChainStep] at h
  dsimp only at h
  split at h
  · cases h
    exact .inl ⟨rfl, _, disconnectTo_mem .., rfl⟩
  · rename_i hdone
    have hfork := disconnectTo_fork (by simpa using hdone)
    refine .inr ⟨_, hfork, ?_⟩
    rw [← hfork]
    exact h

theorem turn_cases (h : turn env o i most s = some r) :
    r = finish o s ∨ ∃ most' s₁, mostWork most s = some (most', s₁) ∧
      ((most' = none ∨ most' = some s₁.chainActive) ∧ r = .stop true s₁ ∨
      ∃ m result s₂, most' = some m ∧ m ≠ s₁.chainActive ∧
        activateBestChainStep env o m s₁ = some (result, s₂) ∧
        match result with
        | .error => r = .stop false s₂
        | .invalidFound => r = .again none s₂
        | .progress => r = if s₂.chainActive = m then finish o s₂ else .again (some m) s₂) := by
  rw [turn] at h
  split at h
  · exact .inl (some.inj h).symm
  · split at h
    · cases h
    · rename_i s₁ hmost
      exact .inr ⟨none, s₁, hmost, .inl ⟨.inl rfl, (some.inj h).symm⟩⟩
    · rename_i m s₁ hmost
      refine .inr ⟨some m, s₁, hmost, ?_⟩
      split at h
      · rename_i hm
        exact .inl ⟨.inr (congrArg some hm), (some.inj h).symm⟩
      · rename_i hm
        split at h
        · cases h
        · rename_i s₂ hstep
          exact .inr ⟨m, .error, s₂, rfl, hm, hstep, (some.inj h).symm⟩
        · rename_i s₂ hstep
          exact .inr ⟨m, .invalidFound, s₂, rfl, hm, hstep, (some.inj h).symm⟩
        · rename_i s₂ hstep
          exact .inr ⟨m, .progress, s₂, rfl, hm, hstep, (some.inj h).symm⟩

theorem mostWork_ok (hs : s.Ok env t) (hmost : ∀ m, most = some m → m ∈ s.mapBlockIndex)
    (h : mostWork most s = some (most', s')) :
    s'.Ok env t ∧ ∀ m, most' = some m → m ∈ s'.mapBlockIndex := by
  unfold mostWork at h
  split at h
  · cases h
    exact ⟨hs, hmost⟩
  · obtain ⟨-, hmem⟩ := findMostWorkChain_searched h
    have hs' := findMostWorkChain_ok hs h
    exact ⟨hs', fun m hm => hs'.candidates m (hmem m hm)⟩

theorem connectBlocks_ok (hord : env.Orders t) (hs : s.Ok env t)
    (hl : ∀ a ∈ l, a ∈ s.mapBlockIndex) (h : connectBlocks env o w l s = some (r, s')) :
    s'.Ok env t ∧ s'.mapBlockIndex = s.mapBlockIndex := by
  obtain ⟨done, rest, s₁, rfl, hconnects, hr⟩ := connectBlocks_cases h
  obtain ⟨hs₁, ⟨_, _, hmoved⟩, -⟩ :=
    hconnects.spec hord hs fun a ha => hl a (mem_append_left _ ha)
  have hmap : s₁.mapBlockIndex = s.mapBlockIndex := by
    rw [hmoved]
    rfl
  cases r with
  | progress => exact hr.1 ▸ ⟨hs₁, hmap⟩
  | error => exact hr ▸ ⟨hs₁, hmap⟩
  | invalidFound =>
    obtain ⟨b, -, cp, -, -, rfl⟩ := hr
    split
    · exact ⟨hs₁, hmap⟩
    · exact ⟨hs₁.of_sublist rfl hs₁.tip filter_sublist hs₁.unlinked, hmap⟩

theorem activateBestChainStep_ok (hord : env.Orders t) (hs : s.Ok env t)
    (hm : m ∈ s.mapBlockIndex) (h : activateBestChainStep env o m s = some (r, s')) :
    s'.Ok env t ∧ s'.mapBlockIndex = s.mapBlockIndex := by
  rcases activateBestChainStep_cases h with ⟨-, tip, htip, rfl⟩ | ⟨q, hfork, hconnect⟩
  · exact ⟨hs.of_sublist rfl (hs.closed _ hs.tip _ htip) (.refl _) hs.unlinked, rfl⟩
  · have hq := hs.closed _ hs.tip _ (fork_mem hfork).2
    have hs' : ChainState.Ok env t { s with chainActive := q } :=
      hs.of_sublist rfl hq (.refl _) hs.unlinked
    have hl : ∀ a ∈ m.since (some q), a ∈ s.mapBlockIndex := fun a ha =>
      hs.closed m hm a (mem_since ha)
    obtain ⟨hok, hmap⟩ := connectBlocks_ok hord hs' hl hconnect
    exact ⟨hok, hmap⟩

def Turn.Ok (env : ChainEnv) (t : Tree CBlockHeader) : Turn → Prop
  | .stop _ s => s.Ok env t
  | .again most s => s.Ok env t ∧ ∀ m, most = some m → m ∈ s.mapBlockIndex

theorem finish_ok (hs : s.Ok env t) : (finish o s).Ok env t := by
  unfold finish
  split
  · exact hs
  · exact hs.of_sublist rfl hs.tip (.refl _) hs.unlinked

section
variable (hord : env.Orders t) (hs : s.Ok env t)
  (hmost : ∀ m, most = some m → m ∈ s.mapBlockIndex)
include hord hs hmost

theorem turn_ok (h : turn env o i most s = some r) : r.Ok env t := by
  rcases turn_cases h with rfl | ⟨most', s₁, hsearch, hr⟩
  · exact finish_ok hs
  · obtain ⟨hs₁, hm⟩ := mostWork_ok hs hmost hsearch
    rcases hr with ⟨-, rfl⟩ | ⟨m, result, s₂, rfl, -, hstep, hr⟩
    · exact hs₁
    · obtain ⟨hs₂, hmap⟩ := activateBestChainStep_ok hord hs₁ (hm m rfl) hstep
      cases result with
      | error => exact hr ▸ hs₂
      | invalidFound => exact hr ▸ ⟨hs₂, by simp⟩
      | progress =>
        subst hr
        split
        · exact finish_ok hs₂
        · refine ⟨hs₂, ?_⟩
          rintro _ ⟨⟩
          rw [hmap]
          exact hm m rfl

theorem activateBestChain_ok (h : activateBestChain env o fuel i most s = some (b, s')) :
    s'.Ok env t := by
  induction fuel generalizing i most s with
  | zero => cases h
  | succ fuel ih =>
    rw [activateBestChain] at h
    split at h
    · cases h
    · rename_i hturn
      cases h
      exact turn_ok hord hs hmost hturn
    · rename_i hturn
      obtain ⟨hs₁, hmost₁⟩ := turn_ok hord hs hmost hturn
      exact ih hs₁ hmost₁ h

end

/-- `b` would be tried and rejected: it can be used, and connecting it fails. -/
def Rejected (o : Oracle) (s : ChainState) (b : BlockPtr) : Prop :=
  s.usable b ∧ ∃ cp, o.connectTip b = .invalid cp

instance (o : Oracle) (s : ChainState) (b : BlockPtr) : Decidable (Rejected o s b) :=
  inferInstanceAs (Decidable (_ ∧ ∃ cp, _ = ConnectResult.invalid cp))

/-- A candidate `c` of which every block can be used and connected, not worse than the
tip, and better than every block below one that would be rejected. It may be the tip
itself, or lie below such a block itself, if the observer saw it last. -/
structure Covers (env : ChainEnv) (o : Oracle) (s : ChainState) (c : BlockPtr) : Prop where
  candidate : c ∈ s.setBlockIndexCandidates
  usable : ∀ a ∈ c.path, s.usable a
  connects : ∀ a ∈ c.path, ∀ cp, o.connectTip a ≠ .invalid cp
  notWorse : env.less c s.chainActive = false
  seen : c = s.chainActive → s.observed = c
  outranks : ∀ b ∈ s.mapBlockIndex, Rejected o s b → ∀ x ∈ b.path, x ≠ b →
    env.less x c = true ∨ (x = c ∧ s.observed = c)

/-- `m` is being worked towards, under the cover of a candidate if it can fail. -/
structure Toward (env : ChainEnv) (o : Oracle) (s : ChainState) (m : BlockPtr) : Prop where
  mem : m ∈ s.mapBlockIndex
  ne : m ≠ s.chainActive
  usable : ∀ a ∈ m.path, a ∉ s.chainActive.path → s.usable a
  covered : ∀ b ∈ m.path, b ∉ s.chainActive.path → (∃ cp, o.connectTip b = .invalid cp) →
    ∃ c, Covers env o s c

/-- Moving the tip to a block below a rejected one, with the candidates pruned on the
way, leaves the cover in place. -/
theorem Covers.connects_below (hord : env.Orders t) (hs : s.Ok env t)
    (h : Covers env o s c) (hb : b ∈ s.mapBlockIndex) (hrejected : Rejected o s b)
    (hbelow : ∀ x ∈ q :: done, x ∈ b.path ∧ x ≠ b)
    (hconnects : Connects env o { s with chainActive := q } done s') : Covers env o s' c := by
  have hct : c ∈ t.nodes := hs.candidates_inTree c h.candidate
  have hmap : ∀ x ∈ q :: done, x ∈ s.mapBlockIndex := fun x hx => hs.closed b hb x (hbelow x hx).1
  have hle : ∀ x ∈ q :: done, env.less c x = false ∧ (c = x → s.observed = c) := by
    intro x hx
    rcases h.outranks b hb hrejected x (hbelow x hx).1 (hbelow x hx).2 with hlt | ⟨rfl, hseen⟩
    · refine ⟨hord.asymm (hs.inTree x (hmap x hx)) hct hlt, ?_⟩
      rintro rfl
      simp [hord.irrefl c hct] at hlt
    · exact ⟨hord.irrefl x hct, fun _ => hseen⟩
  obtain ⟨hq, hdone⟩ := forall_mem_cons.mp hmap
  have hs₀ : ChainState.Ok env t { s with chainActive := q } :=
    hs.of_sublist rfl hq (.refl _) hs.unlinked
  obtain ⟨-, ⟨_, _, hmoved⟩, hcands, husable, -⟩ := hconnects.spec hord hs₀ hdone
  have hobserved : s'.observed = s.observed := by rw [hmoved]; rfl
  have hindex : s'.mapBlockIndex = s.mapBlockIndex := by rw [hmoved]; rfl
  have htip := hconnects.tip_mem hord hs₀ hdone
  refine ⟨(hcands c).mpr ⟨h.candidate, fun x hx => (hle x (mem_cons_of_mem _ hx)).1⟩,
    fun a ha => (husable a).trans (h.usable a ha), h.connects, (hle _ htip).1,
    fun heq => hobserved.trans ((hle _ htip).2 heq), ?_⟩
  intro b' hb' hrejected' x hx hne
  rw [hobserved]
  exact h.outranks b' (hindex ▸ hb') ⟨(husable b') ▸ hrejected'.1, hrejected'.2⟩ x hx hne

theorem usable_invalidBlockFound (s : ChainState) (a b : BlockPtr) :
    (s.invalidBlockFound b).usable a = (s.usable a && decide (a ≠ b)) := by
  unfold ChainState.usable ChainState.invalidBlockFound ChainState.markFailed
  by_cases hab : a = b
  · have hmark : haveBit BLOCK_FAILED_VALID BLOCK_FAILED_MASK = true := by decide
    simp [hab, hmark]
  · simp [hab]

theorem Covers.invalidBlockFound (h : Covers env o s c) (hb : o.connectTip b = .invalid cp) :
    Covers env o (s.invalidBlockFound b) c := by
  have hne : ∀ a ∈ c.path, a ≠ b := by
    rintro a ha rfl
    exact h.connects a ha cp hb
  refine ⟨mem_filter.mpr ⟨h.candidate, by simpa using hne c (mem_path_self c)⟩,
    fun a ha => ?_, h.connects, h.notWorse, h.seen, fun b' hb' hrejected => ?_⟩
  · simp [usable_invalidBlockFound, h.usable a ha, hne a ha]
  · have husable := hrejected.1
    rw [usable_invalidBlockFound, Bool.and_eq_true] at husable
    exact h.outranks b' hb' ⟨husable.1, hrejected.2⟩

theorem Toward.step (hord : env.Orders t) (hs : s.Ok env t) (h : Toward env o s m)
    (hstep : activateBestChainStep env o m s = some (r, s')) :
    match r with
    | .error => True
    | .invalidFound => ∃ c, Covers env o s' c
    | .progress => s'.chainActive = m ∨ Toward env o s' m := by
  rcases activateBestChainStep_cases hstep with ⟨rfl, -⟩ | ⟨q, hfork, hconnect⟩
  · trivial
  obtain ⟨done, rest, s₁, hl, hconnects, hr⟩ := connectBlocks_cases hconnect
  have habove : ∀ a, a ∈ m.since (some q) ↔ a ∈ m.path ∧ a ∉ s.chainActive.path := fun a =>
    mem_since_fork hfork
  have hchain := pairwise_since (fork_mem hfork).1
  rw [hl, ← cons_append] at hchain
  have hbelow : ∀ b ∈ rest, ∀ x ∈ q :: done, x ∈ b.path ∧ x ≠ b := fun b hb x hx =>
    (pairwise_append.mp hchain).2.2 x hx b hb
  -- a block that fails after those that were connected is under cover
  have hcover : ∀ b ∈ rest, (∃ cp, o.connectTip b = .invalid cp) → ∃ c, Covers env o s₁ c := by
    intro b hb hinvalid
    have hbl := (habove b).mp (hl ▸ mem_append_right done hb)
    obtain ⟨c, hc⟩ := h.covered b hbl.1 hbl.2 hinvalid
    exact ⟨c, hc.connects_below hord hs (hs.closed m h.mem b hbl.1)
      ⟨h.usable b hbl.1 hbl.2, hinvalid⟩ (hbelow b hb) hconnects⟩
  cases r with
  | error => trivial
  | invalidFound =>
    obtain ⟨b, rest', cp, rfl, hb, rfl⟩ := hr
    obtain ⟨c, hc⟩ := hcover b (by simp) ⟨cp, hb⟩
    refine ⟨c, ?_⟩
    split
    · exact hc
    · exact hc.invalidBlockFound hb
  | progress =>
    obtain ⟨rfl, -⟩ := hr
    by_cases hdone : s'.chainActive = m
    · exact .inl hdone
    · right
      have hq : q ∈ s.mapBlockIndex := hs.closed _ hs.tip _ (fork_mem hfork).2
      have hs₀ : ChainState.Ok env t { s with chainActive := q } :=
        hs.of_sublist rfl hq (.refl _) hs.unlinked
      have hmem : ∀ a ∈ done, a ∈ m.path ∧ a ∉ s.chainActive.path := fun a ha =>
        (habove a).mp (hl ▸ mem_append_left _ ha)
      obtain ⟨-, ⟨_, _, hmoved⟩, -, husable, hok⟩ :=
        hconnects.spec hord hs₀ fun a ha => hs.closed m h.mem a (hmem a ha).1
      -- what is off the new chain was off the old one, and was not connected
      have hpath : ∀ x ∈ q :: done, x ∈ s'.chainActive.path := by
        rw [hmoved]
        exact fun x hx => mem_path_getLast (pairwise_append.mp hchain).1 hx
      have hoff : ∀ a ∈ m.path, a ∉ s'.chainActive.path → a ∉ s.chainActive.path ∧ a ∈ rest := by
        intro a ha hnot
        have hrest : a ∈ m.since (some q) := by
          rw [← mem_branch, branch_eq_append_since (fork_mem hfork).1,
            mem_append, mem_branch] at ha
          exact ha.resolve_left fun haq => hnot (path_trans haq (hpath q (by simp)))
        refine ⟨((habove a).mp hrest).2, ?_⟩
        rw [hl, mem_append] at hrest
        exact hrest.resolve_left fun had => hnot (hpath a (mem_cons_of_mem _ had))
      refine ⟨by rw [hmoved]; exact h.mem, fun heq => hdone heq.symm, fun a ha hnot => ?_,
        fun b hb hnot hinvalid => ?_⟩
      · exact (husable a).trans (h.usable a ha (hoff a ha hnot).1)
      · exact hcover b (hoff b hb hnot).2 hinvalid

theorem Covers.search (hs : s.Ok env t) (h : Covers env o s c)
    (hsearch : mostWork none s = some (most, s')) :
    s'.Ok env t ∧ ∃ m, most = some m ∧
      (m = s'.chainActive → s'.observed = s'.chainActive) ∧
      (m ≠ s'.chainActive → Toward env o s' m) := by
  obtain ⟨hsearched, -⟩ := findMostWorkChain_searched hsearch
  obtain ⟨hc, husable, m, rfl, hm, hbetter, hm_usable⟩ :=
    findMostWorkChain_spec hs h.candidate h.usable hsearch
  obtain ⟨hs', -⟩ := mostWork_ok hs (by simp) hsearch
  have hcovers : Covers env o s' c :=
    ⟨hc, husable, h.connects, hsearched.chainActive ▸ h.notWorse,
      fun heq => hsearched.observed.trans (h.seen (heq.trans hsearched.chainActive)),
      fun b hb hrejected x hx hne => hsearched.observed.symm ▸ h.outranks b
        (hsearched.mapBlockIndex ▸ hb) ⟨hsearched.usable b hrejected.1, hrejected.2⟩ x hx hne⟩
  refine ⟨hs', m, rfl, fun heq => ?_, fun hne => ?_⟩
  · rcases hbetter with rfl | hlt
    · exact (hcovers.seen heq).trans heq
    · rw [heq, hcovers.notWorse] at hlt
      cases hlt
  · exact ⟨hs'.candidates m hm, hne, hm_usable, fun _ _ _ _ => ⟨c, hcovers⟩⟩

/-- What holds of `pindexMostWork` before a turn. -/
def UnderCover (env : ChainEnv) (o : Oracle) (s : ChainState) : Option BlockPtr → Prop
  | none => ∃ c, Covers env o s c
  | some m => Toward env o s m

/-- A turn that returns true has shown the tip to the observer. -/
def Turn.Seen (env : ChainEnv) (o : Oracle) : Turn → Prop
  | .stop result s => result = true → s.observed = s.chainActive
  | .again most s => UnderCover env o s most

theorem finish_seen (s : ChainState) : (finish o s).Seen env o := by
  unfold finish
  split
  · exact fun h => nomatch h
  · exact fun _ => rfl

theorem UnderCover.turn_seen (hord : env.Orders t) (hs : s.Ok env t)
    (h : UnderCover env o s most) (hturn : turn env o i most s = some r) : r.Seen env o := by
  rcases turn_cases hturn with rfl | ⟨most', s₁, hsearch, hr⟩
  · exact finish_seen s
  -- the search leaves a block to work towards, unless the tip has been seen
  have hfound : s₁.Ok env t ∧ ∃ m, most' = some m ∧
      (m = s₁.chainActive → s₁.observed = s₁.chainActive) ∧
      (m ≠ s₁.chainActive → Toward env o s₁ m) := by
    cases most with
    | none =>
      obtain ⟨c, hc⟩ := h
      exact hc.search hs hsearch
    | some m =>
      cases hsearch
      exact ⟨hs, m, rfl, fun heq => absurd heq (Toward.ne h), fun _ => h⟩
  obtain ⟨hs₁, m, rfl, hseen, htoward⟩ := hfound
  rcases hr with ⟨htip, rfl⟩ | ⟨m', result, s₂, hm, hne, hstep, hr⟩
  · intro _
    rcases htip with htip | htip
    · cases htip
    · exact hseen (some.inj htip)
  · cases hm
    have hnext := (htoward hne).step hord hs₁ hstep
    cases result with
    | error =>
      subst hr
      exact fun h => nomatch h
    | invalidFound =>
      subst hr
      exact hnext
    | progress =>
      subst hr
      split
      · exact finish_seen s₂
      · rename_i hnot
        exact hnext.resolve_left hnot

theorem activateBestChain_observed (hord : env.Orders t) (hs : s.Ok env t)
    (hcover : UnderCover env o s most) (hmost : ∀ m, most = some m → m ∈ s.mapBlockIndex)
    (h : activateBestChain env o fuel i most s = some (true, s')) : s'.observed = s'.chainActive := by
  induction fuel generalizing i most s with
  | zero => cases h
  | succ fuel ih =>
    rw [activateBestChain] at h
    split at h
    · cases h
    · rename_i hturn
      cases h
      exact hcover.turn_seen hord hs hturn rfl
    · rename_i hturn
      obtain ⟨hs₁, hmost₁⟩ := turn_ok hord hs hmost hturn
      exact ih hs₁ (hcover.turn_seen hord hs hturn) hmost₁ h

end OurChain
