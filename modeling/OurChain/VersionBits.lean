import OurChain.Validation.TimeLocks

/-!
# Version bits deployments

The states of BIP 9 (`versionbits.cpp`). The state for a block is computed from its
parent and changes only where a period of blocks ends, so it is cached under the last
block of each period; `GetStateFor` walks back to a block whose state is known and
forward again. The recursion that it shortcuts is `stateAfter`.
-/

namespace OurChain

open Function Nat Node Option
open Node (child)

inductive ThresholdState where
  | DEFINED
  | STARTED
  | LOCKED_IN
  | ACTIVE
  | FAILED
  deriving DecidableEq

/-- An `AbstractThresholdConditionChecker` with the values of its virtual functions, in the ranges
that a deployment is given. -/
structure ThresholdConditionChecker where
  condition : BlockPtr → Bool
  beginTime : Int
  endTime : Int
  period : Nat
  threshold : Nat
  begin_le_end : beginTime ≤ endTime
  threshold_pos : 1 ≤ threshold
  threshold_le : threshold ≤ period

abbrev ThresholdConditionCache := Option BlockPtr → Option ThresholdState

def getAncestor (pindex : BlockPtr) (height : Int) : Option BlockPtr :=
  if height < 0 then none else pindex.ancestorAt height.toNat

namespace ThresholdConditionChecker

variable (c : ThresholdConditionChecker)

/-- The last block of the period before, seen from the parent of a block. -/
def periodParent (pindexPrev : Option BlockPtr) : Option BlockPtr :=
  pindexPrev.bind fun p => getAncestor p (p.height - (p.height + 1) % c.period)

def previousPeriodParent (pindexPrev : BlockPtr) : Option BlockPtr :=
  getAncestor pindexPrev (pindexPrev.height - c.period)

/-- Blocks of the period that ends with `pindex` which meet the condition. -/
def count (pindex : BlockPtr) : Nat := (pindex.path.take c.period).countP c.condition

def stateNext (state : ThresholdState) (pindexPrev : BlockPtr) : ThresholdState :=
  match state with
  | .DEFINED =>
    if c.endTime ≤ getMedianTimePast pindexPrev then .FAILED
    else if c.beginTime ≤ getMedianTimePast pindexPrev then .STARTED
    else .DEFINED
  | .STARTED =>
    if c.endTime ≤ getMedianTimePast pindexPrev then .FAILED
    else if c.threshold ≤ c.count pindexPrev then .LOCKED_IN
    else .STARTED
  | .LOCKED_IN => .ACTIVE
  | .FAILED => .FAILED
  | .ACTIVE => .ACTIVE

/-- Back in steps of a period to a block whose state is known, and the blocks on the way. -/
def walkBack : Nat → Option BlockPtr → ThresholdConditionCache → List BlockPtr →
    Option BlockPtr × ThresholdConditionCache × List BlockPtr
  | 0, pindexPrev, cache, vToCompute => (pindexPrev, cache, vToCompute)
  | fuel + 1, pindexPrev, cache, vToCompute =>
    if (cache pindexPrev).isSome then (pindexPrev, cache, vToCompute)
    else match pindexPrev with
      | none => (none, update cache none (some .DEFINED), vToCompute)
      | some p =>
        -- Every earlier block is before the start time as well.
        if getMedianTimePast p < c.beginTime then
          (some p, update cache (some p) (some .DEFINED), vToCompute)
        else walkBack fuel (c.previousPeriodParent p) cache (p :: vToCompute)

def walkForward (known : ThresholdState × ThresholdConditionCache) (vToCompute : List BlockPtr) :
    ThresholdState × ThresholdConditionCache :=
  vToCompute.foldl (fun (state, cache) p =>
    let state := c.stateNext state p
    (state, update cache (some p) (some state))) known

def getStateFor (pindexPrev : Option BlockPtr) (cache : ThresholdConditionCache) :
    ThresholdState × ThresholdConditionCache :=
  let fuel := (pindexPrev.map Node.height).getD 0 + 2
  let (pindexPrev, cache, vToCompute) := c.walkBack fuel (c.periodParent pindexPrev) cache []
  c.walkForward ((cache pindexPrev).getD .DEFINED, cache) vToCompute

/-- The loop of `GetStateSinceHeightFor` at the last block of a period. -/
def sinceFrom (initialState : ThresholdState) : Nat → BlockPtr → ThresholdConditionCache →
    Int × ThresholdConditionCache
  | 0, p, cache => (p.height + 1, cache)
  | fuel + 1, p, cache =>
    match c.previousPeriodParent p with
    | none => (p.height + 1, cache)
    | some q =>
      let (state, cache) := c.getStateFor (some q) cache
      if state = initialState then sinceFrom initialState fuel q cache else (p.height + 1, cache)

def getStateSinceHeightFor (pindexPrev : Option BlockPtr) (cache : ThresholdConditionCache) :
    Int × ThresholdConditionCache :=
  let (initialState, cache) := c.getStateFor pindexPrev cache
  if initialState = .DEFINED then (0, cache)
  else match c.periodParent pindexPrev with
    | none => (0, cache)
    | some p => c.sinceFrom initialState (p.height + 1) p cache

/-- The state for the block after `pindex`: the one for `pindex` itself, moved on if a period ends
there. -/
def stateAfter : BlockPtr → ThresholdState
  | .root block =>
    if 1 % c.period = 0 then c.stateNext .DEFINED (.root block) else .DEFINED
  | .child pprev block =>
    if (pprev.height + 2) % c.period = 0 then c.stateNext (stateAfter pprev) (child pprev block)
    else stateAfter pprev

def stateFor : Option BlockPtr → ThresholdState
  | none => .DEFINED
  | some p => c.stateAfter p

variable {c}

theorem period_pos (c : ThresholdConditionChecker) :
    0 < c.period := c.threshold_pos.trans c.threshold_le

def EndsPeriod (c : ThresholdConditionChecker) (b : BlockPtr) : Prop := (b.height + 1) % c.period = 0

theorem stateAfter_end (h : c.EndsPeriod b) :
    c.stateAfter b = c.stateNext (c.stateFor b.pprev) b := by
  cases b with
  | root x => exact if_pos h
  | child p x => exact if_pos h

theorem stateAfter_inside (h : ¬ c.EndsPeriod b) : c.stateAfter b = c.stateFor b.pprev := by
  cases b with
  | root x => exact if_neg h
  | child p x => exact if_neg h

theorem getAncestor_self (b : BlockPtr) : getAncestor b b.height = some b := by
  rw [getAncestor, if_neg (by omega), Int.toNat_natCast]
  exact ancestorAt_eq_some.mpr ⟨mem_path_self b, rfl⟩

theorem getAncestor_child (hk : k ≤ p.height) : getAncestor (child p x) k = getAncestor p k := by
  rw [getAncestor, getAncestor]
  split
  · rfl
  · exact ancestorAt_of_mem_path (mem_path_parent p _) (by omega)

theorem getAncestor_eq_some : getAncestor b k = some a ↔ a ∈ b.path ∧ (a.height : Int) = k := by
  rw [getAncestor]
  split
  · simp only [reduceCtorEq, false_iff, not_and]
    omega
  · rw [ancestorAt_eq_some]
    refine and_congr_right fun _ => ?_
    omega

def periodOf (c : ThresholdConditionChecker) (b : BlockPtr) : Nat := (b.height + 1) / c.period

theorem periodParent_some (b : BlockPtr) :
    c.periodParent (some b) = getAncestor b (c.period * c.periodOf b - 1) := by
  have hsplit : (c.period * c.periodOf b : Int) + (b.height + 1) % c.period = b.height + 1 := by
    exact_mod_cast div_add_mod (b.height + 1) c.period
  rw [periodParent, bind_some]
  congr 1
  omega

theorem endsPeriod_iff : c.EndsPeriod b ↔ c.period * c.periodOf b = b.height + 1 :=
  (dvd_iff_mod_eq_zero.symm).trans ⟨Nat.mul_div_cancel', Dvd.intro _⟩

theorem periodOf_child_end (h : c.EndsPeriod (child p x)) :
    c.periodOf (child p x) = c.periodOf p + 1 :=
  succ_div_of_mod_eq_zero h

theorem periodOf_child_inside (h : ¬ c.EndsPeriod (child p x)) :
    c.periodOf (child p x) = c.periodOf p :=
  succ_div_of_mod_ne_zero h

theorem mul_periodOf_le (b : BlockPtr) : c.period * c.periodOf b ≤ b.height + 1 := mul_div_le _ _

theorem periodParent_end (h : c.EndsPeriod b) : c.periodParent (some b) = some b := by
  have hnat := endsPeriod_iff.mp h
  have hint : (c.period * c.periodOf b : Int) = b.height + 1 := by exact_mod_cast hnat
  rw [periodParent_some, hint, Int.add_sub_cancel, getAncestor_self]

theorem periodParent_inside (h : ¬ c.EndsPeriod b) :
    c.periodParent (some b) = c.periodParent b.pprev := by
  rw [periodParent_some]
  cases b with
  | root x =>
    have hzero : c.periodOf (.root x) = 0 := by
      have hlt : 1 ≠ c.period := fun heq => h (by rw [EndsPeriod, ← heq]; exact mod_one _)
      have hpos := c.period_pos
      exact div_eq_of_lt (show 0 + 1 < c.period by omega)
    rw [hzero]
    rfl
  | child p x =>
    have hle : (c.period * c.periodOf p : Int) ≤ p.height + 1 := by exact_mod_cast mul_periodOf_le p
    rw [periodOf_child_inside h, getAncestor_child (by omega)]
    exact (periodParent_some p).symm

theorem stateFor_periodParent (pindexPrev : Option BlockPtr) :
    c.stateFor (c.periodParent pindexPrev) = c.stateFor pindexPrev := by
  induction pindexPrev using induction_pprev with
  | none => rfl
  | node b ih =>
    by_cases h : c.EndsPeriod b
    · rw [periodParent_end h]
    · rw [periodParent_inside h, ih]
      exact (stateAfter_inside h).symm

theorem previousPeriodParent_end (h : c.EndsPeriod b) :
    c.previousPeriodParent b = c.periodParent b.pprev := by
  have hpos := c.period_pos
  rw [previousPeriodParent]
  cases b with
  | root x =>
    have hneg : ((Node.root x : BlockPtr).height : Int) - c.period < 0 := by
      simp only [Node.height, cast_zero]
      omega
    rw [getAncestor, if_pos hneg]
    rfl
  | child p x =>
    have hend := endsPeriod_iff.mp h
    rw [periodOf_child_end h, Nat.mul_succ] at hend
    have hint : (c.period * c.periodOf p : Int) + c.period = (child p x).height + 1 := by
      exact_mod_cast hend
    rw [show ((child p x).height : Int) - c.period = c.period * c.periodOf p - 1 by omega,
      getAncestor_child (by simp only [Node.height, cast_add] at hint; omega)]
    exact (periodParent_some p).symm

theorem stateAfter_period (h : c.EndsPeriod b) :
    c.stateAfter b = c.stateNext (c.stateFor (c.previousPeriodParent b)) b := by
  rw [stateAfter_end h, previousPeriodParent_end h, stateFor_periodParent]

theorem endsPeriod_periodParent (h : c.periodParent pindexPrev = some b) : c.EndsPeriod b := by
  cases pindexPrev with
  | none => cases h
  | some p =>
    rw [periodParent_some, getAncestor_eq_some] at h
    have hheight : b.height + 1 = c.period * c.periodOf p := by
      have : (b.height : Int) + 1 = (c.period * c.periodOf p : Nat) := by
        rw [cast_mul]
        omega
      exact_mod_cast this
    rw [EndsPeriod, hheight]
    exact mul_mod_right _ _

theorem endsPeriod_previous (h : c.EndsPeriod b) (ha : c.previousPeriodParent b = some a) :
    c.EndsPeriod a :=
  endsPeriod_periodParent ((previousPeriodParent_end h).symm.trans ha)

def InTree (t : Tree CBlockHeader) (pindex : Option BlockPtr) : Prop := ∀ b ∈ pindex, b ∈ t.nodes

def NonDecreasing (t : Tree CBlockHeader) : Prop :=
  ∀ p x, child p x ∈ t.nodes → getMedianTimePast p ≤ getMedianTimePast (child p x)

variable {t : Tree CBlockHeader}

theorem InTree.pprev (h : b ∈ t.nodes) : InTree t b.pprev := by
  cases b with
  | root x => rintro p ⟨⟩
  | child p x =>
    rintro q ⟨⟩
    exact t.parent _ x h

theorem InTree.getAncestor (h : b ∈ t.nodes) (k : Int) : InTree t (getAncestor b k) :=
  fun _ ha => t.mem_of_mem_path h (getAncestor_eq_some.mp ha).1

theorem InTree.periodParent (h : InTree t pindexPrev) : InTree t (c.periodParent pindexPrev) := by
  cases pindexPrev with
  | none => exact h
  | some b => exact InTree.getAncestor (h b rfl) _

def CacheOk (c : ThresholdConditionChecker) (cache : ThresholdConditionCache) : Prop :=
  ∀ pindex state, cache pindex = some state → state = c.stateFor pindex

theorem CacheOk.update (h : c.CacheOk cache) (p : Option BlockPtr) :
    c.CacheOk (update cache p (some (c.stateFor p))) := by
  intro pindex state hstate
  by_cases heq : pindex = p
  · subst heq
    rw [update_self] at hstate
    exact (some.inj hstate).symm
  · rw [update_of_ne heq] at hstate
    exact h pindex state hstate

def nextHeight : Option BlockPtr → Nat
  | none => 0
  | some p => p.height + 1

theorem nextHeight_getAncestor_le (b : BlockPtr) (k : Int) :
    nextHeight (getAncestor b k) ≤ (k + 1).toNat := by
  cases h : getAncestor b k with
  | none => exact Nat.zero_le _
  | some a =>
    have := (getAncestor_eq_some.mp h).2
    show a.height + 1 ≤ _
    omega

def cacheAfter (c : ThresholdConditionChecker) (queries : List (Option BlockPtr)) :
    ThresholdConditionCache :=
  queries.foldl (fun cache pindexPrev => (c.getStateFor pindexPrev cache).2) fun _ => none

inductive Moves : ThresholdState → ThresholdState → Prop
  | started : Moves .DEFINED .STARTED
  | expired : Moves .DEFINED .FAILED
  | lockedIn : Moves .STARTED .LOCKED_IN
  | failed : Moves .STARTED .FAILED
  | active : Moves .LOCKED_IN .ACTIVE

theorem moves_stateNext (c : ThresholdConditionChecker) (state : ThresholdState) (b : BlockPtr) :
    c.stateNext state b = state ∨ Moves state (c.stateNext state b) := by
  cases state with
  | DEFINED =>
    simp only [stateNext]
    split
    · exact .inr .expired
    · split
      · exact .inr .started
      · exact .inl rfl
  | STARTED =>
    simp only [stateNext]
    split
    · exact .inr .failed
    · split
      · exact .inr .lockedIn
      · exact .inl rfl
  | LOCKED_IN => exact .inr .active
  | ACTIVE => exact .inl rfl
  | FAILED => exact .inl rfl

theorem moves_pprev (b : BlockPtr) :
    c.stateFor (some b) = c.stateFor b.pprev ∨ Moves (c.stateFor b.pprev) (c.stateFor (some b)) := by
  by_cases h : c.EndsPeriod b
  · rw [stateFor, stateAfter_end h]
    exact moves_stateNext c _ b
  · exact .inl (stateAfter_inside h)

/-- The parent of the block at this height, on the branch of a block built on `pindexPrev`. -/
def parentAt (pindexPrev : Option BlockPtr) (height : Nat) : Option BlockPtr :=
  pindexPrev.bind fun p => getAncestor p (height - 1)

theorem parentAt_next (pindexPrev : Option BlockPtr) :
    parentAt pindexPrev (nextHeight pindexPrev) = pindexPrev := by
  cases pindexPrev with
  | none => rfl
  | some p =>
    rw [parentAt, bind_some, nextHeight, cast_succ, Int.add_sub_cancel, getAncestor_self]

theorem parentAt_of_mem_path (ha : a ∈ b.path) (hh : h ≤ a.height + 1) :
    parentAt (some b) h = parentAt (some a) h := by
  simp only [parentAt, bind_some, getAncestor]
  split
  · rfl
  · exact ancestorAt_of_mem_path ha (by omega)

theorem parentAt_zero (pindexPrev : Option BlockPtr) : parentAt pindexPrev 0 = none := by
  cases pindexPrev <;> rfl

theorem nextHeight_pprev (b : BlockPtr) : nextHeight b.pprev = b.height := by
  cases b <;> rfl

theorem parentAt_pprev (hh : h ≤ b.height) : parentAt (some b) h = parentAt b.pprev h := by
  cases b with
  | root x =>
    cases le_zero.mp hh
    rfl
  | child p x => exact parentAt_of_mem_path (mem_path_parent p _) hh

theorem stateFor_parentAt_period (hh : h ≤ nextHeight pindexPrev)
    (hperiod : h / c.period = nextHeight pindexPrev / c.period) :
    c.stateFor (parentAt pindexPrev h) = c.stateFor pindexPrev := by
  induction pindexPrev using induction_pprev with
  | none => rfl
  | node b ih =>
    rcases Nat.lt_or_eq_of_le hh with hlt | rfl
    · have hle : h ≤ b.height := le_of_lt_succ hlt
      have hlow : h / c.period ≤ b.height / c.period := Nat.div_le_div_right hle
      have hinside : ¬ c.EndsPeriod b := by
        intro hend
        have hsucc : (b.height + 1) / c.period = b.height / c.period + 1 :=
          succ_div_of_mod_eq_zero hend
        rw [nextHeight] at hperiod
        omega
      have hsame : (b.height + 1) / c.period = b.height / c.period := succ_div_of_mod_ne_zero hinside
      rw [parentAt_pprev hle, stateFor, stateAfter_inside hinside]
      refine ih ?_ ?_
      · rw [nextHeight_pprev]
        exact hle
      · rw [nextHeight_pprev, hperiod, nextHeight, hsame]
    · rw [parentAt_next]

theorem moves_parentAt (hh : h < nextHeight pindexPrev) :
    c.stateFor (parentAt pindexPrev (h + 1)) = c.stateFor (parentAt pindexPrev h) ∨
      Moves (c.stateFor (parentAt pindexPrev h)) (c.stateFor (parentAt pindexPrev (h + 1))) := by
  induction pindexPrev using induction_pprev with
  | none => cases hh
  | node b ih =>
    rcases Nat.lt_or_eq_of_le (le_of_lt_succ hh) with hlt | rfl
    · rw [parentAt_pprev (succ_le_of_lt hlt), parentAt_pprev hlt.le]
      exact ih (by rwa [nextHeight_pprev])
    · have hself := parentAt_next b.pprev
      rw [nextHeight_pprev] at hself
      have htop : parentAt (some b) (b.height + 1) = some b := parentAt_next (some b)
      rw [htop, parentAt_pprev le_rfl, hself]
      exact moves_pprev b

/-- The states in the order in which they can follow each other. -/
def rank : ThresholdState → Nat
  | .DEFINED => 0
  | .STARTED => 1
  | .LOCKED_IN => 2
  | .ACTIVE => 3
  | .FAILED => 4

theorem rank_injective : Function.Injective rank := by
  intro s s' h
  cases s <;> cases s' <;> first | rfl | cases h

theorem Moves.rank_lt (h : Moves s s') : rank s < rank s' := by
  cases h <;> decide

theorem rank_pprev_le (b : BlockPtr) : rank (c.stateFor b.pprev) ≤ rank (c.stateFor (some b)) := by
  rcases moves_pprev (c := c) b with heq | hmoves
  · rw [heq]
  · exact hmoves.rank_lt.le

theorem rank_parentAt_le (hh : h ≤ nextHeight pindexPrev) :
    rank (c.stateFor (parentAt pindexPrev h)) ≤ rank (c.stateFor pindexPrev) := by
  induction pindexPrev using induction_pprev with
  | none => exact le_rfl
  | node b ih =>
    rcases Nat.lt_or_eq_of_le hh with hlt | rfl
    · rw [parentAt_pprev (le_of_lt_succ hlt)]
      exact (ih (by rw [nextHeight_pprev]; exact le_of_lt_succ hlt)).trans (rank_pprev_le b)
    · rw [parentAt_next]

def heightsWith (c : ThresholdConditionChecker) (state : ThresholdState)
    (pindexPrev : Option BlockPtr) : Set Nat :=
  { h | h ≤ nextHeight pindexPrev ∧ c.stateFor (parentAt pindexPrev h) = state }

theorem isLeast_heightsWith (hne : c.stateFor b.pprev ≠ c.stateFor (some b)) :
    IsLeast (c.heightsWith (c.stateFor (some b)) (some b)) (b.height + 1) := by
  refine ⟨⟨le_rfl, congrArg c.stateFor (parentAt_next (some b))⟩, ?_⟩
  rintro h ⟨hh, hstate⟩
  by_contra hlt
  have hle : h ≤ b.height := by omega
  rw [parentAt_pprev hle] at hstate
  have hrank := rank_parentAt_le (c := c) (show h ≤ nextHeight b.pprev by rwa [nextHeight_pprev])
  rw [hstate] at hrank
  exact hne (rank_injective (Nat.le_antisymm (rank_pprev_le b) hrank))

theorem isLeast_heightsWith_descendant (ha : a ∈ b.path)
    (h : IsLeast (c.heightsWith state (some a)) k) :
    IsLeast (c.heightsWith state (some b)) k := by
  have hheight := height_le_of_mem_path ha
  obtain ⟨⟨hk, hstate⟩, hleast⟩ := h
  have hk' : k ≤ a.height + 1 := hk
  refine ⟨⟨hk'.trans (succ_le_succ hheight), ?_⟩, ?_⟩
  · rw [parentAt_of_mem_path ha hk']
    exact hstate
  · rintro j ⟨hj, hjstate⟩
    rcases Nat.lt_or_ge (a.height + 1) j with hlt | hge
    · exact hk'.trans hlt.le
    · rw [parentAt_of_mem_path ha hge] at hjstate
      exact hleast ⟨hge, hjstate⟩

section
variable (ht : NonDecreasing t)
include ht

theorem stateFor_early (hin : InTree t pindexPrev)
    (h : ∀ b ∈ pindexPrev, getMedianTimePast b < c.beginTime) : c.stateFor pindexPrev = .DEFINED := by
  induction pindexPrev using induction_pprev with
  | none => rfl
  | node b ih =>
    have hb := h b rfl
    have hpprev : c.stateFor b.pprev = .DEFINED := by
      refine ih (InTree.pprev (hin b rfl)) fun p hp => ?_
      obtain ⟨x, rfl⟩ := exists_child hp
      exact (ht p x (hin _ rfl)).trans_lt hb
    by_cases hend : c.EndsPeriod b
    · rw [stateFor, stateAfter_end hend, hpprev, stateNext,
        if_neg (not_le.mpr (hb.trans_le c.begin_le_end)), if_neg (not_le.mpr hb)]
    · rw [stateFor, stateAfter_inside hend, hpprev]

theorem walkForward_walkBack (hcache : c.CacheOk cache)
    (hend : ∀ b ∈ pindexPrev, c.EndsPeriod b) (hin : InTree t pindexPrev)
    (hfuel : nextHeight pindexPrev < fuel) (vToCompute : List BlockPtr) :
    ∃ cache', c.CacheOk cache' ∧
      (let (known, cache, vToCompute) := c.walkBack fuel pindexPrev cache vToCompute
      c.walkForward ((cache known).getD .DEFINED, cache) vToCompute) =
        c.walkForward (c.stateFor pindexPrev, cache') vToCompute := by
  induction fuel generalizing pindexPrev vToCompute with
  | zero => cases hfuel
  | succ fuel ih =>
    cases hknown : cache pindexPrev with
    | some state =>
      refine ⟨cache, hcache, ?_⟩
      rw [hcache _ _ hknown] at hknown
      simp only [walkBack, hknown, isSome_some, if_true, getD_some]
    | none =>
      cases pindexPrev with
      | none =>
        refine ⟨_, hcache.update none, ?_⟩
        simp only [walkBack, hknown, isSome_none, Bool.false_eq_true, if_false, update_self,
          getD_some]
        rfl
      | some p =>
        by_cases hearly : getMedianTimePast p < c.beginTime
        · have hstate : c.stateFor (some p) = .DEFINED :=
            stateFor_early ht hin (by rintro _ ⟨⟩; exact hearly)
          refine ⟨_, hcache.update (some p), ?_⟩
          simp only [walkBack, hknown, isSome_none, Bool.false_eq_true, if_false, if_pos hearly,
            update_self, getD_some, hstate]
        · have hp := hend p rfl
          have hlt : nextHeight (c.previousPeriodParent p) < fuel := by
            have hle := nextHeight_getAncestor_le p (p.height - c.period)
            have hpos := c.period_pos
            have hheight : p.height + 1 < fuel + 1 := hfuel
            exact hle.trans_lt (by omega)
          obtain ⟨cache', hcache', heq⟩ := ih (fun a ha => endsPeriod_previous hp ha)
            (InTree.getAncestor (hin p rfl) _) hlt (p :: vToCompute)
          refine ⟨_, hcache'.update (some p), ?_⟩
          simp only [walkBack, hknown, isSome_none, Bool.false_eq_true, if_false, if_neg hearly]
          refine Eq.trans heq ?_
          rw [stateFor, stateAfter_period hp]
          rfl

theorem getStateFor_spec (hcache : c.CacheOk cache)
    (hin : InTree t pindexPrev) :
    (c.getStateFor pindexPrev cache).1 = c.stateFor pindexPrev ∧
    c.CacheOk (c.getStateFor pindexPrev cache).2 := by
  have hfuel : nextHeight (c.periodParent pindexPrev) < (pindexPrev.map Node.height).getD 0 + 2 := by
    cases pindexPrev with
    | none => exact Nat.two_pos
    | some p =>
      have hmod : 0 ≤ ((p.height : Int) + 1) % c.period :=
        Int.emod_nonneg _ (by have := c.period_pos; omega)
      refine (nextHeight_getAncestor_le p _).trans_lt ?_
      rw [map_some, getD_some]
      omega
  obtain ⟨cache', hcache', heq⟩ := walkForward_walkBack ht hcache
    (fun b hb => endsPeriod_periodParent hb) hin.periodParent hfuel []
  have hresult : c.getStateFor pindexPrev cache = (c.stateFor pindexPrev, cache') := by
    rw [stateFor_periodParent] at heq
    exact heq
  rw [hresult]
  exact ⟨rfl, hcache'⟩

theorem cacheOk_cacheAfter (hqueries : ∀ q ∈ queries, InTree t q) :
    c.CacheOk (c.cacheAfter queries) := by
  have hrun : ∀ (queries : List (Option BlockPtr)) cache, c.CacheOk cache →
    (∀ q ∈ queries, InTree t q) →
      c.CacheOk (queries.foldl (fun cache pindexPrev =>
      (c.getStateFor pindexPrev cache).2) cache) := by
    intro queries
    induction queries with
    | nil => exact fun cache hcache _ => hcache
    | cons q queries ih =>
      intro cache hcache hin
      obtain ⟨hq, hrest⟩ := List.forall_mem_cons.mp hin
      exact ih _ (getStateFor_spec ht hcache hq).2 hrest
  exact hrun queries _ (fun _ _ h => nomatch h) hqueries

theorem sinceFrom_spec (hcache : c.CacheOk cache)
    (hin : p ∈ t.nodes) (hend : c.EndsPeriod p) (hne : c.stateFor (some p) ≠ .DEFINED)
    (hfuel : p.height < fuel) :
    ∃ k : Nat, (c.sinceFrom (c.stateFor (some p)) fuel p cache).1 = k ∧
      IsLeast (c.heightsWith (c.stateFor (some p)) (some p)) k := by
  have hpprev : c.stateFor p.pprev = c.stateFor (c.previousPeriodParent p) := by
    rw [previousPeriodParent_end hend, stateFor_periodParent]
  induction fuel generalizing p cache with
  | zero => cases hfuel
  | succ fuel ih =>
    cases hprev : c.previousPeriodParent p with
    | none =>
      refine ⟨p.height + 1, ?_, isLeast_heightsWith ?_⟩
      · simp only [sinceFrom, hprev, cast_succ]
      · rw [hpprev, hprev]
        exact hne.symm
    | some q =>
      have hq := getAncestor_eq_some.mp hprev
      have hqin := t.mem_of_mem_path hin hq.1
      obtain ⟨hstate, hcache'⟩ := getStateFor_spec ht hcache
        (show InTree t (some q) by rintro _ ⟨⟩; exact hqin)
      by_cases hsame : c.stateFor (some q) = c.stateFor (some p)
      · have hqend := endsPeriod_previous hend hprev
        have hlt : q.height < fuel := by
          have hpos := c.period_pos
          omega
        obtain ⟨k, hk, hleast⟩ := ih hcache' hqin hqend (hsame ▸ hne) hlt
          (by rw [previousPeriodParent_end hqend, stateFor_periodParent])
        rw [hsame] at hk hleast
        refine ⟨k, ?_, isLeast_heightsWith_descendant hq.1 hleast⟩
        simp only [sinceFrom, hprev, hstate, if_pos hsame]
        exact hk
      · refine ⟨p.height + 1, ?_, isLeast_heightsWith ?_⟩
        · simp only [sinceFrom, hprev, hstate, if_neg hsame, cast_succ]
        · rw [hpprev, hprev]
          exact hsame

theorem getStateSinceHeightFor_spec (hcache : c.CacheOk cache)
    (hin : InTree t pindexPrev) :
    ∃ k : Nat, (c.getStateSinceHeightFor pindexPrev cache).1 = k ∧
      IsLeast (c.heightsWith (c.stateFor pindexPrev) pindexPrev) k := by
  obtain ⟨hstate, hcache'⟩ := getStateFor_spec ht hcache hin
  by_cases hdefined : c.stateFor pindexPrev = .DEFINED
  · refine ⟨0, ?_, ⟨Nat.zero_le _, ?_⟩, fun _ _ => Nat.zero_le _⟩
    · simp only [getStateSinceHeightFor, hstate, if_pos hdefined, cast_zero]
    · rw [parentAt_zero, hdefined]
      rfl
  · have hparent := stateFor_periodParent (c := c) pindexPrev
    cases hprev : c.periodParent pindexPrev with
    | none =>
      rw [hprev] at hparent
      exact absurd hparent.symm hdefined
    | some p =>
      rw [hprev] at hparent
      cases pindexPrev with
      | none => cases hprev
      | some b =>
        have hp := getAncestor_eq_some.mp hprev
        obtain ⟨k, hk, hleast⟩ := sinceFrom_spec ht hcache' (t.mem_of_mem_path (hin b rfl) hp.1)
          (endsPeriod_periodParent hprev) (hparent ▸ hdefined) (lt_succ_self _)
        rw [hparent] at hk hleast
        refine ⟨k, ?_, isLeast_heightsWith_descendant hp.1 hleast⟩
        simp only [getStateSinceHeightFor, hstate, if_neg hdefined, hprev]
        exact hk

end

theorem InTree.parentAt (h : InTree t pindexPrev) (height : Nat) :
    InTree t (parentAt pindexPrev height) := by
  cases pindexPrev with
  | none => exact h
  | some b => exact InTree.getAncestor (h b rfl) _

theorem getStateFor_history {t : Tree CBlockHeader} (ht : NonDecreasing t)
    (hqueries : ∀ q ∈ queries, InTree t q) (hin : InTree t pindexPrev) :
    let cache := c.cacheAfter queries
    let state := fun pindex => (c.getStateFor pindex cache).1
    state pindexPrev = c.stateFor pindexPrev ∧
    (∀ h ≤ nextHeight pindexPrev, h / c.period = nextHeight pindexPrev / c.period →
      state (parentAt pindexPrev h) = state pindexPrev) ∧
    (∀ h < nextHeight pindexPrev, state (parentAt pindexPrev (h + 1)) =
      state (parentAt pindexPrev h) ∨ Moves (state (parentAt pindexPrev h))
      (state (parentAt pindexPrev (h + 1)))) ∧
    ∃ k : Nat, (c.getStateSinceHeightFor pindexPrev cache).1 = k ∧
      IsLeast { h | h ≤ nextHeight pindexPrev ∧ state (parentAt pindexPrev h) =
      state pindexPrev } k := by
  have hcache : c.CacheOk (c.cacheAfter queries) := cacheOk_cacheAfter ht hqueries
  have hstate := (getStateFor_spec ht hcache hin).1
  have hparent : ∀ h, (c.getStateFor (parentAt pindexPrev h) (c.cacheAfter queries)).1 =
      c.stateFor (parentAt pindexPrev h) := fun h => (getStateFor_spec ht hcache (hin.parentAt h)).1
  simp only [hstate, hparent]
  exact ⟨trivial, fun h hh hperiod => stateFor_parentAt_period hh hperiod, fun h hh =>
    moves_parentAt hh, getStateSinceHeightFor_spec ht hcache hin⟩

end ThresholdConditionChecker

structure BIP9Deployment where
  bit : Nat
  nStartTime : Int
  nTimeout : Int

def VERSIONBITS_TOP_BITS : BitVec 32 := 0x20000000
def VERSIONBITS_TOP_MASK : BitVec 32 := 0xE0000000

def BIP9Deployment.mask (deployment : BIP9Deployment) : BitVec 32 := 1 <<< deployment.bit

def BIP9Deployment.condition (deployment : BIP9Deployment) (pindex : BlockPtr) : Bool :=
  pindex.value.nVersion &&& VERSIONBITS_TOP_MASK = VERSIONBITS_TOP_BITS &&
    pindex.value.nVersion &&& deployment.mask ≠ 0

def versionBitsConditionChecker (deployment : BIP9Deployment)
    (nMinerConfirmationWindow nRuleChangeActivationThreshold : Nat)
    (hstart : deployment.nStartTime ≤ deployment.nTimeout) (hpos : 1 ≤ nRuleChangeActivationThreshold)
    (hle : nRuleChangeActivationThreshold ≤ nMinerConfirmationWindow) :
    ThresholdConditionChecker where
  condition := deployment.condition
  beginTime := deployment.nStartTime
  endTime := deployment.nTimeout
  period := nMinerConfirmationWindow
  threshold := nRuleChangeActivationThreshold
  begin_le_end := hstart
  threshold_pos := hpos
  threshold_le := hle

theorem nonDecreasing_of_headersPass {t : Tree CBlockHeader}
    (h : ∀ b ∈ t.nodes, HeadersPass params b) :
    ThresholdConditionChecker.NonDecreasing t :=
  fun _ _ hmem => (h _ hmem).median_le_child

def signalling : CBlockHeader := { unminedHeader with nVersion := 0x20000002, nTime := 1 }

def shortPeriods : ThresholdConditionChecker :=
  versionBitsConditionChecker ⟨1, 0, 100⟩ 2 1 (by decide) (by decide) (by decide)

open ThresholdConditionChecker in
theorem getStateFor_history_started :
    (shortPeriods.getStateFor (some (child (.root unminedHeader) signalling))
      (shortPeriods.cacheAfter [none, some (.root unminedHeader)])).1 = .STARTED ∧
    (shortPeriods.getStateSinceHeightFor (some (child (.root unminedHeader) signalling))
      (shortPeriods.cacheAfter [none, some (.root unminedHeader)])).1 = 2 := by
  have hpass : HeadersPass ⟨regTestParams, 0, [], false⟩ (child (.root unminedHeader) signalling) :=
    ⟨trivial, none, 0, by decide⟩
  have ht : NonDecreasing (Tree.below (child (.root unminedHeader) signalling)) :=
    nonDecreasing_of_headersPass fun b hb => hpass.of_mem_path hb
  have hqueries : ∀ q ∈ [none, some (.root unminedHeader)],
      InTree (Tree.below (child (.root unminedHeader) signalling)) q := by
    rintro q hq b rfl
    simp only [List.mem_cons, reduceCtorEq, some.injEq, List.not_mem_nil, or_false, false_or] at hq
    rw [hq]
    exact mem_path_parent ..
  have hin : InTree (Tree.below (child (.root unminedHeader) signalling))
      (some (child (.root unminedHeader) signalling)) := by
    rintro b ⟨⟩
    exact mem_path_self _
  exact ⟨(getStateFor_history ht hqueries hin).1.trans (by decide), by decide⟩

end OurChain
