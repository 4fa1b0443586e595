import OurChain.Lib.Parents

/-!
# Skip pointers

The entries of the block index with the pointers that `BuildSkip` sets, and the three walks over
them: `CBlockIndex::GetAncestor`, `LastCommonAncestor` and `CChain::FindFork`. An entry is
referred to by its position; an assertion that fails, or an entry that does not exist, ends a
walk.
-/

namespace OurChain

open List Option

namespace SkipList

structure BlockEntry where
  pprev : Option Nat
  pskip : Option Nat
  nHeight : Nat
  deriving DecidableEq

abbrev BlockHeap := List BlockEntry

inductive WalkFault
  | assertion
  | dangling
  | loops
  deriving DecidableEq

abbrev WalkM := Except WalkFault

def deref (heap : BlockHeap) (p : Nat) : WalkM BlockEntry :=
  match heap[p]? with
  | none => .error .dangling
  | some entry => .ok entry

def invertLowestOne (n : Nat) : Nat := n &&& (n - 1)

def getSkipHeight (height : Nat) : Nat :=
  if height < 2 then 0
  else if height % 2 = 1 then invertLowestOne (invertLowestOne (height - 1)) + 1
  else invertLowestOne height

/-- Whether the skip pointer of an entry at `heightWalk` is followed on the way to `height`. -/
def followsSkip (heightWalk height : Nat) : Bool :=
  let heightSkip := getSkipHeight heightWalk
  let heightSkipPrev := getSkipHeight (heightWalk - 1)
  heightSkip = height ||
    (heightSkip > height && !((heightSkipPrev : Int) < heightSkip - 2 && heightSkipPrev ≥ height))

def walkStep (heap : BlockHeap) (height : Nat) : Nat × Nat → WalkM (Nat × Nat)
  | (pindexWalk, heightWalk) => do
    let entry ← deref heap pindexWalk
    match entry.pskip, followsSkip heightWalk height with
    | some pskip, true => .ok (pskip, getSkipHeight heightWalk)
    | _, _ =>
      match entry.pprev with
      | none => .error .assertion
      | some pprev => .ok (pprev, heightWalk - 1)

def walk (heap : BlockHeap) (height : Nat) : Nat → Nat × Nat → WalkM Nat
  | 0, (pindexWalk, heightWalk) => if heightWalk > height then .error .loops else .ok pindexWalk
  | turns + 1, (pindexWalk, heightWalk) =>
    if heightWalk > height then do
      walk heap height turns (← walkStep heap height (pindexWalk, heightWalk))
    else .ok pindexWalk

-- The height of the entry bounds the number of turns.
def getAncestor (heap : BlockHeap) (p : Nat) (height : Int) : WalkM (Option Nat) := do
  let entry ← deref heap p
  if height > entry.nHeight ∨ height < 0 then .ok none
  else some <$> walk heap height.toNat entry.nHeight (p, entry.nHeight)

def buildSkip (heap : BlockHeap) (p : Nat) : WalkM BlockHeap := do
  let entry ← deref heap p
  match entry.pprev with
  | none => .ok heap
  | some pprev =>
    let pskip ← getAncestor heap pprev (getSkipHeight entry.nHeight)
    .ok (heap.set p { entry with pskip })

def stepDownTogether (heap : BlockHeap) :
    Nat → Option Nat → Option Nat → WalkM (Option Nat × Option Nat)
  | 0, pa, pb => if pa ≠ pb ∧ pa.isSome ∧ pb.isSome then .error .loops else .ok (pa, pb)
  | turns + 1, some pa, some pb =>
    if pa = pb then .ok (some pa, some pb)
    else do stepDownTogether heap turns (← deref heap pa).pprev (← deref heap pb).pprev
  | _ + 1, pa, pb => .ok (pa, pb)

def lastCommonAncestor (heap : BlockHeap) (pa pb : Nat) : WalkM (Option Nat) := do
  let a ← deref heap pa
  let b ← deref heap pb
  let (qa, qb) ←
    if a.nHeight > b.nHeight then do .ok (← getAncestor heap pa b.nHeight, some pb)
    else if b.nHeight > a.nHeight then do .ok (some pa, ← getAncestor heap pb a.nHeight)
    else .ok (some pa, some pb)
  let (qa, qb) ← stepDownTogether heap (min a.nHeight b.nHeight + 1) qa qb
  if qa = qb then .ok qa else .error .assertion

abbrev CChain := List Nat

namespace CChain

def height (chain : CChain) : Int := chain.length - 1

/-- Whether the chain contains the entry `p` of this height. -/
def contains (chain : CChain) (p nHeight : Nat) : Bool := chain[nHeight]? = some p

def stepDownToChain (heap : BlockHeap) (chain : CChain) : Nat → Option Nat → WalkM (Option Nat)
  | _, none => .ok none
  | 0, some _ => .error .loops
  | turns + 1, some p => do
    let entry ← deref heap p
    if chain.contains p entry.nHeight then .ok (some p)
    else stepDownToChain heap chain turns entry.pprev

def findFork (heap : BlockHeap) (chain : CChain) : Option Nat → WalkM (Option Nat)
  | none => .ok none
  | some p => do
    let entry ← deref heap p
    let q ← if entry.nHeight > chain.height then getAncestor heap p chain.height else .ok (some p)
    stepDownToChain heap chain (entry.nHeight + 1) q

end CChain

def parentOf (heap : BlockHeap) (p : Nat) : Option Nat := heap[p]?.bind BlockEntry.pprev

def heightOf (heap : BlockHeap) (p : Nat) : Nat := (heap[p]?.map BlockEntry.nHeight).getD 0

/-- What `pprev` and `nHeight` of a new entry may be. -/
def Attaches (heap : BlockHeap) (pprev : Option Nat) (nHeight : Nat) : Prop :=
  match pprev with
  | none => nHeight = 0
  | some q => ∃ parent, heap[q]? = some parent ∧ nHeight = parent.nHeight + 1

/-- The block trees there can be: entries without skip pointers, as they are loaded, then
further entries and calls of `BuildSkip` in any order. -/
inductive Built : BlockHeap → Prop
  | loaded (hattached : ∀ entry ∈ heap, Attaches heap entry.pprev entry.nHeight)
      (hnull : ∀ entry ∈ heap, entry.pskip = none) : Built heap
  | add (h : Built heap) (hattached : Attaches heap pprev nHeight) :
    Built (heap ++ [⟨pprev, none, nHeight⟩])
  | skip (h : Built heap) (hbuild : buildSkip heap p = .ok heap') : Built heap'

/-- Every entry is attached, and a skip pointer leads to the ancestor at the skip height. -/
structure SkipsOk (heap : BlockHeap) : Prop where
  attached : ∀ {p : Nat} {entry : BlockEntry}, heap[p]? = some entry →
    Attaches heap entry.pprev entry.nHeight
  skips : ∀ {p : Nat} {entry : BlockEntry} {s : Nat}, heap[p]? = some entry → entry.pskip = some s →
    Forest.up (parentOf heap) (entry.nHeight - getSkipHeight entry.nHeight) p = some s

open Forest

section
variable {heap heap' : BlockHeap} {entry : BlockEntry} {p q : Nat}

theorem parentOf_eq (h : heap[p]? = some entry) : parentOf heap p = entry.pprev := by
  simp [parentOf, h]

theorem heightOf_eq (h : heap[p]? = some entry) : heightOf heap p = entry.nHeight := by
  simp [heightOf, h]

theorem deref_eq (h : heap[p]? = some entry) : deref heap p = .ok entry := by
  simp [deref, h]

namespace SkipsOk

variable (ok : SkipsOk heap)
include ok

theorem ranked : Ranked (parentOf heap) (heightOf heap) where
  step := by
    intro p q hp
    obtain ⟨entry, hentry, hprev⟩ := bind_eq_some_iff.mp hp
    have hattached := ok.attached hentry
    rw [hprev] at hattached
    obtain ⟨parent, hparent, hheight⟩ := hattached
    rw [heightOf_eq hentry, heightOf_eq hparent, hheight]
  root := by
    intro p hp
    cases hentry : heap[p]? with
    | none => simp [heightOf, hentry]
    | some entry =>
      have hattached := ok.attached hentry
      rw [parentOf_eq hentry] at hp
      rw [hp] at hattached
      rw [heightOf_eq hentry]
      exact hattached

theorem parent_exists (hp : parentOf heap p = some q) : ∃ parent, heap[q]? = some parent := by
  obtain ⟨entry, hentry, hprev⟩ := bind_eq_some_iff.mp hp
  have hattached := ok.attached hentry
  rw [hprev] at hattached
  obtain ⟨parent, hparent, -⟩ := hattached
  exact ⟨parent, hparent⟩

theorem leads_exists (hentry : heap[p]? = some entry) (h : Leads (parentOf heap) p q) :
    ∃ e, heap[q]? = some e := by
  obtain ⟨n, hn⟩ := h
  induction n generalizing p entry with
  | zero =>
    obtain rfl : p = q := by simpa [up] using hn
    exact ⟨entry, hentry⟩
  | succ n ih =>
    obtain ⟨r, hr, hn⟩ := bind_eq_some_iff.mp hn
    obtain ⟨parent, hparent⟩ := ok.parent_exists hr
    exact ih hparent hn

end SkipsOk

theorem invertLowestOne_le (n : Nat) : invertLowestOne n ≤ n - 1 := Nat.and_le_right

theorem getSkipHeight_lt (h : 0 < height) : getSkipHeight height < height := by
  unfold getSkipHeight
  split
  · exact h
  · split
    · have hfirst := invertLowestOne_le (height - 1)
      have hsecond := invertLowestOne_le (invertLowestOne (height - 1))
      omega
    · have hle := invertLowestOne_le height
      omega

theorem le_of_followsSkip (h : followsSkip heightWalk height = true) :
    height ≤ getSkipHeight heightWalk := by
  simp only [followsSkip, Bool.or_eq_true, Bool.and_eq_true, decide_eq_true_eq] at h
  obtain rfl | ⟨hlt, -⟩ := h
  · exact Nat.le_refl _
  · exact Nat.le_of_lt hlt

def Stands (heap : BlockHeap) (p : Nat) (s : Nat × Nat) : Prop :=
  Leads (parentOf heap) p s.1 ∧ ∃ entry, heap[s.1]? = some entry ∧ entry.nHeight = s.2

theorem walkStep_down (ok : SkipsOk heap) (hs : Stands heap p s) (hlt : height < s.2) :
    ∃ s', walkStep heap height s = .ok s' ∧ Stands heap p s' ∧ s'.2 < s.2 ∧ height ≤ s'.2 := by
  obtain ⟨q, k⟩ := s
  obtain ⟨hleads, entry, hentry, rfl⟩ := hs
  have hrank := ok.ranked
  have hheight := heightOf_eq hentry
  -- wherever the step leads, it is on the way down from `q`
  have hstands : ∀ {r}, Leads (parentOf heap) q r → ∀ {k}, heightOf heap r = k →
    Stands heap p (r, k) := by
    rintro r hr _ rfl
    obtain ⟨e, he⟩ := ok.leads_exists hentry hr
    exact ⟨hleads.trans hr, e, he, (heightOf_eq he).symm⟩
  have hpprev : ∃ pprev, entry.pprev = some pprev ∧ heightOf heap pprev = entry.nHeight - 1 := by
    cases hprev : entry.pprev with
    | none =>
      have hzero := hrank.root ((parentOf_eq hentry).trans hprev)
      simp only at hlt
      omega
    | some pprev =>
      have hstep := hrank.step ((parentOf_eq hentry).trans hprev)
      exact ⟨pprev, rfl, by omega⟩
  obtain ⟨pprev, hprev, hbelow⟩ := hpprev
  have hdown : ∃ s', (.ok (pprev, entry.nHeight - 1) : WalkM (Nat × Nat)) = .ok s' ∧
    Stands heap p s' ∧
      s'.2 < entry.nHeight ∧ height ≤ s'.2 := by
    refine ⟨_, rfl, hstands (Leads.of_parent ((parentOf_eq hentry).trans hprev)) hbelow, ?_, ?_⟩
    · simp only at hlt ⊢
      omega
    · simp only at hlt ⊢
      omega
  simp only [walkStep, deref_eq hentry, bind, Except.bind]
  cases hskip : entry.pskip with
  | none => simpa [hprev] using hdown
  | some pskip =>
    cases hfollows : followsSkip entry.nHeight height with
    | false => simpa [hprev] using hdown
    | true =>
      have hup := ok.skips hentry hskip
      have hrankup := hrank.height_up hup
      have hlower := getSkipHeight_lt (Nat.zero_lt_of_lt hlt)
      refine ⟨_, rfl, hstands ⟨_, hup⟩ ?_, hlower, le_of_followsSkip hfollows⟩
      simp only at hlower
      omega

theorem walk_spec (ok : SkipsOk heap) (hs : Stands heap p s) (hle : height ≤ s.2)
    (hturns : s.2 ≤ height + turns) :
    ∃ a, walk heap height turns s = .ok a ∧ Leads (parentOf heap) p a ∧ heightOf heap a = height := by
  induction turns generalizing s with
  | zero =>
    obtain ⟨hleads, entry, hentry, hheight⟩ := hs
    have hsame : s.2 = height := by omega
    refine ⟨s.1, ?_, hleads, ?_⟩
    · simp [walk, hsame]
    · rw [heightOf_eq hentry, hheight, hsame]
  | succ turns ih =>
    by_cases hlt : s.2 > height
    · obtain ⟨s', hstep, hs', hdown, hle'⟩ := walkStep_down ok hs hlt
      obtain ⟨a, hwalk, ha⟩ := ih hs' hle' (by omega)
      refine ⟨a, ?_, ha⟩
      rw [walk, if_pos hlt, hstep]
      exact hwalk
    · obtain ⟨hleads, entry, hentry, hheight⟩ := hs
      refine ⟨s.1, ?_, hleads, ?_⟩
      · rw [walk, if_neg hlt]
      · rw [heightOf_eq hentry]
        omega

theorem getAncestor_spec (ok : SkipsOk heap) (hentry : heap[p]? = some entry)
    (hle : height ≤ entry.nHeight) :
    ∃ a, getAncestor heap p height = .ok (some a) ∧
    up (parentOf heap) (entry.nHeight - height) p = some a := by
  have hs : Stands heap p (p, entry.nHeight) := ⟨.refl p, entry, hentry, rfl⟩
  obtain ⟨a, hwalk, hleads, hheight⟩ := walk_spec ok hs hle (Nat.le_add_left _ _)
  refine ⟨a, ?_, ?_⟩
  · have hnot : ¬((height : Int) > entry.nHeight ∨ (height : Int) < 0) := by omega
    simp only [getAncestor, deref_eq hentry, bind, Except.bind, if_neg hnot, Int.toNat_natCast, hwalk]
    rfl
  · rw [← hheight, ← heightOf_eq hentry]
    exact ok.ranked.up_of_leads hleads

def Extends (heap heap' : BlockHeap) : Prop :=
  ∀ (q : Nat) (e : BlockEntry), heap[q]? = some e →
    ∃ e', heap'[q]? = some e' ∧ e'.pprev = e.pprev ∧ e'.nHeight = e.nHeight

theorem Extends.attaches (hext : Extends heap heap') (h : Attaches heap pprev nHeight) :
    Attaches heap' pprev nHeight := by
  cases pprev with
  | none => exact h
  | some q =>
    obtain ⟨parent, hparent, hheight⟩ := h
    obtain ⟨parent', hparent', -, hsame⟩ := hext q parent hparent
    exact ⟨parent', hparent', by rw [hsame, hheight]⟩

theorem Extends.parentOf (hext : Extends heap heap') (a b : Nat) (h : parentOf heap a = some b) :
    parentOf heap' a = some b := by
  obtain ⟨e, he, hb⟩ := bind_eq_some_iff.mp h
  obtain ⟨e', he', hsame, -⟩ := hext a e he
  rw [parentOf_eq he', hsame, hb]

theorem SkipsOk.of_extends (hext : Extends heap heap')
    (h : ∀ (q : Nat) (e : BlockEntry), heap'[q]? = some e → Attaches heap e.pprev e.nHeight ∧
      ∀ s, e.pskip = some s → up (SkipList.parentOf heap) (e.nHeight - getSkipHeight e.nHeight) q =
      some s) :
    SkipsOk heap' where
  attached hq := hext.attaches (h _ _ hq).1
  skips hq hs := up_mono hext.parentOf ((h _ _ hq).2 _ hs)

theorem SkipsOk.add (ok : SkipsOk heap) (hattached : Attaches heap pprev nHeight) :
    SkipsOk (heap ++ [⟨pprev, none, nHeight⟩]) := by
  have hext : Extends heap (heap ++ [⟨pprev, none, nHeight⟩]) := by
    intro q e hq
    exact ⟨e, by rw [getElem?_append_left (List.getElem?_eq_some_iff.mp hq).1, hq], rfl, rfl⟩
  refine .of_extends hext ?_
  intro q e hq
  rw [getElem?_append] at hq
  split at hq
  · exact ⟨ok.attached hq, fun s => ok.skips hq⟩
  · obtain rfl := mem_singleton.mp (mem_of_getElem? hq)
    exact ⟨hattached, fun s hs => by cases hs⟩

theorem SkipsOk.set (ok : SkipsOk heap) (hentry : heap[p]? = some entry)
    (hskip : ∀ s, pskip = some s → up (parentOf heap)
    (entry.nHeight - getSkipHeight entry.nHeight) p = some s) :
    SkipsOk (heap.set p { entry with pskip }) := by
  have hlt : p < heap.length := (List.getElem?_eq_some_iff.mp hentry).1
  have hext : Extends heap (heap.set p { entry with pskip }) := by
    intro q e hq
    by_cases hpq : p = q
    · subst hpq
      obtain rfl : entry = e := some.inj (hentry.symm.trans hq)
      exact ⟨{ entry with pskip }, getElem?_set_self hlt, rfl, rfl⟩
    · exact ⟨e, by rw [getElem?_set_ne hpq, hq], rfl, rfl⟩
  refine .of_extends hext ?_
  intro q e hq
  by_cases hpq : p = q
  · subst hpq
    rw [getElem?_set_self hlt] at hq
    obtain rfl := some.inj hq
    have hattached : Attaches heap entry.pprev entry.nHeight := ok.attached hentry
    exact ⟨hattached, hskip⟩
  · rw [getElem?_set_ne hpq] at hq
    exact ⟨ok.attached hq, fun s => ok.skips hq⟩

theorem buildSkip_spec (ok : SkipsOk heap) (hentry : heap[p]? = some entry) :
    ∃ heap', buildSkip heap p = .ok heap' ∧ SkipsOk heap' := by
  cases hprev : entry.pprev with
  | none =>
    refine ⟨heap, ?_, ok⟩
    simp [buildSkip, deref_eq hentry, hprev, bind, Except.bind]
  | some pprev =>
    have hparent := (parentOf_eq hentry).trans hprev
    obtain ⟨parent, hpprev⟩ := ok.parent_exists hparent
    have hstep := ok.ranked.step hparent
    rw [heightOf_eq hentry, heightOf_eq hpprev] at hstep
    have hlower := getSkipHeight_lt (show 0 < entry.nHeight by omega)
    have hle : getSkipHeight entry.nHeight ≤ parent.nHeight := by omega
    obtain ⟨a, hget, hup⟩ := getAncestor_spec ok hpprev hle
    refine ⟨heap.set p { entry with pskip := some a }, ?_, ok.set hentry ?_⟩
    · simp [buildSkip, deref_eq hentry, hprev, hget, bind, Except.bind]
    · rintro _ ⟨⟩
      have hsteps : entry.nHeight - getSkipHeight entry.nHeight =
          parent.nHeight - getSkipHeight entry.nHeight + 1 := by omega
      rw [hsteps, up, hparent, bind_some, hup]

theorem exists_of_buildSkip (h : buildSkip heap p = .ok heap') : ∃ entry, heap[p]? = some entry := by
  cases hentry : heap[p]? with
  | none => simp [buildSkip, deref, hentry, bind, Except.bind] at h
  | some entry => exact ⟨entry, rfl⟩

theorem Built.skipsOk (h : Built heap) : SkipsOk heap := by
  induction h with
  | loaded hattached hnull =>
    constructor
    · intro p entry hentry
      exact hattached entry (mem_of_getElem? hentry)
    · intro p entry s hentry hs
      rw [hnull entry (mem_of_getElem? hentry)] at hs
      cases hs
  | add _ hattached ih => exact ih.add hattached
  | skip _ hbuild ih =>
    obtain ⟨entry, hentry⟩ := exists_of_buildSkip hbuild
    obtain ⟨heap', hbuild', ok⟩ := buildSkip_spec ih hentry
    obtain rfl := Except.ok.inj (hbuild.symm.trans hbuild')
    exact ok

section
variable (ok : SkipsOk heap)
include ok

theorem stepDownTogether_spec {a b : BlockEntry} (ha : heap[p]? = some a) (hb : heap[q]? = some b)
    (hsame : a.nHeight = b.nHeight) (hturns : a.nHeight < turns) :
    ∃ r, stepDownTogether heap turns (some p) (some q) = .ok (r, r) ∧
      Highest (parentOf heap) (heightOf heap) p (Leads (parentOf heap) q) r := by
  have hrank := ok.ranked
  induction turns generalizing p q a b with
  | zero => omega
  | succ turns ih =>
    by_cases hpq : p = q
    · subst hpq
      refine ⟨some p, ?_, .self hrank (.refl p)⟩
      simp [stepDownTogether]
    · have hpa := parentOf_eq ha
      have hqb := parentOf_eq hb
      have hheights : heightOf heap p = heightOf heap q := by
        rw [heightOf_eq ha, heightOf_eq hb, hsame]
      -- at the same height `q` leads to `p` only if it is `p`
      have hnot : ¬Leads (parentOf heap) q p :=
        fun hqp => hpq (hrank.leads_inj hqp (.refl q) hheights)
      rw [stepDownTogether, if_neg hpq, deref_eq ha, deref_eq hb]
      simp only [bind, Except.bind]
      cases hap : a.pprev with
      | none =>
        have hzero := hrank.root (hpa.trans hap)
        cases hbp : b.pprev with
        | none =>
          refine ⟨none, ?_, .of_root (hpa.trans hap) hnot⟩
          cases turns <;> rfl
        | some q' =>
          have hpos := hrank.step (hqb.trans hbp)
          omega
      | some p' =>
        have hstep := hrank.step (hpa.trans hap)
        obtain ⟨a', ha'⟩ := ok.parent_exists (hpa.trans hap)
        cases hbp : b.pprev with
        | none =>
          have hzero := hrank.root (hqb.trans hbp)
          omega
        | some q' =>
          have hstep' := hrank.step (hqb.trans hbp)
          obtain ⟨b', hb'⟩ := ok.parent_exists (hqb.trans hbp)
          rw [heightOf_eq ha, heightOf_eq ha'] at hstep
          rw [heightOf_eq hb, heightOf_eq hb'] at hstep'
          obtain ⟨r, hwalk, hhighest⟩ := ih ha' hb' (by omega) (by omega)
          refine ⟨r, hwalk, ?_⟩
          refine .of_parent (hpa.trans hap) hnot (hhighest.congr ?_)
          intro d hd
          refine ⟨(Leads.of_parent (hqb.trans hbp)).trans, ?_⟩
          intro hqd
          obtain rfl | ⟨q'', hq'', hleads⟩ := leads_iff.mp hqd
          · have hle := hrank.height_le hd
            rw [heightOf_eq hb, heightOf_eq ha'] at hle
            omega
          · rw [hqb.trans hbp] at hq''
            exact some.inj hq'' ▸ hleads

theorem getAncestor_entry (hentry : heap[p]? = some entry) (hle : height ≤ entry.nHeight) :
    ∃ c e, getAncestor heap p height = .ok (some c) ∧ heap[c]? = some e ∧ e.nHeight = height ∧
      Leads (parentOf heap) p c := by
  obtain ⟨c, hget, hup⟩ := getAncestor_spec ok hentry hle
  have hrankup := ok.ranked.height_up hup
  obtain ⟨e, he⟩ := ok.leads_exists hentry ⟨_, hup⟩
  rw [heightOf_eq hentry, heightOf_eq he] at hrankup
  exact ⟨c, e, hget, he, by omega, _, hup⟩

theorem lastCommonAncestor_spec {a b : BlockEntry} (ha : heap[p]? = some a) (hb : heap[q]? = some b) :
    ∃ r, lastCommonAncestor heap p q = .ok r ∧
      Highest (parentOf heap) (heightOf heap) p (Leads (parentOf heap) q) r := by
  have hrank := ok.ranked
  unfold lastCommonAncestor
  simp only [deref_eq ha, deref_eq hb, bind, Except.bind]
  rcases Nat.lt_trichotomy a.nHeight b.nHeight with hlt | hsame | hgt
  · obtain ⟨c, e, hget, he, hheight, hleads⟩ := getAncestor_entry ok hb hlt.le
    obtain ⟨r, hwalk, hhighest⟩ := stepDownTogether_spec ok ha he hheight.symm (Nat.lt_succ_self _)
    refine ⟨r, ?_, hhighest.congr ?_⟩
    · simp [Nat.not_lt_of_gt hlt, hlt, hget, Nat.min_eq_left hlt.le, hwalk]
    · intro d hd
      refine ⟨hleads.trans, fun hqd => hrank.leads_of_height_le hleads hqd ?_⟩
      rw [heightOf_eq he, hheight, ← heightOf_eq ha]
      exact hrank.height_le hd
  · obtain ⟨r, hwalk, hhighest⟩ := stepDownTogether_spec ok ha hb hsame (Nat.lt_succ_self _)
    refine ⟨r, ?_, hhighest⟩
    rw [hsame] at hwalk
    simp [hsame, hwalk]
  · obtain ⟨c, e, hget, he, hheight, hleads⟩ := getAncestor_entry ok ha hgt.le
    obtain ⟨r, hwalk, hhighest⟩ := stepDownTogether_spec ok he hb hheight (Nat.lt_succ_self _)
    refine ⟨r, ?_, hhighest.of_leads hleads ?_⟩
    · rw [hheight] at hwalk
      simp [hgt, hget, Nat.min_eq_right hgt.le, hwalk]
    · intro d hd hqd
      refine hrank.leads_of_height_le hleads hd ?_
      rw [heightOf_eq he, hheight, ← heightOf_eq hb]
      exact hrank.height_le hqd

theorem stepDownToChain_spec (chain : CChain) (hentry : heap[p]? = some entry)
    (hturns : entry.nHeight < turns) :
    ∃ r, CChain.stepDownToChain heap chain turns (some p) = .ok r ∧
      Highest (parentOf heap) (heightOf heap) p (fun d => chain.contains d (heightOf heap d)) r := by
  have hrank := ok.ranked
  induction turns generalizing p entry with
  | zero => omega
  | succ turns ih =>
    simp only [CChain.stepDownToChain, deref_eq hentry, bind, Except.bind]
    by_cases hcontains : chain.contains p entry.nHeight = true
    · refine ⟨some p, by rw [if_pos hcontains], .self hrank ?_⟩
      rwa [heightOf_eq hentry]
    · rw [if_neg hcontains]
      rw [← heightOf_eq hentry] at hcontains
      have hparent := parentOf_eq hentry
      cases hprev : entry.pprev with
      | none =>
        refine ⟨none, ?_, .of_root (hparent.trans hprev) hcontains⟩
        cases turns <;> rfl
      | some q =>
        obtain ⟨parent, hq⟩ := ok.parent_exists (hparent.trans hprev)
        have hstep := hrank.step (hparent.trans hprev)
        rw [heightOf_eq hentry, heightOf_eq hq] at hstep
        obtain ⟨r, hwalk, hhighest⟩ := ih hq (by omega)
        exact ⟨r, hwalk, .of_parent (hparent.trans hprev) hcontains hhighest⟩

theorem findFork_spec (chain : CChain) (hentry : heap[p]? = some entry) :
    ∃ r, CChain.findFork heap chain (some p) = .ok r ∧
      Highest (parentOf heap) (heightOf heap) p (fun d => chain.contains d (heightOf heap d)) r := by
  unfold CChain.findFork
  simp only [deref_eq hentry, bind, Except.bind]
  -- what the chain contains is at most as high as the chain
  have hbelow : ∀ d, chain.contains d (heightOf heap d) = true → heightOf heap d < chain.length := by
    intro d hd
    simp only [CChain.contains, decide_eq_true_eq] at hd
    exact (List.getElem?_eq_some_iff.mp hd).1
  by_cases hhigher : (entry.nHeight : Int) > chain.height
  · rw [if_pos hhigher]
    cases hempty : chain.length with
    | zero =>
      refine ⟨none, ?_, ?_⟩
      · simp [getAncestor, deref_eq hentry, CChain.height, hempty, bind, Except.bind,
          CChain.stepDownToChain]
      · intro d _ hd
        have hlt := hbelow d hd
        omega
    | succ n =>
      have hheight : chain.height = (n : Int) := by simp [CChain.height, hempty]
      rw [hheight] at hhigher ⊢
      obtain ⟨c, e, hget, he, rfl, hleads⟩ :=
        getAncestor_entry ok hentry (show n ≤ entry.nHeight by omega)
      obtain ⟨r, hwalk, hhighest⟩ := stepDownToChain_spec ok chain he
        (show e.nHeight < entry.nHeight + 1 by omega)
      refine ⟨r, by simp [hget, hwalk], hhighest.of_leads hleads ?_⟩
      intro d hd hcontains
      refine ok.ranked.leads_of_height_le hleads hd ?_
      have hlt := hbelow d hcontains
      rw [heightOf_eq he]
      omega
  · rw [if_neg hhigher]
    exact stepDownToChain_spec ok chain hentry (Nat.lt_succ_self _)

end

def Turn (heap : BlockHeap) (height : Nat) (s s' : Nat × Nat) :
    Prop := height < s.2 ∧ walkStep heap height s = .ok s'

theorem stands_of_turns (ok : SkipsOk heap) (hs : Stands heap p s)
    (h : Relation.ReflTransGen (Turn heap height) s s') :
    Stands heap p s' := by
  induction h with
  | refl => exact hs
  | tail _ hturn ih =>
    obtain ⟨hlt, hstep⟩ := hturn
    obtain ⟨s', hstep', hs', -⟩ := walkStep_down ok ih hlt
    obtain rfl := Except.ok.inj (hstep.symm.trans hstep')
    exact hs'

/-- `GetAncestor` gives the entry that `pprev` leads to, without a failing assertion and with a
step down in each turn; `BuildSkip` can be called for every entry; `LastCommonAncestor` gives
the highest entry that both lead to, and `FindFork` the highest one that the chain contains. -/
theorem walks_of_built (hbuilt : Built heap) (hentry : heap[p]? = some entry) :
    (∀ h ≤ entry.nHeight, ∃ a, getAncestor heap p h = .ok (some a) ∧
      up (parentOf heap) (entry.nHeight - h) p = some a) ∧
    (∀ h ≤ entry.nHeight, ∀ s, Relation.ReflTransGen (Turn heap h) (p, entry.nHeight) s → h < s.2 →
      ∃ s', walkStep heap h s = .ok s' ∧ heightOf heap s.1 = s.2 ∧
      heightOf heap s'.1 = s'.2 ∧ s'.2 < s.2) ∧
    (∃ heap', buildSkip heap p = .ok heap') ∧
    (∀ q < heap.length, ∃ r, lastCommonAncestor heap p q = .ok r ∧
      Highest (parentOf heap) (heightOf heap) p (Leads (parentOf heap) q) r) ∧
    (∀ chain : CChain, ∃ r, chain.findFork heap (some p) = .ok r ∧
      Highest (parentOf heap) (heightOf heap) p (fun d => chain.contains d (heightOf heap d)) r) := by
  have ok := hbuilt.skipsOk
  refine ⟨?_, ?_, ?_, ?_, ?_⟩
  · intro h hle
    exact getAncestor_spec ok hentry hle
  · intro h hle s hturns hlt
    have hs := stands_of_turns ok ⟨.refl p, entry, hentry, rfl⟩ hturns
    obtain ⟨s', hstep, hs', hdown, -⟩ := walkStep_down ok hs hlt
    obtain ⟨-, e, he, hheight⟩ := hs
    obtain ⟨-, e', he', hheight'⟩ := hs'
    exact ⟨s', hstep, (heightOf_eq he).trans hheight, (heightOf_eq he').trans hheight', hdown⟩
  · obtain ⟨heap', hbuild, -⟩ := buildSkip_spec ok hentry
    exact ⟨heap', hbuild⟩
  · intro q hq
    exact lastCommonAncestor_spec ok hentry (getElem?_eq_getElem hq)
  · intro chain
    exact findFork_spec ok chain hentry

def fourBlocks : BlockHeap := [⟨none, none, 0⟩, ⟨some 0, none, 1⟩, ⟨some 1, some 0, 2⟩,
    ⟨some 2, none, 3⟩]

theorem walks_of_built_three :
    ∃ a, getAncestor fourBlocks 3 0 = .ok (some a) ∧ up (parentOf fourBlocks) (3 - 0) 3 = some a := by
  have hloaded : Built [⟨none, none, 0⟩, ⟨some 0, none, 1⟩, ⟨some 1, none, 2⟩] := by
    refine .loaded ?_ (by decide)
    rintro entry (_ | ⟨_, _ | ⟨_, _ | ⟨_, ⟨⟩⟩⟩⟩)
    · rfl
    · exact ⟨⟨none, none, 0⟩, rfl, rfl⟩
    · exact ⟨⟨some 0, none, 1⟩, rfl, rfl⟩
  have hskip : Built [⟨none, none, 0⟩, ⟨some 0, none, 1⟩, ⟨some 1, some 0, 2⟩] :=
    hloaded.skip (show buildSkip _ 2 = _ by decide)
  have hadd : Built fourBlocks := hskip.add ⟨⟨some 1, some 0, 2⟩, rfl, rfl⟩
  exact (walks_of_built hadd (show _ = some ⟨some 2, none, 3⟩ from rfl)).1 0 (Nat.zero_le 3)

end

end SkipList

end OurChain
