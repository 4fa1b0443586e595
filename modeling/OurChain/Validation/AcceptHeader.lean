import OurChain.Validation.Context
import OurChain.BlockIndex
import OurChain.Lib.Table

/-!
# Accepting headers

`AddToBlockIndex` and `AcceptBlockHeader`. The index is found by the header hash,
which leaves `hashGPoW` out, and keeps the first version of a header that is
accepted. What a run of headers leaves in the index is described without the order
of delivery, by `Reaches`; what depends on the order is `hashGPoW` alone.
-/

namespace OurChain

open List Option
open CBlockIndex (haveBit)

structure HeaderState where
  mapBlockIndex : List BlockPtr
  nStatus : BlockPtr → BitVec 32
  pindexBestHeader : Option BlockPtr

/-- The chain, the hash of `CHashWriter`, and the adjusted time. -/
structure HeaderEnv where
  params : ChainParams
  H : Bytes → Uint256
  nAdjustedTime : Int

def isValid (nUpTo nStatus : BitVec 32) : Bool :=
  if haveBit nStatus BLOCK_FAILED_MASK then false else decide (nUpTo ≤ nStatus &&& BLOCK_VALID_MASK)

def raiseValidity (nUpTo nStatus : BitVec 32) : BitVec 32 :=
  if haveBit nStatus BLOCK_FAILED_MASK then nStatus
  else if nStatus &&& BLOCK_VALID_MASK < nUpTo then (nStatus &&& ~~~BLOCK_VALID_MASK) ||| nUpTo
  else nStatus

@[simp] theorem haveBit_set (nStatus bit mask : BitVec 32) :
    haveBit (nStatus ||| bit) mask = (haveBit nStatus mask || haveBit bit mask) := by
  rw [Bool.eq_iff_iff]
  simp only [haveBit, bne_iff_ne, Bool.or_eq_true]
  rw [BitVec.and_comm, BitVec.and_or_distrib_left, Ne, BitVec.or_eq_zero_iff, not_and_or,
    BitVec.and_comm mask, BitVec.and_comm mask]

theorem haveBit_raiseValidity (nUpTo nStatus : BitVec 32) {mask : BitVec 32}
    (hlevel : nUpTo &&& mask = 0#32) (hmask : ~~~BLOCK_VALID_MASK &&& mask = mask) :
    haveBit (raiseValidity nUpTo nStatus) mask = haveBit nStatus mask := by
  unfold raiseValidity
  split
  · rfl
  · split
    · have hlevel' : haveBit nUpTo mask = false := by simp [haveBit, hlevel]
      rw [haveBit_set, hlevel', Bool.or_false, haveBit, haveBit, BitVec.and_assoc, hmask]
    · rfl

variable (env : HeaderEnv)

def HeaderEnv.hashOf (n : BlockPtr) : Uint256 := n.value.getHash env.H

def HeaderState.find (s : HeaderState) (hash : Uint256) : Option BlockPtr :=
  Table.find env.hashOf s.mapBlockIndex hash

def HeaderState.addEntry (s : HeaderState) (pindexNew : BlockPtr) : HeaderState where
  mapBlockIndex := s.mapBlockIndex ++ [pindexNew]
  nStatus := Function.update s.nStatus pindexNew (raiseValidity BLOCK_VALID_TREE 0#32)
  pindexBestHeader :=
    if s.pindexBestHeader.all fun best => nChainWork best < nChainWork pindexNew then some pindexNew
    else s.pindexBestHeader

def addToBlockIndex (block : CBlockHeader) (s : HeaderState) : BlockPtr × HeaderState :=
  match s.find env (block.getHash env.H) with
  | some pindex => (pindex, s)
  | none =>
    let pindexNew := match s.find env block.hashPrevBlock with
      | some pprev => .child pprev block
      | none => .root block
    (pindexNew, s.addEntry pindexNew)

def acceptBlockHeader (block : CBlockHeader) (s : HeaderState) :
    Except Reject BlockPtr × HeaderState :=
  let hash := block.getHash env.H
  if hash ≠ env.params.hashGenesisBlock then
    match s.find env hash with
    | some pindex =>
      if haveBit (s.nStatus pindex) BLOCK_FAILED_MASK then (.error ⟨0, 0, "duplicate", false, ""⟩, s)
      else (.ok pindex, s)
    | none =>
      match checkBlockHeader env.params.consensus block true with
      | .error reject => (.error reject, s)
      | .ok () =>
        match s.find env block.hashPrevBlock with
        | none => (.error ⟨10, 0, "prev-blk-not-found", false, ""⟩, s)
        | some pindexPrev =>
          if haveBit (s.nStatus pindexPrev) BLOCK_FAILED_MASK then
            (.error ⟨100, REJECT_INVALID, "bad-prevblk", false, ""⟩, s)
          else
            match contextualCheckBlockHeader env.params (getLastCheckpoint env.params (s.find env))
                block pindexPrev env.nAdjustedTime with
            | .error reject => (.error reject, s)
            | .ok () =>
              let (pindex, s) := addToBlockIndex env block s
              (.ok pindex, s)
  else
    let (pindex, s) := addToBlockIndex env block s
    (.ok pindex, s)

def deliver (headers : List CBlockHeader) (s : HeaderState) : HeaderState :=
  headers.foldl (fun s block => (acceptBlockHeader env block s).2) s

/-- An index that `LoadGenesisBlock` has filled: the genesis block is there, and a hash
names one entry. -/
structure HeaderState.WellFormed (s : HeaderState) : Prop where
  genesis : (s.find env env.params.hashGenesisBlock).isSome
  nodup : (s.mapBlockIndex.map env.hashOf).Nodup

/-- The header is new and passes every check on top of `p`. -/
structure Joins (s : HeaderState) (block : CBlockHeader) (p : BlockPtr) : Prop where
  unknown : s.find env (block.getHash env.H) = none
  pow : checkBlockHeader env.params.consensus block true = .ok ()
  prev : s.find env block.hashPrevBlock = some p
  sound : haveBit (s.nStatus p) BLOCK_FAILED_MASK = false
  context : contextualCheckBlockHeader env.params (getLastCheckpoint env.params (s.find env)) block p
    env.nAdjustedTime = .ok ()

variable {env} {s : HeaderState}

theorem find_addEntry (n : BlockPtr) (hnew : s.find env (env.hashOf n) = none) (hash : Uint256) :
    (s.addEntry n).find env hash = if hash = env.hashOf n then some n else s.find env hash := by
  have hadd : (s.addEntry n).mapBlockIndex = Table.add env.hashOf n s.mapBlockIndex := by
    rw [Table.add, if_neg]
    · rfl
    · rw [← HeaderState.find, hnew]
      simp
  rw [HeaderState.find, hadd, Table.find_add, ← HeaderState.find]
  by_cases hhash : hash = env.hashOf n
  · simp [hhash, hnew]
  · simp [hhash]

section
variable (hs : s.WellFormed env)
include hs

theorem HeaderState.find_of_mem (hn : n ∈ s.mapBlockIndex) :
    s.find env (env.hashOf n) = some n := Table.find_of_mem hs.nodup hn

theorem HeaderState.WellFormed.of_map_eq {s' : HeaderState}
    (h : s'.mapBlockIndex = s.mapBlockIndex) : s'.WellFormed env where
  genesis := by
    rw [HeaderState.find, h]
    exact hs.genesis
  nodup := h ▸ hs.nodup

theorem acceptBlockHeader_joins (h : Joins env s block p) :
    acceptBlockHeader env block s = (.ok (.child p block), s.addEntry (.child p block)) := by
  have hne : block.getHash env.H ≠ env.params.hashGenesisBlock := by
    intro heq
    have := hs.genesis
    rw [← heq, h.unknown] at this
    cases this
  simp only [acceptBlockHeader, if_pos hne, h.unknown, h.pow, h.prev, h.sound, h.context,
    addToBlockIndex, Bool.false_eq_true, if_false]

theorem acceptBlockHeader_cases (block : CBlockHeader) :
    (∃ p, Joins env s block p) ∨ ((acceptBlockHeader env block s).2 = s ∧
      ∀ n, (acceptBlockHeader env block s).1 = .ok n → n ∈ s.mapBlockIndex) := by
  unfold acceptBlockHeader
  dsimp only
  split
  · split
    · rename_i pindex hknown
      split
      · exact .inr ⟨rfl, by simp⟩
      · refine .inr ⟨rfl, ?_⟩
        rintro n ⟨⟩
        exact Table.find_mem hknown
    · rename_i hunknown
      split
      · exact .inr ⟨rfl, by simp⟩
      · rename_i hpow
        split
        · exact .inr ⟨rfl, by simp⟩
        · rename_i p hprev
          split
          · exact .inr ⟨rfl, by simp⟩
          · rename_i hsound
            split
            · exact .inr ⟨rfl, by simp⟩
            · rename_i hcontext
              exact .inl ⟨p, hunknown, hpow, hprev, by simpa using hsound, hcontext⟩
  · rename_i hgenesis
    obtain ⟨g, hg⟩ := isSome_iff_exists.mp hs.genesis
    simp only [not_not] at hgenesis
    have hadd : addToBlockIndex env block s = (g, s) := by simp only [addToBlockIndex, hgenesis, hg]
    rw [hadd]
    refine .inr ⟨rfl, ?_⟩
    rintro n ⟨⟩
    exact Table.find_mem hg

theorem nStatus_addEntry_of_mem (hnew : s.find env (env.hashOf n) = none)
    (hm : m ∈ s.mapBlockIndex) : (s.addEntry n).nStatus m = s.nStatus m := by
  refine Function.update_of_ne ?_ _ _
  rintro rfl
  rw [s.find_of_mem hs hm] at hnew
  cases hnew

theorem HeaderState.WellFormed.addEntry (hnew : s.find env (env.hashOf n) = none) :
    (s.addEntry n).WellFormed env where
  genesis := by
    rw [find_addEntry n hnew]
    split
    · rfl
    · exact hs.genesis
  nodup := by
    have hfresh : ∀ a ∈ s.mapBlockIndex, env.hashOf a ≠ env.hashOf n := by
      intro a ha heq
      rw [← heq, s.find_of_mem hs ha] at hnew
      cases hnew
    simpa [HeaderState.addEntry, nodup_append, hs.nodup] using hfresh

end

/-- No header stands after, or is, one that names it as its parent. -/
def ParentsFirst (H : Bytes → Uint256) (headers : List CBlockHeader) : Prop :=
  headers.Pairwise (fun a b => b.getHash H ≠ a.hashPrevBlock) ∧
    ∀ a ∈ headers, a.getHash H ≠ a.hashPrevBlock

instance (H : Bytes → Uint256) (headers : List CBlockHeader) : Decidable (ParentsFirst H headers) :=
  inferInstanceAs (Decidable (_ ∧ _))

/-- The entries, seen through `f`, that the headers can add to `s` in some order. -/
inductive Reaches (env : HeaderEnv) (f : CBlockHeader → CBlockHeader) (s : HeaderState)
    (headers : List CBlockHeader) : BlockPtr → Prop
  | known (hn : n ∈ s.mapBlockIndex) : Reaches env f s headers (n.map f)
  | header (hp : Reaches env f s headers p) (hg : g ∈ headers)
      (hnew : s.find env (g.getHash env.H) = none)
      (hpow : checkBlockHeader env.params.consensus g true = .ok ())
      (hprev : env.hashOf p = g.hashPrevBlock)
      (hsound : ∀ n, s.find env (env.hashOf p) = some n →
        haveBit (s.nStatus n) BLOCK_FAILED_MASK = false)
      (hcontext : contextualCheckBlockHeader env.params
        (getLastCheckpoint env.params (s.find env)) g p env.nAdjustedTime = .ok ()) :
      Reaches env f s headers (.child p (f g))

/-- Headers with one hash that pass the proof-of-work check are the same to `f`. -/
def AgreeOn (env : HeaderEnv) (f : CBlockHeader → CBlockHeader) (headers : List CBlockHeader) :
    Prop :=
  ∀ g ∈ headers, ∀ g' ∈ headers, checkBlockHeader env.params.consensus g true = .ok () →
    checkBlockHeader env.params.consensus g' true = .ok () →
    g.getHash env.H = g'.getHash env.H → f g = f g'

/-- No header brings a checkpoint that the index does not have yet. -/
def CheckpointsSettled (env : HeaderEnv) (s : HeaderState) (headers : List CBlockHeader) : Prop :=
  env.params.fCheckpointsEnabled = false ∨ ∀ g ∈ headers, ∀ cp ∈ env.params.mapCheckpoints,
    cp.2 = g.getHash env.H → (s.find env cp.2).isSome

section
variable {f : CBlockHeader → CBlockHeader} {s₀ : HeaderState} {headers : List CBlockHeader}

theorem Reaches.mono (h : Reaches env f s₀ headers r) (hsub : ∀ g ∈ headers, g ∈ headers') :
    Reaches env f s₀ headers' r := by
  induction h with
  | known hn => exact .known hn
  | header _ hg hnew hpow hprev hsound hcontext ih =>
    exact .header ih (hsub _ hg) hnew hpow hprev hsound hcontext

variable (hf : KeepsHashed f)
include hf

@[simp] theorem KeepsHashed.hashOf_map (n : BlockPtr) : env.hashOf (n.map f) = env.hashOf n := by
  simp [HeaderEnv.hashOf, hf.getHash_eq]

theorem KeepsHashed.hashOf_child (p : BlockPtr) (g : CBlockHeader) :
    env.hashOf (.child p (f g)) = g.getHash env.H := hf.getHash_eq env.H g

theorem Reaches.known_or_header (h : Reaches env f s₀ headers r) (hs : s₀.WellFormed env) :
    (s₀.find env (env.hashOf r)).isSome ∨ ∃ g ∈ headers, env.hashOf r = g.getHash env.H := by
  cases h with
  | known hn =>
    rw [hf.hashOf_map, s₀.find_of_mem hs hn]
    exact .inl rfl
  | header _ hg => exact .inr ⟨_, hg, hf.hashOf_child _ _⟩

theorem Reaches.unique (hs : s₀.WellFormed env) (hagree : AgreeOn env f headers)
    (h : Reaches env f s₀ headers r) (h' : Reaches env f s₀ headers r')
    (hhash : env.hashOf r = env.hashOf r') : r = r' := by
  induction h generalizing r' with
  | known hn =>
    rw [hf.hashOf_map] at hhash
    cases h' with
    | known hn' =>
      rw [hf.hashOf_map] at hhash
      have hfind := s₀.find_of_mem hs hn
      rw [hhash, s₀.find_of_mem hs hn'] at hfind
      rw [some.inj hfind]
    | header _ _ hnew =>
      rw [hf.hashOf_child] at hhash
      rw [← hhash, s₀.find_of_mem hs hn] at hnew
      cases hnew
  | header _ hg hnew hpow hprev _ _ ih =>
    rw [hf.hashOf_child] at hhash
    cases h' with
    | known hn' =>
      rw [hf.hashOf_map] at hhash
      rw [hhash, s₀.find_of_mem hs hn'] at hnew
      cases hnew
    | header hp' hg' _ hpow' hprev' _ _ =>
      rw [hf.hashOf_child] at hhash
      have hfg := hagree _ hg _ hg' hpow hpow' hhash
      have hparent := congrArg CBlockHeader.hashPrevBlock hfg
      rw [hf.hashPrevBlock_eq, hf.hashPrevBlock_eq, ← hprev, ← hprev'] at hparent
      rw [ih hp' hparent, hfg]

theorem Reaches.snoc (hfirst : ParentsFirst env.H (headers ++ [g]))
    (h : Reaches env f s₀ (headers ++ [g]) r) :
    Reaches env f s₀ headers r ∨ ∃ p, r = .child p (f g) ∧ Reaches env f s₀ headers p ∧
      checkBlockHeader env.params.consensus g true = .ok () ∧ env.hashOf p = g.hashPrevBlock ∧
      (∀ n, s₀.find env (env.hashOf p) = some n →
        haveBit (s₀.nStatus n) BLOCK_FAILED_MASK = false) ∧
      contextualCheckBlockHeader env.params (getLastCheckpoint env.params (s₀.find env)) g p
        env.nAdjustedTime = .ok () := by
  induction h with
  | known hn => exact .inl (.known hn)
  | @header p g' _ hg hnew hpow hprev hsound hcontext ih =>
    have hp : Reaches env f s₀ headers p := by
      rcases ih with hp | ⟨q, rfl, -⟩
      · exact hp
      · -- the parent would be the last header, which no header names
        rw [hf.hashOf_child] at hprev
        rcases mem_append.mp hg with hg | hg
        · exact absurd hprev ((pairwise_append.mp hfirst.1).2.2 g' hg g (by simp))
        · cases mem_singleton.mp hg
          exact absurd hprev (hfirst.2 g (by simp))
    rcases mem_append.mp hg with hg | hg
    · exact .inl (.header hp hg hnew hpow hprev hsound hcontext)
    · cases mem_singleton.mp hg
      exact .inr ⟨p, rfl, hp, hpow, hprev, hsound, hcontext⟩

end

/-- `s` holds what the headers can reach from `s₀`, and nothing else. -/
structure Delivered (env : HeaderEnv) (f : CBlockHeader → CBlockHeader) (s₀ : HeaderState)
    (headers : List CBlockHeader) (s : HeaderState) : Prop extends s.WellFormed env where
  old : ∀ hash n, s₀.find env hash = some n →
    s.find env hash = some n ∧ s.nStatus n = s₀.nStatus n
  fresh : ∀ n ∈ s.mapBlockIndex, s₀.find env (env.hashOf n) = none →
    haveBit (s.nStatus n) BLOCK_FAILED_MASK = false
  reached : ∀ n ∈ s.mapBlockIndex, Reaches env f s₀ headers (n.map f)
  complete : ∀ r, Reaches env f s₀ headers r → ∃ n ∈ s.mapBlockIndex, n.map f = r

section
variable {f : CBlockHeader → CBlockHeader} {s₀ : HeaderState} {headers : List CBlockHeader}
theorem Delivered.initial (hs : s₀.WellFormed env) : Delivered env f s₀ [] s₀ where
  toWellFormed := hs
  old _ _ h := ⟨h, rfl⟩
  fresh n hn hnone := by
    rw [s₀.find_of_mem hs hn] at hnone
    cases hnone
  reached n hn := .known hn
  complete r h := by
    cases h with
    | known hn => exact ⟨_, hn, rfl⟩
    | header _ hg => cases hg

theorem Delivered.sound_iff (h : Delivered env f s₀ headers s) (hp : p ∈ s.mapBlockIndex) :
    (∀ n, s₀.find env (env.hashOf p) = some n → haveBit (s₀.nStatus n) BLOCK_FAILED_MASK = false) ↔
      haveBit (s.nStatus p) BLOCK_FAILED_MASK = false := by
  have hfind := s.find_of_mem h.toWellFormed hp
  cases hold : s₀.find env (env.hashOf p) with
  | none => simpa using h.fresh p hp hold
  | some n =>
    obtain ⟨hfind', hstatus⟩ := h.old _ n hold
    cases hfind.symm.trans hfind'
    simp [hstatus]

variable (hf : KeepsHashed f)
include hf

theorem Delivered.context_eq (h : Delivered env f s₀ headers s)
    (hcp : CheckpointsSettled env s₀ headers) (hs : s₀.WellFormed env) (block : CBlockHeader)
    (p : BlockPtr) :
    contextualCheckBlockHeader env.params (getLastCheckpoint env.params (s.find env)) block p
      env.nAdjustedTime =
    contextualCheckBlockHeader env.params (getLastCheckpoint env.params (s₀.find env)) block p
      env.nAdjustedTime := by
  rcases hcp with hoff | hcp
  · simp [contextualCheckBlockHeader, hoff]
  · have hfind : ∀ cp ∈ env.params.mapCheckpoints, s.find env cp.2 = s₀.find env cp.2 := by
      intro cp hmem
      cases hold : s₀.find env cp.2 with
      | some n => exact (h.old cp.2 n hold).1
      | none =>
        rw [← not_isSome_iff_eq_none]
        intro hsome
        obtain ⟨n, hn⟩ := isSome_iff_exists.mp hsome
        have hkey : env.hashOf n = cp.2 := Table.find_key hn
        rcases Reaches.known_or_header hf (h.reached n (Table.find_mem hn)) hs with hknown | ⟨g, hg,
          hhash⟩
        · simp [hf.hashOf_map, hkey, hold] at hknown
        · have := hcp g hg cp hmem (by rw [← hhash, hf.hashOf_map, hkey])
          simp [hold] at this
    rw [getLastCheckpoint_congr env.params hfind]

section
variable (h : Delivered env f s₀ headers s) (hs : s₀.WellFormed env)
    (hfirst : ParentsFirst env.H (headers ++ [g]))
include h hs hfirst

theorem Delivered.joins (hcp : CheckpointsSettled env s₀ headers)
    (hj : Joins env s g p) : Delivered env f s₀ (headers ++ [g]) (s.addEntry (.child p g)) := by
  have hsub : ∀ g' ∈ headers, g' ∈ headers ++ [g] := fun _ => mem_append_left _
  have hwf := h.toWellFormed
  have hpmem := Table.find_mem hj.prev
  have hphash : env.hashOf p = g.hashPrevBlock := Table.find_key hj.prev
  have hnew : s.find env (env.hashOf (.child p g)) = none := hj.unknown
  refine ⟨hwf.addEntry hnew, fun hash n hold => ?_, fun n hn hnone => ?_, fun n hn => ?_,
    fun r hr => ?_⟩
  · obtain ⟨hfind, hstatus⟩ := h.old hash n hold
    refine ⟨?_, (nStatus_addEntry_of_mem hwf hnew (Table.find_mem hfind)).trans hstatus⟩
    rw [find_addEntry _ hnew, if_neg, hfind]
    rintro rfl
    rw [hnew] at hfind
    cases hfind
  · rcases mem_append.mp hn with hn | hn
    · rw [nStatus_addEntry_of_mem hwf hnew hn]
      exact h.fresh n hn hnone
    · cases mem_singleton.mp hn
      simp only [HeaderState.addEntry, Function.update_self]
      decide
  · rcases mem_append.mp hn with hn | hn
    · exact (h.reached n hn).mono hsub
    · cases mem_singleton.mp hn
      refine .header ((h.reached p hpmem).mono hsub) (by simp) ?_ hj.pow ?_ ?_ ?_
      · rw [← not_isSome_iff_eq_none]
        intro hsome
        obtain ⟨n, hn⟩ := isSome_iff_exists.mp hsome
        cases (h.old _ n hn).1.symm.trans hj.unknown
      · rw [hf.hashOf_map, hphash]
      · rw [hf.hashOf_map]
        exact (h.sound_iff hpmem).mpr hj.sound
      · rw [hf.context_eq, ← h.context_eq hf hcp hs]
        exact hj.context
  · rcases hr.snoc hf hfirst with hr | ⟨q, rfl, hq, -, hprev, -⟩
    · obtain ⟨n, hn, hmap⟩ := h.complete r hr
      exact ⟨n, mem_append_left _ hn, hmap⟩
    · obtain ⟨m, hm, rfl⟩ := h.complete q hq
      rw [hf.hashOf_map] at hprev
      have hfind := s.find_of_mem hwf hm
      rw [hprev, hj.prev] at hfind
      cases hfind
      exact ⟨.child p g, by simp [HeaderState.addEntry], rfl⟩

section
variable (hagree : AgreeOn env f (headers ++ [g])) (hcp : CheckpointsSettled env s₀ headers)
include hagree hcp

theorem Delivered.dropped (hjoins : ¬ ∃ p, Joins env s g p) :
    Delivered env f s₀ (headers ++ [g]) s := by
  have hsub : ∀ g' ∈ headers, g' ∈ headers ++ [g] := fun _ => mem_append_left _
  have hwf := h.toWellFormed
  refine ⟨hwf, h.old, h.fresh, fun n hn => (h.reached n hn).mono hsub, fun r hr => ?_⟩
  rcases hr.snoc hf hfirst with hr' | ⟨q, rfl, hq, hpow, hprev, hsound, hcontext⟩
  · exact h.complete r hr'
  · obtain ⟨m, hm, rfl⟩ := h.complete q hq
    rw [hf.hashOf_map] at hprev hsound
    cases hknown : s.find env (g.getHash env.H) with
    | none =>
      rw [hf.context_eq, ← h.context_eq hf hcp hs] at hcontext
      exact absurd ⟨m, hknown, hpow, hprev ▸ s.find_of_mem hwf hm, (h.sound_iff hm).mp hsound,
        hcontext⟩ hjoins
    | some k =>
      -- an earlier header has the same hash
      refine ⟨k, Table.find_mem hknown, ?_⟩
      have hk : env.hashOf k = g.getHash env.H := Table.find_key hknown
      refine Reaches.unique hf hs hagree ((h.reached k (Table.find_mem hknown)).mono hsub) hr ?_
      rw [hf.hashOf_map, hk, hf.hashOf_child]

theorem Delivered.step : Delivered env f s₀ (headers ++ [g]) (acceptBlockHeader env g s).2 := by
  by_cases hjoins : ∃ p, Joins env s g p
  · obtain ⟨p, hj⟩ := hjoins
    rw [acceptBlockHeader_joins h.toWellFormed hj]
    exact h.joins hf hs hfirst hcp hj
  · rw [((acceptBlockHeader_cases h.toWellFormed g).resolve_left hjoins).1]
    exact h.dropped hf hs hfirst hagree hcp hjoins

end

end

theorem deliver_delivered (hs : s₀.WellFormed env) (hfirst : ParentsFirst env.H headers)
    (hagree : AgreeOn env f headers) (hcp : CheckpointsSettled env s₀ headers) :
    Delivered env f s₀ headers (deliver env headers s₀) := by
  induction headers using List.reverseRecOn with
  | nil => exact .initial hs
  | append_singleton headers g ih =>
    have hsub : ∀ g' ∈ headers, g' ∈ headers ++ [g] := fun _ => mem_append_left _
    have hcp' : CheckpointsSettled env s₀ headers := hcp.imp_right fun h g hg => h g (hsub g hg)
    have hprefix : Delivered env f s₀ headers (deliver env headers s₀) :=
      ih ⟨(pairwise_append.mp hfirst.1).1, fun a ha => hfirst.2 a (hsub a ha)⟩
        (fun a ha b hb => hagree a (hsub a ha) b (hsub b hb)) hcp'
    rw [deliver, foldl_append]
    exact hprefix.step hf hs hfirst hagree hcp'

theorem Delivered.find_eq (h₁ : Delivered env f s₀ headers s₁) (h₂ : Delivered env f s₀ headers' s₂)
    (hsame : ∀ g, g ∈ headers ↔ g ∈ headers') (hash : Uint256) :
    (s₁.find env hash).map (Node.map f) = (s₂.find env hash).map (Node.map f) := by
  have hfound : ∀ {s s' L L'}, Delivered env f s₀ L s → Delivered env f s₀ L' s' →
      (∀ g ∈ L, g ∈ L') → ∀ n, s.find env hash = some n →
      ∃ m, s'.find env hash = some m ∧ m.map f = n.map f := by
    intro s s' L L' h h' hsub n hn
    obtain ⟨m, hm, hmap⟩ := h'.complete _ ((h.reached n (Table.find_mem hn)).mono hsub)
    refine ⟨m, ?_, hmap⟩
    rw [← s'.find_of_mem h'.toWellFormed hm, ← hf.hashOf_map, hmap, hf.hashOf_map]
    exact congrArg _ (Table.find_key hn).symm
  cases hn : s₁.find env hash with
  | some n =>
    obtain ⟨m, hm, hmap⟩ := hfound h₁ h₂ (fun g => (hsame g).mp) n hn
    rw [hm, map_some, map_some, hmap]
  | none =>
    cases hm : s₂.find env hash with
    | none => rfl
    | some m =>
      obtain ⟨n, hn', -⟩ := hfound h₂ h₁ (fun g => (hsame g).mpr) m hm
      rw [hn] at hn'
      cases hn'

end

def eraseGPoW (block : CBlockHeader) : CBlockHeader := { block with hashGPoW := 0#256 }

theorem eraseGPoW_keepsHashed : KeepsHashed eraseGPoW := ⟨fun _ => rfl⟩

theorem id_keepsHashed : KeepsHashed id := ⟨fun _ => rfl⟩

def CollisionFree (H : Bytes → Uint256) (headers : List CBlockHeader) : Prop :=
  ∀ g ∈ headers, ∀ g' ∈ headers, g.getHash H = g'.getHash H → g.hashPreimage = g'.hashPreimage

/-- Headers with one hash that pass the proof-of-work check have one `hashGPoW`. -/
def OneGPoWPerHash (env : HeaderEnv) (headers : List CBlockHeader) : Prop :=
  ∀ g ∈ headers, ∀ g' ∈ headers, checkBlockHeader env.params.consensus g true = .ok () →
    checkBlockHeader env.params.consensus g' true = .ok () →
    g.getHash env.H = g'.getHash env.H → g.hashGPoW = g'.hashGPoW

instance (H : Bytes → Uint256) (headers : List CBlockHeader) : Decidable (CollisionFree H headers) :=
  inferInstanceAs (Decidable (∀ g ∈ headers, ∀ g' ∈ headers, _ → _))

instance (env : HeaderEnv) (headers : List CBlockHeader) : Decidable (OneGPoWPerHash env headers) :=
  inferInstanceAs (Decidable (∀ g ∈ headers, ∀ g' ∈ headers, _ → _ → _ → _))

theorem CollisionFree.agreeOn_erase (h : CollisionFree env.H headers) :
    AgreeOn env eraseGPoW headers := by
  intro g hg g' hg' _ _ hhash
  rw [hashPreimage_inj (h g hg g' hg' hhash)]
  rfl

theorem CollisionFree.agreeOn_id (h : CollisionFree env.H headers)
    (hgpow : OneGPoWPerHash env headers) : AgreeOn env id headers := by
  intro g hg g' hg' hpow hpow' hhash
  rw [hashPreimage_inj (h g hg g' hg' hhash), hgpow g hg g' hg' hpow hpow' hhash]

/-- Whatever the order in which parents come first, the index has the same hashes
with the same header fields but for `hashGPoW`; and `hashGPoW` too if the headers
that pass the check agree on it. -/
theorem deliver_order (env : HeaderEnv) (s : HeaderState) (hs : s.WellFormed env)
    (headers headers' : List CBlockHeader) (hperm : headers.Perm headers')
    (hfirst : ParentsFirst env.H headers) (hfirst' : ParentsFirst env.H headers')
    (hcollision : CollisionFree env.H headers) (hcp : CheckpointsSettled env s headers) :
    (∀ hash, ((deliver env headers s).find env hash).map (Node.map eraseGPoW) =
      ((deliver env headers' s).find env hash).map (Node.map eraseGPoW)) ∧
    (OneGPoWPerHash env headers →
      ∀ hash, (deliver env headers s).find env hash = (deliver env headers' s).find env hash) := by
  have hsame : ∀ g, g ∈ headers ↔ g ∈ headers' := fun g => hperm.mem_iff
  have hcp' : CheckpointsSettled env s headers' :=
    hcp.imp_right fun h g hg => h g ((hsame g).mpr hg)
  have hrun : ∀ {f}, KeepsHashed f → AgreeOn env f headers → ∀ hash,
      ((deliver env headers s).find env hash).map (Node.map f) =
        ((deliver env headers' s).find env hash).map (Node.map f) := by
    intro f hf hagree
    have hagree' : AgreeOn env f headers' := fun g hg g' hg' =>
      hagree g ((hsame g).mpr hg) g' ((hsame g').mpr hg')
    exact (deliver_delivered hf hs hfirst hagree hcp).find_eq hf
      (deliver_delivered hf hs hfirst' hagree' hcp') hsame
  refine ⟨hrun eraseGPoW_keepsHashed hcollision.agreeOn_erase, fun hgpow hash => ?_⟩
  simpa [funext Node.map_id] using hrun id_keepsHashed (hcollision.agreeOn_id hgpow) hash

-- A regression-test chain whose block hash is the version number.
def versionHash (bytes : Bytes) : Uint256 := BitVec.ofNat 256 (ofLeBytes (bytes.take 4))

def regTestHeader (nVersion nTime : BitVec 32) (hashPrevBlock hashGPoW : Uint256) : CBlockHeader where
  nVersion
  hashPrevBlock
  hashMerkleRoot := 0
  hashContractState := 0
  nTime
  nBits := 0x207fffff
  nNonce := 0
  nPrecisionTime := 0
  hashGPoW

def regTestEnv : HeaderEnv where
  params :=
    { consensus := regTestParams, hashGenesisBlock := 1, mapCheckpoints := [],
      fCheckpointsEnabled := true }
  H := versionHash
  nAdjustedTime := 1000

def genesisState : HeaderState where
  mapBlockIndex := [.root (regTestHeader 1 0 0 0)]
  nStatus _ := BLOCK_VALID_SCRIPTS ||| BLOCK_HAVE_DATA
  pindexBestHeader := some (.root (regTestHeader 1 0 0 0))

theorem genesisState_wellFormed : genesisState.WellFormed regTestEnv :=
  ⟨by decide, by decide⟩

/-- One block in two versions of `hashGPoW`: the first to arrive is stored. -/
theorem deliver_first_version :
    CollisionFree regTestEnv.H [regTestHeader 4 10 1 0, regTestHeader 4 10 1 1] ∧
    ParentsFirst regTestEnv.H [regTestHeader 4 10 1 0, regTestHeader 4 10 1 1] ∧
    ParentsFirst regTestEnv.H [regTestHeader 4 10 1 1, regTestHeader 4 10 1 0] ∧
    (deliver regTestEnv [regTestHeader 4 10 1 0, regTestHeader 4 10 1 1] genesisState).find
      regTestEnv 4 = some (.child (.root (regTestHeader 1 0 0 0)) (regTestHeader 4 10 1 0)) ∧
    (deliver regTestEnv [regTestHeader 4 10 1 1, regTestHeader 4 10 1 0] genesisState).find
      regTestEnv 4 = some (.child (.root (regTestHeader 1 0 0 0)) (regTestHeader 4 10 1 1)) := by
  decide

theorem deliver_siblings :
    (deliver regTestEnv [regTestHeader 4 10 1 0, regTestHeader 5 10 1 0] genesisState).find
      regTestEnv 5 =
    (deliver regTestEnv [regTestHeader 5 10 1 0, regTestHeader 4 10 1 0] genesisState).find
      regTestEnv 5 :=
  (deliver_order regTestEnv genesisState genesisState_wellFormed _ _ (.swap ..) (by decide)
    (by decide) (by decide) (.inr (by decide))).2 (by decide) 5

end OurChain
