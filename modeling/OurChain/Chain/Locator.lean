import OurChain.Chain
import OurChain.Serialize

/-!
# Block locators

`CChain::GetLocator` lists the hashes of blocks down to the genesis block, with a step that
doubles from the eleventh block on; `FindForkInGlobalIndex` takes the first of them that another
node has in its chain.
-/

namespace OurChain

open List Option

namespace SkipList

open Forest

/-- The entries of `mapBlockIndex` and their hashes. -/
structure BlockTree where
  heap : BlockHeap
  hashes : List Uint256
  built : Built heap
  length_eq : hashes.length = heap.length
  nodup : hashes.Nodup

namespace BlockTree

def getBlockHash (tree : BlockTree) (p : Nat) : Uint256 := tree.hashes.getD p 0

def find (tree : BlockTree) (hash : Uint256) : Option Nat := tree.hashes.idxOf? hash

end BlockTree

/-- `vChain` as `SetTip` leaves it. -/
structure IsChain (heap : BlockHeap) (chain : CChain) : Prop where
  height : ∀ {h p : Nat}, chain[h]? = some p → p < heap.length ∧ heightOf heap p = h
  parent : ∀ {h p : Nat}, chain[h + 1]? = some p → parentOf heap p = chain[h]?

/-- The loop of `GetLocator`, with `vHave.size()`; `nStep` is an `int`. -/
def getLocatorFrom (tree : BlockTree) (chain : CChain) : Nat → Nat → Int → Nat → WalkM (List Uint256)
  | 0, _, _, _ => .error .loops
  | turns + 1, size, nStep, pindex => do
    let entry ← deref tree.heap pindex
    if entry.nHeight = 0 then .ok [tree.getBlockHash pindex]
    else
      let nHeight : Int := max (entry.nHeight - nStep) 0
      let next ← if chain.contains pindex entry.nHeight then .ok chain[nHeight.toNat]?
        else getAncestor tree.heap pindex nHeight
      match next with
      | none => .ok [tree.getBlockHash pindex]
      | some next => do
        let nStep := if size + 1 > 10 then (nStep * 2).bmod (2 ^ 32) else nStep
        .ok (tree.getBlockHash pindex :: (← getLocatorFrom tree chain turns (size + 1) nStep next))

-- A turn steps down by one block or more.
def getLocator (tree : BlockTree) (chain : CChain) (pindex : Option Nat) : WalkM (List Uint256) :=
  match pindex <|> chain.getLast? with
  | none => .ok []
  | some p => getLocatorFrom tree chain (heightOf tree.heap p + 1) 0 1 p

def findForkInGlobalIndex (tree : BlockTree) (chain : CChain) : List Uint256 → WalkM (Option Nat)
  | [] => .ok chain[0]?
  | hash :: vHave =>
    match tree.find hash with
    | none => findForkInGlobalIndex tree chain vHave
    | some pindex => do
      let entry ← deref tree.heap pindex
      if chain.contains pindex entry.nHeight then .ok (some pindex)
      else if (← getAncestor tree.heap pindex chain.height) = chain.getLast? then .ok chain.getLast?
      else findForkInGlobalIndex tree chain vHave

/-- The hash of a block determines the hash of its parent, which is in the header. -/
def Agree (first second : BlockTree) : Prop :=
  ∀ p < first.heap.length, ∀ q < second.heap.length, first.getBlockHash p = second.getBlockHash q →
    (parentOf first.heap p).map first.getBlockHash = (parentOf second.heap q).map second.getBlockHash

section
variable {heap : BlockHeap} {chain : CChain} {tree first second : BlockTree}

theorem BlockTree.getBlockHash_eq (hp : p < tree.heap.length) :
    tree.hashes[p]? = some (tree.getBlockHash p) := by
  simp [getBlockHash, tree.length_eq, hp]

theorem BlockTree.find_eq_some {hash : Uint256} :
    tree.find hash = some p ↔ p < tree.heap.length ∧ tree.getBlockHash p = hash := by
  rw [find, idxOf?_eq_some_iff]
  constructor
  · rintro ⟨hlt, hat, -⟩
    rw [tree.length_eq] at hlt
    exact ⟨hlt, some.inj ((tree.getBlockHash_eq hlt).symm.trans
      (List.getElem?_eq_some_iff.mpr ⟨_, hat⟩))⟩
  · rintro ⟨hp, rfl⟩
    have hlt : p < tree.hashes.length := tree.length_eq ▸ hp
    have hat := tree.getBlockHash_eq hp
    rw [getElem?_eq_getElem hlt] at hat
    refine ⟨hlt, some.inj hat, ?_⟩
    intro j hj heq
    exact absurd ((tree.nodup.getElem_inj_iff).mp (heq.trans (some.inj hat).symm)) (Nat.ne_of_lt hj)

theorem BlockTree.entry (hp : p < tree.heap.length) :
    ∃ entry, tree.heap[p]? = some entry ∧ entry.nHeight = heightOf tree.heap p := by
  have hentry := getElem?_eq_getElem hp
  exact ⟨_, hentry, (heightOf_eq hentry).symm⟩

theorem IsChain.up (hchain : IsChain heap chain) (hp : chain[h]? = some p) (hk : k ≤ h) :
    ∃ a, chain[h - k]? = some a ∧ up (parentOf heap) k p = some a := by
  induction k generalizing h p with
  | zero => exact ⟨p, hp, rfl⟩
  | succ k ih =>
    obtain ⟨h, rfl⟩ : ∃ h', h = h' + 1 := ⟨h - 1, by omega⟩
    have hlt := (List.getElem?_eq_some_iff.mp hp).1
    have hbelow := getElem?_eq_getElem (show h < chain.length by omega)
    have hparent := (hchain.parent hp).trans hbelow
    obtain ⟨a, ha, hup⟩ := ih hbelow (show k ≤ h by omega)
    refine ⟨a, ?_, ?_⟩
    · rwa [Nat.add_sub_add_right]
    · rw [Forest.up, hparent, bind_some, hup]

theorem Agree.up (hagree : Agree first second) (hp : p < first.heap.length)
    (hq : q < second.heap.length) (hsame : first.getBlockHash p = second.getBlockHash q)
    (hup : up (parentOf second.heap) n q = some b) :
    ∃ a, up (parentOf first.heap) n p = some a ∧ first.getBlockHash a = second.getBlockHash b := by
  induction n generalizing p q with
  | zero =>
    obtain rfl : q = b := by simpa [Forest.up] using hup
    exact ⟨p, rfl, hsame⟩
  | succ n ih =>
    obtain ⟨q', hq', hup⟩ := bind_eq_some_iff.mp hup
    have hparents := hagree p hp q hq hsame
    rw [hq', map_some] at hparents
    obtain ⟨p', hp', hsame'⟩ := map_eq_some_iff.mp hparents
    obtain ⟨ep, hep⟩ := first.built.skipsOk.parent_exists hp'
    obtain ⟨eq, heq⟩ := second.built.skipsOk.parent_exists hq'
    obtain ⟨a, ha, hhash⟩ := ih (List.getElem?_eq_some_iff.mp hep).1
      (List.getElem?_eq_some_iff.mp heq).1 hsame' hup
    exact ⟨a, by rw [Forest.up, hp', bind_some, ha], hhash⟩

theorem Agree.symm (hagree : Agree first second) : Agree second first :=
  fun q hq p hp hsame => (hagree p hp q hq hsame.symm).symm

section
variable (hagree : Agree first second) (hp : p < first.heap.length) (hq : q < second.heap.length)
  (hsame : first.getBlockHash p = second.getBlockHash q)
include hagree hp hq hsame

theorem Agree.height_le : heightOf second.heap q ≤ heightOf first.heap p := by
  obtain ⟨b, hb⟩ := second.built.skipsOk.ranked.up_exists (Nat.le_refl (heightOf second.heap q))
  obtain ⟨a, ha, -⟩ := hagree.up hp hq hsame hb
  have hheight := first.built.skipsOk.ranked.height_up ha
  omega

theorem Agree.height_eq : heightOf first.heap p = heightOf second.heap q :=
  Nat.le_antisymm (hagree.symm.height_le hq hp hsame.symm) (hagree.height_le hp hq hsame)

end

/-- How far the walk from height `t` has come, when it lists the block at `h` after `size`
others. -/
structure Stepping (t size : Nat) (nStep : Int) (h : Nat) : Prop where
  pos : 1 ≤ nStep
  at_ : h = 0 ∨ (size < 10 ∧ nStep = 1 ∧ h + size = t) ∨ (10 ≤ size ∧ h + 9 + nStep = t)

theorem Stepping.next (hs : Stepping t size nStep h) (hpos : h ≠ 0) (ht : t < 2 ^ 30) :
    ((h : Int) - nStep).toNat < h ∧
      Stepping t (size + 1) (if size + 1 > 10 then (nStep * 2).bmod (2 ^ 32) else nStep)
      ((h : Int) - nStep).toNat := by
  obtain ⟨hstep, hat⟩ := hs
  refine ⟨by omega, ?_⟩
  split
  · have hbmod : (nStep * 2).bmod (2 ^ 32) = nStep * 2 := by
      rw [Int.bmod_eq_of_le] <;> omega
    rw [hbmod]
    exact ⟨by omega, by omega⟩
  · exact ⟨hstep, by omega⟩

def Overshoots (t f r : Nat) : Prop := r ≤ f ∧ f - r ≤ t - f ∧ (t - f ≤ 10 → r = f)

theorem Stepping.overshoots (hs : Stepping t size nStep h) (hf : f < h)
    (hr : ((h : Int) - nStep).toNat ≤ f) :
    Overshoots t f ((h : Int) - nStep).toNat := by
  obtain ⟨hstep, hat⟩ := hs
  unfold Overshoots
  omega

theorem getLocatorFrom_succ (hchain : IsChain tree.heap chain) (hp : p < tree.heap.length)
    (hpos : heightOf tree.heap p ≠ 0) (hstep : 1 ≤ nStep) :
    ∃ a, Leads (parentOf tree.heap) p a ∧ heightOf tree.heap a =
    ((heightOf tree.heap p : Int) - nStep).toNat ∧
      getLocatorFrom tree chain (turns + 1) size nStep p = (do
        .ok (tree.getBlockHash p :: (← getLocatorFrom tree chain turns (size + 1)
          (if size + 1 > 10 then (nStep * 2).bmod (2 ^ 32) else nStep) a))) := by
  obtain ⟨entry, hentry, hheight⟩ := tree.entry hp
  have ok := tree.built.skipsOk
  have hmax : max ((entry.nHeight : Int) - nStep) 0 = (((entry.nHeight : Int) - nStep).toNat :
    Nat) := by omega
  have hle : ((entry.nHeight : Int) - nStep).toNat ≤ entry.nHeight := by omega
  rw [← hheight] at hpos ⊢
  simp only [getLocatorFrom, deref_eq hentry, bind, Except.bind, if_neg hpos, hmax, Int.toNat_natCast]
  by_cases hcontains : chain.contains p entry.nHeight = true
  · obtain ⟨a, ha, hup⟩ := hchain.up (of_decide_eq_true hcontains) (Nat.sub_le entry.nHeight
      (((entry.nHeight : Int) - nStep).toNat))
    have hsub : entry.nHeight - (entry.nHeight - ((entry.nHeight : Int) - nStep).toNat) =
        ((entry.nHeight : Int) - nStep).toNat := by omega
    rw [hsub] at ha
    exact ⟨a, ⟨_, hup⟩, (hchain.height ha).2, by rw [if_pos hcontains, ha]⟩
  · obtain ⟨a, e, hget, he, hat, hleads⟩ := getAncestor_entry ok hentry hle
    exact ⟨a, hleads, (heightOf_eq he).trans hat, by rw [if_neg hcontains, hget]⟩

section
variable (hchain : IsChain tree.heap chain) (ht : t < 2 ^ 30) (hp : p < tree.heap.length)
  (hs : Stepping t size nStep (heightOf tree.heap p)) (hturns : heightOf tree.heap p < turns)
include hchain ht hp hs hturns

theorem getLocatorFrom_ok :
    ∃ rest, getLocatorFrom tree chain turns size nStep p = .ok (tree.getBlockHash p :: rest) := by
  induction turns generalizing p size nStep with
  | zero => omega
  | succ turns ih =>
    by_cases hzero : heightOf tree.heap p = 0
    · obtain ⟨entry, hentry, hheight⟩ := tree.entry hp
      exact ⟨[], by simp [getLocatorFrom, deref_eq hentry, hheight, hzero, bind, Except.bind]⟩
    · obtain ⟨a, hleads, hheight, heq⟩ := getLocatorFrom_succ hchain hp hzero hs.pos
      obtain ⟨e, he⟩ := tree.built.skipsOk.leads_exists (getElem?_eq_getElem hp) hleads
      obtain ⟨hlower, hnext⟩ := hs.next hzero ht
      rw [← hheight] at hlower hnext
      obtain ⟨rest, hrest⟩ := ih (List.getElem?_eq_some_iff.mp he).1 hnext (by omega)
      exact ⟨_, by rw [heq, hrest]; rfl⟩

theorem getLocatorFrom_fork (hf : f < heightOf tree.heap p) :
    ∃ (above : List Nat) (c : Nat) (rest : List Uint256),
    getLocatorFrom tree chain turns size nStep p =
        .ok (above.map tree.getBlockHash ++ tree.getBlockHash c :: rest) ∧
      (∀ a ∈ above, Leads (parentOf tree.heap) p a ∧ f < heightOf tree.heap a) ∧
      Leads (parentOf tree.heap) p c ∧ Overshoots t f (heightOf tree.heap c) := by
  induction turns generalizing p size nStep with
  | zero => omega
  | succ turns ih =>
    obtain ⟨a, hleads, hheight, heq⟩ := getLocatorFrom_succ hchain hp (by omega) hs.pos
    obtain ⟨e, he⟩ := tree.built.skipsOk.leads_exists (getElem?_eq_getElem hp) hleads
    have ha := (List.getElem?_eq_some_iff.mp he).1
    obtain ⟨hlower, hnext⟩ := hs.next (by omega) ht
    have hover := hs.overshoots hf
    rw [← hheight] at hlower hnext hover
    by_cases hreached : heightOf tree.heap a ≤ f
    · obtain ⟨rest, hrest⟩ := getLocatorFrom_ok hchain ht ha hnext (show _ < turns by omega)
      exact ⟨[p], a, rest, by rw [heq, hrest]; rfl, by simp [Leads.refl, hf], hleads, hover hreached⟩
    · obtain ⟨above, c, rest, hrest, habove, hc, hover⟩ := ih ha hnext (by omega) (by omega)
      refine ⟨p :: above, c, rest, by rw [heq, hrest]; rfl, ?_, hleads.trans hc, hover⟩
      intro b hb
      rcases mem_cons.mp hb with rfl | hb
      · exact ⟨.refl b, hf⟩
      · exact ⟨hleads.trans (habove b hb).1, (habove b hb).2⟩

end

/-- The other node has the ancestors of `p` up to height `f` in its chain, and no others. -/
def Shares (first second : BlockTree) (p : Nat) (chain : CChain) (f : Nat) : Prop :=
  ∀ a, Leads (parentOf first.heap) p a →
    ((∃ b ∈ chain, second.getBlockHash b = first.getBlockHash a) ↔ heightOf first.heap a ≤ f)

/-- A block of the chain that the first node has at this height as well. -/
structure Common (first second : BlockTree) (p : Nat) (chain : CChain) (r : Nat) (b : Nat) :
    Prop where
  mem : b ∈ chain
  shared : ∃ a, Leads (parentOf first.heap) p a ∧ first.getBlockHash a = second.getBlockHash b
  height : heightOf second.heap b = r

theorem IsChain.mem (hchain : IsChain heap chain) (hb : b ∈ chain) :
    chain[heightOf heap b]? = some b ∧ b < heap.length := by
  obtain ⟨h, hat⟩ := mem_iff_getElem?.mp hb
  obtain ⟨hlt, rfl⟩ := hchain.height hat
  exact ⟨hat, hlt⟩

section
variable (hagree : Agree first second) (hchain : IsChain second.heap chain)
    (hp : p < first.heap.length)
  (hshares : Shares first second p chain f)
include hagree hchain hp hshares

theorem find_shared (hc : Leads (parentOf first.heap) p c) (hle : heightOf first.heap c ≤ f) :
    ∃ b, Common first second p chain (heightOf first.heap c) b ∧
      ∀ rest, findForkInGlobalIndex second chain (first.getBlockHash c :: rest) = .ok (some b) := by
  obtain ⟨b, hb, hhash⟩ := (hshares c hc).mpr hle
  obtain ⟨e, he⟩ := first.built.skipsOk.leads_exists (getElem?_eq_getElem hp) hc
  obtain ⟨hat, hlt⟩ := hchain.mem hb
  have hheight := hagree.height_eq (List.getElem?_eq_some_iff.mp he).1 hlt hhash.symm
  obtain ⟨entry, hentry, hentryHeight⟩ := second.entry hlt
  refine ⟨b, ⟨hb, ⟨c, hc, hhash.symm⟩, hheight.symm⟩, fun rest => ?_⟩
  have hfind := BlockTree.find_eq_some.mpr ⟨hlt, hhash⟩
  have hcontains : chain.contains b entry.nHeight = true := decide_eq_true (hentryHeight ▸ hat)
  simp [findForkInGlobalIndex, hfind, deref_eq hentry, hcontains, bind, Except.bind]

theorem find_above (hf : f ≤ heightOf first.heap p) (ha : Leads (parentOf first.heap) p a)
    (habove : f < heightOf first.heap a) (rest : List Uint256) :
    findForkInGlobalIndex second chain (first.getBlockHash a :: rest) =
    findForkInGlobalIndex second chain rest ∨ ∃ b, Common first second p chain f b ∧
      findForkInGlobalIndex second chain (first.getBlockHash a :: rest) = .ok (some b) := by
  cases hfind : second.find (first.getBlockHash a) with
  | none => exact .inl (by rw [findForkInGlobalIndex, hfind])
  | some q =>
    obtain ⟨hq, hhash⟩ := BlockTree.find_eq_some.mp hfind
    obtain ⟨entry, hentry, hheight⟩ := second.entry hq
    obtain ⟨e, he⟩ := first.built.skipsOk.leads_exists (getElem?_eq_getElem hp) ha
    have hcontains : chain.contains q entry.nHeight = false := by
      refine decide_eq_false fun hat => ?_
      have hle := (hshares a ha).mp ⟨q, mem_of_getElem? hat, hhash⟩
      omega
    -- the chain reaches the fork
    have hlength : f < chain.length := by
      obtain ⟨d, hd⟩ := first.built.skipsOk.ranked.up_exists (Nat.sub_le (heightOf first.heap p) f)
      have hdheight := first.built.skipsOk.ranked.height_up hd
      obtain ⟨b, hb, -⟩ := find_shared hagree hchain hp hshares ⟨_, hd⟩ (by omega)
      have hat := (List.getElem?_eq_some_iff.mp (hchain.mem hb.mem).1).1
      have hbheight := hb.height
      omega
    have htip := getLast?_eq_getElem? (l := chain)
    rw [findForkInGlobalIndex, hfind]
    simp only [deref_eq hentry, hcontains, bind, Except.bind, Bool.false_eq_true, if_false]
    by_cases hbelow : chain.length - 1 ≤ entry.nHeight
    · obtain ⟨c, ec, hget, hec, hcheight, hleads⟩ :=
        getAncestor_entry second.built.skipsOk hentry hbelow
      have hchainHeight : chain.height = ((chain.length - 1 : Nat) : Int) := by
        unfold CChain.height
        omega
      rw [hchainHeight, hget]
      by_cases hsame : some c = chain.getLast?
      · obtain ⟨n, hn⟩ := hleads
        obtain ⟨d, hd, hdhash⟩ := hagree.up (List.getElem?_eq_some_iff.mp he).1 hq hhash.symm hn
        have hmem : c ∈ chain := mem_of_getElem? (htip.symm.trans hsame.symm)
        have hle := (hshares d (ha.trans ⟨n, hd⟩)).mp ⟨c, hmem, hdhash.symm⟩
        obtain ⟨ed, hed⟩ := first.built.skipsOk.leads_exists he ⟨n, hd⟩
        have hsameHeight := hagree.height_eq (List.getElem?_eq_some_iff.mp hed).1
          (hchain.mem hmem).2 hdhash
        rw [heightOf_eq hec] at hsameHeight
        refine .inr ⟨c, ⟨hmem, ⟨d, ha.trans ⟨n, hd⟩, hdhash⟩, by rw [heightOf_eq hec]; omega⟩, ?_⟩
        simp [← hsame]
      · exact .inl (by simp [hsame])
    · have hget : getAncestor second.heap q chain.height = .ok none := by
        have hhigher : chain.height > entry.nHeight ∨ chain.height < 0 := by
          unfold CChain.height
          omega
        simp [getAncestor, deref_eq hentry, hhigher, bind, Except.bind]
      have hsome : chain.getLast? ≠ none := by
        rw [htip, getElem?_eq_getElem (show chain.length - 1 < chain.length by omega)]
        exact some_ne_none _
      exact .inl (by simp [hget, hsome.symm])

theorem find_fork (hf : f ≤ heightOf first.heap p) (above : List Nat)
    (habove : ∀ a ∈ above, Leads (parentOf first.heap) p a ∧ f < heightOf first.heap a)
    (hc : Leads (parentOf first.heap) p c) (hover : Overshoots t f (heightOf first.heap c))
    (rest : List Uint256) :
    ∃ b r, Common first second p chain r b ∧ Overshoots t f r ∧ findForkInGlobalIndex second chain
      (above.map first.getBlockHash ++ first.getBlockHash c :: rest) = .ok (some b) := by
  induction above with
  | nil =>
    obtain ⟨b, hb, hfind⟩ := find_shared hagree hchain hp hshares hc hover.1
    exact ⟨b, _, hb, hover, hfind rest⟩
  | cons a above ih =>
    obtain ⟨ha, habove⟩ := forall_mem_cons.mp habove
    rcases find_above hagree hchain hp hshares hf ha.1 ha.2
      (above.map first.getBlockHash ++ first.getBlockHash c :: rest) with hskip | ⟨b, hb, hfind⟩
    · obtain ⟨b, r, hb, hover, hfind⟩ := ih habove
      exact ⟨b, r, hb, hover, hskip.trans hfind⟩
    · exact ⟨b, f, hb, ⟨Nat.le_refl f, by omega, fun _ => rfl⟩, hfind⟩

end

/-- Whatever chain the first node is on, the locator of a block leads the second node to a
common block, which is at most as far below the fork as the block is above it, and is the last
one if the block is at most ten blocks above it. -/
theorem findForkInGlobalIndex_getLocator (hagree : Agree first second)
    (hactive : IsChain first.heap active) (hchain : IsChain second.heap chain)
    (hp : p < first.heap.length) (ht : heightOf first.heap p < 2 ^ 30)
    (hf : f ≤ heightOf first.heap p) (hshares : Shares first second p chain f) :
    ∃ vHave b, getLocator first active (some p) = .ok vHave ∧
      findForkInGlobalIndex second chain vHave = .ok (some b) ∧ b ∈ chain ∧
      (∃ a, Leads (parentOf first.heap) p a ∧ first.getBlockHash a = second.getBlockHash b) ∧
      heightOf second.heap b ≤ f ∧ f - heightOf second.heap b ≤ heightOf first.heap p - f ∧
      (heightOf first.heap p - f ≤ 10 → heightOf second.heap b = f) := by
  have hs : Stepping (heightOf first.heap p) 0 1 (heightOf first.heap p) := ⟨Int.le_refl 1, by omega⟩
  have hlocator : ∃ (above : List Nat) (c : Nat) (rest : List Uint256),
    getLocator first active (some p) =
        .ok (above.map first.getBlockHash ++ first.getBlockHash c :: rest) ∧
      (∀ a ∈ above, Leads (parentOf first.heap) p a ∧ f < heightOf first.heap a) ∧
      Leads (parentOf first.heap) p c ∧ Overshoots (heightOf first.heap p) f
        (heightOf first.heap c) := by
    rcases Nat.lt_or_eq_of_le hf with hlt | heq
    · exact getLocatorFrom_fork hactive ht hp hs (Nat.lt_succ_self _) hlt
    · obtain ⟨rest, hrest⟩ := getLocatorFrom_ok hactive ht hp hs (Nat.lt_succ_self _)
      exact ⟨[], p, rest, hrest, nofun, .refl p, by unfold Overshoots; omega⟩
  obtain ⟨above, c, rest, hlocator, habove, hc, hover⟩ := hlocator
  obtain ⟨b, _, ⟨hmem, hshared, rfl⟩, hover, hfind⟩ :=
    find_fork hagree hchain hp hshares hf above habove hc hover rest
  exact ⟨_, b, hlocator, hfind, hmem, hshared, hover⟩

def twoBlocks (hash : Uint256) (h : hash ≠ 1) : BlockTree where
  heap := [⟨none, none, 0⟩, ⟨some 0, none, 1⟩]
  hashes := [1, hash]
  built := by
    refine .loaded ?_ (by decide)
    rintro entry (_ | ⟨_, _ | ⟨_, ⟨⟩⟩⟩)
    · rfl
    · exact ⟨⟨none, none, 0⟩, rfl, rfl⟩
  length_eq := rfl
  nodup := by simpa using h.symm

theorem findForkInGlobalIndex_getLocator_genesis :
    ∃ vHave b, getLocator (twoBlocks 2 (by decide)) [0, 1] (some 1) = .ok vHave ∧
      findForkInGlobalIndex (twoBlocks 3 (by decide)) [0, 1] vHave = .ok (some b) ∧
      heightOf (twoBlocks 3 (by decide)).heap b = 0 := by
  have hchain : ∀ hash h, IsChain (twoBlocks hash h).heap [0, 1] := by
    intro hash h
    constructor
    · intro n p hp
      obtain ⟨hn, rfl⟩ := List.getElem?_eq_some_iff.mp hp
      have hn : n < 2 := hn
      interval_cases n <;> exact ⟨by simp [twoBlocks], rfl⟩
    · intro n p hp
      obtain ⟨hn, rfl⟩ := List.getElem?_eq_some_iff.mp hp
      obtain rfl : n = 0 := by simpa using hn
      rfl
  have hagree : Agree (twoBlocks 2 (by decide)) (twoBlocks 3 (by decide)) := by
    unfold Agree
    decide
  have hshares : Shares (twoBlocks 2 (by decide)) (twoBlocks 3 (by decide)) 1 [0, 1] 0 := by
    intro a ha
    obtain rfl | ⟨q, hq, ha⟩ := leads_iff.mp ha
    · decide
    · obtain rfl : 0 = q := by simpa [parentOf, twoBlocks] using hq
      obtain rfl | ⟨q, hq, -⟩ := leads_iff.mp ha
      · decide
      · simp [parentOf, twoBlocks] at hq
  obtain ⟨vHave, b, hlocator, hfind, -, -, -, -, hexact⟩ :=
    findForkInGlobalIndex_getLocator hagree (hchain _ _) (hchain _ _) (by decide) (by decide)
      (by decide) hshares
  exact ⟨vHave, b, hlocator, hfind, hexact (by decide)⟩

end

end SkipList

end OurChain
