import OurChain.Validation.Convergence
import OurChain.Validation.InvalidateBlock

/-!
# What PreciousBlock can do

`PreciousBlock` gives the named block a lower sequence id and makes it a candidate
again. The comparator of the GPoW build does not read sequence ids, so the call adds
a candidate and nothing else: of the available candidates and the named block, those
that connect are ranked by time, `hashGPoW` and address as before the call, and the tip
becomes the best of them.
-/

namespace OurChain

open ChainState List

variable (env : ChainEnv) (o : Oracle)

/-- `PreciousBlock`, which returns true if the block has less work than the tip. -/
def preciousCall (fuel : Nat) (pindex : BlockPtr) (s : ChainState) : Option (Bool × ChainState) :=
  match s.preciousBlock env pindex with
  | none => none
  | some (false, s) => some (true, s)
  | some (true, s) => activateBestChain env o fuel 0 none s

def preciousCalls (fuel : Nat) : List BlockPtr → ChainState → Option ChainState
  | [], s => some s
  | pindex :: rest, s => (preciousCall env o fuel pindex s).bind fun r => preciousCalls fuel rest r.2

/-- What `CheckBlockIndex` asserts of the tip and the candidates. -/
structure Steady (t : Tree CBlockHeader) (s : ChainState) : Prop where
  ok : s.Ok env t
  tip : s.chainActive ∈ s.setBlockIndexCandidates
  counted : ∀ c ∈ s.setBlockIndexCandidates, s.nChainTx c ≠ 0
  linked : ∀ n ∈ s.mapBlockIndex, s.nChainTx n ≠ 0 → ∀ a ∈ n.path, s.nChainTx a ≠ 0

/-- An entry with at least the work of the tip, valid and with an available branch. -/
structure Nameable (s : ChainState) (pindex : BlockPtr) : Prop where
  mem : pindex ∈ s.mapBlockIndex
  work : nChainWork s.chainActive ≤ nChainWork pindex
  valid : isValid BLOCK_VALID_TRANSACTIONS (s.nStatus pindex) = true
  counted : s.nChainTx pindex ≠ 0
  available : s.Available pindex

instance (s : ChainState) (pindex : BlockPtr) : Decidable (Nameable s pindex) :=
  decidable_of_iff (pindex ∈ s.mapBlockIndex ∧ nChainWork s.chainActive ≤ nChainWork pindex ∧
      isValid BLOCK_VALID_TRANSACTIONS (s.nStatus pindex) = true ∧ s.nChainTx pindex ≠ 0 ∧
      s.Available pindex)
    ⟨fun ⟨mem, work, valid, counted, available⟩ => ⟨mem, work, valid, counted, available⟩,
      fun h => ⟨h.mem, h.work, h.valid, h.counted, h.available⟩⟩

def AllNameable (fuel : Nat) : List BlockPtr → ChainState → Prop
  | [], _ => True
  | pindex :: rest, s =>
    Nameable s pindex ∧ ∀ r ∈ preciousCall env o fuel pindex s, AllNameable fuel rest r.2

instance decidableAllNameable (fuel : Nat) : (calls : List BlockPtr) → (s : ChainState) →
    Decidable (AllNameable env o fuel calls s)
  | [], _ => inferInstanceAs (Decidable True)
  | _ :: rest, _ =>
    have := decidableAllNameable fuel rest
    inferInstanceAs (Decidable (_ ∧ ∀ r ∈ _, _))

/-- The candidates of `s` that can be connected. -/
def ChainState.availableCandidates (s : ChainState) : List BlockPtr :=
  s.setBlockIndexCandidates.filter (decide <| s.Available ·)

def Oracle.ConnectsBranch (n : BlockPtr) : Prop := ∀ a ∈ n.path, o.connectTip a = .ok

instance Oracle.decidableConnectsBranch (n : BlockPtr) : Decidable (o.ConnectsBranch n) :=
  inferInstanceAs (Decidable (∀ a ∈ n.path, _))

def ChainState.Sound (s : ChainState) (n : BlockPtr) : Prop :=
  (∀ a ∈ n.path, s.usable a = true) ∧ o.ConnectsBranch n

instance ChainState.decidableSound (s : ChainState) (n : BlockPtr) : Decidable (s.Sound o n) :=
  inferInstanceAs (Decidable (_ ∧ _))

/-- Where a block of the index does not connect, the node can go back to its active chain,
and `CheckBlockIndex` holds of the blocks below: those that are sound and not worse than
the tip are candidates. -/
def Recovers (s : ChainState) : Prop :=
  (∀ n ∈ s.mapBlockIndex, o.connectTip n = .ok) ∨
  s.Sound o s.chainActive ∧ ∀ n ∈ s.mapBlockIndex, s.Sound o n →
    env.less n s.chainActive = false → n ∈ s.setBlockIndexCandidates

/-- The blocks that could still be tried and would not connect. -/
def ChainState.rejected (s : ChainState) : Nat :=
  s.mapBlockIndex.countP fun b => s.usable b && decide (o.connectTip b ≠ .ok)

variable {env o} {t : Tree CBlockHeader} {s s' : ChainState}

@[simp] theorem mem_availableCandidates :
    c ∈ s.availableCandidates ↔ c ∈ s.setBlockIndexCandidates ∧ s.Available c := by
  simp [availableCandidates]

theorem less_of_work_lt (h : nChainWork a < nChainWork b) : env.less a b = true :=
  (workLess_iff _ _).mpr (.inl (BitVec.lt_def.mp h))

theorem work_le_of_less (h : env.less a b = true) : nChainWork a ≤ nChainWork b := by
  by_contra hlt
  have hba : env.less b a = true := less_of_work_lt (BitVec.not_le.mp hlt)
  have hab : env.less a b = false := workLess_asymm hba
  simp [h] at hab

def WorkGrows (t : Tree CBlockHeader) : Prop :=
  ∀ n ∈ t.nodes, ∀ p, n.pprev = some p → nChainWork p < nChainWork n

theorem WorkGrows.lt_of_mem_path (h : WorkGrows t) (hn : n ∈ t.nodes) (ha : a ∈ n.path)
    (hne : a ≠ n) :
    nChainWork a < nChainWork n := by
  induction n with
  | root x => exact absurd (mem_singleton.mp ha) hne
  | child p x ih =>
    have hp : p ∈ t.nodes := t.mem_of_mem_path hn (Node.mem_path_parent p _)
    have hlt := h _ hn p rfl
    rcases Node.mem_path_child ha with rfl | ha
    · exact absurd rfl hne
    · by_cases hap : a = p
      · rwa [hap]
      · exact BitVec.lt_trans (ih hp ha hap) hlt

theorem WorkGrows.notMem_path (h : WorkGrows t) (htip : tip ∈ t.nodes) (hne : m ≠ tip)
    (hle : env.less m tip = false) : m ∉ tip.path := by
  intro hm
  have hlt : env.less m tip = true := less_of_work_lt (h.lt_of_mem_path htip hm hne)
  simp [hle] at hlt

theorem BestCandidate.of_grows (hgrow : WorkGrows t) (hs : s.Ok env t)
    (hmax : OrdSet.IsMax env.less s.setBlockIndexCandidates m) : BestCandidate env s m := by
  refine ⟨hmax, fun x hx => ?_⟩
  by_cases heq : x = m
  · rw [heq]
    exact workLess_irrefl _
  · exact workLess_asymm
      (less_of_work_lt (hgrow.lt_of_mem_path (hs.candidates_inTree m hmax.1) hx heq))

theorem preciousBlock_spec (hord : env.Orders t) (hs : Steady env t s)
    (hp : Nameable s p) :
    ∃ candidates, s.preciousBlock env p =
        some (true, { s with setBlockIndexCandidates := candidates }) ∧
      ChainState.Ok env t { s with setBlockIndexCandidates := candidates } ∧
      ∀ c, c ∈ candidates ↔
        (c = p ∨ c ∈ s.setBlockIndexCandidates) ∧ env.less c s.chainActive = false := by
  have herased : ChainState.Ok env t { s with
      setBlockIndexCandidates := s.setBlockIndexCandidates.filter (· ≠ p) } :=
    hs.ok.of_sublist rfl hs.ok.tip filter_sublist hs.ok.unlinked
  have hinserted := herased.insert hord hp.mem
  have hmem : ∀ c, c ∈ OrdSet.insert env.less p (s.setBlockIndexCandidates.filter (· ≠ p)) ↔
      c = p ∨ c ∈ s.setBlockIndexCandidates := by
    intro c
    rw [OrdSet.mem_insert hord (hs.ok.inTree p hp.mem) herased.candidates_inTree]
    by_cases hc : c = p <;> simp [hc]
  obtain ⟨s₁, hprune⟩ := prune_isSome hord hinserted ((hmem _).mpr (.inr hs.tip))
    (workLess_irrefl _)
  have hs₁ := prune_eq_some hprune
  have hcall : s.preciousBlock env p = some (true, s₁) := by
    unfold ChainState.preciousBlock
    rw [if_neg (BitVec.not_lt.mpr hp.work), if_pos ⟨hp.valid, hp.counted⟩]
    simp only [hprune, Option.bind_eq_bind, Option.bind_some]
  refine ⟨_, hs₁ ▸ hcall, ?_, fun c => ?_⟩
  · exact hs₁ ▸ preciousBlock_ok hord hs.ok hp.mem hcall
  · rw [mem_prune hord hinserted, hmem]

/-- `m` is the best of the blocks of `rivals` that connect. -/
structure BestOf (env : ChainEnv) (o : Oracle) (rivals : List BlockPtr) (m : BlockPtr) : Prop where
  mem : m ∈ rivals
  connects : o.ConnectsBranch m
  best : ∀ c ∈ rivals, o.ConnectsBranch c → c ≠ m → env.less c m = true

theorem BestOf.exists (hs : s.Ok env t) (hn : n ∈ s.availableCandidates)
    (hconnects : o.ConnectsBranch n) : ∃ c, BestOf env o s.availableCandidates c := by
  have hmem : ∀ n, n ∈ s.availableCandidates.filter (decide <| o.ConnectsBranch ·) ↔
      n ∈ s.availableCandidates ∧ o.ConnectsBranch n := by simp
  obtain ⟨c, hlast⟩ : ∃ c, (s.availableCandidates.filter (decide <| o.ConnectsBranch ·)).getLast? =
      some c := by
    rw [← Option.isSome_iff_exists, getLast?_isSome]
    exact ne_nil_of_mem ((hmem n).mpr ⟨hn, hconnects⟩)
  obtain ⟨hc, hbest⟩ := OrdSet.isMax_getLast?
    (hs.sorted.sublist (filter_sublist.trans filter_sublist)) hlast
  obtain ⟨hc, hconnects⟩ := (hmem c).mp hc
  exact ⟨c, hc, hconnects, fun n hn hconnects => hbest n ((hmem n).mpr ⟨hn, hconnects⟩)⟩

theorem BestOf.append (hord : env.Orders t) (has : ∀ a ∈ as, a ∈ t.nodes)
    (hbs : ∀ b ∈ bs, b ∈ t.nodes) (hm : BestOf env o as m) (hn : BestOf env o (m :: bs) n) :
    BestOf env o (as ++ bs) n := by
  have hnt : n ∈ t.nodes := by
    rcases mem_cons.mp hn.mem with rfl | hn
    · exact has n hm.mem
    · exact hbs n hn
  refine ⟨?_, hn.connects, fun a ha hconnects hne => ?_⟩
  · rcases mem_cons.mp hn.mem with rfl | hn
    · exact mem_append_left _ hm.mem
    · exact mem_append_right _ hn
  · rcases mem_append.mp ha with ha | ha
    · by_cases ham : a = m
      · exact hn.best a (by simp [ham]) hconnects hne
      · have hlt := hm.best a ha hconnects ham
        by_cases hmn : m = n
        · rwa [← hmn]
        · exact hord.trans a (has a ha) m (has m hm.mem) n hnt hlt
            (hn.best m (by simp) hm.connects hmn)
    · exact hn.best a (mem_cons_of_mem _ ha) hconnects hne

/-- `c` is the best candidate that is available and connects, and where a block does not
connect the best sound block of the index. -/
structure Aims (env : ChainEnv) (o : Oracle) (t : Tree CBlockHeader) (s : ChainState)
    (c : BlockPtr) : Prop where
  ok : s.Ok env t
  linked : ∀ n ∈ s.setBlockIndexCandidates, ∀ a ∈ n.path, s.nChainTx a ≠ 0
  best : BestOf env o s.availableCandidates c
  not_less_tip : env.less c s.chainActive = false
  recovers : (∀ n ∈ s.mapBlockIndex, o.connectTip n = .ok) ∨
    s.Sound o s.chainActive ∧ ∀ n ∈ s.mapBlockIndex, s.Sound o n → n ≠ c → env.less n c = true

theorem ChainState.Sound.of_available (htip : s.Sound o s.chainActive) (hava : s.Available n)
    (hconnects : o.ConnectsBranch n) : s.Sound o n := by
  refine ⟨fun a ha => ?_, hconnects⟩
  by_cases hon : a ∈ s.chainActive.path
  · exact htip.1 a hon
  · exact hava a ha hon

section
variable (h : Aims env o t s c)
include h

theorem Aims.candidate : c ∈ s.setBlockIndexCandidates ∧ s.Available c :=
  mem_availableCandidates.mp h.best.mem

theorem Aims.connects_of_above (hn : n ∈ s.mapBlockIndex)
    (habove : o.ConnectsAbove s.chainActive n) : o.ConnectsBranch n := by
  intro a ha
  rcases h.recovers with hall | ⟨htip, -⟩
  · exact hall a (h.ok.closed n hn a ha)
  · by_cases hon : a ∈ s.chainActive.path
    · exact htip.2 a hon
    · exact habove a ha hon

/-- The search for the best available candidate leaves the aim in place. -/
theorem Aims.search :
    ∃ m s', mostWork none s = some (some m, s') ∧ Aims env o t s' c ∧ s'.Available m ∧
      OrdSet.IsMax env.less s'.setBlockIndexCandidates m ∧ ChainState.Searched s s' ∧
      s'.nChainTx = s.nChainTx := by
  obtain ⟨hc, hava⟩ := h.candidate
  obtain ⟨m, s', hsearch, hchainTx, hm, hmax, hkeep, hchain⟩ :=
    findMostWorkChain_best h.ok hc hava h.linked (Nat.lt_succ_self _)
  have hsearched := (findMostWorkChain_searched hsearch).1
  have hcands := hsearched.candidates.subset
  have hbest : BestOf env o s'.availableCandidates c := by
    refine ⟨mem_availableCandidates.mpr ⟨(hkeep c hava).2 hc, (hkeep c hava).1⟩,
      h.best.connects, fun n hn => h.best.best n ?_⟩
    rw [mem_availableCandidates] at hn ⊢
    refine ⟨hcands hn.1, fun a ha hoff => hsearched.usable a (hn.2 a ha ?_)⟩
    rwa [hsearched.chainActive]
  refine ⟨m, s', hsearch, ⟨findMostWorkChain_ok h.ok hsearch, ?_, hbest, ?_, ?_⟩, hm,
    hmax, hsearched, hchainTx⟩
  · rw [hchainTx]
    exact fun n hn => h.linked n (hcands hn)
  · rw [hsearched.chainActive]
    exact h.not_less_tip
  · rw [hsearched.chainActive, hsearched.mapBlockIndex]
    refine h.recovers.imp_right fun hsound => ⟨⟨fun a ha => ?_, hsound.1.2⟩, fun n hn hn' =>
      hsound.2 n hn ⟨fun a ha => hsearched.usable a (hn'.1 a ha), hn'.2⟩⟩
    rw [hchain a ha]
    exact hsound.1.1 a ha

theorem Aims.arrives (hclimbs : Climbs env o t s c s')
    (htip : s'.chainActive = c) (hcands : s'.setBlockIndexCandidates = [c]) (tip : BlockPtr) :
    Aims env o t { s' with observed := tip } c where
  ok := hclimbs.ok.of_sublist rfl hclimbs.ok.tip (.refl _) hclimbs.ok.unlinked
  linked n hn := by
    have hnc : n = c := mem_singleton.mp (hcands ▸ hn)
    rw [hnc, hclimbs.kept.nChainTx]
    exact h.linked c h.candidate.1
  best := by
    refine ⟨mem_availableCandidates.mpr ⟨by simp [hcands], fun a ha hoff =>
      absurd (htip ▸ ha) hoff⟩, h.best.connects, fun n hn _ hne => absurd ?_ hne⟩
    exact mem_singleton.mp (hcands ▸ (mem_availableCandidates.mp hn).1)
  not_less_tip := by
    rw [htip]
    exact workLess_irrefl _
  recovers := by
    have husable : ∀ a, ChainState.usable { s' with observed := tip } a = s.usable a :=
      hclimbs.kept.usable
    rw [hclimbs.kept.mapBlockIndex]
    refine h.recovers.imp_right fun hsound => ⟨?_, fun n hn hn' =>
      hsound.2 n hn ⟨fun a ha => husable a ▸ hn'.1 a ha, hn'.2⟩⟩
    have hc := hsound.1.of_available h.candidate.2 h.best.connects
    exact htip.symm ▸ ⟨fun a ha => (husable a).trans (hc.1 a ha), hc.2⟩

/-- A block that did not connect gets its mark, and the aim is still there. -/
theorem Aims.breaks (hm : m ∈ s.mapBlockIndex) (hava : s.Available m)
    (hb : Breaks o s.chainActive m b) (hclimbs : Climbs env o t s m s') :
    Aims env o t (s'.invalidBlockFound b) c ∧
      (s'.invalidBlockFound b).rejected o < s.rejected o := by
  obtain ⟨hbm, hboff, hnot⟩ := hb
  have hbi := h.ok.closed m hm b hbm
  obtain ⟨htip, hbest⟩ := h.recovers.resolve_left fun hall => hnot (hall b hbi)
  have hc := htip.of_available h.candidate.2 h.best.connects
  -- the blocks that were connected are sound, so that c ranks above them
  have hbelow : ∀ x ∈ m.path, o.ConnectsAbove s.chainActive x →
      s.Sound o x ∧ env.less c x = false := by
    intro x hx habove
    have hxi := h.ok.closed m hm x hx
    have hsound := htip.of_available (fun a ha => hava a (Node.path_trans ha hx))
      (h.connects_of_above hxi habove)
    refine ⟨hsound, ?_⟩
    by_cases hxc : x = c
    · rw [hxc]
      exact workLess_irrefl _
    · exact workLess_asymm (hbest x hxi hsound hxc)
  have husable : ∀ a, (s'.invalidBlockFound b).usable a = (s.usable a && decide (a ≠ b)) := by
    intro a
    rw [usable_invalidBlockFound, hclimbs.kept.usable]
  have hne : ∀ {n}, o.ConnectsBranch n → ∀ a ∈ n.path, a ≠ b := by
    rintro n hn a ha rfl
    exact hnot (hn a ha)
  have hkeep : ∀ {n}, s.Sound o n → (s'.invalidBlockFound b).Sound o n := fun hn =>
    ⟨fun a ha => by simp [husable, hn.1 a ha, hne hn.2 a ha], hn.2⟩
  have hback : ∀ {n}, (s'.invalidBlockFound b).Sound o n → s.Sound o n := fun hn =>
    ⟨fun a ha => (Bool.and_eq_true_iff.mp (husable a ▸ hn.1 a ha)).1, hn.2⟩
  have hcands : ∀ {n}, n ∈ (s'.invalidBlockFound b).setBlockIndexCandidates →
      n ∈ s.setBlockIndexCandidates := fun hn => hclimbs.candidates (mem_of_mem_filter hn)
  have htip' := hbelow _ hclimbs.mem hclimbs.connects
  have hindex : (s'.invalidBlockFound b).mapBlockIndex = s.mapBlockIndex :=
    hclimbs.kept.mapBlockIndex
  refine ⟨⟨hclimbs.ok.of_sublist rfl hclimbs.ok.tip filter_sublist hclimbs.ok.unlinked,
    fun n hn => ?_, ⟨mem_availableCandidates.mpr ⟨?_, fun a ha _ => (hkeep hc).1 a ha⟩,
    h.best.connects, fun n hn hconnects => ?_⟩, htip'.2, .inr ⟨hkeep htip'.1, fun n hn hsound =>
      hbest n (hindex ▸ hn) (hback hsound)⟩⟩, ?_⟩
  · rw [show (s'.invalidBlockFound b).nChainTx = s.nChainTx from hclimbs.kept.nChainTx]
    exact h.linked n (hcands hn)
  · exact mem_filter.mpr ⟨hclimbs.keeps c h.candidate.1 fun x hx habove => (hbelow x hx habove).2,
      by simpa using hne h.best.connects c (Node.mem_path_self c)⟩
  · obtain ⟨hn, hava⟩ := mem_availableCandidates.mp hn
    exact hbest n (h.ok.candidates n (hcands hn))
      (hback ((hkeep htip'.1).of_available hava hconnects))
  · have hlt : ((s.mapBlockIndex.filter fun a => s.usable a && decide (o.connectTip a ≠ .ok)).filter
        (· ≠ b)).length < s.rejected o := by
      rw [ChainState.rejected, countP_eq_length_filter]
      refine length_filter_lt_length_iff_exists.mpr ⟨b, ?_, by simp⟩
      exact mem_filter.mpr ⟨hbi, by simp [hava b hbm hboff, hnot]⟩
    rw [ChainState.rejected, hindex, countP_eq_length_filter]
    refine Nat.lt_of_le_of_lt (Nat.le_of_eq ?_) hlt
    rw [List.filter_filter]
    congr 1
    refine filter_congr fun a _ => ?_
    rw [husable]
    cases s.usable a <;> simp [Bool.and_comm]

end

/-- What holds when `ActivateBestChain` has found its aim. -/
structure Reached (env : ChainEnv) (o : Oracle) (t : Tree CBlockHeader) (s : ChainState)
    (c : BlockPtr) (s' : ChainState) : Prop where
  aims : Aims env o t s' c
  tip : s'.chainActive = c
  settled : OrdSet.IsMax env.less s'.setBlockIndexCandidates c
  mapBlockIndex : s'.mapBlockIndex = s.mapBlockIndex
  nChainTx : s'.nChainTx = s.nChainTx
  usable : ∀ a, s'.usable a → s.usable a

theorem rejected_le (hmap : s'.mapBlockIndex = s.mapBlockIndex)
    (husable : ∀ a, s'.usable a → s.usable a) : s'.rejected o ≤ s.rejected o := by
  rw [rejected, rejected, hmap]
  refine countP_mono_left fun a _ ha => ?_
  rw [Bool.and_eq_true] at ha ⊢
  exact ⟨husable a ha.1, ha.2⟩

def Settled (env : ChainEnv) (s : ChainState) : Prop :=
  OrdSet.IsMax env.less s.setBlockIndexCandidates s.chainActive

structure Named (env : ChainEnv) (o : Oracle) (t : Tree CBlockHeader) (s : ChainState)
    (p : BlockPtr) (s' : ChainState) : Prop where
  steady : Steady env t s'
  recovers : Recovers env o s'
  settled : Settled env s'
  mapBlockIndex : s'.mapBlockIndex = s.mapBlockIndex
  rejected : s'.rejected o ≤ s.rejected o
  best : BestOf env o (s.availableCandidates ++ [p]) s'.chainActive

theorem Recovers.tip_connects (h : Recovers env o s) (hs : s.Ok env t) :
    o.ConnectsBranch s.chainActive := by
  rcases h with hall | ⟨htip, -⟩
  · exact fun a ha => hall a (hs.closed _ hs.tip a ha)
  · exact htip.2

theorem Named.of_settled (hs : Steady env t s) (hrec : Recovers env o s) (hsettled : Settled env s)
    (h : Named env o t s p s') : BestOf env o [s.chainActive, p] s'.chainActive := by
  have htip : s.chainActive ∈ s.availableCandidates ++ [p] :=
    mem_append_left _ (mem_availableCandidates.mpr ⟨hs.tip, s.available_tip⟩)
  refine ⟨?_, h.best.connects, fun c hc => h.best.best c ?_⟩
  · rcases mem_append.mp h.best.mem with hmem | hmem
    · by_contra hne
      have hne : s'.chainActive ≠ s.chainActive := fun heq => hne (by simp [heq])
      have hlt := hsettled.2 _ (mem_availableCandidates.mp hmem).1 hne
      have hgt : env.less s'.chainActive s.chainActive = false :=
        workLess_asymm (h.best.best _ htip (hrec.tip_connects hs.ok) hne.symm)
      simp [hlt] at hgt
    · simp [mem_singleton.mp hmem]
  · rcases mem_cons.mp hc with rfl | hc
    · exact htip
    · exact mem_append_right _ hc

/-- After the block was named, the node aims at the best of the available candidates and
the block that connect. -/
theorem preciousBlock_aims (hord : env.Orders t) (hs : Steady env t s)
    (hrec : Recovers env o s) (hp : Nameable s p) :
    ∃ candidates c, s.preciousBlock env p =
        some (true, { s with setBlockIndexCandidates := candidates }) ∧
      Aims env o t { s with setBlockIndexCandidates := candidates } c ∧
      BestOf env o (s.availableCandidates ++ [p]) c := by
  obtain ⟨candidates, hcall, hok₁, hmem⟩ := preciousBlock_spec hord hs hp
  have hmem₁ : ∀ n, n ∈ ChainState.availableCandidates
      { s with setBlockIndexCandidates := candidates } ↔ n ∈ candidates ∧ s.Available n :=
    fun n => mem_availableCandidates
  have htip₁ := (hmem₁ _).mpr ⟨(hmem _).mpr ⟨.inr hs.tip, workLess_irrefl _⟩, s.available_tip⟩
  obtain ⟨c, hbest⟩ := BestOf.exists hok₁ htip₁ (hrec.tip_connects hs.ok)
  obtain ⟨hc, hava⟩ := (hmem₁ c).mp hbest.mem
  -- what was pruned is below the tip, which is still there
  have hpruned : ∀ n ∈ s.mapBlockIndex, env.less n s.chainActive = true → env.less n c = true := by
    intro n hn hlt
    by_cases heq : s.chainActive = c
    · rwa [← heq]
    · exact hord.trans n (hs.ok.inTree n hn) _ (hs.ok.inTree _ hs.ok.tip) c
        (hok₁.candidates_inTree c hc) hlt (hbest.best _ htip₁ (hrec.tip_connects hs.ok) heq)
  have hall : ∀ n ∈ s.mapBlockIndex, n = p ∨ n ∈ s.setBlockIndexCandidates → s.Available n →
      o.ConnectsBranch n → n ≠ c → env.less n c = true := by
    intro n hni hn hava hconnects hne
    cases hless : env.less n s.chainActive with
    | false =>
      exact hbest.best n ((hmem₁ n).mpr ⟨(hmem n).mpr ⟨hn, hless⟩, hava⟩) hconnects hne
    | true => exact hpruned n hni hless
  refine ⟨candidates, c, hcall, ⟨hok₁, fun n hn => ?_, hbest, ((hmem c).mp hc).2,
    hrec.imp_right fun hsound => ⟨hsound.1, fun n hn hn' hne => ?_⟩⟩, ?_, hbest.connects,
    fun n hn => ?_⟩
  · refine hs.linked n (hok₁.candidates n hn) ?_
    rcases ((hmem n).mp hn).1 with rfl | hn
    · exact hp.counted
    · exact hs.counted n hn
  · cases hless : env.less n s.chainActive with
    | false =>
      exact hall n hn (.inr (hsound.2 n hn hn' hless)) (fun a ha _ => hn'.1 a ha) hn'.2 hne
    | true => exact hpruned n hn hless
  · rcases ((hmem c).mp hc).1 with rfl | hc
    · simp
    · exact mem_append_left _ (mem_availableCandidates.mpr ⟨hc, hava⟩)
  · rcases mem_append.mp hn with hn | hn
    · obtain ⟨hn, hava⟩ := mem_availableCandidates.mp hn
      exact hall n (hs.ok.candidates n hn) (.inr hn) hava
    · cases mem_singleton.mp hn
      exact hall p hp.mem (.inl rfl) hp.available

section
variable (hord : env.Orders t) (hgrow : WorkGrows t) (ho : o.Decides)
include hord hgrow ho

/-- Every branch that breaks costs at most as many turns as it is high and leaves one
block less to be rejected. -/
theorem Aims.activate (h : Aims env o t s c) (hheight : ∀ n ∈ s.mapBlockIndex, n.height < height)
    (hfuel : (s.rejected o + 1) * height ≤ fuel) (i : Nat) :
    ∃ r s', activateBestChain env o fuel i none s = some (r, s') ∧ Reached env o t s c s' := by
  induction hk : s.rejected o using Nat.strong_induction_on generalizing s fuel i with
  | _ k ih =>
  obtain ⟨m, s₁, hsearch, haims, hava, hmax, hsearched, hchainTx⟩ := h.search
  have hmi := haims.ok.candidates m hmax.1
  have hmt := haims.ok.inTree m hmi
  have hheight₁ : ∀ n ∈ s₁.mapBlockIndex, n.height < height := hsearched.mapBlockIndex ▸ hheight
  have hpos : height ≤ fuel := Nat.le_trans (Nat.le_mul_of_pos_left _ (Nat.succ_pos _)) hfuel
  obtain ⟨fuel, rfl⟩ := Nat.exists_eq_add_one_of_ne_zero
    (Nat.ne_zero_of_lt (Nat.lt_of_lt_of_le (hheight₁ m hmi) hpos))
  have hturn : turn env o i none s = turn env o i (some m) s₁ := by
    have hsome : mostWork (some m) s₁ = some (some m, s₁) := rfl
    simp only [turn, hsearch, hsome, ho.runs, Bool.false_eq_true, if_false]
  have hactivate : activateBestChain env o (fuel + 1) i none s =
      activateBestChain env o (fuel + 1) i (some m) s₁ := by
    simp only [activateBestChain, hturn]
  rw [hactivate]
  -- the best candidate is the aim if it connects
  have heq : o.ConnectsBranch m → m = c := by
    intro hconnects
    by_contra hne
    have hlt := haims.best.best m (mem_availableCandidates.mpr ⟨hmax.1, hava⟩) hconnects hne
    have hgt : env.less m c = false := workLess_asymm (hmax.2 c haims.candidate.1 (Ne.symm hne))
    simp [hlt] at hgt
  by_cases htip : m = s₁.chainActive
  · obtain rfl := heq (haims.connects_of_above hmi fun a ha hoff => absurd (htip ▸ ha) hoff)
    refine ⟨true, s₁, ?_, haims, htip.symm, hmax, hsearched.mapBlockIndex, hchainTx, hsearched.usable⟩
    simp only [activateBestChain, turn, ho.runs, mostWork, if_pos htip, Bool.false_eq_true, if_false]
  · have htree := haims.ok.inTree _ haims.ok.tip
    have hnot : env.less m s₁.chainActive = false := by
      by_cases hmc : m = c
      · rw [hmc]
        exact haims.not_less_tip
      · by_contra hlt
        have htrans := hord.trans c (haims.ok.candidates_inTree c haims.candidate.1) m hmt _ htree
          (hmax.2 c haims.candidate.1 (Ne.symm hmc)) (by simpa using hlt)
        simp [haims.not_less_tip] at htrans
    have hoff := hgrow.notMem_path htree htip hnot
    obtain ⟨q, hfork⟩ := t.fork_isSome htree hmt
    obtain ⟨s', hclimbs, ⟨htip', hcands, r, tip, hrun⟩ | ⟨b, hb, turns, hturns, j, hrun⟩⟩ :=
      activateBestChain_attempt hord ho haims.ok (.of_grows hgrow haims.ok hmax) hoff hfork
        (Nat.le_trans (hheight₁ m hmi).le (Nat.le_add_right height q.height)) i
    · obtain rfl := heq (haims.connects_of_above hmi (htip' ▸ hclimbs.connects))
      have hrun' := hrun (fuel + 1 - height)
      rw [Nat.sub_add_cancel hpos] at hrun'
      refine ⟨r, _, hrun', haims.arrives hclimbs htip' hcands tip, htip', ?_,
        hclimbs.kept.mapBlockIndex.trans hsearched.mapBlockIndex,
        hclimbs.kept.nChainTx.trans hchainTx,
        fun a ha => hsearched.usable a (hclimbs.kept.usable a ▸ ha)⟩
      exact ⟨by simp [hcands], fun c hc hne => absurd (mem_singleton.mp (hcands ▸ hc)) hne⟩
    · obtain ⟨haims', hless⟩ := haims.breaks hmi hava hb hclimbs
      have hfewer : s₁.rejected o ≤ s.rejected o :=
        rejected_le hsearched.mapBlockIndex hsearched.usable
      have hfuel' : ((s'.invalidBlockFound b).rejected o + 1) * height ≤ fuel + 1 - turns := by
        have hmul : ((s'.invalidBlockFound b).rejected o + 1) * height ≤ s.rejected o * height :=
          Nat.mul_le_mul_right height (Nat.le_trans hless hfewer)
        rw [Nat.add_mul, Nat.one_mul] at hfuel
        omega
      have hindex : (s'.invalidBlockFound b).mapBlockIndex = s.mapBlockIndex :=
        hclimbs.kept.mapBlockIndex.trans hsearched.mapBlockIndex
      obtain ⟨r, s'', hrest, hreached⟩ := ih _ (hk ▸ Nat.lt_of_lt_of_le hless hfewer) haims'
        (hindex ▸ hheight) hfuel' j rfl
      have hrun' := hrun (fuel + 1 - turns)
      rw [Nat.sub_add_cancel (Nat.le_trans hturns hpos)] at hrun'
      refine ⟨r, s'', hrun'.trans hrest, hreached.aims, hreached.tip, hreached.settled,
        hreached.mapBlockIndex.trans hindex,
        hreached.nChainTx.trans (hclimbs.kept.nChainTx.trans hchainTx), fun a ha => ?_⟩
      have husable := hreached.usable a ha
      rw [usable_invalidBlockFound, Bool.and_eq_true, hclimbs.kept.usable] at husable
      exact hsearched.usable a husable.1

theorem preciousCall_spec (hs : Steady env t s) (hrec : Recovers env o s) (hp : Nameable s p)
    (hheight : ∀ n ∈ s.mapBlockIndex, n.height < height)
    (hfuel : (s.rejected o + 1) * height ≤ fuel) :
    ∃ r s', preciousCall env o fuel p s = some (r, s') ∧ Named env o t s p s' := by
  obtain ⟨candidates, c, hcall, haims, hbest⟩ := preciousBlock_aims hord hs hrec hp
  obtain ⟨r, s', hrun, hreached⟩ := haims.activate hord hgrow ho hheight hfuel 0
  have haims' := hreached.aims
  have hsettled : Settled env s' := by
    rw [Settled, hreached.tip]
    exact hreached.settled
  refine ⟨r, s', by simp only [preciousCall, hcall, hrun], ⟨haims'.ok, hsettled.1,
    fun n hn => haims'.linked n hn n (Node.mem_path_self n), ?_⟩,
    haims'.recovers.imp_right fun hsound => ⟨hsound.1, fun n hn hn' hless => ?_⟩, hsettled,
    hreached.mapBlockIndex, rejected_le hreached.mapBlockIndex hreached.usable,
    hreached.tip ▸ hbest⟩
  · rw [hreached.mapBlockIndex, hreached.nChainTx]
    exact hs.linked
  · by_cases hnc : n = c
    · rw [hnc]
      exact haims'.candidate.1
    · have hlt := hsound.2 n hn hn' hnc
      simp [← hreached.tip, hless] at hlt

/-- The tip after a sequence of calls is the best of `rivals` and of the blocks that were
named, as far as they connect, if that holds of every first call. -/
theorem preciousCalls_best (hs : Steady env t s) (hrec : Recovers env o s)
    (hcalls : AllNameable env o fuel calls s) (hheight : ∀ n ∈ s.mapBlockIndex, n.height < height)
    (hfuel : (s.rejected o + 1) * height ≤ fuel) (rivals : List BlockPtr)
    (hrivals : ∀ c ∈ rivals, c ∈ s.mapBlockIndex)
    (hnone : calls = [] → BestOf env o rivals s.chainActive)
    (hfirst : ∀ p s', Named env o t s p s' → BestOf env o (rivals ++ [p]) s'.chainActive) :
    ∃ s', preciousCalls env o fuel calls s = some s' ∧ (∀ p ∈ calls, p ∈ s.mapBlockIndex) ∧
      BestOf env o (rivals ++ calls) s'.chainActive := by
  induction calls generalizing s rivals with
  | nil => exact ⟨s, rfl, by simp, by simpa using hnone rfl⟩
  | cons p rest ih =>
    obtain ⟨hp, hrest⟩ := hcalls
    obtain ⟨r, s₁, hcall, hnamed⟩ := preciousCall_spec hord hgrow ho hs hrec hp hheight hfuel
    have hs₁ := hnamed.steady
    -- after a call the tip stands for everything it was compared with
    obtain ⟨s', hrun, hmem, hbest⟩ := ih hs₁ hnamed.recovers (hrest _ hcall)
      (hnamed.mapBlockIndex ▸ hheight)
      (Nat.le_trans (Nat.mul_le_mul_right _ (Nat.succ_le_succ hnamed.rejected)) hfuel)
      [s₁.chainActive] (by simpa using hs₁.ok.tip)
      (fun _ => ⟨by simp, hnamed.best.connects, by simp⟩)
      fun _ _ h => h.of_settled hs₁ hnamed.recovers hnamed.settled
    rw [hnamed.mapBlockIndex] at hmem
    refine ⟨s', ?_, forall_mem_cons.mpr ⟨hp.mem, hmem⟩, ?_⟩
    · rw [preciousCalls, hcall]
      exact hrun
    · have hnodes : ∀ c ∈ rivals ++ [p], c ∈ t.nodes := forall_mem_append.mpr
        ⟨fun c hc => hs.ok.inTree c (hrivals c hc), by simpa using hs.ok.inTree p hp.mem⟩
      have happend := (hfirst p s₁ hnamed).append hord hnodes
        (fun b hb => hs.ok.inTree b (hmem b hb)) hbest
      rwa [append_assoc] at happend

end

theorem BestOf.named_iff (h : BestOf env o (rivals ++ [p]) m) :
    ((m = p ∨ nChainWork p < nChainWork m) ↔
      (∃ c ∈ rivals, o.ConnectsBranch c ∧ nChainWork p < nChainWork c) ∨
      (o.ConnectsBranch p ∧ ∀ c ∈ rivals, o.ConnectsBranch c → nChainWork c = nChainWork p →
        c ≠ p → env.less c p = true)) ∧
    (m = p ↔ o.ConnectsBranch p ∧
      ∀ c ∈ rivals, o.ConnectsBranch c → c ≠ p → env.less c p = true) := by
  have hmax : ∀ c ∈ rivals, o.ConnectsBranch c → c ≠ m → env.less c m = true := fun c hc =>
    h.best c (mem_append_left _ hc)
  have hrival : m ≠ p → m ∈ rivals := fun hne =>
    (mem_append.mp h.mem).resolve_right fun hm => hne (mem_singleton.mp hm)
  have hbelow : o.ConnectsBranch p → m ≠ p → env.less p m = true := fun hp hne =>
    h.best p (by simp) hp hne.symm
  have hnot : ∀ {c}, env.less p c = true → env.less c p = false := fun hlt => workLess_asymm hlt
  refine ⟨⟨?_, ?_⟩, ?_, fun hp => ?_⟩
  · rintro (rfl | hlt)
    · exact .inr ⟨h.connects, fun c hc hcc _ => hmax c hc hcc⟩
    · have hne : m ≠ p := by
        rintro rfl
        exact BitVec.lt_irrefl _ hlt
      exact .inl ⟨m, hrival hne, h.connects, hlt⟩
  · rintro (⟨c, hc, hcc, hlt⟩ | ⟨hp, hall⟩)
    · refine .inr (Std.lt_of_lt_of_le hlt ?_)
      by_cases hcm : c = m
      · rw [hcm]
        exact BitVec.le_refl _
      · exact work_le_of_less (hmax c hc hcc hcm)
    · by_cases hmp : m = p
      · exact .inl hmp
      · have hlt := hbelow hp hmp
        refine .inr (Std.lt_of_le_of_ne (work_le_of_less hlt) fun hwork => ?_)
        have hless := hall m (hrival hmp) h.connects hwork.symm hmp
        simp [hnot hlt] at hless
  · rintro rfl
    exact ⟨h.connects, hmax⟩
  · by_contra hmp
    have hless := hp.2 m (hrival hmp) h.connects hmp
    simp [hnot (hbelow hp.1 hmp)] at hless

/-- The named block or a better one becomes the tip unless the block does not connect or
one of equal work that is available or was named before connects and ranks higher, and the
last block that was named becomes the tip if it connects and ranks above all of these. -/
theorem preciousBlock_effective_iff (env : ChainEnv) (t : Tree CBlockHeader)
    (hord : StrictTotalOn env.less t.nodes) (hgrow : WorkGrows t) (o : Oracle) (ho : o.Decides)
    (s : ChainState) (hs : Steady env t s) (hrec : Recovers env o s) (height : Nat)
    (hheight : ∀ n ∈ s.mapBlockIndex, n.height < height) (fuel : Nat)
    (hfuel : (s.rejected o + 1) * height ≤ fuel) (before : List BlockPtr) (pindex : BlockPtr)
    (hcalls : AllNameable env o fuel (before ++ [pindex]) s) :
    ∃ s', preciousCalls env o fuel (before ++ [pindex]) s = some s' ∧
      ((s'.chainActive = pindex ∨ nChainWork pindex < nChainWork s'.chainActive) ↔
        (∃ c ∈ s.availableCandidates ++ before, o.ConnectsBranch c ∧
        nChainWork pindex < nChainWork c) ∨ (o.ConnectsBranch pindex ∧
        ∀ c ∈ s.availableCandidates ++ before, o.ConnectsBranch c →
          nChainWork c = nChainWork pindex → c ≠ pindex → env.less c pindex = true)) ∧
      (s'.chainActive = pindex ↔ o.ConnectsBranch pindex ∧
        ∀ c ∈ s.availableCandidates ++ before, o.ConnectsBranch c → c ≠ pindex →
          env.less c pindex = true) := by
  obtain ⟨s', hrun, -, hbest⟩ := preciousCalls_best hord hgrow ho hs hrec hcalls hheight hfuel
    s.availableCandidates (fun c hc => hs.ok.candidates c (mem_availableCandidates.mp hc).1)
    (by simp) fun _ _ h => h.best
  rw [← append_assoc] at hbest
  exact ⟨s', hrun, hbest.named_iff⟩

def versionedEnv : ChainEnv := addressedEnv fun n => n.value.nVersion.toNat

/-- Of two siblings with equal work the one with the smaller `hashGPoW` is the tip. Calls
that name the other one return true, and the tip stays. -/
theorem preciousBlock_ignored :
    let A := sibling 4 0 2
    let B := sibling 5 0 3
    let process (n : BlockPtr) : BlockOracle × Call :=
      (smoothOracle, .processNewBlock { header := n.value, vtx := [coinbase] } true)
    let name (n : BlockPtr) : BlockOracle × Call :=
      (smoothOracle, .preciousblock (versionedEnv.hashOf n))
    nChainWork A = nChainWork B ∧
    (runCalls versionedEnv 2 [process A, process B] none (.loaded regTestGenesis)).map
      (fun final => decide (AllNameable versionedEnv smoothOracle.toOracle 2 [A, B] final.2)) =
        some true ∧
    (runCalls versionedEnv 2 [process A, process B, name B] none (.loaded regTestGenesis)).map
      (fun final => (final.1, final.2.chainActive)) = some (some true, A) ∧
    (runCalls versionedEnv 2 [process A, process B, name A, name B] none (.loaded regTestGenesis)).map
      (fun final => (final.1, final.2.chainActive)) = some (some true, A) := by decide

def pairStored : ChainState :=
  let store (n : BlockPtr) (s : ChainState) : ChainState :=
    (storeNewBlock versionedEnv smoothOracle { header := n.value, vtx := [coinbase] } true s).2
  store (sibling 5 0 3) (store (sibling 4 0 2) (.loaded regTestGenesis))

theorem pairStored_valid : ValidTree versionedEnv.toHeaderEnv regTestGenesis
    [.root regTestGenesis, sibling 4 0 2, sibling 5 0 3] :=
  ⟨by decide, by decide, by decide, by decide⟩

theorem pairStored_ordered : StrictTotalOn versionedEnv.less pairStored_valid.tree.nodes :=
  (siblings_comparable _ (by decide) (by decide) (by decide)).strictTotalOn

theorem pairStored_grows : WorkGrows pairStored_valid.tree := by
  have hall : ∀ n ∈ [.root regTestGenesis, sibling 4 0 2, sibling 5 0 3], ∀ p ∈ n.pprev,
      nChainWork p < nChainWork n := by decide
  exact hall

theorem pairStored_steady : Steady versionedEnv pairStored_valid.tree pairStored where
  ok := by
    have hfirst : ∀ n ∈ (storeNewBlock versionedEnv smoothOracle
        { header := (sibling 4 0 2).value, vtx := [coinbase] } true
        (.loaded regTestGenesis)).2.mapBlockIndex, n ∈ [.root regTestGenesis, sibling 4 0 2,
        sibling 5 0 3] := by decide
    have hboth : ∀ n ∈ pairStored.mapBlockIndex,
        n ∈ [.root regTestGenesis, sibling 4 0 2, sibling 5 0 3] := by decide
    have hloaded : (ChainState.loaded regTestGenesis).Ok versionedEnv pairStored_valid.tree :=
      loaded_ok pairStored_valid.genesis_mem (by decide)
    exact storeNewBlock_ok pairStored_ordered
      (storeNewBlock_ok pairStored_ordered hloaded _ _ hfirst) _ _ hboth
  tip := by decide
  counted := by decide
  linked := by decide

/-- The sibling with the smaller `hashGPoW` does not connect: the other one, named last,
becomes the tip. -/
theorem preciousBlock_effective_pair :
    let o := (rejectingOracle (sibling 4 0 2)).toOracle
    ∃ s', preciousCalls versionedEnv o 4 [sibling 4 0 2, sibling 5 0 3] pairStored = some s' ∧
      s'.chainActive = sibling 5 0 3 := by
  intro o
  have hdecides : o.Decides := by
    refine ⟨fun n => ?_, fun _ => rfl, fun _ => rfl⟩
    by_cases hn : n = sibling 4 0 2
    · exact .inr (if_pos hn)
    · exact .inl (if_neg hn)
  have hrec : Recovers versionedEnv o pairStored := .inr ⟨⟨by decide, by decide⟩, by decide⟩
  obtain ⟨s', hrun, -, htip⟩ := preciousBlock_effective_iff versionedEnv pairStored_valid.tree
    pairStored_ordered pairStored_grows o hdecides pairStored pairStored_steady hrec 2 (by decide) 4
    (by decide) [sibling 4 0 2] (sibling 5 0 3) (by decide)
  exact ⟨s', hrun, htip.mpr (by decide)⟩

end OurChain
