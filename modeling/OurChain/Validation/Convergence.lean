import OurChain.Validation.ProcessNewBlock

/-!
# Convergence of the fork choice

Without failures `ActivateBestChain` ends at the best block of the index, and the
candidates shrink to that block. A node that stores its blocks as they arrive, parents
first, then has as its tip the best block it was given, whatever the order was.

Two exceptions are left to the reader of `Comparable` and `Admitted`: the comparator
must order the blocks without looking at addresses, and a block that nobody asked
for is only stored if it has more work than the tip.
-/

namespace OurChain

open ChainState Function List Node Option
open CBlockIndex (haveBit)

variable {env : ChainEnv} {o : Oracle} {t : Tree CBlockHeader} {s s' : ChainState}

/-- Nobody asks for a shutdown, every block disconnects, and a block connects or is found
to be invalid. -/
structure Oracle.Decides (o : Oracle) : Prop where
  connects : ∀ n, o.connectTip n = .ok ∨ o.connectTip n = .invalid false
  disconnects : ∀ n, o.disconnectTip n = true
  runs : ∀ i, o.shutdownRequested i = false

/-- Every block connects and disconnects, and nobody asks for a shutdown. -/
structure Oracle.Smooth (o : Oracle) : Prop where
  connects : ∀ n, o.connectTip n = .ok
  disconnects : ∀ n, o.disconnectTip n = true
  runs : ∀ i, o.shutdownRequested i = false

theorem Oracle.Smooth.decides (h : o.Smooth) : o.Decides :=
  ⟨fun n => .inl (h.connects n), h.disconnects, h.runs⟩

/-- What a change of the tip leaves alone. Candidates may get lost. -/
structure Kept (s s' : ChainState) : Prop where
  mapBlockIndex : s'.mapBlockIndex = s.mapBlockIndex
  nChainTx : s'.nChainTx = s.nChainTx
  mapBlocksUnlinked : s'.mapBlocksUnlinked = s.mapBlocksUnlinked
  usable : ∀ a, s'.usable a = s.usable a

theorem Kept.trans (h : Kept s s₁) (h' : Kept s₁ s') : Kept s s' :=
  ⟨h'.mapBlockIndex.trans h.mapBlockIndex, h'.nChainTx.trans h.nChainTx,
    h'.mapBlocksUnlinked.trans h.mapBlocksUnlinked, fun a => (h'.usable a).trans (h.usable a)⟩

/-- The blocks of `n` that are not on the branch of `tip` connect. -/
def Oracle.ConnectsAbove (o : Oracle) (tip n : BlockPtr) : Prop :=
  ∀ a ∈ n.path, a ∉ tip.path → o.connectTip a = .ok

theorem Oracle.ConnectsAbove.trans (h : o.ConnectsAbove tip tip') (h' : o.ConnectsAbove tip' n) :
    o.ConnectsAbove tip n := by
  intro a ha hoff
  by_cases htip : a ∈ tip'.path
  · exact h a htip hoff
  · exact h' a ha htip

/-- The tip moved up the branch of `m`, off the old chain or along it, and the candidates
below the blocks on the way got lost. -/
structure Climbs (env : ChainEnv) (o : Oracle) (t : Tree CBlockHeader) (s : ChainState) (m : BlockPtr)
    (s' : ChainState) : Prop where
  ok : s'.Ok env t
  kept : Kept s s'
  mem : s'.chainActive ∈ m.path
  connects : o.ConnectsAbove s.chainActive s'.chainActive
  shared : ∀ a ∈ m.path, a ∈ s.chainActive.path → a ∈ s'.chainActive.path
  candidates : s'.setBlockIndexCandidates ⊆ s.setBlockIndexCandidates
  keeps : ∀ c ∈ s.setBlockIndexCandidates,
    (∀ x ∈ m.path, o.ConnectsAbove s.chainActive x → env.less c x = false) →
    c ∈ s'.setBlockIndexCandidates

theorem Climbs.trans (h : Climbs env o t s m s₁) (h' : Climbs env o t s₁ m s') :
    Climbs env o t s m s' where
  ok := h'.ok
  kept := h.kept.trans h'.kept
  mem := h'.mem
  connects := h.connects.trans h'.connects
  shared a ha hon := h'.shared a ha (h.shared a ha hon)
  candidates := List.Subset.trans h'.candidates h.candidates
  keeps c hc hx := h'.keeps c (h.keeps c hc hx) fun x hxm hconnects =>
    hx x hxm (h.connects.trans hconnects)

theorem disconnectTo_eq (ho : o.Decides) {n : BlockPtr} (hq : q ∈ n.path) :
    disconnectTo o (some q) n = (true, q) := by
  induction n with
  | root x => cases mem_singleton.mp hq; simp [disconnectTo]
  | child p x ih =>
    rcases mem_path_child hq with rfl | hq
    · simp [disconnectTo]
    · have hne : some q ≠ some (.child p x) := fun h => child_ne_of_mem_path hq (some.inj h).symm
      rw [disconnectTo, if_neg hne, if_pos (ho.disconnects _), ih hq]

structure BestCandidate (env : ChainEnv) (s : ChainState) (m : BlockPtr) : Prop where
  isMax : OrdSet.IsMax env.less s.setBlockIndexCandidates m
  branch : ∀ x ∈ m.path, env.less m x = false

theorem BestCandidate.climbs (hbest : BestCandidate env s m) (h : Climbs env o t s m s') :
    BestCandidate env s' m :=
  ⟨⟨h.keeps m hbest.isMax.1 fun x hx _ => hbest.branch x hx,
    fun c hc => hbest.isMax.2 c (h.candidates hc)⟩, hbest.branch⟩

/-- A block of the branch of `m` off the active chain that does not connect. -/
def Breaks (o : Oracle) (tip m b : BlockPtr) : Prop :=
  b ∈ m.path ∧ b ∉ tip.path ∧ o.connectTip b ≠ .ok

section
variable (hord : env.Orders t)
include hord

theorem connectBlocks_decided (ho : o.Decides)
    (hs : s.Ok env t) (hl : ∀ a ∈ l, a ∈ s.mapBlockIndex) (hm : m ∈ s.setBlockIndexCandidates)
    (hbest : ∀ x ∈ l, env.less m x = false) (w : Uint256) :
    ∃ r s', connectBlocks env o w l s = some (r, s') ∧ r ≠ .error := by
  induction l generalizing s with
  | nil => exact ⟨.progress, s, rfl, by simp⟩
  | cons n l ih =>
    obtain ⟨hn, hl⟩ := forall_mem_cons.mp hl
    obtain ⟨hmn, hbest⟩ := forall_mem_cons.mp hbest
    rcases ho.connects n with hconnects | hinvalid
    · have hconnected : (s.connected n).Ok env t := hs.of_sublist rfl hn (.refl _) hs.unlinked
      obtain ⟨s₁, hprune⟩ := prune_isSome hord hconnected hm hmn
      have hs₁ := prune_eq_some hprune
      have hpruned : s₁.Ok env t := by
        rw [hs₁]
        exact hconnected.of_sublist rfl hn (dropWhile_sublist _) hs.unlinked
      have hm₁ : m ∈ s₁.setBlockIndexCandidates := by
        rw [hs₁]
        exact (mem_prune hord hconnected m).mpr ⟨hm, hmn⟩
      obtain ⟨r, s', hrest, hr⟩ := ih hpruned (by rw [hs₁]; exact hl) hm₁ hbest
      simp only [connectBlocks, hconnects, hprune, bind_eq_bind, bind_some]
      split
      · exact ⟨.progress, s₁, rfl, by simp⟩
      · exact ⟨r, s', hrest, hr⟩
    · simp only [connectBlocks, hinvalid]
      exact ⟨.invalidFound, _, rfl, by simp⟩

theorem Connects.climbs (hs : s.Ok env t)
    (hm : m ∈ s.mapBlockIndex) (hfork : Node.fork s.chainActive m = some q)
    (hl : m.since (some q) = done ++ rest)
    (h : Connects env o { s with chainActive := q } done s') : Climbs env o t s m s' := by
  obtain ⟨hqm, hqtip⟩ := fork_mem hfork
  have hq := hs.closed _ hs.tip _ hqtip
  have hs₀ : ChainState.Ok env t { s with chainActive := q } :=
    hs.of_sublist rfl hq (.refl _) hs.unlinked
  have habove : ∀ a, a ∈ done ++ rest ↔ a ∈ m.path ∧ a ∉ s.chainActive.path := fun a =>
    hl ▸ mem_since_fork hfork
  have hdone : ∀ x ∈ done, x ∈ m.path := fun x hx => ((habove x).mp (mem_append_left _ hx)).1
  have hindex : ∀ x ∈ done, x ∈ s.mapBlockIndex := fun x hx => hs.closed m hm x (hdone x hx)
  have hchain := pairwise_since hqm
  rw [hl, ← cons_append] at hchain
  obtain ⟨hok, ⟨_, _, hmoved⟩, hcands, husable, hconnected⟩ := h.spec hord hs₀ hindex
  -- what is below a connected block is on the old chain or was connected before it
  have hconnects : ∀ x ∈ q :: done, o.ConnectsAbove s.chainActive x := by
    intro x hx a ha hoff
    rcases mem_cons.mp hx with rfl | hxd
    · exact absurd (path_trans ha hqtip) hoff
    · have hmem := (habove a).mpr ⟨path_trans ha (hdone x hxd), hoff⟩
      rcases mem_append.mp hmem with had | har
      · exact hconnected a had
      · have hlt := (pairwise_append.mp hchain).2.2 x hx a har
        have := height_lt_of_mem_path hlt.1 hlt.2
        have := height_le_of_mem_path ha
        omega
  have htip := h.tip_mem hord hs₀ hindex
  refine ⟨hok, ⟨?_, ?_, ?_, husable⟩, ?_, hconnects _ htip, fun a ha hon => ?_,
    fun c hc => ((hcands c).mp hc).1, fun c hc hx => (hcands c).mpr ⟨hc, fun x hxd =>
      hx x (hdone x hxd) (hconnects x (mem_cons_of_mem _ hxd))⟩⟩
  · rw [hmoved]; rfl
  · rw [hmoved]; rfl
  · rw [hmoved]; rfl
  · rcases mem_cons.mp htip with htip | htip
    · exact htip ▸ hqm
    · exact hdone _ htip
  · have haq : a ∈ q.path := by
      rw [← mem_branch, branch_eq_append_since hqm, mem_append, mem_branch] at ha
      exact ha.resolve_right fun habv => ((habove a).mp (hl ▸ habv)).2 hon
    rw [hmoved]
    exact path_trans haq
      (mem_path_getLast (pairwise_append.mp hchain).1 (mem_cons_self ..))

theorem BestCandidate.of_isMax (hs : s.Ok env t)
    (hmax : OrdSet.IsMax env.less s.mapBlockIndex m) (hmc : m ∈ s.setBlockIndexCandidates) :
    BestCandidate env s m := by
  refine ⟨⟨hmc, fun c hc => hmax.2 c (hs.candidates c hc)⟩, fun x hx => ?_⟩
  have hxm := hs.closed m hmax.1 x hx
  by_cases heq : x = m
  · rw [heq]
    exact hord.irrefl m (hs.inTree m hmax.1)
  · exact hord.asymm (hs.inTree x hxm) (hs.inTree m hmax.1) (hmax.2 x hxm heq)

theorem activateBestChainStep_climbs (ho : o.Decides)
    (hs : s.Ok env t) (hbest : BestCandidate env s m) (hoff : m ∉ s.chainActive.path)
    (hfork : Node.fork s.chainActive m = some q) :
    ∃ s', Climbs env o t s m s' ∧
      ((activateBestChainStep env o m s = some (.progress, s') ∧
        q.height < s'.chainActive.height ∧
        ∀ p ∈ s'.setBlockIndexCandidates, env.less p s'.chainActive = false) ∨
      ∃ b, Breaks o s.chainActive m b ∧
        activateBestChainStep env o m s = some (.invalidFound, s'.invalidBlockFound b)) := by
  have hq := hs.closed _ hs.tip _ (fork_mem hfork).2
  have hs₀ : ChainState.Ok env t { s with chainActive := q } :=
    hs.of_sublist rfl hq (.refl _) hs.unlinked
  have hmi := hs.candidates m hbest.isMax.1
  have hpath : ∀ a ∈ m.since (some q), a ∈ s.mapBlockIndex := fun a ha =>
    hs.closed m hmi a (mem_since ha)
  obtain ⟨r, s', hconnect, hr⟩ := connectBlocks_decided hord ho hs₀ hpath hbest.isMax.1
    (fun x hx => hbest.branch x (mem_since hx)) (nChainWork s.chainActive)
  have hstep : activateBestChainStep env o m s = some (r, s') := by
    simp only [activateBestChainStep, hfork, disconnectTo_eq ho (fork_mem hfork).2]
    exact hconnect
  obtain ⟨done, rest, s₁, hl, hconnects, hcase⟩ := connectBlocks_cases hconnect
  have hclimbs := hconnects.climbs hord hs hmi hfork hl
  refine ⟨s₁, hclimbs, ?_⟩
  cases r with
  | error => exact absurd rfl hr
  | progress =>
    obtain ⟨rfl, hdone⟩ := hcase
    have hmem : ∀ a ∈ done, a ∈ m.since (some q) := fun a ha => hl ▸ mem_append_left rest ha
    obtain ⟨-, ⟨_, _, hmoved⟩, hcands, -⟩ := hconnects.spec hord hs₀ fun a ha => hpath a (hmem a ha)
    -- at least one block was connected
    obtain ⟨x, hx⟩ : ∃ x, done.getLast? = some x := by
      rw [← isSome_iff_exists, getLast?_isSome]
      rcases hdone with rfl | hdone
      · rintro rfl
        have hmq : some m ≠ some q := by
          rintro ⟨⟩
          exact hoff (fork_mem hfork).2
        simpa [hl] using getLast?_since hmq
      · exact hdone
    have htip : s'.chainActive = x := by
      rw [hmoved, hx]
      rfl
    have hxd := mem_of_getLast? hx
    have hqx := (pairwise_cons.mp (pairwise_since (fork_mem hfork).1)).1 x (hmem x hxd)
    rw [htip]
    exact .inl ⟨hstep, height_lt_of_mem_path hqx.1 hqx.2, fun p hp => ((hcands p).mp hp).2 x hxd⟩
  | invalidFound =>
    obtain ⟨b, rest', cp, rfl, hinvalid, rfl⟩ := hcase
    have hb := (mem_since_fork hfork).mp (hl ▸ mem_append_right done (mem_cons_self ..))
    have hnot : o.connectTip b ≠ .ok := by simp [hinvalid]
    obtain rfl : cp = false := by
      rcases ho.connects b with hconnected | hfalse
      · exact absurd hconnected hnot
      · simpa [hinvalid] using hfalse
    exact .inr ⟨b, ⟨hb.1, hb.2, hnot⟩, hstep⟩

end

theorem finish_eq (o : Oracle) (s : ChainState) :
    ∃ result tip, finish o s = .stop result { s with observed := tip } := by
  unfold finish
  split
  · exact ⟨false, s.observed, rfl⟩
  · exact ⟨_, s.chainActive, rfl⟩

/-- Where `ActivateBestChain` ends: at `m`, the only candidate left. -/
structure EndsAt (env : ChainEnv) (t : Tree CBlockHeader) (s : ChainState) (m : BlockPtr)
    (s' : ChainState) : Prop where
  ok : s'.Ok env t
  kept : Kept s s'
  tip : s'.chainActive = m
  settled : s'.setBlockIndexCandidates = [m]

section
variable (hord : env.Orders t)
include hord

/-- The turns towards `m`, of which there are at most `k`: they end at `m`, or with a
block that does not connect. -/
theorem activateBestChain_attempt (ho : o.Decides)
    (hs : s.Ok env t) (hbest : BestCandidate env s m) (hoff : m ∉ s.chainActive.path)
    (hfork : Node.fork s.chainActive m = some q) (hk : m.height ≤ k + q.height) (i : Nat) :
    ∃ s', Climbs env o t s m s' ∧
      ((s'.chainActive = m ∧ s'.setBlockIndexCandidates = [m] ∧ ∃ r tip, ∀ fuel,
        activateBestChain env o (fuel + k) i (some m) s = some (r, { s' with observed := tip })) ∨
      ∃ b, Breaks o s.chainActive m b ∧ ∃ turns ≤ k, ∃ j, ∀ fuel,
        activateBestChain env o (fuel + turns) i (some m) s =
          activateBestChain env o fuel j none (s'.invalidBlockFound b)) := by
  induction k generalizing i s q with
  | zero =>
    have heq : m = q := eq_of_mem_path (mem_path_self m) (fork_mem hfork).1 <|
      Nat.le_antisymm (by omega) (height_le_of_mem_path (fork_mem hfork).1)
    exact absurd (heq ▸ (fork_mem hfork).2) hoff
  | succ k ih =>
    have hne : m ≠ s.chainActive := by
      rintro rfl
      exact hoff (mem_path_self _)
    obtain ⟨s₁, hclimbs, ⟨hstep, hheight, hpruned⟩ | ⟨b, hb, hstep⟩⟩ :=
      activateBestChainStep_climbs hord ho hs hbest hoff hfork
    · have hbest₁ := hbest.climbs hclimbs
      have hturn : turn env o i (some m) s =
          some (if s₁.chainActive = m then finish o s₁ else .again (some m) s₁) := by
        simp only [turn, ho.runs, mostWork, if_neg hne, hstep, Bool.false_eq_true, if_false]
      by_cases hdone : s₁.chainActive = m
      · obtain ⟨r, tip, hfinish⟩ := finish_eq o s₁
        have hirrefl := hord.irrefl m (hclimbs.ok.candidates_inTree m hbest₁.isMax.1)
        refine ⟨s₁, hclimbs, .inl ⟨hdone, ?_, r, tip, fun fuel => ?_⟩⟩
        · refine OrdSet.sorted_eq_singleton hirrefl hclimbs.ok.sorted hbest₁.isMax.1 fun p hp => ?_
          by_contra hpm
          have hlt := hbest₁.isMax.2 p hp hpm
          rw [← hdone, hpruned p hp] at hlt
          cases hlt
        · rw [← Nat.add_assoc, activateBestChain, hturn, if_pos hdone, hfinish]
      · have hoff₁ : m ∉ s₁.chainActive.path := by
          intro hm
          have hle := height_le_of_mem_path hm
          have hlt := height_lt_of_mem_path hclimbs.mem hdone
          omega
        have hagain : ∀ fuel, activateBestChain env o (fuel + 1) i (some m) s =
            activateBestChain env o fuel (i + 1) (some m) s₁ := by
          intro fuel
          rw [activateBestChain, hturn, if_neg hdone]
        obtain ⟨s', hclimbs', hend⟩ :=
          ih hclimbs.ok hbest₁ hoff₁ (fork_of_mem hclimbs.mem) (by omega) (i + 1)
        refine ⟨s', hclimbs.trans hclimbs', hend.imp ?_ ?_⟩
        · rintro ⟨htip, hcands, r, tip, hrun⟩
          exact ⟨htip, hcands, r, tip, fun fuel => (hagain _).trans (hrun fuel)⟩
        · rintro ⟨b, ⟨hbm, hboff, hnot⟩, turns, hturns, j, hrun⟩
          exact ⟨b, ⟨hbm, fun hon => hboff (hclimbs.shared b hbm hon), hnot⟩, turns + 1,
            Nat.succ_le_succ hturns, j, fun fuel => (hagain _).trans (hrun fuel)⟩
    · refine ⟨s₁, hclimbs, .inr ⟨b, hb, 1, Nat.succ_le_succ (Nat.zero_le k), i + 1, fun fuel => ?_⟩⟩
      simp only [activateBestChain, turn, ho.runs, mostWork, if_neg hne, hstep, Bool.false_eq_true,
        if_false]

theorem activateBestChain_toward (ho : o.Smooth)
    (hs : s.Ok env t) (hbest : BestCandidate env s m) (hoff : m ∉ s.chainActive.path)
    (hfork : Node.fork s.chainActive m = some q) (hfuel : m.height ≤ fuel + q.height) (i : Nat) :
    ∃ r s', activateBestChain env o fuel i (some m) s = some (r, s') ∧ EndsAt env t s m s' := by
  obtain ⟨s', hclimbs, ⟨htip, hcands, r, tip, hrun⟩ | ⟨b, hb, -⟩⟩ :=
    activateBestChain_attempt hord ho.decides hs hbest hoff hfork hfuel i
  · have hrun₀ := hrun 0
    rw [Nat.zero_add] at hrun₀
    exact ⟨r, _, hrun₀, hclimbs.ok.of_sublist rfl hclimbs.ok.tip (.refl _) hclimbs.ok.unlinked,
      ⟨hclimbs.kept.1, hclimbs.kept.2, hclimbs.kept.3, hclimbs.kept.4⟩, htip, hcands⟩
  · exact absurd (ho.connects b) hb.2.2

theorem activateBestChain_best (ho : o.Smooth)
    (hs : s.Ok env t) (hmax : OrdSet.IsMax env.less s.mapBlockIndex m)
    (hlast : s.setBlockIndexCandidates.getLast? = some m)
    (hgood : ∀ a ∈ m.path, a ∉ s.chainActive.path → s.usable a ∧ (s.nChainTx a ≠ 0 ∨ a.height = 0))
    (htip : (m = s.chainActive ∧ s.setBlockIndexCandidates = [m]) ∨ m ∉ s.chainActive.path)
    (hfuel : m.height < fuel) (i : Nat) :
    ∃ r s', activateBestChain env o fuel i none s = some (r, s') ∧ EndsAt env t s m s' := by
  have hsearch : mostWork none s = some (some m, s) := by
    simp only [mostWork, ChainState.findMostWorkChain, hlast, findUnusable_eq_none s hgood]
  have hturn : turn env o i none s = turn env o i (some m) s := by
    have hsome : mostWork (some m) s = some (some m, s) := rfl
    simp only [turn, hsearch, hsome]
  obtain ⟨fuel, rfl⟩ := Nat.exists_eq_add_one_of_ne_zero (Nat.ne_zero_of_lt hfuel)
  have hcall : activateBestChain env o (fuel + 1) i none s =
      activateBestChain env o (fuel + 1) i (some m) s := by
    rw [activateBestChain, activateBestChain, hturn]
  rw [hcall]
  rcases htip with ⟨rfl, hsettled⟩ | hoff
  · refine ⟨true, s, ?_, hs, ⟨rfl, rfl, rfl, fun _ => rfl⟩, rfl, hsettled⟩
    simp only [activateBestChain, turn, ho.runs, mostWork, Bool.false_eq_true, if_false, if_true]
  · obtain ⟨q, hfork⟩ := t.fork_isSome (hs.inTree _ hs.tip) (hs.inTree m hmax.1)
    have hbest := BestCandidate.of_isMax hord hs hmax (mem_of_getLast? hlast)
    exact activateBestChain_toward hord ho hs hbest hoff hfork
      (Nat.le_trans hfuel.le (Nat.le_add_right ..)) i

end

/-- The comparator orders the blocks, and does so without their addresses: there is no
tangle, and blocks of one second within the tolerance differ in `hashGPoW`. -/
structure Comparable (env : ChainEnv) (blocks : List BlockPtr) : Prop where
  addr_inj : ∀ a ∈ blocks, ∀ b ∈ blocks, env.addr a = env.addr b → a = b
  tangleFree : TangleFree {k | ∃ n ∈ blocks, env.workKey n = k}
  separated : ∀ a ∈ blocks, ∀ b ∈ blocks, a ≠ b → SameTime (env.workKey a) (env.workKey b) →
    FarLater (env.workKey a) (env.workKey b) ∨ FarLater (env.workKey b) (env.workKey a) ∨
      a.value.hashGPoW ≠ b.value.hashGPoW

/-- The header of `n` passes every check on top of its parent, whichever checkpoint
that does not stand on `n` is known. -/
def ValidHeader (env : HeaderEnv) (blocks : List BlockPtr) : BlockPtr → Prop
  | .root block => block.getHash env.H = env.params.hashGenesisBlock
  | .child p block =>
    p ∈ blocks ∧ env.hashOf p = block.hashPrevBlock ∧
    checkBlockHeader env.params.consensus block true = .ok () ∧
    ∀ pcheckpoint ∈ none :: blocks.map some, (∀ c ∈ pcheckpoint, Node.child p block ∉ c.path) →
      contextualCheckBlockHeader env.params pcheckpoint block p env.nAdjustedTime = .ok ()

instance (env : HeaderEnv) (blocks : List BlockPtr) :
    (n : BlockPtr) → Decidable (ValidHeader env blocks n)
  | .root _ => inferInstanceAs (Decidable (_ = _))
  | .child _ _ => inferInstanceAs (Decidable (_ ∧ _ ∧ _ ∧ ∀ c ∈ _, (∀ a ∈ c, _) → _))

/-- A finite tree of blocks over the genesis block `.root genesis`. -/
structure ValidTree (env : HeaderEnv) (genesis : CBlockHeader) (blocks : List BlockPtr) : Prop where
  genesis_mem : .root genesis ∈ blocks
  one_root : ∀ n ∈ blocks, n.pprev = none → n = .root genesis
  nodup : (blocks.map env.hashOf).Nodup
  valid : ∀ n ∈ blocks, ValidHeader env blocks n

/-- A call of `ProcessNewBlock` with a block of the tree. -/
structure Delivery where
  node : BlockPtr
  block : CBlock
  fForceProcessing : Bool
  oracle : BlockOracle
  header : block.header = node.value

def processBlocks (env : ChainEnv) (fuel : Nat) : List Delivery → ChainState → Option ChainState
  | [], s => some s
  | d :: rest, s =>
    match processNewBlock env d.oracle fuel d.block d.fForceProcessing s with
    | none => none
    | some (_, s) => processBlocks env fuel rest s

/-- A block as it may arrive: it was asked for, or it has more work than the tip and is
not too far ahead, or it loses against the tip and no block stands on it. -/
def Admitted (env : ChainEnv) (blocks : List BlockPtr) (s : ChainState) (d : Delivery) : Prop :=
  d.fForceProcessing = true ∨
  (nChainWork s.chainActive < nChainWork d.node ∧
    d.node.height ≤ s.chainActive.height + MIN_BLOCKS_TO_KEEP) ∨
  (env.less d.node s.chainActive = true ∧ ∀ m ∈ blocks, d.node ∈ m.path → m = d.node)

def AllAdmitted (env : ChainEnv) (blocks : List BlockPtr) (fuel : Nat) :
    List Delivery → ChainState → Prop
  | [], _ => True
  | d :: rest, s => Admitted env blocks s d ∧ ∀ r s',
      processNewBlock env d.oracle fuel d.block d.fForceProcessing s = some (r, s') →
      AllAdmitted env blocks fuel rest s'

structure BlockOracle.Smooth (o : BlockOracle) : Prop extends o.toOracle.Smooth where
  checks : ∀ block, o.checkBlock block = .ok
  checksContext : ∀ block, o.contextualCheckBlock block = .ok
  stores : o.findBlockPos = true

/-- The whole tree is delivered, parents before children, and nothing fails. Its
transactions and that of the genesis block can be counted in `nChainTx`. -/
structure DeliversTree (genesis : CBlockHeader) (blocks : List BlockPtr) (order : List Delivery) :
    Prop where
  perm : (.root genesis :: order.map Delivery.node).Perm blocks
  parentsFirst : (order.map Delivery.node).Pairwise fun a b => b ∉ a.path
  smooth : ∀ d ∈ order, d.oracle.Smooth
  counted : 1 + (order.map (·.block.vtx.length)).sum < 2 ^ 32

def ValidTree.tree {henv : HeaderEnv} (h : ValidTree henv genesis blocks) : Tree CBlockHeader where
  nodes := {n | n ∈ blocks}
  parent _ _ hn := (h.valid _ hn).1
  root _ _ ha hb := Node.root.inj ((h.one_root _ ha rfl).trans (h.one_root _ hb rfl).symm)

theorem Comparable.strictTotalOn (h : Comparable env blocks) :
    StrictTotalOn env.less {n | n ∈ blocks} := by
  have hmem : ∀ n ∈ blocks, env.workKey n ∈ {k | ∃ n ∈ blocks, env.workKey n = k} := fun n hn =>
    ⟨n, hn, rfl⟩
  have hkeys : StrictTotalOn workLess {k | ∃ n ∈ blocks, env.workKey n = k} := by
    refine workLess_strictTotalOn h.tangleFree ?_
    rintro _ ⟨a, ha, rfl⟩ _ ⟨b, hb, rfl⟩ haddr
    rw [h.addr_inj a ha b hb haddr]
  exact ⟨fun a ha => hkeys.irrefl _ (hmem a ha),
    fun a ha b hb c hc => hkeys.trans _ (hmem a ha) _ (hmem b hb) _ (hmem c hc),
    fun a ha b hb hne => workLess_total _ _ fun haddr => hne (h.addr_inj a ha b hb haddr)⟩

theorem Comparable.less_eq (h : Comparable env blocks) (env' : ChainEnv) (ha : a ∈ blocks)
    (hb : b ∈ blocks) (hne : a ≠ b) : env.less a b = env'.less a b :=
  (workLess_readdress (h.separated a ha b hb hne) (env'.addr a) (env'.addr b)).symm

def Stored (s : ChainState) (n : BlockPtr) : Prop := s.usable n ∧ s.nChainTx n ≠ 0

def Leaf (t : Tree CBlockHeader) (n : BlockPtr) : Prop := ∀ m ∈ t.nodes, n ∈ m.path → m = n

/-- Between two blocks: the tip is the best block of the index and the only candidate,
and only leaves may lack their data. No branch has more than `txs` transactions. -/
structure Synced (env : ChainEnv) (t : Tree CBlockHeader) (txs : Nat) (s : ChainState) : Prop where
  ok : s.Ok env t
  best : OrdSet.IsMax env.less s.mapBlockIndex s.chainActive
  settled : s.setBlockIndexCandidates = [s.chainActive]
  linked : s.mapBlocksUnlinked = []
  stored : ∀ n ∈ s.mapBlockIndex, Stored s n ∨ Leaf t n
  counted : ∀ n ∈ s.mapBlockIndex, (s.nChainTx n).toNat ≤ txs

/-- What `AcceptBlock` leaves of a synced state: the new block `n` becomes a candidate
unless it loses against the tip. -/
structure Arrived (env : ChainEnv) (t : Tree CBlockHeader) (s : ChainState) (n : BlockPtr)
    (txs : Nat) (s' : ChainState) : Prop where
  ok : s'.Ok env t
  mapBlockIndex : s'.mapBlockIndex = s.mapBlockIndex ++ [n]
  tip : s'.chainActive = s.chainActive
  linked : s'.mapBlocksUnlinked = []
  old : ∀ a ∈ s.mapBlockIndex, Stored s a → Stored s' a
  new : Stored s' n ∨ (Leaf t n ∧ env.less n s.chainActive = true)
  counted : ∀ a ∈ s'.mapBlockIndex, (s'.nChainTx a).toNat ≤ txs
  candidates : s'.setBlockIndexCandidates =
    if env.less n s.chainActive then [s.chainActive] else OrdSet.insert env.less n [s.chainActive]

theorem Stored.of_kept (h : Kept s s') (hn : Stored s n) : Stored s' n :=
  ⟨(h.usable n).trans hn.1, h.nChainTx ▸ hn.2⟩

theorem Synced.arrive (hord : env.Orders t) (ho : o.Smooth) (hs : Synced env t txs s)
    (hnew : n ∉ s.mapBlockIndex) (h : Arrived env t s n txs' s₂)
    (hfuel : ∀ a ∈ t.nodes, a.height < fuel) :
    ∃ r s', activateBestChain env o fuel 0 none s₂ = some (r, s') ∧ Synced env t txs' s' ∧
      s'.mapBlockIndex = s.mapBlockIndex ++ [n] := by
  have hnt : n ∈ t.nodes := h.ok.inTree n (by simp [h.mapBlockIndex])
  have htipt : s.chainActive ∈ t.nodes := hs.ok.inTree _ hs.ok.tip
  have hne : s.chainActive ≠ n := fun heq => hnew (heq ▸ hs.ok.tip)
  -- the best block m of the index is the last candidate
  suffices hbest : ∃ m, OrdSet.IsMax env.less s₂.mapBlockIndex m ∧
      s₂.setBlockIndexCandidates.getLast? = some m ∧
      (∀ a ∈ m.path, a ∉ s₂.chainActive.path → Stored s₂ a) ∧
      ((m = s₂.chainActive ∧ s₂.setBlockIndexCandidates = [m]) ∨ m ∉ s₂.chainActive.path) by
    obtain ⟨m, hmax, hlast, hgood, htip⟩ := hbest
    obtain ⟨r, s', hrun, hend⟩ := activateBestChain_best hord ho h.ok hmax hlast
      (fun a ha hoff => ⟨(hgood a ha hoff).1, .inl (hgood a ha hoff).2⟩) htip
      (hfuel m (h.ok.inTree m hmax.1)) 0
    refine ⟨r, s', hrun, ⟨hend.ok, ?_, ?_, hend.kept.mapBlocksUnlinked.trans h.linked, fun a ha => ?_,
      ?_⟩, hend.kept.mapBlockIndex.trans h.mapBlockIndex⟩
    · rw [hend.tip, hend.kept.mapBlockIndex]
      exact hmax
    · rw [hend.settled, hend.tip]
    · rw [hend.kept.mapBlockIndex, h.mapBlockIndex] at ha
      rcases mem_append.mp ha with ha | ha
      · exact (hs.stored a ha).imp_left fun hst => (h.old a ha hst).of_kept hend.kept
      · cases mem_singleton.mp ha
        exact h.new.imp (·.of_kept hend.kept) (·.1)
    · rw [hend.kept.mapBlockIndex, hend.kept.nChainTx]
      exact h.counted
  rw [h.tip, h.mapBlockIndex, h.candidates]
  by_cases hlt : env.less n s.chainActive = true
  · refine ⟨s.chainActive, ⟨by simp [hs.ok.tip], fun a ha hat => ?_⟩, by simp [hlt],
      fun a ha hoff => absurd ha hoff, .inl ⟨rfl, by simp [hlt]⟩⟩
    rcases mem_append.mp ha with ha | ha
    · exact hs.best.2 a ha hat
    · exact mem_singleton.mp ha ▸ hlt
  · have hgt : env.less s.chainActive n = true := (hord.total _ htipt n hnt hne).resolve_right hlt
    refine ⟨n, ⟨by simp, fun a ha han => ?_⟩, by simp [hlt, hgt, OrdSet.insert], fun a ha hoff => ?_,
      .inr fun hmem => hnew (hs.ok.closed _ hs.ok.tip n hmem)⟩
    · have ham : a ∈ s.mapBlockIndex := by simpa [han] using ha
      by_cases hat : a = s.chainActive
      · exact hat ▸ hgt
      · exact hord.trans a (hs.ok.inTree a ham) _ htipt n hnt (hs.best.2 a ham hat) hgt
    · by_cases han : a = n
      · exact han ▸ h.new.resolve_right fun hleaf => hlt hleaf.2
      · -- an older block below the new one is no leaf
        have ham : a ∈ s.mapBlockIndex := by
          have := h.ok.closed n (by simp [h.mapBlockIndex]) a ha
          simpa [h.mapBlockIndex, han] using this
        exact h.old a ham ((hs.stored a ham).resolve_right fun hleaf => han (hleaf n hnt ha).symm)

theorem receivedBlockTransactions_linked (hunlinked : s.mapBlocksUnlinked = [])
    (hparent : n.pprev = some p) (hne : p ≠ n) (hchain : s.nChainTx p ≠ 0) (nTx : BitVec 32) :
    s.receivedBlockTransactions env nTx n = ChainState.link env n { s with
      nTx := update s.nTx n nTx
      nChainTx := update s.nChainTx n 0
      nStatus := update s.nStatus n
        (raiseValidity BLOCK_VALID_TRANSACTIONS (s.nStatus n ||| BLOCK_HAVE_DATA)) } := by
  simp only [ChainState.receivedBlockTransactions, hparent, update_of_ne hne, if_pos hchain]
  simp [ChainState.linkQueue, ChainState.takeUnlinked, ChainState.link, hunlinked]

theorem storeNewBlock_joins {o : BlockOracle} (ho : o.Smooth)
    (hs : s.toHeaderState.WellFormed env.toHeaderEnv) {block : CBlock}
    (hjoins : Joins env.toHeaderEnv s.toHeaderState block.header p) (hn : n = .child p block.header)
    (hs₁ : s₁ = s.withHeaders (s.addEntry n)) (force : Bool) :
    storeNewBlock env o block force s =
      (true, if !force && ignoresUnrequested n s₁ then s₁
        else s₁.receivedBlockTransactions env (.ofNat 32 block.vtx.length) n) := by
  subst hn hs₁
  have hdata : haveBit ((s.withHeaders (s.addEntry (.child p block.header))).nStatus
      (.child p block.header)) BLOCK_HAVE_DATA = false := by
    rw [show (s.withHeaders (s.addEntry (.child p block.header))).nStatus (.child p block.header) =
      raiseValidity BLOCK_VALID_TREE 0#32 from update_self ..]
    decide
  simp only [storeNewBlock, ho.checks, acceptBlock, acceptBlockHeader_joins hs hjoins, hdata,
    ho.checksContext, ho.stores, Bool.not_true, Bool.false_eq_true, if_false]
  split <;> rfl

/-- The new block `n` is in the index, and its data is not there yet. -/
structure HeaderOnly (env : ChainEnv) (t : Tree CBlockHeader) (s : ChainState) (n : BlockPtr)
    (s₁ : ChainState) : Prop where
  ok : s₁.Ok env t
  mapBlockIndex : s₁.mapBlockIndex = s.mapBlockIndex ++ [n]
  tip : s₁.chainActive = s.chainActive
  candidates : s₁.setBlockIndexCandidates = [s.chainActive]
  linked : s₁.mapBlocksUnlinked = []
  old : ∀ a ∈ s.mapBlockIndex, s₁.nStatus a = s.nStatus a ∧ s₁.nChainTx a = s.nChainTx a
  nStatus : s₁.nStatus n = raiseValidity BLOCK_VALID_TREE 0#32
  nTx : s₁.nTx n = 0
  nChainTx : s₁.nChainTx n = 0

theorem Synced.headerOnly (hs : Synced env t txs s)
    (hjoins : Joins env.toHeaderEnv s.toHeaderState block p) (hnt : .child p block ∈ t.nodes) :
    .child p block ∉ s.mapBlockIndex ∧
      HeaderOnly env t s (.child p block) (s.withHeaders (s.addEntry (.child p block))) := by
  have hnotMem : .child p block ∉ s.mapBlockIndex := by
    intro hmem
    cases (s.toHeaderState.find_of_mem hs.ok.headers hmem).symm.trans hjoins.unknown
  exact ⟨hnotMem, withHeaders_ok hs.ok hjoins hnt, rfl, rfl, hs.settled, hs.linked,
    fun a ha => ⟨nStatus_addEntry_of_mem hs.ok.headers hjoins.unknown ha, if_pos ha⟩,
    update_self .., if_neg hnotMem, if_neg hnotMem⟩

theorem HeaderOnly.ignored (h : HeaderOnly env t s n s₁)
    (hcounted : ∀ a ∈ s.mapBlockIndex, (s.nChainTx a).toNat ≤ txs)
    (hleaf : env.less n s.chainActive = true ∧ Leaf t n) : Arrived env t s n txs s₁ where
  ok := h.ok
  mapBlockIndex := h.mapBlockIndex
  tip := h.tip
  linked := h.linked
  old a ha hst := ⟨by simpa [ChainState.usable, (h.old a ha).1] using hst.1, (h.old a ha).2 ▸ hst.2⟩
  new := .inr hleaf.symm
  counted a ha := by
    rcases mem_append.mp (h.mapBlockIndex ▸ ha) with ha | ha
    · exact (h.old a ha).2 ▸ hcounted a ha
    · simp [mem_singleton.mp ha, h.nChainTx]
  candidates := by simp [h.candidates, hleaf.1]

theorem HeaderOnly.received (hord : env.Orders t) (h : HeaderOnly env t s n s₁)
    (hnew : n ∉ s.mapBlockIndex) (hparent : n.pprev = some p) (hp : p ∈ s.mapBlockIndex)
    (hcounted : ∀ a ∈ s.mapBlockIndex, (s.nChainTx a).toNat ≤ txs) (hstored : Stored s p)
    {nTx : Nat} (hcount : txs + nTx < 2 ^ 32) :
    Arrived env t s n (txs + nTx) (s₁.receivedBlockTransactions env (.ofNat 32 nTx) n) := by
  have hne : ∀ a ∈ s.mapBlockIndex, a ≠ n := fun a ha heq => hnew (heq ▸ ha)
  have hchain : s₁.nChainTx p ≠ 0 := (h.old p hp).2 ▸ hstored.2
  have hok := receivedBlockTransactions_ok hord h.ok (p := n) (by simp [h.mapBlockIndex])
    (.ofNat 32 nTx)
  -- the count of the new block does not wrap
  have hnChainTx : (s₁.nChainTx p + .ofNat 32 nTx).toNat = (s.nChainTx p).toNat + nTx := by
    have hle := hcounted p hp
    rw [(h.old p hp).2, BitVec.toNat_add, BitVec.toNat_ofNat]
    omega
  rw [receivedBlockTransactions_linked h.linked hparent (hne p hp) hchain] at hok ⊢
  refine ⟨hok, h.mapBlockIndex, h.tip, h.linked, fun a ha hst => ?_, .inl ⟨?_, ?_⟩,
    fun a ha => ?_, ?_⟩
  · have han := hne a ha
    refine ⟨?_, ?_⟩
    · simpa [ChainState.usable, ChainState.link, han, (h.old a ha).1] using hst.1
    · simpa [ChainState.link, han, (h.old a ha).2] using hst.2
  · simp only [ChainState.usable, ChainState.link, update_self, h.nStatus]
    decide
  · have hpos : (s.nChainTx p).toNat ≠ 0 := fun hzero => hstored.2 (BitVec.eq_of_toNat_eq hzero)
    intro hzero
    simp only [ChainState.link, hparent, elim_some, update_self,
      update_of_ne (hne p hp)] at hzero
    rw [hzero] at hnChainTx
    exact hpos (Nat.eq_zero_of_add_eq_zero_right hnChainTx.symm)
  · rcases mem_append.mp (h.mapBlockIndex ▸ ha) with ha | ha
    · have hold := hcounted a ha
      simp only [ChainState.link, update_of_ne (hne a ha), (h.old a ha).2]
      omega
    · have hle := hcounted p hp
      rw [mem_singleton.mp ha]
      simp only [ChainState.link, hparent, elim_some, update_self,
        update_of_ne (hne p hp), hnChainTx]
      omega
  · simp only [ChainState.link, h.tip, h.candidates]

theorem Synced.parent_stored (hs : Synced env t txs s) (hp : p ∈ s.mapBlockIndex)
    (hn : .child p x ∈ t.nodes) :
    Stored s p :=
  (hs.stored p hp).resolve_right fun hleaf =>
    child_ne_of_mem_path (mem_path_self p) (hleaf _ hn (mem_path_parent p x))

theorem Synced.store {o : BlockOracle} (hord : env.Orders t) (ho : o.Smooth)
    (hs : Synced env t txs s) {block : CBlock} {force : Bool}
    (hjoins : Joins env.toHeaderEnv s.toHeaderState block.header p) (hn : n = .child p block.header)
    (hnt : n ∈ t.nodes)
    (hadmitted : force = true ∨ (nChainWork s.chainActive < nChainWork n ∧
      n.height ≤ s.chainActive.height + MIN_BLOCKS_TO_KEEP) ∨
      (env.less n s.chainActive = true ∧ Leaf t n))
    (hcount : txs + block.vtx.length < 2 ^ 32) :
    ∃ s₂, storeNewBlock env o block force s = (true, s₂) ∧
      Arrived env t s n (txs + block.vtx.length) s₂ := by
  subst hn
  obtain ⟨hnew, hheader⟩ := hs.headerOnly hjoins hnt
  rw [storeNewBlock_joins ho hs.ok.headers hjoins rfl rfl]
  refine ⟨_, rfl, ?_⟩
  split
  · -- nobody asked for it and it has no more work: then it is a leaf that loses
    rename_i hignored
    refine hheader.ignored (fun a ha => (hs.counted a ha).trans (Nat.le_add_right ..)) ?_
    rcases hadmitted with hforce | ⟨hwork, hheight⟩ | hleaf
    · simp [hforce] at hignored
    · simp [ignoresUnrequested, hheader.nTx, hheader.tip, hwork, Nat.not_lt.mpr hheight] at hignored
    · exact hleaf
  · have hp : p ∈ s.mapBlockIndex := Table.find_mem hjoins.prev
    exact hheader.received hord hnew rfl hp hs.counted (hs.parent_stored hp hnt) hcount

section
variable {genesis : CBlockHeader} {blocks : List BlockPtr}

section
variable (hvalid : ValidTree env.toHeaderEnv genesis blocks)
include hvalid

theorem Synced.loaded : Synced env hvalid.tree 1 (.loaded genesis) where
  ok := loaded_ok hvalid.genesis_mem (hvalid.valid _ hvalid.genesis_mem)
  best := ⟨mem_singleton_self _, fun a ha hne => absurd (mem_singleton.mp ha) hne⟩
  settled := rfl
  linked := rfl
  stored _ _ := by
    refine .inl ⟨?_, by simp [ChainState.loaded]⟩
    simp only [ChainState.usable, ChainState.loaded]
    decide
  counted _ _ := by simp [ChainState.loaded]

theorem ValidTree.joins (hs : Synced env hvalid.tree txs s) (hn : .child p block ∈ blocks)
    (hnew : .child p block ∉ s.mapBlockIndex) (hp : p ∈ s.mapBlockIndex) :
    Joins env.toHeaderEnv s.toHeaderState block p := by
  obtain ⟨-, hprev, hpow, hcontext⟩ := hvalid.valid _ hn
  have hblocks : ∀ a ∈ s.mapBlockIndex, a ∈ blocks := hs.ok.inTree
  have hcheckpoint : ∀ c, getLastCheckpoint env.params (s.find env.toHeaderEnv) = some c →
      c ∈ s.mapBlockIndex := by
    intro c hc
    obtain ⟨cp, -, hfind⟩ := exists_of_findSome?_eq_some hc
    exact Table.find_mem hfind
  refine ⟨?_, hpow, hprev ▸ s.toHeaderState.find_of_mem hs.ok.headers hp, ?_, hcontext _ ?_ ?_⟩
  · rw [← not_isSome_iff_eq_none, HeaderState.find, Table.find_isSome_iff]
    rintro ⟨a, ha, hhash⟩
    have heq : a = .child p block := inj_on_of_nodup_map hvalid.nodup (hblocks a ha) hn hhash
    exact hnew (heq ▸ ha)
  · simpa [ChainState.usable] using (Bool.and_eq_true_iff.mp (hs.parent_stored hp hn).1).1
  · cases hc : getLastCheckpoint env.params (s.find env.toHeaderEnv) with
    | none => simp
    | some c => simp [hblocks c (hcheckpoint c hc)]
  · exact fun c hc hpath => hnew (hs.ok.closed c (hcheckpoint c hc) _ hpath)

theorem Synced.processBlocks (hcomparable : Comparable env blocks)
    (hfuel : ∀ n ∈ blocks, n.height < fuel) {order : List Delivery}
    (hs : Synced env hvalid.tree txs s) (hroot : .root genesis ∈ s.mapBlockIndex)
    (hperm : (s.mapBlockIndex ++ order.map Delivery.node).Perm blocks)
    (hfirst : (order.map Delivery.node).Pairwise fun a b => b ∉ a.path)
    (hsmooth : ∀ d ∈ order, d.oracle.Smooth)
    (hcounted : txs + (order.map (·.block.vtx.length)).sum < 2 ^ 32)
    (hadmitted : AllAdmitted env blocks fuel order s) :
    ∃ s', processBlocks env fuel order s = some s' ∧
      OrdSet.IsMax env.less blocks s'.chainActive := by
  induction order generalizing s txs with
  | nil =>
    refine ⟨s, rfl, ?_⟩
    have hmem : ∀ a, a ∈ s.mapBlockIndex ↔ a ∈ blocks :=
      fun a => by simpa using hperm.mem_iff (a := a)
    exact ⟨(hmem _).mp hs.best.1, fun a ha => hs.best.2 a ((hmem a).mpr ha)⟩
  | cons d rest ih =>
    obtain ⟨hd, hrest⟩ := forall_mem_cons.mp hsmooth
    rw [map_cons, pairwise_cons] at hfirst
    rw [map_cons, sum_cons, ← Nat.add_assoc] at hcounted
    have hdb : d.node ∈ blocks := hperm.subset (by simp)
    have hnodup : (s.mapBlockIndex ++ (d :: rest).map Delivery.node).Nodup :=
      hperm.nodup_iff.mpr hvalid.nodup.of_map
    have hnew : d.node ∉ s.mapBlockIndex := fun hmem =>
      (nodup_append.mp hnodup).2.2 _ hmem _ (by simp) rfl
    obtain ⟨p, x, hnode⟩ : ∃ p x, d.node = .child p x := by
      cases hnode : d.node with
      | root x =>
        rw [hnode] at hdb hnew
        exact absurd (hvalid.one_root _ hdb rfl ▸ hroot) hnew
      | child p x => exact ⟨p, x, rfl⟩
    have hp : p ∈ s.mapBlockIndex := by
      have hpb : p ∈ blocks := (hvalid.valid (.child p x) (hnode ▸ hdb)).1
      rcases mem_append.mp (hperm.mem_iff.mpr hpb) with hp | hp
      · exact hp
      · -- the parent is not the block itself, and does not come later
        have hpath : p ∈ d.node.path := hnode ▸ mem_path_parent p _
        rcases mem_cons.mp hp with hp | hp
        · exact absurd (hp.trans hnode).symm (child_ne_of_mem_path (mem_path_self p))
        · exact absurd hpath (hfirst.1 p hp)
    have hheader : d.node = .child p d.block.header := by rw [d.header, hnode]; rfl
    have hjoins : Joins env.toHeaderEnv s.toHeaderState d.block.header p :=
      hvalid.joins hs (hheader ▸ hdb) (hheader ▸ hnew) hp
    have hord : StrictTotalOn env.less hvalid.tree.nodes := hcomparable.strictTotalOn
    obtain ⟨s₂, hstore, harrived⟩ := hs.store hord hd hjoins hheader hdb hadmitted.1
      (Nat.lt_of_le_of_lt (Nat.le_add_right ..) hcounted)
    obtain ⟨r, s', hrun, hs', hmap⟩ := hs.arrive hord hd.toSmooth hnew harrived hfuel
    have hprocess : processNewBlock env d.oracle fuel d.block d.fForceProcessing
      s = some (r, s') := by
      simp only [processNewBlock, hstore, hrun, Bool.not_true, Bool.false_eq_true, if_false]
    obtain ⟨s'', hlater, hmax⟩ := ih hs' (by simp [hmap, hroot])
      (by simpa [hmap] using hperm) hfirst.2 hrest hcounted (hadmitted.2 r s' hprocess)
    refine ⟨s'', ?_, hmax⟩
    rw [OurChain.processBlocks, hprocess]
    exact hlater

end

theorem allAdmitted_of_requested {order : List Delivery} (h : ∀ d ∈ order, d.fForceProcessing = true)
    (s : ChainState) : AllAdmitted env blocks fuel order s := by
  induction order generalizing s with
  | nil => trivial
  | cons d rest ih =>
    obtain ⟨hd, hrest⟩ := forall_mem_cons.mp h
    exact ⟨.inl hd, fun _ s' _ => ih hrest s'⟩

end

-- Siblings on the regression-test chain.
theorem smoothOracle_smooth : smoothOracle.Smooth where
  connects _ := rfl
  disconnects _ := rfl
  runs _ := rfl
  checks _ := rfl
  checksContext _ := rfl
  stores := rfl

def send (fForceProcessing : Bool) (node : BlockPtr) : Delivery where
  node
  block := { header := node.value, vtx := [coinbase] }
  fForceProcessing
  oracle := smoothOracle
  header := rfl

theorem send_delivers {siblings : List BlockPtr} (order : List (Bool × BlockPtr))
    (hperm : (order.map Prod.snd).Perm siblings)
    (hfirst : (order.map Prod.snd).Pairwise fun a b => b ∉ a.path)
    (hcount : 1 + order.length < 2 ^ 32) :
    DeliversTree regTestGenesis (.root regTestGenesis :: siblings)
    (order.map fun d => send d.1 d.2) := by
  have hnodes : (order.map fun d => send d.1 d.2).map Delivery.node = order.map Prod.snd := by
    rw [List.map_map]
    rfl
  refine ⟨hnodes ▸ hperm.cons _, hnodes ▸ hfirst, fun d hd => ?_, ?_⟩
  · obtain ⟨_, -, rfl⟩ := List.mem_map.mp hd
    exact smoothOracle_smooth
  · simpa [comp_def, send] using hcount

/-- What the comparator reads of an entry before it compares addresses. -/
def chainKey (n : BlockPtr) : Uint256 × BitVec 32 × BitVec 32 × Uint256 :=
  (nChainWork n, n.value.nTime, n.value.nPrecisionTime, n.value.hashGPoW)

theorem siblings_comparable (addr : BlockPtr → Nat) {blocks : List BlockPtr}
    (haddr : ∀ a ∈ blocks, ∀ b ∈ blocks, addr a = addr b → a = b)
    (htime : ∀ n ∈ blocks, n.value.nPrecisionTime = 0)
    (hgpow : ∀ a ∈ blocks, ∀ b ∈ blocks, a ≠ b → a.value.hashGPoW ≠ b.value.hashGPoW) :
    Comparable (addressedEnv addr) blocks where
  addr_inj := haddr
  tangleFree := by
    rintro _ ⟨a, ha, rfl⟩ _ - _ ⟨c, hc, rfl⟩ ⟨-, -, -, -, hfar, -⟩
    simp [FarLater, ChainEnv.workKey, htime a ha, htime c hc] at hfar
  separated a ha b hb hne _ := .inr (.inr (hgpow a ha b hb hne))

end OurChain
