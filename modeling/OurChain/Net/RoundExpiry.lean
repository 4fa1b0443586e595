import OurChain.Net.ProcessMessage

/-!
# Which headers a message lets in

A message adds to `mapBlockIndex` exactly the entries described by `LetsIn`: for
`headers` the round is checked at the first header of the list, for `cmpctblock` and
`block` it is not checked, and `blocktxn` adds nothing because the header of a partial
block was accepted with its `cmpctblock`.
-/

namespace OurChain

open List Option
open CBlockIndex (haveBit)

/-- One header of the list joins the index when its turn comes in the loop of
`ProcessNewBlockHeaders`, as the entry `n`. -/
inductive Brings (env : HeaderEnv) : HeaderState → List CBlockHeader → BlockPtr → Prop
  | here (hjoins : Joins env s header p) : Brings env s (header :: headers) (.child p header)
  | known (hfind : s.find env (header.getHash env.H) = some pindex)
      (hsound : header.getHash env.H = env.params.hashGenesisBlock ∨
        haveBit (s.nStatus pindex) BLOCK_FAILED_MASK = false)
      (hrest : Brings env s headers n) : Brings env s (header :: headers) n
  | joined (hjoins : Joins env s header p)
      (hrest : Brings env (s.addEntry (.child p header)) headers n) :
      Brings env s (header :: headers) n

/-- The `headers` handler gets to `ProcessNewBlockHeaders` although the round has expired. -/
structure PassesGuards (env : ChainEnv) (s : NetState) (first : CBlockHeader)
    (headers : List CBlockHeader) : Prop where
  size : headers.length < MAX_HEADERS_RESULTS
  round : s.isCurrentRoundBlock first = false
  connects : (s.find env.toHeaderEnv first.hashPrevBlock).isSome ∨
    MAX_BLOCKS_TO_ANNOUNCE ≤ headers.length + 1
  sequence : continuous env.H 0 (first :: headers)

/-- The entries that a message brings in once the round has expired. -/
def LetsIn (env : ChainEnv) (o : MessageOracle) (s : NetState) (n : BlockPtr) : NetMessage → Prop
  | .headers [] => False
  | .headers (first :: headers) => PassesGuards env s first headers ∧
      Brings env.toHeaderEnv s.toHeaderState (first :: headers) n
  | .cmpctblock header => ∃ p, Joins env.toHeaderEnv s.toHeaderState header p ∧ n = .child p header
  | .blocktxn _ => False
  | .block block => o.checkBlock block = .ok ∧
      ∃ p, Joins env.toHeaderEnv s.toHeaderState block.header p ∧ n = .child p block.header

def QueuedBlock.Known (env : HeaderEnv) (s : HeaderState) (queued : QueuedBlock) : Prop :=
  ∀ header, queued.partialBlock = some (some header) → (s.find env (header.getHash env.H)).isSome

structure NetState.Ok (env : ChainEnv) (s : NetState) : Prop where
  headers : s.toHeaderState.WellFormed env.toHeaderEnv
  flight : ∀ queued ∈ s.mapBlocksInFlight, queued.Known env.toHeaderEnv s.toHeaderState

section
variable {env : HeaderEnv} {s : HeaderState}

theorem find_isSome_of_subset {s' : HeaderState} (hsub : s.mapBlockIndex ⊆ s'.mapBlockIndex)
    {hash : Uint256} (h : (s.find env hash).isSome) : (s'.find env hash).isSome := by
  obtain ⟨n, hn, hhash⟩ := Table.find_isSome_iff.mp h
  exact Table.find_isSome_iff.mpr ⟨n, hsub hn, hhash⟩

theorem Joins.unique (h : Joins env s header p) (h' : Joins env s header p') : p = p' :=
  some.inj (h.prev.symm.trans h'.prev)

theorem accepted_of_known (hfind : s.find env (header.getHash env.H) = some pindex)
    (hsound : header.getHash env.H = env.params.hashGenesisBlock ∨
      haveBit (s.nStatus pindex) BLOCK_FAILED_MASK = false) :
    acceptBlockHeader env header s = (.ok pindex, s) := by
  by_cases hgenesis : header.getHash env.H = env.params.hashGenesisBlock
  · simp [acceptBlockHeader, hgenesis, addToBlockIndex, hgenesis ▸ hfind]
  · simp [acceptBlockHeader, hgenesis, hfind, hsound.resolve_left hgenesis]

section
variable (hs : s.WellFormed env)
include hs

theorem acceptBlockHeader_known (hknown : (s.find env (header.getHash env.H)).isSome) :
    (acceptBlockHeader env header s).2 = s := by
  rcases acceptBlockHeader_cases hs header with ⟨p, hjoins⟩ | ⟨hsame, -⟩
  · rw [hjoins.unknown] at hknown
    cases hknown
  · exact hsame

theorem known_of_accepted (hno : ∀ p, ¬Joins env s header p)
    (h : (acceptBlockHeader env header s).1 = .ok pindex) :
    s.find env (header.getHash env.H) = some pindex ∧
      (header.getHash env.H = env.params.hashGenesisBlock ∨
        haveBit (s.nStatus pindex) BLOCK_FAILED_MASK = false) := by
  by_cases hgenesis : header.getHash env.H = env.params.hashGenesisBlock
  · obtain ⟨g, hg⟩ := isSome_iff_exists.mp hs.genesis
    rw [← hgenesis] at hg
    simp only [acceptBlockHeader, hgenesis, ne_eq, not_true_eq_false, if_false, addToBlockIndex] at h
    rw [← hgenesis, hg] at h
    cases h
    exact ⟨hg, .inl hgenesis⟩
  · cases hfind : s.find env (header.getHash env.H) with
    | some known =>
      simp only [acceptBlockHeader, ne_eq, hgenesis, not_false_eq_true, if_true, hfind] at h
      split at h
      · cases h
      · rename_i hsound
        cases h
        exact ⟨rfl, .inr (by simpa using hsound)⟩
    | none =>
      -- an unknown header that is accepted has passed every check
      exfalso
      simp only [acceptBlockHeader, ne_eq, hgenesis, not_false_eq_true, if_true, hfind] at h
      split at h
      · cases h
      · split at h
        · cases h
        · split at h
          · cases h
          · split at h
            · cases h
            · rename_i hpow _ p hprev hsound _ hcontext
              exact hno p ⟨hfind, hpow, hprev, by simpa using hsound, hcontext⟩

theorem find_of_accepted (h : acceptBlockHeader env header s = (.ok pindex, s')) :
    s'.find env (header.getHash env.H) = some pindex := by
  by_cases hjoins : ∃ p, Joins env s header p
  · obtain ⟨p, hjoins⟩ := hjoins
    rw [acceptBlockHeader_joins hs hjoins] at h
    cases h
    exact (find_addEntry (.child p header) hjoins.unknown _).trans (if_pos rfl)
  · have hsame := ((acceptBlockHeader_cases hs header).resolve_left hjoins).1
    rw [h] at hsame
    cases hsame
    exact (known_of_accepted hs (fun p hp => hjoins ⟨p, hp⟩) (congrArg Prod.fst h)).1

theorem Joins.new (h : Joins env s header p) : .child p header ∉ s.mapBlockIndex := by
  intro hn
  have hfind := s.find_of_mem hs hn
  rw [show env.hashOf (.child p header) = header.getHash env.H from rfl, h.unknown] at hfind
  cases hfind

theorem Brings.new (h : Brings env s headers n) : n ∉ s.mapBlockIndex := by
  induction h with
  | here hjoins => exact hjoins.new hs
  | known _ _ _ ih => exact ih hs
  | joined hjoins _ ih => exact fun hn => ih (hs.addEntry hjoins.unknown) (mem_append_left _ hn)

theorem processNewBlockHeaders_spec (headers : List CBlockHeader)
    (last : Option BlockPtr) :
    (processNewBlockHeaders env headers last s).2.WellFormed env ∧
      ∀ n, n ∈ (processNewBlockHeaders env headers last s).2.mapBlockIndex ↔
        n ∈ s.mapBlockIndex ∨ Brings env s headers n := by
  induction headers generalizing last s with
  | nil =>
    refine ⟨hs, fun n => ⟨.inl, ?_⟩⟩
    rintro (hn | ⟨⟨⟩⟩)
    exact hn
  | cons header headers ih =>
    by_cases hjoins : ∃ p, Joins env s header p
    · obtain ⟨p, hjoins⟩ := hjoins
      have hadd := acceptBlockHeader_joins hs hjoins
      obtain ⟨hok, hmem⟩ := ih (hs.addEntry (n := .child p header) hjoins.unknown)
        (some (.child p header))
      simp only [processNewBlockHeaders, hadd]
      refine ⟨hok, fun n => (hmem n).trans ?_⟩
      simp only [HeaderState.addEntry, mem_append, mem_singleton]
      constructor
      · rintro ((hn | rfl) | hn)
        · exact .inl hn
        · exact .inr (.here hjoins)
        · exact .inr (.joined hjoins hn)
      · rintro (hn | hn)
        · exact .inl (.inl hn)
        · cases hn with
          | here hjoins' => exact .inl (.inr (by rw [hjoins.unique hjoins']))
          | known hfind =>
            rw [hjoins.unknown] at hfind
            cases hfind
          | joined hjoins' hrest =>
            cases hjoins.unique hjoins'
            exact .inr hrest
    · have hno : ∀ p, ¬Joins env s header p := fun p hp => hjoins ⟨p, hp⟩
      have hsame := ((acceptBlockHeader_cases hs header).resolve_left hjoins).1
      cases hresult : (acceptBlockHeader env header s).1 with
      | error reject =>
        have hstop : acceptBlockHeader env header s = (.error reject, s) := Prod.ext hresult hsame
        simp only [processNewBlockHeaders, hstop]
        refine ⟨hs, fun n => ⟨.inl, ?_⟩⟩
        rintro (hn | hn)
        · exact hn
        · cases hn with
          | here hjoins' => exact absurd hjoins' (hno _)
          | known hfind hsound =>
            rw [accepted_of_known hfind hsound] at hresult
            cases hresult
          | joined hjoins' => exact absurd hjoins' (hno _)
      | ok pindex =>
        have hnext : acceptBlockHeader env header s = (.ok pindex, s) := Prod.ext hresult hsame
        obtain ⟨hfind, hsound⟩ := known_of_accepted hs hno hresult
        obtain ⟨hok, hmem⟩ := ih hs (some pindex)
        simp only [processNewBlockHeaders, hnext]
        refine ⟨hok, fun n => (hmem n).trans (or_congr_right ⟨.known hfind hsound, ?_⟩)⟩
        intro hn
        cases hn with
        | here hjoins' => exact absurd hjoins' (hno _)
        | known _ _ hrest => exact hrest
        | joined hjoins' => exact absurd hjoins' (hno _)

end

end

variable {env : ChainEnv} {o : MessageOracle} {peer : Peer} {s s' : NetState}

/-- The handler may change what is in flight, not what is in the index. -/
structure LeavesIndex (env : ChainEnv) (s s' : NetState) : Prop where
  ok : s'.Ok env
  index : s'.mapBlockIndex = s.mapBlockIndex

theorem LeavesIndex.refl (hs : s.Ok env) : LeavesIndex env s s := ⟨hs, rfl⟩

theorem LeavesIndex.trans (h : LeavesIndex env s s') (h' : LeavesIndex env s' s'') :
    LeavesIndex env s s'' := ⟨h'.ok, h'.index.trans h.index⟩

theorem QueuedBlock.Known.mono {h h' : HeaderState} (hq : QueuedBlock.Known env.toHeaderEnv h queued)
    (hsub : h.mapBlockIndex ⊆ h'.mapBlockIndex) : queued.Known env.toHeaderEnv h' :=
  fun header hheader => find_isSome_of_subset hsub (hq header hheader)

theorem storeNewBlock_index (s : ChainState) (block : CBlock) (force : Bool) :
    (storeNewBlock env o.toBlockOracle block force s).2.mapBlockIndex =
      if o.checkBlock block = .ok then
        (acceptBlockHeader env.toHeaderEnv block.header s.toHeaderState).2.mapBlockIndex
      else s.mapBlockIndex := by
  unfold storeNewBlock
  split
  · rename_i hcheck
    rw [if_neg (by simp [hcheck])]
  · rename_i hcheck
    rw [if_pos hcheck]
    obtain ⟨result, h, hheader, ⟨_, hstate⟩ | ⟨_, -, hstate⟩⟩ :=
      acceptBlock_cases env o.toBlockOracle block force s
    · rw [hstate, hheader]
      rfl
    · rw [hstate, hheader, ChainState.receivedBlockTransactions_map]
      rfl

def headersDropped (env : ChainEnv) (s : NetState) (first : CBlockHeader)
    (headers : List CBlockHeader) :
    Bool :=
  decide (MAX_HEADERS_RESULTS < headers.length + 1) ||
    s.isCurrentRoundBlock first && !s.fAllowedMining ||
    (s.find env.toHeaderEnv first.hashPrevBlock).isNone &&
      decide (headers.length + 1 < MAX_BLOCKS_TO_ANNOUNCE) ||
    !continuous env.H 0 (first :: headers)

theorem headersDropped_iff (hexpired : s.fAllowedMining = false) (first : CBlockHeader)
    (headers : List CBlockHeader) :
    headersDropped env s first headers = false ↔ PassesGuards env s first headers := by
  simp only [headersDropped, hexpired, Bool.or_eq_false_iff, Bool.and_eq_false_iff,
    decide_eq_false_iff_not, Bool.not_false, Bool.true_eq_false, or_false, Bool.not_eq_false', not_lt,
    Nat.succ_le_iff, isNone_eq_false_iff]
  exact ⟨fun ⟨⟨⟨a, b⟩, c⟩, d⟩ => ⟨a, b, c, d⟩, fun h => ⟨⟨⟨h.size, h.round⟩, h.connects⟩, h.sequence⟩⟩

theorem processHeaders_eq (first : CBlockHeader) (headers : List CBlockHeader) :
    processHeaders env o peer (first :: headers) s =
      if headersDropped env s first headers then s
      else storeHeaders env o peer (first :: headers) s := by
  simp only [processHeaders, headersDropped, length_cons, Bool.or_eq_true, decide_eq_true_eq, ite_or]

theorem brings_singleton : Brings env.toHeaderEnv h [header] n ↔
    ∃ p, Joins env.toHeaderEnv h header p ∧ n = .child p header := by
  constructor
  · rintro (⟨hjoins⟩ | ⟨_, _, ⟨⟩⟩ | ⟨_, ⟨⟩⟩)
    exact ⟨_, hjoins, rfl⟩
  · rintro ⟨p, hjoins, rfl⟩
    exact .here hjoins

variable (o peer) in
theorem processBlockTxn_setPartialBlock (hash : Uint256) (header : CBlockHeader) :
    (processBlockTxn env o peer hash (s.setPartialBlock hash (some header))).isSome := by
  have hfind : (s.setPartialBlock hash (some header)).inFlight hash =
      (s.inFlight hash).map fun queued => { queued with partialBlock := some (some header) } := by
    refine (Table.find_modify ?_ hash hash).trans (if_pos rfl)
    exact fun _ => rfl
  unfold processBlockTxn
  rw [hfind]
  cases s.inFlight hash with
  | none => rfl
  | some queued =>
    dsimp only [map_some]
    split
    · rfl
    · split <;> rfl

section
variable (hs : s.Ok env)
include hs

theorem leavesIndex_of_flight (hmap : s'.mapBlockIndex = s.mapBlockIndex)
    (hflight : ∀ queued ∈ s'.mapBlocksInFlight, queued ∈ s.mapBlocksInFlight ∨
      queued.Known env.toHeaderEnv s.toHeaderState) : LeavesIndex env s s' := by
  refine ⟨⟨hs.headers.of_map_eq hmap, fun queued hqueued => ?_⟩, hmap⟩
  have hknown : queued.Known env.toHeaderEnv s.toHeaderState :=
    (hflight queued hqueued).elim (hs.flight queued) id
  exact hknown.mono (hmap ▸ Subset.refl _)

theorem markBlockAsReceived_leaves (hash : Uint256) :
    LeavesIndex env s (s.markBlockAsReceived hash).2 :=
  leavesIndex_of_flight hs rfl fun _ hqueued => .inl (mem_of_mem_filter hqueued)

theorem markBlockAsInFlight_leaves (nodeid : Nat) (hash : Uint256) (pit : Bool) :
    LeavesIndex env s (s.markBlockAsInFlight nodeid hash pit).2 := by
  unfold NetState.markBlockAsInFlight
  split
  · exact .refl hs
  · refine leavesIndex_of_flight hs rfl fun queued hqueued => ?_
    rcases mem_append.mp hqueued with hqueued | hqueued
    · exact .inl (mem_of_mem_filter hqueued)
    · refine .inr fun header hheader => ?_
      cases mem_singleton.mp hqueued
      cases pit <;> cases hheader

theorem setPartialBlock_leaves (hash : Uint256) {partialBlock : Option CBlockHeader}
    (hknown : ∀ header ∈ partialBlock, (s.find env.toHeaderEnv (header.getHash env.H)).isSome) :
    LeavesIndex env s (s.setPartialBlock hash partialBlock) := by
  refine leavesIndex_of_flight hs rfl fun queued hqueued => ?_
  obtain ⟨old, hold, rfl⟩ := List.mem_map.mp hqueued
  split
  · refine .inr fun header hheader => hknown header ?_
    exact some.inj hheader
  · exact .inl hold

theorem processNewBlock_leaves {block : CBlock}
    (hknown : (s.find env.toHeaderEnv (block.header.getHash env.H)).isSome) (force : Bool) :
    LeavesIndex env s (s.processNewBlock env o block force) := by
  refine leavesIndex_of_flight hs ?_ fun _ => .inl
  rw [NetState.processNewBlock]
  refine (storeNewBlock_index ..).trans ?_
  rw [acceptBlockHeader_known hs.headers hknown, ite_self]

theorem processBlockTxn_leaves
    (h : processBlockTxn env o peer blockhash s = some s') : LeavesIndex env s s' := by
  unfold processBlockTxn at h
  split at h
  · rename_i hash nodeid partialBlock hfind
    split at h
    · cases h
      exact .refl hs
    · split at h
      · cases h
      · rename_i header
        have hknown := hs.flight _ (Table.find_mem hfind) header rfl
        have hreceived := markBlockAsReceived_leaves hs blockhash
        split at h
        · cases h
          exact hreceived
        · cases h
          exact setPartialBlock_leaves hs _ (by simp)
        · cases h
          refine hreceived.trans (processNewBlock_leaves hreceived.ok ?_ true)
          exact find_isSome_of_subset (hreceived.index ▸ Subset.refl _) hknown
  · cases h
    exact .refl hs

variable (o peer) in
theorem directFetch_leaves (pindexLast : BlockPtr) :
    LeavesIndex env s (directFetch env o peer pindexLast s) := by
  unfold directFetch
  split
  · rename_i hfetch
    clear hfetch
    generalize (vToFetch env o peer s pindexLast.path []).getD [] = fetch
    induction fetch generalizing s with
    | nil => exact .refl hs
    | cons pindex fetch ih =>
      rw [foldl_cons]
      split
      · exact ih hs
      · have hmark := markBlockAsInFlight_leaves hs peer.id (env.hashOf pindex) false
        exact hmark.trans (ih hmark.ok)
  · exact .refl hs

theorem setHeaders_ok {h : HeaderState} (hwf : h.WellFormed env.toHeaderEnv)
    (hsub : s.mapBlockIndex ⊆ h.mapBlockIndex) : (s.setHeaders h).Ok env :=
  ⟨hwf, fun queued hqueued => (hs.flight queued hqueued).mono hsub⟩

theorem setHeaders_spec (headers : List CBlockHeader) (last : Option BlockPtr) :
    let h := (processNewBlockHeaders env.toHeaderEnv headers last s.toHeaderState).2
    (s.setHeaders h).Ok env ∧ ∀ n, n ∈ (s.setHeaders h).mapBlockIndex ↔
      n ∈ s.mapBlockIndex ∨ Brings env.toHeaderEnv s.toHeaderState headers n := by
  obtain ⟨hwf, hmem⟩ := processNewBlockHeaders_spec hs.headers headers last
  exact ⟨setHeaders_ok hs hwf fun n hn => (hmem n).mpr (.inl hn), hmem⟩

theorem processHeaders_spec (first : CBlockHeader) (headers : List CBlockHeader) :
    (processHeaders env o peer (first :: headers) s).Ok env ∧
      ∀ n, n ∈ (processHeaders env o peer (first :: headers) s).mapBlockIndex ↔
        n ∈ s.mapBlockIndex ∨ headersDropped env s first headers = false ∧
          Brings env.toHeaderEnv s.toHeaderState (first :: headers) n := by
  obtain ⟨hok, hmem⟩ := setHeaders_spec hs (first :: headers) none
  rw [processHeaders_eq]
  split
  · rename_i hdropped
    exact ⟨hs, by simp [hdropped]⟩
  · rename_i hdropped
    simp only [hdropped, true_and]
    unfold storeHeaders
    split
    · rename_i pindexLast h hresult
      rw [hresult] at hok hmem
      have hleaves := directFetch_leaves o peer hok pindexLast
      exact ⟨hleaves.ok, fun n => hleaves.index ▸ hmem n⟩
    · rename_i h _ hresult
      rw [hresult] at hok hmem
      exact ⟨hok, hmem⟩

theorem processBlockMessage_spec (block : CBlock) :
    (processBlockMessage env o peer block s).Ok env ∧
      ∀ n, n ∈ (processBlockMessage env o peer block s).mapBlockIndex ↔
        n ∈ s.mapBlockIndex ∨ LetsIn env o s n (.block block) := by
  have hindex : (processBlockMessage env o peer block s).mapBlockIndex =
      if o.checkBlock block = .ok then
        (acceptBlockHeader env.toHeaderEnv block.header s.toHeaderState).2.mapBlockIndex
      else s.mapBlockIndex := storeNewBlock_index ..
  by_cases hletsIn : ∃ n, LetsIn env o s n (.block block)
  · obtain ⟨_, hcheck, p, hjoins, -⟩ := hletsIn
    rw [if_pos hcheck, acceptBlockHeader_joins hs.headers hjoins] at hindex
    have hwf := hs.headers.addEntry (n := .child p block.header) hjoins.unknown
    refine ⟨⟨hwf.of_map_eq hindex, fun queued hqueued => ?_⟩, fun n => ?_⟩
    · refine (hs.flight queued (mem_of_mem_filter hqueued)).mono fun n hn => ?_
      rw [hindex]
      exact mem_append_left _ hn
    · rw [hindex]
      simp only [HeaderState.addEntry, mem_append, mem_singleton]
      refine or_congr_right ⟨fun hn => ⟨hcheck, p, hjoins, hn⟩, ?_⟩
      rintro ⟨-, p', hjoins', rfl⟩
      rw [hjoins.unique hjoins']
  · have hsame : (processBlockMessage env o peer block s).mapBlockIndex = s.mapBlockIndex := by
      rw [hindex]
      split
      · rename_i hcheck
        have hno : ¬∃ p, Joins env.toHeaderEnv s.toHeaderState block.header p := by
          rintro ⟨p, hjoins⟩
          exact hletsIn ⟨_, hcheck, p, hjoins, rfl⟩
        rw [((acceptBlockHeader_cases hs.headers block.header).resolve_left hno).1]
      · rfl
    refine ⟨?_, fun n => ?_⟩
    · exact (leavesIndex_of_flight hs hsame fun queued hqueued =>
        .inl (mem_of_mem_filter hqueued)).ok
    · rw [hsame]
      exact ⟨.inl, fun h => h.resolve_right fun hn => hletsIn ⟨n, hn⟩⟩

theorem processHeaders_known
    (hknown : (s.find env.toHeaderEnv (header.getHash env.H)).isSome) :
    LeavesIndex env s (processHeaders env o peer [header] s) := by
  have hsame : (processNewBlockHeaders env.toHeaderEnv [header] none s.toHeaderState).2 =
      s.toHeaderState := by
    have haccept := acceptBlockHeader_known hs.headers hknown
    simp only [processNewBlockHeaders]
    split
    · rename_i hresult
      exact (congrArg Prod.snd hresult).symm.trans haccept
    · rename_i hresult
      exact (congrArg Prod.snd hresult).symm.trans haccept
  have hset : LeavesIndex env s (s.setHeaders s.toHeaderState) :=
    ⟨setHeaders_ok hs hs.headers (Subset.refl _), rfl⟩
  rw [processHeaders_eq]
  split
  · exact .refl hs
  · unfold storeHeaders
    split
    · rename_i pindexLast h hresult
      cases (congrArg Prod.snd hresult).symm.trans hsame
      exact hset.trans (directFetch_leaves o peer hset.ok pindexLast)
    · rename_i h _ hresult
      cases (congrArg Prod.snd hresult).symm.trans hsame
      exact hset

theorem downloadCmpctBlock_leaves
    (hknown : (s.find env.toHeaderEnv (header.getHash env.H)).isSome) :
    ∃ s', downloadCmpctBlock env o peer header (header.getHash env.H) s = some s' ∧
      LeavesIndex env s s' := by
  have hmark := markBlockAsInFlight_leaves hs peer.id (header.getHash env.H) true
  have hknown' : ∀ header' ∈ some header, ((s.markBlockAsInFlight peer.id (header.getHash env.H)
      true).2.find env.toHeaderEnv (header'.getHash env.H)).isSome := by
    rintro _ ⟨⟩
    exact find_isSome_of_subset (hmark.index ▸ Subset.refl _) hknown
  have hset := setPartialBlock_leaves hmark.ok (header.getHash env.H) hknown'
  unfold downloadCmpctBlock
  dsimp only
  split
  · exact ⟨_, rfl, hmark⟩
  · split
    · exact ⟨_, rfl, hmark.trans (markBlockAsReceived_leaves hmark.ok _)⟩
    · split
      · exact ⟨_, rfl, hmark.trans hset⟩
      · obtain ⟨s', hs'⟩ := isSome_iff_exists.mp
          (processBlockTxn_setPartialBlock o peer (header.getHash env.H) header)
        exact ⟨s', hs', hmark.trans (hset.trans (processBlockTxn_leaves hset.ok hs'))⟩
    · exact ⟨_, rfl, hmark.trans hset⟩

theorem reconstructBlock_leaves
    (hknown : (s.find env.toHeaderEnv (header.getHash env.H)).isSome) (pindex : BlockPtr) :
    LeavesIndex env s (reconstructBlock env o header pindex s) := by
  unfold reconstructBlock
  split
  · have hprocess : LeavesIndex env s (s.processNewBlock env o ⟨header, o.vtx⟩ true) :=
      processNewBlock_leaves hs hknown true
    dsimp only
    split
    · exact hprocess.trans (markBlockAsReceived_leaves hprocess.ok _)
    · exact hprocess
  · exact .refl hs

variable (o peer) in
theorem continueCmpctBlock_leaves
    (hknown : s.find env.toHeaderEnv (header.getHash env.H) = some pindex) :
    ∃ s', continueCmpctBlock env o peer header pindex s = some s' ∧ LeavesIndex env s s' := by
  have hsome := isSome_of_eq_some hknown
  have hhash : env.hashOf pindex = header.getHash env.H := Table.find_key hknown
  have hnop : ∃ s', some s = some s' ∧ LeavesIndex env s s' := ⟨s, rfl, .refl hs⟩
  unfold continueCmpctBlock
  rw [hhash]
  dsimp only
  split
  · exact hnop
  split
  · exact hnop
  split
  · exact hnop
  split
  · exact hnop
  split
  · split
    · exact downloadCmpctBlock_leaves hs hsome
    · exact ⟨_, rfl, reconstructBlock_leaves hs hsome pindex⟩
  · split
    · exact hnop
    · exact ⟨_, rfl, processHeaders_known hs hsome⟩

variable (o peer) in
theorem processCmpctBlock_spec (header : CBlockHeader) :
    ∃ s', processCmpctBlock env o peer header s = some s' ∧ s'.Ok env ∧
      ∀ n, n ∈ s'.mapBlockIndex ↔ n ∈ s.mapBlockIndex ∨ LetsIn env o s n (.cmpctblock header) := by
  unfold processCmpctBlock
  split
  · rename_i hprev
    refine ⟨s, rfl, hs, fun n => ⟨.inl, ?_⟩⟩
    rintro (hn | ⟨p, hjoins, -⟩)
    · exact hn
    · rw [hjoins.prev] at hprev
      cases hprev
  · obtain ⟨hok, hmem⟩ := setHeaders_spec hs [header] none
    simp only [brings_singleton] at hmem
    split
    · rename_i pindex h hresult
      rw [hresult] at hok hmem
      have hfind : h.find env.toHeaderEnv (header.getHash env.H) = some pindex := by
        simp only [processNewBlockHeaders] at hresult
        split at hresult
        · cases hresult
        · rename_i haccept
          cases hresult
          exact find_of_accepted hs.headers haccept
      obtain ⟨s', hs', hleaves⟩ := continueCmpctBlock_leaves o peer hok hfind
      exact ⟨s', hs', hleaves.ok, fun n => hleaves.index ▸ hmem n⟩
    · rename_i h _ hresult
      rw [hresult] at hok hmem
      exact ⟨_, rfl, hok, hmem⟩

theorem processMessage_ok (message : NetMessage)
    (h : processMessage env o peer message s = some s') : s'.Ok env := by
  unfold processMessage at h
  split at h
  · cases h
    exact hs
  · cases message with
    | headers headers =>
      cases h
      cases headers with
      | nil => exact hs
      | cons first headers => exact (processHeaders_spec hs first headers).1
    | cmpctblock header =>
      obtain ⟨s'', hs'', hok, -⟩ := processCmpctBlock_spec o peer hs header
      cases hs''.symm.trans h
      exact hok
    | blocktxn blockhash => exact (processBlockTxn_leaves hs h).ok
    | block block =>
      cases h
      exact (processBlockMessage_spec hs block).1

variable (o peer) in
theorem processMessage_adds_iff (hexpired : s.fAllowedMining = false)
    (himport : s.fImporting = false) (message : NetMessage) (n : BlockPtr)
    (hnew : n ∉ s.mapBlockIndex) :
    (∃ s', processMessage env o peer message s = some s' ∧ n ∈ s'.mapBlockIndex) ↔
      LetsIn env o s n message := by
  simp only [processMessage, himport, Bool.false_eq_true, if_false]
  cases message with
  | headers headers =>
    cases headers with
    | nil => simp [processHeaders, LetsIn, hnew]
    | cons first headers =>
      simp [(processHeaders_spec hs first headers).2, hnew, LetsIn, headersDropped_iff hexpired]
  | cmpctblock header =>
    obtain ⟨s', hs', -, hmem⟩ := processCmpctBlock_spec o peer hs header
    simp [hs', hmem, hnew]
  | blocktxn blockhash =>
    refine ⟨?_, False.elim⟩
    rintro ⟨s', hs', hn⟩
    exact hnew ((processBlockTxn_leaves hs hs').index ▸ hn)
  | block block => simp [(processBlockMessage_spec hs block).2, hnew]

theorem LetsIn.new (h : LetsIn env o s n message) : n ∉ s.mapBlockIndex := by
  cases message with
  | headers headers =>
    cases headers with
    | nil => cases h
    | cons first headers => exact h.2.new hs.headers
  | cmpctblock header =>
    obtain ⟨p, hjoins, rfl⟩ := h
    exact hjoins.new hs.headers
  | blocktxn blockhash => cases h
  | block block =>
    obtain ⟨-, p, hjoins, rfl⟩ := h
    exact hjoins.new hs.headers

end

/-- The expiry of a round is enforced against a message if and only if the node is
importing or the message lets in no header of the round. -/
theorem round_expiry_iff (hs : s.Ok env) (hexpired : s.fAllowedMining = false)
    (message : NetMessage) :
    (∀ s', processMessage env o peer message s = some s' →
      ∀ n ∈ s'.mapBlockIndex, n ∉ s.mapBlockIndex → getBlockTime n.value ≠ s.THIS_ROUND_START) ↔
    (s.fImporting = true ∨
      ∀ n, LetsIn env o s n message → getBlockTime n.value ≠ s.THIS_ROUND_START) := by
  cases himport : s.fImporting with
  | true =>
    refine iff_of_true ?_ (.inl rfl)
    intro s' h n hn hnew
    simp only [processMessage, himport, if_true] at h
    cases h
    exact absurd hn hnew
  | false =>
    have hadds := processMessage_adds_iff o peer hs hexpired himport message
    constructor
    · intro h
      refine .inr fun n hn => ?_
      obtain ⟨s', hs', hmem⟩ := (hadds n (hn.new hs)).mpr hn
      exact h s' hs' n hmem (hn.new hs)
    · intro h s' hs' n hmem hnew
      exact h.resolve_left (by simp) n ((hadds n hnew).mp ⟨s', hs', hmem⟩)

-- A round that started at time 10 and has expired.
def expiredRound : NetState where
  toChainState := ChainState.loaded regTestGenesis
  fImporting := false
  fAllowedMining := false
  THIS_ROUND_START := 10
  mapBlocksInFlight := []

def quietOracle : MessageOracle where
  toBlockOracle := smoothOracle
  isInitialBlockDownload := false
  canDirectFetch := false
  isWitnessEnabled _ := false
  initData := .failed
  txnMissing := true
  fillBlock := .failed
  vtx := []

def plainPeer : Peer := ⟨0, false, false, false⟩

theorem expiredRound_ok : expiredRound.Ok (addressedEnv fun _ => 0) :=
  ⟨⟨by decide, by decide⟩, by simp [expiredRound]⟩

/-- A header of the round is refused alone, and enters behind another header, in a compact block
and in a block. -/
theorem round_entered_after_expiry :
    let late := regTestHeader 4 10 1 0
    let ofRound := fun s : NetState => s.mapBlockIndex.any fun n => s.isCurrentRoundBlock n.value
    let receive := fun message =>
      (processMessage (addressedEnv fun _ => 0) quietOracle plainPeer message expiredRound).map
        ofRound
    expiredRound.fAllowedMining = false ∧ ofRound expiredRound = false ∧
    receive (.headers [late]) = some false ∧
    receive (.headers [regTestHeader 5 9 1 0, regTestHeader 4 10 5 0]) = some true ∧
    receive (.cmpctblock late) = some true ∧
    receive (.block ⟨late, []⟩) = some true := by
  decide

theorem round_expiry_iff_headers :
    let message : NetMessage := .headers [regTestHeader 4 10 1 0]
    (∀ s', processMessage (addressedEnv fun _ => 0) quietOracle plainPeer message expiredRound =
    some s' →
      ∀ n ∈ s'.mapBlockIndex, n ∉ expiredRound.mapBlockIndex →
        getBlockTime n.value ≠ expiredRound.THIS_ROUND_START) ↔
    (expiredRound.fImporting = true ∨
      ∀ n, LetsIn (addressedEnv fun _ => 0) quietOracle expiredRound n message →
        getBlockTime n.value ≠ expiredRound.THIS_ROUND_START) :=
  round_expiry_iff expiredRound_ok rfl _

/-- A message, or what leaves the index alone and requests no block: a timer,
`ActivateBestChain`. -/
def NetStep (env : ChainEnv) (s s' : NetState) : Prop :=
  (∃ o peer message, processMessage env o peer message s = some s') ∨
    s'.mapBlockIndex = s.mapBlockIndex ∧ s'.mapBlocksInFlight ⊆ s.mapBlocksInFlight

theorem NetStep.ok (h : NetStep env s s') (hs : s.Ok env) : s'.Ok env := by
  obtain ⟨o, peer, message, h⟩ | ⟨hindex, hflight⟩ := h
  · exact processMessage_ok hs message h
  · exact (leavesIndex_of_flight hs hindex fun _ hqueued => .inl (hflight hqueued)).ok

/-- A message of a run ends the node if and only if it is `blocktxn` for a block in flight from its
peer whose header is null, as a failed `FillBlock` leaves it. -/
theorem processMessage_aborts_iff (hs : s.Ok env) (hrun : Relation.ReflTransGen (NetStep env) s s') :
    processMessage env o peer message s' = none ↔ s'.fImporting = false ∧ ∃ blockhash hash,
      message = .blocktxn blockhash ∧ s'.inFlight blockhash = some ⟨hash, peer.id, some none⟩ := by
  have hok : s'.Ok env := by
    induction hrun with
    | refl => exact hs
    | tail _ hstep ih => exact hstep.ok ih
  unfold processMessage
  cases s'.fImporting with
  | true => simp
  | false =>
    cases message with
    | headers headers => simp
    | cmpctblock header =>
      obtain ⟨s'', hs'', -⟩ := processCmpctBlock_spec o peer hok header
      simp [hs'']
    | block block => simp
    | blocktxn blockhash =>
      simp only [processBlockTxn, Bool.false_eq_true, if_false, true_and]
      split <;> grind

/-- A compact block and two answers to its `getblocktxn` end a node. -/
theorem processMessage_aborts_twice :
    let env := addressedEnv fun _ => 0
    let receive := processMessage env { quietOracle with
      canDirectFetch := true, initData := .ok } plainPeer
    ∃ s, Relation.ReflTransGen (NetStep env) expiredRound s ∧ receive (.blocktxn 4) s = none := by
  intro env receive
  have hend : ((receive (.cmpctblock (regTestHeader 4 10 1 0)) expiredRound).bind
    (receive (.blocktxn 4))).any
      (fun s => !s.fImporting && s.inFlight 4 = some ⟨4, 0, some none⟩) = true := by decide
  obtain ⟨s, hs, hflight⟩ := (Option.any_eq_true _ _).mp hend
  obtain ⟨_, hfirst, hsecond⟩ := bind_eq_some_iff.mp hs
  obtain ⟨himport, hflight⟩ := by simpa using hflight
  have hrun : Relation.ReflTransGen (NetStep env) expiredRound s :=
    .tail (.single (.inl ⟨_, _, _, hfirst⟩)) (.inl ⟨_, _, _, hsecond⟩)
  exact ⟨s, hrun, (processMessage_aborts_iff expiredRound_ok hrun).mpr ⟨himport, 4, 4, rfl, hflight⟩⟩

end OurChain
