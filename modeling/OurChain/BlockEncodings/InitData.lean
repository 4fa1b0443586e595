import OurChain.BlockEncodings

/-!
# Positions in a compact block

`InitData` puts each prefilled transaction at the index its offsets add up to and gives the
short ids the indices that are left, in order. The indices of the short ids are kept in 16 bits,
while the size check admits 100000 transactions: the positions are right for all messages of at
most `2 ^ 16` transactions, and for no others.
-/

namespace OurChain

open List

namespace InitData

/-- The prefilled transactions with the indices that their offsets add up to, from the index
`start` on. -/
def placements : Nat → List PrefilledTransaction → List (Nat × CTransaction)
  | _, [] => []
  | start, prefilled :: rest =>
    (start + prefilled.index.toNat, prefilled.tx) :: placements
      (start + prefilled.index.toNat + 1) rest

section
variable (cmpctblock : CBlockHeaderAndShortTxIDs)

def positions : List Nat := (placements 0 cmpctblock.prefilledtxn).map Prod.fst

def remaining : List Nat :=
  (List.range cmpctblock.blockTxCount).filter fun k => k ∉ positions cmpctblock

abbrev shortIndices : List (BitVec 64 × Nat) :=
  cmpctblock.shorttxids.zip (remaining cmpctblock)

end

theorem le_of_mem_placements (h : e ∈ placements start prefilledtxn) : start ≤ e.1 := by
  induction prefilledtxn generalizing start with
  | nil => cases h
  | cons prefilled rest ih =>
    rcases mem_cons.mp h with rfl | h
    · exact Nat.le_add_right _ _
    · have hle := ih h
      omega

theorem pairwise_placements (start : Nat) (prefilledtxn : List PrefilledTransaction) :
    (placements start prefilledtxn).Pairwise fun e e' => e.1 < e'.1 := by
  induction prefilledtxn generalizing start with
  | nil => exact .nil
  | cons prefilled rest ih =>
    refine .cons ?_ (ih _)
    intro e he
    have hle := le_of_mem_placements he
    exact Nat.lt_of_succ_le hle

/-- What the loop leaves behind, if it does not refuse the message. -/
structure Placed (entries : List (Nat × CTransaction)) (before after : List (Option CTransaction)) :
    Prop where
  length : after.length = before.length
  bound : ∀ e ∈ entries, e.1 ≤ 0xffff ∧ e.1 < before.length
  here : ∀ e ∈ entries, after[e.1]? = some (some e.2)
  elsewhere : ∀ k, k ∉ entries.map Prod.fst → after[k]? = before[k]?

theorem Placed.cons {before after : List (Option CTransaction)}
    (h : Placed entries (before.set pos (some tx)) after) (hmax : pos ≤ 0xffff)
    (hlt : pos < before.length) (hlater : ∀ e ∈ entries, pos < e.1) :
    Placed ((pos, tx) :: entries) before after where
  length := by simpa using h.length
  bound := by
    rintro e (_ | ⟨_, he⟩)
    · exact ⟨hmax, hlt⟩
    · simpa using h.bound e he
  here := by
    rintro e (_ | ⟨_, he⟩)
    · -- the later ones are put behind it
      have hfresh : pos ∉ entries.map Prod.fst := by
        intro hmem
        obtain ⟨e, he, rfl⟩ := List.mem_map.mp hmem
        exact Nat.lt_irrefl _ (hlater e he)
      rw [h.elsewhere pos hfresh, getElem?_set_self hlt]
    · exact h.here e he
  elsewhere := by
    intro k hk
    obtain ⟨hne, hk⟩ : k ≠ pos ∧ k ∉ entries.map Prod.fst := by simpa using hk
    rw [h.elsewhere k hk, getElem?_set_ne (Ne.symm hne)]

theorem placePrefilled_spec {start : Nat} {txn_available : List (Option CTransaction)}
    (hlength : txn_available.length = nShort + i + prefilledtxn.length) :
    (∃ s, placePrefilled nShort i (start - 1) prefilledtxn txn_available = .error (.status s)) ∨
    ∃ after, placePrefilled nShort i (start - 1) prefilledtxn txn_available = .ok after ∧
      Placed (placements start prefilledtxn) txn_available after := by
  induction prefilledtxn generalizing i start txn_available with
  | nil =>
    exact .inr ⟨txn_available, rfl, rfl, by simp [placements], by simp [placements],
      by simp [placements]⟩
  | cons prefilled rest ih =>
    have hindex : ((start : Int) - 1) + (prefilled.index.toNat + 1) =
      ((start + prefilled.index.toNat : Nat) : Int) := by
      push_cast
      omega
    generalize hpos : start + prefilled.index.toNat = pos at hindex
    simp only [placePrefilled, hindex, Int.toNat_natCast]
    by_cases hnull : prefilled.tx.isNull = true
    · exact .inl ⟨_, if_pos hnull⟩
    by_cases hmax : (pos : Int) > 0xffff
    · exact .inl ⟨.invalid, by rw [if_neg hnull, if_pos hmax]⟩
    by_cases hbeyond : pos > nShort + i
    · exact .inl ⟨.invalid, by rw [if_neg hnull, if_neg hmax, if_pos hbeyond]⟩
    rw [length_cons] at hlength
    have hlt : pos < txn_available.length := by omega
    rw [if_neg hnull, if_neg hmax, if_neg hbeyond, writeAt, if_pos hlt]
    have hrest := @ih (i + 1) (pos + 1) (txn_available.set pos (some prefilled.tx)) (by simp; omega)
    rw [show ((pos + 1 : Nat) : Int) - 1 = pos by omega] at hrest
    rcases hrest with ⟨s, herror⟩ | ⟨after, hok, hplaced⟩
    · exact .inl ⟨s, herror⟩
    · refine .inr ⟨after, hok, ?_⟩
      simp only [placements, hpos]
      exact hplaced.cons (by omega) hlt (fun e he => Nat.lt_of_succ_le (le_of_mem_placements he))

/-- The free indices of a list whose first element has the index `k`. -/
def freeFrom : Nat → List (Option CTransaction) → List Nat
  | _, [] => []
  | k, none :: rest => k :: freeFrom (k + 1) rest
  | k, some _ :: rest => freeFrom (k + 1) rest

theorem freeFrom_eq (k : Nat) (v : List (Option CTransaction)) :
    freeFrom k v = (List.range' k v.length).filter fun m => v[m - k]? = some none := by
  induction v generalizing k with
  | nil => rfl
  | cons slot rest ih =>
    have hrest : (List.range' (k + 1) rest.length).filter (fun m =>
      (slot :: rest)[m - k]? = some none) =
        freeFrom (k + 1) rest := by
      rw [ih]
      apply filter_congr
      intro m hm
      have hle := (mem_range'_1.mp hm).1
      rw [show m - k = (m - (k + 1)) + 1 by omega, getElem?_cons_succ]
    rw [length_cons, range'_succ, filter_cons, hrest]
    cases slot <;> simp [freeFrom]

variable {v : List (Option CTransaction)}

theorem freeFrom_drop_cons (h : freeFrom k (v.drop k) = first :: rest) :
    k ≤ first ∧ v[first]? = some none ∧ (∀ m, k ≤ m → m < first → ∃ tx, v[m]? = some (some tx)) ∧
      freeFrom (first + 1) (v.drop (first + 1)) = rest := by
  induction hn : v.length - k generalizing k with
  | zero => 
    rw [drop_of_length_le (by omega)] at h
    cases h
  | succ n ih =>
    have hlt : k < v.length := by omega
    rw [drop_eq_getElem_cons hlt] at h
    cases hslot : v[k] with
    | none =>
      rw [hslot, freeFrom] at h
      obtain ⟨rfl, rfl⟩ := cons.inj h
      exact ⟨le_rfl, by rw [getElem?_eq_getElem hlt, hslot], fun m hle hlt => by omega, rfl⟩
    | some tx =>
      rw [hslot, freeFrom] at h
      obtain ⟨hle, hfree, htaken, hrest⟩ := ih h (by omega)
      refine ⟨by omega, hfree, ?_, hrest⟩
      intro m hkm hmf
      rcases Nat.eq_or_lt_of_le hkm with rfl | hlater
      · exact ⟨tx, by rw [getElem?_eq_getElem hlt, hslot]⟩
      · exact htaken m hlater hmf

section
variable (v : List (Option CTransaction))

def takenBelow (k : Nat) : Nat := (v.take k).countP Option.isSome

theorem takenBelow_le (k : Nat) : takenBelow v k ≤ v.countP Option.isSome :=
  (take_sublist k v).countP_le

theorem takenBelow_mono (h : k ≤ k') : takenBelow v k ≤ takenBelow v k' :=
  (take_sublist_take_left h).countP_le

end

theorem takenBelow_add (hle : k ≤ first)
    (htaken : ∀ m, k ≤ m → m < first → ∃ tx, v[m]? = some (some tx)) :
    takenBelow v first = takenBelow v k + (first - k) := by
  induction first, hle using Nat.le_induction with
  | base => simp
  | succ n hkn ih =>
    obtain ⟨tx, htx⟩ := htaken n hkn (Nat.lt_succ_self n)
    have hbelow := ih fun m hkm hmn => htaken m hkm (Nat.lt_succ_of_lt hmn)
    have hone : takenBelow v (n + 1) = takenBelow v n + 1 := by
      simp [takenBelow, take_add_one, htx]
    omega

theorem skipAvailable_spec {offset : BitVec 16}
    (hle : i + offset.toNat ≤ first) (hfree : v[first]? = some none)
    (htaken : ∀ m, i + offset.toNat ≤ m → m < first → ∃ tx, v[m]? = some (some tx))
    (hfits : first - i < 2 ^ 16) (hturns : first - (i + offset.toNat) < turns) :
    ∃ offset', skipAvailable v i turns offset = .ok offset' ∧ i + offset'.toNat = first := by
  induction turns generalizing offset with
  | zero => omega
  | succ turns ih =>
    rcases Nat.eq_or_lt_of_le hle with heq | hlt
    · refine ⟨offset, ?_, heq⟩
      simp [skipAvailable, readAt, heq, hfree, bind, Except.bind]
    · obtain ⟨tx, htx⟩ := htaken _ le_rfl hlt
      have hnext : (offset + 1).toNat = offset.toNat + 1 := toNat_succ (by omega)
      simp only [skipAvailable, readAt, htx, bind, Except.bind]
      refine ih ?_ ?_ ?_
      · omega
      · intro m hm
        exact htaken m (by omega)
      · omega

def assignAll (shorttxids : ShortTxIDs) (pairs : List (BitVec 64 × Nat)) : ShortTxIDs :=
  pairs.foldl (fun shorttxids e => assignIndex e.1 (BitVec.ofNat 16 e.2) shorttxids) shorttxids

/-- Some bucket is too full when a short id is assigned its index. -/
def Overfull (bucketSize : List (BitVec 64) → BitVec 64 → Nat) (shorttxids : ShortTxIDs)
    (pairs : List (BitVec 64 × Nat)) : Prop :=
  ∃ before e after, pairs = before ++ e :: after ∧
    12 < bucketSize ((assignAll shorttxids (before ++ [e])).map Prod.fst) e.1

theorem bindShortIDs_spec {v : List (Option CTransaction)} {offset : BitVec 16}
    {ids : List (BitVec 64)} (hfree : freeFrom (i + offset.toNat) (v.drop (i + offset.toNat)) = free)
    (hlength : ids.length ≤ free.length) (hoffset : offset.toNat ≤ takenBelow v (i + offset.toNat))
    (htaken : v.countP Option.isSome < 2 ^ 16) :
    (bindShortIDs bucketSize v i offset ids shorttxids = .error (.status .failed) ∧
      Overfull bucketSize shorttxids (ids.zip free)) ∨
    bindShortIDs bucketSize v i offset ids shorttxids =
    .ok (assignAll shorttxids (ids.zip free)) := by
  induction ids generalizing i offset free shorttxids with
  | nil => exact .inr rfl
  | cons shortid ids ih =>
    cases free with
    | nil => simp at hlength
    | cons first free =>
      obtain ⟨hle, hfirst, hbetween, hrest⟩ := freeFrom_drop_cons hfree
      have hcount := takenBelow_add hle hbetween
      have hmost := takenBelow_le v first
      obtain ⟨offset', hskip, rfl⟩ := skipAvailable_spec hle hfirst hbetween (by omega)
        (show _ < 2 ^ 16 by omega)
      simp only [bindShortIDs, hskip, bind, Except.bind]
      by_cases hbucket : bucketSize
          ((assignIndex shortid (BitVec.ofNat 16 (i + offset'.toNat)) shorttxids).map Prod.fst)
          shortid > 12
      · exact .inl ⟨if_pos hbucket, [], (shortid, i + offset'.toNat), ids.zip free, rfl, hbucket⟩
      · rw [if_neg hbucket]
        have hnext : i + 1 + offset'.toNat = i + offset'.toNat + 1 := by omega
        have hmono := takenBelow_mono v (Nat.le_add_right (i + offset'.toNat) 1)
        have hrec := @ih (i + 1) free
          (assignIndex shortid (BitVec.ofNat 16 (i + offset'.toNat)) shorttxids) offset'
          (by rw [hnext, hrest]) (by simpa using hlength) (by rw [hnext]; omega)
        rcases hrec with ⟨hfailed, before, e, after, hsplit, hfull⟩ | hok
        · refine .inl ⟨hfailed, (shortid, i + offset'.toNat) :: before, e, after, ?_, hfull⟩
          rw [zip_cons_cons, hsplit, cons_append]
        · exact .inr hok

section
variable {shorttxids : ShortTxIDs} {shortid : BitVec 64} {index : BitVec 16}
    {pairs : List (BitVec 64 × Nat)}

theorem find_isSome_iff_mem : (Table.find Prod.fst shorttxids shortid).isSome ↔
    shortid ∈ shorttxids.map Prod.fst := by
  rw [Table.find_isSome_iff, List.mem_map]

theorem assignIndex_fresh (h : shortid ∉ shorttxids.map Prod.fst) :
    assignIndex shortid index shorttxids = shorttxids ++ [(shortid, index)] := by
  have hold : ∀ e ∈ shorttxids, (if e.1 = shortid then (e.1, index) else e) = e := by
    intro e he
    refine if_neg ?_
    rintro rfl
    exact h (List.mem_map_of_mem he)
  simp only [assignIndex, Table.add, find_isSome_iff_mem, h, if_false, Table.modify, map_append,
    map_congr_left hold]
  simp

theorem length_assignIndex (h : shortid ∈ shorttxids.map Prod.fst) :
    (assignIndex shortid index shorttxids).length = shorttxids.length := by
  simp only [assignIndex, Table.add, find_isSome_iff_mem, h, if_true, Table.modify, length_map]

theorem length_assignAll_le (shorttxids : ShortTxIDs) (pairs : List (BitVec 64 × Nat)) :
    (assignAll shorttxids pairs).length ≤ shorttxids.length + pairs.length := by
  induction pairs generalizing shorttxids with
  | nil => exact le_rfl
  | cons e pairs ih =>
    refine (ih (assignIndex e.1 (BitVec.ofNat 16 e.2) shorttxids)).trans ?_
    by_cases hmem : e.1 ∈ shorttxids.map Prod.fst
    · rw [length_assignIndex hmem, length_cons]
      omega
    · simp only [assignIndex_fresh hmem, length_append, length_cons, length_nil]
      omega

theorem assignAll_of_nodup (h : (shorttxids.map Prod.fst ++ pairs.map Prod.fst).Nodup) :
    assignAll shorttxids pairs = shorttxids ++ pairs.map fun e => (e.1, BitVec.ofNat 16 e.2) := by
  induction pairs generalizing shorttxids with
  | nil => simp [assignAll]
  | cons e pairs ih =>
    have hfresh : e.1 ∉ shorttxids.map Prod.fst := by
      intro hmem
      exact (nodup_append.mp h).2.2 e.1 hmem e.1 (by simp) rfl
    change assignAll (assignIndex e.1 (BitVec.ofNat 16 e.2) shorttxids) pairs = _
    rw [assignIndex_fresh hfresh, ih (by simpa using h)]
    simp

theorem assignAll_eq (h : (assignAll shorttxids pairs).length = shorttxids.length + pairs.length) :
    assignAll shorttxids pairs = shorttxids ++ pairs.map fun e => (e.1, BitVec.ofNat 16 e.2) := by
  induction pairs generalizing shorttxids with
  | nil => simp [assignAll]
  | cons e pairs ih =>
    have hrest := length_assignAll_le (assignIndex e.1 (BitVec.ofNat 16 e.2) shorttxids) pairs
    change (assignAll (assignIndex e.1 (BitVec.ofNat 16 e.2) shorttxids) pairs).length = _ at h
    change assignAll (assignIndex e.1 (BitVec.ofNat 16 e.2) shorttxids) pairs = _
    by_cases hmem : e.1 ∈ shorttxids.map Prod.fst
    · rw [length_assignIndex hmem, h, length_cons] at hrest
      omega
    · rw [assignIndex_fresh hmem] at h ⊢
      rw [ih (by simp [h]; omega)]
      simp

end

section
variable {n index : Nat} {P : Nat → Option CTransaction → Prop} {s : PoolScan}
  {differs : CTransaction → CTransaction → Bool}

/-- The vectors have their size, and what is in each slot is admissible there. -/
structure ScanOk (n : Nat) (P : Nat → Option CTransaction → Prop) (s : PoolScan) : Prop where
  available : s.txn_available.length = n
  marks : s.have_txn.length = n
  slots : ∀ k slot, s.txn_available[k]? = some slot → P k slot

theorem readAt_of_lt {v : List α} (h : i < v.length) : readAt v i = .ok v[i] := by
  simp [readAt, h]

theorem slots_set {v : List (Option CTransaction)} (hv : ∀ k slot, v[k]? = some slot → P k slot)
    (hslot : P index slot) (k : Nat) (slot' : Option CTransaction)
    (h : (v.set index slot)[k]? = some slot') :
    P k slot' := by
  rw [getElem?_set] at h
  split at h
  · rename_i hk
    subst hk
    split at h
    · exact Option.some.inj h ▸ hslot
    · cases h
  · exact hv k slot' h

theorem offer_spec (hs : ScanOk n P s) (hlt : index < n) (hsome : P index (some tx))
    (hnone : P index none) :
    ∃ s', offer differs index tx s = .ok s' ∧ ScanOk n P s' := by
  have hmark : index < s.have_txn.length := hs.marks ▸ hlt
  have hslot : index < s.txn_available.length := hs.available ▸ hlt
  unfold offer
  simp only [readAt_of_lt hmark, readAt_of_lt hslot, writeAt, if_pos hmark, if_pos hslot,
    bind, Except.bind]
  split
  · exact ⟨_, rfl, by simp [hs.available], by simp [hs.marks], slots_set hs.slots hsome⟩
  · split
    · exact ⟨s, rfl, hs⟩
    · split
      · exact ⟨_, rfl, by simp [hs.available], hs.marks, slots_set hs.slots hnone⟩
      · exact ⟨s, rfl, hs⟩

theorem scanKnown_spec {known : List (Uint256 × CTransaction)} (hs : ScanOk n P s)
    (hrange : ∀ e ∈ shorttxids, e.2.toNat < n ∧ P e.2.toNat none)
    (hknown : ∀ k ∈ known, ∀ e ∈ shorttxids, e.1 = getShortID k.1 → P e.2.toNat (some k.2)) :
    ∃ s', scanKnown getShortID shorttxids differs known s = .ok s' ∧ ScanOk n P s' := by
  induction known generalizing s with
  | nil => exact ⟨s, rfl, hs⟩
  | cons k known ih =>
    have hstep : ∃ s', lookAt getShortID shorttxids differs k s = .ok s' ∧ ScanOk n P s' := by
      unfold lookAt
      cases hfind : Table.find Prod.fst shorttxids (getShortID k.1) with
      | none => exact ⟨s, rfl, hs⟩
      | some e =>
        have hmem := Table.find_mem hfind
        obtain ⟨hlt, hnone⟩ := hrange e hmem
        exact offer_spec hs hlt (hknown k (mem_cons_self ..) e hmem (Table.find_key hfind)) hnone
    obtain ⟨s', hlook, hs'⟩ := hstep
    simp only [scanKnown, hlook, bind, Except.bind]
    split
    · exact ⟨s', rfl, hs'⟩
    · exact ih hs' fun k hk => hknown k (mem_cons_of_mem _ hk)

end

section
variable {env : RelayEnv} {cmpctblock : CBlockHeaderAndShortTxIDs}
    {placed : List (Option CTransaction)}

abbrev PlacedBy (cmpctblock : CBlockHeaderAndShortTxIDs) (placed : List (Option CTransaction)) :
    Prop :=
  Placed (placements 0 cmpctblock.prefilledtxn) (List.replicate cmpctblock.blockTxCount none) placed

theorem placeTransactions_spec (cmpctblock : CBlockHeaderAndShortTxIDs) :
    (∃ s, placeTransactions cmpctblock = .error (.status s)) ∨
    ∃ placed, placeTransactions cmpctblock = .ok placed ∧ PlacedBy cmpctblock placed :=
  @placePrefilled_spec _ 0 _ 0 _ (by simp [CBlockHeaderAndShortTxIDs.blockTxCount])

theorem placedBy_of_ok (h : placeTransactions cmpctblock = .ok placed) :
    PlacedBy cmpctblock placed := by
  obtain ⟨s, herror⟩ | ⟨placed', hok, hplaced⟩ := placeTransactions_spec cmpctblock
  · cases h.symm.trans herror
  · cases h.symm.trans hok
    exact hplaced

theorem nodup_remaining : (remaining cmpctblock).Nodup := List.nodup_range.filter _

theorem nodup_positions : (positions cmpctblock).Nodup := by
  refine pairwise_map.mpr ((pairwise_placements 0 _).imp ?_)
  intro e e' hlt
  exact Nat.ne_of_lt hlt

theorem length_positions : (positions cmpctblock).length = cmpctblock.prefilledtxn.length := by
  have hlength : ∀ start, (placements start cmpctblock.prefilledtxn).length =
    cmpctblock.prefilledtxn.length := by
    induction cmpctblock.prefilledtxn with
    | nil => exact fun _ => rfl
    | cons prefilled rest ih => simp [placements, ih]
  rw [positions, length_map, hlength]

theorem length_freeFrom (k : Nat) (v : List (Option CTransaction)) :
    (freeFrom k v).length + v.countP Option.isSome = v.length := by
  induction v generalizing k with
  | nil => rfl
  | cons slot rest ih =>
    have hrest := ih (k + 1)
    cases slot <;> simp [InitData.freeFrom] <;> omega

theorem skipAvailable_loops {v : List (Option CTransaction)}
    (htaken : ∀ k < 2 ^ 16, ∃ tx, v[k]? = some (some tx)) (turns : Nat) (offset : BitVec 16) :
    skipAvailable v 0 turns offset = .error .loops := by
  induction turns generalizing offset with
  | zero => rfl
  | succ turns ih =>
    obtain ⟨tx, htx⟩ := htaken offset.toNat offset.isLt
    simp only [skipAvailable, Nat.zero_add, readAt, htx, bind, Except.bind]
    exact ih _

theorem nodup_assignAll (pairs : List (BitVec 64 × Nat)) (h : (shorttxids.map Prod.fst).Nodup) :
    ((assignAll shorttxids pairs).map Prod.fst).Nodup := by
  induction pairs generalizing shorttxids with
  | nil => exact h
  | cons e pairs ih =>
    refine ih ?_
    change ((assignIndex e.1 (BitVec.ofNat 16 e.2) shorttxids).map Prod.fst).Nodup
    rw [assignIndex, Table.map_key_modify]
    · exact Table.nodup_add _ h
    · exact fun _ => rfl

section
variable (h : PlacedBy cmpctblock placed)
include h

theorem PlacedBy.freeFrom : freeFrom 0 placed = remaining cmpctblock := by
  rw [freeFrom_eq, remaining, h.length, length_replicate, range_eq_range']
  apply filter_congr
  intro k hk
  have hlt : k < cmpctblock.blockTxCount := by simpa using hk
  by_cases hmem : k ∈ positions cmpctblock
  · obtain ⟨e, he, rfl⟩ := List.mem_map.mp hmem
    simp [h.here e he, hmem]
  · have hfree : placed[k]? = some none := by
      rw [h.elsewhere k hmem]
      simp [hlt]
    simp [hfree, hmem]

theorem PlacedBy.length_remaining :
    (remaining cmpctblock).length = cmpctblock.shorttxids.length := by
  have hsub : (positions cmpctblock).toFinset ⊆ Finset.range cmpctblock.blockTxCount := by
    intro k hk
    obtain ⟨e, he, rfl⟩ := List.mem_map.mp (List.mem_toFinset.mp hk)
    simpa using (h.bound e he).2
  have hset : (remaining cmpctblock).toFinset = Finset.range cmpctblock.blockTxCount \
    (positions cmpctblock).toFinset := by
    ext k
    simp [remaining]
  rw [← toFinset_card_of_nodup nodup_remaining, hset, Finset.card_sdiff_of_subset hsub,
    Finset.card_range, toFinset_card_of_nodup nodup_positions, length_positions,
    CBlockHeaderAndShortTxIDs.blockTxCount, Nat.add_sub_cancel]

theorem PlacedBy.taken : placed.countP Option.isSome = cmpctblock.prefilledtxn.length := by
  have hcount := length_freeFrom 0 placed
  rw [h.freeFrom, h.length_remaining, h.length, length_replicate,
    CBlockHeaderAndShortTxIDs.blockTxCount] at hcount
  omega

theorem PlacedBy.all_taken (hmany : 2 ^ 16 ≤ cmpctblock.prefilledtxn.length) :
    ∀ k < 2 ^ 16, ∃ tx, placed[k]? = some (some tx) := by
  have hsub : (positions cmpctblock).toFinset ⊆ Finset.range (2 ^ 16) := by
    intro k hk
    obtain ⟨e, he, rfl⟩ := List.mem_map.mp (List.mem_toFinset.mp hk)
    have hmax := (h.bound e he).1
    exact Finset.mem_range.mpr (by omega)
  have hall : (positions cmpctblock).toFinset = Finset.range (2 ^ 16) := by
    refine Finset.eq_of_subset_of_card_le hsub ?_
    rw [Finset.card_range, toFinset_card_of_nodup nodup_positions, length_positions]
    exact hmany
  intro k hk
  have hmem : k ∈ (positions cmpctblock).toFinset := hall ▸ Finset.mem_range.mpr hk
  obtain ⟨e, he, rfl⟩ := List.mem_map.mp (List.mem_toFinset.mp hmem)
  exact ⟨e.2, h.here e he⟩

theorem bindIndices_spec :
    (bindIndices env cmpctblock placed = .error (.status .failed) ∧
      Overfull (env.bucketSize cmpctblock.shorttxids.length) [] (shortIndices cmpctblock)) ∨
    (bindIndices env cmpctblock placed = .error .loops ∧ 2 ^ 16 ≤ cmpctblock.prefilledtxn.length ∧
      2 ^ 16 < cmpctblock.blockTxCount) ∨
    bindIndices env cmpctblock placed = .ok (assignAll [] (shortIndices cmpctblock)) := by
  by_cases hmany : 2 ^ 16 ≤ cmpctblock.prefilledtxn.length
  · cases hids : cmpctblock.shorttxids with
    | nil => exact .inr (.inr (by simp [bindIndices, bindShortIDs, shortIndices, hids, assignAll]))
    | cons shortid rest =>
      refine .inr (.inl ⟨?_, hmany, ?_⟩)
      · simp only [bindIndices, hids, bindShortIDs, skipAvailable_loops (h.all_taken hmany),
          bind, Except.bind]
      · rw [CBlockHeaderAndShortTxIDs.blockTxCount, hids, length_cons]
        omega
  · have hspec := @bindShortIDs_spec 0 (remaining cmpctblock)
      (env.bucketSize cmpctblock.shorttxids.length) [] placed 0 cmpctblock.shorttxids h.freeFrom
      h.length_remaining.ge (by simp) (by rw [h.taken]; omega)
    exact hspec.imp_right .inr

theorem assigned_eq (hsize : (assignAll [] (shortIndices cmpctblock)).length =
    cmpctblock.shorttxids.length) :
    assignAll [] (shortIndices cmpctblock) = (shortIndices cmpctblock).map (fun e =>
    (e.1, BitVec.ofNat 16 e.2)) ∧
      cmpctblock.shorttxids.Nodup := by
  have hlength : (assignAll [] (shortIndices cmpctblock)).length =
      ([] : ShortTxIDs).length + (shortIndices cmpctblock).length := by
    simp [hsize, h.length_remaining]
  have heq := assignAll_eq hlength
  rw [nil_append] at heq
  refine ⟨heq, ?_⟩
  have hnodup := @nodup_assignAll [] (shortIndices cmpctblock) nodup_nil
  rw [heq, List.map_map] at hnodup
  have hkeys : (shortIndices cmpctblock).map (Prod.fst ∘ fun e => (e.1, BitVec.ofNat 16 e.2)) =
    cmpctblock.shorttxids := map_fst_zip h.length_remaining.ge
  rwa [hkeys] at hnodup

end

/-- What is known once `InitData` has accepted a message: any condition on the slots that the
prefilled transactions, nothing at the index of a short id, and a transaction at the index of a
short id it matches meet, is met by all slots. -/
structure Accepted (env : RelayEnv) (cmpctblock : CBlockHeaderAndShortTxIDs)
    (known : List (Uint256 × CTransaction)) (placed : List (Option CTransaction))
    (shorttxids : ShortTxIDs) (partialBlock : PartiallyDownloadedBlock) : Prop where
  prefilled : PlacedBy cmpctblock placed
  assigned : shorttxids = (cmpctblock.shorttxids.zip (remaining cmpctblock)).map fun e =>
    (e.1, BitVec.ofNat 16 e.2)
  nodup : cmpctblock.shorttxids.Nodup
  header : partialBlock.header = cmpctblock.header
  length : partialBlock.txn_available.length = cmpctblock.blockTxCount
  slots : ∀ P : Nat → Option CTransaction → Prop, (∀ k slot, placed[k]? = some slot → P k slot) →
    (∀ e ∈ shorttxids, P e.2.toNat none) →
    (∀ k ∈ known, ∀ e ∈ shorttxids, e.1 = cmpctblock.getShortID env k.1 → P e.2.toNat (some k.2)) →
    ∀ k slot, partialBlock.txn_available[k]? = some slot → P k slot

theorem mem_remaining (h : k ∈ remaining cmpctblock) :
    k < cmpctblock.blockTxCount ∧ k ∉ positions cmpctblock := by
  simpa [remaining] using h

theorem scans_spec {shorttxids : ShortTxIDs} {vTxHashes extra_txn : List (Uint256 × CTransaction)}
    {P : Nat → Option CTransaction → Prop} (hrange : ∀ e ∈ shorttxids, e.2.toNat < placed.length)
    (hbase : ∀ k slot, placed[k]? = some slot → P k slot) (hnone : ∀ e ∈ shorttxids, P e.2.toNat none)
    (hknown : ∀ k ∈ vTxHashes ++ extra_txn, ∀ e ∈ shorttxids, e.1 = cmpctblock.getShortID env k.1 →
      P e.2.toNat (some k.2)) :
    ∃ s s', scanMempool env cmpctblock shorttxids vTxHashes ⟨placed,
    List.replicate placed.length false, 0⟩ = .ok s ∧
      scanExtra env cmpctblock shorttxids extra_txn s = .ok s' ∧ ScanOk placed.length P s' := by
  have hstart : ScanOk placed.length P ⟨placed, List.replicate placed.length false, 0⟩ :=
    ⟨rfl, by simp, hbase⟩
  have hindices := fun e he => And.intro (hrange e he) (hnone e he)
  obtain ⟨s, hpool, hs⟩ := scanKnown_spec hstart hindices fun k hk => hknown k (mem_append_left _ hk)
  obtain ⟨s', hextra, hs'⟩ := scanKnown_spec hs hindices fun k hk => hknown k (mem_append_right _ hk)
  exact ⟨s, s', hpool, hextra, hs'⟩

def Sized (cmpctblock : CBlockHeaderAndShortTxIDs) : Prop :=
  (cmpctblock.header.isNull || (cmpctblock.shorttxids.isEmpty && cmpctblock.prefilledtxn.isEmpty)) =
    false ∧ cmpctblock.blockTxCount ≤ MAX_BLOCK_WEIGHT / MIN_SERIALIZABLE_TRANSACTION_WEIGHT

section
variable (vTxHashes extra_txn : List (Uint256 × CTransaction)) (hsized : Sized cmpctblock)
  (hplace : placeTransactions cmpctblock = .ok placed)
include hsized hplace

theorem initData_eq (hbind : bindIndices env cmpctblock placed = .ok shorttxids)
    (hsize : shorttxids.length = cmpctblock.shorttxids.length)
    (hpool : scanMempool env cmpctblock shorttxids vTxHashes ⟨placed,
    List.replicate placed.length false, 0⟩ = .ok s) (hextra :
    scanExtra env cmpctblock shorttxids extra_txn s = .ok s') :
    initData env cmpctblock vTxHashes extra_txn = .ok ⟨cmpctblock.header, s'.txn_available⟩ := by
  rw [initData, if_neg (by simp [hsized.1]), if_neg (Nat.not_lt.mpr hsized.2), hplace]
  simp only [bind, Except.bind, hbind]
  rw [if_neg (not_not.mpr hsize)]
  simp only [hpool, hextra]

theorem initData_accepts (hplaced : PlacedBy cmpctblock placed)
    (hbind : bindIndices env cmpctblock placed = .ok (assignAll [] (shortIndices cmpctblock)))
    (hsize : (assignAll [] (shortIndices cmpctblock)).length = cmpctblock.shorttxids.length) :
    ∃ partialBlock, initData env cmpctblock vTxHashes extra_txn = .ok partialBlock ∧
      Accepted env cmpctblock (vTxHashes ++ extra_txn) placed
      (assignAll [] (shortIndices cmpctblock)) partialBlock := by
  obtain ⟨hassigned, hnodup⟩ := assigned_eq hplaced hsize
  generalize assignAll [] _ = shorttxids at hbind hassigned hsize ⊢
  have hlength : placed.length = cmpctblock.blockTxCount := by simp [hplaced.length]
  have hrange : ∀ e ∈ shorttxids, e.2.toNat < placed.length := by
    intro e he
    rw [hassigned] at he
    obtain ⟨⟨shortid, k⟩, hmem, rfl⟩ := List.mem_map.mp he
    rw [hlength]
    exact (Nat.mod_le k _).trans_lt (mem_remaining (of_mem_zip hmem).2).1
  obtain ⟨s, s', hpool, hextra, hs'⟩ := @scans_spec env cmpctblock placed shorttxids
    vTxHashes extra_txn (fun _ _ => True) hrange (by simp) (by simp) (by simp)
  refine ⟨_, initData_eq _ _ hsized hplace hbind hsize hpool hextra, hplaced, hassigned, hnodup, rfl,
    hs'.available.trans hlength, ?_⟩
  intro P hbase hnone hknown
  obtain ⟨t, t', hpool', hextra', ht'⟩ := scans_spec hrange hbase hnone hknown
  obtain rfl := Except.ok.inj (hpool.symm.trans hpool')
  obtain rfl := Except.ok.inj (hextra.symm.trans hextra')
  exact ht'.slots

end

theorem initData_cases (env : RelayEnv) (cmpctblock : CBlockHeaderAndShortTxIDs)
    (vTxHashes extra_txn : List (Uint256 × CTransaction)) :
    (∃ s, initData env cmpctblock vTxHashes extra_txn = .error (.status s)) ∨
    (initData env cmpctblock vTxHashes extra_txn = .error .loops ∧ 2 ^ 16 < cmpctblock.blockTxCount) ∨
    ∃ placed shorttxids partialBlock, placeTransactions cmpctblock = .ok placed ∧
      bindIndices env cmpctblock placed = .ok shorttxids ∧
      initData env cmpctblock vTxHashes extra_txn = .ok partialBlock ∧
      Accepted env cmpctblock (vTxHashes ++ extra_txn) placed shorttxids partialBlock := by
  by_cases hnull : (cmpctblock.header.isNull || (cmpctblock.shorttxids.isEmpty &&
    cmpctblock.prefilledtxn.isEmpty)) = true
  · exact .inl ⟨.invalid, by rw [initData, if_pos hnull]⟩
  by_cases hweight : cmpctblock.blockTxCount > MAX_BLOCK_WEIGHT / MIN_SERIALIZABLE_TRANSACTION_WEIGHT
  · exact .inl ⟨.invalid, by rw [initData, if_neg hnull, if_pos hweight]⟩
  have hsized : Sized cmpctblock := ⟨by simpa using hnull, Nat.not_lt.mp hweight⟩
  rcases placeTransactions_spec cmpctblock with ⟨s, hplace⟩ | ⟨placed, hplace, hplaced⟩
  · exact .inl ⟨s, by simp [initData, hnull, hweight, hplace, bind, Except.bind]⟩
  rcases @bindIndices_spec env cmpctblock placed hplaced with ⟨hbind, -⟩ | ⟨hbind, -, hmany⟩ | hbind
  · exact .inl ⟨.failed, by simp [initData, hnull, hweight, hplace, hbind, bind, Except.bind]⟩
  · exact .inr (.inl ⟨by simp [initData, hnull, hweight, hplace, hbind, bind, Except.bind], hmany⟩)
  by_cases hsize : (assignAll [] (shortIndices cmpctblock)).length = cmpctblock.shorttxids.length
  · obtain ⟨partialBlock, hinit, haccepted⟩ :=
      initData_accepts vTxHashes extra_txn hsized hplace hplaced hbind hsize
    exact .inr (.inr ⟨placed, _, partialBlock, hplace, hbind, hinit, haccepted⟩)
  · refine .inl ⟨.failed, ?_⟩
    rw [initData, if_neg hnull, if_neg hweight, hplace]
    simp only [bind, Except.bind, hbind]
    rw [if_pos hsize]

/-- Each prefilled transaction is at its index, the short ids are bound to the remaining indices
one to one and in order, and at such an index is nothing or a known transaction with the short
id that is bound to it. -/
structure PositionsRight (env : RelayEnv) (cmpctblock : CBlockHeaderAndShortTxIDs)
    (known : List (Uint256 × CTransaction)) (shorttxids : ShortTxIDs)
    (txn_available : List (Option CTransaction)) : Prop where
  length : txn_available.length = cmpctblock.blockTxCount
  prefilled : ∀ e ∈ placements 0 cmpctblock.prefilledtxn, txn_available[e.1]? = some (some e.2)
  bound : shorttxids.map (fun e => (e.1, e.2.toNat)) = cmpctblock.shorttxids.zip
    (remaining cmpctblock)
  bijective : cmpctblock.shorttxids.Nodup ∧ cmpctblock.shorttxids.length =
    (remaining cmpctblock).length
  matched : ∀ e ∈ cmpctblock.shorttxids.zip (remaining cmpctblock), txn_available[e.2]? = some none ∨
    ∃ k ∈ known, cmpctblock.getShortID env k.1 = e.1 ∧ txn_available[e.2]? = some (some k.2)

structure SlotRight (env : RelayEnv) (cmpctblock : CBlockHeaderAndShortTxIDs)
    (known : List (Uint256 × CTransaction)) (index : Nat) (slot : Option CTransaction) : Prop where
  prefilled : ∀ e ∈ placements 0 cmpctblock.prefilledtxn, e.1 = index → slot = some e.2
  matched : ∀ e ∈ cmpctblock.shorttxids.zip (remaining cmpctblock), e.2 = index →
    slot = none ∨ ∃ k ∈ known, cmpctblock.getShortID env k.1 = e.1 ∧ slot = some k.2

section
variable {known : List (Uint256 × CTransaction)} {shorttxids : ShortTxIDs}
    {partialBlock : PartiallyDownloadedBlock}
  (h : Accepted env cmpctblock known placed shorttxids partialBlock)
    (hfew : cmpctblock.blockTxCount ≤ 2 ^ 16)
include h hfew

theorem Accepted.slotRight :
    ∀ k slot, partialBlock.txn_available[k]? = some slot → SlotRight env cmpctblock known k slot := by
  have hshort : ∀ e ∈ shorttxids, (e.1, e.2.toNat) ∈ shortIndices cmpctblock := by
    intro e he
    rw [h.assigned] at he
    obtain ⟨⟨shortid, k⟩, hmem, rfl⟩ := List.mem_map.mp he
    have hlt := (mem_remaining (of_mem_zip hmem).2).1
    rwa [BitVec.toNat_ofNat, Nat.mod_eq_of_lt (by omega)]
  have hfree : ∀ e ∈ shortIndices cmpctblock, ∀ p ∈ placements 0 cmpctblock.prefilledtxn,
    p.1 ≠ e.2 := by
    rintro e he p hp heq
    exact (mem_remaining (of_mem_zip he).2).2 (heq ▸ List.mem_map_of_mem hp)
  -- an index is bound to one short id
  have hunique : ∀ e ∈ shortIndices cmpctblock, ∀ e' ∈ shortIndices cmpctblock,
    e.2 = e'.2 → e = e' := by
    intro e he e' he' heq
    refine inj_on_of_nodup_map ?_ he he' heq
    rw [map_snd_zip h.prefilled.length_remaining.le]
    exact nodup_remaining
  refine h.slots _ ?_ ?_ ?_
  · intro k slot hslot
    constructor
    · rintro e he rfl
      exact Option.some.inj (hslot.symm.trans (h.prefilled.here e he))
    · rintro e he rfl
      obtain ⟨hlt, hnot⟩ := mem_remaining (of_mem_zip he).2
      rw [h.prefilled.elsewhere _ hnot] at hslot
      left
      simpa [hlt] using hslot.symm
  · intro e he
    constructor
    · intro p hp heq
      exact absurd heq (hfree _ (hshort e he) p hp)
    · exact fun _ _ _ => .inl rfl
  · intro k hk e he hmatch
    constructor
    · intro p hp heq
      exact absurd heq (hfree _ (hshort e he) p hp)
    · intro e' he' heq
      obtain rfl := hunique e' he' _ (hshort e he) heq
      exact .inr ⟨k, hk, hmatch.symm, rfl⟩

theorem Accepted.positionsRight :
    PositionsRight env cmpctblock known shorttxids partialBlock.txn_available := by
  have hread : ∀ k < cmpctblock.blockTxCount, ∃ slot, partialBlock.txn_available[k]? = some slot ∧
      SlotRight env cmpctblock known k slot := by
    intro k hk
    have hslot := getElem?_eq_getElem (h.length ▸ hk : k < partialBlock.txn_available.length)
    exact ⟨_, hslot, h.slotRight hfew k _ hslot⟩
  refine ⟨h.length, ?_, ?_, ⟨h.nodup, h.prefilled.length_remaining.symm⟩, ?_⟩
  · intro e he
    obtain ⟨slot, hslot, hright⟩ := hread e.1 (by simpa using (h.prefilled.bound e he).2)
    rw [hslot, hright.prefilled e he rfl]
  · rw [h.assigned, List.map_map]
    refine (map_congr_left ?_).trans (List.map_id _)
    intro e he
    have hlt := (mem_remaining (of_mem_zip he).2).1
    simp [Nat.mod_eq_of_lt (show e.2 < 65536 by omega)]
  · intro e he
    obtain ⟨slot, hslot, hright⟩ := hread e.2 (mem_remaining (of_mem_zip he).2).1
    rcases hright.matched e he rfl with rfl | ⟨k, hk, hid, rfl⟩
    · exact .inl hslot
    · exact .inr ⟨k, hk, hid, hslot⟩

end

theorem blockTxCount_le_of_bound (hplaced : PlacedBy cmpctblock placed) {shorttxids : ShortTxIDs}
    (hbound : shorttxids.map (fun e => (e.1, e.2.toNat)) = shortIndices cmpctblock) :
    cmpctblock.blockTxCount ≤ 2 ^ 16 := by
  by_contra hmany
  have hlast : cmpctblock.blockTxCount - 1 ∈ remaining cmpctblock := by
    simp only [remaining, mem_filter, mem_range, decide_eq_true_eq]
    refine ⟨by omega, ?_⟩
    intro hmem
    obtain ⟨e, he, heq⟩ := List.mem_map.mp hmem
    have hmax := (hplaced.bound e he).1
    omega
  rw [← map_snd_zip hplaced.length_remaining.le, ← shortIndices, ← hbound, List.map_map] at hlast
  obtain ⟨e, -, heq⟩ := List.mem_map.mp hlast
  simp only [Function.comp] at heq
  omega

/-- No access is outside of the vectors, and a message that is not refused has its positions
right exactly when it has at most `2 ^ 16` transactions. -/
theorem initData_positions_iff (env : RelayEnv) (cmpctblock : CBlockHeaderAndShortTxIDs)
    (vTxHashes extra_txn : List (Uint256 × CTransaction))
    (haccepted : ∀ s, initData env cmpctblock vTxHashes extra_txn ≠ .error (.status s)) :
    initData env cmpctblock vTxHashes extra_txn ≠ .error .outOfRange ∧
    ((∃ placed shorttxids partialBlock, placeTransactions cmpctblock = .ok placed ∧
        bindIndices env cmpctblock placed = .ok shorttxids ∧
        initData env cmpctblock vTxHashes extra_txn = .ok partialBlock ∧
        PositionsRight env cmpctblock (vTxHashes ++ extra_txn) shorttxids
        partialBlock.txn_available) ↔
      cmpctblock.blockTxCount ≤ 2 ^ 16) := by
  rcases initData_cases env cmpctblock vTxHashes extra_txn with
    ⟨s, hstatus⟩ | ⟨hloops, hmany⟩ | ⟨placed, shorttxids, partialBlock, hplace, hbind, hinit, hright⟩
  · exact absurd hstatus (haccepted s)
  · refine ⟨by simp [hloops], ?_⟩
    simp [hloops]
    omega
  · refine ⟨by simp [hinit], ?_⟩
    constructor
    · rintro ⟨_, shorttxids', _, -, -, -, hright'⟩
      exact blockTxCount_le_of_bound hright.prefilled hright'.bound
    · intro hfew
      exact ⟨placed, shorttxids, partialBlock, hplace, hbind, hinit, hright.positionsRight hfew⟩

end

def lowBitsEnv : RelayEnv where
  H _ := 0
  sha256 _ := 0
  sipHashUint256 _ _ txhash := txhash.setWidth 64
  bucketSize _ _ _ := 0

def someHeader : CBlockHeader := ⟨1, 0, 0, 0, 0, 1, 0, 0, 0⟩

def someTx (nLockTime : BitVec 32) : CTransaction :=
  ⟨1, ⟨ACTION_NONE, [], 0, []⟩, [], [⟨0, []⟩], nLockTime⟩

def smallMessage : CBlockHeaderAndShortTxIDs := ⟨someHeader, 0, [5], [⟨0, someTx 0⟩]⟩

theorem initData_positions_iff_small :
    ∃ placed shorttxids partialBlock, placeTransactions smallMessage = .ok placed ∧
      bindIndices lowBitsEnv smallMessage placed = .ok shorttxids ∧
      initData lowBitsEnv smallMessage [(5, someTx 1)] [] = .ok partialBlock ∧
      PositionsRight lowBitsEnv smallMessage ([(5, someTx 1)] ++ []) shorttxids
      partialBlock.txn_available := by
  have hinit : initData lowBitsEnv smallMessage [(5, someTx 1)] [] =
      .ok ⟨someHeader, [some (someTx 0), some (someTx 1)]⟩ := by decide +kernel
  have haccepted : ∀ s, initData lowBitsEnv smallMessage [(5, someTx 1)] [] ≠ .error (.status s) := by
    rw [hinit]
    exact fun s => nofun
  exact (initData_positions_iff _ _ _ _ haccepted).2.mpr (by decide)

def countedMessage (n : Nat) : CBlockHeaderAndShortTxIDs :=
  ⟨someHeader, 0, (List.range n).map (BitVec.ofNat 64), []⟩

theorem blockTxCount_counted (n : Nat) : (countedMessage n).blockTxCount = n := by
  simp [CBlockHeaderAndShortTxIDs.blockTxCount, countedMessage]

theorem remaining_counted (n : Nat) : remaining (countedMessage n) = List.range n := by
  rw [remaining, blockTxCount_counted]
  simp [positions, placements, countedMessage]

theorem nodup_counted (h : n ≤ 2 ^ 64) : (countedMessage n).shorttxids.Nodup := by
  refine Nodup.map_on ?_ nodup_range
  intro i hi j hj heq
  have hlt := mem_range.mp hi
  have hlt' := mem_range.mp hj
  have htoNat := congrArg BitVec.toNat heq
  rwa [BitVec.toNat_ofNat, BitVec.toNat_ofNat, Nat.mod_eq_of_lt (hlt.trans_le h),
    Nat.mod_eq_of_lt (hlt'.trans_le h)]
    at htoNat

def countedIndices (n : Nat) : ShortTxIDs :=
  (List.range n).map fun i => (BitVec.ofNat 64 i, BitVec.ofNat 16 i)

theorem bindIndices_counted (h : n ≤ 2 ^ 64) (hplaced : PlacedBy (countedMessage n) placed) :
    bindIndices lowBitsEnv (countedMessage n) placed = .ok (countedIndices n) := by
  have hnodup : (([] : ShortTxIDs).map Prod.fst ++
      (shortIndices (countedMessage n)).map Prod.fst).Nodup := by
    rw [map_fst_zip hplaced.length_remaining.ge]
    exact nodup_counted h
  rcases @bindIndices_spec lowBitsEnv _ _ hplaced with ⟨-, before, e, after, -, hfull⟩ | ⟨-,
    hmany, -⟩ | hok
  · exact absurd hfull (Nat.not_lt_zero 12)
  · exact absurd hmany (by simp [countedMessage])
  · rw [hok, assignAll_of_nodup hnodup, shortIndices, remaining_counted, nil_append]
    simp only [countedMessage, zip_eq_zipWith, zipWith_map_left, zipWith_self, List.map_map]
    rfl

theorem scanMempool_counted (h : 2 ^ 16 < n) (hmax : n ≤ 2 ^ 64) :
    scanMempool lowBitsEnv (countedMessage n) (countedIndices n) [(2 ^ 16, someTx 1)]
      ⟨List.replicate n none, List.replicate
      (List.replicate n (none : Option CTransaction)).length false, 0⟩ =
        .ok ⟨(List.replicate n none).set 0 (some (someTx 1)),
        (List.replicate n false).set 0 true, 1⟩ := by
  have hfind : Table.find Prod.fst (countedIndices n) (2 ^ 16) = some (2 ^ 16, 0) := by
    refine Table.find_of_mem ?_ (List.mem_map.mpr ⟨2 ^ 16, mem_range.mpr h, rfl⟩)
    rw [List.map_map]
    exact nodup_counted hmax
  have hid : (countedMessage n).getShortID lowBitsEnv (2 ^ 16) = 2 ^ 16 := by
    change CBlockHeaderAndShortTxIDs.shortID lowBitsEnv someHeader 0 (2 ^ 16) = 2 ^ 16
    decide
  have hpos : 0 < n := Nat.zero_lt_of_lt h
  simp only [scanMempool, scanKnown, lookAt, hid, hfind]
  simp [offer, readAt, writeAt, hpos, bind, Except.bind]

theorem initData_counted (h : 2 ^ 16 < n) (hmax : n ≤ 100000) :
    initData lowBitsEnv (countedMessage n) [(2 ^ 16, someTx 1)] [] =
      .ok ⟨someHeader, (List.replicate n none).set 0 (some (someTx 1))⟩ := by
  have hplace : placeTransactions (countedMessage n) = .ok (List.replicate n none) := by
    rw [placeTransactions, blockTxCount_counted]
    rfl
  have hsized : Sized (countedMessage n) := by
    refine ⟨?_, by rw [blockTxCount_counted]; exact hmax⟩
    simp [countedMessage, CBlockHeader.isNull, someHeader]
    omega
  have hbound := hmax.trans (by decide : 100000 ≤ 2 ^ 64)
  exact initData_eq _ [] hsized hplace (bindIndices_counted hbound (placedBy_of_ok hplace))
    (by simp [countedIndices, countedMessage]) (scanMempool_counted h hbound) rfl

theorem initData_wrong_index :
    ∃ partialBlock, initData lowBitsEnv (countedMessage (2 ^ 16 + 1)) [(2 ^ 16, someTx 1)] [] =
    .ok partialBlock ∧
      partialBlock.txn_available[0]? = some (some (someTx 1)) ∧
      (countedMessage (2 ^ 16 + 1)).shorttxids[0]? = some 0 ∧
      (countedMessage (2 ^ 16 + 1)).getShortID lowBitsEnv (2 ^ 16) ≠ 0 := by
  have hfirst : ∀ n, (countedMessage (n + 1)).shorttxids[0]? = some 0 :=
    fun n => by simp [countedMessage]
  have hslot : ∀ n, ((List.replicate (n + 1) none).set 0 (some (someTx 1)))[0]? =
    some (some (someTx 1)) :=
    fun n => by simp
  exact ⟨_, initData_counted (Nat.lt_succ_self _) (by decide), hslot _, hfirst _, by decide⟩

end InitData

end OurChain
