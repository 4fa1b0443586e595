import OurChain.MerkleBlock

/-!
# Partial merkle trees from a peer

What `ExtractMatches` returns for a tree with arbitrary flags and hashes. The shape of the
walk is fixed by the number of transactions, so a walk that ends in the root of a list
has met the nodes of that list on its way, down to the leaves it reports.

As for `ComputeMerkleRoot`, the absence of collisions is asked of the pairs that the two
computations hash.
-/

namespace OurChain.CPartialMerkleTree

open List

variable {H : Bytes → Uint256} {t : CPartialMerkleTree} {vTxid : List Uint256} {s s' s'' : Extraction}

def traversedPairs (H : Bytes → Uint256) (t : CPartialMerkleTree) :
    Nat → Nat → Extraction → List (Uint256 × Uint256)
  | 0, _, _ => []
  | height + 1, pos, s =>
    if t.vBits[s.nBitsUsed]? = some true then
      let s := { s with nBitsUsed := s.nBitsUsed + 1 }
      let (left, s') := traverseAndExtract H t height (2 * pos) s
      traversedPairs H t height (2 * pos) s ++
        if 2 * pos + 1 < calcTreeWidth t.nTransactions height then
          (left, (traverseAndExtract H t height (2 * pos + 1) s').1) :: traversedPairs H t height
            (2 * pos + 1) s'
        else [(left, left)]
    else []

def extractedPairs (H : Bytes → Uint256) (t : CPartialMerkleTree) (vnIndex : List Nat) :
    List (Uint256 × Uint256) :=
  traversedPairs H t (treeHeight t.nTransactions) 0 ⟨0, 0, [], vnIndex, t.fBad⟩

/-- What `s'` reports in addition to `s` are transactions of the list at their positions. -/
def Reports (vTxid : List Uint256) (s s' : Extraction) : Prop :=
  ∃ txids positions, s'.vMatch = s.vMatch ++ txids ∧ s'.vnIndex = s.vnIndex ++ positions ∧
    List.Forall₂ (fun txid position => vTxid[position]? = some txid) txids positions

theorem Reports.of_same (hmatch : s'.vMatch = s.vMatch) (hindex : s'.vnIndex = s.vnIndex) :
    Reports vTxid s s' :=
  ⟨[], [], by simp [hmatch], by simp [hindex], .nil⟩

theorem Reports.trans (h : Reports vTxid s s') (h' : Reports vTxid s' s'') : Reports vTxid s s'' := by
  obtain ⟨txids, positions, hmatch, hindex, hright⟩ := h
  obtain ⟨txids', positions', hmatch', hindex', hright'⟩ := h'
  refine ⟨txids ++ txids', positions ++ positions', ?_, ?_, rel_append hright hright'⟩
  · rw [hmatch', hmatch, append_assoc]
  · rw [hindex', hindex, append_assoc]

theorem Reports.marked (h : Reports vTxid s s') (bad : Prop) [Decidable bad] :
    Reports vTxid s (if bad then { s' with fBad := true } else s') := by
  split
  · exact h.trans (.of_same rfl rfl)
  · exact h

theorem traverseAndExtract_reports_end (hend : l = 0 ∨ t.vBits[s.nBitsUsed]? ≠ some true)
    (hleaf : l = 0 → vTxid[pos]? = some (traverseAndExtract H t l pos s).1) :
    Reports vTxid s (traverseAndExtract H t l pos s).2 := by
  cases hbit : t.vBits[s.nBitsUsed]? with
  | none =>
    unfold traverseAndExtract
    simp only [hbit]
    exact .of_same rfl rfl
  | some bit =>
    have hstop : l = 0 ∨ bit = false := by simpa [hbit] using hend
    cases hhash : t.vHash[s.nHashUsed]? with
    | none =>
      unfold traverseAndExtract
      rcases hstop with rfl | rfl <;> simp only [hbit, hhash] <;> exact .of_same rfl rfl
    | some hash =>
      rw [traverseAndExtract_stop hbit hstop hhash] at hleaf ⊢
      split
      · rename_i hmatched
        refine ⟨[hash], [pos], rfl, rfl, .cons ?_ .nil⟩
        simpa [hmatched] using hleaf
      · exact .of_same rfl rfl

theorem traverseAndExtract_reports (hn : t.nTransactions.toNat = vTxid.length)
    (hmax : vTxid.length ≤ 2 ^ 30) (hl : l ≤ MerkleTree.height vTxid.length)
    (hpos : pos * 2 ^ l < vTxid.length) (hinj : ∀ p ∈ traversedPairs H t l pos s,
    ∀ p' ∈ merklePairs H vTxid,
      hashPair H p.1 p.2 = hashPair H p'.1 p'.2 → p = p')
    (hnode : (traverseAndExtract H t l pos s).1 = merkleNode H vTxid l pos) :
    Reports vTxid s (traverseAndExtract H t l pos s).2 := by
  induction l generalizing pos s with
  | zero =>
    refine traverseAndExtract_reports_end (.inl rfl) fun _ => ?_
    have hlt : pos < vTxid.length := by simpa using hpos
    rw [hnode, merkleNode, MerkleTree.nodeAt, getD_eq_getElem _ _ hlt, getElem?_eq_getElem hlt]
  | succ l ih =>
    by_cases hbit : t.vBits[s.nBitsUsed]? = some true
    · have htop := height_le hmax
      have hin : pos < MerkleTree.width vTxid.length (l + 1) := MerkleTree.lt_width_iff.mpr hpos
      have hleft : 2 * pos * 2 ^ l < vTxid.length := by
        rw [pow_succ] at hpos
        linarith
      have hwidth : 2 * pos + 1 < calcTreeWidth t.nTransactions l ↔
        2 * pos + 1 < MerkleTree.width vTxid.length l := by
        rw [calcTreeWidth_eq (by omega) (by omega), hn]
      have hpair := fun p hp => hinj p hp _ (MerkleTree.mem_pairs hl hin)
      simp only [traversedPairs, if_pos hbit, hwidth] at hinj hpair
      simp only [traverseAndExtract_descend hbit, hwidth] at hnode ⊢
      rw [merkleNode, MerkleTree.nodeAt_succ] at hnode
      have hfirst := ih (s := { s with nBitsUsed := s.nBitsUsed + 1 }) (by omega) hleft
        fun p hp => hinj p (mem_append_left _ hp)
      by_cases hright : 2 * pos + 1 < MerkleTree.width vTxid.length l
      · simp only [if_pos hright, MerkleTree.right] at hinj hpair hnode ⊢
        obtain ⟨hleftNode, hrightNode⟩ :=
          Prod.mk.inj (hpair _ (mem_append_right _ mem_cons_self) hnode)
        have hsecond := ih
          (s := (traverseAndExtract H t l (2 * pos) { s with nBitsUsed := s.nBitsUsed + 1 }).2)
          (by omega) (MerkleTree.lt_width_iff.mp hright)
          (fun p hp => hinj p (mem_append_right _ (mem_cons_of_mem _ hp))) hrightNode
        exact ((hfirst hleftNode).trans hsecond).marked _
      · simp only [if_neg hright, MerkleTree.right] at hinj hpair hnode ⊢
        obtain ⟨hleftNode, -⟩ := Prod.mk.inj (hpair _ (mem_append_right _ mem_cons_self) hnode)
        exact hfirst hleftNode
    · exact traverseAndExtract_reports_end (.inr hbit) (by simp)

theorem extractMatches_of_ne_zero {vnIndex : List Nat} (hne : (extractMatches H t vnIndex).1 ≠ 0) :
    0 < t.nTransactions.toNat ∧ t.nTransactions.toNat ≤ MAX_BLOCK_WEIGHT / MIN_TRANSACTION_WEIGHT ∧
      extractMatches H t vnIndex =
        traverseAndExtract H t (treeHeight t.nTransactions) 0 ⟨0, 0, [], vnIndex, t.fBad⟩ := by
  by_cases hzero : t.nTransactions = 0
  · rw [extractMatches, if_pos hzero] at hne
    exact absurd rfl hne
  have hpos : 0 < t.nTransactions.toNat := Nat.pos_of_ne_zero fun h => hzero (BitVec.toNat_inj.mp h)
  simp only [extractMatches, if_neg hzero] at hne ⊢
  split_ifs at hne ⊢ with hmost
  all_goals first
    | exact absurd rfl hne
    | exact ⟨hpos, Nat.le_of_not_lt hmost, rfl⟩

/-- Partial merkle trees are sound: a peer that makes `ExtractMatches` return the root of a
list has only transactions of that list reported, at their positions. -/
theorem extractMatches_sound (H : Bytes → Uint256) (vTxid : List Uint256) (t : CPartialMerkleTree)
    (vnIndex : List Nat) (hn : t.nTransactions.toNat = vTxid.length)
    (hinj : ∀ p ∈ extractedPairs H t vnIndex, ∀ p' ∈ merklePairs H vTxid,
      hashPair H p.1 p.2 = hashPair H p'.1 p'.2 → p = p')
    (hroot : (extractMatches H t vnIndex).1 = (computeMerkleRoot H vTxid).1)
    (hne : (computeMerkleRoot H vTxid).1 ≠ 0) :
    ∃ positions, (extractMatches H t vnIndex).2.vnIndex = vnIndex ++ positions ∧
      List.Forall₂ (fun txid position => vTxid[position]? = some txid)
        (extractMatches H t vnIndex).2.vMatch positions := by
  obtain ⟨hpos, hsize, hwalk⟩ := extractMatches_of_ne_zero (hroot ▸ hne)
  have hmost : MAX_BLOCK_WEIGHT / MIN_TRANSACTION_WEIGHT = 16666 := by decide
  have hlist : vTxid ≠ [] := ne_nil_of_length_pos (hn ▸ hpos)
  have hheight : treeHeight t.nTransactions = MerkleTree.height vTxid.length := by
    rw [treeHeight_eq hpos (by omega), hn]
  rw [hwalk, (computeMerkleRoot_spec hlist (by omega)).1, hheight] at hroot
  rw [extractedPairs, hheight] at hinj
  obtain ⟨txids, positions, hmatch, hindex, hright⟩ :=
    traverseAndExtract_reports hn (by omega) le_rfl (by omega) hinj hroot
  rw [hwalk, hheight, hmatch, hindex]
  exact ⟨positions, rfl, hright⟩

def provesThird : CPartialMerkleTree := ⟨3, [true, false, true, true], [1978, 3], false⟩

theorem extractMatches_sound_third :
    (extractMatches smallHash provesThird [7]).1 = (computeMerkleRoot smallHash [1, 2, 3]).1 ∧
      ∃ positions, (extractMatches smallHash provesThird [7]).2.vnIndex = [7] ++ positions ∧
        List.Forall₂ (fun txid position => ([1, 2, 3] : List Uint256)[position]? = some txid)
          (extractMatches smallHash provesThird [7]).2.vMatch positions := by
  have hroot : (computeMerkleRoot smallHash [1, 2, 3]).1 = 1824 := by decide +kernel
  have hresult : (extractMatches smallHash provesThird [7]).1 = 1824 := by decide +kernel
  have hpairs : extractedPairs smallHash provesThird [7] = [(1978, 1964), (3, 3)] := by decide +kernel
  obtain ⟨hleft, hright, htop⟩ := hashPair_small
  refine ⟨hresult.trans hroot.symm, extractMatches_sound smallHash [1, 2, 3] provesThird [7] rfl ?_
    (hresult.trans hroot.symm) (by rw [hroot]; decide)⟩
  simp only [hpairs, merklePairs_small.1, forall_mem_cons, hleft, hright, htop]
  simp

theorem smallHash_ne_zero (bytes : Bytes) : smallHash bytes ≠ 0 := by
  rw [smallHash]
  have hlt := Nat.mod_lt (ofLeBytes bytes) (show 0 < 1009 by decide)
  generalize ofLeBytes bytes % 1009 = n at hlt ⊢
  intro hzero
  have hvalue := congrArg BitVec.toNat hzero
  rw [BitVec.toNat_ofNat, Nat.mod_eq_of_lt (by omega)] at hvalue
  exact absurd hvalue (by simp)

/-- A walk that leaves a byte of flags unread fails with the result 0 and the leaf it has
reported, and 0 is the root of the list that holds only the txid 0. -/
theorem extractMatches_failed :
    ∃ bytes t, deserialize bytes = some (t, []) ∧ t.nTransactions.toNat =
    ([0] : List Uint256).length ∧
      extractedPairs smallHash t [] = [] ∧ (∀ left right, hashPair smallHash left right ≠ 0) ∧
      (extractMatches smallHash t []).1 = (computeMerkleRoot smallHash [0]).1 ∧
      (extractMatches smallHash t []).2.vMatch = [5] ∧
      (extractMatches smallHash t []).2.vnIndex = [0] := by
  have hread := deserialize_serialize ⟨1, List.replicate 16 true, [5], false⟩ []
    (by decide) (by decide)
  rw [append_nil] at hread
  exact ⟨_, _, hread, by decide, by decide +kernel, fun _ _ => smallHash_ne_zero _, by decide +kernel,
    by decide +kernel, by decide +kernel⟩

end OurChain.CPartialMerkleTree
