import OurChain.Consensus.MerkleRoot

/-!
# Mutated merkle trees

Since an odd node is paired with itself, a list and the same list with its tail written
out twice have one root. `ComputeMerkleRoot` reports such lists as mutated: the flag is
set if two complete neighbours are equal, and without collisions of the hash every two
lists with one root show such neighbours in one of their trees.

A hash of 512 bits to 256 is never injective, so the absence of collisions is asked of
the pairs that the two computations form.
-/

namespace OurChain

variable {H : Bytes → Uint256} {leaves leaves' : List Uint256}

/-- The pairs that the computation for `leaves` hashes. -/
def merklePairs (H : Bytes → Uint256) (leaves : List Uint256) : List (Uint256 × Uint256) :=
  MerkleTree.pairs (hashPair H) (fun i => leaves.getD i 0) leaves.length

/-- Different pairs have different hashes, and no leaf is the hash of a pair. -/
structure MerkleCollisionFree (H : Bytes → Uint256) (leaves leaves' : List Uint256) : Prop where
  inj : ∀ p ∈ merklePairs H leaves, ∀ p' ∈ merklePairs H leaves',
    hashPair H p.1 p.2 = hashPair H p'.1 p'.2 → p = p'
  left : ∀ leaf ∈ leaves, ∀ p ∈ merklePairs H leaves', leaf ≠ hashPair H p.1 p.2
  right : ∀ leaf ∈ leaves', ∀ p ∈ merklePairs H leaves, leaf ≠ hashPair H p.1 p.2

theorem MerkleCollisionFree.tree (h : MerkleCollisionFree H leaves leaves') :
    MerkleTree.NoCollision (hashPair H) (fun i => leaves.getD i 0) leaves.length
      (fun i => leaves'.getD i 0) leaves'.length where
  inj := h.inj
  left i hi p hp := by
    rw [List.getD_eq_getElem _ _ hi]
    exact h.left _ (List.getElem_mem hi) p hp
  right i hi p hp := by
    rw [List.getD_eq_getElem _ _ hi]
    exact h.right _ (List.getElem_mem hi) p hp

theorem exists_getD_ne (hne : leaves ≠ leaves') (hlength : leaves.length = leaves'.length) :
    ∃ i < leaves.length, leaves.getD i 0 ≠ leaves'.getD i 0 := by
  by_contra hall
  refine hne (List.ext_getElem hlength fun i hi hi' => ?_)
  by_contra hdiff
  refine hall ⟨i, hi, ?_⟩
  rwa [List.getD_eq_getElem _ _ hi, List.getD_eq_getElem _ _ hi']

/-- Of two lists with one root one is reported as mutated, in particular a list in which
the tail of an unmutated one is repeated. -/
theorem computeMerkleRoot_mutated (hne : leaves ≠ []) (hne' : leaves' ≠ [])
    (hlength : leaves.length < 2 ^ 31) (hlength' : leaves'.length < 2 ^ 31)
    (hfree : MerkleCollisionFree H leaves leaves') (hdiff : leaves ≠ leaves')
    (hroot : (computeMerkleRoot H leaves).1 = (computeMerkleRoot H leaves').1) :
    ((computeMerkleRoot H leaves).2 = true ∨ (computeMerkleRoot H leaves').2 = true) ∧
      ∀ k, leaves' = leaves ++ leaves.drop k → (computeMerkleRoot H leaves).2 = false →
        (computeMerkleRoot H leaves').2 = true := by
  obtain ⟨hvalue, hflag⟩ := computeMerkleRoot_spec (H := H) hne hlength
  obtain ⟨hvalue', hflag'⟩ := computeMerkleRoot_spec (H := H) hne' hlength'
  have hone : (computeMerkleRoot H leaves).2 = true ∨ (computeMerkleRoot H leaves').2 = true := by
    rw [hflag, hflag']
    refine hfree.tree.duplicated (List.length_pos_of_ne_nil hne) (List.length_pos_of_ne_nil hne') ?_
      (exists_getD_ne hdiff)
    rw [← hvalue, ← hvalue', hroot]
  refine ⟨hone, fun k _ hclean => hone.resolve_left ?_⟩
  rw [hclean]
  exact Bool.false_ne_true

/-- A hash of few bits that has no collision among the pairs below. -/
def smallHash (bytes : Bytes) : Uint256 := BitVec.ofNat 256 (1000 + ofLeBytes bytes % 1009)

theorem hashPair_small : hashPair smallHash 1 2 = 1978 ∧ hashPair smallHash 3 3 = 1964 ∧
    hashPair smallHash 1978 1964 = 1824 := by
  decide +kernel

theorem height_small : MerkleTree.height [(1 : Uint256), 2, 3].length = 2 ∧
    MerkleTree.height [(1 : Uint256), 2, 3, 3].length = 2 :=
  ⟨(MerkleTree.eq_height (by decide) (by decide)).symm,
    (MerkleTree.eq_height (by decide) (by decide)).symm⟩

theorem merklePairs_small : merklePairs smallHash [1, 2, 3] = [(1, 2), (3, 3), (1978, 1964)] ∧
    merklePairs smallHash [1, 2, 3, 3] = [(1, 2), (3, 3), (1978, 1964)] := by
  obtain ⟨hthree, hfour⟩ := height_small
  obtain ⟨hleft, hright, -⟩ := hashPair_small
  rw [← hleft, ← hright, merklePairs, merklePairs, MerkleTree.pairs, MerkleTree.pairs, hthree, hfour]
  exact ⟨rfl, rfl⟩

theorem computeMerkleRoot_mutated_four :
    (computeMerkleRoot smallHash [1, 2, 3]).1 = (computeMerkleRoot smallHash [1, 2, 3, 3]).1 ∧
      (computeMerkleRoot smallHash [1, 2, 3]).2 = false ∧
      (computeMerkleRoot smallHash [1, 2, 3, 3]).2 = true := by
  obtain ⟨hthree, hfour⟩ := height_small
  obtain ⟨hleft, hright, htop⟩ := hashPair_small
  obtain ⟨hpairs, hpairs'⟩ := merklePairs_small
  have hfree : MerkleCollisionFree smallHash [1, 2, 3] [1, 2, 3, 3] := by
    constructor
    all_goals
      simp only [hpairs, hpairs', List.forall_mem_cons, hleft, hright, htop]
      simp
  obtain ⟨hvalue, hflag⟩ := computeMerkleRoot_spec (H := smallHash)
    (show ([1, 2, 3] : List Uint256) ≠ [] by simp) (by simp)
  have hvalue' := (computeMerkleRoot_spec (H := smallHash)
    (show ([1, 2, 3, 3] : List Uint256) ≠ [] by simp) (by simp)).1
  have hroot : (computeMerkleRoot smallHash [1, 2, 3]).1 =
    (computeMerkleRoot smallHash [1, 2, 3, 3]).1 := by
    rw [hvalue, hvalue', MerkleTree.root, MerkleTree.root, hthree, hfour]
    rfl
  have hclean : (computeMerkleRoot smallHash [1, 2, 3]).2 = false := by
    rw [Bool.eq_false_iff, Ne, hflag]
    rintro ⟨j, i, hle, heq⟩
    simp only [List.length_cons, List.length_nil] at hle
    have hj : j = 0 := by
      by_contra hj
      have hpow := Nat.pow_le_pow_right two_pos (Nat.one_le_iff_ne_zero.mpr hj)
      nlinarith
    subst hj
    obtain rfl : i = 0 := by omega
    exact absurd heq (by decide)
  have h := computeMerkleRoot_mutated (by simp) (by simp) (by simp) (by simp) hfree (by simp) hroot
  exact ⟨hroot, hclean, h.2 2 rfl hclean⟩

end OurChain
