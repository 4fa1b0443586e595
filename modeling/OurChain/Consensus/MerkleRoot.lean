import OurChain.Consensus.Merkle
import OurChain.Lib.MerkleTree

/-!
# The streaming merkle computation

`MerkleComputation` keeps one hash for each bit that is set in the number of leaves it
has read. Each of them is a node of the tree over all leaves, so both of its phases only
ever form nodes of that tree, and the branch takes the siblings of the matching leaf.
-/

namespace OurChain

open MerkleTree

section
variable (H : Bytes → Uint256) (leaves : List Uint256)

def merkleNode (level pos : Nat) : Uint256 :=
  nodeAt (hashPair H) (fun i => leaves.getD i 0) leaves.length level pos

def merkleSiblings (pos level : Nat) : List Uint256 :=
  (List.range level).map (branchAt (hashPair H) (fun i => leaves.getD i 0) leaves.length pos)

def computeMerkleBranch (position : Nat) : List Uint256 := (merkleComputation H leaves position).2.2

def computeMerkleRootFromBranch (leaf : Uint256) (vMerkleBranch : List Uint256) (nIndex : Nat) :
    Uint256 :=
  (vMerkleBranch.foldl (fun (hash, nIndex) sibling =>
    (if nIndex % 2 = 1 then hashPair H sibling hash else hashPair H hash sibling, nIndex / 2))
    (leaf, nIndex)).1

end

section
variable {H : Bytes → Uint256} {leaves : List Uint256} {branchpos count : Nat} {c : Climber}
  {v : MerkleVars}

theorem merkleSiblings_succ (pos level : Nat) : merkleSiblings H leaves pos (level + 1) =
    merkleSiblings H leaves pos level ++
      [branchAt (hashPair H) (fun i => leaves.getD i 0) leaves.length pos level] := by
  rw [merkleSiblings, List.range_succ, List.map_append]
  rfl

theorem branchAt_right (h : pos / 2 ^ l = 2 * i + 1) :
    branchAt (hashPair H) (fun i => leaves.getD i 0) leaves.length pos l =
    merkleNode H leaves l (2 * i) := by
  rw [branchAt, MerkleTree.sibling, h, if_pos (by omega)]
  rfl

theorem branchAt_left (h : pos / 2 ^ l = 2 * i) (hin : (2 * i + 1) * 2 ^ l < leaves.length) :
    branchAt (hashPair H) (fun i => leaves.getD i 0) leaves.length pos l =
      merkleNode H leaves l (2 * i + 1) := by
  rw [branchAt, MerkleTree.sibling, h, if_neg (by omega), if_pos (lt_width_iff.mpr hin)]
  rfl

theorem branchAt_last (h : pos / 2 ^ l = 2 * i) (hout : leaves.length ≤ (2 * i + 1) * 2 ^ l) :
    branchAt (hashPair H) (fun i => leaves.getD i 0) leaves.length pos l =
    merkleNode H leaves l (2 * i) := by
  rw [branchAt, MerkleTree.sibling, h, if_neg (by omega), if_neg]
  · rfl
  · rw [lt_width_iff]
    omega

theorem mul_two_pow_div (a l k : Nat) : a * 2 ^ (l + k + 1) / 2 ^ l = a * 2 ^ k * 2 := by
  rw [pow_succ, pow_add, show a * (2 ^ l * 2 ^ k * 2) = a * 2 ^ k * 2 * 2 ^ l by ring]
  exact Nat.mul_div_cancel _ (Nat.two_pow_pos l)

theorem testBit_count (hcount : count = (q + 1) * 2 ^ l) : count.testBit l = true ↔ q % 2 = 0 := by
  rw [hcount, Nat.testBit_mul_two_pow, Nat.sub_self, Nat.testBit_zero]
  simp only [le_refl, decide_true, Bool.true_and, decide_eq_true_eq]
  omega

/-- `c` is the node at its level that ends at `count`. -/
structure Climber.At (H : Bytes → Uint256) (leaves : List Uint256) (count l q : Nat) (c : Climber) :
    Prop where
  level : c.level = l
  ends : count = (q + 1) * 2 ^ l
  inside : q * 2 ^ l < leaves.length
  hash : c.h = merkleNode H leaves l q

/-- A climber that depends on the matching leaf comes with the branch up to its level. -/
def Matched (H : Bytes → Uint256) (leaves : List Uint256) (branchpos l q : Nat)
    (branch : List Uint256) :
    Prop :=
  branchpos / 2 ^ l = q ∧ branch = merkleSiblings H leaves branchpos l

/-- What `v` holds at the levels that a climb to `count` passes. -/
structure MerkleVars.Below (H : Bytes → Uint256) (leaves : List Uint256) (branchpos count l : Nat)
    (v : MerkleVars) : Prop where
  inner : ∀ j i, l ≤ j → count = (2 * i + 2) * 2 ^ j → v.inner j = merkleNode H leaves j (2 * i)
  matched : ∀ j i, l ≤ j → count = (2 * i + 2) * 2 ^ j → v.matchlevel = some j →
    Matched H leaves branchpos j (2 * i) v.branch

structure Climbed (H : Bytes → Uint256) (leaves : List Uint256)
    (branchpos count l : Nat) (c : Climber) (v : MerkleVars) (l' q' : Nat) (c' : Climber)
    (v' : MerkleVars) : Prop where
  le : l ≤ l'
  place : c'.At H leaves count l' q'
  even : q' % 2 = 0
  inner : v'.inner = v.inner
  matchlevel : v'.matchlevel = v.matchlevel
  mutated : v'.mutated = true ↔ v.mutated = true ∨ ∃ j i, l ≤ j ∧ count = (2 * i + 2) * 2 ^ j ∧
    merkleNode H leaves j (2 * i) = merkleNode H leaves j (2 * i + 1)
  matched : c'.matchh = true → Matched H leaves branchpos l' q' v'.branch
  source : c'.matchh = true → c.matchh = true ∨ ∃ j, j < l' ∧ v.matchlevel = some j
  unmatched : c'.matchh = false → c.matchh = false ∧ v'.branch = v.branch ∧
    ∀ j, l ≤ j → j < l' → v.matchlevel ≠ some j

theorem not_even_multiple (hcount : count = (q + 1) * 2 ^ l) (hq : q % 2 = 0)
    (hle : l ≤ j) (i : Nat) :
    count ≠ (2 * i + 2) * 2 ^ j := by
  intro heq
  obtain ⟨d, rfl⟩ := Nat.exists_eq_add_of_le hle
  rw [hcount, pow_add, mul_left_comm, mul_comm] at heq
  have hodd := Nat.eq_of_mul_eq_mul_left (Nat.two_pow_pos l) heq
  have heven : 2 ∣ q + 1 := by
    rw [hodd, show 2 * i + 2 = 2 * (i + 1) by ring, mul_assoc]
    exact Nat.dvd_mul_right _ _
  omega

theorem Climber.At.up (h : Climber.At H leaves count l (2 * i + 1) c) :
    hashPair H (merkleNode H leaves l (2 * i)) c.h = merkleNode H leaves (l + 1) i := by
  rw [h.hash]
  exact (nodeAt_pair h.inside).symm

theorem Matched.right (h : Matched H leaves branchpos l (2 * i + 1) branch) :
    Matched H leaves branchpos (l + 1) i (branch ++ [merkleNode H leaves l (2 * i)]) := by
  refine ⟨?_, ?_⟩
  · rw [pow_succ, ← Nat.div_div_eq_div_mul, h.1]
    omega
  · rw [merkleSiblings_succ, ← h.2, branchAt_right h.1]

theorem Matched.left (h : Matched H leaves branchpos l (2 * i) branch)
    (hin : (2 * i + 1) * 2 ^ l < leaves.length) :
    Matched H leaves branchpos (l + 1) i (branch ++ [merkleNode H leaves l (2 * i + 1)]) := by
  refine ⟨?_, ?_⟩
  · rw [pow_succ, ← Nat.div_div_eq_div_mul, h.1]
    omega
  · rw [merkleSiblings_succ, ← h.2, branchAt_left h.1 hin]

theorem Matched.last (h : Matched H leaves branchpos l (2 * i) branch)
    (hout : leaves.length ≤ (2 * i + 1) * 2 ^ l) :
    Matched H leaves branchpos (l + 1) i (branch ++ [merkleNode H leaves l (2 * i)]) := by
  refine ⟨?_, ?_⟩
  · rw [pow_succ, ← Nat.div_div_eq_div_mul, h.1]
    omega
  · rw [merkleSiblings_succ, ← h.2, branchAt_last h.1 hout]

theorem Matched.level_eq (h : Matched H leaves branchpos l q branch)
    (h' : Matched H leaves branchpos l' q' branch) : l = l' := by
  have hlen := congrArg List.length (h.2.symm.trans h'.2)
  simpa [merkleSiblings] using hlen

theorem meet_right (hc : c.At H leaves count l (2 * i + 1)) (hv : v.Below H leaves branchpos count l)
    (hmatch : c.matchh = true → Matched H leaves branchpos l (2 * i + 1) v.branch) :
    ∃ branch matchh, v.meet c = ({ v with branch }, matchh) ∧
      ({ v with branch } : MerkleVars).Below H leaves branchpos count (l + 1) ∧
      (matchh = true → Matched H leaves branchpos (l + 1) i branch ∧
        (c.matchh = true ∨ v.matchlevel = some l)) ∧
      (matchh = false → c.matchh = false ∧ v.matchlevel ≠ some l ∧ branch = v.branch) := by
  have hinner := hv.inner l i le_rfl hc.ends
  unfold MerkleVars.meet
  cases hm : c.matchh with
  | true =>
    rw [hc.level, hinner]
    refine ⟨_, _, rfl, ⟨fun j i hj => hv.inner j i (by omega), ?_⟩, fun _ =>
      ⟨(hmatch hm).right, .inl rfl⟩, nofun⟩
    intro j i' hj hcount hlevel
    -- An earlier match cannot be above the one that climbs.
    have heq := (hmatch hm).level_eq (hv.matched j i' (by omega) hcount hlevel)
    omega
  | false =>
    by_cases hlevel : v.matchlevel = some l
    · have hleft := hv.matched l i le_rfl hc.ends hlevel
      rw [hc.level, if_neg (by simp), if_pos hlevel, hc.hash]
      refine ⟨_, _, rfl, ⟨fun j i hj => hv.inner j i (by omega), ?_⟩, fun _ =>
        ⟨hleft.left hc.inside, .inr hlevel⟩, nofun⟩
      intro j i' hj _ hlevel'
      rw [hlevel] at hlevel'
      cases hlevel'
      omega
    · rw [hc.level, if_neg (by simp), if_neg hlevel]
      exact ⟨_, _, rfl, ⟨fun j i hj => hv.inner j i (by omega), fun j i hj =>
        hv.matched j i (by omega)⟩, nofun, fun _ => ⟨rfl, hlevel, rfl⟩⟩

theorem climb_spec (fuel : Nat) (hc : c.At H leaves count l q)
    (hv : v.Below H leaves branchpos count l)
    (hmatch : c.matchh = true → Matched H leaves branchpos l q v.branch)
    (hfuel : count < 2 ^ (l + fuel)) :
    ∃ l' q', Climbed H leaves branchpos count l c v l' q' (climb H count fuel c v).1
      (climb H count fuel c v).2 := by
  induction fuel generalizing c v l q with
  | zero =>
    have hone := Nat.le_mul_of_pos_left (2 ^ l) (Nat.succ_pos q)
    rw [hc.ends, Nat.add_zero] at hfuel
    exact absurd hfuel (not_lt.mpr hone)
  | succ fuel ih =>
    unfold climb
    rw [hc.level]
    by_cases hq : q % 2 = 0
    · rw [if_pos ((testBit_count hc.ends).mpr hq)]
      refine ⟨l, q, le_rfl, hc, hq, rfl, rfl, ?_, hmatch, .inl, fun hm => ⟨hm, rfl, ?_⟩⟩
      · refine ⟨.inl, fun h => h.resolve_right ?_⟩
        rintro ⟨j, i, hj, hcount, -⟩
        exact not_even_multiple hc.ends hq hj i hcount
      · intro j hj hlt
        omega
    · rw [if_neg (mt (testBit_count hc.ends).mp hq)]
      obtain ⟨i, rfl⟩ : ∃ i, q = 2 * i + 1 := ⟨q / 2, by omega⟩
      have hinner := hv.inner l i le_rfl hc.ends
      obtain ⟨branch, matchh, hmeet, hbelow, hmatched, hunmatched⟩ := meet_right hc hv hmatch
      rw [hmeet]
      dsimp only
      rw [hinner, hc.up, hc.hash]
      have hc' : Climber.At H leaves count (l + 1) i ⟨merkleNode H leaves (l + 1) i,
        l + 1, matchh⟩ := by
        refine ⟨rfl, ?_, ?_, rfl⟩
        · rw [hc.ends, pow_succ]
          ring
        · have hin := hc.inside
          rw [pow_succ]
          nlinarith [Nat.two_pow_pos l]
      obtain ⟨l', q', h⟩ := ih (v := { v with
          branch
          mutated := v.mutated || decide (merkleNode H leaves l (2 * i) = merkleNode H leaves l
            (2 * i + 1)) })
        hc' ⟨hbelow.inner, hbelow.matched⟩ (fun hm => (hmatched hm).1) (by rwa [Nat.add_right_comm])
      have hle := h.le
      refine ⟨l', q', by omega, h.place, h.even, h.inner, h.matchlevel, ?_, h.matched, fun hm => ?_,
        fun hm => ?_⟩
      · rw [h.mutated, Bool.or_eq_true, decide_eq_true_eq, or_assoc]
        refine or_congr_right ⟨?_, ?_⟩
        · rintro (heq | ⟨j, i', hj, hrest⟩)
          · exact ⟨l, i, le_rfl, hc.ends, heq⟩
          · exact ⟨j, i', by omega, hrest⟩
        · rintro ⟨j, i', hj, hcount, heq⟩
          rcases hj.eq_or_lt with rfl | hj
          · have hi : 2 * i + 2 = 2 * i' + 2 :=
              Nat.eq_of_mul_eq_mul_right (Nat.two_pow_pos l) (hc.ends.symm.trans hcount)
            obtain rfl : i = i' := by omega
            exact .inl heq
          · exact .inr ⟨j, i', hj, hcount, heq⟩
      · rcases h.source hm with hm' | hlevel
        · exact (hmatched hm').2.imp_right fun hlevel => ⟨l, by omega, hlevel⟩
        · exact .inr hlevel
      · obtain ⟨hm', hbranch, hlevels⟩ := h.unmatched hm
        obtain ⟨hm'', hne, hsame⟩ := hunmatched hm'
        refine ⟨hm'', hbranch.trans hsame, fun j hj hlt => ?_⟩
        rcases hj.eq_or_lt with rfl | hj
        · exact hne
        · exact hlevels j hj hlt

/-- After `count` leaves there is a hash for each bit of `count` that is set. -/
structure MerkleVars.Folded (H : Bytes → Uint256) (leaves : List Uint256) (branchpos count : Nat)
    (v : MerkleVars) : Prop where
  inner : ∀ l i, count / 2 ^ l = 2 * i + 1 → v.inner l = merkleNode H leaves l (2 * i)
  mutated : v.mutated = true ↔ ∃ j i, (2 * i + 2) * 2 ^ j ≤ count ∧
    merkleNode H leaves j (2 * i) = merkleNode H leaves j (2 * i + 1)
  before : count ≤ branchpos → v.matchlevel = none ∧ v.branch = []
  after : branchpos < count → ∃ l i, v.matchlevel = some l ∧ count / 2 ^ l = 2 * i + 1 ∧
    Matched H leaves branchpos l (2 * i) v.branch

theorem div_of_ends (h : count + 1 = (q + 1) * 2 ^ l) : count / 2 ^ l = q := by
  have hpos := Nat.two_pow_pos l
  rw [Nat.succ_mul] at h
  exact Nat.div_eq_of_lt_le (by omega) (by rw [Nat.succ_mul]; omega)

theorem div_above (h : count + 1 = (q + 1) * 2 ^ l) (hq : q % 2 = 0) (hl : l < j) :
    (count + 1) / 2 ^ j = count / 2 ^ j := by
  rw [Nat.succ_div, if_neg, Nat.add_zero]
  rintro ⟨d, hd⟩
  cases d with
  | zero => simp at hd
  | succ d =>
    obtain ⟨k, rfl⟩ := Nat.exists_eq_add_of_lt hl
    refine not_even_multiple h hq (Nat.le_add_right l k) (2 ^ 0 * d) ?_
    rw [hd, pow_succ]
    ring

theorem MerkleVars.Folded.below (h : v.Folded H leaves branchpos count) :
    v.Below H leaves branchpos (count + 1) 0 where
  inner j i _ hcount := h.inner j i (div_of_ends hcount)
  matched j i _ hcount hlevel := by
    by_cases hpos : count ≤ branchpos
    · rw [(h.before hpos).1] at hlevel
      cases hlevel
    · obtain ⟨l, i', hlevel', hdiv, hmatched⟩ := h.after (Nat.lt_of_not_le hpos)
      obtain rfl : l = j := Option.some.inj (hlevel'.symm.trans hlevel)
      have hdiv' := div_of_ends hcount
      obtain rfl : i' = i := by omega
      exact hmatched

theorem addLeaf_spec (h : v.Folded H leaves branchpos count) (hcount : count < leaves.length)
    (hlength : leaves.length < 2 ^ 32) :
    (addLeaf H branchpos count (leaves.getD count 0) v).Folded H leaves branchpos (count + 1) := by
  have hc : Climber.At H leaves (count + 1) 0 count ⟨leaves.getD count 0, 0, count = branchpos⟩ :=
    ⟨rfl, by simp, by simpa using hcount, rfl⟩
  have hmatch : decide (count = branchpos) = true →
      Matched H leaves branchpos 0 count v.branch := by
    intro heq
    have heq := of_decide_eq_true heq
    refine ⟨by simpa using heq.symm, ?_⟩
    rw [(h.before heq.le).2]
    rfl
  obtain ⟨l', q', hup⟩ := climb_spec 32 hc h.below hmatch (by omega)
  unfold addLeaf
  generalize climb H (count + 1) 32 ⟨leaves.getD count 0, 0, count = branchpos⟩ v = r at hup
  obtain ⟨c', v'⟩ := r
  obtain ⟨i', hi'⟩ : ∃ i', q' = 2 * i' := ⟨q' / 2, by have := hup.even; omega⟩
  have hends := hup.place.ends
  have hdiv : (count + 1) / 2 ^ l' = q' + 1 := by
    rw [hends]
    exact Nat.mul_div_cancel _ (Nat.two_pow_pos l')
  refine ⟨fun l i hl => ?_, ?_, fun hpos => ?_, fun hpos => ?_⟩
  · dsimp only
    rw [hup.place.level, hup.place.hash, hup.inner]
    rcases lt_trichotomy l l' with hlt | rfl | hlt
    · -- The lower bits are zero now.
      obtain ⟨k, rfl⟩ := Nat.exists_eq_add_of_lt hlt
      have heven : (count + 1) / 2 ^ l = (q' + 1) * 2 ^ k * 2 := by
        rw [hends, mul_two_pow_div]
      omega
    · rw [Function.update_self]
      obtain rfl : q' = 2 * i := by omega
      rfl
    · rw [Function.update_of_ne (by omega)]
      rw [div_above hends hup.even hlt] at hl
      exact h.inner l i hl
  · rw [hup.mutated, h.mutated]
    constructor
    · rintro (⟨j, i, hle, heq⟩ | ⟨j, i, -, hcount, heq⟩)
      · exact ⟨j, i, by omega, heq⟩
      · exact ⟨j, i, hcount.symm.le, heq⟩
    · rintro ⟨j, i, hle, heq⟩
      rcases hle.eq_or_lt with hcount | hlt
      · exact .inr ⟨j, i, Nat.zero_le j, hcount.symm, heq⟩
      · exact .inl ⟨j, i, by omega, heq⟩
  · have hbefore := h.before (by omega)
    cases hm : c'.matchh with
    | true =>
      have hmatched := (hup.matched hm).1
      rw [Nat.div_eq_iff (Nat.two_pow_pos l')] at hmatched
      rw [hends, Nat.succ_mul] at hpos
      have := Nat.two_pow_pos l'
      omega
    | false =>
      obtain ⟨-, hbranch, -⟩ := hup.unmatched hm
      refine ⟨?_, hbranch.trans hbefore.2⟩
      dsimp only
      rw [if_neg (by rw [hm]; simp), hup.matchlevel, hbefore.1]
  · cases hm : c'.matchh with
    | true =>
      refine ⟨l', i', ?_, by rw [hdiv, hi'], hi' ▸ hup.matched hm⟩
      dsimp only
      rw [if_pos hm, hup.place.level]
    | false =>
      obtain ⟨hne, hbranch, hlevels⟩ := hup.unmatched hm
      have hne := of_decide_eq_false hne
      obtain ⟨l, i, hlevel, hl, hmatched⟩ := h.after (by omega)
      have hge : l' ≤ l := by
        by_contra hlt
        exact hlevels l (Nat.zero_le l) (by omega) hlevel
      have hneq : l ≠ l' := by
        rintro rfl
        have := div_of_ends hends
        omega
      refine ⟨l, i, ?_, ?_, hbranch ▸ hmatched⟩
      · dsimp only
        rw [if_neg (by rw [hm]; simp), hup.matchlevel, hlevel]
      · rw [div_above hends hup.even (by omega), hl]

theorem foldl_addLeaf_spec (hlength : leaves.length < 2 ^ 32) (pre rest : List Uint256)
    (hleaves : leaves = pre ++ rest) (h : v.Folded H leaves branchpos pre.length) :
    ((rest.zipIdx pre.length).foldl (fun v (leaf, i) => addLeaf H branchpos i leaf v) v).Folded
      H leaves branchpos leaves.length := by
  induction rest generalizing pre v with
  | nil =>
    obtain rfl : leaves = pre := by simpa using hleaves
    exact h
  | cons leaf rest ih =>
    have hhead : leaf = leaves.getD pre.length 0 := by simp [hleaves]
    have hstep := addLeaf_spec h (by simp [hleaves]) hlength
    rw [← hhead] at hstep
    have hrest := ih (pre ++ [leaf]) (by simp [hleaves]) (by simpa using hstep)
    simpa using hrest

theorem lowestBit_spec (hcount : count = (q + 1) * 2 ^ l) (fuel : Nat)
    (hfuel : count < 2 ^ (l + fuel)) :
    ∃ i, count = (2 * i + 1) * 2 ^ lowestBit count fuel l := by
  induction fuel generalizing l q with
  | zero =>
    have hone := Nat.le_mul_of_pos_left (2 ^ l) (Nat.succ_pos q)
    rw [hcount, Nat.add_zero] at hfuel
    exact absurd hfuel (not_lt.mpr hone)
  | succ fuel ih =>
    unfold lowestBit
    by_cases hq : q % 2 = 0
    · rw [if_pos ((testBit_count hcount).mpr hq)]
      exact ⟨q / 2, by rw [hcount, show 2 * (q / 2) = q by omega]⟩
    · rw [if_neg (mt (testBit_count hcount).mp hq)]
      refine ih (q := q / 2) ?_ (by rwa [Nat.add_right_comm])
      rw [hcount, pow_succ, show q + 1 = (q / 2 + 1) * 2 by omega]
      ring

/-- `c` is the last node of its level. -/
structure Sweeping (H : Bytes → Uint256) (leaves : List Uint256)
    (branchpos count l i : Nat) (c : Climber) (v : MerkleVars) : Prop where
  place : c.At H leaves count l (2 * i)
  last : leaves.length ≤ count
  least : 2 ^ l < 2 * leaves.length
  bound : count ≤ 2 ^ 31
  inner : ∀ j k, l < j → leaves.length / 2 ^ j = 2 * k + 1 → v.inner j = merkleNode H leaves j (2 * k)
  matched : c.matchh = true → Matched H leaves branchpos l (2 * i) v.branch
  stale : c.matchh = true → ∀ j, v.matchlevel = some j → j ≤ l
  outside : leaves.length ≤ branchpos → v.matchlevel = none
  unmatched : c.matchh = false → branchpos < leaves.length → ∃ j k, l < j ∧ v.matchlevel = some j ∧
    leaves.length / 2 ^ j = 2 * k + 1 ∧ Matched H leaves branchpos j (2 * k) v.branch

section
variable (h : Sweeping H leaves branchpos count l i c v)
include h

theorem Sweeping.div (hj : l < j)
    (hcount : (2 * i + 2) * 2 ^ l = (k + 1) * 2 ^ j) : leaves.length / 2 ^ j = k := by
  have hin := h.place.inside
  have hlast := h.last
  rw [h.place.ends] at hlast
  have hpow : 2 * 2 ^ l ≤ 2 ^ j := by
    rw [← Nat.pow_succ']
    exact Nat.pow_le_pow_right two_pos hj
  refine Nat.div_eq_of_lt_le ?_ ?_
  · nlinarith
  · nlinarith

theorem Sweeping.up : hashPair H c.h c.h = merkleNode H leaves (l + 1) i := by
  have hlast := h.last
  rw [h.place.ends] at hlast
  rw [h.place.hash]
  exact (nodeAt_odd hlast).symm

theorem Sweeping.room (hi : i ≠ 0) : (2 * i + 2) * 2 ^ l ≤ 2 ^ 31 := by
  have hbound := h.bound
  rw [h.place.ends] at hbound
  have hl : l < 31 := by
    by_contra hl
    have hpow := Nat.pow_le_pow_right two_pos (Nat.le_of_not_lt hl)
    nlinarith [Nat.pos_of_ne_zero hi]
  obtain ⟨d, hd⟩ := Nat.exists_eq_add_of_lt hl
  rw [hd, Nat.add_assoc, pow_add, pow_succ, mul_comm] at hbound ⊢
  have hodd := Nat.le_of_mul_le_mul_left hbound (Nat.two_pow_pos l)
  exact Nat.mul_le_mul_left _ (by omega)

theorem Sweeping.below (branch : List Uint256)
    (hbranch : c.matchh = false → branch = v.branch) :
    ({ v with branch } : MerkleVars).Below H leaves branchpos ((2 * i + 2) * 2 ^ l) (l + 1) where
  inner j k hj hcount := h.inner j k hj (h.div hj hcount)
  matched j k hj hcount hlevel := by
    have hdiv := h.div hj hcount
    have hin : branchpos < leaves.length := by
      by_contra hout
      have hnone := h.outside (Nat.le_of_not_lt hout)
      exact absurd (hnone.symm.trans hlevel) (by simp)
    cases hm : c.matchh with
    | true =>
      have := h.stale hm j hlevel
      omega
    | false =>
      obtain ⟨j', k', -, hlevel', hdiv', hmatched⟩ := h.unmatched hm hin
      obtain rfl : j' = j := Option.some.inj (hlevel'.symm.trans hlevel)
      obtain rfl : k' = k := by omega
      exact hbranch hm ▸ hmatched

theorem Sweeping.next (hi : i ≠ 0)
    (hbranch : c.matchh = false → branch = v.branch)
    (hup : Climbed H leaves branchpos ((2 * i + 2) * 2 ^ l) (l + 1)
      ⟨merkleNode H leaves (l + 1) i, l + 1, c.matchh⟩ { v with branch } l' (2 * i') c' v')
    (mutated : Bool) : Sweeping H leaves branchpos ((2 * i + 2) * 2 ^ l) l' i' c' { v' with
      mutated } := by
  have hle := hup.le
  have hends := hup.place.ends
  have hin := h.place.inside
  have hlast := h.last
  rw [h.place.ends] at hlast
  refine ⟨hup.place, by nlinarith, ?_, h.room hi, fun j k hj hdiv => ?_, hup.matched, ?_,
    fun hout => hup.matchlevel.trans (h.outside hout), fun hm hbranchpos => ?_⟩
  · nlinarith [Nat.pos_of_ne_zero hi]
  · rw [hup.inner]
    exact h.inner j k (by omega) hdiv
  · intro hm j hlevel
    have hlevel : v.matchlevel = some j := hup.matchlevel.symm.trans hlevel
    rcases hup.source hm with hm' | ⟨j', hj', hlevel'⟩
    · have := h.stale hm' j hlevel
      omega
    · obtain rfl : j' = j := Option.some.inj (hlevel'.symm.trans hlevel)
      exact hj'.le
  · obtain ⟨hm', hsame, hlevels⟩ := hup.unmatched hm
    obtain ⟨j, k, hj, hlevel, hdiv, hmatched⟩ := h.unmatched hm' hbranchpos
    have hge : l' ≤ j := by
      by_contra hlt
      exact hlevels j hj (by omega) hlevel
    have hne : j ≠ l' := by
      rintro rfl
      have := h.div hj hends
      omega
    refine ⟨j, k, by omega, hup.matchlevel.trans hlevel, hdiv, ?_⟩
    exact (hsame.trans (hbranch hm')).symm ▸ hmatched

end

structure Swept (H : Bytes → Uint256) (leaves : List Uint256) (branchpos : Nat) (mutated : Bool)
    (c : Climber) (v : MerkleVars) : Prop where
  root : c.h = merkleNode H leaves (MerkleTree.height leaves.length) 0
  mutated : v.mutated = mutated
  branch : branchpos < leaves.length →
    v.branch = merkleSiblings H leaves branchpos (MerkleTree.height leaves.length)

theorem Sweeping.done (h : Sweeping H leaves branchpos count l 0 c v) :
    Swept H leaves branchpos v.mutated c v := by
  have hlast := h.last
  rw [h.place.ends] at hlast
  obtain rfl := eq_height (by simpa using hlast) h.least
  refine ⟨h.place.hash, rfl, fun hbranchpos => ?_⟩
  cases hm : c.matchh with
  | true => exact (h.matched hm).2
  | false =>
    obtain ⟨j, k, hj, -, hdiv, -⟩ := h.unmatched hm hbranchpos
    have hbig : 2 ^ j ≤ leaves.length := by
      by_contra hlt
      rw [Nat.div_eq_of_lt (Nat.lt_of_not_le hlt)] at hdiv
      omega
    have := Nat.pow_lt_pow_right one_lt_two hj
    omega

theorem sweep_spec (fuel : Nat) (h : Sweeping H leaves branchpos count l i c v)
    (hfuel : 31 < l + fuel) :
    Swept H leaves branchpos v.mutated (sweep H fuel count c v).1 (sweep H fuel count c v).2 := by
  have hends := h.place.ends
  induction fuel generalizing count l i c v with
  | zero =>
    have hbound := h.bound
    have hpow := Nat.pow_lt_pow_right one_lt_two hfuel
    rw [Nat.add_zero] at hpow
    nlinarith
  | succ fuel ih =>
    unfold sweep
    rw [h.place.level]
    by_cases hi : i = 0
    · subst hi
      rw [if_pos (by rw [hends]; simp)]
      exact h.done
    · have hone : count ≠ 2 ^ l := by
        have hpos := Nat.two_pow_pos l
        nlinarith [Nat.pos_of_ne_zero hi]
      rw [if_neg hone, h.up, hends, show (2 * i + 1) * 2 ^ l + 2 ^ l = (2 * i + 2) * 2 ^ l by ring]
      have hc' : Climber.At H leaves ((2 * i + 2) * 2 ^ l) (l + 1) i
          ⟨merkleNode H leaves (l + 1) i, l + 1, c.matchh⟩ :=
        ⟨rfl, by rw [pow_succ]; ring, by have := h.place.inside; rw [pow_succ]; linarith, rfl⟩
      have hlast := h.last
      rw [hends] at hlast
      have hpush : (if c.matchh = true then { v with branch := v.branch ++ [c.h] } else v) =
          { v with branch := if c.matchh = true then v.branch ++ [c.h] else v.branch } := by
        split <;> rfl
      rw [hpush]
      have hkept : c.matchh = false → (if c.matchh = true then v.branch ++ [c.h] else v.branch) =
        v.branch :=
        fun hm => if_neg (by rw [hm]; simp)
      have hmatched : c.matchh = true → Matched H leaves branchpos (l + 1) i
          (if c.matchh = true then v.branch ++ [c.h] else v.branch) := by
        intro hm
        rw [if_pos hm, h.place.hash]
        exact (h.matched hm).last hlast
      have hroom : (2 * i + 2) * 2 ^ l < 2 ^ (l + 1 + 32) :=
        (h.room hi).trans_lt (Nat.pow_lt_pow_right one_lt_two (by omega))
      obtain ⟨l', q', hup⟩ := climb_spec 32 hc' (h.below _ hkept) hmatched hroom
      obtain ⟨i', rfl⟩ : ∃ i', q' = 2 * i' := ⟨q' / 2, by have := hup.even; omega⟩
      have hnext := h.next hi hkept hup v.mutated
      have hle := hup.le
      exact ih hnext (by omega) hnext.place.ends

theorem sweeping_start (hne : leaves ≠ []) (hlength : leaves.length < 2 ^ 31)
    (h : v.Folded H leaves branchpos leaves.length) :
    ∃ i, Sweeping H leaves branchpos leaves.length (lowestBit leaves.length 32 0) i
      ⟨v.inner (lowestBit leaves.length 32 0), lowestBit leaves.length 32 0,
        v.matchlevel = some (lowestBit leaves.length 32 0)⟩ v := by
  have hpos := List.length_pos_of_ne_nil hne
  obtain ⟨i, hi⟩ : ∃ i, leaves.length = (2 * i + 1) * 2 ^ lowestBit leaves.length 32 0 :=
    lowestBit_spec (q := leaves.length - 1) (by omega) 32 (by omega)
  generalize lowestBit leaves.length 32 0 = l at hi ⊢
  have hpow := Nat.two_pow_pos l
  have hdiv : leaves.length / 2 ^ l = 2 * i + 1 := by
    rw [hi]
    exact Nat.mul_div_cancel _ hpow
  refine ⟨i, ⟨rfl, hi, by nlinarith, h.inner l i hdiv⟩, le_rfl, by nlinarith, hlength.le,
    fun j k _ => h.inner j k, fun hm => ?_, fun hm j hlevel => ?_, fun hout => (h.before hout).1,
    fun hm hin => ?_⟩
  · have hlevel := of_decide_eq_true hm
    have hin : branchpos < leaves.length := by
      by_contra hout
      rw [(h.before (Nat.le_of_not_lt hout)).1] at hlevel
      cases hlevel
    obtain ⟨l', i', hlevel', hdiv', hmatched⟩ := h.after hin
    obtain rfl : l' = l := Option.some.inj (hlevel'.symm.trans hlevel)
    obtain rfl : i' = i := by omega
    exact hmatched
  · exact (Option.some.inj (hlevel.symm.trans (of_decide_eq_true hm))).le
  · obtain ⟨j, k, hlevel, hdiv', hmatched⟩ := h.after hin
    refine ⟨j, k, ?_, hlevel, hdiv', hmatched⟩
    have hne : j ≠ l := by
      rintro rfl
      exact of_decide_eq_false hm hlevel
    by_contra hlt
    -- Below the lowest bit there is nothing.
    obtain ⟨d, rfl⟩ := Nat.exists_eq_add_of_lt (show j < l by omega)
    have heven : leaves.length / 2 ^ j = (2 * i + 1) * 2 ^ d * 2 := by
      rw [hi, mul_two_pow_div]
    omega

structure Computed (H : Bytes → Uint256) (leaves : List Uint256) (branchpos : Nat)
    (r : Uint256 × Bool × List Uint256) : Prop where
  root : r.1 = MerkleTree.root (hashPair H) (fun i => leaves.getD i 0) leaves.length
  mutated : r.2.1 = true ↔ ∃ j i, (2 * i + 2) * 2 ^ j ≤ leaves.length ∧
    merkleNode H leaves j (2 * i) = merkleNode H leaves j (2 * i + 1)
  branch : branchpos < leaves.length →
    r.2.2 = merkleSiblings H leaves branchpos (MerkleTree.height leaves.length)

theorem merkleComputation_spec (hne : leaves ≠ []) (hlength : leaves.length < 2 ^ 31)
    (branchpos : Nat) :
    Computed H leaves branchpos (merkleComputation H leaves branchpos) := by
  have hstart : (⟨fun _ => 0, false, none, []⟩ : MerkleVars).Folded H leaves branchpos 0 := by
    refine ⟨fun l i hl => ?_, ?_, fun _ => ⟨rfl, rfl⟩, nofun⟩
    · rw [Nat.zero_div] at hl
      omega
    · refine ⟨nofun, ?_⟩
      rintro ⟨j, i, hle, -⟩
      have := Nat.two_pow_pos j
      nlinarith
  have hfolded := foldl_addLeaf_spec (show leaves.length < 2 ^ 32 by omega) [] leaves rfl hstart
  rw [merkleComputation, if_neg (by simpa using hne)]
  rw [List.length_nil] at hfolded
  obtain ⟨i, hsweeping⟩ := sweeping_start hne hlength hfolded
  have hswept := sweep_spec 32 hsweeping (by omega)
  refine ⟨hswept.root, ?_, hswept.branch⟩
  rw [← hfolded.mutated, ← hswept.mutated]

theorem computeMerkleRoot_spec (hne : leaves ≠ []) (hlength : leaves.length < 2 ^ 31) :
    (computeMerkleRoot H leaves).1 =
      MerkleTree.root (hashPair H) (fun i => leaves.getD i 0) leaves.length ∧
    ((computeMerkleRoot H leaves).2 = true ↔ ∃ j i, (2 * i + 2) * 2 ^ j ≤ leaves.length ∧
      merkleNode H leaves j (2 * i) = merkleNode H leaves j (2 * i + 1)) := by
  have h := merkleComputation_spec (H := H) hne hlength (2 ^ 32 - 1)
  exact ⟨h.root, h.mutated⟩

theorem computeMerkleRootFromBranch_siblings (hpos : position < leaves.length) (l : Nat) :
    (merkleSiblings H leaves position l).foldl (fun (hash, nIndex) sibling =>
      (if nIndex % 2 = 1 then hashPair H sibling hash else hashPair H hash sibling, nIndex / 2))
      (leaves.getD position 0, position) =
        (merkleNode H leaves l (position / 2 ^ l), position / 2 ^ l) := by
  induction l with
  | zero => simp [merkleSiblings, merkleNode, MerkleTree.nodeAt]
  | succ l ih =>
    rw [merkleSiblings_succ, List.foldl_append, ih]
    simp only [List.foldl_cons, List.foldl_nil]
    rw [Nat.div_div_eq_div_mul, ← pow_succ]
    exact congrArg (·, _) (nodeAt_branch hpos l).symm

theorem levelRoot_leaves (hne : leaves ≠ []) : MerkleTree.levelRoot (hashPair H) 0 leaves =
    MerkleTree.root (hashPair H) (fun i => leaves.getD i 0) leaves.length := by
  have hbottom : MerkleTree.level (hashPair H) (fun i =>
    leaves.getD i 0) leaves.length 0 = leaves := by
    refine List.ext_getElem (by simp [MerkleTree.level]) fun i hi hi' => ?_
    simp [MerkleTree.level, MerkleTree.nodeAt, hi']
  rw [← levelRoot_level (List.length_pos_of_ne_nil hne) (Nat.zero_le _), hbottom]

/-- The streaming computation gives the root of the tree that is built level by level, and
its branches lead there. -/
theorem computeMerkleRoot_levels (H : Bytes → Uint256) (leaves : List Uint256)
    (hlength : leaves.length < 2 ^ 31) :
    (computeMerkleRoot H leaves).1 = MerkleTree.levelRoot (hashPair H) 0 leaves ∧
      ∀ position (hposition : position < leaves.length),
        computeMerkleRootFromBranch H leaves[position]
        (computeMerkleBranch H leaves position) position =
          MerkleTree.levelRoot (hashPair H) 0 leaves := by
  by_cases hne : leaves = []
  · subst hne
    refine ⟨?_, nofun⟩
    rw [MerkleTree.levelRoot]
    rfl
  · have hpos := List.length_pos_of_ne_nil hne
    rw [levelRoot_leaves hne]
    refine ⟨(computeMerkleRoot_spec hne hlength).1, fun position hposition => ?_⟩
    rw [computeMerkleBranch, (merkleComputation_spec hne hlength position).branch hposition,
      computeMerkleRootFromBranch, ← List.getD_eq_getElem leaves 0 hposition,
      computeMerkleRootFromBranch_siblings hposition]
    have htop : position / 2 ^ MerkleTree.height leaves.length = 0 := by
      have hroot : ¬ 1 < width leaves.length (MerkleTree.height leaves.length) := by
        rw [width_height hpos]
        omega
      rw [lt_width_iff] at hroot
      exact Nat.div_eq_of_lt (by omega)
    rw [htop]
    rfl

theorem computeMerkleRoot_levels_three :
    let H : Bytes → Uint256 := fun bytes => BitVec.ofNat 256 (ofLeBytes bytes % 1000003)
    (computeMerkleRoot H [1, 2, 3]).1 = MerkleTree.levelRoot (hashPair H) 0 [1, 2, 3] ∧
      computeMerkleRootFromBranch H 3 (computeMerkleBranch H [1, 2, 3] 2) 2 =
        MerkleTree.levelRoot (hashPair H) 0 [1, 2, 3] := by
  intro H
  have h := computeMerkleRoot_levels H [1, 2, 3] (by decide)
  exact ⟨h.1, h.2 2 (by decide)⟩

end

end OurChain
