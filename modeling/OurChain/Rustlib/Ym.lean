import OurChain.Lib.Codec

/-!
# The 0/1 encoding of amounts

`s0s1` of the Rust library encodes a number for a comparison without revealing it:
the 1-encoding of `x` is a list of its prefixes that end in a one, the 0-encoding of
`y` of its prefixes that end in a zero with that zero turned into a one, and the two
have an element in common if and only if `x` is greater. The places where the bit is
of the other kind are filled with random numbers, and only digests are published.
-/

namespace OurChain

open List

namespace Ym

abbrev U64 := BitVec 64

/-- The loop of `s0s1` over the remaining places; `none` is a random dummy. -/
def prefixesFrom (setType : BitVec 8) : Nat → U64 → U64 → List (Option U64)
  | 0, _, _ => []
  | k + 1, n, mask =>
    (if ((n &&& mask == 0) != (setType == 0)) then none
      else if setType == 0 then some (n ||| mask)
      else some n) :: prefixesFrom setType k (n &&& ~~~mask) (mask <<< 1)

def prefixes (coinLen : Nat) (setType : BitVec 8) (n : U64) : List (Option U64) :=
  prefixesFrom setType coinLen n 1

/-- The array `s`, with the random number that is drawn at each place. -/
def elements (rand : Nat → U64) (coinLen : Nat) (setType : BitVec 8) (n : U64) : List U64 :=
  (prefixes coinLen setType n).zipIdx.map fun (u, i) => u.getD (rand i)

-- The outer digest is taken of the text of the inner one.
def digestTwice (digest : Bytes → Bytes) (u : U64) : Bytes := digest (digest (leBytes 8 u.toNat))

def s0s1 (digest : Bytes → Bytes) (rand : Nat → U64) (coinLen : Nat) (setType : BitVec 8) (n : U64) :
    List Bytes :=
  (elements rand coinLen setType n).map (digestTwice digest)

def COIN_LEN : Nat := 6

/-- `n` down to bit `i`, which is set. -/
def upTo (n : U64) (i : Nat) : U64 := (n >>> i ||| 1) <<< i

theorem getLsbD_upTo (n : U64) (hi : i < 64) (j : Nat) :
    (upTo n i).getLsbD j = (decide (j = i) || decide (i < j) && n.getLsbD j) := by
  rcases lt_trichotomy j i with hlt | rfl | hgt
  · simp [upTo, hlt, hlt.ne, hlt.not_gt]
  · simp [upTo, hi]
  · have hback : i + (j - i) = j := by omega
    have hne : j - i ≠ 0 := by omega
    by_cases h64 : j < 64
    · simp [upTo, h64, hback, hne, hgt, hgt.ne', hgt.not_gt]
    · have hout := BitVec.getLsbD_of_ge n j (Nat.le_of_not_lt h64)
      simp [upTo, h64, hout, hgt.ne']

theorem upTo_inj (hi : i < 64) (hj : j < 64) :
    upTo x i = upTo y j ↔ i = j ∧ ∀ k, i < k → x.getLsbD k = y.getLsbD k := by
  constructor
  · intro h
    have hbits : ∀ k, (decide (k = i) || decide (i < k) && x.getLsbD k) =
        (decide (k = j) || decide (j < k) && y.getLsbD k) := by
      intro k
      rw [← getLsbD_upTo x hi, ← getLsbD_upTo y hj, h]
    obtain rfl : i = j := by
      have hi := hbits i
      have hj := hbits j
      by_contra hne
      rcases Nat.lt_or_gt_of_ne hne with hlt | hlt
      · simp [hlt.not_gt, hne] at hi
      · simp [hlt.not_gt, Ne.symm hne] at hj
    refine ⟨rfl, fun k hk => ?_⟩
    simpa [hk, hk.ne'] using hbits k
  · rintro ⟨rfl, h⟩
    refine BitVec.eq_of_getLsbD_eq fun k _ => ?_
    rw [getLsbD_upTo x hi, getLsbD_upTo y hi]
    by_cases hk : i < k
    · simp [hk, h k hk]
    · simp [hk]

def Cleared (n : U64) (i : Nat) (m : U64) : Prop :=
  ∀ j, m.getLsbD j = (decide (i ≤ j) && n.getLsbD j)

theorem Cleared.next (h : Cleared n i m) : Cleared n (i + 1) (m &&& ~~~BitVec.twoPow 64 i) := by
  intro j
  rw [BitVec.getLsbD_and, h, BitVec.getLsbD_not, BitVec.getLsbD_twoPow]
  by_cases hj : j < 64
  · rcases lt_trichotomy i j with hlt | rfl | hgt
    · simp [hlt, hlt.le, hlt.ne, hj]
    · simp
    · simp [hgt.not_ge, Nat.not_le.mpr (Nat.lt_succ_of_lt hgt)]
  · simp [BitVec.getLsbD_of_ge n j (Nat.le_of_not_lt hj)]

theorem Cleared.masked (h : Cleared n i m) (hi : i < 64) :
    (m &&& BitVec.twoPow 64 i == 0) = !n.getLsbD i := by
  have hpow : BitVec.twoPow 64 i ≠ 0#64 := by
    intro hzero
    simpa [hi] using congrArg (fun u => BitVec.getLsbD u i) hzero
  rw [BitVec.and_twoPow, h]
  cases n.getLsbD i <;> simp [hpow]

theorem Cleared.or (h : Cleared n i m) (hi : i < 64) : m ||| BitVec.twoPow 64 i = upTo n i := by
  refine BitVec.eq_of_getLsbD_eq fun j hj => ?_
  rw [getLsbD_upTo n hi, BitVec.getLsbD_or, h, BitVec.getLsbD_twoPow]
  rcases lt_trichotomy i j with hlt | rfl | hgt
  · simp [hlt, hlt.le, hlt.ne, hlt.ne']
  · simp [hi]
  · simp [hgt.not_ge, hgt.not_gt, hgt.ne, hgt.ne']

theorem Cleared.eq (h : Cleared n i m) (hi : i < 64) (hone : n.getLsbD i = true) : m = upTo n i := by
  refine BitVec.eq_of_getLsbD_eq fun j hj => ?_
  rw [getLsbD_upTo n hi, h]
  rcases lt_trichotomy i j with hlt | rfl | hgt
  · simp [hlt, hlt.le, hlt.ne']
  · simp [hone]
  · simp [hgt.not_ge, hgt.not_gt, hgt.ne]

theorem prefixesFrom_eq (setType : BitVec 8) (k : Nat) (hk : i + k ≤ 64) (h : Cleared n i m) :
    prefixesFrom setType k m (BitVec.twoPow 64 i) = (List.range' i k).map fun i =>
      if n.getLsbD i = (setType != 0) then some (upTo n i) else none := by
  induction k generalizing i m with
  | zero => rfl
  | succ k ih =>
    have hi : i < 64 := by omega
    have hmask : BitVec.twoPow 64 i <<< 1 = BitVec.twoPow 64 (i + 1) := by
      simp [BitVec.twoPow_eq, BitVec.shiftLeft_add]
    rw [prefixesFrom, range'_succ, map_cons, hmask, ih (by omega) h.next, h.masked hi, h.or hi]
    congr 1
    by_cases htype : setType = 0#8 <;> by_cases hbit : n.getLsbD i = true
    · simp [htype, hbit]
    · simp [htype, hbit]
    · simp [htype, hbit, h.eq hi hbit]
    · simp [htype, hbit]

theorem prefixes_eq (hlen : coinLen ≤ 64) (setType : BitVec 8) (n : U64) :
    prefixes coinLen setType n = (List.range coinLen).map fun i =>
      if n.getLsbD i = (setType != 0) then some (upTo n i) else none := by
  rw [range_eq_range']
  exact prefixesFrom_eq (i := 0) setType coinLen (by omega) fun j => by simp

theorem getElem?_prefixes (hlen : coinLen ≤ 64) :
    (prefixes coinLen setType n)[i]? = some (some u) ↔
      i < coinLen ∧ n.getLsbD i = (setType != 0) ∧ u = upTo n i := by
  rw [prefixes_eq hlen, getElem?_map, Option.map_eq_some_iff]
  simp only [List.getElem?_eq_some_iff, length_range, getElem_range]
  constructor
  · rintro ⟨_, ⟨hi, rfl⟩, h⟩
    split at h
    · cases h
      exact ⟨hi, by assumption, rfl⟩
    · cases h
  · rintro ⟨hi, hbit, rfl⟩
    exact ⟨i, ⟨hi, rfl⟩, if_pos hbit⟩

theorem lt_iff_exists_bit (x y : U64) : y < x ↔
    ∃ i, x.getLsbD i = true ∧ y.getLsbD i = false ∧ ∀ k, i < k → x.getLsbD k = y.getLsbD k := by
  rw [BitVec.lt_def]
  simp only [BitVec.getLsbD]
  constructor
  · intro hlt
    obtain ⟨i, hi, habove⟩ := Nat.exists_most_significant_bit (n := x.toNat ^^^ y.toNat)
      (fun hzero => hlt.ne' (Nat.xor_eq_zero_iff.mp hzero))
    simp only [Nat.testBit_xor, bne_eq_false_iff_eq, bne_iff_ne] at hi habove
    cases hx : x.toNat.testBit i with
    | true => exact ⟨i, hx, by simpa [hx] using hi, habove⟩
    | false =>
      have hy : y.toNat.testBit i = true := by simpa [hx] using hi
      exact absurd (Nat.lt_of_testBit i hx hy habove) hlt.not_gt
  · rintro ⟨i, hx, hy, habove⟩
    exact Nat.lt_of_testBit i hy hx fun k hk => (habove k hk).symm

theorem highest_unique {x y : U64}
    (hi : x.getLsbD i = true ∧ y.getLsbD i = false ∧ ∀ k, i < k → x.getLsbD k = y.getLsbD k)
    (hj : x.getLsbD j = true ∧ y.getLsbD j = false ∧ ∀ k, j < k → x.getLsbD k = y.getLsbD k) :
    i = j := by
  rcases lt_trichotomy i j with hlt | heq | hlt
  · simpa [hj.1, hj.2.1] using hi.2.2 j hlt
  · exact heq
  · simpa [hi.1, hi.2.1] using hj.2.2 i hlt

theorem common_prefix_iff (hlen : coinLen ≤ 64) :
    (prefixes coinLen 1 x)[i]? = some (some u) ∧ (prefixes coinLen 0 y)[j]? = some (some u) ↔
      i < coinLen ∧ j = i ∧ u = upTo x i ∧ x.getLsbD i = true ∧ y.getLsbD i = false ∧
        ∀ k, i < k → x.getLsbD k = y.getLsbD k := by
  rw [getElem?_prefixes hlen, getElem?_prefixes hlen]
  constructor
  · rintro ⟨⟨hi, hx, rfl⟩, hj, hy, heq⟩
    obtain ⟨rfl, habove⟩ := (upTo_inj (by omega) (by omega)).mp heq
    exact ⟨hi, rfl, rfl, hx, hy, habove⟩
  · rintro ⟨hi, rfl, rfl, hx, hy, habove⟩
    exact ⟨⟨hi, hx, rfl⟩, hi, hy, (upTo_inj (by omega) (by omega)).mpr ⟨rfl, habove⟩⟩

theorem exists_common_prefix_iff (hlen : coinLen ≤ 64)
    (hagree : ∀ i, coinLen ≤ i → x.getLsbD i = y.getLsbD i) :
    (∃ u, some u ∈ prefixes coinLen 1 x ∧ some u ∈ prefixes coinLen 0 y) ↔ y < x := by
  rw [lt_iff_exists_bit]
  constructor
  · rintro ⟨u, hx, hy⟩
    obtain ⟨i, hi⟩ := mem_iff_getElem?.mp hx
    obtain ⟨j, hj⟩ := mem_iff_getElem?.mp hy
    obtain ⟨-, -, -, hx, hy, habove⟩ := (common_prefix_iff hlen).mp ⟨hi, hj⟩
    exact ⟨i, hx, hy, habove⟩
  · rintro ⟨i, hx, hy, habove⟩
    have hi : i < coinLen := by
      by_contra hout
      rw [hagree i (Nat.le_of_not_lt hout), hy] at hx
      cases hx
    obtain ⟨hx, hy⟩ := (common_prefix_iff hlen).mpr ⟨hi, rfl, rfl, hx, hy, habove⟩
    exact ⟨_, mem_of_getElem? hx, mem_of_getElem? hy⟩

theorem mem_elements : u ∈ elements rand coinLen setType n ↔ some u ∈ prefixes coinLen setType n ∨
    ∃ i, (prefixes coinLen setType n)[i]? = some none ∧ u = rand i := by
  simp only [elements, List.mem_map, Prod.exists, mk_mem_zipIdx_iff_getElem?]
  constructor
  · rintro ⟨v, i, hv, rfl⟩
    cases v with
    | none => exact .inr ⟨i, hv, rfl⟩
    | some v => exact .inl (mem_of_getElem? hv)
  · rintro (hu | ⟨i, hi, rfl⟩)
    · obtain ⟨i, hi⟩ := mem_iff_getElem?.mp hu
      exact ⟨_, i, hi, rfl⟩
    · exact ⟨_, i, hi, rfl⟩

def DummiesAvoid (rand : Nat → U64) (coinLen : Nat) (setType : BitVec 8) (n : U64)
    (others : U64 → Prop) : Prop :=
  ∀ i, (prefixes coinLen setType n)[i]? = some none → ¬ others (rand i)

theorem s0s1_compare (hlen : coinLen ≤ 64) (x y : U64)
    (hagree : ∀ i, coinLen ≤ i → x.getLsbD i = y.getLsbD i) :
    ((∃ u, some u ∈ prefixes coinLen 1 x ∧ some u ∈ prefixes coinLen 0 y) ↔ x > y) ∧
      (x > y → ∃ (i : Nat) (u : U64), ∀ (j k : Nat) v, (prefixes coinLen 1 x)[j]? = some (some v) ∧
        (prefixes coinLen 0 y)[k]? = some (some v) ↔ j = i ∧ k = i ∧ v = u) ∧
      ∀ digest rand rand', Function.Injective (digestTwice digest) →
        DummiesAvoid rand coinLen 1 x (· ∈ elements rand' coinLen 0 y) →
        DummiesAvoid rand' coinLen 0 y (· ∈ elements rand coinLen 1 x) →
        ((∃ d ∈ s0s1 digest rand coinLen 1 x, d ∈ s0s1 digest rand' coinLen 0 y) ↔ x > y) := by
  have hiff := exists_common_prefix_iff hlen hagree
  refine ⟨hiff, fun hlt => ?_, fun digest rand rand' hdigest hdummies hdummies' => ?_⟩
  · obtain ⟨u, hx, hy⟩ := hiff.mpr hlt
    obtain ⟨i, hi⟩ := mem_iff_getElem?.mp hx
    obtain ⟨k, hk⟩ := mem_iff_getElem?.mp hy
    have hcommon := (common_prefix_iff hlen).mp ⟨hi, hk⟩
    refine ⟨i, u, fun j k v => ⟨fun h => ?_, ?_⟩⟩
    · obtain ⟨-, rfl, rfl, hdiff⟩ := (common_prefix_iff hlen).mp h
      obtain rfl := highest_unique hdiff hcommon.2.2.2
      exact ⟨rfl, rfl, hcommon.2.2.1.symm⟩
    · rintro ⟨rfl, rfl, rfl⟩
      obtain ⟨-, rfl, -⟩ := hcommon
      exact ⟨hi, hk⟩
  · rw [gt_iff_lt, ← hiff]
    constructor
    · rintro ⟨d, hd, hd'⟩
      obtain ⟨u, hu, rfl⟩ := List.mem_map.mp hd
      obtain ⟨u', hu', heq⟩ := List.mem_map.mp hd'
      obtain rfl := hdigest heq
      refine ⟨u', ?_, ?_⟩
      · refine (mem_elements.mp hu).resolve_right ?_
        rintro ⟨i, hi, rfl⟩
        exact hdummies i hi hu'
      · refine (mem_elements.mp hu').resolve_right ?_
        rintro ⟨i, hi, rfl⟩
        exact hdummies' i hi hu
    · rintro ⟨u, hu, hu'⟩
      exact ⟨_, List.mem_map_of_mem (mem_elements.mpr (.inl hu)),
        List.mem_map_of_mem (mem_elements.mpr (.inl hu'))⟩

theorem digestTwice_id_injective : Function.Injective (digestTwice id) := by
  intro u v h
  have hnat := congrArg ofLeBytes h
  simp only [digestTwice, id, ofLeBytes_leBytes] at hnat
  refine BitVec.eq_of_toNat_eq ?_
  omega

theorem s0s1_compare_ten :
    (∃ d ∈ s0s1 id (fun _ => 100) COIN_LEN 1 15, d ∈ s0s1 id (fun _ => 200) COIN_LEN 0 10) ↔
    (15 : U64) > 10 := by
  have hagree : ∀ i, COIN_LEN ≤ i → (15 : U64).getLsbD i = (10 : U64).getLsbD i := by
    intro i hi
    have hpow : 2 ^ 6 ≤ 2 ^ i := Nat.pow_le_pow_right two_pos hi
    have hx : Nat.testBit 15 i = false := Nat.testBit_lt_two_pow (by omega)
    have hy : Nat.testBit 10 i = false := Nat.testBit_lt_two_pow (by omega)
    exact hx.trans hy.symm
  refine (s0s1_compare (by decide) 15 10 hagree).2.2 id _ _ digestTwice_id_injective ?_ ?_
  · intro i _
    change (100 : U64) ∉ elements (fun _ => 200) COIN_LEN 0 10
    decide
  · intro i _
    change (200 : U64) ∉ elements (fun _ => 100) COIN_LEN 1 15
    decide

/-- Dummies that are no real element of either list, but the same in both: the digests of equal
numbers have one in common. -/
theorem s0s1_shared_dummy : ∃ (digest : Bytes → Bytes) (rand rand' : Nat → U64),
    Function.Injective (digestTwice digest) ∧
      DummiesAvoid rand COIN_LEN 1 1
        (fun u => some u ∈ prefixes COIN_LEN 1 1 ++ prefixes COIN_LEN 0 1) ∧
      DummiesAvoid rand' COIN_LEN 0 1
        (fun u => some u ∈ prefixes COIN_LEN 1 1 ++ prefixes COIN_LEN 0 1) ∧
      (∃ d ∈ s0s1 digest rand COIN_LEN 1 1, d ∈ s0s1 digest rand' COIN_LEN 0 1) ∧
      ¬ (1 : U64) > 1 := by
  have hreal : some (100 : U64) ∉ prefixes COIN_LEN 1 1 ++ prefixes COIN_LEN 0 1 := by decide
  refine ⟨id, fun _ => 100, fun _ => 100, digestTwice_id_injective, fun _ _ => hreal,
    fun _ _ => hreal, ?_, by decide⟩
  decide

end Ym

end OurChain
