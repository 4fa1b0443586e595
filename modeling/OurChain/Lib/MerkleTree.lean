import Mathlib

/-!
# Merkle trees of any width

The tree over `n` leaves in which the last node of an odd level is paired with itself.
A node is named by its height and its position from the left; there are `⌈n / 2^height⌉`
of them. The tree is given in two ways, node by node and level by level.
-/

namespace OurChain

open Nat

namespace MerkleTree

def width (n height : Nat) : Nat := (n + 2 ^ height - 1) / 2 ^ height

theorem lt_width_iff : pos < width n height ↔ pos * 2 ^ height < n := by
  have hpos := Nat.two_pow_pos height
  rw [width, ← succ_le_iff, Nat.le_div_iff_mul_le hpos, Nat.succ_mul]
  omega

@[simp] theorem width_zero (n : Nat) : width n 0 = n := by simp [width]

theorem width_succ (n height : Nat) : width n (height + 1) = (width n height + 1) / 2 := by
  refine eq_of_forall_lt_iff fun pos => ?_
  have hhalf : pos < (width n height + 1) / 2 ↔ 2 * pos < width n height := by omega
  rw [hhalf, lt_width_iff, lt_width_iff, pow_succ]
  ring_nf

def height (n : Nat) : Nat := Nat.clog 2 n

theorem width_height (hn : 0 < n) : width n (height n) = 1 := by
  have hroot : 0 < width n (height n) := by rwa [lt_width_iff, Nat.zero_mul]
  have hone : ¬ 1 < width n (height n) := by
    rw [lt_width_iff, Nat.one_mul, not_lt]
    exact le_pow_clog one_lt_two n
  omega

theorem one_lt_width {h : Nat} (hh : h < height n) : 1 < width n h := by
  rw [lt_width_iff, Nat.one_mul]
  exact (lt_clog_iff_pow_lt one_lt_two).mp hh

theorem two_pow_height_lt (hn : 0 < n) : 2 ^ height n < 2 * n := by
  cases h : height n with
  | zero => omega
  | succ l =>
    have hlt : 2 ^ l < n := (lt_clog_iff_pow_lt one_lt_two).mp (show l < height n by omega)
    omega

theorem eq_height (hfit : n ≤ 2 ^ h) (hleast : 2 ^ h < 2 * n) : h = height n := by
  refine le_antisymm ?_ ((clog_le_iff_le_pow one_lt_two).mpr hfit)
  cases h with
  | zero => exact Nat.zero_le _
  | succ h =>
    refine succ_le_of_lt ((lt_clog_iff_pow_lt one_lt_two).mpr ?_)
    omega

section
variable {α : Type} (node : α → α → α) (leaf : Nat → α) (n : Nat)

def nodeAt : Nat → Nat → α
  | 0, pos => leaf pos
  | h + 1, pos =>
    node (nodeAt h (2 * pos))
      (if 2 * pos + 1 < width n h then nodeAt h (2 * pos + 1) else nodeAt h (2 * pos))

def root : α := nodeAt node leaf n (height n) 0

variable {node leaf n}

theorem nodeAt_pair (h : (2 * pos + 1) * 2 ^ l < n) : nodeAt node leaf n (l + 1) pos =
    node (nodeAt node leaf n l (2 * pos)) (nodeAt node leaf n l (2 * pos + 1)) := by
  rw [nodeAt, if_pos (lt_width_iff.mpr h)]

theorem nodeAt_odd (h : n ≤ (2 * pos + 1) * 2 ^ l) : nodeAt node leaf n (l + 1) pos =
    node (nodeAt node leaf n l (2 * pos)) (nodeAt node leaf n l (2 * pos)) := by
  rw [nodeAt, if_neg (by rw [lt_width_iff]; omega)]

variable (node) in
/-- The level above: adjacent nodes in pairs, the last one with itself if it has none. -/
def pairUp : List α → List α
  | [] => []
  | [a] => [node a a]
  | a :: b :: rest => node a b :: pairUp rest

theorem length_pairUp (level : List α) : (pairUp node level).length = (level.length + 1) / 2 := by
  induction level using pairUp.induct with
  | case1 => simp [pairUp]
  | case2 a => simp [pairUp]
  | case3 a b rest ih =>
    rw [pairUp, List.length_cons, ih, List.length_cons, List.length_cons]
    omega

variable (node) in
/-- Levels are built until one node is left; `none` is the root of no leaves. -/
def levelRoot (none : α) (level : List α) : α :=
  match level with
  | [] => none
  | [a] => a
  | a :: b :: rest => levelRoot none (pairUp node (a :: b :: rest))
termination_by level.length
decreasing_by
  rw [length_pairUp]
  simp only [List.length_cons]
  omega

theorem levelRoot_pairUp {none : α} {level : List α} (h : 1 < level.length) :
    levelRoot node none level = levelRoot node none (pairUp node level) := by
  match level with
  | [] => cases h
  | [_] => simp at h
  | _ :: _ :: _ => rw [levelRoot]

theorem pairUp_range (m : Nat) (f : Nat → α) : pairUp node ((List.range m).map f) =
    (List.range ((m + 1) / 2)).map fun p =>
      node (f (2 * p)) (if 2 * p + 1 < m then f (2 * p + 1) else f (2 * p)) := by
  induction m using Nat.twoStepInduction generalizing f with
  | zero => rfl
  | one => simp [pairUp]
  | more m ih _ =>
    have hhalf : (m + 2 + 1) / 2 = (m + 1) / 2 + 1 := by omega
    rw [List.range_succ_eq_map, List.range_succ_eq_map, hhalf, List.range_succ_eq_map]
    simp only [List.map_cons, List.map_map, pairUp]
    rw [show (f ∘ Nat.succ ∘ Nat.succ) = fun i => f (i + 2) from rfl, ih]
    congr 1
    refine List.map_congr_left fun p _ => ?_
    simp only [Function.comp, succ_eq_add_one]
    have hleft : 2 * (p + 1) = 2 * p + 2 := by omega
    have hfit : 2 * p + 2 + 1 < m + 2 ↔ 2 * p + 1 < m := by omega
    simp only [hleft, hfit]

variable (node leaf n) in
def level (h : Nat) : List α := (List.range (width n h)).map (nodeAt node leaf n h)

theorem pairUp_level (h : Nat) : pairUp node (level node leaf n h) = level node leaf n (h + 1) := by
  rw [level, pairUp_range, level, width_succ]
  rfl

theorem levelRoot_level {none : α} (hn : 0 < n) {h : Nat} (hh : h ≤ height n) :
    levelRoot node none (level node leaf n h) = root node leaf n := by
  induction hh using Nat.decreasingInduction with
  | self =>
    rw [level, width_height hn]
    simp [levelRoot, root]
  | of_succ h hh ih =>
    have hwide : 1 < (level node leaf n h).length := by
      rw [level, List.length_map, List.length_range]
      exact one_lt_width hh
    rw [levelRoot_pairUp hwide, pairUp_level]
    exact ih

variable (n) in
def sibling (l pos : Nat) : Nat :=
  if pos % 2 = 1 then pos - 1 else if pos + 1 < width n l then pos + 1 else pos

variable (node leaf n) in
/-- What the leaf at `pos` is hashed with at a height. -/
def branchAt (pos l : Nat) : α := nodeAt node leaf n l (sibling n l (pos / 2 ^ l))

theorem nodeAt_branch (hpos : pos < n) (l : Nat) : nodeAt node leaf n (l + 1) (pos / 2 ^ (l + 1)) =
    if pos / 2 ^ l % 2 = 1 then
      node (branchAt node leaf n pos l) (nodeAt node leaf n l (pos / 2 ^ l))
    else node (nodeAt node leaf n l (pos / 2 ^ l)) (branchAt node leaf n pos l) := by
  have hup : pos / 2 ^ (l + 1) = pos / 2 ^ l / 2 := by rw [pow_succ, Nat.div_div_eq_div_mul]
  have hin : pos / 2 ^ l * 2 ^ l < n := (div_mul_le_self _ _).trans_lt hpos
  rw [hup, branchAt, sibling]
  generalize pos / 2 ^ l = q at hin ⊢
  split
  · have hq : 2 * (q / 2) + 1 = q := by omega
    rw [nodeAt_pair (by rwa [hq]), hq, show q - 1 = 2 * (q / 2) by omega]
  · have hq : 2 * (q / 2) = q := by omega
    rw [nodeAt, hq]
    split <;> rfl

def right (n l pos : Nat) : Nat := if 2 * pos + 1 < width n l then 2 * pos + 1 else 2 * pos

/-- The node at a level that stands at `q` in the full tree below the root. -/
def shownFrom (n h : Nat) : Nat → Nat → Nat
  | 0, _ => 0
  | d + 1, q =>
    let pos := shownFrom n h d (q / 2)
    if q % 2 = 0 then 2 * pos else right n (h - (d + 1)) pos

def shown (n h l q : Nat) : Nat := shownFrom n h (h - l) q

theorem shown_top (n h q : Nat) : shown n h h q = 0 := by
  rw [shown, Nat.sub_self]
  rfl

theorem shown_down (hl : l < h) (q : Nat) : shown n h l q =
    if q % 2 = 0 then 2 * shown n h (l + 1) (q / 2) else right n l (shown n h (l + 1) (q / 2)) := by
  obtain ⟨d, rfl⟩ := Nat.exists_eq_add_of_lt hl
  rw [shown, show l + d + 1 - l = d + 1 by omega, shownFrom, shown,
    show l + d + 1 - (l + 1) = d by omega, show l + d + 1 - (d + 1) = l by omega]

theorem shown_lt_width (hn : 0 < n) (hl : l ≤ height n) (q : Nat) :
    shown n (height n) l q < width n l := by
  induction hl using Nat.decreasingInduction generalizing q with
  | self =>
    rw [shown_top, width_height hn]
    exact one_pos
  | of_succ l hl ih =>
    have hup := ih (q / 2)
    rw [lt_width_iff, pow_succ] at hup
    rw [shown_down hl]
    unfold right
    split
    · rw [lt_width_iff]
      linarith
    · split
      · assumption
      · rw [lt_width_iff]
        linarith

theorem shown_of_lt (hn : 0 < n) (hl : l ≤ height n) (hq : q < width n l) :
    shown n (height n) l q = q := by
  induction hl using Nat.decreasingInduction generalizing q with
  | self =>
    rw [width_height hn] at hq
    rw [shown_top]
    omega
  | of_succ l hl ih =>
    have hup : q / 2 < width n (l + 1) := by
      rw [width_succ]
      omega
    rw [shown_down hl, ih hup]
    unfold right
    split
    · omega
    · rw [if_pos (by omega)]
      omega

section
variable (node leaf n) in
def pairs : List (α × α) :=
  (List.range (height n)).flatMap fun l => (List.range (width n (l + 1))).map fun pos =>
    (nodeAt node leaf n l (2 * pos), nodeAt node leaf n l (right n l pos))

theorem mem_pairs (hl : l < height n) (hpos : pos < width n (l + 1)) :
    (nodeAt node leaf n l (2 * pos), nodeAt node leaf n l (right n l pos)) ∈ pairs node leaf n :=
  List.mem_flatMap.mpr ⟨l, List.mem_range.mpr hl,
    List.mem_map.mpr ⟨pos, List.mem_range.mpr hpos, rfl⟩⟩

theorem nodeAt_succ (l pos : Nat) : nodeAt node leaf n (l + 1) pos =
    node (nodeAt node leaf n l (2 * pos)) (nodeAt node leaf n l (right n l pos)) := by
  rw [nodeAt, right]
  split <;> rfl

theorem nodeAt_inj
    (hinj : ∀ p ∈ pairs node leaf n, ∀ p' ∈ pairs node leaf n, node p.1 p.2 = node p'.1 p'.2 → p = p')
    (hleaf : ∀ i < n, ∀ j < n, leaf i = leaf j → i = j) (hl : l ≤ height n) (hi : i < width n l)
    (hj : j < width n l) (heq : nodeAt node leaf n l i = nodeAt node leaf n l j) : i = j := by
  induction l generalizing i j with
  | zero =>
    rw [width_zero] at hi hj
    exact hleaf i hi j hj heq
  | succ l ih =>
    rw [nodeAt_succ, nodeAt_succ] at heq
    have hleft := (Prod.mk.inj (hinj _ (mem_pairs hl hi) _ (mem_pairs hl hj) heq)).1
    rw [width_succ] at hi hj
    have htwice := ih (by omega) (by omega) (by omega) hleft
    omega

variable (node) in
/-- No two pairs of the two trees have one hash, and no leaf is the hash of a pair. -/
structure NoCollision (leaf : Nat → α) (n : Nat) (leaf' : Nat → α) (n' : Nat) : Prop where
  inj : ∀ p ∈ pairs node leaf n, ∀ p' ∈ pairs node leaf' n', node p.1 p.2 = node p'.1 p'.2 → p = p'
  left : ∀ i < n, ∀ p ∈ pairs node leaf' n', leaf i ≠ node p.1 p.2
  right : ∀ i < n', ∀ p ∈ pairs node leaf n, leaf' i ≠ node p.1 p.2

theorem NoCollision.symm (h : NoCollision node leaf n leaf' n') :
    NoCollision node leaf' n' leaf n where
  inj p hp p' hp' heq := (h.inj p' hp' p hp heq.symm).symm
  left := h.right
  right := h.left

variable {leaf' : Nat → α} {n' : Nat}

section
variable (h : NoCollision node leaf n leaf' n') (hn : 0 < n) (hn' : 0 < n')
  (hroot : root node leaf n = root node leaf' n')
include h hn hn' hroot

theorem NoCollision.height_le : height n' ≤ height n := by
  by_contra hlt
  obtain ⟨e, he⟩ := Nat.exists_eq_add_of_lt (Nat.lt_of_not_le hlt)
  have hedge : ∀ d l, d + l = height n →
      nodeAt node leaf n l 0 = nodeAt node leaf' n' (l + e + 1) 0 := by
    intro d
    induction d with
    | zero =>
      intro l hl
      rw [show l + e + 1 = height n' by omega, show l = height n by omega]
      exact hroot
    | succ d ih =>
      intro l hl
      have hup := ih (l + 1) (by omega)
      rw [show l + 1 + e + 1 = l + e + 1 + 1 by omega, nodeAt_succ, nodeAt_succ] at hup
      have hroom : 0 < width n (l + 1) := by rwa [lt_width_iff, Nat.zero_mul]
      have hroom' : 0 < width n' (l + e + 1 + 1) := by rwa [lt_width_iff, Nat.zero_mul]
      exact (Prod.mk.inj (h.inj _ (mem_pairs (by omega) hroom) _ (mem_pairs (by omega) hroom') hup)).1
  have hbottom := hedge (height n) 0 rfl
  rw [nodeAt_succ] at hbottom
  have hroom' : 0 < width n' (0 + e + 1) := by rwa [lt_width_iff, Nat.zero_mul]
  exact h.left 0 hn _ (mem_pairs (by omega) hroom') hbottom

theorem NoCollision.shown_eq (hheight : height n' = height n) (hl : l ≤ height n)
    (q : Nat) : nodeAt node leaf n l (shown n (height n) l q) =
      nodeAt node leaf' n' l (shown n' (height n) l q) := by
  induction hl using Nat.decreasingInduction generalizing q with
  | self =>
    rw [shown_top, shown_top]
    rw [root, root, hheight] at hroot
    exact hroot
  | of_succ l hl ih =>
    have hup := ih (q / 2)
    rw [nodeAt_succ, nodeAt_succ] at hup
    have hpos := shown_lt_width hn (show l + 1 ≤ height n by omega) (q / 2)
    have hpos' := shown_lt_width hn' (show l + 1 ≤ height n' by omega) (q / 2)
    rw [hheight] at hpos'
    have hboth := Prod.mk.inj (h.inj _ (mem_pairs hl hpos) _ (mem_pairs (by omega) hpos') hup)
    rw [shown_down hl, shown_down hl]
    split
    · exact hboth.1
    · exact hboth.2

end

variable (node leaf n) in
def Duplicated : Prop :=
  ∃ l i, (2 * i + 2) * 2 ^ l ≤ n ∧ nodeAt node leaf n l (2 * i) = nodeAt node leaf n l (2 * i + 1)

theorem exists_odd_part (hn : 0 < n) : ∃ l i, n = (2 * i + 1) * 2 ^ l := by
  obtain ⟨l, m, hodd, hm⟩ := exists_eq_two_pow_mul_odd hn.ne'
  obtain ⟨i, rfl⟩ := hodd
  exact ⟨l, i, by rw [hm, mul_comm]⟩

theorem shown_last (hn : n = (2 * i + 1) * 2 ^ l) (hl : l < height n) :
    shown n (height n) l (2 * i + 1) = 2 * i := by
  have hpow := Nat.two_pow_pos l
  have hup : i < width n (l + 1) := by
    rw [lt_width_iff, hn, pow_succ]
    nlinarith
  rw [shown_down hl, if_neg (by omega), show (2 * i + 1) / 2 = i by omega,
    shown_of_lt (by rw [hn]; positivity) hl hup, right, if_neg]
  rw [lt_width_iff, hn]
  exact lt_irrefl _

theorem shown_copy (hn : n = (2 * i + 1) * 2 ^ (l + d)) (hl : l + d < height n)
    (hq : q / 2 ^ d = 2 * i + 1) : shown n (height n) l q = q - 2 ^ d := by
  induction d generalizing l q with
  | zero =>
    rw [pow_zero, Nat.div_one] at hq
    rw [hq, pow_zero]
    exact shown_last hn hl
  | succ d ih =>
    have hq' : q / 2 / 2 ^ d = 2 * i + 1 := by rw [Nat.div_div_eq_div_mul, ← pow_succ', hq]
    have hup := ih (l := l + 1) (q := q / 2) (by rw [hn]; ring_nf) (by omega) hq'
    have hge : 2 ^ d ≤ q / 2 := by
      by_contra hlt
      rw [div_eq_of_lt (Nat.lt_of_not_le hlt)] at hq'
      omega
    rw [shown_down (by omega), hup, pow_succ]
    split
    · omega
    · have hlt : q / 2 < (2 * i + 2) * 2 ^ d := by
        rw [← Nat.div_lt_iff_lt_mul (Nat.two_pow_pos d)]
        omega
      have hfull : 2 * (q / 2 - 2 ^ d) + 1 < width n l := by
        rw [lt_width_iff, hn, show l + (d + 1) = l + 1 + d by omega, pow_add, pow_succ]
        have hsub : q / 2 - 2 ^ d + 1 ≤ (2 * i + 1) * 2 ^ d := by
          have : (2 * i + 2) * 2 ^ d = (2 * i + 1) * 2 ^ d + 2 ^ d := by ring
          omega
        have hpos := Nat.two_pow_pos l
        nlinarith
      rw [right, if_pos hfull]
      omega

theorem NoCollision.duplicated_of_lt (h : NoCollision node leaf n leaf' n') (hn : 0 < n)
    (hlt : n < n') (hroot : root node leaf n = root node leaf' n') :
    Duplicated node leaf n ∨ Duplicated node leaf' n' := by
  have hn' : 0 < n' := by omega
  have hheight : height n' = height n :=
    le_antisymm (h.height_le hn hn' hroot) (h.symm.height_le hn' hn hroot.symm)
  have hfit : n' ≤ 2 ^ height n := by
    rw [← hheight]
    exact le_pow_clog one_lt_two n'
  have hshown := fun l (hl : l ≤ height n) => h.shown_eq hn hn' hroot hheight hl
  obtain ⟨l, i, hodd⟩ := exists_odd_part hn
  have hl : l < height n := by
    rw [← Nat.pow_lt_pow_iff_right one_lt_two]
    refine lt_of_le_of_lt ?_ (hlt.trans_le hfit)
    rw [hodd]
    exact Nat.le_mul_of_pos_left _ (succ_pos _)
  by_cases hfull : (2 * i + 2) * 2 ^ l ≤ n'
  · -- The second tree has the copy as a node of its own.
    refine .inr ⟨l, i, hfull, ?_⟩
    have hfirst := hshown l hl.le (2 * i)
    have hsecond := hshown l hl.le (2 * i + 1)
    rw [shown_last hodd hl] at hsecond
    rw [shown_of_lt hn hl.le (by rw [lt_width_iff]; nlinarith)] at hfirst
    rw [← hheight] at hfirst hsecond hl
    rw [shown_of_lt hn' hl.le (by rw [lt_width_iff]; nlinarith)] at hfirst hsecond
    exact hfirst.symm.trans hsecond
  · -- It has only a part of the copy, which is completed by a copy of its own.
    left
    obtain ⟨l', i', hodd'⟩ := exists_odd_part hn'
    have hlow : l' < l := by
      by_contra hge
      obtain ⟨e, rfl⟩ := Nat.exists_eq_add_of_le (Nat.le_of_not_lt hge)
      rw [pow_add, mul_left_comm, mul_comm] at hodd'
      rw [hodd, hodd'] at hlt
      rw [hodd'] at hfull
      have hmore := Nat.lt_of_mul_lt_mul_right hlt
      exact hfull (Nat.mul_le_mul_right _ hmore)
    obtain ⟨d, rfl⟩ := Nat.exists_eq_add_of_lt hlow
    -- All lengths in units of the smaller part.
    have hunit : 2 ^ (l' + d + 1) = 2 * 2 ^ d * 2 ^ l' := by ring
    have hlo : (2 * i + 1) * (2 * 2 ^ d) < 2 * i' + 1 := by
      rw [hodd, hodd', hunit, ← mul_assoc] at hlt
      exact Nat.lt_of_mul_lt_mul_right hlt
    have hhi : 2 * i' + 1 < (2 * i + 2) * (2 * 2 ^ d) := by
      rw [hodd', hunit, ← mul_assoc, not_le] at hfull
      exact Nat.lt_of_mul_lt_mul_right hfull
    have hcopy : ∀ q, 2 * i' ≤ q → q ≤ 2 * i' + 1 → shown n (height n) l' q = q - 2 ^ (d + 1) := by
      intro q hq hq'
      refine shown_copy (i := i) (by rw [hodd]; ring_nf) (by omega) ?_
      rw [pow_succ']
      refine Nat.div_eq_of_lt_le ?_ ?_
      · omega
      · exact lt_of_le_of_lt hq' hhi
    have hfirst := hshown l' (by omega) (2 * i')
    have hsecond := hshown l' (by omega) (2 * i' + 1)
    rw [hcopy _ le_rfl (le_succ _)] at hfirst
    rw [hcopy _ (le_succ _) le_rfl] at hsecond
    rw [← hheight] at hfirst hsecond
    rw [shown_of_lt hn' (by omega) (by rw [lt_width_iff, hodd']; nlinarith)] at hfirst
    rw [shown_last hodd' (by omega)] at hsecond
    have hhalf : (2 * i + 1) * (2 * 2 ^ d) = 2 * ((2 * i + 1) * 2 ^ d) := by ring
    have hhalf' : (2 * i + 2) * (2 * 2 ^ d) = 2 * ((2 * i + 1) * 2 ^ d) + 2 * 2 ^ d := by ring
    have hge : 2 ^ d ≤ (2 * i + 1) * 2 ^ d := Nat.le_mul_of_pos_left _ (succ_pos _)
    refine ⟨l', i' - 2 ^ d, ?_, ?_⟩
    · rw [hodd, hunit, ← mul_assoc]
      refine Nat.mul_le_mul_right _ ?_
      omega
    · rw [show 2 * (i' - 2 ^ d) = 2 * i' - 2 ^ (d + 1) by rw [pow_succ']; omega, hfirst, ← hsecond]
      congr 1
      omega

theorem NoCollision.duplicated (h : NoCollision node leaf n leaf' n') (hn : 0 < n) (hn' : 0 < n')
    (hroot : root node leaf n = root node leaf' n') (hne : n = n' → ∃ i < n, leaf i ≠ leaf' i) :
    Duplicated node leaf n ∨ Duplicated node leaf' n' := by
  rcases lt_trichotomy n n' with hlt | rfl | hlt
  · exact h.duplicated_of_lt hn hlt hroot
  · obtain ⟨i, hi, hdiff⟩ := hne rfl
    have heq := h.shown_eq hn hn' hroot rfl (Nat.zero_le _) i
    rw [shown_of_lt hn (Nat.zero_le _) (by rwa [width_zero])] at heq
    exact absurd heq hdiff
  · exact (h.symm.duplicated_of_lt hn' hlt hroot.symm).symm

end

end

end MerkleTree

end OurChain
