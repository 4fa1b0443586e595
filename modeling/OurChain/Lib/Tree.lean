import Mathlib

/-!
# Nodes of a tree seen from below

A node is its value together with its parent, so a node is also the chain from
the root up to it. `path` lists that chain from the node down, `branch` from the
root up, and `since q` is the part of the branch above `q`.
-/

namespace OurChain

open List

inductive Node (α : Type) where
  | root (value : α)
  | child (parent : Node α) (value : α)
  deriving DecidableEq

instance [DecidableEq α] : LawfulBEq (Node α) := inferInstance

namespace Node

variable {α : Type}

def value : Node α → α
  | root a => a
  | child _ a => a

def pprev : Node α → Option (Node α)
  | root _ => none
  | child parent _ => some parent

def height : Node α → Nat
  | root _ => 0
  | child parent _ => parent.height + 1

def path : Node α → List (Node α)
  | root a => [root a]
  | child parent a => child parent a :: parent.path

def branch : Node α → List (Node α)
  | root a => [root a]
  | child parent a => parent.branch ++ [child parent a]

/-- The nodes of the branch above `q`, or all of them. -/
def since [DecidableEq α] (q : Option (Node α)) : Node α → List (Node α)
  | root a => if some (root a) = q then [] else [root a]
  | child parent a =>
    if some (child parent a) = q then [] else parent.since q ++ [child parent a]

def ancestorAt (n : Node α) (height : Nat) : Option (Node α) := n.branch[height]?

def map {β : Type} (f : α → β) : Node α → Node β
  | root a => root (f a)
  | child parent a => child (parent.map f) (f a)

variable {a b c n p q : Node α}

theorem height_pos (h : n.pprev = some p) : 0 < n.height := by
  cases n with
  | root _ => cases h
  | child _ _ => exact Nat.succ_pos _

theorem exists_child (h : n.pprev = some p) : ∃ a, n = child p a := by
  cases n with
  | root _ => cases h
  | child _ a =>
    cases h
    exact ⟨a, rfl⟩

theorem induction_pprev {motive : Option (Node α) → Prop} (none : motive none)
    (node : ∀ n : Node α, motive n.pprev → motive (some n)) (p : Option (Node α)) : motive p := by
  cases p with
  | none => exact none
  | some n =>
    induction n with
    | root a => exact node _ none
    | child p a ih => exact node _ ih

theorem branch_eq_reverse_path (n : Node α) : n.branch = n.path.reverse := by
  induction n with
  | root a => rfl
  | child p a ih => simp [branch, path, ih]

@[simp] theorem mem_branch (a n : Node α) : a ∈ n.branch ↔ a ∈ n.path := by
  rw [branch_eq_reverse_path, mem_reverse]

@[simp] theorem mem_path_self (n : Node α) : n ∈ n.path := by
  cases n <;> simp [path]

theorem length_branch (n : Node α) : n.branch.length = n.height + 1 := by
  induction n with
  | root a => rfl
  | child p a ih => simp [branch, height, ih]

theorem mem_path_child {x : α} (h : a ∈ (child p x).path) : a = child p x ∨ a ∈ p.path := by
  simpa [path] using h

theorem mem_path_parent (p : Node α) (x : α) : p ∈ (child p x).path :=
  mem_cons_of_mem _ (mem_path_self p)

theorem path_trans (hab : a ∈ b.path) (hbc : b ∈ c.path) : a ∈ c.path := by
  induction c with
  | root x =>
    cases mem_singleton.mp hbc
    exact hab
  | child p x ih =>
    rcases mem_path_child hbc with rfl | hbc
    · exact hab
    · exact mem_cons_of_mem _ (ih hbc)

theorem height_le_of_mem_path (h : a ∈ n.path) : a.height ≤ n.height := by
  induction n with
  | root x => cases mem_singleton.mp h; exact Nat.le_refl _
  | child p x ih =>
    rcases mem_path_child h with rfl | h
    · exact Nat.le_refl _
    · exact Nat.le_succ_of_le (ih h)

theorem child_ne_of_mem_path {x : α} (h : q ∈ p.path) : child p x ≠ q := by
  rintro rfl
  have := height_le_of_mem_path h
  simp only [height] at this
  omega

theorem eq_of_mem_path (ha : a ∈ n.path) (hb : b ∈ n.path) (h : a.height = b.height) : a = b := by
  induction n with
  | root x =>
    cases mem_singleton.mp ha
    cases mem_singleton.mp hb
    rfl
  | child p x ih =>
    rcases mem_path_child ha with rfl | ha <;> rcases mem_path_child hb with rfl | hb
    · rfl
    · have := height_le_of_mem_path hb
      simp only [height] at h
      omega
    · have := height_le_of_mem_path ha
      simp only [height] at h
      omega
    · exact ih ha hb

theorem height_lt_of_mem_path (h : a ∈ n.path) (hne : a ≠ n) : a.height < n.height :=
  Nat.lt_of_le_of_ne (height_le_of_mem_path h) fun heq => hne (eq_of_mem_path h (mem_path_self n) heq)

theorem exists_mem_path (h : k ≤ n.height) : ∃ a ∈ n.path, a.height = k := by
  induction n with
  | root x => exact ⟨root x, by simp, (Nat.le_zero.mp h).symm⟩
  | child p x ih =>
    rcases Nat.lt_or_ge p.height k with hlt | hge
    · exact ⟨child p x, by simp, Nat.le_antisymm hlt h⟩
    · obtain ⟨a, ha, hk⟩ := ih hge
      exact ⟨a, mem_cons_of_mem _ ha, hk⟩

section
variable {β : Type} (f : α → β)

theorem ancestorAt_spec (h : k ≤ n.height) :
    ∃ a, n.ancestorAt k = some a ∧ a ∈ n.path ∧ a.height = k := by
  induction n with
  | root x =>
    cases Nat.le_zero.mp h
    exact ⟨root x, rfl, mem_path_self _, rfl⟩
  | child p x ih =>
    rcases Nat.lt_or_eq_of_le h with hlt | rfl
    · obtain ⟨a, hget, hmem, hheight⟩ := ih (Nat.le_of_lt_succ hlt)
      refine ⟨a, ?_, mem_cons_of_mem _ hmem, hheight⟩
      exact (getElem?_append_left (by rw [length_branch]; exact hlt)).trans hget
    · refine ⟨child p x, ?_, mem_path_self _, rfl⟩
      rw [ancestorAt, branch, getElem?_append_right (by rw [length_branch]; exact Nat.le_refl _),
        length_branch, height, Nat.sub_self]
      rfl

theorem ancestorAt_eq_some : n.ancestorAt k = some a ↔ a ∈ n.path ∧ a.height = k := by
  constructor
  · intro h
    have hk : k ≤ n.height := by
      have hlt := (List.getElem?_eq_some_iff.mp h).1
      rw [length_branch] at hlt
      omega
    obtain ⟨a', ha', hmem, hheight⟩ := ancestorAt_spec hk
    cases h.symm.trans ha'
    exact ⟨hmem, hheight⟩
  · rintro ⟨hmem, rfl⟩
    obtain ⟨a', ha', hmem', hheight⟩ := ancestorAt_spec (height_le_of_mem_path hmem)
    rw [ha', eq_of_mem_path hmem' hmem hheight]

theorem ancestorAt_of_mem_path (hq : q ∈ n.path) (hk : k ≤ q.height) :
    n.ancestorAt k = q.ancestorAt k := by
  obtain ⟨a, ha, hpath, hheight⟩ := ancestorAt_spec (hk.trans (height_le_of_mem_path hq))
  obtain ⟨a', ha', hpath', hheight'⟩ := ancestorAt_spec hk
  rw [ha, ha', eq_of_mem_path hpath (path_trans hpath' hq) (hheight.trans hheight'.symm)]

@[simp] theorem value_map (n : Node α) : (n.map f).value = f n.value := by
  cases n <;> rfl

@[simp] theorem height_map (n : Node α) : (n.map f).height = n.height := by
  induction n with
  | root a => rfl
  | child p a ih => simp [map, height, ih]

theorem path_map (n : Node α) : (n.map f).path = n.path.map (map f) := by
  induction n with
  | root a => rfl
  | child p a ih => simp [map, path, ih]

theorem ancestorAt_map (n : Node α) (k : Nat) :
    (n.map f).ancestorAt k = (n.ancestorAt k).map (map f) := by
  simp [ancestorAt, branch_eq_reverse_path, path_map, ← map_reverse]

theorem map_id (n : Node α) : n.map id = n := by
  induction n with
  | root a => rfl
  | child p a ih => simp [map, ih]

end

section
variable [DecidableEq α]

@[simp] theorem since_self (n : Node α) : n.since (some n) = [] := by
  cases n <;> simp [since]

theorem branch_eq_append_since (h : q ∈ n.path) : n.branch = q.branch ++ n.since (some q) := by
  induction n with
  | root a => cases mem_singleton.mp h; simp
  | child p a ih =>
    rcases mem_path_child h with rfl | h
    · simp
    · have hne : some (child p a) ≠ some q := fun heq => child_ne_of_mem_path h (Option.some.inj heq)
      simp only [branch, since, if_neg hne, ih h, append_assoc]

theorem since_of_notMem {q : Option (Node α)} (h : ∀ a ∈ n.path, q ≠ some a) :
    n.since q = n.branch := by
  induction n with
  | root a => simp [since, branch, (h (root a) (mem_path_self _)).symm]
  | child p a ih =>
    have hp : ∀ a ∈ p.path, q ≠ some a := fun a ha => h a (mem_cons_of_mem _ ha)
    simp [since, branch, (h _ (mem_path_self _)).symm, ih hp]

theorem since_none (n : Node α) : n.since none = n.branch := since_of_notMem (by simp)

theorem mem_since {q : Option (Node α)} (h : a ∈ n.since q) : a ∈ n.path := by
  induction n with
  | root x =>
    simp only [since] at h
    split at h
    · cases h
    · exact h
  | child p x ih =>
    simp only [since] at h
    split at h
    · cases h
    · rcases mem_append.mp h with h | h
      · exact mem_cons_of_mem _ (ih h)
      · rw [mem_singleton.mp h]
        exact mem_path_self _

theorem pairwise_since (h : q ∈ n.path) :
    (q :: n.since (some q)).Pairwise fun a b => a ∈ b.path ∧ a ≠ b := by
  induction n with
  | root x => cases mem_singleton.mp h; simp
  | child p x ih =>
    rcases mem_path_child h with rfl | h
    · simp
    · have hne : some (child p x) ≠ some q := fun heq => child_ne_of_mem_path h (Option.some.inj heq)
      rw [since, if_neg hne, ← cons_append]
      refine pairwise_append.mpr ⟨ih h, pairwise_singleton .., fun a ha b hb => ?_⟩
      cases mem_singleton.mp hb
      have hap : a ∈ p.path := by
        rcases mem_cons.mp ha with rfl | ha
        · exact h
        · exact mem_since ha
      exact ⟨mem_cons_of_mem _ hap, (child_ne_of_mem_path hap).symm⟩

omit [DecidableEq α] in
theorem mem_path_getLast {l : List (Node α)} (h : (q :: l).Pairwise fun a b => a ∈ b.path ∧ a ≠ b)
    (ha : a ∈ q :: l) : a ∈ (l.getLast?.getD q).path := by
  cases hlast : l.getLast? with
  | none =>
    rw [getLast?_eq_none_iff.mp hlast] at ha
    cases mem_singleton.mp ha
    exact mem_path_self a
  | some b =>
    obtain ⟨front, rfl⟩ := getLast?_eq_some_iff.mp hlast
    rw [← cons_append] at h ha
    rcases mem_append.mp ha with ha | ha
    · exact ((pairwise_append.mp h).2.2 a ha b (by simp)).1
    · cases mem_singleton.mp ha
      exact mem_path_self a

theorem getLast?_since (hne : some n ≠ q') : (n.since q').getLast? = some n := by
  cases n <;> simp [since, hne]

/-- The highest node of the branch of `n` that the branch of `t` has too. -/
def fork (t n : Node α) : Option (Node α) := n.path.find? fun a => a ∈ t.path

theorem fork_mem (h : fork t n = some q) : q ∈ n.path ∧ q ∈ t.path :=
  ⟨mem_of_find?_eq_some h, by simpa using find?_some h⟩

theorem mem_since_fork {t : Node α} (h : fork t n = some q) :
    a ∈ n.since (some q) ↔ a ∈ n.path ∧ a ∉ t.path := by
  induction n with
  | root x =>
    have hq := mem_singleton.mp (fork_mem h).1
    have hqt := (fork_mem h).2
    subst hq
    simp only [since_self, not_mem_nil, false_iff, not_and, not_not]
    intro ha
    rw [mem_singleton.mp ha]
    exact hqt
  | child p x ih =>
    by_cases hx : child p x ∈ t.path
    · have hq : q = child p x := by simpa [fork, path, hx] using h.symm
      subst hq
      simp only [since_self, not_mem_nil, false_iff, not_and, not_not]
      exact fun ha => path_trans ha hx
    · have hp : fork t p = some q := by simpa [fork, path, hx] using h
      have hne : some (child p x) ≠ some q := by
        rintro ⟨⟩
        exact hx (fork_mem h).2
      rw [since, if_neg hne, mem_append, ih hp, mem_singleton, path, mem_cons]
      constructor
      · rintro (⟨ha, hat⟩ | rfl)
        · exact ⟨.inr ha, hat⟩
        · exact ⟨.inl rfl, hx⟩
      · rintro ⟨rfl | ha, hat⟩
        · exact .inr rfl
        · exact .inl ⟨ha, hat⟩

theorem fork_of_mem (h : t ∈ n.path) : fork t n = some t := by
  induction n with
  | root x =>
    cases mem_singleton.mp h
    simp [fork, path]
  | child p x ih =>
    rcases mem_path_child h with rfl | h
    · simp [fork, path]
    · have hx : child p x ∉ t.path := by
        intro hx
        have hle := height_le_of_mem_path hx
        have hle' := height_le_of_mem_path h
        simp only [height] at hle
        omega
      simpa [fork, path, hx] using ih h

theorem mem_path_of_mem_takeWhile (ht : t ∈ n.path) (ha : a ∈ n.path.takeWhile (· ≠ t)) :
    t ∈ a.path := by
  induction n with
  | root x =>
    cases mem_singleton.mp ht
    simp [path] at ha
  | child p x ih =>
    rcases mem_path_child ht with rfl | htp
    · simp [path] at ha
    · have hne : child p x ≠ t := child_ne_of_mem_path htp
      rw [path, takeWhile_cons_of_pos (by simpa using hne)] at ha
      rcases mem_cons.mp ha with rfl | ha
      · exact ht
      · exact ih htp ha

end

end Node

/-- A set of nodes that contains the parents of its members and has one root. -/
structure Tree (α : Type) where
  nodes : Set (Node α)
  parent : ∀ p a, Node.child p a ∈ nodes → p ∈ nodes
  root : ∀ a b, Node.root a ∈ nodes → Node.root b ∈ nodes → a = b

theorem Tree.mem_of_mem_path (t : Tree α) (hn : n ∈ t.nodes) (ha : a ∈ n.path) : a ∈ t.nodes := by
  induction n with
  | root x => cases mem_singleton.mp ha; exact hn
  | child p x ih =>
    rcases Node.mem_path_child ha with rfl | ha
    · exact hn
    · exact ih (t.parent p x hn) ha

def Tree.below (n : Node α) : Tree α where
  nodes := { a | a ∈ n.path }
  parent p x h := Node.path_trans (Node.mem_path_parent p x) h
  root _ _ ha hb := Node.root.inj (Node.eq_of_mem_path ha hb rfl)

theorem Tree.fork_isSome [DecidableEq α] (t : Tree α) {m n : Node α} (hm : m ∈ t.nodes)
    (hn : n ∈ t.nodes) : ∃ q, Node.fork m n = some q := by
  have hroot : ∀ n ∈ t.nodes, ∃ x, Node.root x ∈ n.path ∧ Node.root x ∈ t.nodes := by
    intro n
    induction n with
    | root x => exact fun hn => ⟨x, by simp, hn⟩
    | child p x ih =>
      intro hn
      obtain ⟨y, hy, hyt⟩ := ih (t.parent p x hn)
      exact ⟨y, mem_cons_of_mem _ hy, hyt⟩
  obtain ⟨x, hx, hxt⟩ := hroot m hm
  obtain ⟨y, hy, hyt⟩ := hroot n hn
  cases t.root x y hxt hyt
  cases hfork : Node.fork m n with
  | some q => exact ⟨q, rfl⟩
  | none => simpa [hx] using find?_eq_none.mp hfork _ hy

end OurChain
